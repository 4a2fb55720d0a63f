import SeaSearch.Index.WalMode
import SeaSearch.Mapping.Properties

/-!
# The check of a document

`CheckDocumentOperation` flattens a document, and goes through its fields in the order of a map.
Each field first learns its property, then its value is converted to the type of the property.
-/

namespace SeaSearch

namespace Mapping

open List Versions

variable {N : Type}

structure DocLib (N : Type) extends GoLib N where
  /-- The text of a value for the verb `%v`. -/
  sprint : Json N → String
  /-- 0 and 1. -/
  ofBool : Bool → N
  isZero : N → Bool
  parseBool : String → Option Bool
  /-- The texts of the errors of `ToFloat64` and of `ParseInLocation`. -/
  floatError : Json N → String
  timeError : String → String → String
  /-- `json.Marshal` has an error for the other numbers. -/
  finite : N → Bool
  /-- The nearest `float64`. -/
  ofInt64 : Int → N

section Conversions

variable (lib : DocLib N)

/-- `zutils.ToFloat64`. -/
def toFloat : Json N → Option N
  | .num x => some x
  | .str s => lib.parseFloat s
  | .bool b => some (lib.ofBool b)
  | _ => none

def toBool : Json N → Option Bool
  | .bool b => some b
  | .str s => lib.parseBool s
  | .num x => some (!lib.isZero x)
  | _ => none

/-- `zutils.Unix`: the nanoseconds of a number whose unit is known by its size. -/
def unix (n : Int) : Int :=
  if n > 10 ^ 18 then n
  else if n > 10 ^ 15 then n * 10 ^ 3
  else if n > 10 ^ 12 then n * 10 ^ 6
  else n * 10 ^ 9

/-- A time that is not `IsZero`. -/
def notZero (value : String) (t : Int) : Except String Int :=
  if t = zeroTime then
    .error ("time format is [epoch_millis] but the value [" ++ value ++
      "] is not a valid timestamp")
  else .ok t

/-- `zutils.ParseTime` for a text. -/
def parseTimeText (value format timeZone : String) : Except String Int := do
  if value = "" then throw "time value is empty"
  let timFormat := if format ≠ "" then format else rfc3339
  let timZone ← if timeZone ≠ "" then
      match lib.parseTimeZone timeZone with
      | some zone => pure zone
      | none => throw ("invalid time zone: " ++ timeZone)
    else pure lib.utc
  if timFormat = "epoch_millis" then
    match lib.atoi value with
    | some n => notZero value (unix n)
    | none => throw ("time format is [epoch_millis] but the value [" ++ value ++
        "] can't convert to int")
  else
    match lib.parseInLocation timFormat value (some timZone) with
    | some t => pure t
    | none => throw ("time format is [" ++ timFormat ++ "] but the value [" ++ value ++
        "] parse err: " ++ lib.timeError timFormat value)

def parseTime (format timeZone : String) : Json N → Except String Int
  | .num x =>
    if lib.trunc x ≠ 0 then notZero (toString (lib.trunc x)) (unix (lib.trunc x))
    else .error "time value is empty"
  | .str s => parseTimeText lib s format timeZone
  | _ => .error "value type of time must be string / float64 / int64"

def convertError (key type : String) (value : Json N) (target : String) : String :=
  "field [" ++ key ++ "] was set type to [" ++ type ++ "] but the value [" ++ lib.sprint value ++
    "] can't convert to " ++ target

def timeFieldError (key : String) (value : Json N) (reason : String) : String :=
  "field [" ++ key ++ "] value [" ++ lib.sprint value ++ "] parse err: " ++ reason

/-- `checkField`: what is stored in place of a value. A type that is not known stores nothing. -/
def checkField (prop : Property) (key : String) (value : Json N) : Except String (Json N) :=
  match prop.type with
  | .text | .keyword => .ok (.str (lib.toString value))
  | .numeric =>
    match toFloat lib value with
    | some x => .ok (.num x)
    | none => .error (convertError lib key "numeric" value "int")
  | .bool =>
    match toBool lib value with
    | some b => .ok (.bool b)
    | none => .error (convertError lib key "bool" value "boolean")
  | .date | .time =>
    match parseTime lib prop.format prop.timeZone value with
    | .ok _ => .ok value
    | .error reason => .error (timeFieldError lib key value reason)
  | .vector | .other _ => .ok .null

def checkVectorItem (key : String) (value : Json N) : Except String (Json N) :=
  match toFloat lib value with
  | some x => .ok (.num x)
  | none => .error ("invliad vector feild " ++ key ++ ": " ++ lib.floatError value)

def checkVector (prop : Property) (key : String) (items : List (Json N)) :
    Except String (List (Json N)) :=
  if (items.length : Int) ≠ prop.dims then
    .error ("vector dims should be " ++ toString prop.dims ++ ", but got " ++ toString items.length)
  else items.mapM (checkVectorItem lib key)

/-- The body of the loop over the fields, after the property is known. A vector that is no list is
not checked. -/
def checkValue (prop : Option Property) (key : String) (value : Json N) :
    Except String (Json N) :=
  match prop with
  | none => .ok value
  | some prop =>
    if !prop.index then .ok value
    else if prop.type = .vector then
      match value with
      | .list items => (checkVector lib prop key items).map .list
      | v => .ok v
    else
      match value with
      | .list items => (items.mapM (checkField lib prop key)).map .list
      | v => checkField lib prop key v

end Conversions

def isNull : Json N → Bool
  | .null => true
  | _ => false

/-- `checkTypeIsMapOrSlice`. -/
def isMapOrSlice : Json N → Bool
  | .map _ | .list _ => true
  | _ => false

mutual
def flattenValue (flat : Object N) (key : String) :
    Json N → Object N
  | .map fields => flattenFields flat (key ++ ".") fields
  | .list items =>
    if items.all isMapOrSlice then flattenItems flat (key ++ ".") 0 items
    else put Prod.fst flat (key, .list items)
  | .null => put Prod.fst flat (key, .null)
  | .bool b => put Prod.fst flat (key, .bool b)
  | .num x => put Prod.fst flat (key, .num x)
  | .str s => put Prod.fst flat (key, .str s)
termination_by structural v => v

def flattenFields (flat : Object N) (path : String) :
    Object N → Object N
  | [] => flat
  | field :: fields => flattenFields (flattenField flat path field) path fields
termination_by structural fields => fields

def flattenField (flat : Object N) (path : String) :
    String × Json N → Object N
  | (key, v) => flattenValue flat (path ++ key) v
termination_by structural field => field

def flattenItems (flat : Object N) (path : String) (i : Nat) :
    List (Json N) → Object N
  | [] => flat
  | v :: items => flattenItems (flattenValue flat (path ++ toString i) v) path (i + 1) items
termination_by structural items => items
end

def flatten (doc : Object N) : Object N := flattenFields [] "" doc

/-- The number under `@timestamp`: an `int64`, which is read back as a `float64`. -/
inductive Stamp (N : Type)
  | int64 (n : Int)
  | float64 (x : N)

/-- The operation without what `BuildBlugeDocumentFromJSON` deletes first and without the source. -/
structure Operation (N : Type) where
  fields : Object N
  timestamp : Stamp N

def reserved : List String :=
  [actionFieldName, idFieldName, shardFieldName, timeFieldName, sourceFieldName]

section Document

variable (lib : DocLib N) (enableTextKeywordMapping : Bool)

/-- The loop over the fields: the mappings, and the checked fields with whether the mappings are to
be stored. -/
def checkFields : Object N → Mappings → Bool →
    Mappings × Except String (Object N × Bool)
  | [], m, update => (m, .ok ([], update))
  | (key, value) :: fields, m, update =>
    if isNull value then
      let rest := checkFields fields m update
      (rest.1, rest.2.map fun (data, update) => ((key, value) :: data, update))
    else
      let checked := checkProperty lib.toGoLib enableTextKeywordMapping m key value
      match checkValue lib (checked.1.get key) key value with
      | .error e => (checked.1, .error e)
      | .ok v =>
        let rest := checkFields fields checked.1 (update || checked.2)
        (rest.1, rest.2.map fun (data, update) => ((key, v) :: data, update))

/-- The timestamp of the checked fields: `now` if there is none. -/
def readTimestamp (m : Mappings) (data : Object N) (now : Int) : Except String Int :=
  match lookup Prod.fst data timeFieldName with
  | none => .ok now
  | some (_, value) =>
    match parseTime lib (m.prop timeFieldName).format (m.prop timeFieldName).timeZone value with
    | .ok t => .ok t
    | .error reason => .error (timeFieldError lib timeFieldName value reason)

/-- `CheckDocumentOperation`. `order` is the order in which the loop goes through the flat document,
and `stored` is the error of `IndexMgr.Store`, if there is one. -/
def checkDocumentOperation (order : Shuffle (String × Json N)) (stored : Option String)
    (m : Mappings) (doc : Object N) (now : Int) :
    Mappings × Except String (Operation N) :=
  let checked := checkFields lib enableTextKeywordMapping (order.order (flatten doc)) m false
  match checked.2 with
  | .error e => (checked.1, .error e)
  | .ok (data, update) =>
    let m := if update then setMappings checked.1 else checked.1
    match (if update then stored else none) with
    | some e => (m, .error e)
    | none =>
      (m, (readTimestamp lib m data now).map fun t =>
        ⟨data.filter fun f => f.1 ∉ reserved, .int64 (unixNano t)⟩)

end Document

def learnField (lib : GoLib N) (enableTextKeywordMapping : Bool) (m : Mappings)
    (field : String × Json N) : Mappings :=
  if isNull field.2 then m else (checkProperty lib enableTextKeywordMapping m field.1 field.2).1

def learns (enableTextKeywordMapping : Bool) (m : Mappings) (field : String × Json N) : Bool :=
  asks enableTextKeywordMapping m field.1 && tells (sample field.2)

def rejects (lib : DocLib N) (m : Mappings) (field : String × Json N) : Bool :=
  !isNull field.2 && !(checkValue lib (m.get field.1) field.1 field.2).toBool

def visited (lib : DocLib N) (m : Mappings) : Object N → Object N
  | [] => []
  | field :: fields =>
    if rejects lib m field then [field] else field :: visited lib m fields

namespace CheckLemmas

open PropertyLemmas

variable {lib : DocLib N} {enable : Bool} {m m' : Mappings} {fields : Object N}

theorem tells_sample_null (h : isNull value = true) : tells (sample value) = false := by
  cases value with
  | null => rfl
  | _ => cases h

theorem learnField_of_not_learns (lib : DocLib N) (h : learns enable m field = false) :
    learnField lib.toGoLib enable m field = m := by
  rw [learnField, checkProperty_eq]
  split
  · rfl
  · split
    · next hasks =>
      rw [learns, hasks, Bool.true_and] at h
      exact learn_of_not_tells h
    · rfl

theorem touched_of_learns (lib : DocLib N) (h : learns enable m field = true) :
    Touched m (learnField lib.toGoLib enable m field) := by
  obtain ⟨hasks, htells⟩ := Bool.and_eq_true_iff.1 h
  have hnull : isNull field.2 = false := by
    by_contra hnull
    rw [tells_sample_null (by simpa using hnull)] at htells
    cases htells
  rw [learnField, hnull, checkProperty_eq, hasks]
  exact touched_learn hasks htells

theorem touched_learnField (lib : DocLib N) (enable : Bool) (field : String × Json N)
    (h : Touched m m') : Touched m (learnField lib.toGoLib enable m' field) := by
  rw [learnField, checkProperty_eq]
  split
  · exact h
  · split
    · next hasks => exact h.learn hasks
    · exact h

theorem checkFields_cons (lib : DocLib N) (enable : Bool) (field : String × Json N)
    (fields : Object N) (m : Mappings) (update : Bool) :
    let m' := learnField lib.toGoLib enable m field
    (rejects lib m' field = true ∧ (checkFields lib enable (field :: fields) m update).1 = m' ∧
      ∃ e, (checkFields lib enable (field :: fields) m update).2 = .error e) ∨
    (rejects lib m' field = false ∧ ∃ v update',
      (isNull field.2 = true ∧ v = field.2 ∧ update' = update ∨
        isNull field.2 = false ∧ checkValue lib (m'.get field.1) field.1 field.2 = .ok v ∧
          update' = (update || asks enable m field.1)) ∧
      (checkFields lib enable (field :: fields) m update).1 =
        (checkFields lib enable fields m' update').1 ∧
      (checkFields lib enable (field :: fields) m update).2 =
        (checkFields lib enable fields m' update').2.map fun r => ((field.1, v) :: r.1, r.2)) := by
  obtain ⟨key, value⟩ := field
  dsimp only
  rw [learnField, rejects, checkFields]
  by_cases hnull : isNull value = true
  · rw [if_pos hnull, if_pos hnull]
    exact .inr ⟨by rw [hnull]; rfl, value, update, .inl ⟨hnull, rfl, rfl⟩, rfl, rfl⟩
  · rw [if_neg hnull, if_neg hnull]
    have hupdate : (checkProperty lib.toGoLib enable m key value).2 = asks enable m key := by
      rw [checkProperty_eq]
      split
      · next hasks => exact hasks.symm
      · next hasks => exact (Bool.eq_false_of_not_eq_true hasks).symm
    rw [Bool.eq_false_of_not_eq_true hnull]
    dsimp only
    cases hcheck : checkValue lib ((checkProperty lib.toGoLib enable m key value).1.get key) key
        value with
    | error e => exact .inl ⟨rfl, rfl, e, rfl⟩
    | ok v =>
      refine .inr ⟨rfl, v, _, .inr ⟨rfl, rfl, rfl⟩, ?_, ?_⟩
      · rw [hupdate]
      · rw [hupdate]

theorem touched_checkFields (h : Touched m m') (fields : Object N) (update : Bool) :
    Touched m (checkFields lib enable fields m' update).1 := by
  induction fields generalizing m' update with
  | nil => exact h
  | cons field fields ih =>
    have hstep := touched_learnField lib enable field h
    rcases checkFields_cons lib enable field fields m' update with
      ⟨-, hmap, -⟩ | ⟨-, v, update', -, hmap, -⟩
    · rw [hmap]
      exact hstep
    · rw [hmap]
      exact ih hstep update'

theorem checkFields_touched (update : Bool)
    (h : ∃ f ∈ visited lib m fields, learns enable m f = true) :
    Touched m (checkFields lib enable fields m update).1 := by
  induction fields generalizing update with
  | nil =>
    obtain ⟨f, hf, -⟩ := h
    cases hf
  | cons field fields ih =>
    by_cases hlearns : learns enable m field = true
    · have hstep := touched_of_learns lib hlearns
      rcases checkFields_cons lib enable field fields m update with
        ⟨-, hmap, -⟩ | ⟨-, v, update', -, hmap, -⟩
      · rw [hmap]
        exact hstep
      · rw [hmap]
        exact touched_checkFields hstep fields update'
    · have hstep := learnField_of_not_learns lib (Bool.eq_false_of_not_eq_true hlearns)
      obtain ⟨f, hf, hflearns⟩ := h
      rw [visited] at hf
      rcases checkFields_cons lib enable field fields m update with
        ⟨hrejects, -⟩ | ⟨hrejects, v, update', -, hmap, -⟩
      · rw [hstep] at hrejects
        rw [if_pos hrejects] at hf
        obtain rfl := mem_singleton.1 hf
        exact absurd hflearns hlearns
      · rw [hstep] at hrejects hmap
        rw [if_neg (Bool.eq_false_iff.1 hrejects)] at hf
        rw [hmap]
        rcases mem_cons.1 hf with rfl | hf
        · exact absurd hflearns hlearns
        · exact ih update' ⟨f, hf, hflearns⟩

theorem checkFields_plain (update : Bool)
    (h : ∀ f ∈ visited lib m fields, learns enable m f = false) :
    (checkFields lib enable fields m update).1 = m ∧ ((∃ f ∈ fields, rejects lib m f = true) ∧
          (∃ e, (checkFields lib enable fields m update).2 = .error e) ∨
        (∀ f ∈ fields, rejects lib m f = false) ∧
          ∃ data, (checkFields lib enable fields m update).2 =
            .ok (data, update || fields.any fun f => !isNull f.2 && asks enable m f.1)) := by
  induction fields generalizing update with
  | nil => exact ⟨rfl, .inr ⟨fun f hf => absurd hf not_mem_nil, [], by simp [checkFields]⟩⟩
  | cons field fields ih =>
    rw [visited] at h
    have hlearns : learns enable m field = false := by
      split at h <;> exact h field mem_cons_self
    have hstep := learnField_of_not_learns lib hlearns
    rcases checkFields_cons lib enable field fields m update with
      ⟨hrejects, hmap, herror⟩ | ⟨hrejects, v, update', hupdate, hmap, hrest⟩
    · rw [hstep] at hrejects hmap
      exact ⟨hmap, .inl ⟨⟨field, mem_cons_self, hrejects⟩, herror⟩⟩
    · rw [hstep] at hrejects hmap hrest
      rw [if_neg (Bool.eq_false_iff.1 hrejects)] at h
      obtain ⟨hsame, hresult⟩ := ih update' fun f hf => h f (mem_cons_of_mem _ hf)
      refine ⟨hmap.trans hsame, ?_⟩
      rcases hresult with ⟨⟨f, hf, hfrejects⟩, e, herror⟩ | ⟨hnone, data, hok⟩
      · rw [hrest, herror]
        exact .inl ⟨⟨f, mem_cons_of_mem _ hf, hfrejects⟩, e, rfl⟩
      · rw [hrest, hok]
        refine .inr ⟨forall_mem_cons.2 ⟨hrejects, hnone⟩, (field.1, v) :: data, ?_⟩
        rcases hupdate with ⟨hnull, -, rfl⟩ | ⟨hnull, -, rfl⟩
        · simp [Except.map, hnull]
        · simp [Except.map, hnull, Bool.or_assoc]

variable (lib : DocLib N) (enable : Bool) (order : Shuffle (String × Json N))
  (stored : Option String) (m : Mappings) (doc : Object N) (now : Int)

theorem checkDocumentOperation_fst :
    (checkDocumentOperation lib enable order stored m doc now).1 =
      match (checkFields lib enable (order.order (flatten doc)) m false).2 with
      | .error _ => (checkFields lib enable (order.order (flatten doc)) m false).1
      | .ok (_, update) =>
        if update then setMappings (checkFields lib enable (order.order (flatten doc)) m false).1
        else (checkFields lib enable (order.order (flatten doc)) m false).1 := by
  rw [checkDocumentOperation]
  dsimp only
  split
  · rfl
  · split
    · rfl
    · rfl

theorem same_checkDocumentOperation_iff :
    Mappings.Same (checkDocumentOperation lib enable order stored m doc now).1 m ↔
      (∀ f ∈ visited lib m (order.order (flatten doc)), learns enable m f = false) ∧
      ((∀ f ∈ flatten doc, rejects lib m f = false) →
        (∃ f ∈ flatten doc, isNull f.2 = false ∧ asks enable m f.1 = true) →
        Mappings.Same (setMappings m) m) := by
  have hmem : ∀ f, f ∈ order.order (flatten doc) ↔ f ∈ flatten doc := fun f =>
    (order.perm _).mem_iff
  rw [checkDocumentOperation_fst]
  by_cases hlearns : ∃ f ∈ visited lib m (order.order (flatten doc)), learns enable m f = true
  · have htouched := checkFields_touched false hlearns
    obtain ⟨f, hf, hflearns⟩ := hlearns
    refine iff_of_false ?_ fun hcond => ?_
    · split
      · exact htouched.not_same
      · split
        · exact htouched.setMappings.not_same
        · exact htouched.not_same
    · rw [hcond.1 f hf] at hflearns
      cases hflearns
  · have hplain : ∀ f ∈ visited lib m (order.order (flatten doc)), learns enable m f = false :=
      fun f hf => Bool.eq_false_iff.2 fun hflearns => hlearns ⟨f, hf, hflearns⟩
    rw [and_iff_right hplain]
    obtain ⟨hmap, ⟨⟨f, hf, hrejects⟩, e, herror⟩ | ⟨hnone, data, hok⟩⟩ :=
      checkFields_plain false hplain
    · rw [herror, hmap]
      refine iff_of_true (fun _ => rfl) fun hpass => ?_
      rw [hpass f ((hmem f).1 hf)] at hrejects
      cases hrejects
    · rw [hok, hmap, Bool.false_or]
      dsimp only
      have hpass : ∀ f ∈ flatten doc, rejects lib m f = false := fun f hf =>
        hnone f ((hmem f).2 hf)
      have hasks : ((order.order (flatten doc)).any fun f => !isNull f.2 && asks enable m f.1) =
          true ↔ ∃ f ∈ flatten doc, isNull f.2 = false ∧ asks enable m f.1 = true := by
        rw [any_eq_true]
        refine exists_congr fun f => and_congr (hmem f) ?_
        rw [Bool.and_eq_true, Bool.not_eq_true']
      by_cases hupdate : ((order.order (flatten doc)).any fun f =>
          !isNull f.2 && asks enable m f.1) = true
      · rw [if_pos hupdate]
        exact ⟨fun hsame _ _ => hsame, fun hsame => hsame hpass (hasks.1 hupdate)⟩
      · rw [if_neg hupdate]
        exact iff_of_true (fun _ => rfl) fun _ hask => absurd (hasks.2 hask) hupdate

end CheckLemmas

open CheckLemmas

/-- A document that is rejected leaves the mappings as they are if and only if no field up to the
first that is rejected has something to learn, and if all fields pass and one asks for the mappings
to be stored, then they already are as `SetMappings` makes them. -/
theorem rejected_same_iff (lib : DocLib N) (enableTextKeywordMapping : Bool)
    (order : Shuffle (String × Json N)) (stored : Option String) (m : Mappings)
    (doc : Object N) (now : Int) :
    let checked := checkDocumentOperation lib enableTextKeywordMapping order stored m doc now
    ((∃ e, checked.2 = .error e) → Mappings.Same checked.1 m) ↔
      ((∃ e, checked.2 = .error e) → (∀ f ∈ visited lib m (order.order (flatten doc)),
          learns enableTextKeywordMapping m f = false) ∧
        ((∀ f ∈ flatten doc, rejects lib m f = false) →
          (∃ f ∈ flatten doc, isNull f.2 = false ∧ asks enableTextKeywordMapping m f.1 = true) →
          Mappings.Same (setMappings m) m)) :=
  imp_congr_right fun _ =>
    same_checkDocumentOperation_iff lib enableTextKeywordMapping order stored m doc now

def wholeNumbers : DocLib Int where
  lower s := s
  format
    | .num n => toString n
    | .bool b => toString b
    | _ => ""
  trunc := id
  atoi _ := none
  parseFloat _ := none
  Zone := Unit
  utc := ()
  parseTimeZone _ := none
  parseInLocation _ _ _ := none
  now := 0
  atoi_exact := nofun
  atoi_large := nofun
  sprint
    | .str s => s
    | .num n => toString n
    | .bool b => toString b
    | _ => ""
  ofBool b := if b then 1 else 0
  isZero n := n = 0
  parseBool s := if s = "true" then some true else if s = "false" then some false else none
  floatError _ := ""
  timeError _ _ := ""
  finite _ := true
  ofInt64 := id

/-- The field `n` is numeric and is given a text, and the field `a` is new. If `a` comes first, then
its property stays. -/
theorem rejected_learns :
    let m : Mappings := [("n", newProperty .numeric)]
    let doc : List (String × Json Int) := [("a", .str "x"), ("n", .str "y")]
    let first := checkDocumentOperation wholeNumbers false ⟨id, fun _ => .refl _⟩ none m doc 0
    let last := checkDocumentOperation wholeNumbers false ⟨List.reverse, reverse_perm⟩ none m
      doc 0
    first.2.toBool = false ∧ m.get "a" = none ∧ first.1.get "a" = some (newProperty .text) ∧
      last.2.toBool = false ∧ last.1 = m := by
  decide +kernel

end Mapping

end SeaSearch
