import SeaSearch.Mapping.Check

/-!
# The bluge document of an operation

`BuildBlugeDocumentFromJSON` looks up the property of each field again. A value is taken as what the
property says by a type assertion, which panics if the value has another type, and a field of a type
that is not known is a nil pointer.
-/

namespace SeaSearch

namespace Mapping

open List Versions

variable {N : Type}

/-! ## Fields -/

/-- Why a document is not built: an error, a panic, or `log.Fatal`. -/
inductive BuildStop
  | error (text : String)
  | panic
  | exit
deriving DecidableEq

/-- What a field of a bluge document is made of. The analyzer of a text has a name, unless the field
has none. -/
inductive FieldContent (N : Type)
  | text (value : String) (analyzer : Option String)
  | numeric (x : N)
  | keyword (value : String)
  | date (t : Int)

structure BuiltField (N : Type) where
  key : String
  content : Option (FieldContent N)
  store : Bool
  highlight : Bool
  sortable : Bool
  aggregatable : Bool

inductive Made (N : Type)
  | skipped
  | made (content : Option (FieldContent N))

section Build

variable (lib : DocLib N)

/-- The switch of `buildField` over the type of the property. -/
def makeField (prop : Property) (key : String) (value : Json N) : Except BuildStop (Made N) :=
  match prop.type with
  | .text =>
    match value with
    | .str s =>
      if s = "" then .ok .skipped
      else .ok (.made (some (.text s (if key = "" then none else some prop.analyzer))))
    | _ => .error .panic
  | .numeric =>
    match value with
    | .num x => .ok (.made (some (.numeric x)))
    | _ => .error .panic
  | .keyword =>
    match value with
    | .str s => if s = "" then .ok .skipped else .ok (.made (some (.keyword s)))
    | _ => .error .panic
  | .bool =>
    match value with
    | .bool b => .ok (.made (some (.keyword (toString b))))
    | _ => .error .panic
  | .date | .time =>
    match parseTime lib prop.format prop.timeZone value with
    | .ok t => .ok (.made (some (.date t)))
    | .error reason => .error (.error (timeFieldError lib key value reason))
  | .vector | .other _ => .ok (.made none)

def Property.sets (prop : Property) : Bool :=
  prop.store || prop.highlightable || prop.sortable || prop.aggregatable

/-- `buildField`. `orders` are the orders of the loops over sub-fields. Keys get longer, so that the
recursion ends where a key is not in the mappings; `fuel` is the number of calls within each
other. -/
def buildField (orders : String → Json N → Shuffle String) (m : Mappings) :
    Nat → String → Json N → List (BuiltField N) → Except BuildStop (List (BuiltField N))
  | 0, _, _, _ => .error .panic
  | fuel + 1, key, value, bdoc =>
    let prop := m.prop key
    match makeField lib prop key value with
    | .error stop => .error stop
    | .ok .skipped => .ok bdoc
    | .ok (.made content) =>
      if content.isNone && prop.sets then .error .panic
      else
        ((orders key value).order prop.fields).foldlM
          (fun bdoc name => buildField orders m fuel (subKey key name) value bdoc)
          (bdoc ++ [⟨key, content, prop.store || prop.highlightable, prop.highlightable,
            prop.sortable, prop.aggregatable⟩])

def vectorItem : Json N → Except BuildStop N
  | .num x => .ok x
  | _ => .error .exit

def buildVector (prop : Property) (value : Json N) : Except BuildStop (List N) :=
  if prop.dims < 0 then .error .panic
  else
    match value with
    | .list items =>
      if (items.length : Int) ≠ prop.dims then .error .exit
      else items.mapM vectorItem
    | _ => .error .exit

def elements : Json N → List (Json N)
  | .list items => items
  | v => [v]

structure BuiltDocument (N : Type) where
  fields : List (BuiltField N)
  vectors : List (String × List N)
  timestamp : Int

def Mappings.longest (m : Mappings) : Nat := (m.map fun e => e.1.length).foldr max 0

def buildEntry (orders : String → Json N → Shuffle String) (m : Mappings) (doc : BuiltDocument N)
    (field : String × Json N) : Except BuildStop (BuiltDocument N) :=
  if isNull field.2 then .ok doc
  else
    match m.get field.1 with
    | none => .ok doc
    | some prop =>
      if !prop.index then .ok doc
      else if prop.type = .vector then
        (buildVector prop field.2).map fun v =>
          { doc with vectors := doc.vectors ++ [(field.1, v)] }
      else
        ((elements field.2).foldlM
          (fun bdoc v => buildField lib orders m (m.longest + 2) field.1 v bdoc) doc.fields).map
          fun fields => { doc with fields }

def Stamp.nanos : Stamp N → Int
  | int64 n => n
  | float64 x => lib.trunc x

/-- `BuildBlugeDocumentFromJSON`. `loop` is the order of the loop over the operation. -/
def build (loop : Shuffle (String × Json N)) (orders : String → Json N → Shuffle String)
    (m : Mappings) (op : Operation N) : Except BuildStop (BuiltDocument N) :=
  (loop.order op.fields).foldlM (buildEntry lib orders m) ⟨[], [], op.timestamp.nanos lib⟩

mutual
/-- `json.Marshal` has no error. -/
def finite : Json N → Bool
  | .null | .bool _ | .str _ => true
  | .num x => lib.finite x
  | .list items => finiteItems items
  | .map fields => finiteFields fields

def finiteItems : List (Json N) → Bool
  | [] => true
  | v :: items => finite v && finiteItems items

def finiteFields : Object N → Bool
  | [] => true
  | field :: fields => finiteField field && finiteFields fields

def finiteField : String × Json N → Bool
  | (_, v) => finite v
end

/-- The operation after it has been written to the WAL and read back, if it can be written. -/
def Operation.reread (op : Operation N) : Option (Operation N) :=
  if op.fields.all (finiteField lib) then
    some { op with
      timestamp := match op.timestamp with
        | .int64 n => .float64 (lib.ofInt64 n)
        | .float64 x => .float64 x }
  else none

end Build

/-! ## What a field takes -/

/-- The value has the Go type that the type of the field asserts. -/
def Property.holds (prop : Property) (value : Json N) : Bool :=
  match prop.type, value with
  | .text, .str _ | .keyword, .str _ | .numeric, .num _ | .bool, .bool _ => true
  | .text, _ | .keyword, _ | .numeric, _ | .bool, _ => false
  | _, _ => true

/-- `buildField` makes no field of these types. -/
def Property.unknown (prop : Property) : Bool :=
  match prop.type with
  | .vector | .other _ => true
  | _ => false

/-- A time that cannot be read ends the building with an error. -/
def Property.fails (lib : DocLib N) (prop : Property) (value : Json N) : Bool :=
  match prop.type with
  | .date | .time => !(parseTime lib prop.format prop.timeZone value).toBool
  | _ => false

/-- The value is passed on to the sub-fields. -/
def Property.passes (lib : DocLib N) (prop : Property) (value : Json N) : Bool :=
  match prop.type, value with
  | .text, .str s | .keyword, .str s => decide (s ≠ "")
  | _, _ => !prop.fails lib value

/-- The field and the sub-fields that get the value can be made from it. -/
inductive Takes (lib : DocLib N) (m : Mappings) : String → Json N → Prop
  | intro {key : String} {value : Json N} (holds : (m.prop key).holds value = true)
      (known : (m.prop key).unknown = true → (m.prop key).sets = false)
      (subs : (m.prop key).passes lib value = true →
        ∀ name ∈ (m.prop key).fields, Takes lib m (subKey key name) value) : Takes lib m key value

/-- The building ends with an error at this field or at a sub-field. -/
inductive Fails (lib : DocLib N) (m : Mappings) : String → Json N → Prop
  | here {key : String} {value : Json N} (fails : (m.prop key).fails lib value = true) :
      Fails lib m key value
  | sub {key name : String} {value : Json N} (passes : (m.prop key).passes lib value = true)
      (mem : name ∈ (m.prop key).fields) (fails : Fails lib m (subKey key name) value) :
      Fails lib m key value

/-- The field takes the items up to the first one that ends the building. -/
def TakesAll (lib : DocLib N) (m : Mappings) (key : String) : List (Json N) → Prop
  | [] => True
  | value :: items => Takes lib m key value ∧ (¬ Fails lib m key value → TakesAll lib m key items)

/-- The process ends. -/
def Crashes {α : Type} (r : Except BuildStop α) : Prop := r = .error .panic ∨ r = .error .exit

/-- The items of what the check stores for a value. -/
def storedItems (lib : DocLib N) (prop : Option Property) (key : String) (value : Json N) :
    List (Json N) :=
  match checkValue lib prop key value with
  | .ok stored => if isNull stored then [] else elements stored
  | .error _ => []

/-- A field of an accepted document that can be built. `checked` is the property that it has been
checked with, and `m` are the mappings that the document is built with. -/
def Builds (lib : DocLib N) (m : Mappings) (checked : Option Property) (key : String)
    (value : Json N) : Prop :=
  ∀ prop, m.get key = some prop → prop.index = true →
    if prop.type = .vector then ∃ items, value = .list items
    else TakesAll lib m key (storedItems lib checked key value)

/-- A field that is mapped before the document comes: a vector with an array, or a field that takes
each value of its own type. -/
def MappedField (lib : DocLib N) (enableTextKeywordMapping : Bool) (m : Mappings)
    (field : String × Json N) : Prop :=
  asks enableTextKeywordMapping m field.1 = false ∧
    if (m.prop field.1).type = .vector then ∃ items, field.2 = .list items
    else ∀ value, (m.prop field.1).holds value = true → Takes lib m field.1 value

namespace BuildLemmas

open CheckLemmas PropertyLemmas

variable {lib : DocLib N} {m : Mappings} {key : String} {value : Json N} {fuel : Nat}
  {orders : String → Json N → Shuffle String} {bdoc : List (BuiltField N)} {prop : Property}
  {items : List (Json N)} {field : String × Json N} {enable : Bool}
  {fields : Object N}

theorem makeField_cases (lib : DocLib N) (prop : Property) (key : String) (value : Json N) :
    (prop.holds value = false ∧ makeField lib prop key value = .error .panic) ∨
    (prop.holds value = true ∧ prop.unknown = false ∧ prop.passes lib value = false ∧
      ((prop.fails lib value = true ∧ ∃ text, makeField lib prop key value = .error (.error text)) ∨
        prop.fails lib value = false ∧ makeField lib prop key value = .ok .skipped)) ∨
    (prop.holds value = true ∧ prop.passes lib value = true ∧ prop.fails lib value = false ∧
      ∃ content, makeField lib prop key value = .ok (.made content) ∧
        content.isNone = prop.unknown) := by
  rw [makeField.eq_def, Property.holds.eq_def, Property.passes.eq_def, Property.fails.eq_def,
    Property.unknown.eq_def]
  cases prop.type with
  | text | keyword =>
    cases value with
    | str s =>
      by_cases hs : s = ""
      · exact .inr (.inl ⟨rfl, rfl, by simp [hs], .inr ⟨rfl, if_pos hs⟩⟩)
      · exact .inr (.inr ⟨rfl, by simp [hs], rfl, _, if_neg hs, rfl⟩)
    | _ => exact .inl ⟨rfl, rfl⟩
  | numeric =>
    cases value with
    | num x => exact .inr (.inr ⟨rfl, rfl, rfl, _, rfl, rfl⟩)
    | _ => exact .inl ⟨rfl, rfl⟩
  | bool =>
    cases value with
    | bool b => exact .inr (.inr ⟨rfl, rfl, rfl, _, rfl, rfl⟩)
    | _ => exact .inl ⟨rfl, rfl⟩
  | date | time =>
    dsimp only
    cases parseTime lib prop.format prop.timeZone value with
    | ok t => exact .inr (.inr ⟨rfl, rfl, rfl, _, rfl, rfl⟩)
    | error reason => exact .inr (.inl ⟨rfl, rfl, rfl, .inl ⟨rfl, _, rfl⟩⟩)
  | vector | other name => exact .inr (.inr ⟨rfl, rfl, rfl, _, rfl, rfl⟩)

section Loops

variable {α β : Type} {f : β → α → Except BuildStop β} {l : List α}

theorem not_crashes_ok : ¬ Crashes (.ok a : Except BuildStop α) := by
  rintro (h | h)
  · cases h
  · cases h

theorem not_crashes_error : ¬ Crashes (.error (.error text) : Except BuildStop α) := by
  rintro (h | h)
  · cases h
  · cases h

theorem crashes_foldlM_cons (h : Crashes (f b x)) : Crashes ((x :: l).foldlM f b) := by
  rw [foldlM_cons]
  rcases h with h | h
  · exact .inl (by rw [h]; rfl)
  · exact .inr (by rw [h]; rfl)

theorem not_crashes_foldlM (h : ∀ x ∈ l, ∀ b, ¬ Crashes (f b x)) (b : β) :
    ¬ Crashes (l.foldlM f b) := by
  induction l generalizing b with
  | nil => exact not_crashes_ok
  | cons x l ih =>
    obtain ⟨hx, hl⟩ := forall_mem_cons.1 h
    have hstep := hx b
    rw [foldlM_cons]
    cases hf : f b x with
    | ok b' => exact ih hl b'
    | error stop =>
      rw [hf] at hstep
      exact fun hcrash => hstep (hcrash.imp (fun h => by cases h; rfl) fun h => by cases h; rfl)

theorem foldlM_fails {P : α → Prop}
    (hfail : ∀ x ∈ l, P x → ∀ b, ∃ text, f b x = .error (.error text))
    (hok : ∀ x ∈ l, ¬ P x → ∀ b, ∃ b', f b x = .ok b') (b : β) :
    ((∃ x ∈ l, P x) ∧ ∃ text, l.foldlM f b = .error (.error text)) ∨
      (∀ x ∈ l, ¬ P x) ∧ ∃ b', l.foldlM f b = .ok b' := by
  induction l generalizing b with
  | nil => exact .inr ⟨fun x hx => absurd hx not_mem_nil, b, rfl⟩
  | cons x l ih =>
    rw [forall_mem_cons] at hfail hok
    rw [foldlM_cons]
    by_cases hx : P x
    · obtain ⟨text, htext⟩ := hfail.1 hx b
      exact .inl ⟨⟨x, mem_cons_self, hx⟩, text, by rw [htext]; rfl⟩
    · obtain ⟨b', hb'⟩ := hok.1 hx b
      rw [hb']
      rcases ih hfail.2 hok.2 b' with ⟨⟨y, hy, hPy⟩, herror⟩ | ⟨hnone, hrest⟩
      · exact .inl ⟨⟨y, mem_cons_of_mem _ hy, hPy⟩, herror⟩
      · exact .inr ⟨forall_mem_cons.2 ⟨hx, hnone⟩, hrest⟩

theorem crashes_map_iff : Crashes (r.map g) ↔ Crashes r := by
  cases r with
  | ok a => exact iff_of_false not_crashes_ok not_crashes_ok
  | error stop => simp [Crashes, Except.map]

end Loops

def Enough (m : Mappings) (fuel : Nat) (key : String) : Prop :=
  0 < fuel ∧ m.longest + 2 ≤ fuel + key.length

theorem length_le_longest (h : m.get key = some prop) : key.length ≤ m.longest := by
  obtain ⟨⟨k, p⟩, hfind, rfl⟩ := Option.map_eq_some_iff.1 h
  have hkey : k = key := by simpa using List.find?_some hfind
  have hmem := mem_of_find?_eq_some hfind
  rw [← hkey]
  exact le_max_of_le (mem_map_of_mem (f := fun e : String × Property => e.1.length) hmem) le_rfl

theorem enough_subKey (h : Enough m (fuel + 1) key) {name : String}
    (hname : name ∈ (m.prop key).fields) : Enough m fuel (subKey key name) := by
  have hlength : (subKey key name).length = key.length + 1 + name.length := by
    rw [subKey, String.length_append, String.length_append]
    rfl
  cases hget : m.get key with
  | none =>
    rw [Mappings.prop, hget] at hname
    cases hname
  | some prop =>
    have hlongest := length_le_longest hget
    have henough := h.2
    refine ⟨by omega, ?_⟩
    omega

theorem buildField_takes (orders : String → Json N → Shuffle String) (h : Takes lib m key value)
    (henough : Enough m fuel key) (bdoc : List (BuiltField N)) :
    (Fails lib m key value ∧
        ∃ text, buildField lib orders m fuel key value bdoc = .error (.error text)) ∨
      ¬ Fails lib m key value ∧
        ∃ bdoc', buildField lib orders m fuel key value bdoc = .ok bdoc' := by
  induction h generalizing fuel bdoc with
  | @intro key value holds known subs ih =>
    obtain ⟨fuel, rfl⟩ := Nat.exists_eq_succ_of_ne_zero henough.1.ne'
    rw [buildField]
    rcases makeField_cases lib (m.prop key) key value with
      ⟨hholds, -⟩ | ⟨-, -, hpasses, ⟨hfails, text, hmake⟩ | ⟨hfails, hmake⟩⟩ |
      ⟨-, hpasses, hfails, content, hmake, hcontent⟩
    · rw [holds] at hholds
      cases hholds
    · rw [hmake]
      exact .inl ⟨.here hfails, text, rfl⟩
    · rw [hmake]
      refine .inr ⟨fun hfail => ?_, bdoc, rfl⟩
      cases hfail with
      | here hhere =>
        rw [hfails] at hhere
        cases hhere
      | sub hsub =>
        rw [hpasses] at hsub
        cases hsub
    · have hnil : (content.isNone && (m.prop key).sets) = false := by
        rw [hcontent]
        cases hunknown : (m.prop key).unknown with
        | false => rfl
        | true => rw [known hunknown]; rfl
      rw [hmake]
      dsimp only
      rw [hnil, if_neg Bool.false_ne_true]
      have hmem : ∀ name, name ∈ (orders key value).order (m.prop key).fields ↔
          name ∈ (m.prop key).fields := fun name => ((orders key value).perm _).mem_iff
      have hsub : ∀ name ∈ (orders key value).order (m.prop key).fields,
          ∀ bdoc, (Fails lib m (subKey key name) value ∧ ∃ text, buildField lib orders m fuel
              (subKey key name) value bdoc = .error (.error text)) ∨
            ¬ Fails lib m (subKey key name) value ∧ ∃ bdoc', buildField lib orders m fuel
              (subKey key name) value bdoc = .ok bdoc' := fun name hname bdoc =>
        ih hpasses name ((hmem name).1 hname) (enough_subKey henough ((hmem name).1 hname)) bdoc
      rcases foldlM_fails (P := fun name => Fails lib m (subKey key name) value)
        (fun name hname hfail bdoc => ((hsub name hname bdoc).resolve_right
          fun hno => hno.1 hfail).2)
        (fun name hname hno bdoc => ((hsub name hname bdoc).resolve_left
          fun hfail => hno hfail.1).2) _ with ⟨⟨name, hname, hfail⟩, herror⟩ | ⟨hnone, hok⟩
      · exact .inl ⟨.sub hpasses ((hmem name).1 hname) hfail, herror⟩
      · refine .inr ⟨fun hfail => ?_, hok⟩
        cases hfail with
        | here hhere =>
          rw [hfails] at hhere
          cases hhere
        | sub _ hname hfail => exact hnone _ ((hmem _).2 hname) hfail

def Worst (lib : DocLib N) (m : Mappings) (orders : String → Json N → Shuffle String) : Prop :=
  ∀ key value names, (∃ name ∈ names, ¬ Takes lib m (subKey key name) value) →
    ∃ name rest, (orders key value).order names = name :: rest ∧
      ¬ Takes lib m (subKey key name) value

theorem exists_worst (lib : DocLib N) (m : Mappings) : ∃ orders, Worst lib m orders := by
  choose orders horders using fun key value =>
    Shuffle.exists_first fun name => ¬ Takes lib m (subKey key name) value
  exact ⟨orders, horders⟩

theorem crashes_buildField (hworst : Worst lib m orders) (h : ¬ Takes lib m key value)
    (bdoc : List (BuiltField N)) :
    Crashes (buildField lib orders m fuel key value bdoc) := by
  induction fuel generalizing key bdoc with
  | zero => exact .inl rfl
  | succ fuel ih =>
    rw [buildField]
    rcases makeField_cases lib (m.prop key) key value with
      ⟨hholds, hmake⟩ | ⟨hholds, hknown, hpasses, -⟩ |
      ⟨hholds, hpasses, hfails, content, hmake, hcontent⟩
    · rw [hmake]
      exact .inl rfl
    · refine absurd (Takes.intro hholds (fun hunknown => ?_) fun hpasses' => ?_) h
      · rw [hknown] at hunknown
        cases hunknown
      · rw [hpasses] at hpasses'
        cases hpasses'
    · rw [hmake]
      dsimp only
      split
      · exact .inl rfl
      · next hnil =>
        have hbad : ∃ name ∈ (m.prop key).fields, ¬ Takes lib m (subKey key name) value := by
          by_contra hall
          refine h (.intro hholds (fun hunknown => ?_) fun _ name hname => ?_)
          · rw [hcontent, hunknown, Bool.true_and] at hnil
            exact Bool.eq_false_of_not_eq_true hnil
          · by_contra htakes
            exact hall ⟨name, hname, htakes⟩
        obtain ⟨name, rest, horder, hname⟩ := hworst key value _ hbad
        rw [horder]
        exact crashes_foldlM_cons (ih hname _)

theorem not_crashes_items (h : TakesAll lib m key items) (henough : Enough m fuel key)
    (bdoc : List (BuiltField N)) :
    ¬ Crashes (items.foldlM (fun bdoc v => buildField lib orders m fuel key v bdoc) bdoc) := by
  induction items generalizing bdoc with
  | nil => exact not_crashes_ok
  | cons value items ih =>
    rw [foldlM_cons]
    rcases buildField_takes orders h.1 henough bdoc with
      ⟨-, text, herror⟩ | ⟨hno, bdoc', hok⟩
    · rw [herror]
      exact not_crashes_error
    · rw [hok]
      exact ih (h.2 hno) bdoc'

theorem crashes_items (hworst : Worst lib m orders) (h : ¬ TakesAll lib m key items)
    (henough : Enough m fuel key) (bdoc : List (BuiltField N)) :
    Crashes (items.foldlM (fun bdoc v => buildField lib orders m fuel key v bdoc) bdoc) := by
  induction items generalizing bdoc with
  | nil => exact absurd trivial h
  | cons value items ih =>
    by_cases htakes : Takes lib m key value
    · rw [foldlM_cons]
      have hrest : ¬ Fails lib m key value ∧ ¬ TakesAll lib m key items := by
        refine ⟨fun hfails => h ⟨htakes, fun hno => absurd hfails hno⟩, fun hall => ?_⟩
        exact h ⟨htakes, fun _ => hall⟩
      rcases buildField_takes orders htakes henough bdoc with ⟨hfails, -⟩ | ⟨-, bdoc', hok⟩
      · exact absurd hfails hrest.1
      · rw [hok]
        exact ih hrest.2 bdoc'
    · exact crashes_foldlM_cons (crashes_buildField hworst htakes bdoc)

def EntryTakes (lib : DocLib N) (m : Mappings) (field : String × Json N) : Prop :=
  isNull field.2 = false → ∀ prop, m.get field.1 = some prop → prop.index = true →
    if prop.type = .vector then ¬ Crashes (buildVector prop field.2)
    else TakesAll lib m field.1 (elements field.2)

theorem enough_key (m : Mappings) (key : String) : Enough m (m.longest + 2) key :=
  ⟨by omega, by omega⟩

theorem not_crashes_buildEntry (h : EntryTakes lib m field) (doc : BuiltDocument N) :
    ¬ Crashes (buildEntry lib orders m doc field) := by
  rw [buildEntry]
  split
  · exact not_crashes_ok
  · next hnull =>
    have hentry := h (Bool.eq_false_of_not_eq_true hnull)
    split
    · exact not_crashes_ok
    · next prop hget =>
      split
      · exact not_crashes_ok
      · next hindex =>
        have hprop := hentry prop hget (by simpa using hindex)
        split
        · next htype =>
          rw [if_pos htype] at hprop
          rwa [crashes_map_iff]
        · next htype =>
          rw [if_neg htype] at hprop
          rw [crashes_map_iff]
          exact not_crashes_items hprop (enough_key m field.1) doc.fields

theorem crashes_buildEntry (hworst : Worst lib m orders) (h : ¬ EntryTakes lib m field)
    (doc : BuiltDocument N) : Crashes (buildEntry lib orders m doc field) := by
  simp only [EntryTakes, not_forall] at h
  obtain ⟨hnull, prop, hget, hindex, hprop⟩ := h
  rw [buildEntry, hnull, hget]
  dsimp only
  rw [hindex, if_neg Bool.false_ne_true, if_neg (by decide)]
  by_cases htype : prop.type = .vector
  · rw [if_pos htype] at hprop ⊢
    rw [crashes_map_iff]
    exact not_not.1 hprop
  · rw [if_neg htype] at hprop ⊢
    rw [crashes_map_iff]
    exact crashes_items hworst hprop (enough_key m field.1) doc.fields

theorem build_iff (lib : DocLib N) (m : Mappings) (op : Operation N) :
    (∀ loop orders, ¬ Crashes (build lib loop orders m op)) ↔
      ∀ field ∈ op.fields, EntryTakes lib m field := by
  constructor
  · intro hsafe field hfield
    by_contra hentry
    obtain ⟨orders, hworst⟩ := exists_worst lib m
    obtain ⟨loop, hloop⟩ := Shuffle.exists_first fun f => f = field
    obtain ⟨f, rest, horder, rfl⟩ := hloop op.fields ⟨field, hfield, rfl⟩
    refine hsafe loop orders ?_
    rw [build, horder]
    exact crashes_foldlM_cons (crashes_buildEntry hworst hentry _)
  · intro hentries loop orders
    refine not_crashes_foldlM (fun field hfield doc => ?_) _
    exact not_crashes_buildEntry (hentries field ((loop.perm _).mem_iff.1 hfield)) doc

def Stores (lib : DocLib N) (m : Mappings) (key : String) (value stored : Json N) : Prop :=
  (isNull value = true ∧ stored = value) ∨
    isNull value = false ∧ checkValue lib (m.get key) key value = .ok stored

theorem checkFields_ok {data : Object N} {update update' : Bool}
    (h : (checkFields lib enable fields m update).2 = .ok (data, update')) :
    (checkFields lib enable fields m update).1 = fields.foldl (learnField lib.toGoLib enable) m ∧
      (∀ key stored, (key, stored) ∈ data → ∃ pre value post, fields = pre ++ (key, value) :: post ∧
        Stores lib ((pre ++ [(key, value)]).foldl (learnField lib.toGoLib enable) m) key value
          stored) ∧
      ∀ pre key value post, fields = pre ++ (key, value) :: post → ∃ stored, (key, stored) ∈ data ∧
        Stores lib ((pre ++ [(key, value)]).foldl (learnField lib.toGoLib enable) m) key value
          stored := by
  induction fields generalizing m update data with
  | nil =>
    cases h
    exact ⟨rfl, fun key stored hmem => absurd hmem not_mem_nil,
      fun pre key value post hsplit => absurd hsplit (by simp)⟩
  | cons field fields ih =>
    rcases checkFields_cons lib enable field fields m update with
      ⟨-, -, e, herror⟩ | ⟨-, v, update₁, hv, hmap, hrest⟩
    · rw [herror] at h
      cases h
    · rw [hrest] at h
      have hstores : Stores lib (learnField lib.toGoLib enable m field) field.1 field.2 v :=
        hv.imp (fun hnull => ⟨hnull.1, hnull.2.1⟩) fun hcheck => ⟨hcheck.1, hcheck.2.1⟩
      cases hok : (checkFields lib enable fields (learnField lib.toGoLib enable m field) update₁).2
        with
      | error e =>
        rw [hok] at h
        cases h
      | ok result =>
        obtain ⟨data', update''⟩ := result
        rw [hok] at h
        cases h
        obtain ⟨hmap', hdata, hsplits⟩ := ih hok
        refine ⟨by rw [hmap, hmap', foldl_cons], fun key stored hmem => ?_,
          fun pre key value post hsplit => ?_⟩
        · rcases mem_cons.1 hmem with heq | hmem
          · cases heq
            exact ⟨[], field.2, fields, rfl, hstores⟩
          · obtain ⟨pre, value, post, rfl, hstored⟩ := hdata key stored hmem
            exact ⟨field :: pre, value, post, rfl, hstored⟩
        · cases pre with
          | nil =>
            cases hsplit
            exact ⟨v, mem_cons_self, hstores⟩
          | cons first pre =>
            cases hsplit
            obtain ⟨stored, hmem, hstored⟩ := hsplits pre key value post rfl
            exact ⟨stored, mem_cons_of_mem _ hmem, hstored⟩

theorem get_of_vector (hget : (fields.foldl (learnField lib.toGoLib enable) m).get key = some prop)
    (htype : prop.type = .vector) : m.get key = some prop := by
  have hstep : ∀ {m : Mappings} (field : String × Json N),
      (learnField lib.toGoLib enable m field).get key = some prop → m.get key = some prop := by
    intro m field hfield
    rw [learnField, checkProperty_eq] at hfield
    split at hfield
    · exact hfield
    · split at hfield
      · rcases get_learn lib.toGoLib enable m field.1 (sample field.2) key with
          hsame | ⟨-, prop', hprop', hlearnable⟩ | ⟨-, hkeyword⟩
        · rwa [← hsame]
        · rw [hprop'] at hfield
          cases hfield
          rw [htype] at hlearnable
          exact absurd hlearnable (by decide)
        · rw [hkeyword] at hfield
          cases hfield
          cases htype
      · exact hfield
  induction fields generalizing m with
  | nil => exact hget
  | cons field fields ih => exact hstep field (ih hget)

theorem get_of_setMappings (hget : (setMappings m).get key = some prop)
    (htype : prop.type = .vector) (htime : timeFieldName ≠ key) :
    ∃ prop', m.get key = some prop' ∧ prop'.type = .vector ∧ prop'.dims = prop.dims ∧
      prop'.index = prop.index := by
  rw [get_setMappings, if_neg htime] at hget
  split at hget
  · cases hget
    cases htype
  · obtain ⟨prop', hprop', rfl⟩ := Option.map_eq_some_iff.1 hget
    rw [type_clearAnalyzers] at htype
    refine ⟨prop', hprop', htype, ?_⟩
    rw [Property.clearAnalyzers]
    split
    · exact ⟨rfl, rfl⟩
    · exact ⟨rfl, rfl⟩

theorem mapM_forall {α β : Type} {f : α → Except String β} {P : β → Prop} {l : List α} {r : List β}
    (hf : ∀ a b, f a = .ok b → P b) (h : l.mapM f = .ok r) :
    r.length = l.length ∧ ∀ b ∈ r, P b := by
  induction l generalizing r with
  | nil =>
    cases h
    exact ⟨rfl, forall_mem_nil _⟩
  | cons a l ih =>
    rw [mapM_cons] at h
    cases ha : f a with
    | error e =>
      rw [ha] at h
      cases h
    | ok b =>
      cases hrest : l.mapM f with
      | error e =>
        rw [ha, hrest] at h
        cases h
      | ok rest =>
        rw [ha, hrest] at h
        cases h
        obtain ⟨hlength, hall⟩ := ih hrest
        exact ⟨congrArg (· + 1) hlength, forall_mem_cons.2 ⟨hf a b ha, hall⟩⟩

theorem mapM_vectorItem (h : items.mapM (checkVectorItem lib key) = .ok nums) :
    nums.length = items.length ∧ ∃ vector, nums.mapM vectorItem = .ok vector := by
  have hnum : ∀ v num, checkVectorItem lib key v = .ok num → ∃ x, num = .num x := by
    intro v num hv
    rw [checkVectorItem] at hv
    split at hv
    · next x _ =>
      cases hv
      exact ⟨x, rfl⟩
    · cases hv
  obtain ⟨hlength, hnums⟩ := mapM_forall hnum h
  refine ⟨hlength, ?_⟩
  clear h hlength
  induction nums with
  | nil => exact ⟨[], rfl⟩
  | cons num nums ih =>
    obtain ⟨⟨x, rfl⟩, hrest⟩ := forall_mem_cons.1 hnums
    obtain ⟨vector, hvector⟩ := ih hrest
    refine ⟨x :: vector, ?_⟩
    rw [mapM_cons, hvector]
    rfl

/-- What is stored has the Go type of the property, and is a list only if the value is. -/
theorem checkField_ok (h : checkField lib prop key value = .ok stored) :
    prop.holds stored = true ∧ (elements value = [value] → elements stored = [stored]) := by
  unfold checkField at h
  unfold Property.holds
  cases htype : prop.type with
  | text | keyword | vector | other _ =>
    rw [htype] at h
    cases h
    exact ⟨rfl, fun _ => rfl⟩
  | numeric | bool =>
    rw [htype] at h
    dsimp only at h
    split at h
    · cases h
      exact ⟨rfl, fun _ => rfl⟩
    · cases h
  | date | time =>
    rw [htype] at h
    dsimp only at h
    split at h
    · cases h
      exact ⟨rfl, id⟩
    · cases h

theorem holds_storedItems (hindex : prop.index = true) (htype : prop.type ≠ .vector) :
    ∀ w ∈ storedItems lib (some prop) key value, prop.holds w = true := by
  intro w hw
  rw [storedItems] at hw
  split at hw
  · next stored hcheck =>
    split at hw
    · cases hw
    · rw [checkValue.eq_def] at hcheck
      dsimp only at hcheck
      rw [hindex, if_neg (by decide), if_neg htype] at hcheck
      split at hcheck
      · next items =>
        cases hitems : items.mapM (checkField lib prop key) with
        | error e =>
          rw [hitems] at hcheck
          cases hcheck
        | ok r =>
          rw [hitems] at hcheck
          cases hcheck
          exact (mapM_forall (fun _ _ h => (checkField_ok h).1) hitems).2 w hw
      · next hlist =>
        obtain ⟨hholds, hone⟩ := checkField_ok hcheck
        have hscalar : elements value = [value] := by
          cases value with
          | list items => exact absurd rfl (hlist items)
          | _ => rfl
        rw [hone hscalar, mem_singleton] at hw
        rwa [hw]
  · cases hw

theorem takesAll_of_forall (h : ∀ w ∈ items, Takes lib m key w) : TakesAll lib m key items := by
  induction items with
  | nil => exact trivial
  | cons v items ih =>
    obtain ⟨hv, hrest⟩ := forall_mem_cons.1 h
    exact ⟨hv, fun _ => ih hrest⟩

theorem builds_of_mapped (h : MappedField lib enable m (key, value)) :
    Builds lib m (m.get key) key value := by
  intro prop hget hindex
  have htakes := h.2
  rw [Mappings.prop, hget, Option.getD_some] at htakes
  split
  · next hvector => rwa [if_pos hvector] at htakes
  · next hvector =>
    rw [if_neg hvector] at htakes
    rw [hget]
    exact takesAll_of_forall fun w hw => htakes w (holds_storedItems hindex hvector w hw)

theorem learns_mapped (h : isNull field.2 = false → asks enable m field.1 = false) :
    learns enable m field = false := by
  rw [learns]
  cases hnull : isNull field.2 with
  | true => rw [tells_sample_null hnull, Bool.and_false]
  | false => rw [h hnull, Bool.false_and]

theorem foldl_mapped (lib : DocLib N) (h : ∀ field ∈ fields, learns enable m field = false) :
    fields.foldl (learnField lib.toGoLib enable) m = m := by
  induction fields with
  | nil => rfl
  | cons field fields ih =>
    obtain ⟨hfield, hrest⟩ := forall_mem_cons.1 h
    rw [foldl_cons, learnField_of_not_learns lib hfield, ih hrest]

theorem visited_subset (lib : DocLib N) (m : Mappings) (fields : Object N) :
    visited lib m fields ⊆ fields := by
  induction fields with
  | nil => exact fun _ => id
  | cons field fields ih =>
    rw [visited]
    split
    · exact cons_subset_cons _ (nil_subset _)
    · exact cons_subset_cons _ ih

/-- Nothing is learned from fields that are mapped. -/
theorem checkFields_mapped
    (hasks : ∀ field ∈ fields, isNull field.2 = false → asks enable m field.1 = false)
    (hok : (checkFields lib enable fields m false).2 = .ok (data, update)) :
    (checkFields lib enable fields m false).1 = m ∧ update = false := by
  have hplain : ∀ f ∈ visited lib m fields, learns enable m f = false := fun field hfield =>
    learns_mapped (hasks field (visited_subset lib m fields hfield))
  obtain ⟨hsame, ⟨-, e, herror⟩ | ⟨-, data', hdata'⟩⟩ := checkFields_plain false hplain
  · cases hok.symm.trans herror
  · obtain ⟨-, hupdate⟩ := Prod.mk.inj (Except.ok.inj (hok.symm.trans hdata'))
    refine ⟨hsame, ?_⟩
    rw [hupdate, Bool.false_or, any_eq_false]
    intro field hfield hlearns
    simp only [Bool.and_eq_true, Bool.not_eq_true'] at hlearns
    rw [hasks field hfield hlearns.1] at hlearns
    cases hlearns.2

theorem not_crashes_buildVector (hdims : checked.dims = prop.dims)
    (hcheck : checkVector lib checked key items = .ok nums) :
    ¬ Crashes (buildVector prop (.list nums)) := by
  rw [checkVector] at hcheck
  split at hcheck
  · cases hcheck
  · next hlength =>
    obtain ⟨hnums, vector, hvector⟩ := mapM_vectorItem hcheck
    rw [not_not, hdims] at hlength
    rw [buildVector, if_neg (by omega), hnums, if_neg (not_not.2 hlength), hvector]
    exact not_crashes_ok

theorem crashes_buildVector (h : ¬ ∃ items, value = .list items) :
    Crashes (buildVector prop value) := by
  rw [buildVector.eq_def]
  split
  · exact .inl rfl
  · cases value with
    | list items => exact absurd ⟨items, rfl⟩ h
    | _ => exact .inr rfl

theorem checkValue_vector (htype : checked.type = .vector) (hindex : checked.index = true) :
    (∀ items, value = .list items → checkValue lib (some checked) key value =
      (checkVector lib checked key items).map .list) ∧
    ((¬ ∃ items, value = .list items) → checkValue lib (some checked) key value = .ok value) := by
  rw [checkValue.eq_def]
  dsimp only
  rw [hindex, if_neg (by decide), if_pos htype]
  refine ⟨fun items hitems => by rw [hitems], fun hno => ?_⟩
  cases value with
  | list items => exact absurd ⟨items, rfl⟩ hno
  | _ => rfl

theorem entryTakes_iff {checked : Option Property} {stored : Json N}
    (hvector : ∀ prop, m.get key = some prop → prop.type = .vector → ∃ prop',
      checked = some prop' ∧ prop'.type = .vector ∧ prop'.dims = prop.dims ∧
        prop'.index = prop.index)
    (hnull : isNull value = false) (hcheck : checkValue lib checked key value = .ok stored) :
    EntryTakes lib m (key, stored) ↔ Builds lib m checked key value := by
  have hitems : storedItems lib checked key value =
      if isNull stored then [] else elements stored := by
    rw [storedItems, hcheck]
  rw [Builds, EntryTakes]
  constructor
  · intro h prop hget hindex
    by_cases htype : prop.type = .vector
    · rw [if_pos htype]
      by_contra hno
      obtain ⟨prop', rfl, htype', -, hindex'⟩ := hvector prop hget htype
      obtain rfl : value = stored := by
        rw [(checkValue_vector htype' (hindex'.trans hindex)).2 hno] at hcheck
        exact Except.ok.inj hcheck
      have hsafe := h hnull prop hget hindex
      rw [if_pos htype] at hsafe
      exact hsafe (crashes_buildVector hno)
    · rw [if_neg htype, hitems]
      split
      · exact trivial
      · next hstored =>
        have hsafe := h (Bool.eq_false_of_not_eq_true hstored) prop hget hindex
        rwa [if_neg htype] at hsafe
  · intro h hstored prop hget hindex
    have hbuilds := h prop hget hindex
    by_cases htype : prop.type = .vector
    · rw [if_pos htype] at hbuilds ⊢
      obtain ⟨items, rfl⟩ := hbuilds
      obtain ⟨prop', rfl, htype', hdims, hindex'⟩ := hvector prop hget htype
      rw [(checkValue_vector htype' (hindex'.trans hindex)).1 items rfl] at hcheck
      cases hnums : checkVector lib prop' key items with
      | error e =>
        rw [hnums] at hcheck
        cases hcheck
      | ok nums =>
        rw [hnums] at hcheck
        cases hcheck
        exact not_crashes_buildVector hdims hnums
    · rw [if_neg htype] at hbuilds ⊢
      rwa [hitems, if_neg (Bool.eq_false_iff.1 hstored)] at hbuilds

theorem fields_reread {op op' : Operation N} (h : op.reread lib = some op') :
    op'.fields = op.fields := by
  rw [Operation.reread] at h
  split at h
  · cases h
    rfl
  · cases h

theorem checkDocumentOperation_ok {order : Shuffle (String × Json N)} {stored : Option String}
    {doc : Object N} {now : Int}
    (h : checkDocumentOperation lib enable order stored m doc now = (m', .ok op)) :
    ∃ data update, (checkFields lib enable (order.order (flatten doc)) m false).2 =
        .ok (data, update) ∧
      m' = (if update then
          setMappings (checkFields lib enable (order.order (flatten doc)) m false).1
        else (checkFields lib enable (order.order (flatten doc)) m false).1) ∧
      op.fields = data.filter fun f => f.1 ∉ reserved := by
  rw [checkDocumentOperation] at h
  dsimp only at h
  split at h
  · cases h
  · next data update hok =>
    split at h
    · cases h
    · cases htime : readTimestamp lib (if update then
          setMappings (checkFields lib enable (order.order (flatten doc)) m false).1
        else (checkFields lib enable (order.order (flatten doc)) m false).1) data now with
      | error e =>
        rw [htime] at h
        cases h
      | ok t =>
        rw [htime] at h
        cases h
        exact ⟨data, update, hok, rfl, rfl⟩

end BuildLemmas

open BuildLemmas CheckLemmas

/-- An accepted document can be built in every order, directly and after the way through the WAL, if
and only if the fields take what the check has stored for them. One of mapped fields can. -/
theorem accepted_builds_iff (lib : DocLib N) (enableTextKeywordMapping : Bool)
    (order : Shuffle (String × Json N)) (stored : Option String) (m m' : Mappings)
    (doc : Object N) (now : Int) (op : Operation N)
    (haccepted : checkDocumentOperation lib enableTextKeywordMapping order stored m doc now =
      (m', .ok op)) :
    (((∀ loop orders, ¬ Crashes (build lib loop orders m' op)) ∧
      ∀ op', op.reread lib = some op' → ∀ loop orders, ¬ Crashes (build lib loop orders m' op')) ↔
    ∀ pre key value post, order.order (flatten doc) = pre ++ (key, value) :: post →
      key ∉ reserved → isNull value = false →
      Builds lib m' (((pre ++ [(key, value)]).foldl
        (learnField lib.toGoLib enableTextKeywordMapping) m).get key) key value) ∧
    ((∀ field ∈ flatten doc, isNull field.2 = false →
        MappedField lib enableTextKeywordMapping m field) →
      ∀ loop orders, ¬ Crashes (build lib loop orders m' op)) := by
  obtain ⟨data, update, hok, hm', hfields⟩ := checkDocumentOperation_ok haccepted
  obtain ⟨hmap, hdata, hsplits⟩ := checkFields_ok hok
  -- a vector has the same property when it is checked and when it is built
  have hvector : ∀ pre key value post, order.order (flatten doc) = pre ++ (key, value) :: post →
      key ∉ reserved → ∀ prop, m'.get key = some prop → prop.type = .vector → ∃ prop',
        ((pre ++ [(key, value)]).foldl (learnField lib.toGoLib enableTextKeywordMapping) m).get
          key = some prop' ∧ prop'.type = .vector ∧ prop'.dims = prop.dims ∧
          prop'.index = prop.index := by
    intro pre key value post hsplit hkey prop hget htype
    have hfold : order.order (flatten doc) = (pre ++ [(key, value)]) ++ post := by
      rw [hsplit, append_assoc, singleton_append]
    rw [hmap, hfold, foldl_append] at hm'
    rw [hm'] at hget
    split at hget
    · have htime : timeFieldName ≠ key := fun heq => hkey (heq ▸ by decide)
      obtain ⟨prop', hprop', htype', hsame⟩ := get_of_setMappings hget htype htime
      exact ⟨prop', get_of_vector hprop' htype', htype', hsame⟩
    · exact ⟨prop, get_of_vector hget htype, htype, rfl, rfl⟩
  refine (and_iff_left_of_imp fun hiff hmapped => (hiff.2 ?_).1).2
    (.trans (b := ∀ field ∈ op.fields, EntryTakes lib m' field) ?_ ⟨?_, ?_⟩)
  · refine ⟨fun h => (build_iff lib m' op).1 h.1, fun h => ⟨(build_iff lib m' op).2 h,
      fun op' hop' => (build_iff lib m' op').2 ?_⟩⟩
    rw [fields_reread hop']
    exact h
  · intro h pre key value post hsplit hkey hnull
    obtain ⟨w, hmem, ⟨hnull', -⟩ | ⟨-, hcheck⟩⟩ := hsplits pre key value post hsplit
    · rw [hnull] at hnull'
      cases hnull'
    · refine (entryTakes_iff (hvector pre key value post hsplit hkey) hnull hcheck).1 (h _ ?_)
      rw [hfields]
      exact mem_filter.2 ⟨hmem, by simpa using hkey⟩
  · rintro h ⟨key, w⟩ hfield
    rw [hfields, mem_filter] at hfield
    have hkey : key ∉ reserved := by simpa using hfield.2
    obtain ⟨pre, value, post, hsplit, ⟨hnull, rfl⟩ | ⟨hnull, hcheck⟩⟩ := hdata key w hfield.1
    · intro hnull'
      rw [hnull] at hnull'
      cases hnull'
    · exact (entryTakes_iff (hvector pre key value post hsplit hkey) hnull hcheck).2
        (h pre key value post hsplit hkey hnull)
  · -- a field is built with the property it has been checked with
    intro pre key value post hsplit hkey hnull
    have hfields : ∀ field ∈ pre ++ (key, value) :: post, isNull field.2 = false →
        MappedField lib enableTextKeywordMapping m field := fun field hfield =>
      hmapped field ((order.perm _).mem_iff.1 (hsplit ▸ hfield))
    have hasks := fun field hfield hnull => (hfields field hfield hnull).1
    rw [hsplit] at hok hm'
    obtain ⟨hsame, hnone⟩ := checkFields_mapped hasks hok
    rw [hsame, hnone] at hm'
    rw [append_cons] at hasks
    rw [foldl_mapped lib fun field hfield =>
      learns_mapped (hasks field (mem_append_left _ hfield)), hm']
    exact builds_of_mapped (hfields _ mem_append_cons_self hnull)

/-- How the building of a document stops after it has been checked, with the orders of the lists. -/
def checkAndBuild (m : Mappings) (doc : List (String × Json Int)) : Option (Option BuildStop) :=
  let checked := checkDocumentOperation wholeNumbers false ⟨id, fun _ => .refl _⟩ none m doc 0
  match checked.2 with
  | .error _ => none
  | .ok op =>
    match build wholeNumbers ⟨id, fun _ => .refl _⟩ (fun _ _ => ⟨id, fun _ => .refl _⟩) checked.1
      op with
    | .error stop => some (some stop)
    | .ok _ => some none

/-- Accepted documents that end the process: a vector that is a text, a text with a numeric
sub-field, a list for a field of an unknown type, and a number for `_id`, which `SetMappings` makes
a keyword. -/
theorem accepted_crashes :
    checkAndBuild [("v", { newProperty .vector with dims := 2 })] [("v", .str "x")] =
      some (some .exit) ∧
    checkAndBuild [("t", (newProperty .text).addField "n"), ("t.n", newProperty .numeric)]
      [("t", .str "x")] = some (some .panic) ∧
    checkAndBuild [("g", newProperty (.other "geo_point"))] [("g", .list [.num 1, .num 2])] =
      some (some .panic) ∧
    checkAndBuild [] [("_id", .num 5)] = some (some .panic) := by
  decide +kernel

theorem accepted_builds_vector :
    let m : Mappings := [("v", { newProperty .vector with dims := 2 })]
    let doc : List (String × Json Int) := [("v", .list [.num 1, .num 2])]
    let checked := checkDocumentOperation wholeNumbers true ⟨id, fun _ => .refl _⟩ none m doc 0
    ∃ op, checked.2 = .ok op ∧
      ∀ loop orders, ¬ Crashes (build wholeNumbers loop orders checked.1 op) := by
  intro m doc checked
  obtain ⟨op, hop⟩ : ∃ op, checked.2 = .ok op := ⟨_, rfl⟩
  refine ⟨op, hop, (accepted_builds_iff wholeNumbers true ⟨id, fun _ => .refl _⟩ none m checked.1
    doc 0 op (Prod.ext rfl hop)).2 (forall_mem_singleton.2 fun _ => ⟨rfl, [.num 1, .num 2], rfl⟩)⟩

end Mapping

end SeaSearch
