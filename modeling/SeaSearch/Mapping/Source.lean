import SeaSearch.Mapping.Shared

/-!
# The source of a document

`CheckDocumentOperation` also puts the document itself into the operation, as its source. The values
in an array are converted in their place, in the array that the flat document shares with the
document: so they are also converted in the source.
-/

namespace SeaSearch

namespace Mapping

open List Versions

variable {N : Type}

def writeFields (new : Json N) : Address → Object N → Object N
  | [], fields => fields
  | i :: addr, fields => fields.modify i fun field => (field.1, writeAt new addr field.2)

/-- The document that is submitted: with what is in its arrays, and the keys that have been deleted
from it. -/
structure Submitted (N : Type) where
  doc : Object N
  deleted : List String := []

def Submitted.source (s : Submitted N) : Object N :=
  s.doc.filter fun field => field.1 ∉ s.deleted

def isVector : Option Property → Bool
  | some prop => prop.index && decide (prop.type = .vector)
  | none => false

def isList : Json N → Bool
  | .list _ => true
  | _ => false

/-- The value of a field when it is checked: an array has what is in the document by then. -/
def Submitted.value (s : Submitted N) (ref : Shared N) : Json N :=
  if isList ref.value then (readAt ref.addr (.map s.doc)).getD .null else ref.value

/-- What the check of a field does to the document: an array has the converted values, and a vector
is deleted. -/
def Submitted.check (s : Submitted N) (prop : Option Property) (key : String) (ref : Shared N)
    (converted : Json N) : Submitted N :=
  if isList ref.value then
    { doc := writeFields converted ref.addr s.doc
      deleted := if isVector prop then s.deleted ++ [key] else s.deleted }
  else s

section Document

variable (lib : DocLib N) (enableTextKeywordMapping : Bool)

def checkShared : SharedFields N → Mappings → Bool → Submitted N →
    Mappings × Except String (Object N × Bool × Submitted N)
  | [], m, update, s => (m, .ok ([], update, s))
  | (key, ref) :: fields, m, update, s =>
    let value := s.value ref
    if isNull value then
      let rest := checkShared fields m update s
      (rest.1, rest.2.map fun (data, r) => ((key, value) :: data, r))
    else
      let checked := checkProperty lib.toGoLib enableTextKeywordMapping m key value
      match checkValue lib (checked.1.get key) key value with
      | .error e => (checked.1, .error e)
      | .ok v =>
        let rest := checkShared fields checked.1 (update || checked.2)
          (s.check (checked.1.get key) key ref v)
        (rest.1, rest.2.map fun (data, r) => ((key, v) :: data, r))

/-- `CheckDocumentOperation`: the operation, and its source. -/
def checkDocumentSource (order : Shuffle (String × Shared N)) (stored : Option String)
    (m : Mappings) (doc : Object N) (now : Int) :
    Mappings × Except String (Operation N × Object N) :=
  let checked :=
    checkShared lib enableTextKeywordMapping (order.order (share doc)) m false ⟨doc, []⟩
  match checked.2 with
  | .error e => (checked.1, .error e)
  | .ok (data, update, s) =>
    let m := if update then setMappings checked.1 else checked.1
    match (if update then stored else none) with
    | some e => (m, .error e)
    | none =>
      let s := if (lookup Prod.fst data timeFieldName).isSome then
        { s with deleted := s.deleted ++ [timeFieldName] } else s
      (m, (readTimestamp lib m data now).map fun t =>
        (⟨data.filter fun f => f.1 ∉ reserved, .int64 (unixNano t)⟩, s.source))

structure Visit (N : Type) where
  prop : Option Property
  key : String
  ref : Shared N

def visits : SharedFields N → Mappings → List (Visit N)
  | [], _ => []
  | (key, ref) :: fields, m =>
    let m := learnField lib.toGoLib enableTextKeywordMapping m (key, ref.value)
    ⟨m.get key, key, ref⟩ :: visits fields m

end Document

/-- The keys that the checks of vectors delete. -/
def deletedKeys (vs : List (Visit N)) : List String :=
  (vs.filter fun v => isList v.ref.value && isVector v.prop).map Visit.key

/-- The keys that are not in the source: those of vectors, and `@timestamp` if the document has
it. -/
def removedKeys (doc : Object N) (vs : List (Visit N)) : List String :=
  deletedKeys vs ++ if timeFieldName ∈ (flatten doc).map Prod.fst then [timeFieldName] else []

def Shared.topKey (doc : Object N) (ref : Shared N) : Option String :=
  (doc[ref.addr.headD 0]?).map Prod.fst

def Visit.write (lib : DocLib N) (v : Visit N) : Option (Address × Json N) :=
  if isList v.ref.value then
    match checkValue lib v.prop v.key v.ref.value with
    | .ok converted => some (v.ref.addr, converted)
    | .error _ => none
  else none

def writeAll (doc : Object N) (ws : List (Address × Json N)) :
    Object N :=
  ws.foldl (fun doc w => writeFields w.2 w.1 doc) doc

/-- If the value is an array, then its conversion gives the same array: what is in it has the type
of the property. -/
def Visit.Keeps (lib : DocLib N) (v : Visit N) : Prop :=
  isList v.ref.value → checkValue lib v.prop v.key v.ref.value = .ok v.ref.value

/-- Before the fields are checked each has its value in the document. No array is in another. -/
structure Submitted.Fresh (s : Submitted N) (fields : SharedFields N) : Prop where
  apart : fields.Pairwise fun f f' => Apart f.2.addr f'.2.addr
  read : ∀ f ∈ fields, f.2.addr ≠ [] ∧ readAt f.2.addr (.map s.doc) = some f.2.value

/-- The source is the document, from which at most vectors and `@timestamp` are removed. -/
def SourceKept (m : Mappings) (doc source : Object N) : Prop :=
  ∃ removed : List String, (∀ key ∈ removed, key = timeFieldName ∨
      ∃ prop, m.get key = some prop ∧ prop.type = .vector) ∧
    source = doc.filter fun field => field.1 ∉ removed

namespace SourceLemmas

open SharedLemmas

variable {lib : DocLib N} {enable : Bool} {doc : Object N} {key : String}
  {fields : SharedFields N} {m : Mappings}
  {r : Object N × Bool × Submitted N} {ws : List (Address × Json N)}
  {l l' : Object N}

theorem map_writeFields (new : Json N) (ha : a ≠ []) :
    Json.map (writeFields new a doc) = writeAt new a (.map doc) := by
  cases a with
  | nil => exact absurd rfl ha
  | cons i a => rfl

section Fresh

variable {s : Submitted N} {field : String × Shared N} (h : s.Fresh (field :: fields))
include h

theorem Fresh.value : s.value field.2 = field.2.value := by
  rw [Submitted.value, (h.read field mem_cons_self).2]
  exact ite_self _

theorem Fresh.tail : s.Fresh fields :=
  ⟨h.apart.of_cons, fun f hf => h.read f (mem_cons_of_mem _ hf)⟩

/-- What is written to an array is not in the others. -/
theorem Fresh.check (prop : Option Property) (key : String) (converted : Json N) :
    (s.check prop key field.2 converted).Fresh fields := by
  refine ⟨h.apart.of_cons, fun f hf => ?_⟩
  obtain ⟨hne, hread⟩ := h.read f (mem_cons_of_mem _ hf)
  refine ⟨hne, ?_⟩
  rw [Submitted.check]
  split
  · dsimp only
    rw [map_writeFields converted (h.read field mem_cons_self).1,
      readAt_writeAt_apart (rel_of_pairwise_cons h.apart hf), hread]
  · exact hread

end Fresh

theorem fresh_share (hfields : fields.Perm (share doc)) : Submitted.Fresh ⟨doc, []⟩ fields := by
  have hempty : (([] : SharedFields N).map Prod.fst).Nodup := nodup_nil
  have hnodup := hfields.nodup_iff.2 (nodup_shareFields "" [] 0 hempty doc).of_map
  refine ⟨hnodup.imp_of_mem fun {f f'} hf hf' => ?_, fun f hf => ⟨?_, ?_⟩⟩
  · exact share_apart (hfields.mem_iff.1 hf) (hfields.mem_iff.1 hf')
  · obtain ⟨i, field, a, -, haddr, -⟩ := share_entry (hfields.mem_iff.1 hf)
    rw [haddr]
    exact cons_ne_nil i a
  · exact readAt_of_flatAt (readAt_share (hfields.mem_iff.1 hf))

theorem checkShared_fields (lib : DocLib N) (enable : Bool) (m : Mappings) (update : Bool)
    {s : Submitted N} (h : s.Fresh fields) :
    (checkShared lib enable fields m update s).map id (·.map fun r => (r.1, r.2.1)) =
      checkFields lib enable (unshare fields) m update := by
  induction fields generalizing m update s with
  | nil => rfl
  | cons field fields ih =>
    have hvalue := Fresh.value h
    obtain ⟨key, ref⟩ := field
    rw [unshare, map_cons, checkShared, checkFields]
    rw [unshare] at ih
    dsimp only at hvalue ⊢
    rw [hvalue]
    split
    · rw [← ih m update (Fresh.tail h)]
      rcases checkShared lib enable fields m update s with ⟨m', e | r⟩
      · rfl
      · rfl
    · generalize checkProperty lib.toGoLib enable m key ref.value = checked
      cases checkValue lib (checked.1.get key) key ref.value with
      | error e => rfl
      | ok v =>
        dsimp only
        rw [← ih checked.1 (update || checked.2) (Fresh.check h (checked.1.get key) key v)]
        rcases checkShared lib enable fields _ _ _ with ⟨m', e | r⟩
        · rfl
        · rfl

theorem map_eq_ok {β γ ε : Type} {x : Except ε β} {f : β → γ} {r : γ} (h : x.map f = .ok r) :
    ∃ a, x = .ok a ∧ f a = r := by
  cases x with
  | error e => cases h
  | ok a => exact ⟨a, rfl, Except.ok.inj h⟩

theorem isList_of_null (h : isNull value = true) : isList value = false := by
  cases value with
  | null => rfl
  | _ => cases h

/-- Although the arrays are converted in the document while it is checked, the operation is that of
a check of copies, in the same order. -/
theorem checkDocumentSource_operation (lib : DocLib N) (enable : Bool)
    (order : Shuffle (String × Shared N)) (order' : Shuffle (String × Json N))
    (stored : Option String) (m : Mappings) (doc : Object N) (now : Int)
    (horder : order'.order (flatten doc) = unshare (order.order (share doc))) :
    checkDocumentOperation lib enable order' stored m doc now =
      (checkDocumentSource lib enable order stored m doc now).map id (·.map Prod.fst) := by
  have hfields := checkShared_fields lib enable m false (fresh_share (order.perm (share doc)))
  rw [checkDocumentOperation, checkDocumentSource, horder, ← hfields]
  rcases checkShared lib enable (order.order (share doc)) m false ⟨doc, []⟩ with ⟨m', e | r⟩
  · rfl
  · dsimp only [Prod.map, Except.map, id_eq]
    generalize (if r.2.1 = true then stored else none) = failed
    cases failed with
    | some e => rfl
    | none =>
      dsimp only
      cases readTimestamp lib _ r.1 now with
      | error e => rfl
      | ok t => rfl

/-- Two arrays, one of them in an object, whose numbers become texts. -/
theorem checkDocumentSource_operation_arrays :
    (checkDocumentOperation wholeNumbers false ⟨id, .refl⟩ none
        [("tags", newProperty .keyword), ("a.b", newProperty .keyword)]
        [("tags", .list [.num 1]), ("a", .map [("b", .list [.num 2, .str "x"])])] 0).2.map
      (fun op => op.fields) =
      .ok [("tags", .list [.str "1"]), ("a.b", .list [.str "2", .str "x"])] := by
  rw [checkDocumentSource_operation wholeNumbers false ⟨id, .refl⟩ _ none _ _ 0 rfl]
  rfl

theorem checkShared_cons {ref : Shared N} {update : Bool} {s : Submitted N}
    (hfresh : s.Fresh ((key, ref) :: fields))
    (h : (checkShared lib enable ((key, ref) :: fields) m update s).2 = .ok r) :
    let m' := learnField lib.toGoLib enable m (key, ref.value)
    ∃ v update' rest, (isList ref.value → checkValue lib (m'.get key) key ref.value = .ok v) ∧
      (checkShared lib enable fields m' update' (s.check (m'.get key) key ref v)).2 = .ok rest ∧
      r = ((key, v) :: rest.1, rest.2) := by
  have hvalue : s.value ref = ref.value := Fresh.value hfresh
  rw [checkShared] at h
  dsimp only at h
  rw [hvalue] at h
  rw [learnField]
  by_cases hnull : isNull ref.value = true
  · rw [if_pos hnull] at h
    dsimp only
    rw [if_pos hnull]
    have hnot := isList_of_null hnull
    obtain ⟨rest, hrest, rfl⟩ := map_eq_ok h
    refine ⟨ref.value, update, rest, fun hlist => ?_, ?_, rfl⟩
    · rw [hnot] at hlist
      cases hlist
    · rw [Submitted.check, hnot]
      exact hrest
  · rw [if_neg hnull] at h
    dsimp only at h ⊢
    rw [if_neg hnull]
    cases hcheck : checkValue lib ((checkProperty lib.toGoLib enable m key ref.value).1.get key) key
        ref.value with
    | error e =>
      rw [hcheck] at h
      cases h
    | ok v =>
      rw [hcheck] at h
      obtain ⟨rest, hrest, rfl⟩ := map_eq_ok h
      exact ⟨v, _, rest, fun _ => rfl, hrest, rfl⟩

theorem checkShared_doc (hfresh : s.Fresh fields)
    (h : (checkShared lib enable fields m update s).2 = .ok r) :
    r.2.2.doc = writeAll s.doc ((visits lib enable fields m).filterMap (Visit.write lib)) ∧
      r.2.2.deleted = s.deleted ++ deletedKeys (visits lib enable fields m) ∧
      r.1.map Prod.fst = fields.map Prod.fst ∧
      ∀ v ∈ visits lib enable fields m, isList v.ref.value →
        ∃ converted, checkValue lib v.prop v.key v.ref.value = .ok converted := by
  induction fields generalizing m update s r with
  | nil =>
    cases h
    exact ⟨rfl, (append_nil _).symm, rfl, nofun⟩
  | cons field fields ih =>
    obtain ⟨key, ref⟩ := field
    obtain ⟨v, update', rest, hcheck, hrest, rfl⟩ := checkShared_cons hfresh h
    obtain ⟨hdoc, hdeleted, hkeys, hall⟩ := ih (Fresh.check hfresh _ _ _) hrest
    rw [visits, deletedKeys, filterMap_cons, filter_cons]
    dsimp only
    rw [hdoc, hdeleted, map_cons, map_cons, hkeys]
    by_cases hlist : isList ref.value = true
    · have hwrite : Visit.write lib ⟨(learnField lib.toGoLib enable m (key, ref.value)).get key,
          key, ref⟩ = some (ref.addr, v) := by
        rw [Visit.write, if_pos hlist, hcheck hlist]
      rw [hwrite, Submitted.check, if_pos hlist, hlist, Bool.true_and]
      refine ⟨rfl, ?_, rfl, forall_mem_cons.2 ⟨fun _ => ⟨v, hcheck hlist⟩, hall⟩⟩
      dsimp only
      split
      · rw [map_cons, append_assoc]
        rfl
      · rfl
    · have hwrite : Visit.write lib ⟨(learnField lib.toGoLib enable m (key, ref.value)).get key,
          key, ref⟩ = none := if_neg hlist
      rw [hwrite, Submitted.check, if_neg hlist, Bool.eq_false_of_not_eq_true hlist, Bool.false_and]
      exact ⟨rfl, rfl, rfl, forall_mem_cons.2 ⟨fun hlist' => absurd hlist' hlist, hall⟩⟩

theorem visits_entries (lib : DocLib N) (enable : Bool) (fields : SharedFields N)
    (m : Mappings) : (visits lib enable fields m).map (fun v => (v.key, v.ref)) = fields := by
  induction fields generalizing m with
  | nil => rfl
  | cons field fields ih =>
    rw [visits, map_cons, ih]

theorem keys_writeFields (new : Json N) (a : Address) (doc : Object N) :
    (writeFields new a doc).map Prod.fst = doc.map Prod.fst := by
  cases a with
  | nil => rfl
  | cons i a =>
    refine ext_getElem? fun j => ?_
    rw [writeFields, List.getElem?_map, List.getElem?_map, List.getElem?_modify]
    cases doc[j]? with
    | none => rfl
    | some field =>
      by_cases hij : i = j
      · simp [hij]
      · simp [hij]

theorem keys_writeAll (ws : List (Address × Json N)) (doc : Object N) :
    (writeAll doc ws).map Prod.fst = doc.map Prod.fst := by
  induction ws generalizing doc with
  | nil => rfl
  | cons w ws ih => exact (ih _).trans (keys_writeFields w.2 w.1 doc)

theorem readAt_writeAll_apart (h : ∀ w ∈ ws, w.1 ≠ [] ∧ Apart w.1 b) :
    readAt b (.map (writeAll doc ws)) = readAt b (.map doc) := by
  induction ws generalizing doc with
  | nil => rfl
  | cons w ws ih =>
    obtain ⟨⟨hne, hapart⟩, hws⟩ := forall_mem_cons.1 h
    exact (ih hws).trans (by rw [map_writeFields w.2 hne, readAt_writeAt_apart hapart])

theorem readAt_writeAll (hapart : ws.Pairwise fun w w' => Apart w.1 w'.1)
    (hws : ∀ w ∈ ws, w.1 ≠ [] ∧ (readAt w.1 (.map doc)).isSome) :
    ∀ w ∈ ws, readAt w.1 (.map (writeAll doc ws)) = some w.2 := by
  induction ws generalizing doc with
  | nil => exact nofun
  | cons w ws ih =>
    rw [pairwise_cons] at hapart
    obtain ⟨⟨hne, hsome⟩, hws⟩ := forall_mem_cons.1 hws
    rw [forall_mem_cons]
    constructor
    · refine (readAt_writeAll_apart fun w' hw' => ⟨(hws w' hw').1, ?_⟩).trans ?_
      · exact ⟨(hapart.1 w' hw').2, (hapart.1 w' hw').1⟩
      · obtain ⟨old, hold⟩ := Option.isSome_iff_exists.1 hsome
        rw [map_writeFields w.2 hne, readAt_writeAt_self hold]
    · refine ih hapart.2 fun w' hw' => ⟨(hws w' hw').1, ?_⟩
      rw [map_writeFields w.2 hne, readAt_writeAt_apart (hapart.1 w' hw')]
      exact (hws w' hw').2

theorem filter_eq_iff (hkeys : l.map Prod.fst = l'.map Prod.fst) (kept : String → Bool) :
    (l.filter fun field => kept field.1) = (l'.filter fun field => kept field.1) ↔
      ∀ (i : Nat) (field : String × Json N), l'[i]? = some field → kept field.1 →
        l[i]? = some field := by
  induction l generalizing l' with
  | nil =>
    obtain rfl := map_eq_nil_iff.1 hkeys.symm
    exact ⟨nofun, fun _ => rfl⟩
  | cons f l ih =>
    cases l' with
    | nil => cases hkeys
    | cons f' l' =>
      obtain ⟨hkey, hrest⟩ := List.cons.inj hkeys
      have hsplit : (∀ (i : Nat) (field : String × Json N), (f' :: l')[i]? = some field →
          kept field.1 → (f :: l)[i]? = some field) ↔ (kept f'.1 → f = f') ∧
            ∀ (i : Nat) (field : String × Json N), l'[i]? = some field → kept field.1 →
              l[i]? = some field := by
        refine ⟨fun h => ⟨fun hkept => Option.some.inj (h 0 f' rfl hkept),
          fun i field hfield => h (i + 1) field hfield⟩, fun h i field hfield hkept => ?_⟩
        cases i with
        | zero =>
          cases hfield
          exact congrArg some (h.1 hkept)
        | succ i => exact h.2 i field hfield hkept
      rw [hsplit, ← ih hrest, filter_cons, filter_cons, ← hkey]
      split
      · next hkept => simp [hkept]
      · next hkept => simp [hkept]

theorem writeAll_filter_iff (hapart : ws.Pairwise fun w w' => Apart w.1 w'.1)
    (hws : ∀ w ∈ ws, w.1 ≠ [] ∧ (readAt w.1 (.map doc)).isSome) (kept : String → Bool) :
    ((writeAll doc ws).filter fun field => kept field.1) = (doc.filter fun field => kept field.1) ↔
      ∀ w ∈ ws, ∀ i a field, w.1 = i :: a → doc[i]? = some field → kept field.1 →
        readAt w.1 (.map doc) = some w.2 := by
  rw [filter_eq_iff (keys_writeAll ws doc)]
  constructor
  · intro h w hw i a field haddr hfield hkept
    have hread := readAt_writeAll hapart hws w hw
    rw [haddr, readAt, h i field hfield hkept] at hread
    rw [haddr, readAt, hfield]
    exact hread
  · intro h i field hfield hkept
    -- each array is written as it is, or it is in another field
    have hfield' : ∀ {ws' : List (Address × Json N)} {doc' : Object N},
        (∀ w ∈ ws', w ∈ ws) → doc'[i]? = some field → (writeAll doc' ws')[i]? = some field := by
      intro ws'
      induction ws' with
      | nil => exact fun _ hdoc => hdoc
      | cons w ws' ih =>
        intro doc' hsub hdoc
        obtain ⟨hw, hsub⟩ := forall_mem_cons.1 hsub
        refine ih hsub ?_
        dsimp only
        cases haddr : w.1 with
        | nil => exact hdoc
        | cons j a =>
          by_cases hij : j = i
          · subst hij
            have hread := h w hw j a field haddr hfield hkept
            rw [haddr, readAt, hfield] at hread
            rw [writeFields, List.getElem?_modify_eq, hdoc]
            exact congrArg some (congrArg (Prod.mk field.1) (writeAt_self hread))
          · rw [writeFields, List.getElem?_modify_ne _ _ hij]
            exact hdoc
    exact hfield' (fun w hw => hw) hfield

theorem vector_of_learnField (hvector : prop.type = .vector)
    (h : (learnField lib.toGoLib enable m field).get key = some prop) : m.get key = some prop := by
  rw [learnField, PropertyLemmas.checkProperty_eq] at h
  split at h
  · exact h
  · split at h
    · rcases PropertyLemmas.get_learn lib.toGoLib enable m field.1 (sample field.2) key with
        hsame | ⟨-, prop', hnew, htype⟩ | ⟨-, hnew⟩
      · exact hsame ▸ h
      · cases hnew.symm.trans h
        rw [hvector] at htype
        exact absurd htype (by decide)
      · cases hnew.symm.trans h
        cases hvector
    · exact h

theorem vector_of_deleted (h : key ∈ deletedKeys (visits lib enable fields m)) :
    ∃ prop, m.get key = some prop ∧ prop.type = .vector := by
  induction fields generalizing m with
  | nil => cases h
  | cons field fields ih =>
    obtain ⟨v, hv, rfl⟩ := mem_map.1 h
    obtain ⟨hmem, hdeletes⟩ := mem_filter.1 hv
    rw [visits] at hmem
    have hstep : ∃ prop, (learnField lib.toGoLib enable m (field.1, field.2.value)).get v.key =
        some prop ∧ prop.type = .vector := by
      rcases mem_cons.1 hmem with rfl | hmem
      · have hvector := (Bool.and_eq_true_iff.1 hdeletes).2
        dsimp only at hvector ⊢
        cases hprop : (learnField lib.toGoLib enable m (field.1, field.2.value)).get field.1 with
        | none =>
          rw [hprop] at hvector
          cases hvector
        | some prop =>
          rw [hprop] at hvector
          exact ⟨prop, rfl, of_decide_eq_true (Bool.and_eq_true_iff.1 hvector).2⟩
      · exact ih (mem_map_of_mem (mem_filter.2 ⟨hmem, hdeletes⟩))
    obtain ⟨prop, hprop, hvector⟩ := hstep
    exact ⟨prop, vector_of_learnField hvector hprop, hvector⟩

theorem mem_kept (hkey : key ∈ l.map Prod.fst) (removed : List String) :
    key ∈ (l.filter fun field => field.1 ∉ removed).map Prod.fst ↔ key ∉ removed := by
  simp only [mem_map, mem_filter, decide_eq_true_eq] at hkey ⊢
  constructor
  · rintro ⟨f, ⟨-, hnot⟩, rfl⟩
    exact hnot
  · obtain ⟨f, hf, rfl⟩ := hkey
    exact fun hnot => ⟨f, ⟨hf, hnot⟩, rfl⟩

theorem filter_removed {removed removed' : List String} (hkeys : l'.map Prod.fst = l.map Prod.fst)
    (h : (l'.filter fun field => field.1 ∉ removed') = l.filter fun field => field.1 ∉ removed) :
    (l.filter fun field => field.1 ∉ removed) = l.filter fun field => field.1 ∉ removed' := by
  refine filter_congr fun field hfield => ?_
  have hkey : field.1 ∈ l.map Prod.fst := mem_map_of_mem hfield
  have hleft := mem_kept (hkeys ▸ hkey) removed'
  rw [h, mem_kept hkey removed] at hleft
  rw [decide_eq_decide]
  exact hleft

theorem source_eq {order : Shuffle (String × Shared N)} {stored : Option String} {now : Int}
    {op : Operation N} {source : Object N}
    (h : (checkDocumentSource lib enable order stored m doc now).2 = .ok (op, source)) :
    let vs := visits lib enable (order.order (share doc)) m
    source = ((writeAll doc (vs.filterMap (Visit.write lib))).filter fun field =>
        field.1 ∉ removedKeys doc vs) ∧
      ∀ v ∈ vs, isList v.ref.value →
        ∃ converted, checkValue lib v.prop v.key v.ref.value = .ok converted := by
  rw [checkDocumentSource] at h
  dsimp only at h
  cases hchecked : (checkShared lib enable (order.order (share doc)) m false ⟨doc, []⟩).2 with
  | error e =>
    rw [hchecked] at h
    cases h
  | ok r =>
    obtain ⟨hdoc, hdeleted, hkeys, hall⟩ :=
      checkShared_doc (fresh_share (order.perm (share doc))) hchecked
    rw [hchecked] at h
    have htime : (lookup Prod.fst r.1 timeFieldName).isSome = true ↔
        timeFieldName ∈ (flatten doc).map Prod.fst := by
      rw [isSome_lookup, hkeys, ((order.perm (share doc)).map _).mem_iff, ← flatten_share, unshare,
        map_map]
      rfl
    dsimp only at h ⊢
    split at h
    · cases h
    · obtain ⟨t, -, hop⟩ := map_eq_ok h
      obtain ⟨-, rfl⟩ := Prod.mk.inj hop
      refine ⟨?_, hall⟩
      rw [removedKeys, Submitted.source]
      by_cases hin : timeFieldName ∈ (flatten doc).map Prod.fst
      · rw [if_pos (htime.2 hin), if_pos hin, hdoc, hdeleted, nil_append]
      · rw [if_neg (mt htime.1 hin), if_neg hin, hdoc, hdeleted, nil_append, append_nil]

theorem addr_of_write {v : Visit N} {w : Address × Json N} (h : v.write lib = some w) :
    isList v.ref.value = true ∧ checkValue lib v.prop v.key v.ref.value = .ok w.2 ∧
      w.1 = v.ref.addr := by
  rw [Visit.write] at h
  split at h
  · next hlist =>
    split at h
    · next hcheck =>
      cases h
      exact ⟨hlist, hcheck, rfl⟩
    · cases h
  · cases h

section Writes

variable {fields : SharedFields N} {m : Mappings}

theorem mem_share_of_visit (hfields : fields.Perm (share doc)) {v : Visit N}
    (hv : v ∈ visits lib enable fields m) : (v.key, v.ref) ∈ share doc := by
  rw [← hfields.mem_iff, ← visits_entries lib enable fields m]
  exact mem_map_of_mem hv

theorem writes_apart (lib : DocLib N) (enable : Bool) (m : Mappings)
    (hfields : fields.Perm (share doc)) :
    ((visits lib enable fields m).filterMap (Visit.write lib)).Pairwise
      fun w w' => Apart w.1 w'.1 := by
  have hvisits := (fresh_share hfields).apart
  rw [← visits_entries lib enable fields m, pairwise_map] at hvisits
  refine hvisits.filterMap _ fun v v' hapart w hw w' hw' => ?_
  rw [(addr_of_write hw).2.2, (addr_of_write hw').2.2]
  exact hapart

theorem writes_read (lib : DocLib N) (enable : Bool) (m : Mappings)
    (hfields : fields.Perm (share doc)) :
    ∀ w ∈ (visits lib enable fields m).filterMap (Visit.write lib),
      w.1 ≠ [] ∧ (readAt w.1 (.map doc)).isSome := by
  intro w hw
  obtain ⟨v, hv, hvw⟩ := mem_filterMap.1 hw
  obtain ⟨hne, hread⟩ := (fresh_share hfields).read (v.key, v.ref)
    (hfields.mem_iff.2 (mem_share_of_visit hfields hv))
  rw [(addr_of_write hvw).2.2]
  exact ⟨hne, hread ▸ rfl⟩

theorem writes_keep_iff (hfields : fields.Perm (share doc)) (kept : String → Bool)
    (hall : ∀ v ∈ visits lib enable fields m, isList v.ref.value →
      ∃ converted, checkValue lib v.prop v.key v.ref.value = .ok converted) :
    (∀ w ∈ (visits lib enable fields m).filterMap (Visit.write lib), ∀ i a field, w.1 = i :: a →
        doc[i]? = some field → kept field.1 → readAt w.1 (.map doc) = some w.2) ↔
      ∀ v ∈ visits lib enable fields m, ∀ key, v.ref.topKey doc = some key → kept key →
        v.Keeps lib := by
  constructor
  · intro h v hv key htop hkept hlist
    obtain ⟨converted, hconverted⟩ := hall v hv hlist
    have hmem := mem_share_of_visit hfields hv
    obtain ⟨i, field, a, hfield, haddr, -⟩ := share_entry hmem
    have hwrite : v.write lib = some (v.ref.addr, converted) := by
      rw [Visit.write, if_pos hlist, hconverted]
    rw [Shared.topKey, haddr, headD_cons, hfield] at htop
    cases htop
    have hread := h _ (mem_filterMap.2 ⟨v, hv, hwrite⟩) i a field haddr hfield hkept
    dsimp only at hread
    rw [readAt_of_flatAt (readAt_share hmem)] at hread
    cases hread
    exact hconverted
  · intro h w hw i a field haddr hfield hkept
    obtain ⟨v, hv, hvw⟩ := mem_filterMap.1 hw
    obtain ⟨hlist, hconverted, hw⟩ := addr_of_write hvw
    have htop : v.ref.topKey doc = some field.1 := by
      rw [Shared.topKey, ← hw, haddr, headD_cons, hfield]
      rfl
    have hsame := Except.ok.inj (hconverted.symm.trans (h v hv field.1 htop hkept hlist))
    rw [hw, hsame]
    exact readAt_of_flatAt (readAt_share (mem_share_of_visit hfields hv))

end Writes

end SourceLemmas

open SourceLemmas

/-- The source of each accepted document is the document without vectors and `@timestamp`, if and
only if no array that is left in it has values that are converted to others. -/
theorem source_same_iff (lib : DocLib N) (enableTextKeywordMapping : Bool)
    (order : Shuffle (String × Shared N)) (stored : Option String) (m : Mappings)
    (doc : Object N) (now : Int) :
    let checked := checkDocumentSource lib enableTextKeywordMapping order stored m doc now
    let vs := visits lib enableTextKeywordMapping (order.order (share doc)) m
    (∀ op source, checked.2 = .ok (op, source) → SourceKept m doc source) ↔
      ((∃ r, checked.2 = .ok r) → ∀ v ∈ vs, ∀ key, v.ref.topKey doc = some key →
        key ∉ removedKeys doc vs → v.Keeps lib) := by
  intro checked vs
  have hfields := order.perm (share doc)
  have hiff : ∀ op source, checked.2 = .ok (op, source) → (SourceKept m doc source ↔
      ∀ v ∈ vs, ∀ key, v.ref.topKey doc = some key → key ∉ removedKeys doc vs → v.Keeps lib) := by
    intro op source h
    obtain ⟨rfl, hall⟩ := source_eq h
    have hkeeps := writes_keep_iff hfields (fun key => key ∉ removedKeys doc vs) hall
    simp only [decide_eq_true_eq] at hkeeps
    have hfilter := writeAll_filter_iff (writes_apart lib enableTextKeywordMapping m hfields)
      (writes_read lib enableTextKeywordMapping m hfields) fun key => key ∉ removedKeys doc vs
    simp only [decide_eq_true_eq] at hfilter
    rw [← hkeeps, ← hfilter]
    constructor
    · rintro ⟨removed, -, heq⟩
      rw [heq]
      exact filter_removed (keys_writeAll _ doc) heq
    · refine fun heq => ⟨removedKeys doc vs, fun key hkey => ?_, heq⟩
      rcases mem_append.1 hkey with hkey | hkey
      · exact .inr (vector_of_deleted hkey)
      · split at hkey
        · exact .inl (mem_singleton.1 hkey)
        · cases hkey
  constructor
  · rintro h ⟨⟨op, source⟩, hok⟩
    exact (hiff op source hok).1 (h op source hok)
  · exact fun h op source hok => (hiff op source hok).2 (h ⟨_, hok⟩)

/-- The field `tags` is a keyword. The number in it becomes a text in the source. -/
theorem source_converted :
    let m : Mappings := [("tags", newProperty .keyword)]
    let doc : List (String × Json Int) := [("tags", .list [.num 1])]
    ∃ op, (checkDocumentSource wholeNumbers false ⟨id, fun _ => .refl _⟩ none m doc 0).2 =
        .ok (op, [("tags", .list [.str "1"])]) ∧
      ¬ SourceKept m doc [("tags", .list [.str "1"])] := by
  refine ⟨_, rfl, ?_⟩
  rintro ⟨removed, -, heq⟩
  rw [filter_cons] at heq
  split at heq
  · cases heq
  · cases heq

end Mapping

end SeaSearch
