import SeaSearch.Uquery.Range

/-!
# The mappings of an index

The mappings of an index say for each field how it is indexed. A field that has no property gets one
from the first value it is given: `checkProperty`.
-/

namespace SeaSearch

namespace Mapping

open Versions

variable {N : Type}

inductive FieldType
  | text
  | keyword
  | numeric
  | bool
  | date
  | time
  | vector
  | other (name : String)
deriving DecidableEq

/-- `meta.Property`. Of the sub-fields only the names are used: their properties are those of the
mappings. -/
structure Property where
  type : FieldType := .other ""
  analyzer : String := ""
  searchAnalyzer : String := ""
  format : String := ""
  timeZone : String := ""
  index : Bool := false
  store : Bool := false
  sortable : Bool := false
  aggregatable : Bool := false
  highlightable : Bool := false
  fields : List String := []
  dims : Int := 0
deriving DecidableEq

def newProperty (type : FieldType) : Property where
  type
  index := true
  sortable := decide (type ≠ .text)
  aggregatable := decide (type ≠ .text)

def Property.addField (prop : Property) (name : String) : Property :=
  { prop with fields := prop.fields.filter (· ≠ name) ++ [name] }

abbrev Mappings := List (String × Property)

namespace Mappings

/-- `GetProperty`. -/
def get (m : Mappings) (key : String) : Option Property := (lookup Prod.fst m key).map Prod.snd

/-- `SetProperty`. -/
def set (m : Mappings) (key : String) (prop : Property) : Mappings := put Prod.fst m (key, prop)

/-- `GetProperty` where the second result is not used. -/
def prop (m : Mappings) (key : String) : Property := (m.get key).getD {}

/-- The mappings have the same properties, in any order. -/
def Same (m m' : Mappings) : Prop := ∀ key, m.get key = m'.get key

@[simp]
theorem get_set (m : Mappings) (key key' : String) (prop : Property) :
    (m.set key prop).get key' = if key = key' then some prop else m.get key' := by
  rw [get, set, lookup_put, get]
  split <;> rfl

end Mappings

def subKey (key name : String) : String := key ++ "." ++ name

def byteIndex (c : Char) : List Char → Option Nat
  | [] => none
  | d :: s => if d = c then some 0 else (byteIndex c s).map (d.utf8Size + ·)

def detectTimeLayout (value : String) : String :=
  let length := value.utf8ByteSize
  let index (c : Char) := byteIndex c value.toList
  if length = 19 ∧ index ' ' = some 10 then "2006-01-02 15:04:05"
  else if length = 19 ∧ index 'T' = some 10 then "2006-01-02T15:04:05"
  else if length = 25 ∧ index 'T' = some 10 then rfc3339
  else if length = 29 ∧ index 'T' = some 10 ∧ index '.' = some 19 then
    "2006-01-02T15:04:05.999Z07:00"
  else ""

/-- `isDateProperty`. `time.Parse` has an error if `ParseInLocation` for UTC has one. -/
def isDateProperty (lib : GoLib N) (value : String) : Option String :=
  let layout := detectTimeLayout value
  if layout = "" then none
  else (lib.parseInLocation layout value (some lib.utc)).map fun _ => layout

def sample : Json N → Json N
  | .list [] => .null
  | .list (v :: _) => v
  | v => v

section Learn

variable (lib : GoLib N) (enableTextKeywordMapping : Bool)

/-- The switch of `checkProperty` over the type of a value. A value of another type changes
nothing. -/
def learn (m : Mappings) (key : String) : Json N → Mappings
  | .str s =>
    match isDateProperty lib s with
    | some layout => m.set key { newProperty .date with format := layout }
    | none =>
      if enableTextKeywordMapping then
        (m.set (subKey key "keyword") (newProperty .keyword)).set key
          ((newProperty .text).addField "keyword")
      else m.set key (newProperty .text)
  | .num _ => m.set key (newProperty .numeric)
  | .bool _ => m.set key (newProperty .bool)
  | _ => m

/-- `checkProperty`: the mappings, and whether they are to be stored. -/
def checkProperty (m : Mappings) (key : String) (value : Json N) : Mappings × Bool :=
  match m.get key with
  | some prop =>
    if enableTextKeywordMapping ∧ prop.type = .text then
      if (m.get (subKey key "keyword")).isSome then (m, false)
      else (learn lib enableTextKeywordMapping m key (sample value), true)
    else (m, false)
  | none => (learn lib enableTextKeywordMapping m key (sample value), true)

end Learn

def Property.clearAnalyzers (prop : Property) : Property :=
  if prop.type ≠ .text then { prop with analyzer := "", searchAnalyzer := "" } else prop

/-- `SetMappings` of the mappings that the index already has. -/
def setMappings (m : Mappings) : Mappings :=
  let cleared : Mappings := m.map fun e => (e.1, e.2.clearAnalyzers)
  let m := cleared.set "_id" (newProperty .keyword)
  m.set timeFieldName
    { (m.get timeFieldName).getD (newProperty .date) with
      index := true, sortable := true, aggregatable := true }

def asks (enableTextKeywordMapping : Bool) (m : Mappings) (key : String) : Bool :=
  match m.get key with
  | some prop => enableTextKeywordMapping && decide (prop.type = .text) &&
      (m.get (subKey key "keyword")).isNone
  | none => true

def tells : Json N → Bool
  | .str _ | .num _ | .bool _ => true
  | _ => false

namespace PropertyLemmas

variable {lib : GoLib N} {enable : Bool} {m m' : Mappings} {key k : String} {value : Json N}

theorem checkProperty_eq (lib : GoLib N) (enable : Bool) (m : Mappings) (key : String)
    (value : Json N) :
    checkProperty lib enable m key value =
      if asks enable m key then (learn lib enable m key (sample value), true) else (m, false) := by
  rw [checkProperty, asks]
  cases m.get key with
  | none => rfl
  | some prop =>
    dsimp only
    by_cases htext : enable = true ∧ prop.type = .text
    · rw [if_pos htext]
      cases m.get (subKey key "keyword") with
      | none => simp [htext]
      | some _ => simp
    · rw [if_neg htext, if_neg]
      simp only [Bool.and_eq_true, decide_eq_true_eq]
      exact fun hasks => htext hasks.1

theorem subKey_ne (key name : String) : subKey key name ≠ key := by
  intro h
  have hlength := congrArg String.length h
  rw [subKey, String.length_append, String.length_append] at hlength
  have hdot : ".".length = 1 := rfl
  omega

def learnable : List FieldType := [.text, .numeric, .bool, .date]

theorem get_learn (lib : GoLib N) (enable : Bool) (m : Mappings) (key : String)
    (value : Json N) (k : String) :
    (learn lib enable m key value).get k = m.get k ∨
      (k = key ∧ ∃ prop, (learn lib enable m key value).get k = some prop ∧ prop.type ∈ learnable) ∨
      k = subKey key "keyword" ∧
        (learn lib enable m key value).get k = some (newProperty .keyword) := by
  have hset : ∀ (m' : Mappings) {prop : Property}, prop.type ∈ learnable →
      (m'.set key prop).get k = m'.get k ∨
        k = key ∧ ∃ prop', (m'.set key prop).get k = some prop' ∧ prop'.type ∈ learnable := by
    intro m' prop hprop
    rw [Mappings.get_set]
    by_cases hk : key = k
    · rw [if_pos hk]
      exact .inr ⟨hk.symm, prop, rfl, hprop⟩
    · rw [if_neg hk]
      exact .inl rfl
  rw [learn.eq_def]
  cases value with
  | str s =>
    dsimp only
    split
    · have hdate : FieldType.date ∈ learnable := by decide
      exact (hset m hdate).imp_right .inl
    · split
      · have htext : ((newProperty .text).addField "keyword").type ∈ learnable := by decide
        rcases hset (m.set (subKey key "keyword") (newProperty .keyword)) htext with hsame | hnew
        · rw [hsame, Mappings.get_set]
          by_cases hk : subKey key "keyword" = k
          · rw [if_pos hk]
            exact .inr (.inr ⟨hk.symm, rfl⟩)
          · rw [if_neg hk]
            exact .inl rfl
        · exact .inr (.inl hnew)
      · exact (hset m (by decide)).imp_right .inl
  | num x | bool b => exact (hset m (by decide)).imp_right .inl
  | null | list items | map fields => exact .inl rfl

theorem learn_of_not_tells (htells : tells value = false) : learn lib enable m key value = m := by
  cases value with
  | str s | num x | bool b => cases htells
  | null | list items | map fields => rfl

theorem isSome_get_learn (h : (m.get k).isSome) :
    ((learn lib enable m key value).get k).isSome := by
  rcases get_learn lib enable m key value k with hsame | ⟨-, prop, hnew, -⟩ | ⟨-, hnew⟩
  · rwa [hsame]
  · rw [hnew]
    rfl
  · rw [hnew]
    rfl

theorem get_map (f : Property → Property) (m : Mappings) (k : String) :
    Mappings.get (m.map fun e => (e.1, f e.2)) k = (m.get k).map f := by
  rw [Mappings.get, lookup, List.find?_map, Option.map_map, Mappings.get, lookup, Option.map_map]
  rfl

theorem type_clearAnalyzers (prop : Property) : prop.clearAnalyzers.type = prop.type := by
  rw [Property.clearAnalyzers]
  split <;> rfl

theorem get_setMappings (m : Mappings) (k : String) :
    (setMappings m).get k = if timeFieldName = k then
        some { ((m.get k).map Property.clearAnalyzers).getD (newProperty .date) with
          index := true, sortable := true, aggregatable := true }
      else if "_id" = k then some (newProperty .keyword)
      else (m.get k).map Property.clearAnalyzers := by
  rw [setMappings]
  dsimp only
  rw [Mappings.get_set, Mappings.get_set, Mappings.get_set, get_map, get_map,
    if_neg (by decide : "_id" ≠ timeFieldName)]
  by_cases hk : timeFieldName = k
  · rw [if_pos hk, if_pos hk, hk]
  · rw [if_neg hk, if_neg hk]

def Touched (m m' : Mappings) : Prop :=
  ∃ k, (m.get k = none ∧ (m'.get k).isSome) ∨
    (∃ prop, m.get k = some prop ∧ prop.type = .text) ∧
      ∃ prop', m'.get k = some prop' ∧ prop'.type ≠ .text

theorem Touched.not_same (h : Touched m m') : ¬ Mappings.Same m' m := by
  intro hsame
  obtain ⟨k, ⟨hnone, hsome⟩ | ⟨⟨prop, hprop, htype⟩, prop', hprop', htype'⟩⟩ := h
  · rw [hsame k, hnone] at hsome
    cases hsome
  · rw [hsame k, hprop] at hprop'
    cases hprop'
    exact htype' htype

theorem get_learn_self (lib : GoLib N) (enable : Bool) (m : Mappings) (key : String)
    (htells : tells value = true) :
    ∃ prop, (learn lib enable m key value).get key = some prop ∧
      (enable = true → prop.type = .text →
        ((learn lib enable m key value).get (subKey key "keyword")).isSome) := by
  rw [learn.eq_def]
  cases value with
  | str s =>
    dsimp only
    split
    · exact ⟨_, by rw [Mappings.get_set, if_pos rfl],
      fun _ (htext : FieldType.date = .text) => nomatch htext⟩
    · split
      · refine ⟨_, by rw [Mappings.get_set, if_pos rfl], fun _ _ => ?_⟩
        rw [Mappings.get_set, if_neg (subKey_ne key _).symm, Mappings.get_set, if_pos rfl]
        rfl
      · next henable =>
        exact ⟨_, by rw [Mappings.get_set, if_pos rfl], fun h => absurd h henable⟩
  | num x =>
    exact ⟨_, by rw [Mappings.get_set, if_pos rfl],
      fun _ (htext : FieldType.numeric = .text) => nomatch htext⟩
  | bool b =>
    exact ⟨_, by rw [Mappings.get_set, if_pos rfl],
      fun _ (htext : FieldType.bool = .text) => nomatch htext⟩
  | null | list items | map fields => cases htells

theorem touched_learn (hasks : asks enable m key = true) (htells : tells value = true) :
    Touched m (learn lib enable m key value) := by
  obtain ⟨prop', hprop', hkeyword⟩ := get_learn_self lib enable m key htells
  cases hget : m.get key with
  | none => exact ⟨key, .inl ⟨hget, by rw [hprop']; rfl⟩⟩
  | some prop =>
    rw [asks, hget] at hasks
    simp only [Bool.and_eq_true, decide_eq_true_eq, Option.isNone_iff_eq_none] at hasks
    obtain ⟨⟨henable, htext⟩, hnone⟩ := hasks
    by_cases htext' : prop'.type = .text
    · exact ⟨subKey key "keyword", .inl ⟨hnone, hkeyword henable htext'⟩⟩
    · exact ⟨key, .inr ⟨⟨prop, hget, htext⟩, prop', hprop', htext'⟩⟩

theorem Touched.learn (h : Touched m m') (hasks : asks enable m' key = true) :
    Touched m (learn lib enable m' key value) := by
  obtain ⟨k, ⟨hnone, hsome⟩ | ⟨htext, prop', hprop', htype'⟩⟩ := h
  · exact ⟨k, .inl ⟨hnone, isSome_get_learn hsome⟩⟩
  · refine ⟨k, .inr ⟨htext, ?_⟩⟩
    rcases get_learn lib enable m' key value k with hsame | ⟨rfl, -⟩ | ⟨-, hnew⟩
    · exact ⟨prop', hsame.trans hprop', htype'⟩
    -- a field that is no text is not learned again
    · rw [asks, hprop'] at hasks
      simp [htype'] at hasks
    · exact ⟨_, hnew, by decide⟩

theorem Touched.setMappings (h : Touched m m') : Touched m (setMappings m') := by
  obtain ⟨k, ⟨hnone, hsome⟩ | ⟨htext, prop', hprop', htype'⟩⟩ := h
  · refine ⟨k, .inl ⟨hnone, ?_⟩⟩
    rw [get_setMappings]
    split
    · rfl
    · split
      · rfl
      · rwa [Option.isSome_map]
  · refine ⟨k, .inr ⟨htext, ?_⟩⟩
    rw [get_setMappings, hprop', Option.map_some]
    split
    · exact ⟨_, rfl, (type_clearAnalyzers prop').symm ▸ htype'⟩
    · split
      · exact ⟨_, rfl, by decide⟩
      · exact ⟨_, rfl, (type_clearAnalyzers prop').symm ▸ htype'⟩

end PropertyLemmas

end Mapping

end SeaSearch
