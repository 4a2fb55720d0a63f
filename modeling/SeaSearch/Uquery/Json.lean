import Mathlib

/-!
# JSON values

A query and a document are JSON values. The fields of a map are a list in the order in which a loop
goes through it, and two loops over the same map may take different orders.
-/

namespace SeaSearch

open List

/-- A JSON value; `N` are the numbers. -/
inductive Json (N : Type) where
  | null
  | bool (b : Bool)
  | num (x : N)
  | str (s : String)
  | list (items : List (Json N))
  | map (fields : List (String × Json N))

/-- A `map[string]interface{}`. -/
abbrev Object (N : Type) := List (String × Json N)

def timeFieldName : String := "@timestamp"

variable {N : Type}

mutual
def Json.same : Json N → Json N → Prop
  | .null, v => v = .null
  | .bool b, v => v = .bool b
  | .num x, v => v = .num x
  | .str s, v => v = .str s
  | .list items, v => ∃ items', v = .list items' ∧ sameItems items items'
  | .map fields, v => ∃ fields', v = .map fields' ∧ sameFields fields fields'
termination_by structural v => v

def sameItems : List (Json N) → List (Json N) → Prop
  | [], items' => items' = []
  | v :: items, items' => ∃ v' rest, items' = v' :: rest ∧ v.same v' ∧ sameItems items rest
termination_by structural items => items

def sameFields : Object N → Object N → Prop
  | [], fields' => fields' = []
  | f :: fields, fields' =>
    ∃ f' rest, fields'.Perm (f' :: rest) ∧ sameField f f' ∧ sameFields fields rest
termination_by structural fields => fields

def sameField : String × Json N → String × Json N → Prop
  | (k, v), f' => f'.1 = k ∧ v.same f'.2
termination_by structural f => f
end

mutual
theorem Json.same_refl : ∀ v : Json N, v.same v
  | .null => rfl
  | .bool _ => rfl
  | .num _ => rfl
  | .str _ => rfl
  | .list items => ⟨items, rfl, sameItems_refl items⟩
  | .map fields => ⟨fields, rfl, sameFields_refl fields⟩

theorem sameItems_refl : ∀ items : List (Json N), sameItems items items
  | [] => rfl
  | v :: items => ⟨v, items, rfl, v.same_refl, sameItems_refl items⟩

theorem sameFields_refl : ∀ fields : Object N, sameFields fields fields
  | [] => rfl
  | f :: fields => ⟨f, fields, .refl _, sameField_refl f, sameFields_refl fields⟩

theorem sameField_refl : ∀ f : String × Json N, sameField f f
  | (_, v) => ⟨rfl, v.same_refl⟩
end

mutual
def Json.mapNum {M : Type} (f : N → M) : Json N → Json M
  | .null => .null
  | .bool b => .bool b
  | .num x => .num (f x)
  | .str s => .str s
  | .list items => .list (mapNumItems f items)
  | .map fields => .map (mapNumFields f fields)

def mapNumItems {M : Type} (f : N → M) : List (Json N) → List (Json M)
  | [] => []
  | v :: items => v.mapNum f :: mapNumItems f items

def mapNumFields {M : Type} (f : N → M) : Object N → List (String × Json M)
  | [] => []
  | field :: fields => mapNumField f field :: mapNumFields f fields

def mapNumField {M : Type} (f : N → M) : String × Json N → String × Json M
  | (k, v) => (k, v.mapNum f)
end

mutual
variable {M L : Type} {fields fields' : Object N}

theorem Json.mapNum_mapNum (f : N → M) (g : M → L) :
    ∀ v : Json N, (v.mapNum f).mapNum g = v.mapNum (g ∘ f)
  | .null => rfl
  | .bool _ => rfl
  | .num _ => rfl
  | .str _ => rfl
  | .list items => congrArg Json.list (mapNumItems_mapNumItems f g items)
  | .map fields => congrArg Json.map (mapNumFields_mapNumFields f g fields)

theorem mapNumItems_mapNumItems (f : N → M) (g : M → L) :
    ∀ items : List (Json N), mapNumItems g (mapNumItems f items) = mapNumItems (g ∘ f) items
  | [] => rfl
  | v :: items => congrArg₂ List.cons (v.mapNum_mapNum f g) (mapNumItems_mapNumItems f g items)

theorem mapNumFields_mapNumFields (f : N → M) (g : M → L) :
    ∀ fields : Object N,
      mapNumFields g (mapNumFields f fields) = mapNumFields (g ∘ f) fields
  | [] => rfl
  | field :: fields =>
    congrArg₂ List.cons (mapNumField_mapNumField f g field) (mapNumFields_mapNumFields f g fields)

theorem mapNumField_mapNumField (f : N → M) (g : M → L) :
    ∀ field : String × Json N, mapNumField g (mapNumField f field) = mapNumField (g ∘ f) field
  | (k, v) => congrArg (Prod.mk k) (v.mapNum_mapNum f g)
end

theorem sameFields_nil : sameFields [] fields ↔ fields = [] := by
  rw [sameFields]

theorem sameField_iff : sameField f f' ↔ f'.1 = f.1 ∧ f.2.same f'.2 := by
  obtain ⟨k, v⟩ := f
  rw [sameField]

theorem exists_of_sameFields (h : sameFields fields fields') (hf : f ∈ fields) :
    ∃ f' ∈ fields', sameField f f' := by
  induction fields generalizing fields' with
  | nil => cases hf
  | cons g fields ih =>
    rw [sameFields] at h
    obtain ⟨g', rest, hperm, hg, hrest⟩ := h
    rcases mem_cons.1 hf with rfl | hf
    · exact ⟨g', hperm.mem_iff.2 mem_cons_self, hg⟩
    · obtain ⟨f', hf', hsame⟩ := ih hrest hf
      exact ⟨f', hperm.mem_iff.2 (mem_cons_of_mem _ hf'), hsame⟩

theorem exists_of_sameFields' (h : sameFields fields fields') (hf' : f' ∈ fields') :
    ∃ f ∈ fields, sameField f f' := by
  induction fields generalizing fields' with
  | nil =>
    rw [sameFields_nil] at h
    rw [h] at hf'
    cases hf'
  | cons g fields ih =>
    rw [sameFields] at h
    obtain ⟨g', rest, hperm, hg, hrest⟩ := h
    rcases mem_cons.1 (hperm.mem_iff.1 hf') with rfl | hf'
    · exact ⟨g, mem_cons_self, hg⟩
    · obtain ⟨f, hf, hsame⟩ := ih hrest hf'
      exact ⟨f, mem_cons_of_mem _ hf, hsame⟩

theorem map_perm_of_sameFields {β : Type} {g : String × Json N → β}
    (hg : ∀ f f', sameField f f' → g f' = g f) (h : sameFields fields fields') :
    (fields'.map g).Perm (fields.map g) := by
  induction fields generalizing fields' with
  | nil =>
    rw [sameFields_nil] at h
    rw [h]
  | cons f fields ih =>
    rw [sameFields] at h
    obtain ⟨f', rest, hperm, hf, hrest⟩ := h
    refine (hperm.map g).trans ?_
    rw [map_cons, map_cons, hg f f' hf]
    exact (ih hrest).cons _

theorem exists_of_sameItems (h : sameItems items items') (hv : v ∈ items) :
    ∃ v' ∈ items', v.same v' := by
  induction items generalizing items' with
  | nil => cases hv
  | cons w items ih =>
    rw [sameItems] at h
    obtain ⟨w', rest, rfl, hw, hrest⟩ := h
    rcases mem_cons.1 hv with rfl | hv
    · exact ⟨w', mem_cons_self, hw⟩
    · obtain ⟨v', hv', hsame⟩ := ih hrest hv
      exact ⟨v', mem_cons_of_mem _ hv', hsame⟩

theorem length_of_sameItems (h : sameItems items items') : items'.length = items.length := by
  induction items generalizing items' with
  | nil =>
    rw [sameItems] at h
    rw [h]
  | cons w items ih =>
    rw [sameItems] at h
    obtain ⟨w', rest, rfl, hw, hrest⟩ := h
    rw [length_cons, length_cons, ih hrest]

end SeaSearch
