import SeaSearch.Lib.Blocks
import SeaSearch.Lib.Versions

/-!
# The cache of an HNSW segment

The cache keeps its vectors one after another in a single slice, with the document ids in the same
order and a map from a document id to its position. To delete a document moves the last one to its
place.
-/

namespace SeaSearch

open List Blocks Versions
open Function (update update_apply update_of_ne update_self)
open Option (map_none map_some)

variable {α : Type} {d : Nat}

/-- The field `cache`. -/
structure CacheSlices (α : Type) where
  docIDs : List Int := []
  docVectors : List α := []
  docIDIndex : Int → Option Nat := fun _ => none

namespace CacheSlices

def updateCache (d : Nat) (c : CacheSlices α) (docID : Int) (vector : List α) : CacheSlices α :=
  match c.docIDIndex docID with
  | some i => { c with docVectors := overwrite d c.docVectors i vector }
  | none =>
    { docIDs := c.docIDs ++ [docID]
      docVectors := c.docVectors ++ vector
      docIDIndex := update c.docIDIndex docID (some c.docIDs.length) }

/-- The last document of the cache comes to position `i`. -/
def moveLast (d : Nat) (c : CacheSlices α) (i : Nat) : CacheSlices α :=
  { docIDs := c.docIDs.set i (c.docIDs.getD (c.docIDs.length - 1) 0)
    docVectors := overwrite d c.docVectors i (block d c.docVectors (c.docIDs.length - 1))
    docIDIndex :=
      update c.docIDIndex (c.docIDs.getD (c.docIDs.length - 1) 0) (some i) }

def deleteCache (d : Nat) (c : CacheSlices α) (docID : Int) : CacheSlices α :=
  match c.docIDIndex docID with
  | none => c
  | some i =>
    let j := c.docIDs.length - 1
    let c' := if i ≠ j then c.moveLast d i else c
    { docIDs := c'.docIDs.take j
      docVectors := c'.docVectors.take (j * d)
      docIDIndex := update c'.docIDIndex docID none }

structure WF (d : Nat) (c : CacheSlices α) : Prop where
  length : c.docVectors.length = c.docIDs.length * d
  index : ∀ id i, c.docIDIndex id = some i ↔ c.docIDs[i]? = some id

def get (d : Nat) (c : CacheSlices α) (docID : Int) : Option (List α) :=
  (c.docIDIndex docID).map (block d c.docVectors)

namespace WF

variable {c : CacheSlices α} {docID : Int} {vector : List α} {i : Nat}

variable (h : c.WF d)

include h

theorem lt (hi : c.docIDIndex docID = some i) : i < c.docIDs.length :=
  (List.getElem?_eq_some_iff.1 ((h.index docID i).1 hi)).1

theorem inj {id : Int} (hi : c.docIDIndex docID = some i)
    (hi' : c.docIDIndex id = some i) : docID = id :=
  Option.some.inj (((h.index docID i).1 hi).symm.trans ((h.index id i).1 hi'))

theorem index_last (hpos : 0 < c.docIDs.length) :
    c.docIDIndex (c.docIDs.getD (c.docIDs.length - 1) 0) = some (c.docIDs.length - 1) := by
  have hlt : c.docIDs.length - 1 < c.docIDs.length := Nat.sub_one_lt_of_lt hpos
  rw [h.index, getD_eq_getElem?_getD, List.getElem?_eq_getElem hlt, Option.getD_some]

theorem updateCache (hv : vector.length = d) : (c.updateCache d docID vector).WF d := by
  rw [CacheSlices.updateCache]
  cases hidx : c.docIDIndex docID with
  | some i => exact ⟨length_overwrite h.length (h.lt hidx) hv, h.index⟩
  | none =>
    refine ⟨?_, fun id i => ?_⟩
    · simp only [length_append, h.length, hv, length_singleton, Nat.succ_mul]
    · have hnew : ∀ k, c.docIDs[k]? ≠ some docID := fun k hk => by
        rw [(h.index docID k).2 hk] at hidx
        cases hidx
      have hend : c.docIDs.length ≤ i → c.docIDs[i]? = none := List.getElem?_eq_none
      have hidx := h.index id i
      have hlt : c.docIDIndex id = some i → i < c.docIDs.length := h.lt
      simp only [update_apply, List.getElem?_append, List.getElem?_singleton]
      grind

theorem get_updateCache (hv : vector.length = d) (id : Int) :
    (c.updateCache d docID vector).get d id = if docID = id then some vector else c.get d id := by
  rw [CacheSlices.updateCache]
  cases hidx : c.docIDIndex docID with
  | some i =>
    simp only [get]
    split
    case isTrue heq =>
      rw [← heq, hidx, map_some, block_overwrite_self h.length (h.lt hidx) hv]
    case isFalse hne =>
      cases hid : c.docIDIndex id with
      | none => rfl
      | some k =>
        have hk : k ≠ i := fun hk => hne (h.inj hidx (hk ▸ hid))
        rw [map_some, map_some, block_overwrite_ne h.length (h.lt hidx) hv hk]
  | none =>
    simp only [get]
    split
    case isTrue heq =>
      rw [← heq, update_self, map_some, block_append_self h.length hv]
    case isFalse hne =>
      rw [update_of_ne (Ne.symm hne)]
      cases hid : c.docIDIndex id with
      | none => rfl
      | some k => rw [map_some, map_some, block_append_left h.length (h.lt hid)]

theorem moveLast_last (hpos : 0 < c.docIDs.length) : c.moveLast d (c.docIDs.length - 1) = c := by
  have hidx := h.index_last hpos
  obtain ⟨hlt, hlast⟩ := List.getElem?_eq_some_iff.1 ((h.index _ _).1 hidx)
  rw [moveLast, overwrite_block, ← hidx, Function.update_eq_self, ← hlast, set_getElem_self]

theorem deleteCache_eq (hidx : c.docIDIndex docID = some i) : c.deleteCache d docID =
      { docIDs := (c.moveLast d i).docIDs.take (c.docIDs.length - 1)
        docVectors := (c.moveLast d i).docVectors.take ((c.docIDs.length - 1) * d)
        docIDIndex := update (c.moveLast d i).docIDIndex docID none } := by
  have hpos : 0 < c.docIDs.length := Nat.zero_lt_of_lt (h.lt hidx)
  rw [CacheSlices.deleteCache, hidx]
  by_cases hi : i = c.docIDs.length - 1
  · simp only [hi, ne_eq, not_true_eq_false, if_false, h.moveLast_last hpos]
  · simp only [hi, ne_eq, not_false_eq_true, if_true]

theorem deleteCache : (c.deleteCache d docID).WF d := by
  cases hidx : c.docIDIndex docID with
  | none =>
    rw [CacheSlices.deleteCache, hidx]
    exact h
  | some i =>
    have hlt := h.lt hidx
    have hlast := h.index_last (Nat.zero_lt_of_lt hlt)
    rw [h.deleteCache_eq hidx]
    generalize hl : c.docIDs.getD (c.docIDs.length - 1) 0 = last at hlast
    refine ⟨?_, fun id k => ?_⟩
    · have hblock : (block d c.docVectors (c.docIDs.length - 1)).length = d :=
        length_block h.length (by omega)
      have hover := length_overwrite h.length hlt hblock
      have hle := mul_add_le_mul (d := d) (Nat.sub_one_lt_of_lt hlt)
      simp only [moveLast, length_take, length_set, hover]
      rw [min_eq_left (by omega), min_eq_left (by omega)]
    · have hid := h.index id k
      have hdoc := (h.index docID i).1 hidx
      have hdoc' := h.index docID k
      have hlast' := h.index last k
      have hk : c.docIDIndex id = some k → k < c.docIDs.length := h.lt
      simp only [moveLast, hl, update_apply, List.getElem?_take, List.getElem?_set]
      grind

theorem get_deleteCache (id : Int) :
    (c.deleteCache d docID).get d id = if docID = id then none else c.get d id := by
  cases hidx : c.docIDIndex docID with
  | none =>
    rw [CacheSlices.deleteCache, hidx]
    by_cases heq : docID = id
    · rw [if_pos heq, ← heq, get, hidx, map_none]
    · rw [if_neg heq]
  | some i =>
    have hlt := h.lt hidx
    have hblock : (block d c.docVectors (c.docIDs.length - 1)).length = d :=
      length_block h.length (by omega)
    have hlast := h.index_last (Nat.zero_lt_of_lt hlt)
    rw [h.deleteCache_eq hidx, get]
    by_cases heq : docID = id
    · simp only [heq, if_true, update_self, map_none]
    · simp only [if_neg heq, update_of_ne (Ne.symm heq), moveLast]
      generalize hl : c.docIDs.getD (c.docIDs.length - 1) 0 = last at hlast
      by_cases hid : id = last
      · -- the document that was moved
        have hi : i ≠ c.docIDs.length - 1 := by
          rintro rfl
          exact heq (hid ▸ h.inj hidx hlast)
        rw [hid, update_self, map_some, get, hlast, map_some,
          block_take (by omega), block_overwrite_self h.length hlt hblock]
      · rw [update_of_ne hid, get]
        cases hk : c.docIDIndex id with
        | none => rfl
        | some k =>
          have hki : k ≠ i := fun hki => heq (h.inj hidx (hki ▸ hk))
          have hkj : k ≠ c.docIDs.length - 1 := fun hkj => hid (h.inj hk (hkj ▸ hlast))
          have hklt := h.lt hk
          rw [map_some, map_some, block_take (by omega), block_overwrite_ne h.length hlt hblock hki]

end WF

end CacheSlices

/-- The cache of a segment for vectors of `d` dimensions. -/
structure VecCache (α : Type) (d : Nat) extends CacheSlices α where
  wf : toCacheSlices.WF d

namespace VecCache

def empty : VecCache α d where
  wf := ⟨by simp, fun id i => by simp⟩

def updateCache (c : VecCache α d) (docID : Int) (vector : List.Vector α d) : VecCache α d :=
  ⟨c.toCacheSlices.updateCache d docID vector.toList, c.wf.updateCache vector.toList_length⟩

def deleteCache (c : VecCache α d) (docID : Int) : VecCache α d :=
  ⟨c.toCacheSlices.deleteCache d docID, c.wf.deleteCache⟩

def get (c : VecCache α d) (docID : Int) : Option (List α) := c.toCacheSlices.get d docID

@[simp] theorem get_empty (docID : Int) : (empty : VecCache α d).get docID = none := rfl

variable (c : VecCache α d)

theorem get_updateCache (docID id : Int) (vector : List.Vector α d) :
    (c.updateCache docID vector).get id = if docID = id then some vector.toList else c.get id :=
  c.wf.get_updateCache vector.toList_length id

theorem get_deleteCache (docID id : Int) :
    (c.deleteCache docID).get id = if docID = id then none else c.get id :=
  c.wf.get_deleteCache id

/-- A call of `updateCache` or of `deleteCache`. -/
inductive Call (α : Type) (d : Nat)
  | update (docID : Int) (vector : List.Vector α d)
  | delete (docID : Int)

def call (c : VecCache α d) : Call α d → VecCache α d
  | .update docID vector => c.updateCache docID vector
  | .delete docID => c.deleteCache docID

def Call.docID : Call α d → Int
  | .update docID _ | .delete docID => docID

/-- The vector that the document has after the call. -/
def Call.vector : Call α d → Option (List α)
  | .update _ vector => some vector.toList
  | .delete _ => none

theorem get_call (a : Call α d) (id : Int) :
    (c.call a).get id = if a.docID = id then a.vector else c.get id := by
  cases a with
  | update docID vector => exact c.get_updateCache docID id vector
  | delete docID => exact c.get_deleteCache docID id

theorem nodup_docIDs : c.docIDs.Nodup := by
  refine nodup_iff_getElem?_ne_getElem?.2 fun i j hij hj heq => ?_
  have hi := (c.wf.index _ _).2 (heq.trans (getElem?_eq_getElem hj))
  have hj := (c.wf.index _ _).2 (getElem?_eq_getElem hj)
  exact hij.ne (Option.some.inj (hi.symm.trans hj))

end VecCache

open VecCache

/-- After any calls the slices and the map agree, and every document has the vector of its last
call. -/
theorem cache_represents_calls (calls : List (Call α d)) :
    let c := calls.foldl call .empty
    c.docIDs.Nodup ∧ (∀ id i, c.docIDIndex id = some i ↔ c.docIDs[i]? = some id) ∧
      c.docVectors.length = c.docIDs.length * d ∧
      (∀ id, c.get id = current Call.docID Call.vector none calls id) ∧
      ∀ docID id, docID ≠ id → (c.deleteCache docID).get id = c.get id := by
  intro c
  refine ⟨c.nodup_docIDs, c.wf.index, c.wf.length, view_foldl get get_call calls .empty,
    fun docID id hne => ?_⟩
  rw [get_deleteCache, if_neg hne]

end SeaSearch
