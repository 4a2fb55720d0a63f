import SeaSearch.Vector.IvfPq

/-!
# What an IVFPQ index stores

An abstract index is a set of ids; `Batch` takes the deleted ids out of it and puts the added ids
into it, and nothing else changes it. The ids that are stored over all segments follow this set.
-/

namespace SeaSearch

open List IvfPqLemmas
open Option (bind_eq_bind bind_some map_some)

/-! ## The abstract index -/

def VecCall.apply (ids : Finset Int) : VecCall → Finset Int
  | .batch b => (ids \ b.deleteIds.toFinset) ∪ b.addIds.toFinset
  | .sealSeg _ => ids
  | .search => ids

/-- The ids of a call can be written with `Encode`. -/
def VecCall.NotNegative : VecCall → Prop
  | .batch b => ∀ id ∈ b.addIds ++ b.deleteIds, 0 ≤ id ∧ id < 2 ^ 63
  | .sealSeg _ => True
  | .search => True

instance (c : VecCall) : Decidable c.NotNegative :=
  match c with
  | .batch b => inferInstanceAs (Decidable (∀ id ∈ b.addIds ++ b.deleteIds, 0 ≤ id ∧ id < 2 ^ 63))
  | .sealSeg _ => instDecidableTrue
  | .search => instDecidableTrue

namespace IvfPqIndex

def segmentIds (v : IvfPqIndex) (pos : Nat) : List Int :=
  match v.ref.segments[pos]? with
  | some ref => (v.files ref.id).ids
  | none => []

def ids (v : IvfPqIndex) : List Int := v.ref.segments.flatMap fun ref => (v.files ref.id).ids

def content (v : IvfPqIndex) : Finset Int := v.ids.toFinset

/-- An id that is added is new or deleted by the same batch. -/
def AddsNew (v : IvfPqIndex) : VecCall → Prop
  | .batch b => ∀ id ∈ b.addIds, id ∉ v.content ∨ id ∈ b.deleteIds
  | .sealSeg _ => True
  | .search => True

instance (v : IvfPqIndex) (c : VecCall) : Decidable (v.AddsNew c) :=
  match c with
  | .batch b => inferInstanceAs (Decidable (∀ id ∈ b.addIds, id ∉ v.content ∨ id ∈ b.deleteIds))
  | .sealSeg _ => instDecidableTrue
  | .search => instDecidableTrue

/-- The indexes that calls reach from an index without vectors. All calls meet `ok`. -/
inductive Reached (threshold : Int) (ok : IvfPqIndex → VecCall → Prop) : IvfPqIndex → Prop
  | new : Reached threshold ok { segments := [none] }
  | call {v : IvfPqIndex} (c : VecCall) : Reached threshold ok v → ok v c →
      Reached threshold ok (v.call threshold c).1

def change (v : IvfPqIndex) (pos : Nat) (ref : VectorSegment) (seg : Option IVFPQSegment)
    (f : SegmentFiles) : IvfPqIndex :=
  { v with
    ref := { v.ref with segments := v.ref.segments.set pos ref }
    segments := v.segments.set pos seg
    files := Function.update v.files pos f }

end IvfPqIndex

open IvfPqIndex (content dropFromIndex exec openIVFPQSegment removeIDs runSteps save setFiles
  setRef)

/-! ## The invariant -/

structure SegmentOk (f : SegmentFiles) (ref : VectorSegment) (seg : Option IVFPQSegment) :
    Prop where
  nodup : f.keys.Nodup
  keys : ∀ k ∈ f.keys, Base62.encode (Base62.decode k) = k
  count : ref.count = f.keys.length
  cached : ∀ s ids, seg = some s → s.ids = some ids → ids = f.ids ∧ ref.status = .growing
  file : ref.status = .sealed → ∃ index, f.faiss = some index ∧ index.Perm f.ids
  index : ∀ s, seg = some s → ref.status = .sealed →
    ∃ index, s.index = some index ∧ index.Perm f.ids

structure SegmentSlot (v : IvfPqIndex) (pos : Nat) (ref : VectorSegment)
    (seg : Option IVFPQSegment) : Prop where
  ref : v.ref.segments[pos]? = some ref
  seg : v.segments[pos]? = some seg

structure ContentInv (v : IvfPqIndex) : Prop where
  consecutive : v.ref.Consecutive
  loaded : v.segments.length = v.ref.segments.length
  segment : ∀ pos ref seg, SegmentSlot v pos ref seg → SegmentOk (v.files pos) ref seg
  current : ∀ ref, v.ref.segments[v.ref.currentSegmentId]? = some ref → ref.status = .growing
  disjoint : ∀ i j, i ≠ j → ∀ id ∈ (v.files i).ids, id ∉ (v.files j).ids
  unused : ∀ i, v.ref.currentSegmentId < i → v.files i = {}

namespace SegmentSlot

variable {v : IvfPqIndex} {pos : Nat} {ref ref' : VectorSegment} {seg seg' : Option IVFPQSegment}
  {loaded : IVFPQSegment} {f : SegmentFiles}

theorem segment (h : SegmentSlot v pos ref (some loaded)) : v.segment pos = some (ref, loaded) := by
  rw [IvfPqIndex.segment, h.ref, h.seg]

theorem change (h : SegmentSlot v pos ref seg) :
    SegmentSlot (v.change pos ref' seg' f) pos ref' seg' := by
  obtain ⟨hr, -⟩ := List.getElem?_eq_some_iff.1 h.ref
  obtain ⟨hs, -⟩ := List.getElem?_eq_some_iff.1 h.seg
  exact ⟨List.getElem?_set_self hr, List.getElem?_set_self hs⟩

end SegmentSlot

abbrev KeysCanonical (f : SegmentFiles) : Prop :=
  ∀ k ∈ f.keys, Base62.encode (Base62.decode k) = k

def ReadBack (ids : List Int) : Prop :=
  ∀ id ∈ ids, Base62.decode (Base62.encode id) = id

/-! ## One segment -/

namespace IvfPqContentLemmas

section Segment

variable {f : SegmentFiles} {ids : List Int}

theorem nodup_ids (hnodup : f.keys.Nodup)
    (hkeys : KeysCanonical f) : f.ids.Nodup := by
  refine hnodup.map_on fun k hk l hl h => ?_
  rw [← hkeys k hk, h, hkeys l hl]

theorem mem_map_encode (hids : ReadBack ids) (hk : Base62.encode (Base62.decode k) = k) :
    k ∈ ids.map Base62.encode ↔ Base62.decode k ∈ ids := by
  constructor
  · intro h
    obtain ⟨id, hid, rfl⟩ := mem_map.1 h
    rwa [hids id hid]
  · intro h
    exact mem_map.2 ⟨_, h, hk⟩

theorem keys_delete : (f.delete ids).keys = f.keys.filter (· ∉ ids.map Base62.encode) := rfl

theorem ids_delete (hkeys : KeysCanonical f)
    (hids : ReadBack ids) : (f.delete ids).ids = f.ids.filter (· ∉ ids) := by
  rw [SegmentFiles.ids, SegmentFiles.ids, keys_delete, filter_map]
  refine congrArg _ (filter_congr fun k hk => ?_)
  simp only [Function.comp, decide_eq_decide]
  exact not_congr (mem_map_encode hids (hkeys k hk))

theorem mem_ids_insert (hids : ReadBack ids) {id : Int} :
    id ∈ (f.insert ids).ids ↔ id ∈ ids ∨ id ∈ f.ids := by
  constructor
  · intro h
    obtain ⟨k, hk, rfl⟩ := mem_map.1 h
    rcases mem_union_iff.1 hk with hk | hk
    · obtain ⟨id, hid, rfl⟩ := mem_map.1 hk
      rw [hids id hid]
      exact .inl hid
    · exact .inr (mem_map_of_mem hk)
  · rintro (h | h)
    · exact mem_map.2
        ⟨_, mem_union_iff.2 (.inl (mem_map_of_mem h)), hids id h⟩
    · obtain ⟨k, hk, rfl⟩ := mem_map.1 h
      exact mem_map_of_mem (mem_union_iff.2 (.inr hk))

theorem mem_getExistsIds (hkeys : KeysCanonical f) (hids : ReadBack ids) {id : Int} :
    id ∈ f.getExistsIds ids ↔ id ∈ f.ids ∧ id ∈ ids := by
  simp only [SegmentFiles.getExistsIds, SegmentFiles.ids, mem_map, mem_filter, decide_eq_true_eq]
  constructor
  · rintro ⟨k, ⟨hk, hmem⟩, rfl⟩
    exact ⟨⟨k, hk, rfl⟩, (mem_map_encode hids (hkeys k hk)).1 (mem_map.2 hmem)⟩
  · rintro ⟨⟨k, hk, rfl⟩, hmem⟩
    exact ⟨k, ⟨hk, mem_map.1 ((mem_map_encode hids (hkeys k hk)).2 hmem)⟩, rfl⟩

end Segment

/-! ## Changes of one segment -/

section Change

variable {v : IvfPqIndex} {pos : Nat} {ref ref' : VectorSegment} {seg seg' : Option IVFPQSegment}
  {loaded : IVFPQSegment} {f f' : SegmentFiles} {ids : List Int}

theorem slot_change_of_ne (hi : i ≠ pos) :
    SegmentSlot (v.change pos ref' seg' f) i ref seg ↔ SegmentSlot v i ref seg := by
  constructor
  · rintro ⟨hr, hs⟩
    exact ⟨(List.getElem?_set_ne hi.symm).symm.trans hr,
      (List.getElem?_set_ne hi.symm).symm.trans hs⟩
  · rintro ⟨hr, hs⟩
    exact ⟨(List.getElem?_set_ne hi.symm).trans hr, (List.getElem?_set_ne hi.symm).trans hs⟩

theorem set_getElem?_self {α : Type} {l : List α} {i : Nat} {a : α} (h : l[i]? = some a) :
    l.set i a = l := by
  obtain ⟨hi, rfl⟩ := List.getElem?_eq_some_iff.1 h
  exact set_getElem_self hi

theorem change_self (h : SegmentSlot v pos ref seg) : v.change pos ref seg (v.files pos) = v := by
  simp only [IvfPqIndex.change, set_getElem?_self h.ref, set_getElem?_self h.seg,
    Function.update_eq_self]

@[simp] theorem change_change :
    (v.change pos ref seg f).change pos ref' seg' f' = v.change pos ref' seg' f' := by
  simp only [IvfPqIndex.change, set_set, Function.update_idem]

@[simp] theorem files_change : (v.change pos ref seg f).files pos = f := Function.update_self ..

theorem files_change_of_ne (hi : i ≠ pos) :
    (v.change pos ref seg f).files i = v.files i := Function.update_of_ne hi ..

theorem setSegment_eq (h : SegmentSlot v pos ref seg) (s : IVFPQSegment) :
    v.setSegment pos s = v.change pos ref (some s) (v.files pos) := by
  simp only [IvfPqIndex.setSegment, IvfPqIndex.change, set_getElem?_self h.ref,
    Function.update_eq_self]

theorem setRef_eq (h : SegmentSlot v pos ref seg) (r : VectorSegment) :
    v.setRef pos r = v.change pos r seg (v.files pos) := by
  simp only [setRef, IvfPqIndex.change, set_getElem?_self h.seg, Function.update_eq_self]

theorem setFiles_eq (h : SegmentSlot v pos ref seg) (f : SegmentFiles) :
    v.setFiles pos f = v.change pos ref seg f := by
  simp only [setFiles, IvfPqIndex.change, set_getElem?_self h.ref, set_getElem?_self h.seg]

/-! ## The steps of a segment -/

variable (h : SegmentSlot v pos ref (some loaded)) (hid : ref.id = pos)
include h hid

theorem removeIDs_eq {dropped : IVFPQSegment}
    (hdrop : dropFromIndex ref loaded ids = some dropped) :
    v.removeIDs pos ids = some (v.change pos ref (some dropped) ((v.files pos).delete ids)) := by
  rw [removeIDs, h.segment]
  simp only [bind_eq_bind, bind_some, hdrop, hid, setSegment_eq h]
  rw [setFiles_eq h.change, change_change]
  rfl

theorem addVectors_eq (hstatus : ref.status = .growing) :
    v.addVectors pos ids = some (v.change pos ref (some loaded) ((v.files pos).insert ids)) := by
  rw [IvfPqIndex.addVectors, h.segment]
  simp only [bind_eq_bind, bind_some, hstatus, guard_true, hid, setFiles_eq h]
  rfl

theorem save_growing (hstatus : ref.status = .growing) :
    v.save pos = some (v.change pos
      { ref with count := ((v.files pos).storedVec.map List.length).getD ref.count }
      (some { loaded with ids := none }) (v.files pos)) := by
  rw [save, h.segment]
  simp only [bind_eq_bind, bind_some, hstatus, hid, setSegment_eq h]
  rw [setRef_eq h.change, change_change, files_change]
  rfl

theorem save_sealed (hstatus : ref.status = .sealed) (hindex : loaded.index = some index) :
    v.save pos = some (v.change pos { ref with count := index.length } (some loaded)
      { v.files pos with faiss := some index }) := by
  rw [save, h.segment]
  simp only [bind_eq_bind, bind_some, hstatus, hid, hindex, setRef_eq h]
  rw [setFiles_eq h.change, change_change]
  rfl

end Change

end IvfPqContentLemmas

open IvfPqContentLemmas

/-! ## Steps that succeed -/

def StepsRun (threshold : Int) (steps : List VecStep) (v v' : IvfPqIndex) : Prop :=
  runSteps threshold steps v = (v', true)

structure SegmentFrame (v v' : IvfPqIndex) : Prop where
  current : v'.ref.currentSegmentId = v.ref.currentSegmentId
  length : v'.ref.segments.length = v.ref.segments.length
  loaded : ∀ (p : Nat) (s : IVFPQSegment), v.segments[p]? = some (some s) →
    ∃ s', v'.segments[p]? = some (some s')

structure SegmentEffect (v v' : IvfPqIndex) (pos : Nat) (ids : List Int) : Prop where
  inv : ContentInv v'
  frame : SegmentFrame v v'
  ids : ∀ i, (v'.files i).ids = if i = pos then ids else (v.files i).ids

section

variable {threshold : Int} {v v' w : IvfPqIndex} {pos : Nat} {ref ref' : VectorSegment}
  {seg : Option IVFPQSegment} {loaded : IVFPQSegment} {f : SegmentFiles} {ids : List Int}

theorem StepsRun.nil (v : IvfPqIndex) : StepsRun threshold [] v v := rfl

theorem StepsRun.cons {step : VecStep} {steps : List VecStep}
    (hstep : v.exec threshold step = (v', true)) (h : StepsRun threshold steps v' w) :
    StepsRun threshold (step :: steps) v w := by
  rw [StepsRun, runSteps, hstep]
  exact h

theorem runSteps_append (a b : List VecStep) (v : IvfPqIndex) :
    runSteps threshold (a ++ b) v = if (runSteps threshold a v).2 then
        runSteps threshold b (runSteps threshold a v).1
      else runSteps threshold a v := by
  induction a generalizing v with
  | nil => rfl
  | cons step a ih =>
    rw [cons_append, runSteps, runSteps]
    split
    · exact ih _
    · rfl

theorem StepsRun.append {a b : List VecStep} (ha : StepsRun threshold a v v')
    (hb : StepsRun threshold b v' w) : StepsRun threshold (a ++ b) v w := by
  rw [StepsRun, runSteps_append, ha]
  exact hb

theorem orFail_some (v v' : IvfPqIndex) : v.orFail (some v') = (v', true) := rfl

theorem SegmentFrame.refl (v : IvfPqIndex) : SegmentFrame v v := ⟨rfl, rfl, fun _ s hs => ⟨s, hs⟩⟩

theorem SegmentFrame.trans (h : SegmentFrame v v') (h' : SegmentFrame v' w) : SegmentFrame v w where
  current := h'.current.trans h.current
  length := h'.length.trans h.length
  loaded p s hs := by
    obtain ⟨s', hs'⟩ := h.loaded p s hs
    exact h'.loaded p s' hs'

theorem frame_change (v : IvfPqIndex) (pos : Nat) (ref : VectorSegment) (loaded : IVFPQSegment)
    (f : SegmentFiles) : SegmentFrame v (v.change pos ref (some loaded) f) where
  current := rfl
  length := length_set
  loaded p s hs := by
    by_cases hp : pos = p
    · subst hp
      obtain ⟨hlt, -⟩ := List.getElem?_eq_some_iff.1 hs
      exact ⟨loaded, List.getElem?_set_self hlt⟩
    · exact ⟨s, (List.getElem?_set_ne hp).trans hs⟩

theorem segmentOk_growing (hnodup : f.keys.Nodup) (hkeys : KeysCanonical f)
    (hcount : ref.count = f.keys.length) (hstatus : ref.status = .growing)
    (hcached : ∀ ids, loaded.ids = some ids → ids = f.ids) :
    SegmentOk f ref (some loaded) where
  nodup := hnodup
  keys := hkeys
  count := hcount
  cached s ids hs hids := by
    cases hs
    exact ⟨hcached ids hids, hstatus⟩
  file hsealed := nomatch hstatus.symm.trans hsealed
  index s _ hsealed := nomatch hstatus.symm.trans hsealed

theorem segmentOk_sealed (hnodup : f.keys.Nodup) (hkeys : KeysCanonical f)
    (hcount : ref.count = f.keys.length) (hcached : loaded.ids = none)
    (hfile : f.faiss = some index) (hindex : loaded.index = some index) (hperm : index.Perm f.ids) :
    SegmentOk f ref (some loaded) where
  nodup := hnodup
  keys := hkeys
  count := hcount
  cached s ids hs hids := by
    cases hs
    cases hcached.symm.trans hids
  file _ := ⟨index, hfile, hperm⟩
  index s hs _ := by
    cases hs
    exact ⟨index, hindex, hperm⟩

theorem ids_eq (h : v.ref.Consecutive) :
    v.ids = (List.range (v.ref.currentSegmentId + 1)).flatMap fun i => (v.files i).ids := by
  rw [← h, flatMap_map]
  rfl

theorem runs_save (ha : StepsRun threshold a v v') (hsave : v'.save pos = some w) :
    StepsRun threshold (a ++ [.save pos]) v w :=
  ha.append (.cons (by rw [exec, hsave, orFail_some]) (.nil w))

theorem mem_getDelBatches {deleteIds : List Int} {b : Nat × List Int} :
    b ∈ v.getDelBatches deleteIds ↔ ∃ ref, v.ref.segments[b.1]? = some ref ∧
      b.2 = (v.files ref.id).getExistsIds deleteIds ∧ b.2 ≠ [] := by
  simp only [IvfPqIndex.getDelBatches, mem_filter, mem_map, decide_eq_true_eq]
  constructor
  · rintro ⟨⟨⟨ref, pos⟩, hmem, rfl⟩, hne⟩
    exact ⟨ref, mem_zipIdx_iff_getElem?.1 hmem, rfl, hne⟩
  · rintro ⟨ref, hpos, heq, hne⟩
    exact ⟨⟨(ref, b.1), mem_zipIdx_iff_getElem?.2 hpos, Prod.ext rfl heq.symm⟩, hne⟩

namespace ContentInv

variable (h : ContentInv v)
include h

theorem id_eq (hslot : SegmentSlot v pos ref seg) : ref.id = pos :=
  (consecutive_iff.1 h.consecutive).1 pos ref hslot.ref

theorem exists_slot (hpos : pos < v.ref.segments.length) :
    ∃ ref seg, SegmentSlot v pos ref seg :=
  ⟨_, _, List.getElem?_eq_getElem hpos, List.getElem?_eq_getElem (h.loaded ▸ hpos)⟩

theorem pos_le (hslot : SegmentSlot v pos ref seg) :
    pos ≤ v.ref.currentSegmentId := by
  obtain ⟨hlt, -⟩ := List.getElem?_eq_some_iff.1 hslot.ref
  rw [length_segments h.consecutive] at hlt
  exact Nat.le_of_lt_succ hlt

section Change

variable (hslot : SegmentSlot v pos ref seg) (hid : ref'.id = ref.id)
  (hstatus : pos = v.ref.currentSegmentId → ref'.status = .growing)
  (hdisjoint : ∀ j, j ≠ pos → ∀ id ∈ f.ids, id ∉ (v.files j).ids)

include hslot hid hstatus hdisjoint

theorem change {seg' : Option IVFPQSegment} (hok : SegmentOk f ref' seg') :
    ContentInv (v.change pos ref' seg' f) where
  consecutive := by
    show (v.ref.segments.set pos ref').map VectorSegment.id = List.range _
    have hpos : (v.ref.segments.map VectorSegment.id)[pos]? = some ref.id := by
      rw [List.getElem?_map, hslot.ref, map_some]
    rw [map_set, hid, set_getElem?_self hpos]
    exact h.consecutive
  loaded := by
    show (v.segments.set pos seg').length = (v.ref.segments.set pos ref').length
    rw [length_set, length_set, h.loaded]
  segment i r s his := by
    by_cases hi : i = pos
    · subst hi
      have hset : SegmentSlot (v.change i ref' seg' f) i ref' seg' := hslot.change
      obtain ⟨hr, hs⟩ := hset
      cases his.ref.symm.trans hr
      cases his.seg.symm.trans hs
      rwa [files_change]
    · rw [files_change_of_ne hi]
      exact h.segment i r s ((slot_change_of_ne hi).1 his)
  current r hr := by
    have hset : SegmentSlot (v.change pos ref' seg' f) pos ref' seg' := hslot.change
    by_cases hc : pos = v.ref.currentSegmentId
    · have hr : (v.ref.segments.set pos ref')[v.ref.currentSegmentId]? = some r := hr
      rw [← hc] at hr
      cases hr.symm.trans hset.ref
      exact hstatus hc
    · exact h.current r ((List.getElem?_set_ne hc).symm.trans hr)
  disjoint i j hij id hi := by
    by_cases hip : i = pos
    · subst hip
      rw [files_change] at hi
      rw [files_change_of_ne hij.symm]
      exact hdisjoint j hij.symm id hi
    · rw [files_change_of_ne hip] at hi
      by_cases hjp : j = pos
      · subst hjp
        rw [files_change]
        exact fun hj => hdisjoint i hip id hj hi
      · rw [files_change_of_ne hjp]
        exact h.disjoint i j hij id hi
  unused i hi := by
    have hle := h.pos_le hslot
    have hne : i ≠ pos := fun heq => absurd (heq ▸ hi) (Nat.not_lt.2 hle)
    rw [files_change_of_ne hne]
    exact h.unused i hi

theorem effect (hok : SegmentOk f ref' (some loaded)) :
    SegmentEffect v (v.change pos ref' (some loaded) f) pos f.ids where
  inv := h.change hslot hid hstatus hdisjoint hok
  frame := frame_change v pos ref' loaded f
  ids i := by
    split
    · next hi => rw [hi, files_change]
    · next hi => rw [files_change_of_ne hi]

end Change

theorem status_current (hslot : SegmentSlot v pos ref seg)
    (hpos : pos = v.ref.currentSegmentId) : ref.status = .growing :=
  h.current ref (hpos ▸ hslot.ref)

/-! ## Loading -/

variable (threshold)

theorem load (hslot : SegmentSlot v pos ref seg) :
    ∃ loaded, StepsRun threshold [.load pos] v (v.change pos ref (some loaded) (v.files pos)) ∧
      SegmentOk (v.files pos) ref (some loaded) := by
  have hok := h.segment pos ref seg hslot
  have hid := h.id_eq hslot
  cases seg with
  | some loaded =>
    refine ⟨loaded, .cons ?_ (.nil _), hok⟩
    rw [change_self hslot, exec, IvfPqIndex.load, hslot.seg]
    rfl
  | none =>
    have hload : ∀ loaded, v.openIVFPQSegment ref = some loaded →
        StepsRun threshold [.load pos] v (v.change pos ref (some loaded) (v.files pos)) := by
      intro loaded hopen
      refine .cons ?_ (.nil _)
      rw [exec, IvfPqIndex.load, hslot.ref, hslot.seg]
      simp only [hopen, map_some, setSegment_eq hslot]
      rfl
    cases hstatus : ref.status with
    | growing =>
      exact ⟨{}, hload _ (by rw [openIVFPQSegment, hstatus]),
        segmentOk_growing hok.nodup hok.keys hok.count hstatus nofun⟩
    | sealed =>
      obtain ⟨index, hfile, hperm⟩ := hok.file hstatus
      refine ⟨{ index := some index }, hload _ ?_,
        segmentOk_sealed hok.nodup hok.keys hok.count rfl hfile rfl hperm⟩
      rw [openIVFPQSegment, hstatus, hid]
      simp only [hfile, map_some]

theorem loads (ps : List Nat) (hps : ∀ p ∈ ps, p < v.ref.segments.length) :
    ∃ v', StepsRun threshold (ps.map .load) v v' ∧ ContentInv v' ∧ SegmentFrame v v' ∧
      v'.ref = v.ref ∧ v'.files = v.files ∧ ∀ p ∈ ps, ∃ s, v'.segments[p]? = some (some s) := by
  induction ps generalizing v with
  | nil => exact ⟨v, .nil v, h, .refl v, rfl, rfl, nofun⟩
  | cons p ps ih =>
    obtain ⟨ref, seg, hslot⟩ := h.exists_slot (hps p mem_cons_self)
    obtain ⟨loaded, hrun, hok⟩ := h.load threshold hslot
    have hinv := h.change hslot rfl (h.status_current hslot)
      (fun j hj => h.disjoint p j hj.symm) hok
    have href : (v.change p ref (some loaded) (v.files p)).ref = v.ref := by
      simp only [IvfPqIndex.change, set_getElem?_self hslot.ref]
    have hfiles : (v.change p ref (some loaded) (v.files p)).files = v.files :=
      Function.update_eq_self ..
    have hslot' : SegmentSlot (v.change p ref (some loaded) (v.files p)) p ref (some loaded) :=
      hslot.change
    obtain ⟨v', hrest, hinv', hframe, href', hfiles', hloaded⟩ :=
      ih hinv fun q hq => href.symm ▸ hps q (mem_cons_of_mem _ hq)
    refine ⟨v', hrun.append hrest, hinv', (frame_change v p ref loaded _).trans hframe,
      href'.trans href, hfiles'.trans hfiles, fun q hq => ?_⟩
    rcases mem_cons.1 hq with rfl | hq
    · exact hframe.loaded q loaded hslot'.seg
    · exact hloaded q hq

/-! ## `Batch` of a segment -/

section LoadedSlot

variable (hslot : SegmentSlot v pos ref (some loaded))

include hslot

theorem written (hstatus : ref.status = .growing)
    (hstep : v.exec threshold step = (v.change pos ref (some loaded) f, true))
    (hcount : (f.storedVec.map List.length).getD ref.count = f.keys.length)
    (hnodup : f.keys.Nodup) (hkeys : KeysCanonical f)
    (hdisjoint : ∀ j, j ≠ pos → ∀ id ∈ f.ids, id ∉ (v.files j).ids) :
    ∃ v', StepsRun threshold [step, .save pos] v v' ∧ SegmentEffect v v' pos f.ids := by
  have hslot' : SegmentSlot (v.change pos ref (some loaded) f) pos ref (some loaded) := hslot.change
  have hsave := save_growing hslot' (h.id_eq hslot) hstatus
  rw [change_change, files_change, hcount] at hsave
  exact ⟨_, runs_save (.cons hstep (.nil _)) hsave, h.effect hslot rfl
    (fun _ => hstatus) hdisjoint (segmentOk_growing hnodup hkeys rfl hstatus nofun)⟩

theorem remove (hids : ReadBack ids) :
    ∃ v', StepsRun threshold [.removeIDs pos ids, .save pos] v v' ∧
      SegmentEffect v v' pos ((v.files pos).ids.filter (· ∉ ids)) := by
  have hok := h.segment pos ref _ hslot
  have hid := h.id_eq hslot
  have hdelete := ids_delete hok.keys hids
  have hnodup : ((v.files pos).delete ids).keys.Nodup := hok.nodup.filter _
  have hkeys : KeysCanonical ((v.files pos).delete ids) :=
    fun k hk => hok.keys k (mem_of_mem_filter hk)
  have hdisjoint : ∀ j, j ≠ pos → ∀ id ∈ ((v.files pos).delete ids).ids, id ∉ (v.files j).ids := by
    intro j hj id hmem
    rw [hdelete] at hmem
    exact h.disjoint pos j hj.symm id (mem_of_mem_filter hmem)
  rw [← hdelete]
  cases hstatus : ref.status with
  | growing =>
    have hdrop : dropFromIndex ref loaded ids = some loaded := by
      rw [dropFromIndex, hstatus]
    refine h.written threshold hslot hstatus ?_ rfl hnodup hkeys hdisjoint
    rw [exec, removeIDs_eq hslot hid hdrop, orFail_some]
  | sealed =>
    obtain ⟨index, hindex, hperm⟩ := hok.index loaded rfl hstatus
    have hdrop : dropFromIndex ref loaded ids =
        some { loaded with index := some (index.filter (· ∉ ids)) } := by
      rw [dropFromIndex, hstatus, hindex]
      rfl
    have hslot' : SegmentSlot (v.change pos ref
      (some { loaded with index := some (index.filter (· ∉ ids)) }) ((v.files pos).delete ids)) pos
      ref _ := hslot.change
    have hsave := save_sealed hslot' hid hstatus rfl
    rw [change_change, files_change] at hsave
    have hperm' : (index.filter (· ∉ ids)).Perm ((v.files pos).delete ids).ids := by
      rw [hdelete]
      exact hperm.filter _
    have hcached : loaded.ids = none := by
      by_contra hne
      obtain ⟨l, hl⟩ := Option.ne_none_iff_exists'.1 hne
      cases hstatus.symm.trans (hok.cached loaded l rfl hl).2
    refine ⟨_, runs_save (.cons ?_ (.nil _)) hsave, h.effect hslot rfl
      (fun hpos => ?_) hdisjoint (segmentOk_sealed hnodup hkeys ?_ hcached rfl rfl hperm')⟩
    · rw [exec, removeIDs_eq hslot hid hdrop, orFail_some]
    · show ref.status = .growing
      exact h.status_current hslot hpos
    · exact hperm'.length_eq.trans (length_map _)

theorem add (hstatus : ref.status = .growing) (hids : ReadBack ids)
    (hnew : ∀ id ∈ ids, ∀ j, j ≠ pos → id ∉ (v.files j).ids) :
    ∃ v', StepsRun threshold [.addVectors pos ids, .save pos] v v' ∧
      SegmentEffect v v' pos ((v.files pos).insert ids).ids := by
  have hok := h.segment pos ref _ hslot
  have hkeys : KeysCanonical ((v.files pos).insert ids) := by
    intro k hk
    rcases mem_union_iff.1 hk with hk | hk
    · obtain ⟨id, hmem, rfl⟩ := mem_map.1 hk
      rw [hids id hmem]
    · exact hok.keys k hk
  refine h.written threshold hslot hstatus ?_ rfl (hok.nodup.union _) hkeys fun j hj id hmem => ?_
  · rw [exec, addVectors_eq hslot (h.id_eq hslot) hstatus, orFail_some]
  · rcases (mem_ids_insert hids).1 hmem with hmem | hmem
    · exact hnew id hmem j hj
    · exact h.disjoint pos j hj.symm id hmem

theorem saves (hstatus : ref.status = .growing) :
    ∃ v', StepsRun threshold [.save pos] v v' ∧ SegmentEffect v v' pos (v.files pos).ids := by
  have hok := h.segment pos ref _ hslot
  have hcount : ((v.files pos).storedVec.map List.length).getD ref.count =
      (v.files pos).keys.length := by
    cases hstored : (v.files pos).storedVec with
    | none => rw [hok.count, Option.map_none, Option.getD_none]
    | some keys =>
      rw [SegmentFiles.keys, hstored]
      rfl
  have hsave := save_growing hslot (h.id_eq hslot) hstatus
  rw [hcount] at hsave
  exact ⟨_, runs_save (.nil v) hsave, h.effect hslot rfl (fun _ => hstatus)
    (fun j hj => h.disjoint pos j hj.symm)
    (segmentOk_growing hok.nodup hok.keys rfl hstatus nofun)⟩

end LoadedSlot

/-! ## `Batch` of the index -/

theorem slot_of_loaded (hs : v.segments[pos]? = some (some loaded)) :
    ∃ ref, SegmentSlot v pos ref (some loaded) := by
  obtain ⟨hlt, -⟩ := List.getElem?_eq_some_iff.1 hs
  exact ⟨_, List.getElem?_eq_getElem (h.loaded ▸ hlt), hs⟩

theorem removes {bs : List (Nat × List Int)}
    (hloaded : ∀ b ∈ bs, ∃ s, v.segments[b.1]? = some (some s)) (hids : ∀ b ∈ bs, ReadBack b.2) :
    ∃ v', StepsRun threshold (bs.flatMap fun b => [.removeIDs b.1 b.2, .save b.1]) v v' ∧
      ContentInv v' ∧ SegmentFrame v v' ∧ ∀ i id, id ∈ (v'.files i).ids ↔
        id ∈ (v.files i).ids ∧ ∀ b ∈ bs, b.1 = i → id ∉ b.2 := by
  induction bs generalizing v with
  | nil => exact ⟨v, .nil v, h, .refl v, fun i id => by simp⟩
  | cons b bs ih =>
    obtain ⟨s, hs⟩ := hloaded b mem_cons_self
    obtain ⟨ref, hslot⟩ := h.slot_of_loaded hs
    obtain ⟨v₁, hrun, heffect⟩ := h.remove threshold hslot (hids b mem_cons_self)
    have hloaded' : ∀ b' ∈ bs, ∃ s', v₁.segments[b'.1]? = some (some s') := by
      intro b' hb'
      obtain ⟨s', hs'⟩ := hloaded b' (mem_cons_of_mem _ hb')
      exact heffect.frame.loaded _ s' hs'
    obtain ⟨v', hrest, hinv, hframe, hmem⟩ :=
      ih heffect.inv hloaded' fun b' hb' => hids b' (mem_cons_of_mem _ hb')
    refine ⟨v', hrun.append hrest, hinv, heffect.frame.trans hframe, fun i id => ?_⟩
    rw [hmem, heffect.ids, forall_mem_cons]
    split
    · next hi =>
      subst hi
      simp only [mem_filter, decide_eq_true_eq, forall_const, and_assoc]
    · next hi =>
      simp only [show b.1 ≠ i from fun heq => hi heq.symm, false_implies, true_and]

theorem ids_unused {i : Nat} (hi : v.ref.segments.length ≤ i) :
    (v.files i).ids = [] := by
  rw [length_segments h.consecutive] at hi
  rw [h.unused i hi]
  rfl

theorem lt_of_mem_ids {i : Nat} {id : Int} (hid : id ∈ (v.files i).ids) :
    i < v.ref.segments.length := by
  by_contra hle
  rw [h.ids_unused (Nat.le_of_not_lt hle)] at hid
  cases hid

theorem processDel (b : VecBatch) (hids : ReadBack b.deleteIds) :
    ∃ v', StepsRun threshold (v.processDel b) v v' ∧ ContentInv v' ∧ SegmentFrame v v' ∧
      ∀ i id, id ∈ (v'.files i).ids ↔ id ∈ (v.files i).ids ∧ id ∉ b.deleteIds := by
  rw [IvfPqIndex.processDel]
  by_cases hnil : b.deleteIds = []
  · rw [if_pos hnil]
    exact ⟨v, .nil v, h, .refl v, fun i id => by simp [hnil]⟩
  rw [if_neg hnil]
  obtain ⟨v₁, hload, hinv₁, hframe₁, href, hfiles, hloaded⟩ :=
    h.loads threshold (List.range v.ref.segments.length) fun p hp => mem_range.1 hp
  -- the deletions of a segment are the ids that it has
  have hbatch : ∀ b' ∈ b.order.order (v.getDelBatches b.deleteIds), b'.1 < v.ref.segments.length ∧
        ∀ id, id ∈ b'.2 ↔ id ∈ (v.files b'.1).ids ∧ id ∈ b.deleteIds := by
    intro b' hb'
    obtain ⟨ref, hpos, heq, -⟩ := mem_getDelBatches.1 ((b.order.perm _).mem_iff.1 hb')
    obtain ⟨hlt, -⟩ := List.getElem?_eq_some_iff.1 hpos
    obtain ⟨r, s, hslot⟩ := h.exists_slot hlt
    cases hpos.symm.trans hslot.ref
    refine ⟨hlt, fun id => ?_⟩
    rw [heq, h.id_eq hslot]
    exact mem_getExistsIds (h.segment _ _ _ hslot).keys hids
  obtain ⟨v', hrun, hinv, hframe, hmem⟩ := hinv₁.removes threshold
    (fun b' hb' => hloaded _ (mem_range.2 (hbatch b' hb').1))
    fun b' hb' id hid => hids id (((hbatch b' hb').2 id).1 hid).2
  refine ⟨v', hload.append hrun, hinv, hframe₁.trans hframe, fun i id => ?_⟩
  rw [hmem, hfiles]
  refine and_congr_right fun hstored => ⟨fun hall hdel => ?_, fun hdel b' hb' hi hid => ?_⟩
  · -- the segment has the id, so it is in the map
    obtain ⟨ref, seg, hslot⟩ := h.exists_slot (h.lt_of_mem_ids hstored)
    have hexists : id ∈ (v.files i).getExistsIds b.deleteIds :=
      (mem_getExistsIds (h.segment _ _ _ hslot).keys hids).2 ⟨hstored, hdel⟩
    refine hall (i, (v.files i).getExistsIds b.deleteIds) ((b.order.perm _).mem_iff.2 ?_) rfl
      hexists
    refine mem_getDelBatches.2 ⟨ref, hslot.ref, ?_, ne_nil_of_mem hexists⟩
    rw [h.id_eq hslot]
  · exact hdel (((hbatch b' hb').2 id).1 hid).2

theorem appendSegment : ContentInv v.appendSegment := by
  have hlen := length_segments h.consecutive
  have hsegments : v.appendSegment.ref.segments.length = v.ref.currentSegmentId + 2 := by
    rw [IvfPqIndex.appendSegment, length_append, hlen]
    rfl
  refine ⟨?_, ?_, fun pos ref seg hslot => ?_, fun ref hcurrent => ?_, h.disjoint, fun i hi => ?_⟩
  · show (v.ref.segments ++ [_]).map VectorSegment.id = List.range (v.ref.currentSegmentId + 1 + 1)
    rw [map_append, h.consecutive, range_succ (n := _ + 1)]
    rfl
  · show (v.segments ++ [none]).length = (v.ref.segments ++ [_]).length
    rw [length_append, length_append, h.loaded]
    rfl
  · obtain ⟨href, hseg⟩ := hslot
    by_cases hpos : pos < v.ref.segments.length
    · refine h.segment pos ref seg ⟨?_, ?_⟩
      · exact (List.getElem?_append_left hpos).symm.trans href
      · exact (List.getElem?_append_left (h.loaded ▸ hpos)).symm.trans hseg
    · -- the new segment has no files
      obtain ⟨hlt, -⟩ := List.getElem?_eq_some_iff.1 href
      obtain rfl : pos = v.ref.segments.length := by omega
      have hnew : v.appendSegment.ref.segments[v.ref.segments.length]? =
          some { id := v.ref.currentSegmentId + 1 } := by
        simp [IvfPqIndex.appendSegment]
      have hnone : v.appendSegment.segments[v.ref.segments.length]? = some none := by
        rw [← h.loaded]
        simp [IvfPqIndex.appendSegment]
      cases href.symm.trans hnew
      cases hseg.symm.trans hnone
      have hempty : v.files v.ref.segments.length = {} := h.unused _ (by omega)
      show SegmentOk (v.files v.ref.segments.length) _ none
      rw [hempty]
      exact ⟨nodup_nil, nofun, rfl, nofun, nofun, nofun⟩
  · have hnew : v.appendSegment.ref.segments[v.appendSegment.ref.currentSegmentId]? =
        some { id := v.ref.currentSegmentId + 1 } := by
      simp [IvfPqIndex.appendSegment, ← hlen]
    cases hcurrent.symm.trans hnew
    rfl
  · exact h.unused i (Nat.lt_of_succ_lt hi)

theorem checkNewSeg (hslot : SegmentSlot v pos ref (some loaded)) :
    ∃ v', StepsRun threshold [.checkNewSeg pos] v v' ∧ ContentInv v' ∧ v'.files = v.files := by
  have hrun : StepsRun threshold [.checkNewSeg pos] v
      (if threshold ≤ ref.count then v.appendSegment else v) := by
    refine .cons ?_ (.nil _)
    rw [exec, IvfPqIndex.checkNewSeg, hslot.segment]
    exact orFail_some _ _
  refine ⟨_, hrun, ?_⟩
  split
  · exact ⟨h.appendSegment, rfl⟩
  · exact ⟨h, rfl⟩

theorem processAdd {addIds : List Int} (hids : ReadBack addIds)
    (hnew : ∀ id ∈ addIds, ∀ j, id ∉ (v.files j).ids) :
    ∃ v', StepsRun threshold (IvfPqIndex.processAdd v.ref.currentSegmentId addIds) v v' ∧
      ContentInv v' ∧ ∀ id, (∃ i, id ∈ (v'.files i).ids) ↔
        (∃ i, id ∈ (v.files i).ids) ∨ id ∈ addIds := by
  have hcur : v.ref.currentSegmentId < v.ref.segments.length := by
    rw [length_segments h.consecutive]
    exact Nat.lt_succ_self _
  obtain ⟨v₁, hload, hinv₁, hframe₁, href, hfiles, hloaded⟩ :=
    h.loads threshold [v.ref.currentSegmentId] (by simpa using hcur)
  obtain ⟨s, hs⟩ := hloaded _ (mem_singleton.2 rfl)
  obtain ⟨ref, hslot⟩ := hinv₁.slot_of_loaded hs
  have hstatus : ref.status = .growing :=
    hinv₁.status_current hslot (congrArg VecIndexMeta.currentSegmentId href).symm
  have hbatch : ∃ v₂, StepsRun threshold ((if addIds = [] then [] else
        [.addVectors v.ref.currentSegmentId addIds]) ++ [.save v.ref.currentSegmentId]) v₁ v₂ ∧
      ∃ ids, SegmentEffect v₁ v₂ v.ref.currentSegmentId ids ∧
        ∀ id, id ∈ ids ↔ id ∈ (v.files v.ref.currentSegmentId).ids ∨ id ∈ addIds := by
    by_cases hnil : addIds = []
    · obtain ⟨v₂, hrun, heffect⟩ := hinv₁.saves threshold hslot hstatus
      rw [if_pos hnil]
      exact ⟨v₂, hrun, _, heffect, fun id => by rw [hfiles]; simp [hnil]⟩
    · obtain ⟨v₂, hrun, heffect⟩ := hinv₁.add threshold hslot hstatus hids
        fun id hid j _ => hfiles.symm ▸ hnew id hid j
      rw [if_neg hnil]
      refine ⟨v₂, hrun, _, heffect, fun id => ?_⟩
      rw [mem_ids_insert hids, hfiles, or_comm]
  obtain ⟨v₂, hrun, ids, heffect, hmem⟩ := hbatch
  obtain ⟨s₂, hs₂⟩ := heffect.frame.loaded _ s hs
  obtain ⟨ref₂, hslot₂⟩ := heffect.inv.slot_of_loaded hs₂
  obtain ⟨v', hnewseg, hinv', hfiles'⟩ := heffect.inv.checkNewSeg threshold hslot₂
  refine ⟨v', ?_, hinv', fun id => ?_⟩
  · have hall := (hload.append hrun).append hnewseg
    simpa [IvfPqIndex.processAdd] using hall
  · rw [hfiles']
    constructor
    · rintro ⟨i, hi⟩
      rw [heffect.ids] at hi
      split at hi
      · exact ((hmem id).1 hi).imp_left fun hi => ⟨_, hi⟩
      · exact .inl ⟨i, hfiles ▸ hi⟩
    · rintro (⟨i, hi⟩ | hadd)
      · refine ⟨i, ?_⟩
        rw [heffect.ids]
        split
        · next heq => exact (hmem id).2 (.inl (heq ▸ hi))
        · exact hfiles.symm ▸ hi
      · refine ⟨v.ref.currentSegmentId, ?_⟩
        rw [heffect.ids, if_pos rfl]
        exact (hmem id).2 (.inr hadd)

/-! ## The stored ids -/

theorem mem_ids {id : Int} : id ∈ v.ids ↔ ∃ i, id ∈ (v.files i).ids := by
  rw [ids_eq h.consecutive, mem_flatMap]
  refine ⟨fun ⟨i, _, hi⟩ => ⟨i, hi⟩, fun ⟨i, hi⟩ => ⟨i, ?_, hi⟩⟩
  rw [mem_range, ← length_segments h.consecutive]
  exact h.lt_of_mem_ids hi

theorem nodup_files (i : Nat) : (v.files i).ids.Nodup := by
  by_cases hi : i < v.ref.segments.length
  · obtain ⟨ref, seg, hslot⟩ := h.exists_slot hi
    exact nodup_ids (h.segment _ _ _ hslot).nodup (h.segment _ _ _ hslot).keys
  · rw [h.ids_unused (Nat.le_of_not_lt hi)]
    exact nodup_nil

theorem nodup_ids : v.ids.Nodup := by
  rw [ids_eq h.consecutive, nodup_flatMap]
  refine ⟨fun i _ => h.nodup_files i, nodup_range.imp fun {i j} hij id hi hj => ?_⟩
  exact h.disjoint i j hij id hi hj

theorem sum_counts :
    (v.ref.segments.map VectorSegment.count).sum = v.ids.length := by
  rw [IvfPqIndex.ids, length_flatMap]
  refine congrArg List.sum (map_congr_left fun ref href => ?_)
  obtain ⟨i, hi⟩ := mem_iff_getElem?.1 href
  obtain ⟨hlt, -⟩ := List.getElem?_eq_some_iff.1 hi
  obtain ⟨r, seg, hslot⟩ := h.exists_slot hlt
  cases hi.symm.trans hslot.ref
  rw [h.id_eq hslot, (h.segment _ _ _ hslot).count]
  exact (length_map _).symm

theorem segmentIds_eq (pos : Nat) : v.segmentIds pos = (v.files pos).ids := by
  rw [IvfPqIndex.segmentIds]
  split
  · next ref href => rw [(consecutive_iff.1 h.consecutive).1 pos ref href]
  · next hnone => rw [h.ids_unused (List.getElem?_eq_none_iff.1 hnone)]

theorem unique_segment {id : Int} (hid : id ∈ v.ids) :
    ∃! pos, id ∈ v.segmentIds pos := by
  simp only [h.segmentIds_eq]
  obtain ⟨i, hi⟩ := h.mem_ids.1 hid
  refine ⟨i, hi, fun j hj => ?_⟩
  by_contra hne
  exact h.disjoint j i hne id hj hi

theorem of_saved (saved : VecIndexMeta) : ContentInv { v with saved } :=
  ⟨h.consecutive, h.loaded, fun pos ref seg hslot => h.segment pos ref seg ⟨hslot.ref, hslot.seg⟩,
    h.current, h.disjoint, h.unused⟩

theorem setCount : ContentInv v.setCount :=
  ⟨h.consecutive, h.loaded, fun pos ref seg hslot => h.segment pos ref seg ⟨hslot.ref, hslot.seg⟩,
    h.current, h.disjoint, h.unused⟩

theorem batch (b : VecBatch) (hids : ReadBack (b.addIds ++ b.deleteIds))
    (hnew : ∀ id ∈ b.addIds, id ∉ v.ids ∨ id ∈ b.deleteIds) :
    ∃ v', v.call threshold (.batch b) = (v', true) ∧ ContentInv v' ∧ v'.ref.count = v'.ids.length ∧
      ∀ id, id ∈ v'.ids ↔ (id ∈ v.ids ∧ id ∉ b.deleteIds) ∨ id ∈ b.addIds := by
  obtain ⟨v₁, hdel, hinv₁, hframe, hmem₁⟩ := h.processDel threshold b
    fun id hid => hids id (mem_append_right _ hid)
  have hnew₁ : ∀ id ∈ b.addIds, ∀ j, id ∉ (v₁.files j).ids := by
    intro id hid j hj
    obtain ⟨hstored, hdel⟩ := (hmem₁ j id).1 hj
    exact (hnew id hid).elim (fun hnot => hnot (h.mem_ids.2 ⟨j, hstored⟩)) hdel
  obtain ⟨v₂, hadd, hinv₂, hmem₂⟩ := hinv₁.processAdd threshold
    (fun id hid => hids id (mem_append_left _ hid)) hnew₁
  rw [hframe.current] at hadd
  have hcount : StepsRun threshold [.setCount] v₂ v₂.setCount := .cons rfl (.nil _)
  refine ⟨v₂.setCount, (hdel.append hadd).append hcount, hinv₂.setCount,
    hinv₂.setCount.sum_counts, fun id => ?_⟩
  rw [hinv₂.setCount.mem_ids, h.mem_ids]
  show (∃ i, id ∈ (v₂.files i).ids) ↔ _
  rw [hmem₂]
  refine or_congr_left ?_
  simp only [hmem₁, exists_and_right]

end ContentInv

/-! ## Sealing and searching -/

structure SegmentQuiet (pos : Nat) (v v' : IvfPqIndex) : Prop where
  inv : ContentInv v'
  current : v'.ref.currentSegmentId = v.ref.currentSegmentId
  count : v'.ref.count = v.ref.count
  ids : ∀ i, (v'.files i).ids = (v.files i).ids
  others : ∀ i ref seg, i ≠ pos → SegmentSlot v i ref seg → SegmentSlot v' i ref seg

variable (threshold)

namespace ContentInv

theorem quiet_change (h : ContentInv v) (hslot : SegmentSlot v pos ref seg) (hid : ref'.id = ref.id)
    (hok : SegmentOk f ref' (some loaded)) (hids : f.ids = (v.files pos).ids)
    (hstatus : pos = v.ref.currentSegmentId → ref'.status = .growing) :
    SegmentQuiet pos v (v.change pos ref' (some loaded) f) where
  inv := h.change hslot hid hstatus (fun j hj => hids ▸ h.disjoint pos j hj.symm) hok
  current := rfl
  count := rfl
  ids i := by
    by_cases hi : i = pos
    · rw [hi, files_change, hids]
    · rw [files_change_of_ne hi]
  others i r s hi := (slot_change_of_ne hi).2

theorem getVecCaches_eq (h : ContentInv v) (hslot : SegmentSlot v pos ref (some loaded)) :
    v.getVecCaches pos = some (v.change pos ref
      (some { loaded with ids := some (v.files pos).ids }) (v.files pos), (v.files pos).ids) := by
  have hids : loaded.ids.getD (v.files pos).ids = (v.files pos).ids := by
    cases hcached : loaded.ids with
    | none => rfl
    | some ids => exact ((h.segment pos ref _ hslot).cached loaded ids rfl hcached).1
  rw [IvfPqIndex.getVecCaches, hslot.segment]
  simp only [bind_eq_bind, bind_some, h.id_eq hslot, hids, setSegment_eq hslot]
  rfl

variable (hslot : SegmentSlot v pos ref (some loaded)) (hstatus : ref.status = .growing)
include hslot hstatus

theorem quiet_cached (h : ContentInv v) (index : Option (List Int)) :
    SegmentQuiet pos v (v.change pos ref (some { ids := some (v.files pos).ids, index })
      (v.files pos)) := by
  have hok := h.segment pos ref _ hslot
  exact h.quiet_change hslot rfl (segmentOk_growing hok.nodup hok.keys hok.count hstatus
    fun ids hids => (Option.some.inj hids).symm) rfl fun _ => hstatus

theorem quiet_getVecCaches (h : ContentInv v) :
    SegmentQuiet pos v (v.exec threshold (.getVecCaches pos)).1 := by
  rw [exec, h.getVecCaches_eq hslot]
  exact h.quiet_cached hslot hstatus _

theorem quiet_buildIndex (h : ContentInv v) (hpos : pos ≠ v.ref.currentSegmentId)
    (result : SealResult) : SegmentQuiet pos v (v.exec threshold (.buildIndex pos result)).1 := by
  have hok := h.segment pos ref _ hslot
  have hslot' : SegmentSlot (v.change pos ref (some { loaded with ids := some (v.files pos).ids })
    (v.files pos)) pos ref _ := hslot.change
  simp only [exec, h.getVecCaches_eq hslot, IvfPqIndex.buildIndex, hslot'.segment]
  split
  · exact h.quiet_cached hslot hstatus _
  · cases result with
    | factory => exact h.quiet_cached hslot hstatus _
    | file =>
      simp only [setSegment_eq hslot', change_change, files_change]
      exact h.quiet_cached hslot hstatus _
    | built =>
      simp only [setSegment_eq hslot', change_change, files_change, setRef_eq hslot.change,
        h.id_eq hslot, setFiles_eq hslot.change]
      exact h.quiet_change hslot (h.id_eq hslot).symm
        (segmentOk_sealed hok.nodup hok.keys hok.count rfl rfl rfl (.refl _)) rfl
        fun heq => absurd heq hpos

end ContentInv

structure SameDocuments (v v' : IvfPqIndex) : Prop where
  inv : ContentInv v'
  count : v'.ref.count = v.ref.count
  ids : ∀ i, (v'.files i).ids = (v.files i).ids

theorem SegmentQuiet.of_saved (h : SegmentQuiet pos v v') (saved : VecIndexMeta) :
    SegmentQuiet pos v { v' with saved } where
  inv := h.inv.of_saved saved
  current := h.current
  count := h.count
  ids := h.ids
  others i r s hi hs := ⟨(h.others i r s hi hs).ref, (h.others i r s hi hs).seg⟩

section Each

variable {g : Nat → List VecStep} (good : Nat → Prop) {cur : Nat}
  (hg : ∀ v pos ref s, ContentInv v → v.ref.currentSegmentId = cur → good pos →
    SegmentSlot v pos ref (some s) → ref.status = .growing →
    SegmentQuiet pos v (runSteps threshold (g pos) v).1)
  {qs ps : List Nat} (hnodup : ps.Nodup) (h : ContentInv v) (hcur : v.ref.currentSegmentId = cur)
include hg hnodup h hcur

theorem unchanged_each
    (hps : ∀ p ∈ ps, good p ∧ ∃ ref s, SegmentSlot v p ref (some s) ∧ ref.status = .growing) :
    SameDocuments v (runSteps threshold (ps.flatMap g) v).1 := by
  induction ps generalizing v with
  | nil => exact ⟨h, rfl, fun i => rfl⟩
  | cons p ps ih =>
    obtain ⟨hgood, ref, s, hslot, hstatus⟩ := hps p mem_cons_self
    have hquiet := hg v p ref s h hcur hgood hslot hstatus
    rw [flatMap_cons, runSteps_append]
    split
    · have hps' : ∀ q ∈ ps, good q ∧ ∃ ref s,
          SegmentSlot (runSteps threshold (g p) v).1 q ref (some s) ∧ ref.status = .growing := by
        intro q hq
        obtain ⟨hgood, ref, s, hslot, hstatus⟩ := hps q (mem_cons_of_mem _ hq)
        have hne : q ≠ p := fun heq => (nodup_cons.1 hnodup).1 (heq ▸ hq)
        exact ⟨hgood, ref, s, hquiet.others q ref _ hne hslot, hstatus⟩
      have hrest := ih (nodup_cons.1 hnodup).2 hquiet.inv (hquiet.current.trans hcur) hps'
      exact ⟨hrest.inv, hrest.count.trans hquiet.count, fun i => (hrest.ids i).trans (hquiet.ids i)⟩
    · exact ⟨hquiet.inv, hquiet.count, hquiet.ids⟩

theorem unchanged_loads (hqs : ∀ q ∈ qs, q < v.ref.segments.length)
    (hps : ∀ p ∈ ps, p ∈ qs ∧ good p ∧
      ∃ ref, v.ref.segments[p]? = some ref ∧ ref.status = .growing) :
    SameDocuments v (runSteps threshold (qs.map .load ++ ps.flatMap g) v).1 := by
  obtain ⟨v₁, hload, hinv, -, href, hfiles, hloaded⟩ := h.loads threshold qs hqs
  have hps' : ∀ p ∈ ps, good p ∧
      ∃ ref s, SegmentSlot v₁ p ref (some s) ∧ ref.status = .growing := by
    intro p hp
    obtain ⟨hmem, hgood, ref, hpos, hstatus⟩ := hps p hp
    obtain ⟨s, hs⟩ := hloaded p hmem
    exact ⟨hgood, ref, s, ⟨href.symm ▸ hpos, hs⟩, hstatus⟩
  have hrun := unchanged_each threshold good hg hnodup hinv
    ((congrArg VecIndexMeta.currentSegmentId href).trans hcur) hps'
  rw [runSteps_append, hload]
  exact ⟨hrun.inv, hrun.count.trans (congrArg VecIndexMeta.count href),
    fun i => (hrun.ids i).trans (by rw [hfiles])⟩

end Each

namespace ContentInv

theorem sealSeg (h : ContentInv v) (result : Nat → SealResult) :
    SameDocuments v (v.call threshold (.sealSeg result)).1 := by
  have hneed : ∀ p ∈ v.needSealSegIds threshold, p ≠ v.ref.currentSegmentId ∧
      ∃ ref, v.ref.segments[p]? = some ref ∧ ref.status = .growing := by
    intro p hp
    obtain ⟨ref, href, rfl⟩ := mem_map.1 hp
    obtain ⟨hmem, hcond⟩ := mem_filter.1 href
    obtain ⟨hstatus, hcurrent, -⟩ := of_decide_eq_true hcond
    obtain ⟨i, hi⟩ := mem_iff_getElem?.1 hmem
    have hid : ref.id = i := (consecutive_iff.1 h.consecutive).1 i ref hi
    exact ⟨hcurrent, ref, hid ▸ hi, hstatus⟩
  have hnodup : (v.needSealSegIds threshold).Nodup := by
    have hrange : (v.ref.segments.map VectorSegment.id).Nodup := by
      rw [h.consecutive]
      exact nodup_range
    exact hrange.sublist (filter_sublist.map _)
  refine unchanged_loads threshold (fun p => p ≠ v.ref.currentSegmentId) ?_ hnodup h rfl
    (fun q hq => ?_) fun p hp => ⟨hp, hneed p hp⟩
  · intro w pos ref s hinv hcur hpos hslot hstatus
    have hquiet := hinv.quiet_buildIndex threshold hslot hstatus (hcur ▸ hpos) (result pos)
    rw [runSteps]
    split
    · exact hquiet.of_saved _
    · exact hquiet
  · obtain ⟨-, ref, href, -⟩ := hneed q hq
    exact (List.getElem?_eq_some_iff.1 href).1

theorem search (h : ContentInv v) : SameDocuments v (v.call threshold .search).1 := by
  have hsteps : v.steps threshold .search = (List.range v.ref.segments.length).map .load ++
      ((v.ref.segments.zipIdx.filter fun x => x.1.status = .growing).map Prod.snd).flatMap
        fun pos => [.getVecCaches pos] := by
    rw [IvfPqIndex.steps, IvfPqIndex.loadAllSegments, ← map_eq_flatMap, map_map]
    rfl
  rw [IvfPqIndex.call, hsteps]
  refine unchanged_loads threshold (fun _ => True) ?_ ?_ h rfl (fun q hq => mem_range.1 hq)
    fun p hp => ?_
  · intro w pos ref s hinv _ _ hslot hstatus
    have hquiet := hinv.quiet_getVecCaches threshold hslot hstatus
    rw [runSteps]
    split <;> exact hquiet
  · have hrange : (v.ref.segments.zipIdx.map Prod.snd).Nodup := by
      rw [zipIdx_map_snd]
      exact nodup_range'
    exact hrange.sublist (filter_sublist.map _)
  · obtain ⟨⟨ref, pos⟩, hx, rfl⟩ := mem_map.1 hp
    obtain ⟨hmem, hstatus⟩ := mem_filter.1 hx
    have hpos := mem_zipIdx_iff_getElem?.1 hmem
    exact ⟨mem_range.2 (List.getElem?_eq_some_iff.1 hpos).1, trivial, ref, hpos,
      of_decide_eq_true hstatus⟩

end ContentInv

namespace IvfPqContentLemmas

theorem perm_ids (h : ContentInv v) (hunchanged : SameDocuments v v') : v'.ids.Perm v.ids := by
  refine (perm_ext_iff_of_nodup hunchanged.inv.nodup_ids h.nodup_ids).2 fun id => ?_
  rw [hunchanged.inv.mem_ids, h.mem_ids]
  simp only [hunchanged.ids]

theorem call_content (h : ContentInv v) (hcount : v.ref.count = v.ids.length) (hadds : v.AddsNew c)
    (hids : c.NotNegative) :
    (∀ b, c = .batch b → (v.call threshold c).2 = true) ∧ ContentInv (v.call threshold c).1 ∧
      (v.call threshold c).1.content = c.apply v.content ∧
      (v.call threshold c).1.ref.count = (v.call threshold c).1.ids.length := by
  have hkeep : ∀ w, SameDocuments v w → ContentInv w ∧ w.content = v.content ∧
      w.ref.count = w.ids.length := fun w hw =>
    ⟨hw.inv, toFinset_eq_of_perm _ _ (perm_ids h hw),
      (hw.count.trans hcount).trans (perm_ids h hw).length_eq.symm⟩
  cases c with
  | batch b =>
    have hread : ReadBack (b.addIds ++ b.deleteIds) :=
      fun id hid => Base62.decode_encode (hids id hid).1 (hids id hid).2
    obtain ⟨v', hcall, hinv, hcount', hmem⟩ := h.batch threshold b hread fun id hid =>
      (hadds id hid).imp_left fun hnot hin => hnot (mem_toFinset.2 hin)
    rw [hcall]
    refine ⟨fun _ _ => rfl, hinv, ?_, hcount'⟩
    ext id
    simp only [content, VecCall.apply, mem_toFinset, Finset.mem_union, Finset.mem_sdiff]
    exact hmem id
  | sealSeg result => exact ⟨nofun, hkeep _ (h.sealSeg threshold result)⟩
  | search => exact ⟨nofun, hkeep _ (h.search threshold)⟩

theorem contentInv_new : ContentInv { segments := [none] } where
  consecutive := rfl
  loaded := rfl
  segment pos ref seg hslot := by
    obtain ⟨href, hseg⟩ := hslot
    obtain rfl : pos = 0 := by
      obtain ⟨hlt, -⟩ := List.getElem?_eq_some_iff.1 href
      exact Nat.lt_one_iff.1 hlt
    cases href
    cases hseg
    exact ⟨nodup_nil, nofun, rfl, nofun, nofun, nofun⟩
  current ref href := by
    cases href
    rfl
  disjoint := nofun
  unused i _ := rfl

theorem reached_content
    (h : IvfPqIndex.Reached threshold (fun v c => v.AddsNew c ∧ c.NotNegative) v) :
    ContentInv v ∧ v.ref.count = v.ids.length := by
  induction h with
  | new => exact ⟨contentInv_new, rfl⟩
  | call c _ hok ih =>
    obtain ⟨-, hinv, -, hcount⟩ := call_content threshold ih.1 ih.2 hok.1 hok.2
    exact ⟨hinv, hcount⟩

end IvfPqContentLemmas

end

/-! ## Main results -/

/-- In every run whose calls add ids that are not stored, or that they delete, and whose ids are
not negative, a call does to the stored ids what it does to the abstract index, each id is in one
segment, and the recorded count is the number of ids. -/
theorem content_follows_calls {threshold : Int} {v : IvfPqIndex} {c : VecCall}
    (hrun : IvfPqIndex.Reached threshold (fun v c => v.AddsNew c ∧ c.NotNegative) v)
    (hadds : v.AddsNew c) (hids : c.NotNegative) :
    (∀ b, c = .batch b → (v.call threshold c).2 = true) ∧
      (v.call threshold c).1.content = c.apply v.content ∧
      (∀ id ∈ (v.call threshold c).1.content, ∃! pos, id ∈ (v.call threshold c).1.segmentIds pos) ∧
      (v.call threshold c).1.ref.count = (v.call threshold c).1.content.card := by
  obtain ⟨hinv, hcount⟩ := reached_content threshold hrun
  obtain ⟨hok, hinv', hcontent, hcount'⟩ := call_content threshold hinv hcount hadds hids
  refine ⟨hok, hcontent, fun id hid => hinv'.unique_segment (mem_toFinset.1 hid), ?_⟩
  rw [hcount', content, toFinset_card_of_nodup hinv'.nodup_ids]

namespace IvfPqContentLemmas

def batchOf (addIds deleteIds : List Int) : VecCall :=
  .batch ⟨addIds, deleteIds, ⟨fun l => l, .refl⟩⟩

def sealedOnce : IvfPqIndex :=
  ((((({ segments := [none] } : IvfPqIndex).call 2 (batchOf [5, 7] [])).1.call 2
    (batchOf [9] [])).1.call 2 (.sealSeg fun _ => .built))).1

theorem reached_sealedOnce :
    IvfPqIndex.Reached 2 (fun v c => v.AddsNew c ∧ c.NotNegative) sealedOnce :=
  .call _ (.call _ (.call _ .new ⟨by decide +kernel, by decide +kernel⟩)
    ⟨by decide +kernel, by decide +kernel⟩) ⟨trivial, trivial⟩

end IvfPqContentLemmas

theorem content_follows_calls_sealed :
    sealedOnce.ref.segments.map VectorSegment.status = [.sealed, .growing] ∧
      sealedOnce.content = {5, 7, 9} ∧
      (sealedOnce.call 2 (batchOf [5, 11] [5])).1.content = {5, 7, 9, 11} ∧
      (sealedOnce.call 2 (batchOf [5, 11] [5])).1.ref.count = 4 := by
  have hadds : sealedOnce.AddsNew (batchOf [5, 11] [5]) := by decide +kernel
  have hids : (batchOf [5, 11] [5]).NotNegative := by decide +kernel
  obtain ⟨-, hcontent, -, hcount⟩ := content_follows_calls reached_sealedOnce hadds hids
  have happly : (batchOf [5, 11] [5]).apply sealedOnce.content = {5, 7, 9, 11} := by decide +kernel
  rw [hcontent] at hcount
  refine ⟨by decide +kernel, by decide +kernel, hcontent.trans happly, ?_⟩
  rw [hcount, happly]
  rfl

/-- The key of the id -5 is empty, and it is read as 0. -/
theorem negative_id_read_as_zero :
    let v : IvfPqIndex := { segments := [none] }
    v.AddsNew (batchOf [-5] []) ∧ (batchOf [-5] []).apply v.content = {-5} ∧
      (v.call 1 (batchOf [-5] [])).1.content = {0} := by
  refine ⟨?_, ?_, ?_⟩ <;> decide +kernel

end SeaSearch
