import SeaSearch.Vector.IvfPqContent

/-!
# The segment list of an IVFPQ index

The list of segments and the id of the current segment are kept in the metadata. A new segment is
recorded in memory at once and in the storage when the metadata is saved the next time.
-/

namespace SeaSearch

open List IvfPqLemmas
open VecIndexMeta (addStored unrecorded)
open Option (bind_eq_some_iff)

/-- An index in a process. `todo` has the remaining steps of the call that is running. -/
structure IvfPqSystem where
  index : IvfPqIndex := {}
  opened : Bool := false
  todo : List VecStep := []

/-- What can happen:
* `call`, `step`: a call begins, and its next step;
* `saveMeta`: the metadata is saved by another part of the program;
* `free`: the index is closed, its metadata stays in memory;
* `restart`: the memory is lost, and the saved metadata is read;
* `reopen`: `MakeVecIndex`. -/
inductive IvfPqEvent
  | call (c : VecCall)
  | step
  | saveMeta
  | free
  | restart
  | reopen (listing : SegmentListing)

namespace IvfPqSystem

def step (threshold : Int) (s : IvfPqSystem) : IvfPqEvent → IvfPqSystem
  | .call c =>
    if s.opened ∧ s.todo = [] then { s with todo := s.index.steps threshold c } else s
  | .step =>
    match s.todo with
    | [] => s
    | step :: todo =>
      { s with
        index := (s.index.exec threshold step).1
        todo := if (s.index.exec threshold step).2 then todo else [] }
  | .saveMeta => { s with index := { s.index with saved := s.index.ref } }
  | .free =>
    if s.todo = [] then { s with index := { s.index with segments := [] }, opened := false } else s
  | .restart => { index := { s.index with ref := s.index.saved, segments := [] } }
  | .reopen listing =>
    if s.opened then s
    else
      { s with
        index := (s.index.makeVecIndex listing).1
        opened := (s.index.makeVecIndex listing).2 = none }

def run (threshold : Int) (events : List IvfPqEvent) : IvfPqSystem :=
  events.foldl (step threshold) {}

structure Recorded (s : IvfPqSystem) : Prop where
  ids : ∀ (i : Nat) (seg : VectorSegment), s.index.ref.segments[i]? = some seg → seg.id = i
  current : s.index.ref.segments.getLast?.map VectorSegment.id = some s.index.ref.currentSegmentId
  loaded : s.opened = true → s.index.segments.length = s.index.ref.segments.length

/-- `checkStoredSegments` finds more segments than are recorded, and it can read the first one that
is not. -/
def Repairs (s : IvfPqSystem) (listing : SegmentListing) : Prop :=
  s.opened = false ∧ ∃ ids, listing.ids = some ids ∧ s.index.ref.corrupted ids = false ∧
    s.index.ref.segments.length < ids.length ∧
    (listing.count (s.index.ref.currentSegmentId + 1)).isSome

end IvfPqSystem

open IvfPqSystem (run)

namespace IvfPqRestartLemmas

variable {ref : VecIndexMeta} {v v' : IvfPqIndex} {threshold : Int} {listing : SegmentListing}
  {pos : Nat} {ids : List Int}

structure SameList (v v' : IvfPqIndex) : Prop where
  ids : v'.ref.segments.map VectorSegment.id = v.ref.segments.map VectorSegment.id
  current : v'.ref.currentSegmentId = v.ref.currentSegmentId
  length : v'.segments.length = v.segments.length
  saved : v'.saved = v.saved

theorem SameList.refl (v : IvfPqIndex) : SameList v v := ⟨rfl, rfl, rfl, rfl⟩

theorem SameList.trans {w : IvfPqIndex} (h : SameList v v') (h' : SameList v' w) : SameList v w :=
  ⟨h'.ids.trans h.ids, h'.current.trans h.current, h'.length.trans h.length, h'.saved.trans h.saved⟩

theorem sameList_setSegment (v : IvfPqIndex) (pos : Nat) (seg : IVFPQSegment) :
    SameList v (v.setSegment pos seg) :=
  ⟨rfl, rfl, length_set, rfl⟩

theorem sameList_setFiles (v : IvfPqIndex) (id : Nat) (f : SegmentFiles) :
    SameList v (v.setFiles id f) :=
  ⟨rfl, rfl, rfl, rfl⟩

theorem sameList_setRef (hpos : v.ref.segments[pos]? = some seg) (hid : seg'.id = seg.id) :
    SameList v (v.setRef pos seg') := by
  refine ⟨?_, rfl, rfl, rfl⟩
  obtain ⟨hlt, rfl⟩ := List.getElem?_eq_some_iff.1 hpos
  show (v.ref.segments.set pos seg').map VectorSegment.id = _
  rw [map_set, hid, ← getElem_map VectorSegment.id, set_getElem_self]
  simpa using hlt

theorem sameList_load (h : v.load pos = some v') : SameList v v' := by
  unfold IvfPqIndex.load at h
  split at h
  · cases h
    exact .refl v
  · obtain ⟨seg, -, rfl⟩ := Option.map_eq_some_iff.1 h
    exact sameList_setSegment v pos seg
  · cases h

theorem sameList_removeIDs (h : v.removeIDs pos ids = some v') : SameList v v' := by
  obtain ⟨⟨ref, seg⟩, -, h⟩ := bind_eq_some_iff.1 h
  obtain ⟨seg', -, h⟩ := bind_eq_some_iff.1 h
  cases h
  exact (sameList_setSegment v pos seg').trans (sameList_setFiles _ _ _)

theorem sameList_addVectors (h : v.addVectors pos ids = some v') : SameList v v' := by
  obtain ⟨⟨ref, seg⟩, -, h⟩ := bind_eq_some_iff.1 h
  obtain ⟨-, -, h⟩ := bind_eq_some_iff.1 h
  cases h
  exact sameList_setFiles _ _ _

theorem sameList_save (h : v.save pos = some v') : SameList v v' := by
  obtain ⟨⟨ref, seg⟩, hseg, h⟩ := bind_eq_some_iff.1 h
  have hpos := (segment_some hseg).1
  simp only at h
  split at h
  · cases h
    exact (sameList_setSegment v pos _).trans (sameList_setRef hpos rfl)
  · obtain ⟨index, -, h⟩ := bind_eq_some_iff.1 h
    cases h
    have hset : SameList v (v.setRef pos { ref with count := index.length }) :=
      sameList_setRef hpos rfl
    exact hset.trans (sameList_setFiles _ _ _)

theorem sameList_getVecCaches (h : v.getVecCaches pos = some r) : SameList v r.1 := by
  obtain ⟨⟨ref, seg⟩, -, h⟩ := bind_eq_some_iff.1 h
  cases h
  exact sameList_setSegment v pos _

theorem sameList_buildIndex (v : IvfPqIndex) (pos : Nat) (ids : List Int) (result : SealResult) :
    SameList v (v.buildIndex pos ids result).1 := by
  unfold IvfPqIndex.buildIndex
  split
  · exact .refl v
  · next ref seg hseg =>
    split
    · exact .refl v
    · cases result with
      | factory => exact .refl v
      | file => exact sameList_setSegment v pos _
      | built =>
        have hpos : (v.setSegment pos { index := some ids }).ref.segments[pos]? = some ref :=
          (segment_some hseg).1
        have hset : SameList (v.setSegment pos { index := some ids })
            ((v.setSegment pos { index := some ids }).setRef pos { ref with status := .sealed }) :=
          sameList_setRef hpos rfl
        exact ((sameList_setSegment v pos _).trans hset).trans (sameList_setFiles _ _ _)

inductive ListShape (v v' : IvfPqIndex) : Prop
  | same : SameList v v' → ListShape v v'
  | append : v'.ref.segments = v.ref.segments ++ [{ id := v.ref.currentSegmentId + 1 }] →
      v'.ref.currentSegmentId = v.ref.currentSegmentId + 1 →
      v'.segments = v.segments ++ [none] → v'.saved = v.saved → ListShape v v'
  | saved : v' = { v with saved := v.ref } → ListShape v v'

theorem checkNewSeg_shape (h : v.checkNewSeg threshold pos = some v') : ListShape v v' := by
  obtain ⟨⟨ref, seg⟩, -, h⟩ := bind_eq_some_iff.1 h
  cases h
  split
  · exact .append rfl rfl rfl rfl
  · exact .same (.refl v)

theorem orFail_shape (h : ∀ v', r = some v' → ListShape v v') : ListShape v (v.orFail r).1 := by
  cases r with
  | none => exact .same (.refl v)
  | some v' => exact h v' rfl

theorem exec_shape (v : IvfPqIndex) (step : VecStep) : ListShape v (v.exec threshold step).1 := by
  cases step with
  | load pos => exact orFail_shape fun v' h => .same (sameList_load h)
  | removeIDs pos ids => exact orFail_shape fun v' h => .same (sameList_removeIDs h)
  | addVectors pos ids => exact orFail_shape fun v' h => .same (sameList_addVectors h)
  | save pos => exact orFail_shape fun v' h => .same (sameList_save h)
  | checkNewSeg pos => exact orFail_shape fun v' h => checkNewSeg_shape h
  | setCount => exact .same ⟨rfl, rfl, rfl, rfl⟩
  | getVecCaches pos =>
    refine orFail_shape fun v' h => .same ?_
    obtain ⟨r, hr, rfl⟩ := Option.map_eq_some_iff.1 h
    exact sameList_getVecCaches hr
  | buildIndex pos result =>
    rw [IvfPqIndex.exec]
    split
    · exact .same (.refl v)
    · next v' ids hr =>
      exact .same ((sameList_getVecCaches hr).trans (sameList_buildIndex v' pos ids result))
  | saveVecIndexMeta => exact .saved rfl

theorem addStored_current (count : Nat → Option Nat) (ref : VecIndexMeta) (ids : List Nat) :
    (addStored count ref ids).1.currentSegmentId = ref.currentSegmentId := by
  induction ids generalizing ref with
  | nil => rfl
  | cons id ids ih =>
    rw [addStored]
    split
    · rfl
    · exact ih _

theorem le_length_addStored (count : Nat → Option Nat) (ref : VecIndexMeta) (ids : List Nat) :
    ref.segments.length ≤ (addStored count ref ids).1.segments.length := by
  induction ids generalizing ref with
  | nil => exact le_rfl
  | cons id ids ih =>
    rw [addStored]
    split
    · exact le_rfl
    · exact le_trans (by simp) (ih _)

theorem makeVecIndex_eq (v : IvfPqIndex) (listing : SegmentListing) :
    (v.makeVecIndex listing).1.ref = (v.checkStoredSegments listing).1.ref ∧
      (v.makeVecIndex listing).1.saved = (v.checkStoredSegments listing).1.saved ∧
      ((v.makeVecIndex listing).2 = none → (v.makeVecIndex listing).1.segments.length =
        (v.checkStoredSegments listing).1.ref.segments.length) := by
  rw [IvfPqIndex.makeVecIndex]
  generalize v.checkStoredSegments listing = r
  obtain ⟨v', e⟩ := r
  cases e with
  | some e => exact ⟨rfl, rfl, nofun⟩
  | none => exact ⟨rfl, rfl, fun _ => length_replicate⟩

inductive CheckShape (v : IvfPqIndex) (listing : SegmentListing) :
    IvfPqIndex × Option VecIndexError → Prop
  | list : listing.ids = none → CheckShape v listing (v, some .list)
  | corrupted {ids : List Int} : listing.ids = some ids → v.ref.corrupted ids = true →
      CheckShape v listing (v, some .corruption)
  | matched {ids : List Int} : listing.ids = some ids → v.ref.corrupted ids = false →
      ids.length = v.ref.segments.length → CheckShape v listing (v, none)
  | failed {ids : List Int} {ref : VecIndexMeta} {e : VecIndexError} : listing.ids = some ids →
      v.ref.corrupted ids = false → ids.length ≠ v.ref.segments.length →
      addStored listing.count v.ref (v.ref.unrecorded ids) = (ref, some e) →
      CheckShape v listing ({ v with ref }, some e)
  | unsaved {ids : List Int} {ref : VecIndexMeta} : listing.ids = some ids →
      v.ref.corrupted ids = false → ids.length ≠ v.ref.segments.length →
      addStored listing.count v.ref (v.ref.unrecorded ids) = (ref, none) →
      listing.saves = false → CheckShape v listing ({ v with ref }, some .save)
  | saved {ids : List Int} {ref : VecIndexMeta} : listing.ids = some ids →
      v.ref.corrupted ids = false → ids.length ≠ v.ref.segments.length →
      addStored listing.count v.ref (v.ref.unrecorded ids) = (ref, none) →
      listing.saves = true → CheckShape v listing ({ v with ref, saved := ref }, none)

theorem check_shape (v : IvfPqIndex) (listing : SegmentListing) :
    CheckShape v listing (v.checkStoredSegments listing) := by
  unfold IvfPqIndex.checkStoredSegments
  split
  · next hids => exact .list hids
  · next ids hids =>
    split
    · next hcorrupted => exact .corrupted hids hcorrupted
    · next hcorrupted =>
      have hcorrupted := eq_false_of_ne_true hcorrupted
      split
      · next hlength => exact .matched hids hcorrupted hlength
      · next hlength =>
        split
        · next hadd => exact .failed hids hcorrupted hlength hadd
        · next hadd =>
          split
          · next hsaves => exact .saved hids hcorrupted hlength hadd hsaves
          · next hsaves =>
            exact .unsaved hids hcorrupted hlength hadd (eq_false_of_ne_true hsaves)

theorem ref_checkStoredSegments (hids : listing.ids = some ids)
    (hcorrupted : v.ref.corrupted ids = false) (hlength : ids.length ≠ v.ref.segments.length) :
    (v.checkStoredSegments listing).1.ref =
      (addStored listing.count v.ref (v.ref.unrecorded ids)).1 := by
  simp only [IvfPqIndex.checkStoredSegments, hids, hcorrupted, Bool.false_eq_true, if_false,
    if_neg hlength]
  generalize addStored listing.count v.ref (v.ref.unrecorded ids) = r
  obtain ⟨ref, e⟩ := r
  cases e with
  | some e => rfl
  | none => cases listing.saves <;> rfl

theorem unrecorded_cons (h : ref.currentSegmentId + 1 < ids.length) :
    ∃ rest, ref.unrecorded ids = (ref.currentSegmentId + 1) :: rest := by
  obtain ⟨n, hn⟩ := Nat.exists_eq_add_of_lt h
  refine ⟨List.range' (ref.currentSegmentId + 1 + 1) n, ?_⟩
  rw [unrecorded, hn, add_assoc, Nat.add_sub_cancel_left, List.range'_succ]

theorem addStored_unchanged {count : Nat → Option Nat} (hcons : ref.Consecutive)
    (hnone : ref.segments.length < ids.length → count (ref.currentSegmentId + 1) = none) :
    ∃ e, addStored count ref (ref.unrecorded ids) = (ref, e) := by
  rw [length_segments hcons] at hnone
  by_cases hlt : ref.currentSegmentId + 1 < ids.length
  · obtain ⟨rest, hrest⟩ := unrecorded_cons hlt
    rw [hrest, addStored, hnone hlt]
    exact ⟨_, rfl⟩
  · rw [unrecorded, Nat.sub_eq_zero_of_le (Nat.le_of_not_lt hlt)]
    exact ⟨_, rfl⟩

theorem checkStoredSegments_unchanged (hcons : v.ref.Consecutive)
    (hnone : ∀ ids, listing.ids = some ids → v.ref.corrupted ids = false →
      v.ref.segments.length < ids.length → listing.count (v.ref.currentSegmentId + 1) = none) :
    (v.checkStoredSegments listing).1.ref = v.ref ∧
      ((v.checkStoredSegments listing).1.saved = v.saved ∨
        (v.checkStoredSegments listing).1.saved = v.ref) := by
  have hshape := check_shape v listing
  have hadded : ∀ {ids ref e}, listing.ids = some ids → v.ref.corrupted ids = false →
      addStored listing.count v.ref (v.ref.unrecorded ids) = (ref, e) →
      ref = v.ref := by
    intro ids ref e hids hcorrupted hadd
    obtain ⟨e', he'⟩ := addStored_unchanged hcons (hnone ids hids hcorrupted)
    exact (Prod.mk.inj (hadd.symm.trans he')).1
  generalize v.checkStoredSegments listing = r at hshape ⊢
  cases hshape with
  | list | corrupted | matched => exact ⟨rfl, .inl rfl⟩
  | failed hids hcorrupted _ hadd | unsaved hids hcorrupted _ hadd =>
    exact ⟨hadded hids hcorrupted hadd, .inl rfl⟩
  | saved hids hcorrupted _ hadd =>
    exact ⟨hadded hids hcorrupted hadd, .inr (hadded hids hcorrupted hadd)⟩

end IvfPqRestartLemmas

open IvfPqRestartLemmas

structure SegmentListInv (s : IvfPqSystem) : Prop where
  ref : s.index.ref.Consecutive
  saved : s.index.saved.Consecutive
  loaded : s.opened = true → s.index.segments.length = s.index.ref.segments.length

namespace SegmentListInv

variable {s : IvfPqSystem} {threshold : Int} {listing : SegmentListing}

theorem recorded (h : SegmentListInv s) : s.Recorded :=
  ⟨(consecutive_iff.1 h.ref).1, (consecutive_iff.1 h.ref).2, h.loaded⟩

theorem shape (h : SegmentListInv s) (hshape : ListShape s.index v) (todo : List VecStep) :
    SegmentListInv { s with index := v, todo } := by
  cases hshape with
  | same hsame =>
    have hlen : v.ref.segments.length = s.index.ref.segments.length := by
      simpa using congrArg List.length hsame.ids
    refine ⟨?_, hsame.saved ▸ h.saved, fun hopened => ?_⟩
    · rw [VecIndexMeta.Consecutive, hsame.ids, hsame.current]
      exact h.ref
    · rw [hsame.length, hlen, h.loaded hopened]
  | append hsegments hcurrent hloaded hsaved =>
    refine ⟨?_, hsaved ▸ h.saved, fun hopened => ?_⟩
    · rw [VecIndexMeta.Consecutive, hsegments, hcurrent, map_append, h.ref, range_succ (n := _ + 1)]
      rfl
    · rw [hsegments, hloaded, length_append, length_append, h.loaded hopened]
      rfl
  | saved hv =>
    subst hv
    exact ⟨h.ref, h.ref, h.loaded⟩

theorem reopen (h : SegmentListInv s) (hnot : ¬ s.Repairs listing) :
    SegmentListInv (s.step threshold (.reopen listing)) := by
  rw [IvfPqSystem.step]
  split
  · exact h
  · next hopened =>
    have hnone : ∀ ids, listing.ids = some ids → s.index.ref.corrupted ids = false →
        s.index.ref.segments.length < ids.length →
        listing.count (s.index.ref.currentSegmentId + 1) = none := by
      intro ids hids hcorrupted hlt
      refine Option.not_isSome_iff_eq_none.1 fun hsome => hnot ?_
      exact ⟨by simpa using hopened, ids, hids, hcorrupted, hlt, hsome⟩
    obtain ⟨href, hsaved⟩ := checkStoredSegments_unchanged h.ref hnone
    obtain ⟨href', hsaved', hlen⟩ := makeVecIndex_eq s.index listing
    refine ⟨(href'.trans href).symm ▸ h.ref, ?_, fun hok => ?_⟩
    · rcases hsaved with hsaved | hsaved
      · exact (hsaved'.trans hsaved).symm ▸ h.saved
      · exact (hsaved'.trans hsaved).symm ▸ h.ref
    · rw [hlen (of_decide_eq_true hok), ← href']

theorem step (h : SegmentListInv s) {e : IvfPqEvent}
    (hnot : ∀ listing, e = .reopen listing → ¬ s.Repairs listing) :
    SegmentListInv (s.step threshold e) := by
  cases e with
  | call c =>
    rw [IvfPqSystem.step]
    split
    · exact ⟨h.ref, h.saved, h.loaded⟩
    · exact h
  | step =>
    rw [IvfPqSystem.step]
    split
    · exact h
    · exact h.shape (exec_shape _ _) _
  | saveMeta => exact ⟨h.ref, h.ref, h.loaded⟩
  | free =>
    rw [IvfPqSystem.step]
    split
    · exact ⟨h.ref, h.saved, nofun⟩
    · exact h
  | restart => exact ⟨h.saved, h.saved, nofun⟩
  | reopen listing => exact h.reopen (hnot listing rfl)

theorem init : SegmentListInv {} := ⟨rfl, rfl, nofun⟩

end SegmentListInv

namespace IvfPqRestartLemmas

theorem not_recorded_of_repairs {s : IvfPqSystem} {listing : SegmentListing} (threshold : Int)
    (h : s.Recorded) (hrepairs : s.Repairs listing) :
    ¬ (s.step threshold (.reopen listing)).Recorded := by
  obtain ⟨hopened, ids, hids, hcorrupted, hlt, hsome⟩ := hrepairs
  obtain ⟨n, hn⟩ := Option.isSome_iff_exists.1 hsome
  intro hrec
  have hbefore := length_segments (consecutive_iff.2 ⟨h.ids, h.current⟩)
  have hafter := length_segments (consecutive_iff.2 ⟨hrec.ids, hrec.current⟩)
  have hmore : s.index.ref.currentSegmentId + 1 < ids.length := hbefore ▸ hlt
  obtain ⟨rest, hrest⟩ := unrecorded_cons hmore
  have href : (s.step threshold (.reopen listing)).index.ref =
      (addStored listing.count s.index.ref (s.index.ref.unrecorded ids)).1 := by
    rw [IvfPqSystem.step, hopened]
    exact (makeVecIndex_eq s.index listing).1.trans
      (ref_checkStoredSegments hids hcorrupted hlt.ne')
  rw [href, addStored_current, ← hbefore, hrest, addStored, hn] at hafter
  have hle := le_length_addStored listing.count { s.index.ref with
    segments := s.index.ref.segments ++
      [{ id := s.index.ref.currentSegmentId + 1, count := n }] } rest
  rw [hafter, length_append] at hle
  exact Nat.not_succ_le_self _ hle

end IvfPqRestartLemmas

/-- The segment list is right in every state of a run if and only if no opening of the index in
it finds and can read a segment that is not recorded. -/
theorem segment_list_iff (threshold : Int) (events : List IvfPqEvent) :
    (∀ pre, pre <+: events → (run threshold pre).Recorded) ↔
      ∀ pre listing, pre ++ [.reopen listing] <+: events →
        ¬ (run threshold pre).Repairs listing := by
  constructor
  · intro hall pre listing hpre hrepairs
    have hbefore := hall pre ((prefix_append _ _).trans hpre)
    have hafter := hall _ hpre
    rw [run, foldl_append] at hafter
    exact not_recorded_of_repairs threshold hbefore hrepairs hafter
  · intro hnot pre hpre
    suffices hinv : SegmentListInv (run threshold pre) from hinv.recorded
    induction pre using List.reverseRecOn with
    | nil => exact .init
    | append_singleton pre e ih =>
      rw [run, foldl_append]
      refine (ih ((prefix_append _ _).trans hpre)).step fun listing he => hnot pre listing ?_
      exact he ▸ hpre

namespace IvfPqRestartLemmas

def stored (v : IvfPqIndex) (n : Nat) : SegmentListing where
  ids := some (((List.range n).filter fun id => (v.files id).storedVec.isSome).map Nat.cast)
  nodup l hl := by
    cases hl
    exact (nodup_range.filter _).map Nat.cast_injective
  count id := (v.files id).storedVec.map List.length
  saves := true

def add (id : Int) : IvfPqEvent := .call (IvfPqContentLemmas.batchOf [id] [])

def crash : List IvfPqEvent :=
  .reopen (stored {} 0) :: add 5 :: List.replicate 5 .step ++ add 7 :: List.replicate 5 .step ++
    [.restart]

end IvfPqRestartLemmas

/-- The segments 0 and 1 are stored, and the metadata has the segment 0. After the index is opened
the segment 1 is the last one and the segment 0 the current one. -/
theorem restart_leaves_old_current :
    let before := run 1 crash
    let after := before.step 1 (.reopen (stored before.index 2))
    (∀ id, (before.index.files id).storedVec.isSome ↔ id < 2) ∧
      after.index.ref.segments.map VectorSegment.id = [0, 1] ∧
      after.index.ref.currentSegmentId = 0 ∧ ¬ after.Recorded := by
  refine ⟨fun id => ?_, by decide +kernel, by decide +kernel, fun h => ?_⟩
  · match id with
    | 0 => decide +kernel
    | 1 => decide +kernel
    | id + 2 =>
      have : ((run 1 crash).index.files (id + 2)).storedVec = none := rfl
      simp [this]
  · have hcurrent := h.current
    revert hcurrent
    decide +kernel

end SeaSearch
