import SeaSearch.Vector.IvfPqRestart
import SeaSearch.Vector.VecStorage

/-!
# Reopening an IVFPQ index

`MakeVecIndex` compares the recorded segments with those that `ListVecSegments` finds in the
storage. A recorded segment that is not found is taken for a corruption, unless it is the current
one, which may not have written anything yet.
-/

namespace SeaSearch

open List IvfPqLemmas IvfPqRestartLemmas VecStorageLemmas
open Option (bind_eq_some_iff map_eq_some_iff)

/-- What `checkStoredSegments` finds in the storage, with the files `keys`. The metadata can be
saved. -/
def VecStorage.listing (t : VecStorage) (pre : Key) (keys : List Key) (count : Nat → Option Nat) :
    SegmentListing where
  ids := t.listVecSegments pre keys
  nodup _ h := nodup_listVecSegments h
  count := count
  saves := true

/-- `MakeVecIndex` succeeds and yields the recorded segments. -/
structure IvfPqIndex.Reopens (v : IvfPqIndex) (listing : SegmentListing) : Prop where
  succeeds : (v.makeVecIndex listing).2 = none
  ref : (v.makeVecIndex listing).1.ref = v.ref
  segments : (v.makeVecIndex listing).1.segments = List.replicate v.ref.segments.length none

/-- The files below a path agree with the metadata:
* `numbers`: each file is in the folder of a segment;
* `recorded`: each recorded segment has a file, except the current one;
* `others`: there are as many segments as are recorded, or at most as many as there are ids up to
  the current one. -/
structure SegmentsFound (t : VecStorage) (pre : Key) (keys : List Key) (ref : VecIndexMeta) :
    Prop where
  numbers : ∀ k ∈ t.segmentFiles pre keys, (t.segmentId k).isSome
  recorded : ∀ seg ∈ ref.segments, seg.id ≠ ref.currentSegmentId →
    ∃ k ∈ t.segmentFiles pre keys, t.segmentId k = some (seg.id : Int)
  others : ((t.segmentFiles pre keys).filterMap t.segmentId).toFinset.card = ref.segments.length ∨
    ((t.segmentFiles pre keys).filterMap t.segmentId).toFinset.card ≤ ref.currentSegmentId + 1

namespace IvfPqReopenLemmas

variable {v : IvfPqIndex} {listing : SegmentListing} {ids : List Int}

theorem corrupted_eq_false {ref : VecIndexMeta} : ref.corrupted ids = false ↔
    ∀ seg ∈ ref.segments, seg.id ≠ ref.currentSegmentId → (seg.id : Int) ∈ ids := by
  simp only [VecIndexMeta.corrupted, any_eq_false, decide_eq_true_eq, not_and, not_not]
  refine forall₂_congr fun seg _ => ?_
  rw [← not_imp_not, not_not]

theorem addStored_changed {count : Nat → Option Nat} {ref ref' : VecIndexMeta}
    (hlt : ref.currentSegmentId + 1 < ids.length)
    (h : VecIndexMeta.addStored count ref (ref.unrecorded ids) = (ref', none)) : ref' ≠ ref := by
  obtain ⟨rest, hrest⟩ := unrecorded_cons hlt
  rw [hrest, VecIndexMeta.addStored] at h
  split at h
  · cases h
  · next n _ =>
    rintro rfl
    have hle := le_length_addStored count { ref' with
      segments := ref'.segments ++ [{ id := ref'.currentSegmentId + 1, count := n }] } rest
    rw [h, length_append] at hle
    exact absurd hle (Nat.not_le.2 (Nat.lt_succ_self _))

theorem reopens_iff_check : v.Reopens listing ↔
    (v.checkStoredSegments listing).2 = none ∧ (v.checkStoredSegments listing).1.ref = v.ref := by
  have hmake := IvfPqIndex.makeVecIndex.eq_1 v listing
  generalize v.checkStoredSegments listing = r at hmake
  obtain ⟨v', e⟩ := r
  constructor
  · rintro ⟨hok, href, -⟩
    rw [hmake] at hok href
    cases e with
    | some e => cases hok
    | none => exact ⟨rfl, href⟩
  · rintro ⟨rfl, href⟩
    have href : v'.ref = v.ref := href
    exact ⟨by rw [hmake], by rw [hmake, href], by rw [hmake, ← href]⟩

theorem reopens_iff (hsaves : listing.saves = true) : v.Reopens listing ↔
    ∃ ids, listing.ids = some ids ∧ v.ref.corrupted ids = false ∧
      (ids.length = v.ref.segments.length ∨ ids.length ≤ v.ref.currentSegmentId + 1) := by
  rw [reopens_iff_check]
  have hshape := check_shape v listing
  generalize v.checkStoredSegments listing = r at hshape ⊢
  constructor
  · rintro ⟨hok, href⟩
    cases hshape with
    | list | corrupted | failed | unsaved => cases hok
    | matched hids hcorrupted hlength => exact ⟨_, hids, hcorrupted, .inl hlength⟩
    | saved hids hcorrupted _ hadd =>
      refine ⟨_, hids, hcorrupted, .inr (Nat.le_of_not_lt fun hlt => ?_)⟩
      exact addStored_changed hlt hadd href
  · rintro ⟨ids, hids, hcorrupted, hlength⟩
    -- there is nothing to append
    have hnone : ids.length ≠ v.ref.segments.length →
        VecIndexMeta.addStored listing.count v.ref (v.ref.unrecorded ids) = (v.ref, none) := by
      intro hne
      rw [VecIndexMeta.unrecorded, Nat.sub_eq_zero_of_le (hlength.resolve_left hne)]
      rfl
    cases hshape with
    | list hids' => cases hids.symm.trans hids'
    | corrupted hids' hcorrupted' =>
      cases hids.symm.trans hids'
      rw [hcorrupted] at hcorrupted'
      cases hcorrupted'
    | matched => exact ⟨rfl, rfl⟩
    | failed hids' _ hne hadd =>
      cases hids.symm.trans hids'
      cases hadd.symm.trans (hnone hne)
    | unsaved _ _ _ _ hsaves' =>
      rw [hsaves] at hsaves'
      cases hsaves'
    | saved hids' _ hne hadd =>
      cases hids.symm.trans hids'
      exact ⟨rfl, (Prod.mk.inj (hadd.symm.trans (hnone hne))).1⟩

theorem files_makeVecIndex (v : IvfPqIndex) (listing : SegmentListing) :
    (v.makeVecIndex listing).1.files = v.files := by
  have hshape := check_shape v listing
  rw [IvfPqIndex.makeVecIndex]
  generalize v.checkStoredSegments listing = r at hshape ⊢
  cases hshape <;> rfl

variable {t : VecStorage} {pre : Key} {keys : List Key}

theorem length_listVecSegments (h : t.listVecSegments pre keys = some ids) :
    ids.length = ((t.segmentFiles pre keys).filterMap t.segmentId).toFinset.card := by
  rw [← toFinset_card_of_nodup (nodup_listVecSegments h)]
  refine congrArg Finset.card (Finset.ext fun id => ?_)
  rw [mem_toFinset, mem_toFinset, mem_filterMap, mem_listVecSegments h]

theorem reopens_listing_iff (count : Nat → Option Nat) :
    v.Reopens (t.listing pre keys count) ↔ SegmentsFound t pre keys v.ref := by
  rw [reopens_iff rfl]
  constructor
  · rintro ⟨ids, hids, hcorrupted, hlength⟩
    have hids : t.listVecSegments pre keys = some ids := hids
    rw [length_listVecSegments hids] at hlength
    refine ⟨isSome_listVecSegments.1 ⟨ids, hids⟩, fun seg hseg hne => ?_, hlength⟩
    exact (mem_listVecSegments hids).1 (corrupted_eq_false.1 hcorrupted seg hseg hne)
  · rintro ⟨hnumbers, hrecorded, hothers⟩
    obtain ⟨ids, hids⟩ := isSome_listVecSegments.2 hnumbers
    refine ⟨ids, hids, corrupted_eq_false.2 fun seg hseg hne => ?_, ?_⟩
    · exact (mem_listVecSegments hids).2 (hrecorded seg hseg hne)
    · rwa [length_listVecSegments hids]

end IvfPqReopenLemmas

open IvfPqReopenLemmas

/-- The indexes that calls reach from an index without vectors. In between the metadata is saved
and the index is closed and opened again. -/
inductive IvfPqIndex.Kept (threshold : Int) : IvfPqIndex → Prop
  | new : Kept threshold { segments := [none] }
  | call {v : IvfPqIndex} (c : VecCall) : Kept threshold v → Kept threshold (v.call threshold c).1
  | reopened {v : IvfPqIndex} (listing : SegmentListing) : Kept threshold v → v.Reopens listing →
      Kept threshold (v.makeVecIndex listing).1

def IvfPqIndex.Written (v : IvfPqIndex) (seg : Nat) : Prop := (v.files seg).storedVec.isSome

structure WrittenInv (cur : Nat) (v : IvfPqIndex) : Prop where
  consecutive : v.ref.Consecutive
  current : v.ref.currentSegmentId = cur
  loaded : v.segments.length = v.ref.segments.length
  before : ∀ seg < cur, v.Written seg
  after : ∀ seg, v.Written seg → seg ≤ cur
  recorded : ∀ ref ∈ v.ref.segments, ref.status = .sealed ∨ 0 < ref.count → v.Written ref.id
  cached : ∀ pos ref s ids, SegmentSlot v pos ref (some s) → s.ids = some ids → ids ≠ [] →
    v.Written ref.id

namespace WrittenInv

variable {threshold : Int} {cur pos : Nat} {v v' : IvfPqIndex} {ref ref' : VectorSegment}
  {s : IVFPQSegment} {f : SegmentFiles}

variable (h : WrittenInv cur v)

include h

section Shared

variable (hpos : v.ref.segments[pos]? = some ref)

include hpos

theorem id_le : ref.id ≤ cur := by
  have hmem : ref.id ∈ v.ref.segments.map VectorSegment.id :=
    mem_map_of_mem (mem_of_getElem? hpos)
  rw [h.consecutive, h.current, mem_range] at hmem
  exact Nat.le_of_lt_succ hmem

theorem setSegment (hs : ∀ ids, s.ids = some ids → ids ≠ [] → v.Written ref.id) :
    WrittenInv cur (v.setSegment pos s) where
  consecutive := h.consecutive
  current := h.current
  loaded := length_set.trans h.loaded
  before := h.before
  after := h.after
  recorded := h.recorded
  cached p r s' ids hslot hids hne := by
    by_cases hp : pos = p
    · subst hp
      obtain rfl : ref = r := Option.some.inj (hpos.symm.trans hslot.ref)
      have hset : (v.segments.set pos (some s))[pos]? = some (some s') := hslot.seg
      obtain ⟨hlt, -⟩ := List.getElem?_eq_some_iff.1 hset
      rw [List.getElem?_set_self (by simpa using hlt)] at hset
      obtain rfl : s = s' := Option.some.inj (Option.some.inj hset)
      exact hs ids hids hne
    · exact h.cached p r s' ids ⟨hslot.ref, (List.getElem?_set_ne hp).symm.trans hslot.seg⟩ hids hne

theorem setRef (hid : ref'.id = ref.id)
    (hwritten : ref'.status = .sealed ∨ 0 < ref'.count → v.Written ref.id) :
    WrittenInv cur (v.setRef pos ref') where
  consecutive := (sameList_setRef hpos hid).ids.trans h.consecutive
  current := h.current
  loaded := h.loaded.trans length_set.symm
  before := h.before
  after := h.after
  recorded r hr hcond := by
    rcases mem_or_eq_of_mem_set hr with hr | rfl
    · exact h.recorded r hr hcond
    · exact hid ▸ hwritten hcond
  cached p r s ids hslot hids hne := by
    have href : (v.ref.segments.set pos ref')[p]? = some r := hslot.ref
    by_cases hp : pos = p
    · subst hp
      obtain ⟨hlt, -⟩ := List.getElem?_eq_some_iff.1 hpos
      rw [List.getElem?_set_self hlt] at href
      obtain rfl : ref' = r := Option.some.inj href
      exact hid ▸ h.cached pos ref s ids ⟨hpos, hslot.seg⟩ hids hne
    · rw [List.getElem?_set_ne hp] at href
      exact h.cached p r s ids ⟨href, hslot.seg⟩ hids hne

end Shared

theorem setFiles {id : Nat} (hid : id ≤ cur)
    (hf : v.Written id → f.storedVec.isSome) : WrittenInv cur (v.setFiles id f) := by
  have hkeeps : ∀ seg, v.Written seg → (v.setFiles id f).Written seg := by
    intro seg hseg
    show (Function.update v.files id f seg).storedVec.isSome
    by_cases heq : seg = id
    · rw [heq, Function.update_self]
      exact hf (heq ▸ hseg)
    · rw [Function.update_of_ne heq]
      exact hseg
  refine ⟨h.consecutive, h.current, h.loaded, fun seg hseg => hkeeps seg (h.before seg hseg),
    fun seg hseg => ?_, fun r hr hcond => hkeeps _ (h.recorded r hr hcond),
    fun p r s ids hslot hids hne => hkeeps _ (h.cached p r s ids ⟨hslot.ref, hslot.seg⟩ hids hne)⟩
  by_cases heq : seg = id
  · exact heq ▸ hid
  · have hseg : (Function.update v.files id f seg).storedVec.isSome := hseg
    rw [Function.update_of_ne heq] at hseg
    exact h.after seg hseg

theorem of_orFail (hr : ∀ v', r = some v' → WrittenInv cur v') :
    WrittenInv cur (v.orFail r).1 := by
  cases r with
  | none => exact h
  | some v' => exact hr v' rfl

omit h in
theorem slot_of_segment (h : v.segment pos = some r) :
    SegmentSlot v pos r.1 (some r.2) := ⟨(segment_some h).1, (segment_some h).2⟩

theorem load (hload : v.load pos = some v') : WrittenInv cur v' := by
  unfold IvfPqIndex.load at hload
  split at hload
  · cases hload
    exact h
  · next ref hpos _ =>
    obtain ⟨s, hopen, rfl⟩ := map_eq_some_iff.1 hload
    have hids : s.ids = none := by
      unfold IvfPqIndex.openIVFPQSegment at hopen
      split at hopen
      · cases hopen
        rfl
      · obtain ⟨index, -, rfl⟩ := map_eq_some_iff.1 hopen
        rfl
    exact h.setSegment hpos fun ids hsome => by rw [hids] at hsome; cases hsome
  · cases hload

theorem removeIDs (hremove : v.removeIDs pos ids = some v') :
    WrittenInv cur v' := by
  obtain ⟨⟨ref, seg⟩, hseg, hremove⟩ := bind_eq_some_iff.1 hremove
  obtain ⟨seg', hdrop, hremove⟩ := bind_eq_some_iff.1 hremove
  cases hremove
  have hslot := slot_of_segment hseg
  have hids : seg'.ids = seg.ids := by
    unfold IvfPqIndex.dropFromIndex at hdrop
    split at hdrop
    · rw [Option.some.inj hdrop]
    · obtain ⟨index, -, rfl⟩ := map_eq_some_iff.1 hdrop
      rfl
  have hset : WrittenInv cur (v.setSegment pos seg') :=
    h.setSegment hslot.ref fun l hl => h.cached pos ref seg l hslot (hids ▸ hl)
  exact hset.setFiles (h.id_le hslot.ref) fun _ => rfl

theorem addVectors (hadd : v.addVectors pos ids = some v') :
    WrittenInv cur v' := by
  obtain ⟨⟨ref, seg⟩, hseg, hadd⟩ := bind_eq_some_iff.1 hadd
  obtain ⟨-, -, hadd⟩ := bind_eq_some_iff.1 hadd
  cases hadd
  exact h.setFiles (h.id_le (slot_of_segment hseg).ref) fun _ => rfl

theorem save (hsave : v.save pos = some v') : WrittenInv cur v' := by
  obtain ⟨⟨ref, seg⟩, hseg, hsave⟩ := bind_eq_some_iff.1 hsave
  have hpos := (slot_of_segment hseg).ref
  have hmem := mem_of_getElem? hpos
  simp only at hsave
  split at hsave
  · next hstatus =>
    cases hsave
    have hset : WrittenInv cur (v.setSegment pos { seg with ids := none }) :=
      h.setSegment hpos nofun
    refine hset.setRef hpos rfl fun hcond => ?_
    show (v.files ref.id).storedVec.isSome
    cases hstored : (v.files ref.id).storedVec with
    | some keys => rfl
    | none =>
      -- the count is the old one
      simp only [hstatus, hstored, reduceCtorEq, false_or, Option.map_none, Option.getD_none]
        at hcond
      have hwritten : (v.files ref.id).storedVec.isSome := h.recorded ref hmem (.inr hcond)
      rw [hstored] at hwritten
      exact hwritten
  · next hstatus =>
    obtain ⟨index, -, hsave⟩ := bind_eq_some_iff.1 hsave
    cases hsave
    have hwritten : v.Written ref.id := h.recorded ref hmem (.inl hstatus)
    have hset : WrittenInv cur (v.setRef pos { ref with count := index.length }) :=
      h.setRef hpos rfl fun _ => hwritten
    exact hset.setFiles (h.id_le hpos) id

theorem getVecCaches (hcaches : v.getVecCaches pos = some r) :
    WrittenInv cur r.1 ∧ ∃ ref s, SegmentSlot r.1 pos ref (some s) ∧ s.ids = some r.2 := by
  obtain ⟨⟨ref, seg⟩, hseg, hcaches⟩ := bind_eq_some_iff.1 hcaches
  cases hcaches
  have hslot := slot_of_segment hseg
  refine ⟨h.setSegment hslot.ref fun ids hids hne => ?_, ref,
    { seg with ids := some (seg.ids.getD (v.files ref.id).ids) }, ⟨hslot.ref, ?_⟩, rfl⟩
  · have hids : seg.ids.getD (v.files ref.id).ids = ids := Option.some.inj hids
    cases hcached : seg.ids with
    | some l =>
      rw [hcached, Option.getD_some] at hids
      exact h.cached pos ref seg l hslot hcached (hids ▸ hne)
    | none =>
      rw [hcached] at hids
      show (v.files ref.id).storedVec.isSome
      cases hstored : (v.files ref.id).storedVec with
      | some keys => rfl
      | none =>
        -- there is nothing to cache
        refine absurd ?_ hne
        rw [← hids]
        simp [SegmentFiles.ids, SegmentFiles.keys, hstored]
  · obtain ⟨hlt, -⟩ := List.getElem?_eq_some_iff.1 hslot.seg
    exact List.getElem?_set_self hlt

theorem buildIndex (hslot : SegmentSlot v pos ref (some s)) (hids : s.ids = some ids)
    (result : SealResult) :
    WrittenInv cur (v.buildIndex pos ids result).1 := by
  rw [IvfPqIndex.buildIndex, hslot.segment]
  simp only
  split
  · exact h
  · next hne =>
    have hwritten := h.cached pos ref s ids hslot hids hne
    have hset : ∀ s' : IVFPQSegment, WrittenInv cur (v.setSegment pos s') := fun s' =>
      h.setSegment hslot.ref fun _ _ _ => hwritten
    cases result with
    | factory => exact h
    | file => exact hset _
    | built =>
      have hsealed : WrittenInv cur ((v.setSegment pos { index := some ids }).setRef pos
          { ref with status := .sealed }) :=
        (hset _).setRef hslot.ref rfl fun _ => hwritten
      exact hsealed.setFiles (h.id_le hslot.ref) id

theorem exec (hstep : ∀ pos, step ≠ .checkNewSeg pos) :
    WrittenInv cur (v.exec threshold step).1 := by
  cases step with
  | load pos => exact h.of_orFail fun _ => h.load
  | removeIDs pos ids => exact h.of_orFail fun _ => h.removeIDs
  | addVectors pos ids => exact h.of_orFail fun _ => h.addVectors
  | save pos => exact h.of_orFail fun _ => h.save
  | checkNewSeg pos => exact absurd rfl (hstep pos)
  | setCount | saveVecIndexMeta =>
    exact ⟨h.consecutive, h.current, h.loaded, h.before, h.after, h.recorded,
      fun p r s ids hslot => h.cached p r s ids ⟨hslot.ref, hslot.seg⟩⟩
  | getVecCaches pos =>
    refine h.of_orFail fun v' hv' => ?_
    obtain ⟨r, hr, rfl⟩ := map_eq_some_iff.1 hv'
    exact (h.getVecCaches hr).1
  | buildIndex pos result =>
    rw [IvfPqIndex.exec]
    split
    · exact h
    · next v' ids hr =>
      obtain ⟨hinv, ref, s, hslot, hids⟩ := h.getVecCaches hr
      exact hinv.buildIndex hslot hids result

theorem checkNewSeg (hthreshold : 1 ≤ threshold) :
    ∃ cur', WrittenInv cur' (v.exec threshold (.checkNewSeg cur)).1 := by
  rw [IvfPqIndex.exec]
  cases hcheck : v.checkNewSeg threshold cur with
  | none => exact ⟨cur, h⟩
  | some v' =>
    obtain ⟨⟨ref, seg⟩, hseg, hcheck⟩ := bind_eq_some_iff.1 hcheck
    cases hcheck
    have hpos := (slot_of_segment hseg).ref
    have hid : ref.id = cur := (consecutive_iff.1 h.consecutive).1 cur ref hpos
    show ∃ cur', WrittenInv cur' (if threshold ≤ ref.count then v.appendSegment else v)
    split
    · next hfull =>
      have hwritten : v.Written cur :=
        hid ▸ h.recorded ref (mem_of_getElem? hpos) (.inr (by omega))
      refine ⟨cur + 1, ?_, congrArg (· + 1) h.current, ?_, fun seg hseg => ?_, fun seg hseg => ?_,
        fun r hr hcond => ?_, fun p r s ids hslot hids hne => ?_⟩
      · show (v.ref.segments ++ [_]).map VectorSegment.id = List.range _
        rw [map_append, h.consecutive]
        exact range_succ.symm
      · show (v.segments ++ [none]).length = (v.ref.segments ++ [_]).length
        rw [length_append, length_append, h.loaded]
        rfl
      · rcases Nat.lt_succ_iff_lt_or_eq.1 hseg with hlt | rfl
        · exact h.before seg hlt
        · exact hwritten
      · exact Nat.le_succ_of_le (h.after seg hseg)
      · rcases mem_append.1 hr with hr | hr
        · exact h.recorded r hr hcond
        · -- the new segment has no documents
          obtain rfl := mem_singleton.1 hr
          simp at hcond
      · have hs : (v.segments ++ [none])[p]? = some (some s) := hslot.seg
        have hr : (v.ref.segments ++ [_])[p]? = some r := hslot.ref
        by_cases hp : p < v.segments.length
        · rw [List.getElem?_append_left hp] at hs
          rw [List.getElem?_append_left (h.loaded ▸ hp)] at hr
          exact h.cached p r s ids ⟨hr, hs⟩ hids hne
        · rw [List.getElem?_append_right (Nat.le_of_not_lt hp)] at hs
          cases mem_singleton.1 (mem_of_getElem? hs)
    · exact ⟨cur, h⟩

theorem runSteps (hsteps : ∀ step ∈ steps, ∀ pos, step ≠ .checkNewSeg pos) :
    WrittenInv cur (IvfPqIndex.runSteps threshold steps v).1 := by
  induction steps generalizing v with
  | nil => exact h
  | cons step steps ih =>
    have hexec : WrittenInv cur (v.exec threshold step).1 := h.exec (hsteps step mem_cons_self)
    rw [IvfPqIndex.runSteps]
    split
    · exact ih hexec fun step hstep => hsteps step (mem_cons_of_mem _ hstep)
    · exact hexec

theorem steps_batch (b : VecBatch) :
    ∃ first, v.steps threshold (.batch b) = first ++ [.checkNewSeg cur, .setCount] ∧
      ∀ step ∈ first, ∀ pos, step ≠ .checkNewSeg pos := by
  refine ⟨v.processDel b ++ (.load cur ::
    (if b.addIds = [] then [] else [.addVectors cur b.addIds]) ++ [.save cur]), ?_, ?_⟩
  · simp [IvfPqIndex.steps, IvfPqIndex.processAdd, h.current]
  · rintro step hstep pos rfl
    rcases mem_append.1 hstep with hstep | hstep
    · rw [IvfPqIndex.processDel, IvfPqIndex.loadAllSegments] at hstep
      split at hstep
      · cases hstep
      · simp at hstep
    · split at hstep <;> simp at hstep

theorem batch (hthreshold : 1 ≤ threshold) (b : VecBatch) :
    ∃ cur', WrittenInv cur' (v.call threshold (.batch b)).1 := by
  obtain ⟨first, hsteps, hother⟩ := h.steps_batch b
  have hfirst : WrittenInv cur (IvfPqIndex.runSteps threshold first v).1 := h.runSteps hother
  rw [IvfPqIndex.call, hsteps, runSteps_append]
  split
  · obtain ⟨cur', hnew⟩ := hfirst.checkNewSeg hthreshold
    refine ⟨cur', ?_⟩
    rw [IvfPqIndex.runSteps]
    split
    · exact hnew.runSteps fun step hstep pos => by simp [mem_singleton.1 hstep]
    · exact hnew
  · exact ⟨cur, hfirst⟩

theorem call (hthreshold : 1 ≤ threshold) (c : VecCall) :
    ∃ cur', WrittenInv cur' (v.call threshold c).1 := by
  cases c with
  | batch b => exact h.batch hthreshold b
  | sealSeg result | search =>
    refine ⟨cur, h.runSteps fun step hstep pos heq => ?_⟩
    subst heq
    simp [IvfPqIndex.steps, IvfPqIndex.loadAllSegments] at hstep

theorem reopened {listing : SegmentListing} (hopen : v.Reopens listing) :
    WrittenInv cur (v.makeVecIndex listing).1 := by
  have hfiles := files_makeVecIndex v listing
  have hwritten : ∀ seg, (v.makeVecIndex listing).1.Written seg ↔ v.Written seg := by
    intro seg
    rw [IvfPqIndex.Written, hfiles, IvfPqIndex.Written]
  constructor
  · rw [hopen.ref]
    exact h.consecutive
  · rw [hopen.ref]
    exact h.current
  · rw [hopen.segments, hopen.ref, length_replicate]
  · exact fun seg hseg => (hwritten seg).2 (h.before seg hseg)
  · exact fun seg hseg => h.after seg ((hwritten seg).1 hseg)
  · intro r hr hcond
    rw [hopen.ref] at hr
    exact (hwritten r.id).2 (h.recorded r hr hcond)
  · intro p r s ids hslot
    -- no segment is loaded
    have hs := mem_of_getElem? hslot.seg
    rw [hopen.segments] at hs
    exact nomatch eq_of_mem_replicate hs

omit h in
theorem new : WrittenInv 0 { segments := [none] } where
  consecutive := rfl
  current := rfl
  loaded := rfl
  before := nofun
  after := nofun
  recorded r hr hcond := by
    obtain rfl := mem_singleton.1 hr
    simp at hcond
  cached p r s ids hslot := nomatch mem_singleton.1 (mem_of_getElem? hslot.seg)

end WrittenInv

theorem IvfPqIndex.Kept.written {threshold : Int} (hthreshold : 1 ≤ threshold)
    (h : v.Kept threshold) : WrittenInv v.ref.currentSegmentId v := by
  have hexists : ∃ cur, WrittenInv cur v := by
    induction h with
    | new => exact ⟨0, .new⟩
    | call c _ ih =>
      obtain ⟨cur, hinv⟩ := ih
      exact hinv.call hthreshold c
    | reopened listing _ hopen ih =>
      obtain ⟨cur, hinv⟩ := ih
      exact ⟨cur, hinv.reopened hopen⟩
  obtain ⟨cur, hinv⟩ := hexists
  rwa [hinv.current]

/-- The storage has the files of an index, and no other files where its segments are listed. -/
structure HoldsFiles (t : VecStorage) (hash : List Char → List Char) (x : StoredIndex)
    (f : VecField) (v : IvfPqIndex) (keys : List Key) : Prop where
  own : ∀ k ∈ keys, t.lists (x.listName f) k = true →
    ∃ seg, v.Written seg ∧ x.StoredFile hash f seg k ∨ k = x.faissKey hash f seg
  written : ∀ seg, v.Written seg → ∃ k ∈ keys, x.StoredFile hash f seg k

namespace IvfPqReopenLemmas

variable {t : VecStorage} {hash : List Char → List Char} {x : StoredIndex} {f : VecField}
  {v : IvfPqIndex} {keys : List Key} {cur : Nat}

theorem stored_of_mem (h : WrittenInv cur v) (hfiles : HoldsFiles t hash x f v keys)
    (hk : k ∈ t.segmentFiles (x.listName f) keys) : ∃ seg ≤ cur, x.StoredFile hash f seg k := by
  obtain ⟨hmem, hlists, hindex⟩ := mem_segmentFiles.1 hk
  obtain ⟨seg, ⟨hwritten, hstored⟩ | rfl⟩ := hfiles.own k hmem hlists
  · exact ⟨seg, h.after seg hwritten, hstored⟩
  · rw [isIndexFile_faissKey] at hindex
    cases hindex

section Found

variable (h : WrittenInv cur v) (hcur : cur < 2 ^ 63) (hfiles : HoldsFiles t hash x f v keys)

include h hcur hfiles

theorem segmentId_of_mem (hk : k ∈ t.segmentFiles (x.listName f) keys) :
    ∃ seg ≤ cur, x.StoredFile hash f seg k ∧ t.segmentId k = some (seg : Int) := by
  obtain ⟨seg, hle, hstored⟩ := stored_of_mem h hfiles hk
  exact ⟨seg, hle, hstored, segmentId_stored t hstored (lt_of_le_of_lt hle hcur)⟩

theorem card_ids_le :
    ((t.segmentFiles (x.listName f) keys).filterMap t.segmentId).toFinset.card ≤ cur + 1 := by
  have hsub : ((t.segmentFiles (x.listName f) keys).filterMap t.segmentId).toFinset ⊆
      (Finset.range (cur + 1)).image Int.ofNat := by
    intro id hid
    obtain ⟨k, hk, hsome⟩ := mem_filterMap.1 (mem_toFinset.1 hid)
    obtain ⟨seg, hle, -, hseg⟩ := segmentId_of_mem h hcur hfiles hk
    refine Finset.mem_image.2 ⟨seg, Finset.mem_range.2 (Nat.lt_succ_of_le hle), ?_⟩
    exact Option.some.inj (hseg.symm.trans hsome)
  calc _ ≤ ((Finset.range (cur + 1)).image Int.ofNat).card := Finset.card_le_card hsub
    _ ≤ (Finset.range (cur + 1)).card := Finset.card_image_le
    _ = cur + 1 := Finset.card_range _

theorem found_iff : SegmentsFound t (x.listName f) keys v.ref ↔
      ∀ seg < cur, ∃ k ∈ keys, x.StoredFile hash f seg k ∧ t.lists (x.listName f) k = true := by
  have hmem : ∀ seg, seg ∈ v.ref.segments.map VectorSegment.id ↔ seg ≤ cur := by
    intro seg
    rw [h.consecutive, h.current, mem_range, Nat.lt_succ_iff]
  constructor
  · intro hfound seg hseg
    obtain ⟨ref, href, rfl⟩ := mem_map.1 ((hmem seg).2 (le_of_lt hseg))
    obtain ⟨k, hk, hid⟩ := hfound.recorded ref href (h.current ▸ ne_of_lt hseg)
    obtain ⟨seg', -, hstored, hid'⟩ := segmentId_of_mem h hcur hfiles hk
    obtain rfl : seg' = ref.id := Int.ofNat.inj (Option.some.inj (hid'.symm.trans hid))
    obtain ⟨hkeys, hlists, -⟩ := mem_segmentFiles.1 hk
    exact ⟨k, hkeys, hstored, hlists⟩
  · intro hlisted
    refine ⟨fun k hk => ?_, fun ref href hne => ?_, .inr (h.current ▸ card_ids_le h hcur hfiles)⟩
    · obtain ⟨seg, -, -, hseg⟩ := segmentId_of_mem h hcur hfiles hk
      rw [hseg]
      rfl
    · have hle := (hmem ref.id).1 (mem_map_of_mem href)
      obtain ⟨k, hk, hstored, hlists⟩ := hlisted ref.id (Nat.lt_of_le_of_ne hle (h.current ▸ hne))
      refine ⟨k, mem_segmentFiles.2 ⟨hk, hlists, isIndexFile_stored t hstored⟩, ?_⟩
      exact segmentId_stored t hstored (lt_of_le_of_lt hle hcur)

end Found

end IvfPqReopenLemmas

/-- Opening an index yields the recorded segments if and only if the files below its plain name
agree with the metadata. In every run, if these are files of the index, this is so if and only if a
file of each segment before the current one is below that name. -/
theorem reopen_iff (t : VecStorage) (hash : List Char → List Char) (x : StoredIndex) (f : VecField)
    (keys : List Key) (count : Nat → Option Nat) (v : IvfPqIndex) :
    (v.Reopens (t.listing (x.listName f) keys count) ↔ SegmentsFound t (x.listName f) keys v.ref) ∧
    ∀ threshold : Int, 1 ≤ threshold → v.Kept threshold → v.ref.currentSegmentId < 2 ^ 63 →
      HoldsFiles t hash x f v keys →
      (v.Reopens (t.listing (x.listName f) keys count) ↔ ∀ seg < v.ref.currentSegmentId,
        ∃ k ∈ keys, x.StoredFile hash f seg k ∧ t.lists (x.listName f) k = true) := by
  refine ⟨reopens_listing_iff count, fun threshold hthreshold hkept hcur hfiles => ?_⟩
  rw [reopens_listing_iff]
  exact found_iff (hkept.written hthreshold) hcur hfiles

namespace IvfPqReopenLemmas

def oneFull : IvfPqIndex :=
  (IvfPqIndex.call 1 { segments := [none] } (IvfPqContentLemmas.batchOf [1] [])).1

theorem kept_oneFull : oneFull.Kept 1 := .call _ .new

theorem written_oneFull (seg : Nat) : oneFull.Written seg ↔ seg = 0 := by
  have hfiles : oneFull.files =
      Function.update (fun _ => {}) 0 { storedVec := some [Base62.encode 1] } := rfl
  rw [IvfPqIndex.Written, hfiles]
  by_cases h : seg = 0 <;> simp [h]

def books (storeWithHash : Bool) : StoredIndex := ⟨"books".toList, storeWithHash, [], []⟩

def vec (storeWithHash : Bool) : VecField := ⟨"vec".toList, storeWithHash⟩

def hashOf (name : List Char) : List Char :=
  if name = "books".toList then "3OSMsMxlZFTsYZgGGFZE3F".toList
  else "7cslncyuOQEuIiCsUXRSqf".toList

def snapshotKey (storeWithHash : Bool) : Key :=
  (books storeWithHash).segmentKey hashOf (vec storeWithHash) 0
    [storedVec, fileName itemKindSnapshot 1]

theorem storedFile_snapshotKey (storeWithHash : Bool) :
    (books storeWithHash).StoredFile hashOf (vec storeWithHash) 0 (snapshotKey storeWithHash) :=
  ⟨_, DeleteIndexLemmas.ordinary_fileName _ _, by decide, rfl⟩

theorem holdsFiles_oneFull (t : VecStorage) (storeWithHash : Bool) :
    HoldsFiles t hashOf (books storeWithHash) (vec storeWithHash) oneFull
      [snapshotKey storeWithHash] := by
  refine ⟨fun k hk _ => ?_, fun seg hseg => ?_⟩
  · obtain rfl := mem_singleton.1 hk
    exact ⟨0, .inl ⟨(written_oneFull 0).2 rfl, storedFile_snapshotKey storeWithHash⟩⟩
  · obtain rfl := (written_oneFull seg).1 hseg
    exact ⟨_, mem_singleton_self _, storedFile_snapshotKey storeWithHash⟩

end IvfPqReopenLemmas

theorem reopen_iff_books :
    oneFull.ref.segments.length = 2 ∧
      oneFull.Reopens (VecStorage.listing (.disk ["data".toList])
        ((books false).listName (vec false)) [snapshotKey false] fun _ => none) := by
  have hiff := (reopen_iff (.disk ["data".toList]) hashOf (books false) (vec false)
    [snapshotKey false] (fun _ => none) oneFull).2 1 (by decide) kept_oneFull (by decide +kernel)
    (holdsFiles_oneFull _ false)
  refine ⟨by decide +kernel, hiff.2 fun seg hseg => ?_⟩
  obtain rfl : seg = 0 := Nat.lt_one_iff.1 hseg
  exact ⟨_, mem_singleton_self _, storedFile_snapshotKey false, by decide +kernel⟩

/-- With hashes nothing is found below the plain name, on a disk or in an object store. -/
theorem reopen_hashed_corrupted : oneFull.Kept 1 ∧
    ∀ t ∈ [VecStorage.disk ["data".toList], .object],
      HoldsFiles t hashOf (books true) (vec true) oneFull [snapshotKey true] ∧
        (oneFull.makeVecIndex (t.listing ((books true).listName (vec true)) [snapshotKey true]
          fun _ => none)).2 = some .corruption := by
  refine ⟨kept_oneFull, fun t ht => ⟨holdsFiles_oneFull t true, ?_⟩⟩
  revert t
  decide +kernel

end SeaSearch
