import SeaSearch.Lib.Threads
import SeaSearch.Vector.IvfPqContent

/-!
# Concurrent batches of an IVFPQ index

`IvfPqIndex.Batch` deletes ids from the segments that have them and adds ids to the current one. It
holds the lock of the index while it copies the list of segments and while it adds.
-/

namespace SeaSearch

open List Threads Base62 IvfPqLemmas IvfPqContentLemmas
open Option (bind_eq_some_iff)
open Function (update update_of_ne update_self)

variable {τ : Type} [DecidableEq τ]

/-- The bluge batch of `addVectors`: all documents are appended. -/
def SegmentFiles.append (f : SegmentFiles) (ids : List Int) : SegmentFiles :=
  { f with storedVec := some (ids.map encode ++ f.keys) }

namespace IvfPqIndex

/-- The additions of `IVFPQSegment.Batch`. -/
def insertVectors (v : IvfPqIndex) (pos : Nat) (ids : List Int) : Option IvfPqIndex :=
  if ids = [] then some v
  else do
    let (ref, _) ← v.segment pos
    guard (ref.status = .growing)
    return v.setFiles ref.id ((v.files ref.id).append ids)

/-- A turn of `getDelBatches`. -/
def delBatch (v : IvfPqIndex) (deleteIds : List Int) (pos : Nat) : List (Nat × List Int) :=
  match v.ref.segments[pos]? with
  | none => []
  | some ref =>
    if (v.files ref.id).getExistsIds deleteIds = [] then []
    else [(pos, (v.files ref.id).getExistsIds deleteIds)]

end IvfPqIndex

open IvfPqIndex (delBatch exec insertVectors orFail runSteps)

structure IvfPqBatches (τ : Type) where
  index : IvfPqIndex
  lock : Option τ := none

/-- Where a call of `Batch` is:
* `copying`: before it copies the segments, and `looking`: it has looked through some of them;
* `removing`: some deletions are left;
* `locking`: before it takes the lock to add, `adding` and `rolling`: before `curSeg.Batch` and
  `checkNewSeg`;
* `counting`: before it sets the count. -/
inductive VecBatchPc
  | idle
  | copying (b : VecBatch)
  | looking (b : VecBatch) (segs : List Nat) (delBatches : List (Nat × List Int))
  | removing (b : VecBatch) (delBatches : List (Nat × List Int))
  | locking (b : VecBatch)
  | adding (b : VecBatch) (pos : Nat)
  | rolling (pos : Nat)
  | counting

inductive VecBatchChoice
  | batch (b : VecBatch)
  | proceed
  | fail

inductive VecBatchEvent (τ : Type)
  | copied (t : τ)
  | added (keys : List (List UInt8))

namespace IvfPqBatches

def step (threshold : Int) :
    Program (IvfPqBatches τ) VecBatchPc τ VecBatchChoice (VecBatchEvent τ) :=
  fun t x s pc =>
    match pc, x with
    | .idle, .batch b => some (s, if b.deleteIds = [] then .locking b else .copying b, [])
    | .copying b, .proceed =>
      if s.lock.isSome then none
      else
        let r := runSteps threshold s.index.loadAllSegments s.index
        if r.2 then
          some ({ s with index := r.1 }, .looking b (List.range r.1.segments.length) [],
            [.copied t])
        else some ({ s with index := r.1 }, .idle, [])
    | .looking b (pos :: segs) delBatches, .proceed =>
      some (s, .looking b segs (delBatches ++ s.index.delBatch b.deleteIds pos), [])
    | .looking b [] delBatches, .proceed => some (s, .removing b (b.order.order delBatches), [])
    | .removing b ((pos, ids) :: delBatches), .proceed =>
      let r := runSteps threshold [.removeIDs pos ids, .save pos] s.index
      some ({ s with index := r.1 }, if r.2 then .removing b delBatches else .idle, [])
    | .removing b [], .proceed => some (s, .locking b, [])
    | .locking b, .proceed =>
      if s.lock.isSome then none
      else
        let r := s.index.exec threshold (.load s.index.ref.currentSegmentId)
        if r.2 then some (⟨r.1, some t⟩, .adding b s.index.ref.currentSegmentId, [])
        else some ({ s with index := r.1 }, .idle, [])
    | .adding b pos, .proceed =>
      match s.index.insertVectors pos b.addIds with
      | none => some ({ s with lock := none }, .idle, [])
      | some v =>
        let r := v.exec threshold (.save pos)
        if r.2 then some ({ s with index := r.1 }, .rolling pos, [.added (b.addIds.map encode)])
        else some (⟨r.1, none⟩, .idle, [.added (b.addIds.map encode)])
    | .rolling pos, .proceed =>
      some (⟨(s.index.exec threshold (.checkNewSeg pos)).1, none⟩, .counting, [])
    | .counting, .proceed =>
      if s.lock.isSome then none else some ({ s with index := s.index.setCount }, .idle, [])
    | .copying _, .fail => some (s, .idle, [])
    | .looking _ _ _, .fail => some (s, .idle, [])
    | .removing _ _, .fail => some (s, .idle, [])
    | .locking _, .fail => some (s, .idle, [])
    | .adding _ _, .fail => some ({ s with lock := none }, .idle, [])
    | _, _ => none

def start (v : IvfPqIndex) : Config (IvfPqBatches τ) VecBatchPc τ :=
  ⟨{ index := v }, fun _ => .idle⟩

end IvfPqBatches

open IvfPqBatches (start)

def VecBatch.Replaces (b : VecBatch) : Prop :=
  (∀ id ∈ b.addIds, id ∈ b.deleteIds ∧ id < 2 ^ 63) ∧ (b.addIds.map encode).Nodup

instance (b : VecBatch) : Decidable b.Replaces := instDecidableAnd

def replacing : Guard (IvfPqBatches τ) VecBatchPc τ VecBatchChoice (VecBatchEvent τ) :=
  fun _ _ _ x =>
    match x with
    | .batch b => decide b.Replaces
    | _ => true

def addedSince (t : τ) (log : List (VecBatchEvent τ)) : List (List UInt8) :=
  log.foldl (fun added e =>
    match e with
    | .copied u => if u = t then [] else added
    | .added keys => added ++ keys) []

local instance key_lawfulBEq : LawfulBEq (List UInt8) := inferInstance

def undisturbed : Guard (IvfPqBatches τ) VecBatchPc τ VecBatchChoice (VecBatchEvent τ) :=
  fun c log t x =>
    replacing c log t x &&
      match c.threads t with
      | .adding b _ => decide (∀ id ∈ b.addIds, encode id ∉ addedSince t log)
      | _ => true

/-- The list of segments is in order and no document is stored twice:
* `consecutive`, `loaded`, `unused`: the segments, and what is stored of others;
* `keys`: the id of a document is written as its key;
* `nodup`, `disjoint`: a key is in one segment, once. -/
structure StoredOnce (v : IvfPqIndex) : Prop where
  consecutive : v.ref.Consecutive
  loaded : v.segments.length = v.ref.segments.length
  unused : ∀ i, v.ref.currentSegmentId < i → (v.files i).keys = []
  keys : ∀ i, ∀ k ∈ (v.files i).keys, encode (decode k) = k
  nodup : ∀ i, (v.files i).keys.Nodup
  disjoint : ∀ i j, i ≠ j → ∀ k ∈ (v.files i).keys, k ∉ (v.files j).keys

namespace VecBatchPc

def returned : VecBatchPc → Bool
  | idle => true
  | _ => false

def call : VecBatchPc → Option VecBatch
  | copying b | looking b _ _ | removing b _ | locking b | adding b _ => some b
  | _ => none

def Deletes : VecBatchPc → Nat → List UInt8 → Prop
  | copying _, _, _ => True
  | looking _ segs delBatches, i, k => i ∈ segs ∨ ∃ ids, (i, ids) ∈ delBatches ∧ k ∈ ids.map encode
  | removing _ delBatches, i, k => ∃ ids, (i, ids) ∈ delBatches ∧ k ∈ ids.map encode
  | _, _, _ => False

end VecBatchPc

structure Cleared (v : IvfPqIndex) (added : List (List UInt8)) (pc : VecBatchPc) : Prop where
  replaces : ∀ b, pc.call = some b → b.Replaces
  deletes : ∀ b, pc.call = some b → ∀ k ∈ b.addIds.map encode, k ∉ added →
    ∀ i, k ∈ (v.files i).keys → pc.Deletes i k

structure BatchesInv (c : Config (IvfPqBatches τ) VecBatchPc τ) (log : List (VecBatchEvent τ)) :
    Prop where
  stored : StoredOnce c.shared.index
  threads : ∀ t, Cleared c.shared.index (addedSince t log) (c.threads t)

namespace IvfPqBatchLemmas

structure Shrinks (v v' : IvfPqIndex) : Prop where
  consecutive : v.ref.Consecutive → v'.ref.Consecutive
  loaded : v.segments.length = v.ref.segments.length → v'.segments.length = v'.ref.segments.length
  current : v.ref.currentSegmentId ≤ v'.ref.currentSegmentId
  keys : ∀ i, (v'.files i).keys.Sublist (v.files i).keys

section Shrinks

variable {v v' w : IvfPqIndex} {pos : Nat} {threshold : Int} {ids : List Int}

theorem Shrinks.refl (v : IvfPqIndex) : Shrinks v v := ⟨id, id, le_rfl, fun _ => .refl _⟩

theorem Shrinks.trans (h : Shrinks v v') (h' : Shrinks v' w) : Shrinks v w where
  consecutive hv := h'.consecutive (h.consecutive hv)
  loaded hv := h'.loaded (h.loaded hv)
  current := h.current.trans h'.current
  keys i := (h'.keys i).trans (h.keys i)

theorem shrinks_setSegment (v : IvfPqIndex) (pos : Nat) (seg : IVFPQSegment) :
    Shrinks v (v.setSegment pos seg) where
  consecutive hv := hv
  loaded hv := (length_set ..).trans hv
  current := le_rfl
  keys _ := .refl _

theorem shrinks_setRef (v : IvfPqIndex) (href : v.ref.segments[pos]? = some ref)
    (hid : ref'.id = ref.id) :
    Shrinks v (v.setRef pos ref') where
  consecutive hv := by
    show (v.ref.segments.set pos ref').map VectorSegment.id = _
    have hids : (v.ref.segments.map VectorSegment.id)[pos]? = some ref.id := by
      rw [List.getElem?_map, href, Option.map_some]
    rw [map_set, hid, set_getElem?_self hids]
    exact hv
  loaded hv := hv.trans (length_set ..).symm
  current := le_rfl
  keys _ := .refl _

theorem shrinks_setFiles {id : Nat} (h : f.keys.Sublist (v.files id).keys) :
    Shrinks v (v.setFiles id f) where
  consecutive hv := hv
  loaded hv := hv
  current := le_rfl
  keys i := by
    show (update v.files id f i).keys.Sublist _
    by_cases hi : i = id
    · subst hi
      rwa [update_self]
    · rw [update_of_ne hi]

theorem shrinks_appendSegment (v : IvfPqIndex) : Shrinks v v.appendSegment where
  consecutive hv := by
    show (v.ref.segments ++ [_]).map VectorSegment.id = List.range (v.ref.currentSegmentId + 1 + 1)
    rw [map_append, hv, range_succ (n := _ + 1)]
    rfl
  loaded hv := by
    show (v.segments ++ [none]).length = (v.ref.segments ++ [_]).length
    rw [length_append, length_append, hv]
    rfl
  current := Nat.le_succ _
  keys _ := .refl _

theorem shrinks_orFail (h : ∀ v', r = some v' → Shrinks v v') : Shrinks v (v.orFail r).1 := by
  cases r with
  | none => exact .refl v
  | some v' => exact h v' rfl

theorem shrinks_load (h : v.load pos = some v') : Shrinks v v' := by
  unfold IvfPqIndex.load at h
  split at h
  · cases h
    exact .refl v
  · obtain ⟨seg, -, rfl⟩ := Option.map_eq_some_iff.1 h
    exact shrinks_setSegment v pos seg
  · cases h

theorem shrinks_removeIDs (h : v.removeIDs pos ids = some v') : Shrinks v v' := by
  obtain ⟨⟨ref, seg⟩, -, h⟩ := bind_eq_some_iff.1 h
  obtain ⟨seg', -, h⟩ := bind_eq_some_iff.1 h
  cases h
  exact (shrinks_setSegment v pos seg').trans (shrinks_setFiles filter_sublist)

theorem shrinks_save (h : v.save pos = some v') : Shrinks v v' := by
  obtain ⟨⟨ref, seg⟩, hseg, h⟩ := bind_eq_some_iff.1 h
  obtain ⟨href, -⟩ := segment_some hseg
  simp only at h
  split at h
  · cases h
    exact (shrinks_setSegment v pos _).trans (shrinks_setRef _ href (by rfl))
  · obtain ⟨index, -, h⟩ := bind_eq_some_iff.1 h
    cases h
    refine (shrinks_setRef v href ?_).trans (shrinks_setFiles ?_)
    · rfl
    · exact .refl _

theorem shrinks_checkNewSeg (h : v.checkNewSeg threshold pos = some v') : Shrinks v v' := by
  obtain ⟨r, -, h⟩ := bind_eq_some_iff.1 h
  cases h
  split
  · exact shrinks_appendSegment v
  · exact .refl v

def Removes : VecStep → Prop
  | .load _ | .removeIDs _ _ | .save _ | .checkNewSeg _ => True
  | _ => False

theorem shrinks_exec (threshold : Int) (v : IvfPqIndex) (hstep : Removes step) :
    Shrinks v (v.exec threshold step).1 := by
  cases step with
  | load pos => exact shrinks_orFail fun _ => shrinks_load
  | removeIDs pos ids => exact shrinks_orFail fun _ => shrinks_removeIDs
  | save pos => exact shrinks_orFail fun _ => shrinks_save
  | checkNewSeg pos => exact shrinks_orFail fun _ => shrinks_checkNewSeg
  | _ => exact hstep.elim

theorem shrinks_runSteps (threshold : Int) (v : IvfPqIndex)
    (hsteps : ∀ step ∈ steps, Removes step) :
    Shrinks v (runSteps threshold steps v).1 := by
  induction steps generalizing v with
  | nil => exact .refl v
  | cons step steps ih =>
    have hexec := shrinks_exec threshold v (hsteps step mem_cons_self)
    rw [runSteps]
    split
    · exact hexec.trans (ih _ fun step' hmem => hsteps step' (mem_cons_of_mem step hmem))
    · exact hexec

theorem shrinks_remove (threshold : Int) (v : IvfPqIndex) (pos : Nat) (ids : List Int) :
    Shrinks v (runSteps threshold [.removeIDs pos ids, .save pos] v).1 :=
  shrinks_runSteps threshold v (by simp [Removes])

theorem shrinks_loadAll (threshold : Int) (v : IvfPqIndex) :
    Shrinks v (runSteps threshold v.loadAllSegments v).1 :=
  shrinks_runSteps threshold v (by simp [IvfPqIndex.loadAllSegments, Removes])

theorem storedOnce_of_shrinks (h : StoredOnce v) (hv : Shrinks v v') : StoredOnce v' where
  consecutive := hv.consecutive h.consecutive
  loaded := hv.loaded h.loaded
  unused i hi := by
    have hkeys := hv.keys i
    rw [h.unused i (hv.current.trans_lt hi)] at hkeys
    exact sublist_nil.1 hkeys
  keys i k hk := h.keys i k ((hv.keys i).subset hk)
  nodup i := (h.nodup i).sublist (hv.keys i)
  disjoint i j hij k hk hk' := h.disjoint i j hij k ((hv.keys i).subset hk) ((hv.keys j).subset hk')

end Shrinks

section Segments

variable {v v' : IvfPqIndex} {pos i : Nat} {threshold : Int} {ids : List Int} {k : List UInt8}

theorem lt_of_stored (h : StoredOnce v) (hk : k ∈ (v.files i).keys) :
    i < v.ref.segments.length := by
  rw [length_segments h.consecutive]
  by_contra hi
  rw [h.unused i (by omega)] at hk
  cases hk

theorem exists_delBatch (h : StoredOnce v) (hk : k ∈ (v.files pos).keys)
    (hids : k ∈ ids.map encode) :
    ∃ found, (pos, found) ∈ v.delBatch ids pos ∧ k ∈ found.map encode := by
  obtain ⟨ref, href⟩ : ∃ ref, v.ref.segments[pos]? = some ref :=
    ⟨_, List.getElem?_eq_getElem (lt_of_stored h hk)⟩
  have hid : ref.id = pos := (consecutive_iff.1 h.consecutive).1 pos ref href
  have hfound : decode k ∈ (v.files pos).getExistsIds ids :=
    mem_map_of_mem (mem_filter.2 ⟨hk, decide_eq_true hids⟩)
  refine ⟨(v.files pos).getExistsIds ids, ?_, mem_map.2 ⟨_, hfound, h.keys pos k hk⟩⟩
  rw [delBatch, href]
  simp only [hid]
  rw [if_neg (ne_nil_of_mem hfound)]
  exact mem_singleton_self _

theorem notMem_removed (h : v.ref.Consecutive) (hk : k ∈ ids.map encode)
    (hok : (runSteps threshold [.removeIDs pos ids, .save pos] v).2 = true) :
    k ∉ ((runSteps threshold [.removeIDs pos ids, .save pos] v).1.files pos).keys := by
  rw [runSteps, exec] at hok ⊢
  cases hremove : v.removeIDs pos ids with
  | none => simp [hremove, orFail] at hok
  | some v' =>
    rw [orFail_some, if_pos rfl]
    have hsave : Shrinks v' (runSteps threshold [.save pos] v').1 :=
      shrinks_runSteps threshold v' (by simp [Removes])
    refine fun hmem => absurd ((hsave.keys pos).subset hmem) ?_
    obtain ⟨⟨ref, seg⟩, hseg, hremove⟩ := bind_eq_some_iff.1 hremove
    obtain ⟨seg', -, hremove⟩ := bind_eq_some_iff.1 hremove
    cases hremove
    have hid : ref.id = pos := (consecutive_iff.1 h).1 pos ref (segment_some hseg).1
    show k ∉ (update v.files ref.id ((v.files ref.id).delete ids) pos).keys
    rw [hid, update_self, keys_delete, mem_filter]
    exact fun hfilter => of_decide_eq_true hfilter.2 hk

theorem insertVectors_some (h : v.insertVectors pos ids = some v') :
    v' = v ∧ ids = [] ∨ ∃ ref, v.ref.segments[pos]? = some ref ∧
      v' = v.setFiles ref.id ((v.files ref.id).append ids) := by
  rw [insertVectors] at h
  split at h
  · next hids => exact .inl ⟨(Option.some.inj h).symm, hids⟩
  · obtain ⟨⟨ref, seg⟩, hseg, h⟩ := bind_eq_some_iff.1 h
    obtain ⟨-, -, h⟩ := bind_eq_some_iff.1 h
    exact .inr ⟨ref, (segment_some hseg).1, (Option.some.inj h).symm⟩

theorem keys_setFiles_append (v : IvfPqIndex) (id i : Nat) (ids : List Int) :
    ((v.setFiles id ((v.files id).append ids)).files i).keys =
      if i = id then ids.map encode ++ (v.files i).keys else (v.files i).keys := by
  show (update v.files id ((v.files id).append ids) i).keys = _
  by_cases hi : i = id
  · subst hi
    rw [update_self, if_pos rfl]
    rfl
  · rw [update_of_ne hi, if_neg hi]

theorem mem_insertVectors (h : v.insertVectors pos ids = some v')
    (hk : k ∈ (v'.files i).keys) : k ∈ (v.files i).keys ∨ k ∈ ids.map encode := by
  rcases insertVectors_some h with ⟨rfl, -⟩ | ⟨ref, -, rfl⟩
  · exact .inl hk
  · rw [keys_setFiles_append] at hk
    split at hk
    · exact (mem_append.1 hk).symm
    · exact .inl hk

theorem storedOnce_insertVectors (h : StoredOnce v) (hinsert : v.insertVectors pos ids = some v')
    (hlt : ∀ id ∈ ids, id < 2 ^ 63) (hnodup : (ids.map encode).Nodup)
    (hnew : ∀ k ∈ ids.map encode, ∀ i, k ∉ (v.files i).keys) : StoredOnce v' := by
  rcases insertVectors_some hinsert with ⟨rfl, -⟩ | ⟨ref, href, rfl⟩
  · exact h
  have hkeys := keys_setFiles_append v ref.id
  have hid : ref.id ≤ v.ref.currentSegmentId := by
    have hpos := (List.getElem?_eq_some_iff.1 href).1
    rw [length_segments h.consecutive] at hpos
    rw [(consecutive_iff.1 h.consecutive).1 pos ref href]
    omega
  refine ⟨h.consecutive, h.loaded, fun i hi => ?_, fun i k hk => ?_, fun i => ?_,
    fun i j hij k hk hk' => ?_⟩
  · have hcurrent : v.ref.currentSegmentId < i := hi
    rw [hkeys i, if_neg (by omega)]
    exact h.unused i hi
  · rcases mem_insertVectors hinsert hk with hk | hk
    · exact h.keys i k hk
    · obtain ⟨id, hmem, rfl⟩ := mem_map.1 hk
      exact encode_decode_encode (hlt id hmem)
  · rw [hkeys i]
    split
    · exact hnodup.append (h.nodup i) fun k hk => hnew k hk i
    · exact h.nodup i
  · by_cases hin : k ∈ ids.map encode
    · -- a new key is in one segment only
      have honly : ∀ i, k ∈ ((v.setFiles ref.id ((v.files ref.id).append ids)).files i).keys →
          i = ref.id := by
        intro i hi
        by_contra hne
        rw [hkeys i, if_neg hne] at hi
        exact hnew k hin i hi
      exact hij ((honly i hk).trans (honly j hk').symm)
    · have hbefore : ∀ i, k ∈ ((v.setFiles ref.id ((v.files ref.id).append ids)).files i).keys →
          k ∈ (v.files i).keys := fun i hi => (mem_insertVectors hinsert hi).resolve_right hin
      exact h.disjoint i j hij k (hbefore i hk) (hbefore j hk')

end Segments

section Calls

variable {v v' : IvfPqIndex} {added added' : List (List UInt8)} {pc : VecBatchPc} {b : VecBatch}
  {delBatches : List (Nat × List Int)}

theorem cleared_mono (h : Cleared v added pc)
    (hkeys : ∀ i, ∀ k ∈ (v'.files i).keys, k ∈ (v.files i).keys ∨ k ∈ added')
    (hadded : added ⊆ added') : Cleared v' added' pc where
  replaces := h.replaces
  deletes b hb k hk hnot i hi :=
    h.deletes b hb k hk (fun hin => hnot (hadded hin)) i ((hkeys i k hi).resolve_right hnot)

theorem cleared_of_none (h : pc.call = none) : Cleared v added pc where
  replaces _ hb := nomatch h.symm.trans hb
  deletes _ hb := nomatch h.symm.trans hb

theorem cleared_batch (hb : b.Replaces) :
    Cleared v added (if b.deleteIds = [] then .locking b else .copying b) := by
  split
  · next hdelete =>
    constructor
    · rintro _ ⟨⟩
      exact hb
    · rintro _ ⟨⟩ k hk
      obtain ⟨id, hid, -⟩ := mem_map.1 hk
      have hin := (hb.1 id hid).1
      rw [hdelete] at hin
      cases hin
  · constructor
    · rintro _ ⟨⟩
      exact hb
    · exact fun _ _ _ _ _ _ _ => trivial

theorem cleared_copied (h : StoredOnce v) (hb : b.Replaces) :
    Cleared v added (.looking b (List.range v.segments.length) []) := by
  constructor
  · rintro _ ⟨⟩
    exact hb
  · intro _ _ k _ _ i hi
    refine .inl (mem_range.2 ?_)
    rw [h.loaded]
    exact lt_of_stored h hi

theorem cleared_looking (hv : StoredOnce v)
    (h : Cleared v added (.looking b (pos :: segs) delBatches)) :
    Cleared v added (.looking b segs (delBatches ++ v.delBatch b.deleteIds pos)) := by
  refine ⟨h.replaces, ?_⟩
  rintro _ ⟨⟩ k hk hnot i hi
  rcases h.deletes b rfl k hk hnot i hi with hseg | ⟨ids, hmem, hids⟩
  · rcases mem_cons.1 hseg with rfl | hseg
    · have hdelete : k ∈ b.deleteIds.map encode := by
        obtain ⟨id, hid, rfl⟩ := mem_map.1 hk
        exact mem_map_of_mem ((h.replaces b rfl).1 id hid).1
      obtain ⟨ids, hmem, hids⟩ := exists_delBatch hv hi hdelete
      exact .inr ⟨ids, mem_append_right _ hmem, hids⟩
    · exact .inl hseg
  · exact .inr ⟨ids, mem_append_left _ hmem, hids⟩

theorem cleared_looked (h : Cleared v added (.looking b [] delBatches)) :
    Cleared v added (.removing b (b.order.order delBatches)) := by
  refine ⟨h.replaces, ?_⟩
  rintro _ ⟨⟩ k hk hnot i hi
  rcases h.deletes b rfl k hk hnot i hi with hseg | ⟨ids, hmem, hids⟩
  · cases hseg
  · exact ⟨ids, (b.order.perm _).mem_iff.2 hmem, hids⟩

theorem cleared_removing {threshold : Int} (hv : StoredOnce v)
    (h : Cleared v added (.removing b ((pos, ids) :: delBatches)))
    (hok : (runSteps threshold [.removeIDs pos ids, .save pos] v).2 = true) :
    Cleared (runSteps threshold [.removeIDs pos ids, .save pos] v).1 added
      (.removing b delBatches) := by
  refine ⟨h.replaces, ?_⟩
  rintro _ ⟨⟩ k hk hnot i hi
  have hbefore := ((shrinks_remove threshold v pos ids).keys i).subset hi
  obtain ⟨found, hmem, hfound⟩ := h.deletes b rfl k hk hnot i hbefore
  rcases mem_cons.1 hmem with heq | hmem
  · obtain ⟨rfl, rfl⟩ := Prod.mk.inj heq
    exact absurd hi (notMem_removed hv.consecutive hfound hok)
  · exact ⟨found, hmem, hfound⟩

theorem cleared_removed (h : Cleared v added (.removing b [])) :
    Cleared v added (.locking b) := by
  refine ⟨h.replaces, ?_⟩
  rintro _ ⟨⟩ k hk hnot i hi
  obtain ⟨ids, hmem, -⟩ := h.deletes b rfl k hk hnot i hi
  cases hmem

end Calls

section Runs

variable {threshold : Int} {c : Config (IvfPqBatches τ) VecBatchPc τ}
  {log es : List (VecBatchEvent τ)} {t : τ} {x : VecBatchChoice} {s : IvfPqBatches τ}
  {pc : VecBatchPc} {b : VecBatch}

theorem addedSince_copied_of_ne (h : t ≠ u) (log : List (VecBatchEvent τ)) :
    addedSince u (log ++ [.copied t]) = addedSince u log := by
  simp [addedSince, h]

theorem addedSince_added (t : τ) (log : List (VecBatchEvent τ)) (keys : List (List UInt8)) :
    addedSince t (log ++ [.added keys]) = addedSince t log ++ keys := by
  simp [addedSince]

variable (h : BatchesInv c log)

include h

theorem after_shrinks (hv : Shrinks c.shared.index s.index)
    (hown : Cleared s.index (addedSince t log) pc) : BatchesInv (c.after t s pc) (log ++ []) where
  stored := storedOnce_of_shrinks h.stored hv
  threads := by
    rw [append_nil]
    refine forall_after (P := fun u pc => Cleared s.index (addedSince u log) pc) hown ?_
    intro u _
    refine cleared_mono (h.threads u) (fun i k hk => ?_) (List.Subset.refl _)
    exact .inl ((hv.keys i).subset hk)

theorem after_copied (hv : Shrinks c.shared.index s.index) (hb : b.Replaces) :
    BatchesInv (c.after t s (.looking b (List.range s.index.segments.length) []))
      (log ++ [.copied t]) where
  stored := storedOnce_of_shrinks h.stored hv
  threads := by
    have hstored := storedOnce_of_shrinks h.stored hv
    refine forall_after (P := fun u pc => Cleared s.index (addedSince u (log ++ [.copied t])) pc)
      (cleared_copied hstored hb) ?_
    intro u hu
    rw [addedSince_copied_of_ne (Ne.symm hu)]
    refine cleared_mono (h.threads u) (fun i k hk => ?_) (List.Subset.refl _)
    exact .inl ((hv.keys i).subset hk)

theorem after_added (hpc : c.threads t = .adding b pos)
    (hguard : ∀ id ∈ b.addIds, encode id ∉ addedSince t log)
    (hinsert : c.shared.index.insertVectors pos b.addIds = some v) (hv : Shrinks v s.index)
    (hcall : pc.call = none) :
    BatchesInv (c.after t s pc) (log ++ [.added (b.addIds.map encode)]) where
  stored := by
    have hown := h.threads t
    rw [hpc] at hown
    obtain ⟨hreplaces, hnodup⟩ := hown.replaces b rfl
    refine storedOnce_of_shrinks (storedOnce_insertVectors h.stored hinsert ?_ hnodup ?_) hv
    · exact fun id hid => (hreplaces id hid).2
    · intro k hk i hi
      refine hown.deletes b rfl k hk ?_ i hi
      obtain ⟨id, hid, rfl⟩ := mem_map.1 hk
      exact hguard id hid
  threads := by
    refine forall_after (P := fun u pc => Cleared s.index
      (addedSince u (log ++ [.added (b.addIds.map encode)])) pc) (cleared_of_none hcall) ?_
    intro u _
    rw [addedSince_added]
    refine cleared_mono (h.threads u) (fun i k hk => ?_) (subset_append_left _ _)
    exact (mem_insertVectors hinsert ((hv.keys i).subset hk)).imp_right (mem_append_right _)

theorem batchesInv_step (hok : undisturbed c log t x = true)
    (hstep : IvfPqBatches.step threshold t x c.shared (c.threads t) = some (s, pc, es)) :
    BatchesInv (c.after t s pc) (log ++ es) := by
  obtain ⟨hreplacing, hguard⟩ := Bool.and_eq_true_iff.1 hok
  have hown := h.threads t
  generalize hpc : c.threads t = pc₀ at hstep hown hguard
  rw [IvfPqBatches.step.eq_def] at hstep
  split at hstep
  case h_1 b =>
    -- the call starts
    cases hstep
    exact after_shrinks h (.refl _) (cleared_batch (of_decide_eq_true hreplacing))
  case h_2 b =>
    -- the segments are copied
    split at hstep
    · cases hstep
    · have hload := shrinks_loadAll threshold c.shared.index
      dsimp only at hstep
      split at hstep
      · cases hstep
        exact after_copied h hload (hown.replaces b rfl)
      · cases hstep
        exact after_shrinks h hload (cleared_of_none rfl)
  case h_3 =>
    -- one more segment is looked through
    cases hstep
    exact after_shrinks h (.refl _) (cleared_looking h.stored hown)
  case h_4 =>
    -- all segments are looked through
    cases hstep
    exact after_shrinks h (.refl _) (cleared_looked hown)
  case h_5 b pos ids delBatches =>
    -- the deletions of one segment
    cases hstep
    refine after_shrinks h (shrinks_remove threshold c.shared.index pos ids) ?_
    split
    · next hdone => exact cleared_removing h.stored hown hdone
    · exact cleared_of_none rfl
  case h_6 =>
    -- all deletions are done
    cases hstep
    exact after_shrinks h (.refl _) (cleared_removed hown)
  case h_7 b =>
    -- the lock is taken
    split at hstep
    · cases hstep
    · have hload : Shrinks c.shared.index
          (c.shared.index.exec threshold (.load c.shared.index.ref.currentSegmentId)).1 :=
        shrinks_exec threshold _ trivial
      dsimp only at hstep
      split at hstep
      · cases hstep
        exact after_shrinks h hload ⟨hown.replaces, fun b hb k hk hnot i hi =>
          hown.deletes b hb k hk hnot i ((hload.keys i).subset hi)⟩
      · cases hstep
        exact after_shrinks h hload (cleared_of_none rfl)
  case h_8 b pos =>
    -- the addition
    split at hstep
    · cases hstep
      exact after_shrinks h (.refl _) (cleared_of_none rfl)
    · next v hinsert =>
      have hsave : Shrinks v (v.exec threshold (.save pos)).1 := shrinks_exec threshold v trivial
      dsimp only at hstep
      split at hstep <;> cases hstep <;>
        exact after_added h hpc (of_decide_eq_true hguard) hinsert hsave rfl
  case h_9 pos =>
    -- `checkNewSeg`
    cases hstep
    exact after_shrinks h (shrinks_exec threshold _ trivial) (cleared_of_none rfl)
  case h_10 =>
    -- the count
    split at hstep
    · cases hstep
    · cases hstep
      exact after_shrinks h ⟨id, id, le_rfl, fun _ => .refl _⟩ (cleared_of_none rfl)
  case h_16 => cases hstep
  all_goals
    -- the call fails
    cases hstep
    exact after_shrinks h (.refl _) (cleared_of_none rfl)

end Runs

theorem nodup_ids_of_storedOnce (h : StoredOnce v) : v.ids.Nodup := by
  rw [ids_eq h.consecutive, nodup_flatMap]
  refine ⟨fun i _ => nodup_ids (h.nodup i) (h.keys i), nodup_range.imp fun {i j} hij => ?_⟩
  intro id hi hj
  obtain ⟨k, hk, rfl⟩ := mem_map.1 hi
  obtain ⟨k', hk', heq⟩ := mem_map.1 hj
  have hkeys : k' = k := by rw [← h.keys i k hk, ← h.keys j k' hk', heq]
  exact h.disjoint i j hij k hk (hkeys ▸ hk')

end IvfPqBatchLemmas

open IvfPqBatchLemmas

theorem ContentInv.storedOnce (h : ContentInv v) : StoredOnce v := by
  have hsegment : ∀ i, (v.files i).keys.Nodup ∧ ∀ k ∈ (v.files i).keys, encode (decode k) = k := by
    intro i
    by_cases hi : i < v.ref.segments.length
    · obtain ⟨ref, seg, hslot⟩ := h.exists_slot hi
      have hok := h.segment i ref seg hslot
      exact ⟨hok.nodup, hok.keys⟩
    · rw [length_segments h.consecutive] at hi
      rw [h.unused i (by omega)]
      exact ⟨nodup_nil, nofun⟩
  refine ⟨h.consecutive, h.loaded, fun i hi => ?_, fun i => (hsegment i).2,
    fun i => (hsegment i).1, fun i j hij k hk hk' => ?_⟩
  · rw [h.unused i hi]
    rfl
  · exact h.disjoint i j hij (decode k) (mem_map_of_mem hk) (mem_map_of_mem hk')

/-- No id is stored twice, if no id that a `Batch` adds is added by another call after the `Batch`
has copied the segments. -/
theorem batches_stored_once (threshold : Int) (v : IvfPqIndex) (hv : StoredOnce v)
    (c : Config (IvfPqBatches τ) VecBatchPc τ) (log : List (VecBatchEvent τ))
    (h : Reach (IvfPqBatches.step threshold) undisturbed (start v) c log) :
    c.shared.index.ids.Nodup := by
  have hinv : BatchesInv c log := by
    refine reach_invariant ?_ ?_ h
    · exact ⟨hv, fun t => cleared_of_none rfl⟩
    · intro c log t x s pc es hinv hok hstep
      exact batchesInv_step hinv hok hstep
  exact nodup_ids_of_storedOnce hinv.stored

def replaceFive : VecBatch := ⟨[5], [5], ⟨id, fun _ => .refl _⟩⟩

def fiveStored : List (Bool × VecBatchChoice) :=
  (true, .batch replaceFive) :: List.replicate 8 (true, .proceed)

def fiveFound (t : Bool) : List (Bool × VecBatchChoice) :=
  (t, .batch replaceFive) :: List.replicate 4 (t, .proceed)

def fiveDeleted (t : Bool) : List (Bool × VecBatchChoice) := List.replicate 2 (t, .proceed)

def fiveAdded (t : Bool) : List (Bool × VecBatchChoice) := List.replicate 4 (t, .proceed)

theorem batches_stored_once_replaced :
    ∃ c, ∃ log : List (VecBatchEvent Bool),
      run (IvfPqBatches.step 1) undisturbed
        (fiveStored ++ fiveFound false ++ fiveDeleted false ++ fiveAdded false)
        (start { segments := [none] }) [] = some (c, log) ∧
      c.shared.index.ids = [5] ∧ c.shared.index.ids.Nodup := by
  have hrun : ((run (IvfPqBatches.step 1) undisturbed
      (fiveStored ++ fiveFound false ++ fiveDeleted false ++ fiveAdded false)
      (start { segments := [none] }) []).map fun r => r.1.shared.index.ids) =
      some [5] := by decide +kernel
  obtain ⟨⟨c, log⟩, hrun, hids⟩ := Option.map_eq_some_iff.1 hrun
  exact ⟨c, log, hrun, hids, batches_stored_once 1 _ contentInv_new.storedOnce c log ⟨_, hrun⟩⟩

/-- Two calls delete the id, and then both add it. The segment of the first addition is full, so
the second one goes to the next segment. -/
theorem replaced_twice :
    ((run (IvfPqBatches.step 1) replacing
        (fiveStored ++ fiveFound true ++ fiveFound false ++ fiveDeleted true ++
          fiveDeleted false ++ fiveAdded true ++ fiveAdded false)
        (start { segments := [none] }) []).map
      fun r => ((r.1.threads true).returned, (r.1.threads false).returned, r.1.shared.index.ids)) =
      some (true, true, [5, 5]) := by
  decide +kernel

end SeaSearch
