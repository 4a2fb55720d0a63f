import SeaSearch.Base62
import SeaSearch.Lib.Versions

/-!
# An IVFPQ index

An IVFPQ index has several segments. Vectors are added to the current one, the last.
-/

namespace SeaSearch

open List
open Versions (Shuffle)

/-- `vector.StatusGrowing` and `vector.StatusSealed`. -/
inductive SegmentStatus
  | growing
  | sealed
  deriving DecidableEq

structure VectorSegment where
  id : Nat
  status : SegmentStatus := .growing
  count : Nat := 0
  deriving DecidableEq

/-- The fields of `meta.VecIndex` that its segments use, with the values that `SetMappings` gives
them. -/
structure VecIndexMeta where
  segments : List VectorSegment := [{ id := 0 }]
  currentSegmentId : Nat := 0
  count : Nat := 0
  deriving DecidableEq

/-- What is stored of a segment: the keys of the bluge index, if it was ever written, and the ids
of the faiss index in its file. -/
structure SegmentFiles where
  storedVec : Option (List (List UInt8)) := none
  faiss : Option (List Int) := none
  deriving DecidableEq

/-- The documents that a reader finds. There is no reader of an index that was never written. -/
def SegmentFiles.keys (f : SegmentFiles) : List (List UInt8) := f.storedVec.getD []

/-- `getAllVectors`: the ids of all documents. -/
def SegmentFiles.ids (f : SegmentFiles) : List Int := f.keys.map Base62.decode

def SegmentFiles.getExistsIds (f : SegmentFiles) (ids : List Int) : List Int :=
  (f.keys.filter (· ∈ ids.map Base62.encode)).map Base62.decode

/-- The bluge batch of `removeIDs`. -/
def SegmentFiles.delete (f : SegmentFiles) (ids : List Int) : SegmentFiles :=
  { f with storedVec := some (f.keys.filter (· ∉ ids.map Base62.encode)) }

/-- The bluge batch of `addVectors`. -/
def SegmentFiles.insert (f : SegmentFiles) (ids : List Int) : SegmentFiles :=
  { f with storedVec := some (ids.map Base62.encode ∪ f.keys) }

/-- The cached ids of an `IVFPQSegment` and the ids of its faiss index. -/
structure IVFPQSegment where
  ids : Option (List Int) := none
  index : Option (List Int) := none
  deriving DecidableEq

/-- An `IvfPqIndex` with its metadata in memory and in the storage. A segment that is not loaded
is `none`, and `files` has what is stored under the id of a segment. -/
structure IvfPqIndex where
  ref : VecIndexMeta := {}
  segments : List (Option IVFPQSegment) := []
  files : Nat → SegmentFiles := fun _ => {}
  saved : VecIndexMeta := {}

/-- How the construction of a faiss index in `Seal` ends: `factory` is an error before `s.index` is
set and `file` is an error of `saveFaissIndex`. -/
inductive SealResult
  | built
  | factory
  | file
  deriving DecidableEq

/-- The steps of the calls. `pos` is a position in the list of segments. -/
inductive VecStep
  | load (pos : Nat)
  | removeIDs (pos : Nat) (ids : List Int)
  | addVectors (pos : Nat) (ids : List Int)
  | save (pos : Nat)
  | checkNewSeg (pos : Nat)
  | setCount
  | getVecCaches (pos : Nat)
  | buildIndex (pos : Nat) (result : SealResult)
  | saveVecIndexMeta
  deriving DecidableEq

namespace IvfPqIndex

def segment (v : IvfPqIndex) (pos : Nat) : Option (VectorSegment × IVFPQSegment) :=
  match v.ref.segments[pos]?, v.segments[pos]? with
  | some ref, some (some seg) => some (ref, seg)
  | _, _ => none

def setSegment (v : IvfPqIndex) (pos : Nat) (seg : IVFPQSegment) : IvfPqIndex :=
  { v with segments := v.segments.set pos (some seg) }

def setRef (v : IvfPqIndex) (pos : Nat) (ref : VectorSegment) : IvfPqIndex :=
  { v with ref := { v.ref with segments := v.ref.segments.set pos ref } }

def setFiles (v : IvfPqIndex) (id : Nat) (f : SegmentFiles) : IvfPqIndex :=
  { v with files := Function.update v.files id f }

def openIVFPQSegment (v : IvfPqIndex) (ref : VectorSegment) : Option IVFPQSegment :=
  match ref.status with
  | .growing => some {}
  | .sealed => (v.files ref.id).faiss.map fun ids => { index := some ids }

/-- A turn of `loadSegments`, and `loadCurrentSegment`. -/
def load (v : IvfPqIndex) (pos : Nat) : Option IvfPqIndex :=
  match v.ref.segments[pos]?, v.segments[pos]? with
  | _, some (some _) => some v
  | some ref, some none => (v.openIVFPQSegment ref).map (v.setSegment pos)
  | _, _ => none

def dropFromIndex (ref : VectorSegment) (seg : IVFPQSegment) (ids : List Int) :
    Option IVFPQSegment :=
  match ref.status with
  | .growing => some seg
  | .sealed => seg.index.map fun index => { seg with index := some (index.filter (· ∉ ids)) }

def removeIDs (v : IvfPqIndex) (pos : Nat) (ids : List Int) : Option IvfPqIndex := do
  let (ref, seg) ← v.segment pos
  let seg ← dropFromIndex ref seg ids
  return (v.setSegment pos seg).setFiles ref.id ((v.files ref.id).delete ids)

def addVectors (v : IvfPqIndex) (pos : Nat) (ids : List Int) : Option IvfPqIndex := do
  let (ref, _) ← v.segment pos
  guard (ref.status = .growing)
  return v.setFiles ref.id ((v.files ref.id).insert ids)

/-- `save`. The count of a segment that was never written is not touched. -/
def save (v : IvfPqIndex) (pos : Nat) : Option IvfPqIndex := do
  let (ref, seg) ← v.segment pos
  let f := v.files ref.id
  match ref.status with
  | .growing =>
    let count := (f.storedVec.map List.length).getD ref.count
    return (v.setSegment pos { seg with ids := none }).setRef pos { ref with count }
  | .sealed =>
    let index ← seg.index
    return (v.setRef pos { ref with count := index.length }).setFiles ref.id
      { f with faiss := some index }

def appendSegment (v : IvfPqIndex) : IvfPqIndex :=
  { v with
    segments := v.segments ++ [none]
    ref := { v.ref with
      currentSegmentId := v.ref.currentSegmentId + 1
      segments := v.ref.segments ++ [{ id := v.ref.currentSegmentId + 1 }] } }

def checkNewSeg (threshold : Int) (v : IvfPqIndex) (pos : Nat) : Option IvfPqIndex := do
  let (ref, _) ← v.segment pos
  return if threshold ≤ ref.count then v.appendSegment else v

/-- The end of `Batch`. -/
def setCount (v : IvfPqIndex) : IvfPqIndex :=
  { v with ref := { v.ref with count := (v.ref.segments.map VectorSegment.count).sum } }

/-- `getVecCaches` of a segment, which a search of a growing segment and `Seal` call. -/
def getVecCaches (v : IvfPqIndex) (pos : Nat) : Option (IvfPqIndex × List Int) := do
  let (ref, seg) ← v.segment pos
  let ids := seg.ids.getD (v.files ref.id).ids
  return (v.setSegment pos { seg with ids := some ids }, ids)

/-- What `Seal` does with the ids and the vectors. -/
def buildIndex (v : IvfPqIndex) (pos : Nat) (ids : List Int) (result : SealResult) :
    IvfPqIndex × Bool :=
  match v.segment pos with
  | none => (v, false)
  | some (ref, seg) =>
    if ids = [] then (v, true)
    else
      match result with
      | .factory => (v, false)
      | .file => (v.setSegment pos { seg with index := some ids }, false)
      | .built =>
        (((v.setSegment pos { ids := none, index := some ids }).setRef pos
          { ref with status := .sealed }).setFiles ref.id
            { v.files ref.id with faiss := some ids }, true)

def orFail (v : IvfPqIndex) (r : Option IvfPqIndex) : IvfPqIndex × Bool := (r.getD v, r.isSome)

def exec (threshold : Int) (v : IvfPqIndex) : VecStep → IvfPqIndex × Bool
  | .load pos => v.orFail (v.load pos)
  | .removeIDs pos ids => v.orFail (v.removeIDs pos ids)
  | .addVectors pos ids => v.orFail (v.addVectors pos ids)
  | .save pos => v.orFail (v.save pos)
  | .checkNewSeg pos => v.orFail (v.checkNewSeg threshold pos)
  | .setCount => (v.setCount, true)
  | .getVecCaches pos => v.orFail ((v.getVecCaches pos).map Prod.fst)
  | .buildIndex pos result =>
    match v.getVecCaches pos with
    | none => (v, false)
    | some (v', ids) => v'.buildIndex pos ids result
  | .saveVecIndexMeta => ({ v with saved := v.ref }, true)

def runSteps (threshold : Int) : List VecStep → IvfPqIndex → IvfPqIndex × Bool
  | [], v => (v, true)
  | step :: steps, v =>
    if (v.exec threshold step).2 then runSteps threshold steps (v.exec threshold step).1
    else v.exec threshold step

end IvfPqIndex

/-- The parameters of `Batch`. The deletions of the segments are a map, whose order is `order`. -/
structure VecBatch where
  addIds : List Int
  deleteIds : List Int
  order : Shuffle (Nat × List Int)

/-- The calls of an index. `result` is how the construction of a faiss index ends. -/
inductive VecCall
  | batch (b : VecBatch)
  | sealSeg (result : Nat → SealResult)
  | search

namespace IvfPqIndex

def loadAllSegments (v : IvfPqIndex) : List VecStep :=
  (List.range v.ref.segments.length).map .load

def getDelBatches (v : IvfPqIndex) (deleteIds : List Int) : List (Nat × List Int) :=
  (v.ref.segments.zipIdx.map fun (ref, pos) =>
    (pos, (v.files ref.id).getExistsIds deleteIds)).filter fun b => b.2 ≠ []

/-- `processDel`. Loading the segments does not change what is stored. -/
def processDel (v : IvfPqIndex) (b : VecBatch) : List VecStep :=
  if b.deleteIds = [] then []
  else v.loadAllSegments ++
    (b.order.order (v.getDelBatches b.deleteIds)).flatMap fun (pos, ids) =>
      [.removeIDs pos ids, .save pos]

def processAdd (pos : Nat) (addIds : List Int) : List VecStep :=
  .load pos :: (if addIds = [] then [] else [.addVectors pos addIds]) ++
    [.save pos, .checkNewSeg pos]

/-- The segments that `SealSeg` seals. -/
def needSealSegIds (threshold : Int) (v : IvfPqIndex) : List Nat :=
  (v.ref.segments.filter fun ref => ref.status = .growing ∧
    ref.id ≠ v.ref.currentSegmentId ∧ threshold ≤ ref.count).map VectorSegment.id

def steps (threshold : Int) (v : IvfPqIndex) : VecCall → List VecStep
  | .batch b => v.processDel b ++ processAdd v.ref.currentSegmentId b.addIds ++ [.setCount]
  | .sealSeg result =>
    (v.needSealSegIds threshold).map .load ++
      (v.needSealSegIds threshold).flatMap fun pos =>
        [.buildIndex pos (result pos), .saveVecIndexMeta]
  | .search =>
    v.loadAllSegments ++ ((v.ref.segments.zipIdx.filter fun (ref, _) =>
      ref.status = .growing).map fun (_, pos) => .getVecCaches pos)

def call (threshold : Int) (v : IvfPqIndex) (c : VecCall) : IvfPqIndex × Bool :=
  runSteps threshold (v.steps threshold c) v

end IvfPqIndex

/-- What `checkStoredSegments` finds in the storage: the ids that `ListVecSegments` returns,
unless it fails, the number of documents that the reader of a segment gives, and whether the
metadata can be saved. -/
structure SegmentListing where
  ids : Option (List Int)
  nodup : ∀ l, ids = some l → l.Nodup
  count : Nat → Option Nat
  saves : Bool

/-- The errors of `MakeVecIndex`. -/
inductive VecIndexError
  | list
  | corruption
  | reader
  | save
  deriving DecidableEq

namespace VecIndexMeta

def corrupted (ref : VecIndexMeta) (ids : List Int) : Bool :=
  ref.segments.any fun seg => (seg.id : Int) ∉ ids ∧ seg.id ≠ ref.currentSegmentId

def addStored (count : Nat → Option Nat) (ref : VecIndexMeta) :
    List Nat → VecIndexMeta × Option VecIndexError
  | [] => (ref, none)
  | id :: ids =>
    match count id with
    | none => (ref, some .reader)
    | some n =>
      addStored count { ref with segments := ref.segments ++ [{ id := id, count := n }] } ids

def unrecorded (ref : VecIndexMeta) (ids : List Int) : List Nat :=
  List.range' (ref.currentSegmentId + 1) (ids.length - (ref.currentSegmentId + 1))

end VecIndexMeta

namespace IvfPqIndex

/-- `checkStoredSegments`. The metadata may have changed when there is an error. -/
def checkStoredSegments (v : IvfPqIndex) (listing : SegmentListing) :
    IvfPqIndex × Option VecIndexError :=
  match listing.ids with
  | none => (v, some .list)
  | some ids =>
    if v.ref.corrupted ids then (v, some .corruption)
    else if ids.length = v.ref.segments.length then (v, none)
    else
      match VecIndexMeta.addStored listing.count v.ref (v.ref.unrecorded ids) with
      | (ref, some e) => ({ v with ref }, some e)
      | (ref, none) =>
        if listing.saves then ({ v with ref, saved := ref }, none)
        else ({ v with ref }, some .save)

/-- `MakeVecIndex`. There is no index after an error. -/
def makeVecIndex (v : IvfPqIndex) (listing : SegmentListing) :
    IvfPqIndex × Option VecIndexError :=
  match v.checkStoredSegments listing with
  | (v, some e) => (v, some e)
  | (v, none) => ({ v with segments := List.replicate v.ref.segments.length none }, none)

end IvfPqIndex

/-- The segments are numbered from 0 to the current one. -/
def VecIndexMeta.Consecutive (ref : VecIndexMeta) : Prop :=
  ref.segments.map VectorSegment.id = List.range (ref.currentSegmentId + 1)

namespace IvfPqLemmas

variable {ref : VecIndexMeta} {v : IvfPqIndex}

theorem length_segments (h : ref.Consecutive) :
    ref.segments.length = ref.currentSegmentId + 1 := by
  have hlen := congrArg List.length h
  rwa [length_map, length_range] at hlen

theorem consecutive_iff : ref.Consecutive ↔
    (∀ (i : Nat) (seg : VectorSegment), ref.segments[i]? = some seg → seg.id = i) ∧
      ref.segments.getLast?.map VectorSegment.id = some ref.currentSegmentId := by
  constructor
  · intro h
    refine ⟨fun i seg hseg => ?_, ?_⟩
    · have hi : (List.range (ref.currentSegmentId + 1))[i]? = some seg.id := by
        rw [← h, List.getElem?_map, hseg, Option.map_some]
      obtain ⟨hlt, heq⟩ := List.getElem?_eq_some_iff.1 hi
      rw [← heq, getElem_range]
    · rw [← List.getLast?_map, h, range_succ, List.getLast?_concat]
  · rintro ⟨hids, hlast⟩
    have hrange : ref.segments.map VectorSegment.id = List.range ref.segments.length := by
      refine ext_getElem (by simp) fun i h₁ h₂ => ?_
      rw [getElem_map, getElem_range]
      exact hids i _ (List.getElem?_eq_getElem _)
    rw [← List.getLast?_map, hrange] at hlast
    cases hn : ref.segments.length with
    | zero => simp [hn] at hlast
    | succ n =>
      rw [hn, range_succ, List.getLast?_concat, Option.some.injEq] at hlast
      rw [VecIndexMeta.Consecutive, hrange, hn, hlast]

theorem segment_some (h : v.segment pos = some r) :
    v.ref.segments[pos]? = some r.1 ∧ v.segments[pos]? = some (some r.2) := by
  unfold IvfPqIndex.segment at h
  split at h
  · next ref seg hr hs =>
    cases h
    exact ⟨hr, hs⟩
  · cases h

end IvfPqLemmas

end SeaSearch
