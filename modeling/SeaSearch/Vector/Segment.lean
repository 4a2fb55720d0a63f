import SeaSearch.Vector.VecCache

/-!
# An HNSW segment and its background worker

A segment keeps vectors of `d` numbers.
-/

namespace SeaSearch

open Versions

/-- A record `log/{id}`. It has no vector when `doc_del` is set. -/
structure HNSWLogRow (α : Type) (d : Nat) where
  id : Nat
  docID : Int
  vector : Option (List.Vector α d)

abbrev LogRows (α : Type) (d : Nat) := List (HNSWLogRow α d)

/-- A record `doc/{id}`. -/
structure HNSWDocRow (α : Type) (d : Nat) where
  id : Int
  vector : List.Vector α d

abbrev DocRows (α : Type) (d : Nat) := List (HNSWDocRow α d)

/-- The bluge index, with the records `latest_log_id` and `hnsw_log_id`, and the index in the file
`hnsw`: its keys with their vectors. -/
structure SegmentStore (α : Type) (d : Nat) where
  logs : LogRows α d := []
  docs : DocRows α d := []
  latestLogID : Option Nat := none
  hnswLogID : Option Nat := none
  file : Option (DocRows α d) := none

/-- The fields of `HNSWSegment`. `index` has the keys and vectors of the index that is
installed. -/
structure SegmentMemory (α : Type) (d : Nat) where
  loaded : Bool := false
  hnswLogID : Nat := 0
  latestLogID : Nat := 0
  cache : VecCache α d := .empty
  docTS : Int → Option Nat := fun _ => none
  index : Option (DocRows α d) := none

def readLogID (record : Option Nat) : Nat := record.getD 0

variable {α : Type} {d : Nat}

/-- The parameters of `Batch`. -/
structure BatchCall (α : Type) where
  addIDs : List Int
  vectors : List (List α)
  delIDs : List Int

def checkVector (d : Nat) (vector : List α) : Option (List.Vector α d) :=
  if h : vector.length = d then some ⟨vector, h⟩ else none

def BatchCall.changes (d : Nat) (c : BatchCall α) :
    Option (List (Int × Option (List.Vector α d))) :=
  if c.addIDs.length ≠ c.vectors.length then none
  else (c.vectors.mapM (checkVector d)).map fun vectors =>
    c.delIDs.map (fun docID => (docID, none)) ++
      (c.addIDs.zip vectors).map fun x => (x.1, some x.2)

/-- The log rows of the changes. Every row counts `latestLogID` up by one. -/
def logRows (latestLogID : Nat) :
    List (Int × Option (List.Vector α d)) → LogRows α d
  | [] => []
  | c :: cs => ⟨latestLogID + 1, c.1, c.2⟩ :: logRows (latestLogID + 1) cs

def SegmentStore.appendLogs (st : SegmentStore α d) (rows : LogRows α d)
    (latestLogID : Nat) : SegmentStore α d :=
  { st with
    logs := rows.foldl (put HNSWLogRow.id) st.logs
    latestLogID := some latestLogID }

def cacheRow (c : VecCache α d) (row : HNSWLogRow α d) : VecCache α d :=
  match row.vector with
  | none => c.deleteCache row.docID
  | some vector => c.updateCache row.docID vector

/-- What `Batch` does after its bluge batch. The map `docTS` of the call is copied over that of
the segment. -/
def SegmentMemory.addRows (m : SegmentMemory α d) (rows : LogRows α d) :
    SegmentMemory α d :=
  let docTS : Int → Option Nat :=
    rows.foldl (fun ts row => Function.update ts row.docID (some row.id)) fun _ => none
  { m with
    latestLogID := m.latestLogID + rows.length
    cache := rows.foldl cacheRow m.cache
    docTS := fun docID => (docTS docID).or (m.docTS docID) }

structure ReadOrder (α : Type) (d : Nat) where
  logs : Shuffle (HNSWLogRow α d)
  docs : Shuffle (HNSWDocRow α d)
  keys : Shuffle Int

/-- A log row in the batch of `applyLogs`. -/
def applyRow (docs : DocRows α d) (row : HNSWLogRow α d) : DocRows α d :=
  match row.vector with
  | none => drop HNSWDocRow.id docs row.docID
  | some vector => put HNSWDocRow.id docs ⟨row.docID, vector⟩

/-- A document of the second loop of `applyLogs`. -/
def applyDoc (logs : Int → Option (HNSWLogRow α d)) (docs : DocRows α d)
    (docID : Int) : DocRows α d :=
  match logs docID with
  | none => docs
  | some row => applyRow docs row

/-- `applyLogs`, from the rows of its reader: the newest row of each document, up to
`latestLogID`, comes to the doc rows. -/
def applyLogs (o : ReadOrder α d) (rows : LogRows α d) (latestLogID : Nat)
    (docs : DocRows α d) : DocRows α d :=
  let read := (o.logs.order rows).filter fun row => row.id ≤ latestLogID
  let logs := newest HNSWLogRow.id HNSWLogRow.docID read
  (o.keys.keys (read.map HNSWLogRow.docID)).foldl (applyDoc logs) docs

/-- `buildHNSW`, from the rows of its reader: `index.Add` for each of them. -/
def buildHNSW (o : ReadOrder α d) (docs : DocRows α d) : DocRows α d :=
  (o.docs.order docs).foldl (fun index row => index ++ [row]) []

/-- The rows that `cleanLogs` removes, from those of its reader. -/
def cleanRows (o : ReadOrder α d) (rows : LogRows α d) (logID : Nat) :
    LogRows α d :=
  (o.logs.order rows).filter fun row => row.id ≤ logID

/-- The bluge batch of `cleanLogs`. -/
def SegmentStore.removeLogs (st : SegmentStore α d) (rows : LogRows α d)
    (logID : Nat) : SegmentStore α d :=
  { st with
    logs := rows.foldl (fun logs row => drop HNSWLogRow.id logs row.id) st.logs
    hnswLogID := some logID }

/-- A document of the loop at the end of `cleanLogs`. -/
def SegmentMemory.cleanDoc (logID : Nat) (m : SegmentMemory α d) (docID : Int) :
    SegmentMemory α d :=
  if (m.docTS docID).getD 0 ≤ logID then
    { m with
      cache := m.cache.deleteCache docID
      docTS := Function.update m.docTS docID none }
  else m

/-- What `cleanLogs` does after its bluge batch. -/
def SegmentMemory.install (m : SegmentMemory α d) (o : ReadOrder α d) (logID : Nat)
    (index : DocRows α d) (docs : List Int) : SegmentMemory α d :=
  { (o.keys.keys docs).foldl (SegmentMemory.cleanDoc logID) { m with hnswLogID := logID } with
    index := some index }

def SegmentMemory.loadLogIDs (st : SegmentStore α d) (m : SegmentMemory α d) :
    SegmentMemory α d :=
  { m with
    hnswLogID := readLogID st.hnswLogID
    latestLogID := readLogID st.latestLogID }

/-- A row in the second loop of `loadLogs`. -/
def SegmentMemory.loadRow (m : SegmentMemory α d) (row : HNSWLogRow α d) : SegmentMemory α d :=
  { m with
    cache := cacheRow m.cache row
    docTS := Function.update m.docTS row.docID (some row.id) }

/-- A document of the second loop of `loadLogs`. -/
def SegmentMemory.loadDoc (logs : Int → Option (HNSWLogRow α d)) (m : SegmentMemory α d)
    (docID : Int) : SegmentMemory α d :=
  match logs docID with
  | none => m
  | some row => m.loadRow row

def SegmentMemory.loadLogs (o : ReadOrder α d) (st : SegmentStore α d) (m : SegmentMemory α d) :
    SegmentMemory α d :=
  let read := o.logs.order st.logs
  let logs := newest HNSWLogRow.id HNSWLogRow.docID read
  (o.keys.keys (read.map HNSWLogRow.docID)).foldl (SegmentMemory.loadDoc logs) m

/-- `loadHNSW`. There is no file before the first index has been saved. -/
def SegmentMemory.loadHNSW (st : SegmentStore α d) (m : SegmentMemory α d) : SegmentMemory α d :=
  match st.file with
  | none => m
  | some index => { m with index := some index }

/-- How far `load` comes before it returns; all of it is done after `hnsw`. -/
inductive LoadPart where
  | hnswLogID
  | logIDs
  | logs
  | hnsw
  deriving DecidableEq

/-- `load` up to a part. -/
def SegmentMemory.load (o : ReadOrder α d) (st : SegmentStore α d) (m : SegmentMemory α d) :
    LoadPart → SegmentMemory α d
  | .hnswLogID => { m with hnswLogID := readLogID st.hnswLogID }
  | .logIDs => m.loadLogIDs st
  | .logs => (m.loadLogIDs st).loadLogs o st
  | .hnsw => { ((m.loadLogIDs st).loadLogs o st).loadHNSW st with loaded := true }

/-- Where `BuildHNSW` is: with the rows of a reader that is open, the log id that `applyLogs`
returned, the index that `buildHNSW` returned, and the documents in the map `docs`. -/
inductive HNSWWorker (α : Type) (d : Nat) where
  | idle
  | applying (rows : LogRows α d) (latestLogID : Nat)
  | applied (logID : Nat)
  | building (logID : Nat) (rows : DocRows α d)
  | built (logID : Nat) (index : DocRows α d)
  | cleaning (logID : Nat) (index : DocRows α d) (rows : LogRows α d)
  | cleaned (logID : Nat) (index : DocRows α d) (docs : List Int)

/-- A `Batch` that has written its bluge batch and holds the mutex. -/
structure Batching (α : Type) (d : Nat) where
  call : BatchCall α
  rows : LogRows α d

/-- The segment, what it has stored, and its worker; `calls` are the calls of `Batch` that have
returned, or that a crash has cut short after their bluge batch, and `written` their rows. -/
structure HNSWSystem (α : Type) (d : Nat) where
  store : SegmentStore α d := {}
  memory : SegmentMemory α d := {}
  worker : HNSWWorker α d := .idle
  batching : Option (Batching α d) := none
  calls : List (BatchCall α) := []
  written : LogRows α d := []

inductive HNSWEvent (α : Type) (d : Nat) where
  /-- `Batch` up to its bluge batch. -/
  | batch (call : BatchCall α)
  /-- The rest of `Batch`. -/
  | batchReturn
  /-- `applyLogs` opens its reader. -/
  | applyRead
  /-- `applyLogs` writes its batch. -/
  | applyWrite (o : ReadOrder α d)
  /-- `buildHNSW` opens its reader. -/
  | buildRead
  /-- `buildHNSW` builds and saves the index. -/
  | buildSave (o : ReadOrder α d)
  /-- `cleanLogs` opens its reader. -/
  | cleanRead
  /-- `cleanLogs` writes its batch. -/
  | cleanWrite (o : ReadOrder α d)
  /-- The rest of `cleanLogs`. -/
  | cleanReturn (o : ReadOrder α d)
  /-- `BuildHNSW` returns an error. -/
  | buildFails
  | load (o : ReadOrder α d) (part : LoadPart)
  | crash

namespace HNSWSystem

/-- The rows of the `Batch` that holds the mutex. -/
def pending (s : HNSWSystem α d) : LogRows α d :=
  (s.batching.map Batching.rows).getD []

/-- The call of the `Batch` that holds the mutex. -/
def pendingCall (s : HNSWSystem α d) : List (BatchCall α) :=
  (s.batching.map Batching.call).toList

/-- A step. A call of `Batch` with wrong parameters, or whose bluge batch fails, changes
nothing; nor does an event that cannot happen in the state. -/
def step (s : HNSWSystem α d) : HNSWEvent α d → HNSWSystem α d
  | .batch call =>
    match s.memory.loaded, s.batching, call.changes d with
    | true, none, some changes =>
      let rows := logRows s.memory.latestLogID changes
      { s with
        store := s.store.appendLogs rows (s.memory.latestLogID + rows.length)
        batching := some ⟨call, rows⟩ }
    | _, _, _ => s
  | .batchReturn =>
    { s with
      memory := match s.batching with
        | none => s.memory
        | some b => s.memory.addRows b.rows
      batching := none
      calls := s.calls ++ s.pendingCall
      written := s.written ++ s.pending }
  | .applyRead =>
    match s.memory.loaded, s.batching, s.worker with
    | true, none, .idle =>
      { s with worker := .applying s.store.logs s.memory.latestLogID }
    | _, _, _ => s
  | .applyWrite o =>
    match s.worker with
    | .applying rows latestLogID =>
      { s with
        store := { s.store with docs := applyLogs o rows latestLogID s.store.docs }
        worker := .applied latestLogID }
    | _ => s
  | .buildRead =>
    match s.batching, s.worker with
    | none, .applied logID => { s with worker := .building logID s.store.docs }
    | _, _ => s
  | .buildSave o =>
    match s.worker with
    | .building logID rows =>
      { s with
        store := { s.store with file := some (buildHNSW o rows) }
        worker := .built logID (buildHNSW o rows) }
    | _ => s
  | .cleanRead =>
    match s.batching, s.worker with
    | none, .built logID index => { s with worker := .cleaning logID index s.store.logs }
    | _, _ => s
  | .cleanWrite o =>
    match s.worker with
    | .cleaning logID index rows =>
      { s with
        store := s.store.removeLogs (cleanRows o rows logID) logID
        worker := .cleaned logID index ((cleanRows o rows logID).map HNSWLogRow.docID) }
    | _ => s
  | .cleanReturn o =>
    match s.batching, s.worker with
    | none, .cleaned logID index docs =>
      { s with
        memory := s.memory.install o logID index docs
        worker := .idle }
    | _, _ => s
  | .buildFails =>
    match s.worker with
    | .cleaned _ _ _ => s
    | _ => { s with worker := .idle }
  | .load o part =>
    if s.memory.loaded then s
    else { s with memory := s.memory.load o s.store part }
  | .crash =>
    { store := s.store
      calls := s.calls ++ s.pendingCall
      written := s.written ++ s.pending }

def run (events : List (HNSWEvent α d)) : HNSWSystem α d := events.foldl step {}

end HNSWSystem

/-- A call of `Batch` on a map from documents to vectors: the deletions come first. -/
def replayCall (content : Int → Option (List α)) (c : BatchCall α) : Int → Option (List α) :=
  (c.addIDs.zip c.vectors).foldl (fun content x => Function.update content x.1 (some x.2))
    fun docID => if docID ∈ c.delIDs then none else content docID

def replay (calls : List (BatchCall α)) : Int → Option (List α) :=
  calls.foldl replayCall fun _ => none

def docVector (docs : DocRows α d) (docID : Int) : Option (List α) :=
  (lookup HNSWDocRow.id docs docID).map fun row => row.vector.toList

def SegmentStore.record (st : SegmentStore α d) (docID : Int) : Option (List α) :=
  docVector st.docs docID

/-- The content as `Search` and `SearchByIDs` have it: the cache decides about a document in
`docTS`, and the doc rows about every other. -/
def HNSWSystem.content (s : HNSWSystem α d) (docID : Int) : Option (List α) :=
  match s.memory.docTS docID with
  | some _ => s.memory.cache.get docID
  | none => s.store.record docID

/-- `cleanLogs` has written its batch and has not yet come to the memory. -/
def HNSWWorker.InClean : HNSWWorker α d → Prop
  | .cleaned _ _ _ => True
  | _ => False

/-- What holds in every state:
* `content`: the content is that of all calls of `Batch`, one after another;
* `indexed`: a document outside `docTS` has a doc row exactly when it is in the index, with the same
  vector;
* `logs`: the rows after `hnswLogID` are stored; between the batch of `cleanLogs` and its last
  part this is so for the record `hnsw_log_id` (`stored`), which the batch has written;
* `fresh`: every row has a larger log id than those before it. -/
structure Faithful (s : HNSWSystem α d) : Prop where
  content : s.memory.loaded → ∀ docID, s.content docID = replay s.calls docID
  indexed : s.memory.loaded → ∀ docID, s.memory.docTS docID = none →
    s.store.record docID = docVector (s.memory.index.getD []) docID
  logs : s.memory.loaded → ¬ s.worker.InClean → ∀ row ∈ s.written ++ s.pending,
    s.memory.hnswLogID < row.id → row ∈ s.store.logs
  stored : ∀ row ∈ s.written ++ s.pending, readLogID s.store.hnswLogID < row.id →
    row ∈ s.store.logs
  fresh : (s.written ++ s.pending).Pairwise fun row row' => row.id < row'.id

end SeaSearch
