import SeaSearch.Wal.Partition
import SeaSearch.Wal.Partial

/-!
# The document calls of an index

An index has several first-layer shards; a document id belongs to one of them. `CreateDocument`,
`UpdateDocument` and `DeleteDocument` turn a request into one operation, which is written to the WAL
of the shard or committed.
-/

namespace SeaSearch

open List WalMergeDocs SequentialLemmas

variable {σ ν δ ε κ : Type}

/-- What the calls read of an index besides its shards:
* `hasVectors`: `len(index.GetVecIndexes()) > 0`;
* `canonical`: `base62.Encode(base62.Decode(docID)) == docID`;
* `checkDocument`: `CheckDocumentOperation`, which sets a timestamp;
* `emptySource`: the source of an operation without a document. -/
structure IndexEnv (δ ε σ ν : Type) where
  hasVectors : Bool
  canonical : DocID → Bool
  checkDocument : DocID → δ → Except ε (Fields σ ν)
  timestamp : ∀ id doc f, checkDocument id doc = .ok f → f.timestamp.isSome
  emptySource : σ

/-- The errors of the calls. `notBase62` is "document ID (%v) is not a valid base62
string". -/
inductive DocError (ε : Type)
  | idNotFound
  | notBase62 (docID : DocID)
  | invalid (e : ε)
  | write (e : WriteError)

/-- `FindShardByDocID`: the second-layer shards are searched concurrently, and any
one that holds the id is the answer. -/
structure Finder {B : Bluge σ} (s : IndexShard B) where
  find : DocID → Option Nat
  found : ∀ id k, find id = some k → s.versions k id ≠ 0
  missing : ∀ id, find id = none → ∀ k, s.versions k id = 0

def Finder.first {B : Bluge σ} (s : IndexShard B) : Finder s where
  find id := (List.range s.shardNum).find? fun k => (s.versions k id).card ≠ 0
  found id k h := by
    have := List.find?_some h
    simpa using this
  missing id h k := by
    rcases lt_or_ge k s.shardNum with hk | hk
    · have := List.find?_eq_none.mp h k (mem_range.mpr hk)
      simpa using this
    · exact s.versions_of_le hk id

structure DocOperation (δ : Type) where
  docID : DocID
  doc : δ
  update : Bool

namespace IndexEnv

variable (env : IndexEnv δ ε σ ν)

/-- The operation of `CreateDocument`, and of `CreateDocuments` for each document.
Without `update` the id is not looked up. -/
def createOperation (find : DocID → Option Nat) (op : DocOperation δ) :
    Except (DocError ε) (Operation σ ν) :=
  let found := if op.update then find op.docID else none
  if env.hasVectors && !env.canonical op.docID then .error (.notBase62 op.docID)
  else
    match env.checkDocument op.docID op.doc with
    | .error e => .error (.invalid e)
    | .ok fields =>
      match found with
      | some k => .ok ⟨.update, op.docID, k, fields⟩
      | none => .ok ⟨.insert, op.docID, shardIDNeedLatest, fields⟩

/-- The operation of `UpdateDocument`. -/
def updateOperation (find : DocID → Option Nat) (docID : DocID) (doc : δ) (insert : Bool) :
    Except (DocError ε) (Operation σ ν) :=
  match find docID, insert with
  | none, false => .error .idNotFound
  | found, _ =>
    match env.checkDocument docID doc with
    | .error e => .error (.invalid e)
    | .ok fields =>
      match found with
      | some k => .ok ⟨.update, docID, k, fields⟩
      | none => .ok ⟨.insert, docID, shardIDNeedLatest, fields⟩

/-- The operation of `DeleteDocument`, and of `DeleteDocuments` for each id. -/
def deleteOperation (find : DocID → Option Nat) (docID : DocID) :
    Except (DocError ε) (Operation σ ν) :=
  match find docID with
  | some k => .ok ⟨.delete, docID, k, ⟨none, [], env.emptySource⟩⟩
  | none =>
    if env.hasVectors
    then .ok ⟨.deleteVecOnly, docID, shardIDNeedLatest, ⟨none, [], env.emptySource⟩⟩
    else .error .idNotFound

end IndexEnv

/-- The slices `opList[i:end]` of `CommitOperations` from `i` on. The fuel bounds the
number of turns. -/
def commitSlices {α : Type} (batchSize : Nat) (opList : List α) : Nat → Nat → List (List α)
  | 0, _ => []
  | fuel + 1, i =>
    if i < opList.length then
      let stop := if i + batchSize > opList.length then opList.length else i + batchSize
      (opList.drop i).take (stop - i) :: commitSlices batchSize opList fuel (i + batchSize)
    else []

/-- The slices of `CommitOperations`. -/
def slices {α : Type} (batchSize : Nat) (opList : List α) : List (List α) :=
  commitSlices batchSize opList (opList.length + 1) 0

/-- What a commit does not decide itself: `BatchSize`, the surroundings of each flush
and whether `CheckShards` finds the latest shard too large. -/
structure CommitEnv (σ ν : Type) where
  batchSize : Nat
  flush : Nat → FlushEnv σ ν
  grow : Bool

namespace IndexShard

variable {B : Bluge σ}

/-- The second loop of `CommitOperations`: one `WriteTo` for each slice. -/
def commitBatches (flush : Nat → FlushEnv σ ν) :
    Nat → List (Ops σ ν) → IndexShard B → IndexShard B × Option WriteError
  | _, [], s => (s, none)
  | i, b :: bs, s =>
    let (effects, err) := (empty.addDocuments b).writeTo (flush i) s.shardNum false
    match err with
    | some e => (s.runEffects effects, some e)
    | none => commitBatches flush (i + 1) bs (s.runEffects effects)

/-- `CommitOperations`, without the notification of the metadata update. -/
def commitOperations (env : CommitEnv σ ν) (s : IndexShard B) (opList : Ops σ ν) :
    IndexShard B × Option WriteError :=
  match s.commitBatches env.flush 0 (slices env.batchSize opList) with
  | (s, some e) => (s, some e)
  | (s, none) => ((if env.grow then s.newShard else s).updateMetadataByShard, none)

def live (s : IndexShard B) (id : DocID) : Docs σ :=
  ((List.range s.shardNum).map fun j => s.versions j id).sum

end IndexShard

structure Index (B : Bluge σ) (ν κ : Type) where
  keys : List κ
  nodup : keys.Nodup
  lookup : DocID → κ
  lookup_mem : ∀ id, lookup id ∈ keys
  stores : κ → Store B ν

/-- The surroundings of a call: what it reads of the index, the answers of
`FindShardByDocID` and what the commits do not decide themselves. -/
structure CallContext {B : Bluge σ} (δ ε : Type) (ix : Index B ν κ) where
  env : IndexEnv δ ε σ ν
  finder : ∀ k, Finder (ix.stores k).shard
  commit : κ → CommitEnv σ ν

namespace CallContext

variable {B : Bluge σ} {ix : Index B ν κ}

/-- `GetShardByDocID` and `FindShardByDocID`. -/
def find (ctx : CallContext δ ε ix) (id : DocID) : Option Nat := (ctx.finder (ix.lookup id)).find id

end CallContext

namespace Index

variable {B : Bluge σ} [DecidableEq κ]

def live (ix : Index B ν κ) (id : DocID) : Docs σ :=
  (ix.keys.map fun k => (ix.stores k).shard.live id).sum

def set (ix : Index B ν κ) (k : κ) (st : Store B ν) : Index B ν κ :=
  { ix with stores := Function.update ix.stores k st }

@[simp] theorem stores_set_self (ix : Index B ν κ) (k : κ) (st : Store B ν) :
    (ix.set k st).stores k = st :=
  Function.update_self _ _ _

theorem stores_set_of_ne (ix : Index B ν κ) (h : k' ≠ k) (st : Store B ν) :
    (ix.set k st).stores k' = ix.stores k' :=
  Function.update_of_ne h _ _

/-- The operations are sorted by first-layer shard and committed. Of several errors
one is returned. -/
def commitAll (commit : κ → CommitEnv σ ν) (ix : Index B ν κ) (ops : Ops σ ν) :
    Index B ν κ × Option (DocError ε) :=
  let list k := ops.filter fun o => ix.lookup o.docID = k
  let result k := (ix.stores k).shard.commitOperations (commit k) (list k)
  ({ ix with
      stores := fun k =>
        if (list k).isEmpty then ix.stores k else { ix.stores k with shard := (result k).1 } },
    ix.keys.findSome? fun k =>
      if (list k).isEmpty then none else (result k).2.map .write)

def write (wal : Bool) (commit : κ → CommitEnv σ ν) (ix : Index B ν κ) (o : Operation σ ν) :
    Index B ν κ × Option (DocError ε) :=
  if wal then (ix.set (ix.lookup o.docID) ((ix.stores (ix.lookup o.docID)).extend [o]), none)
  else ix.commitAll commit [o]

def createDocument (wal : Bool) (ix : Index B ν κ) (ctx : CallContext δ ε ix) (docID : DocID)
    (doc : δ) (update : Bool) : Index B ν κ × Option (DocError ε) :=
  match ctx.env.createOperation ctx.find ⟨docID, doc, update⟩ with
  | .error e => (ix, some e)
  | .ok o => ix.write wal ctx.commit o

/-- `CreateDocuments`. It does not use the WAL. -/
def createDocuments (ix : Index B ν κ) (ctx : CallContext δ ε ix) (ops : List (DocOperation δ)) :
    Index B ν κ × Option (DocError ε) :=
  match ops.mapM (ctx.env.createOperation ctx.find) with
  | .error e => (ix, some e)
  | .ok os => ix.commitAll ctx.commit os

def updateDocument (wal : Bool) (ix : Index B ν κ) (ctx : CallContext δ ε ix) (docID : DocID)
    (doc : δ) (insert : Bool) : Index B ν κ × Option (DocError ε) :=
  match ctx.env.updateOperation ctx.find docID doc insert with
  | .error e => (ix, some e)
  | .ok o => ix.write wal ctx.commit o

def deleteDocument (wal : Bool) (ix : Index B ν κ) (ctx : CallContext δ ε ix) (docID : DocID) :
    Index B ν κ × Option (DocError ε) :=
  match ctx.env.deleteOperation ctx.find docID with
  | .error e => (ix, some e)
  | .ok o => ix.write wal ctx.commit o

/-- `DeleteDocuments`. Ids that are not found are left out. It does not use the WAL. -/
def deleteDocuments (ix : Index B ν κ) (ctx : CallContext δ ε ix) (docIDs : List DocID) :
    Index B ν κ × Option (DocError ε) :=
  ix.commitAll ctx.commit (docIDs.filterMap fun id =>
    (ctx.env.deleteOperation ctx.find id).toOption)

end Index

def Index.Missing {B : Bluge σ} (ix : Index B ν κ) (id : DocID) : Prop :=
  ∀ j, (ix.stores (ix.lookup id)).shard.versions j id = 0

structure Resolved {B : Bluge σ} (s : IndexShard B) (o : Operation σ ν) : Prop where
  writePath : o.WritePath s.shardNum
  update : o.action = .update → ∃ j : Nat, o.shard = j ∧ s.versions j o.docID ≠ 0

namespace DocumentLemmas

theorem lt_of_found {B : Bluge σ} {s : IndexShard B} {k : Nat} {id : DocID}
    (h : s.versions k id ≠ 0) :
    k < s.shardNum := by
  by_contra hk
  exact h (s.versions_of_le (Nat.le_of_not_lt hk) id)

variable {B : Bluge σ} {env : IndexEnv δ ε σ ν} {s : IndexShard B} {find : DocID → Option Nat}
  {o : Operation σ ν}

theorem resolved_update {id : DocID} {k : Nat} (hk : s.versions k id ≠ 0) {fields : Fields σ ν}
    (hts : fields.timestamp.isSome) : Resolved s ⟨.update, id, k, fields⟩ :=
  ⟨⟨Int.natCast_nonneg k, Int.ofNat_lt.mpr (lt_of_found hk), hts⟩, fun _ => ⟨k, rfl, hk⟩⟩

theorem resolved_insert {id : DocID} {fields : Fields σ ν} (hts : fields.timestamp.isSome) :
    Resolved s (⟨.insert, id, shardIDNeedLatest, fields⟩ : Operation σ ν) :=
  ⟨⟨rfl, hts⟩, nofun⟩

theorem createOperation_resolved (h : env.createOperation find op = .ok o)
    (hfind : ∀ k, find op.docID = some k → s.versions k op.docID ≠ 0) :
    o.docID = op.docID ∧ Resolved s o ∧
      (o.action = .insert → op.update = false ∨ find op.docID = none) := by
  unfold IndexEnv.createOperation at h
  generalize hfound : (if op.update then find op.docID else none) = found at h
  simp only at h
  split at h
  · cases h
  split at h
  · cases h
  next fields hfields =>
  have hts := env.timestamp _ _ _ hfields
  cases found with
  | some k =>
    cases h
    have hf : find op.docID = some k := by
      cases hu : op.update with
      | false => simp [hu] at hfound
      | true => simpa [hu] using hfound
    exact ⟨rfl, resolved_update (hfind k hf) hts, nofun⟩
  | none =>
    cases h
    refine ⟨rfl, resolved_insert hts, fun _ => ?_⟩
    cases hu : op.update with
    | false => exact .inl rfl
    | true => exact .inr (by simpa [hu] using hfound)

theorem updateOperation_resolved {docID : DocID} {doc : δ} {upsert : Bool}
    (h : env.updateOperation find docID doc upsert = .ok o)
    (hfind : ∀ k, find docID = some k → s.versions k docID ≠ 0) :
    o.docID = docID ∧ Resolved s o ∧ (o.action = .insert → upsert = true ∧ find docID = none) := by
  unfold IndexEnv.updateOperation at h
  split at h
  · cases h
  next hins =>
  split at h
  · cases h
  next fields hfields =>
  have hts := env.timestamp _ _ _ hfields
  split at h
  · next k hk =>
    cases h
    exact ⟨rfl, resolved_update (hfind k hk) hts, nofun⟩
  · next hnone =>
    cases h
    exact ⟨rfl, resolved_insert hts, fun _ => ⟨eq_true_of_ne_false (hins hnone), hnone⟩⟩

theorem deleteOperation_resolved {docID : DocID} (h : env.deleteOperation find docID = .ok o)
    (hfind : ∀ k, find docID = some k → s.versions k docID ≠ 0) :
    o.docID = docID ∧ Resolved s o ∧ o.action ≠ .insert := by
  unfold IndexEnv.deleteOperation at h
  split at h
  · next k hk =>
    cases h
    exact ⟨rfl, ⟨⟨Int.natCast_nonneg k, Int.ofNat_lt.mpr (lt_of_found (hfind k hk))⟩, nofun⟩, nofun⟩
  · split at h
    · cases h
      exact ⟨rfl, ⟨rfl, nofun⟩, nofun⟩
    · cases h

section Context

variable {ix : Index B ν κ} {ctx : CallContext δ ε ix}

theorem find_some {id : DocID} (h : ctx.find id = some k) :
    (ix.stores (ix.lookup id)).shard.versions k id ≠ 0 :=
  (ctx.finder (ix.lookup id)).found id k h

theorem find_none {id : DocID} (h : ctx.find id = none) : ix.Missing id :=
  (ctx.finder (ix.lookup id)).missing id h

end Context

variable {α : Type} {batchSize : Nat}

theorem flatten_commitSlices (hb : 0 < batchSize) (l : List α) (hfuel : l.length < i + fuel) :
    (commitSlices batchSize l fuel i).flatten = l.drop i := by
  induction fuel generalizing i with
  | zero => simp [commitSlices, drop_eq_nil_of_le (show l.length ≤ i by omega)]
  | succ fuel ih =>
    rw [commitSlices]
    by_cases hi : i < l.length
    · rw [if_pos hi, flatten_cons, ih (by omega)]
      by_cases hend : i + batchSize > l.length
      · rw [if_pos hend, drop_eq_nil_of_le (show l.length ≤ i + batchSize by omega),
          append_nil, take_of_length_le (by simp)]
      · rw [if_neg hend, Nat.add_sub_cancel_left, ← drop_drop, take_append_drop]
    · rw [if_neg hi, drop_eq_nil_of_le (by omega)]
      rfl

theorem mem_of_mem_commitSlices (hb : b ∈ commitSlices batchSize l fuel i) (hx : x ∈ b) :
    x ∈ l := by
  induction fuel generalizing i with
  | zero => cases hb
  | succ fuel ih =>
    rw [commitSlices] at hb
    split at hb
    · rcases mem_cons.mp hb with rfl | hb
      · exact mem_of_mem_drop (mem_of_mem_take hx)
      · exact ih hb
    · cases hb

theorem map_commitSlices {β : Type} (f : α → β) (l : List α) (fuel i : Nat) :
    (commitSlices batchSize l fuel i).map (List.map f) =
      commitSlices batchSize (l.map f) fuel i := by
  induction fuel generalizing i with
  | zero => rfl
  | succ fuel ih =>
    rw [commitSlices, commitSlices, length_map]
    split
    · rw [map_cons, ih, map_take, map_drop]
    · rfl

end DocumentLemmas

open DocumentLemmas

theorem flatten_slices {α : Type} {batchSize : Nat} (hb : 0 < batchSize) (l : List α) :
    (slices batchSize l).flatten = l := by
  rw [slices, flatten_commitSlices hb l (by omega), drop_zero]

theorem mem_of_mem_slices {α : Type} {batchSize : Nat} {l b : List α} (hb : b ∈ slices batchSize l)
    {x : α} (hx : x ∈ b) : x ∈ l :=
  mem_of_mem_commitSlices hb hx

theorem map_slices {α β : Type} (batchSize : Nat) (f : α → β) (l : List α) :
    (slices batchSize l).map (List.map f) = slices batchSize (l.map f) := by
  rw [slices, slices, map_commitSlices, length_map]

namespace DocumentLemmas

theorem slices_single {batchSize : Nat} (hbatch : 0 < batchSize) {α : Type} (x : α) :
    slices batchSize [x] = [[x]] := by
  simp only [slices, commitSlices, length_singleton, zero_add, Nat.lt_one_iff,
    if_neg (ne_of_gt hbatch), drop_zero, Nat.sub_zero, if_true]
  congr 1
  refine take_of_length_le ?_
  rw [length_singleton]
  split <;> omega

theorem mapM_ok {α β γ : Type} {f : α → Except γ β} {l : List α} {r : List β}
    (h : l.mapM f = .ok r) : List.Forall₂ (fun a b => f a = .ok b) l r := by
  induction l generalizing r with
  | nil =>
    cases h
    exact .nil
  | cons a l ih =>
    rw [mapM_cons] at h
    cases ha : f a with
    | error e => simp [ha, bind, Except.bind] at h
    | ok b =>
      cases hl : l.mapM f with
      | error e => simp [ha, hl, bind, Except.bind] at h
      | ok bs =>
        simp only [ha, hl, bind, Except.bind, pure, Except.pure, Except.ok.injEq] at h
        exact h ▸ .cons ha (ih hl)

theorem exists_of_mem_mapM {α β γ : Type} {f : α → Except γ β} {l : List α} {r : List β}
    (h : l.mapM f = .ok r) {b : β} (hb : b ∈ r) : ∃ a ∈ l, f a = .ok b := by
  have hall := mapM_ok h
  clear h
  induction hall with
  | nil => cases hb
  | cons ha _ ih =>
    rcases mem_cons.mp hb with rfl | hb
    · exact ⟨_, mem_cons_self, ha⟩
    · obtain ⟨a, hmem, ha⟩ := ih hb
      exact ⟨a, mem_cons_of_mem _ hmem, ha⟩

end DocumentLemmas

namespace IndexShard

variable {B : Bluge σ} {s t : IndexShard B}

def flushes (flush : Nat → FlushEnv σ ν) :
    Nat → List (Ops σ ν) → IndexShard B → IndexShard B
  | _, [], s => s
  | i, b :: bs, s => flushes flush (i + 1) bs (s.flush (flush i) (empty.addDocuments b))

theorem shardNum_flushes (flush : Nat → FlushEnv σ ν) (i : Nat)
    (bs : List (Ops σ ν)) (s : IndexShard B) :
    (flushes flush i bs s).shardNum = s.shardNum := by
  induction bs generalizing i s with
  | nil => rfl
  | cons b bs ih => exact (ih (i + 1) _).trans (shardNum_flush s _ _)

theorem commitBatches_eq (flush : Nat → FlushEnv σ ν) (i : Nat)
    (hbs : ∀ b ∈ bs, ∀ o ∈ b, o.WritePath s.shardNum) :
    s.commitBatches flush i bs = (flushes flush i bs s, none) := by
  induction bs generalizing i s with
  | nil => rfl
  | cons b bs ih =>
    have hadr := addressed_addDocuments s.shardNum_pos (addressed_empty (σ := σ) (ν := ν)) b
      (hbs b mem_cons_self)
    have herr := (writeTo_committed (flush i) s.shardNum_pos hadr).1
    rw [commitBatches]
    simp only [herr]
    refine ih (s := s.flush (flush i) (empty.addDocuments b)) (i + 1) fun b' hb' o ho => ?_
    rw [shardNum_flush]
    exact hbs b' (mem_cons_of_mem _ hb') o ho

theorem commitOperations_spec (env : CommitEnv σ ν) {ops : Ops σ ν}
    (hops : ∀ o ∈ ops, o.WritePath s.shardNum) :
    (s.commitOperations env ops).2 = none ∧ s.shardNum ≤ (s.commitOperations env ops).1.shardNum ∧
      ∀ j id, (s.commitOperations env ops).1.versions j id =
        (flushes env.flush 0 (slices env.batchSize ops) s).versions j id := by
  have hslices : ∀ b ∈ slices env.batchSize ops, ∀ o ∈ b, o.WritePath s.shardNum :=
    fun b hb o ho => hops o (mem_of_mem_slices hb ho)
  have hbatches := commitBatches_eq env.flush 0 hslices
  have hnum := shardNum_flushes env.flush 0 (slices env.batchSize ops) s
  rw [commitOperations, hbatches]
  cases env.grow
  · exact ⟨rfl, by simp [hnum], fun j id => by simp⟩
  · exact ⟨rfl, by simp [hnum], fun j id => by simp⟩

theorem live_eq_range (hn : s.shardNum ≤ n) (id : DocID) :
    s.live id = ((List.range n).map fun j => s.versions j id).sum := by
  obtain ⟨d, rfl⟩ := Nat.exists_eq_add_of_le hn
  induction d with
  | zero => rfl
  | succ d ih =>
    rw [← add_assoc, range_succ, map_append, sum_append, ← ih (by omega)]
    simp [s.versions_of_le (show s.shardNum ≤ s.shardNum + d by omega)]

theorem live_of_single {id : DocID} (h : ∀ j, j ≠ k → s.versions j id = 0) :
    s.live id = s.versions k id := by
  have hk : k ∈ List.range (max s.shardNum (k + 1)) := mem_range.mpr (by omega)
  rw [live_eq_range (show s.shardNum ≤ max s.shardNum (k + 1) by omega),
    sum_map_eq_nsmul_single k _ fun j hj _ => h j hj,
    count_eq_one_of_mem nodup_range hk, one_nsmul]

theorem live_eq_zero_iff {id : DocID} : s.live id = 0 ↔ ∀ j, s.versions j id = 0 := by
  constructor
  · intro h j
    rcases lt_or_ge j s.shardNum with hj | hj
    · exact sum_eq_zero_iff.mp h _ (mem_map_of_mem (mem_range.mpr hj))
    · exact s.versions_of_le hj id
  · intro h
    rw [live_of_single (k := 0) fun j _ => h j, h]

end IndexShard

theorem Index.live_own {B : Bluge σ} {ix : Index B ν κ} {id : DocID}
    (h : ∀ k, ix.lookup id ≠ k → ∀ j, (ix.stores k).shard.versions j id = 0) :
    ix.live id = (ix.stores (ix.lookup id)).shard.live id := by
  have hother : ∀ k, k ≠ ix.lookup id → k ∈ ix.keys → (ix.stores k).shard.live id = 0 :=
    fun k hk _ => IndexShard.live_eq_zero_iff.mpr (h k (Ne.symm hk))
  classical
  rw [Index.live, sum_map_eq_nsmul_single (ix.lookup id) _ hother,
    count_eq_one_of_mem ix.nodup (ix.lookup_mem id), one_nsmul]

end SeaSearch
