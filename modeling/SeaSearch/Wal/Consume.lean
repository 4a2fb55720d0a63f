import SeaSearch.Wal.Sequential

/-!
# Consuming the WAL

`ConsumeWAL` reads the entries after the last recorded flush, collects them and flushes them in
batches. Each flush is bracketed by a redo Read and a redo Write record.
-/

namespace SeaSearch

open List Traces WalMergeDocs SequentialLemmas

variable {σ ν : Type}

inductive RedoAction
  | read
  | write
  deriving DecidableEq, Repr

/-- The entries written to a WAL and the index of the first one it still holds.
The first entry written has index 1. -/
structure Wal (σ ν : Type) where
  entries : Ops σ ν := []
  first : Nat := 1

namespace Wal

def lastIndex (w : Wal σ ν) : Nat := w.entries.length

def write (w : Wal σ ν) (o : Operation σ ν) : Wal σ ν := { w with entries := w.entries ++ [o] }

def read (w : Wal σ ν) (i : Nat) : Option (Operation σ ν) :=
  if i = 0 ∨ i < w.first then none else w.entries[i - 1]?

/-- `TruncateFront`: the entry `i` becomes the first one. -/
def truncateFront (w : Wal σ ν) (i : Nat) : Option (Wal σ ν) :=
  if i = 0 ∨ i < w.first ∨ w.lastIndex < i then none else some { w with first := i }

end Wal

/-- The arithmetic on `uint64` indexes. -/
inductive Uint64Op
  | add
  | sub
  deriving DecidableEq, Repr

/-- One event of a call. The arithmetic of the cursors is among the events, so
that it can be said not to wrap around. -/
inductive Event (σ ν : Type)
  | uint64 (op : Uint64Op) (a b : Nat)
  | addDocument (index : Nat)
  | redo (action : RedoAction) (minID maxID : Nat)
  | effect (e : Effect σ ν)
  | truncateFront (index : Nat)
  | newShard
  | updateMetadata

abbrev Events (σ ν : Type) := List (Event σ ν)

/-- The event is an addition or subtraction on `uint64` that wraps around. -/
def Event.wraps : Event σ ν → Bool
  | .uint64 .add a b => 2 ^ 64 ≤ a + b
  | .uint64 .sub a b => a < b
  | _ => false

structure Store (B : Bluge σ) (ν : Type) where
  shard : IndexShard B
  wal : Wal σ ν := {}
  redoRead : Option (Nat × Nat) := none
  redoWrite : Option (Nat × Nat) := none

namespace Store

variable {B : Bluge σ}

def redoMax (st : Store B ν) : Nat := (st.redoWrite.map Prod.snd).getD 0

def apply (st : Store B ν) : Event σ ν → Store B ν
  | .uint64 _ _ _ => st
  | .addDocument _ => st
  | .redo .read a b => { st with redoRead := some (a, b) }
  | .redo .write a b => { st with redoWrite := some (a, b) }
  | .effect e => { st with shard := st.shard.runEffect e }
  | .truncateFront i => { st with wal := (st.wal.truncateFront i).getD st.wal }
  | .newShard => { st with shard := st.shard.newShard }
  | .updateMetadata => { st with shard := st.shard.updateMetadataByShard }

def run (st : Store B ν) (es : Events σ ν) : Store B ν := es.foldl apply st

end Store

/-- Addition on `uint64`. -/
def uadd (a b : Nat) : Traced (Event σ ν) Nat := do
  .step (.uint64 .add a b)
  pure ((a + b) % 2 ^ 64)

/-- Subtraction on `uint64`. -/
def usub (a b : Nat) : Traced (Event σ ν) Nat := do
  .step (.uint64 .sub a b)
  pure ((a + (2 ^ 64 - b)) % 2 ^ 64)

def maxBatchSize : Nat := 10240

/-- What a call does not decide itself: `BatchSize`, the surroundings of the
flush that starts at an index, and whether `CheckShards` finds the latest shard
too large. -/
structure CallEnv (σ ν : Type) where
  batchSize : Nat
  flush : Nat → FlushEnv σ ν
  grow : Bool

/-- The variables of the loop of `ConsumeWAL`. -/
structure Cursor (σ ν : Type) where
  minID : Nat
  startID : Nat
  docs : WalMergeDocs σ ν

/-- One flush: the redo Read record, `WriteTo` and the redo Write record. -/
def flushDocs (env : FlushEnv σ ν) (shardNum startID minID : Nat) (docs : WalMergeDocs σ ν) :
    Traced (Event σ ν) Unit := do
  .step (.redo .read startID minID)
  let (effects, err) := docs.writeTo env shardNum false
  .stepAll (effects.map .effect)
  if err.isSome then .ofOption none
  else .step (.redo .write startID minID)

/-- The loop of `ConsumeWAL`. The fuel bounds the number of turns. -/
def consumeLoop (env : CallEnv σ ν) (shardNum : Nat) (wal : Wal σ ν) (maxID : Nat) :
    Nat → Cursor σ ν → Traced (Event σ ν) (Cursor σ ν)
  | 0, _ => .ofOption none
  | fuel + 1, c =>
    if c.minID ≤ maxID then do
      let entry ← .ofOption (wal.read c.minID)
      .step (.addDocument c.minID)
      let docs := c.docs.addDocument entry
      if docs.maxShardLen ≥ env.batchSize then do
        flushDocs (env.flush c.startID) shardNum c.startID c.minID docs
        let startID ← uadd c.minID 1
        let minID ← uadd c.minID 1
        consumeLoop env shardNum wal maxID fuel ⟨minID, startID, docs.reset⟩
      else do
        let minID ← uadd c.minID 1
        consumeLoop env shardNum wal maxID fuel ⟨minID, c.startID, docs⟩
    else pure c

/-- The part of `ConsumeWAL` that reads the entries `minID, …, maxID` and flushes
them: the loop and the flush of what it leaves. -/
def consumeBatches (env : CallEnv σ ν) (shardNum : Nat) (wal : Wal σ ν) (minID maxID : Nat) :
    Traced (Event σ ν) Nat := do
  let c ← consumeLoop env shardNum wal maxID (maxID + 2 - minID) ⟨minID, minID, .empty⟩
  let minID ← usub c.minID 1
  if c.docs.maxShardLen > 0 then do
    flushDocs (env.flush c.startID) shardNum c.startID minID c.docs
    pure minID
  else pure minID

/-- The last index that a call reads: at most `MaxBatchSize` after `minID`. -/
def limitMaxID (minID lastIndex : Nat) : Traced (Event σ ν) Nat := do
  let backlog ← usub lastIndex minID
  if backlog > maxBatchSize then uadd minID maxBatchSize else pure lastIndex

/-- `ConsumeWAL`. The result says whether there were new entries; a call that
returns early because of an error has none. -/
def consumeWAL {B : Bluge σ} (env : CallEnv σ ν) (st : Store B ν) : Traced (Event σ ν) Bool := do
  let minID := st.redoMax
  let lastIndex := st.wal.lastIndex
  if minID = lastIndex then pure false
  else do
    let maxID ← limitMaxID minID lastIndex
    let minID ← uadd minID 1
    let minID ← consumeBatches env st.shard.shardNum st.wal minID maxID
    if (st.wal.truncateFront minID).isNone then pure true
    else do
      .step (.truncateFront minID)
      .stepAll (if env.grow then [.newShard] else [])
      .step .updateMetadata
      pure true

/-- The batches that operations are flushed in, after `acc` has been collected:
a batch ends when a shard group has `batchSize` documents. -/
def batchesFrom (batchSize : Nat) (acc : Ops σ ν) :
    Ops σ ν → List (Ops σ ν)
  | [] => if acc.isEmpty then [] else [acc]
  | o :: os =>
    if batchSize ≤ (empty.addDocuments (acc ++ [o])).maxShardLen
    then (acc ++ [o]) :: batchesFrom batchSize [] os
    else batchesFrom batchSize (acc ++ [o]) os

structure Flush (σ ν : Type) where
  startID : Nat
  ops : Ops σ ν
  docs : WalMergeDocs σ ν

namespace Flush

def next (f : Flush σ ν) : Nat := f.startID + f.ops.length

def minID (f : Flush σ ν) : Nat := f.next - 1

def reads (i k : Nat) : Events σ ν := (List.range' i k).map .addDocument

/-- The effects of `WriteTo`. -/
def effects (env : CallEnv σ ν) (n : Nat) (f : Flush σ ν) : Effects σ ν :=
  (f.docs.writeTo (env.flush f.startID) n false).1

def writes (env : CallEnv σ ν) (n : Nat) (f : Flush σ ν) : Events σ ν :=
  .redo .read f.startID f.minID :: (f.effects env n).map .effect ++
    [.redo .write f.startID f.minID]

def events (env : CallEnv σ ν) (n : Nat) (f : Flush σ ν) : Events σ ν :=
  reads f.startID f.ops.length ++ f.writes env n

structure Ok (n : Nat) (f : Flush σ ν) : Prop where
  nonempty : f.ops ≠ []
  collects : f.docs.Collects f.ops
  addressed : f.docs.Addressed n
  writePath : ∀ o ∈ f.ops, o.WritePath n

/-- The flushes follow one another from index `i` to index `j`. -/
def Consecutive : Nat → List (Flush σ ν) → Nat → Prop
  | i, [], j => i = j
  | i, f :: fs, j => f.startID = i ∧ Consecutive f.next fs j

end Flush

open Flush (events minID reads writes)

def visible (es : Events σ ν) : Events σ ν :=
  es.filter fun
    | .uint64 _ _ _ => false
    | _ => true

namespace ConsumeLemmas

variable {n : Nat} {w : WalMergeDocs σ ν} {acc : Ops σ ν} {wal : Wal σ ν} {maxID : Nat}

@[simp] theorem visible_nil : visible ([] : Events σ ν) = [] := rfl

@[simp] theorem visible_append (es es' : Events σ ν) :
    visible (es ++ es') = visible es ++ visible es' := filter_append _ _

@[simp] theorem visible_uint64 (op : Uint64Op) (a b : Nat) (es : Events σ ν) :
    visible (.uint64 op a b :: es) = visible es := rfl

theorem visible_cons (he : ∀ op a b, e ≠ .uint64 op a b) (es : Events σ ν) :
    visible (e :: es) = e :: visible es := by
  cases e with
  | uint64 op a b => exact absurd rfl (he op a b)
  | _ => rfl

variable (env : CallEnv σ ν)

theorem visible_writes (f : Flush σ ν) : visible (f.writes env n) = f.writes env n := by
  refine filter_eq_self.mpr fun e he => ?_
  simp only [writes, cons_append, mem_cons, mem_append, mem_map, not_mem_nil, or_false] at he
  rcases he with rfl | ⟨x, -, rfl⟩ | rfl <;> rfl

theorem wraps_writes (f : Flush σ ν) : ∀ e ∈ f.writes env n, e.wraps = false := by
  intro e he
  simp only [writes, cons_append, mem_cons, mem_append, mem_map, not_mem_nil, or_false] at he
  rcases he with rfl | ⟨x, -, rfl⟩ | rfl <;> rfl

theorem reads_succ (i k : Nat) :
    (reads i k : Events σ ν) ++ [.addDocument (i + k)] = reads i (k + 1) := by
  simp [reads, List.range'_concat]

theorem flushDocs_eq {f : Flush σ ν} (hn : 0 < n) (hf : f.docs.Addressed n) :
    flushDocs (env.flush f.startID) n f.startID f.minID f.docs = ⟨f.writes env n, some ()⟩ := by
  have herr := (writeTo_committed (env.flush f.startID) hn hf).1
  simp [flushDocs, herr, writes, Flush.effects, Traced.step, Traced.stepAll]

theorem uadd_eq {a b : Nat} (h : a + b < 2 ^ 64) :
    (uadd a b : Traced (Event σ ν) Nat) = ⟨[.uint64 .add a b], some (a + b)⟩ := by
  simp only [uadd, Traced.step, Nat.mod_eq_of_lt h]
  rfl

theorem usub_eq {a b : Nat} (hb : b ≤ a) (ha : a < 2 ^ 64) :
    (usub a b : Traced (Event σ ν) Nat) = ⟨[.uint64 .sub a b], some (a - b)⟩ := by
  have h : (a + (2 ^ 64 - b)) % 2 ^ 64 = a - b := by omega
  simp only [usub, Traced.step, h]
  rfl

theorem consecutive_append (h : Flush.Consecutive i fs k) (h' : Flush.Consecutive k gs j) :
    Flush.Consecutive i (fs ++ gs) j := by
  induction fs generalizing i with
  | nil => obtain rfl := h; exact h'
  | cons f fs ih => exact ⟨h.1, ih h.2⟩

theorem collects_addDocument (hw : w.Collects acc) (o : Operation σ ν) :
    (w.addDocument o).Collects (acc ++ [o]) := by
  intro k id
  rw [doc_addDocument, hw]
  by_cases h : o.shard = k ∧ o.docID = id
  · have hops : opsOf (acc ++ [o]) k id = opsOf acc k id ++ [o] := by simp [opsOf, h]
    rw [if_pos h, hops, ofOps_eq_foldl, ofOps_eq_foldl, foldl_append]
    rfl
  · have hops : opsOf (acc ++ [o]) k id = opsOf acc k id := by simp [opsOf, h]
    rw [if_neg h, hops]

theorem maxShardLen_collects (hw : w.Collects acc) :
    w.maxShardLen = (empty.addDocuments acc).maxShardLen :=
  maxShardLen_congr fun k id => by rw [hw, collects_addDocuments blank_empty acc]

theorem addressed_reset (hw : w.Addressed n) : w.reset.Addressed n := by
  intro k hk
  refine hw k ?_
  have hkeys : w.reset.groups.keys = w.groups.keys := by
    simp [WalMergeDocs.reset, AList.keys, List.keys]
  exact hkeys ▸ hk

theorem collects_blank (hw : w.Blank) : w.Collects [] :=
  collects_addDocuments hw []

theorem batchesFrom_cons (batchSize : Nat) (acc : Ops σ ν) (o : Operation σ ν) (os : Ops σ ν) :
    batchesFrom batchSize acc (o :: os) =
      if batchSize ≤ (empty.addDocuments (acc ++ [o])).maxShardLen
      then (acc ++ [o]) :: batchesFrom batchSize [] os
      else batchesFrom batchSize (acc ++ [o]) os := rfl

section Turn

variable {env : CallEnv σ ν} (fuel : Nat) {c : Cursor σ ν} {o : Operation σ ν}
  (hle : c.minID ≤ maxID) (hmax : maxID + 1 < 2 ^ 64) (hread : wal.read c.minID = some o)

include hle hmax hread

theorem consumeLoop_open (hopen : ¬ env.batchSize ≤ (c.docs.addDocument o).maxShardLen) :
    consumeLoop env n wal maxID (fuel + 1) c =
      let rest := consumeLoop env n wal maxID fuel ⟨c.minID + 1, c.startID, c.docs.addDocument o⟩
      ⟨.addDocument c.minID :: .uint64 .add c.minID 1 :: rest.steps, rest.result⟩ := by
  have hnext := uadd_eq (σ := σ) (ν := ν) (by omega : c.minID + 1 < 2 ^ 64)
  rw [consumeLoop, if_pos hle, hread]
  simp [Traced.ofOption, Traced.step, hopen, hnext]

theorem consumeLoop_full (hn : 0 < n) (hfull : env.batchSize ≤ (c.docs.addDocument o).maxShardLen)
    {f : Flush σ ν} (hf : f.docs = c.docs.addDocument o) (hstart : f.startID = c.startID)
    (hmin : f.minID = c.minID) (hadr : f.docs.Addressed n) :
    consumeLoop env n wal maxID (fuel + 1) c =
      let rest := consumeLoop env n wal maxID fuel ⟨c.minID + 1, c.minID + 1, f.docs.reset⟩
      ⟨.addDocument c.minID :: f.writes env n ++
        .uint64 .add c.minID 1 :: .uint64 .add c.minID 1 :: rest.steps, rest.result⟩ := by
  have hnext := uadd_eq (σ := σ) (ν := ν) (by omega : c.minID + 1 < 2 ^ 64)
  have hflush := flushDocs_eq env hn hadr
  rw [hstart, hmin, hf] at hflush
  rw [consumeLoop, if_pos hle, hread]
  simp [Traced.ofOption, Traced.step, hfull, hnext, hflush, hf]

end Turn

structure LoopDone (env : CallEnv σ ν) (n maxID lo : Nat) (acc os : Ops σ ν)
    (loop : Traced (Event σ ν) (Cursor σ ν)) (fs : List (Flush σ ν)) (left : Flush σ ν) :
    Prop where
  result : loop.result = some ⟨maxID + 1, left.startID, left.docs⟩
  steps : reads lo acc.length ++ visible loop.steps =
    fs.flatMap (events env n) ++ reads left.startID left.ops.length
  wraps : ∀ e ∈ loop.steps, e.wraps = false
  batches : batchesFrom env.batchSize acc os =
    fs.map Flush.ops ++ batchesFrom env.batchSize left.ops []
  consecutive : Flush.Consecutive lo fs left.startID
  next : left.next = maxID + 1
  ok : ∀ f ∈ fs, f.Ok n
  collects : left.docs.Collects left.ops
  addressed : left.docs.Addressed n
  writePath : ∀ o ∈ left.ops, o.WritePath n

namespace LoopDone

variable {env : CallEnv σ ν} {maxID lo i : Nat} {acc os : Ops σ ν}
  {loop : Traced (Event σ ν) (Cursor σ ν)} {fs : List (Flush σ ν)} {left : Flush σ ν}
  {o : Operation σ ν}

theorem wraps_add (hi : i + 1 < 2 ^ 64) : (Event.uint64 .add i 1 : Event σ ν).wraps = false := by
  simp [Event.wraps]
  omega

theorem flush (h : LoopDone env n maxID (i + 1) [] os loop fs left) {f : Flush σ ν} (hf : f.Ok n)
    (hops : f.ops = acc ++ [o]) (hstart : f.startID = lo) (hlo : lo + acc.length = i)
    (hi : i + 1 < 2 ^ 64) (hfull : env.batchSize ≤ f.docs.maxShardLen) :
    LoopDone env n maxID lo acc (o :: os)
      ⟨.addDocument i :: f.writes env n ++ .uint64 .add i 1 :: .uint64 .add i 1 :: loop.steps,
        loop.result⟩ (f :: fs) left where
  result := h.result
  steps := by
    have hvis : visible (Event.addDocument i :: f.writes env n ++ .uint64 .add i 1 ::
          .uint64 .add i 1 :: loop.steps) =
        .addDocument i :: f.writes env n ++ fs.flatMap (events env n) ++
          reads left.startID left.ops.length := by
      rw [cons_append, visible_cons (by simp), visible_append, visible_writes,
        visible_uint64, visible_uint64, ← nil_append (visible _)]
      simp only [cons_append, append_assoc]
      exact congrArg (fun l => Event.addDocument i :: (f.writes env n ++ l)) h.steps
    have hlen : f.ops.length = acc.length + 1 := by simp [hops]
    have hreads := reads_succ (σ := σ) (ν := ν) lo acc.length
    rw [hlo] at hreads
    rw [hvis, flatMap_cons, events, hlen, hstart, ← hreads]
    simp
  wraps e he := by
    simp only [cons_append, mem_cons, mem_append] at he
    rcases he with rfl | he | rfl | rfl | he
    · rfl
    · exact wraps_writes env f e he
    · exact wraps_add hi
    · exact wraps_add hi
    · exact h.wraps e he
  batches := by
    have hcol : f.docs.Collects (acc ++ [o]) := hops ▸ hf.collects
    rw [batchesFrom_cons, ← maxShardLen_collects hcol, if_pos hfull, h.batches, map_cons, hops,
      cons_append]
  consecutive := by
    have hnext : f.next = i + 1 := by
      rw [Flush.next, hops, hstart, length_append, ← hlo]
      rfl
    exact ⟨hstart, hnext ▸ h.consecutive⟩
  next := h.next
  ok := forall_mem_cons.mpr ⟨hf, h.ok⟩
  collects := h.collects
  addressed := h.addressed
  writePath := h.writePath

theorem collect (h : LoopDone env n maxID lo (acc ++ [o]) os loop fs left)
    (hlo : lo + acc.length = i) (hi : i + 1 < 2 ^ 64) {w : WalMergeDocs σ ν}
    (hcol : w.Collects (acc ++ [o])) (hopen : ¬ env.batchSize ≤ w.maxShardLen) :
    LoopDone env n maxID lo acc (o :: os)
      ⟨.addDocument i :: .uint64 .add i 1 :: loop.steps, loop.result⟩ fs left where
  result := h.result
  steps := by
    rw [visible_cons (by simp), visible_uint64, ← h.steps, length_append,
      length_singleton, ← reads_succ, hlo, append_assoc]
    rfl
  wraps e he := by
    rcases mem_cons.mp he with rfl | he
    · rfl
    · rcases mem_cons.mp he with rfl | he
      · exact wraps_add hi
      · exact h.wraps e he
  batches := by
    rw [batchesFrom_cons, ← maxShardLen_collects hcol, if_neg hopen, h.batches]
  consecutive := h.consecutive
  next := h.next
  ok := h.ok
  collects := h.collects
  addressed := h.addressed
  writePath := h.writePath

end LoopDone

theorem consumeLoop_spec (hn : 0 < n) (hmax : maxID + 1 < 2 ^ 64) :
    ∀ (os acc : Ops σ ν) (w : WalMergeDocs σ ν) (i lo fuel : Nat),
      (∀ k < os.length, wal.read (i + k) = os[k]?) → i + os.length = maxID + 1 →
      lo + acc.length = i → w.Collects acc → w.Addressed n →
      (∀ o ∈ acc ++ os, o.WritePath n) → os.length < fuel →
      ∃ fs left, LoopDone env n maxID lo acc os (consumeLoop env n wal maxID fuel ⟨i, lo, w⟩)
        fs left := by
  intro os
  induction os with
  | nil =>
    intro acc w i lo fuel _ hlen hlo hcol hadr hops hfuel
    obtain ⟨fuel, rfl⟩ := Nat.exists_eq_succ_of_ne_zero (ne_of_gt hfuel)
    obtain rfl : i = maxID + 1 := hlen
    have hdone : consumeLoop env n wal maxID (fuel + 1) ⟨maxID + 1, lo, w⟩ =
        ⟨[], some ⟨maxID + 1, lo, w⟩⟩ := by simp [consumeLoop]
    rw [Nat.succ_eq_add_one, hdone]
    exact ⟨[], ⟨lo, acc, w⟩, rfl, by simp, by simp, by simp, rfl, hlo, by simp, hcol, hadr,
      by simpa using hops⟩
  | cons o os ih =>
    intro acc w i lo fuel hread hlen hlo hcol hadr hops hfuel
    obtain ⟨fuel, rfl⟩ := Nat.exists_eq_succ_of_ne_zero (show fuel ≠ 0 by omega)
    rw [length_cons] at hlen hfuel
    have hle : i ≤ maxID := by omega
    have hi : i + 1 < 2 ^ 64 := by omega
    have hcol' := collects_addDocument hcol o
    have hadr' : (w.addDocument o).Addressed n :=
      addressed_addDocuments hn hadr [o] (by simpa using hops o (by simp))
    have hread0 : wal.read i = some o := by simpa using hread 0 (by simp)
    have hread' : ∀ k < os.length, wal.read (i + 1 + k) = os[k]? := fun k hk => by
      simpa [add_assoc, add_comm 1 k] using hread (k + 1) (by simpa using hk)
    have hmem : ∀ p ∈ acc ++ [o] ++ os, p.WritePath n := by simpa using hops
    by_cases hfull : env.batchSize ≤ (w.addDocument o).maxShardLen
    · -- the batch is full
      let f : Flush σ ν := ⟨lo, acc ++ [o], w.addDocument o⟩
      have hf : f.Ok n := ⟨by simp [f], hcol', hadr', fun p hp => hmem p (mem_append_left _ hp)⟩
      have hmin : f.minID = i := by simp [f, minID, Flush.next]; omega
      have hturn := consumeLoop_full fuel (c := ⟨i, lo, w⟩) hle hmax hread0 hn hfull
        (f := f) rfl rfl hmin hadr'
      obtain ⟨fs, left, hrest⟩ := ih [] f.docs.reset (i + 1) (i + 1) fuel hread' (by omega)
        (by simp) (collects_blank (blank_reset _)) (addressed_reset hadr')
        (fun p hp => hmem p (mem_append_right _ hp)) (by omega)
      rw [Nat.succ_eq_add_one, hturn]
      exact ⟨f :: fs, left, hrest.flush hf rfl rfl hlo hi hfull⟩
    · -- the batch stays open
      have hturn := consumeLoop_open fuel (c := ⟨i, lo, w⟩) (n := n) hle hmax hread0 hfull
      obtain ⟨fs, left, hrest⟩ := ih (acc ++ [o]) (w.addDocument o) (i + 1) lo fuel hread'
        (by omega) (by simp; omega) hcol' hadr' (by simpa using hops) (by omega)
      rw [Nat.succ_eq_add_one, hturn]
      exact ⟨fs, left, hrest.collect hlo hi hcol' hfull⟩

theorem maxShardLen_pos (hw : w.Collects acc) : 0 < w.maxShardLen ↔ acc ≠ [] := by
  constructor
  · rintro h rfl
    rw [maxShardLen_collects hw] at h
    exact lt_irrefl 0 h
  · intro hne
    obtain ⟨o, ho⟩ := exists_mem_of_ne_nil acc hne
    have hmem : o ∈ opsOf acc o.shard o.docID := by simp [opsOf, ho]
    obtain ⟨p, ps, hp⟩ : ∃ p ps, opsOf acc o.shard o.docID = p :: ps :=
      exists_cons_of_ne_nil (ne_nil_of_mem hmem)
    have hdoc := hw o.shard o.docID
    rw [hp] at hdoc
    obtain ⟨g, hg, hd⟩ := Option.bind_eq_some_iff.mp hdoc
    refine (le_maxShardLen_iff Nat.one_pos).mpr ⟨_, g, hg, ?_⟩
    exact length_pos_of_mem (AList.mem_lookup_iff.mp hd)

structure Flushes (env : CallEnv σ ν) (n r : Nat) (os : Ops σ ν)
    (fs : List (Flush σ ν)) : Prop where
  ops : fs.map Flush.ops = batchesFrom env.batchSize [] os
  consecutive : Flush.Consecutive (r + 1) fs (r + os.length + 1)
  ok : ∀ f ∈ fs, f.Ok n

theorem consumeBatches_spec {r : Nat} {os : Ops σ ν} (hn : 0 < n)
    (hmax : r + os.length + 1 < 2 ^ 64) (hread : ∀ k < os.length, wal.read (r + 1 + k) = os[k]?)
    (hops : ∀ o ∈ os, o.WritePath n) : ∃ fs steps, Flushes env n r os fs ∧
      consumeBatches env n wal (r + 1) (r + os.length) = ⟨steps, some (r + os.length)⟩ ∧
      visible steps = fs.flatMap (events env n) ∧ ∀ e ∈ steps, e.wraps = false := by
  obtain ⟨fs, ⟨lo, acc, w⟩, hres, hsteps, hwraps, hbat, hcons, hlo, hok, hcol, hadr, hacc⟩ :=
    consumeLoop_spec env hn hmax os [] .empty (r + 1) (r + 1)
      (r + os.length + 2 - (r + 1)) hread (by omega) rfl (collects_blank blank_empty)
      addressed_empty (by simpa using hops) (by omega)
  have hsub : (usub (r + os.length + 1) 1 : Traced (Event σ ν) Nat) =
      ⟨[.uint64 .sub (r + os.length + 1) 1], some (r + os.length)⟩ := usub_eq (by omega) hmax
  have hsubwrap : (Event.uint64 .sub (r + os.length + 1) 1 : Event σ ν).wraps = false := by
    simp [Event.wraps]
  rw [consumeBatches]
  generalize consumeLoop env n wal (r + os.length) (r + os.length + 2 - (r + 1))
    ⟨r + 1, r + 1, .empty⟩ = loop at hres hsteps hwraps ⊢
  obtain ⟨steps, result⟩ := loop
  obtain rfl : result = some ⟨r + os.length + 1, lo, w⟩ := hres
  have hsteps : visible steps = fs.flatMap (events env n) ++ reads lo acc.length :=
    hsteps
  by_cases hne : acc = []
  · -- nothing is left to flush
    subst hne
    have hlen : ¬ 0 < w.maxShardLen := by simp [maxShardLen_pos hcol]
    refine ⟨fs, steps ++ [.uint64 .sub (r + os.length + 1) 1], ⟨?_, ?_, hok⟩, ?_, ?_, ?_⟩
    · simp [hbat, batchesFrom]
    · simpa [← hlo, Flush.next] using hcons
    · simp [hsub, hlen]
    · simp [hsteps, reads]
    · intro e he
      rcases mem_append.mp he with he | he
      · exact hwraps e he
      · rw [mem_singleton.mp he, hsubwrap]
  · -- the open batch is flushed
    let f : Flush σ ν := ⟨lo, acc, w⟩
    have hf : f.Ok n := ⟨hne, hcol, hadr, hacc⟩
    have hnext : f.next = r + os.length + 1 := hlo
    have hmin : f.minID = r + os.length := by simp [minID, hnext]
    have hlen : 0 < w.maxShardLen := (maxShardLen_pos hcol).mpr hne
    have hflush := flushDocs_eq env hn (f := f) hadr
    rw [hmin] at hflush
    refine ⟨fs ++ [f], steps ++ .uint64 .sub (r + os.length + 1) 1 :: f.writes env n,
      ⟨?_, ?_, ?_⟩, ?_, ?_, ?_⟩
    · simp [hbat, batchesFrom, hne, f]
    · exact consecutive_append hcons ⟨rfl, hnext⟩
    · simpa [or_imp, forall_and] using ⟨hok, hf⟩
    · simp [hsub, hlen, show flushDocs (env.flush lo) n lo (r + os.length) w = _ from hflush]
    · rw [visible_append, visible_uint64, visible_writes, hsteps]
      simp [events, f]
    · intro e he
      rcases mem_append.mp he with he | he
      · exact hwraps e he
      · rcases mem_cons.mp he with rfl | he
        · exact hsubwrap
        · exact wraps_writes env f e he

end ConsumeLemmas

open ConsumeLemmas

namespace Store

variable {B : Bluge σ}

/-- Between two calls: the recorded flushes end in the log, the entries after
them are still in it, and they can be written. -/
structure Ready (st : Store B ν) : Prop where
  redoMax_le : st.redoMax ≤ st.wal.lastIndex
  first_le : st.wal.first ≤ st.redoMax + 1
  writePath : ∀ o ∈ st.wal.entries, o.WritePath st.shard.shardNum

def backlog (st : Store B ν) : Ops σ ν :=
  (st.wal.entries.drop st.redoMax).take maxBatchSize

def backlogMax (st : Store B ν) : Nat := st.redoMax + st.backlog.length

theorem length_backlog (st : Store B ν) :
    st.backlog.length = min maxBatchSize (st.wal.lastIndex - st.redoMax) := by
  simp [backlog, Wal.lastIndex]

theorem truncateFront_backlogMax (st : Store B ν) (hst : st.Ready)
    (hnew : st.redoMax ≠ st.wal.lastIndex) :
    st.wal.truncateFront st.backlogMax = some { st.wal with first := st.backlogMax } := by
  have hlen := st.length_backlog
  have hle := hst.redoMax_le
  have hfirst := hst.first_le
  have hin : ¬ (st.backlogMax = 0 ∨ st.backlogMax < st.wal.first ∨
      st.wal.lastIndex < st.backlogMax) := by
    simp only [backlogMax, maxBatchSize] at hlen ⊢
    omega
  rw [Wal.truncateFront, if_neg hin]

end Store

theorem ConsumeLemmas.limitMaxID_spec {B : Bluge σ} (st : Store B ν)
    (hle : st.redoMax ≤ st.wal.lastIndex) (hlast : st.wal.lastIndex < 2 ^ 64) :
    ∃ pre : Events σ ν, limitMaxID st.redoMax st.wal.lastIndex = ⟨pre, some st.backlogMax⟩ ∧
      visible pre = [] ∧ ∀ e ∈ pre, e.wraps = false := by
  have hlen := st.length_backlog
  have hsub : (Event.uint64 .sub st.wal.lastIndex st.redoMax : Event σ ν).wraps = false := by
    simp [Event.wraps, hle]
  rw [limitMaxID, usub_eq hle hlast, Traced.bind_mk_some]
  by_cases hbig : st.wal.lastIndex - st.redoMax > maxBatchSize
  · have hsum : st.redoMax + maxBatchSize = st.backlogMax := by
      rw [Store.backlogMax, hlen]
      omega
    have hadd : (Event.uint64 .add st.redoMax maxBatchSize : Event σ ν).wraps = false := by
      simp [Event.wraps]; omega
    rw [if_pos hbig, uadd_eq (by omega), hsum]
    exact ⟨_, rfl, rfl, by simp [hsub, hadd]⟩
  · have hsum : st.wal.lastIndex = st.backlogMax := by
      rw [Store.backlogMax, hlen]
      omega
    rw [if_neg hbig, ← hsum]
    exact ⟨_, rfl, rfl, by simp [hsub]⟩

def closing (env : CallEnv σ ν) (i : Nat) : Events σ ν :=
  .truncateFront i :: (if env.grow then [.newShard] else []) ++ [.updateMetadata]

theorem ConsumeLemmas.mem_closing (he : e ∈ closing env i) :
    e = .truncateFront i ∨ e = .newShard ∨ e = .updateMetadata := by
  cases h : env.grow <;> simp [closing, h] at he <;> tauto

theorem consumeWAL_spec {B : Bluge σ} (env : CallEnv σ ν) {st : Store B ν} (hst : st.Ready)
    (hlast : st.wal.lastIndex + 1 < 2 ^ 64) (hnew : st.redoMax ≠ st.wal.lastIndex) :
    ∃ fs steps, Flushes env st.shard.shardNum st.redoMax st.backlog fs ∧
      consumeWAL env st = ⟨steps, some true⟩ ∧
      visible steps = fs.flatMap (events env st.shard.shardNum) ++ closing env st.backlogMax ∧
      ∀ e ∈ steps, e.wraps = false := by
  have hle := hst.redoMax_le
  have hlen := st.length_backlog
  have hread : ∀ k < st.backlog.length, st.wal.read (st.redoMax + 1 + k) = st.backlog[k]? := by
    intro k hk
    have hfirst := hst.first_le
    have hin : ¬ (st.redoMax + 1 + k = 0 ∨ st.redoMax + 1 + k < st.wal.first) := by omega
    rw [Wal.read, if_neg hin, Store.backlog, List.getElem?_take_of_lt (by omega),
      List.getElem?_drop]
    congr 1
    omega
  have hops : ∀ o ∈ st.backlog, o.WritePath st.shard.shardNum := fun o ho =>
    hst.writePath o (mem_of_mem_drop (mem_of_mem_take ho))
  obtain ⟨fs, steps, hfs, hbat, hvis, hwraps⟩ := consumeBatches_spec env
    st.shard.shardNum_pos (r := st.redoMax) (by omega) hread hops
  have hnext : (uadd st.redoMax 1 : Traced (Event σ ν) Nat) =
      ⟨[.uint64 .add st.redoMax 1], some (st.redoMax + 1)⟩ := uadd_eq (by omega)
  have hbat' : consumeBatches env st.shard.shardNum st.wal (st.redoMax + 1) st.backlogMax =
      ⟨steps, some st.backlogMax⟩ := hbat
  have htrunc := st.truncateFront_backlogMax hst hnew
  obtain ⟨pre, hlimit, hprevis, hprewraps⟩ := limitMaxID_spec st hle (by omega)
  refine ⟨fs, pre ++ .uint64 .add st.redoMax 1 :: steps ++ closing env st.backlogMax, hfs,
    ?_, ?_, ?_⟩
  · rw [consumeWAL]
    simp [hnew, hlimit, hnext, hbat', htrunc, Traced.step, Traced.stepAll, closing]
  · have hclosing : visible (closing env st.backlogMax) = closing env st.backlogMax := by
      cases h : env.grow <;> simp [closing, h, visible]
    simp only [visible_append, visible_uint64, hprevis, hvis, hclosing, nil_append]
  · intro e he
    simp only [cons_append, append_assoc, mem_cons, mem_append] at he
    rcases he with he | rfl | he | he
    · exact hprewraps e he
    · simp [Event.wraps]; omega
    · exact hwraps e he
    · rcases mem_closing he with rfl | rfl | rfl <;> rfl

end SeaSearch
