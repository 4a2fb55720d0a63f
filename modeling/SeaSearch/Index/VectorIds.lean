import SeaSearch.Base62
import SeaSearch.Index.Runs

/-!
# Document ids of an index with vectors

A vector index knows a document by the number that `base62.Decode` reads from its id. Two ids with
the same number would share one vector. `CreateDocument` and `CreateDocuments` refuse an id that
`Encode` does not give back from its number.
-/

namespace SeaSearch

open List WalMergeDocs SequentialLemmas RecoveryLemmas
  RetryLemmas DocumentLemmas OneLiveLemmas RunLemmas

variable {σ ν δ ε κ : Type}

/-- Ids that are not admitted are not live in a first-layer shard, and nothing that would make
them live waits. -/
structure Admits {B : Bluge σ} (admitted : DocID → Prop) (st : Store B ν) : Prop where
  ready : st.Ready
  fresh : ∀ id, ¬ admitted id → st.Fresh id

structure Admissible {B : Bluge σ} (admitted : DocID → Prop) (s : IndexShard B)
    (o : Operation σ ν) : Prop where
  resolved : Resolved s o
  insert : o.action = .insert → admitted o.docID

namespace Index

variable {B : Bluge σ}

/-- The calls that insert a document without a check of its id: `UpdateDocument` does so only with
ids that `Encode` gives back. -/
def InsertsCanonical (ix : Index B ν κ) : Call δ σ ν κ → Prop
  | .updateDocument docID _ insert => insert = true → ix.Missing docID → Base62.canonical docID
  | _ => True

/-- The indexes that calls reach from an index with a vector field and without documents. All
calls meet `ok`. -/
inductive VectorReached [DecidableEq κ] (δ ε : Type) (wal : Bool)
    (ok : Index B ν κ → Call δ σ ν κ → Prop) : Index B ν κ → Prop
  | new {keys : List κ} (nodup : keys.Nodup) {lookup : DocID → κ}
      (lookup_mem : ∀ id, lookup id ∈ keys) :
      VectorReached δ ε wal ok (new B ν nodup lookup_mem)
  | call {ix : Index B ν κ} (ctx : CallContext δ ε ix) (c : Call δ σ ν κ) :
      VectorReached δ ε wal ok ix → ctx.env.hasVectors = true →
      ctx.env.canonical = Base62.canonical → ok ix c →
      VectorReached δ ε wal ok (ix.call wal ctx c)

end Index

section Shard

variable {B : Bluge σ} {s : IndexShard B} {st : Store B ν} {admitted : DocID → Prop}
  {id : DocID}

namespace VectorIdLemmas

theorem versions_flushes_zero {flush : Nat → FlushEnv σ ν} (i : Nat)
    (hbs : ∀ b ∈ bs, ∀ o ∈ b, o.WritePath s.shardNum)
    (hidle : ∀ b ∈ bs, ∀ o ∈ b, o.docID = id → o.action ≠ .insert ∧ o.action ≠ .update)
    (hzero : ∀ j, s.versions j id = 0) (j : Nat) :
    (IndexShard.flushes flush i bs s).versions j id = 0 := by
  induction bs generalizing s i with
  | nil => exact hzero j
  | cons b bs ih =>
    have hb := hbs b mem_cons_self
    have hidle' := hidle b mem_cons_self
    refine ih (i + 1) (fun b' hb' o ho => ?_) (fun b' hb' => hidle b' (mem_cons_of_mem _ hb'))
      fun j => ?_
    · rw [shardNum_flush]
      exact hbs b' (mem_cons_of_mem _ hb') o ho
    · exact versions_flush_zero (addressed_batch hb) (collects_addDocuments blank_empty b) hb
        (flush i) (hzero j) (fun o ho hid ha => absurd ha (hidle' o ho hid).2)
        fun _ o ho hid => (hidle' o ho hid).1

theorem versions_flush_events_zero (env : CallEnv σ ν) {fs : List (Flush σ ν)}
    (hok : ∀ f ∈ fs, f.Ok st.shard.shardNum)
    (hidle : ∀ f ∈ fs, ∀ o ∈ f.ops, o.docID = id → o.action ≠ .insert ∧ o.action ≠ .update)
    (hzero : ∀ j, st.shard.versions j id = 0) (j : Nat) :
    (st.run (fs.flatMap (Flush.events env st.shard.shardNum))).shard.versions j id = 0 := by
  induction fs generalizing st with
  | nil => exact hzero j
  | cons f fs ih =>
    have hf := hok f mem_cons_self
    have hidle' := hidle f mem_cons_self
    obtain ⟨st', hshard, -, hok', hrun⟩ := run_flushes_cons env hok
    rw [hrun]
    refine ih hok' (fun g hg => hidle g (mem_cons_of_mem _ hg)) fun j => ?_
    rw [hshard]
    exact versions_flush_zero hf.addressed hf.collects hf.writePath (env.flush f.startID)
      (hzero j) (fun o ho hid ha => absurd ha (hidle' o ho hid).2)
      fun _ o ho hid => (hidle' o ho hid).1

end VectorIdLemmas

open VectorIdLemmas

theorem Admits.new : Admits admitted ({ shard := IndexShard.new B } : Store B ν) :=
  ⟨ready_new, fun id _ => fresh_new id⟩

theorem Admissible.idle (ho : Admissible admitted st.shard o) (hid : ¬ admitted id)
    (hfresh : st.Fresh id) (heq : o.docID = id) :
    o.action ≠ .insert ∧ o.action ≠ .update := by
  subst heq
  refine ⟨fun ha => hid (ho.insert ha), fun ha => ?_⟩
  obtain ⟨j, -, hlive⟩ := ho.resolved.update ha
  exact hlive (hfresh.1 j)

variable (h : Admits admitted st)

include h

theorem Admits.extend (ho : Admissible admitted st.shard o) : Admits admitted (st.extend [o]) where
  ready := ready_extend h.ready (forall_mem_singleton.2 ho.resolved.writePath)
  fresh id hid := by
    have hfresh := h.fresh id hid
    refine ⟨hfresh.1, fun p hp => ?_⟩
    rw [waiting_extend h.ready] at hp
    rcases mem_append.mp hp with hp | hp
    · exact hfresh.2 p hp
    · obtain rfl := mem_singleton.mp hp
      exact ho.idle hid hfresh

theorem Admits.commit {env : CommitEnv σ ν}
    {ops : Ops σ ν} (hops : ∀ o ∈ ops, Admissible admitted st.shard o) :
    Admits admitted { st with shard := (st.shard.commitOperations env ops).1 } where
  ready := ready_commit h.ready fun o ho => (hops o ho).resolved
  fresh id hid := by
    have hfresh := h.fresh id hid
    obtain ⟨-, -, hvers⟩ :=
      IndexShard.commitOperations_spec env fun o ho => (hops o ho).resolved.writePath
    have hslices : ∀ b ∈ slices env.batchSize ops, ∀ o ∈ b, Admissible admitted st.shard o :=
      fun b hb o ho => hops o (mem_of_mem_slices hb ho)
    refine ⟨fun j => ?_, hfresh.2⟩
    rw [hvers]
    exact versions_flushes_zero 0 (fun b hb o ho => (hslices b hb o ho).resolved.writePath)
      (fun b hb o ho => (hslices b hb o ho).idle hid hfresh) hfresh.1 j

theorem Admits.consume (env : CallEnv σ ν) (hlast : st.wal.lastIndex + 1 < 2 ^ 64) :
    Admits admitted (st.run (consumeWAL env st).steps) where
  ready := ready_call_part h.ready hlast (prefix_refl _)
  fresh id hid := by
    have hfresh := h.fresh id hid
    have hwait := backlog_append_waiting env h.ready hlast
    obtain ⟨fs, hok, hops, hvers⟩ := call_flushes env h.ready hlast
    have hidle : ∀ f ∈ fs, ∀ o ∈ f.ops, o.docID = id → o.action ≠ .insert ∧ o.action ≠ .update := by
      intro f hf o ho
      have hin : o ∈ (fs.map Flush.ops).flatten :=
        mem_flatten.mpr ⟨f.ops, mem_map_of_mem hf, ho⟩
      rw [hops, flatten_batchesFrom] at hin
      exact hfresh.2 o (hwait ▸ mem_append_left _ hin)
    refine ⟨fun j => ?_, fun o ho => hfresh.2 o (hwait ▸ mem_append_right _ ho)⟩
    rw [hvers]
    exact versions_flush_events_zero env hok hidle hfresh.1 j

end Shard

namespace VectorIdLemmas

section Index

variable {B : Bluge σ} [DecidableEq κ] {ix : Index B ν κ} {wal : Bool} {admitted : DocID → Prop}
  {commit : κ → CommitEnv σ ν}

section Admits

variable (h : ∀ k, Admits admitted (ix.stores k))

include h

theorem admits_set (hst : Admits admitted st) (k' : κ) :
    Admits admitted ((ix.set k st).stores k') := by
  by_cases hk : k' = k
  · subst hk
    rwa [Index.stores_set_self]
  · rw [Index.stores_set_of_ne ix hk]
    exact h k'

theorem admits_commitAll
    (hops : ∀ o ∈ ops, Admissible admitted (ix.stores (ix.lookup o.docID)).shard o) (k : κ) :
    Admits admitted ((ix.commitAll (ε := ε) commit ops).1.stores k) := by
  show Admits _ (if (ops.filter fun o => ix.lookup o.docID = k).isEmpty then ix.stores k else _)
  split
  · exact h k
  · refine (h k).commit fun o ho => ?_
    obtain ⟨hmem, hk⟩ : o ∈ ops ∧ ix.lookup o.docID = k := by simpa using ho
    exact hk ▸ hops o hmem

theorem admits_write (ho : Admissible admitted (ix.stores (ix.lookup o.docID)).shard o) (k : κ) :
    Admits admitted ((ix.write (ε := ε) wal commit o).1.stores k) := by
  cases wal with
  | true => exact admits_set h ((h _).extend ho) k
  | false => exact admits_commitAll h (by simpa using ho) k

end Admits

theorem canonical_of_createOperation {env : IndexEnv δ ε σ ν} (hvec : env.hasVectors = true)
    {find : DocID → Option Nat} (h : env.createOperation find op = .ok o) :
    env.canonical op.docID = true := by
  unfold IndexEnv.createOperation at h
  simp only [hvec, Bool.true_and] at h
  split at h
  · cases h
  · next hcanonical => simpa using hcanonical

variable {ctx : CallContext δ ε ix}

omit [DecidableEq κ] in
theorem createOperation_admissible (hvec : ctx.env.hasVectors = true)
    (hcanonical : ctx.env.canonical = Base62.canonical)
    (h : ctx.env.createOperation ctx.find op = .ok o) :
    Admissible (fun id => Base62.canonical id) (ix.stores (ix.lookup o.docID)).shard o := by
  obtain ⟨hid, hres, -⟩ := createOperation_resolved h fun k => find_some
  have hadm := canonical_of_createOperation hvec h
  rw [hcanonical, ← hid] at hadm
  exact ⟨hid ▸ hres, fun _ => hadm⟩

theorem admits_call (h : ∀ k, Admits (fun id => Base62.canonical id) (ix.stores k))
    (hvec : ctx.env.hasVectors = true) (hcanonical : ctx.env.canonical = Base62.canonical)
    (hlast : ∀ k, (ix.stores k).wal.lastIndex + 1 < 2 ^ 64) (hok : ix.InsertsCanonical c) (k : κ) :
    Admits (fun id => Base62.canonical id) ((ix.call wal ctx c).stores k) := by
  cases c with
  | createDocument docID doc update =>
    rw [Index.call, Index.createDocument]
    split
    · exact h k
    · next o ho => exact admits_write h (createOperation_admissible hvec hcanonical ho) k
  | createDocuments ops =>
    rw [Index.call, Index.createDocuments]
    split
    · exact h k
    · next os hos =>
      refine admits_commitAll h (fun o ho => ?_) k
      obtain ⟨op, -, hop⟩ := exists_of_mem_mapM hos ho
      exact createOperation_admissible hvec hcanonical hop
  | updateDocument docID doc upsert =>
    rw [Index.call, Index.updateDocument]
    split
    · exact h k
    · next o ho =>
      obtain ⟨hid, hres, hins⟩ := updateOperation_resolved ho fun k => find_some
      refine admits_write h ⟨hid ▸ hres, fun ha => ?_⟩ k
      rw [hid]
      exact hok (hins ha).1 (find_none (hins ha).2)
  | deleteDocument docID =>
    rw [Index.call, Index.deleteDocument]
    split
    · exact h k
    · next o ho =>
      obtain ⟨hid, hres, hins⟩ := deleteOperation_resolved ho fun k => find_some
      exact admits_write h ⟨hid ▸ hres, fun ha => absurd ha hins⟩ k
  | consumeWAL k' env =>
    rw [Index.call]
    split
    · exact admits_set h ((h k').consume env (hlast k')) k
    · exact h k

theorem admits_reached (h : Index.VectorReached δ ε wal Index.InsertsCanonical ix)
    (hlast : ∀ k, (ix.stores k).wal.lastIndex + 1 < 2 ^ 64) (k : κ) :
    Admits (fun id => Base62.canonical id) (ix.stores k) := by
  induction h generalizing k with
  | new nodup lookup_mem => exact Admits.new
  | call ctx c _ hvec hcanonical hok ih =>
    have hbefore := fun k => lt_of_le_of_lt
      (Nat.succ_le_succ (lastIndex_call wal ctx c k)) (hlast k)
    exact admits_call (ih hbefore) hvec hcanonical hbefore hok k

omit [DecidableEq κ] in
theorem admitted_of_live (h : ∀ k, Admits admitted (ix.stores k)) {id : DocID}
    (hlive : ix.live id ≠ 0) : admitted id := by
  by_contra hid
  have hzero : ∀ k j, (ix.stores k).shard.versions j id = 0 := fun k => ((h k).fresh id hid).1
  refine hlive ?_
  rw [Index.live_own fun k _ => hzero k, IndexShard.live_eq_zero_iff]
  exact hzero _

end Index

end VectorIdLemmas

open VectorIdLemmas

section Main

variable {B : Bluge σ} [DecidableEq κ] {ix : Index B ν κ} {wal : Bool}

/-- In every run in which `UpdateDocument` inserts only ids that `Encode` gives back from their
numbers, different live ids have different numbers. -/
theorem vector_ids_distinct
    (hrun : Index.VectorReached δ ε wal Index.InsertsCanonical ix)
    (hlast : ∀ k, (ix.stores k).wal.lastIndex < 2 ^ 64 - 1) {a b : DocID} (ha : ix.live a ≠ 0)
    (hb : ix.live b ≠ 0) (hab : a ≠ b) :
    Base62.decode (Base62.bytes a) ≠ Base62.decode (Base62.bytes b) := by
  have hadmits := admits_reached hrun fun k => Nat.add_lt_of_lt_sub (hlast k)
  intro heq
  exact hab (Base62.decode_injOn (admitted_of_live hadmits ha) (admitted_of_live hadmits hb) heq)

end Main

namespace VectorIdLemmas

def vectorContext (ix : Index (Bluge.lists Unit) Unit Unit) : CallContext Unit Empty ix :=
  { oneAtATime ix with
    env := { (oneAtATime ix).env with hasVectors := true, canonical := Base62.canonical } }

def createOne : Index (Bluge.lists Unit) Unit Unit :=
  emptyIndex.call false (vectorContext emptyIndex) (.createDocument "1" () true)

def upsert (id : DocID) : Index (Bluge.lists Unit) Unit Unit :=
  createOne.call false (vectorContext createOne) (.updateDocument id () true)

theorem reached_upsert {id : DocID} (hcreate : ok emptyIndex (.createDocument "1" () true))
    (hupdate : ok createOne (.updateDocument id () true)) :
    Index.VectorReached Unit Empty false ok (upsert id) :=
  .call _ _ (.call _ _ (.new _ _) rfl rfl hcreate) rfl rfl hupdate

end VectorIdLemmas

theorem vector_ids_distinct_one_ten :
    (upsert "10").live "1" ≠ 0 ∧ (upsert "10").live "10" ≠ 0 ∧
      Base62.decode (Base62.bytes "1") ≠ Base62.decode (Base62.bytes "10") := by
  have hrun : Index.VectorReached Unit Empty false Index.InsertsCanonical (upsert "10") :=
    reached_upsert trivial fun _ _ => by decide +kernel
  have hone : (upsert "10").live "1" ≠ 0 := by decide +kernel
  have hten : (upsert "10").live "10" ≠ 0 := by decide +kernel
  exact ⟨hone, hten, vector_ids_distinct hrun (fun () => by decide +kernel) hone hten (by decide)⟩

/-- `UpdateDocument` inserts the id "01" beside "1", and both have the number 1. -/
theorem update_inserts_collision :
    Index.VectorReached Unit Empty false (fun _ _ => True) (upsert "01") ∧
      (upsert "01").live "1" ≠ 0 ∧ (upsert "01").live "01" ≠ 0 ∧
      Base62.decode (Base62.bytes "1") = Base62.decode (Base62.bytes "01") :=
  ⟨reached_upsert trivial trivial, by decide +kernel, by decide +kernel, by decide +kernel⟩

end SeaSearch
