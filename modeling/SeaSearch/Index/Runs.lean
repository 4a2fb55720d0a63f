import SeaSearch.Index.OneLive

/-!
# Runs of an index

Calls that write documents and calls of `ConsumeWAL`, one after the other, on all first-layer shards
of an index.
-/

namespace SeaSearch

open List DocumentLemmas PartitionLemmas OneLiveLemmas

variable {σ ν δ ε κ : Type}

/-- The calls of a run: those that write documents, and `ConsumeWAL` on one of the
first-layer shards. -/
inductive Call (δ σ ν κ : Type)
  | createDocument (docID : DocID) (doc : δ) (update : Bool)
  | createDocuments (ops : List (DocOperation δ))
  | updateDocument (docID : DocID) (doc : δ) (insert : Bool)
  | deleteDocument (docID : DocID)
  | consumeWAL (k : κ) (env : CallEnv σ ν)

namespace Index

variable {B : Bluge σ} [DecidableEq κ]

def new (B : Bluge σ) (ν : Type) {keys : List κ} (nodup : keys.Nodup) {lookup : DocID → κ}
    (lookup_mem : ∀ id, lookup id ∈ keys) : Index B ν κ :=
  ⟨keys, nodup, lookup, lookup_mem, fun _ => { shard := IndexShard.new B }⟩

def call (wal : Bool) (ix : Index B ν κ) (ctx : CallContext δ ε ix) :
    Call δ σ ν κ → Index B ν κ
  | .createDocument docID doc update => (ix.createDocument wal ctx docID doc update).1
  | .createDocuments ops => (ix.createDocuments ctx ops).1
  | .updateDocument docID doc insert => (ix.updateDocument wal ctx docID doc insert).1
  | .deleteDocument docID => (ix.deleteDocument wal ctx docID).1
  | .consumeWAL k env =>
    if wal then ix.set k ((ix.stores k).run (consumeWAL env (ix.stores k)).steps) else ix

def Fresh (ix : Index B ν κ) (id : DocID) : Prop := (ix.stores (ix.lookup id)).Fresh id

/-- A call inserts an id, because it is not asked to update it or does not find it,
only when the id is fresh. A list of documents inserts it in one of its slices. -/
def InsertsFresh (batchSize : Nat) (ix : Index B ν κ) : Call δ σ ν κ → Prop
  | .createDocument docID _ update => update = false ∨ ix.Missing docID → ix.Fresh docID
  | .createDocuments ops => ∀ id,
      (∃ op ∈ ops, op.docID = id ∧ (op.update = false ∨ ix.Missing id)) → ix.Fresh id ∧
        ((slices batchSize ((ops.map DocOperation.docID).filter fun i =>
          ix.lookup i = ix.lookup id)).countP fun b => id ∈ b) ≤ 1
  | .updateDocument docID _ insert => insert = true → ix.Missing docID → ix.Fresh docID
  | .deleteDocument _ => True
  | .consumeWAL _ _ => True

/-- The indexes that calls reach from an index without documents. All calls meet
`ok`, and commits use the same `BatchSize`. -/
inductive Reached (δ ε : Type) (wal : Bool) (batchSize : Nat)
    (ok : Index B ν κ → Call δ σ ν κ → Prop) : Index B ν κ → Prop
  | new {keys : List κ} (nodup : keys.Nodup) {lookup : DocID → κ}
      (lookup_mem : ∀ id, lookup id ∈ keys) :
      Reached δ ε wal batchSize ok (new B ν nodup lookup_mem)
  | call {ix : Index B ν κ} (ctx : CallContext δ ε ix) (c : Call δ σ ν κ) :
      Reached δ ε wal batchSize ok ix → (∀ k, (ctx.commit k).batchSize = batchSize) → ok ix c →
      Reached δ ε wal batchSize ok (ix.call wal ctx c)

def Inv (ix : Index B ν κ) : Prop := ∀ k, StoreInv (fun id => ix.lookup id = k) (ix.stores k)

end Index

namespace RunLemmas

variable {B : Bluge σ} [DecidableEq κ] {ix : Index B ν κ} {wal : Bool} {batchSize : Nat}

theorem inv_set (h : ix.Inv) (hst : StoreInv (fun id => ix.lookup id = k) st) :
    (ix.set k st).Inv := by
  intro k'
  by_cases hk : k' = k
  · subst hk
    rwa [Index.stores_set_self]
  · rw [Index.stores_set_of_ne ix hk]
    exact h k'

theorem inv_commitAll (h : ix.Inv) {commit : κ → CommitEnv σ ν} (hbatch : 0 < batchSize)
    (hcommit : ∀ k, (commit k).batchSize = batchSize) {ops : Ops σ ν}
    (hops : ∀ o ∈ ops, Resolved (ix.stores (ix.lookup o.docID)).shard o)
    (hfresh : ∀ id, (∃ o ∈ ops, o.docID = id ∧ o.action = .insert) → ix.Fresh id ∧
      ((slices batchSize ((ops.map Operation.docID).filter fun i =>
        ix.lookup i = ix.lookup id)).countP fun b => id ∈ b) ≤ 1) :
    (ix.commitAll (ε := ε) commit ops).1.Inv := by
  intro k
  have hmem : ∀ o ∈ ops.filter (fun o => ix.lookup o.docID = k), o ∈ ops ∧ ix.lookup o.docID = k :=
    fun o ho => by simpa using ho
  show StoreInv _ (if (ops.filter fun o => ix.lookup o.docID = k).isEmpty then ix.stores k else _)
  split
  · exact h k
  · refine storeInv_commit (h k) (by rwa [hcommit]) (fun o ho => ?_) (fun o ho => (hmem o ho).2) ?_
    · have := hops o (hmem o ho).1
      rwa [(hmem o ho).2] at this
    · rintro id ⟨o, ho, hid, ha⟩
      have hk : ix.lookup id = k := hid ▸ (hmem o ho).2
      subst hk
      have := hfresh id ⟨o, (hmem o ho).1, hid, ha⟩
      rw [hcommit]
      rwa [filter_map] at this

theorem inv_write (h : ix.Inv) {commit : κ → CommitEnv σ ν} (hbatch : 0 < batchSize)
    (hcommit : ∀ k, (commit k).batchSize = batchSize)
    (ho : Resolved (ix.stores (ix.lookup o.docID)).shard o)
    (hfresh : o.action = .insert → ix.Fresh o.docID) :
    (ix.write (ε := ε) wal commit o).1.Inv := by
  cases wal with
  | true => exact inv_set h (storeInv_extend (h _) ho rfl hfresh)
  | false =>
    refine inv_commitAll h hbatch hcommit (by simpa using ho) ?_
    rintro id ⟨p, hp, rfl, ha⟩
    obtain rfl := mem_singleton.mp hp
    refine ⟨hfresh ha, ?_⟩
    simp [slices_single hbatch]

variable {ctx : CallContext δ ε ix}

theorem inv_createDocuments (h : ix.Inv) (hbatch : 0 < batchSize)
    (hcommit : ∀ k, (ctx.commit k).batchSize = batchSize)
    (hok : ix.InsertsFresh batchSize (.createDocuments ops : Call δ σ ν κ)) :
    (ix.createDocuments ctx ops).1.Inv := by
  unfold Index.createDocuments
  split
  · exact h
  next os hos =>
  have hres := mapM_ok hos
  have hids : os.map Operation.docID = ops.map DocOperation.docID := by
    clear hos hok
    induction hres with
    | nil => rfl
    | cons hop _ ih =>
      obtain ⟨hid, -⟩ := createOperation_resolved hop fun k => find_some
      rw [map_cons, map_cons, ih, hid]
  have hmem : ∀ o ∈ os, ∃ op ∈ ops, ctx.env.createOperation ctx.find op = .ok o :=
    fun o ho => exists_of_mem_mapM hos ho
  refine inv_commitAll h hbatch hcommit (fun o ho => ?_) ?_
  · obtain ⟨op, -, hop⟩ := hmem o ho
    obtain ⟨hid, hres, -⟩ := createOperation_resolved hop fun k => find_some
    rwa [hid]
  · rintro id ⟨o, ho, hid, ha⟩
    obtain ⟨op, hmem, hop⟩ := hmem o ho
    obtain ⟨hopid, -, hins⟩ := createOperation_resolved hop fun k => find_some
    rw [hids]
    have heq : op.docID = id := hopid.symm.trans hid
    exact hok id ⟨op, hmem, heq, (hins ha).imp_right fun hnone => heq ▸ find_none hnone⟩

theorem inv_call (h : ix.Inv) (hbatch : 0 < batchSize)
    (hcommit : ∀ k, (ctx.commit k).batchSize = batchSize)
    (hlast : ∀ k, (ix.stores k).wal.lastIndex + 1 < 2 ^ 64) (hok : ix.InsertsFresh batchSize c) :
    (ix.call wal ctx c).Inv := by
  cases c with
  | createDocument docID doc update =>
    rw [Index.call, Index.createDocument]
    split
    · exact h
    · next o ho =>
      obtain ⟨hid, hres, hins⟩ := createOperation_resolved ho fun k => find_some
      refine inv_write h hbatch hcommit (hid ▸ hres) fun ha => ?_
      rw [hid]
      exact hok ((hins ha).imp_right find_none)
  | createDocuments ops => exact inv_createDocuments h hbatch hcommit hok
  | updateDocument docID doc upsert =>
    rw [Index.call, Index.updateDocument]
    split
    · exact h
    · next o ho =>
      obtain ⟨hid, hres, hins⟩ := updateOperation_resolved ho fun k => find_some
      refine inv_write h hbatch hcommit (hid ▸ hres) fun ha => ?_
      rw [hid]
      exact hok (hins ha).1 (find_none (hins ha).2)
  | deleteDocument docID =>
    rw [Index.call, Index.deleteDocument]
    split
    · exact h
    · next o ho =>
      obtain ⟨hid, hres, hins⟩ := deleteOperation_resolved ho fun k => find_some
      exact inv_write h hbatch hcommit (hid ▸ hres) fun ha => absurd ha hins
  | consumeWAL k env =>
    rw [Index.call]
    split
    · exact inv_set h (storeInv_call (h k) env (hlast k))
    · exact h

theorem lastIndex_call (wal : Bool) (ctx : CallContext δ ε ix) (c : Call δ σ ν κ) (k : κ) :
    (ix.stores k).wal.lastIndex ≤ ((ix.call wal ctx c).stores k).wal.lastIndex := by
  have hset : ∀ k' (st : Store B ν), (ix.stores k').wal.lastIndex ≤ st.wal.lastIndex →
      (ix.stores k).wal.lastIndex ≤ ((ix.set k' st).stores k).wal.lastIndex := by
    intro k' st hle
    by_cases hk : k = k'
    · subst hk
      simpa [Index.set] using hle
    · simp [Index.set, Function.update_of_ne hk]
  have hcommit : ∀ ops, (ix.stores k).wal.lastIndex ≤
      ((ix.commitAll (ε := ε) ctx.commit ops).1.stores k).wal.lastIndex := by
    intro ops
    simp only [Index.commitAll]
    split <;> exact le_rfl
  have hwrite : ∀ o, (ix.stores k).wal.lastIndex ≤
      ((ix.write (ε := ε) wal ctx.commit o).1.stores k).wal.lastIndex := by
    intro o
    cases wal with
    | true => exact hset _ _ (by simp [lastIndex_extend])
    | false => exact hcommit [o]
  cases c with
  | createDocument docID doc update =>
    rw [Index.call, Index.createDocument]
    split
    · exact le_rfl
    · exact hwrite _
  | createDocuments ops =>
    rw [Index.call, Index.createDocuments]
    split
    · exact le_rfl
    · exact hcommit _
  | updateDocument docID doc upsert =>
    rw [Index.call, Index.updateDocument]
    split
    · exact le_rfl
    · exact hwrite _
  | deleteDocument docID =>
    rw [Index.call, Index.deleteDocument]
    split
    · exact le_rfl
    · exact hwrite _
  | consumeWAL k' env =>
    rw [Index.call]
    split
    · exact hset _ _ (by simp [Wal.lastIndex, entries_run])
    · exact le_rfl

theorem inv_reached (hbatch : 0 < batchSize)
    (h : Index.Reached δ ε wal batchSize (Index.InsertsFresh batchSize) ix)
    (hlast : ∀ k, (ix.stores k).wal.lastIndex + 1 < 2 ^ 64) : ix.Inv := by
  induction h with
  | new nodup lookup_mem => exact fun k => storeInv_new _
  | call ctx c _ hcommit hok ih =>
    have hbefore := fun k => lt_of_le_of_lt
      (Nat.succ_le_succ (lastIndex_call wal ctx c k)) (hlast k)
    exact inv_call (ih hbefore) hbatch hcommit hbefore hok

end RunLemmas

open RunLemmas

section Main

variable {B : Bluge σ} [DecidableEq κ] {ix : Index B ν κ} {wal : Bool} {batchSize : Nat}

/-- In every run in which an id is inserted only while it is fresh, and by one slice
of a list, every id has at most one live document. -/
theorem one_live_document (hbatch : 0 < batchSize)
    (hrun : Index.Reached δ ε wal batchSize (Index.InsertsFresh batchSize) ix)
    (hlast : ∀ k, (ix.stores k).wal.lastIndex < 2 ^ 64 - 1) (id : DocID) :
    (ix.live id).card ≤ 1 := by
  have hinv := inv_reached hbatch hrun fun k => Nat.add_lt_of_lt_sub (hlast k)
  obtain ⟨k, hk⟩ := (hinv (ix.lookup id)).oneLive id rfl
  rw [Index.live_own fun k' hk' => ((hinv k').others id hk').1,
    IndexShard.live_of_single hk.elsewhere]
  exact hk.card_le

end Main

namespace RunLemmas

def emptyIndex : Index (Bluge.lists Unit) Unit Unit :=
  .new _ _ (nodup_singleton ()) (fun _ => mem_singleton.mpr rfl)

def oneAtATime (ix : Index (Bluge.lists Unit) Unit Unit) : CallContext Unit Empty ix where
  env :=
    { hasVectors := false
      canonical := fun _ => true
      checkDocument := fun _ _ => .ok ⟨some 1, [], ()⟩
      timestamp := fun _ _ f h => by
        cases h
        rfl
      emptySource := () }
  finder k := .first _
  commit _ := ⟨1, fun _ => refEnv Unit Unit, false⟩

def create (ix : Index (Bluge.lists Unit) Unit Unit) : Index (Bluge.lists Unit) Unit Unit :=
  let written := ix.call true (oneAtATime ix) (.createDocument "a" () true)
  written.call true (oneAtATime written) (.consumeWAL () ⟨1, fun _ => refEnv Unit Unit, false⟩)

theorem reached_create (h : Index.Reached Unit Empty true 1 (Index.InsertsFresh 1) ix)
    (hfresh : ix.Missing "a" → ix.Fresh "a") :
    Index.Reached Unit Empty true 1 (Index.InsertsFresh 1) (create ix) := by
  have hwritten := Index.Reached.call (oneAtATime ix) (.createDocument "a" () true) h
    (fun _ => rfl) fun hins => hfresh (hins.resolve_left nofun)
  exact .call (oneAtATime _) (.consumeWAL () ⟨1, fun _ => refEnv Unit Unit, false⟩) hwritten
    (fun _ => rfl) trivial

end RunLemmas

theorem one_live_document_updated :
    ∃ ix : Index (Bluge.lists Unit) Unit Unit,
      Index.Reached Unit Empty true 1 (Index.InsertsFresh 1) ix ∧
      (ix.live "a").card = 1 ∧ ∀ id, (ix.live id).card ≤ 1 := by
  have hcreated := reached_create (.new _ _ : Index.Reached _ _ _ _ _ emptyIndex)
    fun _ => fresh_new "a"
  have hlive : ¬ (create emptyIndex).Missing "a" := fun h => by
    have hcard := congrArg Multiset.card (h 0)
    revert hcard
    decide
  have hrun := reached_create hcreated fun h => absurd h hlive
  exact ⟨create (create emptyIndex), hrun, by decide,
    one_live_document (by decide) hrun fun () => by decide⟩

/-- Without the WAL and with `BatchSize` 1, a list with two documents of one new id
stores both: they are inserts, and no slice sees the other one. -/
theorem create_twice_stores_twice :
    let ops : List (DocOperation Unit) := [⟨"a", (), true⟩, ⟨"a", (), true⟩]
    let ix := emptyIndex.call false (oneAtATime emptyIndex) (.createDocuments ops)
    Index.Reached Unit Empty false 1 (fun _ _ => True) ix ∧ (ix.live "a").card = 2 :=
  ⟨.call (oneAtATime emptyIndex) (.createDocuments _) (.new _ _) (fun _ => rfl) trivial, by decide⟩

end SeaSearch
