import SeaSearch.Index.VectorWrites

/-!
# Deletions in an index with vectors

`DeleteDocument` and `DeleteDocuments` delete the vectors of an id in every vector field, also when
no document has the id. A vector index knows an id by its number, and different ids may have the
same one.
-/

namespace SeaSearch

open List PartitionLemmas RecoveryLemmas DocumentLemmas
  OneLiveLemmas PartialLemmas RunLemmas VectorLemmas

variable {σ ν δ ε κ : Type}

/-- A call that deletes: `DeleteDocument` and `DeleteDocuments` without the WAL, or `DeleteDocument`
with the WAL and the `ConsumeWAL` on its shard after it. -/
inductive DeleteCall (σ ν : Type)
  | document (docID : DocID)
  | documents (docIDs : List DocID)
  | logged (docID : DocID) (env : CallEnv σ ν)

namespace Index

variable {B : Bluge σ} [DecidableEq κ]

def logged (ix : Index B ν κ) (ctx : CallContext δ ε ix) (docID : DocID) : Store B ν :=
  (ix.deleteDocument true ctx docID).1.stores (ix.lookup docID)

def delete (ix : Index B ν κ) (ctx : CallContext δ ε ix) : DeleteCall σ ν → Index B ν κ
  | .document docID => (ix.deleteDocument false ctx docID).1
  | .documents docIDs => (ix.deleteDocuments ctx docIDs).1
  | .logged docID env =>
    (ix.deleteDocument true ctx docID).1.set (ix.lookup docID)
      ((ix.logged ctx docID).run (consumeWAL env (ix.logged ctx docID)).steps)

def deleteEffects (ix : Index B ν κ) (ctx : CallContext δ ε ix) :
    DeleteCall σ ν → Effects σ ν
  | .document docID =>
    match ctx.env.deleteOperation ctx.find docID with
    | .error _ => []
    | .ok o => ix.commitAllEffects ctx.commit [o]
  | .documents docIDs =>
    ix.commitAllEffects ctx.commit
      (docIDs.filterMap fun id => (ctx.env.deleteOperation ctx.find id).toOption)
  | .logged docID env => effectsOf (consumeWAL env (ix.logged ctx docID)).steps

end Index

namespace DeleteCall

def ids : DeleteCall σ ν → List DocID
  | .document docID => [docID]
  | .documents docIDs => docIDs
  | .logged docID _ => [docID]

def waiting {B : Bluge σ} (ix : Index B ν κ) : DeleteCall σ ν → List DocID
  | .document _ => []
  | .documents _ => []
  | .logged docID _ => (ix.stores (ix.lookup docID)).waiting.map Operation.docID

/-- With the WAL the call may append an entry and consume the log. -/
def Ready {B : Bluge σ} (ix : Index B ν κ) : DeleteCall σ ν → Prop
  | .document _ => True
  | .documents _ => True
  | .logged docID _ => (ix.stores (ix.lookup docID)).Ready ∧
      (ix.stores (ix.lookup docID)).wal.lastIndex + 2 < 2 ^ 64

end DeleteCall

/-- The ids that the batches on the vector index of a field delete. -/
def deletedIn (f : String) (es : Effects σ ν) : List DocID :=
  es.flatMap fun
    | .vectors f' _ deletes => if f' = f then deletes else []
    | _ => []

namespace VectorDeleteLemmas

variable {f : String}

section Index

variable {B : Bluge σ}

theorem live_congr {s t : IndexShard B} {id : DocID}
    (h : ∀ j, t.versions j id = s.versions j id) : t.live id = s.live id := by
  rw [IndexShard.live_eq_range (le_max_left t.shardNum s.shardNum),
    IndexShard.live_eq_range (le_max_right t.shardNum s.shardNum)]
  simp only [h]

variable [DecidableEq κ] {ix : Index B ν κ} {commit : κ → CommitEnv σ ν}
  {ops : Ops σ ν}

section Operations

variable (hops : ∀ o ∈ ops, o.WritePath (ix.stores (ix.lookup o.docID)).shard.shardNum)
include hops

theorem writePath_own (k : κ) : ∀ o ∈ ops.filter (fun o => ix.lookup o.docID = k),
    o.WritePath (ix.stores k).shard.shardNum := by
  intro o ho
  obtain ⟨hmem, hk⟩ := mem_filter.1 ho
  have hpath := hops o hmem
  rwa [of_decide_eq_true hk] at hpath

theorem live_commitAll {id : DocID} (hid : ∀ o ∈ ops, o.docID ≠ id) :
    (ix.commitAll (ε := ε) commit ops).1.live id = ix.live id := by
  refine congrArg List.sum (map_congr_left fun k _ => live_congr fun j => ?_)
  show (if (ops.filter fun o => ix.lookup o.docID = k).isEmpty then ix.stores k
    else _).shard.versions j id = _
  split
  · rfl
  · have hpaths := writePath_own hops k
    refine ((IndexShard.commitOperations_spec (commit k) hpaths).2.2 j id).trans ?_
    exact versions_flushes_other 0 (fun b hb o ho => hpaths o (mem_of_mem_slices hb ho))
      (fun b hb o ho => hid o (mem_filter.1 (mem_of_mem_slices hb ho)).1) j

theorem fromOps_commitAllEffects
    (h : Effect.vectors f ins dels ∈ ix.commitAllEffects commit ops) : FromOps ops ins dels := by
  obtain ⟨k, -, hin⟩ := mem_flatMap.1 h
  obtain ⟨fls, heffects, hbs⟩ := commit_flushes (commit k).flush (ix.stores k).shard.shardNum_pos
    (fun b hb o ho => writePath_own hops k o (mem_of_mem_slices hb ho)) 0
  rw [heffects] at hin
  refine (fromOps_flushes hin).mono fun o ho => ?_
  rw [hbs] at ho
  obtain ⟨b, hb, ho⟩ := mem_flatten.1 ho
  exact (mem_filter.1 (mem_of_mem_slices hb ho)).1

end Operations

end Index

section Context

variable {B : Bluge σ} {ix : Index B ν κ} {ctx : CallContext δ ε ix}

def deletions (ctx : CallContext δ ε ix) (docIDs : List DocID) : Ops σ ν :=
  docIDs.filterMap fun id => (ctx.env.deleteOperation ctx.find id).toOption

theorem deleteOperation_ok (hvec : ctx.env.hasVectors = true) (docID : DocID) :
    ∃ o, ctx.env.deleteOperation ctx.find docID = .ok o := by
  rw [IndexEnv.deleteOperation]
  split
  · exact ⟨_, rfl⟩
  · rw [if_pos hvec]
    exact ⟨_, rfl⟩

theorem deleteOperation_action (h : ctx.env.deleteOperation ctx.find docID = .ok o) :
    ¬ (o.action = .insert ∨ o.action = .update) := by
  rw [IndexEnv.deleteOperation] at h
  split at h
  · cases h
    exact nofun
  · split at h
    · cases h
      exact nofun
    · cases h

theorem deleteOperation_writePath (h : ctx.env.deleteOperation ctx.find docID = .ok o) :
    o.docID = docID ∧ o.WritePath (ix.stores (ix.lookup o.docID)).shard.shardNum := by
  obtain ⟨hid, hres, -⟩ := deleteOperation_resolved h fun k => find_some
  exact ⟨hid, hid ▸ hres.writePath⟩

theorem mem_deletions {docIDs : List DocID} {o : Operation σ ν} (h : o ∈ deletions ctx docIDs) :
    o.docID ∈ docIDs ∧ o.WritePath (ix.stores (ix.lookup o.docID)).shard.shardNum ∧
      ¬ (o.action = .insert ∨ o.action = .update) := by
  obtain ⟨id, hid, hop⟩ := mem_filterMap.1 h
  cases hok : ctx.env.deleteOperation ctx.find id with
  | error e =>
    rw [hok] at hop
    cases hop
  | ok o' =>
    rw [hok] at hop
    cases hop
    obtain ⟨hdocID, hpath⟩ := deleteOperation_writePath hok
    exact ⟨hdocID ▸ hid, hpath, deleteOperation_action hok⟩

variable [DecidableEq κ]

theorem delete_document (hvec : ctx.env.hasVectors = true) (docID : DocID) :
    ix.delete ctx (.document docID) = ix.delete ctx (.documents [docID]) ∧
      ix.deleteEffects ctx (.document docID) = ix.deleteEffects ctx (.documents [docID]) := by
  obtain ⟨o, ho⟩ := deleteOperation_ok hvec docID
  constructor
  · simp [Index.delete, Index.deleteDocument, Index.deleteDocuments, ho, Index.write,
      Except.toOption]
  · simp [Index.deleteEffects, ho, Except.toOption]

theorem exists_logged (hvec : ctx.env.hasVectors = true) (docID : DocID) :
    ∃ o : Operation σ ν, o.docID = docID ∧ ¬ (o.action = .insert ∨ o.action = .update) ∧
      o.WritePath (ix.stores (ix.lookup docID)).shard.shardNum ∧
      (ix.deleteDocument true ctx docID).1 =
        ix.set (ix.lookup docID) ((ix.stores (ix.lookup docID)).extend [o]) ∧
      ix.logged ctx docID = (ix.stores (ix.lookup docID)).extend [o] := by
  obtain ⟨o, ho⟩ := deleteOperation_ok hvec docID
  obtain ⟨hid, hpath⟩ := deleteOperation_writePath ho
  have hdelete : (ix.deleteDocument true ctx docID).1 =
      ix.set (ix.lookup docID) ((ix.stores (ix.lookup docID)).extend [o]) := by
    simp [Index.deleteDocument, ho, Index.write, hid]
  refine ⟨o, hid, deleteOperation_action ho, hid ▸ hpath, hdelete, ?_⟩
  rw [Index.logged, hdelete]
  exact Index.stores_set_self _ _ _

theorem mem_backlog_extend {st : Store B ν} (hst : st.Ready) {o p : Operation σ ν}
    (hp : p ∈ (st.extend [o]).backlog) : p = o ∨ p.docID ∈ st.waiting.map Operation.docID := by
  have hwait : p ∈ (st.extend [o]).waiting := mem_of_mem_take hp
  rw [waiting_extend hst] at hwait
  rcases mem_append.1 hwait with hwait | hwait
  · exact .inr (mem_map_of_mem hwait)
  · exact .inl (mem_singleton.1 hwait)

variable {c : DeleteCall σ ν} (hvec : ctx.env.hasVectors = true) (hready : c.Ready ix)
include hvec hready

theorem ids_deleteEffects {ins : List (DocID × ν)} {dels : List DocID}
    (h : Effect.vectors f ins dels ∈ ix.deleteEffects ctx c) :
    (∀ p ∈ ins, p.1 ∈ c.waiting ix) ∧ ∀ id ∈ dels, id ∈ c.ids ++ c.waiting ix := by
  have hcommitted : ∀ docIDs, Effect.vectors f ins dels ∈ ix.deleteEffects ctx (.documents docIDs) →
      (∀ p ∈ ins, p.1 ∈ ([] : List DocID)) ∧ ∀ id ∈ dels, id ∈ docIDs := fun docIDs h => by
    have hops : FromOps (deletions ctx docIDs) ins dels :=
      fromOps_commitAllEffects (fun o ho => (mem_deletions ho).2.1) h
    refine ⟨fun p hp => ?_, fun id hid => ?_⟩
    · obtain ⟨o, ho, -, hadds⟩ := hops.inserted p hp
      exact absurd hadds (mem_deletions ho).2.2
    · obtain ⟨o, ho, rfl⟩ := hops.deleted id hid
      exact (mem_deletions ho).1
  cases c with
  | document docID =>
    rw [(delete_document hvec docID).2] at h
    exact ⟨(hcommitted [docID] h).1, fun id hid => mem_append_left _ ((hcommitted _ h).2 id hid)⟩
  | documents docIDs =>
    exact ⟨(hcommitted docIDs h).1, fun id hid => mem_append_left _ ((hcommitted _ h).2 id hid)⟩
  | logged docID env =>
    obtain ⟨hst, hlast⟩ := hready
    obtain ⟨o, rfl, hdeletes, hpath, -, hlogged⟩ := exists_logged hvec docID
    rw [Index.deleteEffects, hlogged] at h
    obtain ⟨fls, heffects, hbs⟩ :=
      consume_flushes env (ready_extend hst (forall_mem_singleton.2 hpath))
        (by rwa [lastIndex_extend])
    rw [heffects] at h
    have hops := fromOps_flushes h
    rw [hbs, flatten_batchesFrom] at hops
    refine ⟨fun p hp => ?_, fun id hid => ?_⟩
    · obtain ⟨q, hq, hid, hadds⟩ := hops.inserted p hp
      rcases mem_backlog_extend hst hq with rfl | hq
      · exact absurd hadds hdeletes
      · exact hid ▸ hq
    · obtain ⟨q, hq, rfl⟩ := hops.deleted id hid
      rcases mem_backlog_extend hst hq with rfl | hq
      · exact mem_cons_self
      · exact mem_cons_of_mem _ hq

theorem live_delete {id : DocID} (hid : id ∉ c.ids ++ c.waiting ix) :
    (ix.delete ctx c).live id = ix.live id := by
  have hcommitted : ∀ docIDs, id ∉ docIDs →
      (ix.delete ctx (.documents docIDs)).live id = ix.live id := fun docIDs hid =>
    live_commitAll (fun o (ho : o ∈ deletions ctx docIDs) => (mem_deletions ho).2.1)
      fun o ho heq => hid (heq ▸ (mem_deletions ho).1)
  have hids : id ∉ c.ids := fun h => hid (mem_append_left _ h)
  cases c with
  | document docID =>
    rw [(delete_document hvec docID).1]
    exact hcommitted [docID] hids
  | documents docIDs => exact hcommitted docIDs hids
  | logged docID env =>
    obtain ⟨hst, hlast⟩ := hready
    obtain ⟨o, rfl, -, hpath, hdelete, hlogged⟩ := exists_logged hvec docID
    rw [Index.delete, hlogged, hdelete]
    refine congrArg List.sum (map_congr_left fun k _ => live_congr fun j => ?_)
    by_cases hk : k = ix.lookup o.docID
    · subst hk
      have hbacklog : ∀ p ∈ ((ix.stores (ix.lookup o.docID)).extend [o]).backlog, p.docID ≠ id :=
        fun p hp heq => hid <| heq ▸ (mem_backlog_extend hst hp).elim
          (fun h => h ▸ mem_cons_self) (mem_cons_of_mem _)
      have hother := versions_call_other env (ready_extend hst (forall_mem_singleton.2 hpath))
        (by rwa [lastIndex_extend]) hbacklog j
      rw [Index.stores_set_self]
      exact hother
    · rw [Index.stores_set_of_ne _ hk, Index.stores_set_of_ne _ hk]

end Context

section Touched

variable {types : String → VecIndexType} {V : Vectors ν} {es : Effects σ ν} {k : Int}

theorem mem_deletedIn {d : DocID} :
    d ∈ deletedIn f es ↔ ∃ ins dels, Effect.vectors f ins dels ∈ es ∧ d ∈ dels := by
  rw [deletedIn, mem_flatMap]
  constructor
  · rintro ⟨e, he, hd⟩
    cases e with
    | vectors f' ins dels =>
      dsimp only at hd
      split at hd
      · next hf => exact ⟨ins, dels, hf ▸ he, hd⟩
      · cases hd
    | setTimestamp | commit => cases hd
  · rintro ⟨ins, dels, he, hd⟩
    exact ⟨_, he, by simpa using hd⟩

variable (hins : ∀ ins dels, Effect.vectors f ins dels ∈ es → ∀ p ∈ ins, (types f).key p.1 ≠ k)
include hins

theorem write_deleted {ins : List (DocID × ν)} {dels : List DocID}
    (h : Effect.vectors f ins dels ∈ es) (stored : List ν) :
    (types f).write (decide (k ∈ dels.map (types f).key))
        ((ins.filter fun p => (types f).key p.1 = k).map Prod.snd) stored =
      if k ∈ dels.map (types f).key then [] else stored := by
  rw [filter_eq_nil_iff.2 fun p hp => by simpa using hins ins dels h p hp]
  cases types f <;> simp [VecIndexType.write]

/-- Batches that add nothing under a number, one of which deletes it, leave nothing there. -/
theorem runEffects_deleted {d : DocID} (hd : d ∈ deletedIn f es) (hkey : (types f).key d = k) :
    V.runEffects types es f k = [] := by
  obtain ⟨ins, dels, he, hdels⟩ := mem_deletedIn.1 hd
  obtain ⟨before, after, rfl⟩ := append_of_mem he
  rw [runEffects_append]
  change Vectors.runEffects types (Vectors.batch types _ f ins dels) after f k = []
  refine runEffects_induction (P := fun stored => stored = []) ?_ ?_
  · rw [batch_self, write_deleted hins he, if_pos (mem_map.2 ⟨d, hdels, hkey⟩)]
  · rintro ins' dels' he' _ rfl
    rw [write_deleted hins (mem_append_right _ (mem_cons_of_mem _ he')), ite_self]

/-- Batches that add nothing under a number keep what is stored there if and only if they do not
delete it, or nothing is stored. -/
theorem runEffects_kept_iff :
    V.runEffects types es f k = V f k ↔
      V f k = [] ∨ ∀ d ∈ deletedIn f es, (types f).key d ≠ k := by
  by_cases h : ∃ d ∈ deletedIn f es, (types f).key d = k
  · obtain ⟨d, hd, hkey⟩ := h
    rw [runEffects_deleted hins hd hkey]
    exact ⟨fun h => .inl h.symm, fun h => (h.resolve_right fun hall => hall d hd hkey).symm⟩
  · push Not at h
    refine iff_of_true (runEffects_untouched fun ins dels hin id hid => ?_) (.inr h)
    rcases mem_append.1 hid with hid | hid
    · obtain ⟨p, hp, rfl⟩ := mem_map.1 hid
      exact hins ins dels hin p hp
    · exact h id (mem_deletedIn.2 ⟨ins, dels, hin, hid⟩)

end Touched

end VectorDeleteLemmas

open VectorDeleteLemmas

section Main

variable {B : Bluge σ} [DecidableEq κ] {ix : Index B ν κ} {ctx : CallContext δ ε ix}
  {types : String → VecIndexType}

end Main

namespace VectorDeleteLemmas

def fieldContext (ix : Index (Bluge.lists Unit) Unit Unit) : CallContext Unit Empty ix where
  env :=
    { hasVectors := true
      canonical := Base62.canonical
      checkDocument := fun _ _ => .ok ⟨some 1, [("v", ())], ()⟩
      timestamp := fun _ _ f h => by
        cases h
        rfl
      emptySource := () }
  finder k := .first _
  commit _ := ⟨1, fun _ => { refEnv Unit Unit with vecFields := ["v"] }, false⟩

def created : Index (Bluge.lists Unit) Unit Unit :=
  emptyIndex.call false (fieldContext emptyIndex) (.createDocument "1" () true)

def hnswTypes : String → VecIndexType := fun _ => .hnsw

def stored : Vectors Unit :=
  match (fieldContext emptyIndex).env.createOperation (fieldContext emptyIndex).find
    ⟨"1", (), true⟩ with
  | .error _ => fun _ _ => []
  | .ok o => Vectors.runEffects hnswTypes (fun _ _ => [])
      (emptyIndex.commitAllEffects (fieldContext emptyIndex).commit [o])

def afterDelete (docID : DocID) : Vectors Unit :=
  stored.runEffects hnswTypes (created.deleteEffects (fieldContext created) (.document docID))

end VectorDeleteLemmas

end SeaSearch
