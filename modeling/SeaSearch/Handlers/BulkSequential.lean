import SeaSearch.Handlers.BulkDirect

/-!
# Bulk requests and the order of their actions

A bulk request is compared with its actions one after the other, each committed before the next one.
With the WAL the shard of an action is found while the actions before it are waiting.
-/

namespace SeaSearch

open List KeyedBag WalMergeDocs PartitionLemmas PartialLemmas RecoveryLemmas
  DocumentLemmas OneLiveLemmas RunLemmas WordLemmas BulkLemmas

variable {σ ν ε κ τ : Type}

section Wal

variable {B : Bluge σ} [DecidableEq κ]

def Index.append (ix : Index B ν κ) (ops : Ops σ ν) : Index B ν κ :=
  { ix with stores := fun k => (ix.stores k).extend (ops.filter fun o => ix.lookup o.docID = k) }

/-- Calls of `ConsumeWAL` on the first-layer shards. -/
def Index.consumeAll (calls : κ → List (CallEnv σ ν)) (ix : Index B ν κ) : Index B ν κ :=
  { ix with stores := fun k => (ix.stores k).consumeAll (calls k) }

/-- The batches in which calls of `ConsumeWAL` write the actions on the first-layer shard
of an id. -/
def Index.waitingBatches (env : IndexEnv (JsonObject τ) ε σ ν) (calls : κ → List (CallEnv σ ν))
    (ix : Index B ν κ) (acts : List (BulkAction τ)) (id : DocID) :
    List (Nat × Ops σ ν) :=
  walBatches (calls (ix.lookup id)) (ix.stores (ix.lookup id)).shard.shardNum
    ((ix.entries env acts).filter fun o => ix.lookup o.docID = ix.lookup id)

/-- With the WAL the order of the actions on an id is kept when it is live before the
request. Otherwise its deletes do not remove what the request inserts: when the last
action is a delete no batch may insert the id, and when it is a document just one
batch may, or a deletion of vectors makes the last one replace the others. -/
def WalOrdered (env : IndexEnv (JsonObject τ) ε σ ν) (calls : κ → List (CallEnv σ ν))
    (ix : Index B ν κ) (acts : List (BulkAction τ)) (id : DocID) : Prop :=
  ix.Missing id →
    match lastAction acts id with
    | none => True
    | some (.delete _) => insertingWords id (ix.waitingBatches env calls acts id) = []
    | some (.data _ _ _ _) => OneInserted id (ix.waitingBatches env calls acts id)

namespace BulkLemmas

variable {ix : Index B ν κ} {env : IndexEnv (JsonObject τ) ε σ ν} {acts : List (BulkAction τ)}
  {id : DocID} {calls : κ → List (CallEnv σ ν)}

theorem append_nil (ix : Index B ν κ) : ix.append [] = ix := by
  simp [Index.append, extend_nil]

theorem write_append (commit : κ → CommitEnv σ ν) (ops : Ops σ ν) (o : Operation σ ν) :
    ((ix.append ops).write (ε := ε) true commit o).1 = ix.append (ops ++ [o]) := by
  simp only [Index.write, Index.append, Index.set, if_true, Index.mk.injEq, true_and]
  funext k
  by_cases hk : ix.lookup o.docID = k
  · subst hk
    rw [Function.update_self, extend_extend, filter_append]
    simp
  · rw [Function.update_of_ne (Ne.symm hk), filter_append]
    simp [hk]

theorem performAll_wal (hsingle : ix.Single) {acts : List (BulkAction τ × Around B ν κ ε τ)}
    (henv : ∀ p ∈ acts, ∀ ix, (p.2 ix).env = env) (ops : Ops σ ν) :
    (ix.append ops).performAll true acts =
      ix.append (ops ++ ix.entries env (acts.map Prod.fst)) := by
  induction acts generalizing ops with
  | nil =>
    rw [map_nil, Index.entries, filterMap_nil, List.append_nil]
    rfl
  | cons p acts ih =>
    have hrest := ih fun q hq => henv q (mem_cons_of_mem _ hq)
    -- the shards have not changed, so an id is found where it was
    have hsame : (ix.append ops).Single := hsingle
    have hstep : ((ix.append ops).perform true (p.2 (ix.append ops)) p.1).1 = _ :=
      perform_eq hsame (henv p mem_cons_self (ix.append ops)) p.1
    have hentry : (ix.append ops).entry env p.1 = ix.entry env p.1 := rfl
    show Index.performAll true acts ((ix.append ops).perform true (p.2 (ix.append ops)) p.1).1 = _
    rw [hstep, hentry, map_cons, Index.entries]
    cases he : ix.entry env p.1 with
    | none =>
      rw [filterMap_cons_none he]
      exact hrest ops
    | some o =>
      rw [filterMap_cons_some he]
      show Index.performAll true acts ((ix.append ops).write (ε := ε) true _ o).1 = _
      rw [write_append, hrest, append_assoc]
      rfl

section Consumed

variable (hrest : ix.AtRest) (hvalid : ∀ a ∈ acts, a.Valid env ix)
  (hlast : ∀ k, ((ix.append (ix.entries env acts)).stores k).wal.lastIndex + 1 < 2 ^ 64)
include hrest hvalid

theorem append_ready (k : κ) : ((ix.append (ix.entries env acts)).stores k).Ready := by
  refine ready_extend (hrest.inv k).ready fun o ho => ?_
  obtain ⟨ho, hk⟩ := by simpa using ho
  exact hk ▸ (entries_resolved hvalid o ho).writePath

omit hvalid in
theorem append_waiting (ops : Ops σ ν) (k : κ) :
    ((ix.append ops).stores k).waiting = ops.filter fun o => ix.lookup o.docID = k := by
  show ((ix.stores k).extend _).waiting = _
  rw [waiting_extend (hrest.inv k).ready, hrest.waiting, nil_append]

include hlast

theorem live_consumed : ((ix.append (ix.entries env acts)).consumeAll calls).live id =
    (((ix.append (ix.entries env acts)).consumeAll calls).stores (ix.lookup id)).shard.live id := by
  refine Index.live_own fun k hk j => ?_
  obtain ⟨hzero, hentries⟩ := (hrest.inv k).others id hk
  refine (versions_consumeAll_other (calls k) (append_ready hrest hvalid k) (hlast k)
    (fun o ho => ?_) j).trans (hzero j)
  rcases mem_append.mp ho with ho | ho
  · exact hentries o ho
  · obtain ⟨-, hid⟩ := by simpa using ho
    exact fun heq => hk (heq ▸ hid)

theorem versions_consumed (j : Nat) :
    (((ix.append (ix.entries env acts)).consumeAll calls).stores
        (ix.lookup id)).shard.versions j id =
      runPlaced ((ix.waitingBatches env calls acts id).map fun p =>
        placedWrite (ix.home id) id p.1 p.2)
        (fun j => (ix.stores (ix.lookup id)).shard.versions j id) j := by
  have hwait := append_waiting hrest (ix.entries env acts) (ix.lookup id)
  have hvers := versions_consumeAll (home_le ix id) (calls (ix.lookup id))
    (append_ready hrest hvalid (ix.lookup id)) (hlast (ix.lookup id))
    (by rw [hwait]; exact fun o ho => entries_home hvalid o (mem_filter.mp ho).1) j
  rw [hwait] at hvers
  exact hvers

variable (hdone : (((ix.append (ix.entries env acts)).consumeAll calls).stores
  (ix.lookup id)).waiting = [])

include hdone

theorem flatten_waitingBatches :
    ((ix.waitingBatches env calls acts id).map Prod.snd).flatten =
      (ix.entries env acts).filter fun o => ix.lookup o.docID = ix.lookup id := by
  have hflat := walBatches_append_waiting (calls (ix.lookup id))
    (append_ready hrest hvalid (ix.lookup id)) (hlast (ix.lookup id))
  have hnone : (((ix.append (ix.entries env acts)).stores (ix.lookup id)).consumeAll
      (calls (ix.lookup id))).waiting = [] := hdone
  rw [append_waiting hrest, hnone, List.append_nil] at hflat
  exact hflat.symm

theorem live_consumed_found (hfound : ¬ ix.Missing id) :
    ((ix.append (ix.entries env acts)).consumeAll calls).live id =
      outcomeOf env acts id (ix.live id) := by
  obtain ⟨i, hloc⟩ := Option.ne_none_iff_exists'.mp (mt missing_iff_locate.mpr hfound)
  have hhome : ∀ n, mainShard n (ix.home id) = i := fun n => by
    simp only [Index.home, hloc, mainShard_ofNat]
  have hplace : ∀ p ∈ (ix.waitingBatches env calls acts id).map fun p =>
      placedWrite (ix.home id) id p.1 p.2, p.1 = i := by
    intro p hp
    obtain ⟨q, -, rfl⟩ := mem_map.mp hp
    exact hhome q.1
  have hbatches := flatten_waitingBatches hrest hvalid hlast hdone
  rw [live_consumed hrest hvalid hlast, live_of_placed (versions_consumed hrest hvalid hlast) hplace
    fun j hj => home_elsewhere hrest (by rwa [hhome]),
    ← live_words_found hvalid hrest hfound hbatches,
    rest_live_home hrest, hhome, map_map, map_map]
  rfl

theorem live_consumed_missing (hmiss : ix.Missing id) :
    ((ix.append (ix.entries env acts)).consumeAll calls).live id = outcomeOf env acts id 0 ↔
      match lastAction acts id with
      | none => True
      | some (.delete _) => insertingWords id (ix.waitingBatches env calls acts id) = []
      | some (.data _ _ _ _) => OneInserted id (ix.waitingBatches env calls acts id) := by
  have hin : ∀ p ∈ ix.waitingBatches env calls acts id, ∀ o ∈ p.2, o ∈ ix.entries env acts :=
    fun p hp o ho => (mem_filter.mp ((mem_walBatches hp).2 o ho)).1
  have hops : ∀ p ∈ ix.waitingBatches env calls acts id, ∀ o ∈ p.2, o.docID = id →
      o.action = .insert ∨ o.action = .deleteVecOnly :=
    fun p hp o ho => entry_missing hvalid hmiss (hin p hp o ho)
  have hvers : ∀ j, (((ix.append (ix.entries env acts)).consumeAll calls).stores
        (ix.lookup id)).shard.versions j id =
        runPlaced ((ix.waitingBatches env calls acts id).map fun p =>
          placedWrite shardIDNeedLatest id p.1 p.2) (fun _ => 0) j := by
    have hzero : (fun j => (ix.stores (ix.lookup id)).shard.versions j id) = fun _ => 0 :=
      funext hmiss
    intro j
    rw [versions_consumed hrest hvalid hlast, home_of_missing hmiss, hzero]
  rw [live_consumed hrest hvalid hlast, outcomeOf]
  cases hla : lastAction acts id with
  | none =>
    refine iff_of_true ((live_none_iff hops hvers).mpr (insertingWords_eq_nil ?_)) trivial
    intro p hp o ho hid
    obtain ⟨a, ha, hentry⟩ := mem_entries hvalid (hin p hp o ho)
    exact absurd (hentry.docID.symm.trans hid) (lastAction_eq_none.mp hla a ha)
  | some a =>
    cases a with
    | delete docID => exact live_none_iff hops hvers
    | data docID doc update op =>
      obtain ⟨o, hins, hout, hlastOp⟩ := last_insert hvalid hmiss hla rfl
      rw [← flatten_waitingBatches hrest hvalid hlast hdone] at hlastOp
      have hpos : ∀ p ∈ ix.waitingBatches env calls acts id, 0 < p.1 := fun p hp =>
        lt_of_lt_of_le (IndexShard.shardNum_pos _) (mem_walBatches hp).1
      show _ = BulkAction.outcome env _ ↔ _
      rw [hout]
      exact live_last_iff hops hvers hpos hlastOp hins

end Consumed

end BulkLemmas

variable {ix : Index B ν κ} {env : IndexEnv (JsonObject τ) ε σ ν} {acts : List (BulkAction τ)}
  {calls : κ → List (CallEnv σ ν)}

theorem wal_live_iff (hrest : ix.AtRest) (hvalid : ∀ a ∈ acts, a.Valid env ix)
    (hlast : ∀ k, ((ix.append (ix.entries env acts)).stores k).wal.lastIndex + 1 < 2 ^ 64)
    (hdone : ∀ k, (((ix.append (ix.entries env acts)).consumeAll calls).stores k).waiting = [])
    (id : DocID) :
    ((ix.append (ix.entries env acts)).consumeAll calls).live id =
        outcomeOf env acts id (ix.live id) ↔
      WalOrdered env calls ix acts id := by
  by_cases hmiss : ix.Missing id
  · rw [(missing_iff_live hrest).mp hmiss,
      live_consumed_missing hrest hvalid hlast (hdone (ix.lookup id)) hmiss]
    exact ⟨fun h _ => h, fun h => h hmiss⟩
  · exact iff_of_true (live_consumed_found hrest hvalid hlast (hdone (ix.lookup id)) hmiss)
      fun h => absurd h hmiss

end Wal

section Requests

variable {B : Bluge σ} [DecidableEq κ]

def settled (wal : Bool) (consume : String → κ → List (CallEnv σ ν)) (ixs : Indexes B ν κ) :
    Indexes B ν κ := fun name =>
  if wal then (ixs name).consumeAll (consume name) else ixs name

/-- The calls of a request, and those of its actions one after the other, read the same
properties of an index and use the same `BatchSize`. -/
structure BulkEnv.Surrounds (request : BulkEnv B ν κ ε τ) (seq : Nat → Around B ν κ ε τ)
    (env : String → IndexEnv (JsonObject τ) ε σ ν) (batchSize : Nat) (body : Body τ) : Prop where
  calls : ∀ p ∈ withCalls (request.actions body) request.calls, Configured (env p.1.1) batchSize p.2
  seq : ∀ p ∈ withCalls (request.actions body) seq, Configured (env p.1.1) batchSize p.2
  deletes : ∀ name, Configured (env name) batchSize (request.deletes name)
  creates : ∀ name, Configured (env name) batchSize (request.creates name)

/-- The order of the actions on an id is kept. -/
def Ordered (wal : Bool) (env : IndexEnv (JsonObject τ) ε σ ν) (batchSize : Nat)
    (calls : κ → List (CallEnv σ ν)) (ix : Index B ν κ) (acts : List (BulkAction τ)) (id : DocID) :
    Prop :=
  if wal then WalOrdered env calls ix acts id else DirectOrdered batchSize ix acts id

namespace BulkLemmas

variable {request : BulkEnv B ν κ ε τ} {seq : Nat → Around B ν κ ε τ}
  {env : String → IndexEnv (JsonObject τ) ε σ ν} {batchSize : Nat} {body : Body τ}
  {ixs : Indexes B ν κ} {wal : Bool} (hsur : request.Surrounds seq env batchSize body)
include hsur

theorem accepts_of_request (hok : (bulkWorker wal request body ixs).2.2 = none) {name : String}
    {docID : DocID} {doc : JsonObject τ} {update : Bool}
    (ha : .data docID doc update op ∈ actionsOn name (request.actions body)) :
    (env name).Accepts docID doc := by
  cases wal with
  | true =>
    obtain ⟨-, haccepts⟩ := walActions_accepted (bulkWorker_wal hok).1
    rw [← map_fst_onIndex name (request.actions body) request.calls] at ha
    obtain ⟨⟨_, around⟩, hp, rfl⟩ := mem_map.mp ha
    obtain ⟨ix, h⟩ := haccepts name docID doc update op around (mem_onIndex hp)
    rwa [(hsur.calls _ (mem_onIndex hp) ix).1] at h
  | false =>
    obtain ⟨-, hcreated⟩ := directRequest_accepted (bulkWorker_direct hok).1 name
    have := accepts_of_createDocuments hcreated (mem_docOperations ha)
    rwa [(hsur.creates name _).1] at this

theorem valid_of_request (hok : (bulkWorker wal request body ixs).2.2 = none) {name : String}
    (hgen : GeneratedOnce (ixs name) (actionsOn name (request.actions body))) :
    ValidActions (env name) (ixs name) (actionsOn name (request.actions body)) :=
  ⟨fun _ _ _ _ ha => accepts_of_request hsur hok ha, hgen⟩

theorem sequential_live (hbatch : 0 < batchSize) (hrest : ∀ name, (ixs name).AtRest)
    (hvalid : ValidActions (env name) (ixs name) (actionsOn name (request.actions body)))
    (id : DocID) :
    (performed false (withCalls (request.actions body) seq) ixs name).live id =
      outcomeOf (env name) (actionsOn name (request.actions body)) id ((ixs name).live id) := by
  rw [← map_fst_onIndex name (request.actions body) seq] at hvalid ⊢
  rw [performed_apply]
  exact (performAll_live hbatch (hrest name) (fun p hp => hsur.seq _ (mem_onIndex hp)) hvalid).2 id

theorem wal_request (hrest : ∀ name, (ixs name).AtRest)
    (hok : (bulkWorker true request body ixs).2.2 = none) (name : String) :
    (bulkWorker true request body ixs).1 name = (ixs name).append ((ixs name).entries (env name)
        (actionsOn name (request.actions body))) := by
  obtain ⟨hnone, heq⟩ := bulkWorker_wal hok
  have henv : ∀ p ∈ onIndex name (withCalls (request.actions body) request.calls),
      ∀ ix, (p.2 ix).env = env name := fun p hp ix => (hsur.calls _ (mem_onIndex hp) ix).1
  have hwritten := performAll_wal (rest_single (hrest name)) henv []
  rw [append_nil, nil_append, map_fst_onIndex] at hwritten
  rw [heq, (walActions_accepted hnone).1, performed_apply, hwritten]

end BulkLemmas

variable {request : BulkEnv B ν κ ε τ} {seq : Nat → Around B ν κ ε τ}
  {env : String → IndexEnv (JsonObject τ) ε σ ν} {batchSize : Nat} {body : Body τ}
  {ixs : Indexes B ν κ} {wal : Bool} {consume : String → κ → List (CallEnv σ ν)}

/-- An accepted bulk request leaves the same live documents as its actions one after the
other exactly when the order of the actions on every id is kept. Before the request
nothing waits in the WAL and every id has at most one live document, the ids that it
generates are new, and afterwards the WAL is consumed. -/
theorem bulk_eq_sequential_iff (hbatch : 0 < batchSize) (hrest : ∀ name, (ixs name).AtRest)
    (hsur : request.Surrounds seq env batchSize body)
    (hgen : ∀ name, GeneratedOnce (ixs name) (actionsOn name (request.actions body)))
    (hok : (bulkWorker wal request body ixs).2.2 = none)
    (hlast : ∀ name k,
      (((bulkWorker wal request body ixs).1 name).stores k).wal.lastIndex + 1 < 2 ^ 64)
    (hdone : ∀ name k,
      ((settled wal consume (bulkWorker wal request body ixs).1 name).stores k).waiting = []) :
    (∀ name id, (settled wal consume (bulkWorker wal request body ixs).1 name).live id =
        (performed false (withCalls (request.actions body) seq) ixs name).live id) ↔
      ∀ name id, Ordered wal (env name) batchSize (consume name) (ixs name)
        (actionsOn name (request.actions body)) id := by
  refine forall₂_congr fun name id => ?_
  have hvalid := valid_of_request hsur hok (hgen name)
  rw [sequential_live hsur hbatch hrest hvalid]
  cases wal with
  | true =>
    have heq := wal_request hsur hrest hok name
    have hlast := hlast name
    have hdone := hdone name
    simp only [settled, if_true, heq] at hlast hdone ⊢
    exact wal_live_iff (hrest name) (fun a ha => valid_mem hvalid ha) hlast hdone id
  | false =>
    obtain ⟨hnone, heq⟩ := bulkWorker_direct hok
    obtain ⟨hdirect, hcreated⟩ := directRequest_accepted hnone name
    simp only [settled, Bool.false_eq_true, if_false, heq, hdirect]
    exact direct_live_iff hbatch (hrest name) hvalid (hsur.deletes name) (hsur.creates name) rfl
      hcreated id

end Requests

namespace BulkLemmas

def plainCalls : Around (Bluge.lists Unit) Unit Unit Empty Unit := fun ix =>
  { env :=
      { hasVectors := false
        canonical := fun _ => true
        checkDocument := fun _ _ => .ok ⟨some 1, [], ()⟩
        timestamp := fun _ _ f h => by
          cases h
          rfl
        emptySource := () }
    finder := fun _ => .first _
    commit := fun _ => ⟨1, fun _ => refEnv Unit Unit, false⟩ }

def plainRequest : BulkEnv (Bluge.lists Unit) Unit Unit Empty Unit where
  target := ""
  generate _ := ""
  getOrCreate _ := none
  calls _ := plainCalls
  deletes _ := plainCalls
  creates _ := plainCalls
  visit names := names
  visit_perm _ := .refl _

def metaData (action : String) : Line Unit :=
  .object [(action, .object [("_index", .string "docs"), ("_id", .string "a")])]

def consumeOnce : String → Unit → List (CallEnv Unit Unit) := fun _ _ =>
  [⟨1, fun _ => refEnv Unit Unit, false⟩]

def noDocuments : Indexes (Bluge.lists Unit) Unit Unit := fun _ => emptyIndex

def deleteThenIndex : Body Unit := ⟨[metaData "delete", metaData "index", .object []], false⟩

theorem plainCalls_configured : Configured (plainCalls emptyIndex).env 1 plainCalls :=
  fun _ => ⟨rfl, fun _ => rfl⟩

theorem plainRequest_surrounds (body : Body Unit) :
    plainRequest.Surrounds (fun _ => plainCalls) (fun _ => (plainCalls emptyIndex).env) 1 body where
  calls := forall_mem_map.mpr fun _ _ => plainCalls_configured
  seq := forall_mem_map.mpr fun _ _ => plainCalls_configured
  deletes _ := plainCalls_configured
  creates _ := plainCalls_configured

theorem deleteThenIndex_actions (name : String) :
    actionsOn name (plainRequest.actions deleteThenIndex) =
      if name = "docs" then [.delete "a", .data "a" [] true (some "index")] else [] := by
  have hacts : plainRequest.actions deleteThenIndex =
    [("docs", .delete "a"), ("docs", .data "a" [] true (some "index"))] := rfl
  rw [hacts]
  by_cases h : name = "docs"
  · simp [actionsOn, h]
  · simp [actionsOn, h, Ne.symm h]

theorem deleteThenIndex_other (wal : Bool) (h : name ≠ "docs") :
    (bulkWorker wal plainRequest deleteThenIndex noDocuments).1 name = emptyIndex := by
  cases wal with
  | true | false =>
    change Function.update (Function.update noDocuments "docs" _) "docs" _ name = _
    rw [Function.update_of_ne h, Function.update_of_ne h]
    rfl

end BulkLemmas

theorem bulk_eq_sequential_deleteThenIndex :
    (bulkWorker false plainRequest deleteThenIndex noDocuments).2.2.isNone ∧
      (bulkWorker true plainRequest deleteThenIndex noDocuments).2.2.isNone ∧ ∀ wal name id,
      (settled wal consumeOnce (bulkWorker wal plainRequest deleteThenIndex noDocuments).1
          name).live id =
        (performed false (withCalls (plainRequest.actions deleteThenIndex) fun _ => plainCalls)
          noDocuments name).live id := by
  refine ⟨rfl, rfl, fun wal => (bulk_eq_sequential_iff (by decide)
    (fun _ => ⟨fun _ => storeInv_new _, fun _ => rfl⟩)
    (plainRequest_surrounds deleteThenIndex) (fun name => ?_) (by cases wal <;> rfl)
    (fun name () => ?_) (fun name () => ?_)).mpr fun name id => ?_⟩
  · rw [deleteThenIndex_actions]
    intro pre docID doc op post heq
    have hmem : .data docID doc false op ∈ pre ++ .data docID doc false op :: post := by simp
    rw [← heq] at hmem
    split at hmem <;> simp at hmem
  · by_cases h : name = "docs"
    · subst h
      cases wal <;> decide
    · rw [deleteThenIndex_other wal h]
      decide
  · by_cases h : name = "docs"
    · subst h
      cases wal <;> rfl
    · rw [settled, deleteThenIndex_other wal h]
      cases wal <;> rfl
  · rw [Ordered, deleteThenIndex_actions]
    by_cases h : name = "docs"
    · subst h
      rw [if_pos rfl]
      by_cases hid : "a" = id
      · subst hid
        cases wal with
        | true =>
          refine fun _ pre w hwords => .inl (length_eq_zero_iff.1 ?_)
          have hlength : 1 = (pre ++ [w]).length := congrArg length hwords
          simpa using hlength.symm
        | false => exact .inr (by decide)
      · have hnone : lastAction [(.delete "a" : BulkAction Unit), .data "a" [] true (some "index")]
            id = none := lastAction_eq_none.mpr (by simpa [BulkAction.docID] using hid)
        split
        · rw [WalOrdered, hnone]
          exact fun _ => trivial
        · rw [DirectOrdered, hnone]
          trivial
    · rw [if_neg h]
      split
      · exact fun _ => trivial
      · trivial

/-- A body that writes a document and then deletes it leaves the document. Without the
WAL the delete comes first; with it the document is not found, since it is waiting. -/
theorem create_then_delete_stays :
    let body : Body Unit := ⟨[metaData "index", .object [], metaData "delete"], false⟩
    let result wal := bulkWorker wal plainRequest body noDocuments
    let left wal := settled wal consumeOnce (result wal).1 "docs"
    let seq := performed false (withCalls (plainRequest.actions body) fun _ => plainCalls)
      noDocuments
    (result true).2.2.isNone ∧ ((left true).stores ()).waiting.length = 0 ∧
      ((left true).live "a").card = 1 ∧ (result false).2.2.isNone ∧
      ((left false).live "a").card = 1 ∧ ((seq "docs").live "a").card = 0 := by
  decide

end SeaSearch
