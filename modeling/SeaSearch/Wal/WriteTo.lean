import SeaSearch.Wal.MergeDocs
import SeaSearch.Lib.Traces

/-!
# Writing merged operations to the shards

`WriteTo` writes, for each document of each shard group, what its first and its last action amount
to. The result is a list of effects in the order in which the groups are visited.
-/

namespace SeaSearch

open List KeyedBag Traces

variable {σ ν : Type}

inductive MainWrite
  | none
  | insert
  | update
  | delete
  deriving DecidableEq, Repr

inductive VecAction
  | none
  | insert
  | update
  | delete
  deriving DecidableEq, Repr

/-- What the switch of `WriteToShard` chooses for a document: the write to the
main batch, whether the id is deleted in the other shards, and the action on
its vectors. -/
structure Merged where
  main : MainWrite
  other : Bool
  vec : VecAction
  deriving DecidableEq, Repr

namespace WalDocument

/-- The switch of `WriteToShard` over the first action and the last one. There
is no last action when the document has only one. -/
def merge (d : WalDocument σ ν) : Merged :=
  match d.first, d.rest.getLast? with
  | .insert, none => ⟨.insert, false, .insert⟩
  | .insert, some .insert => ⟨.insert, false, .insert⟩
  | .insert, some .update => ⟨.insert, false, .insert⟩
  | .insert, some .delete => ⟨.none, false, .none⟩
  | .insert, some .deleteVecOnly => ⟨.none, false, .delete⟩
  | .update, none => ⟨.update, true, .update⟩
  | .update, some .insert => ⟨.update, true, .update⟩
  | .update, some .update => ⟨.update, true, .update⟩
  | .update, some .delete => ⟨.delete, true, .delete⟩
  | .update, some .deleteVecOnly => ⟨.none, false, .delete⟩
  | .delete, none => ⟨.delete, true, .delete⟩
  | .delete, some .insert => ⟨.update, true, .update⟩
  | .delete, some .update => ⟨.update, true, .update⟩
  | .delete, some .delete => ⟨.delete, true, .delete⟩
  | .delete, some .deleteVecOnly => ⟨.none, false, .delete⟩
  | .deleteVecOnly, none => ⟨.none, false, .delete⟩
  | .deleteVecOnly, some .insert => ⟨.update, true, .update⟩
  | .deleteVecOnly, some .update => ⟨.update, true, .update⟩
  | .deleteVecOnly, some .delete => ⟨.delete, true, .delete⟩
  | .deleteVecOnly, some .deleteVecOnly => ⟨.none, false, .delete⟩

/-- The bluge document that `BuildBlugeDocumentFromJSON` returns. Without a
timestamp field it takes the current time. -/
def build (now : Int) (d : WalDocument σ ν) : Document σ :=
  ⟨d.docID, d.data.timestamp.getD now, d.data.source⟩

end WalDocument

inductive VecOp (ν : Type)
  | insert (field : String) (id : DocID) (vec : ν)
  | update (field : String) (id : DocID) (vec : ν)
  | delete (field : String) (id : DocID)

def VecOp.field : VecOp ν → String
  | .insert f _ _ => f
  | .update f _ _ => f
  | .delete f _ => f

/-- The batches that `WriteToShard` fills while it visits the documents. -/
structure ShardBatches (σ ν : Type) where
  batch : Batch σ := {}
  otherBatch : Batch σ := {}
  vecActions : List (VecOp ν) := []

namespace ShardBatches

def vecActionsOf (vecFields : List String) (d : WalDocument σ ν) : List (VecOp ν) :=
  match d.merge.vec with
  | .none => []
  | .insert => d.data.vectors.map fun p => .insert p.1 d.docID p.2
  | .update => d.data.vectors.map fun p => .update p.1 d.docID p.2
  | .delete =>
    d.data.vectors.map (fun p => .delete p.1 d.docID) ++ vecFields.map fun f => .delete f d.docID

/-- One turn of the loop of `WriteToShard` over the documents. -/
def addDoc (now : Int) (vecFields : List String) (acc : ShardBatches σ ν)
    (d : WalDocument σ ν) : ShardBatches σ ν where
  batch :=
    match d.merge.main with
    | .none => acc.batch
    | .insert => acc.batch.insert (d.build now)
    | .update => acc.batch.update d.docID (d.build now)
    | .delete => acc.batch.delete d.docID
  otherBatch := if d.merge.other then acc.otherBatch.delete d.docID else acc.otherBatch
  vecActions := acc.vecActions ++ vecActionsOf vecFields d

end ShardBatches

/-- `BatchVectors`: one batch for each field, in any order of the fields. -/
def batchVectors (visit : List String → List String) (acts : List (VecOp ν)) :
    Effects σ ν :=
  (visit (acts.map VecOp.field).dedup).map fun f =>
    let acts := acts.filter fun a => a.field = f
    .vectors f
      (acts.filterMap fun
        | .insert _ id v => some (id, v)
        | .update _ id v => some (id, v)
        | .delete _ _ => none)
      (acts.filterMap fun
        | .insert _ _ _ => none
        | .update _ id _ => some id
        | .delete _ id => some id)

/-- `GetWriter`: "second shard not found". -/
inductive WriteError
  | secondShardNotFound
  deriving DecidableEq, Repr

namespace WalMergeDocs

/-- `WriteToShard` on the documents of one group, in the order in which they are
visited. `shardNum` is the number of second-layer shards. -/
def writeToShard (env : FlushEnv σ ν) (shardNum : Nat) (shardID : Int)
    (docs : List (WalDocument σ ν)) : Except WriteError (Effects σ ν) :=
  let group := shardID
  let shardID := if shardID = shardIDNeedLatest then (shardNum : Int) - 1 else shardID
  let built := docs.foldl (ShardBatches.addDoc env.now env.vecFields) {}
  let stamps := docs.map fun d => Effect.setTimestamp (d.build env.now).timestamp
  let vecs := batchVectors env.order.fields built.vecActions
  if 0 ≤ shardID then
    if shardID ≥ shardNum then .error .secondShardNotFound
    else .ok (stamps ++ .commit group shardID.toNat built.batch :: vecs)
  else if shardNum = 0 then .error .secondShardNotFound
  else .ok (stamps ++ .commit group (shardNum - 1) built.batch ::
    ((List.range (shardNum - 1)).map fun k => .commit group k built.otherBatch) ++ vecs)

/-- `WriteToShardRollback`: only the ids that the flush may have inserted are
deleted, and a negative shard id is taken to mean that there are none. -/
def writeToShardRollback (env : FlushEnv σ ν) (shardNum : Nat) (shardID : Int)
    (docs : List (WalDocument σ ν)) : Except WriteError (Effects σ ν) :=
  if 0 ≤ shardID then
    if shardID ≥ shardNum then .error .secondShardNotFound
    else
      let batch : Batch σ := docs.foldl
        (fun b d => if d.first = .insert then b.delete d.docID else b) {}
      .ok ((docs.map fun d => .setTimestamp (d.build env.now).timestamp) ++
        [.commit shardID shardID.toNat batch])
  else .ok []

/-- The loop of `WriteTo`: the effects up to the first error. -/
def writeGroups (write : Int → List (WalDocument σ ν) → Except WriteError (Effects σ ν)) :
    List (Int × List (WalDocument σ ν)) → Effects σ ν × Option WriteError
  | [] => ([], none)
  | (k, docs) :: groups =>
    match write k docs with
    | .error e => ([], some e)
    | .ok es =>
      let (es', e) := writeGroups write groups
      (es ++ es', e)

def visited (o : MapOrder σ ν) (w : WalMergeDocs σ ν) : List (Int × List (WalDocument σ ν)) :=
  (o.groups w.groups.entries).map fun g => (g.1, (o.docs g.2.entries).map Sigma.snd)

def writeTo (env : FlushEnv σ ν) (shardNum : Nat) (w : WalMergeDocs σ ν) (rollback : Bool) :
    Effects σ ν × Option WriteError :=
  writeGroups
    (if rollback then writeToShardRollback env shardNum else writeToShard env shardNum)
    (visited env.order w)

end WalMergeDocs

/-- The shards after `WriteTo` without rollback, up to its first error. -/
def IndexShard.flush {B : Bluge σ} (env : FlushEnv σ ν) (s : IndexShard B)
    (w : WalMergeDocs σ ν) : IndexShard B :=
  s.runEffects (w.writeTo env s.shardNum false).1

open IndexShard (flush runEffects_append runEffects_cons versions_runEffects_other)

open WalMergeDocs

namespace WalDocument

def keyOp (now : Int) (d : WalDocument σ ν) : KeyOp (Document σ) :=
  match d.merge.main with
  | .none => .keep
  | .insert => .add (d.build now)
  | .update => .set (d.build now)
  | .delete => .clear

def otherOp (d : WalDocument σ ν) : KeyOp (Document σ) :=
  if d.merge.other then .clear else .keep

def addedDocs (now : Int) (d : WalDocument σ ν) : List (Document σ) :=
  match d.merge.main with
  | .none => []
  | .insert => [d.build now]
  | .update => [d.build now]
  | .delete => []

def removedIds (d : WalDocument σ ν) : List DocID :=
  match d.merge.main with
  | .none => []
  | .insert => []
  | .update => [d.docID]
  | .delete => [d.docID]

def otherIds (d : WalDocument σ ν) : List DocID :=
  if d.merge.other then [d.docID] else []

end WalDocument

open WalDocument (addedDocs build docID keyOp otherIds otherOp removedIds)

namespace ShardBatches

theorem batch_foldl (now : Int) (vf : List String) (ds : List (WalDocument σ ν))
    (acc : ShardBatches σ ν) :
    (ds.foldl (addDoc now vf) acc).batch =
      { documents := acc.batch.documents ++ ds.flatMap (addedDocs now),
        ids := acc.batch.ids ++ ds.flatMap removedIds } := by
  induction ds generalizing acc with
  | nil => simp
  | cons d ds ih =>
    rw [foldl_cons, ih]
    cases h : d.merge.main <;>
      simp [addDoc, h, addedDocs, removedIds, Batch.insert, Batch.update, Batch.delete]

theorem otherBatch_foldl (now : Int) (vf : List String) (ds : List (WalDocument σ ν))
    (acc : ShardBatches σ ν) :
    (ds.foldl (addDoc now vf) acc).otherBatch =
      { documents := acc.otherBatch.documents,
        ids := acc.otherBatch.ids ++ ds.flatMap otherIds } := by
  induction ds generalizing acc with
  | nil => simp
  | cons d ds ih =>
    rw [foldl_cons, ih]
    cases h : d.merge.other <;> simp [addDoc, h, otherIds, Batch.delete]

end ShardBatches

namespace MergeLemmas

variable {ds : List (WalDocument σ ν)} {id : DocID} {d : WalDocument σ ν}

theorem not_mem_removedIds (h : ∀ d ∈ ds, d.docID ≠ id) :
    id ∉ ds.flatMap removedIds := by
  intro hmem
  obtain ⟨d, hd, hid⟩ := mem_flatMap.mp hmem
  unfold removedIds at hid
  split at hid <;> simp at hid <;> exact h d hd hid.symm

theorem not_mem_otherIds (h : ∀ d ∈ ds, d.docID ≠ id) : id ∉ ds.flatMap otherIds := by
  intro hmem
  obtain ⟨d, hd, hid⟩ := mem_flatMap.mp hmem
  unfold otherIds at hid
  split at hid <;> simp at hid
  exact h d hd hid.symm

theorem filter_addedDocs_eq_nil (now : Int) (h : ∀ d ∈ ds, d.docID ≠ id) :
    (ds.flatMap (addedDocs now)).filter (fun x => x.id = id) = [] := by
  refine filter_eq_nil_iff.mpr fun x hx hid => ?_
  obtain ⟨d, hd, hxd⟩ := mem_flatMap.mp hx
  have hx' : x = d.build now := by
    unfold addedDocs at hxd
    split at hxd <;> simp_all
  exact h d hd (by simpa [hx', build] using hid)

theorem split_at_id (hnd : (ds.map docID).Nodup) (hd : d ∈ ds) :
    ∃ as bs, ds = as ++ d :: bs ∧ (∀ a ∈ as, a.docID ≠ d.docID) ∧ ∀ b ∈ bs, b.docID ≠ d.docID := by
  obtain ⟨as, bs, rfl⟩ := append_of_mem hd
  simp only [map_append, map_cons, nodup_append, nodup_cons, mem_cons, mem_map] at hnd
  obtain ⟨-, ⟨hbs, -⟩, has⟩ := hnd
  refine ⟨as, bs, rfl, fun a ha he => ?_, fun b hb he => hbs ⟨b, hb, he⟩⟩
  exact has _ ⟨a, ha, rfl⟩ _ (.inl rfl) he

theorem main_batch_of_mem (now : Int) (hnd : (ds.map docID).Nodup) (hd : d ∈ ds)
    (m : Docs σ) :
    (⟨ds.flatMap (addedDocs now), ds.flatMap removedIds⟩ :
      Batch σ).write d.docID m = (d.keyOp now).run m := by
  obtain ⟨as, bs, rfl, has, hbs⟩ := split_at_id hnd hd
  have hbid : (d.build now).id = d.docID := rfl
  simp only [Batch.write, flatMap_append, flatMap_cons, mem_append, not_mem_removedIds has,
    not_mem_removedIds hbs, filter_append, filter_addedDocs_eq_nil now has,
    filter_addedDocs_eq_nil now hbs, false_or, or_false, nil_append, append_nil]
  cases h : d.merge.main <;>
    simp [keyOp, removedIds, addedDocs, h, hbid]

theorem other_batch_of_mem (hnd : (ds.map docID).Nodup) (hd : d ∈ ds) (m : Docs σ) :
    (⟨[], ds.flatMap otherIds⟩ : Batch σ).write d.docID m = d.otherOp.run m := by
  obtain ⟨as, bs, rfl, has, hbs⟩ := split_at_id hnd hd
  simp only [Batch.write, flatMap_append, flatMap_cons, mem_append,
    not_mem_otherIds has, not_mem_otherIds hbs, false_or, or_false, filter_nil]
  cases h : d.merge.other <;> simp [otherOp, otherIds, h]

theorem main_batch_of_not_mem (now : Int) (h : ∀ d ∈ ds, d.docID ≠ id) (m : Docs σ) :
    (⟨ds.flatMap (addedDocs now), ds.flatMap removedIds⟩ :
      Batch σ).write id m = m := by
  simp [Batch.write, not_mem_removedIds h, filter_addedDocs_eq_nil now h]

theorem other_batch_of_not_mem (h : ∀ d ∈ ds, d.docID ≠ id) (m : Docs σ) :
    (⟨[], ds.flatMap otherIds⟩ : Batch σ).write id m = m := by
  simp [Batch.write, not_mem_otherIds h]

theorem no_commit_batchVectors (visit : List String → List String) (acts : List (VecOp ν)) (g : Int)
    (k : Nat) (b : Batch σ) : Effect.commit g k b ∉ batchVectors (σ := σ) visit acts := by
  simp [batchVectors]

end MergeLemmas

def mainShard (shardNum : Nat) (k : Int) : Nat :=
  if k < 0 then shardNum - 1 else k.toNat

def groupOp (now : Int) (shardNum : Nat) (k : Int) (j : Nat) :
    Option (WalDocument σ ν) → KeyOp (Document σ)
  | none => .keep
  | some d =>
    if j = mainShard shardNum k then d.keyOp now
    else if k < shardIDNeedLatest then d.otherOp
    else .keep

namespace MergeLemmas

theorem writeToShard_ok (h : writeToShard env n k ds = .ok es) :
    mainShard n k < n ∧ ∃ vecs : Effects σ ν, (∀ g i b, Effect.commit g i b ∉ vecs) ∧
      es = (ds.map fun d => Effect.setTimestamp (d.build env.now).timestamp) ++
        Effect.commit k (mainShard n k)
            ⟨ds.flatMap (addedDocs env.now), ds.flatMap removedIds⟩ ::
          ((if k < shardIDNeedLatest then List.range (n - 1) else []).map fun i =>
            Effect.commit k i ⟨[], ds.flatMap otherIds⟩) ++ vecs := by
  unfold writeToShard at h
  simp only [ShardBatches.batch_foldl, ShardBatches.otherBatch_foldl, nil_append] at h
  have hvecs := fun g i b => no_commit_batchVectors (σ := σ) env.order.fields
    (ds.foldl (ShardBatches.addDoc env.now env.vecFields) {}).vecActions g i b
  by_cases hk : k = shardIDNeedLatest
  · -- the latest shard: `k` is negative, but resolved to `n - 1`
    subst hk
    simp only [↓reduceIte] at h
    split at h
    · split at h
      · cases h
      · next hlt =>
        cases h
        refine ⟨by simp [mainShard, shardIDNeedLatest]; omega, _, hvecs, ?_⟩
        simp [mainShard, shardIDNeedLatest]
    · split at h
      · cases h
      · omega
  · simp only [hk, ↓reduceIte] at h
    split at h
    · split at h
      · cases h
      · next h0 hlt =>
        cases h
        have hneg : ¬ k < 0 := by omega
        have hlat : ¬ k < shardIDNeedLatest := by simp [shardIDNeedLatest]; omega
        refine ⟨by simp [mainShard, hneg]; omega, _, hvecs, ?_⟩
        simp [mainShard, hneg, hlat]
    · split at h
      · cases h
      · next h0 hn =>
        cases h
        have hneg : k < 0 := by omega
        have hlat : k < shardIDNeedLatest := by
          simp only [shardIDNeedLatest] at hk ⊢
          omega
        refine ⟨by simp [mainShard, hneg]; omega, _, hvecs, ?_⟩
        simp [mainShard, hneg, hlat]

end MergeLemmas

open MergeLemmas in
theorem versions_writeToShard (s : IndexShard B) {env : FlushEnv σ ν}
    (hok : writeToShard env s.shardNum k ds = .ok es) (hnd : (ds.map docID).Nodup) (j : Nat)
    (id : DocID) :
    (s.runEffects es).versions j id =
      (groupOp env.now s.shardNum k j (ds.find? fun d => d.docID = id)).run (s.versions j id) := by
  obtain ⟨hmain, vecs, hvecs, rfl⟩ := writeToShard_ok hok
  -- the timestamps and the vectors do not touch the documents
  rw [runEffects_append, versions_runEffects_other _ fun g => hvecs g j, runEffects_append]
  have hstamps : ∀ (g : Int) (i : Nat) (b : Batch σ), Effect.commit g i b ∉
      (ds.map fun d => (Effect.setTimestamp (d.build env.now).timestamp : Effect σ ν)) := by simp
  generalize hs' : s.runEffects
    (ds.map fun d => (Effect.setTimestamp (d.build env.now).timestamp : Effect σ ν)) = s'
  have hv : ∀ i, s'.versions i id = s.versions i id := fun i => by
    rw [← hs', versions_runEffects_other s fun g => hstamps g i]
  have hnum : s'.shardNum = s.shardNum := by rw [← hs']; simp
  -- what is left is the main batch and the batches of the other shards
  rw [runEffects_cons]
  show ((s'.commit _ _).runEffects _).versions j id = _
  rw [IndexShard.versions_commits _ _ _ (by split <;> simp [nodup_range])
    (by intro i hi; split at hi <;> simp at hi; simp [hnum]; omega)]
  have hwrite : ∀ b : Batch σ, (s'.commit (mainShard s.shardNum k) b).versions j id =
      if j = mainShard s.shardNum k then b.write id (s.versions j id) else s.versions j id := by
    intro b
    by_cases hj : j = mainShard s.shardNum k
    · subst hj
      rw [IndexShard.versions_commit_self _ (by omega), hv]
      simp
    · rw [IndexShard.versions_commit_ne _ (Ne.symm hj), hv]
      simp [hj]
  rw [hwrite]
  cases hfind : ds.find? (fun d => d.docID = id) with
  | none =>
    have hno : ∀ d ∈ ds, d.docID ≠ id := by simpa using hfind
    simp [groupOp, main_batch_of_not_mem env.now hno, other_batch_of_not_mem hno]
  | some d =>
    obtain rfl : d.docID = id := by simpa using List.find?_some hfind
    have hd := mem_of_find?_eq_some hfind
    rw [main_batch_of_mem env.now hnd hd]
    simp only [groupOp]
    by_cases hj : j = mainShard s.shardNum k
    · have hnot : j ∉ (if k < shardIDNeedLatest then List.range (s.shardNum - 1) else []) := by
        intro hmem
        split at hmem
        · next hlat =>
          have hneg : k < 0 := by simp only [shardIDNeedLatest] at hlat; omega
          simp [hj, mainShard, hneg] at hmem
        · simp at hmem
      rw [if_neg hnot, if_pos hj, if_pos hj]
    · by_cases hlat : k < shardIDNeedLatest
      · simp only [hj, hlat, ↓reduceIte, mem_range]
        rw [other_batch_of_mem hnd hd]
        split
        · rfl
        · next hge =>
          -- there is no such shard
          have hneg : k < 0 := by simp only [shardIDNeedLatest] at hlat; omega
          have hout : s.shardNum ≤ j := by simp [mainShard, hneg] at hj; omega
          rw [IndexShard.versions_of_le s hout]
          unfold otherOp
          split <;> simp
      · simp [hj, hlat]

def committed (es : Effects σ ν) : List Int :=
  es.filterMap fun
    | .commit g _ _ => some g
    | _ => none

def WalMergeDocs.Addressed (shardNum : Nat) (w : WalMergeDocs σ ν) : Prop :=
  ∀ k ∈ w.groups.keys, shardIDNeedLatest ≤ k ∧ k < shardNum

namespace WriteToLemmas

variable {es' : Effects σ ν} {look : Int → DocID → Option (WalDocument σ ν)}
  {groups : List (Int × List (WalDocument σ ν))}

open MergeLemmas

theorem committed_append (es es' : Effects σ ν) :
    committed (es ++ es') = committed es ++ committed es' :=
  filterMap_append

@[simp] theorem committed_commit_cons (g : Int) (k : Nat) (b : Batch σ)
    (es : Effects σ ν) : committed (.commit g k b :: es) = g :: committed es := rfl

theorem committed_eq_nil (h : ∀ g k b, Effect.commit g k b ∉ es) : committed es = [] := by
  refine filterMap_eq_nil_iff.mpr fun e he => ?_
  cases e with
  | setTimestamp t => rfl
  | commit g k b => exact absurd he (h g k b)
  | vectors f ins dels => rfl

theorem writeToShard_single (env : FlushEnv σ ν) {n : Nat} (hn : 0 < n) {k : Int}
    (hk : shardIDNeedLatest ≤ k) (hkn : k < n) (ds : List (WalDocument σ ν)) :
    ∃ pre post b, writeToShard env n k ds = .ok (pre ++ .commit k (mainShard n k) b :: post) ∧
      (∀ g i b, Effect.commit g i b ∉ pre) ∧ ∀ g i b, Effect.commit g i b ∉ post := by
  have hvecs := fun g i b => no_commit_batchVectors (σ := σ) env.order.fields
    (ds.foldl (ShardBatches.addDoc env.now env.vecFields) {}).vecActions g i b
  refine ⟨ds.map fun d => .setTimestamp (d.build env.now).timestamp, _,
    (ds.foldl (ShardBatches.addDoc env.now env.vecFields) {}).batch, ?_, by simp, hvecs⟩
  by_cases hlat : k = shardIDNeedLatest
  · subst hlat
    have h0 : (0 : Int) ≤ (n : Int) - 1 := by omega
    have h1 : ¬ (n : Int) - 1 ≥ n := by omega
    have h2 : ((n : Int) - 1).toNat = n - 1 := by omega
    have h3 : shardIDNeedLatest < 0 := by decide
    simp only [writeToShard, ↓reduceIte, h0, h1, h2, h3, mainShard]
  · have h0 : 0 ≤ k := by simp only [shardIDNeedLatest] at hk hlat; omega
    have h1 : ¬ k ≥ n := by omega
    have h2 : ¬ k < 0 := by omega
    simp only [writeToShard, hlat, ↓reduceIte, h0, h1, mainShard, h2]

theorem versions_group_part {B : Bluge σ} (s : IndexShard B) {env : FlushEnv σ ν} {k : Int}
    (hk : shardIDNeedLatest ≤ k) (hkn : k < s.shardNum) {ds : List (WalDocument σ ν)}
    (hnd : (ds.map docID).Nodup) {es : Effects σ ν}
    (hok : writeToShard env s.shardNum k ds = .ok es) (hpre : es' <+: es) :
    (committed es' = [] ∧ ∀ j id, (s.runEffects es').versions j id = s.versions j id) ∨
    (committed es' = [k] ∧ ∀ j id, (s.runEffects es').versions j id =
      (groupOp env.now s.shardNum k j (ds.find? fun d => d.docID = id)).run
        (s.versions j id)) := by
  obtain ⟨pre, post, b, hok', hpreno, hpostno⟩ :=
    writeToShard_single env s.shardNum_pos hk hkn ds
  obtain rfl : es = _ := Except.ok.inj (hok.symm.trans hok')
  have hfull := versions_writeToShard s hok hnd
  rcases prefix_append_cases hpre with hshort | ⟨tl, rfl, htl⟩
  · have hno : ∀ g i b, Effect.commit g i b ∉ es' := fun g i b hb => hpreno g i b (hshort.mem hb)
    exact .inl ⟨committed_eq_nil hno, fun j id =>
      versions_runEffects_other s (fun g => hno g j) id⟩
  · cases tl with
    | nil =>
      rw [append_nil]
      exact .inl ⟨committed_eq_nil hpreno, fun j id =>
        versions_runEffects_other s (fun g => hpreno g j) id⟩
    | cons e tl =>
      obtain ⟨rfl, htl'⟩ := cons_prefix_cons.mp htl
      have hno : ∀ g i b, Effect.commit g i b ∉ tl := fun g i b hb => hpostno g i b (htl'.mem hb)
      refine .inr ⟨?_, fun j id => ?_⟩
      · rw [committed_append, committed_eq_nil hpreno, committed_commit_cons,
          committed_eq_nil hno, nil_append]
      · rw [← hfull j id]
        simp only [runEffects_append, runEffects_cons]
        rw [versions_runEffects_other _ (fun g => hno g j),
          versions_runEffects_other _ (fun g => hpostno g j)]

def GroupsOk (n : Nat) (look : Int → DocID → Option (WalDocument σ ν))
    (groups : List (Int × List (WalDocument σ ν))) : Prop :=
  ∀ g ∈ groups, shardIDNeedLatest ≤ g.1 ∧ g.1 < n ∧ (g.2.map docID).Nodup ∧
    ∀ id, (g.2.find? fun d => d.docID = id) = look g.1 id

theorem writeGroups_ok (env : FlushEnv σ ν) {n : Nat} (hn : 0 < n) (hgs : GroupsOk n look groups) :
    (writeGroups (writeToShard env n) groups).2 = none ∧
      committed (writeGroups (writeToShard env n) groups).1 = groups.map Prod.fst := by
  induction groups with
  | nil => exact ⟨rfl, rfl⟩
  | cons g groups ih =>
    obtain ⟨hk, hkn, -, -⟩ := hgs g mem_cons_self
    obtain ⟨pre, post, b, hok, hpre, hpost⟩ := writeToShard_single env hn hk hkn g.2
    obtain ⟨herr, hcom⟩ := ih fun g' hg' => hgs g' (mem_cons_of_mem _ hg')
    simp only [writeGroups, hok, map_cons]
    refine ⟨herr, ?_⟩
    rw [committed_append, committed_append, committed_commit_cons, committed_eq_nil hpre,
      committed_eq_nil hpost, hcom]
    rfl

theorem versions_groups_part {B : Bluge σ} (s : IndexShard B) {env : FlushEnv σ ν}
    (hgs : GroupsOk s.shardNum look groups)
    (hpre : es' <+: (writeGroups (writeToShard env s.shardNum) groups).1) (j : Nat) (id : DocID) :
    (s.runEffects es').versions j id =
      runOps ((committed es').map fun k => groupOp env.now s.shardNum k j (look k id))
        (s.versions j id) := by
  induction groups generalizing s es' with
  | nil =>
    obtain rfl : es' = [] := by simpa [writeGroups] using hpre
    rfl
  | cons g groups ih =>
    obtain ⟨hk, hkn, hnd, hlook⟩ := hgs g mem_cons_self
    have hgs' : GroupsOk s.shardNum look groups :=
      fun g' hg' => hgs g' (mem_cons_of_mem _ hg')
    obtain ⟨pre, post, b, hok, hpreno, hpostno⟩ :=
      writeToShard_single env s.shardNum_pos hk hkn g.2
    simp only [writeGroups, hok] at hpre
    rcases prefix_append_cases hpre with hfirst | ⟨tl, rfl, htl⟩
    · -- the part ends in this group
      rcases versions_group_part s hk hkn hnd hok hfirst with ⟨hc, hv⟩ | ⟨hc, hv⟩
      · rw [hc, hv]; rfl
      · rw [hc, hv, hlook]; rfl
    · -- this group is written, the part ends in a later one
      rcases versions_group_part s hk hkn hnd hok (prefix_refl _) with ⟨hc, -⟩ | ⟨hc, hv⟩
      · rw [committed_append, committed_eq_nil hpreno] at hc
        cases hc
      · rw [runEffects_append]
        have hrec := ih (s.runEffects
          (pre ++ Effect.commit g.1 (mainShard s.shardNum g.1) b :: post))
          (by simpa using hgs') (by simpa using htl)
        rw [hrec, hv, committed_append, hc, hlook]
        simp

theorem groupsOk_visited (hw : w.Addressed n) (o : MapOrder σ ν) :
    GroupsOk n w.doc (visited o w) := by
  rintro g hg
  obtain ⟨⟨k, dm⟩, hmem, rfl⟩ := mem_map.mp hg
  have hent : (⟨k, dm⟩ : Σ _ : Int, DocMap σ ν) ∈ w.groups.entries :=
    (o.groups_perm _).mem_iff.mp hmem
  have hlk : w.groups.lookup k = some dm := AList.mem_lookup_iff.mpr hent
  obtain ⟨hk, hkn⟩ := hw k (mem_map.mpr ⟨_, hent, rfl⟩)
  have hperm : (o.docs dm.entries).Perm dm.entries := o.docs_perm _
  have hid : ∀ e ∈ dm.entries, e.2.docID = e.1 := fun e he =>
    w.keyed _ _ _ _ hlk (AList.mem_lookup_iff.mpr he)
  refine ⟨hk, hkn, ?_, fun id => ?_⟩
  · have hkeys : ((o.docs dm.entries).map Sigma.snd).map docID = (o.docs dm.entries).keys := by
      simp only [map_map, List.keys]
      exact map_congr_left fun e he => hid e (hperm.mem_iff.mp he)
    rw [hkeys]
    exact (hperm.map Sigma.fst).nodup_iff.mpr dm.nodupKeys
  · show _ = w.doc k id
    simp only [doc, hlk, Option.bind_some]
    cases hfind : ((o.docs dm.entries).map Sigma.snd).find? (fun d => d.docID = id) with
    | some d =>
      obtain rfl : d.docID = id := by simpa using List.find?_some hfind
      obtain ⟨e, he, rfl⟩ := mem_map.mp (mem_of_find?_eq_some hfind)
      have he' := hperm.mem_iff.mp he
      rw [hid e he']
      exact (AList.mem_lookup_iff.mpr he').symm
    | none =>
      symm
      rw [AList.lookup_eq_none]
      intro hin
      obtain ⟨e, he, rfl⟩ := mem_map.mp (AList.mem_keys.mp hin)
      have hno := List.find?_eq_none.mp hfind e.2
        (mem_map.mpr ⟨e, hperm.mem_iff.mpr he, rfl⟩)
      exact hno (by simpa using hid e he)

end WriteToLemmas

open WriteToLemmas

namespace WalMergeDocs

variable {B : Bluge σ} {w : WalMergeDocs σ ν}

theorem writeTo_committed (env : FlushEnv σ ν) (hn : 0 < n) (hw : w.Addressed n) :
    (w.writeTo env n false).2 = none ∧
      committed (w.writeTo env n false).1 = (env.order.groups w.groups.entries).map Sigma.fst := by
  obtain ⟨herr, hcom⟩ := writeGroups_ok env hn (groupsOk_visited hw env.order)
  refine ⟨by simpa [writeTo] using herr, ?_⟩
  have hfst : (visited env.order w).map Prod.fst =
      (env.order.groups w.groups.entries).map Sigma.fst := by
    simp only [visited, map_map]
    rfl
  rw [← hfst, ← hcom]
  simp [writeTo]

theorem versions_part (s : IndexShard B) (hw : w.Addressed s.shardNum)
    (hpre : es' <+: (w.writeTo env s.shardNum false).1) (j : Nat) (id : DocID) :
    (s.runEffects es').versions j id =
      runOps ((committed es').map fun k => groupOp env.now s.shardNum k j (w.doc k id))
        (s.versions j id) :=
  versions_groups_part s (groupsOk_visited hw env.order) (by simpa [writeTo] using hpre) j id

theorem versions_flush (s : IndexShard B) (env : FlushEnv σ ν) (hw : w.Addressed s.shardNum)
    (j : Nat) (id : DocID) :
    (s.flush env w).versions j id =
      runOps (((env.order.groups w.groups.entries).map Sigma.fst).map fun k =>
        groupOp env.now s.shardNum k j (w.doc k id)) (s.versions j id) := by
  rw [flush, versions_part s hw (prefix_refl _), (writeTo_committed env s.shardNum_pos hw).2]

end WalMergeDocs

end SeaSearch
