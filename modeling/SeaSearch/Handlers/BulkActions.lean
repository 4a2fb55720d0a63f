import SeaSearch.Handlers.Bulk

/-!
# Bulk actions one after the other

An action of a bulk request stands for one operation, which depends on the shard that holds its id.
Actions that are committed one after the other leave the outcome of the last one on each id; bulk
requests are compared with this.
-/

namespace SeaSearch

open List KeyedBag WalMergeDocs PartialLemmas DocumentLemmas
  OneLiveLemmas RunLemmas WordLemmas

variable {σ ν ε κ τ : Type}

section Rest

variable {B : Bluge σ}

/-- Every id has at most one live document, and nothing waits in the WAL. -/
structure Index.AtRest (ix : Index B ν κ) : Prop where
  inv : ix.Inv
  waiting : ∀ k, (ix.stores k).waiting = []

def Index.Single (ix : Index B ν κ) : Prop :=
  ∀ id, ∃ k, ∀ j, j ≠ k → (ix.stores (ix.lookup id)).shard.versions j id = 0

def Index.locate (ix : Index B ν κ) (id : DocID) : Option Nat :=
  (Finder.first (ix.stores (ix.lookup id)).shard).find id

def Index.home (ix : Index B ν κ) (id : DocID) : Int :=
  match ix.locate id with
  | some k => k
  | none => shardIDNeedLatest

def Index.entry (env : IndexEnv (JsonObject τ) ε σ ν) (ix : Index B ν κ) :
    BulkAction τ → Option (Operation σ ν)
  | .data docID doc update _ => (env.createOperation ix.locate ⟨docID, doc, update⟩).toOption
  | .delete docID => (env.deleteOperation ix.locate docID).toOption

def Index.entries (env : IndexEnv (JsonObject τ) ε σ ν) (ix : Index B ν κ)
    (acts : List (BulkAction τ)) : Ops σ ν :=
  acts.filterMap (ix.entry env)

end Rest

open Index (entry home live_own perform)

def BulkAction.isData : BulkAction τ → Bool
  | .data _ _ _ _ => true
  | .delete _ => false

def BulkAction.outcome (env : IndexEnv (JsonObject τ) ε σ ν) : BulkAction τ → Docs σ
  | .data docID doc _ _ =>
    match env.checkDocument docID doc with
    | .ok f => {⟨docID, f.timestamp.getD 0, f.source⟩}
    | .error _ => 0
  | .delete _ => 0

def BulkAction.Valid {B : Bluge σ} (env : IndexEnv (JsonObject τ) ε σ ν) (ix : Index B ν κ) :
    BulkAction τ → Prop
  | .data docID doc update _ => env.Accepts docID doc ∧ (update = true ∨ ix.Missing docID)
  | .delete _ => True

/-- A generated id is not in the index, and no other action has it. -/
def GeneratedOnce {B : Bluge σ} (ix : Index B ν κ) (acts : List (BulkAction τ)) : Prop :=
  ∀ pre docID doc op post, acts = pre ++ .data docID doc false op :: post →
    ix.Missing docID ∧ ∀ a ∈ pre ++ post, a.docID ≠ docID

structure ValidActions {B : Bluge σ} (env : IndexEnv (JsonObject τ) ε σ ν) (ix : Index B ν κ)
    (acts : List (BulkAction τ)) : Prop where
  accepts : ∀ docID doc update op, .data docID doc update op ∈ acts → env.Accepts docID doc
  generated : GeneratedOnce ix acts

def lastAction (acts : List (BulkAction τ)) (id : DocID) : Option (BulkAction τ) :=
  (acts.filter fun a => a.docID = id).getLast?

def outcomeOf (env : IndexEnv (JsonObject τ) ε σ ν) (acts : List (BulkAction τ)) (id : DocID)
    (m : Docs σ) : Docs σ :=
  match lastAction acts id with
  | none => m
  | some a => a.outcome env

/-- The surroundings of a call are those of an index with this environment and
`BatchSize`. -/
def Configured {B : Bluge σ} (env : IndexEnv (JsonObject τ) ε σ ν) (batchSize : Nat)
    (around : Around B ν κ ε τ) : Prop :=
  ∀ ix, (around ix).env = env ∧ ∀ k, ((around ix).commit k).batchSize = batchSize

namespace BulkLemmas

section Live

variable {B : Bluge σ} {s : IndexShard B} {id : DocID}

theorem live_eq_singleton_iff (hx : x ∈ s.versions i id) :
    s.live id = {x} ↔ s.versions i id = {x} ∧ ∀ j, j ≠ i → s.versions j id = 0 := by
  constructor
  · intro h
    have hcard : 0 < (s.versions i id).card := Multiset.card_pos_iff_exists_mem.mpr ⟨x, hx⟩
    have hi : i < s.shardNum := lt_of_found (Multiset.card_pos.mp hcard)
    have hsplit : s.versions i id + (((List.range s.shardNum).erase i).map fun j =>
        s.versions j id).sum = {x} := by
      have hperm := perm_cons_erase (mem_range.mpr hi)
      rw [← h, IndexShard.live, (hperm.map _).sum_eq, map_cons, sum_cons]
    have hrest : (((List.range s.shardNum).erase i).map fun j => s.versions j id).sum = 0 := by
      have := congrArg Multiset.card hsplit
      rw [Multiset.card_add, Multiset.card_singleton] at this
      exact Multiset.card_eq_zero.mp (by omega)
    rw [hrest, add_zero] at hsplit
    refine ⟨hsplit, fun j hj => ?_⟩
    rcases lt_or_ge j s.shardNum with hjn | hjn
    · exact sum_eq_zero_iff.mp hrest _
        (mem_map_of_mem ((mem_erase_of_ne hj).mpr (mem_range.mpr hjn)))
    · exact s.versions_of_le hjn id
  · rintro ⟨hi, hother⟩
    rw [IndexShard.live_of_single hother, hi]

theorem live_of_placed (hvers : ∀ j, s.versions j id = runPlaced ps f j)
    (hplace : ∀ p ∈ ps, p.1 = i) (hf : ∀ j, j ≠ i → f j = 0) :
    s.live id = runOps (ps.map Prod.snd) (f i) := by
  rw [IndexShard.live_of_single (k := i) fun j hj => ?_, hvers, runPlaced_same hplace, if_pos rfl]
  rw [hvers, runPlaced_same hplace, if_neg hj]
  exact hf j hj

end Live

section Index

variable {B : Bluge σ} {ix : Index B ν κ} {id : DocID}

theorem find_unique {s : IndexShard B} {k : Nat} (h : ∀ j, j ≠ k → s.versions j id = 0)
    (f g : Finder s) : f.find id = g.find id := by
  have hfound : ∀ (f : Finder s) j, f.find id = some j → j = k := fun f j hj => by
    by_contra hne
    exact f.found id j hj (h j hne)
  cases hf : f.find id with
  | none =>
    cases hg : g.find id with
    | none => rfl
    | some j => exact absurd (f.missing id hf j) (g.found id j hg)
  | some i =>
    cases hg : g.find id with
    | none => exact absurd (g.missing id hg i) (f.found id i hf)
    | some j => rw [hfound f i hf, hfound g j hg]

theorem find_eq_locate (h : ix.Single) (ctx : CallContext (JsonObject τ) ε ix) :
    ctx.find = ix.locate := by
  funext id
  obtain ⟨k, hk⟩ := h id
  exact find_unique hk _ _

theorem missing_iff_locate : ix.Missing id ↔ ix.locate id = none := by
  constructor
  · intro h
    cases hloc : ix.locate id with
    | none => rfl
    | some k => exact absurd (h k) ((Finder.first _).found id k hloc)
  · exact fun h => (Finder.first _).missing id h

variable (hrest : ix.AtRest)
include hrest

theorem rest_single : ix.Single := fun id => by
  obtain ⟨k, hk⟩ := (hrest.inv (ix.lookup id)).oneLive id rfl
  exact ⟨k, hk.elsewhere⟩

theorem rest_live : ix.live id = (ix.stores (ix.lookup id)).shard.live id :=
  live_own fun k hk => ((hrest.inv k).others id hk).1

theorem missing_iff_live : ix.Missing id ↔ ix.live id = 0 := by
  rw [rest_live hrest, IndexShard.live_eq_zero_iff]
  rfl

theorem home_elsewhere (hj : j ≠ mainShard (ix.stores (ix.lookup id)).shard.shardNum (ix.home id)) :
    (ix.stores (ix.lookup id)).shard.versions j id = 0 := by
  cases hloc : ix.locate id with
  | none => exact missing_iff_locate.mpr hloc j
  | some k =>
    obtain ⟨k', hk'⟩ := rest_single hrest id
    have hkk : k = k' := by
      by_contra hne
      exact (Finder.first _).found id k hloc (hk' k hne)
    refine hk' j fun h => hj ?_
    simp only [home, hloc, mainShard_ofNat]
    rw [h, hkk]

theorem rest_live_home : ix.live id = (ix.stores (ix.lookup id)).shard.versions
    (mainShard (ix.stores (ix.lookup id)).shard.shardNum (ix.home id)) id := by
  rw [rest_live hrest]
  exact IndexShard.live_of_single fun j hj => home_elsewhere hrest hj

omit hrest in
theorem home_le (ix : Index B ν κ) (id : DocID) : shardIDNeedLatest ≤ ix.home id := by
  unfold home shardIDNeedLatest
  split <;> omega

end Index

section Commit

variable {B : Bluge σ} [DecidableEq κ] {ix : Index B ν κ} {id : DocID}
  (commit : κ → CommitEnv σ ν) {ops : Ops σ ν}
  (hrest : ix.AtRest) (hops : ∀ o ∈ ops, Resolved (ix.stores (ix.lookup o.docID)).shard o)
include hops

theorem stores_commitAll (k : κ) :
    ((ix.commitAll (ε := ε) commit ops).1.stores k).wal = (ix.stores k).wal ∧
    ((ix.commitAll (ε := ε) commit ops).1.stores k).redoMax = (ix.stores k).redoMax ∧
    ∀ j id, ((ix.commitAll (ε := ε) commit ops).1.stores k).shard.versions j id =
      (IndexShard.flushes (commit k).flush 0 (slices (commit k).batchSize
        (ops.filter fun o => ix.lookup o.docID = k)) (ix.stores k).shard).versions j id := by
  have hlist : ∀ o ∈ ops.filter (fun o => ix.lookup o.docID = k),
      o.WritePath (ix.stores k).shard.shardNum := by
    intro o ho
    obtain ⟨ho, hk⟩ := by simpa using ho
    exact hk ▸ (hops o ho).writePath
  simp only [Index.commitAll]
  split
  · next hnil =>
    rw [isEmpty_iff.mp hnil]
    exact ⟨rfl, rfl, fun j id => rfl⟩
  · exact ⟨rfl, rfl, (IndexShard.commitOperations_spec (commit k) hlist).2.2⟩

theorem slices_writePath (k : κ) : ∀ b ∈ slices (commit k).batchSize
      (ops.filter fun o => ix.lookup o.docID = k),
    ∀ o ∈ b, o ∈ ops ∧ ix.lookup o.docID = k ∧ o.WritePath (ix.stores k).shard.shardNum := by
  intro b hb o ho
  obtain ⟨ho, hk⟩ : o ∈ ops ∧ ix.lookup o.docID = k := by simpa using mem_of_mem_slices hb ho
  exact ⟨ho, hk, hk ▸ (hops o ho).writePath⟩

include hrest

theorem others_commitAll (hk : ix.lookup id ≠ k) (j : Nat) :
    ((ix.commitAll (ε := ε) commit ops).1.stores k).shard.versions j id = 0 := by
  have hslices := slices_writePath commit hops k
  have hother : ∀ b ∈ slices (commit k).batchSize (ops.filter fun o => ix.lookup o.docID = k),
      ∀ o ∈ b, o.docID ≠ id := fun b hb o ho hid => hk (hid ▸ (hslices b hb o ho).2.1)
  rw [(stores_commitAll commit hops k).2.2,
    versions_flushes_other 0 (fun b hb o ho => (hslices b hb o ho).2.2) hother]
  exact ((hrest.inv k).others id hk).1 j

variable (hhome : ∀ o ∈ ops, o.docID = id → o.shard = ix.home id)
include hhome

omit hrest in
theorem versions_commitAll (j : Nat) :
    ((ix.commitAll (ε := ε) commit ops).1.stores (ix.lookup id)).shard.versions j id =
      runPlaced ((slices (commit (ix.lookup id)).batchSize
          (ops.filter fun o => ix.lookup o.docID = ix.lookup id)).map
        (placedWrite (ix.home id) id (ix.stores (ix.lookup id)).shard.shardNum))
        (fun j => (ix.stores (ix.lookup id)).shard.versions j id) j := by
  have hslices := slices_writePath commit hops (ix.lookup id)
  rw [(stores_commitAll commit hops (ix.lookup id)).2.2]
  exact versions_flushes_placed (home_le ix id) (fun b hb o ho => (hslices b hb o ho).2.2)
    (fun b hb o ho => hhome o (hslices b hb o ho).1) _ 0 j

theorem live_commitAll :
    (ix.commitAll (ε := ε) commit ops).1.live id = runOps ((slices (commit (ix.lookup id)).batchSize
          (ops.filter fun o => ix.lookup o.docID = ix.lookup id)).map
        fun b => wordOp (opsOf b (ix.home id) id)) (ix.live id) := by
  have hplace : ∀ p ∈ (slices (commit (ix.lookup id)).batchSize
        (ops.filter fun o => ix.lookup o.docID = ix.lookup id)).map
      (placedWrite (ix.home id) id (ix.stores (ix.lookup id)).shard.shardNum),
      p.1 = mainShard (ix.stores (ix.lookup id)).shard.shardNum (ix.home id) := by
    intro p hp
    obtain ⟨b, -, rfl⟩ := mem_map.mp hp
    rfl
  rw [live_own fun k hk => others_commitAll commit hrest hops hk]
  refine (live_of_placed (versions_commitAll commit hops hhome) hplace
    fun j hj => home_elsewhere hrest hj).trans ?_
  rw [rest_live_home hrest, map_map]
  rfl

end Commit

section Entry

variable {B : Bluge σ} {ix : Index B ν κ} {env : IndexEnv (JsonObject τ) ε σ ν} {a : BulkAction τ}

structure EntryOf (env : IndexEnv (JsonObject τ) ε σ ν) (ix : Index B ν κ) (a : BulkAction τ)
    (o : Operation σ ν) : Prop where
  docID : o.docID = a.docID
  shard : o.shard = ix.home a.docID
  resolved : Resolved (ix.stores (ix.lookup o.docID)).shard o
  action : o.action =
    if a.isData then (if ix.locate a.docID = none then .insert else .update)
    else if ix.locate a.docID = none then .deleteVecOnly else .delete
  outcome : a.outcome env = if a.isData then {o.document} else 0

theorem entry_cases (h : a.Valid env ix) :
    (ix.entry env a = none ∧ ix.locate a.docID = none ∧ a.isData = false) ∨
      ∃ o, ix.entry env a = some o ∧ EntryOf env ix a o := by
  have hfound : ∀ id k, ix.locate id = some k →
      (ix.stores (ix.lookup id)).shard.versions k id ≠ 0 := fun id k => (Finder.first _).found id k
  cases a with
  | data docID doc update op =>
    right
    obtain ⟨⟨hcan, fields, hfields⟩, hupd⟩ := h
    have hts := env.timestamp _ _ _ hfields
    have hloc : (if update then ix.locate docID else none) = ix.locate docID := by
      rcases hupd with rfl | hmiss
      · rfl
      · rw [missing_iff_locate.mp hmiss]
        split <;> rfl
    have hcan' : ¬ (env.hasVectors && !env.canonical docID) = true := by simpa using hcan
    have hout : (BulkAction.data docID doc update op).outcome env =
        {⟨docID, fields.timestamp.getD 0, fields.source⟩} := by
      simp only [BulkAction.outcome, hfields]
    cases hl : ix.locate docID with
    | none =>
      rw [hl] at hloc
      have hentry : ix.entry env (.data docID doc update op) =
          some ⟨.insert, docID, shardIDNeedLatest, fields⟩ := by
        simp only [entry, IndexEnv.createOperation, hl, hloc, if_neg hcan', hfields,
          Except.toOption]
      exact ⟨_, hentry, rfl, by simp [home, BulkAction.docID, hl], resolved_insert hts,
        by simp [BulkAction.isData, BulkAction.docID, hl], hout⟩
    | some k =>
      rw [hl] at hloc
      have hentry : ix.entry env (.data docID doc update op) =
          some ⟨.update, docID, (k : Int), fields⟩ := by
        simp only [entry, IndexEnv.createOperation, hl, hloc, if_neg hcan', hfields,
          Except.toOption]
      exact ⟨_, hentry, rfl, by simp [home, BulkAction.docID, hl],
        resolved_update (hfound docID k hl) hts, by simp [BulkAction.isData, BulkAction.docID, hl],
        hout⟩
  | delete docID =>
    simp only [entry, IndexEnv.deleteOperation]
    cases hl : ix.locate docID with
    | none =>
      cases hvec : env.hasVectors with
      | false => exact .inl ⟨rfl, hl, rfl⟩
      | true => exact .inr ⟨_, rfl, rfl, by simp [home, BulkAction.docID, hl], ⟨rfl, by simp⟩,
          by simp [BulkAction.isData, BulkAction.docID, hl], rfl⟩
    | some k =>
      have hk := Int.ofNat_lt.mpr (lt_of_found (hfound docID k hl))
      exact .inr ⟨_, rfl, rfl, by simp [home, BulkAction.docID, hl],
        ⟨⟨Int.natCast_nonneg k, hk⟩, by simp⟩,
        by simp [BulkAction.isData, BulkAction.docID, hl], rfl⟩

variable [DecidableEq κ] {wal : Bool} {ctx : CallContext (JsonObject τ) ε ix}

theorem perform_eq (hsingle : ix.Single) (henv : ctx.env = env) (a : BulkAction τ) :
    (ix.perform wal ctx a).1 = match ix.entry env a with
      | some o => (ix.write (ε := ε) wal ctx.commit o).1
      | none => ix := by
  have hfind := find_eq_locate hsingle ctx
  cases a with
  | data docID doc update op =>
    simp only [perform, Index.createDocument, entry, henv, hfind]
    cases env.createOperation ix.locate ⟨docID, doc, update⟩ <;> rfl
  | delete docID =>
    simp only [perform, Index.deleteDocument, entry, henv, hfind]
    cases env.deleteOperation ix.locate docID <;> rfl

omit [DecidableEq κ] in
theorem entry_run (hrest : ix.AtRest) (ho : EntryOf env ix a o) :
    o.keyOp.run (ix.live a.docID) = a.outcome env := by
  have hact := ho.action
  rw [ho.outcome]
  cases hloc : ix.locate a.docID with
  | none =>
    rw [hloc] at hact
    rw [(missing_iff_live hrest).mp (missing_iff_locate.mpr hloc)]
    cases hd : a.isData <;> simp [hd] at hact <;> simp [Operation.keyOp, hact]
  | some k =>
    rw [hloc] at hact
    cases hd : a.isData <;> simp [hd] at hact <;> simp [Operation.keyOp, hact]

theorem atRest_commitAll {commit : κ → CommitEnv σ ν} (hrest : ix.AtRest)
    (hops : ∀ o ∈ ops, Resolved (ix.stores (ix.lookup o.docID)).shard o)
    (hinv : (ix.commitAll (ε := ε) commit ops).1.Inv) :
    (ix.commitAll (ε := ε) commit ops).1.AtRest := by
  refine ⟨hinv, fun k => ?_⟩
  obtain ⟨hwal, hmax, -⟩ := stores_commitAll (ε := ε) commit hops k
  rw [Store.waiting, hwal, hmax]
  exact hrest.waiting k

theorem perform_live {batchSize : Nat} (hrest : ix.AtRest) (henv : ctx.env = env)
    (hbatch : 0 < batchSize) (hcommit : ∀ k, (ctx.commit k).batchSize = batchSize)
    (ha : a.Valid env ix) :
    (ix.perform false ctx a).1.AtRest ∧ (ix.perform false ctx a).1.lookup = ix.lookup ∧
      ∀ id, (ix.perform false ctx a).1.live id =
        if id = a.docID then a.outcome env else ix.live id := by
  rw [perform_eq (rest_single hrest) henv]
  rcases entry_cases ha with ⟨hnone, hloc, hdel⟩ | ⟨o, hsome, ho⟩
  · rw [hnone]
    refine ⟨hrest, rfl, fun id => ?_⟩
    show ix.live id = _
    split
    · next hid =>
      rw [hid, (missing_iff_live hrest).mp (missing_iff_locate.mpr hloc)]
      cases a with
      | data => cases hdel
      | delete => rfl
    · rfl
  · rw [hsome]
    have hops : ∀ p ∈ [o], Resolved (ix.stores (ix.lookup p.docID)).shard p := by
      simpa using ho.resolved
    have hfresh : o.action = .insert → ix.Fresh o.docID := fun hins => by
      refine ⟨?_, by rw [hrest.waiting]; simp⟩
      have hmiss : ix.Missing a.docID := by
        rw [missing_iff_locate]
        by_contra hne
        rw [ho.action] at hins
        simp only [if_neg hne] at hins
        split at hins <;> cases hins
      exact ho.docID ▸ hmiss
    have hinv : (ix.write (ε := ε) false ctx.commit o).1.Inv :=
      inv_write hrest.inv hbatch hcommit ho.resolved hfresh
    refine ⟨atRest_commitAll hrest hops hinv, rfl, fun id => ?_⟩
    have hhome : ∀ p ∈ [o], p.docID = id → p.shard = ix.home id := by
      rintro p hp rfl
      obtain rfl := mem_singleton.mp hp
      rw [ho.shard, ho.docID]
    show (ix.commitAll (ε := ε) ctx.commit [o]).1.live id = _
    rw [live_commitAll ctx.commit hrest hops hhome]
    by_cases hid : id = a.docID
    · subst hid
      have hlist : [o].filter (fun p => ix.lookup p.docID = ix.lookup a.docID) = [o] := by
        simp [ho.docID]
      have hword : opsOf [o] (ix.home a.docID) a.docID = [o] := by
        simp [opsOf, ho.shard, ho.docID]
      rw [if_pos rfl, hlist, hcommit, slices_single hbatch, map_singleton, hword, wordOp_single]
      exact entry_run hrest ho
    · rw [if_neg hid]
      refine runOps_map_keep (fun b hb => ?_) _
      have hnil : opsOf b (ix.home id) id = [] := by
        rw [eq_nil_iff_forall_not_mem]
        intro p hp
        obtain ⟨hpb, -, hpid⟩ := mem_opsOf.mp hp
        obtain rfl : p = o := by simpa using (mem_filter.mp (mem_of_mem_slices hb hpb)).1
        exact hid (hpid.symm.trans ho.docID)
      rw [hnil]
      rfl

end Entry

section Sequential

variable {B : Bluge σ} [DecidableEq κ] {ix : Index B ν κ} {env : IndexEnv (JsonObject τ) ε σ ν}
  {acts : List (BulkAction τ)}

theorem lastAction_cons (a : BulkAction τ) (acts : List (BulkAction τ)) (id : DocID) :
    lastAction (a :: acts) id = match lastAction acts id with
      | some b => some b
      | none => if a.docID = id then some a else none := by
  unfold lastAction
  rw [filter_cons]
  by_cases h : a.docID = id
  · simp only [h, decide_true, if_true, List.getLast?_cons]
    cases (acts.filter fun a => a.docID = id).getLast? <;> rfl
  · simp only [h, decide_false, Bool.false_eq_true, if_false]
    cases (acts.filter fun a => a.docID = id).getLast? <;> rfl

theorem lastAction_mem {id : DocID} (h : lastAction acts id = some a) :
    a ∈ acts ∧ a.docID = id := by
  obtain ⟨hin, hid⟩ := mem_filter.mp (mem_of_getLast? h)
  exact ⟨hin, by simpa using hid⟩

theorem lastAction_eq_none {id : DocID} : lastAction acts id = none ↔ ∀ a ∈ acts, a.docID ≠ id := by
  simp [lastAction]

omit [DecidableEq κ] in
theorem valid_mem (h : ValidActions env ix acts) (ha : a ∈ acts) : a.Valid env ix := by
  cases a with
  | data docID doc update op =>
    refine ⟨h.accepts docID doc update op ha, ?_⟩
    cases update with
    | true => exact .inl rfl
    | false =>
      obtain ⟨pre, post, rfl⟩ := append_of_mem ha
      exact .inr (h.generated pre docID doc op post rfl).1
  | delete docID => trivial

end Sequential

end BulkLemmas

open BulkLemmas

section Sequential

variable {B : Bluge σ} [DecidableEq κ] {ix : Index B ν κ} {env : IndexEnv (JsonObject τ) ε σ ν}
  {batchSize : Nat}

theorem performAll_live (hbatch : 0 < batchSize) (hrest : ix.AtRest)
    (hctx : ∀ p ∈ acts, Configured env batchSize p.2)
    (hvalid : ValidActions env ix (acts.map Prod.fst)) :
    (ix.performAll false acts).AtRest ∧ ∀ id, (ix.performAll false acts).live id =
        outcomeOf env (acts.map Prod.fst) id (ix.live id) := by
  induction acts generalizing ix with
  | nil => exact ⟨hrest, fun id => rfl⟩
  | cons p acts ih =>
    obtain ⟨a, around⟩ := p
    obtain ⟨henv, hcommit⟩ := hctx _ mem_cons_self ix
    obtain ⟨hrest', -, hlive⟩ := perform_live hrest henv hbatch hcommit
      (valid_mem hvalid (a := a) mem_cons_self)
    -- ids generated later are not touched by this action
    have hvalid' : ValidActions env (ix.perform false (around ix) a).1 (acts.map Prod.fst) := by
      refine ⟨fun docID doc update op h =>
        hvalid.accepts docID doc update op (mem_cons_of_mem _ h), ?_⟩
      intro pre docID doc op post heq
      obtain ⟨hmiss, hother⟩ := hvalid.generated (a :: pre) docID doc op post
        (by rw [map_cons, heq, cons_append])
      refine ⟨?_, fun b hb => hother b (mem_cons_of_mem _ hb)⟩
      rw [missing_iff_live hrest', hlive, if_neg (hother a mem_cons_self).symm]
      exact (missing_iff_live hrest).mp hmiss
    obtain ⟨hfinal, houtcome⟩ := ih hrest' (fun q hq => hctx q (mem_cons_of_mem _ hq)) hvalid'
    refine ⟨hfinal, fun id => (houtcome id).trans ?_⟩
    rw [hlive]
    unfold outcomeOf
    rw [map_cons, lastAction_cons]
    cases lastAction (acts.map Prod.fst) id with
    | some b => rfl
    | none =>
      by_cases hid : a.docID = id
      · simp [hid]
      · simp [hid, Ne.symm hid]

end Sequential

end SeaSearch
