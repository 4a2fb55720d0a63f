import SeaSearch.Lib.Threads
import SeaSearch.Wal.Partition

/-!
# Rolling back an interrupted flush

When the WAL is opened again and the last redo Read record has no redo Write record, `Rollback`
collects the entries of that flush and calls `WriteTo` to take their inserts back.
-/

namespace SeaSearch

open List Traces WalMergeDocs MergeLemmas WriteToLemmas SequentialLemmas ConsumeLemmas
  PartitionLemmas

variable {σ ν : Type}

/-- The loop of `Rollback` over the entries of the interrupted flush. -/
def rollbackLoop (wal : Wal σ ν) (maxID : Nat) :
    Nat → Nat → WalMergeDocs σ ν → Traced (Event σ ν) (WalMergeDocs σ ν)
  | 0, _, _ => .ofOption none
  | fuel + 1, minID, docs =>
    if minID ≤ maxID then do
      let entry ← .ofOption (wal.read minID)
      .step (.addDocument minID)
      let minID ← uadd minID 1
      rollbackLoop wal maxID fuel minID (docs.addDocument entry)
    else pure docs

/-- `Rollback`. An error of `TruncateFront` is only logged. -/
def rollback {B : Bluge σ} (env : FlushEnv σ ν) (st : Store B ν) : Traced (Event σ ν) Unit :=
  match st.redoRead with
  | none => pure ()
  | some (readMinID, readMaxID) =>
    let (writeMinID, writeMaxID) := st.redoWrite.getD (0, 0)
    if readMinID = writeMinID ∧ readMaxID = writeMaxID then pure ()
    else do
      let docs ← rollbackLoop st.wal readMaxID (readMaxID + 2 - readMinID) readMinID .empty
      let (effects, err) := docs.writeTo env st.shard.shardNum true
      .stepAll (effects.map .effect)
      if err.isSome then .ofOption none
      else do
        let minID ← usub readMinID 1
        .step (.truncateFront minID)

structure Store.Untouched {B : Bluge σ} (st st' : Store B ν) : Prop where
  entries : st'.wal.entries = st.wal.entries
  redoRead : st'.redoRead = st.redoRead
  redoWrite : st'.redoWrite = st.redoWrite
  num : st'.shard.shardNum = st.shard.shardNum
  docs : ∀ j id, st'.shard.versions j id = st.shard.versions j id

namespace RollbackLemmas

variable {B : Bluge σ} {n : Nat} {st : Store B ν}

theorem untouched_refl (st : Store B ν) : st.Untouched st :=
  ⟨rfl, rfl, rfl, rfl, fun _ _ => rfl⟩

theorem Untouched.trans (h : st.Untouched st₁) (h' : st₁.Untouched st₂) : st.Untouched st₂ :=
  ⟨h'.entries.trans h.entries, h'.redoRead.trans h.redoRead, h'.redoWrite.trans h.redoWrite,
    h'.num.trans h.num, fun j id => (h'.docs j id).trans (h.docs j id)⟩

def Harmless (m : Nat) : Event σ ν → Prop
  | .uint64 _ _ _ => True
  | .addDocument _ => True
  | .effect (.setTimestamp _) => True
  | .effect (.commit _ _ b) => b = {}
  | .truncateFront i => i = m
  | _ => False

theorem versions_commit_empty (s : IndexShard B) (k j : Nat) (id : DocID) :
    (s.commit k {}).versions j id = s.versions j id := by
  by_cases hj : k = j
  · subst hj
    rcases lt_or_ge k s.shardNum with hk | hk
    · simp [IndexShard.versions_commit_self s hk, Batch.write]
    · rw [IndexShard.versions_of_le s hk, IndexShard.versions_of_le _ (by simpa using hk)]
  · exact IndexShard.versions_commit_ne s hj _ id

theorem untouched_apply (st : Store B ν) (he : Harmless m e) :
    st.Untouched (st.apply e) ∧
      ((st.apply e).wal.first = st.wal.first ∨ (st.apply e).wal.first = m) := by
  match e, he with
  | .uint64 _ _ _, _ => exact ⟨untouched_refl st, .inl rfl⟩
  | .addDocument _, _ => exact ⟨untouched_refl st, .inl rfl⟩
  | .effect (.setTimestamp t), _ =>
    exact ⟨⟨rfl, rfl, rfl, IndexShard.shardNum_setTimestamp _ t,
      IndexShard.versions_setTimestamp _ t⟩, .inl rfl⟩
  | .effect (.commit g k b), he =>
    obtain rfl : b = {} := he
    exact ⟨⟨rfl, rfl, rfl, IndexShard.shardNum_commit _ k _,
      versions_commit_empty st.shard k⟩, .inl rfl⟩
  | .truncateFront i, he =>
    obtain rfl : i = m := he
    refine ⟨⟨entries_apply st _, rfl, rfl, rfl, fun _ _ => rfl⟩, ?_⟩
    rcases first_apply st (.truncateFront i) with h | ⟨k, hk, h⟩
    · exact .inl h
    · cases hk
      exact .inr h

theorem untouched_run (st : Store B ν) (hes : ∀ e ∈ es, Harmless m e) :
    st.Untouched (st.run es) ∧
      ((st.run es).wal.first = st.wal.first ∨ (st.run es).wal.first = m) := by
  induction es generalizing st with
  | nil => exact ⟨untouched_refl st, .inl rfl⟩
  | cons e es ih =>
    obtain ⟨hu, hf⟩ := untouched_apply st (hes e mem_cons_self)
    obtain ⟨hu', hf'⟩ := ih (st.apply e) fun e' he' => hes e' (mem_cons_of_mem _ he')
    refine ⟨Untouched.trans hu hu', ?_⟩
    rcases hf' with hf' | hf'
    · rcases hf with hf | hf
      · exact .inl (hf'.trans hf)
      · exact .inr (hf'.trans hf)
    · exact .inr hf'

theorem rollbackLoop_spec (hmax : maxID + 1 < 2 ^ 64) (m : Nat) :
    ∀ (os : Ops σ ν) (w : WalMergeDocs σ ν) (i fuel : Nat),
      (∀ k < os.length, wal.read (i + k) = os[k]?) → i + os.length = maxID + 1 → os.length < fuel →
      ∃ steps, rollbackLoop wal maxID fuel i w = ⟨steps, some (w.addDocuments os)⟩ ∧
        ∀ e ∈ steps, Harmless m e := by
  intro os
  induction os with
  | nil =>
    intro w i fuel _ hlen hfuel
    obtain ⟨fuel, rfl⟩ := Nat.exists_eq_succ_of_ne_zero (ne_of_gt hfuel)
    obtain rfl : i = maxID + 1 := hlen
    exact ⟨[], by simp [rollbackLoop, WalMergeDocs.addDocuments], by simp⟩
  | cons o os ih =>
    intro w i fuel hread hlen hfuel
    obtain ⟨fuel, rfl⟩ := Nat.exists_eq_succ_of_ne_zero (show fuel ≠ 0 by omega)
    rw [length_cons] at hlen hfuel
    have hread0 : wal.read i = some o := by simpa using hread 0 (by simp)
    have hnext : (uadd i 1 : Traced (Event σ ν) Nat) = ⟨[.uint64 .add i 1], some (i + 1)⟩ :=
      uadd_eq (by omega)
    obtain ⟨steps, hrest, hsteps⟩ := ih (w.addDocument o) (i + 1) fuel
      (fun k hk => by
        simpa [add_assoc, add_comm 1 k] using hread (k + 1) (by simpa using hk))
      (by omega) (by omega)
    refine ⟨.addDocument i :: .uint64 .add i 1 :: steps, ?_, ?_⟩
    · rw [rollbackLoop, if_pos (by omega), hread0]
      simp [Traced.ofOption, Traced.step, hnext, hrest, WalMergeDocs.addDocuments]
    · intro e he
      rcases mem_cons.mp he with rfl | he
      · trivial
      · rcases mem_cons.mp he with rfl | he
        · trivial
        · exact hsteps e he

theorem first_ne_insert {w : WalMergeDocs σ ν} {ops : Ops σ ν} (hc : w.Collects ops)
    (hops : ∀ o ∈ ops, o.WritePath n) {k : Int} (hk : 0 ≤ k) {id : DocID} {d : WalDocument σ ν}
    (hd : w.doc k id = some d) : d.first ≠ .insert := by
  rw [hc] at hd
  cases hword : opsOf ops k id with
  | nil =>
    rw [hword] at hd
    cases hd
  | cons o os =>
    rw [hword] at hd
    cases hd
    have ho : o ∈ opsOf ops k id := hword ▸ mem_cons_self
    simp only [opsOf, mem_filter, decide_eq_true_eq] at ho
    intro hins
    have hpath := hops o ho.1
    rw [Operation.WritePath, show o.action = .insert from hins] at hpath
    have := hpath.1
    simp only [shardIDNeedLatest] at this
    omega

theorem find_of_mem {ds : List (WalDocument σ ν)} (hnd : (ds.map WalDocument.docID).Nodup)
    {d : WalDocument σ ν} (hd : d ∈ ds) : (ds.find? fun d' => d'.docID = d.docID) = some d := by
  obtain ⟨as, bs, rfl, has, -⟩ := split_at_id hnd hd
  have hnone : (as.find? fun d' => d'.docID = d.docID) = none := by simpa using has
  simp [List.find?_append, hnone]

theorem writeGroups_rollback (env : FlushEnv σ ν) {look : Int → DocID → Option (WalDocument σ ν)}
    {groups : List (Int × List (WalDocument σ ν))} (hgs : GroupsOk n look groups)
    (hlook : ∀ k id d, 0 ≤ k → look k id = some d → d.first ≠ .insert) (m : Nat) :
    (writeGroups (writeToShardRollback env n) groups).2 = none ∧
      ∀ e ∈ (writeGroups (writeToShardRollback env n) groups).1, Harmless m (.effect e) := by
  induction groups with
  | nil => exact ⟨rfl, by simp [writeGroups]⟩
  | cons g groups ih =>
    obtain ⟨-, hkn, hnd, hfind⟩ := hgs g mem_cons_self
    obtain ⟨herr, hes⟩ := ih fun g' hg' => hgs g' (mem_cons_of_mem _ hg')
    by_cases hk : 0 ≤ g.1
    · -- no document of the group starts with an insert, so the batch is empty
      have hbatch : g.2.foldl (fun (b : Batch σ) d =>
          if d.first = .insert then b.delete d.docID else b) {} = {} :=
        Threads.foldl_of_fixed fun d hd =>
          if_neg (hlook g.1 d.docID d hk (by rw [← hfind, find_of_mem hnd hd]))
      simp only [writeGroups, writeToShardRollback, hk, ↓reduceIte, not_le.mpr hkn, hbatch]
      refine ⟨herr, fun e he => ?_⟩
      rcases mem_append.mp he with he | he
      · rcases mem_append.mp he with he | he
        · obtain ⟨d, -, rfl⟩ := mem_map.mp he
          trivial
        · rw [mem_singleton.mp he]
          rfl
      · exact hes e he
    · simp only [writeGroups, writeToShardRollback, hk, ↓reduceIte]
      exact ⟨herr, by simpa using hes⟩

theorem rollback_events (env : FlushEnv σ ν) {lo hi : Nat} (hread : st.redoRead = some (lo, hi))
    (hlast : st.wal.lastIndex + 1 < 2 ^ 64)
    (hpath : ∀ o ∈ st.wal.entries, o.WritePath st.shard.shardNum)
    (hin : 0 < lo ∧ st.wal.first ≤ lo ∧ lo ≤ hi ∧ hi ≤ st.wal.lastIndex) :
    (rollback env st).result = some () ∧ ∀ e ∈ (rollback env st).steps, Harmless (lo - 1) e := by
  obtain ⟨hlo, hfirst, hle, hhi⟩ := hin
  by_cases hsame : lo = (st.redoWrite.getD (0, 0)).1 ∧ hi = (st.redoWrite.getD (0, 0)).2
  · simp [rollback, hread, hsame]
  let os := (st.wal.entries.drop (lo - 1)).take (hi + 1 - lo)
  have hlen : os.length = hi + 1 - lo := by
    have : st.wal.lastIndex = st.wal.entries.length := rfl
    simp [os]
    omega
  have hos : ∀ k < os.length, st.wal.read (lo + k) = os[k]? := by
    intro k hk
    rw [Wal.read, if_neg (by omega), List.getElem?_take_of_lt (by omega), List.getElem?_drop]
    congr 1
    omega
  obtain ⟨steps, hloop, hsteps⟩ := rollbackLoop_spec (show hi + 1 < 2 ^ 64 by omega) (lo - 1)
    os .empty lo (hi + 2 - lo) hos (by omega) (by omega)
  have hops : ∀ o ∈ os, o.WritePath st.shard.shardNum := fun o ho =>
    hpath o (mem_of_mem_drop (mem_of_mem_take ho))
  have hadr : (empty.addDocuments os).Addressed st.shard.shardNum :=
    addressed_addDocuments st.shard.shardNum_pos addressed_empty os hops
  obtain ⟨herr, heffects⟩ := writeGroups_rollback env (groupsOk_visited hadr env.order)
    (fun k id d hk hd => first_ne_insert (collects_addDocuments blank_empty os) hops hk hd) (lo - 1)
  have hsub : (usub lo 1 : Traced (Event σ ν) Nat) = ⟨[.uint64 .sub lo 1], some (lo - 1)⟩ :=
    usub_eq hlo (by omega)
  have hwrite : ∀ (w : WalMergeDocs σ ν), w.writeTo env st.shard.shardNum true =
      writeGroups (writeToShardRollback env st.shard.shardNum) (visited env.order w) := fun _ => rfl
  have hroll : rollback env st = ⟨steps ++ ((writeGroups (writeToShardRollback env
      st.shard.shardNum) (visited env.order (empty.addDocuments os))).1.map .effect ++
        [.uint64 .sub lo 1, .truncateFront (lo - 1)]), some ()⟩ := by
    simp [rollback, hread, hsame, hloop, hwrite, herr, hsub, Traced.step, Traced.stepAll]
  rw [hroll]
  refine ⟨rfl, fun e he => ?_⟩
  simp only [mem_append, mem_map, mem_cons, not_mem_nil, or_false] at he
  rcases he with he | ⟨x, hx, rfl⟩ | rfl | rfl
  · exact hsteps e he
  · exact heffects x hx
  · trivial
  · rfl

end RollbackLemmas

open RollbackLemmas

theorem rollback_spec {B : Bluge σ} (env : FlushEnv σ ν) {st : Store B ν}
    (hlast : st.wal.lastIndex + 1 < 2 ^ 64)
    (hpath : ∀ o ∈ st.wal.entries, o.WritePath st.shard.shardNum)
    (hread : ∀ lo hi, st.redoRead = some (lo, hi) → st.redoRead ≠ st.redoWrite →
      0 < lo ∧ st.wal.first ≤ lo ∧ lo ≤ hi ∧ hi ≤ st.wal.lastIndex) :
    (rollback env st).result = some () ∧
    ∀ es, es <+: (rollback env st).steps → st.Untouched (st.run es) ∧
      ((st.run es).wal.first = st.wal.first ∨ ∃ lo hi, st.redoRead = some (lo, hi) ∧
        st.redoRead ≠ st.redoWrite ∧ (st.run es).wal.first = lo - 1) := by
  by_cases hsame : st.redoRead = none ∨ st.redoRead = st.redoWrite
  · -- there is nothing to roll back
    have hnothing : rollback env st = pure () := by
      cases hr : st.redoRead with
      | none => simp [rollback, hr]
      | some r =>
        rw [hr] at hsame
        have hw : st.redoWrite = some r := (hsame.resolve_left (by simp)).symm
        simp [rollback, hr, hw]
    rw [hnothing]
    refine ⟨rfl, fun es hes => ?_⟩
    obtain rfl := prefix_nil.mp hes
    exact ⟨untouched_refl st, .inl rfl⟩
  · obtain ⟨hne, hdiff⟩ := not_or.mp hsame
    obtain ⟨⟨lo, hi⟩, hr⟩ := Option.ne_none_iff_exists'.mp hne
    obtain ⟨hres, hsteps⟩ := rollback_events env hr hlast hpath (hread lo hi hr hdiff)
    refine ⟨hres, fun es hes => ?_⟩
    obtain ⟨hu, hf⟩ := untouched_run st fun e he => hsteps e (hes.mem he)
    exact ⟨hu, hf.imp_right fun h => ⟨lo, hi, hr, hdiff, h⟩⟩

end SeaSearch
