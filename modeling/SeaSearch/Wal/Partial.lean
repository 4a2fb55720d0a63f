import SeaSearch.Wal.Consume

/-!
# Flushes over a partly written flush

A flush that was cut short is repeated, perhaps with more entries. What the first attempt has
written is overwritten by the second one, except for inserts: those are written again.
-/

namespace SeaSearch

open List KeyedBag WalMergeDocs SequentialLemmas ConsumeLemmas

variable {σ ν : Type}

namespace PartialLemmas

theorem first_batch (batchSize : Nat) (acc os : Ops σ ν) (hne : acc ++ os ≠ []) :
    ∃ b bs, batchesFrom batchSize acc os = b :: bs ∧ acc <+: b := by
  induction os generalizing acc with
  | nil =>
    have hacc : acc ≠ [] := by simpa using hne
    exact ⟨acc, [], by simp [batchesFrom, hacc], prefix_refl acc⟩
  | cons o os ih =>
    rw [batchesFrom_cons]
    split
    · exact ⟨_, _, rfl, prefix_append acc [o]⟩
    · obtain ⟨b, bs, hb, hpre⟩ := ih (acc ++ [o]) (by simp)
      exact ⟨b, bs, hb, (prefix_append acc [o]).trans hpre⟩

theorem batches_tail {batchSize : Nat} (h : batchesFrom batchSize acc os = b :: bs) :
    ∃ rest, acc ++ os = b ++ rest ∧ batchesFrom batchSize [] rest = bs := by
  induction os generalizing acc with
  | nil =>
    rw [batchesFrom] at h
    split at h
    · cases h
    · obtain ⟨rfl, rfl⟩ := List.cons.inj h
      exact ⟨[], rfl, rfl⟩
  | cons o os ih =>
    rw [batchesFrom_cons] at h
    split at h
    · obtain ⟨rfl, rfl⟩ := List.cons.inj h
      exact ⟨os, by simp, rfl⟩
    · obtain ⟨rest, hrest, hbs⟩ := ih h
      exact ⟨rest, by simpa using hrest, hbs⟩

theorem batches_split {batchSize : Nat} (h : batchesFrom batchSize [] os = bs ++ bs') :
    ∃ rest, os = bs.flatten ++ rest ∧ batchesFrom batchSize [] rest = bs' := by
  induction bs generalizing os with
  | nil => exact ⟨os, rfl, h⟩
  | cons b bs ih =>
    obtain ⟨rest, hrest, hbs⟩ := batches_tail h
    obtain ⟨rest', rfl, hbs'⟩ := ih hbs
    exact ⟨rest', by simpa using hrest, hbs'⟩

end PartialLemmas

open PartialLemmas

theorem batchesFrom_extends {batchSize : Nat} (h : batchesFrom batchSize acc os = b :: bs)
    (hos : os <+: os') :
    ∃ b' bs', batchesFrom batchSize acc os' = b' :: bs' ∧ b <+: b' := by
  induction os generalizing acc os' with
  | nil =>
    have hacc : acc ≠ [] ∧ acc = b := by
      rw [batchesFrom] at h
      split at h
      · cases h
      · next hne => exact ⟨by simpa using hne, (List.cons.inj h).1⟩
    obtain ⟨b', bs', hb', hpre⟩ := first_batch batchSize acc os' (by simp [hacc.1])
    exact ⟨b', bs', hb', hacc.2 ▸ hpre⟩
  | cons o os ih =>
    obtain ⟨rest, rfl⟩ := hos
    rw [batchesFrom_cons] at h
    rw [cons_append, batchesFrom_cons]
    split at h
    · next hfull =>
      rw [if_pos hfull]
      exact ⟨_, _, rfl, (List.cons.inj h).1 ▸ prefix_refl _⟩
    · next hopen =>
      rw [if_neg hopen]
      exact ih h (prefix_append os rest)

/-- Operations on one id that ask for the latest shard and start and end with an
insert: merged they are an insert, which adds a document each time. -/
def AddsAgain (ws : Ops σ ν) : Prop :=
  ∃ o l, ws.head? = some o ∧ ws.getLast? = some l ∧ o.action = .insert ∧ l.action = .insert

/-- Operations on one id that ask for the latest shard, start with a deletion of
vectors and end with an insert: merged they replace the documents of the id. -/
def Replaces (ws : Ops σ ν) : Prop :=
  ∃ v vs l, ws = v :: vs ++ [l] ∧ v.action = .deleteVecOnly ∧ l.action = .insert

/-- The operations `c` write the documents of an id in the shard `j` whatever
they were. -/
def Covered (n : Nat) (c : Ops σ ν) (j : Nat) (id : DocID) : Prop :=
  (∃ o ∈ c, o.docID = id ∧ o.shard = j) ∨
    (j = n - 1 ∧ Replaces (opsOf c shardIDNeedLatest id))

namespace PartialLemmas

variable {n : Nat} {id : DocID} {now : Int} {ops : Ops σ ν}

theorem mem_opsOf {k : Int} {o : Operation σ ν} :
    o ∈ opsOf ops k id ↔ o ∈ ops ∧ o.shard = k ∧ o.docID = id := by
  simp [opsOf]

theorem mergedOp_direct_resets (hops : ∀ o ∈ ops, o.WritePath n) {j : Nat}
    (h : ∃ o ∈ ops, o.docID = id ∧ o.shard = j) :
    (mergedOp now (opsOf ops j id)).resets = true := by
  obtain ⟨o, ho, hid, hj⟩ := h
  have hne : opsOf ops j id ≠ [] := ne_nil_of_mem (mem_opsOf.mpr ⟨ho, hj, hid⟩)
  obtain ⟨os, l, hl⟩ := (eq_nil_or_concat (opsOf ops j id)).resolve_left hne
  rw [concat_eq_append] at hl
  have hmem : ∀ p ∈ os ++ [l], p ∈ ops ∧ p.shard = j ∧ p.docID = id := fun p hp =>
    mem_opsOf.mp (hl ▸ hp)
  have hdir : ∀ p ∈ os ++ [l], p.direct = true := fun p hp => by
    have := (hmem p hp).2.1
    exact decide_eq_true (show p.shard ≠ -1 by omega)
  rw [hl, mergedOp_direct (fun p hp => (hmem p hp).2.2) (fun p hp => hops p (hmem p hp).1) hdir]
  rcases direct_action (hops l (hmem l (by simp)).1) (hdir l (by simp)) with ⟨ha, -⟩ | ha <;>
    simp [Operation.keyOp, ha, KeyOp.resets]

theorem not_direct_keep {j : Nat} (h : ¬ ∃ o ∈ ops, o.docID = id ∧ o.shard = j) :
    mergedOp now (opsOf ops j id) = .keep := by
  have hnil : opsOf ops j id = [] := by
    rw [eq_nil_iff_forall_not_mem]
    intro o ho
    obtain ⟨hmem, hj, hid⟩ := mem_opsOf.mp ho
    exact h ⟨o, hmem, hid, hj⟩
  rw [hnil]
  rfl

theorem replaces_extend (hn : 0 < n) (hops : ∀ o ∈ ops, o.WritePath n) (hpre : c <+: ops)
    (hdir : ¬ ∃ o ∈ ops, o.docID = id ∧ o.shard = ((n - 1 : Nat) : Int))
    (hm : Mergeable m (reaching n ops (n - 1) id))
    (hrep : Replaces (opsOf c shardIDNeedLatest id)) :
    Replaces (opsOf ops shardIDNeedLatest id) := by
  have hlat : ((n - 1 : Nat) : Int) = (n : Int) - 1 := by omega
  have hnodir : (reaching n ops (n - 1) id).filter Operation.direct = [] := by
    rw [(reaching_latest hn hops id).1, ← hlat, eq_nil_iff_forall_not_mem]
    intro o ho
    obtain ⟨hmem, hj, hid⟩ := mem_opsOf.mp ho
    exact hdir ⟨o, hmem, hid, hj⟩
  have hall : reaching n ops (n - 1) id = opsOf ops shardIDNeedLatest id := by
    rw [← (reaching_latest hn hops id).2, eq_comm]
    refine filter_eq_self.mpr fun o ho => ?_
    have := filter_eq_nil_iff.mp hnodir o ho
    simpa using this
  have hword : opsOf c shardIDNeedLatest id <+: opsOf ops shardIDNeedLatest id := hpre.filter _
  obtain ⟨v, vs, l, hcw, hv, hl⟩ := hrep
  rw [hcw] at hword
  unfold Mergeable at hm
  rw [hnodir, List.getLast?_nil, hall] at hm
  rcases hm with hvec | ⟨o, ho, -⟩ | ⟨-, us, o, ho, hne, hus, hins⟩
  · have := hvec l (hword.mem (by simp))
    rw [hl] at this
    cases this
  · have := hword.length_le
    rw [ho] at this
    simp at this
  · obtain ⟨u, us, rfl⟩ := exists_cons_of_ne_nil hne
    exact ⟨u, us, o, ho, hus u mem_cons_self, hins⟩

theorem mem_keys_of_resets {w : WalMergeDocs σ ν} (hc : w.Collects ops) {k : Int}
    (h : (mergedOp now (opsOf ops k id)).resets = true) : k ∈ w.groups.keys := by
  by_contra hk
  rw [mergedOp_not_mem now hc hk] at h
  cases h

theorem mainShard_ofNat (n j : Nat) : mainShard n (j : Int) = j := by
  simp [mainShard]

theorem resets_pending_iff (now : Int) {ws : Ops σ ν} (hw : ∀ o ∈ ws, o.WritePath n)
    (hp : ∀ o ∈ ws, o.direct = false) (hid : ∀ o ∈ ws, o.docID = id) :
    (mergedOp now ws).resets = true ↔ Replaces ws := by
  constructor
  · intro h
    rcases pending_cases hw hp hid now with ⟨-, hk⟩ | ⟨-, x, hx⟩ | ⟨hrep, -⟩
    · rw [hk] at h
      cases h
    · rw [hx] at h
      cases h
    · exact hrep
  · rintro ⟨v, vs, l, rfl, hv, hl⟩
    obtain ⟨-, hts⟩ := (pending_action (hw l (by simp)) (hp l (by simp))).resolve_right
      (by simp [hl])
    rw [mergedOp_vec_insert ((hid l (by simp)).trans (hid v (by simp)).symm) hl hts hv]
    rfl

theorem covered_mono (hpre : c <+: ops) (h : ∃ o ∈ c, o.docID = id ∧ o.shard = j) :
    ∃ o ∈ ops, o.docID = id ∧ o.shard = j := by
  obtain ⟨o, ho, h⟩ := h
  exact ⟨o, hpre.mem ho, h⟩

end PartialLemmas

def flushOps (env : FlushEnv σ ν) (n : Nat) (w : WalMergeDocs σ ν) (j : Nat) (id : DocID) :
    List (KeyOp (Document σ)) :=
  ((env.order.groups w.groups.entries).map Sigma.fst).map fun k =>
    groupOp env.now n k j (w.doc k id)

section Flush

variable {n : Nat} {w : WalMergeDocs σ ν} {ops : Ops σ ν}
  (hw : w.Addressed n) (hc : w.Collects ops) (hops : ∀ o ∈ ops, o.WritePath n)
include hw hc hops

theorem resets_flushOps (env : FlushEnv σ ν) (j : Nat) (id : DocID) :
    (∃ o ∈ flushOps env n w j id, o.resets = true) ↔ Covered n ops j id := by
  have hvis := (nodup_visited env.order w).2
  have hmem : ∀ o ∈ opsOf ops shardIDNeedLatest id, o ∈ ops ∧ o.shard = _ ∧ o.docID = id :=
    fun o ho => mem_opsOf.mp ho
  have hpend := resets_pending_iff env.now (fun o ho => hops o (hmem o ho).1)
    (fun o ho => decide_eq_false (not_not.mpr (hmem o ho).2.1)) (fun o ho => (hmem o ho).2.2)
  -- a group that forgets them is the one of the shard or that of the latest one
  have hgroup : (∃ o ∈ flushOps env n w j id, o.resets = true) ↔ ∃ k : Int, shardIDNeedLatest ≤ k ∧
      j = mainShard n k ∧ (mergedOp env.now (opsOf ops k id)).resets = true := by
    constructor
    · rintro ⟨o, ho, hres⟩
      obtain ⟨k, hk, rfl⟩ := mem_map.mp ho
      obtain ⟨hlo, -⟩ := hw k ((hvis k).mp hk)
      rw [hc, groupOp_ofOps _ hlo] at hres
      split at hres
      · next hj => exact ⟨k, hlo, hj, hres⟩
      · cases hres
    · rintro ⟨k, hlo, hj, hres⟩
      refine ⟨_, mem_map.mpr ⟨k, (hvis k).mpr (mem_keys_of_resets hc hres), rfl⟩, ?_⟩
      rwa [hc, groupOp_ofOps _ hlo, if_pos hj]
  rw [hgroup]
  constructor
  · rintro ⟨k, hlo, hj, hres⟩
    by_cases hlat : k = shardIDNeedLatest
    · subst hlat
      exact .inr ⟨by simpa [mainShard, shardIDNeedLatest] using hj, hpend.mp hres⟩
    · left
      have hkj : k = j := by
        simp only [mainShard, shardIDNeedLatest] at hj hlo hlat
        split at hj <;> omega
      by_contra hno
      rw [hkj, not_direct_keep hno] at hres
      cases hres
  · rintro (hdir | ⟨rfl, hrep⟩)
    · exact ⟨j, by simp only [shardIDNeedLatest]; omega, (mainShard_ofNat n j).symm,
        mergedOp_direct_resets hops hdir⟩
    · exact ⟨shardIDNeedLatest, le_rfl, by simp [mainShard, shardIDNeedLatest], hpend.mpr hrep⟩

end Flush

section Part

variable {B : Bluge σ} {s ref : IndexShard B} {w : WalMergeDocs σ ν}
  {ops c : Ops σ ν}
  (hw : w.Addressed s.shardNum) (hc : w.Collects ops)
  (hops : ∀ o ∈ ops, o.WritePath s.shardNum)
include hw hc

theorem versions_part_pending {env : FlushEnv σ ν} {es : Effects σ ν}
    (hes : es <+: (w.writeTo env s.shardNum false).1) {j : Nat} {id : DocID}
    (hdir : ¬ ∃ o ∈ ops, o.docID = id ∧ o.shard = j) :
    (s.runEffects es).versions j id = if shardIDNeedLatest ∈ committed es ∧ j = s.shardNum - 1
      then (mergedOp env.now (opsOf ops shardIDNeedLatest id)).run (s.versions j id)
      else s.versions j id := by
  have hcom := (writeTo_committed env s.shardNum_pos hw).2
  have hpart : committed es <+: committed (w.writeTo env s.shardNum false).1 := hes.filterMap _
  rw [hcom] at hpart
  obtain ⟨hnd, hvis⟩ := nodup_visited env.order w
  -- the group of the shard itself has nothing to write
  have hgroups : ∀ k ∈ committed es, k ≠ shardIDNeedLatest →
      groupOp env.now s.shardNum k j (w.doc k id) = .keep := by
    intro k hk hlat
    obtain ⟨hlo, -⟩ := hw k ((hvis k).mp (hpart.mem hk))
    rw [hc, groupOp_ofOps _ hlo]
    split
    · next hj =>
      have hkj : k = j := by
        simp only [mainShard, shardIDNeedLatest] at hj hlo hlat
        split at hj <;> omega
      rw [hkj]
      exact not_direct_keep hdir
    · rfl
  have hlatest : groupOp env.now s.shardNum shardIDNeedLatest j (w.doc shardIDNeedLatest id) =
      if j = s.shardNum - 1 then mergedOp env.now (opsOf ops shardIDNeedLatest id) else .keep := by
    rw [hc, groupOp_ofOps _ le_rfl]
    simp [mainShard, shardIDNeedLatest]
  rw [versions_part s hw hes]
  by_cases hmem : shardIDNeedLatest ∈ committed es
  · rw [runOps_map_single (hnd.sublist hpart.sublist) hgroups (absurd hmem), hlatest]
    by_cases hj : j = s.shardNum - 1
    · rw [if_pos hj, if_pos ⟨hmem, hj⟩]
    · rw [if_neg hj, if_neg fun h => hj h.2]
      rfl
  · rw [if_neg fun h => hmem h.1]
    exact runOps_map_keep (fun k hk => hgroups k hk fun h => hmem (h ▸ hk)) _

variable (hpre : c <+: ops)
  (hbase : ∀ j id, s.versions j id = ref.versions j id ∨ Covered s.shardNum c j id)
  (hmerge : ∀ id, Mergeable (ref.versions (s.shardNum - 1) id)
    (reaching s.shardNum ops (s.shardNum - 1) id))
include hops hpre hbase hmerge

omit hw hc in
theorem covered_extend (j : Nat) (id : DocID) :
    s.versions j id = ref.versions j id ∨ Covered s.shardNum ops j id := by
  by_cases hdir : ∃ o ∈ ops, o.docID = id ∧ o.shard = j
  · exact .inr (.inl hdir)
  · rcases hbase j id with heq | hdir' | ⟨rfl, hrep⟩
    · exact .inl heq
    · exact absurd (covered_mono hpre hdir') hdir
    · exact .inr (.inr ⟨rfl, replaces_extend s.shardNum_pos hops hpre hdir (hmerge id) hrep⟩)

theorem versions_part_covered {env : FlushEnv σ ν} {es : Effects σ ν}
    (hes : es <+: (w.writeTo env s.shardNum false).1)
    (hsafe : shardIDNeedLatest ∈ committed es →
      ∀ id, ¬ AddsAgain (opsOf ops shardIDNeedLatest id)) (j : Nat) (id : DocID) :
    (s.runEffects es).versions j id = ref.versions j id ∨ Covered s.shardNum ops j id := by
  by_cases hdir : ∃ o ∈ ops, o.docID = id ∧ o.shard = j
  · exact .inr (.inl hdir)
  rw [versions_part_pending hw hc hes hdir]
  have hkept := covered_extend hops hpre hbase hmerge j id
  split
  · next h =>
    obtain ⟨hk, rfl⟩ := h
    have hmem := fun o (ho : o ∈ opsOf ops shardIDNeedLatest id) => mem_opsOf.mp ho
    rcases pending_cases (fun o ho => hops o (hmem o ho).1)
      (fun o ho => decide_eq_false (not_not.mpr (hmem o ho).2.1))
      (fun o ho => (hmem o ho).2.2) env.now with
      ⟨-, hkeep⟩ | ⟨hadd, -⟩ | ⟨hrep, -⟩
    · rwa [hkeep]
    · exact absurd hadd (hsafe hk id)
    · exact .inr (.inr ⟨rfl, hrep⟩)
  · exact hkept

theorem docs_flush_covered (hnum : ref.shardNum = s.shardNum) (env env' : FlushEnv σ ν) :
    (s.flush env w).docs = (ref.sequential env' ops).docs := by
  have href : (ref.flush env w).docs = (ref.sequential env' ops).docs :=
    (flush_collected_iff (hnum ▸ hw) hc (hnum ▸ hops)).mpr (by simpa only [hnum] using hmerge)
      env env'
  rw [← href]
  refine (IndexShard.docs_ext ((shardNum_flush s env w).trans
    (hnum.symm.trans (shardNum_flush ref env w).symm))).mpr fun j id => ?_
  rw [versions_flush s env hw, versions_flush ref env (hnum ▸ hw), hnum]
  refine runOps_eq_iff.mpr ?_
  rcases covered_extend hops hpre hbase hmerge j id with heq | hcov
  · exact .inr heq
  · exact .inl ((resets_flushOps hw hc hops env j id).mpr hcov)

end Part

end SeaSearch
