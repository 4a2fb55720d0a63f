import SeaSearch.Index.Documents
import SeaSearch.Wal.Retry

/-!
# One live document per id

Whether a document is inserted or updated is decided before it is written: by the committed
documents, without those that wait in the WAL or in the same list. This module says when an id can
still not get a second live document.
-/

namespace SeaSearch

open List KeyedBag WalMergeDocs SequentialLemmas ConsumeLemmas PartitionLemmas
  PartialLemmas RecoveryLemmas RetryLemmas
open IndexShard (flushes new versions)
open Operation (docID keyOp)

variable {σ ν : Type}

def Store.waiting {B : Bluge σ} (st : Store B ν) : Ops σ ν :=
  st.wal.entries.drop st.redoMax

/-- The live documents of an id are in the shard `k`, at most one. The waiting
operations `P` update it there, or insert it once when it is not live. -/
structure OneLiveAt {B : Bluge σ} (s : IndexShard B) (P : Ops σ ν) (id : DocID)
    (k : Nat) : Prop where
  elsewhere : ∀ j, j ≠ k → s.versions j id = 0
  card_le : (s.versions k id).card ≤ 1
  update : ∀ o ∈ P, o.docID = id → o.action = .update → o.shard = k
  insert : (∃ o ∈ P, o.docID = id ∧ o.action = .insert) →
    s.versions k id = 0 ∧ ∀ o ∈ P, o.docID = id → o.action ≠ .update
  once : (P.filter fun o => o.docID = id ∧ o.action = .insert).length ≤ 1

namespace OneLiveAt

variable {B : Bluge σ} {s : IndexShard B} {b P : Ops σ ν} {id : DocID} {k : Nat}

theorem congr {t : IndexShard B} (h : OneLiveAt s P id k)
    (heq : ∀ j, t.versions j id = s.versions j id) : OneLiveAt t P id k where
  elsewhere j hj := (heq j).trans (h.elsewhere j hj)
  card_le := heq k ▸ h.card_le
  update := h.update
  insert hins := heq k ▸ h.insert hins
  once := h.once

theorem perm (h : OneLiveAt s P id k) (hperm : P.Perm Q) :
    OneLiveAt s Q id k where
  elsewhere := h.elsewhere
  card_le := h.card_le
  update o ho := h.update o (hperm.mem_iff.mpr ho)
  insert := by
    rintro ⟨o, ho, ha⟩
    obtain ⟨hzero, hupd⟩ := h.insert ⟨o, hperm.mem_iff.mpr ho, ha⟩
    exact ⟨hzero, fun p hp => hupd p (hperm.mem_iff.mpr hp)⟩
  once := (hperm.filter _).length_eq ▸ h.once

theorem append_left (h : OneLiveAt s P id k) (hins : ∀ o ∈ b, o.docID = id → o.action ≠ .insert)
    (hupd : ∀ o ∈ b, o.docID = id → o.action = .update →
      ∃ j : Nat, o.shard = j ∧ s.versions j id ≠ 0) : OneLiveAt s (b ++ P) id k := by
  have hshard : ∀ o ∈ b, o.docID = id → o.action = .update → o.shard = k ∧ s.versions k id ≠ 0 := by
    intro o ho hid ha
    obtain ⟨j, hj, hlive⟩ := hupd o ho hid ha
    have hjk : j = k := by
      by_contra hne
      exact hlive (h.elsewhere j hne)
    exact ⟨by rw [hj, hjk], hjk ▸ hlive⟩
  refine ⟨h.elsewhere, h.card_le, fun o ho hid ha => ?_, ?_, ?_⟩
  · rcases mem_append.mp ho with ho | ho
    · exact (hshard o ho hid ha).1
    · exact h.update o ho hid ha
  · rintro ⟨o, ho, hid, ha⟩
    have hoP := (mem_append.mp ho).resolve_left fun ho => hins o ho hid ha
    obtain ⟨hzero, hno⟩ := h.insert ⟨o, hoP, hid, ha⟩
    refine ⟨hzero, fun p hp hpid hpa => ?_⟩
    rcases mem_append.mp hp with hp | hp
    · exact (hshard p hp hpid hpa).2 hzero
    · exact hno p hp hpid hpa
  · have hnil : b.filter (fun o => o.docID = id ∧ o.action = .insert) = [] :=
      filter_eq_nil_iff.mpr fun o ho => by simpa using hins o ho
    rw [filter_append, hnil, nil_append]
    exact h.once

theorem of_fresh (hzero : ∀ j, s.versions j id = 0)
    (hrest : ∀ o ∈ P, o.docID = id → o.action ≠ .insert ∧ o.action ≠ .update) (k : Nat) :
    OneLiveAt s P id k where
  elsewhere j _ := hzero j
  card_le := by simp [hzero]
  update o ho hid ha := absurd ha (hrest o ho hid).2
  insert := fun ⟨o, ho, hid, ha⟩ => absurd ha (hrest o ho hid).1
  once := by
    rw [filter_eq_nil_iff.mpr fun o ho => by simpa using fun hid => (hrest o ho hid).1]
    exact Nat.zero_le _

theorem cons_insert (hzero : ∀ j, s.versions j id = 0)
    (hrest : ∀ o ∈ P, o.docID = id → o.action ≠ .insert ∧ o.action ≠ .update)
    (ha : o.action = .insert) (k : Nat) : OneLiveAt s (o :: P) id k := by
  have hupd : ∀ p ∈ o :: P, p.docID = id → p.action ≠ .update := by
    intro p hp hid
    rcases mem_cons.mp hp with rfl | hp
    · simp [ha]
    · exact (hrest p hp hid).2
  refine ⟨fun j _ => hzero j, by simp [hzero], fun p hp hid hpa => absurd hpa (hupd p hp hid),
    fun _ => ⟨hzero k, hupd⟩, ?_⟩
  have hnil : P.filter (fun o => o.docID = id ∧ o.action = .insert) = [] :=
    filter_eq_nil_iff.mpr fun p hp => by simpa using fun hid => (hrest p hp hid).1
  rw [filter_cons, hnil]
  split <;> simp

end OneLiveAt

namespace OneLiveLemmas

section Flush

variable {n : Nat} {w : WalMergeDocs σ ν} {b : Ops σ ν}
  (hw : w.Addressed n) (hc : w.Collects b) (hb : ∀ o ∈ b, o.WritePath n)
include hb

theorem mergedOp_direct_cases (now : Int) (k : Nat) (id : DocID) :
    mergedOp now (opsOf b k id) = .keep ∨ mergedOp now (opsOf b k id) = .clear ∨
      ∃ o ∈ b, o.docID = id ∧ o.action = .update ∧ o.shard = k ∧
        mergedOp now (opsOf b k id) = .set o.document := by
  rcases eq_nil_or_concat (opsOf b k id) with h | ⟨os, l, h⟩
  · exact .inl (by rw [h]; rfl)
  · rw [concat_eq_append] at h
    have hmem : ∀ o ∈ os ++ [l], o ∈ b ∧ o.shard = k ∧ o.docID = id := fun o ho =>
      mem_opsOf.mp (h ▸ ho)
    have hdir : ∀ o ∈ os ++ [l], o.direct = true := fun o ho => by
      have := (hmem o ho).2.1
      exact decide_eq_true (show o.shard ≠ -1 by omega)
    obtain ⟨hl, hshard, hid⟩ := hmem l (by simp)
    rw [h, mergedOp_direct (fun o ho => (hmem o ho).2.2) (fun o ho => hb o (hmem o ho).1) hdir]
    rcases direct_action (hb l hl) (hdir l (by simp)) with ⟨ha, -⟩ | ha
    · exact .inr (.inr ⟨l, hl, hid, ha, hshard, by simp [keyOp, ha]⟩)
    · exact .inr (.inl (by simp [keyOp, ha]))

include hw hc

theorem groupOp_cases (now : Int) (j : Nat) (id : DocID) (hk : k ∈ w.groups.keys) :
    groupOp now n k j (w.doc k id) = .keep ∨ groupOp now n k j (w.doc k id) = .clear ∨
      (∃ o ∈ b, o.docID = id ∧ o.action = .update ∧ o.shard = j ∧
        groupOp now n k j (w.doc k id) = .set o.document) ∨
      (k = shardIDNeedLatest ∧ j = n - 1 ∧ ∃ o ∈ b, o.docID = id ∧ o.action = .insert) := by
  obtain ⟨hlo, -⟩ := hw k hk
  rw [hc, groupOp_ofOps now hlo]
  split
  · next hj =>
    by_cases hlat : k = shardIDNeedLatest
    · subst hlat
      have hmem := fun o (ho : o ∈ opsOf b shardIDNeedLatest id) => mem_opsOf.mp ho
      have hinsert : ∀ o ∈ opsOf b shardIDNeedLatest id, o.action = .insert →
          ∃ o ∈ b, o.docID = id ∧ o.action = .insert := fun o ho ha =>
        ⟨o, (hmem o ho).1, (hmem o ho).2.2, ha⟩
      have hj' : j = n - 1 := by simpa [mainShard, shardIDNeedLatest] using hj
      rcases pending_cases (fun o ho => hb o (hmem o ho).1)
        (fun o ho => decide_eq_false (not_not.mpr (hmem o ho).2.1))
        (fun o ho => (hmem o ho).2.2) now with
        ⟨-, hkeep⟩ | ⟨⟨o, l, ho, -, ha, -⟩, -⟩ | ⟨⟨v, vs, l, hword, -, ha⟩, -⟩
      · exact .inl hkeep
      · exact .inr (.inr (.inr ⟨rfl, hj', hinsert o (mem_of_mem_head? ho) ha⟩))
      · exact .inr (.inr (.inr ⟨rfl, hj', hinsert l (by rw [hword]; simp) ha⟩))
    · have hkj : k = j := by
        simp only [mainShard, shardIDNeedLatest] at hj hlo hlat
        split at hj <;> omega
      rw [hkj]
      rcases mergedOp_direct_cases hb now j id with h | h | h
      · exact .inl h
      · exact .inr (.inl h)
      · exact .inr (.inr (.inl h))
  · exact .inl rfl

theorem mem_flushOps (env : FlushEnv σ ν) {id : DocID} (hop : op ∈ flushOps env n w j id) :
    op = .keep ∨ op = .clear ∨
      (∃ o ∈ b, o.docID = id ∧ o.action = .update ∧ o.shard = j ∧ op = .set o.document) ∨
      (j = n - 1 ∧ ∃ o ∈ b, o.docID = id ∧ o.action = .insert) := by
  obtain ⟨k, hk, rfl⟩ := mem_map.mp hop
  rcases groupOp_cases hw hc hb env.now j id ((nodup_visited env.order w).2 k |>.mp hk) with
    h | h | h | ⟨-, h⟩
  · exact .inl h
  · exact .inr (.inl h)
  · exact .inr (.inr (.inl h))
  · exact .inr (.inr (.inr h))

theorem countP_flushOps_le {id : DocID} (hupd : ∀ o ∈ b, o.docID = id → o.action ≠ .update)
    (env : FlushEnv σ ν) (j : Nat) :
    (flushOps env n w j id).countP KeyOp.writes ≤ 1 := by
  obtain ⟨hnd, hvis⟩ := nodup_visited env.order w
  rw [flushOps, countP_map]
  refine (countP_mono_left (q := fun k => k == shardIDNeedLatest) fun k hk hwrites => ?_).trans
    (nodup_iff_count_le_one.mp hnd shardIDNeedLatest)
  rcases groupOp_cases hw hc hb env.now j id ((hvis k).mp hk)
    with h | h | ⟨o, ho, hid, ha, -⟩ | ⟨h, -⟩
  · simp [h, KeyOp.writes] at hwrites
  · simp [h, KeyOp.writes] at hwrites
  · exact absurd ha (hupd o ho hid)
  · exact beq_iff_eq.mpr h

end Flush

section FlushShard

variable {B : Bluge σ} {s : IndexShard B} {w : WalMergeDocs σ ν} {b P : Ops σ ν}
  {id : DocID} {k : Nat} (hw : w.Addressed s.shardNum) (hc : w.Collects b)
  (hb : ∀ o ∈ b, o.WritePath s.shardNum)
include hw hc hb

variable (env : FlushEnv σ ν)

theorem versions_flush_zero (hzero : s.versions j id = 0)
    (hupd : ∀ o ∈ b, o.docID = id → o.action = .update → o.shard ≠ j)
    (hins : j = s.shardNum - 1 → ∀ o ∈ b, o.docID = id → o.action ≠ .insert) :
    (s.flush env w).versions j id = 0 := by
  have hcount : (flushOps env s.shardNum w j id).countP KeyOp.writes = 0 := by
    refine countP_eq_zero.mpr fun op hop => ?_
    rcases mem_flushOps hw hc hb env hop
      with rfl | rfl | ⟨o, ho, hid, ha, hj, -⟩ | ⟨hj, o, ho, hid, ha⟩
    · simp [KeyOp.writes]
    · simp [KeyOp.writes]
    · exact absurd hj (hupd o ho hid ha)
    · exact absurd ha (hins hj o ho hid)
  have hcard := card_runOps_le (flushOps env s.shardNum w j id) (s.versions j id)
  rw [hcount, hzero] at hcard
  rw [versions_flush s env hw, hzero]
  exact Multiset.card_eq_zero.mp (Nat.le_zero.mp hcard)

theorem oneLive_flush_fresh (hzero : ∀ j, s.versions j id = 0)
    (hupd : ∀ o ∈ b, o.docID = id → o.action ≠ .update)
    (hrest : ∀ o ∈ P, o.docID = id → o.action ≠ .insert ∧ o.action ≠ .update) :
    OneLiveAt (s.flush env w) P id (s.shardNum - 1) where
  elsewhere j hj := versions_flush_zero hw hc hb env (hzero j)
    (fun o ho hid ha => absurd ha (hupd o ho hid)) fun h => absurd h hj
  card_le := by
    rw [versions_flush s env hw, hzero]
    have hcount := countP_flushOps_le hw hc hb hupd env (s.shardNum - 1)
    have hcard := card_runOps_le (flushOps env s.shardNum w (s.shardNum - 1) id) 0
    rw [Multiset.card_zero, Nat.zero_add] at hcard
    exact hcard.trans hcount
  update o ho hid ha := absurd ha (hrest o ho hid).2
  insert := fun ⟨o, ho, hid, ha⟩ => absurd ha (hrest o ho hid).1
  once := (OneLiveAt.of_fresh hzero hrest 0).once

theorem oneLive_flush_kept (h : OneLiveAt s (b ++ P) id k)
    (hins : ∀ o ∈ b, o.docID = id → o.action ≠ .insert) : OneLiveAt (s.flush env w) P id k where
  elsewhere j hj := by
    refine versions_flush_zero hw hc hb env (h.elsewhere j hj) (fun o ho hid ha hshard => hj ?_)
      fun _ => hins
    have := h.update o (mem_append_left P ho) hid ha
    omega
  card_le := by
    rw [versions_flush s env hw]
    refine card_runOps_of_not_add (fun op hop x hx => ?_) h.card_le
    subst hx
    rcases mem_flushOps hw hc hb env hop with
      hop | hop | ⟨o, -, -, -, -, hop⟩ | ⟨-, o, ho, hid, ha⟩
    · cases hop
    · cases hop
    · cases hop
    · exact hins o ho hid ha
  update o ho := h.update o (mem_append_right b ho)
  insert := by
    rintro ⟨o, ho, hid, ha⟩
    obtain ⟨hzero, hupd⟩ := h.insert ⟨o, mem_append_right b ho, hid, ha⟩
    refine ⟨versions_flush_zero hw hc hb env hzero (fun p hp hpid hpa => ?_) fun _ => hins,
      fun p hp => hupd p (mem_append_right b hp)⟩
    exact absurd hpa (hupd p (mem_append_left P hp) hpid)
  once := by
    have := h.once
    rw [filter_append, length_append] at this
    omega

theorem oneLive_flush (h : OneLiveAt s (b ++ P) id k) :
    ∃ k', OneLiveAt (s.flush env w) P id k' := by
  by_cases hins : ∃ o ∈ b, o.docID = id ∧ o.action = .insert
  · obtain ⟨o, ho, hid, ha⟩ := hins
    obtain ⟨hzero, hupd⟩ := h.insert ⟨o, mem_append_left P ho, hid, ha⟩
    have hall : ∀ j, s.versions j id = 0 := fun j => by
      by_cases hj : j = k
      · rw [hj, hzero]
      · exact h.elsewhere j hj
    refine ⟨_, oneLive_flush_fresh hw hc hb env hall
      (fun p hp => hupd p (mem_append_left P hp)) fun p hp hpid =>
        ⟨fun hpa => ?_, hupd p (mem_append_right b hp) hpid⟩⟩
    -- a second insert would be waiting
    have hone := h.once
    rw [filter_append, length_append] at hone
    have hob : o ∈ b.filter fun o => o.docID = id ∧ o.action = .insert := by simp [ho, hid, ha]
    have hpP : p ∈ P.filter fun o => o.docID = id ∧ o.action = .insert := by simp [hp, hpid, hpa]
    have := length_pos_of_mem hob
    have := length_pos_of_mem hpP
    omega
  · exact ⟨k, oneLive_flush_kept hw hc hb env h fun o ho hid ha => hins ⟨o, ho, hid, ha⟩⟩

end FlushShard

section Flushes

variable {B : Bluge σ} {s : IndexShard B} {b P : Ops σ ν}
  {bs : List (Ops σ ν)} {id : DocID} {k : Nat} {flush : Nat → FlushEnv σ ν}

theorem addressed_batch (hb : ∀ o ∈ b, o.WritePath s.shardNum) :
    (empty.addDocuments b).Addressed s.shardNum :=
  addressed_addDocuments s.shardNum_pos (addressed_empty (σ := σ) (ν := ν)) b hb

section Flushes

variable (i : Nat) (hbs : ∀ b ∈ bs, ∀ o ∈ b, o.WritePath s.shardNum)

include i hbs

theorem oneLive_flushes (h : OneLiveAt s (bs.flatten ++ P) id k) :
    ∃ k', OneLiveAt (flushes flush i bs s) P id k' := by
  induction bs generalizing s i k with
  | nil => exact ⟨k, h⟩
  | cons b bs ih =>
    have hb := hbs b mem_cons_self
    rw [flatten_cons, append_assoc] at h
    obtain ⟨k', h'⟩ :=
      oneLive_flush (addressed_batch hb) (collects_addDocuments blank_empty b) hb (flush i) h
    refine ih (i + 1) (fun b' hb' o ho => ?_) h'
    rw [shardNum_flush]
    exact hbs b' (mem_cons_of_mem _ hb') o ho

omit i hbs in
theorem versions_flush_other (hw : w.Addressed s.shardNum) (hc : w.Collects b)
    (hid : ∀ o ∈ b, o.docID ≠ id) (env : FlushEnv σ ν) (j : Nat) :
    (s.flush env w).versions j id = s.versions j id := by
  rw [versions_flush s env hw]
  refine runOps_map_keep (fun k hk => ?_) _
  have hnil : opsOf b k id = [] := by
    rw [eq_nil_iff_forall_not_mem]
    exact fun o ho => hid o (mem_opsOf.mp ho).1 (mem_opsOf.mp ho).2.2
  obtain ⟨hlo, -⟩ := hw k ((nodup_visited env.order w).2 k |>.mp hk)
  rw [hc, hnil, groupOp_ofOps _ hlo]
  split <;> rfl

theorem versions_flushes_other (hid : ∀ b ∈ bs, ∀ o ∈ b, o.docID ≠ id) (j : Nat) :
    (flushes flush i bs s).versions j id = s.versions j id := by
  induction bs generalizing s i with
  | nil => rfl
  | cons b bs ih =>
    have hstep := versions_flush_other (addressed_batch (hbs b mem_cons_self))
      (collects_addDocuments blank_empty b) (hid b mem_cons_self) (flush i) j
    rw [← hstep]
    refine ih (i + 1) (fun b' hb' o ho => ?_) fun b' hb' => hid b' (mem_cons_of_mem _ hb')
    rw [shardNum_flush]
    exact hbs b' (mem_cons_of_mem _ hb') o ho

theorem oneLive_flushes_fresh (hzero : ∀ j, s.versions j id = 0)
    (hupd : ∀ b ∈ bs, ∀ o ∈ b, o.docID = id → o.action ≠ .update)
    (hrest : ∀ o ∈ P, o.docID = id → o.action ≠ .insert ∧ o.action ≠ .update)
    (hone : (bs.countP fun b => id ∈ b.map docID) ≤ 1) :
    ∃ k', OneLiveAt (flushes flush i bs s) P id k' := by
  induction bs generalizing s i with
  | nil => exact ⟨0, .of_fresh hzero hrest 0⟩
  | cons b bs ih =>
    have hb := hbs b mem_cons_self
    have hbs' : ∀ b' ∈ bs, ∀ o ∈ b',
        o.WritePath (s.flush (flush i) (empty.addDocuments b)).shardNum := by
      rw [shardNum_flush]
      exact fun b' hb' => hbs b' (mem_cons_of_mem _ hb')
    rw [countP_cons] at hone
    by_cases hmem : id ∈ b.map docID
    · -- the later batches are about other ids
      rw [if_pos (decide_eq_true hmem)] at hone
      have hcount : (bs.countP fun b => id ∈ b.map docID) = 0 := by omega
      have hfresh := oneLive_flush_fresh (addressed_batch hb)
        (collects_addDocuments blank_empty b) hb
        (flush i) hzero (hupd b mem_cons_self) hrest
      have hother : ∀ o ∈ bs.flatten, o.docID ≠ id := fun o ho hid => by
        obtain ⟨b', hb', ho⟩ := mem_flatten.mp ho
        have := countP_eq_zero.mp hcount b' hb'
        exact this (decide_eq_true (mem_map.mpr ⟨o, ho, hid⟩))
      exact oneLive_flushes (i + 1) hbs' (hfresh.append_left
        (fun o ho hid => absurd hid (hother o ho)) fun o ho hid => absurd hid (hother o ho))
    · have hkeep := versions_flush_other (addressed_batch hb) (collects_addDocuments blank_empty b)
        (fun o ho hid => hmem (mem_map.mpr ⟨o, ho, hid⟩)) (flush i)
      exact ih (i + 1) hbs' (fun j => (hkeep j).trans (hzero j))
        (fun b' hb' => hupd b' (mem_cons_of_mem _ hb')) (by omega)

end Flushes

end Flushes

section Call

variable {B : Bluge σ} {st : Store B ν} {id : DocID} {k : Nat}

theorem flatten_batchesFrom (batchSize : Nat) (os : Ops σ ν) :
    (batchesFrom batchSize [] os).flatten = os := by
  obtain ⟨rest, hrest, hnil⟩ := batches_split (append_nil (batchesFrom batchSize [] os)).symm
  cases rest with
  | nil =>
    rw [append_nil] at hrest
    exact hrest.symm
  | cons o rest =>
    obtain ⟨b, bs, hb, -⟩ := first_batch batchSize [] (o :: rest) (by simp)
    rw [hb] at hnil
    cases hnil

section Calls

variable (env : CallEnv σ ν) (hst : st.Ready) (hlast : st.wal.lastIndex + 1 < 2 ^ 64)

include env hst hlast

theorem backlog_append_waiting :
    st.waiting = st.backlog ++ (st.run (consumeWAL env st).steps).waiting := by
  have hpre : st.backlog <+: st.waiting := backlog_prefix_drop st
  obtain ⟨t, ht⟩ := hpre
  have hwait : (st.run (consumeWAL env st).steps).waiting = st.waiting.drop st.backlog.length := by
    rw [Store.waiting, entries_run, redoMax_call env hst hlast, Store.backlogMax, Store.waiting,
      drop_drop]
  rw [hwait, ← ht, drop_left]

omit env hst hlast in
theorem mem_entries_of_backlog (h : o ∈ st.backlog) : o ∈ st.wal.entries :=
  mem_of_mem_drop (mem_of_mem_take h)

omit env hst hlast in
theorem backlog_eq_nil (h : st.redoMax = st.wal.lastIndex) : st.backlog = [] := by
  refine eq_nil_of_length_eq_zero ?_
  rw [st.length_backlog, h, Nat.sub_self, Nat.min_zero]

theorem call_flushes :
    ∃ fs : List (Flush σ ν), (∀ f ∈ fs, f.Ok st.shard.shardNum) ∧
      fs.map Flush.ops = batchesFrom env.batchSize [] st.backlog ∧
      ∀ j id, (st.run (consumeWAL env st).steps).shard.versions j id =
        (st.run (fs.flatMap (Flush.events env st.shard.shardNum))).shard.versions j id := by
  by_cases hnew : st.redoMax = st.wal.lastIndex
  · refine ⟨[], by simp, by rw [backlog_eq_nil hnew]; rfl, fun j id => ?_⟩
    have hsteps : (consumeWAL env st).steps = [] := by simp [consumeWAL, hnew]
    rw [hsteps]
    rfl
  · obtain ⟨fs, steps, hfs, hcall, hvis, -⟩ := consumeWAL_spec env hst hlast hnew
    refine ⟨fs, hfs.ok, hfs.ops, fun j id => ?_⟩
    rw [hcall, ← run_visible, hvis, run_append, versions_closing]

omit env hst hlast in
theorem oneLive_flush_events (env : CallEnv σ ν) {fs : List (Flush σ ν)} {P : Ops σ ν}
    (hok : ∀ f ∈ fs, f.Ok st.shard.shardNum)
    (h : OneLiveAt st.shard ((fs.map Flush.ops).flatten ++ P) id k) :
    ∃ k', OneLiveAt (st.run (fs.flatMap (Flush.events env st.shard.shardNum))).shard P id k' := by
  induction fs generalizing st k with
  | nil => exact ⟨k, h⟩
  | cons f fs ih =>
    have hf := hok f mem_cons_self
    obtain ⟨st', hshard, -, hok', hrun⟩ := run_flushes_cons env hok
    rw [map_cons, flatten_cons, append_assoc] at h
    obtain ⟨k', h'⟩ := oneLive_flush hf.addressed hf.collects hf.writePath (env.flush f.startID) h
    rw [hrun]
    exact ih hok' (hshard ▸ h')

theorem oneLive_call (h : OneLiveAt st.shard st.waiting id k) :
    ∃ k', OneLiveAt (st.run (consumeWAL env st).steps).shard
      (st.run (consumeWAL env st).steps).waiting id k' := by
  obtain ⟨fs, hok, hops, hvers⟩ := call_flushes env hst hlast
  rw [backlog_append_waiting env hst hlast, ← flatten_batchesFrom env.batchSize st.backlog,
    ← hops] at h
  obtain ⟨k', h'⟩ := oneLive_flush_events env hok h
  exact ⟨k', h'.congr fun j => hvers j id⟩

theorem versions_call_other (hid : ∀ o ∈ st.backlog, o.docID ≠ id) (j : Nat) :
    (st.run (consumeWAL env st).steps).shard.versions j id = st.shard.versions j id := by
  obtain ⟨fs, hok, hops, hvers⟩ := call_flushes env hst hlast
  rw [hvers, versions_flushes env hok]
  have hmem : ∀ f ∈ fs, ∀ o ∈ f.ops, o.docID ≠ id := fun f hf o ho => by
    have hin : o ∈ (fs.map Flush.ops).flatten :=
      mem_flatten.mpr ⟨f.ops, mem_map_of_mem hf, ho⟩
    rw [hops, flatten_batchesFrom] at hin
    exact hid o hin
  clear hops hvers
  induction fs with
  | nil => rfl
  | cons f fs ih =>
    have hf := hok f mem_cons_self
    have hstep := versions_flush_other hf.addressed hf.collects (hmem f mem_cons_self)
      (env.flush f.startID) j
    rw [versions_flush _ _ hf.addressed] at hstep
    rw [flatMap_cons, runOps_append]
    exact (congrArg (runOps _) hstep).trans (ih (fun g hg => hok g (mem_cons_of_mem _ hg))
      fun g hg => hmem g (mem_cons_of_mem _ hg))

end Calls

end Call

end OneLiveLemmas

def Store.Fresh {B : Bluge σ} (st : Store B ν) (id : DocID) : Prop :=
  (∀ j, st.shard.versions j id = 0) ∧
    ∀ o ∈ st.waiting, o.docID = id → o.action ≠ .insert ∧ o.action ≠ .update

/-- A first-layer shard that the ids `own` belong to. -/
structure StoreInv {B : Bluge σ} (own : DocID → Prop) (st : Store B ν) : Prop where
  ready : st.Ready
  oneLive : ∀ id, own id → ∃ k, OneLiveAt st.shard st.waiting id k
  others : ∀ id, ¬ own id →
    (∀ j, st.shard.versions j id = 0) ∧ ∀ o ∈ st.wal.entries, o.docID ≠ id

namespace OneLiveLemmas

variable {B : Bluge σ} {own : DocID → Prop} {st : Store B ν}

theorem versions_new (B : Bluge σ) (j : Nat) (id : DocID) :
    (new B).versions j id = 0 := by
  cases j <;> simp [new, versions]

theorem fresh_new (id : DocID) : ({ shard := new B } : Store B ν).Fresh id :=
  ⟨fun j => versions_new B j id, by simp [Store.waiting]⟩

theorem ready_new : ({ shard := new B } : Store B ν).Ready :=
  ⟨by simp [Store.redoMax], by simp, by simp⟩

theorem storeInv_new (own : DocID → Prop) :
    StoreInv own ({ shard := new B } : Store B ν) := by
  refine ⟨ready_new, fun id _ => ⟨0, ?_⟩, fun id _ => ⟨fun j => versions_new B j id, by simp⟩⟩
  exact .of_fresh (fresh_new id).1 (fresh_new (ν := ν) (B := B) id).2 0

theorem ready_commit (h : st.Ready) {env : CommitEnv σ ν} {ops : Ops σ ν}
    (hops : ∀ o ∈ ops, Resolved st.shard o) :
    ({ st with shard := (st.shard.commitOperations env ops).1 } : Store B ν).Ready := by
  obtain ⟨-, hnum, -⟩ := IndexShard.commitOperations_spec env fun o ho => (hops o ho).writePath
  exact ⟨h.redoMax_le, h.first_le, fun o ho => WritePath_mono hnum (h.writePath o ho)⟩

theorem waiting_extend (h : st.Ready) (os : Ops σ ν) :
    (st.extend os).waiting = st.waiting ++ os :=
  drop_append_of_le_length h.redoMax_le

variable (h : StoreInv own st)

include h

theorem storeInv_extend (ho : Resolved st.shard o) (hown : own o.docID)
    (hfresh : o.action = .insert → st.Fresh o.docID) : StoreInv own (st.extend [o]) := by
  have hwait := waiting_extend h.ready [o]
  refine ⟨ready_extend h.ready (forall_mem_singleton.2 ho.writePath), fun id hid => ?_,
    fun id hid => ?_⟩
  · rw [hwait]
    show ∃ k, OneLiveAt st.shard (st.waiting ++ [o]) id k
    obtain ⟨k, hk⟩ := h.oneLive id hid
    by_cases hins : o.docID = id ∧ o.action = .insert
    · obtain ⟨rfl, ha⟩ := hins
      obtain ⟨hzero, hrest⟩ := hfresh ha
      exact ⟨k, (OneLiveAt.cons_insert hzero hrest ha k).perm (perm_append_singleton o _).symm⟩
    · refine ⟨k, (hk.append_left (b := [o]) ?_ ?_).perm (perm_append_singleton o _).symm⟩
      · intro p hp hpid hpa
        obtain rfl := mem_singleton.mp hp
        exact hins ⟨hpid, hpa⟩
      · intro p hp hpid hpa
        obtain rfl := mem_singleton.mp hp
        exact hpid ▸ ho.update hpa
  · obtain ⟨hzero, hent⟩ := h.others id hid
    refine ⟨hzero, fun p hp => ?_⟩
    rcases mem_append.mp hp with hp | hp
    · exact hent p hp
    · obtain rfl := mem_singleton.mp hp
      exact fun heq => hid (heq ▸ hown)

theorem storeInv_commit {env : CommitEnv σ ν} (hbatch : 0 < env.batchSize)
    {ops : Ops σ ν} (hops : ∀ o ∈ ops, Resolved st.shard o) (hown : ∀ o ∈ ops, own o.docID)
    (hfresh : ∀ id, (∃ o ∈ ops, o.docID = id ∧ o.action = .insert) → st.Fresh id ∧
      ((slices env.batchSize (ops.map docID)).countP fun b => id ∈ b) ≤ 1) :
    StoreInv own { st with shard := (st.shard.commitOperations env ops).1 } := by
  obtain ⟨-, -, hvers⟩ := IndexShard.commitOperations_spec env fun o ho => (hops o ho).writePath
  have hslices : ∀ b ∈ slices env.batchSize ops, ∀ o ∈ b, o.WritePath st.shard.shardNum :=
    fun b hb o ho => (hops o (mem_of_mem_slices hb ho)).writePath
  refine ⟨ready_commit h.ready hops, fun id hid => ?_, fun id hid => ?_⟩
  · show ∃ k, OneLiveAt (st.shard.commitOperations env ops).1 st.waiting id k
    suffices hflush : ∃ k, OneLiveAt (flushes env.flush 0 (slices env.batchSize ops)
        st.shard) st.waiting id k by
      obtain ⟨k, hk⟩ := hflush
      exact ⟨k, hk.congr fun j => hvers j id⟩
    by_cases hins : ∃ o ∈ ops, o.docID = id ∧ o.action = .insert
    · obtain ⟨⟨hzero, hrest⟩, hone⟩ := hfresh id hins
      rw [← map_slices, countP_map] at hone
      refine oneLive_flushes_fresh 0 hslices hzero (fun b hb o ho hoid ha => ?_) hrest hone
      obtain ⟨j, -, hlive⟩ := (hops o (mem_of_mem_slices hb ho)).update ha
      exact hlive (hoid ▸ hzero j)
    · obtain ⟨k, hk⟩ := h.oneLive id hid
      refine oneLive_flushes 0 hslices (k := k) ?_
      rw [flatten_slices hbatch]
      exact hk.append_left (fun o ho hoid ha => hins ⟨o, ho, hoid, ha⟩)
        fun o ho hoid ha => hoid ▸ (hops o ho).update ha
  · obtain ⟨hzero, hent⟩ := h.others id hid
    have hother : ∀ b ∈ slices env.batchSize ops, ∀ o ∈ b, o.docID ≠ id := fun b hb o ho heq =>
      hid (heq ▸ hown o (mem_of_mem_slices hb ho))
    refine ⟨fun j => ?_, hent⟩
    rw [hvers, versions_flushes_other 0 hslices hother]
    exact hzero j

theorem storeInv_call (env : CallEnv σ ν) (hlast : st.wal.lastIndex + 1 < 2 ^ 64) :
    StoreInv own (st.run (consumeWAL env st).steps) := by
  refine ⟨ready_call_part h.ready hlast (prefix_refl _), fun id hid => ?_, fun id hid => ?_⟩
  · obtain ⟨k, hk⟩ := h.oneLive id hid
    exact oneLive_call env h.ready hlast hk
  · obtain ⟨hzero, hent⟩ := h.others id hid
    refine ⟨fun j => ?_, by rwa [entries_run]⟩
    rw [versions_call_other env h.ready hlast fun o ho => hent o (mem_entries_of_backlog ho)]
    exact hzero j

end OneLiveLemmas

end SeaSearch
