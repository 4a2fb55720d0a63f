import SeaSearch.Index.Runs

/-!
# What flushes leave of one id

When all operations on an id name the same shard, or all ask for the latest one, each flush writes
the id in one place. What a list of flushes leaves is then a list of placed writes, one for each
batch.
-/

namespace SeaSearch

open List KeyedBag WalMergeDocs SequentialLemmas PartitionLemmas
  PartialLemmas RecoveryLemmas RetryLemmas OneLiveLemmas
open Operation (keyOp)

variable {σ ν : Type}

def wordOp (ws : Ops σ ν) : KeyOp (Document σ) :=
  match ws.head?, ws.getLast? with
  | some o, some l =>
    if l.action = .insert ∧ o.action ≠ .insert then .set l.document else l.keyOp
  | _, _ => .keep

namespace WordLemmas

variable {n : Nat} {id : DocID} {z : Int}

theorem wordOp_concat (o : Operation σ ν) (vs : Ops σ ν) (l : Operation σ ν) :
    wordOp (o :: vs ++ [l]) =
      if l.action = .insert ∧ o.action ≠ .insert then .set l.document else l.keyOp := by
  rw [wordOp, List.getLast?_concat]
  rfl

theorem wordOp_single (o : Operation σ ν) : wordOp [o] = o.keyOp :=
  if_neg fun h => h.2 h.1

theorem mergedOp_eq_wordOp (now : Int) {ws : Ops σ ν} (hw : ∀ o ∈ ws, o.WritePath n)
    (hz : ∀ o ∈ ws, o.shard = z) (hid : ∀ o ∈ ws, o.docID = id) :
    mergedOp now ws = wordOp ws := by
  rcases word_cases ws with rfl | ⟨o, rfl⟩ | ⟨o, vs, l, rfl⟩
  · rfl
  · rw [mergedOp_single (hw o (by simp)), wordOp_single]
  · have hl : l ∈ o :: vs ++ [l] := by simp
    have ho : o ∈ o :: vs ++ [l] := by simp
    have hlid : l.docID = o.docID := (hid l hl).trans (hid o ho).symm
    rw [wordOp_concat]
    by_cases hlat : z = shardIDNeedLatest
    · have hp : ∀ p ∈ o :: vs ++ [l], p.direct = false := fun p hp =>
        decide_eq_false (not_not.mpr ((hz p hp).trans hlat))
      rcases pending_action (hw l hl) (hp l hl) with ⟨hla, hts⟩ | hla
      · rcases pending_action (hw o ho) (hp o ho) with ⟨hoa, -⟩ | hoa
        · rw [mergedOp_insert_insert hlid hla hts hoa]
          simp [hla, hoa, keyOp]
        · rw [mergedOp_vec_insert hlid hla hts hoa]
          simp [hla, hoa]
      · rw [mergedOp_vec_last hla]
        simp [hla, keyOp]
    · have hd : ∀ p ∈ o :: vs ++ [l], p.direct = true := fun p hp =>
        decide_eq_true fun h => hlat ((hz p hp).symm.trans h)
      rw [mergedOp_direct hid hw hd]
      rcases direct_action (hw l hl) (hd l hl) with ⟨hla, -⟩ | hla <;> simp [hla]

end WordLemmas

open WordLemmas

def placedWrite (z : Int) (id : DocID) (n : Nat) (b : Ops σ ν) :
    Nat × KeyOp (Document σ) :=
  (mainShard n z, wordOp (opsOf b z id))

section Flush

variable {B : Bluge σ} {s : IndexShard B} {id : DocID} {z : Int} (hlo : shardIDNeedLatest ≤ z)
include hlo

theorem versions_flush_word {w : WalMergeDocs σ ν} {b : Ops σ ν}
    (hw : w.Addressed s.shardNum) (hc : w.Collects b) (hb : ∀ o ∈ b, o.WritePath s.shardNum)
    (hz : ∀ o ∈ b, o.docID = id → o.shard = z) (env : FlushEnv σ ν) (j : Nat) :
    (s.flush env w).versions j id =
      runPlaced [placedWrite z id s.shardNum b] (fun j => s.versions j id) j := by
  obtain ⟨hnd, hvis⟩ := nodup_visited env.order w
  have hword : mergedOp env.now (opsOf b z id) = wordOp (opsOf b z id) :=
    mergedOp_eq_wordOp env.now (fun o ho => hb o (mem_opsOf.mp ho).1)
      (fun o ho => (mem_opsOf.mp ho).2.1) (fun o ho => (mem_opsOf.mp ho).2.2)
  -- the groups of other shards have no operation on the id
  have hother : ∀ k ∈ (env.order.groups w.groups.entries).map Sigma.fst, k ≠ z →
      groupOp env.now s.shardNum k j (w.doc k id) = .keep := by
    intro k hk hkz
    have hnil : opsOf b k id = [] := by
      rw [eq_nil_iff_forall_not_mem]
      intro o ho
      obtain ⟨hmem, hshard, hid⟩ := mem_opsOf.mp ho
      exact hkz (hshard.symm.trans (hz o hmem hid))
    rw [hc, hnil, groupOp_ofOps _ (hw k ((hvis k).mp hk)).1]
    split <;> rfl
  have hself : groupOp env.now s.shardNum z j (w.doc z id) =
      if j = mainShard s.shardNum z then wordOp (opsOf b z id) else .keep := by
    rw [hc, groupOp_ofOps _ hlo, hword]
  have hnone : z ∉ (env.order.groups w.groups.entries).map Sigma.fst →
      groupOp env.now s.shardNum z j (w.doc z id) = .keep := by
    intro hmem
    rw [hself, ← hword, mergedOp_not_mem env.now hc fun h => hmem ((hvis z).mpr h)]
    split <;> rfl
  rw [versions_flush s env hw, runOps_map_single hnd hother hnone, hself]
  by_cases hj : j = mainShard s.shardNum z
  · simp [runPlaced, placedWrite, hj]
  · simp [runPlaced, placedWrite, hj, Ne.symm hj]

theorem versions_flushes_placed (hbs : ∀ b ∈ bs, ∀ o ∈ b, o.WritePath s.shardNum)
    (hz : ∀ b ∈ bs, ∀ o ∈ b, o.docID = id → o.shard = z) (flush : Nat → FlushEnv σ ν) (i j : Nat) :
    (IndexShard.flushes flush i bs s).versions j id =
      runPlaced (bs.map (placedWrite z id s.shardNum)) (fun j => s.versions j id) j := by
  induction bs generalizing s i with
  | nil => rfl
  | cons b bs ih =>
    have hb := hbs b mem_cons_self
    have hnum := shardNum_flush s (flush i) (empty.addDocuments b)
    have hstep := versions_flush_word hlo (addressed_batch hb) (collects_addDocuments blank_empty b)
      hb (hz b mem_cons_self) (flush i)
    have hrest := ih (s := s.flush (flush i) (empty.addDocuments b))
      (by rw [hnum]; exact fun b' hb' => hbs b' (mem_cons_of_mem _ hb'))
      (fun b' hb' => hz b' (mem_cons_of_mem _ hb')) (i + 1)
    rw [hnum] at hrest
    rw [IndexShard.flushes, hrest, map_cons, ← singleton_append, runPlaced_append]
    simp only [hstep]

end Flush

/-- Several calls of `ConsumeWAL`. -/
def Store.consumeAll {B : Bluge σ} (calls : List (CallEnv σ ν)) (st : Store B ν) : Store B ν :=
  calls.foldl (fun st env => st.run (consumeWAL env st).steps) st

/-- The batches that calls of `ConsumeWAL` flush when the operations `ops` wait, each
with the number of second-layer shards at that time. A call that finds operations may
add a shard at its end. -/
def walBatches : List (CallEnv σ ν) → Nat → Ops σ ν →
    List (Nat × Ops σ ν)
  | [], _, _ => []
  | env :: calls, n, ops =>
    (batchesFrom env.batchSize [] (ops.take maxBatchSize)).map (Prod.mk n) ++
      walBatches calls (if env.grow && !ops.isEmpty then n + 1 else n) (ops.drop maxBatchSize)

namespace WordLemmas

theorem mem_walBatches (hp : p ∈ walBatches calls n ops) : n ≤ p.1 ∧ ∀ o ∈ p.2, o ∈ ops := by
  induction calls generalizing n ops with
  | nil => cases hp
  | cons env calls ih =>
    rcases mem_append.mp hp with hp | hp
    · obtain ⟨b, hb, rfl⟩ := mem_map.mp hp
      refine ⟨le_refl n, fun o ho => mem_of_mem_take (i := maxBatchSize) ?_⟩
      rw [← flatten_batchesFrom env.batchSize (ops.take maxBatchSize)]
      exact mem_flatten.mpr ⟨b, hb, ho⟩
    · obtain ⟨hle, hmem⟩ := ih hp
      refine ⟨le_trans ?_ hle, fun o ho => mem_of_mem_drop (hmem o ho)⟩
      split <;> omega

variable {B : Bluge σ} {st : Store B ν} {id : DocID} {z : Int}

theorem waiting_call (env : CallEnv σ ν) (hst : st.Ready) (hlast : st.wal.lastIndex + 1 < 2 ^ 64) :
    (st.run (consumeWAL env st).steps).waiting = st.waiting.drop maxBatchSize := by
  have hsplit := backlog_append_waiting env hst hlast
  have htake : st.backlog = st.waiting.take maxBatchSize := rfl
  rw [htake] at hsplit
  nth_rw 1 [← take_append_drop maxBatchSize st.waiting] at hsplit
  exact (append_cancel_left hsplit).symm

theorem shardNum_call (env : CallEnv σ ν) (hst : st.Ready) (hlast : st.wal.lastIndex + 1 < 2 ^ 64) :
    (st.run (consumeWAL env st).steps).shard.shardNum =
      if env.grow && !st.waiting.isEmpty then st.shard.shardNum + 1 else st.shard.shardNum := by
  have hlen : st.waiting.length = st.wal.lastIndex - st.redoMax := length_drop
  by_cases hnew : st.redoMax = st.wal.lastIndex
  · have hnil : st.waiting = [] := eq_nil_of_length_eq_zero (by omega)
    have hsteps : (consumeWAL env st).steps = [] := by simp [consumeWAL, hnew]
    rw [hsteps, hnil]
    simp [Store.run]
  · have hle := hst.redoMax_le
    have hne : st.waiting ≠ [] := ne_nil_of_length_pos (by omega)
    obtain ⟨fs, steps, hfs, hcall, hvis, -⟩ := consumeWAL_spec env hst hlast hnew
    obtain ⟨-, hnum, -⟩ := run_flushes_frame env st fs
    rw [hcall, ← run_visible, hvis, run_append]
    cases hg : env.grow <;> simp [closing, hg, Store.run, Store.apply, hne] <;> exact hnum

theorem versions_events_placed (hlo : shardIDNeedLatest ≤ z) (env : CallEnv σ ν)
    {fs : List (Flush σ ν)} (hok : ∀ f ∈ fs, f.Ok st.shard.shardNum)
    (hz : ∀ f ∈ fs, ∀ o ∈ f.ops, o.docID = id → o.shard = z) (j : Nat) :
    (st.run (fs.flatMap (Flush.events env st.shard.shardNum))).shard.versions j id =
      runPlaced ((fs.map Flush.ops).map (placedWrite z id st.shard.shardNum))
        (fun j => st.shard.versions j id) j := by
  induction fs generalizing st with
  | nil => rfl
  | cons f fs ih =>
    have hf := hok f mem_cons_self
    obtain ⟨st', hshard, hnum, hok', hrun⟩ := run_flushes_cons env hok
    have hstep : ∀ j, st'.shard.versions j id = runPlaced [placedWrite z id st.shard.shardNum f.ops]
          (fun j => st.shard.versions j id) j := by
      rw [hshard]
      exact versions_flush_word hlo hf.addressed hf.collects hf.writePath
        (hz f mem_cons_self) (env.flush f.startID)
    rw [hrun, ih hok' fun g hg => hz g (mem_cons_of_mem _ hg), hnum, map_cons,
      map_cons, ← singleton_append, runPlaced_append]
    simp only [hstep]

end WordLemmas

section Calls

variable {B : Bluge σ} {st : Store B ν}

theorem walBatches_append_waiting (calls : List (CallEnv σ ν)) (hst : st.Ready)
    (hlast : st.wal.lastIndex + 1 < 2 ^ 64) :
    st.waiting = ((walBatches calls st.shard.shardNum st.waiting).map Prod.snd).flatten ++
      (st.consumeAll calls).waiting := by
  induction calls generalizing st with
  | nil => rfl
  | cons env calls ih =>
    have hrest := ih (ready_call_part hst hlast (prefix_refl (consumeWAL env st).steps))
      (by rwa [lastIndex_run])
    rw [waiting_call env hst hlast, shardNum_call env hst hlast] at hrest
    have hfirst : (((batchesFrom env.batchSize [] (st.waiting.take maxBatchSize)).map
        (Prod.mk st.shard.shardNum)).map Prod.snd).flatten = st.waiting.take maxBatchSize := by
      rw [map_map]
      exact (congrArg List.flatten (map_id _)).trans (flatten_batchesFrom _ _)
    rw [walBatches, map_append, flatten_append, hfirst, append_assoc]
    show _ = _ ++ (_ ++ ((st.run (consumeWAL env st).steps).consumeAll calls).waiting)
    rw [← hrest, take_append_drop]

theorem versions_consumeAll_other {id : DocID} (calls : List (CallEnv σ ν)) (hst : st.Ready)
    (hlast : st.wal.lastIndex + 1 < 2 ^ 64) (hid : ∀ o ∈ st.wal.entries, o.docID ≠ id) (j : Nat) :
    (st.consumeAll calls).shard.versions j id = st.shard.versions j id := by
  induction calls generalizing st with
  | nil => rfl
  | cons env calls ih =>
    have hentries := entries_run st (consumeWAL env st).steps
    exact (ih (ready_call_part hst hlast (prefix_refl _)) (by rwa [lastIndex_run])
      (hentries ▸ hid)).trans (versions_call_other env hst hlast
        (fun o ho => hid o (mem_entries_of_backlog ho)) j)

theorem versions_consumeAll {id : DocID} {z : Int} (hlo : shardIDNeedLatest ≤ z)
    (calls : List (CallEnv σ ν)) (hst : st.Ready) (hlast : st.wal.lastIndex + 1 < 2 ^ 64)
    (hz : ∀ o ∈ st.waiting, o.docID = id → o.shard = z) (j : Nat) :
    (st.consumeAll calls).shard.versions j id =
      runPlaced ((walBatches calls st.shard.shardNum st.waiting).map fun p =>
        placedWrite z id p.1 p.2) (fun j => st.shard.versions j id) j := by
  induction calls generalizing st with
  | nil => rfl
  | cons env calls ih =>
    have hwait := waiting_call env hst hlast
    have hrest := ih (ready_call_part hst hlast (prefix_refl (consumeWAL env st).steps))
      (by rwa [lastIndex_run]) (by rw [hwait]; exact fun o ho => hz o (mem_of_mem_drop ho))
    rw [hwait, shardNum_call env hst hlast] at hrest
    obtain ⟨fs, hok, hops, hvers⟩ := call_flushes env hst hlast
    have hflush : ∀ j, (st.run (consumeWAL env st).steps).shard.versions j id =
        runPlaced (((batchesFrom env.batchSize [] (st.waiting.take maxBatchSize)).map
          (Prod.mk st.shard.shardNum)).map fun p => placedWrite z id p.1 p.2)
          (fun j => st.shard.versions j id) j := by
      intro j
      rw [hvers, versions_events_placed hlo env hok, hops, map_map]
      · rfl
      · intro f hf o ho
        have hin : o ∈ (fs.map Flush.ops).flatten :=
          mem_flatten.mpr ⟨f.ops, mem_map_of_mem hf, ho⟩
        rw [hops, flatten_batchesFrom] at hin
        exact hz o (mem_of_mem_take hin)
    simp only [hflush] at hrest
    rw [walBatches, map_append, runPlaced_append]
    exact hrest

end Calls

def endsWithInsert (ws : Ops σ ν) : Bool :=
  ws.getLast?.any fun o => o.action = .insert

def startsWithDeletion (ws : Ops σ ν) : Bool :=
  ws.head?.any fun o => o.action = .deleteVecOnly

/-- The words of an id that end with an insert, among the operations in batches that
ask for the latest shard. Each is listed with the number of shards at its time. -/
def insertingWords (id : DocID) (bs : List (Nat × Ops σ ν)) :
    List (Nat × Ops σ ν) :=
  (bs.map fun p => (p.1, opsOf p.2 shardIDNeedLatest id)).filter fun p => endsWithInsert p.2

/-- The last of the inserting words is the only one, or it starts with a deletion of
vectors and the others were written to the same shard. -/
def OneInserted (id : DocID) (bs : List (Nat × Ops σ ν)) : Prop :=
  ∀ pre w, insertingWords id bs = pre ++ [w] →
    pre = [] ∨ (startsWithDeletion w.2 = true ∧ ∀ p ∈ pre, p.1 = w.1)

namespace WordLemmas

variable {id : DocID} {z : Int}

theorem opsOf_append (b b' : Ops σ ν) (z : Int) (id : DocID) :
    opsOf (b ++ b') z id = opsOf b z id ++ opsOf b' z id := filter_append ..

theorem word_eq_nil_or_concat (ws : Ops σ ν) :
    ws = [] ∨ ∃ vs l, ws = vs ++ [l] := by
  rcases eq_nil_or_concat ws with h | ⟨vs, l, h⟩
  · exact .inl h
  · exact .inr ⟨vs, l, h.trans concat_eq_append⟩

theorem wordOp_direct (hl : l.action ≠ .insert) : wordOp (vs ++ [l]) = l.keyOp := by
  cases vs with
  | nil => exact wordOp_single l
  | cons o vs =>
    rw [wordOp_concat]
    exact if_neg fun h => hl h.1

theorem words_direct {bs : List (Ops σ ν)}
    (hops : ∀ b ∈ bs, ∀ o ∈ b, o.shard = z → o.docID = id →
      o.action = .update ∨ o.action = .delete) (m : Docs σ) :
    runOps (bs.map fun b => wordOp (opsOf b z id)) m = match (opsOf bs.flatten z id).getLast? with
      | none => m
      | some l => l.keyOp.run m := by
  induction bs using List.reverseRecOn with
  | nil => rfl
  | append_singleton bs b ih =>
    have hbs := ih fun b' hb' => hops b' (mem_append_left _ hb')
    rw [map_append, runOps_append, hbs, flatten_append, opsOf_append, flatten_singleton]
    show (wordOp (opsOf b z id)).run _ = _
    rcases word_eq_nil_or_concat (opsOf b z id) with hnil | ⟨vs, l, hl⟩
    · rw [hnil, append_nil]
      rfl
    · have hmem : l ∈ opsOf b z id := hl ▸ mem_append_right vs mem_cons_self
      obtain ⟨hb, hz, hid⟩ := mem_opsOf.mp hmem
      have hact := hops b (mem_append_right _ mem_cons_self) l hb hz hid
      have hres : l.keyOp.resets = true := by
        rcases hact with h | h <;> simp [keyOp, h, KeyOp.resets]
      rw [hl, wordOp_direct (by rcases hact with h | h <;> simp [h]), ← append_assoc,
        List.getLast?_concat]
      exact run_of_resets hres _ _

theorem exists_of_endsWithInsert (h : endsWithInsert ws = true) : ∃ o ∈ ws, o.action = .insert := by
  unfold endsWithInsert at h
  cases hl : ws.getLast? with
  | none =>
    rw [hl] at h
    cases h
  | some l =>
    rw [hl] at h
    exact ⟨l, mem_of_getLast? hl, by simpa using h⟩

theorem insertingWords_eq_nil {bs : List (Nat × Ops σ ν)}
    (h : ∀ p ∈ bs, ∀ o ∈ p.2, o.docID = id → o.action ≠ .insert) : insertingWords id bs = [] := by
  refine filter_eq_nil_iff.mpr fun q hq hend => ?_
  obtain ⟨p, hp, rfl⟩ := mem_map.mp hq
  obtain ⟨o, ho, hins⟩ := exists_of_endsWithInsert hend
  obtain ⟨hmem, -, hid⟩ := mem_opsOf.mp ho
  exact h p hp o hmem hid hins

section Pending

variable {bs : List (Nat × Ops σ ν)}
  (hops : ∀ p ∈ bs, ∀ o ∈ p.2, o.docID = id → o.action = .insert ∨ o.action = .deleteVecOnly)
include hops

theorem wordOp_pending (hp : p ∈ bs) : let ws := opsOf p.2 shardIDNeedLatest id
    (endsWithInsert ws = false ∧ wordOp ws = .keep) ∨ ∃ vs l, ws = vs ++ [l] ∧ l.action = .insert ∧
        wordOp ws = if startsWithDeletion ws then .set l.document else .add l.document := by
  intro ws
  have hact : ∀ o ∈ ws, o.action = .insert ∨ o.action = .deleteVecOnly := fun o ho => by
    obtain ⟨hmem, -, hid⟩ := mem_opsOf.mp ho
    exact hops p hp o hmem hid
  rcases word_cases ws with hnil | ⟨o, ho⟩ | ⟨o, vs, l, hl⟩
  · rw [hnil]
    exact .inl ⟨rfl, rfl⟩
  · rw [ho, wordOp_single]
    rcases hact o (ho ▸ mem_cons_self) with ha | ha
    · exact .inr ⟨[], o, rfl, ha, by simp [startsWithDeletion, keyOp, ha]⟩
    · exact .inl ⟨by simp [endsWithInsert, ha], by simp [keyOp, ha]⟩
  · rw [hl, wordOp_concat]
    have hmem : ∀ q, q = o ∨ q = l → q ∈ ws := by
      rintro q (rfl | rfl) <;> simp [hl]
    rcases hact l (hmem l (.inr rfl)) with hla | hla
    · refine .inr ⟨o :: vs, l, rfl, hla, ?_⟩
      rcases hact o (hmem o (.inl rfl)) with hoa | hoa
      · simp [startsWithDeletion, hla, hoa, keyOp]
      · simp [startsWithDeletion, hla, hoa]
    · left
      rw [endsWithInsert, List.getLast?_concat]
      simp [hla, keyOp]

theorem placed_pending (hp : p ∈ bs) :
    (placedWrite shardIDNeedLatest id p.1 p.2).2 ≠ .clear ∧
      (placedWrite shardIDNeedLatest id p.1 p.2).2.writes =
        endsWithInsert (opsOf p.2 shardIDNeedLatest id) := by
  rcases wordOp_pending hops hp with ⟨hend, hword⟩ | ⟨vs, l, hws, hla, hword⟩
  · rw [placedWrite, hword, hend]
    exact ⟨nofun, rfl⟩
  · have hend : endsWithInsert (opsOf p.2 shardIDNeedLatest id) = true := by
      rw [hws, endsWithInsert, List.getLast?_concat]
      simpa using hla
    rw [placedWrite, hword, hend]
    split <;> exact ⟨nofun, rfl⟩

theorem filter_placed :
    (bs.map fun p => placedWrite shardIDNeedLatest id p.1 p.2).filter (fun p => p.2.writes) =
      (insertingWords id bs).map fun p => (p.1 - 1, wordOp p.2) := by
  rw [insertingWords, filter_map, filter_map, map_map]
  have hfilter : bs.filter ((fun p => p.2.writes) ∘
      fun p => placedWrite shardIDNeedLatest id p.1 p.2) =
      bs.filter ((fun p => endsWithInsert p.2) ∘ fun p => (p.1, opsOf p.2 shardIDNeedLatest id)) :=
    filter_congr fun p hp => (placed_pending hops hp).2
  rw [hfilter]
  refine map_congr_left fun p _ => ?_
  simp [placedWrite, mainShard, shardIDNeedLatest]

theorem insertingWords_last (hl : opsOf (bs.map Prod.snd).flatten shardIDNeedLatest id = vs ++ [l])
    (ha : l.action = .insert) :
    ∃ pre w us, insertingWords id bs = pre ++ [w] ∧ w.2 = us ++ [l] ∧
      ∃ p ∈ bs, w = (p.1, opsOf p.2 shardIDNeedLatest id) := by
  induction bs using List.reverseRecOn generalizing vs with
  | nil => simp [opsOf] at hl
  | append_singleton bs p ih =>
    rw [map_append, flatten_append, opsOf_append] at hl
    have hp : (List.map Prod.snd [p]).flatten = p.2 := by simp
    rw [hp] at hl
    rcases word_eq_nil_or_concat (opsOf p.2 shardIDNeedLatest id) with hnil | ⟨us, l', hl'⟩
    · rw [hnil, append_nil] at hl
      obtain ⟨pre, w, us, hw, hwl, q, hq, hwq⟩ :=
        ih (fun q hq => hops q (mem_append_left _ hq)) hl
      refine ⟨pre, w, us, ?_, hwl, q, mem_append_left _ hq, hwq⟩
      rw [insertingWords, map_append, filter_append, ← insertingWords, hw]
      simp [hnil, endsWithInsert]
    · rw [hl', ← append_assoc] at hl
      obtain ⟨-, hlast⟩ := append_inj' hl rfl
      obtain rfl : l' = l := by simpa using hlast
      refine ⟨insertingWords id bs, (p.1, opsOf p.2 shardIDNeedLatest id), us, ?_, hl',
        p, by simp, rfl⟩
      rw [insertingWords, map_append, filter_append, ← insertingWords]
      congr 1
      simp [hl', endsWithInsert, ha]

end Pending

end WordLemmas

section Pending

variable {id : DocID} {bs : List (Nat × Ops σ ν)}
  (hops : ∀ p ∈ bs, ∀ o ∈ p.2, o.docID = id → o.action = .insert ∨ o.action = .deleteVecOnly)
include hops

theorem placed_ne_clear :
    ∀ q ∈ bs.map fun p => placedWrite shardIDNeedLatest id p.1 p.2, q.2 ≠ .clear := by
  intro q hq
  obtain ⟨p, hp, rfl⟩ := mem_map.mp hq
  exact (placed_pending hops hp).1

theorem words_none_iff :
    (∀ j, runPlaced (bs.map fun p => placedWrite shardIDNeedLatest id p.1 p.2) (fun _ => 0) j = 0) ↔
      insertingWords id bs = [] := by
  rw [runPlaced_eq_zero_iff (placed_ne_clear hops), ← map_eq_nil_iff, ← filter_placed hops,
    filter_eq_nil_iff]
  simp only [Bool.not_eq_true]

theorem words_last_iff (hpos : ∀ p ∈ bs, 0 < p.1)
    (hl : opsOf (bs.map Prod.snd).flatten shardIDNeedLatest id = vs ++ [l])
    (ha : l.action = .insert) :
    ∃ i, l.document ∈
        runPlaced (bs.map fun p => placedWrite shardIDNeedLatest id p.1 p.2) (fun _ => 0) i ∧
      ((runPlaced (bs.map fun p => placedWrite shardIDNeedLatest id p.1 p.2) (fun _ => 0) i =
          {l.document} ∧
        ∀ j, j ≠ i →
          runPlaced (bs.map fun p => placedWrite shardIDNeedLatest id p.1 p.2) (fun _ => 0) j = 0) ↔
      OneInserted id bs) := by
  obtain ⟨pre, w, us, hwords, hwl, p, hp, rfl⟩ := insertingWords_last hops hl ha
  have hpre : ∀ q ∈ pre, 0 < q.1 := by
    intro q hq
    have hmem : q ∈ insertingWords id bs := hwords ▸ mem_append_left _ hq
    obtain ⟨r, hr, rfl⟩ := mem_map.mp (mem_filter.mp hmem).1
    exact hpos r hr
  have hword : wordOp (opsOf p.2 shardIDNeedLatest id) =
      if startsWithDeletion (opsOf p.2 shardIDNeedLatest id) then .set l.document
      else .add l.document := by
    simp only at hwl
    rcases wordOp_pending hops hp with ⟨hend, -⟩ | ⟨vs', l', hws, -, hword⟩
    · rw [hwl, endsWithInsert, List.getLast?_concat] at hend
      simp [ha] at hend
    · obtain ⟨-, hlast⟩ := append_inj' (hwl.symm.trans hws) rfl
      obtain rfl : l = l' := by simpa using hlast
      exact hword
  have hclear := placed_ne_clear hops
  have hwrites := filter_placed hops
  rw [hwords, map_append] at hwrites
  refine ⟨p.1 - 1, ?_, ?_⟩
  · rw [← runPlaced_filter_writes hclear, hwrites]
    show _ ∈ runPlaced (_ ++ [(p.1 - 1, _)]) _ _
    rw [runPlaced_concat_self, hword]
    split <;> simp
  · rw [runPlaced_single_iff hclear hwrites (by rw [hword]; split <;> simp), map_eq_nil_iff]
    have hset : wordOp (opsOf p.2 shardIDNeedLatest id) = .set l.document ↔
        startsWithDeletion (opsOf p.2 shardIDNeedLatest id) = true := by
      rw [hword]
      split <;> simp_all
    have hplaces : (∀ q ∈ pre.map fun p => (p.1 - 1, wordOp p.2), q.1 = p.1 - 1) ↔
        ∀ q ∈ pre, q.1 = p.1 := by
      simp only [forall_mem_map]
      refine forall₂_congr fun q hq => ?_
      have := hpre q hq
      have := hpos p hp
      omega
    rw [hplaces, hset]
    constructor
    · intro h pre' w' hsplit
      obtain ⟨rfl, hw'⟩ := append_inj' (hwords.symm.trans hsplit) rfl
      obtain rfl : (p.1, opsOf p.2 shardIDNeedLatest id) = w' := by simpa using hw'
      exact h
    · exact fun h => h pre _ hwords

end Pending

end SeaSearch
