import SeaSearch.Wal.Recovery

/-!
# Retrying a failed flush

When `WriteTo` fails, `ConsumeWAL` returns and the effects performed so far stay. A later call
starts again from the last redo Write record, without a rollback. It is compared with the same call
on the store as it was when the failed flush began.
-/

namespace SeaSearch

open List KeyedBag Traces WalMergeDocs SequentialLemmas ConsumeLemmas PartitionLemmas
  PartialLemmas RecoveryLemmas
open Flush (events reads writes)

variable {σ ν : Type}

/-- Operations on one id that ask for the latest shard, which holds the documents
`m` of the id: writing them makes no difference. They end with a deletion of
vectors, or replace the documents of the id by the one that is there. -/
def Settled (m : Docs σ) (ws : Ops σ ν) : Prop :=
  (∀ l, ws.getLast? = some l → l.action = .deleteVecOnly) ∨
    ∃ v vs l, ws = v :: vs ++ [l] ∧ v.action = .deleteVecOnly ∧ l.action = .insert ∧
      m = {l.document}

/-- The entries from index `lo` to index `hi`. -/
def Wal.range (w : Wal σ ν) (lo hi : Nat) : Ops σ ν :=
  (w.entries.drop (lo - 1)).take (hi + 1 - lo)

/-- The effects `es` of a flush of the entries `failed` do not change what a call
leaves that flushes the batches `later`: the group of the latest shard is not
among them, or for every id the call overwrites the documents in that shard or
writing them made no difference. -/
def Repeatable {B : Bluge σ} (s : IndexShard B) (es : Effects σ ν)
    (failed : Ops σ ν) (later : List (Ops σ ν)) : Prop :=
  shardIDNeedLatest ∈ committed es → ∀ id,
    (∃ b ∈ later, Covered s.shardNum b (s.shardNum - 1) id) ∨
      Settled (s.versions (s.shardNum - 1) id) (opsOf failed shardIDNeedLatest id)

namespace RetryLemmas

variable {B : Bluge σ} {n : Nat} {id : DocID} {env : CallEnv σ ν} {st : Store B ν} {st' : Store B ν}
  {es : Effects σ ν}

theorem versions_flushes (env : CallEnv σ ν) {fs : List (Flush σ ν)}
    (hok : ∀ f ∈ fs, f.Ok st.shard.shardNum) (j : Nat) (id : DocID) :
    (st.run (fs.flatMap (events env st.shard.shardNum))).shard.versions j id =
      runOps (fs.flatMap fun f => flushOps (env.flush f.startID) st.shard.shardNum f.docs j id)
        (st.shard.versions j id) := by
  induction fs generalizing st with
  | nil => rfl
  | cons f fs ih =>
    obtain ⟨st', hshard, hnum, hok', hrun⟩ := run_flushes_cons env hok
    rw [hrun, ih hok', hnum, flatMap_cons, runOps_append, hshard]
    congr 1
    exact versions_flush _ _ (hok f mem_cons_self).addressed j id

theorem versions_closing (st : Store B ν) (i j : Nat) (id : DocID) :
    (st.run (closing env i)).shard.versions j id = st.shard.versions j id := by
  cases h : env.grow <;> simp [closing, h, Store.run, Store.apply]

theorem consumeWAL_congr (env : CallEnv σ ν) (hwal : st'.wal = st.wal)
    (hmax : st'.redoMax = st.redoMax) (hnum : st'.shard.shardNum = st.shard.shardNum) :
    consumeWAL env st' = consumeWAL env st := by
  rw [consumeWAL, consumeWAL, hwal, hmax, hnum]

theorem shardNum_run_congr {c c' : Traced (Event σ ν) Bool} (hc : c' = c)
    (hnum : st'.shard.shardNum = st.shard.shardNum) :
    (st'.run c'.steps).shard.shardNum = (st.run c.steps).shard.shardNum := by
  subst hc
  generalize c'.steps = es
  induction es generalizing st st' with
  | nil => exact hnum
  | cons e es ih =>
    refine ih ?_
    cases e with
    | redo a lo hi => cases a <;> exact hnum
    | effect e | newShard | updateMetadata => simpa [Store.apply] using hnum
    | _ => exact hnum

theorem versions_call_eq_iff (hready : st.Ready) (hlast : st.wal.lastIndex + 1 < 2 ^ 64)
    (hnew : st.redoMax ≠ st.wal.lastIndex) (hwal : st'.wal = st.wal)
    (hmax : st'.redoMax = st.redoMax) (hnum : st'.shard.shardNum = st.shard.shardNum) (j : Nat)
    (id : DocID) :
    (st'.run (consumeWAL env st').steps).shard.versions j id =
        (st.run (consumeWAL env st).steps).shard.versions j id ↔
      (∃ b ∈ batchesFrom env.batchSize [] st.backlog, Covered st.shard.shardNum b j id) ∨
        st'.shard.versions j id = st.shard.versions j id := by
  obtain ⟨fs, steps, hfs, hcall, hvis, -⟩ := consumeWAL_spec env hready hlast hnew
  have hruns (s : Store B ν) (hs : s.shard.shardNum = st.shard.shardNum) :
      (s.run steps).shard.versions j id = runOps (fs.flatMap fun f =>
        flushOps (env.flush f.startID) st.shard.shardNum f.docs j id) (s.shard.versions j id) := by
    rw [← run_visible, hvis, run_append, versions_closing, ← hs]
    exact versions_flushes env (hs ▸ hfs.ok) j id
  have hcovered : (∃ o ∈ fs.flatMap fun f =>
        flushOps (env.flush f.startID) st.shard.shardNum f.docs j id, o.resets = true) ↔
      ∃ b ∈ batchesFrom env.batchSize [] st.backlog, Covered st.shard.shardNum b j id := by
    rw [← hfs.ops]
    constructor
    · rintro ⟨o, ho, hres⟩
      obtain ⟨f, hf, hof⟩ := mem_flatMap.mp ho
      have hok := hfs.ok f hf
      exact ⟨f.ops, mem_map_of_mem hf,
        (resets_flushOps hok.addressed hok.collects hok.writePath _ j id).mp ⟨o, hof, hres⟩⟩
    · rintro ⟨b, hb, hcov⟩
      obtain ⟨f, hf, rfl⟩ := mem_map.mp hb
      have hok := hfs.ok f hf
      obtain ⟨o, ho, hres⟩ :=
        (resets_flushOps hok.addressed hok.collects hok.writePath
          (env.flush f.startID) j id).mpr hcov
      exact ⟨o, mem_flatMap.mpr ⟨f, hf, ho⟩, hres⟩
  rw [consumeWAL_congr env hwal hmax hnum, hcall]
  show (st'.run steps).shard.versions j id = (st.run steps).shard.versions j id ↔ _
  rw [hruns st' hnum, hruns st rfl, runOps_eq_iff, hcovered]

theorem effects_of_prefix {es' : Effects σ ν} {e : Event σ ν} {t : Events σ ν}
    (he : ∀ x, .effect x ≠ e) (h : es.map .effect <+: es'.map .effect ++ e :: t) : es <+: es' := by
  induction es generalizing es' with
  | nil => exact nil_prefix
  | cons x es ih =>
    cases es' with
    | nil => exact absurd (cons_prefix_cons.mp h).1 (he x)
    | cons y es' =>
      obtain ⟨heq, hrest⟩ := cons_prefix_cons.mp h
      cases heq
      exact cons_prefix_cons.mpr ⟨rfl, ih hrest⟩

theorem failed_flush {i : Nat} {fs : List (Flush σ ν)} {p : Events σ ν} {lo hi : Nat}
    (h : p ++ .redo .read lo hi :: es.map .effect <+:
      fs.flatMap (events env n) ++ closing env i) :
    ∃ pre f post, fs = pre ++ f :: post ∧ lo = f.startID ∧ hi = f.minID ∧
      p = pre.flatMap (events env n) ++ reads f.startID f.ops.length ∧
      es <+: f.effects env n := by
  induction fs generalizing p with
  | nil =>
    have hmem : Event.redo .read lo hi ∈ closing env i := h.mem (by simp)
    rcases mem_closing hmem with he | he | he <;> cases he
  | cons f fs ih =>
    rw [flatMap_cons, events, writes] at h
    simp only [append_assoc, cons_append] at h
    obtain ⟨q, rfl, hq⟩ := prefix_append_of_not_mem (by simp [reads]) h
    cases q with
    | nil =>
      -- the record is that of `f`
      obtain ⟨heq, ht⟩ := cons_prefix_cons.mp hq
      cases heq
      exact ⟨[], f, fs, rfl, rfl, rfl, by simp, effects_of_prefix (by simp) ht⟩
    | cons e q =>
      -- it belongs to a later flush
      rw [cons_append] at hq
      obtain ⟨rfl, hrest⟩ := cons_prefix_cons.mp hq
      have hnot : (Event.redo .read lo hi : Event σ ν) ∉ (f.effects env n).map .effect := by simp
      obtain ⟨q', rfl, hq'⟩ := prefix_append_of_not_mem hnot hrest
      cases q' with
      | nil =>
        obtain ⟨heq, -⟩ := cons_prefix_cons.mp hq'
        cases heq
      | cons e q' =>
        rw [cons_append] at hq'
        obtain ⟨rfl, hlater⟩ := cons_prefix_cons.mp hq'
        obtain ⟨pre, f', post, rfl, hlo, hhi, rfl, hes⟩ := ih hlater
        exact ⟨f :: pre, f', post, rfl, hlo, hhi, by simp [events, writes], hes⟩

theorem failed_call (hready : st.Ready) (hlast : st.wal.lastIndex + 1 < 2 ^ 64)
    {p : Events σ ν} {lo hi : Nat}
    (hfail : p ++ .redo .read lo hi :: es.map .effect <+: (consumeWAL env st).steps) :
    ∃ f : Flush σ ν, ∃ os bs, f.Ok (st.run p).shard.shardNum ∧ f.ops = st.wal.range lo hi ∧
      es <+: f.effects env (st.run p).shard.shardNum ∧
      (st.run p).redoMax + f.ops.length ≤ st.wal.lastIndex ∧
      batchesFrom env.batchSize [] os = f.ops :: bs ∧ os <+: (st.run p).backlog ∧
      (st.run p).wal = st.wal ∧ (st.run p).shard.shardNum = st.shard.shardNum ∧
      (recorded p = [] → st.run p = st) := by
  by_cases hnew : st.redoMax = st.wal.lastIndex
  · have hnil : (consumeWAL env st).steps = [] := by simp [consumeWAL, hnew]
    rw [hnil] at hfail
    have := prefix_nil.mp hfail
    simp at this
  obtain ⟨fs, steps, hfs, hcall, hvis, -⟩ := consumeWAL_spec env hready hlast hnew
  rw [hcall] at hfail
  have hv : visible (p ++ .redo .read lo hi :: es.map .effect) <+: visible steps := hfail.filter _
  have heffects : visible (Event.redo .read lo hi :: es.map .effect) =
      Event.redo .read lo hi :: es.map .effect := by
    refine filter_eq_self.mpr fun e he => ?_
    simp only [mem_cons, mem_map] at he
    rcases he with rfl | ⟨x, -, rfl⟩ <;> rfl
  rw [visible_append, heffects, hvis] at hv
  obtain ⟨pre, f, post, rfl, rfl, rfl, hp, hes⟩ := failed_flush hv
  have hrun : st.run p = st.run (pre.flatMap (events env st.shard.shardNum)) := by
    rw [← run_visible, hp, run_append, run_reads]
  obtain ⟨hwal, hnum, -⟩ := run_flushes_frame env st pre
  rw [← hrun] at hwal hnum
  -- the flush starts after the entries recorded before it
  obtain ⟨hcons, hpost⟩ := consecutive_split hfs.consecutive
  obtain ⟨-, -, hrec⟩ := flushes_whole env hcons fun g hg => hfs.ok g (by simp [hg])
  have hmax := redoMax_run hrec
  rw [← hrun] at hmax
  have hlen := length_flatten_ops hcons
  have hlen' := length_flatten_ops hpost
  have hback := st.length_backlog
  have hle := hready.redoMax_le
  have hnext : f.next = f.startID + f.ops.length := rfl
  obtain ⟨os, hos, hbatch⟩ := batches_split (hfs.ops.symm.trans map_append)
  have hrest := rest_prefix_backlog hos hwal (by omega)
  have hfirst : f.ops <+: st.wal.entries.drop (f.startID - 1) := by
    obtain ⟨rest, rfl, -⟩ := batches_tail hbatch
    have hin := (prefix_append f.ops rest).trans (hrest.trans (backlog_prefix_drop _))
    rwa [hwal, show (st.run p).redoMax = f.startID - 1 by omega] at hin
  refine ⟨f, os, _, hnum ▸ hfs.ok f (by simp), ?_, hnum ▸ hes, by omega, hbatch, hrest, hwal, hnum,
    fun hnone => ?_⟩
  · have hpos := length_pos_of_ne_nil (hfs.ok f (by simp)).nonempty
    have hmin : f.minID + 1 - f.startID = f.ops.length := by
      rw [Flush.minID]
      omega
    rw [Wal.range, hmin]
    exact prefix_iff_eq_take.mp hfirst
  · rw [hrun]
    cases pre with
    | nil => rfl
    | cons g pre =>
      rw [← recorded_visible, hp] at hnone
      simp [events, recorded_append, recorded_writes] at hnone

theorem retry_flush_iff (hready : st.Ready) {env' : CallEnv σ ν}
    (hsize : env'.batchSize = env.batchSize) {f : Flush σ ν} (hf : f.Ok st.shard.shardNum)
    (hlen : st.redoMax + f.ops.length ≤ st.wal.lastIndex) {os : Ops σ ν}
    {bs : List (Ops σ ν)} (hos : os <+: st.backlog)
    (hbatch : batchesFrom env.batchSize [] os = f.ops :: bs)
    (hes : es <+: f.effects env st.shard.shardNum) {more : Ops σ ν}
    (hmore : ∀ o ∈ more, o.WritePath st.shard.shardNum)
    (hlast : st.wal.lastIndex + more.length < 2 ^ 64 - 1) (lo hi : Nat) :
    let before := st.extend more
    let after := (st.run (.redo .read lo hi :: es.map .effect)).extend more
    (after.run (consumeWAL env' after).steps).shard.docs =
        (before.run (consumeWAL env' before).steps).shard.docs ↔
      Repeatable st.shard es f.ops (batchesFrom env'.batchSize [] before.backlog) := by
  intro before after
  have hpos := length_pos_of_ne_nil hf.nonempty
  have hafter : after = { before with
      shard := st.shard.runEffects es
      redoRead := some (lo, hi) } := by
    show ((st.apply (.redo .read lo hi)).run (es.map .effect)).extend more = _
    rw [run_effects]
    rfl
  have hwal' : after.wal = before.wal := by rw [hafter]
  have hmax' : after.redoMax = before.redoMax := by rw [hafter]; rfl
  have hnum' : after.shard.shardNum = before.shard.shardNum := by
    rw [hafter]
    exact IndexShard.shardNum_runEffects _ _
  have hlast' : before.wal.lastIndex = st.wal.lastIndex + more.length := lastIndex_extend st more
  have hnew : before.redoMax ≠ before.wal.lastIndex := by
    have : before.redoMax = st.redoMax := rfl
    omega
  have hbefore : before.Ready := ready_extend hready hmore
  -- the first batch of the later call has all entries of the failed flush
  obtain ⟨b, bs', hlater, hpre⟩ := batchesFrom_extends hbatch
    (hos.trans (extend_prefix_backlog st hready.redoMax_le more))
  rw [← hsize] at hlater
  have hb : b ∈ batchesFrom env'.batchSize [] before.backlog := by
    rw [hlater]
    exact mem_cons_self
  have hmem := fun id o (ho : o ∈ opsOf f.ops shardIDNeedLatest id) => mem_opsOf.mp ho
  have hsettled (id : DocID) (m : Docs σ) :
      _ ↔ Settled m (opsOf f.ops shardIDNeedLatest id) :=
    pending_same_iff (fun o ho => hf.writePath o (hmem id o ho).1)
      (fun o ho => decide_eq_false (not_not.mpr (hmem id o ho).2.1))
      (fun o ho => (hmem id o ho).2.2) (env.flush f.startID).now m
  have hpart {j : Nat} {id : DocID} (hdir : ¬ ∃ o ∈ f.ops, o.docID = id ∧ o.shard = j) :=
    versions_part_pending hf.addressed hf.collects hes hdir
  have hdocs (j : Nat) (id : DocID) : after.shard.versions j id =
      (st.shard.runEffects es).versions j id := by rw [hafter]
  rw [IndexShard.docs_ext (shardNum_run_congr (consumeWAL_congr env' hwal' hmax' hnum') hnum')]
  refine (forall_congr' fun j => forall_congr' fun id =>
    versions_call_eq_iff hbefore (by omega) hnew hwal' hmax' hnum' j id).trans ?_
  simp only [hdocs]
  show (∀ j id, (∃ b ∈ _, Covered st.shard.shardNum b j id) ∨
    (st.shard.runEffects es).versions j id = st.shard.versions j id) ↔ _
  constructor
  · intro h hcom id
    rcases h (st.shard.shardNum - 1) id with hcov | heq
    · exact .inl hcov
    · by_cases hdir : ∃ o ∈ f.ops, o.docID = id ∧ o.shard = (st.shard.shardNum - 1 : Nat)
      · exact .inl ⟨b, hb, .inl (covered_mono hpre hdir)⟩
      · rw [hpart hdir, if_pos ⟨hcom, rfl⟩] at heq
        exact .inr ((hsettled id _).mp heq)
  · intro h j id
    by_cases hdir : ∃ o ∈ f.ops, o.docID = id ∧ o.shard = j
    · exact .inl ⟨b, hb, .inl (covered_mono hpre hdir)⟩
    · rw [hpart hdir]
      split
      · next hcom =>
        obtain ⟨hcom, rfl⟩ := hcom
        exact (h hcom id).imp_right (hsettled id _).mpr
      · exact .inr rfl

end RetryLemmas

open RetryLemmas

/-- A call fails in the flush that begins after the events `p`, with the effects
`es` performed. Then entries may be written, and a later call succeeds. It leaves
the documents that the same call leaves on the store as it was before that flush
exactly when the effects are `Repeatable`. When the call has recorded no earlier
flush, that is the store before the failed call. -/
theorem retry_same_documents_iff {B : Bluge σ} {st : Store B ν} (hready : st.Ready)
    {env env' : CallEnv σ ν} (hsize : env'.batchSize = env.batchSize) {p : Events σ ν}
    {lo hi : Nat} {es : Effects σ ν}
    (hfail : p ++ .redo .read lo hi :: es.map .effect <+: (consumeWAL env st).steps)
    {more : Ops σ ν} (hmore : ∀ o ∈ more, o.WritePath st.shard.shardNum)
    (hlast : st.wal.lastIndex + more.length < 2 ^ 64 - 1) :
    let before := (st.run p).extend more
    let after := (st.run (p ++ .redo .read lo hi :: es.map .effect)).extend more
    (recorded p = [] → before = st.extend more) ∧
    ((after.run (consumeWAL env' after).steps).shard.docs =
        (before.run (consumeWAL env' before).steps).shard.docs ↔
      Repeatable (st.run p).shard es (st.wal.range lo hi)
        (batchesFrom env'.batchSize [] before.backlog)) := by
  obtain ⟨f, os, bs, hf, hops, hes, hlen, hbatch, hos, hwal, hnum, hfirst⟩ :=
    failed_call hready (by omega) hfail
  refine ⟨fun hnone => by rw [hfirst hnone], ?_⟩
  have hready' := ready_call_part hready (by omega)
    ((prefix_append p (.redo .read lo hi :: es.map .effect)).trans hfail)
  rw [run_append, ← hops]
  rw [← hwal] at hlen hlast
  rw [← hnum] at hmore
  exact retry_flush_iff hready' hsize hf hlen hos hbatch hes hmore hlast lo hi

def vectorWritten : Store (Bluge.lists Unit) Unit :=
  (Db.init _ _).store.extend [⟨.insert, "a", shardIDNeedLatest, ⟨some 1, [("v", ())], ()⟩⟩]

/-- The first events of the next call, up to the effects `es` of its flush. -/
def failedCall (es : List (Effect Unit Unit)) : List (Event Unit Unit) :=
  [.uint64 .sub 1 0, .uint64 .add 0 1, .addDocument 1] ++ .redo .read 1 1 :: es.map .effect

def commitA : Effect Unit Unit := .commit shardIDNeedLatest 0 ⟨[⟨"a", 1, ()⟩], []⟩

/-- What a call leaves when an earlier one has stopped after `done` and then `more` are written. -/
def retried (done : List (Event Unit Unit)) (more : Ops Unit Unit) :
    Store (Bluge.lists Unit) Unit :=
  let st := (vectorWritten.run done).extend more
  st.run (consumeWAL oneByOne st).steps

def deleteA : Operation Unit Unit := ⟨.delete, "a", 0, ⟨none, [], ()⟩⟩

/-- `WriteTo` fails on the vectors of a document, after its commit. -/
theorem commitA_failed :
    failedCall [.setTimestamp 1, commitA] ++ [.effect (.vectors "v" [("a", ())] [])] <+:
      (consumeWAL oneByOne vectorWritten).steps :=
  ⟨[.redo .write 1 1, .uint64 .add 1 1, .uint64 .add 1 1, .uint64 .sub 2 1, .truncateFront 1,
    .updateMetadata], rfl⟩

/-- The document is deleted before the next call. -/
theorem retry_same_documents_overwritten :
    let done := failedCall [.setTimestamp 1, commitA]
    done <+: (consumeWAL oneByOne vectorWritten).steps ∧
      (retried done [deleteA]).shard.docs = (retried [] [deleteA]).shard.docs := by
  intro done
  have hfail : done <+: (consumeWAL oneByOne vectorWritten).steps :=
    (prefix_append _ _).trans commitA_failed
  have hready : vectorWritten.Ready := by
    refine ⟨by decide, by decide, fun o ho => ?_⟩
    rw [mem_singleton.mp ho]
    exact ⟨rfl, rfl⟩
  have hmore : ∀ o ∈ [deleteA], o.WritePath vectorWritten.shard.shardNum :=
    forall_mem_singleton.2 ⟨le_rfl, Int.one_pos⟩
  refine ⟨hfail, (retry_same_documents_iff hready (rfl : oneByOne.batchSize = _) hfail hmore
    (by decide)).2.mpr fun _ id => ?_⟩
  by_cases hid : "a" = id
  · subst hid
    exact .inl ⟨[deleteA], by decide, .inl ⟨deleteA, mem_cons_self, rfl, rfl⟩⟩
  · refine .inr (.inl fun l hl => ?_)
    obtain ⟨hmem, hid'⟩ := mem_filter.1 (mem_of_getLast? hl)
    rw [mem_singleton.1 hmem] at hid'
    exact absurd (of_decide_eq_true hid').2 hid

/-- `WriteTo` fails on the vectors of a document, after its commit. The next call
stores the document a second time. -/
theorem retry_stores_twice :
    let done := failedCall [.setTimestamp 1, commitA]
    done ++ [.effect (.vectors "v" [("a", ())] [])] <+: (consumeWAL oneByOne vectorWritten).steps ∧
      (retried done []).shard.docs = [{⟨"a", 1, ()⟩, ⟨"a", 1, ()⟩}] ∧
      (retried [] []).shard.docs = [{⟨"a", 1, ()⟩}] :=
  ⟨commitA_failed, by decide, by decide⟩

end SeaSearch
