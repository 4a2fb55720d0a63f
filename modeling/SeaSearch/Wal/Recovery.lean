import SeaSearch.Wal.Partial
import SeaSearch.Wal.Rollback

/-!
# Crash recovery

The process may stop after any event of `ConsumeWAL`. When the WAL is opened again, `Rollback` takes
back what the interrupted flush has inserted, and the next calls start from the last redo Write
record.
-/

namespace SeaSearch

open List Traces SequentialLemmas ConsumeLemmas PartitionLemmas
  PartialLemmas
open Flush (events reads writes)

variable {σ ν : Type}

/-! ## Runs with crashes -/

/-- A store, whether its WAL is open, and the reference: a shard on which the
recorded entries have been applied one at a time. -/
structure Db (B : Bluge σ) (ν : Type) where
  store : Store B ν
  opened : Bool := true
  ref : IndexShard B

/-- What happens to a store:
* `write`: an entry is written to the WAL;
* `call`: a whole call of `ConsumeWAL`;
* `crash`: a call that stops after the events `done`;
* `reopen`: the WAL is opened again, with `Rollback`;
* `crashReopen`: a `Rollback` that stops after the events `done`. -/
inductive Action (σ ν : Type)
  | write (o : Operation σ ν)
  | call (env : CallEnv σ ν)
  | crash (env : CallEnv σ ν) (done : Events σ ν)
  | reopen (env : FlushEnv σ ν)
  | crashReopen (env : FlushEnv σ ν) (done : Events σ ν)

def addShard {B : Bluge σ} (ref : IndexShard B) : Event σ ν → IndexShard B
  | .newShard => ref.newShard
  | _ => ref

/-- The surroundings in which the reference applies an entry. They do not matter
for its documents. -/
def refEnv (σ ν : Type) : FlushEnv σ ν := ⟨0, [], .listed σ ν⟩

namespace Db

variable {B : Bluge σ}

def init (B : Bluge σ) (ν : Type) : Db B ν :=
  { store := { shard := IndexShard.new B }, ref := IndexShard.new B }

/-- The reference after the events `done` of a call: the entries they have
recorded are applied one at a time, and a shard is added when the call adds one. -/
def advance (ref : IndexShard B) (st : Store B ν) (done : Events σ ν) : IndexShard B :=
  let entries := (st.wal.entries.drop st.redoMax).take ((st.run done).redoMax - st.redoMax)
  done.foldl addShard (ref.sequential (refEnv σ ν) entries)

def Enabled (batchSize : Nat) (d : Db B ν) : Action σ ν → Prop
  | .write o => o.WritePath d.store.shard.shardNum
  | .call env => d.opened = true ∧ env.batchSize = batchSize
  | .crash env done =>
    d.opened = true ∧ env.batchSize = batchSize ∧ done <+: (consumeWAL env d.store).steps
  | .reopen _ => d.opened = false
  | .crashReopen env done => d.opened = false ∧ done <+: (rollback env d.store).steps

def act (d : Db B ν) : Action σ ν → Db B ν
  | .write o => { d with store := d.store.extend [o] }
  | .call env =>
    { d with
      store := d.store.run (consumeWAL env d.store).steps
      ref := advance d.ref d.store (consumeWAL env d.store).steps }
  | .crash _ done =>
    { store := d.store.run done, opened := false, ref := advance d.ref d.store done }
  | .reopen env => { d with store := d.store.run (rollback env d.store).steps, opened := true }
  | .crashReopen _ done => { d with store := d.store.run done }

end Db

/-- The states that actions lead to, all of them meeting the condition `ok`. -/
inductive Recovers {B : Bluge σ} (batchSize : Nat) (ok : Db B ν → Action σ ν → Prop) :
    Db B ν → Prop
  | init : Recovers batchSize ok (Db.init B ν)
  | act {d : Db B ν} (a : Action σ ν) :
      Recovers batchSize ok d → d.Enabled batchSize a → ok d a → Recovers batchSize ok (d.act a)

/-- The shard that entries leave which are applied one at a time, in order, with
second-layer shards added in between. -/
inductive Applied (B : Bluge σ) : Ops σ ν → IndexShard B → Prop
  | new : Applied B [] (IndexShard.new B)
  | entry {ops : Ops σ ν} {s : IndexShard B} {o : Operation σ ν} (env : FlushEnv σ ν) :
      Applied B ops s → o.WritePath s.shardNum → Applied B (ops ++ [o]) (s.applyOne env o)
  | newShard {ops : Ops σ ν} {s : IndexShard B} :
      Applied B ops s → Applied B ops s.newShard

/-! ## The condition on the actions -/

def AllMergeable {B : Bluge σ} (ref : IndexShard B) : List (Ops σ ν) → Prop
  | [] => True
  | b :: bs =>
    (∀ id, Mergeable (ref.versions (ref.shardNum - 1) id)
      (reaching ref.shardNum b (ref.shardNum - 1) id)) ∧
    AllMergeable (ref.sequential (refEnv σ ν) b) bs

def Store.unrecorded {B : Bluge σ} (st : Store B ν) : Ops σ ν :=
  match st.redoRead with
  | none => []
  | some (lo, hi) =>
    if st.redoRead = st.redoWrite then [] else (st.wal.entries.drop (lo - 1)).take (hi + 1 - lo)

/-- The shard groups committed after the last redo record, from those before an
event. -/
def openGroupsStep (gs : List Int) : Event σ ν → List Int
  | .redo _ _ _ => []
  | .effect (.commit g _ _) => gs ++ [g]
  | _ => gs

def openGroups (es : Events σ ν) : List Int := es.foldl openGroupsStep []

/-- The batches of a call can be merged, and a crash between the commit of the
latest shard's group and the redo Write record does not meet entries that are
inserted again. -/
def Db.Meets {B : Bluge σ} (d : Db B ν) : Action σ ν → Prop
  | .call env => AllMergeable d.ref (batchesFrom env.batchSize [] d.store.backlog)
  | .crash env done =>
    AllMergeable d.ref (batchesFrom env.batchSize [] d.store.backlog) ∧
    (shardIDNeedLatest ∈ openGroups done →
      ∀ id, ¬ AddsAgain (opsOf (d.store.run done).unrecorded shardIDNeedLatest id))
  | _ => True

/-! ## The documents during a call -/

structure Base {B : Bluge σ} (st : Store B ν) (ref : IndexShard B) (c : Ops σ ν) :
    Prop where
  num : ref.shardNum = st.shard.shardNum
  docs : ∀ j id, st.shard.versions j id = ref.versions j id ∨ Covered st.shard.shardNum c j id

namespace RecoveryLemmas

variable {B : Bluge σ} {n : Nat} {env : CallEnv σ ν} {st : Store B ν} {ref : IndexShard B}
  {c : Ops σ ν} {f : Flush σ ν} {bs bs' : List (Ops σ ν)}

theorem run_reads (st : Store B ν) (i k : Nat) : st.run (reads i k) = st := by
  induction k generalizing i with
  | zero => rfl
  | succ k ih => exact ih (i + 1)

theorem run_effects (st : Store B ν) (es : Effects σ ν) :
    st.run (es.map .effect) = { st with shard := st.shard.runEffects es } := by
  induction es generalizing st with
  | nil => rfl
  | cons e es ih => exact ih _

theorem run_writes (st : Store B ν) (f : Flush σ ν) :
    st.run (f.writes env st.shard.shardNum) = { st with
        shard := st.shard.flush (env.flush f.startID) f.docs
        redoRead := some (f.startID, f.minID)
        redoWrite := some (f.startID, f.minID) } := by
  rw [writes, run_append]
  show ((st.apply (.redo .read f.startID f.minID)).run _).run _ = _
  rw [run_effects]
  rfl

theorem run_events (env : CallEnv σ ν) (st : Store B ν) (f : Flush σ ν) :
    st.run (f.events env st.shard.shardNum) = { st with
        shard := st.shard.flush (env.flush f.startID) f.docs
        redoRead := some (f.startID, f.minID)
        redoWrite := some (f.startID, f.minID) } := by
  rw [events, run_append, run_reads, run_writes]

theorem shardNum_run_events (env : CallEnv σ ν) (st : Store B ν) (f : Flush σ ν) :
    (st.run (f.events env st.shard.shardNum)).shard.shardNum = st.shard.shardNum := by
  rw [run_events]
  exact shardNum_flush _ _ _

theorem run_flushes_cons (env : CallEnv σ ν) (hok : ∀ g ∈ f :: fs, g.Ok st.shard.shardNum) :
    ∃ st' : Store B ν, st'.shard = st.shard.flush (env.flush f.startID) f.docs ∧
      st'.shard.shardNum = st.shard.shardNum ∧ (∀ g ∈ fs, g.Ok st'.shard.shardNum) ∧
      st.run ((f :: fs).flatMap (events env st.shard.shardNum)) =
        st'.run (fs.flatMap (events env st'.shard.shardNum)) := by
  have hshard : (st.run (f.events env st.shard.shardNum)).shard =
      st.shard.flush (env.flush f.startID) f.docs := by rw [run_events]
  have hnum := shardNum_run_events env st f
  refine ⟨_, hshard, hnum, ?_, ?_⟩
  · rw [hnum]
    exact fun g hg => hok g (mem_cons_of_mem _ hg)
  · rw [hnum, flatMap_cons, run_append]

theorem not_covered_nil (n j : Nat) (id : DocID) :
    ¬ Covered n ([] : Ops σ ν) j id := by
  rintro (⟨o, ho, -⟩ | ⟨-, v, vs, l, h, -⟩)
  · cases ho
  · simp [opsOf] at h

theorem base_exact (h : Base st ref c) (hnil : c = []) (j : Nat) (id : DocID) :
    st.shard.versions j id = ref.versions j id :=
  (h.docs j id).resolve_right (hnil ▸ not_covered_nil _ j id)

theorem base_of_docs (hnum : ref.shardNum = st.shard.shardNum)
    (hdocs : st.shard.docs = ref.docs) (c : Ops σ ν) : Base st ref c :=
  ⟨hnum, fun j id => .inl ((IndexShard.docs_ext hnum.symm).mp hdocs j id)⟩

section Flush

variable (hbase : Base st ref c) (hf : f.Ok st.shard.shardNum) (hpre : c <+: f.ops)
  (hmerge : ∀ id, Mergeable (ref.versions (ref.shardNum - 1) id)
    (reaching ref.shardNum f.ops (ref.shardNum - 1) id))

include hbase hf hpre hmerge

theorem base_flush (env : CallEnv σ ν) :
    Base (st.run (f.events env st.shard.shardNum)) (ref.sequential (refEnv σ ν) f.ops) [] := by
  rw [hbase.num] at hmerge
  have hdocs := docs_flush_covered hf.addressed hf.collects hf.writePath hpre hbase.docs hmerge
    hbase.num (env.flush f.startID) (refEnv σ ν)
  rw [run_events]
  refine base_of_docs ?_ hdocs []
  rw [shardNum_sequential, hbase.num, shardNum_flush]

theorem base_part {es : Effects σ ν}
    (hes : es <+: f.effects env st.shard.shardNum) (hsafe : shardIDNeedLatest ∈ committed es →
      ∀ id, ¬ AddsAgain (opsOf f.ops shardIDNeedLatest id)) (r : Option (Nat × Nat)) :
    Base { st with shard := st.shard.runEffects es, redoRead := r } ref f.ops := by
  rw [hbase.num] at hmerge
  refine ⟨hbase.num.trans (IndexShard.shardNum_runEffects _ _).symm, fun j id => ?_⟩
  simpa only [IndexShard.shardNum_runEffects] using versions_part_covered hf.addressed hf.collects
    hf.writePath hpre hbase.docs hmerge hes hsafe j id

end Flush

/-! ## The flushes before the crash -/

theorem sequential_append (ref : IndexShard B) (env : FlushEnv σ ν)
    (os os' : Ops σ ν) :
    ref.sequential env (os ++ os') = (ref.sequential env os).sequential env os' :=
  foldl_append

theorem allMergeable_append (h : AllMergeable ref (bs ++ bs')) :
    AllMergeable (ref.sequential (refEnv σ ν) bs.flatten) bs' := by
  induction bs generalizing ref with
  | nil => exact h
  | cons b bs ih =>
    rw [flatten_cons, sequential_append]
    exact ih h.2

theorem allMergeable_left (h : AllMergeable ref (bs ++ bs')) : AllMergeable ref bs := by
  induction bs generalizing ref with
  | nil => trivial
  | cons b bs ih => exact ⟨h.1, ih h.2⟩

theorem run_flushes_frame (env : CallEnv σ ν) (st : Store B ν) (fs : List (Flush σ ν)) :
    let st' := st.run (fs.flatMap (events env st.shard.shardNum))
    st'.wal = st.wal ∧ st'.shard.shardNum = st.shard.shardNum ∧
      (fs ≠ [] → st'.redoRead = st'.redoWrite) := by
  induction fs generalizing st with
  | nil => exact ⟨rfl, rfl, fun h => absurd rfl h⟩
  | cons f fs ih =>
    have hnum := shardNum_run_events env st f
    obtain ⟨hwal, hn, hredo⟩ := ih (st.run (f.events env st.shard.shardNum))
    rw [hnum] at hwal hn hredo
    rw [flatMap_cons, run_append]
    refine ⟨hwal.trans (by rw [run_events]), hn, fun _ => ?_⟩
    cases fs with
    | nil =>
      show (st.run (f.events env st.shard.shardNum)).redoRead = _
      rw [run_events]
      rfl
    | cons g fs => exact hredo (by simp)

theorem run_flushes (env : CallEnv σ ν) (hbase : Base st ref c) (hpre : c <+: f.ops)
    (hok : ∀ g ∈ f :: fs, g.Ok st.shard.shardNum)
    (hmerge : AllMergeable ref ((f :: fs).map Flush.ops)) :
    Base (st.run ((f :: fs).flatMap (events env st.shard.shardNum)))
      (ref.sequential (refEnv σ ν) ((f :: fs).map Flush.ops).flatten) [] := by
  obtain ⟨hm, hms⟩ := hmerge
  have hstep := base_flush hbase (hok f mem_cons_self) hpre hm env
  rw [flatMap_cons, run_append, map_cons, flatten_cons, sequential_append]
  induction fs generalizing st ref c f with
  | nil => exact hstep
  | cons g fs ih =>
    have hnum := shardNum_run_events env st f
    have hok' : ∀ g' ∈ g :: fs, g'.Ok (st.run (f.events env st.shard.shardNum)).shard.shardNum := by
      rw [hnum]
      exact fun g' hg' => hok g' (mem_cons_of_mem _ hg')
    have hnext := ih hstep nil_prefix hok' hms.1 hms.2
      (base_flush hstep (hok' g mem_cons_self) nil_prefix hms.1 env)
    rw [hnum, ← sequential_append, ← run_append] at hnext
    exact hnext

end RecoveryLemmas

open RecoveryLemmas

/-! ## The invariant -/

def Store.Interrupted {B : Bluge σ} (batchSize : Nat) (st : Store B ν)
    (b : Ops σ ν) : Prop :=
  st.redoRead = some (st.redoMax + 1, st.redoMax + b.length) ∧
    ∃ os bs, batchesFrom batchSize [] os = b :: bs ∧ os <+: st.backlog

structure DocInv {B : Bluge σ} (batchSize : Nat) (st : Store B ν) (ref : IndexShard B) : Prop where
  applied : Applied B (st.wal.entries.take st.redoMax) ref
  redo : st.redoRead = st.redoWrite ∨ ∃ b, st.Interrupted batchSize b
  base : Base st ref st.unrecorded

namespace RecoveryLemmas

variable {B : Bluge σ} {batchSize : Nat} {env : CallEnv σ ν} {st : Store B ν}
  {ref : IndexShard B} {os b ops : Ops σ ν} {bs : List (Ops σ ν)}
  {fs post : List (Flush σ ν)} {i : Nat} {st' : Store B ν} {done : Events σ ν}

theorem unrecorded_of_eq (h : st.redoRead = st.redoWrite) : st.unrecorded = [] := by
  unfold Store.unrecorded
  split
  · rfl
  · rw [if_pos h]

theorem first_batch_ne_nil (h : batchesFrom batchSize [] os = b :: bs) : b ≠ [] := by
  cases os with
  | nil => cases h
  | cons o os =>
    rw [batchesFrom_cons] at h
    split at h
    · exact (List.cons.inj h).1 ▸ (by simp)
    · obtain ⟨b', bs', hb, hpre⟩ := first_batch batchSize ([] ++ [o]) os (by simp)
      rw [hb] at h
      rintro rfl
      rw [(List.cons.inj h).1] at hpre
      simpa using prefix_nil.mp hpre

theorem backlog_prefix_drop (st : Store B ν) : st.backlog <+: st.wal.entries.drop st.redoMax :=
  take_prefix _ _

theorem unrecorded_of_interrupted (h : st.Interrupted batchSize b) : st.unrecorded = b := by
  obtain ⟨hread, os, bs, hb, hos⟩ := h
  have hne := length_pos_of_ne_nil (first_batch_ne_nil hb)
  obtain ⟨rest, hrest, -⟩ := batches_tail hb
  have hpre : b <+: st.wal.entries.drop st.redoMax := by
    rw [nil_append] at hrest
    exact ((prefix_append b rest).trans (hrest ▸ hos)).trans (backlog_prefix_drop st)
  have hdiff : st.redoRead ≠ st.redoWrite := by
    intro heq
    rw [hread] at heq
    have hmax : st.redoMax = st.redoMax + b.length := by
      conv_lhs => rw [Store.redoMax, ← heq]
      rfl
    omega
  rw [hread] at hdiff
  simp only [Store.unrecorded, hread, if_neg hdiff, Nat.add_sub_cancel,
    show st.redoMax + b.length + 1 - (st.redoMax + 1) = b.length by omega]
  exact (prefix_iff_eq_take.mp hpre).symm

theorem unrecorded_prefix_ops (h : DocInv batchSize st ref) {f : Flush σ ν}
    (hfs : ((f :: fs).map Flush.ops) = batchesFrom batchSize [] st.backlog) :
    st.unrecorded <+: f.ops := by
  rcases h.redo with heq | ⟨b, hint⟩
  · rw [unrecorded_of_eq heq]
    exact nil_prefix
  · rw [unrecorded_of_interrupted hint]
    obtain ⟨-, os, bs, hb, hos⟩ := hint
    obtain ⟨b', bs', hb', hpre⟩ := batchesFrom_extends hb hos
    rw [← hfs] at hb'
    exact (List.cons.inj hb').1 ▸ hpre

theorem applied_sequential (h : Applied B ops ref) (hos : ∀ o ∈ os, o.WritePath ref.shardNum) :
    Applied B (ops ++ os) (ref.sequential (refEnv σ ν) os) := by
  induction os generalizing ops ref with
  | nil => rwa [append_nil]
  | cons o os ih =>
    have hstep := Applied.entry (refEnv σ ν) h (hos o mem_cons_self)
    have hrest := ih hstep (by
      show ∀ p ∈ os, p.WritePath (ref.applyOne (refEnv σ ν) o).shardNum
      rw [show (ref.applyOne (refEnv σ ν) o).shardNum = ref.shardNum from shardNum_flush _ _ _]
      exact fun p hp => hos p (mem_cons_of_mem _ hp))
    rwa [append_assoc] at hrest

theorem openGroups_visible (es : Events σ ν) : openGroups (visible es) = openGroups es :=
  foldl_visible (fun _ _ _ _ => rfl) es []

theorem addShard_visible (ref : IndexShard B) (es : Events σ ν) :
    (visible es).foldl addShard ref = es.foldl addShard ref :=
  foldl_visible (fun _ _ _ _ => rfl) es ref

theorem advance_visible (st : Store B ν) (es : Events σ ν) :
    Db.advance ref st (visible es) = Db.advance ref st es := by
  simp only [Db.advance, run_visible, addShard_visible]

theorem openGroups_append_redo (es : Events σ ν) (a : RedoAction) (lo hi : Nat) (es' : Events σ ν) :
    openGroups (es ++ .redo a lo hi :: es') = openGroups es' := by
  simp [openGroups, foldl_append, openGroupsStep]

theorem openGroups_effects (es : Effects σ ν) :
    openGroups (es.map .effect) = committed es := by
  have hgen : ∀ gs : List Int,
      (es.map (Event.effect (σ := σ) (ν := ν))).foldl openGroupsStep gs = gs ++ committed es := by
    induction es with
    | nil => simp [committed]
    | cons e es ih =>
      intro gs
      rw [map_cons, foldl_cons, ih]
      cases e <;> simp [committed, openGroupsStep]
  exact hgen []

theorem length_flatten_ops {j : Nat} (h : Flush.Consecutive i fs j) :
    i + (fs.map Flush.ops).flatten.length = j := by
  induction fs generalizing i with
  | nil => exact h
  | cons f fs ih =>
    obtain ⟨rfl, hrest⟩ := h
    have := ih hrest
    simp only [Flush.next, map_cons, flatten_cons, length_append] at this ⊢
    omega

theorem consecutive_first (h : Flush.Consecutive i (pre ++ post) j) :
    ∃ k, Flush.Consecutive i pre k ∧ Flush.Consecutive k post j := by
  induction pre generalizing i with
  | nil => exact ⟨i, rfl, h⟩
  | cons f pre ih =>
    obtain ⟨k, hk, hk'⟩ := ih h.2
    exact ⟨k, ⟨h.1, hk⟩, hk'⟩

theorem inv_flushes (h : DocInv batchSize st ref) {pre : List (Flush σ ν)}
    (hfs : Flushes env st.shard.shardNum st.redoMax st.backlog (pre ++ post))
    (henv : env.batchSize = batchSize)
    (hmerge : AllMergeable ref (batchesFrom batchSize [] st.backlog)) :
    let st' := st.run (pre.flatMap (events env st.shard.shardNum))
    let ops := (pre.map Flush.ops).flatten
    DocInv batchSize st' (ref.sequential (refEnv σ ν) ops) ∧
      st'.redoMax = st.redoMax + ops.length ∧ st'.wal = st.wal ∧
      st'.shard.shardNum = st.shard.shardNum ∧ (pre ≠ [] → st'.redoRead = st'.redoWrite) ∧
      ops <+: st.wal.entries.drop st.redoMax := by
  cases pre with
  | nil => exact ⟨h, rfl, rfl, rfl, fun hne => absurd rfl hne, nil_prefix⟩
  | cons f pre =>
    have hops := hfs.ops
    rw [henv] at hops
    have hok : ∀ g ∈ f :: pre, g.Ok st.shard.shardNum := fun g hg =>
      hfs.ok g (mem_append_left _ hg)
    have hmerge' : AllMergeable ref ((f :: pre).map Flush.ops) := by
      rw [← hops, map_append] at hmerge
      exact allMergeable_left hmerge
    have hbase := run_flushes env h.base (unrecorded_prefix_ops h hops) hok hmerge'
    obtain ⟨hwal, hnum, hredo⟩ := run_flushes_frame env st (f :: pre)
    replace hredo := hredo (by simp)
    obtain ⟨k, hk, -⟩ := consecutive_first hfs.consecutive
    obtain ⟨-, -, hrec⟩ := flushes_whole env hk hok
    have hmax := redoMax_run hrec
    have hlen := length_flatten_ops hk
    rw [map_append] at hops
    obtain ⟨rest, hrest, -⟩ := batches_split hops.symm
    have hwp : ∀ o ∈ ((f :: pre).map Flush.ops).flatten, o.WritePath ref.shardNum := by
      intro o ho
      obtain ⟨b, hb, hob⟩ := mem_flatten.mp ho
      obtain ⟨g, hg, rfl⟩ := mem_map.mp hb
      rw [h.base.num]
      exact (hok g hg).writePath o hob
    generalize hst' : st.run ((f :: pre).flatMap (events env st.shard.shardNum)) = st'
      at hbase hwal hnum hredo hmax
    generalize ((f :: pre).map Flush.ops).flatten = ops at hbase hlen hrest hwp
    have hmax' : st'.redoMax = st.redoMax + ops.length := by omega
    have hpre : ops <+: st.wal.entries.drop st.redoMax :=
      (hrest ▸ prefix_append ops rest : ops <+: st.backlog).trans (backlog_prefix_drop st)
    have htake : st'.wal.entries.take st'.redoMax = st.wal.entries.take st.redoMax ++ ops := by
      rw [hwal, hmax', take_add, ← prefix_iff_eq_take.mp hpre]
    refine ⟨⟨?_, .inl hredo, ?_⟩, hmax', hwal, hnum, fun _ => hredo, hpre⟩
    · rw [htake]
      exact applied_sequential h.applied hwp
    · rw [unrecorded_of_eq hredo]
      exact hbase

theorem addShard_eq {es : Events σ ν} (h : Event.newShard ∉ es) (ref : IndexShard B) :
    es.foldl addShard ref = ref := by
  refine Threads.foldl_of_fixed fun e he => ?_
  cases e with
  | newShard => exact absurd he h
  | _ => rfl

theorem newShard_not_mem_flushes {n : Nat} {v : Events σ ν}
    (h : v <+: fs.flatMap (events env n)) : Event.newShard ∉ v := by
  intro he
  have := h.mem he
  simp [events, reads, writes] at this

theorem call_shapes {n : Nat} {v : Events σ ν}
    (h : v <+: fs.flatMap (events env n) ++ closing env i) :
    (∃ pre post, fs = pre ++ post ∧ Event.newShard ∉ v ∧
      ∀ st : Store B ν, st.run v = st.run (pre.flatMap (events env n))) ∨
    (∃ pre f post es, fs = pre ++ f :: post ∧ es <+: f.effects env n ∧
      Event.newShard ∉ v ∧ openGroups v = committed es ∧
      ∀ st : Store B ν, st.run v = (st.run (pre.flatMap (events env n))).run
        (.redo .read f.startID f.minID :: es.map .effect)) ∨
    ∃ t, t <+: closing env i ∧ v = fs.flatMap (events env n) ++ t := by
  rcases prefix_append_cases h with hv | ⟨t, rfl, ht⟩
  · have hno := newShard_not_mem_flushes hv
    rcases prefix_flatMap hv with rfl | ⟨pre, f, post, t, rfl, rfl, ht⟩
    · exact .inl ⟨fs, [], by simp, hno, fun _ => rfl⟩
    · -- a part of the flush `f` that has committed some groups
      have heffects : ∀ es : Effects σ ν, es <+: f.effects env n →
          t = reads f.startID f.ops.length ++ .redo .read f.startID f.minID :: es.map .effect →
          openGroups (pre.flatMap (events env n) ++ t) = committed es ∧
          ∀ st : Store B ν, st.run (pre.flatMap (events env n) ++ t) =
            (st.run (pre.flatMap (events env n))).run
              (.redo .read f.startID f.minID :: es.map .effect) := by
        rintro es - rfl
        refine ⟨?_, fun st => ?_⟩
        · rw [← append_assoc, openGroups_append_redo, openGroups_effects]
        · rw [run_append, run_append, run_reads]
      rcases prefix_append_cases ht with hr | ⟨t', rfl, ht'⟩
      · obtain ⟨k, -, rfl⟩ := prefix_reads hr
        exact .inl ⟨pre, f :: post, rfl, hno, fun st => by rw [run_append, run_reads]⟩
      · rcases prefix_append_cases ht' with hw | ⟨u, rfl, hu⟩
        · rcases prefix_cons_iff.mp hw with rfl | ⟨t'', rfl, ht''⟩
          · exact .inl ⟨pre, f :: post, rfl, hno, fun st => by
              rw [append_nil, run_append, run_reads]⟩
          · obtain ⟨es, hes, rfl⟩ := prefix_map_iff.mp ht''
            obtain ⟨hopen, hrun⟩ := heffects es hes rfl
            exact .inr (.inl ⟨pre, f, post, es, rfl, hes, hno, hopen, hrun⟩)
        · rcases prefix_cons_iff.mp hu with rfl | ⟨u', rfl, hu'⟩
          · obtain ⟨hopen, hrun⟩ := heffects _ (prefix_refl _) (by simp)
            exact .inr (.inl ⟨pre, f, post, _, rfl, prefix_refl _, hno, hopen, hrun⟩)
          · obtain rfl := prefix_nil.mp hu'
            exact .inl ⟨pre ++ [f], post, by simp, hno, fun st => by
              simp [events, writes]⟩
  · exact .inr (.inr ⟨t, ht, rfl⟩)

theorem docInv_of_exact (hredo : st'.redoRead = st'.redoWrite)
    (hnum : ref'.shardNum = st'.shard.shardNum)
    (happ : Applied B (st'.wal.entries.take st'.redoMax) ref')
    (hdocs : ∀ j id, st'.shard.versions j id = ref'.versions j id) : DocInv batchSize st' ref' :=
  ⟨happ, .inl hredo, hnum, fun j id => .inl (hdocs j id)⟩

theorem rest_prefix_backlog {rest : Ops σ ν} (hrest : st.backlog = ops ++ rest)
    (hwal : st'.wal = st.wal) (hmax : st'.redoMax = st.redoMax + ops.length) :
    rest <+: st'.backlog := by
  have hlen : rest.length ≤ maxBatchSize := by
    have := congrArg List.length hrest
    rw [length_append, st.length_backlog] at this
    omega
  have hpre : rest <+: st.wal.entries.drop (st.redoMax + ops.length) := by
    have := (backlog_prefix_drop st).drop ops.length
    rwa [hrest, drop_left, drop_drop] at this
  rw [Store.backlog, hwal, hmax, prefix_iff_eq_take.mp hpre]
  exact take_prefix_take_left hlen

theorem inv_effects (h : DocInv batchSize st ref) {f : Flush σ ν} (hf : f.Ok st.shard.shardNum)
    (hstart : f.startID = st.redoMax + 1) (hos : os <+: st.backlog)
    (hbatch : batchesFrom batchSize [] os = f.ops :: bs) (hpre : st.unrecorded <+: f.ops)
    (hmerge : ∀ id, Mergeable (ref.versions (ref.shardNum - 1) id)
      (reaching ref.shardNum f.ops (ref.shardNum - 1) id)) {es : Effects σ ν}
    (hes : es <+: f.effects env st.shard.shardNum) :
    let st' := st.run (.redo .read f.startID f.minID :: es.map .effect)
    (shardIDNeedLatest ∈ committed es →
      ∀ id, ¬ AddsAgain (opsOf st'.unrecorded shardIDNeedLatest id)) →
    DocInv batchSize st' ref := by
  have hlen := length_pos_of_ne_nil hf.nonempty
  have hmin : f.minID = st.redoMax + f.ops.length := by
    rw [Flush.minID, Flush.next, hstart]
    omega
  have hrun : st.run (.redo .read f.startID f.minID :: es.map .effect) = { st with
        shard := st.shard.runEffects es
        redoRead := some (st.redoMax + 1, st.redoMax + f.ops.length) } := by
    rw [hmin, hstart]
    exact run_effects (st.apply (.redo .read _ _)) es
  rw [hrun]
  intro st' hsafe
  have hint : st'.Interrupted batchSize f.ops := ⟨rfl, os, bs, hbatch, hos⟩
  have hunrec := unrecorded_of_interrupted hint
  rw [hunrec] at hsafe
  refine ⟨h.applied, .inr ⟨f.ops, hint⟩, ?_⟩
  rw [hunrec]
  exact base_part h.base hf hpre hmerge hes hsafe _

theorem redoMax_effects (st : Store B ν) (es : Effects σ ν) (lo hi : Nat) :
    (st.run (.redo .read lo hi :: es.map .effect)).redoMax = st.redoMax := by
  show ((st.apply (.redo .read lo hi)).run (es.map .effect)).redoMax = _
  rw [run_effects]
  rfl

theorem inv_closing {t : Events σ ν} (h : DocInv batchSize st ref)
    (hredo : st.redoRead = st.redoWrite)
    (ht : ∀ e ∈ t, e = .truncateFront i ∨ e = .newShard ∨ e = .updateMetadata) :
    DocInv batchSize (st.run t) (t.foldl addShard ref) ∧ (st.run t).redoMax = st.redoMax := by
  induction t generalizing st ref with
  | nil => exact ⟨h, rfl⟩
  | cons e t ih =>
    have hexact := base_exact h.base (unrecorded_of_eq hredo)
    have hnum := h.base.num
    have happ := h.applied
    have hstep : DocInv batchSize (st.apply e) (addShard ref e) ∧
        (st.apply e).redoRead = (st.apply e).redoWrite ∧ (st.apply e).redoMax = st.redoMax := by
      rcases ht e mem_cons_self with rfl | rfl | rfl
      · refine ⟨docInv_of_exact hredo hnum ?_ hexact, hredo, rfl⟩
        rw [entries_apply]
        exact happ
      · refine ⟨docInv_of_exact hredo ?_ happ.newShard fun j id => ?_, hredo, rfl⟩
        · simp [addShard, Store.apply, hnum]
        · simpa [addShard, Store.apply] using hexact j id
      · refine ⟨docInv_of_exact hredo ?_ happ fun j id => ?_, hredo, rfl⟩
        · simp [addShard, Store.apply, hnum]
        · simpa [addShard, Store.apply] using hexact j id
    obtain ⟨hinv, hmax⟩ := ih hstep.1 hstep.2.1 fun e he => ht e (mem_cons_of_mem _ he)
    exact ⟨hinv, hmax.trans hstep.2.2⟩

theorem inv_call_part (hready : st.Ready) (h : DocInv batchSize st ref)
    (henv : env.batchSize = batchSize) (hlast : st.wal.lastIndex + 1 < 2 ^ 64)
    (hmerge : AllMergeable ref (batchesFrom batchSize [] st.backlog))
    (hdone : done <+: (consumeWAL env st).steps) (hsafe : shardIDNeedLatest ∈ openGroups done →
      ∀ id, ¬ AddsAgain (opsOf (st.run done).unrecorded shardIDNeedLatest id)) :
    DocInv batchSize (st.run done) (Db.advance ref st done) := by
  by_cases hnew : st.redoMax = st.wal.lastIndex
  · -- no new entries
    have hnil : (consumeWAL env st).steps = [] := by simp [consumeWAL, hnew]
    rw [hnil] at hdone
    obtain rfl := prefix_nil.mp hdone
    have href : Db.advance ref st ([] : Events σ ν) = ref := by
      simp [Db.advance, Store.run, IndexShard.sequential]
    rw [href]
    exact h
  obtain ⟨fs, steps, hfs, hcall, hvis, -⟩ := consumeWAL_spec env hready hlast hnew
  rw [hcall] at hdone
  have hv : visible done <+: fs.flatMap (events env st.shard.shardNum) ++
      closing env st.backlogMax := hvis ▸ hdone.filter _
  rw [← run_visible, ← openGroups_visible] at hsafe
  rw [← run_visible, ← advance_visible]
  generalize visible done = v at hv hsafe ⊢
  -- the reference after the first flushes
  have href : ∀ {pre : List (Flush σ ν)}, (pre.map Flush.ops).flatten <+:
      st.wal.entries.drop st.redoMax → (st.run v).redoMax =
        st.redoMax + (pre.map Flush.ops).flatten.length →
      Db.advance ref st v = v.foldl addShard (ref.sequential (refEnv σ ν)
        (pre.map Flush.ops).flatten) := by
    intro pre hpre hmax
    rw [Db.advance, hmax, Nat.add_sub_cancel_left, ← prefix_iff_eq_take.mp hpre]
  rcases call_shapes (B := B) hv with ⟨pre, post, rfl, hno, hrun⟩ |
    ⟨pre, f, post, es, rfl, hes, hno, hopen, hrun⟩ | ⟨t, ht, rfl⟩
  · obtain ⟨hinv, hmax, -, -, -, hpre⟩ := inv_flushes h hfs henv hmerge
    rw [← hrun] at hinv hmax
    rw [href hpre hmax, addShard_eq hno]
    exact hinv
  · -- the call stops in the effects of `f`
    obtain ⟨hinv, hmax, hwal, hnum, hredo, hpre⟩ := inv_flushes h hfs henv hmerge
    have hops := hfs.ops
    rw [henv, map_append] at hops
    rw [← hops] at hmerge
    obtain ⟨rest, hrest, hbatch⟩ := batches_split hops.symm
    obtain ⟨hcons, -⟩ := consecutive_split hfs.consecutive
    have hstart := length_flatten_ops hcons
    have hos := rest_prefix_backlog hrest hwal hmax
    have hunrec : (st.run (pre.flatMap (events env st.shard.shardNum))).unrecorded <+:
        f.ops := by
      cases pre with
      | nil => exact unrecorded_prefix_ops h hops
      | cons g pre =>
        rw [unrecorded_of_eq (hredo (by simp))]
        exact nil_prefix
    rw [hrun, hopen] at hsafe
    rw [href hpre, addShard_eq hno, hrun]
    · have hf := hfs.ok f (by simp)
      rw [← hnum] at hes hf
      exact inv_effects hinv hf (by omega) hos hbatch hunrec
        (allMergeable_append hmerge).1 hes hsafe
    · rw [hrun, ← hmax]
      exact redoMax_effects _ es _ _
  · -- all entries are recorded
    have hne : fs ≠ [] := by
      rintro rfl
      have := hfs.consecutive
      have := st.length_backlog
      simp only [Flush.Consecutive, maxBatchSize] at *
      have := hready.redoMax_le
      omega
    rw [← append_nil fs] at hfs
    obtain ⟨hinv, hmax, -, -, hredo, hpre⟩ := inv_flushes h hfs henv hmerge
    obtain ⟨hinv', hmax'⟩ := inv_closing hinv (hredo hne) fun e he => mem_closing (ht.mem he)
    rw [← run_append] at hinv' hmax'
    rw [href hpre (hmax'.trans hmax), foldl_append,
      addShard_eq (newShard_not_mem_flushes (prefix_refl _))]
    exact hinv'

theorem ready_call_part (hready : st.Ready) (hlast : st.wal.lastIndex + 1 < 2 ^ 64)
    (hdone : done <+: (consumeWAL env st).steps) : (st.run done).Ready := by
  obtain ⟨h, m, hpart, -, -⟩ := call_part hready hlast hdone
  have hmax := redoMax_run hpart.recorded
  have hle := hpart.le_handed
  have hhanded := hpart.handed_le
  have hrange := consecutiveRanges_le hpart.recorded
  refine ⟨?_, ?_, fun o ho => ?_⟩
  · rw [Wal.lastIndex, entries_run]
    exact (by omega : (st.run done).redoMax ≤ st.wal.lastIndex)
  · rcases first_run st done with he | ⟨i, hi, he⟩
    · have := hready.first_le
      omega
    · have := hpart.truncated i hi
      omega
  · rw [entries_run] at ho
    exact WritePath_mono (shardNum_run_le st done) (hready.writePath o ho)

theorem docInv_congr (h : DocInv batchSize st ref) (hent : st'.wal.entries = st.wal.entries)
    (hread : st'.redoRead = st.redoRead) (hwrite : st'.redoWrite = st.redoWrite)
    (hnum : st'.shard.shardNum = st.shard.shardNum)
    (hdocs : ∀ j id, st'.shard.versions j id = st.shard.versions j id) :
    DocInv batchSize st' ref := by
  obtain ⟨shard, ⟨entries, first⟩, redoRead, redoWrite⟩ := st
  obtain ⟨shard', ⟨entries', first'⟩, redoRead', redoWrite'⟩ := st'
  obtain rfl : entries' = entries := hent
  obtain rfl : redoRead' = redoRead := hread
  obtain rfl : redoWrite' = redoWrite := hwrite
  refine ⟨h.applied, h.redo, h.base.num.trans hnum.symm, fun j id => ?_⟩
  simp only [hdocs j id, hnum]
  exact h.base.docs j id

theorem extend_prefix_backlog (st : Store B ν) (hle : st.redoMax ≤ st.wal.lastIndex)
    (more : Ops σ ν) : st.backlog <+: (st.extend more).backlog := by
  show _ <+: ((st.wal.entries ++ more).drop st.redoMax).take maxBatchSize
  rw [drop_append_of_le_length hle, take_append]
  exact prefix_append _ _

theorem ready_extend (hready : st.Ready) (hmore : ∀ o ∈ more, o.WritePath st.shard.shardNum) :
    (st.extend more).Ready := by
  refine ⟨?_, hready.first_le, fun o ho => ?_⟩
  · show st.redoMax ≤ _
    rw [lastIndex_extend]
    exact hready.redoMax_le.trans (Nat.le_add_right _ _)
  · rcases mem_append.mp ho with ho | ho
    · exact hready.writePath o ho
    · exact hmore o ho

theorem inv_write (hready : st.Ready) (h : DocInv batchSize st ref) (o : Operation σ ν) :
    DocInv batchSize (st.extend [o]) ref := by
  have hle : st.redoMax ≤ st.wal.entries.length := hready.redoMax_le
  have htake : (st.extend [o]).wal.entries.take (st.extend [o]).redoMax =
      st.wal.entries.take st.redoMax := take_append_of_le_length hle
  have hback := extend_prefix_backlog st hle [o]
  have hint : ∀ b, st.Interrupted batchSize b → (st.extend [o]).Interrupted batchSize b := by
    rintro b ⟨hread, os, bs, hb, hos⟩
    exact ⟨hread, os, bs, hb, hos.trans hback⟩
  have hunrec : (st.extend [o]).unrecorded = st.unrecorded := by
    rcases h.redo with heq | ⟨b, hb⟩
    · rw [unrecorded_of_eq heq]
      exact unrecorded_of_eq heq
    · rw [unrecorded_of_interrupted hb, unrecorded_of_interrupted (hint b hb)]
  refine ⟨?_, ?_, ?_⟩
  · rw [htake]
    exact h.applied
  · exact h.redo.imp id fun ⟨b, hb⟩ => ⟨b, hint b hb⟩
  · rw [hunrec]
    exact ⟨h.base.num, h.base.docs⟩

theorem length_interrupted (h : st.Interrupted batchSize b) :
    0 < b.length ∧ st.redoMax + b.length ≤ st.wal.lastIndex := by
  obtain ⟨-, os, bs, hb, hos⟩ := h
  have hne := length_pos_of_ne_nil (first_batch_ne_nil hb)
  obtain ⟨rest, hrest, -⟩ := batches_tail hb
  have hlen := congrArg List.length hrest
  have hos' := (hos.trans (backlog_prefix_drop st)).length_le
  simp only [nil_append, length_append, length_drop] at hlen hos'
  refine ⟨hne, ?_⟩
  rw [Wal.lastIndex]
  omega

theorem inv_rollback_part (hready : st.Ready) (h : DocInv batchSize st ref)
    (hlast : st.wal.lastIndex + 1 < 2 ^ 64) (env : FlushEnv σ ν) :
    (rollback env st).result = some () ∧ ∀ done, done <+: (rollback env st).steps →
      (st.run done).Ready ∧ DocInv batchSize (st.run done) ref := by
  have hread : ∀ lo hi, st.redoRead = some (lo, hi) → st.redoRead ≠ st.redoWrite →
      lo = st.redoMax + 1 ∧ lo ≤ hi ∧ hi ≤ st.wal.lastIndex := by
    intro lo hi hr hdiff
    obtain ⟨b, hb⟩ := h.redo.resolve_left hdiff
    obtain ⟨hpos, hle⟩ := length_interrupted hb
    rw [hb.1] at hr
    cases hr
    exact ⟨rfl, by omega, hle⟩
  obtain ⟨hres, hpart⟩ := rollback_spec env hlast hready.writePath fun lo hi hr hdiff => by
    obtain ⟨hlo, hle, hhi⟩ := hread lo hi hr hdiff
    have := hready.first_le
    exact ⟨by omega, by omega, hle, hhi⟩
  refine ⟨hres, fun done hdone => ?_⟩
  obtain ⟨hu, hfirst⟩ := hpart done hdone
  have hmax : (st.run done).redoMax = st.redoMax :=
    by rw [Store.redoMax, hu.redoWrite, Store.redoMax]
  refine ⟨⟨?_, ?_, ?_⟩, docInv_congr h hu.entries hu.redoRead hu.redoWrite hu.num hu.docs⟩
  · rw [hmax, Wal.lastIndex, hu.entries]
    exact hready.redoMax_le
  · rw [hmax]
    rcases hfirst with he | ⟨lo, hi, hr, hdiff, he⟩
    · exact he ▸ hready.first_le
    · have := (hread lo hi hr hdiff).1
      omega
  · rw [hu.entries, hu.num]
    exact hready.writePath

theorem openGroups_call (hready : st.Ready) (hlast : st.wal.lastIndex + 1 < 2 ^ 64) :
    openGroups (consumeWAL env st).steps = [] := by
  by_cases hnew : st.redoMax = st.wal.lastIndex
  · simp [consumeWAL, hnew, openGroups]
  obtain ⟨fs, steps, hfs, hcall, hvis, -⟩ := consumeWAL_spec env hready hlast hnew
  have hflushes : openGroups (fs.flatMap (events env st.shard.shardNum)) = [] := by
    rcases eq_nil_or_concat fs with rfl | ⟨fs, f, rfl⟩
    · rfl
    · have hlastFlush : (fs.concat f).flatMap (events env st.shard.shardNum) =
          (fs.flatMap (events env st.shard.shardNum) ++
            reads f.startID f.ops.length ++ .redo .read f.startID f.minID ::
              (f.effects env st.shard.shardNum).map .effect) ++
          .redo .write f.startID f.minID :: [] := by
        simp [events, writes]
      rw [hlastFlush, openGroups_append_redo]
      rfl
  rw [hcall]
  show openGroups steps = []
  rw [← openGroups_visible, hvis, openGroups, foldl_append, Threads.foldl_of_fixed]
  · exact hflushes
  · intro e he
    rcases mem_closing he with rfl | rfl | rfl <;> rfl

/-! ## Whole runs -/

variable {d : Db B ν}

theorem lastIndex_act (d : Db B ν) (a : Action σ ν) :
    d.store.wal.lastIndex ≤ (d.act a).store.wal.lastIndex := by
  cases a with
  | write o => simp [Db.act, lastIndex_extend]
  | call env | crash env done | reopen env | crashReopen env done => exact (lastIndex_run _ _).ge

theorem inv_act (hready : d.store.Ready) (h : DocInv batchSize d.store d.ref)
    (ha : d.Enabled batchSize a) (hmeets : d.Meets a) (hlast : d.store.wal.lastIndex + 1 < 2 ^ 64) :
    (d.act a).store.Ready ∧ DocInv batchSize (d.act a).store (d.act a).ref := by
  cases a with
  | write o =>
    refine ⟨ready_extend hready fun p hp => ?_, inv_write hready h o⟩
    rw [mem_singleton.mp hp]
    exact ha
  | call env =>
    obtain ⟨-, rfl⟩ := ha
    refine ⟨ready_call_part hready hlast (prefix_refl _),
      inv_call_part hready h rfl hlast hmeets (prefix_refl _) fun hopen => ?_⟩
    rw [openGroups_call hready hlast] at hopen
    cases hopen
  | crash env done =>
    obtain ⟨-, rfl, hdone⟩ := ha
    exact ⟨ready_call_part hready hlast hdone,
      inv_call_part hready h rfl hlast hmeets.1 hdone hmeets.2⟩
  | reopen env => exact (inv_rollback_part hready h hlast env).2 _ (prefix_refl _)
  | crashReopen env done => exact (inv_rollback_part hready h hlast env).2 _ ha.2

theorem inv_recovers (hrun : Recovers batchSize Db.Meets d)
    (hlast : d.store.wal.lastIndex + 1 < 2 ^ 64) :
    d.store.Ready ∧ DocInv batchSize d.store d.ref := by
  induction hrun with
  | init =>
    exact ⟨⟨Nat.zero_le _, le_rfl, by simp [Db.init]⟩,
      docInv_of_exact rfl rfl .new fun _ _ => rfl⟩
  | @act d a _ ha hmeets ih =>
    have hle := lastIndex_act d a
    obtain ⟨hready, h⟩ := ih (by omega)
    exact inv_act hready h ha hmeets (by omega)

theorem consumeWAL_result (env : CallEnv σ ν) (hready : st.Ready)
    (hlast : st.wal.lastIndex + 1 < 2 ^ 64) :
    (consumeWAL env st).result = some (decide (st.redoMax ≠ st.wal.lastIndex)) := by
  by_cases hnew : st.redoMax = st.wal.lastIndex
  · simp [consumeWAL, hnew]
  · obtain ⟨fs, steps, -, hcall, -⟩ := consumeWAL_spec env hready hlast hnew
    simp [hcall, hnew]

end RecoveryLemmas

/-- Recovery applies every entry once, in every run whose actions meet the
condition and whose log ends below the largest `uint64`: the recorded entries
have been applied one at a time to the reference; the WAL can always be opened
again; every call records more entries until one reports that there are none;
and then the documents are those that all entries leave one at a time. -/
theorem recovery_applies_once {B : Bluge σ} {batchSize : Nat} {d : Db B ν}
    (hrun : Recovers batchSize Db.Meets d) (hlast : d.store.wal.lastIndex < 2 ^ 64 - 1) :
    Applied B (d.store.wal.entries.take d.store.redoMax) d.ref ∧
    (∀ env, (rollback env d.store).result = some ()) ∧
    ∀ env, ((consumeWAL env d.store).result = some true ∧
        d.store.redoMax < (d.act (.call env)).store.redoMax) ∨
      ((consumeWAL env d.store).result = some false ∧ Applied B d.store.wal.entries d.ref ∧
        d.store.shard.docs = d.ref.docs) := by
  have hlast' : d.store.wal.lastIndex + 1 < 2 ^ 64 := by omega
  obtain ⟨hready, h⟩ := inv_recovers hrun hlast'
  refine ⟨h.applied, fun env => (inv_rollback_part hready h hlast' env).1, fun env => ?_⟩
  have hresult := consumeWAL_result env hready hlast'
  by_cases hnew : d.store.redoMax = d.store.wal.lastIndex
  · -- an interrupted flush would have entries after the record
    have hredo : d.store.redoRead = d.store.redoWrite := by
      refine h.redo.resolve_right fun ⟨b, hb⟩ => ?_
      have := length_interrupted hb
      omega
    refine .inr ⟨by simpa [hnew] using hresult, ?_, ?_⟩
    · have := h.applied
      rwa [hnew, Wal.lastIndex, take_length] at this
    · exact (IndexShard.docs_ext h.base.num.symm).mpr
        (base_exact h.base (unrecorded_of_eq hredo))
  · refine .inl ⟨by simpa [hnew] using hresult, ?_⟩
    show _ < (d.store.run (consumeWAL env d.store).steps).redoMax
    have hle := hready.redoMax_le
    rw [redoMax_call env hready hlast', Store.backlogMax, d.store.length_backlog, maxBatchSize]
    omega

def oneByOne : CallEnv Unit Unit := ⟨1, fun _ => refEnv Unit Unit, false⟩

def oneWritten : Db (Bluge.lists Unit) Unit := (Db.init _ _).act (.write anInsert)

def upToRead : List (Event Unit Unit) :=
  [.uint64 .sub 1 0, .uint64 .add 0 1, .addDocument 1, .redo .read 1 1]

/-- The next call stops after `done`; then the WAL is opened again and consumed. -/
def recovered (done : List (Event Unit Unit)) : Db (Bluge.lists Unit) Unit :=
  ((oneWritten.act (.crash oneByOne done)).act (.reopen (refEnv _ _))).act (.call oneByOne)

theorem RecoveryLemmas.mergeable_anInsert (ref : IndexShard B) : AllMergeable ref [[anInsert]] := by
  refine ⟨fun id => ?_, trivial⟩
  have hsub : (reaching ref.shardNum [anInsert] (ref.shardNum - 1) id).Sublist [anInsert] :=
    filter_sublist
  rcases sublist_singleton.mp hsub with h | h
  · rw [h]
    exact .inl (by simp)
  · rw [h]
    exact .inr (.inl ⟨anInsert, rfl, rfl⟩)

theorem recovery_applies_once_before_commit :
    Recovers 1 Db.Meets (recovered upToRead) ∧
      (recovered upToRead).store.shard.docs = [{⟨"a", 1, ()⟩}] := by
  have hrun : Recovers 1 Db.Meets (recovered upToRead) := by
    refine .act _ (.act _ (.act _ (.act _ .init ⟨rfl, rfl⟩ trivial) ⟨rfl, rfl, ?_⟩ ⟨?_, ?_⟩) rfl
      trivial) ⟨rfl, rfl⟩ ?_
    · exact ⟨[.effect (.setTimestamp 1), .effect (.commit (-1) 0 ⟨[⟨"a", 1, ()⟩], []⟩),
        .redo .write 1 1, .uint64 .add 1 1, .uint64 .add 1 1, .uint64 .sub 2 1, .truncateFront 1,
        .updateMetadata], rfl⟩
    · exact mergeable_anInsert _
    · intro h
      cases h
    · exact mergeable_anInsert _
  obtain ⟨-, -, hcall⟩ := recovery_applies_once hrun (by decide)
  rcases hcall oneByOne with ⟨htrue, -⟩ | ⟨-, -, hdocs⟩
  · exact absurd htrue (by decide)
  · exact ⟨hrun, hdocs.trans (by decide)⟩

/-- A crash between the commit and the redo Write record: the document is stored
twice. -/
theorem crash_after_commit_stores_twice :
    let d := recovered (upToRead ++ [.effect (.setTimestamp 1),
      .effect (.commit shardIDNeedLatest 0 ⟨[⟨"a", 1, ()⟩], []⟩)])
    Recovers 1 (fun _ _ => True) d ∧ (consumeWAL oneByOne d.store).result = some false ∧
      d.store.wal.entries = [anInsert] ∧ d.ref.docs = [{⟨"a", 1, ()⟩}] ∧
      d.store.shard.docs = [{⟨"a", 1, ()⟩, ⟨"a", 1, ()⟩}] := by
  refine ⟨?_, by decide, by decide, by decide, by decide⟩
  refine .act _ (.act _ (.act _ (.act _ .init ⟨rfl, rfl⟩ trivial) ⟨rfl, rfl, ?_⟩ trivial) rfl
    trivial) ⟨rfl, rfl⟩ trivial
  exact ⟨[.redo .write 1 1, .uint64 .add 1 1, .uint64 .add 1 1, .uint64 .sub 2 1,
    .truncateFront 1, .updateMetadata], rfl⟩

end SeaSearch
