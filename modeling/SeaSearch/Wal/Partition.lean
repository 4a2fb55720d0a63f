import SeaSearch.Wal.Consume

/-!
# Consumption partitions the log

Calls of `ConsumeWAL` and writes to the WAL interleave event by event. A run is described by the
events it has performed.
-/

namespace SeaSearch

open List Traces WalMergeDocs SequentialLemmas ConsumeLemmas
open Flush (events reads writes)

variable {σ ν : Type}

/-! ## Runs -/

structure State (B : Bluge σ) (ν : Type) where
  store : Store B ν
  pending : Events σ ν := []

def Store.extend {B : Bluge σ} (st : Store B ν) (os : Ops σ ν) : Store B ν :=
  { st with wal := { st.wal with entries := st.wal.entries ++ os } }

open Store (apply backlogMax extend run)

def State.init (B : Bluge σ) (ν : Type) : State B ν := { store := { shard := IndexShard.new B } }

open State (init)

/-- One step, with the events it performs. Entries are written at any time; a
call starts when none is in progress, and performs one event at a time. -/
inductive Step {B : Bluge σ} (batchSize : Nat) : State B ν → Events σ ν → State B ν → Prop
  | write {s : State B ν} (o : Operation σ ν) :
      o.WritePath s.store.shard.shardNum →
      Step batchSize s [] { s with store := s.store.extend [o] }
  | call {s : State B ν} (env : CallEnv σ ν) :
      env.batchSize = batchSize → s.pending = [] →
      Step batchSize s [] { s with pending := (consumeWAL env s.store).steps }
  | event {s : State B ν} {e : Event σ ν} {es : Events σ ν} :
      s.pending = e :: es →
      Step batchSize s [e] ⟨s.store.apply e, es⟩

/-- Steps one after another, with the events of all. -/
inductive Run {B : Bluge σ} (batchSize : Nat) : State B ν → Events σ ν → State B ν → Prop
  | refl (s : State B ν) : Run batchSize s [] s
  | step {s s' s'' : State B ν} {t es : Events σ ν} :
      Run batchSize s t s' → Step batchSize s' es s'' → Run batchSize s (t ++ es) s''

/-- The indexes handed to `AddDocument`. -/
def handed (es : Events σ ν) : List Nat :=
  es.filterMap fun
    | .addDocument i => some i
    | _ => none

def recorded (es : Events σ ν) : List (Nat × Nat) :=
  es.filterMap fun
    | .redo .write a b => some (a, b)
    | _ => none

/-- Non-empty ranges that follow one another from index `i` to index `j`. -/
def ConsecutiveRanges : Nat → List (Nat × Nat) → Nat → Prop
  | i, [], j => i = j
  | i, r :: rs, j => r.1 = i ∧ r.1 ≤ r.2 ∧ ConsecutiveRanges (r.2 + 1) rs j

/-! ## The events of a part of a call -/

namespace PartitionLemmas

variable {B : Bluge σ} {n : Nat} {env : CallEnv σ ν} {es : Events σ ν} {i j : Nat}
  {rs : List (Nat × Nat)}

theorem handed_append (es es' : Events σ ν) :
    handed (es ++ es') = handed es ++ handed es' := filterMap_append

theorem recorded_append (es es' : Events σ ν) :
    recorded (es ++ es') = recorded es ++ recorded es' := filterMap_append

theorem handed_mono (h : es <+: es') : handed es <+: handed es' :=
  h.filterMap _

theorem recorded_mono (h : es <+: es') : recorded es <+: recorded es' :=
  h.filterMap _

theorem filterMap_visible {α : Type} {g : Event σ ν → Option α}
    (hg : ∀ op a b, g (.uint64 op a b) = none) (es : Events σ ν) :
    (visible es).filterMap g = es.filterMap g := by
  rw [visible, filterMap_filter]
  congr 1
  funext e
  cases e with
  | uint64 op a b => exact (hg op a b).symm
  | _ => rfl

theorem foldl_visible {α : Type} {g : α → Event σ ν → α} (hg : ∀ s op a b, g s (.uint64 op a b) = s)
    (es : Events σ ν) (s : α) :
    (visible es).foldl g s = es.foldl g s := by
  induction es generalizing s with
  | nil => rfl
  | cons e es ih =>
    cases e with
    | uint64 op a b =>
      rw [foldl_cons, hg]
      exact ih s
    | _ => exact ih _

theorem handed_visible (es : Events σ ν) : handed (visible es) = handed es :=
  filterMap_visible (fun _ _ _ => rfl) es

theorem recorded_visible (es : Events σ ν) : recorded (visible es) = recorded es :=
  filterMap_visible (fun _ _ _ => rfl) es

theorem run_append (st : Store B ν) (es es' : Events σ ν) :
    st.run (es ++ es') = (st.run es).run es' := by
  simp [run]

theorem run_visible (st : Store B ν) (es : Events σ ν) : st.run (visible es) = st.run es :=
  foldl_visible (fun _ _ _ _ => rfl) es st

theorem consecutiveRanges_append {k : Nat} {rs' : List (Nat × Nat)} (h : ConsecutiveRanges i rs k)
    (h' : ConsecutiveRanges k rs' j) : ConsecutiveRanges i (rs ++ rs') j := by
  induction rs generalizing i with
  | nil => obtain rfl := h; exact h'
  | cons r rs ih => exact ⟨h.1, h.2.1, ih h.2.2⟩

theorem consecutiveRanges_split (h : ConsecutiveRanges i rs k)
    (h' : ConsecutiveRanges i (rs ++ rs') j) : ConsecutiveRanges k rs' j := by
  induction rs generalizing i with
  | nil => obtain rfl := h; exact h'
  | cons r rs ih => exact ih h.2.2 h'.2.2

theorem consecutiveRanges_le (h : ConsecutiveRanges i rs j) : i ≤ j := by
  induction rs generalizing i with
  | nil => exact le_of_eq h
  | cons r rs ih =>
    obtain ⟨rfl, hle, hrest⟩ := h
    exact le_trans (by omega) (ih hrest)

theorem redoMax_run {st : Store B ν} (h : ConsecutiveRanges (st.redoMax + 1) (recorded es) j) :
    (st.run es).redoMax + 1 = j := by
  induction es generalizing st with
  | nil => exact h
  | cons e es ih =>
    show ((st.apply e).run es).redoMax + 1 = j
    cases e with
    | redo a lo hi =>
      cases a with
      | read => exact ih h
      | write => exact ih h.2.2
    | _ => exact ih h

theorem handed_reads (i k : Nat) : handed (reads i k : Events σ ν) = List.range' i k := by
  simp [handed, reads, filterMap_map]

theorem recorded_reads (i k : Nat) : recorded (reads i k : Events σ ν) = [] := by
  simp [recorded, reads, filterMap_map]

theorem handed_writes (f : Flush σ ν) : handed (f.writes env n) = [] := by
  simp [handed, writes, filterMap_map]

theorem recorded_writes (f : Flush σ ν) : recorded (f.writes env n) = [(f.startID, f.minID)] := by
  simp [recorded, writes, filterMap_map]

theorem handed_closing (env : CallEnv σ ν) (i : Nat) : handed (closing env i) = [] := by
  cases h : env.grow <;> simp [handed, closing, h]

theorem recorded_closing (env : CallEnv σ ν) (i : Nat) : recorded (closing env i) = [] := by
  cases h : env.grow <;> simp [recorded, closing, h]

theorem prefix_reads {k : Nat} {t : Events σ ν} (h : t <+: reads i k) :
    ∃ k' ≤ k, t = reads i k' := by
  have hlen : t.length ≤ k := by simpa [reads] using h.length_le
  have hpre : (reads i t.length : Events σ ν) <+: reads i k := by
    obtain ⟨m, rfl⟩ := Nat.exists_eq_add_of_le hlen
    rw [reads, reads, ← List.range'_append_1, map_append]
    exact prefix_append _ _
  refine ⟨t.length, hlen, ?_⟩
  have hsame : t.length = (reads i t.length : Events σ ν).length := by
    simp [reads]
  exact (prefix_of_prefix_length_le h hpre hsame.le).eq_of_length hsame

theorem flush_part {f : Flush σ ν} {t : Events σ ν} (h : t <+: f.events env n) :
    ∃ k ≤ f.ops.length, handed t = List.range' f.startID k ∧
      (recorded t = [] ∨ t = f.events env n) := by
  rcases prefix_append_cases h with hr | ⟨t', rfl, ht'⟩
  · -- the part ends among the reads
    obtain ⟨k, hk, rfl⟩ := prefix_reads hr
    exact ⟨k, hk, handed_reads _ _, .inl (recorded_reads _ _)⟩
  · -- all entries have been handed over
    have hnone : handed t' = [] :=
      prefix_nil.mp ((handed_writes f : handed (f.writes env n) = []) ▸ handed_mono ht')
    refine ⟨_, le_rfl, by rw [handed_append, handed_reads, hnone, append_nil], ?_⟩
    rcases prefix_append_cases ht' with hw | ⟨t'', rfl, ht''⟩
    · left
      have hopen : recorded (Event.redo .read f.startID f.minID ::
          (f.effects env n).map (Event.effect (σ := σ) (ν := ν))) = [] := by
        simp [recorded, filterMap_map]
      rw [recorded_append, recorded_reads, nil_append]
      exact prefix_nil.mp (hopen ▸ recorded_mono hw)
    · rcases prefix_cons_iff.mp ht'' with rfl | ⟨u, rfl, hu⟩
      · left
        simp [recorded, reads, filterMap_map]
      · rw [prefix_nil.mp hu]
        exact .inr rfl

theorem flushes_whole (env : CallEnv σ ν) (hcons : Flush.Consecutive i fs j)
    (hok : ∀ f ∈ fs, f.Ok n) :
    i ≤ j ∧ handed (fs.flatMap (events env n)) = List.range' i (j - i) ∧
      ConsecutiveRanges i (recorded (fs.flatMap (events env n))) j := by
  induction fs generalizing i with
  | nil =>
    obtain rfl := hcons
    simp [handed, recorded, ConsecutiveRanges]
  | cons f fs ih =>
    obtain ⟨rfl, hrest⟩ := hcons
    have hpos : 0 < f.ops.length := length_pos_of_ne_nil (hok f mem_cons_self).nonempty
    have hnext : f.next = f.startID + f.ops.length := rfl
    have hmin : f.minID = f.next - 1 := rfl
    obtain ⟨hle, hh, hr⟩ := ih hrest fun g hg => hok g (mem_cons_of_mem _ hg)
    refine ⟨by omega, ?_, ?_⟩
    · rw [flatMap_cons, handed_append, hh, events, handed_append, handed_reads,
        handed_writes, append_nil, hnext, List.range'_append_1]
      congr 1
      omega
    · rw [flatMap_cons, recorded_append, events, recorded_append, recorded_reads, recorded_writes]
      refine ⟨rfl, by simp only []; omega, ?_⟩
      simpa [hmin, Nat.sub_add_cancel (show 1 ≤ f.next by omega)] using hr

theorem consecutive_split (h : Flush.Consecutive i (pre ++ f :: post) j) :
    Flush.Consecutive i pre f.startID ∧ Flush.Consecutive f.next post j := by
  induction pre generalizing i with
  | nil => exact ⟨h.1.symm, h.2⟩
  | cons g pre ih =>
    obtain ⟨hpre, hpost⟩ := ih h.2
    exact ⟨⟨h.1, hpre⟩, hpost⟩

theorem mem_visible_truncateFront :
    Event.truncateFront i ∈ visible es ↔ Event.truncateFront i ∈ es := by
  simp [visible]

theorem no_truncateFront_events (fs : List (Flush σ ν)) (i : Nat) :
    Event.truncateFront i ∉ fs.flatMap (events env n) := by
  simp [events, reads, writes]

theorem flushes_part {r : Nat} {fs : List (Flush σ ν)} (hcons : Flush.Consecutive (r + 1) fs j)
    (hok : ∀ f ∈ fs, f.Ok n) (hes : es <+: fs.flatMap (events env n)) :
    ∃ h m, handed es = List.range' (r + 1) (h - r) ∧ m ≤ h ∧ h < j ∧
      ConsecutiveRanges (r + 1) (recorded es) (m + 1) := by
  rcases prefix_flatMap hes with rfl | ⟨pre, f, post, t, rfl, rfl, ht⟩
  · obtain ⟨hle, hh, hr⟩ := flushes_whole env hcons hok
    refine ⟨j - 1, j - 1, ?_, le_rfl, by omega, ?_⟩
    · rw [hh]
      congr 1
      omega
    · rwa [Nat.sub_add_cancel (by omega)]
  · obtain ⟨hpre, hpost⟩ := consecutive_split hcons
    obtain ⟨hle, hh, hr⟩ := flushes_whole env hpre fun g hg => hok g (by simp [hg])
    obtain ⟨hle', -, -⟩ := flushes_whole env hpost fun g hg => hok g (by simp [hg])
    have hnext : f.next = f.startID + f.ops.length := rfl
    have hmin : f.minID = f.next - 1 := rfl
    have hpos : 0 < f.ops.length :=
      length_pos_of_ne_nil (hok f (by simp)).nonempty
    obtain ⟨k, hk, hht, hrt⟩ := flush_part ht
    have hhand : handed (pre.flatMap (events env n) ++ t) =
        List.range' (r + 1) (f.startID - 1 + k - r) := by
      rw [handed_append, hh, hht]
      have hsplit := List.range'_append_1 (s := r + 1) (m := f.startID - (r + 1)) (n := k)
      rw [show r + 1 + (f.startID - (r + 1)) = f.startID by omega] at hsplit
      rw [hsplit]
      congr 1
      omega
    rcases hrt with hrt | rfl
    · refine ⟨_, f.startID - 1, hhand, by omega, by omega, ?_⟩
      rwa [recorded_append, hrt, append_nil, Nat.sub_add_cancel (by omega)]
    · -- the part ends with the record of `f`
      have hk' : k = f.ops.length := by
        have := congrArg List.length hht
        simpa [events, handed_append, handed_reads, handed_writes] using this.symm
      refine ⟨_, f.minID, hhand, by omega, by omega, ?_⟩
      rw [recorded_append]
      refine consecutiveRanges_append hr ?_
      rw [events, recorded_append, recorded_reads, recorded_writes]
      exact ⟨rfl, by simp only []; omega, rfl⟩

structure CallPart (st : Store B ν) (es : Events σ ν) (h m : Nat) : Prop where
  handed : handed es = List.range' (st.redoMax + 1) (h - st.redoMax)
  recorded : ConsecutiveRanges (st.redoMax + 1) (recorded es) (m + 1)
  le_handed : m ≤ h
  handed_le : h ≤ st.wal.lastIndex
  truncated : ∀ i, Event.truncateFront i ∈ es → i = m

theorem call_part {st : Store B ν} (hst : st.Ready) (hlast : st.wal.lastIndex + 1 < 2 ^ 64)
    (hes : es <+: (consumeWAL env st).steps) :
    ∃ h m, CallPart st es h m ∧ (∀ e ∈ es, e.wraps = false) ∧
      (es = (consumeWAL env st).steps → m = h ∧ m = st.backlogMax) := by
  by_cases hnew : st.redoMax = st.wal.lastIndex
  · -- no new entries
    have hnil : (consumeWAL env st).steps = [] := by simp [consumeWAL, hnew]
    rw [hnil] at hes ⊢
    obtain rfl := prefix_nil.mp hes
    have hback : st.backlogMax = st.redoMax := by
      simp [backlogMax, st.length_backlog, hnew]
    exact ⟨st.redoMax, st.redoMax, ⟨by simp [SeaSearch.handed], rfl, le_rfl, hst.redoMax_le,
      by simp⟩, by simp, fun _ => ⟨rfl, hback.symm⟩⟩
  · obtain ⟨fs, steps, hfs, hcall, hvis, hwraps⟩ := consumeWAL_spec env hst hlast hnew
    rw [hcall] at hes ⊢
    have hback : st.backlogMax ≤ st.wal.lastIndex := by
      have := st.length_backlog
      have := hst.redoMax_le
      simp only [backlogMax]
      omega
    have hv : visible es <+: fs.flatMap (events env st.shard.shardNum) ++
        closing env st.backlogMax := hvis ▸ hes.filter _
    have hlt : st.redoMax + st.backlog.length + 1 = st.backlogMax + 1 := rfl
    suffices hpart : ∃ h m, CallPart st es h m ∧ (es = steps → m = h ∧ m = st.backlogMax) by
      obtain ⟨h, m, hp, hend⟩ := hpart
      exact ⟨h, m, hp, fun e he => hwraps e (hes.mem he), hend⟩
    rcases prefix_append_cases hv with hfirst | ⟨t, ht, htail⟩
    · obtain ⟨h, m, hh, hmh, hhj, hr⟩ := flushes_part hfs.consecutive hfs.ok hfirst
      refine ⟨h, m, ⟨?_, ?_, hmh, by omega, fun i hi => ?_⟩, ?_⟩
      · rwa [← handed_visible]
      · rwa [← recorded_visible]
      · exact absurd (hfirst.mem (mem_visible_truncateFront.mpr hi)) (no_truncateFront_events fs i)
      · -- the call is not over before the truncation
        rintro rfl
        have := hfirst.length_le
        rw [hvis] at this
        simp only [closing, length_append, length_cons] at this
        omega
    · have hht : handed t = [] :=
        prefix_nil.mp (handed_closing env st.backlogMax ▸ handed_mono htail)
      have hrt : recorded t = [] :=
        prefix_nil.mp (recorded_closing env st.backlogMax ▸ recorded_mono htail)
      obtain ⟨hle, hh, hr⟩ := flushes_whole env hfs.consecutive hfs.ok
      refine ⟨st.backlogMax, st.backlogMax, ⟨?_, ?_, le_rfl, hback, fun i hi => ?_⟩,
        fun _ => ⟨rfl, rfl⟩⟩
      · rw [← handed_visible, ht, handed_append, hht, hh, append_nil]
        congr 1
        omega
      · rw [← recorded_visible, ht, recorded_append, hrt, append_nil]
        exact hr
      · rw [← mem_visible_truncateFront, ht, mem_append] at hi
        rcases hi with hi | hi
        · exact absurd hi (no_truncateFront_events fs i)
        · rcases mem_closing (htail.mem hi) with h | h | h <;> cases h
          rfl

/-! ## The store during a run -/

section Stores

variable (st : Store B ν)

theorem lastIndex_extend (os : Ops σ ν) :
    (st.extend os).wal.lastIndex = st.wal.lastIndex + os.length := by
  simp [extend, Wal.lastIndex]

theorem extend_extend (os os' : Ops σ ν) :
    (st.extend os).extend os' = st.extend (os ++ os') := by
  simp [extend]

theorem extend_nil : st.extend [] = st := by
  simp [extend]

theorem apply_extend (os : Ops σ ν) (he : ∀ i, e = .truncateFront i → i ≤ st.wal.lastIndex) :
    (st.extend os).apply e = (st.apply e).extend os := by
  cases e with
  | redo a lo hi => cases a <;> rfl
  | truncateFront i =>
    have hi := he i rfl
    have hiff : (i = 0 ∨ i < st.wal.first ∨ (st.extend os).wal.lastIndex < i) ↔
        (i = 0 ∨ i < st.wal.first ∨ st.wal.lastIndex < i) := by
      rw [lastIndex_extend]
      omega
    show { st.extend os with wal := ((st.extend os).wal.truncateFront i).getD (st.extend os).wal } =
      ({ st with wal := (st.wal.truncateFront i).getD st.wal } : Store B ν).extend os
    have hfirst : (st.extend os).wal.first = st.wal.first := rfl
    rw [Wal.truncateFront, Wal.truncateFront, hfirst]
    by_cases h : i = 0 ∨ i < st.wal.first ∨ st.wal.lastIndex < i
    · rw [if_pos (hiff.mpr h), if_pos h]
      rfl
    · rw [if_neg (hiff.not.mpr h), if_neg h]
      rfl
  | _ => rfl

theorem entries_apply (e : Event σ ν) :
    (st.apply e).wal.entries = st.wal.entries := by
  cases e with
  | redo a lo hi => cases a <;> rfl
  | truncateFront i =>
    simp only [apply, Wal.truncateFront]
    split <;> rfl
  | _ => rfl

variable (es : Events σ ν)

theorem entries_run : (st.run es).wal.entries = st.wal.entries := by
  induction es generalizing st with
  | nil => rfl
  | cons e es ih => exact (ih _).trans (entries_apply st e)

theorem lastIndex_run : (st.run es).wal.lastIndex = st.wal.lastIndex := by
  rw [Wal.lastIndex, Wal.lastIndex, entries_run]

theorem shardNum_apply_le (e : Event σ ν) :
    st.shard.shardNum ≤ (st.apply e).shard.shardNum := by
  cases e with
  | redo a lo hi => cases a <;> exact le_rfl
  | effect e | newShard | updateMetadata => simp [apply]
  | _ => exact le_rfl

theorem shardNum_run_le : st.shard.shardNum ≤ (st.run es).shard.shardNum := by
  induction es generalizing st with
  | nil => exact le_rfl
  | cons e es ih => exact (shardNum_apply_le st e).trans (ih _)

theorem first_apply (e : Event σ ν) :
    (st.apply e).wal.first = st.wal.first ∨
      ∃ i, e = .truncateFront i ∧ (st.apply e).wal.first = i := by
  cases e with
  | redo a lo hi => cases a <;> exact .inl rfl
  | truncateFront i =>
    simp only [apply, Wal.truncateFront]
    split
    · exact .inl rfl
    · exact .inr ⟨i, rfl, rfl⟩
  | _ => exact .inl rfl

theorem first_run : (st.run es).wal.first = st.wal.first ∨
      ∃ i, Event.truncateFront i ∈ es ∧ (st.run es).wal.first = i := by
  induction es generalizing st with
  | nil => exact .inl rfl
  | cons e es ih =>
    show ((st.apply e).run es).wal.first = _ ∨ ∃ i, _ ∧ ((st.apply e).run es).wal.first = i
    rcases ih (st.apply e) with h | ⟨i, hi, h⟩
    · rcases first_apply st e with he | ⟨i, rfl, he⟩
      · exact .inl (h.trans he)
      · exact .inr ⟨i, mem_cons_self, h.trans he⟩
    · exact .inr ⟨i, mem_cons_of_mem _ hi, h⟩

end Stores

end PartitionLemmas

/-! ## Whole runs -/

structure RunInv {B : Bluge σ} (batchSize : Nat) (t : Events σ ν) (s : State B ν)
    (st₀ : Store B ν) (t₀ done : Events σ ν) (more : Ops σ ν) : Prop where
  trace : t = t₀ ++ done
  store : s.store = (st₀.run done).extend more
  ready : st₀.Ready
  handed : handed t₀ = List.range' 1 st₀.redoMax
  recorded : ConsecutiveRanges 1 (recorded t₀) (st₀.redoMax + 1)
  wraps : ∀ e ∈ t₀, e.wraps = false
  call : (done = [] ∧ s.pending = []) ∨
    ∃ env : CallEnv σ ν, env.batchSize = batchSize ∧ done ++ s.pending = (consumeWAL env st₀).steps
  writePath : ∀ o ∈ more, o.WritePath s.store.shard.shardNum

namespace PartitionLemmas

variable {B : Bluge σ} {batchSize : Nat} {t t₀ done : Events σ ν} {s s' : State B ν}
  {st₀ : Store B ν} {more : Ops σ ν}

theorem WritePath_mono {n n' : Nat} (hn : n ≤ n') {o : Operation σ ν} (ho : o.WritePath n) :
    o.WritePath n' := by
  unfold Operation.WritePath at *
  split <;> simp_all <;> omega

structure Reached (t : Events σ ν) (s : State B ν) (h : Nat) : Prop where
  handed : handed t = List.range' 1 h
  recorded : ConsecutiveRanges 1 (recorded t) (s.store.redoMax + 1)
  redoMax_le : s.store.redoMax ≤ h
  handed_le : h ≤ s.store.wal.lastIndex
  first_le : s.store.wal.first ≤ s.store.redoMax + 1
  writePath : ∀ o ∈ s.store.wal.entries, o.WritePath s.store.shard.shardNum
  wraps : ∀ e ∈ t, e.wraps = false
  idle : s.pending = [] → s.store.redoMax = h

theorem RunInv.reached (hinv : RunInv batchSize t s st₀ t₀ done more)
    (hlast : s.store.wal.lastIndex + 1 < 2 ^ 64) : ∃ h, Reached t s h := by
  have hshard : s.store.shard.shardNum = (st₀.run done).shard.shardNum := by
    rw [hinv.store]
    rfl
  have hlen : s.store.wal.lastIndex = st₀.wal.lastIndex + more.length := by
    rw [hinv.store, lastIndex_extend, Wal.lastIndex, entries_run]
    rfl
  obtain ⟨h, m, hpart, hwraps, hend⟩ : ∃ h m, CallPart st₀ done h m ∧
      (∀ e ∈ done, e.wraps = false) ∧ (s.pending = [] → m = h) := by
    rcases hinv.call with ⟨rfl, hidle⟩ | ⟨env, -, hcall⟩
    · exact ⟨st₀.redoMax, st₀.redoMax, ⟨by simp [SeaSearch.handed], rfl, le_rfl,
        hinv.ready.redoMax_le, by simp⟩, by simp, fun _ => rfl⟩
    · obtain ⟨h, m, hpart, hwraps, hend⟩ := call_part hinv.ready (by omega)
        (hcall ▸ prefix_append done s.pending)
      refine ⟨h, m, hpart, hwraps, fun hidle => (hend ?_).1⟩
      rw [← hcall, hidle, append_nil]
  have hmax : s.store.redoMax = m := by
    have := redoMax_run hpart.recorded
    rw [hinv.store]
    show (st₀.run done).redoMax = m
    omega
  have hr := consecutiveRanges_le hpart.recorded
  refine ⟨h, ?_, ?_, hmax ▸ hpart.le_handed, ?_, ?_, ?_, ?_, fun hidle => hmax.trans (hend hidle)⟩
  · rw [hinv.trace, handed_append, hinv.handed, hpart.handed]
    have hsplit := List.range'_append_1 (s := 1) (m := st₀.redoMax) (n := h - st₀.redoMax)
    have hle := hpart.le_handed
    rw [show 1 + st₀.redoMax = st₀.redoMax + 1 by omega,
      show st₀.redoMax + (h - st₀.redoMax) = h by omega] at hsplit
    exact hsplit
  · rw [hinv.trace, recorded_append, hmax]
    exact consecutiveRanges_append hinv.recorded hpart.recorded
  · have := hpart.handed_le
    omega
  · have hfirst : s.store.wal.first = (st₀.run done).wal.first := by rw [hinv.store]; rfl
    rw [hfirst, hmax]
    rcases first_run st₀ done with he | ⟨i, hi, he⟩
    · have := hinv.ready.first_le
      omega
    · have := hpart.truncated i hi
      omega
  · intro o ho
    rw [hinv.store] at ho
    rcases mem_append.mp ho with ho | ho
    · rw [entries_run] at ho
      exact WritePath_mono (hshard ▸ shardNum_run_le st₀ done) (hinv.ready.writePath o ho)
    · exact hinv.writePath o ho
  · intro e he
    rw [hinv.trace] at he
    rcases mem_append.mp he with he | he
    · exact hinv.wraps e he
    · exact hwraps e he

theorem Reached.ready {h : Nat} (hr : Reached t s h) : s.store.Ready :=
  ⟨hr.redoMax_le.trans hr.handed_le, hr.first_le, hr.writePath⟩

theorem RunInv.step (hinv : RunInv batchSize t s st₀ t₀ done more) {es : Events σ ν}
    (hstep : Step batchSize s es s') (hlast : s'.store.wal.lastIndex + 1 < 2 ^ 64) :
    ∃ st₁ t₁ done' more', RunInv batchSize (t ++ es) s' st₁ t₁ done' more' := by
  cases hstep with
  | write o ho =>
    refine ⟨st₀, t₀, done, more ++ [o], ?_, ?_, hinv.ready, hinv.handed, hinv.recorded,
      hinv.wraps, hinv.call, ?_⟩
    · rw [append_nil, hinv.trace]
    · show s.store.extend [o] = _
      rw [hinv.store, extend_extend]
    · intro p hp
      rcases mem_append.mp hp with hp | hp
      · exact hinv.writePath p hp
      · rw [mem_singleton.mp hp]
        exact ho
  | call env henv hidle =>
    obtain ⟨h, hr⟩ := RunInv.reached hinv hlast
    have hmax := hr.idle hidle
    refine ⟨s.store, t, [], [], ?_, (extend_nil _).symm, Reached.ready hr, ?_, hr.recorded,
      hr.wraps, .inr ⟨env, henv, rfl⟩, by simp⟩
    · simp
    · rw [hr.handed, hmax]
  | @event e es hpend =>
    obtain ⟨env, henv, hcall⟩ : ∃ env : CallEnv σ ν, env.batchSize = batchSize ∧
        done ++ s.pending = (consumeWAL env st₀).steps := by
      rcases hinv.call with ⟨-, hidle⟩ | hcall
      · rw [hidle] at hpend
        cases hpend
      · exact hcall
    rw [hpend, append_cons] at hcall
    have hlen : s.store.wal.lastIndex = st₀.wal.lastIndex + more.length := by
      rw [hinv.store, lastIndex_extend, Wal.lastIndex, entries_run]
      rfl
    have hsame : (s.store.apply e).wal.lastIndex = s.store.wal.lastIndex := by
      rw [Wal.lastIndex, entries_apply]
      rfl
    have hlast' : (s.store.apply e).wal.lastIndex + 1 < 2 ^ 64 := hlast
    obtain ⟨h, m, hpart, -, -⟩ := call_part hinv.ready (by omega)
      (hcall ▸ prefix_append (done ++ [e]) es)
    have htrunc : ∀ i, e = .truncateFront i → i ≤ (st₀.run done).wal.lastIndex := by
      rintro i rfl
      have hi := hpart.truncated i (by simp)
      have hm := hpart.le_handed
      have hh := hpart.handed_le
      rw [Wal.lastIndex, entries_run]
      exact hi ▸ hm.trans hh
    have hstore : s.store.apply e = (st₀.run (done ++ [e])).extend more := by
      rw [hinv.store, apply_extend _ _ htrunc, run_append]
      rfl
    refine ⟨st₀, t₀, done ++ [e], more, ?_, hstore, hinv.ready, hinv.handed, hinv.recorded,
      hinv.wraps, .inr ⟨env, henv, hcall⟩, fun o ho => ?_⟩
    · rw [hinv.trace, append_assoc]
    · exact WritePath_mono (shardNum_apply_le s.store e) (hinv.writePath o ho)

theorem lastIndex_step (h : Step batchSize s es s') :
    s.store.wal.lastIndex ≤ s'.store.wal.lastIndex := by
  cases h with
  | write o ho => simp [lastIndex_extend]
  | call env henv hidle => exact le_rfl
  | event hpend =>
    show _ ≤ (s.store.apply _).wal.lastIndex
    rw [Wal.lastIndex, Wal.lastIndex, entries_apply]

theorem run_inv (h : Run batchSize (init B ν) t s) (hlast : s.store.wal.lastIndex + 1 < 2 ^ 64) :
    ∃ st₀ t₀ done more, RunInv batchSize t s st₀ t₀ done more := by
  generalize hinit : init B ν = s₀ at h
  induction h with
  | refl =>
    subst hinit
    refine ⟨(init B ν).store, [], [], [], rfl, (extend_nil _).symm, ⟨?_, ?_, ?_⟩, rfl, rfl,
      by simp, .inl ⟨rfl, rfl⟩, by simp⟩ <;> simp [init, Store.redoMax]
  | step _ hs ih =>
    have hle := lastIndex_step hs
    obtain ⟨st₀, t₀, done, more, hinv⟩ := ih (by omega)
    exact RunInv.step hinv hs hlast

theorem run_reached (h : Run batchSize (init B ν) t s)
    (hlast : s.store.wal.lastIndex + 1 < 2 ^ 64) : ∃ h, Reached t s h := by
  obtain ⟨st₀, t₀, done, more, hinv⟩ := run_inv h hlast
  exact RunInv.reached hinv hlast

theorem run_trans {s₁ s₂ s₃ : State B ν} {t t' : Events σ ν} (h : Run batchSize s₁ t s₂)
    (h' : Run batchSize s₂ t' s₃) : Run batchSize s₁ (t ++ t') s₃ := by
  induction h' with
  | refl => simpa using h
  | step _ hs ih =>
    rw [← append_assoc]
    exact .step ih hs

theorem run_pending (batchSize : Nat) (s : State B ν) :
    Run batchSize s s.pending ⟨s.store.run s.pending, []⟩ := by
  obtain ⟨store, pending⟩ := s
  induction pending generalizing store with
  | nil => exact .refl _
  | cons e es ih =>
    have hfirst : Run batchSize ⟨store, e :: es⟩ ([] ++ [e]) ⟨store.apply e, es⟩ :=
      .step (.refl _) (.event rfl)
    exact run_trans hfirst (ih (store.apply e))

theorem run_call (env : CallEnv σ ν) (henv : env.batchSize = batchSize) {s : State B ν}
    (hidle : s.pending = []) :
    Run batchSize s (consumeWAL env s.store).steps
      ⟨s.store.run (consumeWAL env s.store).steps, []⟩ :=
  run_trans (.step (.refl s) (.call env henv hidle)) (run_pending batchSize _)

theorem redoMax_call (env : CallEnv σ ν) {st : Store B ν} (hst : st.Ready)
    (hlast : st.wal.lastIndex + 1 < 2 ^ 64) :
    (st.run (consumeWAL env st).steps).redoMax = st.backlogMax := by
  obtain ⟨h, m, hpart, -, hend⟩ := call_part hst hlast (prefix_refl (consumeWAL env st).steps)
  have hmax := redoMax_run hpart.recorded
  have := hend rfl
  omega

theorem run_consume (h : Run batchSize (init B ν) t s) (hidle : s.pending = [])
    (hlast : s.store.wal.lastIndex + 1 < 2 ^ 64) :
    ∃ t' s', Run batchSize s t' s' ∧ s'.pending = [] ∧ s'.store.wal.entries = s.store.wal.entries ∧
      s'.store.redoMax = s.store.wal.lastIndex := by
  -- every call with new entries brings the record closer to the last index
  induction hd : s.store.wal.lastIndex - s.store.redoMax using Nat.strong_induction_on
    generalizing s t with
  | _ d ih =>
    obtain ⟨k, hr⟩ := run_reached h hlast
    have hready := Reached.ready hr
    have hle := hready.redoMax_le
    by_cases hnew : s.store.redoMax = s.store.wal.lastIndex
    · exact ⟨[], s, .refl s, hidle, rfl, hnew⟩
    · let env : CallEnv σ ν := ⟨batchSize, fun _ => ⟨0, [], .listed σ ν⟩, false⟩
      let s' : State B ν := ⟨s.store.run (consumeWAL env s.store).steps, []⟩
      have hcall : Run batchSize s (consumeWAL env s.store).steps s' :=
        run_call env rfl hidle
      have hent : s'.store.wal.entries = s.store.wal.entries := entries_run _ _
      have hlen : s'.store.wal.lastIndex = s.store.wal.lastIndex := congrArg List.length hent
      have hmax : s'.store.redoMax = s.store.backlogMax := redoMax_call env hready hlast
      have hback : s.store.redoMax < s.store.backlogMax := by
        rw [backlogMax, s.store.length_backlog]
        simp only [maxBatchSize]
        omega
      obtain ⟨t', s'', hrun, hidle', hent', hmax'⟩ := ih _ (by omega) (run_trans h hcall) rfl
        (by omega) rfl
      exact ⟨_, s'', run_trans hcall hrun, hidle', hent'.trans hent, by omega⟩

end PartitionLemmas

open PartitionLemmas

/-- Consumption partitions the log, as long as its last index is below the
largest `uint64`. In every run, at every moment: the entries handed to
`AddDocument` are `1, 2, …` in order, each once; the recorded ranges follow one
another up to the redo Write record, which does not pass the last index and
never goes back; the entries after it are still in the log; no index wraps
around; and calls alone hand over the entries that are left. -/
theorem consumption_partitions_log {B : Bluge σ} {batchSize : Nat} {t : Events σ ν}
    {s : State B ν} (hrun : Run batchSize (init B ν) t s)
    (hlast : s.store.wal.lastIndex < 2 ^ 64 - 1) :
    (∃ h ≤ s.store.wal.lastIndex, handed t = List.range' 1 h) ∧
    ConsecutiveRanges 1 (recorded t) (s.store.redoMax + 1) ∧
    s.store.redoMax ≤ s.store.wal.lastIndex ∧
    (∀ t' s', Run batchSize s t' s' → s'.store.wal.lastIndex < 2 ^ 64 - 1 →
      s.store.redoMax ≤ s'.store.redoMax) ∧
    (∀ i, s.store.redoMax < i → s.store.wal.read i = s.store.wal.entries[i - 1]?) ∧
    (∀ e ∈ t, e.wraps = false) ∧
    ∃ t' s', Run batchSize s t' s' ∧ s'.store.wal.entries = s.store.wal.entries ∧
      s'.store.redoMax = s.store.wal.lastIndex ∧
      handed (t ++ t') = List.range' 1 s.store.wal.lastIndex := by
  obtain ⟨h, hr⟩ := run_reached hrun (by omega)
  have hready := Reached.ready hr
  refine ⟨⟨h, hr.handed_le, hr.handed⟩, hr.recorded, hready.redoMax_le, ?_, ?_, hr.wraps, ?_⟩
  · intro t' s' hrun' hlast'
    obtain ⟨h', hr'⟩ := run_reached (run_trans hrun hrun') (by omega)
    have hrec := hr'.recorded
    rw [recorded_append] at hrec
    have := consecutiveRanges_le (consecutiveRanges_split hr.recorded hrec)
    omega
  · intro i hi
    have hfirst := hr.first_le
    rw [Wal.read, if_neg (by omega)]
  · -- finish the call in progress, then consume what is left
    have hpend := run_pending batchSize s
    have hent : (s.store.run s.pending).wal.entries = s.store.wal.entries := entries_run _ _
    have hlen : (s.store.run s.pending).wal.lastIndex = s.store.wal.lastIndex :=
      congrArg List.length hent
    obtain ⟨t', s', hrun', hidle, hent', hmax⟩ :=
      run_consume (run_trans hrun hpend) rfl (show _ + 1 < _ by rw [hlen]; omega)
    have hlen' : s'.store.wal.lastIndex = s.store.wal.lastIndex :=
      congrArg List.length (hent'.trans hent)
    have hall := run_trans hpend hrun'
    obtain ⟨h', hr'⟩ := run_reached (run_trans hrun hall) (by omega)
    refine ⟨_, s', hall, hent'.trans hent, hmax.trans hlen, ?_⟩
    rw [hr'.handed, ← hr'.idle hidle, hmax.trans hlen]

namespace PartitionLemmas

def anInsert : Operation Unit Unit := ⟨.insert, "a", shardIDNeedLatest, ⟨some 1, [], ()⟩⟩

theorem run_write_consume {B : Bluge Unit} (batchSize : Nat) {t : List (Event Unit Unit)}
    {s : State B Unit} (h : Run batchSize (init B Unit) t s) (hidle : s.pending = [])
    (hlast : s.store.wal.lastIndex + 2 < 2 ^ 64) :
    ∃ t' s', Run batchSize (init B Unit) t' s' ∧ s'.pending = [] ∧
      s'.store.wal.lastIndex = s.store.wal.lastIndex + 1 ∧
      s'.store.redoMax = s'.store.wal.lastIndex := by
  have hwrite := Run.step h (.write anInsert ⟨rfl, rfl⟩)
  have hlen := lastIndex_extend s.store [anInsert]
  obtain ⟨t', s', hrun, hidle', hent, hmax⟩ :=
    run_consume hwrite hidle (show _ + 1 < _ by rw [hlen]; simp; omega)
  have hlen' : s'.store.wal.lastIndex = (s.store.extend [anInsert]).wal.lastIndex :=
    congrArg List.length hent
  exact ⟨_, s', run_trans hwrite hrun, hidle', hlen'.trans hlen, hmax.trans hlen'.symm⟩

end PartitionLemmas

/-- Two calls, each after another entry. -/
theorem consumption_partitions_two_entries :
    ∃ (t : List (Event Unit Unit)) (s : State (Bluge.lists Unit) Unit),
      Run 1 (init _ _) t s ∧ s.store.wal.lastIndex = 2 ∧ s.store.redoMax = 2 ∧
      ConsecutiveRanges 1 (recorded t) (s.store.redoMax + 1) ∧ ∀ e ∈ t, e.wraps = false := by
  obtain ⟨_, _, hfirst, hidle, hone, -⟩ :=
    run_write_consume 1 (.refl (init (Bluge.lists Unit) Unit)) rfl (by decide)
  obtain ⟨t, s, hrun, -, hlast, hmax⟩ := run_write_consume 1 hfirst hidle (by rw [hone]; decide)
  have htwo : s.store.wal.lastIndex = 2 := hlast.trans (congrArg (· + 1) hone)
  obtain ⟨-, hrec, -, -, -, hwraps, -⟩ := consumption_partitions_log hrun (by rw [htwo]; decide)
  exact ⟨t, s, hrun, htwo, hmax.trans htwo, hrec, hwraps⟩

namespace PartitionLemmas

variable {B : Bluge σ} {n : Nat}

theorem uadd_mem (env : CallEnv σ ν) (fuel : Nat) (hn : 0 < n) (hle : c.minID ≤ maxID)
    (hread : wal.read c.minID = some o) (hadr : (c.docs.addDocument o).Addressed n) :
    Event.uint64 .add c.minID 1 ∈ (consumeLoop env n wal maxID (fuel + 1) c).steps := by
  have hadd : (uadd c.minID 1 : Traced (Event σ ν) Nat) =
      ⟨[.uint64 .add c.minID 1], some ((c.minID + 1) % 2 ^ 64)⟩ := rfl
  have herr := (writeTo_committed (env.flush c.startID) hn hadr).1
  rw [consumeLoop, if_pos hle, hread]
  by_cases hfull : env.batchSize ≤ (c.docs.addDocument o).maxShardLen
  · simp [Traced.ofOption, Traced.step, Traced.stepAll, hfull, hadd, flushDocs, herr]
  · simp [Traced.ofOption, Traced.step, hfull, hadd]

theorem uadd_last_mem (env : CallEnv σ ν) (hst : st.Ready)
    (hnext : st.redoMax + 1 = st.wal.lastIndex) (hlast : st.wal.lastIndex < 2 ^ 64) :
    Event.uint64 .add st.wal.lastIndex 1 ∈ (consumeWAL env st).steps := by
  obtain ⟨pre, hlimit, -, -⟩ := limitMaxID_spec st hst.redoMax_le hlast
  have hback : st.backlogMax = st.wal.lastIndex := by
    rw [backlogMax, st.length_backlog, maxBatchSize]
    omega
  have hadd : (uadd st.redoMax 1 : Traced (Event σ ν) Nat) =
      ⟨[.uint64 .add st.redoMax 1], some st.wal.lastIndex⟩ := by
    rw [uadd_eq (by omega), hnext]
  have hnew : st.redoMax ≠ st.wal.lastIndex := by omega
  obtain ⟨o, hread⟩ : ∃ o, st.wal.read st.wal.lastIndex = some o := by
    have hfirst := hst.first_le
    have hlen : st.wal.lastIndex - 1 < st.wal.entries.length := by
      simp only [Wal.lastIndex] at hnext ⊢
      omega
    exact ⟨_, by rw [Wal.read, if_neg (by omega), List.getElem?_eq_getElem hlen]⟩
  have ho : o.WritePath st.shard.shardNum := by
    refine hst.writePath o (mem_of_getElem? (i := st.wal.lastIndex - 1) ?_)
    rw [← hread, Wal.read, if_neg]
    have hfirst := hst.first_le
    omega
  have hmem := uadd_mem env 1 st.shard.shardNum_pos
    (c := ⟨st.wal.lastIndex, st.wal.lastIndex, .empty⟩) (le_refl st.wal.lastIndex) hread
    (addressed_addDocuments st.shard.shardNum_pos addressed_empty [o] (by simpa using ho))
  rw [consumeWAL]
  simp only [hnew, ↓reduceIte, hlimit, hback, Traced.bind_mk_some, hadd, mem_append]
  refine .inr (.inr ((Traced.steps_prefix_bind _ _).mem ?_))
  rw [consumeBatches, show st.wal.lastIndex + 2 - st.wal.lastIndex = 1 + 1 by omega]
  exact (Traced.steps_prefix_bind _ _).mem hmem

theorem run_upto {B : Bluge Unit} (batchSize : Nat) {k : Nat} (hk : k + 1 < 2 ^ 64) :
    ∃ t s, Run batchSize (init B Unit) t s ∧ s.pending = [] ∧
      s.store.wal.lastIndex = k ∧ s.store.redoMax = k := by
  induction k with
  | zero => exact ⟨[], _, .refl _, rfl, rfl, rfl⟩
  | succ k ih =>
    obtain ⟨t, s, hrun, hidle, hlast, -⟩ := ih (by omega)
    obtain ⟨t', s', hrun', hidle', hlast', hmax'⟩ :=
      run_write_consume batchSize hrun hidle (by omega)
    exact ⟨t', s', hrun', hidle', by omega, by omega⟩

end PartitionLemmas

/-- The bound on the last index is needed: when the largest `uint64` is the last
index, the loop's increment wraps around. -/
theorem largest_index_wraps :
    ∃ (t : List (Event Unit Unit)) (s : State (Bluge.lists Unit) Unit),
      Run 1 (init _ _) t s ∧ s.store.wal.lastIndex = 2 ^ 64 - 1 ∧
      ∃ e ∈ t, e.wraps = true := by
  obtain ⟨t, s, hrun, hidle, hlast, hmax⟩ :=
    run_upto (B := Bluge.lists Unit) 1 (k := 2 ^ 64 - 2) (by decide)
  let env : CallEnv Unit Unit := ⟨1, fun _ => ⟨0, [], .listed Unit Unit⟩, false⟩
  obtain ⟨h, hr⟩ := run_reached hrun (by rw [hlast]; decide)
  let s' : State (Bluge.lists Unit) Unit := { s with store := s.store.extend [anInsert] }
  have hwrite : Run 1 (init _ _) (t ++ []) s' := .step hrun (.write anInsert ⟨rfl, rfl⟩)
  have hlast' : s'.store.wal.lastIndex = 2 ^ 64 - 1 := by
    rw [show s'.store = s.store.extend [anInsert] from rfl, lastIndex_extend, hlast]
    rfl
  have hmax' : s'.store.redoMax = 2 ^ 64 - 2 := hmax
  have hready : s'.store.Ready := by
    refine ⟨by omega, hr.first_le, fun o ho => ?_⟩
    rcases mem_append.mp ho with ho | ho
    · exact hr.writePath o ho
    · rw [mem_singleton.mp ho]
      exact ⟨rfl, rfl⟩
  have hmem := uadd_last_mem env hready (by omega) (by omega)
  have hent : (s'.store.run (consumeWAL env s'.store).steps).wal.entries = s'.store.wal.entries :=
    entries_run _ _
  refine ⟨_, _, run_trans hwrite (run_call env rfl hidle),
    (congrArg List.length hent).trans hlast', _, mem_append_right _ hmem, ?_⟩
  rw [hlast']
  rfl

end SeaSearch
