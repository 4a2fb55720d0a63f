import SeaSearch.Lib.Threads

/-!
# Closing idle writers

A second-layer shard and a vector segment each keep one open bluge writer and count the callers that
use it. Background closers close a writer that no one has used for a while.
-/

namespace SeaSearch

open Threads

variable {τ : Type}

/-- The two protocols: `GetWriter`, `CloseWriter` and `LazyCloseSecondIndexShardWriters`,
and `openVecStoreWriter`, `closeVecStoreWriter` and `TryCloseIdleWriter`. -/
inductive WriterKind
  | secondShard
  | segment
  deriving DecidableEq

/-- The writer in use, numbered in the order in which writers are opened, the reference
count and the number of writers. -/
structure Writers where
  writer : Option Nat := none
  refCount : Int := 0
  made : Nat := 0
  deriving DecidableEq

/-- Where a call is:
* `opening`: there was no writer; then `publishing`: before the new writer is put into the
  segment, or `rereading`: before the writer of the second-layer shard is read again;
* `counting`: before the count is raised. A second-layer shard may have no writer then,
  and the caller gets none;
* `holding`: the caller has the writer, and `releasing`: before the count is lowered;
* `clearing`: a closer has found the writer idle, and `closing`: it has removed it. -/
inductive WriterPc
  | idle
  | opening
  | publishing (w : Nat)
  | rereading
  | counting (w : Option Nat)
  | holding (w : Option Nat)
  | releasing (w : Option Nat)
  | clearing (w : Nat)
  | closing (w : Nat)
  deriving DecidableEq

/-- What a step does not decide: what starts, and whether a writer or the WAL can be opened.
That a closer starts says that the time since the last release has passed, and that it
fails says that it has not when it looks again. -/
inductive WriterChoice
  | get
  | release
  | closeIdle
  | proceed
  | fail
  deriving DecidableEq

inductive WriterEvent (τ : Type)
  | got (t : τ) (w : Nat)
  | released (t : τ) (w : Nat)
  | closed (w : Nat)
  deriving DecidableEq

namespace Writers

def step (k : WriterKind) : Program Writers WriterPc τ WriterChoice (WriterEvent τ) :=
  fun t x m pc =>
    match pc, x with
    | .idle, .get =>
      match m.writer with
      | some w => some (m, .counting (some w), [])
      | none => some (m, .opening, [])
    | .opening, .proceed =>
      match k, m.writer with
      -- `openWriter` keeps a writer that another caller has opened
      | .secondShard, some _ => some (m, .rereading, [])
      | .secondShard, none =>
        some ({ m with writer := some m.made, made := m.made + 1 }, .rereading, [])
      | .segment, _ => some ({ m with made := m.made + 1 }, .publishing m.made, [])
    | .opening, .fail => some (m, .idle, [])
    | .publishing w, .proceed => some ({ m with writer := some w }, .counting (some w), [])
    | .rereading, .proceed => some (m, .counting m.writer, [])
    | .rereading, .fail => some (m, .idle, [])
    | .counting w, .proceed =>
      some ({ m with refCount := m.refCount + 1 }, .holding w, w.toList.map (.got t))
    | .holding w, .release => some (m, .releasing w, [])
    | .releasing w, .proceed =>
      some ({ m with refCount := m.refCount - 1 }, .idle, w.toList.map (.released t))
    | .idle, .closeIdle =>
      match m.writer with
      | some w => if m.refCount = 0 then some (m, .clearing w, []) else none
      | none => none
    | .clearing w, .proceed =>
      match k with
      | .secondShard => some ({ m with writer := none }, .closing w, [])
      | .segment =>
        if m.writer = some w ∧ m.refCount = 0 then some ({ m with writer := none }, .closing w, [])
        else some (m, .idle, [])
    | .clearing _, .fail =>
      match k with
      | .secondShard => none
      | .segment => some (m, .idle, [])
    | .closing w, .proceed => some (m, .idle, [.closed w])
    | _, _ => none

/-- `GetWriter`, `CloseWriter` and `LazyCloseSecondIndexShardWriters`. -/
def secondShardStep : Program Writers WriterPc τ WriterChoice (WriterEvent τ) := step .secondShard

/-- `openVecStoreWriter`, `closeVecStoreWriter` and `TryCloseIdleWriter`. -/
def segmentStep : Program Writers WriterPc τ WriterChoice (WriterEvent τ) := step .segment

def start : Config Writers WriterPc τ := ⟨{}, fun _ => .idle⟩

end Writers

open Writers (start step)

namespace WriterPc

def has : WriterPc → Option Nat
  | publishing w => some w
  | counting w => w
  | holding w => w
  | releasing w => w
  | _ => none

def obtained : WriterPc → Option Nat
  | holding w => w
  | releasing w => w
  | _ => none

def counted : WriterPc → Bool
  | holding _ => true
  | releasing _ => true
  | _ => false

/-- A caller is between the two steps: it has taken a writer and not raised the count. -/
def pending : WriterPc → Bool
  | publishing _ => true
  | counting _ => true
  | _ => false

def clears : WriterPc → Option Nat
  | clearing w => some w
  | _ => none

def closes : WriterPc → Option Nat
  | closing w => some w
  | _ => none

end WriterPc

open WriterPc (clears closes closing counted has idle obtained)

inductive WriterShape (k : WriterKind) (t : τ) (x : WriterChoice) (m : Writers) :
    WriterPc → Writers → WriterPc → List (WriterEvent τ) → Prop
  | inside : pc'.has = pc.has → pc'.obtained = pc.obtained →
      pc'.counted = pc.counted → pc'.clears = none → pc'.closes = none →
      WriterShape k t x m pc m pc' []
  | read : (pc = .idle ∧ x = .get) ∨ pc = .rereading →
      WriterShape k t x m pc m (.counting m.writer) []
  | openShard :
      WriterShape k t x m .opening { m with writer := some m.made, made := m.made + 1 }
        .rereading []
  | openSegment :
      WriterShape k t x m .opening { m with made := m.made + 1 } (.publishing m.made) []
  | publish :
      WriterShape k t x m (.publishing w) { m with writer := some w } (.counting (some w)) []
  | count :
      WriterShape k t x m (.counting w) { m with refCount := m.refCount + 1 } (.holding w)
        (w.toList.map (.got t))
  | release :
      WriterShape k t x m (.releasing w) { m with refCount := m.refCount - 1 } .idle
        (w.toList.map (.released t))
  | check : x = .closeIdle → m.writer = some w → m.refCount = 0 →
      WriterShape k t x m .idle m (.clearing w) []
  | clear : (k = .segment → m.writer = some w ∧ m.refCount = 0) →
      WriterShape k t x m (.clearing w) { m with writer := none } (.closing w) []
  | close : WriterShape k t x m (.closing w) m .idle [.closed w]

namespace IdleWritersLemmas

theorem step_writer {k : WriterKind} {t : τ} {x : WriterChoice} {m m' : Writers}
    {pc pc' : WriterPc} {es : List (WriterEvent τ)}
    (h : step k t x m pc = some (m', pc', es)) : WriterShape k t x m pc m' pc' es := by
  unfold step at h
  split at h
  case h_1 =>
    split at h <;> cases h
    · next hw =>
      have hread : WriterShape k t .get m .idle m (.counting m.writer)
        ([] : List (WriterEvent τ)) :=
        .read (.inl ⟨rfl, rfl⟩)
      rwa [hw] at hread
    · exact .inside rfl rfl rfl rfl rfl
  case h_2 =>
    split at h <;> cases h
    · exact .inside rfl rfl rfl rfl rfl
    · exact .openShard
    · exact .openSegment
  case h_10 =>
    split at h
    · next hw =>
      split at h
      · next h0 => cases h; exact .check rfl hw h0
      · cases h
    · cases h
  case h_11 =>
    split at h
    · cases h; exact .clear (by simp)
    · split at h
      · next hw => cases h; exact .clear fun _ => hw
      · cases h; exact .inside rfl rfl rfl rfl rfl
  case h_12 =>
    split at h
    · cases h
    · cases h; exact .inside rfl rfl rfl rfl rfl
  case h_14 => cases h
  all_goals cases h
  case h_4 => exact .publish
  case h_5 => exact .read (.inr rfl)
  case h_7 => exact .count
  case h_9 => exact .release
  case h_13 => exact .close
  all_goals exact .inside rfl rfl rfl rfl rfl

end IdleWritersLemmas

section Guards

variable [Fintype τ]

def nonePending (c : Config Writers WriterPc τ) : Bool :=
  decide (∀ t, (c.threads t).pending = false)

def noneClearing (c : Config Writers WriterPc τ) : Bool :=
  decide (∀ t, (c.threads t).clears = none)

/-- A closer looks at the count for the last time before it removes the writer, and no
caller is between its two steps then. The closer of second-layer shards looks only once,
so no caller may take the writer before it is removed either. -/
def quietClose (k : WriterKind) : Guard Writers WriterPc τ WriterChoice (WriterEvent τ) :=
  fun c _ t x =>
    match k, c.threads t, x with
    | .secondShard, .idle, .closeIdle => nonePending c
    | .secondShard, .idle, .get => noneClearing c || c.shared.writer.isNone
    | .secondShard, .rereading, _ => noneClearing c || c.shared.writer.isNone
    | .segment, .clearing _, _ => nonePending c
    | _, _, _ => true

end Guards

namespace IdleWritersLemmas

section Counts

variable [Fintype τ] [DecidableEq τ] {k : WriterKind} {c : Config Writers WriterPc τ}
  {log es : List (WriterEvent τ)} {t : τ} {x : WriterChoice} {m' : Writers} {pc' : WriterPc}

structure CountsInv (c : Config Writers WriterPc τ) (log : List (WriterEvent τ)) : Prop where
  refs : c.shared.refCount = count counted c
  paired : Paired .got .released obtained c log

theorem CountsInv.keep (h : CountsInv c log) (hr : m'.refCount = c.shared.refCount)
    (hc : pc'.counted = (c.threads t).counted) (ho : pc'.obtained = (c.threads t).obtained)
    (he : ∀ u w, .got u w ∉ es ∧ .released u w ∉ es) :
    CountsInv (c.after t m' pc') (log ++ es) := by
  refine ⟨?_, h.paired.keep ho he⟩
  rw [shared_after, hr, h.refs, count_keep hc]

theorem counts_step (h : CountsInv c log)
    (hs : step k t x c.shared (c.threads t) = some (m', pc', es)) :
    CountsInv (c.after t m' pc') (log ++ es) := by
  generalize hpc : c.threads t = pc at hs
  cases step_writer hs with
  | inside _ ho hc _ _ => exact h.keep rfl (hpc ▸ hc) (hpc ▸ ho) (by simp)
  | read hfrom =>
    refine h.keep rfl ?_ ?_ (by simp) <;>
      (rw [hpc]; rcases hfrom with ⟨rfl, -⟩ | rfl <;> rfl)
  | openShard | openSegment | publish | check _ _ _ | clear _ | close =>
    exact h.keep rfl (by rw [hpc]; rfl) (by rw [hpc]; rfl) (by simp)
  | @count w =>
    have hnone : (c.threads t).obtained = none := by rw [hpc]; rfl
    refine ⟨?_, ?_⟩
    · rw [count_enter (by rw [hpc]; rfl) rfl, shared_after]
      simp [h.refs]
    · cases w with
      | none => exact h.paired.keep hnone.symm (by simp)
      | some w => exact h.paired.get (by simp) (by simp) hnone rfl
  | @release w =>
    have hsome : (c.threads t).obtained = w := by rw [hpc]; rfl
    refine ⟨?_, ?_⟩
    · rw [count_exit (by rw [hpc]; rfl) rfl, ← h.refs]
      rfl
    · cases w with
      | none => exact h.paired.keep hsome.symm (by simp)
      | some w => exact h.paired.return (by simp) (by simp) hsome rfl

theorem CountsInv.none_has (h : CountsInv c log) (h0 : c.shared.refCount = 0)
    (hp : nonePending c = true) (u : τ) : (c.threads u).has = none := by
  have hcount : count counted c = 0 := by
    have hrefs := h.refs
    omega
  have hu := count_eq_zero.1 hcount u
  have hpu := of_decide_eq_true hp u
  generalize c.threads u = pc at hu hpu ⊢
  cases pc with
  | publishing w | counting w => cases hpu
  | holding w | releasing w => cases hu
  | _ => rfl

end Counts

def Gone (c : Config Writers WriterPc τ) (log : List (WriterEvent τ)) (w : Nat) : Prop :=
  .closed w ∈ log ∨ ∃ t, (c.threads t).closes = some w

structure IdleInv [DecidableEq τ] (k : WriterKind) (c : Config Writers WriterPc τ)
    (log : List (WriterEvent τ)) : Prop where
  made : ∀ t w, (c.threads t).has = some w → w < c.shared.made
  writer : ∀ w, c.shared.writer = some w → w < c.shared.made ∧ ¬ Gone c log w
  gone : ∀ w, Gone c log w → w < c.shared.made ∧ ∀ t, (c.threads t).has ≠ some w
  clearing : k = .secondShard → ∀ t w, (c.threads t).clears = some w →
    w < c.shared.made ∧ ∀ u, (c.threads u).has ≠ some w
  closed : AllReturned .got .released .closed log

section Idle

variable [DecidableEq τ] {k : WriterKind} {c : Config Writers WriterPc τ}
  {log es : List (WriterEvent τ)} {t : τ} {x : WriterChoice} {m' : Writers} {pc' : WriterPc}

theorem gone_cases (h : Gone (c.after t m' pc') (log ++ es) w) :
    Gone c log w ∨ .closed w ∈ es ∨ pc'.closes = some w := by
  rcases h with hlog | ⟨u, hu⟩
  · rcases List.mem_append.1 hlog with hlog | hlog
    · exact .inl (.inl hlog)
    · exact .inr (.inl hlog)
  · by_cases hut : u = t
    · subst hut
      rw [threads_after_self] at hu
      exact .inr (.inr hu)
    · rw [threads_after_of_ne c hut] at hu
      exact .inl (.inr ⟨u, hu⟩)

theorem gone_after (hc : pc'.closes = none) (he : ∀ w, .closed w ∉ es)
    (h : Gone (c.after t m' pc') (log ++ es) w) : Gone c log w := by
  rcases gone_cases h with h | h | h
  · exact h
  · exact absurd h (he w)
  · rw [hc] at h
    cases h

theorem has_after (hpc : pc'.has ≠ some w) (h : ∀ u, (c.threads u).has ≠ some w) :
    ∀ u, ((c.after t m' pc').threads u).has ≠ some w :=
  forall_after (P := fun _ (l : WriterPc) => l.has ≠ some w) hpc fun u _ => h u

theorem IdleInv.keep (h : IdleInv k c log) (hm : c.shared.made ≤ m'.made)
    (hw : ∀ w, m'.writer = some w → w < m'.made ∧ ¬ Gone c log w)
    (hh : ∀ w, pc'.has = some w → w < m'.made ∧ ¬ Gone c log w ∧
      (k = .secondShard → ∀ u, (c.threads u).clears ≠ some w))
    (hcl : k = .secondShard → ∀ w, pc'.clears = some w →
      w < m'.made ∧ ∀ u, (c.threads u).has ≠ some w)
    (hself : pc'.clears = none ∨ pc'.has = none)
    (hc : pc'.closes = none) (he : ∀ w, .closed w ∉ es) :
    IdleInv k (c.after t m' pc') (log ++ es) := by
  refine ⟨?_, ?_, ?_, ?_, h.closed.keep he⟩
  · exact forall_after (P := fun _ (l : WriterPc) => ∀ w, l.has = some w → w < m'.made)
      (fun w hw' => (hh w hw').1) fun u _ w hw' => lt_of_lt_of_le (h.made u w hw') hm
  · intro w hw'
    exact ⟨(hw w hw').1, fun hg => (hw w hw').2 (gone_after hc he hg)⟩
  · intro w hg
    have hold := gone_after hc he hg
    exact ⟨lt_of_lt_of_le (h.gone w hold).1 hm,
      has_after (fun hw' => (hh w hw').2.1 hold) (h.gone w hold).2⟩
  · intro hk
    refine forall_after (P := fun _ (l : WriterPc) => ∀ w, l.clears = some w → w < m'.made ∧
      ∀ u, ((c.after t m' pc').threads u).has ≠ some w) ?_ ?_
    · intro w hw'
      refine ⟨(hcl hk w hw').1, has_after ?_ (hcl hk w hw').2⟩
      rcases hself with hnone | hnone <;> simp_all
    · intro v hv w hw'
      exact ⟨lt_of_lt_of_le (h.clearing hk v w hw').1 hm,
        has_after (fun hw'' => (hh w hw'').2.2 hk v hw') (h.clearing hk v w hw').2⟩

theorem IdleInv.leave (h : IdleInv k c log) (hm : m'.made = c.shared.made) (hhas : pc'.has = none)
    (hcl : pc'.clears = none)
    (hw : ∀ v, m'.writer = some v → v < m'.made ∧ ¬ Gone (c.after t m' pc') (log ++ es) v)
    (hg : ∀ v, Gone (c.after t m' pc') (log ++ es) v →
      v < c.shared.made ∧ ∀ u, (c.threads u).has ≠ some v)
    (hclosed : AllReturned .got .released .closed (log ++ es)) :
    IdleInv k (c.after t m' pc') (log ++ es) := by
  have hnone : ∀ v, pc'.has ≠ some v := by simp [hhas]
  refine ⟨?_, hw, fun v hv => ?_, fun hk => ?_, hclosed⟩
  · exact forall_after (P := fun _ (l : WriterPc) => ∀ v, l.has = some v → v < m'.made)
      (by simp [hhas]) fun u _ v hv => hm ▸ h.made u v hv
  · exact ⟨hm ▸ (hg v hv).1, has_after (hnone v) (hg v hv).2⟩
  · refine forall_after (P := fun _ (l : WriterPc) => ∀ v, l.clears = some v →
      v < m'.made ∧ ∀ u, ((c.after t m' pc').threads u).has ≠ some v) (by simp [hcl]) ?_
    intro u _ v hv
    have hold := h.clearing hk u v hv
    exact ⟨hm ▸ hold.1, has_after (hnone v) hold.2⟩

theorem IdleInv.clear (h : IdleInv k c log) (hm : m'.made = c.shared.made) (hw : m'.writer = none)
    (hmade : w < c.shared.made) (hfree : ∀ u, (c.threads u).has ≠ some w) :
    IdleInv k (c.after t m' (.closing w)) (log ++ []) := by
  refine h.leave hm rfl rfl (by simp [hw]) (fun v hg => ?_) (h.closed.keep (by simp))
  rcases gone_cases hg with hold | hclosed | hclosing
  · exact h.gone v hold
  · cases hclosed
  · cases hclosing
    exact ⟨hmade, hfree⟩

theorem IdleInv.close (h : IdleInv k c log) (hp : Paired .got .released obtained c log)
    (hpc : c.threads t = .closing w) :
    IdleInv k (c.after t c.shared .idle) (log ++ [.closed w]) := by
  have hgone : Gone c log w := .inr ⟨t, by rw [hpc]; rfl⟩
  have hold : ∀ v, Gone (c.after t c.shared .idle) (log ++ [.closed w]) v → Gone c log v := by
    intro v hg
    rcases gone_cases hg with hold | hclosed | hclosing
    · exact hold
    · cases List.mem_singleton.1 hclosed
      exact hgone
    · cases hclosing
  refine h.leave rfl rfl rfl
    (fun v hv => ⟨(h.writer v hv).1, fun hg => (h.writer v hv).2 (hold v hg)⟩)
    (fun v hg => h.gone v (hold v hg)) ?_
  refine h.closed.snoc hp (fun _ _ => WriterEvent.closed.inj) fun u hu => ?_
  refine (h.gone w hgone).2 u ?_
  generalize c.threads u = pc at hu
  cases pc <;> first | exact hu | cases hu

theorem idle_step [Fintype τ] (hcounts : CountsInv c log) (h : IdleInv k c log)
    (hok : quietClose k c log t x = true)
    (hs : step k t x c.shared (c.threads t) = some (m', pc', es)) :
    IdleInv k (c.after t m' pc') (log ++ es) := by
  generalize hpc : c.threads t = pc at hs
  have hmine : ∀ w, pc.has = some w → w < c.shared.made ∧ ¬ Gone c log w ∧
      (k = .secondShard → ∀ u, (c.threads u).clears ≠ some w) := by
    rintro w hw
    rw [← hpc] at hw
    exact ⟨h.made t w hw, fun hg => (h.gone w hg).2 t hw, fun hk u hu =>
      (h.clearing hk u w hu).2 t hw⟩
  cases step_writer hs with
  | inside hh _ _ hcl hc =>
    refine h.keep le_rfl h.writer ?_ (by simp [hcl]) (.inl hcl) hc (by simp)
    rw [hh]
    exact hmine
  | read hfrom =>
    refine h.keep le_rfl h.writer ?_ (by simp [clears]) (.inl rfl) rfl (by simp)
    intro w hw
    refine ⟨(h.writer w hw).1, (h.writer w hw).2, ?_⟩
    rintro rfl u hu
    have hnone : noneClearing c = true := by
      have hsome : c.shared.writer.isNone = false := by
        rw [show c.shared.writer = some w from hw]
        rfl
      rcases hfrom with ⟨rfl, rfl⟩ | rfl <;> simpa [quietClose, hpc, hsome] using hok
    rw [of_decide_eq_true hnone u] at hu
    cases hu
  | openShard =>
    refine h.keep (Nat.le_succ _) ?_ (by simp [has]) (by simp [clears])
      (.inl rfl) rfl (by simp)
    rintro w hw
    cases hw
    exact ⟨Nat.lt_succ_self _, fun hg => lt_irrefl _ (h.gone _ hg).1⟩
  | openSegment =>
    refine h.keep (Nat.le_succ _) ?_ ?_ (by simp [clears]) (.inl rfl) rfl (by simp)
    · exact fun w hw => ⟨Nat.lt_succ_of_lt (h.writer w hw).1, (h.writer w hw).2⟩
    · rintro w hw
      cases hw
      refine ⟨Nat.lt_succ_self _, fun hg => lt_irrefl _ (h.gone _ hg).1, fun hk u hu => ?_⟩
      exact lt_irrefl _ (h.clearing hk u _ hu).1
  | @publish w =>
    refine h.keep le_rfl ?_ hmine (by simp [clears]) (.inl rfl) rfl (by simp)
    rintro v hv
    cases hv
    exact ⟨(hmine w rfl).1, (hmine w rfl).2.1⟩
  | count =>
    exact h.keep le_rfl h.writer hmine (by simp [clears]) (.inl rfl) rfl (by simp)
  | release =>
    exact h.keep le_rfl h.writer (by simp [has]) (by simp [clears])
      (.inl rfl) rfl (by simp)
  | @check w hx hw h0 =>
    refine h.keep le_rfl h.writer (by simp [has]) ?_ (.inr rfl) rfl (by simp)
    rintro rfl v hv
    cases hv
    refine ⟨(h.writer w hw).1, fun u => ?_⟩
    have hp : nonePending c = true := by
      subst hx
      simpa [quietClose, hpc] using hok
    simp [hcounts.none_has h0 hp u]
  | @clear w hlast =>
    have hw : w < c.shared.made ∧ ∀ u, (c.threads u).has ≠ some w := by
      cases k with
      | secondShard => exact h.clearing rfl t w (by rw [hpc]; rfl)
      | segment =>
        obtain ⟨hw, h0⟩ := hlast rfl
        have hp : nonePending c = true := by simpa [quietClose, hpc] using hok
        exact ⟨(h.writer w hw).1, by simp [hcounts.none_has h0 hp]⟩
    exact h.clear rfl rfl hw.1 hw.2
  | close => exact h.close hcounts.paired hpc

theorem counts_start [Fintype τ] : CountsInv (start : Config Writers WriterPc τ) [] := by
  refine ⟨?_, fun t w => rfl⟩
  have hzero : count counted (start : Config Writers WriterPc τ) = 0 :=
    count_eq_zero.2 fun _ => rfl
  rw [hzero]
  rfl

theorem idle_start : IdleInv k (start : Config Writers WriterPc τ) [] := by
  have hlive : ∀ w, ¬ Gone (start : Config Writers WriterPc τ) [] w := by
    simp [Gone, start, closes]
  refine ⟨?_, ?_, fun w hg => absurd hg (hlive w), ?_, by simp [AllReturned]⟩
  · exact nofun
  · exact nofun
  · exact nofun

end Idle

end IdleWritersLemmas

open IdleWritersLemmas in
/-- In every run in which the closers look at the count while no caller is between its two
steps, no writer is closed between the moment a caller obtained it and the moment that
caller released it. -/
theorem closed_unused [Fintype τ] [DecidableEq τ] (k : WriterKind)
    {c : Config Writers WriterPc τ} {log : List (WriterEvent τ)}
    (h : Reach (step k) (quietClose k) start c log)
    (before later : List (WriterEvent τ)) {w : Nat} (hlog : log = before ++ .closed w :: later)
    (t : τ) : before.count (.got t w) = before.count (.released t w) := by
  have hinv : CountsInv c log ∧ IdleInv k c log := by
    refine reach_invariant (I := fun c log => CountsInv c log ∧ IdleInv k c log) ?_ ?_ h
    · exact ⟨counts_start, idle_start⟩
    · rintro c log t x m' pc' es ⟨hcounts, hidle⟩ hok hs
      exact ⟨counts_step hcounts hs, idle_step hcounts hidle hok hs⟩
  exact hinv.2.closed before later w hlog t

def usedOnce : List (Bool × WriterChoice) :=
  [(true, .get), (true, .proceed), (true, .proceed), (true, .proceed), (true, .release),
    (true, .proceed)]

theorem closed_unused_usedOnce :
    ∃ c, run (step .secondShard) (quietClose .secondShard)
        (usedOnce ++ [(false, .closeIdle), (false, .proceed), (false, .proceed)])
        start [] = some (c, [.got true 0, .released true 0, .closed 0]) ∧
      [WriterEvent.got true 0, .released true 0].count (.got true 0) =
        [WriterEvent.got true 0, .released true 0].count (.released true 0) :=
  ⟨_, rfl, closed_unused .secondShard
    ⟨usedOnce ++ [(false, .closeIdle), (false, .proceed), (false, .proceed)], rfl⟩
    [.got true 0, .released true 0] [] rfl true⟩

/-- The closer of second-layer shards finds the writer idle, the caller obtains it again,
and the closer goes on. In the protocol of vector segments, the caller takes the writer
first and raises the count after the closer has looked again. -/
theorem closed_in_use :
    (∃ c log, run Writers.secondShardStep free
        (usedOnce ++ [(false, .closeIdle), (true, .get), (true, .proceed), (false, .proceed),
          (false, .proceed)]) start [] = some (c, log) ∧
      c.threads true = .holding (some 0) ∧
      log = [.got true 0, .released true 0, .got true 0, .closed 0]) ∧
    ∃ c log, run Writers.segmentStep free
        (usedOnce ++ [(true, .get), (false, .closeIdle), (false, .proceed), (true, .proceed),
          (false, .proceed)]) start [] = some (c, log) ∧
      c.threads true = .holding (some 0) ∧
      log = [.got true 0, .released true 0, .got true 0, .closed 0] :=
  ⟨⟨_, _, rfl, rfl, rfl⟩, ⟨_, _, rfl, rfl, rfl⟩⟩

end SeaSearch
