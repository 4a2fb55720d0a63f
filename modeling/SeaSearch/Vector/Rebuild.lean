import SeaSearch.Lib.Threads
import SeaSearch.Vector.Segment

/-!
# Requests to rebuild an HNSW index

`HNSWIndex.Batch` asks for a rebuild when there are many log rows that are not in the index. A
request registers the task of the index in `buildHNSWIndexTasks` and sends it to the builder. If the
task is registered already, then nothing is sent.
-/

namespace SeaSearch

open Threads

variable {κ τ α : Type} {d : Nat} [DecidableEq κ] [DecidableEq τ]

/-- `NeedRebuildHNSW`, for the limit `HNSWMaxLogs`. A segment that is not loaded is one that cannot
be. -/
def HNSWSystem.needRebuildHNSW (maxLogs : Int) (s : HNSWSystem α d) : Bool :=
  s.memory.loaded && decide ((s.memory.latestLogID : Int) - s.memory.hnswLogID > maxLogs)

/-- `HNSWSegment.Batch` of a segment that is loaded, with the right parameters. -/
def HNSWSystem.batchCall (s : HNSWSystem α d) (call : BatchCall α) : HNSWSystem α d :=
  (s.step (.batch call)).step .batchReturn

/-- What the callers and the builder share: the segments of the indexes, the tasks that are
registered, and those that are offered on the channel. -/
structure RebuildState (κ α : Type) (d : Nat) where
  segments : κ → HNSWSystem α d
  buildHNSWIndexTasks : List κ := []
  buildHNSWIndexChan : List κ := []

/-- Where a thread is. A caller of `Batch` is
* `written`: before `SaveVecIndexMeta`, and `saved`: before `NeedRebuildHNSW`;
* `asking`: before `Set`, `sending`: before it sends, and `offered`: blocked on the channel.

The builder is
* `waiting` for a task, and `received`: before `GetVectorIndex`;
* `checking`: before `NeedRebuildHNSW`, `building`: before `applyLogs`, and `working` in it or after
  it;
* `ending`: before `Delete`. -/
inductive RebuildPc (κ : Type)
  | idle
  | written (task : κ)
  | saved (task : κ)
  | asking (task : κ)
  | sending (task : κ)
  | offered (task : κ)
  | waiting
  | received (task : κ)
  | checking (task : κ)
  | building (task : κ)
  | working (task : κ)
  | ending (task : κ)

/-- What a step does not decide: the call that starts, the task that is received, the order in which
records are read, and whether a call fails. -/
inductive RebuildChoice (κ α : Type) (d : Nat)
  | batch (task : κ) (call : BatchCall α)
  | receive (task : κ)
  | work (o : ReadOrder α d)
  | proceed
  | fail

inductive RebuildEvent (κ : Type)
  | failed (task : κ)
  deriving DecidableEq

/-- The event of the segment that comes next in `BuildHNSW`. -/
def HNSWWorker.next (o : ReadOrder α d) : HNSWWorker α d → HNSWEvent α d
  | .idle => .applyRead
  | .applying _ _ => .applyWrite o
  | .applied _ => .buildRead
  | .building _ _ => .buildSave o
  | .built _ _ => .cleanRead
  | .cleaning _ _ _ => .cleanWrite o
  | .cleaned _ _ _ => .cleanReturn o

/-- `cleanLogs` comes to its end. -/
def HNSWWorker.ends : HNSWWorker α d → Bool
  | .cleaned _ _ _ => true
  | _ => false

namespace RebuildState

def update (s : RebuildState κ α d) (task : κ) (segment : HNSWSystem α d) : RebuildState κ α d :=
  { s with segments := Function.update s.segments task segment }

/-- The part of `BuildHNSW` that comes next. -/
def work (s : RebuildState κ α d) (task : κ) (o : ReadOrder α d) : RebuildState κ α d :=
  s.update task ((s.segments task).step ((s.segments task).worker.next o))

def step (maxLogs : Int) :
    Program (RebuildState κ α d) (RebuildPc κ) τ (RebuildChoice κ α d) (RebuildEvent κ) :=
  fun _ x s pc =>
    match pc, x with
    | .idle, .batch task call =>
      if (s.segments task).memory.loaded ∧ (call.changes d).isSome then
        some (s.update task ((s.segments task).batchCall call), .written task, [])
      else some (s, .idle, [])
    | .written task, .proceed => some (s, .saved task, [])
    | .written _, .fail => some (s, .idle, [])
    | .saved task, .proceed =>
      if (s.segments task).needRebuildHNSW maxLogs then some (s, .asking task, [])
      else some (s, .idle, [])
    | .asking task, .proceed =>
      if task ∈ s.buildHNSWIndexTasks then some (s, .idle, [])
      else some ({ s with buildHNSWIndexTasks := task :: s.buildHNSWIndexTasks }, .sending task, [])
    | .sending task, .proceed =>
      some ({ s with buildHNSWIndexChan := s.buildHNSWIndexChan ++ [task] }, .offered task, [])
    | .offered task, .proceed =>
      if task ∈ s.buildHNSWIndexChan then none else some (s, .idle, [])
    | .waiting, .receive task =>
      if task ∈ s.buildHNSWIndexChan then
        some ({ s with buildHNSWIndexChan := s.buildHNSWIndexChan.erase task }, .received task, [])
      else none
    | .received task, .proceed => some (s, .checking task, [])
    | .received task, .fail => some (s, .ending task, [.failed task])
    | .checking task, .proceed =>
      if (s.segments task).needRebuildHNSW maxLogs then some (s, .building task, [])
      else some (s, .ending task, [])
    | .building task, .work o => some (s.work task o, .working task, [])
    | .working task, .work o =>
      some (s.work task o, if (s.segments task).worker.ends then .checking task else .working task,
        [])
    | .building task, .fail => some (s, .ending task, [.failed task])
    | .working task, .fail =>
      if (s.segments task).worker.ends then none
      else some (s.update task ((s.segments task).step .buildFails), .ending task, [.failed task])
    | .ending task, .proceed =>
      some ({ s with buildHNSWIndexTasks := s.buildHNSWIndexTasks.filter (· ≠ task) }, .waiting, [])
    | _, _ => none

def start (builder : τ) (segments : κ → HNSWSystem α d) :
    Config (RebuildState κ α d) (RebuildPc κ) τ :=
  ⟨{ segments }, fun t => if t = builder then .waiting else .idle⟩

end RebuildState

namespace RebuildPc

def asks : RebuildPc κ → Option κ
  | written task | saved task | asking task => some task
  | _ => none

/-- The thread is in a call of `Batch`. -/
def batches : RebuildPc κ → Option κ
  | written task | saved task | asking task | sending task | offered task => some task
  | _ => none

def looks : RebuildPc κ → Option κ
  | received task | checking task | building task | working task => some task
  | _ => none

def ends : RebuildPc κ → Option κ
  | ending task => some task
  | _ => none

def builds : RebuildPc κ → Bool
  | waiting | received _ | checking _ | building _ | working _ | ending _ => true
  | _ => false

end RebuildPc

section Requests

variable (maxLogs : Int) (builder : τ) (c : Config (RebuildState κ α d) (RebuildPc κ) τ)

def Pending (task : κ) : Prop :=
  (∃ t, c.threads t = .sending task) ∨ task ∈ c.shared.buildHNSWIndexChan ∨
    (c.threads builder).looks = some task

def Asked (task : κ) : Prop := (∃ t, (c.threads t).asks = some task) ∨ Pending builder c task

/-- Nobody works on the index: there is no `Batch`, the builder waits, and the task is neither
registered nor sent. -/
def Quiet (task : κ) : Prop :=
  (∀ t, (c.threads t).batches ≠ some task) ∧ c.threads builder = .waiting ∧
    task ∉ c.shared.buildHNSWIndexTasks ∧ task ∉ c.shared.buildHNSWIndexChan

/-- The metadata are saved, and no `Batch` finds a task registered after the last check of the
builder. -/
def timely : Guard (RebuildState κ α d) (RebuildPc κ) τ (RebuildChoice κ α d) (RebuildEvent κ) :=
  fun c _ t x =>
    match c.threads t, x with
    | .written _, .fail => false
    | .asking task, .proceed =>
      decide (task ∉ c.shared.buildHNSWIndexTasks ∨ (c.threads builder).ends ≠ some task)
    | _, _ => true

structure RebuildMove (x : RebuildChoice κ α d) (s : RebuildState κ α d) (pc : RebuildPc κ)
    (s' : RebuildState κ α d) (pc' : RebuildPc κ) (es : List (RebuildEvent κ)) : Prop where
  builds : pc'.builds = pc.builds
  sent : ∀ task, pc = .sending task → task ∈ s'.buildHNSWIndexChan
  received : ∀ task ∈ s.buildHNSWIndexChan,
    task ∈ s'.buildHNSWIndexChan ∨ pc.builds = true ∧ pc'.looks = some task
  looked : ∀ task, pc.looks = some task → pc'.looks = some task ∨ pc'.ends = some task
  registered : ∀ task ∈ s'.buildHNSWIndexTasks,
    task ∈ s.buildHNSWIndexTasks ∧ pc.ends ≠ some task ∨ pc' = .sending task
  ended : ∀ task, pc'.ends = some task → .failed task ∉ es →
    (s'.segments task).needRebuildHNSW maxLogs = false
  written : ∀ task, (s'.segments task).needRebuildHNSW maxLogs = true → .failed task ∉ es →
    (s.segments task).needRebuildHNSW maxLogs = true ∨ pc'.asks = some task ∨
      pc.builds = true ∧ pc'.looks = some task
  asked : ∀ task, (s'.segments task).needRebuildHNSW maxLogs = true → pc.asks = some task →
    pc'.asks = some task ∨ pc' = .sending task ∨ pc = .written task ∧ x = .fail ∨
      pc = .asking task ∧ x = .proceed ∧ task ∈ s.buildHNSWIndexTasks

structure RebuildInv (log : List (RebuildEvent κ)) : Prop where
  roles : ∀ t, (c.threads t).builds = true ↔ t = builder
  registered : ∀ task ∈ c.shared.buildHNSWIndexTasks,
    Pending builder c task ∨ (c.threads builder).ends = some task
  asked : ∀ task, .failed task ∉ log →
    (c.shared.segments task).needRebuildHNSW maxLogs = true → Asked builder c task

end Requests

namespace RebuildLemmas

variable {maxLogs : Int} {builder t : τ} {c : Config (RebuildState κ α d) (RebuildPc κ) τ}
  {s : RebuildState κ α d} {pc : RebuildPc κ} {task : κ} {log : List (RebuildEvent κ)}

omit [DecidableEq κ] in
theorem batches_of_asks (h : pc.asks = some task) : pc.batches = some task := by
  cases pc <;> first | exact h | cases h

theorem needRebuildHNSW_update {segment : HNSWSystem α d}
    (h : ((s.update other segment).segments task).needRebuildHNSW maxLogs = true) :
    (s.segments task).needRebuildHNSW maxLogs = true ∨ other = task := by
  by_cases heq : task = other
  · exact .inr heq.symm
  · have hsame : (s.update other segment).segments task = s.segments task :=
      Function.update_of_ne heq ..
    exact .inl (by rwa [hsame] at h)

omit [DecidableEq τ] in
attribute [local simp] RebuildPc.asks RebuildPc.looks RebuildPc.ends RebuildPc.builds in
theorem step_rebuild (h : RebuildState.step maxLogs t x s pc = some (s', pc', es)) :
    RebuildMove maxLogs x s pc s' pc' es := by
  rw [RebuildState.step.eq_def] at h
  split at h
  all_goals try split at h
  all_goals cases h
  all_goals constructor
  all_goals try (simp +contextual [RebuildState.update, RebuildState.work]; done)
  · -- `Batch` writes.
    intro task hneed _
    simpa using needRebuildHNSW_update hneed
  · -- `NeedRebuildHNSW` is false for the caller.
    next hcurrent =>
    rintro task hneed ⟨⟩
    exact absurd hneed hcurrent
  · -- The task is registered already.
    next hin =>
    rintro task - ⟨⟩
    exact .inr (.inr (.inr ⟨rfl, rfl, hin⟩))
  · -- The builder takes a task from the channel.
    next other _ =>
    intro task hin
    by_cases heq : task = other
    · exact .inr ⟨rfl, congrArg some heq.symm⟩
    · exact .inl ((List.mem_erase_of_ne heq).2 hin)
  · -- `NeedRebuildHNSW` is false for the builder.
    next hcurrent =>
    rintro task ⟨⟩ -
    exact eq_false_of_ne_true hcurrent
  iterate 3
    -- The builder works on the segment.
    · intro task hneed _
      simpa using needRebuildHNSW_update hneed
  · -- The build fails.
    intro task hneed hfailed
    rcases needRebuildHNSW_update hneed with hneed | rfl
    · exact .inl hneed
    · exact absurd List.mem_cons_self hfailed
  · -- The task is deleted.
    intro task hin
    obtain ⟨hin, hne⟩ := List.mem_filter.1 hin
    exact .inl ⟨hin, fun hends => of_decide_eq_true hne (Option.some.inj hends).symm⟩

section Step

variable {x : RebuildChoice κ α d} {es : List (RebuildEvent κ)}

omit [DecidableEq κ] in
theorem pending_after (h : RebuildInv maxLogs builder c log)
    (hmove : RebuildMove maxLogs x c.shared (c.threads t) s pc es)
    (hpending : Pending builder c task) :
    Pending builder (c.after t s pc) task ∨ t = builder ∧ pc.ends = some task := by
  rcases hpending with ⟨u, hu⟩ | hin | hlooks
  · by_cases hut : u = t
    · subst hut
      exact .inl (.inr (.inl (hmove.sent task hu)))
    · exact .inl (.inl ⟨u, by rw [threads_after_of_ne c hut, hu]⟩)
  · rcases hmove.received task hin with hin | ⟨hbuilds, hlooks⟩
    · exact .inl (.inr (.inl hin))
    · obtain rfl := (h.roles t).1 hbuilds
      exact .inl (.inr (.inr (by rwa [threads_after_self])))
  · by_cases hbt : builder = t
    · subst hbt
      rcases hmove.looked task hlooks with hlooks | hends
      · exact .inl (.inr (.inr (by rwa [threads_after_self])))
      · exact .inr ⟨rfl, hends⟩
    · exact .inl (.inr (.inr (by rwa [threads_after_of_ne c hbt])))

omit [DecidableEq κ] in
theorem registered_after (h : RebuildInv maxLogs builder c log)
    (hmove : RebuildMove maxLogs x c.shared (c.threads t) s pc es)
    (hin : task ∈ s.buildHNSWIndexTasks) :
    Pending builder (c.after t s pc) task ∨
      ((c.after t s pc).threads builder).ends = some task := by
  rcases hmove.registered task hin with ⟨hin, hnot⟩ | hsending
  · rcases h.registered task hin with hpending | hends
    · refine (pending_after h hmove hpending).imp_right ?_
      rintro ⟨rfl, hends⟩
      rwa [threads_after_self]
    · have hbt : builder ≠ t := by
        rintro rfl
        exact hnot hends
      exact .inr (by rwa [threads_after_of_ne c hbt])
  · exact .inl (.inl ⟨t, by rwa [threads_after_self]⟩)

section Timely

variable (h : RebuildInv maxLogs builder c log) (hok : timely builder c log t x = true)

include h hok

theorem asks_after (hmove : RebuildMove maxLogs x c.shared (c.threads t) s pc es)
    (hneed : (s.segments task).needRebuildHNSW maxLogs = true)
    (hasks : (c.threads t).asks = some task) :
    Asked builder (c.after t s pc) task ∨ Pending builder c task := by
  rcases hmove.asked task hneed hasks with hasks | hsending | ⟨hpc, rfl⟩ | ⟨hpc, rfl, hin⟩
  · exact .inl (.inl ⟨t, by rwa [threads_after_self]⟩)
  · exact .inl (.inr (.inl ⟨t, by rwa [threads_after_self]⟩))
  · simp [timely, hpc] at hok
  · have hends : (c.threads builder).ends ≠ some task := by simpa [timely, hpc, hin] using hok
    exact .inr ((h.registered task hin).resolve_right hends)

theorem asked_after (hmove : RebuildMove maxLogs x c.shared (c.threads t) s pc es)
    (hneed : (s.segments task).needRebuildHNSW maxLogs = true) (hes : .failed task ∉ es)
    (hlog : .failed task ∉ log) : Asked builder (c.after t s pc) task := by
  have hpending : Pending builder c task → Asked builder (c.after t s pc) task := by
    intro hpending
    rcases pending_after h hmove hpending with hpending | ⟨-, hends⟩
    · exact .inr hpending
    · rw [hmove.ended task hends hes] at hneed
      cases hneed
  rcases hmove.written task hneed hes with hbefore | hasks | ⟨hbuilds, hlooks⟩
  · rcases h.asked task hlog hbefore with ⟨u, hu⟩ | hbefore
    · by_cases hut : u = t
      · subst hut
        exact (asks_after h hok hmove hneed hu).elim id hpending
      · exact .inl ⟨u, by rwa [threads_after_of_ne c hut]⟩
    · exact hpending hbefore
  · exact .inl ⟨t, by rwa [threads_after_self]⟩
  · obtain rfl := (h.roles t).1 hbuilds
    exact .inr (.inr (.inr (by rwa [threads_after_self])))

theorem rebuildInv_step
    (hstep : RebuildState.step maxLogs t x c.shared (c.threads t) = some (s, pc, es)) :
    RebuildInv maxLogs builder (c.after t s pc) (log ++ es) := by
  have hmove := step_rebuild hstep
  constructor
  case roles =>
    refine forall_after (P := fun u (pc : RebuildPc κ) => pc.builds = true ↔ u = builder) ?_
      fun u _ => h.roles u
    rw [hmove.builds]
    exact h.roles t
  case registered => exact fun task => registered_after h hmove
  case asked =>
    intro task hfailed hneed
    rw [List.mem_append, not_or] at hfailed
    exact asked_after h hok hmove hneed hfailed.2 hfailed.1

end Timely

end Step

omit [DecidableEq κ] in
theorem rebuildInv_start {segments : κ → HNSWSystem α d}
    (h : ∀ task, (segments task).needRebuildHNSW maxLogs = false) :
    RebuildInv maxLogs builder (RebuildState.start builder segments) [] := by
  constructor
  case roles =>
    intro t
    by_cases ht : t = builder <;> simp [RebuildState.start, ht, RebuildPc.builds]
  case registered => exact nofun
  case asked =>
    intro task _ hneed
    rw [RebuildState.start, h task] at hneed
    cases hneed

end RebuildLemmas

open RebuildLemmas

/-- No request is lost if the metadata are saved and no `Batch` comes between the last check of the
builder and the end of its task. -/
theorem rebuild_not_lost (maxLogs : Int) (builder : τ) (segments : κ → HNSWSystem α d)
    (hsegments : ∀ task, (segments task).needRebuildHNSW maxLogs = false)
    (c : Config (RebuildState κ α d) (RebuildPc κ) τ) (log : List (RebuildEvent κ))
    (h : Reach (RebuildState.step maxLogs) (timely builder) (RebuildState.start builder segments) c
      log) (task : κ) (hquiet : Quiet builder c task) (hfailed : .failed task ∉ log) :
    (c.shared.segments task).needRebuildHNSW maxLogs = false := by
  have hinv : RebuildInv maxLogs builder c log := by
    refine reach_invariant (rebuildInv_start hsegments) ?_ h
    intro c log t x s pc es hinv hok hstep
    exact rebuildInv_step hinv hok hstep
  obtain ⟨hbatches, hwaiting, -, hchan⟩ := hquiet
  refine eq_false_of_ne_true fun hneed => ?_
  rcases hinv.asked task hfailed hneed with ⟨t, ht⟩ | ⟨t, ht⟩ | hin | hlooks
  · exact hbatches t (batches_of_asks ht)
  · exact hbatches t (by rw [ht, RebuildPc.batches])
  · exact hchan hin
  · rw [hwaiting] at hlooks
    cases hlooks

def rebuildAsked : List (Bool × RebuildChoice Unit Int 1) :=
  [(true, .batch () ⟨[], [], [1]⟩), (true, .proceed), (true, .proceed), (true, .proceed),
    (true, .proceed), (false, .receive ()), (true, .proceed)]

def rebuildDone : List (Bool × RebuildChoice Unit Int 1) :=
  let o : ReadOrder Int 1 :=
    ⟨⟨id, fun _ => .refl _⟩, ⟨id, fun _ => .refl _⟩, ⟨id, fun _ => .refl _⟩⟩
  [(false, .proceed), (false, .proceed)] ++ List.replicate 7 (false, .work o) ++
    [(false, .proceed)]

def rebuildLate : List (Bool × RebuildChoice Unit Int 1) :=
  [(true, .batch () ⟨[], [], [2]⟩), (true, .proceed), (true, .proceed), (true, .proceed)]

theorem rebuild_not_lost_once :
    ∃ c, run (RebuildState.step 0) (timely false)
        (rebuildAsked ++ rebuildDone ++ [(false, .proceed)])
        (RebuildState.start false fun _ => { memory := { loaded := true } }) [] = some (c, []) ∧
      (c.shared.segments ()).memory.latestLogID = 1 ∧
      (c.shared.segments ()).needRebuildHNSW 0 = false :=
  ⟨_, rfl, rfl, rebuild_not_lost 0 false (fun _ => { memory := { loaded := true } })
    (fun _ => rfl) _ [] ⟨rebuildAsked ++ rebuildDone ++ [(false, .proceed)], rfl⟩ ()
    ⟨fun t => by cases t <;> nofun, rfl, nofun, nofun⟩ nofun⟩

/-- The second `Batch` finds the task registered, and then the builder deletes it. -/
theorem request_lost :
    ∃ c, run (RebuildState.step 0) free
        (rebuildAsked ++ rebuildDone ++ rebuildLate ++ [(false, .proceed)])
        (RebuildState.start false fun _ => { memory := { loaded := true } }) [] = some (c, []) ∧
      Quiet false c () ∧ (c.shared.segments ()).needRebuildHNSW 0 = true :=
  ⟨_, rfl, ⟨fun t => by cases t <;> nofun, rfl, nofun, nofun⟩, rfl⟩

end SeaSearch
