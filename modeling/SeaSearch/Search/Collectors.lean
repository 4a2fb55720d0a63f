import Mathlib

/-!
# The goroutines of a search

With several searchers, `MultiZincSearch` starts two collectors, for the documents and for the
aggregations, and then a worker for each searcher. A collector ends when its channel is closed and
empty, and the channels are closed only if everything has succeeded.
-/

namespace SeaSearch

open List Relation

inductive SearchChan
  | docs
  | aggs
  deriving DecidableEq

/-- A worker: what it has still to send, and whether it returns without an error then. -/
structure SearchWorker where
  sends : List SearchChan
  succeeds : Bool

/-- A searcher: whether the query is parsed for it, and what its worker does. -/
structure SearcherRun extends SearchWorker where
  parses : Bool

/-- A call: whether the query is normalized and parsed, the searchers, the sizes of the buffers of
the channels and the limit of the error group. -/
structure SearchCall where
  normalizes : Bool
  parses : Bool
  searchers : List SearcherRun
  room : SearchChan → Nat
  limit : Nat

/-- Where `MultiZincSearch` is. In the loop it has some searchers before it. -/
inductive SearchPc
  | start
  | normalize
  | parse
  | loop (rest : List SearcherRun)
  | join
  | returned

/-- `MultiZincSearch` and the goroutines that it has started. -/
structure SearchState where
  pc : SearchPc
  failed : Bool := false
  buffer : SearchChan → Nat := fun _ => 0
  closed : SearchChan → Bool := fun _ => false
  collector : SearchChan → Bool := fun _ => false
  workers : List SearchWorker := []

/-- The steps of the function and of its goroutines. -/
inductive SearchStep (call : SearchCall) : SearchState → SearchState → Prop
  | few (s : SearchState) : s.pc = .start → call.searchers.length ≤ 1 →
      SearchStep call s { s with pc := .returned }
  | collect (s : SearchState) : s.pc = .start → 1 < call.searchers.length →
      SearchStep call s { s with pc := .normalize, collector := fun _ => true }
  | normalize (s : SearchState) : s.pc = .normalize →
      SearchStep call s { s with pc := if call.normalizes then .parse else .returned }
  | parse (s : SearchState) : s.pc = .parse →
      SearchStep call s { s with pc := if call.parses then .loop call.searchers else .returned }
  | refuse (s : SearchState) (r : SearcherRun) (rest : List SearcherRun) :
      s.pc = .loop (r :: rest) → r.parses = false → SearchStep call s { s with pc := .returned }
  -- `eg.Go` waits for a place in the error group
  | go (s : SearchState) (r : SearcherRun) (rest : List SearcherRun) :
      s.pc = .loop (r :: rest) → r.parses → s.workers.length < call.limit →
      SearchStep call s { s with pc := .loop rest, workers := s.workers ++ [r.toSearchWorker] }
  -- `eg.Wait` returns an error, or both channels are closed
  | wait (s : SearchState) : s.pc = .loop [] → s.workers = [] →
      SearchStep call s (if s.failed then { s with pc := .returned }
        else { s with pc := .join, closed := fun _ => true })
  | join (s : SearchState) : s.pc = .join → (∀ c, s.collector c = false) →
      SearchStep call s { s with pc := .returned }
  | receive (s : SearchState) (c : SearchChan) (n : Nat) : s.collector c → s.buffer c = n + 1 →
      SearchStep call s { s with buffer := Function.update s.buffer c n }
  | finish (s : SearchState) (c : SearchChan) : s.collector c → s.closed c → s.buffer c = 0 →
      SearchStep call s { s with collector := Function.update s.collector c false }
  | send (s : SearchState) (c : SearchChan) (sends : List SearchChan) (succeeds : Bool)
      (before after : List SearchWorker) :
      s.workers = before ++ ⟨c :: sends, succeeds⟩ :: after → s.buffer c < call.room c →
      SearchStep call s { s with
        buffer := Function.update s.buffer c (s.buffer c + 1)
        workers := before ++ ⟨sends, succeeds⟩ :: after }
  | exit (s : SearchState) (succeeds : Bool) (before after : List SearchWorker) :
      s.workers = before ++ ⟨[], succeeds⟩ :: after →
      SearchStep call s { s with
        failed := s.failed || !succeeds
        workers := before ++ after }

/-- The states that a call comes to. -/
def SearchReach (call : SearchCall) (s : SearchState) : Prop :=
  ReflTransGen (SearchStep call) ⟨.start, false, fun _ => 0, fun _ => false, fun _ => false, []⟩ s

/-- All goroutines can come to their end. -/
def CanEnd (call : SearchCall) (s : SearchState) : Prop :=
  ∃ s', ReflTransGen (SearchStep call) s s' ∧ (∀ c, s'.collector c = false) ∧ s'.workers = []

/-- The query is normalized and parsed each time, and every search succeeds. -/
def SearchCall.Succeeds (call : SearchCall) : Prop :=
  call.normalizes ∧ call.parses ∧ ∀ r ∈ call.searchers, r.parses ∧ r.succeeds

namespace CollectorLemmas

variable {call : SearchCall} {s s' : SearchState}

/-- A worker that has failed or will fail. -/
def fails (s : SearchState) : Bool := s.failed || s.workers.any fun w => !w.succeeds

/-- The collectors wait, and nobody has closed their channels. -/
def Waiting (s : SearchState) : Prop := ∀ c, s.collector c ∧ s.closed c = false

/-- What holds where the function is. -/
def Holds (call : SearchCall) (s : SearchState) : Prop :=
  match s.pc with
  | .start => (∀ c, s.collector c = false) ∧ s.workers = [] ∧ (∀ c, s.closed c = false) ∧
      fails s = false
  | .normalize => Waiting s ∧ fails s = false ∧ 1 < call.searchers.length
  | .parse => Waiting s ∧ fails s = false ∧ 1 < call.searchers.length ∧ call.normalizes
  | .loop rest => Waiting s ∧ 1 < call.searchers.length ∧ call.normalizes ∧ call.parses ∧
      ∃ started, call.searchers = started ++ rest ∧ (∀ r ∈ started, r.parses) ∧
        fails s = started.any fun r => !r.succeeds
  | .join => call.Succeeds ∧ s.workers = []
  | .returned => (call.searchers.length ≤ 1 ∨ call.Succeeds) ∧ (∀ c, s.collector c = false) ∧
      s.workers = [] ∨ ¬ (call.searchers.length ≤ 1 ∨ call.Succeeds) ∧ Waiting s

/-- What a step of a goroutine leaves as it is. -/
structure Frame (s s' : SearchState) : Prop where
  pc : s'.pc = s.pc
  closed : s'.closed = s.closed
  waiting : Waiting s → Waiting s'
  collectors : (∀ c, s.collector c = false) → ∀ c, s'.collector c = false
  workers : s.workers = [] → s'.workers = []
  fails : fails s' = fails s

theorem Frame.holds (h : Frame s s') (hs : Holds call s) : Holds call s' := by
  obtain ⟨hpc, hclosed, hwaiting, hcollectors, hworkers, hfails⟩ := h
  unfold Holds at hs ⊢
  rw [hpc, hclosed, hfails]
  split at hs
  · exact ⟨hcollectors hs.1, hworkers hs.2.1, hs.2.2⟩
  · exact ⟨hwaiting hs.1, hs.2⟩
  · exact ⟨hwaiting hs.1, hs.2⟩
  · exact ⟨hwaiting hs.1, hs.2⟩
  · exact ⟨hs.1, hworkers hs.2⟩
  · exact hs.imp (fun h => ⟨h.1, hcollectors h.2.1, hworkers h.2.2⟩) fun h => ⟨h.1, hwaiting h.2⟩

theorem any_middle (before after : List SearchWorker) (sends : List SearchChan) (b : Bool) :
    (before ++ ⟨sends, b⟩ :: after).any (fun w => !w.succeeds) =
      (!b || (before ++ after).any fun w => !w.succeeds) := by
  simp only [any_append, any_cons]
  cases before.any fun w => !w.succeeds <;> cases b <;> simp

/-- A step is one of a goroutine, or one of the function before it returns. -/
theorem frame_or_main (h : SearchStep call s s') :
    Frame s s' ∨ s.pc ≠ .returned ∧ (Holds call s → Holds call s') := by
  cases h with
  | receive c n hcollector hn => exact .inl ⟨rfl, rfl, id, id, id, rfl⟩
  | finish c hcollector hclosed hempty =>
    refine .inl ⟨rfl, rfl, fun hwaiting => ?_, fun hended => ?_, id, rfl⟩
    · exact absurd ((hwaiting c).2.symm.trans hclosed) Bool.false_ne_true
    · exact absurd ((hended c).symm.trans hcollector) Bool.false_ne_true
  | send c sends succeeds before after hworkers hroom =>
    refine .inl ⟨rfl, rfl, id, id, fun hnil => ?_, ?_⟩
    · simp [hnil] at hworkers
    · simp only [fails, hworkers, any_middle]
  | exit succeeds before after hworkers =>
    refine .inl ⟨rfl, rfl, id, id, fun hnil => ?_, ?_⟩
    · simp [hnil] at hworkers
    · simp only [fails, hworkers, any_middle, Bool.or_assoc]
  | few hpc hfew =>
    refine .inr ⟨hpc ▸ nofun, fun hs => ?_⟩
    rw [Holds, hpc] at hs
    exact .inl ⟨.inl hfew, hs.1, hs.2.1⟩
  | collect hpc hmany =>
    refine .inr ⟨hpc ▸ nofun, fun hs => ?_⟩
    rw [Holds, hpc] at hs
    exact ⟨fun c => ⟨rfl, hs.2.2.1 c⟩, hs.2.2.2, hmany⟩
  | normalize hpc =>
    refine .inr ⟨hpc ▸ nofun, fun hs => ?_⟩
    rw [Holds, hpc] at hs
    cases hok : call.normalizes with
    | true => exact ⟨hs.1, hs.2.1, hs.2.2, hok⟩
    | false =>
      have hfails : ¬call.Succeeds := fun h => absurd (hok.symm.trans h.1) (by decide)
      exact .inr ⟨not_or.2 ⟨not_le.2 hs.2.2, hfails⟩, hs.1⟩
  | parse hpc =>
    refine .inr ⟨hpc ▸ nofun, fun hs => ?_⟩
    rw [Holds, hpc] at hs
    obtain ⟨hwaiting, hfails, hmany, hnormalizes⟩ := hs
    cases hok : call.parses with
    | true => exact ⟨hwaiting, hmany, hnormalizes, hok, [], rfl, nofun, hfails⟩
    | false =>
      exact .inr ⟨not_or.2 ⟨not_le.2 hmany, fun h => absurd (hok.symm.trans h.2.1) (by decide)⟩,
        hwaiting⟩
  | refuse r rest hpc hparses =>
    refine .inr ⟨hpc ▸ nofun, fun hs => ?_⟩
    rw [Holds, hpc] at hs
    obtain ⟨hwaiting, hmany, -, -, started, hrest, -⟩ := hs
    refine .inr ⟨not_or.2 ⟨not_le.2 hmany, fun h => ?_⟩, hwaiting⟩
    exact absurd (hparses.symm.trans (h.2.2 r (by simp [hrest])).1) (by decide)
  | go r rest hpc hparses hlimit =>
    refine .inr ⟨hpc ▸ nofun, fun hs => ?_⟩
    rw [Holds, hpc] at hs
    obtain ⟨hwaiting, hmany, hnormalizes, hquery, started, hrest, hstarted, hfails⟩ := hs
    refine ⟨hwaiting, hmany, hnormalizes, hquery, started ++ [r], by simp [hrest], ?_, ?_⟩
    · simpa [or_imp, forall_and, hparses] using hstarted
    · simp only [fails] at hfails ⊢
      rw [any_append, any_append, ← Bool.or_assoc, hfails]
      simp
  | wait hpc hworkers =>
    refine .inr ⟨hpc ▸ nofun, fun hs => ?_⟩
    rw [Holds, hpc] at hs
    obtain ⟨hwaiting, hmany, hnormalizes, hquery, started, hrest, hstarted, hfails⟩ := hs
    rw [append_nil] at hrest
    rw [fails, hworkers, any_nil, Bool.or_false] at hfails
    split
    · next hfailed =>
      obtain ⟨r, hr, hbad⟩ := any_eq_true.1 (hfails.symm.trans hfailed)
      refine .inr ⟨not_or.2 ⟨not_le.2 hmany, fun h => ?_⟩, hwaiting⟩
      simp [(h.2.2 r (hrest ▸ hr)).2] at hbad
    · next hfailed =>
      rw [Bool.not_eq_true] at hfailed
      refine ⟨⟨hnormalizes, hquery, fun r hr => ?_⟩, hworkers⟩
      have hgood := any_eq_false.1 (hfails.symm.trans hfailed) r (hrest ▸ hr)
      exact ⟨hstarted r (hrest ▸ hr), by simpa using hgood⟩
  | join hpc hended =>
    refine .inr ⟨hpc ▸ nofun, fun hs => ?_⟩
    rw [Holds, hpc] at hs
    exact .inl ⟨.inr hs.1, hended, hs.2⟩

theorem holds_reach (h : SearchReach call s) : Holds call s := by
  induction h with
  | refl => exact ⟨fun _ => rfl, rfl, fun _ => rfl, rfl⟩
  | tail _ hstep ih => exact (frame_or_main hstep).elim (fun h => h.holds ih) fun h => h.2 ih

/-- After the return only the goroutines take steps, and nobody closes a channel. -/
theorem waits_for_ever (h : ReflTransGen (SearchStep call) s s') (hpc : s.pc = .returned)
    (hs : Waiting s) : s'.pc = .returned ∧ Waiting s' := by
  induction h with
  | refl => exact ⟨hpc, hs⟩
  | tail _ hstep ih =>
    have hframe := (frame_or_main hstep).resolve_right fun h => h.1 ih.1
    exact ⟨hframe.pc.trans ih.1, hframe.waiting ih.2⟩

end CollectorLemmas

open CollectorLemmas

/-- Whenever `MultiZincSearch` has returned, all its goroutines can end if and only if there is at
most one searcher, or the query is normalized and parsed each time and every search succeeds. -/
theorem search_leaves_nothing_iff {call : SearchCall} {s : SearchState} (hs : SearchReach call s)
    (hpc : s.pc = .returned) :
    CanEnd call s ↔ call.searchers.length ≤ 1 ∨ call.Succeeds := by
  have hholds := holds_reach hs
  rw [Holds, hpc] at hholds
  rcases hholds with ⟨hgood, hended, hworkers⟩ | ⟨hbad, hwaiting⟩
  · exact iff_of_true ⟨s, .refl, hended, hworkers⟩ hgood
  · refine iff_of_false ?_ hbad
    rintro ⟨s', hrun, hended, -⟩
    have hdocs := (waits_for_ever hrun hpc hwaiting).2 .docs
    exact absurd (hdocs.1.symm.trans (hended .docs)) (by decide)

/-- Two searchers without documents. -/
def twoSearchers (normalizes : Bool) : SearchCall where
  normalizes
  parses := true
  searchers := [⟨⟨[.aggs], true⟩, true⟩, ⟨⟨[.aggs], true⟩, true⟩]
  room _ := 2
  limit := 3

theorem search_leaves_nothing_two :
    ∃ s, SearchReach (twoSearchers true) s ∧ s.pc = .returned ∧ CanEnd (twoSearchers true) s := by
  have hrun : SearchReach (twoSearchers true) _ :=
    ((((((((((((((ReflTransGen.refl.tail (.collect _ rfl (by decide))).tail
      (.normalize _ rfl)).tail (.parse _ rfl)).tail (.go _ _ _ rfl rfl (by decide))).tail
      (.send _ .aggs [] true [] [] rfl (by decide))).tail (.exit _ true [] [] rfl)).tail
      (.go _ _ _ rfl rfl (by decide))).tail (.send _ .aggs [] true [] [] rfl (by decide))).tail
      (.exit _ true [] [] rfl)).tail (.wait _ rfl rfl)).tail (.receive _ .aggs 1 rfl rfl)).tail
      (.receive _ .aggs 0 rfl rfl)).tail (.finish _ .aggs rfl rfl rfl)).tail
      (.finish _ .docs rfl rfl rfl)).tail (.join _ rfl (by rintro (_ | _) <;> rfl))
  exact ⟨_, hrun, rfl, (search_leaves_nothing_iff hrun rfl).2
    (.inr ⟨rfl, rfl, by simp [twoSearchers]⟩)⟩

/-- A query that is not valid, for two searchers. -/
theorem invalid_query_leaves_collectors :
    ∃ s, SearchReach (twoSearchers false) s ∧ s.pc = .returned ∧
      ¬ CanEnd (twoSearchers false) s := by
  have hrun : SearchReach (twoSearchers false) _ :=
    (ReflTransGen.refl.tail (.collect _ rfl (by decide))).tail (.normalize _ rfl)
  refine ⟨_, hrun, rfl, ?_⟩
  rintro ⟨s', hrest, hended, -⟩
  have hdocs := (waits_for_ever hrest rfl fun _ => ⟨rfl, rfl⟩).2 .docs
  exact absurd (hdocs.1.symm.trans (hended .docs)) (by decide)

end SeaSearch
