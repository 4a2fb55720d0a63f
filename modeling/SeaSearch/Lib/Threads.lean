import Mathlib

/-!
# Threads over a shared state

A program is given by what one thread does in one step: it reads and writes the shared state and its
own state, and reports events. A choice stands for everything that the program does not decide, such
as the result of a call to the outside.

Results:
1. `reach_invariant`: what every step keeps holds in every configuration that is reached.
2. `Owned`: at most one thread holds a value, with the rules for a thread that takes it and for one
   that releases it.
-/

namespace Threads

open List

-- the numbers of the threads in runs of two and of three
instance two_neZero : NeZero 2 := ⟨by decide⟩

instance three_neZero : NeZero 3 := ⟨by decide⟩

variable {S L τ χ ε α : Type} [DecidableEq τ]

structure Config (S L τ : Type) where
  shared : S
  threads : τ → L

/-- One step of a thread: the new states and the events. There is none when the thread
is blocked or the choice does not apply. -/
abbrev Program (S L τ χ ε : Type) := τ → χ → S → L → Option (S × L × List ε)

abbrev Guard (S L τ χ ε : Type) := Config S L τ → List ε → τ → χ → Bool

def free : Guard S L τ χ ε := fun _ _ _ _ => true

/-- The configuration after a step of the thread `t`. -/
def Config.after (c : Config S L τ) (t : τ) (s : S) (l : L) : Config S L τ :=
  ⟨s, Function.update c.threads t l⟩

/-- A run whose steps all meet the condition, with the events after those of `log`. -/
def run (prog : Program S L τ χ ε) (ok : Guard S L τ χ ε) :
    List (τ × χ) → Config S L τ → List ε → Option (Config S L τ × List ε)
  | [], c, log => some (c, log)
  | (t, x) :: steps, c, log =>
    if ok c log t x then
      match prog t x c.shared (c.threads t) with
      | none => none
      | some (s, l, es) => run prog ok steps (c.after t s l) (log ++ es)
    else none

/-- A run of allowed steps leads to the configuration and leaves the log. -/
def Reach (prog : Program S L τ χ ε) (ok : Guard S L τ χ ε) (init c : Config S L τ)
    (log : List ε) : Prop :=
  ∃ steps, run prog ok steps init [] = some (c, log)

section Runs

variable {prog : Program S L τ χ ε} {ok : Guard S L τ χ ε} {I : Config S L τ → List ε → Prop}

theorem run_invariant
    (hstep : ∀ c log t x s l es, I c log → ok c log t x = true →
      prog t x c.shared (c.threads t) = some (s, l, es) → I (c.after t s l) (log ++ es))
    {steps : List (τ × χ)} {c c' : Config S L τ} {log log' : List ε} (h : I c log)
    (hrun : run prog ok steps c log = some (c', log')) : I c' log' := by
  induction steps generalizing c log with
  | nil =>
    obtain ⟨rfl, rfl⟩ := by simpa [run] using hrun
    exact h
  | cons p steps ih =>
    obtain ⟨t, x⟩ := p
    rw [run] at hrun
    split at hrun
    case isFalse => cases hrun
    case isTrue hok =>
      split at hrun
      · cases hrun
      · next s l es hprog => exact ih (hstep c log t x s l es h hok hprog) hrun

theorem reach_invariant {init c : Config S L τ} {log : List ε} (hinit : I init [])
    (hstep : ∀ c log t x s l es, I c log → ok c log t x = true →
      prog t x c.shared (c.threads t) = some (s, l, es) → I (c.after t s l) (log ++ es))
    (h : Reach prog ok init c log) : I c log := by
  obtain ⟨steps, hrun⟩ := h
  exact run_invariant hstep hinit hrun

end Runs

@[simp] theorem shared_after (c : Config S L τ) (t : τ) (s : S) (l : L) :
    (c.after t s l).shared = s := rfl

@[simp] theorem threads_after_self (c : Config S L τ) (t : τ) (s : S) (l : L) :
    (c.after t s l).threads t = l := Function.update_self ..

theorem threads_after_of_ne (c : Config S L τ) {t u : τ} (h : u ≠ t) (s : S) (l : L) :
    (c.after t s l).threads u = c.threads u := Function.update_of_ne h ..

theorem forall_after {P : τ → L → Prop} {c : Config S L τ} {t : τ} {s : S} {l : L} (ht : P t l)
    (h : ∀ u, u ≠ t → P u (c.threads u)) (u : τ) : P u ((c.after t s l).threads u) := by
  by_cases hu : u = t
  · subst hu
    rwa [threads_after_self]
  · rw [threads_after_of_ne c hu]
    exact h u hu

theorem foldl_of_fixed {f : α → ε → α} {a : α} {es : List ε} (h : ∀ e ∈ es, f a e = a) :
    es.foldl f a = a := by
  induction es with
  | nil => rfl
  | cons e es ih =>
    rw [foldl_cons, h e mem_cons_self]
    exact ih fun e' he' => h e' (mem_cons_of_mem e he')

theorem split_append {log es before later : List ε} {e : ε} (h : log ++ es = before ++ e :: later) :
    (∃ later', log = before ++ e :: later') ∨
      ∃ before' later', es = before' ++ e :: later' ∧ before = log ++ before' := by
  rcases append_eq_append_iff.1 h with ⟨mid, hb, he⟩ | ⟨mid, hl, he⟩
  · exact .inr ⟨mid, later, he, hb⟩
  · cases mid with
    | nil => exact .inr ⟨[], later, he.symm, by simpa using hl.symm⟩
    | cons e' mid =>
      cases he
      exact .inl ⟨mid, hl⟩

/-- The thread and the value of `owner` are the only ones for which `holds` is defined. -/
def Owned (holds : L → Option α) (c : Config S L τ) (owner : Option (τ × α)) : Prop :=
  ∀ u, holds (c.threads u) = owner.bind fun p => if p.1 = u then some p.2 else none

section Owned

variable {holds : L → Option α} {c : Config S L τ} {owner : Option (τ × α)} {t u : τ} {s : S}
  {l : L} {a b : α}

theorem Owned.eq_some (h : Owned holds c owner) (ht : holds (c.threads t) = some a) :
    owner = some (t, a) := by
  have hu := h t
  rw [ht] at hu
  cases owner with
  | none => cases hu
  | some p =>
    obtain ⟨v, b⟩ := p
    simp only [Option.bind_some] at hu
    split at hu
    · next hv => cases hu; rw [hv]
    · cases hu

theorem Owned.holds_owner (h : Owned holds c (some (t, a))) : holds (c.threads t) = some a := by
  rw [h t]
  simp

theorem Owned.holds_other (h : Owned holds c (some (t, a))) (hu : u ≠ t) :
    holds (c.threads u) = none := by
  rw [h u]
  simp [Ne.symm hu]

theorem Owned.unique (h : Owned holds c owner) (ht : holds (c.threads t) = some a)
    (hu : holds (c.threads u) = some b) : t = u := by
  have heq := (h.eq_some ht).symm.trans (h.eq_some hu)
  simp only [Option.some.injEq, Prod.mk.injEq] at heq
  exact heq.1

theorem Owned.keep (h : Owned holds c owner) (hl : holds l = holds (c.threads t)) :
    Owned holds (c.after t s l) owner :=
  forall_after (P := fun u l => holds l = owner.bind fun p => if p.1 = u then some p.2 else none)
    (hl.trans (h t)) fun u _ => h u

theorem Owned.take (h : Owned holds c none) (hl : holds l = some a) :
    Owned holds (c.after t s l) (some (t, a)) := by
  refine forall_after (P := fun u l => holds l = _) ?_ ?_
  · simpa using hl
  · intro u hu
    rw [h u]
    simp [Ne.symm hu]

theorem Owned.release (h : Owned holds c (some (t, a))) (hl : holds l = none) :
    Owned holds (c.after t s l) none :=
  forall_after (P := fun _ l => holds l = none) hl fun _ hu => h.holds_other hu

end Owned

section Count

variable [Fintype τ] {p : L → Bool} {c : Config S L τ} {t : τ} {s : S} {l : L}

/-- The number of threads whose state meets `p`. -/
def count (p : L → Bool) (c : Config S L τ) : Nat := ∑ t, if p (c.threads t) then 1 else 0

theorem count_after (p : L → Bool) (c : Config S L τ) (t : τ) (s : S) (l : L) :
    count p (c.after t s l) + (if p (c.threads t) then 1 else 0) =
      count p c + if p l then 1 else 0 := by
  have hrest : ∑ u ∈ Finset.univ.erase t, (if p ((c.after t s l).threads u) then 1 else 0) =
      ∑ u ∈ Finset.univ.erase t, if p (c.threads u) then 1 else 0 := by
    refine Finset.sum_congr rfl fun u hu => ?_
    rw [threads_after_of_ne c (Finset.ne_of_mem_erase hu)]
  have hold := Finset.add_sum_erase Finset.univ (fun u => if p (c.threads u) then 1 else 0)
    (Finset.mem_univ t)
  have hnew := Finset.add_sum_erase Finset.univ
    (fun u => if p ((c.after t s l).threads u) then 1 else 0) (Finset.mem_univ t)
  simp only [threads_after_self] at hnew
  unfold count
  omega

theorem count_keep (h : p l = p (c.threads t)) : count p (c.after t s l) = count p c := by
  have hcount := count_after p c t s l
  rw [h] at hcount
  exact Nat.add_right_cancel hcount

theorem count_enter (h : p (c.threads t) = false) (hl : p l = true) :
    count p (c.after t s l) = count p c + 1 := by
  simpa [h, hl] using count_after p c t s l

theorem count_exit (h : p (c.threads t) = true) (hl : p l = false) :
    (count p (c.after t s l) : Int) = count p c - 1 := by
  have hcount := count_after p c t s l
  simp only [h, hl, if_true, Bool.false_eq_true, if_false] at hcount
  omega

omit [DecidableEq τ] in
theorem count_eq_zero : count p c = 0 ↔ ∀ t, p (c.threads t) = false := by
  simp [count]

end Count

section Paired

variable [DecidableEq ε] [DecidableEq α] {got returned : τ → α → ε} {ended : α → ε}
  {holds : L → Option α} {c : Config S L τ} {log es : List ε} {t : τ} {s : S} {l : L} {a : α}

/-- A thread has got a value once more than it has returned it if it holds it, and equally
often otherwise. -/
def Paired (got returned : τ → α → ε) (holds : L → Option α) (c : Config S L τ) (log : List ε) :
    Prop :=
  ∀ t a, log.count (got t a) =
    log.count (returned t a) + if holds (c.threads t) = some a then 1 else 0

theorem Paired.step (h : Paired got returned holds c log)
    (ht : ∀ a, es.count (got t a) + (if holds (c.threads t) = some a then 1 else 0) =
      es.count (returned t a) + if holds l = some a then 1 else 0)
    (hu : ∀ u a, u ≠ t → es.count (got u a) = es.count (returned u a)) :
    Paired got returned holds (c.after t s l) (log ++ es) := by
  refine forall_after (P := fun u (l : L) => ∀ a, (log ++ es).count (got u a) =
    (log ++ es).count (returned u a) + if holds l = some a then 1 else 0) ?_ ?_
  · intro a
    have hold := h t a
    have hnew := ht a
    rw [count_append, count_append]
    omega
  · intro u hne a
    have hold := h u a
    have hnew := hu u a hne
    rw [count_append, count_append]
    omega

theorem Paired.keep (h : Paired got returned holds c log) (hl : holds l = holds (c.threads t))
    (he : ∀ u a, got u a ∉ es ∧ returned u a ∉ es) :
    Paired got returned holds (c.after t s l) (log ++ es) := by
  have hzero : ∀ u a, es.count (got u a) = 0 ∧ es.count (returned u a) = 0 := fun u a =>
    ⟨count_eq_zero_of_not_mem (he u a).1, count_eq_zero_of_not_mem (he u a).2⟩
  refine h.step ?_ ?_
  · intro a
    rw [(hzero t a).1, (hzero t a).2, hl]
  · intro u a _
    rw [(hzero u a).1, (hzero u a).2]

theorem count_event {event : τ → α → ε} (h : ∀ u b, event u b = event t a → u = t ∧ b = a) (u : τ)
    (b : α) : [event t a].count (event u b) = if u = t ∧ a = b then 1 else 0 := by
  rw [count_singleton]
  by_cases heq : event u b = event t a
  · obtain ⟨rfl, rfl⟩ := h u b heq
    simp
  · rw [if_neg (by simpa using Ne.symm heq), if_neg]
    rintro ⟨rfl, rfl⟩
    exact heq rfl

theorem Paired.get (h : Paired got returned holds c log)
    (hgot : ∀ u b, got u b = got t a → u = t ∧ b = a) (hret : ∀ u b, returned u b ≠ got t a)
    (ht : holds (c.threads t) = none) (hl : holds l = some a) :
    Paired got returned holds (c.after t s l) (log ++ [got t a]) := by
  have hnone : ∀ u b, [got t a].count (returned u b) = 0 := fun u b =>
    count_eq_zero_of_not_mem fun hmem => hret u b (mem_singleton.1 hmem)
  refine h.step ?_ ?_
  · intro b
    simp [count_event hgot, hnone, ht, hl]
  · intro u b hu
    simp [count_event hgot, hnone, hu]

theorem Paired.return (h : Paired got returned holds c log)
    (hret : ∀ u b, returned u b = returned t a → u = t ∧ b = a)
    (hgot : ∀ u b, got u b ≠ returned t a) (ht : holds (c.threads t) = some a)
    (hl : holds l = none) :
    Paired got returned holds (c.after t s l) (log ++ [returned t a]) := by
  have hnone : ∀ u b, [returned t a].count (got u b) = 0 := fun u b =>
    count_eq_zero_of_not_mem fun hmem => hgot u b (mem_singleton.1 hmem)
  refine h.step ?_ ?_
  · intro b
    simp [count_event hret, hnone, ht, hl]
  · intro u b hu
    simp [count_event hret, hnone, hu]

def AllReturned (got returned : τ → α → ε) (ended : α → ε) (log : List ε) : Prop :=
  ∀ before later a, log = before ++ ended a :: later →
    ∀ t, before.count (got t a) = before.count (returned t a)

omit [DecidableEq τ] [DecidableEq α] in
theorem AllReturned.keep (h : AllReturned got returned ended log) (he : ∀ a, ended a ∉ es) :
    AllReturned got returned ended (log ++ es) := by
  intro before later a heq
  rcases split_append heq with ⟨later', hlog⟩ | ⟨before', later', hes, -⟩
  · exact h before later' a hlog
  · exact absurd (hes ▸ by simp) (he a)

omit [DecidableEq τ] in
theorem AllReturned.snoc (h : AllReturned got returned ended log)
    (hp : Paired got returned holds c log) (hinj : Function.Injective ended)
    (ha : ∀ t, holds (c.threads t) ≠ some a) :
    AllReturned got returned ended (log ++ [ended a]) := by
  intro before later b heq t
  rcases split_append heq with ⟨later', hlog⟩ | ⟨before', later', hes, hb⟩
  · exact h before later' b hlog t
  · cases before' with
    | nil =>
      obtain rfl : a = b := hinj (List.cons.inj hes).1
      have hnone := hp t a
      rw [if_neg (ha t)] at hnone
      simpa [hb] using hnone
    | cons e before' => simp at hes

end Paired

end Threads
