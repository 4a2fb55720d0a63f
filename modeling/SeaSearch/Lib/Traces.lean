import Mathlib

/-!
# Computations that can be cut short

A computation that may be cut short at any point is a list of steps, and what has happened by then
is a first part of that list. `Traced ε α` is such a computation: the steps it performs and its
result, if it does not return early.

Results:
1. `prefix_append_cases`: where a first part of a composed trace ends.
2. `prefix_append_of_not_mem`: where a first part that has reached a given step ends.
-/

namespace Traces

open List

variable {α β : Type*}

theorem prefix_append_cases {l a b : List α} (h : l <+: a ++ b) :
    l <+: a ∨ ∃ t, l = a ++ t ∧ t <+: b := by
  rcases prefix_or_prefix_of_prefix h (prefix_append a b) with hl | ⟨t, rfl⟩
  · exact .inl hl
  · exact .inr ⟨t, rfl, (prefix_append_right_inj a).mp h⟩

theorem prefix_append_of_not_mem {p t a b : List α} {x : α} (hx : x ∉ a)
    (h : p ++ x :: t <+: a ++ b) : ∃ q, p = a ++ q ∧ q ++ x :: t <+: b := by
  rcases prefix_append_cases h with ha | ⟨t', heq, ht'⟩
  · exact absurd (ha.mem (by simp)) hx
  · rcases append_eq_append_iff.mp heq with ⟨q, rfl, hq⟩ | ⟨q, rfl, rfl⟩
    · cases q with
      | nil => exact ⟨[], by simp, hq ▸ ht'⟩
      | cons y q =>
        obtain ⟨rfl, -⟩ := List.cons.inj hq
        exact absurd (by simp) hx
    · exact ⟨q, rfl, ht'⟩

theorem prefix_flatMap {f : β → List α} {bs : List β} {l : List α} (h : l <+: bs.flatMap f) :
    l = bs.flatMap f ∨
      ∃ pre b post t, bs = pre ++ b :: post ∧ l = pre.flatMap f ++ t ∧ t <+: f b := by
  induction bs generalizing l with
  | nil => exact .inl (by simpa using h)
  | cons b bs ih =>
    rw [flatMap_cons] at h
    rcases prefix_append_cases h with hb | ⟨t, rfl, ht⟩
    · exact .inr ⟨[], b, bs, l, rfl, rfl, hb⟩
    · rcases ih ht with rfl | ⟨pre, b', post, t', rfl, rfl, ht'⟩
      · exact .inl (by simp)
      · exact .inr ⟨b :: pre, b', post, t', rfl, by simp, ht'⟩

structure Traced (ε α : Type) where
  steps : List ε
  result : Option α

namespace Traced

variable {ε α β : Type}

instance : Monad (Traced ε) where
  pure a := ⟨[], some a⟩
  bind x f :=
    match x.result with
    | none => ⟨x.steps, none⟩
    | some a => ⟨x.steps ++ (f a).steps, (f a).result⟩

def step (e : ε) : Traced ε Unit := ⟨[e], some ()⟩

def stepAll (es : List ε) : Traced ε Unit := ⟨es, some ()⟩

def ofOption (a : Option α) : Traced ε α := ⟨[], a⟩

@[simp] theorem pure_eq (a : α) : (pure a : Traced ε α) = ⟨[], some a⟩ := rfl

@[simp] theorem bind_mk_some (es : List ε) (a : α) (f : α → Traced ε β) :
    (⟨es, some a⟩ : Traced ε α) >>= f = ⟨es ++ (f a).steps, (f a).result⟩ := rfl

@[simp] theorem bind_mk_none (es : List ε) (f : α → Traced ε β) :
    (⟨es, none⟩ : Traced ε α) >>= f = ⟨es, none⟩ := rfl

theorem steps_prefix_bind (x : Traced ε α) (f : α → Traced ε β) : x.steps <+: (x >>= f).steps := by
  obtain ⟨es, _ | a⟩ := x
  · exact prefix_refl es
  · exact prefix_append es _

end Traced

end Traces
