import Mathlib

/-!
# Bags of keyed values and the writes on one key

A store that keeps several values under one key is a multiset.

Results:
1. `bag_ext_by_key`: two bags are equal when they hold the same values under every key.
2. `runOps_congr`: a sequence of writes that contains a `set` or a `clear` forgets what was stored
   before it.
-/

namespace KeyedBag

open List

variable {α κ : Type*}

inductive KeyOp (α : Type*)
  | keep
  | add (x : α)
  | set (x : α)
  | clear
  deriving DecidableEq

def KeyOp.run : KeyOp α → Multiset α → Multiset α
  | .keep, m => m
  | .add x, m => m + {x}
  | .set x, _ => {x}
  | .clear, _ => 0

def KeyOp.resets : KeyOp α → Bool
  | .keep => false
  | .add _ => false
  | .set _ => true
  | .clear => true

/-- The value an `add` contributes. -/
def KeyOp.added : KeyOp α → Multiset α
  | .add x => {x}
  | _ => 0

def KeyOp.writes : KeyOp α → Bool
  | .keep => false
  | .add _ => true
  | .set _ => true
  | .clear => false

def runOps (ops : List (KeyOp α)) (m : Multiset α) : Multiset α :=
  ops.foldl (fun m o => o.run m) m

@[simp] theorem run_keep (m : Multiset α) : (KeyOp.keep : KeyOp α).run m = m := rfl
@[simp] theorem run_add (x : α) (m : Multiset α) : (KeyOp.add x).run m = m + {x} := rfl
@[simp] theorem run_set (x : α) (m : Multiset α) : (KeyOp.set x).run m = {x} := rfl
@[simp] theorem run_clear (m : Multiset α) : (KeyOp.clear : KeyOp α).run m = 0 := rfl

@[simp] theorem runOps_nil (m : Multiset α) : runOps [] m = m := rfl

@[simp] theorem runOps_cons (o : KeyOp α) (ops : List (KeyOp α)) (m : Multiset α) :
    runOps (o :: ops) m = runOps ops (o.run m) := rfl

theorem runOps_append (ops ops' : List (KeyOp α)) (m : Multiset α) :
    runOps (ops ++ ops') m = runOps ops' (runOps ops m) := by
  simp [runOps]

theorem run_of_resets {o : KeyOp α} (h : o.resets = true) (m m' : Multiset α) :
    o.run m = o.run m' := by
  cases o <;> simp_all [KeyOp.resets, KeyOp.run]

theorem run_of_not_resets {o : KeyOp α} (h : o.resets = false) (m : Multiset α) :
    o.run m = m + o.added := by
  cases o <;> simp_all [KeyOp.resets, KeyOp.run, KeyOp.added]

variable {ops : List (KeyOp α)}

theorem runOps_congr (h : ∃ o ∈ ops, o.resets = true) (m m' : Multiset α) :
    runOps ops m = runOps ops m' := by
  induction ops generalizing m m' with
  | nil => simp at h
  | cons o ops ih =>
    obtain ⟨p, hp, hr⟩ := h
    rcases mem_cons.mp hp with rfl | hp
    · simp [run_of_resets hr m m']
    · exact ih ⟨p, hp, hr⟩ _ _

theorem runOps_adds (h : ∀ o ∈ ops, o.resets = false) (m : Multiset α) :
    runOps ops m = m + (ops.map KeyOp.added).sum := by
  induction ops generalizing m with
  | nil => simp
  | cons o ops ih =>
    have ho : o.resets = false := h o mem_cons_self
    rw [runOps_cons, ih (fun p hp => h p (mem_cons_of_mem _ hp)), run_of_not_resets ho]
    simp [Multiset.add_assoc]

theorem runOps_eq_iff {m m' : Multiset α} :
    runOps ops m = runOps ops m' ↔ (∃ o ∈ ops, o.resets = true) ∨ m = m' := by
  constructor
  · intro h
    by_cases hr : ∃ o ∈ ops, o.resets = true
    · exact .inl hr
    · have hno : ∀ o ∈ ops, o.resets = false := fun o ho =>
        Bool.eq_false_iff.mpr fun hres => hr ⟨o, ho, hres⟩
      rw [runOps_adds hno, runOps_adds hno] at h
      exact .inr (add_right_cancel h)
  · rintro (hr | rfl)
    · exact runOps_congr hr m m'
    · rfl

theorem runOps_last (hne : ops ≠ []) (h : ∀ o ∈ ops, o.resets = true) (m m' : Multiset α) :
    runOps ops m = (ops.getLast hne).run m' := by
  have hsplit : ops.dropLast ++ [ops.getLast hne] = ops := dropLast_append_getLast hne
  conv_lhs => rw [← hsplit, runOps_append, runOps_cons, runOps_nil]
  exact run_of_resets (h _ (getLast_mem hne)) _ _

theorem card_runOps_le (ops : List (KeyOp α)) (m : Multiset α) :
    (runOps ops m).card ≤ m.card + ops.countP KeyOp.writes := by
  induction ops generalizing m with
  | nil => simp
  | cons o ops ih =>
    refine (ih (o.run m)).trans ?_
    rw [countP_cons]
    cases o <;> simp [KeyOp.writes] <;> omega

theorem card_runOps_of_not_add (h : ∀ o ∈ ops, ∀ x, o ≠ .add x) {m : Multiset α} (hm : m.card ≤ 1) :
    (runOps ops m).card ≤ 1 := by
  induction ops generalizing m with
  | nil => exact hm
  | cons o ops ih =>
    refine ih (fun p hp => h p (mem_cons_of_mem _ hp)) ?_
    cases o with
    | keep => exact hm
    | add x => exact absurd rfl (h _ mem_cons_self x)
    | set x => simp
    | clear => simp

variable {ι : Type*} {f : ι → KeyOp α}

theorem runOps_map_keep {K : List ι} (h : ∀ k ∈ K, f k = .keep) (m : Multiset α) :
    runOps (K.map f) m = m := by
  induction K generalizing m with
  | nil => rfl
  | cons k K ih =>
    rw [map_cons, runOps_cons, h k mem_cons_self]
    exact ih (fun i hi => h i (mem_cons_of_mem _ hi)) m

variable [DecidableEq ι]

theorem runOps_map_single {K : List ι} (hnd : K.Nodup) {a : ι}
    (h : ∀ k ∈ K, k ≠ a → f k = .keep) (ha : a ∉ K → f a = .keep) (m : Multiset α) :
    runOps (K.map f) m = (f a).run m := by
  induction K generalizing m with
  | nil => simp [ha]
  | cons k K ih =>
    obtain ⟨hk, hK⟩ := nodup_cons.mp hnd
    rw [map_cons, runOps_cons]
    by_cases hka : k = a
    · subst hka
      exact runOps_map_keep
        (fun i hi => h i (mem_cons_of_mem _ hi) fun he => hk (he ▸ hi)) _
    · rw [h k mem_cons_self hka, run_keep]
      refine ih hK (fun i hi => h i (mem_cons_of_mem _ hi)) (fun hn => ha ?_) m
      simp [hn, Ne.symm hka]

theorem runOps_map_head {K : List ι} (hnd : K.Nodup) {k b : ι} (h : ∀ i ∈ K, i ≠ b → f i = .keep)
    (hb : b ∉ K → f b = .keep) (m : Multiset α) :
    runOps ((k :: K).map f) m = (f b).run ((f k).run m) ∧
      runOps ((k :: K).reverse.map f) m = (f k).run ((f b).run m) := by
  rw [reverse_cons, map_append, runOps_append, map_cons, runOps_cons, runOps_map_single hnd h hb,
    runOps_map_single (nodup_reverse.mpr hnd) (fun i hi => h i (mem_reverse.mp hi))
      fun hn => hb (by simpa using hn)]
  exact ⟨rfl, rfl⟩

theorem runOps_map_pair {K : List ι} (hnd : K.Nodup) {a b : ι} (hab : a ≠ b)
    (h : ∀ k ∈ K, k ≠ a → k ≠ b → f k = .keep) (ha : a ∉ K → f a = .keep)
    (hb : b ∉ K → f b = .keep) (m : Multiset α) :
    (runOps (K.map f) m = (f b).run ((f a).run m) ∧
      runOps (K.reverse.map f) m = (f a).run ((f b).run m)) ∨
    (runOps (K.map f) m = (f a).run ((f b).run m) ∧
      runOps (K.reverse.map f) m = (f b).run ((f a).run m)) := by
  induction K with
  | nil => simp [ha, hb]
  | cons k K ih =>
    obtain ⟨hk, hK⟩ := nodup_cons.mp hnd
    have htail : ∀ i ∈ K, i ≠ a → i ≠ b → f i = .keep :=
      fun i hi => h i (mem_cons_of_mem _ hi)
    by_cases hka : k = a
    · subst hka
      exact .inl (runOps_map_head hK (fun i hi => htail i hi fun he => hk (he ▸ hi))
        (fun hn => hb (by simp [hn, Ne.symm hab])) m)
    · by_cases hkb : k = b
      · subst hkb
        exact .inr (runOps_map_head hK (fun i hi hia => htail i hi hia fun he => hk (he ▸ hi))
          (fun hn => ha (by simp [hn, hab])) m)
      · rw [reverse_cons, map_append, runOps_append, map_cons, map_singleton,
          h k mem_cons_self hka hkb]
        simp only [runOps_cons, run_keep, runOps_nil]
        exact ih hK htail (fun hn => ha (by simp [hn, Ne.symm hka]))
          (fun hn => hb (by simp [hn, Ne.symm hkb]))

theorem bag_ext_by_key [DecidableEq κ] (key : α → κ) {s t : Multiset α}
    (h : ∀ k, s.filter (fun a => key a = k) = t.filter (fun a => key a = k)) : s = t := by
  classical
  ext a
  have hc := congrArg (Multiset.count a) (h (key a))
  simpa [Multiset.count_filter] using hc

section Placed

variable {ι : Type*} [DecidableEq ι]

def runPlaced (ps : List (ι × KeyOp α)) (f : ι → Multiset α) (i : ι) : Multiset α :=
  runOps ((ps.filter fun p => p.1 = i).map Prod.snd) (f i)

theorem runPlaced_cons (p : ι × KeyOp α) (ps : List (ι × KeyOp α)) (f : ι → Multiset α) (i : ι) :
    runPlaced (p :: ps) f i = runPlaced ps (fun j => if j = p.1 then p.2.run (f j) else f j) i := by
  unfold runPlaced
  by_cases h : p.1 = i
  · simp [h]
  · simp [h, Ne.symm h]

theorem runPlaced_append (ps qs : List (ι × KeyOp α)) (f : ι → Multiset α) (i : ι) :
    runPlaced (ps ++ qs) f i = runPlaced qs (runPlaced ps f) i := by
  simp [runPlaced, runOps_append]

theorem runPlaced_same {ps : List (ι × KeyOp α)} {i : ι} (h : ∀ p ∈ ps, p.1 = i)
    (f : ι → Multiset α) (j : ι) :
    runPlaced ps f j = if j = i then runOps (ps.map Prod.snd) (f j) else f j := by
  unfold runPlaced
  split
  · next hj =>
    subst hj
    rw [filter_eq_self.mpr fun p hp => decide_eq_true (h p hp)]
  · next hj =>
    rw [filter_eq_nil_iff.mpr fun p hp => by simpa [h p hp] using Ne.symm hj]
    rfl

theorem runOps_filter_writes {ops : List (KeyOp α)} (h : ∀ o ∈ ops, o ≠ .clear) (m : Multiset α) :
    runOps (ops.filter KeyOp.writes) m = runOps ops m := by
  induction ops generalizing m with
  | nil => rfl
  | cons o ops ih =>
    have htail := ih fun p hp => h p (mem_cons_of_mem _ hp)
    cases o with
    | keep => exact htail m
    | add x => exact htail (m + {x})
    | set x => exact htail {x}
    | clear => exact absurd rfl (h .clear mem_cons_self)

theorem runOps_eq_zero_iff {ops : List (KeyOp α)} (h : ∀ o ∈ ops, o ≠ .clear) :
    runOps ops 0 = 0 ↔ ∀ o ∈ ops, o.writes = false := by
  constructor
  · intro hzero
    by_contra hex
    push Not at hex
    obtain ⟨o, ho, hw⟩ := hex
    have hne : ops.filter KeyOp.writes ≠ [] :=
      ne_nil_of_mem (mem_filter.mpr ⟨ho, by simpa using hw⟩)
    obtain ⟨qs, q, hq⟩ := (eq_nil_or_concat (ops.filter KeyOp.writes)).resolve_left hne
    rw [concat_eq_append] at hq
    have hqw : q.writes = true := (mem_filter.mp (hq ▸ mem_append_right qs
      mem_cons_self : q ∈ ops.filter KeyOp.writes)).2
    rw [← runOps_filter_writes h, hq, runOps_append] at hzero
    -- the last value that is written stays
    cases q with
    | keep => cases hqw
    | add x | set x => simp at hzero
    | clear => cases hqw
  · intro hall
    rw [← runOps_filter_writes h, filter_eq_nil_iff.mpr fun o ho => by simp [hall o ho]]
    rfl

theorem runPlaced_concat_self (ps : List (ι × KeyOp α)) (i : ι) (o : KeyOp α)
    (f : ι → Multiset α) : runPlaced (ps ++ [(i, o)]) f i = o.run (runPlaced ps f i) := by
  rw [runPlaced_append, runPlaced_cons]
  simp [runPlaced]

theorem runPlaced_concat_ne (ps : List (ι × KeyOp α)) {i j : ι} (hj : j ≠ i) (o : KeyOp α)
    (f : ι → Multiset α) : runPlaced (ps ++ [(i, o)]) f j = runPlaced ps f j := by
  rw [runPlaced_append, runPlaced_cons]
  simp [runPlaced, hj]

variable {ps : List (ι × KeyOp α)} (hclear : ∀ p ∈ ps, p.2 ≠ .clear)
include hclear

theorem runPlaced_filter_writes (f : ι → Multiset α) (i : ι) :
    runPlaced (ps.filter fun p => p.2.writes) f i = runPlaced ps f i := by
  have hops : ∀ o ∈ (ps.filter fun p => p.1 = i).map Prod.snd, o ≠ .clear := by
    intro o ho
    obtain ⟨p, hp, rfl⟩ := mem_map.mp ho
    exact hclear p (mem_filter.mp hp).1
  unfold runPlaced
  rw [← runOps_filter_writes hops, filter_map, filter_filter, filter_filter]
  simp only [Function.comp_def, Bool.and_comm]

theorem runPlaced_bag_zero_iff (i : ι) :
    runPlaced ps (fun _ => 0) i = 0 ↔ ∀ p ∈ ps, p.1 = i → p.2.writes = false := by
  unfold runPlaced
  rw [runOps_eq_zero_iff]
  · simp only [mem_map, mem_filter, decide_eq_true_eq]
    constructor
    · exact fun h p hp hi => h p.2 ⟨p, ⟨hp, hi⟩, rfl⟩
    · rintro h o ⟨p, ⟨hp, hi⟩, rfl⟩
      exact h p hp hi
  · intro o ho
    obtain ⟨p, hp, rfl⟩ := mem_map.mp ho
    exact hclear p (mem_filter.mp hp).1

theorem runPlaced_eq_zero_iff :
    (∀ i, runPlaced ps (fun _ => 0) i = 0) ↔ ∀ p ∈ ps, p.2.writes = false := by
  constructor
  · exact fun h p hp => (runPlaced_bag_zero_iff hclear p.1).mp (h p.1) p hp rfl
  · exact fun h i => (runPlaced_bag_zero_iff hclear i).mpr fun p hp _ => h p hp

theorem runPlaced_single_iff {pre : List (ι × KeyOp α)} {i : ι} {o : KeyOp α} {x : α}
    (hps : ps.filter (fun p => p.2.writes) = pre ++ [(i, o)]) (ho : o = .add x ∨ o = .set x) :
    (runPlaced ps (fun _ => 0) i = {x} ∧ ∀ j, j ≠ i → runPlaced ps (fun _ => 0) j = 0) ↔
      pre = [] ∨ (o = .set x ∧ ∀ p ∈ pre, p.1 = i) := by
  have hsame : ∀ j, runPlaced ps (fun _ => 0) j = runPlaced (pre ++ [(i, o)]) (fun _ => 0) j :=
    fun j => by rw [← hps, runPlaced_filter_writes hclear]
  have hpre : ∀ p ∈ pre, p ∈ ps ∧ p.2.writes = true := fun p hp =>
    mem_filter.mp (hps ▸ mem_append_left _ hp)
  have hzero := runPlaced_bag_zero_iff fun p hp => hclear p (hpre p hp).1
  have hempty : ∀ j, runPlaced pre (fun _ => 0) j = 0 ↔ ∀ p ∈ pre, p.1 ≠ j := by
    intro j
    rw [hzero]
    refine forall₂_congr fun p hp => ?_
    simp [(hpre p hp).2]
  have helsewhere : (∀ j, j ≠ i → runPlaced ps (fun _ => 0) j = 0) ↔ ∀ p ∈ pre, p.1 = i := by
    constructor
    · intro h p hp
      by_contra hne
      have := h p.1 hne
      rw [hsame, runPlaced_concat_ne pre hne, hempty] at this
      exact this p hp rfl
    · intro h j hj
      rw [hsame, runPlaced_concat_ne pre hj, hempty]
      exact fun p hp hpj => hj (hpj.symm.trans (h p hp))
  rw [helsewhere, hsame, runPlaced_concat_self]
  rcases ho with rfl | rfl
  · -- an `add` leaves what was there
    have hadd : (KeyOp.add x).run (runPlaced pre (fun _ => 0) i) = {x} ↔ ∀ p ∈ pre, p.1 ≠ i := by
      rw [run_add, ← hempty, add_eq_right]
    rw [hadd]
    constructor
    · rintro ⟨hne, heq⟩
      left
      exact eq_nil_iff_forall_not_mem.mpr fun p hp => hne p hp (heq p hp)
    · rintro (rfl | ⟨h, -⟩)
      · simp
      · cases h
  · simp only [run_set, true_and]
    constructor
    · exact .inr
    · rintro (rfl | h)
      · simp
      · exact h

end Placed

end KeyedBag
