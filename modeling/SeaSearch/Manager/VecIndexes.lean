import SeaSearch.Lib.Threads

/-!
# The vector index manager

`VecIndexManager` keeps an open vector index for each name in a cache, with the number of callers
that hold it.
-/

namespace SeaSearch

open List Threads

variable {τ : Type}

/-- What the calls on one name share:
* `cache`, `ready`: the entries of the name in the maps of the manager;
* `chans`: the number of channels, and `closed` those that are closed;
* `made`: the number of instances, and `refCount` the count of each. -/
structure VecManager where
  cache : Option Nat := none
  ready : Option Nat := none
  chans : Nat := 0
  closed : List Nat := []
  made : Nat := 0
  refCount : Nat → Int := fun _ => 0

/-- Where a call is:
* `entered`: at the head of the loop of `GetVectorIndex`, and `waiting`: at `<-ready`;
* `loading`: before `getVectorIndex`, then `loaded` or `failed`: before the lock section
  that ends the call;
* `holding`: the caller has the instance;
* `closing`: before `ReduceRef`, and `polling`: at the head of the loop that waits;
* `freeing`: before `Free`, and `freed`: before the lock section after it. -/
inductive VecPc
  | idle
  | entered
  | waiting (ch : Nat)
  | loading (ch : Nat)
  | loaded (n ch : Nat)
  | failed (ch : Nat)
  | holding (n : Nat)
  | closing (n : Nat) (wait : Bool)
  | polling (n : Nat)
  | freeing (n ch : Nat)
  | freed (n ch : Nat)
  deriving DecidableEq

/-- What a step does not decide: the call that starts, and whether an index can be loaded.
That `collect` starts says that the time since the last access has passed. -/
inductive VecChoice
  | get
  | collect
  | delete
  | close (wait : Bool)
  | proceed
  | fail
  deriving DecidableEq

/-- What can be seen of a run:
* `got`: a caller has the instance, and `released`: it has closed it;
* `removed n k`: in order to free the instance `n`, the instance `k` is removed from the
  cache;
* `freed`: the instance is freed. -/
inductive VecEvent (τ : Type)
  | got (t : τ) (n : Nat)
  | released (t : τ) (n : Nat)
  | removed (n k : Nat)
  | freed (n : Nat)
  deriving DecidableEq

namespace VecManager

/-- `AddRef` and `ReduceRef`. -/
def addRef (m : VecManager) (n : Nat) (k : Int) : VecManager :=
  { m with refCount := Function.update m.refCount n (m.refCount n + k) }

def register (m : VecManager) : VecManager :=
  { m with ready := some m.chans, chans := m.chans + 1 }

/-- `close(ready)` and `delete(ready, name)`. -/
def finish (m : VecManager) (ch : Nat) : VecManager :=
  { m with ready := none, closed := ch :: m.closed }

/-- A new instance. `MakeVecIndex` sets its count to one. -/
def make (m : VecManager) : VecManager :=
  { m with made := m.made + 1, refCount := Function.update m.refCount m.made 1 }

/-- The lock section that starts to free the instance `n`: it removes the entry of the name
from the cache and registers a channel. -/
def retire (m : VecManager) (n : Nat) : VecManager × VecPc × List (VecEvent τ) :=
  ({ m.register with cache := none }, .freeing n m.chans, m.cache.toList.map (.removed n))

/-- One step of a call. `collect` is `execGC` when it finds the instance expired and no
ready entry: otherwise it does nothing. `delete` is `deleteVecIndexFromIndex` when there
is an instance in the cache, up to its call of `CloseVectorIndex`. -/
def step : Program VecManager VecPc τ VecChoice (VecEvent τ) := fun t x m pc =>
  match pc, x with
  | .idle, .get => some (m, .entered, [])
  | .idle, .collect =>
    match m.cache, m.ready with
    | some n, none => if m.refCount n = 0 then some (m.retire n) else none
    | _, _ => none
  | .idle, .delete => m.cache.map fun n => (m.addRef n 1, .closing n true, [.got t n])
  | .entered, .proceed =>
    match m.cache, m.ready with
    | some n, _ => some (m.addRef n 1, .holding n, [.got t n])
    | none, some ch => some (m, .waiting ch, [])
    | none, none => some (m.register, .loading m.chans, [])
  | .waiting ch, .proceed => if ch ∈ m.closed then some (m, .entered, []) else none
  | .loading ch, .proceed => some (m.make, .loaded m.made ch, [.got t m.made])
  | .loading ch, .fail => some (m, .failed ch, [])
  | .loaded n ch, .proceed => some ({ m.finish ch with cache := some n }, .holding n, [])
  | .failed ch, .proceed => some (m.finish ch, .idle, [])
  | .holding n, .close wait => some (m, .closing n wait, [])
  | .closing n wait, .proceed =>
    some (m.addRef n (-1), if wait then .polling n else .idle, [.released t n])
  | .polling n, .proceed =>
    if m.refCount n = 0 then
      if m.ready.isSome then some (m, .idle, []) else some (m.retire n)
    else some (m, .polling n, [])
  | .freeing n ch, .proceed => some (m, .freed n ch, [.freed n])
  | .freed _ ch, .proceed => some (m.finish ch, .idle, [])
  | _, _ => none

def start : Config VecManager VecPc τ := ⟨{}, fun _ => .idle⟩

end VecManager

open VecManager (addRef start step)

namespace VecPc

def holds : VecPc → Option Nat
  | loaded n _ => some n
  | holding n => some n
  | closing n _ => some n
  | _ => none

def frees : VecPc → Option Nat
  | freeing n _ => some n
  | _ => none

end VecPc

inductive VecShape (t : τ) (m : VecManager) :
    VecPc → VecManager → VecPc → List (VecEvent τ) → Prop
  | inside : m'.cache = m.cache → m'.made = m.made →
      m'.refCount = m.refCount → pc'.holds = pc.holds → pc'.frees = pc.frees →
      VecShape t m pc m' pc' []
  | take : m.cache = some n → pc.holds = none → pc'.holds = some n →
      pc'.frees = pc.frees → VecShape t m pc (m.addRef n 1) pc' [.got t n]
  | make : VecShape t m (.loading ch) m.make (.loaded m.made ch) [.got t m.made]
  | publish :
      VecShape t m (.loaded n ch) { m.finish ch with cache := some n } (.holding n) []
  | release : pc'.holds = none → pc'.frees = none →
      VecShape t m (.closing n wait) (m.addRef n (-1)) pc' [.released t n]
  | retire : m.refCount n = 0 →
      (pc = .polling n ∧ m.ready = none) ∨ (pc = .idle ∧ m.cache = some n) →
      VecShape t m pc { m.register with cache := none } (.freeing n m.chans)
        (m.cache.toList.map (.removed n))
  | free : VecShape t m (.freeing n ch) m (.freed n ch) [.freed n]

namespace VecIndexesLemmas

theorem step_vector (h : step t x m pc = some (m', pc', es)) :
    VecShape t m pc m' pc' es := by
  unfold step at h
  split at h
  case h_2 =>
    split at h
    · next n hc hr =>
      split at h
      · next h0 => cases h; exact .retire h0 (.inr ⟨rfl, hc⟩)
      · cases h
    · cases h
  case h_3 =>
    obtain ⟨n, hc, rfl, rfl, rfl⟩ := by simpa using h
    exact .take hc rfl rfl rfl
  case h_4 =>
    split at h <;> cases h
    · next hc => exact .take hc rfl rfl rfl
    · exact .inside rfl rfl rfl rfl rfl
    · exact .inside rfl rfl rfl rfl rfl
  case h_5 =>
    obtain ⟨-, rfl, rfl, rfl⟩ := by simpa using h
    exact .inside rfl rfl rfl rfl rfl
  case h_12 =>
    split at h
    · next h0 =>
      split at h
      · cases h; exact .inside rfl rfl rfl rfl rfl
      · next hr =>
        cases h
        exact .retire h0 (.inl ⟨rfl, Option.not_isSome_iff_eq_none.1 hr⟩)
    · cases h; exact .inside rfl rfl rfl rfl rfl
  case h_15 => cases h
  all_goals cases h
  case h_6 => exact .make
  case h_8 => exact .publish
  case h_11 => refine .release ?_ ?_ <;> split <;> rfl
  case h_13 => exact .free
  all_goals exact .inside rfl rfl rfl rfl rfl

end VecIndexesLemmas

/-- What the counts are for:
* `once`: an instance is freed at most once;
* `closed`: when it is freed, every caller that got it has closed it;
* `newer`: freeing it does not remove a newer instance from the cache. -/
structure LifetimeSafe [DecidableEq τ] (log : List (VecEvent τ)) : Prop where
  once : ∀ n, log.count (.freed n) ≤ 1
  closed : ∀ before later n, log = before ++ .freed n :: later →
    ∀ t, before.count (.got t n) = before.count (.released t n)
  newer : ∀ n k, .removed n k ∈ log → k ≤ n

def stillCached : Guard VecManager VecPc τ VecChoice (VecEvent τ) := fun c _ t _ =>
  match c.threads t with
  | .polling n => c.shared.refCount n != 0 || c.shared.ready.isSome || c.shared.cache == some n
  | _ => true

namespace VecIndexesLemmas

def Dead (c : Config VecManager VecPc τ) (log : List (VecEvent τ)) (n : Nat) : Prop :=
  .freed n ∈ log ∨ ∃ t, (c.threads t).frees = some n

def holder (n : Nat) (pc : VecPc) : Bool := pc.holds == some n

theorem holder_eq_true : holder n pc = true ↔ pc.holds = some n := by
  simp [holder]

theorem holder_eq_false : holder n pc = false ↔ pc.holds ≠ some n := by
  simp [holder]

structure HeldInv [Fintype τ] [DecidableEq τ] (c : Config VecManager VecPc τ)
    (log : List (VecEvent τ)) : Prop where
  refs : ∀ n, c.shared.refCount n = count (holder n) c
  fresh : ∀ t n, (c.threads t).holds = some n → n < c.shared.made
  cached : ∀ n, c.shared.cache = some n → n < c.shared.made
  paired : Paired .got .released VecPc.holds c log

section Held

variable [Fintype τ] [DecidableEq τ] {c : Config VecManager VecPc τ} {log es : List (VecEvent τ)}
  {t : τ} {m' : VecManager} {pc' : VecPc} {n : Nat}

theorem HeldInv.keep (h : HeldInv c log) (hr : m'.refCount = c.shared.refCount)
    (hm : m'.made = c.shared.made) (hc : ∀ n, m'.cache = some n → n < c.shared.made)
    (hh : pc'.holds = (c.threads t).holds) (he : ∀ u n, .got u n ∉ es ∧ .released u n ∉ es) :
    HeldInv (c.after t m' pc') (log ++ es) := by
  refine ⟨?_, ?_, ?_, h.paired.keep hh he⟩
  · intro n
    rw [shared_after, hr, h.refs n, count_keep]
    simp [holder, hh]
  · rw [shared_after, hm]
    exact forall_after (P := fun _ (l : VecPc) => ∀ n, l.holds = some n → n < c.shared.made)
      (fun n hn => h.fresh t n (hh ▸ hn)) fun u _ => h.fresh u
  · rw [shared_after, hm]
    exact hc

theorem HeldInv.trade (h : HeldInv c log) (hr : ∀ k, k ≠ n → m'.refCount k = c.shared.refCount k)
    (hn : m'.refCount n = count (holder n) (c.after t m' pc')) (hm : c.shared.made ≤ m'.made)
    (hc : m'.cache = c.shared.cache)
    (hother : ∀ k, k ≠ n → (pc'.holds = some k ↔ (c.threads t).holds = some k))
    (hfresh : n < m'.made) (hp : Paired .got .released VecPc.holds (c.after t m' pc') (log ++ es)) :
    HeldInv (c.after t m' pc') (log ++ es) := by
  refine ⟨?_, ?_, ?_, hp⟩
  · intro k
    by_cases hk : k = n
    · subst hk
      exact hn
    · rw [shared_after, hr k hk, h.refs k, count_keep]
      rw [Bool.eq_iff_iff, holder_eq_true, holder_eq_true]
      exact hother k hk
  · refine forall_after (P := fun _ (l : VecPc) => ∀ k, l.holds = some k → k < m'.made) ?_ ?_
    · intro k hk
      by_cases hkn : k = n
      · subst hkn
        exact hfresh
      · exact lt_of_lt_of_le (h.fresh t k ((hother k hkn).1 hk)) hm
    · exact fun u _ k hk => lt_of_lt_of_le (h.fresh u k hk) hm
  · intro k hk
    rw [shared_after, hc] at hk
    exact lt_of_lt_of_le (h.cached k hk) hm

theorem held_step (h : HeldInv c log) (hs : step t x c.shared (c.threads t) = some (m', pc', es)) :
    HeldInv (c.after t m' pc') (log ++ es) := by
  generalize hpc : c.threads t = pc at hs
  cases step_vector hs with
  | inside hc hm hr hh hf =>
    refine h.keep hr hm ?_ (by rw [hh, hpc]) (by simp)
    rw [hc]
    exact h.cached
  | @take n _ _ hc hh hh' hf =>
    have hnone : (c.threads t).holds = none := by rw [hpc, hh]
    refine h.trade (n := n) ?_ ?_ le_rfl rfl ?_ (h.cached n hc)
      (h.paired.get (by simp) (by simp) hnone hh')
    · exact fun k hk => Function.update_of_ne hk ..
    · rw [count_enter (by simp [holder, hnone]) (by simp [holder, hh'])]
      simp [addRef, h.refs n]
    · intro k hk
      simp [hh', hnone, Ne.symm hk]
  | make =>
    have hnone : (c.threads t).holds = none := by rw [hpc]; rfl
    have hnew : ∀ u, (c.threads u).holds ≠ some c.shared.made := fun u hu =>
      lt_irrefl _ (h.fresh u _ hu)
    have hzero : count (holder c.shared.made) c = 0 :=
      count_eq_zero.2 fun u => holder_eq_false.2 (hnew u)
    refine h.trade (n := c.shared.made) ?_ ?_ (Nat.le_succ _) rfl ?_ (Nat.lt_succ_self _)
      (h.paired.get (by simp) (by simp) hnone rfl)
    · exact fun k hk => Function.update_of_ne hk ..
    · rw [count_enter (by simp [holder, hnone]) (by simp [holder, VecPc.holds]), hzero]
      simp [VecManager.make]
    · intro k hk
      rw [hnone]
      simp [VecPc.holds, Ne.symm hk]
  | @publish n ch =>
    refine h.keep rfl rfl ?_ (by rw [hpc]; rfl) (by simp)
    rintro k hk
    cases hk
    exact h.fresh t n (by rw [hpc]; rfl)
  | @release n wait _ hh hf =>
    have hsome : (c.threads t).holds = some n := by rw [hpc]; rfl
    refine h.trade (n := n) ?_ ?_ le_rfl rfl ?_ (h.fresh t n hsome)
      (h.paired.return (by simp) (by simp) hsome hh)
    · exact fun k hk => Function.update_of_ne hk ..
    · rw [count_exit (holder_eq_true.2 hsome) (by simp [holder, hh]), ← h.refs n]
      exact Function.update_self ..
    · intro k hk
      simp [hh, hsome, Ne.symm hk]
  | retire h0 hfrom =>
    refine h.keep rfl rfl (by simp) ?_ (by simp)
    rw [hpc]
    rcases hfrom with ⟨rfl, -⟩ | ⟨rfl, -⟩ <;> rfl
  | free => exact h.keep rfl rfl h.cached (by rw [hpc]; rfl) (by simp)

end Held

def freer (n : Nat) (pc : VecPc) : Bool := pc.frees == some n

structure DeadInv [Fintype τ] [DecidableEq τ] (c : Config VecManager VecPc τ)
    (log : List (VecEvent τ)) : Prop where
  made : ∀ n, Dead c log n → n < c.shared.made
  cache : ∀ n, Dead c log n → c.shared.cache ≠ some n
  holds : ∀ n, Dead c log n → ∀ t, (c.threads t).holds ≠ some n
  once : ∀ n, log.count (.freed n) + count (freer n) c ≤ 1
  closed : AllReturned .got .released .freed log
  newer : ∀ n k, .removed n k ∈ log → k ≤ n

section Dead

variable [Fintype τ] [DecidableEq τ] {c : Config VecManager VecPc τ} {log es : List (VecEvent τ)}
  {t : τ} {m' : VecManager} {pc' : VecPc} {n : Nat}

theorem dead_iff : Dead c log n ↔ 0 < log.count (.freed n) + count (freer n) c := by
  have hcount : 0 < count (freer n) c ↔ ∃ t, (c.threads t).frees = some n := by
    rw [Nat.pos_iff_ne_zero, ne_eq, Threads.count_eq_zero]
    simp [freer]
  rw [Dead, ← hcount, ← count_pos_iff]
  omega

theorem DeadInv.step (h : DeadInv c log) (hm : c.shared.made ≤ m'.made)
    (hdead : ∀ n, Dead (c.after t m' pc') (log ++ es) n → n < c.shared.made ∧
      m'.cache ≠ some n ∧ pc'.holds ≠ some n ∧ ∀ u, (c.threads u).holds ≠ some n)
    (honce : ∀ n, (log ++ es).count (.freed n) + count (freer n) (c.after t m' pc') ≤ 1)
    (hclosed : AllReturned .got .released .freed (log ++ es))
    (hnewer : ∀ n k, .removed n k ∈ es → k ≤ n) : DeadInv (c.after t m' pc') (log ++ es) where
  made n hd := (hdead n hd).1.trans_le hm
  cache n hd := (hdead n hd).2.1
  holds n hd := by
    obtain ⟨-, -, hown, hother⟩ := hdead n hd
    exact forall_after (P := fun _ (l : VecPc) => l.holds ≠ some n) hown fun u _ => hother u
  once := honce
  closed := hclosed
  newer n k hmem := (mem_append.1 hmem).elim (h.newer n k) (hnewer n k)

theorem DeadInv.keep (h : DeadInv c log) (hf : pc'.frees = (c.threads t).frees)
    (hm : c.shared.made ≤ m'.made) (hc : ∀ n, Dead c log n → m'.cache ≠ some n)
    (hh : ∀ n, Dead c log n → pc'.holds ≠ some n) (he : ∀ n, .freed n ∉ es)
    (hr : ∀ n k, .removed n k ∉ es) : DeadInv (c.after t m' pc') (log ++ es) := by
  have hsame : ∀ n, (log ++ es).count (.freed n) + count (freer n) (c.after t m' pc') =
      log.count (.freed n) + count (freer n) c := by
    intro n
    rw [count_append, count_eq_zero_of_not_mem (he n), count_keep (by simp [freer, hf])]
    rfl
  have hold : ∀ n, Dead (c.after t m' pc') (log ++ es) n → Dead c log n := by
    intro n hd
    rw [dead_iff] at hd ⊢
    rwa [hsame] at hd
  refine h.step hm (fun n hd => ?_) (fun n => (hsame n).trans_le (h.once n)) (h.closed.keep he)
    fun n k hk => absurd hk (hr n k)
  have hd := hold n hd
  exact ⟨h.made n hd, hc n hd, hh n hd, h.holds n hd⟩

theorem DeadInv.retire (h : DeadInv c log) (hn : n < c.shared.made) (hc : c.shared.cache = some n)
    (hh : ∀ u, (c.threads u).holds ≠ some n) (hf : (c.threads t).frees = none)
    (hm : m'.made = c.shared.made) (hc' : m'.cache = none) :
    DeadInv (c.after t m' (.freeing n ch)) (log ++ [.removed n n]) := by
  -- it was in the cache, so no other thread is about to free it, and none has
  have hlive : log.count (.freed n) + count (freer n) c = 0 := by
    have hnot : ¬ Dead c log n := fun hd => h.cache n hd hc
    rw [dead_iff] at hnot
    omega
  have hlog : ∀ k, List.count (VecEvent.freed k) (log ++ [VecEvent.removed n n]) =
      log.count (.freed k) := by simp
  have hother : ∀ k, k ≠ n → count (freer k) (c.after t m' (.freeing n ch)) =
      count (freer k) c := by
    intro k hk
    refine count_keep ?_
    rw [freer, freer, hf]
    simp [VecPc.frees, Ne.symm hk]
  have hmine : count (freer n) (c.after t m' (.freeing n ch)) = count (freer n) c + 1 :=
    count_enter (by simp [freer, hf]) (by simp [freer, VecPc.frees])
  have hdead : ∀ k, Dead (c.after t m' (.freeing n ch)) (log ++ [.removed n n]) k →
      k = n ∨ Dead c log k := by
    intro k hk
    by_cases hkn : k = n
    · exact .inl hkn
    · rw [dead_iff, hlog, hother k hkn] at hk
      exact .inr (dead_iff.2 hk)
  refine h.step hm.ge (fun k hk => ?_) (fun k => ?_) (h.closed.keep (by simp)) ?_
  · rw [hc']
    rcases hdead k hk with rfl | hold
    · exact ⟨hn, nofun, nofun, hh⟩
    · exact ⟨h.made k hold, nofun, nofun, h.holds k hold⟩
  · rw [hlog]
    by_cases hkn : k = n
    · subst hkn
      omega
    · rw [hother k hkn]
      exact h.once k
  · intro k k' hnew
    cases mem_singleton.1 hnew
    exact le_rfl

theorem DeadInv.free (h : DeadInv c log) (hheld : HeldInv c log)
    (hpc : c.threads t = .freeing n ch) :
    DeadInv (c.after t c.shared (.freed n ch)) (log ++ [.freed n]) := by
  have hsame : ∀ k, List.count (VecEvent.freed k) (log ++ [VecEvent.freed n]) +
      count (freer k) (c.after t c.shared (.freed n ch)) =
      log.count (.freed k) + count (freer k) c := by
    intro k
    have hcount := count_after (freer k) c t c.shared (.freed n ch)
    rw [hpc] at hcount
    rw [count_append]
    by_cases hk : n = k
    · subst hk
      simp only [freer, VecPc.frees, beq_self_eq_true, if_true, count_singleton_self,
        reduceCtorEq, beq_iff_eq, if_false] at hcount ⊢
      omega
    · simp only [freer, VecPc.frees, beq_iff_eq, Option.some.injEq, hk, reduceCtorEq,
        if_false, add_zero] at hcount
      simp [hk, hcount]
  have hold : ∀ k, Dead (c.after t c.shared (.freed n ch)) (log ++ [.freed n]) k →
      Dead c log k := by
    intro k hk
    rw [dead_iff] at hk ⊢
    rwa [hsame] at hk
  have hdead : Dead c log n := .inr ⟨t, by rw [hpc]; rfl⟩
  refine h.step le_rfl (fun k hk => ?_) (fun k => (hsame k).trans_le (h.once k))
    (h.closed.snoc hheld.paired (fun _ _ => VecEvent.freed.inj) (h.holds n hdead)) (by simp)
  have hk := hold k hk
  exact ⟨h.made k hk, h.cache k hk, nofun, h.holds k hk⟩

theorem dead_step (hheld : HeldInv c log) (h : DeadInv c log) (hok : stillCached c log t x = true)
    (hs : step t x c.shared (c.threads t) = some (m', pc', es)) :
    DeadInv (c.after t m' pc') (log ++ es) := by
  generalize hpc : c.threads t = pc at hs
  cases step_vector hs with
  | inside hc hm _ hh hf =>
    refine h.keep (by rw [hf, hpc]) hm.ge ?_ ?_ (by simp) (by simp)
    · rw [hc]
      exact h.cache
    · intro n hd
      rw [hh, ← hpc]
      exact h.holds n hd t
  | @take n _ _ hc _ hh hf =>
    refine h.keep (by rw [hf, hpc]) le_rfl h.cache ?_ (by simp) (by simp)
    intro k hd heq
    cases hh.symm.trans heq
    exact h.cache n hd hc
  | make =>
    refine h.keep (by rw [hpc]; rfl) (Nat.le_succ _) h.cache ?_ (by simp) (by simp)
    intro k hd heq
    cases heq
    exact lt_irrefl _ (h.made _ hd)
  | @publish n ch =>
    have hne : ∀ k, Dead c log k → some n ≠ some k := by
      intro k hd heq
      refine h.holds k hd t ?_
      rw [hpc, ← heq]
      rfl
    exact h.keep (by rw [hpc]; rfl) le_rfl hne hne (by simp) (by simp)
  | release hh hf =>
    exact h.keep (by rw [hf, hpc]; rfl) le_rfl h.cache (by simp [hh]) (by simp) (by simp)
  | @retire n _ h0 hfrom =>
    have hc : c.shared.cache = some n := by
      rcases hfrom with ⟨rfl, hr⟩ | ⟨-, hc⟩
      · simpa [stillCached, hpc, h0, hr] using hok
      · exact hc
    have hf : (c.threads t).frees = none := by
      rw [hpc]
      rcases hfrom with ⟨rfl, -⟩ | ⟨rfl, -⟩ <;> rfl
    have hzero : count (holder n) c = 0 := by
      have hrefs := hheld.refs n
      omega
    have hh : ∀ u, (c.threads u).holds ≠ some n := fun u =>
      holder_eq_false.1 (count_eq_zero.1 hzero u)
    rw [hc]
    exact h.retire (hheld.cached n hc) hc hh hf rfl rfl
  | free => exact h.free hheld hpc

theorem held_start : HeldInv (start : Config VecManager VecPc τ) [] := by
  refine ⟨?_, ?_, ?_, ?_⟩
  · intro n
    have hzero : count (holder n) (start : Config VecManager VecPc τ) = 0 :=
      count_eq_zero.2 fun _ => rfl
    rw [hzero]
    rfl
  · exact nofun
  · exact nofun
  · exact fun t n => rfl

theorem dead_start : DeadInv (start : Config VecManager VecPc τ) [] := by
  have hzero : ∀ n, count (freer n) (start : Config VecManager VecPc τ) = 0 :=
    fun n => count_eq_zero.2 fun _ => rfl
  have hlive : ∀ n, ¬ Dead (start : Config VecManager VecPc τ) [] n := by
    intro n
    rw [dead_iff, hzero]
    simp
  refine ⟨fun n hd => absurd hd (hlive n), fun n hd => absurd hd (hlive n),
    fun n hd => absurd hd (hlive n), ?_, by simp [AllReturned], by simp⟩
  intro n
  rw [hzero]
  simp

end Dead

end VecIndexesLemmas

open VecIndexesLemmas in
/-- In every run in which callers that wait free only what is still in the cache, instances
are freed once, after all their callers have closed them, and without touching newer
ones. -/
theorem lifetime_safe [Fintype τ] [DecidableEq τ] {c : Config VecManager VecPc τ}
    {log : List (VecEvent τ)} (h : Reach step stillCached start c log) :
    LifetimeSafe log := by
  have hinv : HeldInv c log ∧ DeadInv c log := by
    refine reach_invariant (I := fun c log => HeldInv c log ∧ DeadInv c log) ?_ ?_ h
    · exact ⟨held_start, dead_start⟩
    · rintro c log t x m' pc' es ⟨hheld, hdead⟩ hok hs
      exact ⟨held_step hheld hs, dead_step hheld hdead hok hs⟩
  obtain ⟨-, hdead⟩ := hinv
  refine ⟨?_, hdead.closed, hdead.newer⟩
  intro n
  exact le_trans (Nat.le_add_right _ _) (hdead.once n)

/-- A thread gets the index and two others delete it. The first one closes it, and then the
second one frees it. -/
def twoDeletes : List (Fin 3 × VecChoice) :=
  [(0, .get), (0, .proceed), (0, .proceed), (0, .proceed), (1, .delete), (2, .delete),
    (0, .close false), (0, .proceed), (1, .proceed), (2, .proceed),
    (1, .proceed), (1, .proceed), (1, .proceed)]

theorem lifetime_safe_twoDeletes :
    ∃ c log, run step stillCached twoDeletes start [] = some (c, log) ∧
      log.count (.freed 0) = 1 ∧ LifetimeSafe log :=
  ⟨_, _, rfl, rfl, lifetime_safe ⟨twoDeletes, rfl⟩⟩

/-- The first thread opens the index again, and the third one goes on: it frees the old
instance once more and removes the new one from the cache, although the first thread has
it. -/
theorem freed_twice :
    ∃ c log, run step free
        (twoDeletes ++ [(0, .get), (0, .proceed), (0, .proceed), (0, .proceed),
          (2, .proceed), (2, .proceed)]) start [] = some (c, log) ∧
      log.count (.freed 0) = 2 ∧ .removed 0 1 ∈ log ∧ c.threads 0 = .holding 1 ∧
      c.shared.cache = none :=
  ⟨_, _, rfl, rfl, by decide, rfl, rfl⟩

end SeaSearch
