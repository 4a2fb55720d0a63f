import Mathlib

/-!
# The WAL in a SQL table

The entries of the WAL of an index are the rows of its name. `OpenWal` keeps the next index of the
name in a map of the process, and nothing removes it from there: neither `Close` nor the loss of the
index to another process.
-/

namespace SeaSearch

open List
open Function (update update_self)

variable {ν δ : Type}

/-- The rows of one name, the map of each process, and whether the shard of the owner holds a
`Wal`. -/
structure SqlWal (ν δ : Type) where
  rows : List (Nat × δ) := []
  walMap : ν → Option Nat := fun _ => none
  owner : ν
  isOpen : Bool := false

/-- What happens to the WAL. All but `acquire` and `restart` is done by the owner. -/
inductive SqlWalEvent (ν δ : Type)
  | acquire (p : ν)
  | restart (p : ν)
  | openWal
  | write (index : Nat) (data : δ)
  | truncateFront (id : Nat)
  | close

namespace SqlWal

/-- `LastIndex`: `0` if there are no rows. -/
def lastIndex (s : SqlWal ν δ) : Nat := (s.rows.map Prod.fst).foldr max 0

section Steps

variable [DecidableEq ν]

/-- `OpenWal`: the `Wal` of the process, or a new one. -/
def openWal (s : SqlWal ν δ) : SqlWal ν δ :=
  { s with
    walMap := update s.walMap s.owner
      (some ((s.walMap s.owner).getD (s.lastIndex + 1)))
    isOpen := true }

/-- `Write`: the index `0` stands for the next one, and any other than the next is
`ErrOutOfOrder`. -/
def write (s : SqlWal ν δ) (index : Nat) (data : δ) : Option (SqlWal ν δ) :=
  match s.isOpen, s.walMap s.owner with
  | true, some nextIndex =>
    if index = 0 ∨ index = nextIndex then
      some { s with
        rows := s.rows ++ [(nextIndex, data)]
        walMap := update s.walMap s.owner (some (nextIndex + 1)) }
    else none
  | _, _ => none

def truncateFront (s : SqlWal ν δ) (id : Nat) : SqlWal ν δ :=
  { s with rows := s.rows.filter fun row => id ≤ row.1 }

def step (s : SqlWal ν δ) : SqlWalEvent ν δ → SqlWal ν δ
  | .acquire p => if p = s.owner then s else { s with owner := p, isOpen := false }
  | .restart p =>
    { s with walMap := update s.walMap p none, isOpen := s.isOpen && s.owner ≠ p }
  | .openWal => s.openWal
  | .write index data => (s.write index data).getD s
  | .truncateFront id => if s.isOpen then s.truncateFront id else s
  | .close => { s with isOpen := false }

def run (s : SqlWal ν δ) (events : List (SqlWalEvent ν δ)) : SqlWal ν δ := events.foldl step s

/-- The event does not give the index to a process whose `Wal` of it is out of date, and does not
remove the last entry. -/
def plain (s : SqlWal ν δ) : SqlWalEvent ν δ → Bool
  | .acquire p => (s.walMap p).all fun nextIndex => nextIndex = s.lastIndex + 1
  | .truncateFront id => id ≤ s.lastIndex
  | _ => true

def plainRun : SqlWal ν δ → List (SqlWalEvent ν δ) → Bool
  | _, [] => true
  | s, e :: events => s.plain e && plainRun (s.step e) events

end Steps

/-- The rows have consecutive ids. -/
def Consecutive (s : SqlWal ν δ) : Prop :=
  ∃ first, s.rows.map Prod.fst = List.range' first s.rows.length

end SqlWal

namespace SqlWalLemmas

variable {s : SqlWal ν δ} {first : Nat}

open SqlWal

theorem foldr_max_range' (first n : Nat) : (List.range' first (n + 1)).foldr max 0 = first + n := by
  induction n generalizing first with
  | zero => simp
  | succ n ih =>
    rw [List.range'_succ, foldr_cons, ih]
    omega

structure Numbered (s : SqlWal ν δ) (first : Nat) : Prop where
  indexes : s.rows.map Prod.fst = List.range' first s.rows.length
  last : s.lastIndex + 1 = first + s.rows.length

theorem numbered_of_indexes (h : s.rows.map Prod.fst = List.range' first s.rows.length)
    (hne : s.rows ≠ []) : Numbered s first := by
  refine ⟨h, ?_⟩
  obtain ⟨n, hn⟩ := Nat.exists_eq_succ_of_ne_zero (length_pos_iff.2 hne).ne'
  rw [lastIndex, h, hn, foldr_max_range']
  omega

structure SqlWalInv (s : SqlWal ν δ) : Prop where
  numbered : ∃ first, Numbered s first
  next : ∀ n, s.walMap s.owner = some n → n = s.lastIndex + 1

theorem filter_range' (id first n : Nat) :
    (List.range' first n).filter (fun i => id ≤ i) =
      List.range' (max id first) (first + n - max id first) := by
  induction n generalizing first with
  | zero =>
    rw [Nat.sub_eq_zero_of_le (by omega)]
    rfl
  | succ n ih =>
    rw [List.range'_succ, filter_cons, ih]
    split
    next h =>
      have h : id ≤ first := by simpa using h
      rw [max_eq_right h, max_eq_right (by omega), show first + (n + 1) - first = n + 1 by omega,
        List.range'_succ, show first + 1 + n - (first + 1) = n by omega]
    next h =>
      have h : first < id := by simpa using h
      rw [max_eq_left h.le, max_eq_left (by omega), show first + (n + 1) = first + 1 + n by omega]

section Numbered

variable (h : Numbered s first)

include h

theorem Numbered.congr (hrows : s'.rows = s.rows) : Numbered s' first := by
  obtain ⟨hindexes, hlast⟩ := h
  rw [lastIndex] at hlast
  constructor
  · rw [hrows, hindexes]
  · rw [lastIndex, hrows, hlast]

theorem Numbered.append
    (hrows : s'.rows = s.rows ++ [(s.lastIndex + 1, data)]) : Numbered s' first := by
  refine numbered_of_indexes ?_ ?_
  · rw [hrows, map_append, h.indexes, length_append, map_singleton, h.last]
    exact (List.range'_concat ..).symm ▸ by simp
  · rw [hrows]
    exact append_ne_nil_of_right_ne_nil _ (cons_ne_nil _ _)

theorem map_truncateFront (id : Nat) :
    (s.truncateFront id).rows.map Prod.fst =
      List.range' (max id first) (first + s.rows.length - max id first) := by
  rw [← filter_range', ← h.indexes, filter_map]
  rfl

theorem length_truncateFront (id : Nat) :
    (s.truncateFront id).rows.length = first + s.rows.length - max id first := by
  rw [← length_map Prod.fst, map_truncateFront h, length_range']

theorem indexes_truncateFront (id : Nat) :
    (s.truncateFront id).rows.map Prod.fst =
      List.range' (max id first) (s.truncateFront id).rows.length := by
  rw [length_truncateFront h, map_truncateFront h]

theorem Numbered.truncateFront {id : Nat} (hid : id ≤ s.lastIndex) :
    Numbered (s.truncateFront id) (max id first) ∧
      (s.truncateFront id).lastIndex = s.lastIndex := by
  have hlast := h.last
  have hlength := length_truncateFront h id
  by_cases hnil : s.rows = []
  · have hzero : s.lastIndex = 0 := by
      rw [lastIndex, hnil]
      rfl
    have hsame : (s.truncateFront id).rows = s.rows := by
      rw [SqlWal.truncateFront, hnil]
      rfl
    rw [hnil, length_nil] at hlast
    refine ⟨(max_eq_right (by omega : id ≤ first)).symm ▸ h.congr hsame, ?_⟩
    rw [lastIndex, hsame, lastIndex]
  · have hpos := length_pos_iff.2 hnil
    have hnumbered : Numbered (s.truncateFront id) (max id first) := by
      refine numbered_of_indexes (indexes_truncateFront h id) fun hnil' => ?_
      rw [hnil', length_nil] at hlength
      omega
    have hlast' := hnumbered.last
    exact ⟨hnumbered, by omega⟩

end Numbered

section Steps

variable {s s' : SqlWal ν δ}

theorem SqlWalInv.congr (h : SqlWalInv s) (hrows : s'.rows = s.rows)
    (hnext : ∀ n, s'.walMap s'.owner = some n → n = s.lastIndex + 1) : SqlWalInv s' := by
  obtain ⟨first, hfirst⟩ := h.numbered
  refine ⟨⟨first, hfirst.congr hrows⟩, fun n hn => ?_⟩
  rw [lastIndex, hrows]
  exact hnext n hn

variable [DecidableEq ν]

omit [DecidableEq ν] in
theorem SqlWalInv.acquire (h : SqlWalInv s) (hp : ∀ n, s.walMap p = some n → n = s.lastIndex + 1) :
    SqlWalInv { s with owner := p, isOpen := false } :=
  h.congr rfl hp

theorem SqlWalInv.restart (h : SqlWalInv s) (p : ν) (isOpen : Bool) :
    SqlWalInv { s with walMap := update s.walMap p none, isOpen := isOpen } := by
  refine h.congr rfl fun n hn => h.next n ?_
  have hn : update s.walMap p none s.owner = some n := hn
  by_cases hp : s.owner = p
  · rw [hp, update_self] at hn
    cases hn
  · rwa [Function.update_of_ne hp] at hn

theorem walMap_openWal (s : SqlWal ν δ) :
    s.openWal.walMap s.openWal.owner = some ((s.walMap s.owner).getD (s.lastIndex + 1)) :=
  update_self ..

section SqlWalInv

variable (h : SqlWalInv s)

include h

theorem SqlWalInv.openWal : SqlWalInv s.openWal := by
  refine h.congr rfl fun n hn => ?_
  rw [walMap_openWal, Option.some.injEq] at hn
  cases hnext : s.walMap s.owner with
  | none => rw [← hn, hnext, Option.getD_none]
  | some m =>
    rw [hnext, Option.getD_some] at hn
    rw [← hn, h.next m hnext]

theorem rows_write (hwrite : s.write index data = some s') :
    s'.rows = s.rows ++ [(s.lastIndex + 1, data)] ∧ s'.owner = s.owner ∧
      s'.walMap s'.owner = some (s.lastIndex + 2) := by
  unfold SqlWal.write at hwrite
  split at hwrite
  next nextIndex _ hnext =>
    split at hwrite
    · cases hwrite
      rw [h.next nextIndex hnext]
      exact ⟨rfl, rfl, update_self ..⟩
    · cases hwrite
  · cases hwrite

theorem SqlWalInv.write (hwrite : s.write index data = some s') : SqlWalInv s' := by
  obtain ⟨first, hfirst⟩ := h.numbered
  obtain ⟨hrows, -, hnext⟩ := rows_write h hwrite
  have hnumbered := hfirst.append hrows
  refine ⟨⟨first, hnumbered⟩, fun n hn => ?_⟩
  have hlast := hfirst.last
  have hlast' := hnumbered.last
  rw [hrows, length_append, length_singleton] at hlast'
  rw [hnext, Option.some.injEq] at hn
  omega

omit [DecidableEq ν] in
theorem SqlWalInv.truncateFront {id : Nat} (hid : id ≤ s.lastIndex) :
    SqlWalInv (s.truncateFront id) := by
  obtain ⟨first, hfirst⟩ := h.numbered
  obtain ⟨hnumbered, hlast⟩ := hfirst.truncateFront hid
  refine ⟨⟨_, hnumbered⟩, fun n hn => ?_⟩
  rw [hlast]
  exact h.next n hn

theorem SqlWalInv.step (hplain : s.plain e) : SqlWalInv (s.step e) := by
  cases e with
  | acquire p =>
    rw [SqlWal.step]
    split
    · exact h
    · refine h.acquire fun n hn => ?_
      rw [SqlWal.plain, hn] at hplain
      exact of_decide_eq_true hplain
  | restart p => exact h.restart p _
  | openWal => exact h.openWal
  | write index data =>
    rw [SqlWal.step]
    cases hwrite : s.write index data with
    | none => exact h
    | some s' => exact h.write hwrite
  | truncateFront id =>
    rw [SqlWal.step]
    split
    · exact h.truncateFront (of_decide_eq_true hplain)
    · exact h
  | close => exact h.congr rfl h.next

theorem SqlWalInv.run {events : List (SqlWalEvent ν δ)}
    (hplain : s.plainRun events) : SqlWalInv (s.run events) := by
  induction events generalizing s with
  | nil => exact h
  | cons e events ih =>
    obtain ⟨he, hevents⟩ := Bool.and_eq_true_iff.1 hplain
    exact ih (h.step he) hevents

end SqlWalInv

omit [DecidableEq ν] in
theorem SqlWalInv.start (p : ν) : SqlWalInv ({ owner := p } : SqlWal ν δ) :=
  ⟨⟨1, rfl, rfl⟩, nofun⟩

end Steps

end SqlWalLemmas

open SqlWalLemmas

/-- In every state of such a run the entries have consecutive indexes, and a write appends its
entry at the index after the last. -/
theorem writes_consecutive [DecidableEq ν] {p : ν} {events : List (SqlWalEvent ν δ)}
    (hplain : ({ owner := p } : SqlWal ν δ).plainRun events) :
    (SqlWal.run { owner := p } events).Consecutive ∧
      ∀ index data s', (SqlWal.run { owner := p } events).write index data = some s' →
        s'.rows = (SqlWal.run { owner := p } events).rows ++
          [((SqlWal.run { owner := p } events).lastIndex + 1, data)] := by
  have hinv : SqlWalInv (SqlWal.run { owner := p } events) := (SqlWalInv.start p).run hplain
  obtain ⟨first, hfirst⟩ := hinv.numbered
  exact ⟨⟨first, hfirst.indexes⟩, fun index data s' hwrite => (rows_write hinv hwrite).1⟩

namespace SqlWal

def restartedOwner : List (SqlWalEvent Bool String) :=
  [.openWal, .write 0 "a", .write 0 "b", .truncateFront 2, .close, .acquire true, .openWal,
    .write 0 "c", .close, .restart false, .acquire false, .openWal]

def returningOwner : List (SqlWalEvent Bool String) :=
  [.openWal, .write 0 "a", .close, .acquire true, .openWal, .write 0 "b", .close, .acquire false,
    .openWal]

end SqlWal

theorem writes_consecutive_restarted :
    SqlWal.plainRun { owner := false } SqlWal.restartedOwner ∧
      (SqlWal.run { owner := false } SqlWal.restartedOwner).Consecutive :=
  ⟨by decide, (writes_consecutive (by decide)).1⟩

/-- The first owner writes its entry at the index of the entry of the second owner. -/
theorem returning_owner_repeats_index :
    (SqlWal.run { owner := false } SqlWal.returningOwner).lastIndex = 2 ∧
      ((SqlWal.run { owner := false } SqlWal.returningOwner).write 0 "c").map
        (fun s => s.rows) = some [(1, "a"), (2, "b"), (2, "c")] := by
  decide

end SeaSearch
