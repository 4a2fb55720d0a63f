import Mathlib

/-!
# Rendezvous hashing

The table of nodes is two parallel lists and a map of positions. `Remove` reads behind the end of
the list of nodes.
-/

namespace SeaSearch

open List
open Function (update update_of_ne update_self)

structure Rendezvous where
  nodes : String → Option Nat := fun _ => none
  nstr : List String := []
  nhash : List (BitVec 64) := []

inductive RendezvousCall
  | add (node : String)
  | remove (node : String)

namespace Rendezvous

variable (hash : String → BitVec 64)

def add (r : Rendezvous) (node : String) : Rendezvous :=
  if (r.nodes node).isSome then r
  else
    { nodes := update r.nodes node (some r.nstr.length)
      nstr := r.nstr ++ [node]
      nhash := r.nhash ++ [hash node] }

/-- `Remove`; `none` is an index out of range. A node that is absent is looked for at 0. -/
def remove (r : Rendezvous) (node : String) : Option Rendezvous :=
  let nidx := (r.nodes node).getD 0
  let l := r.nstr.length
  r.nstr[l]?.bind fun last =>
    let nstr := (r.nstr.set nidx last).take l
    r.nhash[l]?.bind fun lastHash =>
      let nhash := (r.nhash.set nidx lastHash).take l
      nstr[nidx]?.map fun moved =>
        ⟨update (update r.nodes node none) moved (some nidx), nstr, nhash⟩

def call (r : Rendezvous) : RendezvousCall → Option Rendezvous
  | .add node => some (r.add hash node)
  | .remove node => r.remove node

def run (calls : List RendezvousCall) : Option Rendezvous := calls.foldlM (call hash) {}

/-- The two lists and the map describe the same nodes. -/
structure Consistent (r : Rendezvous) : Prop where
  nhash : r.nhash = r.nstr.map hash
  nodes : ∀ node i, r.nodes node = some i ↔ r.nstr[i]? = some node

end Rendezvous

open Rendezvous

namespace RendezvousLemmas

variable {hash : String → BitVec 64} {r : Rendezvous}

theorem consistent_mem (h : r.Consistent hash) : (r.nodes n).isSome ↔ n ∈ r.nstr := by
  simp only [Option.isSome_iff_exists, h.nodes, mem_iff_getElem?]

theorem consistent_add (h : r.Consistent hash) (node : String) : (r.add hash node).Consistent hash ∧
    ∀ n, n ∈ (r.add hash node).nstr ↔ n ∈ r.nstr ∨ n = node := by
  rw [Rendezvous.add]
  split
  · next hsome =>
    refine ⟨h, fun n => (or_iff_left_of_imp ?_).symm⟩
    rintro rfl
    exact (consistent_mem h).1 hsome
  · next hnone =>
    have hget : ∀ n i, (r.nstr ++ [node])[i]? = some n ↔
        r.nstr[i]? = some n ∨ i = r.nstr.length ∧ node = n := by grind
    refine ⟨⟨by rw [map_append, h.nhash]; rfl, fun n i => ?_⟩, fun n => by simp⟩
    dsimp only
    rw [hget, ← h.nodes]
    by_cases hn : n = node
    · subst hn
      rw [update_self, Option.not_isSome_iff_eq_none.1 hnone]
      simp [eq_comm]
    · simp [update_of_ne hn, Ne.symm hn]

theorem remove_eq_none (r : Rendezvous) (node : String) : r.remove node = none := by
  simp [remove]

theorem run_adds {calls : List RendezvousCall} (h : ∀ node, .remove node ∉ calls) :
    ∃ r, run hash calls = some r ∧ r.Consistent hash ∧ ∀ n, n ∈ r.nstr ↔ .add n ∈ calls := by
  induction calls using List.reverseRecOn with
  | nil => exact ⟨{}, rfl, ⟨rfl, by simp⟩, by simp⟩
  | append_singleton calls c ih =>
    cases c with
    | remove node => exact absurd (mem_append_right _ mem_cons_self) (h node)
    | add node =>
      obtain ⟨r, hr, hcons, hmem⟩ := ih fun n hn => h n (mem_append_left _ hn)
      obtain ⟨hcons', hmem'⟩ := consistent_add hcons node
      refine ⟨r.add hash node, ?_, hcons', fun n => by rw [hmem', hmem]; simp⟩
      rw [run, foldlM_append, ← run, hr]
      rfl

end RendezvousLemmas

open RendezvousLemmas

/-- The calls go through exactly if none of them is `Remove`, and then the table has the nodes that
were added. -/
theorem table_consistent_iff (hash : String → BitVec 64) (calls : List RendezvousCall) :
    (∃ r, run hash calls = some r ∧ r.Consistent hash ∧ ∀ n, n ∈ r.nstr ↔ .add n ∈ calls) ↔
      ∀ node, .remove node ∉ calls := by
  refine ⟨?_, run_adds⟩
  rintro ⟨r, hr, -⟩ node hmem
  obtain ⟨before, after, rfl⟩ := append_of_mem hmem
  rw [run, foldlM_append, Option.bind_eq_bind, Option.bind_eq_some_iff] at hr
  obtain ⟨r', -, hr⟩ := hr
  rw [foldlM_cons, call, remove_eq_none] at hr
  cases hr

theorem remove_panics : run (fun _ => 0) [.add "a", .remove "a"] = none ∧
    run (fun _ => 0) [.remove "a"] = none := ⟨rfl, rfl⟩

end SeaSearch
