import SeaSearch.Manager.IndexManager

/-!
# Unloading the indexes of other nodes

A node may hold an index only while the prefix of its hash is assigned to the node. `Get`,
`GetOrCreate` and `Delete` check this once, when they are called.
-/

namespace SeaSearch

open List Threads

variable {ν π ι υ τ : Type}

/-- A node. The assignments are numbered in the order in which `updateAssigns` reads them:
* `names`: the entries of each name in the index manager, and `known` the names of all calls;
* `unassignChan`: what the senders at the channel wait to hand over;
* `version`: the number of the current assignments;
* `lastAssigned`: the number of the last assignments that had the prefix for this node;
* `unloaded`: the number of the assignments for which `updateIndexList` has last returned, where
  the prefix is one of another node. -/
structure ClusterNode (ν π ι υ : Type) where
  names : ν → IndexManager ι υ
  known : List ν := []
  assignMap : π → Bool := fun _ => false
  unassignChan : List (Nat × (π → Bool)) := []
  version : Nat := 0
  lastAssigned : π → Nat := fun _ => 0
  unloaded : π → Nat := fun _ => 0

/-- Where a thread is:
* `calling`: in a call of the index manager;
* `sending`, `blocked`: at the end of `updateAssigns`, and at the channel;
* `received`: before `GetCached`;
* `unloading`: in the loop over the cached indexes, and `closing` in the one over the removed. -/
inductive NodePc (ν π ι υ : Type)
  | idle
  | calling (n : ν) (pc : MgrPc ι υ)
  | sending (v : Nat) (unassignMap : π → Bool)
  | blocked (v : Nat)
  | received (v : Nat) (unassignMap : π → Bool)
  | unloading (v : Nat) (unassignMap : π → Bool) (todo removed : List ν)
  | closing (v : Nat) (unassignMap : π → Bool) (removed : List ν)

abbrev NodeConfig (ν π ι υ τ : Type) := Config (ClusterNode ν π ι υ) (NodePc ν π ι υ) τ

/-- What a step does not decide: the call, what happens in it, the assignments that are read
with whether they are those of this node, the order of the cached names, and failures. `reset` is
what `syncAssigns` does when it is out of sync. -/
inductive NodeChoice (ν π ι υ : Type)
  | call (n : ν) (call : MgrCall)
  | manager (x : MgrChoice ι υ)
  | assigns (assigns : List (π × Bool))
  | reset
  | receive
  | getCached (names : List ν)
  | proceed
  | fail

/-- The call begins with `AssignCheck`. -/
def MgrCall.checked : MgrCall → Bool
  | store _ => false
  | _ => true

def NodePc.back (n : ν) : MgrPc ι υ → NodePc ν π ι υ
  | .idle => .idle
  | pc => .calling n pc

namespace ClusterNode

variable [DecidableEq ν] [DecidableEq π] [DecidableEq ι]

def setName (s : ClusterNode ν π ι υ) (n : ν) (m : IndexManager ι υ) : ClusterNode ν π ι υ :=
  { s with names := Function.update s.names n m }

/-- The lock section of `updateAssigns`. -/
def updateAssigns (s : ClusterNode ν π ι υ) (assigns : List (π × Bool)) : ClusterNode ν π ι υ :=
  { s with
    assignMap := fun p => decide ((p, true) ∈ assigns)
    version := s.version + 1
    lastAssigned := fun p => if (p, true) ∈ assigns then s.version + 1 else s.lastAssigned p }

def cached (s : ClusterNode ν π ι υ) : List ν :=
  s.known.filter fun n => (s.names n).cache.isSome

def dropCache (s : ClusterNode ν π ι υ) (n : ν) : ClusterNode ν π ι υ :=
  s.setName n { s.names n with cache := none }

/-- `updateIndexList` returns. -/
def returned (s : ClusterNode ν π ι υ) (v : Nat) (unassignMap : π → Bool) : ClusterNode ν π ι υ :=
  { s with unloaded := fun p => if unassignMap p then v else s.unloaded p }

/-- One step of a thread. `hash` gives the prefix of a name. -/
def step (hash : ν → π) :
    Program (ClusterNode ν π ι υ) (NodePc ν π ι υ) τ (NodeChoice ν π ι υ) Empty := fun t x s pc =>
  match pc, x with
  | .idle, .call n call =>
    if call.checked && !s.assignMap (hash n) then some (s, .idle, [])
    else
      (IndexManager.step t (.call call) (s.names n) .idle).map fun r =>
        (({ s with known := s.known.insert n }).setName n r.1, .back n r.2.1, [])
  | .calling _ .idle, .manager _ => none
  | .calling n pc, .manager x =>
    (IndexManager.step t x (s.names n) pc).map fun r => (s.setName n r.1, .back n r.2.1, [])
  | .idle, .assigns assigns =>
    some (s.updateAssigns assigns,
      .sending (s.version + 1) fun p => decide ((p, false) ∈ assigns), [])
  | .idle, .reset => some ({ s with assignMap := fun _ => false }, .idle, [])
  | .sending v un, .proceed =>
    some ({ s with unassignChan := s.unassignChan ++ [(v, un)] }, .blocked v, [])
  | .sending _ _, .fail => some (s, .idle, [])
  | .blocked v, .proceed =>
    if s.unassignChan.any fun m => m.1 = v then none else some (s, .idle, [])
  | .blocked v, .fail =>
    some ({ s with unassignChan := s.unassignChan.filter fun m => m.1 ≠ v }, .idle, [])
  | .idle, .receive =>
    match s.unassignChan with
    | [] => none
    | (v, un) :: rest => some ({ s with unassignChan := rest }, .received v un, [])
  | .received v un, .getCached names =>
    if names.Perm s.cached then some (s, .unloading v un names [], []) else none
  | .unloading v un (n :: todo) removed, .proceed =>
    if un (hash n) then
      some (s.dropCache n, .unloading v un todo
        (if (s.names n).cache.isSome then removed ++ [n] else removed), [])
    else some (s, .unloading v un todo removed, [])
  | .unloading v un [] removed, .proceed => some (s, .closing v un removed, [])
  | .closing v un (_ :: removed), .proceed => some (s, .closing v un removed, [])
  | .closing v un (_ :: _), .fail => some (s.returned v un, .idle, [])
  | .closing v un [], .proceed => some (s.returned v un, .idle, [])
  | _, _ => none

/-- The process has started: no call has been made and no assignments have been read. The metadata
store holds what is there of each name. -/
def start (store : ν → Option (ι → υ)) : NodeConfig ν π ι υ τ :=
  ⟨{ names := fun n => { store := store n } }, fun _ => .idle⟩

end ClusterNode

open ClusterNode (dropCache setName start step)

namespace MgrPc

def mayLoad : MgrPc ι υ → Bool
  | entered call => call.loads
  | waiting call _ => call.loads
  | loading _ _ => true
  | creating _ => true
  | loaded _ _ => true
  | _ => false

end MgrPc

namespace NodePc

def version : NodePc ν π ι υ → Nat
  | sending v _ => v
  | received v _ => v
  | unloading v _ _ _ => v
  | closing v _ _ => v
  | _ => 0

def unloads : NodePc ν π ι υ → Option (Nat × (π → Bool) × List ν)
  | unloading v un todo _ => some (v, un, todo)
  | closing v un _ => some (v, un, [])
  | _ => none

/-- The thread is in a call that may put an index of one of the prefixes into the cache. -/
def loadsAny (hash : ν → π) (un : π → Bool) : NodePc ν π ι υ → Bool
  | calling n pc => un (hash n) && pc.mayLoad
  | _ => false

/-- The thread is in a call on `n` that may put an object into the cache. -/
def loads (n : ν) : NodePc ν π ι υ → Prop
  | calling n' pc => n' = n ∧ pc.mayLoad = true
  | _ => False

end NodePc

open NodePc (back loads version)

/-- The condition on a step: when `updateIndexList` takes the cached indexes, no call is under way
that may load an index of one of its prefixes. -/
def quietUnload [Fintype τ] (hash : ν → π) :
    Guard (ClusterNode ν π ι υ) (NodePc ν π ι υ) τ (NodeChoice ν π ι υ) Empty := fun c _ t x =>
  match c.threads t, x with
  | .received _ un, .getCached _ => decide (∀ u, (c.threads u).loadsAny hash un = false)
  | _, _ => true

inductive NodeShape [DecidableEq ν] [DecidableEq π] (hash : ν → π) (s : ClusterNode ν π ι υ)
    (x : NodeChoice ν π ι υ) :
    NodePc ν π ι υ → ClusterNode ν π ι υ → NodePc ν π ι υ → Prop
  | inside :
      chan ⊆ s.unassignChan → pc'.version ≤ pc.version → (∀ n, ¬ pc'.loads n) →
      (∀ w, pc'.unloads = some w → pc.unloads = some w) →
      NodeShape hash s x pc { s with unassignChan := chan } pc'
  | begin : (call.loads = true → s.assignMap (hash n) = true) →
      NodeShape hash s x .idle { s with known := s.known.insert n } (.calling n (.entered call))
  | manager :
      (m.cache ≠ none → (s.names n).cache ≠ none ∨ pc.mayLoad = true) →
      (pc'.mayLoad = true → pc.mayLoad = true) →
      NodeShape hash s x (.calling n pc) (s.setName n m) (.back n pc')
  | assigns :
      NodeShape hash s x .idle (s.updateAssigns assigns)
        (.sending (s.version + 1) fun p => decide ((p, false) ∈ assigns))
  | reset : NodeShape hash s x .idle { s with assignMap := fun _ => false } .idle
  | send :
      NodeShape hash s x (.sending v un) { s with unassignChan := s.unassignChan ++ [(v, un)] }
        (.blocked v)
  | receive :
      s.unassignChan = (v, un) :: rest →
      NodeShape hash s x .idle { s with unassignChan := rest } (.received v un)
  | getCached : x = .getCached names →
      names.Perm s.cached → NodeShape hash s x (.received v un) s (.unloading v un names [])
  | unload :
      un (hash n) = true →
      NodeShape hash s x (.unloading v un (n :: todo) removed) (s.dropCache n)
        (.unloading v un todo removed')
  | skip : un (hash n) = false →
      NodeShape hash s x (.unloading v un (n :: todo) removed) s (.unloading v un todo removed)
  | returned :
      NodeShape hash s x (.closing v un removed) (s.returned v un) .idle

namespace AssignsLemmas

open IndexManagerLemmas

theorem foldl_cache_ends {es : MgrLog ι υ τ} (h : ∀ e ∈ es, e.ends = true) :
    es.foldl MgrEvent.cache none = none := by
  refine foldl_of_fixed fun e he => ?_
  cases e with
  | got t o => cases h _ he
  | _ => rfl

section Manager

variable [DecidableEq ι] {t : τ} {x : MgrChoice ι υ} {m m' : IndexManager ι υ} {pc pc' : MgrPc ι υ}
  {es : MgrLog ι υ τ}

omit [DecidableEq ι] in
theorem mayLoad_of_loads (h : pc.loads = true) : pc.mayLoad = true := by
  cases pc <;> first | rfl | cases h

theorem cache_of_step (h : IndexManager.step t x m pc = some (m', pc', es))
    (hc : m'.cache ≠ none) : m.cache ≠ none ∨ pc.mayLoad = true := by
  cases step_shape h with
  | inside hcache => exact .inl (hcache ▸ hc)
  | hit => exact .inl hc
  | drop => exact absurd rfl hc
  | register => exact .inl hc
  | load _ hl => exact .inr (mayLoad_of_loads hl)
  | leave _ he =>
    refine .inl fun hnone => hc ?_
    rw [hnone]
    exact foldl_cache_ends he

omit [DecidableEq ι] in
theorem mayLoad_enter (t : τ) (m : IndexManager ι υ) (call : MgrCall)
    (hl : (m.enter t call).2.1.mayLoad = true) : call.loads = true := by
  rw [IndexManager.enter] at hl
  split at hl
  next hloads _ => exact hloads
  next => exact hl
  next => cases call <;> first | rfl | cases hl

theorem mayLoad_of_step (h : IndexManager.step t x m pc = some (m', pc', es)) (hpc : pc ≠ .idle)
    (hl : pc'.mayLoad = true) : pc.mayLoad = true := by
  unfold IndexManager.step at h
  split at h
  case h_1 | h_2 | h_3 | h_4 | h_5 | h_6 => exact absurd rfl hpc
  case h_7 call =>
    have hpc' : (m.enter t call).2.1 = pc' := by rw [Option.some.inj h]
    exact mayLoad_enter t m call (hpc' ▸ hl)
  case h_8 call ch =>
    split at h
    · cases h
      exact hl
    · cases h
  case h_9 | h_10 | h_11 | h_12 | h_26 => rfl
  case h_13 =>
    obtain ⟨d, -, heq⟩ := Option.map_eq_some_iff.1 h
    cases heq
    cases hl
  case h_17 | h_18 =>
    cases h
    split at hl <;> cases hl
  case h_30 => cases h
  -- the calls that store or delete do not load
  all_goals
    cases h
    cases hl

theorem step_call (h : IndexManager.step t (.call call) m .idle = some (m', pc', es)) :
    m' = m ∧ pc' = .entered call := by
  cases call with
  | store o =>
    rw [IndexManager.step] at h
    split at h
    · cases h
      exact ⟨rfl, rfl⟩
    · cases h
  | _ =>
    cases h
    exact ⟨rfl, rfl⟩

end Manager

theorem version_back (n : ν) (pc : MgrPc ι υ) :
    (back n pc : NodePc ν π ι υ).version = 0 := by
  cases pc <;> rfl

theorem unloads_back (n : ν) (pc : MgrPc ι υ) :
    (back n pc : NodePc ν π ι υ).unloads = none := by
  cases pc <;> rfl

theorem loads_back (h : (back n pc : NodePc ν π ι υ).loads n') :
    n = n' ∧ pc.mayLoad = true := by
  cases pc <;> first | exact h | cases h

theorem version_of_unloads {pc : NodePc ν π ι υ} {v : Nat} {un : π → Bool} {todo : List ν}
    (h : pc.unloads = some (v, un, todo)) : pc.version = v := by
  cases pc with
  | unloading | closing => cases h; rfl
  | _ => cases h

theorem not_loads_of_loadsAny {pc : NodePc ν π ι υ} {hash : ν → π} {un : π → Bool} {n : ν}
    (h : pc.loadsAny hash un = false) (hun : un (hash n) = true) :
    ¬ pc.loads n := by
  cases pc with
  | calling n' pc =>
    rintro ⟨rfl, hmay⟩
    rw [NodePc.loadsAny, hun, hmay] at h
    cases h
  | _ => exact id

theorem names_setName [DecidableEq ν] (s : ClusterNode ν π ι υ) (n n' : ν) (m : IndexManager ι υ) :
    (s.setName n m).names n' = if n' = n then m else s.names n' := Function.update_apply ..

theorem node_shape [DecidableEq ν] [DecidableEq π] [DecidableEq ι] {hash : ν → π}
    {pc pc' : NodePc ν π ι υ} (h : step hash t x s pc = some (s', pc', es)) :
    NodeShape hash s x pc s' pc' := by
  unfold step at h
  split at h
  next n call =>
    split at h
    next =>
      cases h
      exact .inside (List.Subset.refl _) le_rfl (fun n hn => hn) fun w hw => hw
    next hcheck =>
      obtain ⟨⟨m, pc, es'⟩, hr, heq⟩ := Option.map_eq_some_iff.1 h
      obtain ⟨rfl, rfl⟩ := step_call hr
      cases heq
      rw [setName, Function.update_eq_self]
      refine .begin fun hloads => ?_
      have hchecked : call.checked = true := by cases call <;> first | rfl | cases hloads
      simpa [hchecked] using hcheck
  next => cases h
  next n pc x hidle =>
    obtain ⟨⟨m, pc', es'⟩, hr, heq⟩ := Option.map_eq_some_iff.1 h
    cases heq
    exact .manager (cache_of_step hr) (mayLoad_of_step hr hidle)
  next =>
    cases h
    exact .assigns
  next =>
    cases h
    exact .reset
  next =>
    cases h
    exact .send
  next =>
    cases h
    exact .inside (List.Subset.refl _) (Nat.zero_le _) (fun n hn => hn) nofun
  next =>
    split at h
    next => cases h
    next =>
      cases h
      exact .inside (List.Subset.refl _) le_rfl (fun n hn => hn) nofun
  next =>
    cases h
    exact .inside filter_sublist.subset le_rfl (fun n hn => hn) nofun
  next =>
    split at h
    next => cases h
    next hchan =>
      cases h
      exact .receive hchan
  next =>
    split at h
    next hperm =>
      cases h
      exact .getCached rfl hperm
    next => cases h
  next =>
    split at h
    next hun =>
      cases h
      exact .unload hun
    next hun =>
      cases h
      exact .skip (Bool.eq_false_iff.2 hun)
  case h_13 | h_14 =>
    cases h
    exact .inside (List.Subset.refl _) le_rfl (fun n hn => hn) fun w hw => hw
  case h_15 | h_16 =>
    cases h
    exact .returned
  next => cases h

section Runs

variable [DecidableEq τ] {hash : ν → π}
  {c : NodeConfig ν π ι υ τ} {t : τ} {x : NodeChoice ν π ι υ}
  {s : ClusterNode ν π ι υ} {pc : NodePc ν π ι υ} {p : π} {todo : List ν}

structure VersionInv (c : NodeConfig ν π ι υ τ) : Prop where
  assigned : ∀ p, c.shared.assignMap p = true → c.shared.lastAssigned p = c.shared.version
  threads : ∀ u, (c.threads u).version ≤ c.shared.version
  chan : ∀ m ∈ c.shared.unassignChan, m.1 ≤ c.shared.version
  unloaded : ∀ p, c.shared.unloaded p ≤ c.shared.version

omit [DecidableEq τ] in
theorem VersionInv.unassigned (h : VersionInv c) (hv : v ≤ c.shared.version)
    (hp : c.shared.lastAssigned p < v) : c.shared.assignMap p = false := by
  refine Bool.eq_false_iff.2 fun hassigned => ?_
  have hlast := h.assigned p hassigned
  omega

theorem VersionInv.keep (h : VersionInv c)
    (hassigned : ∀ p, s.assignMap p = true → c.shared.assignMap p = true)
    (hlast : s.lastAssigned = c.shared.lastAssigned) (hversion : s.version = c.shared.version)
    (hpc : pc.version ≤ c.shared.version) (hchan : ∀ m ∈ s.unassignChan, m.1 ≤ c.shared.version)
    (hunloaded : ∀ p, s.unloaded p ≤ c.shared.version) : VersionInv (c.after t s pc) := by
  refine ⟨fun p hp => ?_, forall_after (P := fun _ l => version l ≤ s.version) ?_ ?_, ?_, ?_⟩
  · rw [shared_after, hlast, hversion]
    exact h.assigned p (hassigned p hp)
  · rw [hversion]
    exact hpc
  · intro u _
    rw [hversion]
    exact h.threads u
  · rw [shared_after, hversion]
    exact hchan
  · rw [shared_after, hversion]
    exact hunloaded

structure Clear (hash : ν → π) (c : NodeConfig ν π ι υ τ) (p : π) (todo : List ν) : Prop where
  calls : ∀ u n, hash n = p → ¬ (c.threads u).loads n
  cached : ∀ n, hash n = p → (c.shared.names n).cache ≠ none → n ∈ todo

theorem Clear.after (h : Clear hash c p todo) (hpc : ∀ n, hash n = p → ¬ pc.loads n)
    (hcached : ∀ n, hash n = p → (s.names n).cache ≠ none → n ∈ todo) :
    Clear hash (c.after t s pc) p todo :=
  ⟨forall_after (P := fun _ l => ∀ n, hash n = p → ¬ loads n l) hpc fun u _ => h.calls u, hcached⟩

omit [DecidableEq τ] in
theorem Clear.tail (h : Clear hash c p (n :: todo))
    (hn : hash n = p → (c.shared.names n).cache = none) : Clear hash c p todo := by
  refine ⟨h.calls, fun n' hn' hcache => ?_⟩
  rcases mem_cons.1 (h.cached n' hn' hcache) with rfl | hmem
  · exact absurd (hn hn') hcache
  · exact hmem

structure KnownInv (c : NodeConfig ν π ι υ τ) : Prop where
  cached : ∀ n, (c.shared.names n).cache ≠ none → n ∈ c.shared.known
  calls : ∀ u n, (c.threads u).loads n → n ∈ c.shared.known

theorem KnownInv.after (h : KnownInv c) (hknown : c.shared.known ⊆ s.known)
    (hpc : ∀ n, pc.loads n → n ∈ s.known)
    (hcached : ∀ n, (s.names n).cache ≠ none → (c.shared.names n).cache ≠ none ∨
      (c.threads t).loads n) : KnownInv (c.after t s pc) := by
  refine ⟨fun n hn => hknown ?_, forall_after (P := fun _ l => ∀ n, loads n l → n ∈ s.known)
    hpc fun u _ n hn => hknown (h.calls u n hn)⟩
  rcases hcached n hn with hsome | hloads
  · exact h.cached n hsome
  · exact h.calls t n hloads

variable [DecidableEq ν] [DecidableEq π]

section Shape

variable (hshape : NodeShape hash c.shared x (c.threads t) s pc)

include hshape

theorem VersionInv.step (h : VersionInv c) : VersionInv (c.after t s pc) := by
  have ht := h.threads t
  generalize c.threads t = pc₀ at hshape ht
  cases hshape with
  | inside hsub hversion =>
    exact h.keep (fun _ hp => hp) rfl rfl (hversion.trans ht) (fun m hm => h.chan m (hsub hm))
      h.unloaded
  | begin => exact h.keep (fun _ hp => hp) rfl rfl (Nat.zero_le _) h.chan h.unloaded
  | manager =>
    exact h.keep (fun _ hp => hp) rfl rfl ((version_back ..).trans_le (Nat.zero_le _)) h.chan
      h.unloaded
  | @assigns assigns =>
    refine ⟨fun p hp => ?_, forall_after
      (P := fun _ l => version l ≤ c.shared.version + 1) le_rfl ?_, ?_, ?_⟩
    · exact if_pos (of_decide_eq_true hp)
    · exact fun u _ => (h.threads u).trans (Nat.le_succ _)
    · exact fun m hm => (h.chan m hm).trans (Nat.le_succ _)
    · exact fun p => (h.unloaded p).trans (Nat.le_succ _)
  | reset => exact h.keep nofun rfl rfl (Nat.zero_le _) h.chan h.unloaded
  | send =>
    refine h.keep (fun _ hp => hp) rfl rfl (Nat.zero_le _) (fun m hm => ?_) h.unloaded
    rcases mem_append.1 hm with hm | hm
    · exact h.chan m hm
    · rw [mem_singleton.1 hm]
      exact ht
  | receive hchan =>
    refine h.keep (fun _ hp => hp) rfl rfl ?_ (fun m hm => ?_) h.unloaded
    · exact h.chan _ (hchan ▸ mem_cons_self)
    · exact h.chan m (hchan ▸ mem_cons_of_mem _ hm)
  | getCached | unload | skip => exact h.keep (fun _ hp => hp) rfl rfl ht h.chan h.unloaded
  | returned =>
    refine h.keep (fun _ hp => hp) rfl rfl (Nat.zero_le _) h.chan fun p => ?_
    rw [ClusterNode.returned]
    dsimp only
    split
    · exact ht
    · exact h.unloaded p

theorem Clear.step (h : Clear hash c p todo) (hp : c.shared.assignMap p = false) :
    Clear hash (c.after t s pc) p todo := by
  have ht := h.calls t
  generalize c.threads t = pc₀ at hshape ht
  cases hshape with
  | inside _ _ hloads => exact h.after (fun n _ => hloads n) h.cached
  | begin hcheck =>
    refine h.after (fun n' hn' hloads => ?_) h.cached
    obtain ⟨rfl, hcall⟩ := hloads
    rw [hn', hp] at hcheck
    exact Bool.false_ne_true (hcheck hcall)
  | @manager n _ _ _ hcache hload =>
    refine h.after (fun n' hn' hloads => ?_) fun n' hn' hsome => ?_
    · obtain ⟨rfl, hmay⟩ := loads_back hloads
      exact ht n hn' ⟨rfl, hload hmay⟩
    · rw [names_setName] at hsome
      split at hsome
      next heq =>
        rw [heq] at hn'
        rcases hcache hsome with hsome | hmay
        · exact heq ▸ h.cached n hn' hsome
        · exact absurd ⟨rfl, hmay⟩ (ht n hn')
      next => exact h.cached n' hn' hsome
  | unload =>
    refine h.after (fun n _ hloads => hloads) fun n' hn' hsome => ?_
    rw [dropCache, names_setName] at hsome
    split at hsome
    next => exact absurd rfl hsome
    next => exact h.cached n' hn' hsome
  | _ => exact h.after (fun n _ hloads => hloads) h.cached

theorem KnownInv.step (h : KnownInv c) : KnownInv (c.after t s pc) := by
  generalize hpc₀ : c.threads t = pc₀ at hshape
  cases hshape with
  | inside _ _ hloads =>
    exact h.after (List.Subset.refl _) (fun n hn => absurd hn (hloads n)) fun n hn => .inl hn
  | @begin n call =>
    refine h.after (subset_insert ..) (fun n' hn' => ?_) fun n hn => .inl hn
    obtain ⟨rfl, -⟩ := hn'
    exact mem_insert_self
  | @manager n pc₁ _ _ hcache hload =>
    refine h.after (List.Subset.refl _) (fun n' hn' => ?_) fun n' hsome => ?_
    · obtain ⟨rfl, hmay⟩ := loads_back hn'
      refine h.calls t n ?_
      rw [hpc₀]
      exact ⟨rfl, hload hmay⟩
    · rw [names_setName] at hsome
      split at hsome
      next heq =>
        rw [heq, hpc₀]
        exact (hcache hsome).imp_right fun hmay => ⟨rfl, hmay⟩
      next => exact .inl hsome
  | unload =>
    refine h.after (List.Subset.refl _) (fun n hn => hn.elim) fun n' hsome => .inl ?_
    rw [dropCache, names_setName] at hsome
    split at hsome
    next => exact absurd rfl hsome
    next => exact hsome
  | _ => exact h.after (List.Subset.refl _) (fun n hn => hn.elim) fun n hn => .inl hn

end Shape

structure UnloadInv (hash : ν → π) (c : NodeConfig ν π ι υ τ) :
    Prop where
  threads : ∀ u v un todo, (c.threads u).unloads = some (v, un, todo) → ∀ p, un p = true →
    c.shared.lastAssigned p < v → Clear hash c p todo
  done : ∀ p, c.shared.lastAssigned p < c.shared.unloaded p → Clear hash c p []

section Step

variable {s' : ClusterNode ν π ι υ} {pc₀ : NodePc ν π ι υ}

theorem lastAssigned_of_shape (hshape : NodeShape hash s x pc₀ s' pc) (hv : v ≤ s.version)
    (h : s'.lastAssigned p < v) : s.lastAssigned p < v := by
  cases hshape with
  | assigns =>
    rw [ClusterNode.updateAssigns] at h
    dsimp only at h
    split at h
    · omega
    · exact h
  | _ => exact h

theorem unloaded_of_shape (hshape : NodeShape hash s x pc₀ s' pc) (p : π) :
    s'.unloaded p = s.unloaded p ∨
      ∃ un, pc₀.unloads = some (s'.unloaded p, un, []) ∧ un p = true := by
  cases hshape with
  | @returned v un removed =>
    by_cases hun : un p = true
    · have hv : (s.returned v un).unloaded p = v := if_pos hun
      refine .inr ⟨un, ?_, hun⟩
      rw [hv]
      rfl
    · exact .inl (if_neg hun)
  | _ => exact .inl rfl

end Step

theorem UnloadInv.step [Fintype τ] (hversion : VersionInv c) (hknown : KnownInv c)
    (h : UnloadInv hash c) {log : List Empty} (hok : quietUnload hash c log t x = true)
    (hshape : NodeShape hash c.shared x (c.threads t) s pc) : UnloadInv hash (c.after t s pc) := by
  -- what is clear stays so, because its prefix is not assigned
  have hkeep : ∀ {v p todo}, v ≤ c.shared.version → s.lastAssigned p < v →
      (c.shared.lastAssigned p < v → Clear hash c p todo) →
      Clear hash (c.after t s pc) p todo := by
    intro v p todo hv hlast hclear
    have hlast' := lastAssigned_of_shape hshape hv hlast
    exact (hclear hlast').step hshape (hversion.unassigned hv hlast')
  have hthread : ∀ u v un todo, (c.threads u).unloads = some (v, un, todo) → ∀ p, un p = true →
      s.lastAssigned p < v → Clear hash (c.after t s pc) p todo := by
    intro u v un todo hu p hp hlast
    have hv := version_of_unloads hu ▸ hversion.threads u
    exact hkeep hv hlast (h.threads u v un todo hu p hp)
  refine ⟨forall_after (P := fun _ l => ∀ v un todo, NodePc.unloads l = some (v, un, todo) →
    ∀ p, un p = true → s.lastAssigned p < v → Clear hash (c.after t s pc) p todo) ?_
    fun u _ => hthread u, fun p hlast => ?_⟩
  · have ht := hthread t
    generalize hpc₀ : c.threads t = pc₀ at hshape ht
    cases hshape with
    | inside _ _ _ hunloads => exact fun v un todo hw => ht v un todo (hunloads _ hw)
    | @getCached names v un hx hperm =>
      rintro v' un' todo ⟨⟩ p hp -
      have hquiet : ∀ u, (c.threads u).loadsAny hash un = false := by
        simpa [quietUnload, hpc₀, hx] using hok
      refine ⟨forall_after (P := fun _ l => ∀ n, hash n = p → ¬ loads n l)
        (fun n _ hloads => hloads) fun u _ n hn => ?_, fun n hn hsome => hperm.mem_iff.2 ?_⟩
      · exact not_loads_of_loadsAny (hquiet u) (hn ▸ hp)
      · exact mem_filter.2 ⟨hknown.cached n hsome, Option.isSome_iff_ne_none.2 hsome⟩
    | @unload un v n todo =>
      rintro v' un' todo' ⟨⟩ p hp hlast
      refine (ht v un (n :: todo) rfl p hp hlast).tail fun _ => ?_
      rw [shared_after, dropCache, names_setName, if_pos rfl]
    | @skip un v n todo _ hun =>
      rintro v' un' todo' ⟨⟩ p hp hlast
      refine (ht v un (n :: todo) rfl p hp hlast).tail fun hn => ?_
      rw [hn, hp] at hun
      cases hun
    | manager =>
      intro v un todo hw
      rw [unloads_back] at hw
      cases hw
    | _ => exact nofun
  · rcases unloaded_of_shape hshape p with heq | ⟨un, hun, hp⟩
    · rw [shared_after, heq] at hlast
      exact hkeep (hversion.unloaded p) hlast (h.done p)
    · exact hthread t _ un [] hun p hp hlast

section Start

variable {store : ν → Option (ι → υ)}

omit [DecidableEq ν] [DecidableEq π] [DecidableEq τ]

theorem VersionInv.start :
    VersionInv (start store : NodeConfig ν π ι υ τ) where
  assigned := nofun
  threads _ := le_rfl
  chan := nofun
  unloaded _ := le_rfl

theorem KnownInv.start :
    KnownInv (start store : NodeConfig ν π ι υ τ) where
  cached _ hn := absurd rfl hn
  calls _ _ hn := hn.elim

theorem UnloadInv.start :
    UnloadInv hash (start store : NodeConfig ν π ι υ τ) where
  threads := nofun
  done _ hp := absurd hp (lt_irrefl 0)

end Start

end Runs

end AssignsLemmas

open AssignsLemmas in
/-- In every run in which no call is loading an index of an unassigned prefix when
`updateIndexList` takes the cached indexes: if `updateIndexList` has returned for a prefix, and
the prefix has not been assigned to the node again, then no index of the prefix is cached. -/
theorem unassigned_unloaded [Fintype τ] [DecidableEq ν] [DecidableEq π] [DecidableEq ι]
    [DecidableEq τ] {hash : ν → π} {store : ν → Option (ι → υ)}
    {c : NodeConfig ν π ι υ τ} {log : List Empty}
    (h : Reach (step hash) (quietUnload hash) (start store) c log) {p : π}
    (hp : c.shared.lastAssigned p < c.shared.unloaded p) (n : ν) (hn : hash n = p) :
    (c.shared.names n).cache = none := by
  have hinv : (VersionInv c ∧ KnownInv c) ∧ UnloadInv hash c := by
    refine reach_invariant (I := fun c _ => (VersionInv c ∧ KnownInv c) ∧ UnloadInv hash c) ?_ ?_ h
    · exact ⟨⟨VersionInv.start, KnownInv.start⟩, UnloadInv.start⟩
    · rintro c log t x s pc es ⟨⟨hversion, hknown⟩, hunload⟩ hok hs
      have hshape := node_shape hs
      exact ⟨⟨hversion.step hshape, hknown.step hshape⟩, hunload.step hversion hknown hok hshape⟩
  by_contra hcache
  exact absurd ((hinv.2.done p hp).cached n hn hcache) not_mem_nil

/-- `updateAssigns` in the thread 1 reads whether the only prefix is assigned to the node, and
`updateIndexList` in the thread 2 finds these names in the cache. -/
def assignedTo (mine : Bool) (names : List Unit) : List (Fin 3 × NodeChoice Unit Unit Unit Unit) :=
  [(1, .assigns [((), mine)]), (1, .proceed), (2, .receive), (1, .proceed),
    (2, .getCached names)] ++ names.map (fun _ => (2, .proceed)) ++ [(2, .proceed)] ++
      names.map (fun _ => (2, .proceed)) ++
    [(2, .proceed)]

/-- `Get` in the thread 0, up to the metadata. -/
def getBegins : List (Fin 3 × NodeChoice Unit Unit Unit Unit) :=
  [(0, .call () .get), (0, .manager .proceed), (0, .manager .proceed)]

theorem unassigned_unloaded_after_get :
    ∃ c, ∃ log : List Empty,
      run (step id) (quietUnload id)
        (assignedTo true [] ++ getBegins ++ [(0, .manager .proceed)] ++ assignedTo false [()])
        (start fun _ => some fun _ => ()) [] = some (c, log) ∧
      (c.shared.names ()).cache = none :=
  ⟨_, _, rfl, @unassigned_unloaded Unit Unit Unit Unit (Fin 3) _ _ _ _ _ id
    (fun _ => some fun _ => ()) _ _
    ⟨assignedTo true [] ++ getBegins ++ [(0, .manager .proceed)] ++ assignedTo false [()], rfl⟩ ()
    (by decide) () rfl⟩

/-- `Get` has passed its check and read the metadata when the prefix goes to another node.
`updateIndexList` finds no index in the cache and returns. Then `Get` puts the index there, and
all threads have returned. -/
theorem late_load_stays_cached :
    ∃ c, ∃ log : List Empty,
      run (step id) free
        (assignedTo true [] ++ getBegins ++ assignedTo false [] ++ [(0, .manager .proceed)])
        (start fun _ => some fun _ => ()) [] = some (c, log) ∧
      (∀ t, c.threads t = .idle) ∧ c.shared.assignMap () = false ∧
      c.shared.lastAssigned () < c.shared.unloaded () ∧ (c.shared.names ()).cache = some 0 :=
  ⟨_, _, rfl, fun t => match t with | 0 => rfl | 1 => rfl | 2 => rfl, rfl, by decide, rfl⟩

end SeaSearch
