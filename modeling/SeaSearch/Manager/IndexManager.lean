import SeaSearch.Lib.Threads

/-!
# The index manager

`IndexManager` keeps one index object for each name in a cache. A call that reads or writes the
metadata of a name first registers a ready channel for it, and other calls wait until that channel
is closed.
-/

namespace SeaSearch

open List Threads

variable {ι υ τ : Type}

/-- What the calls on one name share. Objects and channels are numbered in the order in
which they are made:
* `cache`, `ready`: the entries of the name in the maps of the manager;
* `chans`: the number of channels, and `closed` those that are closed;
* `objects`: the metadata of each index object, with a value for each item of it: a field
  of the mappings, a setting, a vector index;
* `store`: the entry of the name in the metadata store. -/
structure IndexManager (ι υ : Type) where
  cache : Option Nat := none
  ready : Option Nat := none
  chans : Nat := 0
  closed : List Nat := []
  objects : List (ι → υ) := []
  store : Option (ι → υ) := none

inductive MgrCall
  | get
  | getOrCreate
  | store (o : Nat)
  | delete
  deriving DecidableEq

/-- Where a call is. The number after the object, if there is one, is that of the channel
that the call has registered:
* `entered`: at the head of the loop, and `waiting`: at `<-ready`;
* `loading`: before `metadata.Index.Get`, and `creating`: before `NewIndex` and
  `metadata.Index.Set`;
* `marshalling`, `storing`: before `MarshalJSON` and before `metadata.Index.Set`;
* `deleting`: before the cache is read, `looking`: before `getIndex`, `closing`: before
  `index.Close`, `removing`: before the files are removed, `erasing`: before
  `metadata.Index.Delete`;
* `loaded`, `stored`, `deleted`, `failed`: before the lock section that ends the call. -/
inductive MgrPc (ι υ : Type)
  | idle
  | entered (call : MgrCall)
  | waiting (call : MgrCall) (ch : Nat)
  | loading (call : MgrCall) (ch : Nat)
  | creating (ch : Nat)
  | marshalling (o ch : Nat)
  | storing (o ch : Nat) (data : ι → υ)
  | deleting (ch : Nat)
  | looking (ch : Nat)
  | closing (ch : Nat)
  | removing (ch : Nat)
  | erasing (ch : Nat)
  | loaded (o ch : Nat)
  | stored (o ch : Nat)
  | deleted (ch : Nat)
  | failed (ch : Nat)

abbrev MgrConfig (ι υ τ : Type) := Config (IndexManager ι υ) (MgrPc ι υ) τ

/-- What a step does not decide: the call that starts, whether an operation fails, and
the metadata of a new index. `DropCache`, `NewIndex` and `GetQueryIndex` take one step,
as does a change of the metadata of an object. -/
inductive MgrChoice (ι υ : Type)
  | call (call : MgrCall)
  | dropCache
  | newIndex (d : ι → υ)
  | getQueryIndex
  | change (o : Nat) (i : ι) (v : υ)
  | proceed
  | create (d : ι → υ)
  | fail

/-- What can be seen of a run, with the thread that does it:
* `called`: the start of a call;
* `registered`, `closed`: a ready channel;
* `got`: `Get` or `GetOrCreate` takes an object from the cache or puts it there, and
  returns it;
* `dropped`, `stored`, `deleted`: the lock section that ends the call;
* `read`: an object is made with what the metadata store holds;
* `changed`: an item of an object gets a value;
* `wrote`, `erased`: the metadata store. -/
inductive MgrEvent (ι υ τ : Type)
  | called (t : τ) (call : MgrCall)
  | registered (t : τ) (ch : Nat)
  | closed (t : τ) (ch : Nat)
  | got (t : τ) (o : Nat)
  | dropped
  | stored (t : τ) (o : Nat)
  | deleted (t : τ)
  | read (o : Nat)
  | changed (o : Nat) (i : ι) (v : υ)
  | wrote (o : Nat) (d : ι → υ)
  | erased

abbrev MgrLog (ι υ τ : Type) := List (MgrEvent ι υ τ)

namespace MgrCall

/-- `Get` and `GetOrCreate` look into the cache. -/
def loads : MgrCall → Bool
  | get => true
  | getOrCreate => true
  | store _ => false
  | delete => false

def work (ch : Nat) : MgrCall → MgrPc ι υ
  | get => .loading get ch
  | getOrCreate => .loading getOrCreate ch
  | store o => .marshalling o ch
  | delete => .deleting ch

end MgrCall

namespace IndexManager

def alloc (m : IndexManager ι υ) (d : ι → υ) : IndexManager ι υ :=
  { m with objects := m.objects ++ [d] }

/-- The item `i` of the object `o` gets the value `v`. -/
def change [DecidableEq ι] (m : IndexManager ι υ) (o : Nat) (i : ι) (v : υ) : IndexManager ι υ :=
  { m with objects := m.objects.modify o fun d => Function.update d i v }

/-- `close(ready)` and `delete(mgr.ready, name)`. -/
def finish (m : IndexManager ι υ) (ch : Nat) : IndexManager ι υ :=
  { m with ready := none, closed := ch :: m.closed }

def enter (t : τ) (m : IndexManager ι υ) (call : MgrCall) :
    IndexManager ι υ × MgrPc ι υ × MgrLog ι υ τ :=
  match call.loads, m.cache, m.ready with
  | true, some o, _ => (m, .idle, [.got t o])
  | _, _, some ch => (m, .waiting call ch, [])
  | _, _, none =>
    ({ m with ready := some m.chans, chans := m.chans + 1 }, call.work m.chans,
      [.registered t m.chans])

/-- The lock section that ends a call, with the channel `ch`. -/
def leave (t : τ) (m : IndexManager ι υ) (ch : Nat) (cache : Option Nat)
    (es : MgrLog ι υ τ) : IndexManager ι υ × MgrPc ι υ × MgrLog ι υ τ :=
  ({ m.finish ch with cache := cache }, .idle, .closed t ch :: es)

def step [DecidableEq ι] :
    Program (IndexManager ι υ) (MgrPc ι υ) τ (MgrChoice ι υ) (MgrEvent ι υ τ) := fun t x m pc =>
  match pc, x with
  | .idle, .call (.store o) =>
    -- the caller of `Store` holds the object, as does who changes it: it has been made
    if o < m.objects.length then some (m, .entered (.store o), [.called t (.store o)]) else none
  | .idle, .call call => some (m, .entered call, [.called t call])
  | .idle, .dropCache => some ({ m with cache := none }, .idle, [.dropped])
  | .idle, .newIndex d => some (m.alloc d, .idle, [])
  | .idle, .getQueryIndex => m.store.map fun d => (m.alloc d, .idle, [.read m.objects.length])
  | .idle, .change o i v =>
    if o < m.objects.length then some (m.change o i v, .idle, [.changed o i v]) else none
  | .entered call, .proceed => some (m.enter t call)
  | .waiting call ch, .proceed => if ch ∈ m.closed then some (m, .entered call, []) else none
  | .loading call ch, .proceed =>
    match m.store, call with
    | some d, _ => some (m.alloc d, .loaded m.objects.length ch, [.read m.objects.length])
    | none, .getOrCreate => some (m, .creating ch, [])
    | none, _ => some (m, .failed ch, [])
  | .loading _ ch, .fail => some (m, .failed ch, [])
  | .creating ch, .create d =>
    some ({ m.alloc d with store := some d }, .loaded m.objects.length ch,
      [.wrote m.objects.length d])
  | .creating ch, .fail => some (m, .failed ch, [])
  | .marshalling o ch, .proceed => (m.objects[o]?).map fun d => (m, .storing o ch d, [])
  | .marshalling _ ch, .fail => some (m, .failed ch, [])
  | .storing o ch d, .proceed => some ({ m with store := some d }, .stored o ch, [.wrote o d])
  | .storing _ ch _, .fail => some (m, .failed ch, [])
  | .deleting ch, .proceed =>
    some (m, if m.cache.isSome then .closing ch else .looking ch, [])
  | .looking ch, .proceed => some (m, if m.store.isSome then .removing ch else .deleted ch, [])
  | .looking ch, .fail => some (m, .failed ch, [])
  | .closing ch, .proceed => some (m, .removing ch, [])
  | .closing ch, .fail => some (m, .failed ch, [])
  | .removing ch, .proceed => some (m, .erasing ch, [])
  | .removing ch, .fail => some (m, .failed ch, [])
  | .erasing ch, .proceed => some ({ m with store := none }, .deleted ch, [.erased])
  | .erasing ch, .fail => some (m, .failed ch, [])
  | .loaded o ch, .proceed => some (m.leave t ch (some o) [.got t o])
  | .stored o ch, .proceed =>
    some (m.leave t ch (if m.cache = some o then some o else none) [.stored t o])
  | .deleted ch, .proceed => some (m.leave t ch none [.deleted t])
  | .failed ch, .proceed => some (m.leave t ch m.cache [])
  | _, _ => none

def start (d : Option (ι → υ)) : MgrConfig ι υ τ :=
  ⟨{ store := d }, fun _ => .idle⟩

end IndexManager

open IndexManager (enter start step)

namespace MgrPc

def flight : MgrPc ι υ → Option Nat
  | idle => none
  | entered _ => none
  | waiting _ _ => none
  | loading _ ch => some ch
  | creating ch => some ch
  | marshalling _ ch => some ch
  | storing _ ch _ => some ch
  | deleting ch => some ch
  | looking ch => some ch
  | closing ch => some ch
  | removing ch => some ch
  | erasing ch => some ch
  | loaded _ ch => some ch
  | stored _ ch => some ch
  | deleted ch => some ch
  | failed ch => some ch

def loads : MgrPc ι υ → Bool
  | loading _ _ => true
  | creating _ => true
  | loaded _ _ => true
  | _ => false

end MgrPc

namespace MgrEvent

def ofManager : MgrEvent ι υ τ → Bool
  | registered _ _ => true
  | closed _ _ => true
  | got _ _ => true
  | dropped => true
  | stored _ _ => true
  | deleted _ => true
  | _ => false

def cache (cur : Option Nat) : MgrEvent ι υ τ → Option Nat
  | got _ o => some o
  | dropped => none
  | stored _ o => if cur = some o then some o else none
  | deleted _ => none
  | _ => cur

/-- The end of `Store` or `Delete`. -/
def ends : MgrEvent ι υ τ → Bool
  | stored _ _ => true
  | deleted _ => true
  | _ => false

/-- `DropCache`, `Delete`, or `Store` of an object other than `o`. -/
def Replaces (o : Nat) : MgrEvent ι υ τ → Prop
  | dropped => True
  | stored _ o' => o' ≠ o
  | deleted _ => True
  | _ => False

end MgrEvent

open MgrEvent (cache ends ofManager)

inductive MgrShape (t : τ) (m : IndexManager ι υ) (pc : MgrPc ι υ) :
    IndexManager ι υ → MgrPc ι υ → MgrLog ι υ τ → Prop
  | inside :
      m'.cache = m.cache → m'.ready = m.ready → m'.chans = m.chans →
      pc'.flight = pc.flight → (pc'.loads = true → pc.loads = true) →
      (∀ e ∈ es, e.ofManager = false) → MgrShape t m pc m' pc' es
  | hit : pc.flight = none → m.cache = some o → MgrShape t m pc m .idle [.got t o]
  | drop : pc.flight = none → MgrShape t m pc { m with cache := none } .idle [.dropped]
  | register : pc.flight = none → m.ready = none →
      pc'.flight = some m.chans → (pc'.loads = true → m.cache = none) →
      MgrShape t m pc { m with ready := some m.chans, chans := m.chans + 1 } pc'
        [.registered t m.chans]
  | load : pc.flight = some ch → pc.loads = true →
      MgrShape t m pc { m.finish ch with cache := some o } .idle [.closed t ch, .got t o]
  | leave : pc.flight = some ch →
      (∀ e ∈ es, e.ends = true) →
      MgrShape t m pc { m.finish ch with cache := es.foldl cache m.cache } .idle
        (.closed t ch :: es)

namespace IndexManagerLemmas

theorem flight_work (call : MgrCall) (ch : Nat) :
    (call.work ch : MgrPc ι υ).flight = some ch := by
  cases call <;> rfl

theorem loads_work (call : MgrCall) (ch : Nat) :
    (call.work ch : MgrPc ι υ).loads = call.loads := by
  cases call <;> rfl

theorem enter_shape (t : τ) (m : IndexManager ι υ) (call : MgrCall) :
    MgrShape t m (.entered call) (m.enter t call).1 (m.enter t call).2.1
      (m.enter t call).2.2 := by
  rw [enter]
  split
  · next hc => exact .hit rfl hc
  · exact .inside rfl rfl rfl rfl (by simp [MgrPc.loads]) (by simp)
  · next hr hnot =>
    refine .register rfl hr (flight_work call _) ?_
    intro hl
    rw [loads_work] at hl
    cases hc : m.cache with
    | none => rfl
    | some o => exact absurd hc (hnot o hl)

theorem step_shape [DecidableEq ι] {t : τ} {x : MgrChoice ι υ} {m m' : IndexManager ι υ}
    {pc pc' : MgrPc ι υ} {es : MgrLog ι υ τ}
    (h : step t x m pc = some (m', pc', es)) : MgrShape t m pc m' pc' es := by
  unfold step at h
  split at h
  -- most steps only move the call on
  case h_2 | h_4 | h_10 | h_11 | h_12 | h_14 | h_15 | h_16 | h_19 | h_20 | h_21 | h_22 | h_23 |
      h_24 | h_25 =>
    cases h
    exact .inside rfl rfl rfl rfl (by simp [MgrPc.loads]) (by simp [ofManager])
  case h_1 | h_6 | h_8 =>
    obtain ⟨-, rfl, rfl, rfl⟩ := by simpa using h
    exact .inside rfl rfl rfl rfl (by simp [MgrPc.loads]) (by simp [ofManager])
  case h_3 =>
    cases h
    exact .drop rfl
  case h_5 | h_13 =>
    obtain ⟨d, -, rfl, rfl, rfl⟩ := by simpa using h
    exact .inside rfl rfl rfl rfl (by simp [MgrPc.loads]) (by simp [ofManager])
  case h_7 call =>
    have hs := enter_shape t m call
    rw [Option.some.inj h] at hs
    exact hs
  case h_9 =>
    split at h <;>
      (cases h
       exact .inside rfl rfl rfl rfl (by simp [MgrPc.loads]) (by simp [ofManager]))
  case h_17 | h_18 =>
    obtain ⟨rfl, rfl, rfl⟩ := by simpa using h
    refine .inside rfl rfl rfl ?_ ?_ (by simp) <;> split <;> simp [MgrPc.flight, MgrPc.loads]
  case h_26 =>
    cases h
    exact .load rfl rfl
  case h_27 o ch =>
    have he : ∀ e ∈ [(.stored t o : MgrEvent ι υ τ)], e.ends = true := by simp [ends]
    cases h
    exact .leave rfl he
  case h_28 ch =>
    have he : ∀ e ∈ [(.deleted t : MgrEvent ι υ τ)], e.ends = true := by simp [ends]
    cases h
    exact .leave rfl he
  case h_29 ch =>
    have he : ∀ e ∈ ([] : MgrLog ι υ τ), e.ends = true := by simp
    cases h
    exact .leave rfl he
  case h_30 => cases h

end IndexManagerLemmas

/-- The threads that close the channel `ch`, in the order of the run. -/
def closers (ch : Nat) (log : MgrLog ι υ τ) : List τ :=
  log.filterMap fun
    | .closed t c => if c = ch then some t else none
    | _ => none

/-- What the ready entry of a name is for:
* `one`: at most one call is between registering its channel and removing it;
* `entry`: the ready entry is the channel of that call;
* `creator`: one call registers a channel;
* `closer`: it closes the channel once, when it leaves, and no other call does;
* `returned`: no entry remains when all calls have returned;
* `same`: calls return the same object until something replaces it. -/
structure SingleFlight [DecidableEq τ] (c : MgrConfig ι υ τ) (log : MgrLog ι υ τ) : Prop where
  one : ∀ t u ch ch', (c.threads t).flight = some ch → (c.threads u).flight = some ch' → t = u
  entry : ∀ ch, c.shared.ready = some ch ↔ ∃ t, (c.threads t).flight = some ch
  creator : ∀ t u ch, .registered t ch ∈ log → .registered u ch ∈ log → t = u
  closer : ∀ t ch, .registered t ch ∈ log →
    closers ch log = if (c.threads t).flight = some ch then [] else [t]
  closed : ∀ t ch, .closed t ch ∈ log → .registered t ch ∈ log
  returned : (∀ t, (c.threads t).flight = none) → c.shared.ready = none
  same : ∀ before between later t u o o',
    log = before ++ .got t o :: (between ++ .got u o' :: later) →
    (∀ e ∈ between, ¬ e.Replaces o) → o = o'

namespace IndexManagerLemmas

variable {es log : MgrLog ι υ τ}

theorem closers_append (ch : Nat) (log es : MgrLog ι υ τ) :
    closers ch (log ++ es) = closers ch log ++ closers ch es := filterMap_append ..

theorem closers_eq_nil (h : ∀ t, .closed t ch ∉ es) : closers ch es = [] := by
  rw [closers, filterMap_eq_nil_iff]
  intro e he
  cases e with
  | closed t c =>
    refine if_neg ?_
    rintro rfl
    exact h t he
  | _ => rfl

structure FlightInv [DecidableEq τ] (c : MgrConfig ι υ τ)
    (log : MgrLog ι υ τ) (owner : Option (τ × Nat)) : Prop where
  owned : Owned MgrPc.flight c owner
  ready : c.shared.ready = owner.map Prod.snd
  fresh : ∀ t ch, .registered t ch ∈ log → ch < c.shared.chans
  closed : ∀ t ch, .closed t ch ∈ log → .registered t ch ∈ log
  known : ∀ t ch, owner = some (t, ch) → .registered t ch ∈ log
  closer : ∀ t ch, .registered t ch ∈ log →
    closers ch log = if owner = some (t, ch) then [] else [t]

def NoChannel (es : MgrLog ι υ τ) : Prop :=
  ∀ t ch, .closed t ch ∉ es ∧ .registered t ch ∉ es

theorem noChannel_of_ofManager (h : ∀ e ∈ es, e.ofManager = false) : NoChannel es := by
  intro t ch
  constructor <;> (intro he; cases h _ he)

theorem noChannel_of_ends (h : ∀ e ∈ es, e.ends = true) : NoChannel es := by
  intro t ch
  constructor <;> (intro he; cases h _ he)

section Flight

variable [DecidableEq τ] {c : MgrConfig ι υ τ}
  {log es : MgrLog ι υ τ} {owner : Option (τ × Nat)} {t : τ} {ch : Nat}
  {m' : IndexManager ι υ} {pc' : MgrPc ι υ}

theorem FlightInv.ready_eq_none (h : FlightInv c log owner) (hr : c.shared.ready = none) :
    owner = none := by
  rw [h.ready] at hr
  exact Option.map_eq_none_iff.1 hr

theorem FlightInv.keep (h : FlightInv c log owner) (hf : pc'.flight = (c.threads t).flight)
    (hr : m'.ready = c.shared.ready) (hc : m'.chans = c.shared.chans) (he : NoChannel es) :
    FlightInv (c.after t m' pc') (log ++ es) owner := by
  have hreg : ∀ u ch, .registered u ch ∈ log ++ es → .registered u ch ∈ log := fun u ch hu =>
    (mem_append.1 hu).resolve_right (he u ch).2
  refine ⟨h.owned.keep hf, hr.trans h.ready, ?_, ?_, ?_, ?_⟩
  · intro u ch hu
    rw [shared_after, hc]
    exact h.fresh u ch (hreg u ch hu)
  · intro u ch hu
    have hold := (mem_append.1 hu).resolve_right (he u ch).1
    exact mem_append_left es (h.closed u ch hold)
  · intro u ch hu
    exact mem_append_left es (h.known u ch hu)
  · intro u ch hu
    rw [closers_append, closers_eq_nil fun v => (he v ch).1, append_nil]
    exact h.closer u ch (hreg u ch hu)

theorem FlightInv.register (h : FlightInv c log none) (hf : pc'.flight = some c.shared.chans) :
    FlightInv (c.after t
        { c.shared with ready := some c.shared.chans, chans := c.shared.chans + 1 } pc')
      (log ++ [.registered t c.shared.chans]) (some (t, c.shared.chans)) := by
  -- the new channel has neither been registered nor closed before
  have hnew : ∀ u, .registered u c.shared.chans ∉ log := fun u hu =>
    lt_irrefl _ (h.fresh u _ hu)
  have hcl : ∀ ch, closers ch (log ++ [.registered t c.shared.chans]) = closers ch log := by
    intro ch
    rw [closers_append]
    exact append_nil _
  refine ⟨h.owned.take hf, rfl, ?_, ?_, ?_, ?_⟩
  · intro u ch hu
    rcases mem_append.1 hu with hu | hu
    · exact Nat.lt_succ_of_lt (h.fresh u ch hu)
    · cases mem_singleton.1 hu
      exact Nat.lt_succ_self _
  · intro u ch hu
    rcases mem_append.1 hu with hu | hu
    · exact mem_append_left _ (h.closed u ch hu)
    · cases mem_singleton.1 hu
  · intro u ch hu
    cases hu
    exact mem_append_right _ (mem_singleton_self _)
  · intro u ch hu
    rw [hcl]
    rcases mem_append.1 hu with hu | hu
    · rw [h.closer u ch hu, if_neg (by simp), if_neg]
      rintro ⟨rfl, rfl⟩
      exact hnew _ hu
    · cases mem_singleton.1 hu
      rw [if_pos rfl]
      exact closers_eq_nil fun v hv => hnew v (h.closed v _ hv)

theorem FlightInv.release (h : FlightInv c log (some (t, ch))) (hf : pc'.flight = none)
    (hr : m'.ready = none) (hc : m'.chans = c.shared.chans) (he : NoChannel es) :
    FlightInv (c.after t m' pc') (log ++ .closed t ch :: es) none := by
  have hreg : ∀ u ch', .registered u ch' ∈ log ++ .closed t ch :: es → .registered u ch' ∈ log := by
    intro u ch' hu
    simpa [(he u ch').2] using hu
  have hmine : .registered t ch ∈ log := h.known t ch rfl
  refine ⟨h.owned.release hf, hr, ?_, ?_, ?_, ?_⟩
  · intro u ch' hu
    rw [shared_after, hc]
    exact h.fresh u ch' (hreg u ch' hu)
  · intro u ch' hu
    refine mem_append_left _ ?_
    rcases mem_append.1 hu with hu | hu
    · exact h.closed u ch' hu
    · cases mem_cons.1 hu with
      | inl heq => cases heq; exact hmine
      | inr hu => exact absurd hu (he u ch').1
  · intro u ch' hu
    cases hu
  · intro u ch' hu
    have hold := h.closer u ch' (hreg u ch' hu)
    have hes : closers ch' es = [] := closers_eq_nil fun v => (he v ch').1
    have hcons : closers ch' (.closed t ch :: es) = if ch = ch' then [t] else [] := by
      have hone := closers_append ch' [.closed t ch] es
      rw [hes, append_nil] at hone
      rw [singleton_append] at hone
      rw [hone, closers, filterMap_cons]
      split <;> simp_all
    rw [closers_append, hcons, hold]
    by_cases hch : ch = ch'
    · subst hch
      -- the thread in flight is the only one that registered this channel
      have hown : some (t, ch) = some (u, ch) := by
        by_contra hne
        have hmine' := h.closer t ch hmine
        rw [hold, if_neg hne, if_pos rfl] at hmine'
        cases hmine'
      cases hown
      simp
    · have hne : some (t, ch) ≠ some (u, ch') := by
        intro heq
        cases heq
        exact hch rfl
      simp [hch, hne]

theorem flight_step [DecidableEq ι] (h : ∃ owner, FlightInv c log owner)
    (hs : step t x c.shared (c.threads t) = some (m', pc', es)) :
    ∃ owner, FlightInv (c.after t m' pc') (log ++ es) owner := by
  obtain ⟨owner, h⟩ := h
  cases step_shape hs with
  | inside hc hr hch hf hl he => exact ⟨owner, h.keep hf hr hch (noChannel_of_ofManager he)⟩
  | hit hf hc | drop hf => exact ⟨owner, h.keep hf.symm rfl rfl (by intro u ch; simp)⟩
  | register hf hr hf' hl =>
    obtain rfl := h.ready_eq_none hr
    exact ⟨_, h.register hf'⟩
  | load hf hl =>
    obtain rfl := h.owned.eq_some hf
    exact ⟨none, h.release rfl rfl rfl (by intro u ch; simp)⟩
  | leave hf he =>
    obtain rfl := h.owned.eq_some hf
    exact ⟨none, h.release rfl rfl rfl (noChannel_of_ends he)⟩

end Flight

def Agree (cur : Option Nat) : MgrLog ι υ τ → Prop
  | [] => True
  | e :: es => (∀ t o, e = .got t o → cur = none ∨ cur = some o) ∧ Agree (e.cache cur) es

theorem agree_append :
    Agree cur (log ++ es) ↔ Agree cur log ∧ Agree (log.foldl cache cur) es := by
  induction log generalizing cur with
  | nil => simp [Agree]
  | cons e log ih => simp [Agree, ih, and_assoc]

theorem cache_of_ofManager {e : MgrEvent ι υ τ} (h : e.ofManager = false) (cur : Option Nat) :
    e.cache cur = cur := by
  cases e <;> first | rfl | cases h

theorem agree_of_no_got (h : ∀ t o, .got t o ∉ es) : Agree cur es := by
  induction es generalizing cur with
  | nil => trivial
  | cons e es ih =>
    refine ⟨?_, ih fun t o he => h t o (mem_cons_of_mem e he)⟩
    rintro t o rfl
    exact absurd mem_cons_self (h t o)

theorem foldl_cache_same (ha : Agree (some o) es) (h : ∀ e ∈ es, ¬ e.Replaces o) :
    es.foldl cache (some o) = some o := by
  induction es with
  | nil => rfl
  | cons e es ih =>
    have hkeep : e.cache (some o) = some o := by
      have hno := h e mem_cons_self
      cases e with
      | got t o' =>
        rcases ha.1 t o' rfl with hnone | hsome
        · cases hnone
        · exact hsome.symm
      | dropped => exact absurd trivial hno
      | deleted t => exact absurd trivial hno
      | stored t o' =>
        obtain rfl : o' = o := not_not.1 hno
        exact if_pos rfl
      | _ => rfl
    have htail := ha.2
    rw [hkeep] at htail
    rw [foldl_cons, hkeep]
    exact ih htail fun e' he' => h e' (mem_cons_of_mem e he')

structure CacheInv [DecidableEq τ] (c : MgrConfig ι υ τ) (log : MgrLog ι υ τ) : Prop where
  flight : ∃ owner, FlightInv c log owner
  loads : ∀ t, (c.threads t).loads = true → c.shared.cache = none
  current : log.foldl cache none = c.shared.cache
  agree : Agree none log

theorem flight_of_loads {pc : MgrPc ι υ} (h : pc.loads = true) : ∃ ch, pc.flight = some ch := by
  cases pc <;> first | exact ⟨_, rfl⟩ | cases h

section Cache

variable [DecidableEq τ] {c : MgrConfig ι υ τ}
  {log es : MgrLog ι υ τ} {t : τ} {m' : IndexManager ι υ} {pc' : MgrPc ι υ}

theorem loads_after (ht : pc'.loads = true → k = none)
    (h : ∀ u, (c.threads u).loads = true → k = none) (u : τ) :
    ((c.after t m' pc').threads u).loads = true → k = none :=
  forall_after (P := fun _ (l : MgrPc ι υ) => l.loads = true → k = none) ht (fun u _ => h u) u

theorem CacheInv.alone (h : CacheInv c log) {ch : Nat} (hf : (c.threads t).flight = some ch)
    (u : τ) : ((c.after t m' .idle).threads u).loads = false := by
  obtain ⟨owner, hown⟩ := h.flight
  refine forall_after (P := fun _ (l : MgrPc ι υ) => l.loads = false) rfl ?_ u
  intro u hu
  refine Bool.eq_false_iff.2 fun hl => ?_
  obtain ⟨ch', hf'⟩ := flight_of_loads hl
  exact hu (hown.owned.unique hf' hf)

theorem cache_step [DecidableEq ι] {x : MgrChoice ι υ} (h : CacheInv c log)
    (hs : step t x c.shared (c.threads t) = some (m', pc', es)) :
    CacheInv (c.after t m' pc') (log ++ es) := by
  have hflight := flight_step h.flight hs
  have hcur : (log ++ es).foldl cache none = es.foldl cache c.shared.cache := by
    rw [foldl_append, h.current]
  have hagree : Agree c.shared.cache es → Agree none (log ++ es) := by
    intro he
    rw [agree_append, h.current]
    exact ⟨h.agree, he⟩
  cases step_shape hs with
  | inside hc hr hch hf hl he =>
    refine ⟨hflight, ?_, ?_, hagree (agree_of_no_got fun u o hu => nomatch he _ hu)⟩
    · rw [shared_after, hc]
      exact loads_after (fun hl' => h.loads t (hl hl')) h.loads
    · rw [hcur, foldl_of_fixed fun e h' => cache_of_ofManager (he e h') _, shared_after, hc]
  | hit hf hc =>
    refine ⟨hflight, loads_after (by simp [MgrPc.loads]) h.loads, ?_, hagree ⟨?_, trivial⟩⟩
    · rw [hcur]
      exact hc.symm
    · rintro u o heq
      cases heq
      exact .inr hc
  | drop hf =>
    exact ⟨hflight, fun _ _ => rfl, hcur, hagree (agree_of_no_got (by simp))⟩
  | register hf hr hf' hl =>
    exact ⟨hflight, loads_after hl h.loads, hcur, hagree (agree_of_no_got (by simp))⟩
  | load hf hl =>
    refine ⟨hflight, by simp [h.alone hf], hcur, hagree ⟨by simp, ?_, trivial⟩⟩
    rintro u o -
    exact .inl (h.loads t hl)
  | leave hf he =>
    refine ⟨hflight, by simp [h.alone hf], hcur, hagree (agree_of_no_got ?_)⟩
    intro u o hu
    rcases mem_cons.1 hu with heq | hu
    · cases heq
    · cases he _ hu

theorem cache_start (d : Option (ι → υ)) :
    CacheInv (start d : MgrConfig ι υ τ) [] := by
  refine ⟨⟨none, ?_⟩, fun _ _ => rfl, rfl, trivial⟩
  exact ⟨fun t => rfl, rfl, by simp, by simp, by simp, by simp⟩

end Cache

theorem reach_cache [DecidableEq ι] [DecidableEq τ]
    (h : Reach step ok (start d) c log) : CacheInv c log :=
  reach_invariant (cache_start d) (fun _ _ _ _ _ _ _ hinv _ hs => cache_step hinv hs) h

end IndexManagerLemmas

open IndexManagerLemmas in
/-- In every interleaving of the calls on one name, at most one of them is between
registering its ready entry and removing it, its channel is closed once and by itself,
no entry remains when all calls have returned, and the calls return one object until
something replaces it. -/
theorem single_flight [DecidableEq ι] [DecidableEq τ] (d : Option (ι → υ))
    {c : MgrConfig ι υ τ} {log : MgrLog ι υ τ}
    (h : Reach step free (start d) c log) : SingleFlight c log := by
  have hinv := reach_cache h
  obtain ⟨owner, hown⟩ := hinv.flight
  have hmine : ∀ t ch, owner = some (t, ch) ↔ (c.threads t).flight = some ch := by
    intro t ch
    constructor
    · rintro rfl
      exact hown.owned.holds_owner
    · exact hown.owned.eq_some
  have hcloser : ∀ t ch, .registered t ch ∈ log →
      closers ch log = if (c.threads t).flight = some ch then [] else [t] := by
    intro t ch hreg
    rw [hown.closer t ch hreg]
    exact if_congr (hmine t ch) rfl rfl
  refine ⟨fun t u ch ch' => hown.owned.unique, ?_, ?_, hcloser, hown.closed, ?_, ?_⟩
  · intro ch
    rw [hown.ready, Option.map_eq_some_iff]
    constructor
    · rintro ⟨⟨t, _⟩, rfl, rfl⟩
      exact ⟨t, (hmine t _).1 rfl⟩
    · rintro ⟨t, ht⟩
      exact ⟨(t, ch), (hmine t ch).2 ht, rfl⟩
  · intro t u ch ht hu
    have heq := (hown.closer t ch ht).symm.trans (hown.closer u ch hu)
    split at heq <;> split at heq
    · next h1 h2 =>
      rw [h1] at h2
      cases h2
      rfl
    · cases heq
    · cases heq
    · cases heq
      rfl
  · intro hidle
    rw [hown.ready]
    cases owner with
    | none => rfl
    | some p => cases (hidle p.1).symm.trans ((hmine p.1 p.2).1 rfl)
  · rintro before between later t u o o' rfl hno
    have hagree : Agree (some o) (between ++ .got u o' :: later) :=
      (agree_append.1 hinv.agree).2.2
    obtain ⟨hmid, hlast⟩ := agree_append.1 hagree
    rw [foldl_cache_same hmid hno] at hlast
    rcases hlast.1 u o' rfl with hnone | hsome
    · cases hnone
    · exact Option.some.inj hsome

/-- Two calls of `Get`: the second waits while the first loads the index. -/
def twoGets : List (Bool × MgrChoice Unit Nat) :=
  [(true, .call .get), (false, .call .get), (true, .proceed), (false, .proceed),
    (true, .proceed), (true, .proceed), (false, .proceed), (false, .proceed)]

theorem single_flight_twoGets :
    ∃ c log, run step free twoGets (start (some fun _ => 7)) [] =
        some (c, log) ∧
      log.filter ofManager =
        [.registered true 0, .closed true 0, .got true 0, .got false 0] ∧
      SingleFlight c log :=
  ⟨_, _, rfl, rfl, single_flight (some fun _ => 7) ⟨twoGets, rfl⟩⟩

end SeaSearch
