import SeaSearch.Lib.Threads

/-!
# The file cache before an object store

`LruCache` keeps local copies of the files of an object store. It has an entry for each path, with
the number of callers that use the file, and `makeRoomForCacheFile` deletes the files whose entry
has no user.
-/

namespace SeaSearch

open Threads

variable {τ β : Type}

/-- What the calls on one path share:
* `caches`, `ready`: the entries of the path in `caches` and `readyMap`;
* `chans`: the number of channels, and `closed` those that are closed;
* `made`: the number of entries, and `refCount` the count of each, which the source keeps
  in a `uint`: below zero it would wrap around;
* `file`: the local file, and `remote`: the object in the store. -/
structure LruCache (β : Type) where
  caches : Option Nat := none
  ready : Option Nat := none
  chans : Nat := 0
  closed : List Nat := []
  made : Nat := 0
  refCount : Nat → Int := fun _ => 0
  file : Option β := none
  remote : Option β := none

/-- Where a call is.

`Load`, after a miss:
* `fetched`: the object is being read, at the head of the loop of `CacheFile`, and
  `waiting`: at `<-ready`;
* `copying`: before the rename of the temporary file, and `renamed`: after it;
* `failing`: before the lock section of `cleanup`;
* `returning`: after the last lock section, with the entry that it made;
* `holding`: the caller has a handle of the entry.

`Persist`, with the entry that counts the writer and the bytes in the temporary file:
* `creating`: before the temporary file is made, and `writing`: before `WriteTo`;
* `removing`: `WriteTo` failed, before the call of `Remove`;
* `written`: before the upload;
* `closing`, `unlinking`, `renaming`: in `Close` of the writer, before the lock section of
  the count, before that which deletes the entry and before the rename, with whether
  `WriteTo` finished;
* `installing`: before the lock section that makes the new entry, also in
  `UpdateCacheFile`.

`dropping` is in `Remove`, before the object is removed from the store. `evicting` is in
`makeRoomForCacheFile`, between its two lock sections. -/
inductive CachePc (β : Type)
  | idle
  | fetched (b : β)
  | waiting (b : β) (ch : Nat)
  | copying (b : β) (ch : Nat)
  | renamed (ch : Nat)
  | failing (ch : Nat)
  | returning (e : Nat)
  | holding (e : Nat)
  | creating (e : Nat)
  | writing (e : Nat)
  | removing (e : Nat) (b : β)
  | written (e : Nat) (b : β)
  | closing (e : Nat) (b : β) (whole : Bool)
  | unlinking (b : β) (whole : Bool)
  | renaming (b : β) (whole : Bool)
  | installing
  | dropping
  | evicting

abbrev CacheConfig (β τ : Type) := Config (LruCache β) (CachePc β) τ

/-- What a step does not decide: the call that starts, and whether an operation on a file
or on the store fails. `proceed` is a step that succeeds, `fail` one whose operation fails:
from `idle`, it is a `GetCacheFile` whose `Stat` fails. In `write` and `writeFail`, `b` is
what `WriteTo` leaves in the temporary file. -/
inductive CacheChoice (β : Type)
  | get
  | read
  | load
  | close
  | openWriter
  | write (b : β)
  | writeFail (b : β)
  | update (b : β)
  | remove
  | removeFail
  | evict
  | proceed
  | fail

/-- What can be seen of a run:
* `got`: a caller is given a handle, `gotNil`: it is given a nil handle and no error, and
  `released`: it closes its handle;
* `evicted`: `makeRoomForCacheFile` deletes the file;
* `finished`: `WriteTo` of a `Persist` finishes;
* `loaded`: a `Load` returns these bytes. -/
inductive CacheEvent (τ β : Type)
  | got (t : τ)
  | gotNil (t : τ)
  | released (t : τ)
  | evicted
  | finished (b : β)
  | loaded (b : β)
  deriving DecidableEq

namespace LruCache

def addRef (m : LruCache β) (e : Nat) (k : Int) : LruCache β :=
  { m with refCount := Function.update m.refCount e (m.refCount e + k) }

/-- A new entry for the path, with the count `k`. -/
def newEntry (m : LruCache β) (k : Int) : LruCache β :=
  { m with
    caches := some m.made, made := m.made + 1,
    refCount := Function.update m.refCount m.made k }

def register (m : LruCache β) : LruCache β :=
  { m with ready := some m.chans, chans := m.chans + 1 }

/-- `close(ready)` and `delete(readyMap, filePath)`. -/
def finish (m : LruCache β) (ch : Nat) : LruCache β :=
  { m with ready := none, closed := ch :: m.closed }

/-- `Remove`: the entry and the file are deleted. -/
def drop (m : LruCache β) : LruCache β :=
  { m with caches := none, file := none }

/-- One step of a call. Between two steps of one call, other calls may take theirs: also
`makeRoomForCacheFile`, which `CacheFile`, `OpenWriter` and `UpdateCacheFile` call first,
is a call of its own here. -/
def step : Program (LruCache β) (CachePc β) τ (CacheChoice β) (CacheEvent τ β) := fun t x m pc =>
  match pc, x with
  -- GetCacheFile
  | .idle, .get =>
    match m.caches with
    | none => some (m, .idle, [])
    | some e =>
      if m.file.isSome then some (m.addRef e 1, .holding e, [.got t])
      else some ({ m.addRef e 1 with caches := none }, .idle, [])
  | .idle, .fail => m.caches.map fun e => ({ m.addRef e 1 with caches := none }, .idle, [])
  -- CacheFile
  | .idle, .read => m.remote.map fun b => (m, .fetched b, [])
  | .fetched b, .proceed =>
    match m.caches, m.ready with
    | some e, _ => some (m.addRef e 1, .holding e, [.got t])
    | none, some ch => some (m, .waiting b ch, [])
    | none, none => some (m.register, .copying b m.chans, [])
  | .fetched _, .fail => some (m, .idle, [])
  | .waiting b ch, .proceed => if ch ∈ m.closed then some (m, .fetched b, []) else none
  | .copying b ch, .proceed => some ({ m with file := some b }, .renamed ch, [])
  | .copying _ ch, .fail => some (m, .failing ch, [])
  | .renamed ch, .proceed => some ((m.finish ch).newEntry 1, .returning m.made, [])
  | .renamed ch, .fail => some (m, .failing ch, [])
  | .failing ch, .proceed => some (m.finish ch, .idle, [])
  | .returning _, .proceed =>
    match m.caches with
    | some e => some (m, .holding e, [.got t])
    | none => some (m, .idle, [.gotNil t])
  -- LoadReadOnlyData, and Close of the handle
  | .holding e, .load => m.file.map fun b => (m, .holding e, [.loaded b])
  | .holding e, .close => some (m.addRef e (-1), .idle, [.released t])
  -- OpenWriter
  | .idle, .openWriter =>
    match m.caches with
    | some e => some (m.addRef e 1, .creating e, [])
    | none => some (m.newEntry 1, .creating m.made, [])
  | .creating e, .proceed => some (m, .writing e, [])
  | .creating _, .fail => some (m, .idle, [])
  -- Persist
  | .writing e, .write b => some (m, .written e b, [.finished b])
  | .writing e, .writeFail b => some (m, .removing e b, [])
  | .removing e b, .proceed => some (m.drop, .closing e b false, [])
  | .removing e b, .fail => some ({ m with caches := none }, .closing e b false, [])
  | .written e b, .proceed => some ({ m with remote := some b }, .closing e b true, [])
  | .written e b, .fail => some (m, .closing e b true, [])
  -- Close of the writer
  | .closing e b whole, .proceed => some (m.addRef e (-1), .unlinking b whole, [])
  | .unlinking b whole, .proceed => some ({ m with caches := none }, .renaming b whole, [])
  | .renaming b _, .proceed => some ({ m with file := some b }, .installing, [])
  | .renaming _ _, .fail => some (m, .idle, [])
  | .installing, .proceed => some (m.newEntry 0, .idle, [])
  | .installing, .fail => some (m, .idle, [])
  -- UpdateCacheFile
  | .idle, .update b => some ({ m with file := some b }, .installing, [])
  -- Remove
  | .idle, .remove => some (m.drop, .dropping, [])
  | .idle, .removeFail => some ({ m with caches := none }, .idle, [])
  | .dropping, .proceed => some ({ m with remote := none }, .idle, [])
  | .dropping, .fail => some (m, .idle, [])
  -- makeRoomForCacheFile
  | .idle, .evict => if m.caches.isSome then some (m, .evicting, []) else none
  | .evicting, .proceed =>
    if m.caches.any fun e => 0 < m.refCount e then some (m, .idle, [])
    else some (m.drop, .idle, if m.file.isSome then [.evicted] else [])
  | .evicting, .removeFail =>
    if m.caches.any fun e => 0 < m.refCount e then some (m, .idle, [])
    else some ({ m with caches := none }, .idle, [])
  | .evicting, .fail => some (m, .idle, [])
  | _, _ => none

def start : CacheConfig β τ := ⟨{}, fun _ => .idle⟩

end LruCache

namespace CachePc

def uses : CachePc β → Option Nat
  | returning e => some e
  | holding e => some e
  | creating e => some e
  | writing e => some e
  | removing e _ => some e
  | written e _ => some e
  | closing e _ _ => some e
  | _ => none

/-- The entry of a handle that the caller has, or that `CacheFile` is about to return. -/
def handle : CachePc β → Option Nat
  | returning e => some e
  | holding e => some e
  | _ => none

def holds : CachePc β → Option Unit
  | holding _ => some ()
  | _ => none

end CachePc

open CachePc (holds uses)

/-- The step deletes the entry of the path or puts another one in its place, in a call other
than `makeRoomForCacheFile`. -/
def LruCache.replaces (m : LruCache β) : CachePc β → CacheChoice β → Bool
  | .idle, .get => m.file.isNone
  | .idle, .fail => true
  | .idle, .remove => true
  | .idle, .removeFail => true
  | .renamed _, .proceed => true
  | .removing _ _, _ => true
  | .unlinking _ _, _ => true
  | .installing, .proceed => true
  | _, _ => false

open LruCache (addRef newEntry start step)

inductive EntryShape (t : τ) (m : LruCache β) (x : CacheChoice β) :
    CachePc β → LruCache β → CachePc β → List (CacheEvent τ β) → Prop
  | inside :
      m'.caches = m.caches → m'.made = m.made → m'.refCount = m.refCount →
      pc'.uses = pc.uses → pc'.handle = pc.handle → pc'.holds = pc.holds →
      (∀ e ∈ es, ∃ b, e = .finished b ∨ e = .loaded b) → EntryShape t m x pc m' pc' es
  | get : m.caches = some e → pc.uses = none → pc.holds = none →
      EntryShape t m x pc (m.addRef e 1) (.holding e) [.got t]
  | deliver : m.caches = some e' →
      EntryShape t m x (.returning e) m (.holding e') [.got t]
  | deliverNil : m.caches = none → EntryShape t m x (.returning e) m .idle [.gotNil t]
  | openOld : m.caches = some e →
      EntryShape t m x .idle (m.addRef e 1) (.creating e) []
  | openNew : m.caches = none → EntryShape t m x .idle (m.newEntry 1) (.creating m.made) []
  | publish : m.replaces (.renamed ch) x = true →
      EntryShape t m x (.renamed ch) ((m.finish ch).newEntry 1) (.returning m.made) []
  | install : m.replaces .installing x = true →
      EntryShape t m x .installing (m.newEntry 0) .idle []
  | release : EntryShape t m x (.holding e) (m.addRef e (-1)) .idle [.released t]
  | closeWriter :
      EntryShape t m x (.closing e b whole) (m.addRef e (-1)) (.unlinking b whole) []
  | leak : EntryShape t m x (.creating e) m .idle []
  | miss : m.replaces .idle x = true → m.caches = some e →
      EntryShape t m x .idle { m.addRef e 1 with caches := none } .idle []
  | drop : m.replaces pc x = true → m'.caches = none →
      m'.made = m.made → m'.refCount = m.refCount → pc'.uses = pc.uses →
      pc'.handle = pc.handle → pc'.holds = pc.holds → EntryShape t m x pc m' pc' []
  | evict : m'.caches = none →
      m'.made = m.made → m'.refCount = m.refCount →
      (∀ e, m.caches = some e → m.refCount e ≤ 0) → es = [] ∨ es = [.evicted] →
      EntryShape t m x .evicting m' .idle es

namespace LruCacheLemmas

theorem unused_of_any {m : LruCache β} (h : ¬ (m.caches.any fun e => 0 < m.refCount e) = true)
    (e : Nat) (he : m.caches = some e) : m.refCount e ≤ 0 := by
  rw [he] at h
  simpa using h

theorem step_entry {t : τ} {x : CacheChoice β} {m m' : LruCache β} {pc pc' : CachePc β}
    {es : List (CacheEvent τ β)} (h : step t x m pc = some (m', pc', es)) :
    EntryShape t m x pc m' pc' es := by
  unfold step at h
  split at h
  case h_1 =>
    split at h
    · cases h; exact .inside rfl rfl rfl rfl rfl rfl (by simp)
    · next hc =>
      split at h <;> cases h
      · exact .get hc rfl rfl
      · next hf => exact .miss (by simpa [LruCache.replaces] using hf) hc
  case h_2 =>
    obtain ⟨e, hc, rfl, rfl, rfl⟩ := by simpa using h
    exact .miss rfl hc
  case h_4 =>
    split at h <;> cases h
    · next hc => exact .get hc rfl rfl
    · exact .inside rfl rfl rfl rfl rfl rfl (by simp)
    · exact .inside rfl rfl rfl rfl rfl rfl (by simp)
  case h_12 =>
    split at h <;> cases h
    · next hc => exact .deliver hc
    · next hc => exact .deliverNil hc
  case h_3 | h_13 =>
    obtain ⟨b, -, rfl, rfl, rfl⟩ := by simpa using h
    exact .inside rfl rfl rfl rfl rfl rfl (by simp)
  case h_15 =>
    split at h <;> cases h
    · next hc => exact .openOld hc
    · next hc => exact .openNew hc
  case h_6 | h_35 =>
    obtain ⟨-, rfl, rfl, rfl⟩ := by simpa using h
    exact .inside rfl rfl rfl rfl rfl rfl (by simp)
  case h_36 =>
    split at h <;> cases h
    · exact .inside rfl rfl rfl rfl rfl rfl (by simp)
    · next hc => exact .evict rfl rfl rfl (unused_of_any hc) (by split <;> simp)
  case h_37 =>
    split at h <;> cases h
    · exact .inside rfl rfl rfl rfl rfl rfl (by simp)
    · next hc => exact .evict rfl rfl rfl (unused_of_any hc) (.inl rfl)
  case h_39 => cases h
  all_goals cases h
  case h_9 => exact .publish rfl
  case h_14 => exact .release
  case h_17 => exact .leak
  case h_24 => exact .closeWriter
  case h_28 => exact .install rfl
  case h_20 | h_21 | h_25 | h_31 | h_32 => exact .drop rfl rfl rfl rfl rfl rfl rfl
  all_goals exact .inside rfl rfl rfl rfl rfl rfl (by simp)

end LruCacheLemmas

/-- What the counts are for:
* `nonNil`: a handle that is returned without an error is not nil;
* `survives`: when the file is evicted, every handle that was given has been closed;
* `counts`: no count is below zero. -/
structure HeldSurvives [DecidableEq τ] [DecidableEq β] (c : CacheConfig β τ)
    (log : List (CacheEvent τ β)) : Prop where
  nonNil : ∀ t, .gotNil t ∉ log
  survives : ∀ before later, log = before ++ .evicted :: later →
    ∀ t, before.count (.got t) = before.count (.released t)
  counts : ∀ e, 0 ≤ c.shared.refCount e

/-- No caller has a handle, and `CacheFile` is not about to return one. -/
def noHandle [Fintype τ] (c : CacheConfig β τ) : Bool :=
  decide (∀ t, (c.threads t).handle = none)

def keepsHeld [Fintype τ] :
    Guard (LruCache β) (CachePc β) τ (CacheChoice β) (CacheEvent τ β) := fun c _ t x =>
  !c.shared.replaces (c.threads t) x || noHandle c

namespace LruCacheLemmas

variable {pc : CachePc β}

def user (e : Nat) (pc : CachePc β) : Bool := pc.uses == some e

theorem user_eq_true : user e pc = true ↔ pc.uses = some e := by
  simp [user]

def gotHandle (t : τ) (_ : Unit) : CacheEvent τ β := .got t

def releasedHandle (t : τ) (_ : Unit) : CacheEvent τ β := .released t

def evictedFile (_ : Unit) : CacheEvent τ β := .evicted

structure EntryInv [Fintype τ] [DecidableEq τ] [DecidableEq β]
    (c : CacheConfig β τ) (log : List (CacheEvent τ β)) : Prop where
  refs : ∀ e, (count (user e) c : Int) ≤ c.shared.refCount e
  unmade : ∀ e, c.shared.made ≤ e → c.shared.refCount e = 0
  fresh : ∀ t e, (c.threads t).uses = some e → e < c.shared.made
  cached : ∀ e, c.shared.caches = some e → e < c.shared.made
  current : ∀ t e, (c.threads t).handle = some e → c.shared.caches = some e
  paired : Paired gotHandle releasedHandle holds c log
  nonNil : ∀ t, .gotNil t ∉ log
  survives : AllReturned gotHandle releasedHandle evictedFile log

theorem handle_uses (h : pc.handle = some e) : pc.uses = some e := by
  cases pc <;> first | exact h | cases h

theorem holds_eq_none (h : pc.handle = none) : pc.holds = none := by
  cases pc <;> first | rfl | cases h

theorem refCount_addRef (m : LruCache β) (e e' : Nat) (k : Int) :
    (m.addRef e k).refCount e' = m.refCount e' + if e = e' then k else 0 := by
  by_cases he : e = e'
  · subst he
    simp [addRef]
  · simp [addRef, Function.update_of_ne (Ne.symm he), he]

theorem refCount_newEntry (m : LruCache β) (e : Nat) (k : Int) :
    (m.newEntry k).refCount e = if m.made = e then k else m.refCount e := by
  by_cases he : m.made = e
  · subst he
    simp [newEntry]
  · simp [newEntry, Function.update_of_ne (Ne.symm he), he]

section Handles

variable [Fintype τ] [DecidableEq τ] [DecidableEq β] {c : CacheConfig β τ}
  {log es : List (CacheEvent τ β)} {t : τ} {m' : LruCache β} {pc' : CachePc β} {e : Nat}

variable (h : EntryInv c log)

include h

section Step

variable (hm : c.shared.made ≤ m'.made)
  (hunmade : ∀ e, m'.made ≤ e → m'.refCount e = 0)
  (hrefs : ∀ e, c.shared.refCount e + (if pc'.uses = some e then 1 else 0) ≤
    m'.refCount e + if (c.threads t).uses = some e then 1 else 0)
  (hcached : ∀ e, m'.caches = some e → e < m'.made)
  (hfresh : ∀ e, pc'.uses = some e → e < m'.made)
  (hcurrent : ∀ e, pc'.handle = some e → m'.caches = some e)
  (hothers : m'.caches = c.shared.caches ∨ ∀ u, u ≠ t → (c.threads u).handle = none)

include hm hunmade hrefs hcached hfresh hcurrent hothers

theorem EntryInv.step
    (hpaired : Paired gotHandle releasedHandle holds (c.after t m' pc') (log ++ es))
    (hnil : ∀ u, .gotNil u ∉ es)
    (hsurvives : AllReturned gotHandle releasedHandle evictedFile (log ++ es)) :
    EntryInv (c.after t m' pc') (log ++ es) := by
  refine ⟨?_, hunmade, ?_, hcached, ?_, hpaired, ?_, hsurvives⟩
  · intro e
    have hcount := count_after (user e) c t m' pc'
    have hold := h.refs e
    have hnew := hrefs e
    simp only [user_eq_true] at hcount
    rw [shared_after]
    by_cases hu : (c.threads t).uses = some e <;> by_cases hu' : pc'.uses = some e <;>
      simp only [hu, hu', if_true, if_false] at hcount hnew <;> omega
  · exact forall_after (P := fun _ (l : CachePc β) => ∀ e, l.uses = some e → e < m'.made) hfresh
      fun u _ e he => lt_of_lt_of_le (h.fresh u e he) hm
  · refine forall_after (P := fun _ (l : CachePc β) => ∀ e, l.handle = some e → m'.caches = some e)
      hcurrent ?_
    intro u hu e he
    rcases hothers with heq | hnone
    · rw [heq]
      exact h.current u e he
    · rw [hnone u hu] at he
      cases he
  · intro u hmem
    exact (List.mem_append.1 hmem).elim (h.nonNil u) (hnil u)

theorem EntryInv.quiet (hhs : pc'.holds = (c.threads t).holds) :
    EntryInv (c.after t m' pc') (log ++ []) :=
  h.step hm hunmade hrefs hcached hfresh hcurrent hothers (h.paired.keep hhs (by simp)) (by simp)
    (h.survives.keep (by simp))

end Step

theorem EntryInv.keep (hm : m'.made = c.shared.made) (hr : m'.refCount = c.shared.refCount)
    (hu : pc'.uses = (c.threads t).uses) (hh : pc'.handle = (c.threads t).handle)
    (hs : pc'.holds = (c.threads t).holds)
    (hc : m'.caches = c.shared.caches ∨ m'.caches = none ∧ ∀ u, (c.threads u).handle = none)
    (he : ∀ e ∈ es, ∃ b, e = .finished b ∨ e = .loaded b) :
    EntryInv (c.after t m' pc') (log ++ es) := by
  refine h.step hm.ge ?_ ?_ ?_ ?_ ?_ ?_ ?_ ?_ ?_
  · rw [hm, hr]
    exact h.unmade
  · intro e
    rw [hr, hu]
  · intro e hce
    rw [hm]
    rcases hc with hc | ⟨hc, -⟩
    · exact h.cached e (hc ▸ hce)
    · rw [hc] at hce
      cases hce
  · intro e hue
    rw [hm]
    exact h.fresh t e (hu ▸ hue)
  · intro e hhe
    rw [hh] at hhe
    rcases hc with hc | ⟨-, hnone⟩
    · rw [hc]
      exact h.current t e hhe
    · rw [hnone t] at hhe
      cases hhe
  · exact hc.imp id fun hc u _ => hc.2 u
  · refine h.paired.keep hs fun u a => ⟨fun hmem => ?_, fun hmem => ?_⟩ <;>
      obtain ⟨b, hb | hb⟩ := he _ hmem <;> cases hb
  · intro u hmem
    obtain ⟨b, hb | hb⟩ := he _ hmem <;> cases hb
  · refine h.survives.keep fun a hmem => ?_
    obtain ⟨b, hb | hb⟩ := he _ hmem <;> cases hb

theorem EntryInv.unmade_addRef (he : e < c.shared.made) (k : Int) (e' : Nat)
    (he' : c.shared.made ≤ e') : (c.shared.addRef e k).refCount e' = 0 := by
  have hne : e ≠ e' := ne_of_lt (lt_of_lt_of_le he he')
  rw [refCount_addRef, if_neg hne, h.unmade e' he', add_zero]

theorem EntryInv.unmade_newEntry (k : Int) (e : Nat)
    (he : c.shared.made + 1 ≤ e) : (c.shared.newEntry k).refCount e = 0 := by
  rw [refCount_newEntry, if_neg (ne_of_lt he), h.unmade e (Nat.le_of_succ_le he)]

theorem EntryInv.used_of_handle (hu : (c.threads u).handle = some e) :
    0 < c.shared.refCount e := by
  have hpos : count (user e) c ≠ 0 := fun hzero => by
    have hfalse := count_eq_zero.1 hzero u
    rw [user_eq_true.2 (handle_uses hu)] at hfalse
    cases hfalse
  have hrefs := h.refs e
  omega

theorem EntryInv.get (hc : m'.caches = some e) (hcs : m'.caches = c.shared.caches)
    (hm : m'.made = c.shared.made) (hunmade : ∀ e', m'.made ≤ e' → m'.refCount e' = 0)
    (hrefs : ∀ e', c.shared.refCount e' + (if e = e' then 1 else 0) ≤
      m'.refCount e' + if (c.threads t).uses = some e' then 1 else 0)
    (hhs : (c.threads t).holds = none) :
    EntryInv (c.after t m' (.holding e)) (log ++ [.got t]) := by
  have hlt : e < m'.made := hm ▸ h.cached e (hcs ▸ hc)
  refine h.step hm.ge hunmade ?_ ?_ ?_ ?_ (.inl hcs) ?_ (by simp) ?_
  · simpa [uses] using hrefs
  · intro e' he'
    rw [hc] at he'
    cases he'
    exact hlt
  · rintro e' he'
    cases he'
    exact hlt
  · rintro e' he'
    cases he'
    exact hc
  · exact h.paired.get (a := ()) (by simp [gotHandle]) (by simp [gotHandle, releasedHandle]) hhs rfl
  · exact h.survives.keep (by simp [evictedFile])

theorem EntryInv.newEntry (hc : m'.caches = some c.shared.made) (hm : m'.made = c.shared.made + 1)
    (hr : m'.refCount = (c.shared.newEntry k).refCount) (hpc : (c.threads t).uses = none)
    (hu : pc'.uses = if k = 0 then none else some c.shared.made) (hk : k = 0 ∨ k = 1)
    (hh : ∀ e, pc'.handle = some e → e = c.shared.made) (hfree : ∀ u, (c.threads u).handle = none)
    (hhs : pc'.holds = none) :
    EntryInv (c.after t m' pc') (log ++ []) := by
  have hmade := h.unmade c.shared.made le_rfl
  refine h.quiet (by omega) ?_ ?_ ?_ ?_ ?_ (.inr fun u _ => hfree u) ?_
  · rw [hm, hr]
    exact h.unmade_newEntry k
  · intro e
    rw [hr, refCount_newEntry, hpc, hu]
    by_cases he : c.shared.made = e
    · subst he
      rcases hk with rfl | rfl <;> simp [hmade]
    · rcases hk with rfl | rfl <;> simp [he]
  · intro e he
    rw [hc] at he
    cases he
    omega
  · intro e he
    rw [hu] at he
    split at he <;> cases he
    omega
  · intro e he
    rw [hc, hh e he]
  · rw [hhs, holds_eq_none (hfree t)]

theorem EntryInv.unref (hu : (c.threads t).uses = some e) (hu' : pc'.uses = none)
    (hh : pc'.handle = none)
    (hpaired : Paired gotHandle releasedHandle holds
      (c.after t (c.shared.addRef e (-1)) pc') (log ++ es)) (hnil : ∀ u, .gotNil u ∉ es)
    (he : .evicted ∉ es) : EntryInv (c.after t (c.shared.addRef e (-1)) pc') (log ++ es) := by
  refine h.step le_rfl (h.unmade_addRef (h.fresh t e hu) (-1)) ?_ h.cached (by simp [hu'])
    (by simp [hh]) (.inl rfl) hpaired hnil (h.survives.keep fun _ => he)
  intro e'
  rw [refCount_addRef, hu, hu']
  by_cases hee : e = e' <;> simp [hee]

theorem EntryInv.evict (hc : m'.caches = none) (hm : m'.made = c.shared.made)
    (hr : m'.refCount = c.shared.refCount) (hpc : c.threads t = .evicting)
    (hnone : ∀ u, (c.threads u).handle = none) :
    EntryInv (c.after t m' .idle) (log ++ [.evicted]) := by
  refine h.step hm.ge ?_ ?_ (by simp [hc]) nofun nofun (.inr fun u _ => hnone u) ?_
    (by simp) ?_
  · rw [hm, hr]
    exact h.unmade
  · intro e
    rw [hr, hpc]
    rfl
  · exact h.paired.keep (by rw [hpc]; rfl) (by simp [gotHandle, releasedHandle])
  · refine h.survives.snoc (a := ()) h.paired (fun _ _ _ => rfl) ?_
    intro u
    rw [holds_eq_none (hnone u)]
    nofun

theorem entry_step (hok : keepsHeld c log t x = true)
    (hs : step t x c.shared (c.threads t) = some (m', pc', es)) :
    EntryInv (c.after t m' pc') (log ++ es) := by
  generalize hpc : c.threads t = pc at hs
  have hfree : c.shared.replaces pc x = true → ∀ u, (c.threads u).handle = none := by
    intro hrep
    simpa [keepsHeld, noHandle, hpc, hrep] using hok
  cases step_entry hs with
  | inside hc hm hr hu hh hhs he =>
    exact h.keep hm hr (hpc ▸ hu) (hpc ▸ hh) (hpc ▸ hhs) (.inl hc) he
  | @get e _ hc hu hhs =>
    refine h.get hc rfl rfl (h.unmade_addRef (h.cached e hc) 1) ?_ (hpc ▸ hhs)
    intro e'
    rw [refCount_addRef, hpc, hu]
    simp
  | @deliver e' e hc =>
    -- the handle that is about to be returned is one of the entry of the path
    have he : c.shared.caches = some e := h.current t e (by rw [hpc]; rfl)
    obtain rfl : e' = e := Option.some.inj (hc.symm.trans he)
    refine h.get hc rfl rfl h.unmade ?_ (by rw [hpc]; rfl)
    intro e''
    rw [hpc]
    simp [uses]
  | @deliverNil e hc =>
    have he : c.shared.caches = some e := h.current t e (by rw [hpc]; rfl)
    rw [hc] at he
    cases he
  | @openOld e hc =>
    refine h.quiet le_rfl (h.unmade_addRef (h.cached e hc) 1) ?_ h.cached ?_ nofun
      (.inl rfl) (by rw [hpc]; rfl)
    · intro e'
      rw [refCount_addRef, hpc]
      simp [uses]
    · rintro e' he'
      cases he'
      exact h.cached e hc
  | openNew hc =>
    have hnone : ∀ u, (c.threads u).handle = none := by
      intro u
      rw [Option.eq_none_iff_forall_ne_some]
      intro e he
      rw [h.current u e he] at hc
      cases hc
    exact h.newEntry (k := 1) rfl rfl rfl (by rw [hpc]; rfl) rfl (.inr rfl) nofun hnone rfl
  | publish hrep =>
    refine h.newEntry (k := 1) rfl rfl rfl (by rw [hpc]; rfl) rfl (.inr rfl) ?_ (hfree hrep) rfl
    rintro e he
    cases he
    rfl
  | install hrep =>
    exact h.newEntry (k := 0) rfl rfl rfl (by rw [hpc]; rfl) rfl (.inl rfl) nofun
      (hfree hrep) rfl
  | @release e =>
    have hpaired := h.paired.return (t := t) (a := ()) (s := c.shared.addRef e (-1)) (l := .idle)
      (by simp [releasedHandle]) (by simp [gotHandle, releasedHandle]) (by rw [hpc]; rfl) rfl
    exact h.unref (by rw [hpc]; rfl) rfl rfl hpaired (by simp) (by simp)
  | closeWriter =>
    exact h.unref (by rw [hpc]; rfl) rfl rfl (h.paired.keep (by rw [hpc]; rfl) (by simp)) (by simp)
      (by simp)
  | leak =>
    refine h.quiet le_rfl h.unmade ?_ h.cached nofun nofun (.inl rfl)
      (by rw [hpc]; rfl)
    intro e
    simp only [hpc, uses, reduceCtorEq, if_false, add_zero]
    split <;> omega
  | @miss e hrep hc =>
    refine h.quiet le_rfl (h.unmade_addRef (h.cached e hc) 1) ?_ nofun nofun
      nofun (.inr fun u _ => hfree hrep u) (by rw [hpc])
    intro e'
    simp only [refCount_addRef, hpc, uses, reduceCtorEq, if_false, add_zero]
    split <;> omega
  | drop hrep hc hm hr hu hh hhs =>
    exact h.keep hm hr (hpc ▸ hu) (hpc ▸ hh) (hpc ▸ hhs) (.inr ⟨hc, hfree hrep⟩) (by simp)
  | evict hc hm hr hle he =>
    have hnone : ∀ u, (c.threads u).handle = none := by
      intro u
      rw [Option.eq_none_iff_forall_ne_some]
      intro e he
      have hpos := h.used_of_handle he
      have hzero := hle e (h.current u e he)
      omega
    rcases he with rfl | rfl
    · exact h.keep hm hr (by rw [hpc]; rfl) (by rw [hpc]; rfl) (by rw [hpc]; rfl)
        (.inr ⟨hc, hnone⟩) (by simp)
    · exact h.evict hc hm hr hpc hnone

omit h in
theorem entry_start : EntryInv (start : CacheConfig β τ) [] := by
  refine ⟨?_, ?_, ?_, ?_, ?_, ?_, by simp, by simp [AllReturned]⟩
  · intro e
    have hzero : count (user e) (start : CacheConfig β τ) = 0 :=
      count_eq_zero.2 fun _ => rfl
    rw [hzero]
    exact le_refl 0
  · exact fun _ _ => rfl
  · exact nofun
  · exact nofun
  · exact nofun
  · exact fun t a => rfl

end Handles

end LruCacheLemmas

open LruCacheLemmas in
/-- In every run in which entries with a handle are neither replaced nor deleted, handles are
never nil, the file is not evicted while a caller has a handle, and no count is below
zero. -/
theorem held_survives [Fintype τ] [DecidableEq τ] [DecidableEq β]
    {c : CacheConfig β τ} {log : List (CacheEvent τ β)}
    (h : Reach step keepsHeld start c log) : HeldSurvives c log := by
  have hinv : EntryInv c log := by
    refine reach_invariant (I := fun c log => EntryInv c log) entry_start ?_ h
    intro c log t x m' pc' es hinv hok hs
    exact entry_step hinv hok hs
  refine ⟨hinv.nonNil, ?_, ?_⟩
  · intro before later hlog t
    exact hinv.survives before later () hlog t
  · intro e
    exact le_trans (Int.natCast_nonneg _) (hinv.refs e)

def persisted (b : Nat) : List (Fin 2 × CacheChoice Nat) :=
  [(0, .openWriter), (0, .proceed), (0, .write b), (0, .proceed), (0, .proceed), (0, .proceed),
    (0, .proceed), (0, .proceed)]

/-- The file is loaded by one thread. The other one tries to evict it, and can do so after
the handle is closed. -/
def loadedThenEvicted : List (Fin 2 × CacheChoice Nat) :=
  persisted 7 ++ [(0, .get), (0, .load), (1, .evict), (1, .proceed), (0, .close), (1, .evict),
    (1, .proceed)]

theorem held_survives_loadedThenEvicted :
    ∃ c log, run step keepsHeld loadedThenEvicted start [] = some (c, log) ∧
      log = [.finished 7, .got 0, .loaded 7, .released 0, .evicted] ∧ HeldSurvives c log :=
  ⟨_, _, rfl, rfl, held_survives ⟨loadedThenEvicted, rfl⟩⟩

/-- Without the condition, each part fails:
* the first thread has a handle when the second one updates the file, and the new entry,
  which no one uses, is evicted together with the file;
* the file is removed between the last lock section of `CacheFile` and the end of the call,
  which returns nil;
* in its place, an update comes there: the handle is one of the new entry, which does not
  count it, and closing it takes the count below zero. -/
theorem held_evicted :
    (∃ c log, run step free
        (persisted 7 ++ [(0, .get), (1, .update 8), (1, .proceed), (1, .evict), (1, .proceed)])
        start [] = some (c, log) ∧
      c.threads 0 = .holding 1 ∧ log = [.finished 7, .got 0, .evicted] ∧ c.shared.file = none) ∧
    (∃ c log, run step free
        (persisted 7 ++ [(1, .evict), (1, .proceed), (0, .read), (0, .proceed), (0, .proceed),
          (0, .proceed), (1, .remove), (0, .proceed)]) start [] = some (c, log) ∧
      .gotNil 0 ∈ log) ∧
    (∃ c log, run step free
        (persisted 7 ++ [(1, .evict), (1, .proceed), (0, .read), (0, .proceed), (0, .proceed),
          (0, .proceed), (1, .update 8), (1, .proceed), (0, .proceed), (0, .close)])
        start [] = some (c, log) ∧
      c.shared.refCount 3 = -1) :=
  ⟨⟨_, _, rfl, rfl, rfl, rfl⟩, ⟨_, _, rfl, by decide⟩, ⟨_, _, rfl, rfl⟩⟩

end SeaSearch
