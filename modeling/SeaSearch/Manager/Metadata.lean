import SeaSearch.Manager.IndexManager

/-!
# Stored metadata

`Store` writes the whole metadata of an index object, and `Delete` removes the entry of a name.
-/

namespace SeaSearch

open Threads IndexManagerLemmas
open IndexManager (start step)

variable {ι υ τ : Type}

namespace MgrPc

def plain : MgrPc ι υ → Bool
  | idle => true
  | entered _ => true
  | waiting _ _ => true
  | deleting _ => true
  | looking _ => true
  | closing _ => true
  | removing _ => true
  | erasing _ => true
  | loaded _ _ => true
  | failed _ => true
  | _ => false

def writes : MgrPc ι υ → Bool
  | loading .getOrCreate _ => true
  | creating _ => true
  | marshalling _ _ => true
  | storing _ _ _ => true
  | _ => false

end MgrPc

namespace MgrEvent

def ofCache : MgrEvent ι υ τ → Bool
  | registered _ _ => true
  | closed _ _ => true
  | got _ _ => true
  | dropped => true
  | _ => false

end MgrEvent

inductive MgrMetaShape [DecidableEq ι] (t : τ) (m : IndexManager ι υ) :
    MgrPc ι υ → IndexManager ι υ → MgrPc ι υ → MgrLog ι υ τ → Prop
  | move :
      m'.store = m.store → m'.objects = m.objects → pc'.plain = true →
      (∀ e ∈ es, e.ofCache = true) → MgrMetaShape t m pc m' pc' es
  | call : MgrMetaShape t m .idle m (.entered call) [.called t call]
  | enter : m.ready = none → (call.loads = true → m.cache = none) →
      MgrMetaShape t m (.entered call)
        { m with ready := some m.chans, chans := m.chans + 1 } (call.work m.chans)
        [.registered t m.chans]
  | made : MgrMetaShape t m .idle (m.alloc d) .idle []
  | read : m.store = some d → pc'.plain = true →
      MgrMetaShape t m pc (m.alloc d) pc' [.read m.objects.length]
  | changed : o < m.objects.length →
      MgrMetaShape t m .idle (m.change o i v) .idle [.changed o i v]
  | missing : m.store = none →
      MgrMetaShape t m (.loading .getOrCreate ch) m (.creating ch) []
  | created :
      MgrMetaShape t m (.creating ch) { m.alloc d with store := some d }
        (.loaded m.objects.length ch) [.wrote m.objects.length d]
  | marshalled : m.objects[o]? = some d →
      MgrMetaShape t m (.marshalling o ch) m (.storing o ch d) []
  | wrote :
      MgrMetaShape t m (.storing o ch d) { m with store := some d } (.stored o ch) [.wrote o d]
  | absent : m.store = none →
      MgrMetaShape t m (.looking ch) m (.deleted ch) []
  | erased :
      MgrMetaShape t m (.erasing ch) { m with store := none } (.deleted ch) [.erased]
  | stored : m'.store = m.store → m'.objects = m.objects →
      MgrMetaShape t m (.stored o ch) m' .idle [.closed t ch, .stored t o]
  | deleted : m'.store = m.store → m'.objects = m.objects →
      MgrMetaShape t m (.deleted ch) m' .idle [.closed t ch, .deleted t]

namespace MetadataLemmas

theorem enter_metadata [DecidableEq ι] (t : τ) (m : IndexManager ι υ) (call : MgrCall) :
    MgrMetaShape t m (.entered call) (m.enter t call).1 (m.enter t call).2.1
      (m.enter t call).2.2 := by
  rw [IndexManager.enter]
  split
  · exact .move rfl rfl rfl (by simp [MgrEvent.ofCache])
  · exact .move rfl rfl rfl (by simp)
  · next hr hnot =>
    refine .enter hr fun hl => ?_
    cases hc : m.cache with
    | none => rfl
    | some o => exact absurd hc (hnot o hl)

theorem step_metadata [DecidableEq ι] {pc pc' : MgrPc ι υ}
    (h : step t x m pc = some (m', pc', es)) : MgrMetaShape t m pc m' pc' es := by
  unfold step at h
  split at h
  case h_1 =>
    obtain ⟨-, rfl, rfl, rfl⟩ := by simpa using h
    exact .call
  case h_5 =>
    obtain ⟨d, hd, rfl, rfl, rfl⟩ := by simpa using h
    exact .read hd rfl
  case h_6 =>
    obtain ⟨ho, rfl, rfl, rfl⟩ := by simpa using h
    exact .changed ho
  case h_7 call =>
    have hs := enter_metadata t m call
    rw [Option.some.inj h] at hs
    exact hs
  case h_8 =>
    obtain ⟨-, rfl, rfl, rfl⟩ := by simpa using h
    exact .move rfl rfl rfl (by simp)
  case h_9 =>
    split at h <;> cases h
    · next hd => exact .read hd rfl
    · next hd => exact .missing hd
    · exact .move rfl rfl rfl (by simp)
  case h_13 =>
    obtain ⟨d, hd, rfl, rfl, rfl⟩ := by simpa using h
    exact .marshalled hd
  case h_17 =>
    obtain ⟨rfl, rfl, rfl⟩ := by simpa using h
    refine .move rfl rfl ?_ (by simp)
    split <;> rfl
  case h_18 =>
    obtain ⟨rfl, rfl, rfl⟩ := by simpa using h
    split
    · exact .move rfl rfl rfl (by simp)
    · next hd => exact .absent (Option.not_isSome_iff_eq_none.1 hd)
  case h_30 => cases h
  all_goals cases h
  case h_2 => exact .call
  case h_4 => exact .made
  case h_11 => exact .created
  case h_15 => exact .wrote
  case h_24 => exact .erased
  case h_27 => exact .stored rfl rfl
  case h_28 => exact .deleted rfl rfl
  -- the other steps are lock sections, and operations that fail
  all_goals exact .move rfl rfl rfl (by simp [MgrEvent.ofCache])

end MetadataLemmas

/-- Whether the index counts as deleted after the event: `Delete` has returned without an
error and no `GetOrCreate` has started since. -/
def MgrEvent.gone (cur : Bool) : MgrEvent ι υ τ → Bool
  | .deleted _ => true
  | .called _ .getOrCreate => false
  | _ => cur

def gone (log : MgrLog ι υ τ) : Bool := log.foldl MgrEvent.gone false

/-- While the index counts as deleted, no call that writes an entry registers its channel:
neither `Store`, which also ends `UpdateMetadata`, nor a `GetOrCreate` that started before
the deletion. -/
def noLateWriter : Guard (IndexManager ι υ) (MgrPc ι υ) τ (MgrChoice ι υ) (MgrEvent ι υ τ) :=
  fun c log t _ =>
    match c.threads t with
    | .entered (.store _) => !gone log || c.shared.ready.isSome
    | .entered .getOrCreate => !gone log || c.shared.cache.isSome || c.shared.ready.isSome
    | _ => true

namespace MetadataLemmas

theorem gone_append (log es : MgrLog ι υ τ) :
    gone (log ++ es) = es.foldl MgrEvent.gone (gone log) := List.foldl_append

theorem gone_of_ofCache {e : MgrEvent ι υ τ} (h : e.ofCache = true) (cur : Bool) :
    e.gone cur = cur := by
  cases e <;> first | rfl | cases h

theorem not_writes_of_plain {pc : MgrPc ι υ} (h : pc.plain = true) : pc.writes = false := by
  cases pc <;> first | rfl | cases h

theorem flight_of_writes {pc : MgrPc ι υ} (h : pc.writes = true) :
    ∃ ch, pc.flight = some ch := by
  cases pc <;> first | exact ⟨_, rfl⟩ | cases h

structure GoneInv [DecidableEq τ] (c : MgrConfig ι υ τ) (log : MgrLog ι υ τ) : Prop where
  erased : ∀ t ch, c.threads t = .deleted ch → c.shared.store = none
  store : gone log = true → c.shared.store = none
  writes : gone log = true → ∀ t, (c.threads t).writes = false

section Gone

variable [DecidableEq τ] {c : MgrConfig ι υ τ}
  {log es : MgrLog ι υ τ} {t : τ} {ch : Nat} {m' : IndexManager ι υ} {pc' : MgrPc ι υ}

theorem GoneInv.keep (h : GoneInv c log) (hs : m'.store = c.shared.store)
    (hd : ∀ ch, pc' = .deleted ch → c.shared.store = none)
    (hw : gone log = true → pc'.writes = false) (hg : gone (log ++ es) = true → gone log = true) :
    GoneInv (c.after t m' pc') (log ++ es) := by
  refine ⟨?_, ?_, ?_⟩
  · rw [shared_after, hs]
    exact forall_after
      (P := fun _ (l : MgrPc ι υ) => ∀ ch, l = .deleted ch → c.shared.store = none) hd
      fun u _ => h.erased u
  · intro hgone
    rw [shared_after, hs]
    exact h.store (hg hgone)
  · intro hgone
    exact forall_after (P := fun _ (l : MgrPc ι υ) => l.writes = false) (hw (hg hgone))
      fun u _ => h.writes (hg hgone) u

theorem GoneInv.write (h : GoneInv c log) (hown : CacheInv c log)
    (hf : (c.threads t).flight = some ch) (hw : (c.threads t).writes = true)
    (hd : ∀ ch, pc' ≠ .deleted ch) (hg : gone (log ++ es) = gone log) :
    GoneInv (c.after t m' pc') (log ++ es) := by
  have hnot : gone (log ++ es) = true → False := by
    intro hgone
    rw [h.writes (hg ▸ hgone) t] at hw
    cases hw
  obtain ⟨owner, hown⟩ := hown.flight
  refine ⟨?_, fun hgone => (hnot hgone).elim, fun hgone => (hnot hgone).elim⟩
  refine forall_after (P := fun _ (l : MgrPc ι υ) => ∀ ch, l = .deleted ch → _) ?_ ?_
  · exact fun ch heq => absurd heq (hd ch)
  · intro u hu ch' heq
    have hfu : (c.threads u).flight = some ch' := by rw [heq]; rfl
    exact absurd (hown.owned.unique hfu hf) hu

theorem GoneInv.delete (h : GoneInv c log) (hown : CacheInv c log)
    (hpc : c.threads t = .deleted ch) (hs : m'.store = c.shared.store) :
    GoneInv (c.after t m' .idle) (log ++ es) := by
  have hnone : m'.store = none := hs.trans (h.erased t ch hpc)
  have hf : (c.threads t).flight = some ch := by rw [hpc]; rfl
  obtain ⟨owner, hown⟩ := hown.flight
  refine ⟨fun _ _ _ => hnone, fun _ => hnone, fun _ => ?_⟩
  refine forall_after (P := fun _ (l : MgrPc ι υ) => l.writes = false) rfl ?_
  intro u hu
  refine Bool.eq_false_iff.2 fun hw => ?_
  obtain ⟨ch', hfu⟩ := flight_of_writes hw
  exact hu (hown.owned.unique hfu hf)

theorem GoneInv.erase (h : GoneInv c log) (hs : m'.store = none)
    (hg : gone (log ++ es) = gone log) :
    GoneInv (c.after t m' (.deleted ch)) (log ++ es) := by
  refine ⟨fun _ _ _ => hs, fun _ => hs, fun hgone => ?_⟩
  exact forall_after (P := fun _ (l : MgrPc ι υ) => l.writes = false) rfl
    fun u _ => h.writes (hg ▸ hgone) u

omit [DecidableEq τ] in
theorem not_writes_work (hok : noLateWriter c log t x = true) (hpc : c.threads t = .entered call)
    (hr : c.shared.ready = none) (hc : call.loads = true → c.shared.cache = none)
    (hg : gone log = true) :
    (call.work ch : MgrPc ι υ).writes = false := by
  cases call with
  | get | delete => rfl
  | getOrCreate => simp [noLateWriter, hpc, hr, hc rfl, hg] at hok
  | store o => simp [noLateWriter, hpc, hr, hg] at hok

theorem gone_step [DecidableEq ι] {x : MgrChoice ι υ} (hown : CacheInv c log)
    (h : GoneInv c log) (hok : noLateWriter c log t x = true)
    (hs : step t x c.shared (c.threads t) = some (m', pc', es)) :
    GoneInv (c.after t m' pc') (log ++ es) := by
  have hg := gone_append log es
  generalize hpc : c.threads t = pc at hs
  cases step_metadata hs with
  | move hst _ hp he =>
    rw [foldl_of_fixed fun e h' => gone_of_ofCache (he e h') _] at hg
    refine h.keep hst ?_ (fun _ => not_writes_of_plain hp) hg.symm.trans
    rintro ch rfl
    cases hp
  | @call call =>
    refine h.keep rfl (by simp) (fun _ => rfl) ?_
    rw [hg]
    cases call <;> simp [MgrEvent.gone]
  | @enter call hr hc =>
    refine h.keep rfl ?_ (not_writes_work hok hpc hr hc) hg.symm.trans
    cases call <;> simp [MgrCall.work]
  | made | changed _ => exact h.keep rfl (by simp) (fun _ => rfl) hg.symm.trans
  | read hd hp =>
    refine h.keep rfl ?_ (fun _ => not_writes_of_plain hp) hg.symm.trans
    rintro ch rfl
    cases hp
  | missing hd | marshalled hd =>
    refine h.keep rfl (by simp) (fun hgone => ?_) hg.symm.trans
    have hw := h.writes hgone t
    rw [hpc] at hw
    cases hw
  | created | wrote => exact h.write hown (by rw [hpc]; rfl) (by rw [hpc]; rfl) (by simp) hg
  | absent hd => exact h.keep rfl (fun _ _ => hd) (fun _ => rfl) hg.symm.trans
  | erased => exact h.erase rfl hg
  | stored hst _ => exact h.keep hst (by simp) (fun _ => rfl) hg.symm.trans
  | deleted hst _ => exact h.delete hown hpc hst

end Gone

end MetadataLemmas

open MetadataLemmas in
/-- In every run without late writers, a deleted index stays deleted. -/
theorem stays_deleted [DecidableEq ι] [DecidableEq τ] (d : Option (ι → υ))
    {c : MgrConfig ι υ τ} {log : MgrLog ι υ τ} (h : Reach step noLateWriter (start d) c log)
    (hgone : gone log = true) : c.shared.store = none := by
  have hinv : CacheInv c log ∧ GoneInv c log := by
    refine reach_invariant (I := fun c log => CacheInv c log ∧ GoneInv c log) ?_ ?_ h
    · exact ⟨cache_start d, by simp [start], by simp [gone], by simp [gone]⟩
    · rintro c log t x m' pc' es ⟨hown, hinv⟩ hok hs
      exact ⟨cache_step hown hs, gone_step hown hinv hok hs⟩
  exact hinv.2.store hgone

/-- A thread gets the object and calls `Store`; the other one deletes the index before the
call has registered its channel. -/
def storeAfterDelete : List (Bool × MgrChoice Unit Nat) :=
  [(true, .call .get), (true, .proceed), (true, .proceed), (true, .proceed),
    (true, .call (.store 0)), (false, .call .delete), (false, .proceed), (false, .proceed),
    (false, .proceed), (false, .proceed), (false, .proceed), (false, .proceed)]

theorem stays_deleted_storeAfterDelete :
    ∃ c log, run step noLateWriter storeAfterDelete
        (start (some fun _ => 7)) [] = some (c, log) ∧
      gone log = true ∧ c.shared.store = none :=
  ⟨_, _, rfl, rfl, stays_deleted (some fun _ => 7) ⟨storeAfterDelete, rfl⟩ rfl⟩

/-- ... and is back when the call of `Store` goes on. -/
theorem store_after_delete :
    ∃ c log, run step free
        (storeAfterDelete ++ [(true, .proceed), (true, .proceed), (true, .proceed)])
        (start (some fun _ => 7)) [] = some (c, log) ∧
      gone log = true ∧ c.shared.store = some fun _ => 7 :=
  ⟨_, _, rfl, rfl, rfl⟩

end SeaSearch
