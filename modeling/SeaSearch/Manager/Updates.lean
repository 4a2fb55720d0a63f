import SeaSearch.Manager.Metadata

/-!
# Updates of the metadata

A change of the metadata is made in an index object, and `Store` then writes all items of that
object. Several objects of one name can exist.
-/

namespace SeaSearch

open List Threads IndexManagerLemmas MetadataLemmas
open IndexManager (change start step)

variable {ι υ τ : Type}

/-- Whether the object `o` is in step after the event: it has been made from the entry or
written to it, and since then no other object has been written and the entry has not been
removed. -/
def MgrEvent.synced (o : Nat) (cur : Bool) : MgrEvent ι υ τ → Bool
  | .read o' => if o' = o then true else cur
  | .wrote o' _ => decide (o' = o)
  | .erased => false
  | _ => cur

def synced (o : Nat) (log : MgrLog ι υ τ) : Bool :=
  log.foldl (MgrEvent.synced o) false

/-- `Store` writes an object only if it is in step, or if there is no entry. -/
def inStep : Guard (IndexManager ι υ) (MgrPc ι υ) τ (MgrChoice ι υ) (MgrEvent ι υ τ) :=
  fun c log t _ =>
    match c.threads t with
    | .marshalling o _ => c.shared.store.isNone || synced o log
    | _ => true

/-- How far a change of an item has come:
* `changed`: the item of the object has this value, and no later operation has changed
  the item in any object or removed the index;
* `calling`: after that, the thread has called `Store` for the object;
* `saved`: after that, such a call has returned without an error. -/
inductive SaveStage (υ : Type)
  | none
  | changed (v : υ)
  | calling (v : υ)
  | saved (v : υ)

/-- The stage of the item `i` changed through the object `o` and stored by the thread `t`,
after an event. -/
def SaveStage.next [DecidableEq ι] [DecidableEq τ] (o : Nat) (i : ι) (t : τ)
    (s : SaveStage υ) (e : MgrEvent ι υ τ) : SaveStage υ :=
  match s, e with
  | s, .changed o' i' v => if i' = i then (if o' = o then changed v else none) else s
  | _, .erased => none
  | changed v, .called t' call => if t' = t ∧ call = .store o then calling v else changed v
  | calling v, .stored t' o' => if t' = t ∧ o' = o then saved v else calling v
  | s, _ => s

def saveStage [DecidableEq ι] [DecidableEq τ] (o : Nat) (i : ι) (t : τ)
    (log : MgrLog ι υ τ) : SaveStage υ :=
  log.foldl (SaveStage.next o i t) .none

namespace UpdatesLemmas

variable {e : MgrEvent ι υ τ}

def Item (m : IndexManager ι υ) (o : Nat) (i : ι) (v : υ) : Prop :=
  ∃ d, m.objects[o]? = some d ∧ d i = v

structure Keeps (i : ι) (v : υ) (c : MgrConfig ι υ τ) (log : MgrLog ι υ τ) : Prop where
  store : ∃ d, c.shared.store = some d ∧ d i = v
  objects : ∀ o, synced o log = true → Item c.shared o i v
  storing : ∀ t o ch d, c.threads t = .storing o ch d → d i = v ∧ Item c.shared o i v
  creating : ∀ t ch, c.threads t ≠ .creating ch

theorem synced_append (o : Nat) (log es : MgrLog ι υ τ) :
    synced o (log ++ es) = es.foldl (MgrEvent.synced o) (synced o log) := foldl_append

theorem synced_of_ofCache (h : e.ofCache = true) (o : Nat) (cur : Bool) : e.synced o cur = cur := by
  cases e <;> first | rfl | cases h

section Items

variable {m m' : IndexManager ι υ} {o o' : Nat} {i i' : ι} {v v' : υ} {d : ι → υ}

theorem item_of_objects (h : m'.objects = m.objects) : Item m o i v → Item m' o i v := by
  unfold Item
  rw [h]
  exact id

theorem item_alloc (h : Item m o i v) : Item (m.alloc d) o i v := by
  obtain ⟨d', hd, hv⟩ := h
  have ho : o < m.objects.length := (List.getElem?_eq_some_iff.1 hd).1
  exact ⟨d', (List.getElem?_append_left ho).trans hd, hv⟩

theorem item_alloc_new (h : d i = v) : Item (m.alloc d) m.objects.length i v :=
  ⟨d, List.getElem?_concat_length, h⟩

theorem item_change_other [DecidableEq ι] (hi : i' ≠ i) (h : Item m o i v) :
    Item (m.change o' i' v') o i v := by
  obtain ⟨d, hd, hv⟩ := h
  unfold Item change
  simp only [List.getElem?_modify, hd]
  split
  · exact ⟨_, rfl, (Function.update_of_ne hi.symm ..).trans hv⟩
  · exact ⟨_, rfl, hv⟩

theorem item_change_self [DecidableEq ι] (ho : o < m.objects.length) :
    Item (m.change o i v) o i v := by
  refine ⟨Function.update m.objects[o] i v, ?_, Function.update_self ..⟩
  simp [change, ho]

end Items

def Resets (i : ι) : MgrEvent ι υ τ → Prop
  | .changed _ i' _ => i' = i
  | .erased => True
  | _ => False

section Keeps

variable [DecidableEq τ] {c : MgrConfig ι υ τ}
  {log es : MgrLog ι υ τ} {t : τ} {m' : IndexManager ι υ} {pc' : MgrPc ι υ} {i : ι} {v : υ}

theorem Keeps.keep (h : Keeps i v c log) (hst : ∃ d, m'.store = some d ∧ d i = v)
    (hitem : ∀ o, Item c.shared o i v → Item m' o i v)
    (hsync : ∀ o, synced o (log ++ es) = true → synced o log = true ∨ Item m' o i v)
    (hpc : ∀ o ch d, pc' = .storing o ch d → d i = v ∧ Item m' o i v)
    (hcr : ∀ ch, pc' ≠ .creating ch) : Keeps i v (c.after t m' pc') (log ++ es) := by
  refine ⟨hst, ?_, ?_, ?_⟩
  · intro o ho
    rcases hsync o ho with hold | hnew
    · exact hitem o (h.objects o hold)
    · exact hnew
  · refine forall_after (P := fun _ (l : MgrPc ι υ) =>
      ∀ o ch d, l = .storing o ch d → d i = v ∧ Item m' o i v) hpc ?_
    intro u _ o ch d hu
    obtain ⟨hd, ho⟩ := h.storing u o ch d hu
    exact ⟨hd, hitem o ho⟩
  · exact forall_after (P := fun _ (l : MgrPc ι υ) => ∀ ch, l ≠ .creating ch) hcr
      fun u _ => h.creating u

theorem keeps_step [DecidableEq ι] (h : Keeps i v c log) (hok : inStep c log t x = true)
    (hs : step t x c.shared (c.threads t) = some (m', pc', es))
    (hno : ∀ e ∈ es, ¬ Resets i e) : Keeps i v (c.after t m' pc') (log ++ es) := by
  have hsync := fun o => synced_append o log es
  obtain ⟨d₀, hd₀, hv₀⟩ := h.store
  have hsome : c.shared.store ≠ none := by simp [hd₀]
  generalize hpc : c.threads t = pc at hs
  cases step_metadata hs with
  | move hst hobj hp he =>
    refine h.keep ⟨d₀, hst.trans hd₀, hv₀⟩ (fun o => item_of_objects hobj) ?_ ?_ ?_
    · intro o ho
      rw [hsync, foldl_of_fixed fun e h' => synced_of_ofCache (he e h') o _] at ho
      exact .inl ho
    · rintro o ch d rfl
      cases hp
    · rintro ch rfl
      cases hp
  | call =>
    exact h.keep h.store (fun o => id) (fun o ho => .inl ((hsync o).symm.trans ho)) (by simp)
      (by simp)
  | @enter call hr hc =>
    refine h.keep h.store (fun o => id) (fun o ho => .inl ((hsync o).symm.trans ho)) ?_ ?_ <;>
      cases call <;> simp [MgrCall.work]
  | made =>
    exact h.keep h.store (fun o => item_alloc) (fun o ho => .inl ((hsync o).symm.trans ho))
      (by simp) (by simp)
  | read hd hp =>
    cases hd₀.symm.trans hd
    refine h.keep h.store (fun o => item_alloc) ?_ ?_ ?_
    · intro o ho
      rw [hsync] at ho
      simp only [foldl_cons, foldl_nil, MgrEvent.synced] at ho
      split at ho
      · next heq => exact .inr (heq ▸ item_alloc_new hv₀)
      · exact .inl ho
    · rintro o ch d rfl
      cases hp
    · rintro ch rfl
      cases hp
  | changed ho =>
    have hi := hno _ mem_cons_self
    exact h.keep h.store (fun o => item_change_other hi)
      (fun o ho => .inl ((hsync o).symm.trans ho)) (by simp) (by simp)
  | missing hd => exact absurd hd hsome
  | created => exact absurd hpc (h.creating t _)
  | @marshalled o ch d hd =>
    have ho : synced o log = true := by
      simpa [inStep, hpc, hd₀] using hok
    obtain ⟨d', hd', hv⟩ := h.objects o ho
    cases hd.symm.trans hd'
    refine h.keep h.store (fun o => id) (fun o ho => .inl ((hsync o).symm.trans ho)) ?_ (by simp)
    intro o' ch' d' heq
    cases heq
    exact ⟨hv, h.objects o ho⟩
  | @wrote o ch d =>
    obtain ⟨hv, ho⟩ := h.storing t o ch d hpc
    refine h.keep ⟨d, rfl, hv⟩ (fun o => id) ?_ (by simp) (by simp)
    intro o' ho'
    rw [hsync] at ho'
    obtain rfl : o = o' := of_decide_eq_true ho'
    exact .inr ho
  | absent hd => exact absurd hd hsome
  | erased => exact absurd trivial (hno _ mem_cons_self)
  | stored hst hobj | deleted hst hobj =>
    exact h.keep ⟨d₀, hst.trans hd₀, hv₀⟩ (fun o => item_of_objects hobj)
      (fun o ho => .inl ((hsync o).symm.trans ho)) (by simp) (by simp)

theorem keeps_of_write (hown : CacheInv c log) (hpc : c.threads t = .storing o ch d) (hd : d i = v)
    (ho : Item c.shared o i v) :
    Keeps i v (c.after t { c.shared with store := some d } (.stored o ch))
      (log ++ [.wrote o d]) := by
  obtain ⟨owner, hown⟩ := hown.flight
  have hf : (c.threads t).flight = some ch := by rw [hpc]; rfl
  refine ⟨⟨d, rfl, hd⟩, ?_, ?_, ?_⟩
  · intro o' ho'
    rw [synced_append] at ho'
    obtain rfl : o = o' := of_decide_eq_true ho'
    exact ho
  · refine forall_after (P := fun _ (l : MgrPc ι υ) =>
      ∀ o ch d, l = .storing o ch d → d i = v ∧ Item c.shared o i v) (by simp) ?_
    intro u hu o' ch' d' hpc'
    have hfu : (c.threads u).flight = some ch' := by rw [hpc']; rfl
    exact absurd (hown.owned.unique hfu hf) hu
  · refine forall_after (P := fun _ (l : MgrPc ι υ) => ∀ ch, l ≠ .creating ch) (by simp) ?_
    intro u hu ch' hpc'
    have hfu : (c.threads u).flight = some ch' := by rw [hpc']; rfl
    exact hu (hown.owned.unique hfu hf)

end Keeps

def StageInv (o : Nat) (i : ι) (t : τ) (c : MgrConfig ι υ τ)
    (log : MgrLog ι υ τ) : SaveStage υ → Prop
  | .none => True
  | .changed v => Item c.shared o i v
  | .calling v => Item c.shared o i v ∧ (∀ ch d, c.threads t = .storing o ch d → d i = v) ∧
      ∀ ch, c.threads t = .stored o ch → Keeps i v c log
  | .saved v => Keeps i v c log

def steady : MgrEvent ι υ τ → Bool
  | .called _ _ => false
  | .stored _ _ => false
  | .changed _ _ _ => false
  | .erased => false
  | _ => true

theorem steady_of_ofCache (h : e.ofCache = true) : steady e = true := by
  cases e <;> first | rfl | cases h

theorem not_resets_of_steady (h : steady e = true) (i : ι) : ¬ Resets i e := by
  cases e <;> first | exact id | cases h

theorem next_of_steady [DecidableEq ι] [DecidableEq τ] (h : steady e = true) (o : Nat) (i : ι)
    (t : τ) (s : SaveStage υ) : s.next o i t e = s := by
  cases e <;> first | (cases s <;> rfl) | cases h

section Stage

variable [DecidableEq ι] [DecidableEq τ] {c : MgrConfig ι υ τ}
  {log es : MgrLog ι υ τ} {t u : τ} {m' : IndexManager ι υ} {pc' : MgrPc ι υ}
  {o : Nat} {i : ι} {s : SaveStage υ} {x : MgrChoice ι υ} (h : StageInv o i t c log s)

include h

omit [DecidableEq ι] in
theorem StageInv.keep (hitem : ∀ v, Item c.shared o i v → Item m' o i v)
    (hkeeps : ∀ v, Keeps i v c log → Keeps i v (c.after u m' pc') (log ++ es))
    (hpc : ∀ v, Item c.shared o i v → ∀ ch d, pc' = .storing o ch d → d i = v)
    (hst : ∀ ch, u = t → pc' ≠ .stored o ch) :
    StageInv o i t (c.after u m' pc') (log ++ es) s := by
  cases s with
  | none => trivial
  | changed v => exact hitem v h
  | saved v => exact hkeeps v h
  | calling v =>
    obtain ⟨ho, hstoring, hstored⟩ := h
    rw [StageInv]
    by_cases hu : t = u
    · subst hu
      rw [threads_after_self]
      exact ⟨hitem v ho, hpc v ho, fun ch heq => absurd heq (hst ch rfl)⟩
    · rw [threads_after_of_ne c hu]
      exact ⟨hitem v ho, hstoring, fun ch heq => hkeeps v (hstored ch heq)⟩

variable (hok : inStep c log u x = true)

include hok

theorem StageInv.steady
    (hs : step u x c.shared (c.threads u) = some (m', pc', es)) (he : ∀ e ∈ es, steady e = true)
    (hitem : ∀ v, Item c.shared o i v → Item m' o i v)
    (hpc : ∀ v, Item c.shared o i v → ∀ ch d, pc' = .storing o ch d → d i = v)
    (hst : ∀ ch, u = t → pc' ≠ .stored o ch) :
    StageInv o i t (c.after u m' pc') (log ++ es) (es.foldl (SaveStage.next o i t) s) := by
  rw [foldl_of_fixed fun e h' => next_of_steady (he e h') o i t s]
  refine h.keep hitem (fun v hk => keeps_step hk hok hs ?_) hpc hst
  exact fun e h' => not_resets_of_steady (he e h') i

theorem stage_call {call : MgrCall}
    (hs : step u x c.shared (c.threads u) = some (c.shared, .entered call, [.called u call])) :
    StageInv o i t (c.after u c.shared (.entered call)) (log ++ [.called u call])
      (s.next o i t (.called u call)) := by
  have hsame : StageInv o i t (c.after u c.shared (.entered call)) (log ++ [.called u call]) s :=
    h.keep (fun v => id) (fun v hk => keeps_step hk hok hs (by simp [Resets])) (by simp) (by simp)
  cases s with
  | changed v =>
    rw [SaveStage.next]
    split
    · next heq =>
      obtain ⟨rfl, rfl⟩ := heq
      exact ⟨hsame, by simp, by simp⟩
    · exact hsame
  | _ => exact hsame

theorem stage_changed {o' : Nat} {i' : ι} {v' : υ} (ho : o' < c.shared.objects.length)
    (hs : step u x c.shared (c.threads u) =
      some (c.shared.change o' i' v', .idle, [.changed o' i' v'])) :
    StageInv o i t (c.after u (c.shared.change o' i' v') .idle) (log ++ [.changed o' i' v'])
      (s.next o i t (.changed o' i' v')) := by
  have hnext : s.next o i t (.changed o' i' v') =
      if i' = i then (if o' = o then .changed v' else .none) else s := by
    cases s <;> rfl
  rw [hnext]
  split
  · next hi =>
    subst hi
    split
    · next heq =>
      subst heq
      exact item_change_self ho
    · trivial
  · next hi =>
    refine h.keep (fun v => item_change_other hi) (fun v hk => keeps_step hk hok hs ?_) (by simp)
      (by simp)
    simpa [Resets] using hi

theorem stage_wrote {o' ch : Nat} {d : ι → υ} (hown : CacheInv c log)
    (hpc : c.threads u = .storing o' ch d)
    (hs : step u x c.shared (c.threads u) =
      some ({ c.shared with store := some d }, .stored o' ch, [.wrote o' d])) :
    StageInv o i t (c.after u { c.shared with store := some d } (.stored o' ch))
      (log ++ [.wrote o' d]) s := by
  have hkeeps : ∀ v, Keeps i v c log → Keeps i v _ _ := fun v hk =>
    keeps_step hk hok hs (by simp [Resets])
  cases s with
  | none => trivial
  | changed v => exact h
  | saved v => exact hkeeps v h
  | calling v =>
    obtain ⟨ho, hstoring, hstored⟩ := h
    by_cases hu : t = u
    · subst hu
      refine ⟨ho, by simp, ?_⟩
      intro ch' heq
      rw [threads_after_self] at heq
      cases heq
      exact keeps_of_write hown hpc (hstoring ch d hpc) ho
    · refine ⟨ho, ?_, ?_⟩
      · rw [threads_after_of_ne c hu]
        exact hstoring
      · intro ch' heq
        rw [threads_after_of_ne c hu] at heq
        exact hkeeps v (hstored ch' heq)

theorem stage_stored {o' ch : Nat} (hpc : c.threads u = .stored o' ch)
    (hobj : m'.objects = c.shared.objects)
    (hs : step u x c.shared (c.threads u) = some (m', .idle, [.closed u ch, .stored u o'])) :
    StageInv o i t (c.after u m' .idle) (log ++ [.closed u ch, .stored u o'])
      (s.next o i t (.stored u o')) := by
  have hkeeps : ∀ v, Keeps i v c log → Keeps i v _ _ := fun v hk =>
    keeps_step hk hok hs (by simp [Resets])
  have hsame : StageInv o i t (c.after u m' .idle) (log ++ [.closed u ch, .stored u o']) s :=
    h.keep (fun v => item_of_objects hobj) hkeeps (by simp) (by simp)
  cases s with
  | calling v =>
    rw [SaveStage.next]
    split
    · next heq =>
      obtain ⟨rfl, rfl⟩ := heq
      exact hkeeps v (h.2.2 ch hpc)
    · exact hsame
  | _ => exact hsame

theorem stage_step (hown : CacheInv c log)
    (hs : step u x c.shared (c.threads u) = some (m', pc', es)) :
    StageInv o i t (c.after u m' pc') (log ++ es) (es.foldl (SaveStage.next o i t) s) := by
  have hs' := hs
  generalize hpc : c.threads u = pc at hs'
  cases step_metadata hs' with
  | move hst hobj hp he =>
    refine h.steady hok hs (fun e h' => steady_of_ofCache (he e h'))
      (fun v => item_of_objects hobj) ?_ ?_
    · rintro v - ch d rfl
      cases hp
    · rintro ch - rfl
      cases hp
  | call => exact stage_call h hok hs
  | @enter call hr hc =>
    refine h.steady hok hs (by simp [steady]) (fun v => id) ?_ ?_ <;>
      cases call <;> simp [MgrCall.work]
  | made => exact h.steady hok hs (by simp) (fun v => item_alloc) (by simp) (by simp)
  | read hd hp =>
    refine h.steady hok hs (by simp [steady]) (fun v => item_alloc) ?_ ?_
    · rintro v - ch d rfl
      cases hp
    · rintro ch - rfl
      cases hp
  | changed ho => exact stage_changed h hok ho hs
  | missing hd | absent hd => exact h.steady hok hs (by simp) (fun v => id) (by simp) (by simp)
  | created => exact h.steady hok hs (by simp [steady]) (fun v => item_alloc) (by simp) (by simp)
  | @marshalled o' ch d hd =>
    refine h.steady hok hs (by simp) (fun v => id) ?_ (by simp)
    rintro v ⟨d', hd', hv⟩ ch' d'' heq
    cases heq
    cases hd.symm.trans hd'
    exact hv
  | @wrote o' ch d =>
    rw [foldl_of_fixed fun e h' => next_of_steady (by simp_all [steady]) o i t s]
    exact stage_wrote h hok hown hpc hs
  | erased =>
    have hnext : s.next o i t .erased = .none := by cases s <;> rfl
    rw [foldl_cons, foldl_nil, hnext]
    trivial
  | @stored o' ch _ hst hobj =>
    rw [foldl_cons, next_of_steady rfl]
    exact stage_stored h hok hpc hobj hs
  | deleted hst hobj =>
    exact h.steady hok hs (by simp [steady]) (fun v => item_of_objects hobj) (by simp) (by simp)

end Stage

end UpdatesLemmas

open UpdatesLemmas in
/-- In every run in which only objects in step with the metadata store are stored, a change
that has been stored is in the entry until a later operation changes the item or removes
the index. -/
theorem no_update_lost [DecidableEq ι] [DecidableEq τ] (d : Option (ι → υ))
    {c : MgrConfig ι υ τ} {log : MgrLog ι υ τ} (h : Reach step inStep (start d) c log)
    (o : Nat) (i : ι) (t : τ) {v : υ} (hsaved : saveStage o i t log = .saved v) :
    ∃ d, c.shared.store = some d ∧ d i = v := by
  have hinv : CacheInv c log ∧ StageInv o i t c log (saveStage o i t log) := by
    refine reach_invariant
      (I := fun c log => CacheInv c log ∧ StageInv o i t c log (saveStage o i t log)) ?_ ?_ h
    · exact ⟨cache_start d, trivial⟩
    · rintro c log u x m' pc' es ⟨hown, hinv⟩ hok hs
      refine ⟨cache_step hown hs, ?_⟩
      rw [saveStage, foldl_append]
      exact stage_step hinv hok hown hs
  have hkeeps := hinv.2
  rw [hsaved] at hkeeps
  exact hkeeps.store

/-- Two objects of one name: the first is made, dropped from the cache, and the second is
made. The first thread then changes an item of the first object and stores it. -/
def twoObjects : List (Bool × MgrChoice Bool Nat) :=
  [(true, .call .get), (true, .proceed), (true, .proceed), (true, .proceed), (false, .dropCache),
    (false, .call .get), (false, .proceed), (false, .proceed), (false, .proceed),
    (true, .change 0 true 1), (true, .call (.store 0)), (true, .proceed), (true, .proceed),
    (true, .proceed), (true, .proceed)]

theorem no_update_lost_twoObjects :
    ∃ c log, run step inStep twoObjects
        (start (some fun _ => 0)) [] = some (c, log) ∧
      saveStage 0 true true log = .saved 1 ∧ ∃ d, c.shared.store = some d ∧ d true = 1 :=
  ⟨_, _, rfl, rfl, no_update_lost (some fun _ => 0) ⟨twoObjects, rfl⟩ 0 true true rfl⟩

/-- The other thread changes another item of the second object and stores that: the first
change is lost. -/
theorem update_lost :
    ∃ c log, run step free
        (twoObjects ++ [(false, .change 1 false 2), (false, .call (.store 1)), (false, .proceed),
          (false, .proceed), (false, .proceed), (false, .proceed)])
        (start (some fun _ => 0)) [] = some (c, log) ∧
      saveStage 0 true true log = .saved 1 ∧
      c.shared.store.map (fun d => (d true, d false)) = some (0, 2) :=
  ⟨_, _, rfl, rfl, rfl⟩

end SeaSearch
