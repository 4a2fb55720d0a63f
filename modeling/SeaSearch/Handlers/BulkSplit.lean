import SeaSearch.Handlers.BulkProxy

/-!
# Bulk requests on the nodes of the proxy

Each node runs `BulkWorker` on the lines that the proxy sends it.
-/

namespace SeaSearch

open List Versions

variable {ε τ α : Type}

namespace BulkProxyLemmas

inductive Scans (ε : Type) (target : String) (generated : DocID) :
    Scan τ → List (Line τ) → Actions τ → Scan τ → Prop
  | nil : Scans ε target generated st [] [] st
  | cons : scanLine (ε := ε) target generated line st = (acts, .ok st') →
      Scans ε target generated st' lines acts' st'' →
      Scans ε target generated st (line :: lines) (acts ++ acts') st''

variable {target : String} {generated : DocID} {st st' : Scan τ} {lines : List (Line τ)}
  {acts acts' : Actions τ}

theorem scanLines_of_scans (h : Scans ε target generated st lines acts st') (i : Nat) :
    scanLines (ε := ε) target (fun _ => generated) i lines st = (acts, none) := by
  induction h generalizing i with
  | nil => rfl
  | cons hline _ ih => simp only [scanLines, hline, ih (i + 1)]

theorem scans_of_scanLines
    (h : scanLines (ε := ε) target (fun _ => generated) i lines st = (acts, none)) :
    ∃ st', Scans ε target generated st lines acts st' := by
  induction lines generalizing st i acts with
  | nil =>
    cases h
    exact ⟨st, .nil⟩
  | cons line lines ih =>
    obtain ⟨acts₁, st', acts₂, hline, hlines, rfl⟩ := scanLines_cons h
    obtain ⟨st'', hscans⟩ := ih hlines
    exact ⟨st'', .cons hline hscans⟩

theorem Scans.append (h : Scans ε target generated st lines acts st')
    (h' : Scans ε target generated st' lines' acts' st'') :
    Scans ε target generated st (lines ++ lines') (acts ++ acts') st'' := by
  induction h with
  | nil => exact h'
  | cons hline _ ih =>
    rw [append_assoc]
    exact .cons hline (ih h')

theorem Scans.rest (h : Scans ε target generated st lines acts st')
    (hall : Scans ε target generated st (lines ++ lines') acts' st'') :
    ∃ rest, Scans ε target generated st' lines' rest st'' ∧ acts' = acts ++ rest := by
  induction h generalizing acts' with
  | nil => exact ⟨acts', hall, rfl⟩
  | cons hline _ ih =>
    cases hall with
    | cons hline' hlines =>
      rw [hline] at hline'
      obtain ⟨rfl, hst⟩ := Prod.mk.inj hline'
      cases hst
      obtain ⟨rest, hrest, rfl⟩ := ih hlines
      exact ⟨rest, hrest, (append_assoc _ _ _).symm⟩

def Sees (name : String) (st s : Scan τ) : Prop :=
  (st.nextLineIsData = true ∧ st.lastLineMetaData.index = .string name ∧ s = st) ∨
    ¬ (st.nextLineIsData = true ∧ st.lastLineMetaData.index = .string name) ∧
      s.nextLineIsData = false

@[simp] theorem linesOf_append (pushed pushed' : List (String × Line τ)) (name : String) :
    linesOf (pushed ++ pushed') name = linesOf pushed name ++ linesOf pushed' name :=
  filterMap_append

@[simp] theorem actionsOn_append (name : String) (acts acts' : Actions τ) :
    actionsOn name (acts ++ acts') = actionsOn name acts ++ actionsOn name acts' :=
  filterMap_append

theorem not_waiting (h : st.nextLineIsData = false) (P : Prop) :
    ¬ (st.nextLineIsData = true ∧ P) := by
  rw [h]
  exact fun hst => absurd hst.1 Bool.false_ne_true

theorem replay_step (hline : scanLine (ε := ε) target generated line st = (acts, .ok st'))
    (h : StepShape ε target generated line st acts indexes st') (hs : Sees name st s) :
    ∃ s', Scans ε target generated s (linesOf (indexes.map fun index => (index, line)) name)
        ((actionsOn name acts).map fun act => (name, act)) s' ∧ Sees name st' s' := by
  have hready : st.nextLineIsData = false → s.nextLineIsData = false := by
    intro hnext
    rcases hs with ⟨hwait, -⟩ | ⟨-, hs⟩
    · rw [hnext] at hwait
      cases hwait
    · exact hs
  cases h with
  | skip => exact ⟨s, .nil, hs⟩
  | quiet _ hnext hnext' => exact ⟨s, .nil, .inr ⟨not_waiting hnext' _, hready hnext⟩⟩
  | @data fields name' act _ _ hnext hindex hnext' =>
    by_cases hname : name' = name
    · subst hname
      rcases hs with ⟨-, -, rfl⟩ | ⟨hnot, -⟩
      · refine ⟨st', ?_, .inr ⟨not_waiting hnext' _, hnext'⟩⟩
        simpa [linesOf, actionsOn] using Scans.cons hline .nil
      · exact absurd ⟨hnext, hindex⟩ hnot
    · rcases hs with ⟨-, hindex', -⟩ | ⟨-, hs⟩
      · rw [hindex] at hindex'
        exact absurd (Value.string.inj hindex') hname
      · refine ⟨s, ?_, .inr ⟨not_waiting hnext' _, hs⟩⟩
        simpa [linesOf, actionsOn, hname] using Scans.nil
  | @action fields name' acts _ _ hnext _ _ hindex hacts hscan =>
    by_cases hname : name' = name
    · subst hname
      refine ⟨st', ?_, ?_⟩
      · rcases hacts with rfl | ⟨act, rfl⟩ <;>
          simpa [linesOf, actionsOn] using Scans.cons (hscan s (hready hnext)) .nil
      · cases hwait : st'.nextLineIsData with
        | true => exact .inl ⟨hwait, hindex hwait, rfl⟩
        | false => exact .inr ⟨not_waiting hwait _, hwait⟩
    · refine ⟨s, ?_, .inr ⟨fun h => hname ?_, hready hnext⟩⟩
      · rcases hacts with rfl | ⟨act, rfl⟩ <;> simpa [linesOf, actionsOn, hname] using Scans.nil
      · exact Value.string.inj ((hindex h.1).symm.trans h.2)

end BulkProxyLemmas

open BulkProxyLemmas in
theorem replay_lines (h : Tracked ε target generated st lines acts pushed st')
    (hs : Sees name st s) :
    ∃ s', Scans ε target generated s (linesOf pushed name)
        ((actionsOn name acts).map fun act => (name, act)) s' ∧ Sees name st' s' := by
  induction h generalizing s with
  | nil => exact ⟨s, .nil, hs⟩
  | cons hline hshape _ ih =>
    obtain ⟨s₁, hfirst, hs₁⟩ := replay_step hline hshape hs
    obtain ⟨s', hrest, hs'⟩ := ih hs₁
    refine ⟨s', ?_, hs'⟩
    rw [linesOf_append, actionsOn_append, map_append]
    exact hfirst.append hrest

namespace BulkProxyLemmas

variable {target : String} {generated : DocID} {lines : List (Line τ)} {st st' : Scan τ}
  {acts : Actions τ} {pushed : List (String × Line τ)} {name : String}
  {fields : JsonObject τ} {last : Option (JsonObject τ)}

section Pushed

variable (h : Tracked ε target generated st lines acts pushed st')

include h

theorem mem_pushed (hname : name ∈ pushed.map Prod.fst) :
    (∃ fields ∈ metaLines st.nextLineIsData lines, .string name ∈ actionIndexes target fields) ∨
      st.nextLineIsData = true ∧ st.lastLineMetaData.index = .string name := by
  induction h with
  | nil => cases hname
  | cons _ hshape _ ih =>
    rw [map_append, mem_append] at hname
    cases hshape with
    | skip hinvalid =>
      subst hinvalid
      exact ih (hname.resolve_left (by simp))
    | data hobject hnext hindex hnext' =>
      subst hobject
      rcases hname with hname | hname
      · obtain rfl : name = _ := by simpa using hname
        exact .inr ⟨hnext, hindex⟩
      · rw [hnext, metaLines]
        rw [hnext'] at ih
        exact .inl ((ih hname).resolve_right fun h => absurd h.1 Bool.false_ne_true)
    | quiet hobject hnext hnext' hexpects hindexes =>
      subst hobject
      rw [hnext, metaLines, hexpects]
      rw [hnext'] at ih
      obtain ⟨fields, hmem, hfields⟩ := (ih (hname.resolve_left (by simp))).resolve_right
        fun h => absurd h.1 Bool.false_ne_true
      exact .inl ⟨fields, mem_cons_of_mem _ hmem, hfields⟩
    | action hobject hnext hnext' hindexes hindex _ _ =>
      subst hobject
      rw [hnext, metaLines, ← hnext']
      left
      rcases hname with hname | hname
      · obtain rfl : name = _ := by simpa using hname
        exact ⟨_, mem_cons_self, by simp [hindexes]⟩
      · rcases ih hname with ⟨fields, hmem, hfields⟩ | ⟨hwait, hindex'⟩
        · exact ⟨fields, mem_cons_of_mem _ hmem, hfields⟩
        · exact ⟨_, mem_cons_self, by simp [hindexes, ← hindex hwait, hindex']⟩

theorem pushed_of_mem (hmem : fields ∈ metaLines st.nextLineIsData lines)
    (hname : .string name ∈ actionIndexes target fields) : name ∈ pushed.map Prod.fst := by
  induction h with
  | nil => cases hmem
  | cons _ hshape _ ih =>
    rw [map_append, mem_append]
    cases hshape with
    | skip hinvalid =>
      subst hinvalid
      exact .inr (ih hmem)
    | data hobject hnext _ hnext' =>
      subst hobject
      rw [hnext, metaLines, ← hnext'] at hmem
      exact .inr (ih hmem)
    | quiet hobject hnext hnext' hexpects hindexes =>
      subst hobject
      rw [hnext, metaLines, hexpects, ← hnext'] at hmem
      rcases mem_cons.1 hmem with rfl | hmem
      · rw [hindexes] at hname
        cases hname
      · exact .inr (ih hmem)
    | action hobject hnext hnext' hindexes _ _ _ =>
      subst hobject
      rw [hnext, metaLines, ← hnext'] at hmem
      rcases mem_cons.1 hmem with rfl | hmem
      · rw [hindexes, mem_singleton] at hname
        exact .inl (by simp [Value.string.inj hname])
      · exact .inr (ih hmem)

def Waits (target : String) (last : Option (JsonObject τ)) (st : Scan τ) : Prop :=
  match last with
  | none => st.nextLineIsData = false
  | some fields => st.nextLineIsData = true ∧
      actionIndexes target fields = [st.lastLineMetaData.index]

theorem waits_end (hlast : Waits target last st) : Waits target (danglingLine last lines) st' := by
  induction h generalizing last with
  | nil =>
    rw [danglingLine]
    exact hlast
  | cons _ hshape _ ih =>
    have hnone : ∀ {s : Scan τ}, Waits target last s → s.nextLineIsData = false → last = none := by
      intro s hs hnext
      cases last with
      | none => rfl
      | some fields =>
        rw [Waits, hnext] at hs
        cases hs.1
    cases hshape with
    | skip hinvalid =>
      subst hinvalid
      rw [danglingLine]
      exact ih hlast
    | data hobject hnext _ hnext' =>
      subst hobject
      cases last with
      | none =>
        rw [Waits, hnext] at hlast
        cases hlast
      | some fields =>
        rw [danglingLine]
        exact ih hnext'
    | quiet hobject hnext hnext' hexpects _ =>
      subst hobject
      rw [hnone hlast hnext, danglingLine, hexpects]
      exact ih hnext'
    | action hobject hnext hnext' hindexes hindex _ _ =>
      subst hobject
      rw [hnone hlast hnext, danglingLine]
      refine ih ?_
      split
      · next hexpects =>
        have hwait := hnext'.trans hexpects
        exact ⟨hwait, hindexes.trans (by rw [hindex hwait])⟩
      · next hexpects => exact hnext'.trans (Bool.eq_false_iff.2 hexpects)

omit h in
theorem dangling_mem (h : danglingLine last lines = some fields) :
    last = some fields ∨ fields ∈ metaLines last.isSome lines := by
  induction lines generalizing last with
  | nil => exact .inl (by rwa [danglingLine] at h)
  | cons line lines ih =>
    cases line with
    | invalid =>
      rw [danglingLine] at h
      exact ih h
    | object current =>
      cases last with
      | some waiting =>
        rw [danglingLine] at h
        exact .inr ((ih h).resolve_left (by simp))
      | none =>
        rw [danglingLine] at h
        right
        rw [Option.isSome_none, metaLines]
        cases hexpects : expectsData current with
        | true =>
          rw [hexpects] at h
          rcases ih h with hsome | hmem
          · cases hsome
            exact mem_cons_self
          · exact mem_cons_of_mem _ hmem
        | false =>
          rw [hexpects] at h
          exact mem_cons_of_mem _ ((ih h).resolve_left (by simp))

theorem pushed_object :
    ∀ p ∈ pushed, ∃ fields, p.2 = .object fields := by
  induction h with
  | nil => simp
  | cons _ hshape _ ih =>
    intro p hp
    rcases mem_append.1 hp with hp | hp
    · obtain ⟨index, hindex, rfl⟩ := mem_map.1 hp
      cases hshape with
      | skip => cases hindex
      | quiet => cases hindex
      | data hobject => exact ⟨_, hobject⟩
      | action hobject => exact ⟨_, hobject⟩
    · exact ih p hp

end Pushed

section Nodes

variable [DecidableEq α] {addrOf : String → Except ε α}

def goesTo (addrOf : String → Except ε α) (addr : α) (name : String) : Bool :=
  match addrOf name with
  | .ok a => a = addr
  | .error _ => false

theorem goesTo_iff {addr : α} {name : String} :
    goesTo addrOf addr name = true ↔ addrOf name = .ok addr := by
  unfold goesTo
  cases addrOf name <;> simp

theorem sendLines_spec {names : List String} {start sent : α → List (Line τ)}
    (h : sendLines addrOf pushed names start = .ok sent) :
    (∀ name ∈ names, ∃ addr, addrOf name = .ok addr) ∧ ∀ addr, sent addr = start addr ++
        (names.filter (goesTo addrOf addr)).flatMap (linesOf pushed) := by
  induction names generalizing start with
  | nil =>
    cases h
    simp
  | cons name names ih =>
    rw [sendLines] at h
    cases haddr : addrOf name with
    | error e =>
      rw [haddr] at h
      cases h
    | ok addr =>
      rw [haddr] at h
      obtain ⟨hall, hsent⟩ := ih h
      refine ⟨forall_mem_cons.2 ⟨⟨addr, haddr⟩, hall⟩, fun a => ?_⟩
      rw [hsent a, filter_cons]
      by_cases ha : addr = a
      · have hgoes : goesTo addrOf a name = true := goesTo_iff.2 (ha ▸ haddr)
        simp [hgoes, ha]
      · have hgoes : goesTo addrOf a name = false := by
          rw [← Bool.not_eq_true, goesTo_iff, haddr]
          exact fun h => ha (Except.ok.inj h)
        simp [hgoes, Function.update_of_ne (Ne.symm ha)]

theorem sendLines_ok {names : List String} (start : α → List (Line τ))
    (h : ∀ name ∈ names, ∃ addr, addrOf name = .ok addr) :
    ∃ sent, sendLines addrOf pushed names start = .ok sent := by
  induction names generalizing start with
  | nil => exact ⟨start, rfl⟩
  | cons name names ih =>
    obtain ⟨⟨addr, haddr⟩, hrest⟩ := forall_mem_cons.1 h
    rw [sendLines, haddr]
    exact ih _ hrest

end Nodes

theorem actionsOn_map (name name' : String) (acts : List (BulkAction τ)) :
    actionsOn name (acts.map fun act => (name', act)) = if name' = name then acts else [] := by
  by_cases h : name' = name
  · simp [actionsOn, h]
  · simp [actionsOn, h]

theorem sees_new (name : String) : Sees name ({} : Scan τ) {} := .inr ⟨nofun, rfl⟩

theorem scan_indexes (h : Tracked ε target generated {} lines acts pushed st') {names : List String}
    (hnodup : names.Nodup)
    (hend : ∀ name ∈ names,
      ¬ (st'.nextLineIsData = true ∧ st'.lastLineMetaData.index = .string name))
    {s : Scan τ} (hs : s.nextLineIsData = false) :
    ∃ acts' s', Scans ε target generated s (names.flatMap (linesOf pushed)) acts' s' ∧
      ∀ name, actionsOn name acts' = if name ∈ names then actionsOn name acts else [] := by
  induction names generalizing s with
  | nil => exact ⟨[], s, .nil, fun _ => rfl⟩
  | cons first names ih =>
    obtain ⟨hnot, hnodup⟩ := nodup_cons.1 hnodup
    obtain ⟨hfirst, hrest⟩ := forall_mem_cons.1 hend
    obtain ⟨s₁, hscan, hs₁⟩ := replay_lines h (.inr ⟨nofun, hs⟩ : Sees first {} s)
    obtain ⟨acts', s', hscan', hacts⟩ := ih hnodup hrest (hs₁.resolve_left fun h =>
      hfirst ⟨h.1, h.2.1⟩).2
    refine ⟨_, s', flatMap_cons ▸ hscan.append hscan', fun name => ?_⟩
    rw [actionsOn_append, actionsOn_map, hacts]
    by_cases hname : first = name
    · subst hname
      simp [hnot]
    · simp [hname, Ne.symm hname]

theorem scan_beyond (hwait : st.nextLineIsData = true)
    (hindex : st.lastLineMetaData.index = .string name)
    (h : Scans ε target generated st (.object fields :: lines) acts st') :
    actionsOn name acts ≠ [] := by
  cases h with
  | cons hline _ =>
    simp only [scanLine, hwait, if_true] at hline
    split at hline
    · cases hline
    · next act hdata =>
      cases hline
      obtain rfl : act.1 = name := dataLine_index hindex hdata
      simp [actionsOn]

end BulkProxyLemmas

open BulkProxyLemmas

section Main

variable [DecidableEq α] {target : String} {generated : DocID} {addrOf : String → Except ε α}
  {body : Body τ}

namespace BulkProxyLemmas

variable {acts : Actions τ} {st' : Scan τ} {pushed : List (String × Line τ)}
  {name : String}

theorem processBody_tracked (addrOf : String → Except ε α)
    (hone : OneActions target false body.lines) (hnames : NamesIndexes target false body.lines)
    (h : scanBody (ε := ε) target (fun _ => generated) body = (acts, none)) :
    ∃ pushed st', Tracked ε target generated {} body.lines acts pushed st' ∧
      (∀ name, name ∈ pushed.map Prod.fst ↔ Mentions target body name) ∧
      ∀ order, processBody target addrOf order body =
        sendLines addrOf pushed (order.keys (pushed.map Prod.fst)) fun _ => [] := by
  obtain ⟨hacts, herr⟩ := Prod.mk.inj h
  obtain ⟨hscan, hbroken⟩ : (scanLines (ε := ε) target (fun _ => generated) 0 body.lines {}).2 =
      none ∧ body.broken = false := by
    cases hlines : (scanLines (ε := ε) target (fun _ => generated) 0 body.lines {}).2 with
    | some e => simp [hlines] at herr
    | none => simpa [hlines] using herr
  obtain ⟨pushed, st', hpushed, htracked⟩ : ∃ pushed st',
      proxyLines (ε := ε) target body.lines {} = .ok pushed ∧
        Tracked ε target generated {} body.lines acts pushed st' :=
    tracked_of_scan ⟨rfl, nofun⟩ hone hnames (Prod.ext hacts hscan)
  refine ⟨pushed, st', htracked, fun name => ⟨fun hname => ?_, ?_⟩, fun order => ?_⟩
  · exact (mem_pushed htracked hname).resolve_right nofun
  · rintro ⟨fields, hfields, hname⟩
    exact pushed_of_mem htracked hfields hname
  · simp [processBody, hpushed, hbroken]

theorem scanBody_of_scans (h : Scans ε target generated {} sent acts st') :
    scanBody (ε := ε) target (fun _ => generated) ⟨sent, false⟩ = (acts, none) := by
  simp [scanBody, scanLines_of_scans h 0]

theorem scans_of_scanBody
    (h : scanBody (ε := ε) target (fun _ => generated) ⟨sent, false⟩ = (acts, none)) :
    ∃ st', Scans ε target generated {} sent acts st' := by
  obtain ⟨hacts, herr⟩ := Prod.mk.inj h
  refine scans_of_scanLines (i := 0) (Prod.ext hacts ?_)
  simpa using herr

omit [DecidableEq α] in
theorem node_actions (htracked : Tracked ε target generated {} body.lines acts pushed st')
    (hready : NodesReady target addrOf body) {names : List String} (hnodup : names.Nodup)
    (hnames : ∀ name ∈ names, Mentions target body name) (addr : α)
    (haddr : ∀ name ∈ names, addrOf name = .ok addr) :
    ∃ acts', scanBody (ε := ε) target (fun _ => generated)
        ⟨names.flatMap (linesOf pushed), false⟩ = (acts', none) ∧
      ∀ name, actionsOn name acts' = if name ∈ names then actionsOn name acts else [] := by
  by_cases hend : ∃ name ∈ names,
      st'.nextLineIsData = true ∧ st'.lastLineMetaData.index = .string name
  · -- a document is missing, so the index has the node alone
    obtain ⟨name, hname, hwait, hindex⟩ := hend
    have hlast : Waits target (danglingLine none body.lines) st' := waits_end htracked rfl
    cases hdangling : danglingLine none body.lines with
    | none =>
      rw [hdangling, Waits, hwait] at hlast
      cases hlast
    | some fields =>
      rw [hdangling, Waits, hindex] at hlast
      have halone : ∀ other ∈ names, other = name := fun other hother =>
        hready.alone fields name hdangling (by simp [hlast.2]) other (hnames other hother)
          ((haddr other hother).trans (haddr name hname).symm)
      obtain rfl : names = [name] := by
        refine perm_singleton.1 ((perm_ext_iff_of_nodup hnodup (by simp)).2 ?_)
        intro other
        rw [mem_singleton]
        exact ⟨halone other, fun h => h ▸ hname⟩
      obtain ⟨s', hscan, -⟩ := replay_lines htracked (sees_new name)
      refine ⟨_, scanBody_of_scans (by simpa using hscan), fun other => ?_⟩
      rw [actionsOn_map]
      by_cases hother : name = other
      · simp [hother]
      · simp [hother, Ne.symm hother]
  · push Not at hend
    obtain ⟨acts', s', hscan, hacts⟩ := scan_indexes htracked hnodup
      (fun name hname h => hend name hname h.1 h.2) (s := {}) rfl
    exact ⟨acts', scanBody_of_scans hscan, hacts⟩

def firstName (name : String) : Shuffle String where
  order l := if name ∈ l then name :: l.erase name else l
  perm l := by
    split
    · next h => exact (perm_cons_erase h).symm
    · exact .refl _

theorem not_beside {acts' : Actions τ}
    (htracked : Tracked ε target generated {} body.lines acts pushed st')
    (hwait : st'.nextLineIsData = true) (hindex : st'.lastLineMetaData.index = .string name)
    {rest : List (Line τ)} (hrest : rest ≠ [])
    (hobject : ∀ line ∈ rest, ∃ fields, line = .object fields)
    (h : scanBody (ε := ε) target (fun _ => generated) ⟨linesOf pushed name ++ rest, false⟩ =
      (acts', none)) : actionsOn name acts' ≠ actionsOn name acts := by
  obtain ⟨s, hscan, hs⟩ := replay_lines htracked (sees_new name)
  obtain ⟨-, -, rfl⟩ : st'.nextLineIsData = true ∧ st'.lastLineMetaData.index = .string name ∧
      s = st' := hs.resolve_right fun h => h.1 ⟨hwait, hindex⟩
  obtain ⟨s', hall⟩ := scans_of_scanBody h
  obtain ⟨extra, hextra, rfl⟩ := hscan.rest hall
  cases rest with
  | nil => exact absurd rfl hrest
  | cons line rest =>
    obtain ⟨fields, rfl⟩ := hobject line mem_cons_self
    have hmore := scan_beyond hwait hindex hextra
    rw [actionsOn_append, actionsOn_map, if_pos rfl]
    exact fun h => hmore (append_right_eq_self.1 h)

theorem mem_linesOf : line ∈ linesOf pushed name ↔ (name, line) ∈ pushed := by
  simp [linesOf]

theorem actionsOn_of_notMem (htracked : Tracked ε target generated {} body.lines acts pushed st')
    (h : name ∉ pushed.map Prod.fst) : actionsOn name acts = [] := by
  obtain ⟨s, hscan, -⟩ := replay_lines htracked (sees_new name)
  have hnone : linesOf pushed name = [] := by
    rw [eq_nil_iff_forall_not_mem]
    exact fun line hline => h (mem_map_of_mem (mem_linesOf.1 hline))
  rw [hnone] at hscan
  cases hacts : actionsOn name acts with
  | nil => rfl
  | cons act rest =>
    rw [hacts] at hscan
    cases hscan

theorem nodesReady (hone : OneActions target false body.lines)
    (h : SplitAgrees target generated addrOf body)
    (hacts : scanBody (ε := ε) target (fun _ => generated) body = (acts, none)) :
    NodesReady target addrOf body := by
  have hnames := (noPanic_iff hone ⟨id, .refl⟩).1 (h.noPanic ⟨id, .refl⟩)
  obtain ⟨pushed, st', htracked, hmem, hprocess⟩ := processBody_tracked addrOf hone hnames hacts
  refine ⟨fun name hname => ?_, fun fields name hdangling hfields other hother haddr => ?_⟩
  · obtain ⟨sent, hsent, -⟩ := h.sameActions acts hacts ⟨id, .refl⟩
    rw [hprocess] at hsent
    exact (sendLines_spec hsent).1 name (mem_dedup.2 ((hmem name).2 hname))
  · by_contra hne
    have hlast : Waits target (danglingLine none body.lines) st' := waits_end htracked rfl
    rw [hdangling, Waits] at hlast
    obtain ⟨hwait, hindexes⟩ := hlast
    obtain hindex : .string name = st'.lastLineMetaData.index := by simpa [hindexes] using hfields
    -- the lines of `name` are sent first
    obtain ⟨sent, hsent, hnodes⟩ := h.sameActions acts hacts (firstName name)
    rw [hprocess] at hsent
    obtain ⟨hall, hlines⟩ := sendLines_spec hsent
    have hin : name ∈ (pushed.map Prod.fst).dedup :=
      mem_dedup.2 (pushed_of_mem htracked ((dangling_mem hdangling).resolve_left nofun) hfields)
    have hkeys : (firstName name).keys (pushed.map Prod.fst) =
        name :: (pushed.map Prod.fst).dedup.erase name := if_pos hin
    obtain ⟨addr, hname⟩ := hall name (hkeys ▸ mem_cons_self)
    have hgoes : goesTo addrOf addr name = true := goesTo_iff.2 hname
    obtain ⟨acts', hacts', hsame⟩ := hnodes addr
    rw [hlines, hkeys, filter_cons, if_pos hgoes, nil_append, flatMap_cons] at hacts'
    refine not_beside htracked hwait hindex.symm ?_ ?_ hacts' ((hsame name).1 hname)
    · -- the node has lines of `other`
      obtain ⟨p, hp, hfst⟩ := mem_map.1 ((hmem other).2 hother)
      refine ne_nil_of_mem (a := p.2)
        (mem_flatMap.2 ⟨other, ?_, mem_linesOf.2 (hfst ▸ hp)⟩)
      refine mem_filter.2 ⟨(mem_erase_of_ne hne).2 (mem_dedup.2 ?_),
        goesTo_iff.2 (haddr.trans hname)⟩
      exact (hmem other).2 hother
    · intro line hline
      obtain ⟨index, -, hindex⟩ := mem_flatMap.1 hline
      exact pushed_object htracked _ (mem_linesOf.1 hindex)

end BulkProxyLemmas

/-- For a body whose metadata lines have at most one action: the proxy does not panic and the nodes
perform the actions of the body, if and only if every action before a format error names its
index, and, when `BulkWorker` reads the whole body, every index has a node, and a metadata
line without a document at the end is for an index that has its node alone. -/
theorem split_agrees_iff (hone : OneActions target false body.lines) :
    SplitAgrees target generated addrOf body ↔
      NamesIndexes target false body.lines ∧
        ((scanBody (ε := ε) target (fun _ => generated) body).2 = none →
          NodesReady target addrOf body) := by
  constructor
  · intro h
    exact ⟨(noPanic_iff hone ⟨id, .refl⟩).1 (h.noPanic ⟨id, .refl⟩),
      fun hnone => nodesReady hone h (Prod.ext rfl hnone)⟩
  · rintro ⟨hnames, hready⟩
    refine ⟨fun order => (noPanic_iff hone order).2 hnames, fun acts hacts order => ?_⟩
    have hnodes := hready (by rw [hacts])
    obtain ⟨pushed, st', htracked, hmem, hprocess⟩ := processBody_tracked addrOf hone hnames hacts
    have hkeys : ∀ name, name ∈ order.keys (pushed.map Prod.fst) ↔ Mentions target body name := by
      intro name
      rw [Shuffle.keys, (order.perm _).mem_iff, mem_dedup]
      exact hmem name
    obtain ⟨sent, hsent⟩ : ∃ sent,
        sendLines addrOf pushed (order.keys (pushed.map Prod.fst)) (fun _ => []) = .ok sent :=
      sendLines_ok _ fun name hname => hnodes.addressed name ((hkeys name).1 hname)
    refine ⟨sent, (hprocess order).trans hsent, fun addr => ?_⟩
    obtain ⟨-, hlines⟩ := sendLines_spec hsent
    obtain ⟨acts', hacts', hsame⟩ : ∃ acts', scanBody (ε := ε) target (fun _ => generated)
        ⟨((order.keys (pushed.map Prod.fst)).filter (goesTo addrOf addr)).flatMap (linesOf pushed),
          false⟩ = (acts', none) ∧ ∀ name, actionsOn name acts' =
        if name ∈ (order.keys (pushed.map Prod.fst)).filter (goesTo addrOf addr)
        then actionsOn name acts else [] := by
      refine node_actions htracked hnodes ?_ ?_ addr ?_
      · exact ((order.perm _).nodup_iff.2 (nodup_dedup _)).filter _
      · exact fun name hname => (hkeys name).1 (mem_filter.1 hname).1
      · exact fun name hname => goesTo_iff.1 (mem_filter.1 hname).2
    refine ⟨acts', by rw [hlines, nil_append, hacts'], fun name => ⟨fun haddr => ?_, ?_⟩⟩
    · rw [hsame]
      split
      · rfl
      · next hnot =>
        have hnone : name ∉ pushed.map Prod.fst := fun h =>
          hnot (mem_filter.2 ⟨(hkeys name).2 ((hmem name).1 h), goesTo_iff.2 haddr⟩)
        exact (actionsOn_of_notMem htracked hnone).symm
    · intro haddr
      rw [hsame, if_neg fun h => haddr (goesTo_iff.1 (mem_filter.1 h).2)]

end Main

/-- Documents for two indexes on two nodes, and a delete with another field beside it. -/
theorem split_agrees_named :
    let body : Body Unit :=
      ⟨[.object [("index", .object [("_index", .string "books")])], .object [],
        .object [("create", .object [("_index", .string "films")])], .object [],
        .object [("other", .object []),
          ("delete", .object [("_index", .string "books"), ("_id", .string "a")])]], false⟩
    SplitAgrees "" "1" (fun name => (.ok (name == "books") : Except Unit Bool)) body := by
  intro body
  have hlines : readLines "" false body.lines =
      [[("index", .object [("_index", .string "books")])],
        [("create", .object [("_index", .string "films")])],
        [("other", .object []),
          ("delete", .object [("_index", .string "books"), ("_id", .string "a")])]] := rfl
  have hone : OneActions "" false body.lines := by
    rw [OneActions, hlines]
    simp [OneAction, NoAction]
  refine (split_agrees_iff hone).2 ⟨?_, fun _ => ⟨fun _ _ => ⟨_, rfl⟩, fun _ _ h => (by cases h)⟩⟩
  rw [NamesIndexes, hlines]
  simp only [forall_mem_cons]
  exact ⟨forall_mem_singleton.2 ⟨"books", rfl⟩, forall_mem_singleton.2 ⟨"films", rfl⟩,
    forall_mem_singleton.2 ⟨"books", rfl⟩, forall_mem_nil _⟩

/-- A document without an index in its metadata line, for the target "books": `BulkWorker`
performs the action, and the proxy panics. -/
theorem missing_index_panics :
    let body : Body Unit := ⟨[.object [("index", .object [])], .object []], false⟩
    scanBody (ε := Unit) "books" (fun _ => "1") body =
        ([("books", .data "1" [] false (some "index"))], none) ∧
      (∀ order, processBody "books" (fun _ => (.ok () : Except Unit Unit)) order body =
        .error .panic) ∧
      ¬ SplitAgrees "books" "1" (fun _ => (.ok () : Except Unit Unit)) body := by
  intro body
  have hpanic : ∀ order, processBody "books" (fun _ => (.ok () : Except Unit Unit)) order body =
      .error .panic := fun _ => rfl
  exact ⟨rfl, hpanic, fun h => h.noPanic ⟨id, .refl⟩ (hpanic _)⟩

end SeaSearch
