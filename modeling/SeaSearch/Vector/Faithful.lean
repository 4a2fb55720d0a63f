import SeaSearch.Vector.Rows

/-!
# An HNSW segment is a faithful map

Everything the segment has is a point in the history of the rows that were ever written: the doc
rows, the index in the file and the installed index are the documents at some log id each, and the
cache and `docTS` have the rows after `hnswLogID`.
-/

namespace SeaSearch

open List Versions SegmentLemmas

variable {α : Type} {d : Nat}

def HNSWSystem.rows (s : HNSWSystem α d) : LogRows α d := s.written ++ s.pending

structure LogInv (s : HNSWSystem α d) (L : Nat) : Prop where
  increasing : Increasing HNSWLogRow.id s.rows
  bound : ∀ row ∈ s.written, row.id ≤ L
  beyond : ∀ row ∈ s.pending, L < row.id ∧ row.id ≤ L + s.pending.length
  latest : readLogID s.store.latestLogID = L + s.pending.length
  replayed : ∀ docID, afterRows s.written docID = replay s.calls docID
  replaying : ∀ docID, afterRows s.rows docID = replay (s.calls ++ s.pendingCall) docID

/-- The index has the documents at the log id `n`. -/
structure IndexAt (rows : LogRows α d) (index : DocRows α d) (n : Nat) :
    Prop where
  nodup : (index.map HNSWDocRow.id).Nodup
  vector : ∀ docID, docVector index docID = versionAt rows n docID

structure SegmentStoreInv (rows : LogRows α d) (st : SegmentStore α d) (L m b : Nat) : Prop where
  logs : st.logs = after HNSWLogRow.id (readLogID st.hnswLogID) rows
  hnsw_le : readLogID st.hnswLogID ≤ b
  built_le : b ≤ m
  applied_le : m ≤ L
  docs : ∀ docID, docVector st.docs docID = versionAt rows m docID
  docs_nodup : (st.docs.map HNSWDocRow.id).Nodup
  file : IndexAt rows (st.file.getD []) b

def WorkerInv (rows : LogRows α d) (docs : DocRows α d)
    (hnsw hnsw' L m b : Nat) : HNSWWorker α d → Prop
  | .idle => True
  | .applying read n =>
    upTo HNSWLogRow.id n read = upTo HNSWLogRow.id n (after HNSWLogRow.id hnsw rows) ∧
      m ≤ n ∧ n ≤ L
  | .applied n => n = m
  | .building n read => n = m ∧ read = docs
  | .built n index => n = m ∧ b = m ∧ IndexAt rows index m
  | .cleaning n index read => n = m ∧ b = m ∧ IndexAt rows index m ∧
    upTo HNSWLogRow.id m read = upTo HNSWLogRow.id m (after HNSWLogRow.id hnsw rows)
  | .cleaned n index docs => n = m ∧ b = m ∧ IndexAt rows index m ∧ hnsw = m ∧
    ∀ docID, docID ∉ docs → last HNSWLogRow.docID
      (upTo HNSWLogRow.id m (after HNSWLogRow.id hnsw' rows)) docID = none

structure LoadedInv (s : HNSWSystem α d) (L : Nat) : Prop where
  latest : s.memory.latestLogID = L
  hnsw_le : s.memory.hnswLogID ≤ readLogID s.store.hnswLogID
  hnsw_eq : ¬ s.worker.InClean → s.memory.hnswLogID = readLogID s.store.hnswLogID
  entry : ∀ docID, s.memory.entry docID =
    entryOf (after HNSWLogRow.id s.memory.hnswLogID s.written) docID
  index : ∃ i, s.memory.hnswLogID ≤ i ∧ i ≤ L ∧ IndexAt s.rows (s.memory.index.getD []) i

structure UnloadedInv (s : HNSWSystem α d) : Prop where
  worker : s.worker = .idle
  batching : s.batching = none
  index : s.memory.index = none
  entry : ∀ docID, s.memory.entry docID = (none, none) ∨
    s.memory.entry docID = entryOf s.store.logs docID

structure SegmentInv (s : HNSWSystem α d) (L m b : Nat) : Prop where
  log : LogInv s L
  store : SegmentStoreInv s.rows s.store L m b
  worker : WorkerInv s.rows s.store.docs (readLogID s.store.hnswLogID) s.memory.hnswLogID L m b
    s.worker
  loaded : s.memory.loaded = true → LoadedInv s L
  unloaded : s.memory.loaded = false → UnloadedInv s

namespace SegmentLemmas

section Append

variable {rows new : LogRows α d} {L n : Nat} {docs : DocRows α d}

section Later

variable (hnew : ∀ row ∈ new, L < row.id) (hn : n ≤ L)

include hnew hn

theorem upTo_append_later :
    upTo HNSWLogRow.id n (rows ++ new) = upTo HNSWLogRow.id n rows := by
  rw [upTo_append, upTo_eq_nil fun row hrow => lt_of_le_of_lt hn (hnew row hrow), append_nil]

theorem after_append_later :
    after HNSWLogRow.id n (rows ++ new) = after HNSWLogRow.id n rows ++ new := by
  rw [after_append, after_eq_self fun row hrow => lt_of_le_of_lt hn (hnew row hrow)]

theorem versionAt_append_later (docID : Int) :
    versionAt (rows ++ new) n docID = versionAt rows n docID := by
  rw [versionAt, upTo_append_later hnew hn, versionAt]

omit hnew hn in
theorem IndexAt.append (h : IndexAt rows index n) (hnew : ∀ row ∈ new, L < row.id) (hn : n ≤ L) :
    IndexAt (rows ++ new) index n where
  nodup := h.nodup
  vector docID := by
    rw [versionAt_append_later hnew hn]
    exact h.vector docID

theorem upTo_after_append {hnsw : Nat} :
    upTo HNSWLogRow.id n (after HNSWLogRow.id hnsw (rows ++ new)) =
      upTo HNSWLogRow.id n (after HNSWLogRow.id hnsw rows) := by
  rw [← after_upTo_comm, upTo_append_later hnew hn, after_upTo_comm]

end Later

theorem WorkerInv.append {hnsw hnsw' m b : Nat} {w : HNSWWorker α d}
    (h : WorkerInv rows docs hnsw hnsw' L m b w) (hnew : ∀ row ∈ new, L < row.id) (hm : m ≤ L) :
    WorkerInv (rows ++ new) docs hnsw hnsw' L m b w := by
  cases w with
  | idle => trivial
  | applying read n =>
    obtain ⟨hread, hmn, hnL⟩ := h
    exact ⟨hread.trans (upTo_after_append hnew hnL).symm, hmn, hnL⟩
  | applied n | building n read => exact h
  | built n index =>
    obtain ⟨hn, hb, hindex⟩ := h
    exact ⟨hn, hb, IndexAt.append hindex hnew hm⟩
  | cleaning n index read =>
    obtain ⟨hn, hb, hindex, hread⟩ := h
    exact ⟨hn, hb, IndexAt.append hindex hnew hm, hread.trans (upTo_after_append hnew hm).symm⟩
  | cleaned n index docs =>
    obtain ⟨hn, hb, hindex, hhnsw, hdocs⟩ := h
    refine ⟨hn, hb, IndexAt.append hindex hnew hm, hhnsw, fun docID hdoc => ?_⟩
    rw [upTo_after_append hnew hm]
    exact hdocs docID hdoc

theorem WorkerInv.mono {hnsw hnsw' m b L' : Nat} {w : HNSWWorker α d}
    (h : WorkerInv rows docs hnsw hnsw' L m b w) (hL : L ≤ L') :
    WorkerInv rows docs hnsw hnsw' L' m b w := by
  cases w with
  | applying read n =>
    obtain ⟨hread, hmn, hnL⟩ := h
    exact ⟨hread, hmn, hnL.trans hL⟩
  | _ => exact h

end Append

def marks (mem : SegmentMemory α d) : Bool × Nat × Nat × Option (DocRows α d) :=
  (mem.loaded, mem.hnswLogID, mem.latestLogID, mem.index)

theorem marks_foldl (hop : ∀ mem docID, marks (op mem docID) = marks mem) (docIDs : List Int)
    (mem : SegmentMemory α d) : marks (docIDs.foldl op mem) = marks mem := by
  induction docIDs generalizing mem with
  | nil => rfl
  | cons docID docIDs ih => rw [foldl_cons, ih, hop]

theorem marks_install (mem : SegmentMemory α d) (o : ReadOrder α d) (n : Nat)
    (index : DocRows α d) (docs : List Int) :
    (mem.install o n index docs).loaded = mem.loaded ∧ (mem.install o n index docs).hnswLogID = n ∧
      (mem.install o n index docs).latestLogID = mem.latestLogID := by
  have hclean : ∀ (mem : SegmentMemory α d) docID, marks (mem.cleanDoc n docID) = marks mem := by
    intro mem docID
    rw [SegmentMemory.cleanDoc]
    split
    · rfl
    · rfl
  have hmarks := marks_foldl hclean (o.keys.keys docs) { mem with hnswLogID := n }
  simp only [marks, Prod.mk.injEq] at hmarks
  exact ⟨hmarks.1, hmarks.2.1, hmarks.2.2.1⟩

theorem marks_loadLogs (mem : SegmentMemory α d) (o : ReadOrder α d) (st : SegmentStore α d) :
    marks (mem.loadLogs o st) = marks mem := by
  refine marks_foldl (fun mem docID => ?_) _ mem
  rw [SegmentMemory.loadDoc]
  split
  · rfl
  · rfl

theorem loadHNSW_eq {mem : SegmentMemory α d} (hindex : mem.index = none) (st : SegmentStore α d) :
    mem.loadHNSW st = { mem with index := st.file } := by
  rw [SegmentMemory.loadHNSW]
  cases st.file with
  | none =>
    cases mem
    cases hindex
    rfl
  | some keys => rfl

end SegmentLemmas

namespace SegmentInv

variable {s : HNSWSystem α d} {L m b : Nat} {n : Nat} {st : SegmentStore α d}
  {changes : List (Int × Option (List.Vector α d))} {rows read : LogRows α d}
  {index : DocRows α d}

variable (h : SegmentInv s L m b)

include h

theorem increasing_written : Increasing HNSWLogRow.id s.written :=
  (pairwise_append.1 h.log.increasing).1

theorem later : ∀ row ∈ s.pending, L < row.id :=
  fun row hrow => (h.log.beyond row hrow).1

theorem versionAt_eq {n : Nat} {docID : Int} (hle : s.memory.hnswLogID ≤ n) (hn : n ≤ L)
    (hnone : last HNSWLogRow.docID
      (after HNSWLogRow.id s.memory.hnswLogID s.written) docID = none) :
    versionAt s.rows n docID = replay s.calls docID := by
  rw [HNSWSystem.rows, versionAt_append_later h.later hn, ← h.log.replayed]
  exact current_upTo_of_after h.increasing_written hle hnone

omit h in
theorem last_of_docTS (hl : LoadedInv s L) (hts : s.memory.docTS docID = none) :
    last HNSWLogRow.docID (after HNSWLogRow.id s.memory.hnswLogID s.written) docID = none := by
  cases hlast : last HNSWLogRow.docID (after HNSWLogRow.id s.memory.hnswLogID s.written) docID with
  | none => rfl
  | some row =>
    have hentry := congrArg Prod.fst (hl.entry docID)
    rw [entryOf, current_of_last_some hlast] at hentry
    cases hts.symm.trans hentry

theorem hnsw_le_applied (hl : LoadedInv s L) :
    s.memory.hnswLogID ≤ m :=
  hl.hnsw_le.trans (h.store.hnsw_le.trans h.store.built_le)

theorem faithful : Faithful s where
  content hloaded docID := by
    have hl := h.loaded hloaded
    rw [HNSWSystem.content]
    cases hts : s.memory.docTS docID with
    | none =>
      have hlast := last_of_docTS hl hts
      exact (h.store.docs docID).trans
        (h.versionAt_eq (h.hnsw_le_applied hl) h.store.applied_le hlast)
    | some ts =>
      have hentry := hl.entry docID
      rw [entryOf] at hentry
      have hafter := h.increasing_written.upTo_append_after (n := s.memory.hnswLogID)
      rw [← h.log.replayed, afterRows, ← hafter, current_append]
      cases hlast : last HNSWLogRow.docID
          (after HNSWLogRow.id s.memory.hnswLogID s.written) docID with
      | none =>
        rw [current_of_last hlast] at hentry
        cases hts.symm.trans (congrArg Prod.fst hentry)
      | some row =>
        rw [current_of_last_some hlast] at hentry ⊢
        exact congrArg Prod.snd hentry
  indexed hloaded docID hts := by
    have hl := h.loaded hloaded
    have hlast := last_of_docTS hl hts
    obtain ⟨i, hle, hi, hindex⟩ := hl.index
    rw [hindex.vector docID, h.versionAt_eq hle hi hlast,
      ← h.versionAt_eq (h.hnsw_le_applied hl) h.store.applied_le hlast, ← h.store.docs docID]
    rfl
  logs hloaded hclean row hrow hlt := by
    rw [(h.loaded hloaded).hnsw_eq hclean] at hlt
    rw [h.store.logs]
    exact mem_after.2 ⟨hrow, hlt⟩
  stored row hrow hlt := by
    rw [h.store.logs]
    exact mem_after.2 ⟨hrow, hlt⟩
  fresh := h.log.increasing

omit h in
theorem pending_of_none (h : s.batching = none) : s.pending = [] := by
  rw [HNSWSystem.pending, h]
  rfl

omit h in
theorem rows_of_none (h : s.batching = none) : s.rows = s.written := by
  rw [HNSWSystem.rows, pending_of_none h, append_nil]

omit h in
theorem log_batch (h : LogInv s L) (hb : s.batching = none) (hc : call.changes d = some changes)
    (hst : readLogID st.latestLogID = L + (logRows L changes).length) :
    LogInv { s with store := st, batching := some ⟨call, logRows L changes⟩ } L where
  increasing := by
    have hwritten := rows_of_none hb ▸ h.increasing
    refine pairwise_append.2 ⟨hwritten, increasing_logRows L changes, ?_⟩
    exact fun row hrow new hnew => lt_of_le_of_lt (h.bound row hrow) (mem_logRows hnew).1
  bound := h.bound
  beyond := fun row hrow => mem_logRows hrow
  latest := hst
  replayed := h.replayed
  replaying docID := by
    have hreplay : replay (s.calls ++ [call]) docID = replayCall (replay s.calls) call docID := by
      rw [replay, foldl_append]
      rfl
    refine Eq.trans ?_ hreplay.symm
    rw [replayCall_eq hc L, ← h.replayed]
    exact current_append

omit h in
theorem store_batch (h : SegmentStoreInv rows st L m b) (hrows : ∀ row ∈ rows, row.id ≤ L)
    (hlater : ∀ row ∈ new, L < row.id) (hnew : Increasing HNSWLogRow.id new) (n : Nat) :
    SegmentStoreInv (rows ++ new) (st.appendLogs new n) L m b where
  logs := by
    have hhnsw := h.hnsw_le.trans (h.built_le.trans h.applied_le)
    have hnodup : (new.map HNSWLogRow.id).Nodup :=
      pairwise_map.2 (hnew.imp fun hlt => ne_of_lt hlt)
    rw [SegmentStore.appendLogs, after_append_later hlater hhnsw, foldl_put hnodup, h.logs]
    intro row hrow old hold heq
    have hle := hrows old (mem_after.1 (h.logs ▸ hold)).1
    exact Nat.not_le_of_lt (hlater row hrow) (heq ▸ hle)
  hnsw_le := h.hnsw_le
  built_le := h.built_le
  applied_le := h.applied_le
  docs docID := by
    rw [versionAt_append_later hlater h.applied_le]
    exact h.docs docID
  docs_nodup := h.docs_nodup
  file := IndexAt.append h.file hlater (h.built_le.trans h.applied_le)

theorem batch (hl : s.memory.loaded = true) (hb : s.batching = none) {call : BatchCall α}
    (hc : call.changes d = some changes) :
    SegmentInv { s with
      store := s.store.appendLogs (logRows L changes) (L + (logRows L changes).length)
      batching := some ⟨call, logRows L changes⟩ } L m b := by
  have hmem := h.loaded hl
  have hrows := rows_of_none hb
  have hlater : ∀ row ∈ logRows L changes, L < row.id := fun row hrow => (mem_logRows hrow).1
  refine ⟨log_batch h.log hb hc rfl, ?_, ?_, fun _ => ⟨hmem.latest, hmem.hnsw_le, hmem.hnsw_eq,
    hmem.entry, ?_⟩, fun hnot => nomatch hl.symm.trans hnot⟩
  · exact store_batch (hrows ▸ h.store) h.log.bound hlater (increasing_logRows L changes) _
  · exact WorkerInv.append (hrows ▸ h.worker) hlater h.store.applied_le
  · obtain ⟨i, hle, hi, hindex⟩ := hmem.index
    exact ⟨i, hle, hi, IndexAt.append (hrows ▸ hindex) hlater hi⟩

omit h in
theorem log_settle (h : LogInv s L) {memory : SegmentMemory α d} {worker : HNSWWorker α d} :
    LogInv { store := s.store, memory := memory, worker := worker
             calls := s.calls ++ s.pendingCall, written := s.rows } (L + s.pending.length) where
  increasing := by
    rw [rows_of_none rfl]
    exact h.increasing
  bound row hrow := by
    rcases mem_append.1 hrow with hrow | hrow
    · exact (h.bound row hrow).trans (Nat.le_add_right _ _)
    · exact (h.beyond row hrow).2
  beyond row hrow := absurd hrow not_mem_nil
  latest := h.latest
  replayed := h.replaying
  replaying docID := by
    rw [rows_of_none rfl]
    exact (h.replaying docID).trans (congrArg (replay · docID) (append_nil _).symm)

omit h in
theorem store_settle (h : SegmentStoreInv rows st L m b) (hL : L ≤ L') :
    SegmentStoreInv rows st L' m b :=
  { h with applied_le := h.applied_le.trans hL }

theorem batchReturn (hl : s.memory.loaded = true) :
    SegmentInv { store := s.store, memory := s.memory.addRows s.pending, worker := s.worker
                 calls := s.calls ++ s.pendingCall, written := s.rows }
      (L + s.pending.length) m b := by
  have hmem := h.loaded hl
  have hle := Nat.le_add_right L s.pending.length
  refine ⟨log_settle h.log, ?_, ?_, fun _ => ⟨?_, hmem.hnsw_le, hmem.hnsw_eq, fun docID => ?_, ?_⟩,
    fun hnot => nomatch hl.symm.trans hnot⟩
  · rw [rows_of_none rfl]
    exact store_settle h.store hle
  · rw [rows_of_none rfl]
    exact WorkerInv.mono h.worker hle
  · exact congrArg (· + s.pending.length) hmem.latest
  · have hhnsw := (h.hnsw_le_applied hmem).trans h.store.applied_le
    have hafter : after HNSWLogRow.id s.memory.hnswLogID s.rows =
        after HNSWLogRow.id s.memory.hnswLogID s.written ++ s.pending :=
      after_append_later h.later hhnsw
    refine Eq.trans ?_ (congrArg (entryOf · docID) hafter.symm)
    rw [entry_addRows, hmem.entry]
    exact current_append.symm
  · obtain ⟨i, hi, hiL, hindex⟩ := hmem.index
    refine ⟨i, hi, hiL.trans hle, ?_⟩
    rw [rows_of_none rfl]
    exact hindex

theorem crash :
    SegmentInv { store := s.store, calls := s.calls ++ s.pendingCall, written := s.rows }
      (L + s.pending.length) m b := by
  have hle := Nat.le_add_right L s.pending.length
  refine ⟨log_settle h.log, ?_, trivial, nofun,
    fun _ => ⟨rfl, rfl, rfl, fun docID => .inl rfl⟩⟩
  rw [rows_of_none rfl]
  exact store_settle h.store hle

theorem workerStep (hl : s.memory.loaded = true) (hclean : ¬ s.worker.InClean)
    (hlatest : st.latestLogID = s.store.latestLogID) (hhnsw : st.hnswLogID = s.store.hnswLogID)
    (hstore : SegmentStoreInv s.rows st L m' b')
    (hworker : WorkerInv s.rows st.docs (readLogID st.hnswLogID) s.memory.hnswLogID L m' b' w) :
    SegmentInv { s with store := st, worker := w } L m' b' where
  log := { h.log with latest := hlatest ▸ h.log.latest }
  store := hstore
  worker := hworker
  loaded _ :=
    { h.loaded hl with
      hnsw_le := hhnsw ▸ (h.loaded hl).hnsw_le
      hnsw_eq := fun _ => hhnsw ▸ (h.loaded hl).hnsw_eq hclean }
  unloaded hnot := nomatch hl.symm.trans hnot

theorem applyRead (hl : s.memory.loaded = true) (hw : s.worker = .idle) :
    SegmentInv { s with worker := .applying s.store.logs s.memory.latestLogID } L m b := by
  refine h.workerStep hl (by rw [hw]; exact id) rfl rfl h.store ?_
  rw [(h.loaded hl).latest, h.store.logs]
  exact ⟨rfl, h.store.applied_le, le_rfl⟩

theorem loaded_of_worker (hw : s.worker = w) (hidle : w ≠ .idle) : s.memory.loaded = true := by
  cases hl : s.memory.loaded with
  | true => rfl
  | false => exact absurd (hw.symm.trans (h.unloaded hl).worker) hidle

theorem applyWrite (hw : s.worker = .applying read n) (o : ReadOrder α d) :
    SegmentInv { s with
      store := { s.store with docs := applyLogs o read n s.store.docs }
      worker := .applied n } L n b := by
  have hl := h.loaded_of_worker hw (by simp)
  obtain ⟨hread, hmn, hnL⟩ := hw ▸ h.worker
  have hinc := h.log.increasing
  refine h.workerStep hl (by rw [hw]; exact id) rfl rfl ?_ rfl
  refine { h.store with
    built_le := h.store.built_le.trans hmn, applied_le := hnL, docs := fun docID => ?_
    docs_nodup := nodup_applyLogs o read n h.store.docs_nodup }
  have hhnsw := h.store.hnsw_le.trans h.store.built_le
  rw [docVector_applyLogs hinc.after.upTo hread, h.store.docs, versionAt, versionAt, afterRows,
    afterRows, ← hinc.upTo_append hhnsw, ← hinc.upTo_append (hhnsw.trans hmn), current_append,
    current_append, current_upTo_upTo hinc.after hmn]

theorem buildRead (hw : s.worker = .applied n) :
    SegmentInv { s with worker := .building n s.store.docs } L m b := by
  have hl := h.loaded_of_worker hw (by simp)
  have hn : n = m := by
    have hworker := h.worker
    rw [hw] at hworker
    exact hworker
  exact h.workerStep hl (by rw [hw]; exact id) rfl rfl h.store ⟨hn, rfl⟩

theorem buildSave {read : DocRows α d} (hw : s.worker = .building n read) (o : ReadOrder α d) :
    SegmentInv { s with
      store := { s.store with file := some (buildHNSW o read) }
      worker := .built n (buildHNSW o read) } L m m := by
  have hl := h.loaded_of_worker hw (by simp)
  obtain ⟨hn, hread⟩ := hw ▸ h.worker
  have hindex : IndexAt s.rows (buildHNSW o read) m := by
    rw [hread]
    refine ⟨((buildHNSW_perm o _).map _).nodup_iff.2 h.store.docs_nodup, fun docID => ?_⟩
    rw [docVector_buildHNSW h.store.docs_nodup, h.store.docs]
  refine h.workerStep hl (by rw [hw]; exact id) rfl rfl ?_ ⟨hn, rfl, hindex⟩
  exact { h.store with
    hnsw_le := h.store.hnsw_le.trans h.store.built_le, built_le := le_rfl, file := hindex }

theorem cleanRead (hw : s.worker = .built n index) :
    SegmentInv { s with worker := .cleaning n index s.store.logs } L m b := by
  have hl := h.loaded_of_worker hw (by simp)
  obtain ⟨hn, hb, hindex⟩ := hw ▸ h.worker
  refine h.workerStep hl (by rw [hw]; exact id) rfl rfl h.store ⟨hn, hb, hindex, ?_⟩
  rw [h.store.logs]

theorem cleanWrite (hw : s.worker = .cleaning n index read) (o : ReadOrder α d) :
    SegmentInv { s with
      store := s.store.removeLogs (cleanRows o read n) n
      worker := .cleaned n index ((cleanRows o read n).map HNSWLogRow.docID) } L m b := by
  have hl := h.loaded_of_worker hw (by simp)
  have hmem := h.loaded hl
  have hhnsw := hmem.hnsw_eq (by rw [hw]; exact id)
  obtain ⟨rfl, rfl, hindex, hread⟩ := hw ▸ h.worker
  refine ⟨{ h.log with }, { h.store with logs := ?_, hnsw_le := le_rfl },
    ⟨rfl, rfl, hindex, rfl, ?_⟩,
    fun _ => { hmem with hnsw_le := ?_, hnsw_eq := fun hnot => absurd trivial hnot },
    fun hnot => nomatch hl.symm.trans hnot⟩
  · exact logs_removeLogs h.store.hnsw_le h.store.logs hread
  · rw [hhnsw]
    exact fun docID => last_of_not_mem_cleanRows hread
  · exact hmem.hnsw_le.trans h.store.hnsw_le

theorem cleanReturn (hb : s.batching = none) {docs : List Int}
    (hw : s.worker = .cleaned n index docs) (o : ReadOrder α d) :
    SegmentInv { s with memory := s.memory.install o n index docs, worker := .idle } L m b := by
  have hl := h.loaded_of_worker hw (by simp)
  have hmem := h.loaded hl
  obtain ⟨rfl, -, hindex, hhnsw, hdocs⟩ := hw ▸ h.worker
  obtain ⟨hloaded, hhnsw', hlatest⟩ := marks_install s.memory o n index docs
  have hle : s.memory.hnswLogID ≤ n := hhnsw ▸ hmem.hnsw_le
  refine ⟨{ h.log with }, h.store, trivial, fun _ => ⟨hlatest.trans hmem.latest, ?_, fun _ => ?_,
    fun docID => ?_, ?_⟩, fun hnot => nomatch (hloaded.trans hl).symm.trans hnot⟩
  · rw [hhnsw', hhnsw]
  · rw [hhnsw', hhnsw]
  · rw [hhnsw']
    refine entry_install h.increasing_written hle docID (hmem.entry docID) ?_
    rw [← rows_of_none hb]
    exact hdocs docID
  · rw [hhnsw']
    exact ⟨n, le_rfl, h.store.applied_le, hindex⟩

theorem buildFails (hclean : ¬ s.worker.InClean) :
    SegmentInv { s with worker := .idle } L m b where
  log := { h.log with }
  store := h.store
  worker := trivial
  loaded hl := { h.loaded hl with hnsw_eq := fun _ => (h.loaded hl).hnsw_eq hclean }
  unloaded hl := { h.unloaded hl with worker := rfl }

theorem load (hl : s.memory.loaded = false) (o : ReadOrder α d) (part : LoadPart) :
    SegmentInv { s with memory := s.memory.load o s.store part } L m b := by
  have hmem := h.unloaded hl
  have hrows := rows_of_none hmem.batching
  have hworker : ∀ hnsw', WorkerInv s.rows s.store.docs (readLogID s.store.hnswLogID) hnsw' L m b
      s.worker := by
    rw [hmem.worker]
    exact fun _ => trivial
  have hentry : ∀ docID, ((s.memory.loadLogIDs s.store).loadLogs o s.store).entry docID =
      entryOf s.store.logs docID := by
    intro docID
    have hinc : Increasing HNSWLogRow.id s.store.logs := h.store.logs ▸ h.log.increasing.after
    rw [entry_loadLogs hinc]
    rcases hmem.entry docID with hold | hold
    · exact congrArg (current _ _ · _ _) hold
    · exact (congrArg (current _ _ · _ _) hold).trans current_idem
  have hmarks := marks_loadLogs (s.memory.loadLogIDs s.store) o s.store
  simp only [marks, Prod.mk.injEq] at hmarks
  obtain ⟨hloaded, hhnsw, hlatest, hindex⟩ := hmarks
  cases part with
  | hnswLogID | logIDs =>
    exact ⟨{ h.log with }, h.store, hworker _,
      fun hnot => (nomatch hl.symm.trans hnot), fun _ => { hmem with }⟩
  | logs =>
    refine ⟨{ h.log with }, h.store, hworker _, fun hnot => ?_, fun _ => ?_⟩
    · exact nomatch (hloaded.trans hl).symm.trans hnot
    · exact { hmem with
        index := hindex.trans hmem.index, entry := fun docID => .inr (hentry docID) }
  | hnsw =>
    have hlatest' : readLogID s.store.latestLogID = L := by
      rw [h.log.latest, pending_of_none hmem.batching]
      rfl
    have hlogs := h.store.logs
    rw [hrows] at hlogs
    have heq : s.memory.load o s.store .hnsw =
        { (s.memory.loadLogIDs s.store).loadLogs o s.store with
          loaded := true, index := s.store.file } := by
      rw [SegmentMemory.load, loadHNSW_eq (hindex.trans hmem.index)]
    rw [heq]
    refine ⟨{ h.log with }, h.store, hworker _, fun _ => ?_, nofun⟩
    refine ⟨hlatest.trans hlatest', hhnsw.le, fun _ => hhnsw, fun docID => ?_, b, ?_, ?_, ?_⟩
    · refine (hentry docID).trans (congrArg (entryOf · docID) ?_)
      rw [hlogs]
      exact congrArg (after _ · _) hhnsw.symm
    · exact hhnsw.le.trans h.store.hnsw_le
    · exact h.store.built_le.trans h.store.applied_le
    · exact h.store.file

theorem step (e : HNSWEvent α d) :
    ∃ L' m' b', SegmentInv (s.step e) L' m' b' := by
  cases e with
  | batch call =>
    rw [HNSWSystem.step]
    split
    case h_1 changes hl hb hc =>
      have hbatch := h.batch hl hb hc
      rw [← (h.loaded hl).latest] at hbatch
      exact ⟨_, _, _, hbatch⟩
    case h_2 => exact ⟨L, m, b, h⟩
  | batchReturn =>
    cases hb : s.batching with
    | none =>
      have heq : s.step .batchReturn = s := by
        cases s
        cases hb
        simp only [HNSWSystem.step, HNSWSystem.pending, HNSWSystem.pendingCall, Option.map_none,
          Option.toList_none, Option.getD_none, append_nil]
      rw [heq]
      exact ⟨L, m, b, h⟩
    | some batching =>
      have hl : s.memory.loaded = true := by
        cases hl : s.memory.loaded with
        | true => rfl
        | false => cases hb.symm.trans (h.unloaded hl).batching
      have hreturn := h.batchReturn hl
      have hpending : s.pending = batching.rows := by
        rw [HNSWSystem.pending, hb]
        rfl
      refine ⟨L + s.pending.length, m, b, ?_⟩
      rw [HNSWSystem.step, hb]
      simp only [← hpending]
      exact hreturn
  | applyRead =>
    rw [HNSWSystem.step]
    split
    case h_1 hl hb hw => exact ⟨_, _, _, h.applyRead hl hw⟩
    case h_2 => exact ⟨L, m, b, h⟩
  | applyWrite o =>
    rw [HNSWSystem.step]
    split
    case h_1 hw => exact ⟨_, _, _, h.applyWrite hw o⟩
    case h_2 => exact ⟨L, m, b, h⟩
  | buildRead =>
    rw [HNSWSystem.step]
    split
    case h_1 hb hw => exact ⟨_, _, _, h.buildRead hw⟩
    case h_2 => exact ⟨L, m, b, h⟩
  | buildSave o =>
    rw [HNSWSystem.step]
    split
    case h_1 hw => exact ⟨_, _, _, h.buildSave hw o⟩
    case h_2 => exact ⟨L, m, b, h⟩
  | cleanRead =>
    rw [HNSWSystem.step]
    split
    case h_1 hb hw => exact ⟨_, _, _, h.cleanRead hw⟩
    case h_2 => exact ⟨L, m, b, h⟩
  | cleanWrite o =>
    rw [HNSWSystem.step]
    split
    case h_1 hw => exact ⟨_, _, _, h.cleanWrite hw o⟩
    case h_2 => exact ⟨L, m, b, h⟩
  | cleanReturn o =>
    rw [HNSWSystem.step]
    split
    case h_1 hb hw => exact ⟨_, _, _, h.cleanReturn hb hw o⟩
    case h_2 => exact ⟨L, m, b, h⟩
  | buildFails =>
    rw [HNSWSystem.step]
    split
    case h_1 => exact ⟨L, m, b, h⟩
    case h_2 hclean =>
      refine ⟨_, _, _, h.buildFails fun hin => ?_⟩
      cases hw : s.worker with
      | cleaned n index docs => exact hclean n index docs hw
      | _ => exact (hw ▸ hin : HNSWWorker.InClean _)
  | load o part =>
    rw [HNSWSystem.step]
    split
    case isTrue => exact ⟨L, m, b, h⟩
    case isFalse hl => exact ⟨_, _, _, h.load (Bool.eq_false_iff.2 hl) o part⟩
  | crash => exact ⟨_, _, _, h.crash⟩

end SegmentInv

theorem SegmentInv.init : SegmentInv ({} : HNSWSystem α d) 0 0 0 where
  log := ⟨List.Pairwise.nil, fun _ hrow => absurd hrow not_mem_nil,
    fun _ hrow => absurd hrow not_mem_nil, rfl,
    fun _ => rfl, fun _ => rfl⟩
  store := ⟨rfl, le_rfl, le_rfl, le_rfl, fun _ => rfl, nodup_nil, nodup_nil, fun _ => rfl⟩
  worker := trivial
  loaded := nofun
  unloaded _ := ⟨rfl, rfl, rfl, fun _ => .inl rfl⟩

theorem SegmentInv.run (events : List (HNSWEvent α d)) :
    ∃ L m b, SegmentInv (HNSWSystem.run events) L m b := by
  induction events using List.reverseRecOn with
  | nil => exact ⟨0, 0, 0, SegmentInv.init⟩
  | append_singleton events e ih =>
    obtain ⟨L, m, b, h⟩ := ih
    rw [HNSWSystem.run, foldl_append]
    exact h.step e

/-- In every state that calls of `Batch`, the parts of `BuildHNSW`, crashes and loads lead to,
in any order, the segment is a faithful map. -/
theorem faithful_run (events : List (HNSWEvent α d)) : Faithful (HNSWSystem.run events) := by
  obtain ⟨L, m, b, h⟩ := SegmentInv.run events
  exact h.faithful

def inOrder : ReadOrder Nat 1 := ⟨⟨id, .refl⟩, ⟨id, .refl⟩, ⟨id, .refl⟩⟩

/-- Two vectors are added, the index is built, and one vector is replaced and the other deleted. -/
def replacedSeven : List (HNSWEvent Nat 1) :=
  [.load inOrder .hnsw, .batch ⟨[7, 8], [[5], [6]], []⟩, .batchReturn, .applyRead,
    .applyWrite inOrder, .buildRead, .buildSave inOrder, .cleanRead, .cleanWrite inOrder,
    .cleanReturn inOrder, .batch ⟨[7], [[9]], [7, 8]⟩, .batchReturn]

end SeaSearch
