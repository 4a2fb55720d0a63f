import SeaSearch.Vector.Segment

/-!
# The rows of an HNSW segment

The rows that were ever written are one log. Here is what the loops of the segment do to a document,
in terms of its last row in a part of this log. The rows of a call of `Batch` do what the call does
(`replayCall_eq`).
-/

namespace SeaSearch

open List Versions

variable {α : Type} {d : Nat}

def rowVector (row : HNSWLogRow α d) : Option (List α) := row.vector.map List.Vector.toList

def afterRows (rows : LogRows α d) (docID : Int) : Option (List α) :=
  current HNSWLogRow.docID rowVector none rows docID

def versionAt (rows : LogRows α d) (n : Nat) (docID : Int) : Option (List α) :=
  afterRows (upTo HNSWLogRow.id n rows) docID

def SegmentMemory.entry (m : SegmentMemory α d) (docID : Int) : Option Nat × Option (List α) :=
  (m.docTS docID, m.cache.get docID)

open SegmentMemory (addRows cleanDoc entry loadDoc loadLogs loadRow)

def rowEntry (row : HNSWLogRow α d) : Option Nat × Option (List α) :=
  (some row.id, rowVector row)

def entryOf (rows : LogRows α d) (docID : Int) : Option Nat × Option (List α) :=
  current HNSWLogRow.docID rowEntry (none, none) rows docID

namespace SegmentLemmas

variable {changes : List (Int × Option (List.Vector α d))}

theorem map_logRows (n : Nat) (changes : List (Int × Option (List.Vector α d))) :
    (logRows n changes).map (fun row => (row.docID, row.vector)) = changes := by
  induction changes generalizing n with
  | nil => rfl
  | cons c cs ih => rw [logRows, map_cons, ih]

theorem mem_logRows (h : row ∈ logRows n changes) :
    n < row.id ∧ row.id ≤ n + (logRows n changes).length := by
  induction changes generalizing n with
  | nil => cases h
  | cons c cs ih =>
    rw [logRows, length_cons]
    rcases mem_cons.1 h with rfl | h
    · exact ⟨Nat.lt_succ_self n, Nat.add_le_add_left (Nat.le_add_left 1 _) n⟩
    · have hrow := ih h
      omega

theorem increasing_logRows (n : Nat) (changes : List (Int × Option (List.Vector α d))) :
    Increasing HNSWLogRow.id (logRows n changes) := by
  induction changes generalizing n with
  | nil => exact List.Pairwise.nil
  | cons c cs ih => exact pairwise_cons.2 ⟨fun row hrow => (mem_logRows hrow).1, ih (n + 1)⟩

theorem checkVector_eq {vector : List α} (h : checkVector d vector = some v) :
    vector = v.toList := by
  rw [checkVector] at h
  split at h
  · cases h
    rfl
  · cases h

theorem vectors_eq {vectors : List (List α)} (h : vectors.mapM (checkVector d) = some vs) :
    vectors = vs.map List.Vector.toList := by
  induction vectors generalizing vs with
  | nil =>
    cases h
    rfl
  | cons v vectors ih =>
    rw [mapM_cons, Option.bind_eq_bind, Option.bind_eq_some_iff] at h
    obtain ⟨w, hw, h⟩ := h
    rw [Option.bind_eq_bind, Option.bind_eq_some_iff] at h
    obtain ⟨ws, hws, h⟩ := h
    cases h
    rw [map_cons, ← ih hws, ← checkVector_eq hw]

theorem replayCall_eq (h : c.changes d = some changes) (n : Nat) (content : Int → Option (List α))
    (docID : Int) :
    replayCall content c docID =
      current HNSWLogRow.docID rowVector (content docID) (logRows n changes) docID := by
  have hrows : current HNSWLogRow.docID rowVector (content docID) (logRows n changes) docID =
      current Prod.fst (fun x => x.2.map List.Vector.toList) (content docID) changes docID := by
    conv_rhs => rw [← map_logRows n changes, current_map]
    rfl
  rw [hrows]
  rw [BatchCall.changes] at h
  split at h
  · cases h
  obtain ⟨vs, hvs, rfl⟩ := Option.map_eq_some_iff.1 h
  have hadds : c.addIDs.zip c.vectors = (c.addIDs.zip vs).map fun x => (x.1, x.2.toList) := by
    rw [vectors_eq hvs, zip_map_right]
    rfl
  have hdels : current (fun id => id) (fun _ => none) (content docID) c.delIDs docID =
      if docID ∈ c.delIDs then none else content docID := by
    rw [current, last_self]
    split
    · rfl
    · rfl
  rw [replayCall, foldl_update, hadds, current_append, current_map, current_map, current_map,
    ← hdels]
  rfl

theorem get_cacheRow (c : VecCache α d) (row : HNSWLogRow α d) (docID : Int) :
    (cacheRow c row).get docID = if row.docID = docID then rowVector row else c.get docID := by
  rw [cacheRow, rowVector]
  cases row.vector with
  | none => exact VecCache.get_deleteCache c row.docID docID
  | some v => exact VecCache.get_updateCache c row.docID docID v

theorem entry_addRows (m : SegmentMemory α d) (rows : LogRows α d) (docID : Int) :
    (m.addRows rows).entry docID =
      current HNSWLogRow.docID rowEntry (m.entry docID) rows docID := by
  have hcache := view_foldl VecCache.get get_cacheRow rows m.cache docID
  simp only [entry, addRows, foldl_update, hcache, current]
  cases last HNSWLogRow.docID rows docID with
  | none | some row => rfl

section Read

variable {o : ReadOrder α d} {rows rows' : LogRows α d} {docID : Int} {n : Nat}
  {docs : DocRows α d} {e : Option Nat × Option (List α)} {log : LogRows α d}

theorem newest_eq (h : Increasing HNSWLogRow.id rows') (hread : rows.Perm rows') :
    newest HNSWLogRow.id HNSWLogRow.docID rows = last HNSWLogRow.docID rows' :=
  funext fun _ => newest_eq_last h hread

theorem last_of_not_mem_map (hread : rows.Perm rows') (h : docID ∉ rows.map HNSWLogRow.docID) :
    last HNSWLogRow.docID rows' docID = none := by
  rw [(hread.map _).mem_iff] at h
  exact last_eq_none.2 fun row hrow heq => h (mem_map.2 ⟨row, hrow, heq⟩)

theorem last_of_not_mem (hread : rows.Perm rows')
    (h : docID ∉ o.keys.keys (rows.map HNSWLogRow.docID)) :
    last HNSWLogRow.docID rows' docID = none :=
  last_of_not_mem_map hread fun hmem => h (Shuffle.mem_keys.2 hmem)

theorem docVector_applyRow (docs : DocRows α d) (row : HNSWLogRow α d) (docID : Int) :
    docVector (applyRow docs row) docID =
      if row.docID = docID then rowVector row else docVector docs docID := by
  rw [applyRow, rowVector, docVector, docVector]
  cases row.vector with
  | none =>
    simp only [lookup_drop, Option.map_none]
    split
    · rfl
    · rfl
  | some v =>
    simp only [lookup_put, Option.map_some]
    split
    · rfl
    · rfl

theorem docVector_applyLogs (h : Increasing HNSWLogRow.id rows')
    (hrows : upTo HNSWLogRow.id n rows = rows') (docID : Int) :
    docVector (applyLogs o rows n docs) docID =
      current HNSWLogRow.docID rowVector (docVector docs docID) rows' docID := by
  have hread : ((o.logs.order rows).filter fun row => row.id ≤ n).Perm rows' :=
    hrows ▸ (o.logs.perm rows).filter _
  rw [applyLogs, newest_eq h hread]
  refine view_foldl_last docVector docVector_applyRow (fun docs c => ?_) (last_of_not_mem hread)
  rw [applyDoc]
  cases last HNSWLogRow.docID rows' c with
  | none | some row => rfl

theorem entry_loadRow (m : SegmentMemory α d) (row : HNSWLogRow α d) (docID : Int) :
    (m.loadRow row).entry docID = if row.docID = docID then rowEntry row else m.entry docID := by
  simp only [entry, loadRow, get_cacheRow, Function.update_apply, rowEntry, eq_comm]
  split
  · rfl
  · rfl

theorem entry_loadLogs (h : Increasing HNSWLogRow.id st.logs) (m : SegmentMemory α d)
    (docID : Int) :
    (m.loadLogs o st).entry docID =
      current HNSWLogRow.docID rowEntry (m.entry docID) st.logs docID := by
  have hread := o.logs.perm st.logs
  rw [loadLogs, newest_eq h hread]
  refine view_foldl_last entry entry_loadRow (fun m c => ?_) (last_of_not_mem hread)
  rw [loadDoc]
  cases last HNSWLogRow.docID st.logs c with
  | none | some row => rfl

theorem nodup_applyLogs (o : ReadOrder α d) (rows : LogRows α d) (latestLogID : Nat)
    (h : (docs.map HNSWDocRow.id).Nodup) :
    ((applyLogs o rows latestLogID docs).map HNSWDocRow.id).Nodup := by
  rw [applyLogs]
  refine List.foldlRecOn
    (motive := fun docs : DocRows α d => (docs.map HNSWDocRow.id).Nodup) _ _ h
    fun docs hdocs docID _ => ?_
  rw [applyDoc]
  split
  · exact hdocs
  · rw [applyRow]
    split
    · exact nodup_drop hdocs _
    · exact nodup_put hdocs _

theorem buildHNSW_perm (o : ReadOrder α d) (docs : DocRows α d) :
    (buildHNSW o docs).Perm docs := by
  rw [buildHNSW, foldl_append_eq_append, nil_append, ← flatMap_def, flatMap_singleton']
  exact o.docs.perm docs

theorem docVector_buildHNSW (h : (docs.map HNSWDocRow.id).Nodup) (o : ReadOrder α d)
    (docID : Int) : docVector (buildHNSW o docs) docID = docVector docs docID := by
  rw [docVector, docVector, lookup_perm h (buildHNSW_perm o docs)]

def cleanEntry (n : Nat) (e : Option Nat × Option (List α)) : Option Nat × Option (List α) :=
  if e.1.getD 0 ≤ n then (none, none) else e

theorem cleanEntry_of_le (h : e.1.getD 0 ≤ n) :
    cleanEntry n e = (none, none) := if_pos h

theorem cleanEntry_of_not_le (h : ¬ e.1.getD 0 ≤ n) : cleanEntry n e = e := if_neg h

theorem entry_cleanDoc (n : Nat) (m : SegmentMemory α d) (c docID : Int) :
    (m.cleanDoc n c).entry docID =
      if c = docID then cleanEntry n (m.entry docID) else m.entry docID := by
  rw [cleanDoc]
  by_cases hn : (m.docTS c).getD 0 ≤ n
  · rw [if_pos hn]
    by_cases hc : c = docID
    · subst hc
      rw [if_pos rfl, cleanEntry_of_le hn]
      simp only [entry, VecCache.get_deleteCache, if_true, Function.update_self]
    · simp only [entry, VecCache.get_deleteCache, hc, if_false, Function.update_of_ne (Ne.symm hc)]
  · rw [if_neg hn]
    by_cases hc : c = docID
    · subst hc
      rw [if_pos rfl, cleanEntry_of_not_le hn]
    · rw [if_neg hc]

theorem cleanEntry_idem (n : Nat) (e : Option Nat × Option (List α)) :
    cleanEntry n (cleanEntry n e) = cleanEntry n e := by
  by_cases he : e.1.getD 0 ≤ n
  · rw [cleanEntry_of_le he, cleanEntry_of_le (Nat.zero_le n)]
  · rw [cleanEntry_of_not_le he, cleanEntry_of_not_le he]

theorem cleanEntry_entryOf (h : Increasing HNSWLogRow.id rows) (hle : n ≤ n') (docID : Int) :
    cleanEntry n' (entryOf (after HNSWLogRow.id n rows) docID) =
      entryOf (after HNSWLogRow.id n' rows) docID := by
  rw [← (h.after (n := n)).upTo_append_after (n := n'), after_after hle, entryOf, current_append]
  cases hlast : last HNSWLogRow.docID (after HNSWLogRow.id n' rows) docID with
  | some row =>
    have hlt : n' < row.id := (mem_after.1 (mem_of_last hlast).1).2
    rw [entryOf, current_of_last_some hlast, current_of_last_some hlast]
    exact cleanEntry_of_not_le (Nat.not_le_of_lt hlt)
  | none =>
    rw [entryOf, current_of_last hlast, current_of_last hlast]
    refine cleanEntry_of_le ?_
    rw [current]
    cases hrow : last HNSWLogRow.docID
        (upTo HNSWLogRow.id n' (after HNSWLogRow.id n rows)) docID with
    | none => exact Nat.zero_le n'
    | some row => exact (mem_upTo.1 (mem_of_last hrow).1).2

theorem entry_install {m : SegmentMemory α d} {index : DocRows α d} {docs : List Int}
    (h : Increasing HNSWLogRow.id rows) (hle : m.hnswLogID ≤ n) (docID : Int)
    (hentry : m.entry docID = entryOf (after HNSWLogRow.id m.hnswLogID rows) docID)
    (hdocs : docID ∉ docs → last HNSWLogRow.docID
      (upTo HNSWLogRow.id n (after HNSWLogRow.id m.hnswLogID rows)) docID = none) :
    (m.install o n index docs).entry docID = entryOf (after HNSWLogRow.id n rows) docID := by
  have hclean := cleanEntry_entryOf h hle docID
  rw [← hclean, ← hentry]
  refine view_foldl_keys entry (f := fun _ => cleanEntry n)
    (fun _ => cleanEntry_idem n) (entry_cleanDoc n) (s := { m with hnswLogID := n }) fun hmem => ?_
  -- without a row up to the log id, the entry is from a later one
  have hlast := hdocs fun hmem' => hmem (Shuffle.mem_keys.2 hmem')
  rw [show entry { m with hnswLogID := n } docID = m.entry docID from rfl, hentry,
    hclean, entryOf, entryOf, ← (h.after (n := m.hnswLogID)).upTo_append_after (n := n),
    after_after hle, current_append, current_of_last hlast]

theorem logs_removeLogs {st : SegmentStore α d} {n' : Nat} (hle : n ≤ n')
    (hlogs : st.logs = after HNSWLogRow.id n log)
    (hread : upTo HNSWLogRow.id n' rows = upTo HNSWLogRow.id n' (after HNSWLogRow.id n log)) :
    (st.removeLogs (cleanRows o rows n') n').logs = after HNSWLogRow.id n' log := by
  have hperm : (cleanRows o rows n').Perm (upTo HNSWLogRow.id n' (after HNSWLogRow.id n log)) :=
    hread ▸ (o.logs.perm rows).filter _
  rw [SegmentStore.removeLogs, foldl_drop, hlogs, ← after_after hle]
  refine filter_congr fun row hrow => decide_eq_decide.2 ?_
  rw [(hperm.map _).mem_iff, mem_map]
  constructor
  · intro hno
    by_contra hlt
    exact hno ⟨row, mem_upTo.2 ⟨hrow, Nat.le_of_not_lt hlt⟩, rfl⟩
  · rintro hlt ⟨row', hrow', heq⟩
    have hle' := (mem_upTo.1 hrow').2
    omega

theorem last_of_not_mem_cleanRows (hread : upTo HNSWLogRow.id n rows = log)
    (h : docID ∉ (cleanRows o rows n).map HNSWLogRow.docID) :
    last HNSWLogRow.docID log docID = none := by
  have hperm : (cleanRows o rows n).Perm log := hread ▸ (o.logs.perm rows).filter _
  exact last_of_not_mem_map hperm h

end Read

end SegmentLemmas

end SeaSearch
