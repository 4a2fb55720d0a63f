import SeaSearch.Vector.Faithful
import SeaSearch.Vector.SegmentSearch

/-!
# Searching an HNSW segment

`Search` takes the nearest documents from two places, the cache and the HNSW index, and merges them.
-/

namespace SeaSearch

open List Blocks Pages SegmentLemmas Versions
open Option (getD_some isNone_iff_eq_none isSome_iff_exists isSome_map)

variable {α R : Type} {d : Nat}

/-! ## The search library -/

/-- The searches of usearch: of all vectors that are given, for their positions and distances, and
in an index, for its keys. -/
structure Usearch (α R : Type) (d : Nat) where
  exactSearch : List α → List α → Nat → Nat → Nat → Except String (List (Nat × R))
  search : DocRows α d → List α → Nat → Except String (List Int)

def VecSearchError.wrap (text : String) : VecSearchError → VecSearchError
  | failed message => failed (text ++ ": " ++ message)
  | panic => panic

/-- `ExactSearch`: the number of vectors is a division by the dimensions, and the positions are
those of the ids. -/
def exactSearch (U : Usearch α R d) (ids : List Int) (vectors query : List α) (dimensions k : Nat) :
    Except VecSearchError (VecHits Int R) :=
  if dimensions = 0 then .error .panic
  else
    let count := vectors.length / dimensions
    let limit := min k count
    if limit = 0 then .ok []
    else
      match U.exactSearch vectors query count dimensions limit with
      | .error e => .error (.failed e)
      | .ok found => found.mapM fun x =>
        match ids[x.1]? with
        | none => .error .panic
        | some docID => .ok ⟨docID, x.2⟩

/-! ## A loaded segment -/

/-- What a segment has when it is loaded; `pending` are the keys of the map `docTS`. -/
structure LoadedSegment (α : Type) (d : Nat) where
  memory : SegmentMemory α d
  store : SegmentStore α d
  pending : List Int
  dimensions : 0 < d
  pending_nodup : pending.Nodup
  mem_pending : ∀ docID, docID ∈ pending ↔ (memory.docTS docID).isSome
  cached : ∀ docID, (memory.cache.get docID).isSome → (memory.docTS docID).isSome
  docs_nodup : (store.docs.map HNSWDocRow.id).Nodup
  index_nodup : ((memory.index.getD []).map HNSWDocRow.id).Nodup
  current : ∀ docID, memory.docTS docID = none →
    docVector (memory.index.getD []) docID = store.record docID

namespace LoadedSegment

def outside (seg : LoadedSegment α d) : List Int :=
  (seg.store.docs.map HNSWDocRow.id).filter fun docID => (seg.memory.docTS docID).isNone

/-- The vectors of the index. -/
def vectors (seg : LoadedSegment α d) : Int → Option (List α) :=
  docVector (seg.memory.index.getD [])

def content (seg : LoadedSegment α d) : Int → Option (List α) :=
  HNSWSystem.content { memory := seg.memory, store := seg.store }

section Searches

variable [LinearOrder R] (seg : LoadedSegment α d) (U : Usearch α R d)
  (order : Shuffle (HNSWDocRow α d)) (query : List α)

def searchCache (k : Nat) : Except VecSearchError (VecHits Int R) :=
  (exactSearch U seg.memory.cache.docIDs seg.memory.cache.docVectors query d k).mapError
    (.wrap "failed to exact search")

/-- `searchDocsByIDs`: bluge gives the doc rows of the ids in some order. -/
def searchDocsByIDs (k : Nat) (ids : List Int) :
    Except VecSearchError (VecHits Int R) :=
  let rows := (order.order (seg.store.docs.filter fun row => row.id ∈ ids)).filter fun row =>
    (seg.memory.docTS row.id).isNone
  (exactSearch U (rows.map HNSWDocRow.id) (rows.flatMap fun row => row.vector.toList) query d
    k).mapError (.wrap "failed to exact search")

def searchHNSW (k : Nat) : Except VecSearchError (VecHits Int R) :=
  match seg.memory.index with
  | none => .ok []
  | some index =>
    let limit := k + seg.pending.length
    match U.search index query limit with
    | .error e => .error (.failed ("failed to search: " ++ e))
    | .ok keys =>
      let docIDs := keys.filter fun key => (seg.memory.docTS key).isNone
      ((seg.searchDocsByIDs U order query k docIDs).mapError
        (.wrap "failed to search docs by IDs")).map fun found => found.take k

def searchCacheByIDs (k : Nat) (filter : List Int) :
    Except VecSearchError (VecHits Int R) :=
  let ids := filter.filter fun id => (seg.memory.cache.docIDIndex id).isSome
  let vec := ids.flatMap fun id => (seg.memory.cache.get id).getD []
  (exactSearch U ids vec query d k).mapError (.wrap "failed to exact search")

def wrongDimension : VecSearchError :=
  .failed ("wrong dimension for vector: " ++ toString query.length)

/-- The loop at the end of `Search` and of `SearchByIDs`, and the cut. -/
def mergeFound (k : Nat) (found₁ found₂ : VecHits Int R) :
    VecHits Int R :=
  (found₁.merge found₂ fun a b => a.dis < b.dis).take k

/-- `Search` of a segment that is loaded. -/
def search (k : Int) : Except VecSearchError (VecHits Int R) :=
  if query.length ≠ d then .error (wrongDimension query)
  else
    let k := (max k 0).toNat
    match (seg.searchCache U query k).mapError (.wrap "failed to search cache"),
      (seg.searchHNSW U order query k).mapError (.wrap "failed to search hnsw") with
    | .error e, _ => .error e
    | .ok _, .error e => .error e
    | .ok found₁, .ok found₂ => .ok (mergeFound k found₁ found₂)

/-- `SearchByIDs` of a segment that is loaded. -/
def searchByIDs (k : Int) (filter : List Int) :
    Except VecSearchError (VecHits Int R) :=
  if query.length ≠ d then .error (wrongDimension query)
  else
    let k := (max k 0).toNat
    match (seg.searchCacheByIDs U query k filter).mapError (.wrap "failed to search cache"),
      (seg.searchDocsByIDs U order query k filter).mapError
        (.wrap "failed to search docs by IDs") with
    | .error e, _ => .error e
    | .ok _, .error e => .error e
    | .ok found₁, .ok found₂ => .ok (mergeFound k found₁ found₂)

end Searches

end LoadedSegment

open LoadedSegment (mergeFound outside searchByIDs searchCache searchHNSW wrongDimension)

/-! ## What is to be found -/

section Spec

variable [LinearOrder R] (dist : List α → List α → R) (query : List α)

/-- `ExactSearch` finds the nearest of the vectors. -/
def Usearch.Exact (U : Usearch α R d) : Prop :=
  ∀ vectors query count dimensions limit, vectors.length = count * dimensions → limit ≤ count →
    ∃ found, U.exactSearch vectors query count dimensions limit = .ok found ∧
      IsPage (.ascending Prod.snd) 0 limit
        ((List.range count).map fun i => (i, dist query (block dimensions vectors i))) found

/-- The index finds the keys of the nearest of its vectors. -/
def Usearch.NearestKeys (U : Usearch α R d) (seg : LoadedSegment α d) : Prop :=
  ∀ index, seg.memory.index = some index → ∀ query limit,
    ∃ keys, U.search index query limit = .ok keys ∧
      IsPage (.ascending fun key => dist query ((seg.vectors key).getD [])) 0 limit
        (index.map HNSWDocRow.id) keys

/-- The result has the `k` nearest documents of the content. -/
structure Nearest (k : Nat) (content : Int → Option (List α))
    (result : VecHits Int R) : Prop where
  count : result.length = min k (Set.ncard {docID | (content docID).isSome})
  sorted : result.Pairwise fun a b => a.dis ≤ b.dis
  once : (result.map VecSearchRes.id).Nodup
  live : ∀ hit ∈ result, ∃ vector, content hit.id = some vector ∧ hit.dis = dist query vector
  closest : ∀ docID vector, content docID = some vector → docID ∉ result.map VecSearchRes.id →
    ∀ hit ∈ result, hit.dis ≤ dist query vector

def restrict (content : Int → Option (List α)) (filter : List Int) (docID : Int) :
    Option (List α) :=
  if docID ∈ filter then content docID else none

def hitOf (content : Int → Option (List α)) (docID : Int) : VecSearchRes Int R :=
  ⟨docID, dist query ((content docID).getD [])⟩

end Spec

namespace HnswSearchLemmas

section Pages

variable [LinearOrder R] {dist : List α → List α → R} {U : Usearch α R d} {query : List α} {k : Nat}

theorem mapM_eq_map {β γ ε : Type} {f : β → Except ε γ} {g : β → γ} {l : List β}
    (h : ∀ x ∈ l, f x = .ok (g x)) : l.mapM f = .ok (l.map g) := by
  induction l with
  | nil => rfl
  | cons x l ih =>
    rw [forall_mem_cons] at h
    rw [mapM_cons, h.1, ih h.2]
    rfl

theorem exactSearch_page (hU : U.Exact dist) (hd : 0 < d) {ids : List Int} {vectors : List α}
    {f : Int → R} (hlength : vectors.length = ids.length * d)
    (hf : ∀ i id, ids[i]? = some id → dist query (block d vectors i) = f id) (k : Nat) :
    ∃ found, exactSearch U ids vectors query d k = .ok found ∧
      IsPage byDistance 0 k (ids.map fun id => ⟨id, f id⟩) found := by
  have hcount : vectors.length / d = ids.length := by
    rw [hlength, Nat.mul_div_cancel _ hd]
  have hlist : ((List.range ids.length).map fun i => (i, dist query (block d vectors i))).map
      (fun x => (⟨ids.getD x.1 0, x.2⟩ : VecSearchRes Int R)) = ids.map fun id => ⟨id, f id⟩ := by
    refine ext_getElem (by simp) fun i h _ => ?_
    have hi : i < ids.length := by simpa using h
    have hget := List.getElem?_eq_getElem hi
    simp [hget, hf i _ hget]
  rw [exactSearch, if_neg hd.ne', hcount]
  dsimp only
  split
  case isTrue hzero =>
    refine ⟨[], rfl, .of_min ?_⟩
    rw [length_map, hzero]
    exact .zero _ _ _
  case isFalse hpos =>
    obtain ⟨found, hfound, hpage⟩ := hU vectors query ids.length d (min k ids.length) hlength
      (min_le_right _ _)
    rw [hfound]
    refine ⟨found.map fun x => ⟨ids.getD x.1 0, x.2⟩, mapM_eq_map fun x hx => ?_, .of_min ?_⟩
    · have hmem := (IsFirst.of_page hpage).mem hx
      obtain ⟨i, hi, rfl⟩ := mem_map.1 hmem
      have hget := List.getElem?_eq_getElem (mem_range.1 hi)
      simp [hget]
    · rw [length_map, ← hlist]
      exact hpage.map _ fun h => h

theorem nearest_of_page {content : Int → Option (List α)} {live : List Int}
    {result : VecHits Int R} (hnodup : live.Nodup)
    (hmem : ∀ docID, docID ∈ live ↔ (content docID).isSome)
    (h : IsPage byDistance 0 k (live.map (hitOf dist query content)) result) :
    Nearest dist query k content result where
  count := by
    have hset : {docID | (content docID).isSome} = (live.toFinset : Set Int) := by
      ext docID
      simp [hmem]
    rw [h.length_eq, hset, Set.ncard_coe_finset, toFinset_card_of_nodup hnodup,
      length_map, Nat.sub_zero]
  sorted := h.sorted
  once := by
    obtain ⟨rest, hall, -⟩ := (IsFirst.of_page h).exists_rest
    have hids := (hall.map VecSearchRes.id).nodup_iff
    have hmap : (live.map (hitOf dist query content)).map VecSearchRes.id = live := by
      simp [hitOf, Function.comp_def]
    rw [hmap, map_append] at hids
    exact (hids.2 hnodup).of_append_left
  live := by
    intro hit hhit
    obtain ⟨docID, hdoc, rfl⟩ := mem_map.1 ((IsFirst.of_page h).mem hhit)
    obtain ⟨vector, hvector⟩ := isSome_iff_exists.1 ((hmem docID).1 hdoc)
    refine ⟨vector, hvector, ?_⟩
    rw [hitOf, hvector, getD_some]
  closest := by
    intro docID vector hvector hnot hit hhit
    have hdoc : docID ∈ live := (hmem docID).2 (by rw [hvector]; rfl)
    have hbefore := (IsFirst.of_page h).before_of_notMem hhit (mem_map_of_mem hdoc)
      fun hin => hnot (mem_map_of_mem (f := VecSearchRes.id) hin)
    have hdis : (hitOf dist query content docID).dis = dist query vector := by
      rw [hitOf, hvector, getD_some]
    exact hdis ▸ hbefore

end Pages

section Segment

variable {seg : LoadedSegment α d} {docID : Int}

theorem content_of_pending (h : (seg.memory.docTS docID).isSome) :
    seg.content docID = seg.memory.cache.get docID := by
  obtain ⟨ts, hts⟩ := isSome_iff_exists.1 h
  rw [LoadedSegment.content, HNSWSystem.content, hts]

theorem content_of_outside (h : seg.memory.docTS docID = none) :
    seg.content docID = seg.store.record docID := by
  rw [LoadedSegment.content, HNSWSystem.content, h]

theorem mem_outside : docID ∈ seg.outside ↔
    seg.memory.docTS docID = none ∧ (seg.content docID).isSome := by
  rw [outside, mem_filter, ← isSome_lookup, isNone_iff_eq_none, and_comm]
  refine and_congr_right fun hnone => ?_
  rw [content_of_outside hnone, SegmentStore.record, docVector, isSome_map]

theorem outside_nodup (seg : LoadedSegment α d) : seg.outside.Nodup := seg.docs_nodup.filter _

theorem isSome_get (c : VecCache α d) : (c.get docID).isSome ↔ docID ∈ c.docIDs := by
  rw [VecCache.get, CacheSlices.get, isSome_map, isSome_iff_exists, mem_iff_getElem?]
  exact exists_congr fun i => c.wf.index docID i

theorem mem_docIDs : docID ∈ seg.memory.cache.docIDs ↔
    (seg.memory.docTS docID).isSome ∧ (seg.content docID).isSome := by
  rw [← isSome_get]
  constructor
  · intro hget
    have hts := seg.cached docID hget
    exact ⟨hts, content_of_pending hts ▸ hget⟩
  · rintro ⟨hts, hcontent⟩
    exact content_of_pending hts ▸ hcontent

variable [LinearOrder R] {dist : List α → List α → R} {U : Usearch α R d} {query : List α}

theorem searchCache_page (seg : LoadedSegment α d) (hU : U.Exact dist) (query : List α) (k : Nat) :
    ∃ found, seg.searchCache U query k = .ok found ∧
      IsPage byDistance 0 k (seg.memory.cache.docIDs.map (hitOf dist query seg.content)) found := by
  have hblock : ∀ i docID, seg.memory.cache.docIDs[i]? = some docID →
      dist query (block d seg.memory.cache.docVectors i) =
        dist query ((seg.content docID).getD []) := by
    intro i docID hdoc
    have hts := (mem_docIDs.1 (mem_of_getElem? hdoc)).1
    rw [content_of_pending hts, VecCache.get, CacheSlices.get,
      (seg.memory.cache.wf.index docID i).2 hdoc]
    rfl
  obtain ⟨found, hfound, hpage⟩ := exactSearch_page hU seg.dimensions
    seg.memory.cache.wf.length hblock k
  refine ⟨found, ?_, hpage⟩
  rw [searchCache, hfound]
  rfl

theorem searchCacheByIDs_page (seg : LoadedSegment α d) (hU : U.Exact dist) (query : List α)
    (k : Nat) (filter : List Int) :
    ∃ found, seg.searchCacheByIDs U query k filter = .ok found ∧
      IsPage byDistance 0 k ((filter.filter (· ∈ seg.memory.cache.docIDs)).map
        (hitOf dist query seg.content)) found := by
  have hids : (filter.filter fun id => (seg.memory.cache.docIDIndex id).isSome) =
      filter.filter (· ∈ seg.memory.cache.docIDs) := by
    refine filter_congr fun id _ => ?_
    rw [Bool.eq_iff_iff, decide_eq_true_eq, ← isSome_get, VecCache.get, CacheSlices.get, isSome_map]
  have hlength : ∀ id ∈ filter.filter (· ∈ seg.memory.cache.docIDs),
      ((seg.memory.cache.get id).getD []).length = d := by
    intro id hid
    obtain ⟨i, hi⟩ := mem_iff_getElem?.1 (of_decide_eq_true (mem_filter.1 hid).2)
    have hidx := (seg.memory.cache.wf.index id i).2 hi
    rw [VecCache.get, CacheSlices.get, hidx]
    exact length_block seg.memory.cache.wf.length (seg.memory.cache.wf.lt hidx)
  have hblock : ∀ i id, (filter.filter (· ∈ seg.memory.cache.docIDs))[i]? = some id →
      dist query (block d ((filter.filter (· ∈ seg.memory.cache.docIDs)).flatMap fun id =>
        (seg.memory.cache.get id).getD []) i) = dist query ((seg.content id).getD []) := by
    intro i id hi
    have hmem := of_decide_eq_true (mem_filter.1 (mem_of_getElem? hi)).2
    rw [block_flatMap hlength hi, content_of_pending (mem_docIDs.1 hmem).1]
  obtain ⟨found, hfound, hpage⟩ := exactSearch_page hU seg.dimensions
    (Blocks.length_flatMap hlength) hblock k
  refine ⟨found, ?_, hpage⟩
  rw [LoadedSegment.searchCacheByIDs, hids, hfound]
  rfl

theorem searchDocsByIDs_page (seg : LoadedSegment α d) (hU : U.Exact dist)
    (order : Shuffle (HNSWDocRow α d)) (query : List α) (k : Nat) (ids : List Int) :
    ∃ found, seg.searchDocsByIDs U order query k ids = .ok found ∧
      IsPage byDistance 0 k ((seg.outside.filter (· ∈ ids)).map (hitOf dist query seg.content))
        found := by
  obtain ⟨rows, hrows⟩ : ∃ rows, rows = (order.order (seg.store.docs.filter fun row =>
      row.id ∈ ids)).filter fun row => (seg.memory.docTS row.id).isNone := ⟨_, rfl⟩
  have hperm : (rows.map HNSWDocRow.id).Perm (seg.outside.filter (· ∈ ids)) := by
    have hread := ((order.perm (seg.store.docs.filter fun row => row.id ∈ ids)).filter
      fun row => (seg.memory.docTS row.id).isNone).map HNSWDocRow.id
    rw [← hrows] at hread
    refine hread.trans (.of_eq ?_)
    rw [outside, filter_map, filter_map, filter_filter, filter_filter]
    refine congrArg _ (filter_congr fun row _ => ?_)
    rw [Function.comp_apply, Function.comp_apply, Bool.and_comm]
  have hblock : ∀ i docID, (rows.map HNSWDocRow.id)[i]? = some docID →
      dist query (block d (rows.flatMap fun row => row.vector.toList) i) =
        dist query ((seg.content docID).getD []) := by
    intro i docID hi
    rw [List.getElem?_map, Option.map_eq_some_iff] at hi
    obtain ⟨row, hrow, rfl⟩ := hi
    have hread := mem_of_getElem? hrow
    rw [hrows, mem_filter, (order.perm _).mem_iff, mem_filter, isNone_iff_eq_none] at hread
    obtain ⟨⟨hmem, -⟩, hnone⟩ := hread
    rw [block_flatMap (fun row _ => row.vector.toList_length) hrow, content_of_outside hnone,
      SegmentStore.record, docVector, lookup_of_mem seg.docs_nodup hmem]
    rfl
  have hlength : (rows.flatMap fun row => row.vector.toList).length =
      (rows.map HNSWDocRow.id).length * d := by
    rw [length_map]
    exact Blocks.length_flatMap fun row _ => row.vector.toList_length
  obtain ⟨found, hfound, hpage⟩ := exactSearch_page hU seg.dimensions hlength hblock k
  refine ⟨found, ?_, hpage.perm (hperm.map _)⟩
  rw [LoadedSegment.searchDocsByIDs, ← hrows, hfound]
  rfl

theorem mem_index_outside (hnone : seg.memory.docTS docID = none) :
    docID ∈ (seg.memory.index.getD []).map HNSWDocRow.id ↔ docID ∈ seg.outside := by
  have hcurrent := seg.current docID hnone
  rw [← content_of_outside hnone] at hcurrent
  rw [← isSome_lookup, mem_outside, ← hcurrent, docVector, isSome_map]
  exact ⟨fun h => ⟨hnone, h⟩, fun h => h.2⟩

theorem count_pending (seg : LoadedSegment α d) :
    ((seg.memory.index.getD []).map HNSWDocRow.id).countP
      (fun key => !(seg.memory.docTS key).isNone) ≤ seg.pending.length := by
  rw [countP_eq_length_filter]
  refine ((seg.index_nodup.filter _).subperm fun key hkey => ?_).length_le
  rw [seg.mem_pending]
  simpa using (mem_filter.1 hkey).2

omit [LinearOrder R] in
theorem filter_hits (keys : List Int) :
    ((keys.map (hitOf dist query seg.vectors)).filter fun hit =>
        (seg.memory.docTS hit.id).isNone) =
      (keys.filter fun key => (seg.memory.docTS key).isNone).map
        (hitOf dist query seg.content) := by
  rw [filter_map]
  refine map_congr_left fun key hkey => ?_
  have hnone : seg.memory.docTS key = none :=
    isNone_iff_eq_none.1 (mem_filter.1 hkey).2
  rw [hitOf, hitOf, LoadedSegment.vectors, seg.current key hnone, content_of_outside hnone]

theorem searchHNSW_page (hU : U.Exact dist) (hindex : U.NearestKeys dist seg)
    (order : Shuffle (HNSWDocRow α d)) (query : List α) (k : Nat) :
    ∃ found, seg.searchHNSW U order query k = .ok found ∧
      IsPage byDistance 0 k (seg.outside.map (hitOf dist query seg.content)) found := by
  rw [searchHNSW]
  cases hkeys : seg.memory.index with
  | none =>
    have hnil : seg.outside = [] := by
      rw [eq_nil_iff_forall_not_mem]
      intro docID hdoc
      have hin := (mem_index_outside (mem_outside.1 hdoc).1).2 hdoc
      rw [hkeys] at hin
      cases hin
    rw [hnil]
    exact ⟨[], rfl, [], .refl _, .nil, by simp⟩
  | some index =>
    have hget : (seg.memory.index.getD []).map HNSWDocRow.id = index.map HNSWDocRow.id := by
      rw [hkeys]
      rfl
    set indexed := index.map HNSWDocRow.id
    obtain ⟨keys, hsearch, hfirst⟩ := hindex index hkeys query (k + seg.pending.length)
    dsimp only
    rw [hsearch]
    obtain ⟨found, hfound, hpage⟩ := searchDocsByIDs_page seg hU order query k
      (keys.filter fun key => (seg.memory.docTS key).isNone)
    set fresh := keys.filter fun key => (seg.memory.docTS key).isNone
    have hcut : found.take k = found := by
      rw [take_of_length_le]
      rw [hpage.length_eq]
      exact min_le_left _ _
    have hresult : (seg.searchDocsByIDs U order query k fresh).mapError
        (VecSearchError.wrap "failed to search docs by IDs") = .ok found := by
      rw [hfound]
      rfl
    refine ⟨found, by dsimp only; rw [hresult, Except.map, hcut], ?_⟩
    have hnodup : indexed.Nodup := hget ▸ seg.index_nodup
    have hmem : ∀ {key}, seg.memory.docTS key = none → (key ∈ indexed ↔ key ∈ seg.outside) :=
      fun hnone => hget ▸ mem_index_outside hnone
    obtain ⟨rest, hall, -⟩ := (IsFirst.of_page hfirst).exists_rest
    have hkeys := hall.nodup_iff.2 hnodup
    -- the rows that are read are those of the keys, which are all live
    have hread : (seg.outside.filter (· ∈ fresh)).Perm fresh := by
      refine (perm_ext_iff_of_nodup ((outside_nodup seg).filter _)
        (hkeys.of_append_left.filter _)).2 fun key => ?_
      rw [mem_filter, decide_eq_true_eq]
      refine ⟨fun h => h.2, fun h => ⟨?_, h⟩⟩
      obtain ⟨hkey, hnone⟩ := mem_filter.1 h
      exact (hmem (isNone_iff_eq_none.1 hnone)).1
        (hall.mem_iff.1 (mem_append_left _ hkey))
    have hlive : (indexed.filter fun key => (seg.memory.docTS key).isNone).Perm seg.outside := by
      refine (perm_ext_iff_of_nodup (hnodup.filter _) (outside_nodup seg)).2 fun key => ?_
      rw [mem_filter, isNone_iff_eq_none]
      refine ⟨fun h => (hmem h.2).1 h.1, fun h => ?_⟩
      have hnone := (mem_outside.1 h).1
      exact ⟨(hmem hnone).2 h, hnone⟩
    have hpending : (indexed.map (hitOf dist query seg.vectors)).countP
        (fun hit => !(seg.memory.docTS hit.id).isNone) ≤ seg.pending.length := by
      have hcount := count_pending seg
      rw [hget] at hcount
      rwa [countP_map]
    have hcounted := hpage.perm (hread.map _)
    rw [← filter_hits] at hcounted
    have hnearest := IsPage.filtered _
      (hfirst.map (hitOf dist query seg.vectors) fun h => h) hpending hcounted
    rw [filter_hits] at hnearest
    exact hnearest.perm (hlive.map _)

theorem places_nodup {cached rows : List Int} (hcached : cached.Nodup) (hrows : rows.Nodup)
    (hin : ∀ docID ∈ cached, docID ∈ seg.memory.cache.docIDs)
    (hout : ∀ docID ∈ rows, docID ∈ seg.outside) : (cached ++ rows).Nodup := by
  refine nodup_append.2 ⟨hcached, hrows, ?_⟩
  rintro docID hdoc _ hrow rfl
  have hts := (mem_docIDs.1 (hin docID hdoc)).1
  rw [(mem_outside.1 (hout docID hrow)).1] at hts
  cases hts

theorem mem_places :
    docID ∈ seg.memory.cache.docIDs ∨ docID ∈ seg.outside ↔ (seg.content docID).isSome := by
  rw [mem_docIDs, mem_outside]
  cases seg.memory.docTS docID with
  | none | some ts => simp

theorem mergeFound_page {l₁ l₂ found₁ found₂ : VecHits Int R}
    (h₁ : IsPage byDistance 0 k l₁ found₁) (h₂ : IsPage byDistance 0 k l₂ found₂) :
    IsPage byDistance 0 k (l₁ ++ l₂) (mergeFound k found₁ found₂) :=
  .merge_two (fun _ _ h => (of_decide_eq_true h).le) (fun _ _ h => not_lt.1 (of_decide_eq_false h))
    h₁ h₂

theorem max_zero_toNat (k : Int) : (max k 0).toNat = k.toNat := by omega

end Segment

end HnswSearchLemmas

section Search

variable [LinearOrder R] {dist : List α → List α → R} {U : Usearch α R d}

open HnswSearchLemmas in
/-- If the searches of the library are right, then `Search` returns the `k` nearest live documents,
and `SearchByIDs` returns those among the ids that it is given. A query with another number of
dimensions is an error. -/
theorem hnsw_search_nearest (seg : LoadedSegment α d) (hU : U.Exact dist)
    (hindex : U.NearestKeys dist seg) (order : Shuffle (HNSWDocRow α d)) (query : List α)
    (k : Int) :
    (query.length ≠ d → seg.search U order query k = .error (wrongDimension query) ∧
      ∀ filter, seg.searchByIDs U order query k filter =
        .error (wrongDimension query)) ∧
    (query.length = d → (∃ result, seg.search U order query k = .ok result ∧
        Nearest dist query k.toNat seg.content result) ∧
      ∀ filter, filter.Nodup → ∃ result, seg.searchByIDs U order query k filter = .ok result ∧
        Nearest dist query k.toNat (restrict seg.content filter) result) := by
  constructor
  · intro hne
    exact ⟨if_pos hne, fun filter => if_pos hne⟩
  intro hquery
  refine ⟨?_, fun filter hfilter => ?_⟩
  · obtain ⟨found₁, hfound₁, hpage₁⟩ := searchCache_page seg hU query k.toNat
    obtain ⟨found₂, hfound₂, hpage₂⟩ := searchHNSW_page hU hindex order query k.toNat
    refine ⟨mergeFound k.toNat found₁ found₂, ?_, ?_⟩
    · rw [LoadedSegment.search, if_neg (not_not.2 hquery)]
      dsimp only
      rw [max_zero_toNat, hfound₁, hfound₂]
      rfl
    · have hpage := mergeFound_page hpage₁ hpage₂
      rw [← map_append] at hpage
      have hnodup := places_nodup seg.memory.cache.nodup_docIDs (outside_nodup seg)
        (fun _ h => h) fun _ h => h
      exact nearest_of_page hnodup (fun docID => by rw [mem_append, mem_places]) hpage
  · obtain ⟨found₁, hfound₁, hpage₁⟩ := searchCacheByIDs_page seg hU query k.toNat filter
    obtain ⟨found₂, hfound₂, hpage₂⟩ := searchDocsByIDs_page seg hU order query k.toNat filter
    refine ⟨mergeFound k.toNat found₁ found₂, ?_, ?_⟩
    · rw [searchByIDs, if_neg (not_not.2 hquery)]
      dsimp only
      rw [max_zero_toNat, hfound₁, hfound₂]
      rfl
    · have hpage := mergeFound_page hpage₁ hpage₂
      rw [← map_append] at hpage
      have hlisted : ∀ docID, docID ∈ filter.filter (· ∈ seg.memory.cache.docIDs) ++
          seg.outside.filter (· ∈ filter) ↔ docID ∈ filter ∧ (seg.content docID).isSome := by
        intro docID
        rw [mem_append, mem_filter, mem_filter, decide_eq_true_eq, decide_eq_true_eq, ← mem_places]
        tauto
      have hhits : (filter.filter (· ∈ seg.memory.cache.docIDs) ++
          seg.outside.filter (· ∈ filter)).map (hitOf dist query seg.content) =
          (filter.filter (· ∈ seg.memory.cache.docIDs) ++ seg.outside.filter (· ∈ filter)).map
              (hitOf dist query (restrict seg.content filter)) := by
        refine map_congr_left fun docID hdoc => ?_
        rw [hitOf, hitOf, restrict, if_pos ((hlisted docID).1 hdoc).1]
      rw [hhits] at hpage
      refine nearest_of_page (places_nodup (hfilter.filter _) ((outside_nodup seg).filter _)
        (fun docID h => of_decide_eq_true (mem_filter.1 h).2)
        fun docID h => (mem_filter.1 h).1) (fun docID => ?_) hpage
      rw [hlisted, restrict]
      split
      case isTrue hin => simp [hin]
      case isFalse hnot => simp [hnot]

end Search

namespace HnswSearchLemmas

def sorting [LinearOrder R] (dist : List α → List α → R) :
    Usearch α R d where
  exactSearch blocks query count dimensions limit :=
    .ok ((((List.range count).map fun i =>
      (i, dist query (block dimensions blocks i))).insertionSort fun a b => a.2 ≤ b.2).take limit)
  search index query limit :=
    .ok (((index.map HNSWDocRow.id).insertionSort fun a b => dist query
      ((docVector index a).getD []) ≤ dist query ((docVector index b).getD [])).take limit)

theorem insertionSort_page {β : Type} [LinearOrder R] (f : β → R) (k : Nat) (l : List β) :
    IsPage (.ascending f) 0 k l ((l.insertionSort fun a b => f a ≤ f b).take k) := by
  have : Std.Total fun a b => f a ≤ f b := ⟨fun a b => le_total (f a) (f b)⟩
  have : IsTrans β fun a b => f a ≤ f b := ⟨fun _ _ _ => le_trans⟩
  exact ⟨l.insertionSort fun a b => f a ≤ f b, l.perm_insertionSort _,
    l.pairwise_insertionSort fun a b => f a ≤ f b, rfl⟩

theorem sorting_exact [LinearOrder R] (dist : List α → List α → R) :
    (sorting (d := d) dist).Exact dist :=
  fun _ _ _ _ limit _ _ => ⟨_, rfl, insertionSort_page Prod.snd limit _⟩

theorem sorting_nearest [LinearOrder R] (dist : List α → List α → R) (seg : LoadedSegment α d) :
    (sorting dist).NearestKeys dist seg := by
  intro index hindex query limit
  refine ⟨_, rfl, ?_⟩
  rw [LoadedSegment.vectors, hindex]
  exact insertionSort_page _ limit _

def supersededSegment : LoadedSegment Nat 1 where
  memory :=
    { loaded := true
      hnswLogID := 2
      latestLogID := 3
      cache := VecCache.empty.updateCache 1 ⟨[5], rfl⟩
      docTS := fun docID => if docID = 1 then some 3 else none
      index := some [⟨1, ⟨[9], rfl⟩⟩, ⟨2, ⟨[4], rfl⟩⟩] }
  store :=
    { logs := [⟨3, 1, some ⟨[5], rfl⟩⟩]
      docs := [⟨1, ⟨[9], rfl⟩⟩, ⟨2, ⟨[4], rfl⟩⟩]
      latestLogID := some 3
      hnswLogID := some 2
      file := some [⟨1, ⟨[9], rfl⟩⟩, ⟨2, ⟨[4], rfl⟩⟩] }
  pending := [1]
  dimensions := Nat.one_pos
  pending_nodup := nodup_singleton 1
  mem_pending docID := by simp
  cached docID := by
    have hget := VecCache.empty.get_updateCache 1 docID (⟨[5], rfl⟩ : List.Vector Nat 1)
    by_cases h : docID = 1
    · exact fun _ => by simp [h]
    · rw [if_neg (Ne.symm h), VecCache.get_empty] at hget
      exact fun hsome => nomatch (hget ▸ hsome : Option.isSome none = true)
  docs_nodup := by decide
  index_nodup := by decide
  current _ _ := rfl

end HnswSearchLemmas

open HnswSearchLemmas in
theorem hnsw_search_superseded :
    ∃ result, supersededSegment.search
        (sorting (fun a b => (a.headD 0 - b.headD 0) + (b.headD 0 - a.headD 0)))
        ⟨id, fun _ => .refl _⟩ [5] 1 = .ok result ∧
      Nearest (fun a b => (a.headD 0 - b.headD 0) + (b.headD 0 - a.headD 0)) [5] 1
        supersededSegment.content result :=
  ((hnsw_search_nearest supersededSegment (sorting_exact _) (sorting_nearest _ _)
    ⟨id, fun _ => .refl _⟩ [5] 1).2 rfl).1

/-! ## Every state -/

namespace HnswSearchLemmas

theorem entry_iff (h : LoadedInv s L) (docID : Int) :
    ((s.memory.docTS docID).isSome ↔
      docID ∈ (after HNSWLogRow.id s.memory.hnswLogID s.written).map HNSWLogRow.docID) ∧
    ((s.memory.cache.get docID).isSome → (s.memory.docTS docID).isSome) := by
  have hentry := h.entry docID
  rw [SegmentMemory.entry, entryOf] at hentry
  cases hlast : last HNSWLogRow.docID (after HNSWLogRow.id s.memory.hnswLogID s.written) docID with
  | none =>
    rw [current_of_last hlast] at hentry
    obtain ⟨hts, hget⟩ := Prod.mk.inj hentry
    simpa [hts, hget] using last_eq_none.1 hlast
  | some row =>
    rw [current_of_last_some hlast] at hentry
    obtain ⟨hts, -⟩ := Prod.mk.inj hentry
    obtain ⟨hrow, rfl⟩ := mem_of_last hlast
    rw [hts]
    exact ⟨⟨fun _ => mem_map_of_mem hrow, fun _ => rfl⟩, fun _ => rfl⟩

end HnswSearchLemmas

open HnswSearchLemmas

/-- A segment that is loaded, in any state: its index has the vectors of some point of the history,
and its content is that of all calls of `Batch`. -/
theorem exists_loaded (hd : 0 < d) (events : List (HNSWEvent α d))
    (hl : (HNSWSystem.run events).memory.loaded = true) :
    ∃ seg : LoadedSegment α d, seg.memory = (HNSWSystem.run events).memory ∧
      seg.store = (HNSWSystem.run events).store ∧
      (∃ n, seg.vectors = versionAt (HNSWSystem.run events).rows n) ∧
      seg.content = replay (HNSWSystem.run events).calls := by
  obtain ⟨L, m, b, hinv⟩ := SegmentInv.run events
  generalize HNSWSystem.run events = s at hl hinv ⊢
  have hloaded := hinv.loaded hl
  obtain ⟨n, -, -, hindex⟩ := hloaded.index
  refine ⟨{ s with
    pending := ((after HNSWLogRow.id s.memory.hnswLogID s.written).map HNSWLogRow.docID).dedup
    dimensions := hd
    pending_nodup := nodup_dedup _
    mem_pending := fun docID => mem_dedup.trans (entry_iff hloaded docID).1.symm
    cached := fun docID => (entry_iff hloaded docID).2
    docs_nodup := hinv.store.docs_nodup
    index_nodup := hindex.nodup
    current := fun docID hts => (hinv.faithful.indexed hl docID hts).symm }, rfl, rfl,
    ⟨n, funext hindex.vector⟩, funext (hinv.faithful.content hl)⟩

/-- After a rebuild the index has the first vector of 7, and the cache the one that replaced it. -/
theorem exists_loaded_replaced : ∃ seg : LoadedSegment Nat 1,
    seg.vectors 7 = some [5] ∧ seg.content 7 = some [9] ∧ seg.content 8 = none :=
  have ⟨seg, hmemory, _, _, hcontent⟩ := exists_loaded Nat.one_pos replacedSeven rfl
  ⟨seg, by rw [LoadedSegment.vectors, hmemory]; rfl, hcontent ▸ rfl, hcontent ▸ rfl⟩

end SeaSearch
