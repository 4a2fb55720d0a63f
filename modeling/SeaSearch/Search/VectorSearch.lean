import SeaSearch.Bluge
import SeaSearch.Vector.SegmentSearch

/-!
# Searching the vectors of several indexes

`VectorSearch` asks each index for its nearest documents, takes the first `K` of all and asks the
readers of all indexes for the documents with these ids. A document gets the score of the first
distance with its id.
-/

namespace SeaSearch

open List Pages MultiReaderLemmas

variable {α φ ι R S : Type}

/-- `VectorQuery`. The fields that are returned are left out; `request` is what `source.Request` and
`fields.Request` say to them. -/
structure VectorQuery (α φ : Type) where
  vector : List α
  k : Int
  nprobe : Int
  filterQuery : Option φ
  request : Except String Unit

/-- A vector index. `Search` returns a map; here it is in the order in which it is visited. -/
structure OpenVecIndex (α R : Type) where
  dims : Nat
  search : List α → Int → Int → Except VecSearchError (VecHits DocID R)
  searchByIDs : List α → Int → List DocID → Except VecSearchError (VecHits DocID R)

/-- The errors of `GetVectorIndex`. `notExists` is `ErrVecIndexNotExists`. -/
inductive OpenVecError
  | notExists
  | failed (message : String)

/-- What `VectorSearch` uses of an index:
* `vecIndex`: the vector index of the query field;
* `search`: the ids of the hits of `index.Search` with a filter;
* `readers`: the ids of the documents of each reader of `GetSearchers`. -/
structure VecTarget (α φ ι R : Type) where
  name : ι
  vecIndex : Except OpenVecError (OpenVecIndex α R)
  search : φ → Except String (List DocID)
  readers : List (List DocID)

def searchVector (q : VectorQuery α φ) (t : VecTarget α φ ι R) :
    Except VecSearchError (VecHits DocID R) :=
  match t.vecIndex with
  | .error .notExists => .ok []
  | .error (.failed message) => .error (.failed message)
  | .ok vecIndex =>
    if vecIndex.dims ≠ q.vector.length then
      .error (.failed ("invalid query vector, the vector dims should be " ++
        toString vecIndex.dims))
    else
      match q.filterQuery with
      | none => vecIndex.search q.vector q.k q.nprobe
      | some filterQuery =>
        match t.search filterQuery with
        | .error message => .error (.failed message)
        | .ok [] => .ok []
        | .ok docIDs => vecIndex.searchByIDs q.vector q.k docIDs

structure VecHit (ι S : Type) where
  index : ι
  id : DocID
  score : S
  deriving DecidableEq

/-- `distances[:K]` if there are more. With a negative `K` this panics. -/
def cutDistances (k : Int) (distances : VecHits DocID R) :
    Option (VecHits DocID R) :=
  if (distances.length : Int) > k then
    if k < 0 then none else some (distances.take k.toNat)
  else some distances

def matchedDocs (targets : List (VecTarget α φ ι R)) (docIDs : List DocID) :
    List (List (ι × DocID)) :=
  targets.flatMap fun t => t.readers.map fun docs =>
    (docs.filter (· ∈ docIDs)).map fun id => (t.name, id)

def joinScore [Zero S] (score : R → S) (distances : VecHits DocID R)
    (doc : ι × DocID) : VecHit ι S :=
  ⟨doc.1, doc.2, (distances.find? fun distance => distance.id = doc.2).elim 0
    fun distance => score distance.dis⟩

section Search

variable [Zero S] [LinearOrder S]

/-- `retrieveVectorDocuments`. `score` is `1 / (1 + distance)`, and `rank` is the order in which the
query for the ids has its documents. -/
def Retrieves (score : R → S) (rank : Ranking (ι × DocID)) (maxResults : Int)
    (targets : List (VecTarget α φ ι R)) (q : VectorQuery α φ)
    (distances : VecHits DocID R) (out : Except VecSearchError (List (VecHit ι S))) :
    Prop :=
  match q.request with
  | .error message => out = .error (.failed message)
  | .ok () => ∃ docs hits,
      ReadersHits rank ⟨0, distances.length, maxResults⟩
        (matchedDocs targets (distances.map VecSearchRes.id)) docs ∧
      hits.Perm (docs.map (joinScore score distances)) ∧
      hits.Pairwise (Ranking.descending VecHit.score).before ∧ out = .ok hits

/-- `VectorSearch`. The sorting may put equal distances in any order. -/
def VectorSearches [LinearOrder R] (score : R → S) (rank : Ranking (ι × DocID)) (maxResults : Int)
    (targets : List (VecTarget α φ ι R)) (q : VectorQuery α φ)
    (out : Except VecSearchError (List (VecHit ι S))) : Prop :=
  match targets.mapM (searchVector q) with
  | .error e => out = .error e
  | .ok results =>
    if results.flatten.isEmpty then out = .ok []
    else ∃ sorted : VecHits DocID R, sorted.Perm results.flatten ∧
      sorted.Pairwise byDistance.before ∧
      match cutDistances q.k sorted with
      | none => out = .error .panic
      | some distances => Retrieves score rank maxResults targets q distances out

end Search

/-- What is assumed of the search of each index:
* `names`: the indexes are different;
* `search`: the search returns the `K` nearest of `vectors`, the vectors of the index by their
  distance to the query;
* `ids`: a document has one vector, and `live`: it is in one of the readers. -/
structure NearestSearches [LinearOrder R] (targets : List (VecTarget α φ ι R))
    (q : VectorQuery α φ) (vectors : ι → VecHits DocID R) : Prop where
  names : (targets.map VecTarget.name).Nodup
  search : ∀ t ∈ targets, ∃ found, searchVector q t = .ok found ∧
    IsFirst byDistance q.k.toNat (vectors t.name) found
  ids : ∀ t ∈ targets, ((vectors t.name).map VecSearchRes.id).Nodup
  live : ∀ t ∈ targets, ∀ x ∈ vectors t.name, t.readers.flatten.count x.id = 1

structure IndexDistance (ι R : Type) where
  doc : ι × DocID
  dis : R

def indexDistances (name : ι) (distances : VecHits DocID R) :
    List (IndexDistance ι R) :=
  distances.map fun x => ⟨(name, x.id), x.dis⟩

def IndexDistance.hit (score : R → S) (x : IndexDistance ι R) : VecHit ι S :=
  ⟨x.doc.1, x.doc.2, score x.dis⟩

def IndexDistance.forget (x : IndexDistance ι R) : VecSearchRes DocID R := ⟨x.doc.2, x.dis⟩

open IndexDistance (dis hit)

def allDistances (targets : List (VecTarget α φ ι R)) (vectors : ι → VecHits DocID R) :
    List (IndexDistance ι R) :=
  (targets.map fun t => indexDistances t.name (vectors t.name)).flatten

/-- The documents with the `K` nearest vectors of all indexes, in any order. -/
abbrev KNearest [LinearOrder R] (targets : List (VecTarget α φ ι R)) (q : VectorQuery α φ)
    (vectors : ι → VecHits DocID R) (found : List (IndexDistance ι R)) : Prop :=
  IsFirst (.ascending dis) q.k.toNat (allDistances targets vectors) found

/-- For the `K` nearest documents, whatever the order of equal distances: no other index has a
document with the id of one of them, and no reader has more than `MaxResults` of them. -/
def NearestApart [LinearOrder R] (targets : List (VecTarget α φ ι R)) (q : VectorQuery α φ)
    (vectors : ι → VecHits DocID R) (maxResults : Int) : Prop :=
  ∀ found, KNearest targets q vectors found →
    (∀ x ∈ found, ∀ t ∈ targets, t.name ≠ x.doc.1 → x.doc.2 ∉ t.readers.flatten) ∧
      ∀ docs ∈ matchedDocs targets (found.map fun x => x.doc.2), docs.length ≤ maxResults.toNat

/-- The `K` nearest documents of all indexes, with the scores of their own distances and the best
ones first. -/
def NearestHits [LinearOrder R] [LinearOrder S] (score : R → S) (targets : List (VecTarget α φ ι R))
    (q : VectorQuery α φ) (vectors : ι → VecHits DocID R)
    (out : Except VecSearchError (List (VecHit ι S))) : Prop :=
  ∃ hits found, out = .ok hits ∧
    KNearest targets q vectors found ∧
    hits.Perm (found.map (hit score)) ∧ hits.Pairwise (Ranking.descending VecHit.score).before

structure Retrievable (targets : List (VecTarget α φ ι R)) (found : List (IndexDistance ι R)) :
    Prop where
  nodup : (found.map IndexDistance.doc).Nodup
  target : ∀ x ∈ found, ∃ t ∈ targets, t.name = x.doc.1
  live : ∀ x ∈ found, ∀ t ∈ targets, t.name = x.doc.1 → t.readers.flatten.count x.doc.2 = 1
  apart : ∀ x ∈ found, ∀ t ∈ targets, t.name ≠ x.doc.1 → x.doc.2 ∉ t.readers.flatten

namespace VectorSearchLemmas

section Retrieve

variable {targets : List (VecTarget α φ ι R)} {found : List (IndexDistance ι R)}

theorem flatten_matchedDocs (targets : List (VecTarget α φ ι R)) (docIDs : List DocID) :
    (matchedDocs targets docIDs).flatten = targets.flatMap fun t =>
      (t.readers.flatten.filter (· ∈ docIDs)).map fun id => (t.name, id) := by
  rw [matchedDocs, flatMap_def, flatten_flatten, map_map, flatMap_def]
  refine congrArg List.flatten (map_congr_left fun t _ => ?_)
  rw [Function.comp_apply, filter_flatten, map_flatten, map_map]
  rfl

variable (h : Retrievable targets found) {x : IndexDistance ι R}
include h

theorem eq_doc (ht : t ∈ targets) {id : DocID} (hid : id ∈ t.readers.flatten) (hx : x ∈ found)
    (heq : x.doc.2 = id) :
    x.doc = (t.name, id) := by
  subst heq
  by_contra hne
  refine h.apart x hx t ht (fun hname => hne ?_) hid
  rw [hname]

theorem mem_readers (hx : x ∈ found) (ht : t ∈ targets) (hname : t.name = x.doc.1) :
    x.doc.2 ∈ t.readers.flatten := by
  rw [← count_pos_iff, h.live x hx t ht hname]
  exact Nat.one_pos

theorem eq_of_id (hx : x ∈ found) (hy : y ∈ found) (hid : y.doc.2 = x.doc.2) : y = x := by
  obtain ⟨t, ht, hname⟩ := h.target x hx
  have hin := mem_readers h hx ht hname
  have hdoc : y.doc = x.doc := by
    rw [eq_doc h ht hin hy hid, eq_doc h ht hin hx rfl]
  exact inj_on_of_nodup_map h.nodup hy hx hdoc

theorem matchedDocs_perm (hnames : (targets.map VecTarget.name).Nodup) :
    (matchedDocs targets (found.map fun x => x.doc.2)).flatten.Perm
      (found.map IndexDistance.doc) := by
  rw [flatten_matchedDocs]
  refine (perm_ext_iff_of_nodup (nodup_flatMap.2 ⟨fun t ht => ?_, ?_⟩) h.nodup).2
    fun doc => ?_
  · refine List.Nodup.map (fun a b hab => congrArg Prod.snd hab) ?_
    refine nodup_iff_count_le_one.2 fun id => ?_
    by_cases hid : id ∈ t.readers.flatten.filter (· ∈ found.map fun x => x.doc.2)
    · obtain ⟨hin, hids⟩ := mem_filter.1 hid
      obtain ⟨x, hx, rfl⟩ := mem_map.1 (of_decide_eq_true hids)
      have hname : t.name = x.doc.1 := (congrArg Prod.fst (eq_doc h ht hin hx rfl)).symm
      exact (filter_sublist.count_le _).trans (h.live x hx t ht hname).le
    · rw [count_eq_zero_of_not_mem hid]
      exact Nat.zero_le 1
  · refine (pairwise_map.1 hnames).imp fun {t t'} hne doc hdoc hdoc' => hne ?_
    obtain ⟨_, -, rfl⟩ := mem_map.1 hdoc
    obtain ⟨_, -, heq⟩ := mem_map.1 hdoc'
    exact (congrArg Prod.fst heq).symm
  · constructor
    · intro hdoc
      obtain ⟨t, ht, hmem⟩ := mem_flatMap.1 hdoc
      obtain ⟨id, hid, rfl⟩ := mem_map.1 hmem
      obtain ⟨hin, hids⟩ := mem_filter.1 hid
      obtain ⟨x, hx, heq⟩ := mem_map.1 (of_decide_eq_true hids)
      exact mem_map.2 ⟨x, hx, eq_doc h ht hin hx heq⟩
    · intro hdoc
      obtain ⟨x, hx, rfl⟩ := mem_map.1 hdoc
      obtain ⟨t, ht, hname⟩ := h.target x hx
      have hin : x.doc.2 ∈ t.readers.flatten := mem_readers h hx ht hname
      refine mem_flatMap.2 ⟨t, ht, mem_map.2 ⟨x.doc.2, mem_filter.2
        ⟨hin, decide_eq_true (mem_map_of_mem hx)⟩, ?_⟩⟩
      rw [hname]

theorem joinScore_doc [Zero S] (score : R → S) (hx : x ∈ found) :
    joinScore score (found.map IndexDistance.forget) x.doc = x.hit score := by
  have hfind : ((found.map IndexDistance.forget).find? fun distance => distance.id = x.doc.2) =
      some x.forget := by
    rw [List.find?_map]
    cases hy : found.find? _ with
    | none => exact absurd (decide_eq_true rfl) (List.find?_eq_none.1 hy x hx)
    | some y =>
      have hid := List.find?_some hy
      rw [eq_of_id h hx (mem_of_find?_eq_some hy) (of_decide_eq_true hid)]
      rfl
  rw [joinScore, hfind]
  rfl

end Retrieve

section Readers

variable {D : Type} {rank : Ranking D} {size maxResults : Int} {readers : List (List D)}
  {docs : List D}

theorem readersHits_all (hmax : ∀ l ∈ readers, l.length ≤ maxResults.toNat)
    (hlen : (readers.flatten.length : Int) ≤ size)
    (h : ReadersHits rank ⟨0, size, maxResults⟩ readers docs) : docs.Perm readers.flatten := by
  match readers, h with
  | [], h => exact h ▸ .refl _
  | [l], h =>
    rw [flatten_singleton] at hlen ⊢
    have hl := hmax l mem_cons_self
    exact (singleHits_iff.1 h).perm_of_le (by show _ ≤ (min size maxResults).toNat; omega)
  | l :: l' :: readers, h =>
    obtain ⟨pages, hpages, hdocs⟩ := multiHits_page h
    have hwhole : List.Forall₂ (fun l page => l.Perm page) (l :: l' :: readers) pages := by
      refine ((forall₂_and_left _ _).2 ⟨fun l hl => ?_, hpages⟩).imp fun l page hpage =>
        (hpage.2.perm_of_le hpage.1).symm
      have hmax := hmax l hl
      have hle := (sublist_flatten_of_mem hl).length_le
      show _ ≤ (min (size + 0) maxResults).toNat
      omega
    have hperm := Perm.flatten_congr hwhole
    refine (hdocs.perm_of_le ?_).trans hperm.symm
    show _ ≤ size.toNat
    rw [← hperm.length_eq]
    omega

theorem pages_whole (h : List.Forall₂ (IsPage rank 0 k) readers pages)
    (hlen : readers.flatten.length ≤ pages.flatten.length) : ∀ l ∈ readers, l.length ≤ k := by
  induction h with
  | nil => exact nofun
  | @cons l page readers pages hpage hpages ih =>
    obtain ⟨rest, hrest, -⟩ := IsPage.exists_rest hpages
    have hle := hrest.length_eq
    have hl := hpage.length_eq
    rw [flatten_cons, flatten_cons, length_append, length_append] at hlen
    rw [length_append] at hle
    exact forall_mem_cons.2 ⟨by omega, ih (by omega)⟩

/-- If all documents are returned, no reader has more than `MaxResults` of them. -/
theorem readersHits_whole (h : ReadersHits rank ⟨0, size, maxResults⟩ readers docs)
    (hlen : readers.flatten.length ≤ docs.length) : ∀ l ∈ readers, l.length ≤ maxResults.toNat := by
  match readers, h with
  | [], h => exact nofun
  | [l], h =>
    have hl := (singleHits_iff.1 h).length_eq
    rw [flatten_singleton, hl] at hlen
    dsimp only at hlen
    exact forall_mem_singleton.2 (by omega)
  | l :: l' :: readers, h =>
    obtain ⟨pages, hpages, hdocs⟩ := multiHits_page h
    have hle := hdocs.length_eq
    intro l hl
    have hk := pages_whole hpages (by omega) l hl
    dsimp only at hk
    omega

theorem mem_page (h : IsPage rank 0 k l docs) (hfirst : ∀ e, rank.before e d → e = d)
    (hd : d ∈ l) (hne : docs ≠ []) : d ∈ docs := by
  by_contra hnot
  obtain ⟨e, he⟩ := exists_mem_of_ne_nil docs hne
  have hbefore := (IsFirst.of_page h).before_of_notMem he hd hnot
  exact hnot (hfirst e hbefore ▸ he)

open Classical in
/-- A document that comes before all others is returned. -/
theorem readersHits_mem (h : ReadersHits rank ⟨0, size, maxResults⟩ readers docs)
    (hfirst : ∀ e, rank.before e d → e = d) (hd : d ∈ readers.flatten) (hne : docs ≠ []) :
    d ∈ docs := by
  match readers, h with
  | [], h => cases hd
  | [l], h =>
    rw [flatten_singleton] at hd
    exact mem_page (singleHits_iff.1 h) hfirst hd hne
  | l :: l' :: readers, h =>
    obtain ⟨pages, hpages, hdocs⟩ := multiHits_page h
    refine mem_page hdocs hfirst ?_ hne
    obtain ⟨rest, hall, hrest⟩ := IsPage.exists_rest hpages
    rcases mem_append.1 (hall.mem_iff.1 hd) with hd | hd
    · exact hd
    -- a page is not empty, so some document on it comes before `d`
    · have hpos : 0 < pages.flatten.countP fun e => rank.before e d := by
        refine Nat.lt_of_lt_of_le (Nat.pos_of_ne_zero fun hzero => hne ?_) (hrest d hd)
        rw [hzero] at hpages
        exact hdocs.eq_nil (by simp [flatten_pages_nil hpages])
      obtain ⟨e, he, hbefore⟩ := countP_pos_iff.1 hpos
      exact hfirst e (of_decide_eq_true hbefore) ▸ he

end Readers

section Search

variable [Zero S] [LinearOrder S] {score : R → S} {rank : Ranking (ι × DocID)} {maxResults : Int}
  {targets : List (VecTarget α φ ι R)} {q : VectorQuery α φ}
  {out : Except VecSearchError (List (VecHit ι S))}

theorem exists_retrieves (score : R → S) (rank : Ranking (ι × DocID)) (maxResults : Int)
    (targets : List (VecTarget α φ ι R)) (q : VectorQuery α φ)
    (distances : VecHits DocID R) :
    ∃ out, Retrieves score rank maxResults targets q distances out := by
  unfold Retrieves
  cases q.request with
  | error message => exact ⟨_, rfl⟩
  | ok _ =>
    obtain ⟨docs, hdocs⟩ := exists_readersHits rank ⟨0, distances.length, maxResults⟩
      (matchedDocs targets (distances.map VecSearchRes.id))
    obtain ⟨hits, hperm, hsorted⟩ :=
      (Ranking.descending VecHit.score).exists_sorted (docs.map (joinScore score distances))
    exact ⟨.ok hits, docs, hits, hdocs, hperm, hsorted, rfl⟩

theorem map_id_forget (found : List (IndexDistance ι R)) :
    (found.map IndexDistance.forget).map VecSearchRes.id = found.map fun x => x.doc.2 := by
  rw [map_map]
  rfl

theorem retrieves_all {found : List (IndexDistance ι R)} (h : Retrievable targets found)
    (hnames : (targets.map VecTarget.name).Nodup) (hrequest : q.request = .ok ())
    (hmax : ∀ docs ∈ matchedDocs targets (found.map fun x => x.doc.2),
      docs.length ≤ maxResults.toNat)
    (hout : Retrieves score rank maxResults targets q (found.map IndexDistance.forget) out) :
    ∃ hits, out = .ok hits ∧ hits.Perm (found.map (hit score)) ∧
      hits.Pairwise (Ranking.descending VecHit.score).before := by
  rw [Retrieves, hrequest] at hout
  obtain ⟨docs, hits, hdocs, hperm, hsorted, rfl⟩ := hout
  have hmatched := matchedDocs_perm h hnames
  rw [map_id_forget, length_map] at hdocs
  have hall := (readersHits_all hmax
    (by rw [hmatched.length_eq, length_map]) hdocs).trans hmatched
  refine ⟨hits, rfl, hperm.trans ((hall.map _).trans (.of_eq ?_)), hsorted⟩
  rw [map_map]
  exact map_congr_left fun x hx => joinScore_doc h score hx

theorem exists_vectorSearches [LinearOrder R] (score : R → S) (rank : Ranking (ι × DocID))
    (maxResults : Int) (targets : List (VecTarget α φ ι R)) (q : VectorQuery α φ) :
    ∃ out, VectorSearches score rank maxResults targets q out := by
  unfold VectorSearches
  cases targets.mapM (searchVector q) with
  | error e => exact ⟨_, rfl⟩
  | ok results =>
    dsimp only
    split
    · exact ⟨_, rfl⟩
    · obtain ⟨sorted, hperm, hsorted⟩ := byDistance.exists_sorted results.flatten
      cases hcut : cutDistances q.k sorted with
      | none =>
        refine ⟨.error .panic, sorted, hperm, hsorted, ?_⟩
        rw [hcut]
      | some distances =>
        obtain ⟨out, hout⟩ := exists_retrieves score rank maxResults targets q distances
        refine ⟨out, sorted, hperm, hsorted, ?_⟩
        rw [hcut]
        exact hout

end Search

section Nearest

variable [LinearOrder R] {targets : List (VecTarget α φ ι R)} {q : VectorQuery α φ}
  {vectors : ι → VecHits DocID R} {distances : VecHits DocID R}
  {results : List (VecHits DocID R)} {tagged : List (List (IndexDistance ι R))}

structure Tagged (targets : List (VecTarget α φ ι R)) (q : VectorQuery α φ)
    (vectors : ι → VecHits DocID R) (results : List (VecHits DocID R))
    (tagged : List (List (IndexDistance ι R))) : Prop where
  forget : tagged.flatten.map IndexDistance.forget = results.flatten
  first : List.Forall₂ (IsFirst (.ascending dis) q.k.toNat)
    (targets.map fun t => indexDistances t.name (vectors t.name)) tagged

theorem exists_tagged
    (h : ∀ t ∈ targets, ∃ found, searchVector q t = .ok found ∧
      IsFirst byDistance q.k.toNat (vectors t.name) found) :
    ∃ results tagged, targets.mapM (searchVector q) = .ok results ∧
      Tagged targets q vectors results tagged := by
  induction targets with
  | nil => exact ⟨[], [], rfl, rfl, .nil⟩
  | cons t targets ih =>
    obtain ⟨found, hfound, hfirst⟩ := h t mem_cons_self
    obtain ⟨results, tagged, hresults, htagged⟩ :=
      ih fun t' ht' => h t' (mem_cons_of_mem t ht')
    refine ⟨found :: results, indexDistances t.name found :: tagged, ?_, ?_, ?_⟩
    · rw [mapM_cons, hfound, hresults]
      rfl
    · rw [flatten_cons, flatten_cons, map_append, htagged.forget, indexDistances, map_map]
      exact congrArg (· ++ _) (map_id found)
    · exact .cons (hfirst.map _ fun hbefore => hbefore) htagged.first

theorem nodup_docs (h : NearestSearches targets q vectors) :
    ((allDistances targets vectors).map IndexDistance.doc).Nodup := by
  rw [allDistances, map_flatten, map_map, ← flatMap_def]
  refine nodup_flatMap.2 ⟨fun t ht => ?_, ?_⟩
  · have hids := (h.ids t ht).map (f := fun id => (t.name, id)) fun a b hab =>
      congrArg Prod.snd hab
    rw [map_map] at hids
    rw [Function.comp_apply, indexDistances, map_map]
    exact hids
  · refine (pairwise_map.1 h.names).imp fun {t t'} hne doc hdoc hdoc' => hne ?_
    obtain ⟨_, hx, rfl⟩ := mem_map.1 hdoc
    obtain ⟨_, hy, heq⟩ := mem_map.1 hdoc'
    obtain ⟨_, -, rfl⟩ := mem_map.1 hx
    obtain ⟨_, -, rfl⟩ := mem_map.1 hy
    exact (congrArg Prod.fst heq).symm

theorem cut_page {results : VecHits DocID R} {sorted : VecHits DocID R}
    (hperm : sorted.Perm results) (hsorted : sorted.Pairwise byDistance.before)
    (hcut : cutDistances k sorted = some distances) :
    IsPage byDistance 0 k.toNat results distances := by
  rw [cutDistances] at hcut
  split at hcut
  case isTrue hmore =>
    split at hcut
    case isTrue => cases hcut
    case isFalse =>
      cases hcut
      exact ⟨sorted, hperm, hsorted, rfl⟩
  case isFalse hall =>
    obtain rfl := Option.some.inj hcut
    refine ⟨sorted, hperm, hsorted, ?_⟩
    rw [drop_zero, take_of_length_le (by omega)]

omit [LinearOrder R] in
theorem neg_of_cut (h : cutDistances k distances = none) : k < 0 := by
  rw [cutDistances] at h
  split at h
  · split at h
    · assumption
    · cases h
  · cases h

theorem results_nil (htagged : Tagged targets q vectors results tagged) (hk : q.k < 0) :
    results.flatten = [] := by
  have hfirst := htagged.first
  rw [Int.toNat_of_nonpos hk.le] at hfirst
  have hnil : tagged.flatten = [] := by
    generalize targets.map _ = ls at hfirst
    clear htagged
    induction hfirst with
    | nil => rfl
    | cons hl _ ih =>
      have hlen := hl.length_eq
      rw [Nat.zero_min, length_eq_zero_iff] at hlen
      rw [flatten_cons, hlen, ih, nil_append]
  rw [← htagged.forget, hnil, map_nil]

theorem retrievable_first (h : NearestSearches targets q vectors)
    (hfirst : KNearest targets q vectors found)
    (hapart : ∀ x ∈ found, ∀ t ∈ targets, t.name ≠ x.doc.1 → x.doc.2 ∉ t.readers.flatten) :
    Retrievable targets found := by
  have hown : ∀ x ∈ found, ∃ t ∈ targets, ∃ y ∈ vectors t.name, ⟨(t.name, y.id), y.dis⟩ = x := by
    intro x hx
    obtain ⟨ds, hds, hx⟩ := mem_flatten.1 (hfirst.mem hx)
    obtain ⟨t, ht, rfl⟩ := mem_map.1 hds
    exact ⟨t, ht, mem_map.1 hx⟩
  constructor
  case nodup =>
    obtain ⟨rest, hall, -⟩ := hfirst.exists_rest
    have hnodup := (hall.map IndexDistance.doc).nodup_iff.2 (nodup_docs h)
    rw [map_append] at hnodup
    exact (nodup_append.1 hnodup).1
  case target =>
    intro x hx
    obtain ⟨t, ht, y, -, rfl⟩ := hown x hx
    exact ⟨t, ht, rfl⟩
  case live =>
    intro x hx t ht hname
    obtain ⟨t', -, y, hy, rfl⟩ := hown x hx
    have hname : t.name = t'.name := hname
    exact h.live t ht y (hname ▸ hy)
  case apart => exact hapart

/-- `VectorSearch` retrieves the documents of the `K` nearest distances, if there are any. -/
theorem search_cases [Zero S] [LinearOrder S] {score : R → S}
    (h : NearestSearches targets q vectors)
    (hout : VectorSearches score rank maxResults targets q out) :
    ∃ found, KNearest targets q vectors found ∧
      (found = [] ∧ out = .ok [] ∨
        Retrieves score rank maxResults targets q (found.map IndexDistance.forget) out) := by
  obtain ⟨results, tagged, hresults, htagged⟩ := exists_tagged h.search
  rw [VectorSearches, hresults] at hout
  dsimp only at hout
  split at hout
  case isTrue hempty =>
    have hnil : tagged.flatten = [] := by
      rw [← map_eq_nil_iff, htagged.forget]
      exact isEmpty_iff.1 hempty
    refine ⟨[], IsFirst.merge htagged.first ?_, .inl ⟨rfl, hout⟩⟩
    rw [hnil]
    exact .of_page ⟨[], .refl _, .nil, by simp⟩
  case isFalse hsome =>
    obtain ⟨sorted, hperm, hsorted, hout⟩ := hout
    split at hout
    case h_1 hcut =>
      have hnil := results_nil htagged (neg_of_cut hcut)
      rw [hnil] at hsome
      exact absurd rfl hsome
    case h_2 distances hcut =>
      have hpage := cut_page hperm hsorted hcut
      rw [← htagged.forget] at hpage
      obtain ⟨found, hfound, rfl⟩ := hpage.exists_map (R := .ascending dis)
        fun hbefore => hbefore
      exact ⟨found, IsFirst.merge htagged.first (.of_page hfound), .inr hout⟩

end Nearest

section Converse

variable [Zero S] [LinearOrder S] [LinearOrder R] {targets : List (VecTarget α φ ι R)}
  {q : VectorQuery α φ} {vectors : ι → VecHits DocID R} {score : R → S}
  {maxResults : Int} {found found' : List (IndexDistance ι R)}

theorem first_unique (hdis : ((allDistances targets vectors).map dis).Nodup)
    (h : KNearest targets q vectors found) (h' : KNearest targets q vectors found') :
    found'.Perm found := by
  have hnodup : ∀ {l}, KNearest targets q vectors l → l.Nodup := by
    intro l hl
    obtain ⟨rest, hall, -⟩ := hl.exists_rest
    exact (nodup_append.1 (hall.nodup_iff.2 (.of_map _ hdis))).1
  have hsub : ∀ {l l'}, KNearest targets q vectors l → KNearest targets q vectors l' →
      ∀ x ∈ l, x ∈ l' := by
    intro l l' hl hl' x hx
    obtain ⟨y, hy, heq⟩ := mem_map.1 ((hl.values hl').mem_iff.1 (mem_map_of_mem hx))
    exact inj_on_of_nodup_map hdis (hl'.mem hy) (hl.mem hx) heq ▸ hy
  exact (perm_ext_iff_of_nodup (hnodup h') (hnodup h)).2 fun x => ⟨hsub h' h x, hsub h h' x⟩

/-- What is retrieved for the nearest documents, if it is right: these documents, each with the
score of its own distance. -/
theorem right_docs (h : NearestSearches targets q vectors) (hrequest : q.request = .ok ())
    (hdis : ((allDistances targets vectors).map dis).Nodup)
    (hright : ∀ rank out, VectorSearches score rank maxResults targets q out →
      NearestHits score targets q vectors out)
    (hfound : KNearest targets q vectors found)
    (hne : found ≠ []) (rank : Ranking (ι × DocID)) :
    ∃ docs distances, ReadersHits rank ⟨0, found.length, maxResults⟩
        (matchedDocs targets (found.map fun x => x.doc.2)) docs ∧
      docs.Perm (found.map IndexDistance.doc) ∧
      ∀ x ∈ found, joinScore score distances x.doc = x.hit score := by
  obtain ⟨out, hout⟩ := exists_vectorSearches score rank maxResults targets q
  obtain ⟨first, hfirst, hcases⟩ := search_cases h hout
  obtain ⟨hits, found', rfl, hfound', hhits, -⟩ := hright rank out hout
  have hperm := first_unique hdis hfound hfirst
  rcases hcases with ⟨rfl, -⟩ | hretrieves
  · exact absurd (nil_perm.1 hperm) hne
  rw [Retrieves, hrequest] at hretrieves
  obtain ⟨docs, hits', hdocs, hjoin, -, heq⟩ := hretrieves
  cases heq
  have hscores := hjoin.symm.trans (hhits.trans ((first_unique hdis hfound hfound').map _))
  refine ⟨docs, first.map IndexDistance.forget, ?_, ?_, fun x hx => ?_⟩
  · have hids : matchedDocs targets (first.map fun x => x.doc.2) =
        matchedDocs targets (found.map fun x => x.doc.2) := by
      simp only [matchedDocs, (hperm.map fun x => x.doc.2).mem_iff]
    rwa [map_id_forget, length_map, hperm.length_eq, hids] at hdocs
  · have hdocs := hscores.map fun hit : VecHit ι S => (hit.index, hit.id)
    rw [map_map, map_map] at hdocs
    exact (.of_eq (map_id docs).symm : docs.Perm _).trans hdocs
  · obtain ⟨doc, -, heq⟩ := mem_map.1 (hscores.mem_iff.2 (mem_map_of_mem hx))
    have hdoc : doc = x.doc :=
      Prod.ext (congrArg VecHit.index heq) (congrArg VecHit.id heq)
    rw [← hdoc, heq]

open Classical in
theorem apart_of_right (h : NearestSearches targets q vectors) (hrequest : q.request = .ok ())
    (hscore : Function.Injective score) (hdis : ((allDistances targets vectors).map dis).Nodup)
    (hright : ∀ rank out, VectorSearches score rank maxResults targets q out →
      NearestHits score targets q vectors out) :
    NearestApart targets q vectors maxResults := by
  intro found hfound
  have hapart : ∀ x ∈ found, ∀ t ∈ targets, t.name ≠ x.doc.1 → x.doc.2 ∉ t.readers.flatten := by
    intro x hx t ht hname hin
    -- the readers have the document of the other index first
    obtain ⟨docs, distances, hdocs, hperm, hjoin⟩ := right_docs h hrequest hdis hright hfound
      (ne_nil_of_mem hx) (.ascending fun doc => if doc = (t.name, x.doc.2) then 0 else 1)
    have hmem : (t.name, x.doc.2) ∈ docs := by
      refine readersHits_mem hdocs (fun e hbefore => ?_) ?_ ?_
      · by_contra hne
        simp [Ranking.ascending, hne] at hbefore
      · rw [flatten_matchedDocs]
        exact mem_flatMap.2 ⟨t, ht, mem_map.2 ⟨x.doc.2, mem_filter.2
          ⟨hin, decide_eq_true (mem_map_of_mem hx)⟩, rfl⟩⟩
      · rintro rfl
        cases hperm.mem_iff.2 (mem_map_of_mem hx)
    obtain ⟨y, hy, hdoc⟩ := mem_map.1 (hperm.mem_iff.1 hmem)
    -- both documents get the score of the first distance with their id
    have hscores : score y.dis = score x.dis := by
      have hy' := congrArg VecHit.score (hjoin y hy)
      have hx' := congrArg VecHit.score (hjoin x hx)
      rw [hdoc] at hy'
      exact hy'.symm.trans hx'
    have heq := inj_on_of_nodup_map hdis (hfound.mem hy) (hfound.mem hx) (hscore hscores)
    rw [heq] at hdoc
    exact hname (congrArg Prod.fst hdoc).symm
  refine ⟨hapart, ?_⟩
  by_cases hne : found = []
  · subst hne
    intro docs hdocs
    obtain ⟨t, -, hdocs⟩ := mem_flatMap.1 hdocs
    obtain ⟨reader, -, rfl⟩ := mem_map.1 hdocs
    simp
  · obtain ⟨docs, -, hdocs, hperm, -⟩ := right_docs h hrequest hdis hright hfound hne
      (.ascending fun _ => 0)
    have hmatched := matchedDocs_perm (retrievable_first h hfound hapart) h.names
    exact readersHits_whole hdocs (hmatched.trans hperm.symm).length_eq.le

end Converse

end VectorSearchLemmas

open VectorSearchLemmas

section Main

variable [Zero S] [LinearOrder S] [LinearOrder R] {targets : List (VecTarget α φ ι R)}
  {q : VectorQuery α φ} {vectors : ι → VecHits DocID R}

/-- `VectorSearch` returns the nearest documents of all indexes if no other index has a document
with the id of one of them and no reader has more than `MaxResults` of them. If all distances and
their scores are different, then it does so, for every order of the readers, only in this case. -/
theorem vector_search_nearest (h : NearestSearches targets q vectors)
    (hrequest : q.request = .ok ()) (maxResults : Int) (score : R → S) :
    (∀ rank, ∃ out, VectorSearches score rank maxResults targets q out) ∧
      (NearestApart targets q vectors maxResults →
        ∀ rank out, VectorSearches score rank maxResults targets q out →
          NearestHits score targets q vectors out) ∧
      (Function.Injective score → ((allDistances targets vectors).map dis).Nodup →
        (∀ rank out, VectorSearches score rank maxResults targets q out →
          NearestHits score targets q vectors out) →
        NearestApart targets q vectors maxResults) := by
  refine ⟨fun rank => exists_vectorSearches score rank maxResults targets q, ?_,
    apart_of_right h hrequest⟩
  intro hapart rank out hout
  obtain ⟨found, hfirst, hcases⟩ := search_cases h hout
  obtain ⟨hids, hmax⟩ := hapart found hfirst
  rcases hcases with ⟨rfl, rfl⟩ | hretrieves
  · exact ⟨[], [], rfl, hfirst, .refl _, .nil⟩
  · obtain ⟨hits, rfl, hhits, hranked⟩ :=
      retrieves_all (retrievable_first h hfirst hids) h.names hrequest hmax hretrieves
    exact ⟨hits, found, rfl, hfirst, hhits, hranked⟩

end Main

namespace VectorSearchLemmas

def oneTarget (name : String) (x : VecSearchRes DocID Nat) : VecTarget Unit Unit String Nat where
  name := name
  vecIndex := .ok ⟨1, fun _ k _ => .ok ([x].take k.toNat), fun _ k _ => .ok ([x].take k.toNat)⟩
  search := fun _ => .ok [x.id]
  readers := [[x.id]]

def twoTargets (x y : VecSearchRes DocID Nat) : List (VecTarget Unit Unit String Nat) :=
  [oneTarget "a" x, oneTarget "b" y]

def twoVectors (x y : VecSearchRes DocID Nat) (name : String) : List (VecSearchRes DocID Nat) :=
  if name = "a" then [x] else [y]

def askFor (k : Int) : VectorQuery Unit Unit := ⟨[()], k, 1, none, .ok ()⟩

def scoreOf (distance : Nat) : ℚ := 1 / (1 + distance)

def sameRank : Ranking (String × DocID) := .ascending fun _ => 0

theorem nearest_two (x y : VecSearchRes DocID Nat) (k : Int) :
    NearestSearches (twoTargets x y) (askFor k) (twoVectors x y) where
  names := by simp [twoTargets, oneTarget]
  search := by
    have hfirst : ∀ z : VecSearchRes DocID Nat, IsFirst byDistance k.toNat [z] ([z].take k.toNat) :=
      fun z => .of_page ⟨[z], .refl _, pairwise_singleton _ _, rfl⟩
    intro t ht
    rcases mem_cons.1 ht with rfl | ht
    · exact ⟨_, rfl, hfirst x⟩
    · obtain rfl := mem_singleton.1 ht
      exact ⟨_, rfl, hfirst y⟩
  ids := by
    intro t ht
    rcases mem_cons.1 ht with rfl | ht
    · exact nodup_singleton _
    · obtain rfl := mem_singleton.1 ht
      exact nodup_singleton _
  live := by
    intro t ht z hz
    rcases mem_cons.1 ht with rfl | ht
    · obtain rfl := mem_singleton.1 hz
      exact count_singleton_self
    · obtain rfl := mem_singleton.1 ht
      obtain rfl := mem_singleton.1 hz
      exact count_singleton_self

theorem apart_two (h : x.id ≠ y.id) (k : Int) :
    NearestApart (twoTargets x y) (askFor k) (twoVectors x y) 1 := by
  intro found hfound
  constructor
  · intro z hz t ht hname hin
    rcases mem_cons.1 (hfound.mem hz) with rfl | hz <;> rcases mem_cons.1 ht with rfl | ht
    · exact hname rfl
    · obtain rfl := mem_singleton.1 ht
      exact h (mem_singleton.1 hin)
    · obtain rfl := mem_singleton.1 hz
      exact h (mem_singleton.1 hin).symm
    · obtain rfl := mem_singleton.1 hz
      obtain rfl := mem_singleton.1 ht
      exact hname rfl
  · intro docs hdocs
    obtain ⟨t, ht, hdocs⟩ := mem_flatMap.1 hdocs
    obtain ⟨reader, hreader, rfl⟩ := mem_map.1 hdocs
    have hone : reader.length = 1 := by
      rcases mem_cons.1 ht with rfl | ht
      · rw [mem_singleton.1 hreader, length_singleton]
      · rw [mem_singleton.1 ht] at hreader
        rw [mem_singleton.1 hreader, length_singleton]
    rw [length_map]
    exact (length_filter_le _ _).trans hone.le

end VectorSearchLemmas

/-- Two indexes with a document each, and `K` above `MaxResults`. -/
theorem vector_search_nearest_two :
    (∃ out, VectorSearches scoreOf sameRank 1 (twoTargets ⟨"1", 1⟩ ⟨"2", 3⟩) (askFor 2) out) ∧
      ∀ out, VectorSearches scoreOf sameRank 1 (twoTargets ⟨"1", 1⟩ ⟨"2", 3⟩) (askFor 2) out →
        NearestHits scoreOf (twoTargets ⟨"1", 1⟩ ⟨"2", 3⟩) (askFor 2)
          (twoVectors ⟨"1", 1⟩ ⟨"2", 3⟩) out :=
  have h := vector_search_nearest (nearest_two ⟨"1", 1⟩ ⟨"2", 3⟩ 2) rfl 1 scoreOf
  ⟨h.1 sameRank, h.2.1 (apart_two (by decide) 2) sameRank⟩

/-- Two indexes with a document "1", at the distances 1 and 3. Both hits have the score of the
first one. -/
theorem same_id_wrong_score :
    NearestSearches (twoTargets ⟨"1", 1⟩ ⟨"1", 3⟩) (askFor 2) (twoVectors ⟨"1", 1⟩ ⟨"1", 3⟩) ∧
      VectorSearches scoreOf sameRank 10 (twoTargets ⟨"1", 1⟩ ⟨"1", 3⟩) (askFor 2)
        (.ok [⟨"a", "1", scoreOf 1⟩, ⟨"b", "1", scoreOf 1⟩]) ∧
      scoreOf 1 ≠ scoreOf 3 := by
  refine ⟨nearest_two _ _ 2, ?_, by norm_num [scoreOf]⟩
  -- both documents match the ids, and each is found with the first distance
  refine ⟨[⟨"1", 1⟩, ⟨"1", 3⟩], .refl _, by simp [byDistance, Ranking.ascending], ?_⟩
  refine ⟨[("a", "1"), ("b", "1")], _, ⟨[[("a", "1")], [("b", "1")]], ?_, ?_⟩, .refl _, ?_, rfl⟩
  · exact .cons ⟨_, .refl _, pairwise_singleton _ _, rfl⟩
      (.cons ⟨_, .refl _, pairwise_singleton _ _, rfl⟩ .nil)
  · refine ⟨[], _, [], .none _, .pop (.refl _) ?_ (.pop (.refl _) ?_ (.none _))⟩
    · exact fun _ _ => le_rfl
    · exact fun _ _ => le_rfl
  · simp [Ranking.descending, joinScore]

end SeaSearch
