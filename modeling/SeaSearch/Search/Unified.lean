import SeaSearch.Search.MultiReader
import SeaSearch.Search.Parts

/-!
# The pages of a unified search

A unified search goes through three levels. `MultiZincSearch` searches the second shards of one
index, `InternalUnifiedSearch` the indexes of one node, and the proxy the nodes.
-/

namespace SeaSearch

open List Pages MultiReaderLemmas

variable {D β : Type}

/-- What the request and the configuration say of the page: `From`, `Size` and `MaxResults`, and
the window that `timerange.Query` returns. -/
structure PageReq where
  start : Nat
  size : Nat
  maxResults : Nat
  timeMin : Int := 0
  timeMax : Int := 0

/-- `Size` after `NormalizeQuery`. -/
def PageReq.normSize (q : PageReq) : Nat := min q.size q.maxResults

/-- The query that `MultiZincSearch` gets. -/
def PageReq.normalized (q : PageReq) : PageQuery := ⟨q.start, q.normSize, q.maxResults⟩

/-- `Size` in `MultiZincSearch` for several searchers: `From` is added, and the query is
normalized once more. -/
def PageReq.readSize (q : PageReq) : Nat := q.normalized.widen.size.toNat

/-- The index, or the part of it, that a node searches: the second-layer shards of each of its
shards, with their time ranges and the documents of them that match, and the ids of the part.
Without ids it is the whole index. -/
structure SearchPart (D : Type) where
  shards : List (List (Stats × List D))
  secondShardIds : List Int

namespace SearchPart

def range (shards : List (Stats × List D)) (k : Nat) : Stats :=
  ((shards[k]?).map Prod.fst).getD {}

def matching (shards : List (Stats × List D)) (k : Nat) : List D :=
  ((shards[k]?).map Prod.snd).getD []

/-- The searchers of `SearchWithStats` and `PartialSearch`, from `GetSearchers` or
`GetSearchersByID`. -/
def searchers (part : SearchPart D) (timeMin timeMax : Int) : List (List D) :=
  part.shards.flatMap fun shards =>
    (if part.secondShardIds.isEmpty then
      searchersBelow (range shards) timeMin timeMax shards.length
    else
      partialSearchers (range shards) shards.length timeMin timeMax part.secondShardIds).map
      (matching shards)

/-- The matching documents of all second-layer shards of the part. -/
def docs (part : SearchPart D) : List D :=
  part.shards.flatMap fun shards =>
    (if part.secondShardIds.isEmpty then List.range shards.length
    else (part.secondShardIds.filter fun id => 0 ≤ id ∧ id < shards.length).map
      Int.toNat).flatMap (matching shards)

/-- No matching document is in a second-layer shard that the search leaves out. -/
def Searched (part : SearchPart D) (timeMin timeMax : Int) : Prop :=
  (part.searchers timeMin timeMax).flatten.Perm part.docs

/-- An index with one second-layer shard. -/
def single (docs : List D) : SearchPart D := ⟨[[({}, docs)]], []⟩

end SearchPart

/-- `SearchWithStats` and `PartialSearch`: the hits of one index. -/
def UnitHits (R : Ranking D) (q : PageReq) (part : SearchPart D) (hits : List D) : Prop :=
  ReadersHits R q.normalized (part.searchers q.timeMin q.timeMax) hits

/-- `query.Size` after the searches of a node: it is that of the query of the first index,
which `MultiZincSearch` has changed if the index has several searchers. -/
def nodeSize (q : PageReq) : List (SearchPart D) → Nat
  | [] => q.normSize
  | part :: _ =>
    if (part.searchers q.timeMin q.timeMax).length > 1 then q.readSize else q.normSize

/-- `InternalUnifiedSearch` and `UnifiedSearch` without a proxy: the hits of one node. -/
def NodeHits [LinearOrder β] (R : Ranking D) (score : D → β) (q : PageReq)
    (units : List (SearchPart D)) (hits : List D) : Prop :=
  ∃ pages, List.Forall₂ (UnitHits R q) units pages ∧
    IsPage (.descending score) 0 (nodeSize q units) pages.flatten hits

/-- `execParallelQueries`: the hits of the proxy. -/
def ProxyHits [LinearOrder β] (R : Ranking D) (score : D → β) (q : PageReq)
    (nodes : List (List (SearchPart D))) (hits : List D) : Prop :=
  ∃ pages, List.Forall₂ (NodeHits R score q) nodes pages ∧
    IsPage (.descending score) 0 q.size pages.flatten hits

def nodeDocs (units : List (SearchPart D)) : List D := (units.map SearchPart.docs).flatten

def proxyDocs (nodes : List (List (SearchPart D))) : List D := (nodes.map nodeDocs).flatten

/-- No node leaves out a shard with matching documents. -/
def AllSearched (q : PageReq) (units : List (SearchPart D)) : Prop :=
  ∀ part ∈ units, part.Searched q.timeMin q.timeMax

/-- There is an answer, and every answer is the page of the documents that is asked for. -/
structure RightPage (R : Ranking D) (q : PageReq) (Hits : List D → Prop) (docs : List D) :
    Prop where
  returns : ∃ hits, Hits hits
  page : ∀ hits, Hits hits → IsPage R q.start q.size docs hits

/-- The first page, by an order that descending scores agree with, and not more than the
largest number of results. -/
def FirstByScore [LinearOrder β] (R : Ranking D) (score : D → β) (q : PageReq) : Prop :=
  q.start = 0 ∧ q.size ≤ q.maxResults ∧ ∀ a b, score b ≤ score a → R.before a b

namespace UnifiedLemmas

section Levels

variable [LinearOrder β]

theorem exists_nodeHits (R : Ranking D) (score : D → β) (q : PageReq)
    (units : List (SearchPart D)) : ∃ hits, NodeHits R score q units hits := by
  obtain ⟨pages, hpages⟩ := exists_forall₂ (fun part : SearchPart D =>
    exists_readersHits R q.normalized (part.searchers q.timeMin q.timeMax)) units
  obtain ⟨hits, hhits⟩ := IsPage.exists_page (.descending score) 0 (nodeSize q units) pages.flatten
  exact ⟨hits, pages, hpages, hhits⟩

theorem exists_proxyHits (R : Ranking D) (score : D → β) (q : PageReq)
    (nodes : List (List (SearchPart D))) : ∃ hits, ProxyHits R score q nodes hits := by
  obtain ⟨pages, hpages⟩ := exists_forall₂ (exists_nodeHits R score q) nodes
  obtain ⟨hits, hhits⟩ := IsPage.exists_page (.descending score) 0 q.size pages.flatten
  exact ⟨hits, pages, hpages, hhits⟩

end Levels

theorem page_nil (R : Ranking D) (start size : Nat) : IsPage R start size [] [] :=
  ⟨[], .refl _, .nil, by simp⟩

theorem unit_page {part : SearchPart D} (hmax : q.start + q.size ≤ q.maxResults)
    (hpart : part.Searched q.timeMin q.timeMax) (h : UnitHits R q part hits) :
    IsPage R q.start q.size part.docs hits := by
  have hnorm : q.normSize = q.size := min_eq_left (by omega)
  have hwithin : q.normalized.Within :=
    .inr (.inr ⟨Int.natCast_nonneg _, by simp only [PageReq.normalized, hnorm]; omega⟩)
  have hpage := (singleHits_iff.1 (readersHits_single hwithin h)).perm hpart
  have hsize : (min (q.size : Int) q.maxResults).toNat = q.size := by omega
  simp only [PageReq.normalized, hnorm, hsize, Int.toNat_natCast] at hpage
  exact hpage

theorem unit_length {part : SearchPart D} (h : UnitHits R q part hits) :
    hits.length ≤ q.normSize :=
  readersHits_length h

theorem searchers_single (docs : List D) (timeMin timeMax : Int) :
    (SearchPart.single docs).searchers timeMin timeMax = [docs] := by
  have hrange : SearchPart.range [(({} : Stats), docs)] 0 = {} := rfl
  have hout : ¬ ({} : Stats).outside timeMin timeMax := by
    rintro (⟨-, h, -⟩ | ⟨-, h, -⟩) <;> exact absurd h (by decide)
  have hstop : ¬ ({} : Stats).stops timeMin := fun h => absurd h.1 (by decide)
  simp only [SearchPart.searchers, SearchPart.single, flatMap_cons, flatMap_nil, isEmpty_nil,
    if_true, length_singleton, searchersBelow, hrange, hout, hstop, if_false, append_nil]
  rfl

theorem searched_single (docs : List D) (timeMin timeMax : Int) :
    (SearchPart.single docs).Searched timeMin timeMax := by
  rw [SearchPart.Searched, searchers_single]
  simp [SearchPart.docs, SearchPart.single, SearchPart.matching]

theorem unit_single :
    UnitHits R q (SearchPart.single docs) hits ↔ IsPage R q.start q.normSize docs hits := by
  have hnorm : (min (q.normSize : Int) q.maxResults).toNat = q.normSize := by
    have hle : q.normSize ≤ q.maxResults := min_le_right _ _
    omega
  rw [UnitHits, searchers_single, ReadersHits, singleHits_iff]
  simp only [PageReq.normalized, hnorm, Int.toNat_natCast]

section Levels

variable [LinearOrder β] {R : Ranking D} {score : D → β} {q : PageReq} {hits : List D}
  {units : List (SearchPart D)} {nodes : List (List (SearchPart D))}

theorem level_page (hscore : ∀ a b, score b ≤ score a → R.before a b)
    (hpages : List.Forall₂ (IsPage R 0 q.size) ls pages)
    (hhits : IsPage (.descending score) 0 q.size pages.flatten hits) :
    IsPage R 0 q.size ls.flatten hits :=
  IsPage.merge hpages (hhits.mono fun h => hscore _ _ h) (le_of_eq (zero_add _))

theorem nodeSize_eq (hfirst : q.start = 0) (hmax : q.size ≤ q.maxResults)
    (units : List (SearchPart D)) : nodeSize q units = q.size := by
  have hnorm : q.normSize = q.size := min_eq_left hmax
  have hread : q.readSize = q.size := by
    rw [PageReq.readSize, PageQuery.widen, size_normalize]
    simp only [PageReq.normalized, hnorm, hfirst]
    omega
  cases units with
  | nil => exact hnorm
  | cons part units =>
    rw [nodeSize]
    split
    · exact hread
    · exact hnorm

theorem node_page (hq : FirstByScore R score q) (hunits : AllSearched q units)
    (h : NodeHits R score q units hits) : IsPage R 0 q.size (nodeDocs units) hits := by
  obtain ⟨hfirst, hmax, hscore⟩ := hq
  obtain ⟨pages, hpages, hhits⟩ := h
  rw [nodeSize_eq hfirst hmax] at hhits
  refine level_page hscore ?_ hhits
  rw [forall₂_map_left_iff]
  refine ((forall₂_and_left _ _).2 ⟨hunits, hpages⟩).imp fun part page hpage => ?_
  have hunit := unit_page (by omega) hpage.1 hpage.2
  rwa [hfirst] at hunit

theorem proxy_page (hq : FirstByScore R score q) (hnodes : ∀ units ∈ nodes, AllSearched q units)
    (h : ProxyHits R score q nodes hits) : IsPage R 0 q.size (proxyDocs nodes) hits := by
  obtain ⟨pages, hpages, hhits⟩ := h
  refine level_page hq.2.2 ?_ hhits
  rw [forall₂_map_left_iff]
  exact ((forall₂_and_left _ _).2 ⟨hnodes, hpages⟩).imp fun units page hpage =>
    node_page hq hpage.1 hpage.2

theorem flatten_pages_zero (hsize : q.size = 0) (h : List.Forall₂ (UnitHits R q) units pages) :
    pages.flatten = [] := by
  induction h with
  | nil => rfl
  | cons hunit _ ih =>
    have hlen := unit_length hunit
    rw [PageReq.normSize, hsize, Nat.zero_min, Nat.le_zero, length_eq_zero_iff] at hlen
    rw [flatten_cons, hlen, ih, append_nil]

theorem node_zero (hsize : q.size = 0) (h : NodeHits R score q units hits) : hits = [] := by
  obtain ⟨pages, hpages, hhits⟩ := h
  exact hhits.eq_nil (by simp [flatten_pages_zero hsize hpages])

theorem proxy_zero (hsize : q.size = 0) (h : ProxyHits R score q nodes hits) : hits = [] := by
  obtain ⟨pages, -, hhits⟩ := h
  rw [← length_eq_zero_iff, hhits.length_eq, hsize, Nat.zero_min]

theorem proxy_of_node (h : NodeHits R score q units hits) (hlen : hits.length ≤ q.size) :
    ProxyHits R score q [units] hits := by
  have hsorted : hits.Pairwise (Ranking.descending score).before := by
    obtain ⟨pages, -, hhits⟩ := h
    exact hhits.sorted
  refine ⟨[hits], .cons h .nil, hits, ?_, hsorted, ?_⟩
  · rw [flatten_singleton]
  · rw [drop_zero, take_of_length_le hlen]

abbrev WrongPage (R : Ranking D) (score : D → β) (q : PageReq) : Prop :=
  ∃ units hits, AllSearched q units ∧ NodeHits R score q units hits ∧ hits.length ≤ q.size ∧
    ¬ IsPage R q.start q.size (nodeDocs units) hits

theorem allSearched_single (lists : List (List D)) :
    AllSearched q (lists.map SearchPart.single) := by
  intro part hpart
  obtain ⟨docs, -, rfl⟩ := mem_map.1 hpart
  exact searched_single docs _ _

theorem nodeDocs_single (lists : List (List D)) :
    nodeDocs (lists.map SearchPart.single) = lists.flatten := by
  rw [nodeDocs, map_map]
  refine congrArg List.flatten ((map_congr_left fun docs _ => ?_).trans (map_id lists))
  simp [SearchPart.docs, SearchPart.single, SearchPart.matching]

theorem skipped [Inhabited D] (hsize : q.size ≠ 0) (hstart : q.start ≠ 0) :
    WrongPage R score q := by
  have hskip : ∀ docs : List D, docs.length ≤ q.start → UnitHits R q (.single docs) [] := by
    intro docs hlen
    obtain ⟨page, hpage⟩ := IsPage.exists_page R q.start q.normSize docs
    rw [hpage.eq_nil hlen] at hpage
    exact unit_single.2 hpage
  refine ⟨[[default], List.replicate q.start default].map .single, [], allSearched_single _, ?_,
    Nat.zero_le _, ?_⟩
  · refine ⟨[[], []], .cons (hskip _ ?_) (.cons (hskip _ ?_) .nil), page_nil _ _ _⟩
    · exact Nat.one_le_iff_ne_zero.2 hstart
    · exact le_of_eq length_replicate
  · intro hpage
    have hlen := hpage.length_eq
    rw [nodeDocs_single] at hlen
    simp only [flatten_cons, flatten_nil, append_nil, length_nil, length_append,
      length_replicate, length_cons] at hlen
    omega

theorem cut [Inhabited D] (hstart : q.start = 0) (hmax : q.maxResults < q.size) :
    WrongPage R score q := by
  obtain ⟨hits, hhits⟩ :=
    exists_nodeHits R score q ([List.replicate (q.maxResults + 1) (default : D)].map .single)
  have hlen : hits.length ≤ q.maxResults := by
    obtain ⟨pages, -, hpage⟩ := hhits
    have hnode : nodeSize q ([List.replicate (q.maxResults + 1) (default : D)].map .single) =
        q.normSize := by
      rw [map_singleton, nodeSize, searchers_single]
      rfl
    rw [hpage.length_eq, hnode]
    exact le_trans (min_le_left _ _) (min_le_right _ _)
  refine ⟨_, hits, allSearched_single _, hhits, by omega, ?_⟩
  intro hpage
  have hall := hpage.length_eq
  rw [nodeDocs_single, flatten_singleton, length_replicate, hstart] at hall
  omega

theorem reordered (hstart : q.start = 0) (hsize : q.size ≠ 0) (hmax : q.size ≤ q.maxResults)
    (hscore : score b ≤ score a) (hsort : ¬ R.before a b) :
    WrongPage R score q := by
  have hnorm : q.normSize = q.size := min_eq_left hmax
  obtain ⟨n, hn⟩ := Nat.exists_eq_succ_of_ne_zero hsize
  have hone : ∀ d : D, UnitHits R q (.single [d]) [d] := by
    intro d
    refine unit_single.2 ⟨[d], .refl _, pairwise_singleton _ _, ?_⟩
    simp [hstart, hnorm, hn]
  refine ⟨[[a], [b]].map .single, [a, b].take q.size, allSearched_single _, ?_, ?_, ?_⟩
  · refine ⟨[[a], [b]], .cons (hone a) (.cons (hone b) .nil), [a, b], .refl _, ?_, ?_⟩
    · exact pairwise_pair.2 hscore
    · rw [drop_zero, nodeSize_eq hstart hmax]
  · rw [length_take]
    exact min_le_left _ _
  · rw [nodeDocs_single]
    rintro ⟨sorted, hperm, hsorted, hpage⟩
    rw [hstart, drop_zero, hn] at hpage
    -- the first hit is `a`, so `a` comes before `b` in the order of the sort
    cases sorted with
    | nil => simp at hpage
    | cons c rest =>
      obtain rfl : a = c := (List.cons.inj hpage).1
      have hrest : rest.Perm [b] := hperm.cons_inv
      have hmem : b ∈ rest := hrest.mem_iff.2 (mem_singleton_self b)
      exact hsort (rel_of_pairwise_cons hsorted hmem)

theorem exists_wrong [Inhabited D] (hsize : q.size ≠ 0) (hq : ¬ FirstByScore R score q) :
    WrongPage R score q := by
  by_cases hstart : q.start = 0
  · rcases lt_or_ge q.maxResults q.size with hlt | hge
    · exact cut hstart hlt
    · have hsort : ∃ a b, score b ≤ score a ∧ ¬ R.before a b := by
        by_contra hall
        push Not at hall
        exact hq ⟨hstart, hge, hall⟩
      obtain ⟨a, b, hscore, hnot⟩ := hsort
      exact reordered hstart hsize hge hscore hnot
  · exact skipped hsize hstart

end Levels

end UnifiedLemmas

open UnifiedLemmas

/-- A request gets the right page for all documents and all ways to distribute them over
nodes, indexes and second shards, as long as no shard with matching documents is left out, if and
only if it asks for no results or for a first page by score, within the largest number of results.
The same holds on a single node without a proxy. -/
theorem right_page_iff [LinearOrder β] [Inhabited D] (R : Ranking D) (score : D → β)
    (q : PageReq) :
    ((∀ nodes, (∀ units ∈ nodes, AllSearched q units) →
        RightPage R q (ProxyHits R score q nodes) (proxyDocs nodes)) ↔
      q.size = 0 ∨ FirstByScore R score q) ∧
    ((∀ units, AllSearched q units → RightPage R q (NodeHits R score q units) (nodeDocs units)) ↔
      q.size = 0 ∨ FirstByScore R score q) := by
  constructor
  · constructor
    · intro h
      by_contra hnot
      push Not at hnot
      obtain ⟨units, hits, hall, hnode, hlen, hwrong⟩ := exists_wrong hnot.1 hnot.2
      have hpage := (h [units] (forall_mem_singleton.2 hall)).page hits (proxy_of_node hnode hlen)
      rw [proxyDocs, map_singleton, flatten_singleton] at hpage
      exact hwrong hpage
    · intro hq nodes hnodes
      refine ⟨exists_proxyHits R score q nodes, ?_⟩
      intro hits hhits
      rcases hq with hsize | hq
      · rw [proxy_zero hsize hhits, hsize]
        exact IsPage.zero R _ _
      · rw [hq.1]
        exact proxy_page hq hnodes hhits
  · constructor
    · intro h
      by_contra hnot
      push Not at hnot
      obtain ⟨units, hits, hall, hnode, -, hwrong⟩ := exists_wrong hnot.1 hnot.2
      exact hwrong ((h units hall).page hits hnode)
    · intro hq units hunits
      refine ⟨exists_nodeHits R score q units, ?_⟩
      intro hits hhits
      rcases hq with hsize | hq
      · rw [node_zero hsize hhits, hsize]
        exact IsPage.zero R _ _
      · rw [hq.1]
        exact node_page hq hunits hhits

/-- Two indexes with one document each. The second page of one result is empty, although the
second document should be on it. -/
theorem second_page_empty :
    (∀ units ∈ [[[5], [3]].map SearchPart.single], AllSearched ⟨1, 1, 10, 0, 0⟩ units) ∧
      ProxyHits (.descending id) id ⟨1, 1, 10, 0, 0⟩ [[[5], [3]].map .single] [] ∧
      ¬ IsPage (.descending id) 1 1 (proxyDocs [[[5], [3]].map .single]) [] ∧
      IsPage (.descending id) 1 1 (proxyDocs [[[5], [3]].map .single]) [3] := by
  have hone : ∀ d : Nat, UnitHits (.descending id) ⟨1, 1, 10, 0, 0⟩ (.single [d]) [] := fun d =>
    unit_single.2 ⟨[d], .refl _, pairwise_singleton _ _, rfl⟩
  have hnode : NodeHits (.descending id) id ⟨1, 1, 10, 0, 0⟩ ([[5], [3]].map .single) [] :=
    ⟨[[], []], .cons (hone 5) (.cons (hone 3) .nil), page_nil _ _ _⟩
  refine ⟨forall_mem_singleton.2 (allSearched_single _), proxy_of_node hnode (by decide), ?_,
    [5, 3], .refl _, ?_, rfl⟩
  · intro hpage
    exact absurd hpage.length_eq (by decide)
  · exact pairwise_pair.2 (by decide : (3 : Nat) ≤ 5)

-- the second shard of the part has a document from 6 on, but the first one ends the search
example : (SearchPart.mk [[(⟨1, 5⟩, [4]), (⟨6, 10⟩, [7])]] [0, 1]).searchers 3 0 = [[4]] := by
  decide

end SeaSearch
