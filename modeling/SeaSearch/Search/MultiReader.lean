import SeaSearch.Lib.Pages

/-!
# Searching several readers

`MultiZincSearch` with several readers asks each of them for the results up to the end of the page,
collects what they return in a heap, skips `From` documents of it and returns the next `Size`.
-/

namespace SeaSearch

open List Pages

variable {D : Type}

/-- `From` and `Size` of a query, and `MaxResults`. -/
structure PageQuery where
  start : Int
  size : Int
  maxResults : Int

/-- `NormalizeQuery`. -/
def PageQuery.normalize (q : PageQuery) : PageQuery :=
  { q with size := if q.size > q.maxResults then q.maxResults else q.size }

/-- The query for each of several readers: `From` is added to `Size`. -/
def PageQuery.widen (q : PageQuery) : PageQuery :=
  PageQuery.normalize { q with size := q.size + q.start, start := 0 }

/-- `Search` with the request of `ParseQueryDSL`. `From` is set if it is positive. -/
def ReaderHits (R : Ranking D) (q : PageQuery) (docs hits : List D) : Prop :=
  IsPage R (if q.start > 0 then q.start else 0).toNat q.size.toNat docs hits

/-- `getSingleReaderResult`. -/
def SingleHits (R : Ranking D) (q : PageQuery) (docs hits : List D) : Prop :=
  ReaderHits R q.normalize docs hits

/-- `n` times `heap.Pop`: a document of the first rank is taken out each time. -/
inductive Popped (R : Ranking D) : Nat → List D → List D → List D → Prop
  | none (docs : List D) : Popped R 0 docs [] docs
  | pop {n : Nat} {docs rest out left : List D} {d : D} :
      docs.Perm (d :: rest) → (∀ x ∈ rest, R.before d x) → Popped R n rest out left →
      Popped R (n + 1) docs (d :: out) left

/-- `size` of the list after the searches: each raises it to the number of its documents. In
the end it is not above `maxSize`. -/
def listSize (size maxSize : Int) (pages : List (List D)) : Int :=
  let raised := pages.foldl (fun size page =>
    if (page.length : Int) > size then (page.length : Int) else size) size
  if raised > maxSize then maxSize else raised

/-- `Done` skips `start` documents of the list, and the calls of `Next` return the others up
to `size`. -/
def ListHits (R : Ranking D) (start size : Int) (docs hits : List D) : Prop :=
  ∃ skipped rest left, Popped R (min start.toNat docs.length) docs skipped rest ∧
    Popped R (min size.toNat rest.length) rest hits left

/-- `MultiZincSearch` for several readers. -/
def MultiHits (R : Ranking D) (q : PageQuery) (readers : List (List D)) (hits : List D) : Prop :=
  ∃ pages, List.Forall₂ (ReaderHits R q.widen) readers pages ∧
    ListHits R q.start (listSize q.size q.size pages) pages.flatten hits

/-- `MultiZincSearch` for any number of readers. -/
def ReadersHits (R : Ranking D) (q : PageQuery) : List (List D) → List D → Prop
  | [], hits => hits = []
  | [docs], hits => SingleHits R q docs hits
  | docs :: docs' :: readers, hits => MultiHits R q (docs :: docs' :: readers) hits

/-- Several readers return hits, and these are a page of one reader with all documents. -/
structure SamePage (R : Ranking D) (q : PageQuery) (readers : List (List D)) : Prop where
  returns : ∃ hits, MultiHits R q readers hits
  page : ∀ hits, MultiHits R q readers hits → SingleHits R q readers.flatten hits

/-- The page ends within `MaxResults`. -/
def PageQuery.Within (q : PageQuery) : Prop :=
  q.size ≤ 0 ∨ q.maxResults ≤ 0 ∨ 0 ≤ q.start ∧ q.start + q.size ≤ q.maxResults

namespace MultiReaderLemmas

variable {R : Ranking D} {docs hits : List D}

theorem popped_spec (h : Popped R n docs out left) :
    docs.Perm (out ++ left) ∧ out.length = n ∧ out.Pairwise R.before ∧
      ∀ a ∈ out, ∀ b ∈ left, R.before a b := by
  induction h with
  | none docs => exact ⟨.refl _, rfl, .nil, by simp⟩
  | @pop n docs rest out left d hperm hfirst _ ih =>
    obtain ⟨hrest, hlen, hsorted, hbefore⟩ := ih
    refine ⟨hperm.trans (hrest.cons d), by simp [hlen], ?_, ?_⟩
    · exact pairwise_cons.2 ⟨fun b hb =>
        hfirst b (hrest.mem_iff.2 (mem_append_left _ hb)), hsorted⟩
    · rintro a ha b hb
      rcases mem_cons.1 ha with rfl | ha
      · exact hfirst b (hrest.mem_iff.2 (mem_append_right _ hb))
      · exact hbefore a ha b hb

theorem exists_popped (R : Ranking D) (hn : n ≤ docs.length) :
    ∃ out left, Popped R n docs out left := by
  obtain ⟨sorted, hperm, hsorted⟩ := R.exists_sorted docs
  induction n generalizing docs sorted with
  | zero => exact ⟨[], docs, .none docs⟩
  | succ n ih =>
    cases sorted with
    | nil =>
      rw [← hperm.length_eq] at hn
      cases hn
    | cons d rest =>
      obtain ⟨hfirst, hrest⟩ := pairwise_cons.1 hsorted
      have hlen : n ≤ rest.length := by
        rw [← hperm.length_eq, length_cons] at hn
        omega
      obtain ⟨out, left, hpop⟩ := ih hlen rest (.refl _) hrest
      exact ⟨d :: out, left, .pop hperm.symm hfirst hpop⟩

end MultiReaderLemmas

open MultiReaderLemmas

theorem list_page (h : ListHits R start size docs hits) :
    IsPage R start.toNat size.toNat docs hits := by
  obtain ⟨skipped, rest, left, hskip, hnext⟩ := h
  obtain ⟨hperm, hlen, hsorted, hbefore⟩ := popped_spec hskip
  obtain ⟨hperm', hlen', hsorted', hbefore'⟩ := popped_spec hnext
  obtain ⟨last, hlast, hranked⟩ := R.exists_sorted left
  have hrest : (hits ++ last).Perm rest := (hlast.append_left hits).trans hperm'.symm
  have hdocs : docs.length = skipped.length + rest.length := by
    rw [hperm.length_eq, length_append]
  have hlength := hrest.length_eq
  rw [length_append] at hlength
  refine .of_split ((hrest.append_left skipped).trans hperm.symm) ?_ ?_ ?_
  · rw [pairwise_append, pairwise_append]
    refine ⟨hsorted, ⟨hsorted', hranked, ?_⟩, ?_⟩
    · exact fun a ha b hb => hbefore' a ha b (hlast.mem_iff.1 hb)
    · exact fun a ha b hb => hbefore a ha b (hrest.mem_iff.1 hb)
  · rcases le_total start.toNat docs.length with hle | hle
    · exact .inl (by omega)
    · refine .inr ⟨by omega, ?_⟩
      rw [← length_eq_zero_iff, length_append]
      omega
  · rcases le_total size.toNat rest.length with hle | hle
    · exact .inl (by omega)
    · refine .inr ⟨by omega, ?_⟩
      rw [← length_eq_zero_iff]
      omega

namespace MultiReaderLemmas

variable {R : Ranking D} {q : PageQuery} {docs hits : List D} {readers : List (List D)}

theorem exists_listHits (R : Ranking D) (start size : Int) (docs : List D) :
    ∃ hits, ListHits R start size docs hits := by
  obtain ⟨skipped, rest, hskip⟩ := exists_popped R (min_le_right start.toNat docs.length)
  obtain ⟨hits, left, hnext⟩ := exists_popped R (min_le_right size.toNat rest.length)
  exact ⟨hits, skipped, rest, left, hskip, hnext⟩

theorem listSize_self (size : Int) (pages : List (List D)) : listSize size size pages = size := by
  have hraised : ∀ low : Int, size ≤ low → size ≤ pages.foldl (fun size page =>
      if (page.length : Int) > size then (page.length : Int) else size) low := by
    induction pages with
    | nil => exact fun low hlow => hlow
    | cons page pages ih =>
      intro low hlow
      refine ih _ ?_
      dsimp only
      split <;> omega
  have := hraised size le_rfl
  unfold listSize
  dsimp only
  split <;> omega

theorem size_normalize (q : PageQuery) : q.normalize.size = min q.size q.maxResults := by
  unfold PageQuery.normalize
  dsimp only
  split <;> omega

theorem readerHits_iff :
    ReaderHits R q docs hits ↔ IsPage R q.start.toNat q.size.toNat docs hits := by
  have hstart : (if q.start > 0 then q.start else 0).toNat = q.start.toNat := by
    split <;> omega
  rw [ReaderHits, hstart]

theorem singleHits_iff :
    SingleHits R q docs hits ↔
      IsPage R q.start.toNat (min q.size q.maxResults).toNat docs hits := by
  rw [SingleHits, readerHits_iff, size_normalize]
  exact Iff.rfl

theorem widenHits_iff :
    ReaderHits R q.widen docs hits ↔
      IsPage R 0 (min (q.size + q.start) q.maxResults).toNat docs hits := by
  rw [readerHits_iff, PageQuery.widen, size_normalize]
  exact Iff.rfl

theorem multiHits_page (h : MultiHits R q readers hits) :
    ∃ pages, List.Forall₂ (IsPage R 0 (min (q.size + q.start) q.maxResults).toNat) readers pages ∧
      IsPage R q.start.toNat q.size.toNat pages.flatten hits := by
  obtain ⟨pages, hpages, hhits⟩ := h
  rw [listSize_self] at hhits
  exact ⟨pages, hpages.imp fun _ _ => widenHits_iff.1, list_page hhits⟩

theorem exists_multiHits (R : Ranking D) (q : PageQuery) (readers : List (List D)) :
    ∃ hits, MultiHits R q readers hits := by
  have hreader : ∀ docs, ∃ page, ReaderHits R q.widen docs page := fun docs =>
    (IsPage.exists_page R 0 _ docs).imp fun _ => widenHits_iff.2
  obtain ⟨pages, hpages⟩ := exists_forall₂ hreader readers
  obtain ⟨hits, hhits⟩ := exists_listHits R q.start (listSize q.size q.size pages) pages.flatten
  exact ⟨hits, pages, hpages, hhits⟩

theorem flatten_pages_nil (h : List.Forall₂ (IsPage R 0 0) readers pages) : pages.flatten = [] := by
  induction h with
  | nil => rfl
  | cons hpage _ ih =>
    have hnil := hpage.length_eq
    rw [Nat.zero_min, length_eq_zero_iff] at hnil
    rw [flatten_cons, hnil, ih, append_nil]

theorem page_within (hq : q.Within) (h : MultiHits R q readers hits) :
    SingleHits R q readers.flatten hits := by
  obtain ⟨pages, hpages, hhits⟩ := multiHits_page h
  rw [singleHits_iff]
  have hcases : q.size ≤ 0 ∨ q.maxResults ≤ 0 ∨
      0 < q.size ∧ 0 ≤ q.start ∧ q.start + q.size ≤ q.maxResults := by
    unfold PageQuery.Within at hq
    omega
  rcases hcases with hsize | hmax | ⟨hpos, hstart, hend⟩
  · have hzero : (min q.size q.maxResults).toNat = 0 := by omega
    have hnil := hhits.length_eq
    rw [Int.toNat_of_nonpos hsize, Nat.zero_min, length_eq_zero_iff] at hnil
    rw [hnil, hzero]
    exact .zero R _ _
  · have hzero : (min q.size q.maxResults).toNat = 0 := by omega
    have hread : (min (q.size + q.start) q.maxResults).toNat = 0 := by omega
    rw [hread] at hpages
    have hnil := hhits.eq_nil (by simp [flatten_pages_nil hpages])
    rw [hnil, hzero]
    exact .zero R _ _
  · have hsize : min q.size q.maxResults = q.size := by omega
    rw [hsize]
    exact IsPage.merge hpages hhits (by omega)

theorem exists_readersHits (R : Ranking D) (q : PageQuery) (readers : List (List D)) :
    ∃ hits, ReadersHits R q readers hits := by
  match readers with
  | [] => exact ⟨[], rfl⟩
  | [docs] => exact (IsPage.exists_page R _ _ docs).imp fun _ => singleHits_iff.2
  | docs :: docs' :: readers => exact exists_multiHits R q (docs :: docs' :: readers)

theorem readersHits_single (hq : q.Within) (h : ReadersHits R q readers hits) :
    SingleHits R q readers.flatten hits := by
  match readers, h with
  | [], h =>
    obtain rfl : hits = [] := h
    exact singleHits_iff.2 ⟨[], .refl _, .nil, by simp⟩
  | [docs], h =>
    rw [flatten_singleton]
    exact h
  | docs :: docs' :: readers, h => exact page_within hq h

theorem readersHits_length (h : ReadersHits R q readers hits) : hits.length ≤ q.size.toNat := by
  match readers, h with
  | [], h =>
    obtain rfl : hits = [] := h
    exact Nat.zero_le _
  | [docs], h =>
    rw [(singleHits_iff.1 h).length_eq]
    exact (min_le_left _ _).trans (Int.toNat_le_toNat (min_le_left _ _))
  | docs :: docs' :: readers, h =>
    obtain ⟨pages, -, hhits⟩ := multiHits_page h
    rw [hhits.length_eq]
    exact min_le_left _ _

theorem length_two (h : MultiHits R q [a, b] hits) :
    hits.length = min q.size.toNat
      (min (min (q.size + q.start) q.maxResults).toNat a.length +
        min (min (q.size + q.start) q.maxResults).toNat b.length - q.start.toNat) := by
  obtain ⟨pages, hpages, hhits⟩ := multiHits_page h
  obtain ⟨pageA, rest, hA, hrest, rfl⟩ := forall₂_cons_left_iff.1 hpages
  obtain ⟨pageB, rest, hB, hnil, rfl⟩ := forall₂_cons_left_iff.1 hrest
  obtain rfl := forall₂_nil_left_iff.1 hnil
  have hlen := hhits.length_eq
  simp only [flatten_cons, flatten_nil, append_nil, length_append,
    hA.length_eq, hB.length_eq, Nat.sub_zero] at hlen
  exact hlen

theorem same_length [Inhabited D] (h : ∀ readers, 2 ≤ readers.length → SamePage R q readers)
    (a b : Nat) :
    min q.size.toNat (min (min (q.size + q.start) q.maxResults).toNat a +
        min (min (q.size + q.start) q.maxResults).toNat b - q.start.toNat) =
      min (min q.size q.maxResults).toNat (a + b - q.start.toNat) := by
  obtain ⟨⟨hits, hhits⟩, hpage⟩ :=
    h [List.replicate a default, List.replicate b default] (le_refl 2)
  have hlen := (singleHits_iff.1 (hpage hits hhits)).length_eq
  rw [length_two hhits] at hlen
  simpa using hlen

end MultiReaderLemmas

/-- Several readers return a page of one reader with all the documents, whatever the
documents are and however they are spread over the readers, if and only if the page ends
within the largest number of results, or there are no results. -/
theorem multi_page_iff [Inhabited D] (R : Ranking D) (q : PageQuery) :
    (∀ readers, 2 ≤ readers.length → SamePage R q readers) ↔ q.Within := by
  constructor
  · intro h
    by_contra hnot
    unfold PageQuery.Within at hnot
    -- one reader with many documents returns what is left of the largest number of results
    obtain ⟨hstart, hsize, hread⟩ : q.start ≤ 0 ∧ q.maxResults < q.size ∧
        q.maxResults ≤ q.size + q.start := by
      have hone := same_length h (q.start.toNat + q.size.toNat + q.maxResults.toNat) 0
      rw [Nat.min_zero, add_zero] at hone
      omega
    -- each of two readers returns the largest number, and one would return it once
    have htwo := same_length h q.maxResults.toNat q.maxResults.toNat
    rw [min_eq_right hread, min_eq_right (le_of_lt hsize), Nat.min_self,
      Int.toNat_of_nonpos hstart] at htwo
    omega
  · intro hq readers _
    exact ⟨exists_multiHits R q readers, fun hits => page_within hq⟩

/-- The second page of one result, when one result is the largest number. Each of two readers
returns its first document, and the second one of the first reader is passed over. -/
theorem clamped_page_wrong :
    MultiHits (.descending id) ⟨1, 1, 1⟩ [[5, 4], [3]] [3] ∧
      SingleHits (.descending id) ⟨1, 1, 1⟩ [5, 4, 3] [4] ∧
      ¬ SingleHits (.descending id) ⟨1, 1, 1⟩ [5, 4, 3] [3] := by
  have hsorted : [5, 4, 3].Pairwise (Ranking.descending (id : Nat → Nat)).before := by
    simp [Ranking.descending]
  refine ⟨⟨[[5], [3]], ?_, [5], [3], [], ?_, ?_⟩, ?_, ?_⟩
  · refine .cons ⟨[5, 4], .refl _, ?_, rfl⟩ (.cons ⟨[3], .refl _, ?_, rfl⟩ .nil)
    · simp [Ranking.descending]
    · exact pairwise_singleton _ _
  · exact .pop (.refl _) (by simp [Ranking.descending]) (.none _)
  · exact .pop (.refl _) (by simp) (.none _)
  · exact ⟨[5, 4, 3], .refl _, hsorted, rfl⟩
  · rintro ⟨sorted, hperm, hranked, hpage⟩
    -- the documents have different ranks, so there is one order
    have hanti : ∀ a b : Nat, b ≤ a → a ≤ b → a = b := fun a b hba hab => le_antisymm hab hba
    obtain rfl := hperm.eq_of_pairwise (fun a b _ _ => hanti a b) hranked hsorted
    exact absurd hpage (by decide)

end SeaSearch
