import SeaSearch.Lib.Heap
import SeaSearch.Search.MultiReader
import SeaSearch.Vector.IvfPq

/-!
# Searching the segments of an IVFPQ index

`Search` and `PartialSearch` search segments at the same time. Each search of a segment sends what
it finds to one goroutine, which puts it into a heap, and in the end the `k` results of the smallest
distances are taken out.
-/

namespace SeaSearch

open List Pages Versions

structure VecSearchRes (ι R : Type) where
  id : ι
  dis : R
  deriving DecidableEq

abbrev VecHits (ι R : Type) := List (VecSearchRes ι R)

open VecSearchRes (dis)

inductive VecSearchError
  | failed (message : String)
  | panic
  deriving DecidableEq

section Search

variable {ι R : Type} [DecidableEq ι] [LinearOrder R]

/-- The last loop of `searchSegments`. It takes out no more results than there are. -/
def popResults : Nat → Array (VecSearchRes ι R) → VecHits ι R →
    VecHits ι R
  | 0, _, result => result
  | n + 1, searchHeap, result =>
    match Heap.pop dis searchHeap with
    | none => result
    | some (res, searchHeap) => popResults n searchHeap (put VecSearchRes.id result res)

/-- What `searchSegments` makes of the results in the order in which they arrive. -/
def mergeResults (k : Int) (docs : VecHits ι R) : VecHits ι R :=
  let searchHeap := docs.foldl (Heap.push dis) #[]
  let size := if (searchHeap.size : Int) ≤ k then (searchHeap.size : Int) else k
  popResults size.toNat searchHeap []

/-- `searchSegments`, from what the searches of the segments return. -/
def searchSegments (k : Int) (order : Shuffle (VecSearchRes ι R))
    (found : List (Except VecSearchError (VecHits ι R))) :
    Except VecSearchError (VecHits ι R) :=
  (found.mapM id).map fun maps => mergeResults k (order.order maps.flatten)

def byDistance : Ranking (VecSearchRes ι R) := .ascending dis

/-- What a search of segments may return, if the search of each segment returns its `k` nearest
documents. -/
def Searches (k : Int) (segs : List (VecHits ι R)) (result : VecHits ι R) : Prop :=
  ∃ found order, List.Forall₂ (IsFirst byDistance k.toNat) segs found ∧
    searchSegments k order (found.map .ok) = .ok result

/-- `vecResult` of the proxy: the results of all nodes. -/
def vecResult (order : Shuffle (VecSearchRes ι R)) (matchedIds : List (VecHits ι R)) :
    VecHits ι R :=
  (order.order matchedIds.flatten).foldl (put VecSearchRes.id) []

namespace SegmentSearchLemmas

variable {a : Array (VecSearchRes ι R)} {segs matchedIds : List (VecHits ι R)}

omit [DecidableEq ι] in
theorem push_all (docs : VecHits ι R) (ha : Heap.Ordered dis a) :
    (docs.foldl (Heap.push dis) a).toList.Perm (a.toList ++ docs) ∧
      Heap.Ordered dis (docs.foldl (Heap.push dis) a) := by
  induction docs generalizing a with
  | nil => exact ⟨by simp, ha⟩
  | cons doc docs ih =>
    obtain ⟨hperm, hordered⟩ := ha.push doc
    obtain ⟨hperm', hordered'⟩ := ih hordered
    refine ⟨hperm'.trans ?_, hordered'⟩
    have hlist := hperm.toList
    rw [Array.toList_push] at hlist
    refine (hlist.append_right docs).trans ?_
    rw [append_assoc, singleton_append]

theorem popResults_popped (ha : Heap.Ordered dis a) (hn : n ≤ a.size)
    (hnodup : (a.toList.map VecSearchRes.id).Nodup) (result : VecHits ι R)
    (hfresh : ∀ r ∈ result, ∀ x ∈ a.toList, r.id ≠ x.id) :
    ∃ out left, popResults n a result = result ++ out ∧ Popped byDistance n a.toList out left := by
  induction n generalizing a result with
  | zero => exact ⟨[], a.toList, by rw [popResults, append_nil], .none _⟩
  | succ n ih =>
    obtain ⟨x, b, hpop, hperm, hordered, hleast⟩ := ha.pop (Nat.zero_lt_of_lt hn)
    have hids := (hperm.map VecSearchRes.id).nodup_iff.1 hnodup
    rw [map_cons, nodup_cons] at hids
    have hsize : b.size + 1 = a.size := by
      have := hperm.length_eq
      rw [length_cons, Array.length_toList, Array.length_toList] at this
      exact this.symm
    have hput : put VecSearchRes.id result x = result ++ [x] :=
      put_of_fresh fun r hr => hfresh r hr x (hperm.mem_iff.2 mem_cons_self)
    have hfresh' : ∀ r ∈ result ++ [x], ∀ y ∈ b.toList, r.id ≠ y.id := by
      intro r hr y hy
      rcases mem_append.1 hr with hr | hr
      · exact hfresh r hr y (hperm.mem_iff.2 (mem_cons_of_mem _ hy))
      · obtain rfl := mem_singleton.1 hr
        exact fun heq => hids.1 (heq ▸ mem_map_of_mem hy)
    obtain ⟨out, left, hout, hpopped⟩ := ih hordered (by omega) hids.2 _ hfresh'
    have hbefore : ∀ y ∈ b.toList, byDistance.before x y := fun y hy =>
      hleast y (Array.mem_toList_iff.1 hy)
    refine ⟨x :: out, left, ?_, .pop hperm hbefore hpopped⟩
    rw [popResults, hpop]
    dsimp only
    rw [hput, hout, append_assoc, singleton_append]

theorem mergeResults_page (k : Int) {docs : VecHits ι R}
    (hnodup : (docs.map VecSearchRes.id).Nodup) :
    IsPage byDistance 0 k.toNat docs (mergeResults k docs) := by
  obtain ⟨hperm, hordered⟩ := push_all docs (a := #[]) nofun
  rw [nil_append] at hperm
  rw [mergeResults]
  generalize docs.foldl (Heap.push dis) #[] = a at hperm hordered
  have hsize : (if (a.size : Int) ≤ k then (a.size : Int) else k).toNat =
      min k.toNat a.toList.length := by
    rw [Array.length_toList]
    split <;> omega
  have hids := (hperm.map VecSearchRes.id).nodup_iff.2 hnodup
  obtain ⟨out, left, hout, hpopped⟩ := popResults_popped hordered
    (min_le_right k.toNat a.toList.length) hids [] nofun
  rw [hsize, hout, nil_append]
  have hpage : IsPage byDistance (0 : Int).toNat k.toNat a.toList out :=
    list_page ⟨[], a.toList, left, .none _, hpopped⟩
  obtain ⟨sorted, hall, hsorted, heq⟩ := hpage
  exact ⟨sorted, hall.trans hperm, hsorted, heq⟩

omit [DecidableEq ι] [LinearOrder R] in
theorem mapM_ok (maps : List (VecHits ι R)) :
    (maps.map (Except.ok (ε := VecSearchError))).mapM id = .ok maps := by
  induction maps with
  | nil => rfl
  | cons m maps ih =>
    rw [map_cons, mapM_cons, ih]
    rfl

theorem searchSegments_ok (k : Int) (order : Shuffle (VecSearchRes ι R))
    (found : List (VecHits ι R)) :
    searchSegments k order (found.map .ok) = .ok (mergeResults k (order.order found.flatten)) := by
  rw [searchSegments, mapM_ok]
  rfl

omit [DecidableEq ι] in
theorem nodup_found {found : List (VecHits ι R)}
    (hfound : List.Forall₂ (IsFirst byDistance k) segs found)
    (hids : (segs.flatten.map VecSearchRes.id).Nodup) :
    (found.flatten.map VecSearchRes.id).Nodup := by
  obtain ⟨rest, hperm⟩ : ∃ rest, (found.flatten ++ rest).Perm segs.flatten := by
    clear hids
    induction hfound with
    | nil => exact ⟨[], .refl _⟩
    | cons hfirst _ ih =>
      obtain ⟨rest, hall, -⟩ := hfirst.exists_rest
      obtain ⟨rest', hall'⟩ := ih
      refine ⟨rest ++ rest', ?_⟩
      rw [flatten_cons, flatten_cons, append_assoc]
      refine List.Perm.trans ?_ (hall.append hall')
      rw [append_assoc]
      exact (perm_append_comm_assoc _ _ _).append_left _
  have hnodup := (hperm.map VecSearchRes.id).nodup_iff.2 hids
  rw [map_append] at hnodup
  exact hnodup.of_append_left

theorem first_of_searches {result : VecHits ι R}
    (hids : (segs.flatten.map VecSearchRes.id).Nodup) (h : Searches k segs result) :
    IsFirst byDistance k.toNat segs.flatten result := by
  obtain ⟨found, order, hfound, hresult⟩ := h
  rw [searchSegments_ok] at hresult
  cases hresult
  have hperm := order.perm found.flatten
  have hnodup := (hperm.map VecSearchRes.id).nodup_iff.2 (nodup_found hfound hids)
  have hfirst : IsFirst byDistance k.toNat (order.order found.flatten) _ :=
    ⟨_, mergeResults_page k hnodup, .refl _⟩
  exact .merge hfound (hfirst.perm hperm (.refl _))

omit [LinearOrder R] in
theorem vecResult_perm (order : Shuffle (VecSearchRes ι R))
    (hids : (matchedIds.flatten.map VecSearchRes.id).Nodup) :
    (vecResult order matchedIds).Perm matchedIds.flatten := by
  have hperm := order.perm matchedIds.flatten
  have hfresh : ∀ r ∈ order.order matchedIds.flatten, ∀ x ∈ ([] : VecHits ι R),
      x.id ≠ r.id := nofun
  rw [vecResult, foldl_put ((hperm.map _).nodup_iff.2 hids) hfresh, nil_append]
  exact hperm

theorem parts_first (hids : (parts.flatten.flatten.map VecSearchRes.id).Nodup)
    (h : List.Forall₂ (Searches k) parts matchedIds) :
    List.Forall₂ (IsFirst byDistance k.toNat) (parts.map List.flatten) matchedIds := by
  induction h with
  | nil => exact .nil
  | cons hsearch _ ih =>
    rw [flatten_cons, flatten_append, map_append] at hids
    exact .cons (first_of_searches hids.of_append_left hsearch) (ih hids.of_append_right)

end SegmentSearchLemmas

open SegmentSearchLemmas in
/-- Segments with different ids, each of which returns its `k` nearest documents: the result has
`min k` of the number of all documents, and no document outside of it is nearer. If the segments
are searched in parts, then the `k` nearest documents of what the parts return have the same
distances. -/
theorem segments_merge {k : Int} (hk : 0 ≤ k) {segs found : List (VecHits ι R)}
    (hids : (segs.flatten.map VecSearchRes.id).Nodup)
    (hfound : List.Forall₂ (IsFirst byDistance k.toNat) segs found)
    (order : Shuffle (VecSearchRes ι R)) :
    ∃ result, searchSegments k order (found.map .ok) = .ok result ∧
      (result.length : Int) = min k segs.flatten.length ∧
      (result.map VecSearchRes.id).Nodup ∧
      (∀ x ∈ result, x ∈ segs.flatten) ∧
      (∀ x ∈ result, ∀ y ∈ segs.flatten, y ∉ result → ¬ y.dis < x.dis) ∧
      ∀ (parts : List (List (VecHits ι R))) matchedIds nodes final,
        parts.flatten.Perm segs → List.Forall₂ (Searches k) parts matchedIds →
        IsFirst byDistance k.toNat (vecResult nodes matchedIds) final →
        (final.map dis).Perm (result.map dis) := by
  have hfirst := first_of_searches hids ⟨found, order, hfound, searchSegments_ok k order found⟩
  refine ⟨_, searchSegments_ok k order found, ?_, ?_, fun x hx => hfirst.mem hx,
    fun x hx y hy hnot => not_lt.2 (hfirst.before_of_notMem hx hy hnot), ?_⟩
  · rw [hfirst.length_eq]
    omega
  · obtain ⟨rest, hall, -⟩ := hfirst.exists_rest
    have hnodup := (hall.map VecSearchRes.id).nodup_iff.2 hids
    rw [map_append] at hnodup
    exact hnodup.of_append_left
  · intro parts matchedIds nodes final hparts hsearches hfinal
    have hflat : parts.flatten.flatten.Perm segs.flatten := hparts.flatten
    have hnodup := (hflat.map VecSearchRes.id).nodup_iff.2 hids
    have hmatched := parts_first hnodup hsearches
    rw [flatten_flatten] at hflat hnodup
    have hunion := hfinal.perm (vecResult_perm nodes (nodup_found hmatched hnodup)) (.refl _)
    exact ((IsFirst.merge hmatched hunion).perm hflat (.refl _)).values hfirst

end Search

namespace SegmentSearchLemmas

def twoSegments : List (List (VecSearchRes Nat Nat)) := [[⟨1, 5⟩, ⟨2, 3⟩, ⟨4, 9⟩], [⟨3, 4⟩]]

def twoFound : List (List (VecSearchRes Nat Nat)) := [[⟨2, 3⟩, ⟨1, 5⟩], [⟨3, 4⟩]]

theorem twoFound_first :
    List.Forall₂ (IsFirst byDistance (2 : Int).toNat) twoSegments twoFound := by
  have hrest : ∀ a ∈ [(⟨2, 3⟩ : VecSearchRes Nat Nat), ⟨1, 5⟩], ∀ b ∈ [⟨4, 9⟩],
      byDistance.before a b := by simp [byDistance, Ranking.ascending]
  have hnone : ∀ a ∈ [(⟨3, 4⟩ : VecSearchRes Nat Nat)], ∀ b ∈ [], byDistance.before a b := by
    simp
  exact .cons (.of_rest (by decide) hrest rfl) (.cons (.of_rest (by decide) hnone rfl) .nil)

end SegmentSearchLemmas

open SegmentSearchLemmas in
theorem segments_merge_two :
    (twoSegments.flatten.map VecSearchRes.id).Nodup ∧
      ∃ result, searchSegments 2 ⟨id, fun _ => .refl _⟩ (twoFound.map .ok) = .ok result ∧
        (result.length : Int) = 2 := by
  have hids : (twoSegments.flatten.map VecSearchRes.id).Nodup := by decide
  obtain ⟨result, hresult, hlen, -⟩ :=
    segments_merge (by decide) hids twoFound_first ⟨id, fun _ => .refl _⟩
  exact ⟨hids, result, hresult, hlen⟩

structure SegmentTable (S : Type) where
  segments : List (Option S)
  metas : List VectorSegment

def invalidSegment (id : Int) (length : Nat) : String :=
  "invalid segment id: " ++ toString id ++ ", current segments length is " ++ toString length

section Load

variable {ι R S : Type} [DecidableEq ι] [LinearOrder R]

section Definitions

variable (openSegment : VectorSegment → Except String S)

def SegmentTable.openIVFPQSegment (t : SegmentTable S) (id : Nat) : Except VecSearchError S :=
  match t.metas[id]? with
  | none => .error .panic
  | some ref => (openSegment ref).mapError .failed

/-- One id of `loadSegments`: the segment, and the table with it. -/
def loadSegment (id : Int) (t : SegmentTable S) : Except VecSearchError (S × SegmentTable S) :=
  if id > t.segments.length ∨ id < 0 then .error (.failed (invalidSegment id t.segments.length))
  else
    match t.segments[id.toNat]? with
    | none => .error .panic
    | some (some seg) => .ok (seg, t)
    | some none => (t.openIVFPQSegment openSegment id.toNat).map fun seg =>
        (seg, { t with segments := t.segments.set id.toNat (some seg) })

/-- `loadSegments`. The segments that are loaded before an error stay loaded. -/
def loadSegments : List Int → SegmentTable S → SegmentTable S × Except VecSearchError (List S)
  | [], t => (t, .ok [])
  | id :: ids, t =>
    match loadSegment openSegment id t with
    | .error e => (t, .error e)
    | .ok (seg, t') =>
      let rest := loadSegments ids t'
      (rest.1, rest.2.map (seg :: ·))

/-- `PartialSearch`. `search` is the search of a segment. -/
def partialSearch (search : S → Except String (VecHits ι R)) (k : Int)
    (order : Shuffle (VecSearchRes ι R)) (ids : List Int) (t : SegmentTable S) :
    SegmentTable S × Except VecSearchError (VecHits ι R) :=
  let loaded := loadSegments openSegment ids t
  (loaded.1, loaded.2.bind fun segs =>
    searchSegments k order (segs.map fun seg => (search seg).mapError .failed))

/-- The segments with these ids, in this order. -/
def SegmentTable.Named (t : SegmentTable S) (ids : List Int) (segs : List S) : Prop :=
  List.Forall₂ (fun id seg => 0 ≤ id ∧ t.segments[id.toNat]? = some (some seg)) ids segs

def SegmentTable.Opens (t : SegmentTable S) (id : Int) : Prop :=
  0 ≤ id ∧ ∃ slot, t.segments[id.toNat]? = some slot ∧
    (slot.isSome ∨ ∃ ref seg, t.metas[id.toNat]? = some ref ∧ openSegment ref = .ok seg)

/-- The id is the number of segments, or that of a segment that is neither loaded nor recorded. -/
def SegmentTable.Beyond (t : SegmentTable S) (id : Int) : Prop :=
  id = t.segments.length ∨
    0 ≤ id ∧ t.segments[id.toNat]? = some none ∧ t.metas[id.toNat]? = none

/-- Up to the first id that cannot be opened none is beyond the table. -/
def SegmentTable.InRange (t : SegmentTable S) (ids : List Int) : Prop :=
  ∀ before id after, ids = before ++ id :: after → (∀ i ∈ before, t.Opens openSegment i) →
    ¬ t.Beyond id

end Definitions

namespace SegmentSearchLemmas

variable {openSegment : VectorSegment → Except String S} {t t' : SegmentTable S} {id : Int}
  {ids : List Int} {seg : S}

inductive Turn (openSegment : VectorSegment → Except String S) (t : SegmentTable S) (id : Int) :
    Except VecSearchError (S × SegmentTable S) → Prop
  | beyond : t.Beyond id → Turn openSegment t id (.error .panic)
  | refused {message : String} : ¬ t.Opens openSegment id → ¬ t.Beyond id →
      Turn openSegment t id (.error (.failed message))
  | loaded {seg : S} : 0 ≤ id → t.segments[id.toNat]? = some (some seg) →
      Turn openSegment t id (.ok (seg, t))
  | opened {seg : S} {ref : VectorSegment} : 0 ≤ id → t.segments[id.toNat]? = some none →
      t.metas[id.toNat]? = some ref → openSegment ref = .ok seg →
      Turn openSegment t id (.ok (seg, { t with segments := t.segments.set id.toNat (some seg) }))

theorem turn (openSegment : VectorSegment → Except String S) (t : SegmentTable S) (id : Int) :
    Turn openSegment t id (loadSegment openSegment id t) := by
  rw [loadSegment]
  split
  · next hid =>
    refine .refused ?_ ?_
    · rintro ⟨hpos, slot, hslot, -⟩
      have := (List.getElem?_eq_some_iff.1 hslot).1
      omega
    · rintro (heq | ⟨hpos, hslot, -⟩)
      · omega
      · have := (List.getElem?_eq_some_iff.1 hslot).1
        omega
  · next hid =>
    have hpos : 0 ≤ id := by omega
    split
    · next hslot =>
      have := List.getElem?_eq_none_iff.1 hslot
      exact .beyond (.inl (by omega))
    · next seg hslot => exact .loaded hpos hslot
    · next hslot =>
      have hlt := (List.getElem?_eq_some_iff.1 hslot).1
      rw [SegmentTable.openIVFPQSegment]
      cases hmeta : t.metas[id.toNat]? with
      | none => exact .beyond (.inr ⟨hpos, hslot, hmeta⟩)
      | some ref =>
        dsimp only
        cases hopen : openSegment ref with
        | ok seg => exact .opened hpos hslot hmeta hopen
        | error message =>
          refine .refused ?_ ?_
          · rintro ⟨-, slot, hslot', hsome | ⟨ref', seg, hmeta', hopen'⟩⟩
            · rw [hslot] at hslot'
              cases hslot'
              cases hsome
            · rw [hmeta] at hmeta'
              cases hmeta'
              rw [hopen] at hopen'
              cases hopen'
          · rintro (heq | ⟨-, -, hnone⟩)
            · omega
            · rw [hmeta] at hnone
              cases hnone

structure Keeps (openSegment : VectorSegment → Except String S) (t t' : SegmentTable S) : Prop where
  loaded : ∀ {i : Nat} {seg : S}, t.segments[i]? = some (some seg) →
    t'.segments[i]? = some (some seg)
  opens : ∀ i, t'.Opens openSegment i ↔ t.Opens openSegment i
  beyond : ∀ i, t'.Beyond i ↔ t.Beyond i

theorem Keeps.trans (h : Keeps openSegment t t') (h' : Keeps openSegment t' t'') :
    Keeps openSegment t t'' where
  loaded hi := h'.loaded (h.loaded hi)
  opens i := (h'.opens i).trans (h.opens i)
  beyond i := (h'.beyond i).trans (h.beyond i)

theorem Keeps.refl (t : SegmentTable S) : Keeps openSegment t t :=
  ⟨fun h => h, fun _ => Iff.rfl, fun _ => Iff.rfl⟩

theorem not_beyond_of_loaded (h : t.segments[id.toNat]? = some (some seg)) : ¬ t.Beyond id := by
  rintro (heq | ⟨-, hslot, -⟩)
  · have := (List.getElem?_eq_some_iff.1 h).1
    omega
  · rw [h] at hslot
    cases hslot

theorem keeps_set (hslot : t.segments[id.toNat]? = some none)
    (hmeta : t.metas[id.toNat]? = some ref) (hopen : openSegment ref = .ok seg) :
    Keeps openSegment t { t with segments := t.segments.set id.toNat (some seg) } := by
  have hlt := (List.getElem?_eq_some_iff.1 hslot).1
  have hset : ∀ i : Nat, (t.segments.set id.toNat (some seg))[i]? =
      if id.toNat = i then some (some seg) else t.segments[i]? := by
    intro i
    simp only [List.getElem?_set, hlt, if_true]
  refine ⟨fun {i seg'} hi => ?_, fun i => ?_, fun i => ?_⟩
  · rw [hset]
    split
    · next heq =>
      rw [← heq, hslot] at hi
      cases hi
    · exact hi
  · simp only [SegmentTable.Opens, hset]
    split
    · next heq =>
      rw [← heq, hslot]
      refine and_congr_right fun _ => ⟨fun _ => ?_, fun _ => ?_⟩
      · exact ⟨none, rfl, .inr ⟨ref, seg, hmeta, hopen⟩⟩
      · exact ⟨some seg, rfl, .inl rfl⟩
    · rfl
  · simp only [SegmentTable.Beyond, hset, length_set]
    split
    · next heq => simp [← heq, hmeta]
    · rfl

theorem keeps_turn (h : loadSegment openSegment id t = .ok r) :
    0 ≤ id ∧ r.2.segments[id.toNat]? = some (some r.1) ∧ t.Opens openSegment id ∧
      Keeps openSegment t r.2 := by
  have hturn := turn openSegment t id
  rw [h] at hturn
  cases hturn with
  | loaded hpos hslot =>
    exact ⟨hpos, hslot, ⟨hpos, _, hslot, .inl rfl⟩, .refl t⟩
  | @opened seg ref hpos hslot hmeta hopen =>
    refine ⟨hpos, ?_, ⟨hpos, _, hslot, .inr ⟨ref, seg, hmeta, hopen⟩⟩,
      keeps_set hslot hmeta hopen⟩
    rw [List.getElem?_set_self (List.getElem?_eq_some_iff.1 hslot).1]

theorem loadSegments_cons (id : Int) (ids : List Int) (t : SegmentTable S) :
    loadSegments openSegment (id :: ids) t = match loadSegment openSegment id t with
      | .error e => (t, .error e)
      | .ok (seg, t') =>
        ((loadSegments openSegment ids t').1,
          (loadSegments openSegment ids t').2.map (seg :: ·)) := by
  rw [loadSegments]

theorem keeps_loadSegments (ids : List Int) (t : SegmentTable S) :
    Keeps openSegment t (loadSegments openSegment ids t).1 := by
  induction ids generalizing t with
  | nil => exact .refl t
  | cons id ids ih =>
    rw [loadSegments_cons]
    cases hload : loadSegment openSegment id t with
    | error e => exact .refl t
    | ok r => exact (keeps_turn hload).2.2.2.trans (ih r.2)

theorem named_loadSegments (h : (loadSegments openSegment ids t).2 = .ok segs) :
    (loadSegments openSegment ids t).1.Named ids segs := by
  induction ids generalizing t segs with
  | nil =>
    cases h
    exact .nil
  | cons id ids ih =>
    rw [loadSegments_cons] at h ⊢
    cases hload : loadSegment openSegment id t with
    | error e =>
      rw [hload] at h
      cases h
    | ok r =>
      rw [hload] at h
      dsimp only at h ⊢
      cases hrest : (loadSegments openSegment ids r.2).2 with
      | error e =>
        rw [hrest] at h
        cases h
      | ok segs' =>
        rw [hrest] at h
        cases h
        obtain ⟨hpos, hslot, -⟩ := keeps_turn hload
        exact .cons ⟨hpos, (keeps_loadSegments ids r.2).loaded hslot⟩ (ih hrest)

theorem loaded_of_named (h : t.Named ids segs) (hid : id ∈ ids) :
    ∃ seg, t.segments[id.toNat]? = some (some seg) := by
  induction h with
  | nil => cases hid
  | @cons i seg ids segs hseg _ ih =>
    rcases mem_cons.1 hid with rfl | hid
    · exact ⟨seg, hseg.2⟩
    · exact ih hid

theorem inRange_cons (hkeeps : Keeps openSegment t t') (hopens : t.Opens openSegment id)
    (hbeyond : ¬ t.Beyond id) :
    t.InRange openSegment (id :: ids) ↔ t'.InRange openSegment ids := by
  constructor
  · intro h before i after hids hbefore
    rw [hkeeps.beyond]
    refine h (id :: before) i after (by rw [hids, cons_append]) ?_
    exact forall_mem_cons.2 ⟨hopens, fun j hj => (hkeeps.opens j).1 (hbefore j hj)⟩
  · intro h before i after hids hbefore
    cases before with
    | nil =>
      cases hids
      exact hbeyond
    | cons j before =>
      rw [cons_append] at hids
      cases hids
      obtain ⟨-, hbefore⟩ := forall_mem_cons.1 hbefore
      rw [← hkeeps.beyond]
      exact h before i after rfl fun j hj => (hkeeps.opens j).2 (hbefore j hj)

theorem loadSegments_panic_iff :
    (loadSegments openSegment ids t).2 = .error .panic ↔ ¬ t.InRange openSegment ids := by
  induction ids generalizing t with
  | nil =>
    refine ⟨nofun, fun h => absurd ?_ h⟩
    intro before id after hids
    cases before with
    | nil => cases hids
    | cons _ _ => cases hids
  | cons id ids ih =>
    rw [loadSegments_cons]
    have hturn := turn openSegment t id
    cases hload : loadSegment openSegment id t with
    | error e =>
      rw [hload] at hturn
      cases hturn with
      | beyond hbeyond =>
        refine ⟨fun _ h => ?_, fun _ => rfl⟩
        exact h [] id ids rfl nofun hbeyond
      | refused hopens hbeyond =>
        refine ⟨nofun, fun h => absurd ?_ h⟩
        intro before i after hids hbefore
        cases before with
        | nil =>
          cases hids
          exact hbeyond
        | cons j before =>
          cases hids
          exact absurd (hbefore _ mem_cons_self) hopens
    | ok r =>
      obtain ⟨-, hslot, hopens, hkeeps⟩ := keeps_turn hload
      have hbeyond : ¬ t.Beyond id := fun h => not_beyond_of_loaded hslot ((hkeeps.beyond id).2 h)
      rw [inRange_cons hkeeps hopens hbeyond, ← ih]
      dsimp only
      cases (loadSegments openSegment ids r.2).2 with
      | error e => exact ⟨fun h => by cases h; rfl, fun h => by cases h; rfl⟩
      | ok segs => exact ⟨nofun, nofun⟩

end SegmentSearchLemmas

open SegmentSearchLemmas in
/-- `PartialSearch` returns an error or searches exactly the segments of the ids if and only if the
first id that cannot be opened is neither the number of loaded segments nor the id of a segment
that is neither loaded nor recorded. -/
theorem partial_search_checked_iff (openSegment : VectorSegment → Except String S)
    (search : S → Except String (VecHits ι R)) (k : Int)
    (order : Shuffle (VecSearchRes ι R)) (ids : List Int) (t : SegmentTable S) :
    (∃ message, (partialSearch openSegment search k order ids t).2 = .error (.failed message)) ∨
        (∃ segs, (partialSearch openSegment search k order ids t).1.Named ids segs ∧
          (partialSearch openSegment search k order ids t).2 =
            searchSegments k order (segs.map fun seg => (search seg).mapError .failed)) ↔
      t.InRange openSegment ids := by
  rw [partialSearch]
  dsimp only
  constructor
  · intro h before id after hids hbefore hbeyond
    have hpanic : (loadSegments openSegment ids t).2 = .error .panic :=
      loadSegments_panic_iff.2 fun hrange => hrange before id after hids hbefore hbeyond
    rw [hpanic] at h
    rcases h with ⟨message, hfailed⟩ | ⟨segs, hnamed, -⟩
    · cases hfailed
    · -- the id has no segment afterwards either
      obtain ⟨seg, hslot⟩ := loaded_of_named hnamed
        (hids ▸ mem_append_right before mem_cons_self)
      exact not_beyond_of_loaded hslot (((keeps_loadSegments ids t).beyond id).2 hbeyond)
  · intro hrange
    cases hload : (loadSegments openSegment ids t).2 with
    | error e =>
      cases e with
      | failed message => exact .inl ⟨message, rfl⟩
      | panic => exact absurd hrange (loadSegments_panic_iff.1 hload)
    | ok segs => exact .inr ⟨segs, named_loadSegments hload, rfl⟩

/-- The proxy knows of a second segment that the node does not have. -/
theorem segment_id_out_of_range :
    (partialSearch (fun _ => .ok ()) (fun _ => .ok []) 1 ⟨id, fun _ => .refl _⟩ [1]
        (⟨[some ()], [{ id := 0 }]⟩ : SegmentTable Unit)).2 =
      (.error .panic : Except VecSearchError (List (VecSearchRes Nat Nat))) ∧
    ¬ (⟨[some ()], [{ id := 0 }]⟩ : SegmentTable Unit).InRange (fun _ => .ok ()) [1] := by
  refine ⟨by decide, fun h => ?_⟩
  exact h [] 1 [] rfl nofun (.inl rfl)

end Load

end SeaSearch
