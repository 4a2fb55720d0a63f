import SeaSearch.Search.Parts
import SeaSearch.Vector.IvfPq

/-!
# Dealing segments to nodes

The proxy spreads the search of an IVFPQ index over several nodes if it has many segments.
`calcNodeSegmentsMap` deals the segments out to the nodes that `getQueryNodes` puts in a circle, one
after another, from the node that has the index on.
-/

namespace SeaSearch

open List

inductive VecTargetType
  | flat
  | ivfPq
  | hnsw
  deriving DecidableEq

section Deal

variable {ν α ε : Type} [DecidableEq ν] [DecidableEq α]

abbrev NodeSegmentMap (α : Type) := α → Option (List Nat)

def NodeSegmentMap.add (m : NodeSegmentMap α) (addr : α) (id : Nat) : NodeSegmentMap α :=
  fun a => if a = addr then some ((m a).getD [] ++ [id]) else m a

def NodeSegmentMap.ids (m : NodeSegmentMap α) (addr : α) : List Nat := (m addr).getD []

def dealSegments : List Nat → QueryNodes α → NodeSegmentMap α → Option (NodeSegmentMap α)
  | [], _, m => some m
  | id :: ids, nodes, m =>
    match nodes.next with
    | none => none
    | some (addr, nodes) => dealSegments ids nodes (m.add addr id)

/-- `calcNodeSegmentsMap`: the map, and whether the search is parallel. -/
def calcNodeSegmentsMap (v : ProxyView ν α ε) (indexName : String) (targetType : VecTargetType)
    (vecIndex : VecIndexMeta) : Except (DealError ε) (NodeSegmentMap α × Bool) :=
  if v.nodeList.length = 0 ∨ targetType ≠ .ivfPq ∨
      vecIndex.segments.length < v.parallelQueryThreshold then .ok (fun _ => none, false)
  else
    match getQueryNodes v.parallelQueryNodeLimit v.nodeList (v.assigned indexName) with
    | none => .error (.notAssigned indexName)
    | some nodes =>
      match dealSegments (vecIndex.segments.map VectorSegment.id) nodes fun _ => none with
      | none => .error .panic
      | some m => .ok (m, true)

/-- The segments are dealt evenly over the nodes of a circle that starts with the owner. -/
structure BalancedCover (nodeList : List (ν × α)) (limit : Nat) (owner : α) (ids : List Nat)
    (circle : List α) (m : NodeSegmentMap α) : Prop where
  nodes : circle.Nodup ∧ circle ⊆ nodeList.map Prod.snd
  count : circle.length = min nodeList.length limit
  starts : circle.head? = some owner ∧ (m.ids owner).head? = ids.head?
  used : ∀ a, m a ≠ none → a ∈ circle
  once : ∀ id ∈ ids, ∃! a, id ∈ m.ids a
  listed : ∀ a, (m.ids a).Nodup ∧ m.ids a ⊆ ids
  balanced : ∀ a ∈ circle, ∀ b ∈ circle, (m.ids a).length ≤ (m.ids b).length + 1

namespace NodeSegmentLemmas

structure Evenly (nodes : QueryNodes α) (m : NodeSegmentMap α) : Prop where
  cur : nodes.cur < nodes.addrs.length
  counts : ∃ q, ∀ j a, nodes.addrs[j]? = some a →
    (m.ids a).length = if j < nodes.cur then q + 1 else q

variable {nodes nodes' : QueryNodes α} {m m' : NodeSegmentMap α} {ids : List Nat}

theorem dealSegments_eq (index : String) (ids : List Nat) (nodes : QueryNodes α)
    (m : NodeIndexMap α) :
    dealSegments ids nodes (fun a => m a index) =
      (dealShards index ids nodes m).map fun m' a => m' a index := by
  induction ids generalizing nodes m with
  | nil => rfl
  | cons id ids ih =>
    rw [dealSegments, dealShards]
    cases nodes.next with
    | none => rfl
    | some r =>
      have hadd : NodeSegmentMap.add (fun a => m a index) r.1 id =
          fun a => m.add r.1 index id a index := by
        funext a
        rw [NodeSegmentMap.add, NodeIndexMap.add]
        simp only [and_true]
      dsimp only
      rw [hadd]
      exact ih r.2 _

theorem ids_add (m : NodeSegmentMap α) (addr a : α) (id : Nat) :
    (m.add addr id).ids a = if a = addr then m.ids a ++ [id] else m.ids a := by
  rw [NodeSegmentMap.ids, NodeSegmentMap.add, NodeSegmentMap.ids]
  split
  · rfl
  · rfl

theorem Evenly.next {id : Nat} (h : Evenly nodes m) (hnodup : nodes.addrs.Nodup)
    (hnext : nodes.next = some (addr, nodes')) : Evenly nodes' (m.add addr id) := by
  obtain ⟨res, hres, heq⟩ := Option.map_eq_some_iff.1 hnext
  cases heq
  obtain ⟨q, hq⟩ := h.counts
  have hcur := h.cur
  have hpos : ∀ {j a}, nodes.addrs[j]? = some a → (a = addr ↔ j = nodes.cur) := by
    intro j a ha
    constructor
    · rintro rfl
      exact (List.getElem?_inj (List.getElem?_eq_some_iff.1 ha).1 hnodup).1 (ha.trans hres.symm)
    · rintro rfl
      exact Option.some.inj (ha.symm.trans hres)
  refine ⟨?_, if nodes.cur + 1 = nodes.addrs.length then q + 1 else q, fun j a ha => ?_⟩
  · dsimp only
    split <;> omega
  · have hj := (List.getElem?_eq_some_iff.1 ha).1
    rw [ids_add]
    dsimp only at ha hj ⊢
    have hlen : (if a = addr then m.ids a ++ [id] else m.ids a).length =
        if j < nodes.cur + 1 then q + 1 else q := by
      simp only [hpos ha]
      split
      · next heq =>
        rw [length_append, length_singleton, hq j a ha, if_neg (by omega), if_pos (by omega)]
      · next hne =>
        rw [hq j a ha]
        split <;> split <;> omega
    rw [hlen]
    by_cases hwrap : nodes.cur + 1 = nodes.addrs.length
    · rw [if_pos hwrap, if_pos hwrap, if_pos (by omega), if_neg (by omega)]
    · rw [if_neg hwrap, if_neg hwrap]

omit [DecidableEq ν] [DecidableEq α] in
theorem nodesFrom_eq {nodeList : List (ν × α)} {i count : Nat} (hi : i < nodeList.length)
    (hcount : count ≤ nodeList.length) :
    nodesFrom nodeList i count = ((nodeList.map Prod.snd).rotate i).take count := by
  induction count generalizing i with
  | zero => rfl
  | succ count ih =>
    have hi' : i < (nodeList.map Prod.snd).length := by rwa [length_map]
    have hnext : (if i + 1 = nodeList.length then 0 else i + 1) < nodeList.length := by
      split <;> omega
    have hrotate : (nodeList.map Prod.snd).rotate (if i + 1 = nodeList.length then 0 else i + 1) =
        (nodeList.map Prod.snd).rotate (i + 1) := by
      split
      · next hend => rw [hend, ← length_map Prod.snd, rotate_length, rotate_zero]
      · rfl
    -- the first node of the rotated list is the last one of the list that is rotated once more
    have htail : (((nodeList.map Prod.snd).rotate (i + 1)).take count) =
        ((nodeList.map Prod.snd).drop (i + 1) ++ (nodeList.map Prod.snd).take i).take count := by
      rw [rotate_eq_drop_append_take hi', ← take_concat_get' _ i hi', ← append_assoc]
      refine take_append_of_le_length ?_
      rw [length_append, length_drop, length_take, length_map]
      omega
    rw [nodesFrom, ih hnext (by omega), hrotate, htail, rotate_eq_drop_append_take hi'.le,
      drop_eq_getElem_cons hi', cons_append, take_succ_cons,
      List.getElem?_eq_getElem hi, getElem_map]
    rfl

omit [DecidableEq α] in
theorem parts_map (m : NodeIndexMap α) (index : String) (addrs : List α) :
    m.parts index addrs = addrs.map (NodeSegmentMap.ids fun a => m a index) :=
  rfl

omit [DecidableEq α] in
theorem Evenly.start (addrs : List α) (h : 0 < addrs.length) :
    Evenly ⟨addrs, 0⟩ fun _ => none :=
  ⟨h, 0, fun _ _ _ => rfl⟩

omit [DecidableEq α] in
theorem Evenly.balanced (h : Evenly nodes m) (ha : a ∈ nodes.addrs) (hb : b ∈ nodes.addrs) :
    (m.ids a).length ≤ (m.ids b).length + 1 := by
  obtain ⟨q, hq⟩ := h.counts
  obtain ⟨i, hi⟩ := mem_iff_getElem?.1 ha
  obtain ⟨j, hj⟩ := mem_iff_getElem?.1 hb
  rw [hq i a hi, hq j b hj]
  split <;> split <;> omega

section Dealt

variable (hdeal : dealSegments ids nodes m = some m')

include hdeal

theorem deal_rule {P : QueryNodes α → NodeSegmentMap α → Prop}
    (hturn : ∀ {nodes nodes' m addr} (id : Nat), P nodes m → nodes.next = some (addr, nodes') →
      P nodes' (m.add addr id))
    (h : P nodes m) : ∃ nodes', P nodes' m' := by
  induction ids generalizing nodes m with
  | nil =>
    cases hdeal
    exact ⟨nodes, h⟩
  | cons id ids ih =>
    rw [dealSegments] at hdeal
    cases hnext : nodes.next with
    | none =>
      rw [hnext] at hdeal
      cases hdeal
    | some r =>
      rw [hnext] at hdeal
      exact ih hdeal (hturn id h hnext)

theorem Evenly.deal (h : Evenly nodes m) (hnodup : nodes.addrs.Nodup) :
    ∃ nodes', nodes'.addrs = nodes.addrs ∧ Evenly nodes' m' := by
  refine deal_rule hdeal (P := fun nodes' m => nodes'.addrs = nodes.addrs ∧ Evenly nodes' m)
    (fun id hP hnext => ?_) ⟨rfl, h⟩
  obtain ⟨-, haddrs⟩ := PartsLemmas.next_mem hnext
  exact ⟨haddrs.trans hP.1, hP.2.next (hP.1 ▸ hnodup) hnext⟩

theorem deal_outside (ha : a ∉ nodes.addrs) : m' a = m a := by
  have hrun : ∃ nodes' : QueryNodes α, a ∉ nodes'.addrs ∧ m' a = m a := by
    refine deal_rule hdeal (P := fun nodes m₁ => a ∉ nodes.addrs ∧ m₁ a = m a)
      (fun id hP hnext => ?_) ⟨ha, rfl⟩
    obtain ⟨hmem, haddrs⟩ := PartsLemmas.next_mem hnext
    have hne : a ≠ _ := fun h => hP.1 (h ▸ hmem)
    exact ⟨haddrs ▸ hP.1, by rw [NodeSegmentMap.add, if_neg hne, hP.2]⟩
  obtain ⟨-, -, heq⟩ := hrun
  exact heq

theorem deal_head {id : Nat} (hid : (m.ids a).head? = some id) :
    (m'.ids a).head? = some id := by
  have hrun : ∃ _ : QueryNodes α, (m'.ids a).head? = some id := by
    refine deal_rule hdeal (P := fun _ m => (m.ids a).head? = some id) (fun id hP hnext => ?_) hid
    rw [ids_add]
    split
    · rw [List.head?_append, hP]
      rfl
    · exact hP
  obtain ⟨-, hhead⟩ := hrun
  exact hhead

end Dealt

theorem deal_first {circle : List α} (howner : circle.head? = some owner)
    (hdeal : dealSegments ids ⟨circle, 0⟩ (fun _ => none) = some m') :
    (m'.ids owner).head? = ids.head? := by
  cases ids with
  | nil =>
    cases hdeal
    rfl
  | cons id ids =>
    have hnext : ∃ t, QueryNodes.next ⟨circle, 0⟩ = some (owner, t) := by
      rw [QueryNodes.next, ← List.head?_eq_getElem?, howner]
      exact ⟨_, rfl⟩
    obtain ⟨t, hnext⟩ := hnext
    rw [dealSegments, hnext] at hdeal
    refine deal_head hdeal ?_
    rw [ids_add, if_pos rfl]
    rfl

omit [DecidableEq α] in
theorem exactly_one {circle : List α} (hnodup : ids.Nodup)
    (hcover : (circle.map m.ids).flatten.Perm ids) (hout : ∀ a, a ∉ circle → m a = none) :
    (∀ id ∈ ids, ∃! a, id ∈ m.ids a) ∧ ∀ a, (m.ids a).Nodup ∧ m.ids a ⊆ ids := by
  have hin : ∀ {a id}, id ∈ m.ids a → a ∈ circle := by
    intro a id hid
    by_contra ha
    rw [NodeSegmentMap.ids, hout a ha] at hid
    cases hid
  have hmem : ∀ id, id ∈ ids ↔ ∃ a ∈ circle, id ∈ m.ids a := fun id => by
    rw [← hcover.mem_iff]
    simp
  obtain ⟨heach, hdisj⟩ := nodup_flatten.1 (hcover.nodup_iff.2 hnodup)
  rw [pairwise_map] at hdisj
  have : Std.Symm fun a b => (m.ids a).Disjoint (m.ids b) := ⟨fun _ _ h => h.symm⟩
  refine ⟨fun id hid => ?_, fun a => ⟨?_, fun id hid => ?_⟩⟩
  · obtain ⟨a, ha, hida⟩ := (hmem id).1 hid
    refine ⟨a, hida, fun b hidb => ?_⟩
    by_contra hne
    exact hdisj.forall ha (hin hidb) (Ne.symm hne) hida hidb
  · by_cases ha : a ∈ circle
    · exact heach _ (mem_map_of_mem ha)
    · rw [NodeSegmentMap.ids, hout a ha]
      exact nodup_nil
  · exact (hmem id).2 ⟨a, hin hid, hid⟩

omit [DecidableEq α] in
theorem getQueryNodes_eq {nodeList : List (ν × α)} {limit : Nat} {owner : ν × α}
    (hids : (nodeList.map Prod.fst).Nodup) (howner : owner ∈ nodeList) (hlimit : 1 ≤ limit) :
    ∃ circle, getQueryNodes limit nodeList (some owner.1) = some ⟨circle, 0⟩ ∧
      circle.head? = some owner.2 ∧ circle.length = min nodeList.length limit ∧
        ((nodeList.map Prod.snd).Nodup → circle.Nodup) ∧ circle ⊆ nodeList.map Prod.snd := by
  have hfound : nodeList.findIdx (fun n => n.1 = owner.1) < nodeList.length :=
    findIdx_lt_length_of_exists ⟨owner, howner, by simp⟩
  have hat : nodeList[nodeList.findIdx fun n => n.1 = owner.1] = owner := by
    refine inj_on_of_nodup_map hids (getElem_mem hfound) howner ?_
    simpa using findIdx_getElem (w := hfound)
  have hcount : min nodeList.length limit ≤ nodeList.length := min_le_left _ _
  refine ⟨_, rfl, ?_, ?_, ?_, ?_⟩
  · rw [if_pos hfound, nodesFrom_eq hfound hcount, List.head?_take, if_neg (by omega),
      List.head?_rotate (by rwa [length_map]), List.getElem?_map,
      List.getElem?_eq_getElem hfound, hat]
    rfl
  · rw [if_pos hfound, PartsLemmas.length_nodesFrom hfound]
  · intro hnodup
    rw [if_pos hfound, nodesFrom_eq hfound hcount]
    exact (nodup_rotate.2 hnodup).sublist (take_sublist _ _)
  · exact fun a ha => PartsLemmas.mem_nodesFrom ha

end NodeSegmentLemmas

open NodeSegmentLemmas in
/-- The segments of an index that is searched in parallel: each segment is dealt to exactly one
node, the nodes are at most `min nodes limit`, the owner is the first of them, and the numbers of
segments of two nodes differ by at most one. -/
theorem segments_dealt {v : ProxyView ν α ε} {indexName : String} {vecIndex : VecIndexMeta}
    (owner : ν × α) (hids : (v.nodeList.map Prod.fst).Nodup)
    (haddrs : (v.nodeList.map Prod.snd).Nodup) (hlimit : 1 ≤ v.parallelQueryNodeLimit)
    (howner : owner ∈ v.nodeList) (hassigned : v.assigned indexName = some owner.1)
    (hsegments : (vecIndex.segments.map VectorSegment.id).Nodup)
    (hmany : v.parallelQueryThreshold ≤ vecIndex.segments.length) :
    ∃ circle m, calcNodeSegmentsMap v indexName .ivfPq vecIndex = .ok (m, true) ∧
      BalancedCover v.nodeList v.parallelQueryNodeLimit owner.2
        (vecIndex.segments.map VectorSegment.id) circle m := by
  obtain ⟨circle, hquery, hhead, hlength, hnodup, hsub⟩ := getQueryNodes_eq hids howner hlimit
  have hpos : 0 < circle.length := by
    have := length_pos_of_mem howner
    omega
  obtain ⟨m', hshards⟩ : ∃ m', dealShards indexName (vecIndex.segments.map VectorSegment.id)
      ⟨circle, 0⟩ (fun _ _ => none) = some m' :=
    PartsLemmas.deal_isSome _ _ hpos
  obtain ⟨m, hm⟩ : ∃ m : NodeSegmentMap α, m = fun a => m' a indexName := ⟨_, rfl⟩
  have hdeal : dealSegments (vecIndex.segments.map VectorSegment.id) ⟨circle, 0⟩ (fun _ => none) =
      some m := by
    have heq := dealSegments_eq indexName (vecIndex.segments.map VectorSegment.id) ⟨circle, 0⟩
      fun _ _ => none
    rw [heq, hshards, hm]
    rfl
  have hcover : (circle.map m.ids).flatten.Perm (vecIndex.segments.map VectorSegment.id) := by
    have hparts := PartsLemmas.parts_deal (hnodup haddrs) (fun a ha => ha) hshards
    have hnone : (NodeIndexMap.parts (fun _ _ => none) indexName circle).flatten = [] := by
      simp [NodeIndexMap.parts]
    rw [hnone, append_nil, parts_map, ← hm] at hparts
    exact hparts
  have hout : ∀ a, a ∉ circle → m a = none := fun a ha => deal_outside hdeal ha
  obtain ⟨honce, hlisted⟩ := exactly_one hsegments hcover hout
  obtain ⟨last, hlast, heven⟩ := (Evenly.start circle hpos).deal hdeal (hnodup haddrs)
  refine ⟨circle, m, ?_, ?_⟩
  · have hnodes : v.nodeList.length ≠ 0 := (length_pos_of_mem howner).ne'
    rw [calcNodeSegmentsMap, if_neg (by simp [hnodes, hmany]), hassigned, hquery]
    dsimp only
    rw [hdeal]
  · exact ⟨⟨hnodup haddrs, hsub⟩, hlength, ⟨hhead, deal_first hhead hdeal⟩,
      fun a ha => by_contra fun hnot => ha (hout a hnot), honce, hlisted,
      fun a ha b hb => heven.balanced (hlast ▸ ha) (hlast ▸ hb)⟩

theorem segments_dealt_three :
    ∃ circle m, calcNodeSegmentsMap
        (⟨[(1, 10), (2, 20), (3, 30)], fun _ => .ok none, fun _ => some 2, fun _ => .ok 20, 2, 2⟩ :
          ProxyView Nat Nat Unit) "vectors" .ivfPq ⟨[⟨0, .growing, 0⟩, ⟨1, .growing, 0⟩,
            ⟨2, .growing, 0⟩], 2, 0⟩ = .ok (m, true) ∧
      BalancedCover [(1, 10), (2, 20), (3, 30)] 2 20 [0, 1, 2] circle m :=
  segments_dealt (2, 20) (by decide) (by decide) (by decide) (by decide) rfl (by decide) (by decide)

end Deal

end SeaSearch
