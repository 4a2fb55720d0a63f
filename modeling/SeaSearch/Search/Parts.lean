import SeaSearch.Index.TimeRange

/-!
# Searching an index in parts

The proxy may spread the search of an index over several nodes. `calcNodeIndexMap` deals the
second-layer shards out to the nodes, and each node searches its part with `GetPartialSearchers`.
-/

namespace SeaSearch

open List

variable {σ : Type}

/-- The loop of `GetPartialSearchers` over `n` second-layer shards. An id that is not that of
a shard is passed over. -/
def partialSearchers (range : Nat → Stats) (n : Nat) (timeMin timeMax : Int) : List Int → List Nat
  | [] => []
  | id :: ids =>
    if id ≥ n ∨ id < 0 then partialSearchers range n timeMin timeMax ids
    else if (range id.toNat).outside timeMin timeMax then
      partialSearchers range n timeMin timeMax ids
    else if (range id.toNat).stops timeMin then [id.toNat]
    else id.toNat :: partialSearchers range n timeMin timeMax ids

def Stats.ends (r : Stats) (timeMin timeMax : Int) : Prop :=
  ¬ r.outside timeMin timeMax ∧ r.stops timeMin

instance (r : Stats) (timeMin timeMax : Int) : Decidable (r.ends timeMin timeMax) :=
  inferInstanceAs (Decidable (_ ∧ _))

namespace IndexShard

variable {B : Bluge σ}

/-- `GetPartialSearchers`: the second-layer shards of a part that are searched. -/
def getPartialSearchers (s : IndexShard B) (timeMin timeMax : Int) (secondShardIds : List Int) :
    List Nat :=
  partialSearchers s.range s.shardNum timeMin timeMax secondShardIds

/-- The parts together search the shards that a whole search does. -/
def PartsCover (s : IndexShard B) (timeMin timeMax : Int) (parts : List (List Nat)) : Prop :=
  ∀ k, (∃ part ∈ parts, k ∈ s.getPartialSearchers timeMin timeMax (part.map Nat.cast)) ↔
    k ∈ s.getSearchers timeMin timeMax

/-- For each shard with a range in the window: a shard before it in its part ends a search
exactly when a later shard of the index does. -/
def EndsAlike (s : IndexShard B) (timeMin timeMax : Int) (parts : List (List Nat)) : Prop :=
  ∀ part ∈ parts, ∀ before k after, part = before ++ k :: after →
    ¬ (s.range k).outside timeMin timeMax →
      ((∃ i ∈ before, (s.range i).ends timeMin timeMax) ↔
        ∃ i, k < i ∧ i < s.shardNum ∧ (s.range i).ends timeMin timeMax)

end IndexShard

/-- Each of the numbers below `n` is in one part, once. -/
def IsSplit (n : Nat) (parts : List (List Nat)) : Prop := parts.flatten.Perm (List.range n)

instance (n : Nat) (parts : List (List Nat)) : Decidable (IsSplit n parts) :=
  inferInstanceAs (Decidable (List.Perm _ _))

section Deal

variable {ν α ε : Type} [DecidableEq ν] [DecidableEq α]

/-- `queryNodes`: nodes in a circle. -/
structure QueryNodes (α : Type) where
  addrs : List α
  cur : Nat := 0

/-- `Next`. Without nodes the index is out of range. -/
def QueryNodes.next (t : QueryNodes α) : Option (α × QueryNodes α) :=
  (t.addrs[t.cur]?).map fun res =>
    (res, { t with cur := if t.cur + 1 = t.addrs.length then 0 else t.cur + 1 })

/-- `count` nodes of the list from position `i` on, in a circle. -/
def nodesFrom (nodeList : List (ν × α)) : Nat → Nat → List α
  | _, 0 => []
  | i, count + 1 =>
    ((nodeList[i]?).map Prod.snd).toList ++
      nodesFrom nodeList (if i + 1 = nodeList.length then 0 else i + 1) count

/-- `getQueryNodes`: nodes from the one that has the index on, and as many as the
configuration allows. -/
def getQueryNodes (nodeLimit : Nat) (nodeList : List (ν × α)) (assigned : Option ν) :
    Option (QueryNodes α) :=
  assigned.map fun nodeId =>
    let found := nodeList.findIdx fun n => n.1 = nodeId
    let i := if found < nodeList.length then found else 0
    ⟨nodesFrom nodeList i (min nodeList.length nodeLimit), 0⟩

abbrev NodeIndexMap (α : Type) := α → String → Option (List Nat)

/-- `AddSecondShardId`, or `CreatePartialIndexes` for a node or an index without ids. -/
def NodeIndexMap.add (m : NodeIndexMap α) (addr : α) (index : String) (id : Nat) :
    NodeIndexMap α :=
  fun a ix => if a = addr ∧ ix = index then some ((m a ix).getD [] ++ [id]) else m a ix

def NodeIndexMap.whole (m : NodeIndexMap α) (addr : α) (index : String) : NodeIndexMap α :=
  fun a ix => if a = addr ∧ ix = index then some [] else m a ix

def dealShards (index : String) : List Nat → QueryNodes α → NodeIndexMap α → Option (NodeIndexMap α)
  | [], _, m => some m
  | id :: ids, t, m =>
    match t.next with
    | none => none
    | some (addr, t) => dealShards index ids t (m.add addr index id)

/-- `ShardNum` and the ids of the second-layer shards of each first-layer shard, in the
order in which the loop visits them. -/
structure IndexMeta where
  shardNum : Nat
  shards : List (List Nat)

/-- What `calcNodeIndexMap` reads: the nodes, the metadata of the indexes (`none` for one
that does not exist), the nodes that have them and the configuration. -/
structure ProxyView (ν α ε : Type) where
  nodeList : List (ν × α)
  indexMeta : String → Except ε (Option IndexMeta)
  assigned : String → Option ν
  addrOf : String → Except ε α
  parallelQueryThreshold : Nat
  parallelQueryNodeLimit : Nat

/-- Why there is no map: an error of a call, an index without a node, or no node to deal
to, which is a panic. -/
inductive DealError (ε : Type)
  | call (e : ε)
  | notAssigned (index : String)
  | panic

def dealIndex (v : ProxyView ν α ε) (index : String) (m : NodeIndexMap α) :
    Except (DealError ε) (NodeIndexMap α) :=
  match v.indexMeta index with
  | .error e => .error (.call e)
  | .ok none => .ok m
  | .ok (some indexMeta) =>
    let secondShardList := indexMeta.shards.flatten
    if indexMeta.shardNum ≠ 1 ∨ secondShardList.length < v.parallelQueryThreshold then
      match v.addrOf index with
      | .error e => .error (.call e)
      | .ok addr => .ok (m.whole addr index)
    else
      match getQueryNodes v.parallelQueryNodeLimit v.nodeList (v.assigned index) with
      | none => .error (.notAssigned index)
      | some nodes =>
        match dealShards index secondShardList nodes m with
        | none => .error .panic
        | some m => .ok m

def calcNodeIndexMap (v : ProxyView ν α ε) (indexes : List String) :
    Except (DealError ε) (NodeIndexMap α) :=
  if v.nodeList.length = 0 then .ok fun _ _ => none
  else indexes.foldlM (fun m index => dealIndex v index m) fun _ _ => none

def NodeIndexMap.parts (m : NodeIndexMap α) (index : String) (addrs : List α) : List (List Nat) :=
  addrs.map fun a => (m a index).getD []

end Deal

open NodeIndexMap (add whole)

namespace PartsLemmas

section Deal

variable {α : Type} [DecidableEq α] {index : String} {addrs : List α} {t : QueryNodes α}
  {nodeList : List (ν × α)}

theorem parts_add (m : NodeIndexMap α) (hmem : addr ∈ addrs) (hnodup : addrs.Nodup) (id : Nat) :
    ((m.add addr index id).parts index addrs).flatten.Perm
      (id :: (m.parts index addrs).flatten) := by
  induction addrs with
  | nil => cases hmem
  | cons a addrs ih =>
    obtain ⟨hnot, hnodup⟩ := nodup_cons.1 hnodup
    simp only [NodeIndexMap.parts, map_cons, flatten_cons] at ih ⊢
    rcases mem_cons.1 hmem with rfl | hmem
    · -- the other parts stay as they are
      have hrest : addrs.map (fun a => (m.add addr index id a index).getD []) =
          addrs.map fun a => (m a index).getD [] := by
        refine map_congr_left fun a ha => ?_
        have hne : a ≠ addr := fun h => hnot (h ▸ ha)
        simp [add, hne]
      rw [hrest]
      simp [add, perm_middle]
    · have hne : a ≠ addr := fun h => hnot (h ▸ hmem)
      have hpart : m.add addr index id a index = m a index := by simp [add, hne]
      rw [hpart]
      exact ((ih hmem hnodup).append_left _).trans perm_middle

omit [DecidableEq α] in
theorem next_mem (h : t.next = some (addr, t')) : addr ∈ t.addrs ∧ t'.addrs = t.addrs := by
  obtain ⟨res, hres, heq⟩ := Option.map_eq_some_iff.1 h
  cases heq
  exact ⟨mem_of_getElem? hres, rfl⟩

theorem parts_deal (hnodup : addrs.Nodup) (hsub : ∀ a ∈ t.addrs, a ∈ addrs)
    (h : dealShards index ids t m = some m') :
    (m'.parts index addrs).flatten.Perm (ids ++ (m.parts index addrs).flatten) := by
  induction ids generalizing t m with
  | nil =>
    cases h
    exact .refl _
  | cons id ids ih =>
    rw [dealShards] at h
    cases hnext : t.next with
    | none =>
      rw [hnext] at h
      cases h
    | some r =>
      obtain ⟨addr, t'⟩ := r
      rw [hnext] at h
      obtain ⟨hmem, haddrs⟩ := next_mem hnext
      refine (ih (haddrs ▸ hsub) h).trans ?_
      exact ((parts_add m (hsub addr hmem) hnodup id).append_left ids).trans perm_middle

omit [DecidableEq α] in
theorem next_isSome (h : t.cur < t.addrs.length) :
    ∃ addr t', t.next = some (addr, t') ∧ t'.cur < t'.addrs.length := by
  rw [QueryNodes.next, List.getElem?_eq_getElem h]
  refine ⟨_, _, rfl, ?_⟩
  dsimp only
  split <;> omega

theorem deal_isSome (ids : List Nat) (m : NodeIndexMap α) (h : t.cur < t.addrs.length) :
    ∃ m', dealShards index ids t m = some m' := by
  induction ids generalizing t m with
  | nil => exact ⟨m, rfl⟩
  | cons id ids ih =>
    obtain ⟨addr, t', hnext, hcur⟩ := next_isSome h
    rw [dealShards, hnext]
    exact ih _ hcur

omit [DecidableEq α] in
theorem mem_nodesFrom {i count : Nat} (h : a ∈ nodesFrom nodeList i count) :
    a ∈ nodeList.map Prod.snd := by
  induction count generalizing i with
  | zero => cases h
  | succ count ih =>
    rw [nodesFrom, mem_append, Option.mem_toList, Option.map_eq_some_iff] at h
    rcases h with ⟨n, hn, rfl⟩ | h
    · exact mem_map_of_mem (mem_of_getElem? hn)
    · exact ih h

omit [DecidableEq α] in
theorem length_nodesFrom (hi : i < nodeList.length) (count : Nat) :
    (nodesFrom nodeList i count).length = count := by
  induction count generalizing i with
  | zero => rfl
  | succ count ih =>
    have hnext : (if i + 1 = nodeList.length then 0 else i + 1) < nodeList.length := by
      split <;> omega
    rw [nodesFrom, List.getElem?_eq_getElem hi, length_append, ih hnext]
    simp [add_comm]

end Deal

end PartsLemmas

section Plan

variable {ν α ε : Type} [DecidableEq ν] [DecidableEq α]

/-- The index is given to its node as a whole. -/
abbrev IndexMeta.Whole (v : ProxyView ν α ε) (indexMeta : IndexMeta) : Prop :=
  indexMeta.shardNum ≠ 1 ∨ indexMeta.shards.flatten.length < v.parallelQueryThreshold

/-- The owner has the whole index, or each of its second-layer shards is at one node once. -/
def Planned (v : ProxyView ν α ε) (m : NodeIndexMap α) (index : String) (indexMeta : IndexMeta) :
    Prop :=
  if indexMeta.Whole v then
    ∃ addr, v.addrOf index = .ok addr ∧ ∀ a, m a index = if a = addr then some [] else none
  else
    (∀ a, m a index ≠ some []) ∧ (∀ a, a ∉ v.nodeList.map Prod.snd → m a index = none) ∧
      (m.parts index (v.nodeList.map Prod.snd).dedup).flatten.Perm indexMeta.shards.flatten

/-- Every index that exists is planned, and nothing else is. -/
def ExactPlan (v : ProxyView ν α ε) (indexes : List String) (m : NodeIndexMap α) : Prop :=
  (∀ index ∈ indexes, ∀ indexMeta, v.indexMeta index = .ok (some indexMeta) →
    Planned v m index indexMeta) ∧
  ∀ index, (index ∈ indexes → v.indexMeta index = .ok none) → ∀ a, m a index = none

/-- The index has second-layer shards, which are dealt out. -/
def Dealt (v : ProxyView ν α ε) (index : String) : Prop :=
  ∃ indexMeta, v.indexMeta index = .ok (some indexMeta) ∧ ¬ indexMeta.Whole v ∧
    indexMeta.shards.flatten ≠ []

namespace PartsLemmas

variable {v : ProxyView ν α ε} {index : String} {m m' : NodeIndexMap α} {indexes : List String}
  {indexMeta : IndexMeta}

theorem dealShards_frame {addrs : List α} {ids : List Nat} (hsub : ∀ a ∈ t.addrs, a ∈ addrs)
    (h : dealShards index ids t m = some m') :
    (∀ a ix, ix ≠ index → m' a ix = m a ix) ∧ (∀ a, a ∉ addrs → m' a index = m a index) ∧
      ∀ a, m a index ≠ some [] → m' a index ≠ some [] := by
  induction ids generalizing t m with
  | nil =>
    cases h
    exact ⟨fun _ _ _ => rfl, fun _ _ => rfl, fun _ => id⟩
  | cons id ids ih =>
    rw [dealShards] at h
    split at h
    · cases h
    · next addr t' hnext =>
      obtain ⟨hmem, haddrs⟩ := next_mem hnext
      obtain ⟨hother, houtside, hfull⟩ := ih (haddrs ▸ hsub) h
      refine ⟨fun a ix hne => ?_, fun a ha => ?_, fun a ha => hfull a ?_⟩
      · rw [hother a ix hne, add, if_neg]
        exact fun heq => hne heq.2
      · rw [houtside a ha, add, if_neg]
        exact fun heq => ha (heq.1 ▸ hsub addr hmem)
      · rw [add]
        split
        · simp
        · exact ha

theorem dealIndex_other (h : dealIndex v index m = .ok m') (hne : ix ≠ index) (a : α) :
    m' a ix = m a ix := by
  unfold dealIndex at h
  split at h
  · cases h
  · cases h
    rfl
  · dsimp only at h
    split at h
    · split at h
      · cases h
      · cases h
        exact if_neg fun h => hne h.2
    · split at h
      · cases h
      · split at h
        · cases h
        · next hdeal =>
          cases h
          exact (dealShards_frame (fun _ => id) hdeal).1 a ix hne

/-- What `k` visits of an index leave in the map. -/
def Visited (v : ProxyView ν α ε) (m : NodeIndexMap α) (index : String) (indexMeta : IndexMeta)
    (k : Nat) : Prop :=
  if indexMeta.Whole v then
    k = 0 ∧ (∀ a, m a index = none) ∨
      0 < k ∧ ∃ addr, v.addrOf index = .ok addr ∧
        ∀ a, m a index = if a = addr then some [] else none
  else
    (∀ a, m a index ≠ some []) ∧ (∀ a, a ∉ v.nodeList.map Prod.snd → m a index = none) ∧
      (m.parts index (v.nodeList.map Prod.snd).dedup).flatten.Perm
        (replicate k indexMeta.shards.flatten).flatten

theorem dealIndex_visited (hmeta : v.indexMeta index = .ok (some indexMeta)) {k : Nat}
    (hm : Visited v m index indexMeta k) (h : dealIndex v index m = .ok m') :
    Visited v m' index indexMeta (k + 1) := by
  simp only [dealIndex, hmeta] at h
  unfold Visited at hm ⊢
  split at h
  · next hwhole =>
    rw [if_pos hwhole] at hm ⊢
    split at h
    · cases h
    · next addr haddr =>
      cases h
      refine .inr ⟨Nat.succ_pos k, addr, haddr, fun a => ?_⟩
      rcases hm with ⟨-, hnew⟩ | ⟨-, addr', haddr', hold⟩
      · simp only [whole, and_true, hnew]
      · cases haddr.symm.trans haddr'
        simp only [whole, and_true, hold]
        split <;> rfl
  · next hdealt =>
    rw [if_neg hdealt] at hm ⊢
    obtain ⟨hnonempty, hnone, hparts⟩ := hm
    split at h
    · cases h
    · next nodes hnodes =>
      split at h
      · cases h
      · next hdeal =>
        cases h
        obtain ⟨nodeId, -, rfl⟩ := Option.map_eq_some_iff.1 hnodes
        obtain ⟨-, houtside, hfull⟩ := dealShards_frame (fun a ha => mem_nodesFrom ha) hdeal
        refine ⟨fun a => hfull a (hnonempty a), fun a ha => (houtside a ha).trans (hnone a ha), ?_⟩
        rw [replicate_succ, flatten_cons]
        exact (parts_deal (nodup_dedup _) (fun a ha => mem_dedup.2 (mem_nodesFrom ha)) hdeal).trans
          (hparts.append_left _)

omit [DecidableEq ν] in
theorem visited_congr {k : Nat} (h : ∀ a, m' a index = m a index)
    (hm : Visited v m index indexMeta k) : Visited v m' index indexMeta k := by
  simpa only [Visited, NodeIndexMap.parts, h] using hm

omit [DecidableEq ν] in
theorem visited_new : Visited v (fun _ _ => none) index indexMeta 0 := by
  unfold Visited
  split
  · exact .inl ⟨rfl, fun _ => rfl⟩
  · exact ⟨nofun, fun _ _ => rfl, by simp [NodeIndexMap.parts]⟩

/-- An index that the list names `k` times is visited `k` times. -/
theorem visited_all {start : NodeIndexMap α}
    (h : indexes.foldlM (fun m index => dealIndex v index m) start = .ok m) :
    (∀ index indexMeta k, v.indexMeta index = .ok (some indexMeta) →
      Visited v start index indexMeta k →
      Visited v m index indexMeta (k + indexes.count index)) ∧
    ∀ index, (index ∈ indexes → v.indexMeta index = .ok none) → ∀ a, m a index = start a index := by
  induction indexes generalizing start with
  | nil =>
    cases h
    exact ⟨fun _ _ _ _ => id, fun _ _ _ => rfl⟩
  | cons first indexes ih =>
    rw [foldlM_cons] at h
    cases hdeal : dealIndex v first start with
    | error e =>
      rw [hdeal] at h
      cases h
    | ok m₁ =>
      rw [hdeal] at h
      obtain ⟨hvisited, hother⟩ := ih h
      refine ⟨fun index indexMeta k hmeta hstart => ?_, fun index hindex a => ?_⟩
      · rw [count_cons, add_comm (indexes.count index), ← add_assoc]
        refine hvisited index indexMeta _ hmeta ?_
        by_cases hfirst : first = index
        · subst hfirst
          simpa using dealIndex_visited hmeta hstart hdeal
        · simpa [hfirst] using visited_congr (dealIndex_other hdeal (Ne.symm hfirst)) hstart
      · rw [hother index fun h => hindex (mem_cons_of_mem _ h)]
        by_cases hfirst : index = first
        · subst hfirst
          rw [dealIndex, hindex mem_cons_self] at hdeal
          cases hdeal
          rfl
        · exact dealIndex_other hdeal hfirst a

omit [DecidableEq ν] in
theorem planned_iff {k : Nat} (hk : 0 < k) (hm : Visited v m index indexMeta k) :
    Planned v m index indexMeta ↔
      (¬ indexMeta.Whole v → indexMeta.shards.flatten ≠ [] → k ≤ 1) := by
  unfold Visited at hm
  unfold Planned
  split at hm
  · next hwhole =>
    rw [if_pos hwhole]
    exact iff_of_true (hm.resolve_left fun h => hk.ne' h.1).2 fun h => absurd hwhole h
  · next hdealt =>
    rw [if_neg hdealt]
    obtain ⟨hnonempty, hnone, hparts⟩ := hm
    constructor
    · rintro ⟨-, -, hperm⟩ - hshards
      have hlength := (hperm.symm.trans hparts).length_eq
      have hpos := length_pos_iff.2 hshards
      generalize indexMeta.shards.flatten = shards at hlength hpos
      rw [length_flatten, map_replicate, sum_replicate, smul_eq_mul] at hlength
      exact Nat.le_of_mul_le_mul_right (hlength.ge.trans (one_mul _).ge) hpos
    · intro honce
      refine ⟨hnonempty, hnone, hparts.trans ?_⟩
      by_cases hshards : indexMeta.shards.flatten = []
      · simp [hshards]
      · obtain rfl := le_antisymm (honce hdealt hshards) hk
        simp

omit [DecidableEq ν] [DecidableEq α] in
theorem dealt_iff (hmeta : v.indexMeta index = .ok (some indexMeta)) :
    Dealt v index ↔ ¬ indexMeta.Whole v ∧ indexMeta.shards.flatten ≠ [] := by
  simp [Dealt, hmeta]

omit [DecidableEq ν] in
theorem dealShards_none {nodeList : List (ν × α)} {i : Nat} (index : String) (limit : Nat)
    (ids : List Nat) (m : NodeIndexMap α) (hi : i < nodeList.length) :
    dealShards index ids ⟨nodesFrom nodeList i (min nodeList.length limit), 0⟩ m = none ↔
      ids ≠ [] ∧ limit = 0 := by
  by_cases hlimit : limit = 0
  · subst hlimit
    cases ids <;> simp [dealShards, nodesFrom, QueryNodes.next]
  · have hpos : 0 < (nodesFrom nodeList i (min nodeList.length limit)).length := by
      rw [length_nodesFrom hi]
      exact lt_min (Nat.zero_lt_of_lt hi) (Nat.pos_of_ne_zero hlimit)
    obtain ⟨m', hm'⟩ : ∃ m', dealShards index ids ⟨_, 0⟩ m = some m' := deal_isSome ids m hpos
    simp [hm', hlimit]

theorem dealIndex_panic (hnodes : v.nodeList ≠ []) :
    dealIndex v index m = .error .panic ↔
      Dealt v index ∧ v.parallelQueryNodeLimit = 0 ∧ (v.assigned index).isSome := by
  unfold dealIndex
  split
  · next hmeta => exact iff_of_false nofun fun ⟨⟨_, h, _⟩, _⟩ => nomatch hmeta.symm.trans h
  · next hmeta => exact iff_of_false nofun fun ⟨⟨_, h, _⟩, _⟩ => nomatch hmeta.symm.trans h
  · next indexMeta hmeta =>
    rw [dealt_iff hmeta]
    dsimp only
    split
    · next hwhole =>
      refine iff_of_false ?_ fun h => h.1.1 hwhole
      split <;> simp
    · next hsplit =>
      cases hassigned : v.assigned index with
      | none => simp [getQueryNodes]
      | some nodeId =>
        have hi : (if v.nodeList.findIdx (fun n => n.1 = nodeId) < v.nodeList.length then
            v.nodeList.findIdx fun n => n.1 = nodeId else 0) < v.nodeList.length := by
          have hpos := length_pos_iff.2 hnodes
          split <;> assumption
        have hnone :=
          dealShards_none index v.parallelQueryNodeLimit indexMeta.shards.flatten m hi
        simp only [getQueryNodes, Option.map_some]
        rw [and_assoc, and_iff_right hsplit, Option.isSome_some, and_iff_left rfl, ← hnone]
        split
        · next heq => exact iff_of_true rfl heq
        · next heq => exact iff_of_false nofun (heq ▸ nofun)

theorem foldlM_error {β γ e : Type} {f : β → γ → Except e β} {l : List γ} {b : β} {err : e} :
    l.foldlM f b = .error err ↔ ∃ before x after b', l = before ++ x :: after ∧
      before.foldlM f b = .ok b' ∧ f b' x = .error err := by
  induction l generalizing b with
  | nil => exact iff_of_false nofun fun ⟨_, _, _, _, h, _⟩ => by simp at h
  | cons x l ih =>
    rw [foldlM_cons]
    cases hx : f b x with
    | error err' =>
      constructor
      · rintro ⟨⟩
        exact ⟨[], x, l, b, rfl, rfl, hx⟩
      · rintro ⟨before, y, after, b', heq, hbefore, herr⟩
        cases before with
        | nil =>
          cases heq
          cases hbefore
          exact hx.symm.trans herr
        | cons z before =>
          cases heq
          rw [foldlM_cons, hx] at hbefore
          cases hbefore
    | ok b₁ =>
      refine ih.trans ⟨?_, ?_⟩
      · rintro ⟨before, y, after, b', rfl, hbefore, herr⟩
        refine ⟨x :: before, y, after, b', rfl, ?_, herr⟩
        rw [foldlM_cons, hx]
        exact hbefore
      · rintro ⟨before, y, after, b', heq, hbefore, herr⟩
        cases before with
        | nil =>
          cases heq
          cases hbefore
          cases hx.symm.trans herr
        | cons z before =>
          cases heq
          rw [foldlM_cons, hx] at hbefore
          exact ⟨before, y, after, b', rfl, hbefore, herr⟩

theorem exactPlan_iff (hnodes : v.nodeList ≠ []) (h : calcNodeIndexMap v indexes = .ok m) :
    ExactPlan v indexes m ↔ ∀ index, Dealt v index → indexes.count index ≤ 1 := by
  rw [calcNodeIndexMap, if_neg (mt length_eq_zero_iff.1 hnodes)] at h
  obtain ⟨hvisited, hother⟩ := visited_all h
  have hplanned : ∀ index ∈ indexes, ∀ indexMeta, v.indexMeta index = .ok (some indexMeta) →
      (Planned v m index indexMeta ↔
        (¬ indexMeta.Whole v → indexMeta.shards.flatten ≠ [] → indexes.count index ≤ 1)) :=
    fun index hindex indexMeta hmeta => planned_iff (count_pos_iff.2 hindex)
      (Nat.zero_add (indexes.count index) ▸ hvisited index indexMeta 0 hmeta visited_new)
  constructor
  · rintro ⟨hplan, -⟩ index ⟨indexMeta, hmeta, hdealt, hshards⟩
    by_cases hindex : index ∈ indexes
    · exact (hplanned index hindex indexMeta hmeta).1 (hplan index hindex indexMeta hmeta) hdealt
        hshards
    · exact (count_eq_zero.2 hindex).le.trans zero_le_one
  · intro honce
    refine ⟨fun index hindex indexMeta hmeta => ?_, hother⟩
    exact (hplanned index hindex indexMeta hmeta).2 fun hdealt hshards =>
      honce index ⟨indexMeta, hmeta, hdealt, hshards⟩

omit [DecidableEq ν] in
theorem exactPlan_none (hnodes : v.nodeList = []) :
    ExactPlan v indexes (fun _ _ => none) ↔ ∀ index ∈ indexes, ∀ indexMeta,
      v.indexMeta index = .ok (some indexMeta) → ¬ indexMeta.Whole v ∧ ¬ Dealt v index := by
  refine (and_iff_left fun _ _ _ => rfl).trans ?_
  refine forall₄_congr fun index hindex indexMeta hmeta => ?_
  rw [dealt_iff hmeta, Planned]
  split
  · next hwhole =>
    refine iff_of_false ?_ fun h => h.1 hwhole
    rintro ⟨addr, -, hnone⟩
    simpa using hnone addr
  · next hdealt => simp [hdealt, hnodes, NodeIndexMap.parts]

end PartsLemmas

open PartsLemmas

/-- A plan that is made is exact if and only if each index whose shards are dealt out is named once
and, without a node, no index has anything to search. The planning panics if and only if it comes to
an index whose shards are dealt out and no node may be used. -/
theorem plan_exact_cover (v : ProxyView ν α ε) (indexes : List String) :
    (∀ m, calcNodeIndexMap v indexes = .ok m → (ExactPlan v indexes m ↔
      (v.nodeList ≠ [] → ∀ index, Dealt v index → indexes.count index ≤ 1) ∧
      (v.nodeList = [] → ∀ index ∈ indexes, ∀ indexMeta,
        v.indexMeta index = .ok (some indexMeta) → ¬ indexMeta.Whole v ∧ ¬ Dealt v index))) ∧
    (calcNodeIndexMap v indexes = .error .panic ↔
      v.nodeList ≠ [] ∧ v.parallelQueryNodeLimit = 0 ∧ ∃ before index after,
        indexes = before ++ index :: after ∧ (∃ m, calcNodeIndexMap v before = .ok m) ∧
        Dealt v index ∧ (v.assigned index).isSome) := by
  by_cases hnodes : v.nodeList = []
  · rw [calcNodeIndexMap, if_pos (length_eq_zero_iff.2 hnodes)]
    refine ⟨?_, iff_of_false nofun fun h => h.1 hnodes⟩
    rintro m ⟨⟩
    rw [exactPlan_none hnodes]
    simp [hnodes]
  · refine ⟨fun m hm => ?_, ?_⟩
    · rw [exactPlan_iff hnodes hm]
      simp [hnodes]
    · simp only [calcNodeIndexMap, if_neg (mt length_eq_zero_iff.1 hnodes)]
      rw [foldlM_error, and_iff_right hnodes]
      constructor
      · rintro ⟨before, index, after, m, heq, hm, hpanic⟩
        obtain ⟨hdealt, hlimit, hassigned⟩ := (dealIndex_panic hnodes).1 hpanic
        exact ⟨hlimit, before, index, after, heq, ⟨m, hm⟩, hdealt, hassigned⟩
      · rintro ⟨hlimit, before, index, after, heq, ⟨m, hm⟩, hdealt, hassigned⟩
        exact ⟨before, index, after, m, heq, hm,
          (dealIndex_panic hnodes).2 ⟨hdealt, hlimit, hassigned⟩⟩

end Plan

def twoNodes : ProxyView Nat Nat Unit where
  nodeList := [(0, 0), (1, 1)]
  indexMeta name := .ok (if name = "big" then some ⟨1, [[0, 1]]⟩ else none)
  assigned _ := some 0
  addrOf _ := .ok 0
  parallelQueryThreshold := 2
  parallelQueryNodeLimit := 2

theorem plan_exact_cover_big :
    ∃ m, calcNodeIndexMap twoNodes ["nope", "big", "nope"] = .ok m ∧
      Planned twoNodes m "big" ⟨1, [[0, 1]]⟩ := by
  obtain ⟨m, hm⟩ : ∃ m, calcNodeIndexMap twoNodes ["nope", "big", "nope"] = .ok m := ⟨_, rfl⟩
  have honce : ∀ index, Dealt twoNodes index → ["nope", "big", "nope"].count index ≤ 1 := by
    rintro index ⟨indexMeta, hmeta, -⟩
    by_cases hbig : index = "big"
    · rw [hbig]
      decide
    · simp [twoNodes, hbig] at hmeta
  exact ⟨m, hm, (((plan_exact_cover twoNodes _).1 m hm).2 ⟨fun _ => honce, nofun⟩).1 "big"
    (by decide) _ rfl⟩

/-- An index that is named twice is searched twice. -/
theorem plan_repeats :
    ∃ m, calcNodeIndexMap twoNodes ["big", "big"] = .ok m ∧ m 0 "big" = some [0, 0] ∧
      m 1 "big" = some [1, 1] ∧ ¬ Planned twoNodes m "big" ⟨1, [[0, 1]]⟩ := by
  refine ⟨_, rfl, rfl, rfl, fun h => ?_⟩
  have hdealt := h.2.2.length_eq
  exact absurd hdealt (by decide)

namespace PartsLemmas

variable {range : Nat → Stats} {n : Nat} {timeMin timeMax : Int} {k : Nat}

theorem mem_partialSearchers (hids : ∀ i ∈ ids, i < n) :
    k ∈ partialSearchers range n timeMin timeMax (ids.map Nat.cast) ↔
      ∃ before after, ids = before ++ k :: after ∧ ¬ (range k).outside timeMin timeMax ∧
        ∀ i ∈ before, ¬ (range i).ends timeMin timeMax := by
  induction ids with
  | nil => simp [partialSearchers]
  | cons id ids ih =>
    -- `k` is the first id, or it is searched after the first one has not ended the search
    have hsplit : (∃ before after, id :: ids = before ++ k :: after ∧
          ¬ (range k).outside timeMin timeMax ∧ ∀ i ∈ before, ¬ (range i).ends timeMin timeMax) ↔
        (id = k ∧ ¬ (range k).outside timeMin timeMax) ∨ ¬ (range id).ends timeMin timeMax ∧
            ∃ before after, ids = before ++ k :: after ∧ ¬ (range k).outside timeMin timeMax ∧
              ∀ i ∈ before, ¬ (range i).ends timeMin timeMax := by
      constructor
      · rintro ⟨before, after, hids, hk, hbefore⟩
        cases before with
        | nil => exact .inl ⟨(List.cons.inj hids).1, hk⟩
        | cons i before =>
          obtain ⟨rfl, rfl⟩ := List.cons.inj hids
          exact .inr ⟨hbefore _ mem_cons_self, before, after, rfl, hk,
            fun j hj => hbefore j (mem_cons_of_mem _ hj)⟩
      · rintro (⟨rfl, hk⟩ | ⟨hid, before, after, rfl, hk, hbefore⟩)
        · exact ⟨[], ids, rfl, hk, by simp⟩
        · exact ⟨id :: before, after, rfl, hk, forall_mem_cons.2 ⟨hid, hbefore⟩⟩
    have hid : id < n := hids id mem_cons_self
    have hvalid : ¬ ((id : Int) ≥ n ∨ (id : Int) < 0) := by omega
    rw [hsplit, ← ih fun i hi => hids i (mem_cons_of_mem _ hi), map_cons,
      partialSearchers, if_neg hvalid, Int.toNat_natCast]
    split
    · next hout =>
      have hends : ¬ (range id).ends timeMin timeMax := fun h => h.1 hout
      have hne : ¬ (id = k ∧ ¬ (range k).outside timeMin timeMax) := by
        rintro ⟨rfl, hk⟩
        exact hk hout
      simp [hends, hne]
    · next hout =>
      have hk : (id = k ∧ ¬ (range k).outside timeMin timeMax) ↔ k = id :=
        ⟨fun h => h.1.symm, fun h => ⟨h.symm, h ▸ hout⟩⟩
      rw [hk]
      split
      · next hstop => simp [Stats.ends, hout, hstop]
      · next hstop => simp [Stats.ends, hstop]

theorem before_unique {part before after : List Nat} (hnodup : part.Nodup)
    (h : part = before ++ k :: after) {before' after' : List Nat}
    (h' : part = before' ++ k :: after') : before = before' := by
  subst h
  have hk : k ∉ before ∧ k ∉ after := by
    rw [nodup_append, nodup_cons] at hnodup
    exact ⟨fun hb => hnodup.2.2 k hb k mem_cons_self rfl, hnodup.2.1.1⟩
  exact ((append_cons_inj_of_notMem hk.1 hk.2).1 h').1

variable {B : Bluge σ} {s : IndexShard B} {parts : List (List Nat)}

theorem mem_getSearchers_iff (hk : k < s.shardNum) (hin : ¬ (s.range k).outside timeMin timeMax) :
    k ∈ s.getSearchers timeMin timeMax ↔
      ¬ ∃ i, k < i ∧ i < s.shardNum ∧ (s.range i).ends timeMin timeMax := by
  rw [mem_getSearchers]
  constructor
  · rintro ⟨-, -, hlater⟩ ⟨i, hki, hi, hends⟩
    exact (hlater i hki hi).elim hends.1 fun h => h hends.2
  · intro hnone
    refine ⟨hk, hin, fun i hki hi => ?_⟩
    by_contra hends
    push Not at hends
    exact hnone ⟨i, hki, hi, hends⟩

theorem found_iff (hsplit : IsSplit s.shardNum parts) {part before after : List Nat}
    (hpart : part ∈ parts) (h : part = before ++ k :: after)
    (hin : ¬ (s.range k).outside timeMin timeMax) :
    (∃ p ∈ parts, k ∈ s.getPartialSearchers timeMin timeMax (p.map Nat.cast)) ↔
      ¬ ∃ i ∈ before, (s.range i).ends timeMin timeMax := by
  have hlt : ∀ p ∈ parts, ∀ i ∈ p, i < s.shardNum := fun p hp i hi =>
    mem_range.1 (hsplit.mem_iff.1 (mem_flatten.2 ⟨p, hp, hi⟩))
  have hnodup := nodup_flatten.1 (hsplit.nodup_iff.2 nodup_range)
  constructor
  · rintro ⟨p, hp, hfound⟩ ⟨i, hi, hends⟩
    obtain ⟨before', after', hp', -, hbefore⟩ := (mem_partialSearchers (hlt p hp)).1 hfound
    -- no other part has the shard
    obtain rfl : p = part := by
      by_contra hne
      have : Std.Symm (List.Disjoint (α := Nat)) := ⟨fun _ _ => List.Disjoint.symm⟩
      have hdisj : p.Disjoint part := hnodup.2.forall hp hpart hne
      exact @hdisj k (by simp [hp']) (by simp [h])
    exact hbefore i (before_unique (hnodup.1 p hp) h hp' ▸ hi) hends
  · intro hnone
    refine ⟨part, hpart, (mem_partialSearchers (hlt part hpart)).2 ⟨before, after, h, hin, ?_⟩⟩
    exact fun i hi hends => hnone ⟨i, hi, hends⟩

end PartsLemmas

open PartsLemmas

/-- The parts of a split find the shards that the whole search finds if and only if, for each
shard with a range in the window, a shard before it in its part ends a search exactly when a
later shard does. -/
theorem parts_cover_iff {B : Bluge σ} (s : IndexShard B) (timeMin timeMax : Int)
    (parts : List (List Nat)) (hsplit : IsSplit s.shardNum parts) :
    s.PartsCover timeMin timeMax parts ↔ s.EndsAlike timeMin timeMax parts := by
  have hlt : ∀ p ∈ parts, ∀ i ∈ p, i < s.shardNum := fun p hp i hi =>
    mem_range.1 (hsplit.mem_iff.1 (mem_flatten.2 ⟨p, hp, hi⟩))
  constructor
  · intro hcover part hpart before k after h hin
    have hk : k < s.shardNum := hlt part hpart k (by simp [h])
    have := hcover k
    rw [found_iff hsplit hpart h hin, mem_getSearchers_iff hk hin] at this
    exact not_iff_not.1 this
  · intro halike k
    by_cases hin : (s.range k).outside timeMin timeMax
    · -- neither search looks at a shard outside of the window
      constructor
      · rintro ⟨p, hp, hfound⟩
        obtain ⟨-, -, -, hk, -⟩ := (mem_partialSearchers (hlt p hp)).1 hfound
        exact absurd hin hk
      · exact fun hfound => absurd hin (mem_getSearchers.1 hfound).2.1
    · rcases lt_or_ge k s.shardNum with hk | hk
      · obtain ⟨part, hpart, hmem⟩ :=
          mem_flatten.1 (hsplit.mem_iff.2 (mem_range.2 hk))
        obtain ⟨before, after, h⟩ := append_of_mem hmem
        rw [found_iff hsplit hpart h hin, mem_getSearchers_iff hk hin]
        exact not_iff_not.2 (halike part hpart before k after h hin)
      · constructor
        · rintro ⟨p, hp, hfound⟩
          obtain ⟨before, after, h, -⟩ := (mem_partialSearchers (hlt p hp)).1 hfound
          exact absurd (hlt p hp k (by simp [h])) (Nat.not_lt_of_ge hk)
        · exact fun hfound => absurd (mem_getSearchers.1 hfound).1 (Nat.not_lt_of_ge hk)

namespace PartsLemmas

def twoRanges : IndexShard (Bluge.lists Unit) where
  shards := [⟨(Bluge.lists Unit).new, 1, 5⟩, ⟨(Bluge.lists Unit).new, 6, 10⟩]
  nonempty := by simp

theorem endsAlike_apart : twoRanges.EndsAlike 3 0 [[1], [0]] := by
  intro part hpart before k after h hin
  have hnone : ¬ ∃ i, k < i ∧ i < 2 ∧ (twoRanges.range i).ends 3 0 := by
    rintro ⟨i, hki, hi, hends⟩
    obtain rfl : i = 1 := by omega
    exact absurd hends (by decide)
  have hbefore : before = [] := by
    have hlen : part.length = 1 := by
      rcases mem_pair.1 hpart with rfl | rfl <;> rfl
    rw [h, length_append, length_cons] at hlen
    exact length_eq_zero_iff.1 (by omega)
  rw [hbefore]
  exact ⟨fun ⟨_, hi, _⟩ => absurd hi not_mem_nil, fun hends => absurd hends hnone⟩

end PartsLemmas

theorem parts_cover_apart :
    IsSplit twoRanges.shardNum [[1], [0]] ∧ twoRanges.EndsAlike 3 0 [[1], [0]] ∧
      twoRanges.PartsCover 3 0 [[1], [0]] :=
  ⟨by decide, endsAlike_apart,
    (parts_cover_iff twoRanges 3 0 [[1], [0]] (by decide)).2 endsAlike_apart⟩

/-- The proxy deals both shards to one node. The search of the node stops at the first shard,
which starts before the window, and does not come to the second one. -/
theorem ascending_part_stops :
    (dealShards "books" [0, 1] ⟨["node"], 0⟩ fun _ _ => none).map
        (fun m => m.parts "books" ["node"]) = some [[0, 1]] ∧
      IsSplit twoRanges.shardNum [[0, 1]] ∧
      twoRanges.getPartialSearchers 3 0 [0, 1] = [0] ∧ twoRanges.getSearchers 3 0 = [1, 0] ∧
      ¬ twoRanges.PartsCover 3 0 [[0, 1]] := by
  have hpart : twoRanges.getPartialSearchers 3 0 [0, 1] = [0] := by decide
  have hwhole : twoRanges.getSearchers 3 0 = [1, 0] := by decide
  refine ⟨by decide, by decide, hpart, hwhole, fun hcover => ?_⟩
  obtain ⟨part, hmem, hfound⟩ := (hcover 1).2 (hwhole ▸ by decide)
  obtain rfl := mem_singleton.1 hmem
  exact absurd (hpart ▸ hfound) (by decide)

end SeaSearch
