import SeaSearch.Lib.Versions

/-!
# Multi-search

The body of an msearch has a header line and a query line for each query. A node answers the queries
that it cannot read first, and then the others.
-/

namespace SeaSearch

open List Versions

/-- The value of `index` in a header: none, names, or a list with a value that is not a string, for
which the type assertion panics. -/
inductive HeaderIndex
  | absent
  | names (names : List String)
  | nonString

/-- What the handlers use: headers and queries, the search, the nodes of the indexes, and a sort by
number. What the proxy writes is read back. -/
structure Msearch (Line Doc Q R : Type) where
  unmarshalHeader : Doc → Line → Option Doc
  index : Doc → HeaderIndex
  unmarshalQuery : Line → Option Q
  indexLine : String → Line
  queryLine : Q → Line
  search : List String → Q → R
  error : Line → R
  sort : List (Nat × R) → List (Nat × R)
  indexLine_read : ∀ doc i, ∃ doc', unmarshalHeader doc (indexLine i) = some doc' ∧
    index doc' = .names [i]
  queryLine_read : ∀ q, unmarshalQuery (queryLine q) = some q
  sort_perm : ∀ l, (sort l).Perm l
  sort_sorted : ∀ l, (sort l).Pairwise fun a b => a.1 ≤ b.1

namespace Msearch

variable {Line Doc Q R : Type} (env : Msearch Line Doc Q R) (defaults : List String)

/-- The queries of a body with their indexes. `none` if a header panics. -/
def queries (doc : Doc) : List Line → Option (List (List String × Line))
  | header :: query :: lines =>
    match env.unmarshalHeader doc header with
    | none => (queries doc lines).map (([], query) :: ·)
    | some doc =>
      match env.index doc with
      | .absent => (queries doc lines).map ((defaults, query) :: ·)
      | .names names => (queries doc lines).map ((names, query) :: ·)
      | .nonString => none
  | [header] =>
    match (env.unmarshalHeader doc header).map env.index with
    | some .nonString => none
    | _ => some []
  | [] => some []

/-- The answers of a node: an error at once for what cannot be read, and then the searches. -/
def answers (qs : List (List String × Line)) : List R :=
  (qs.filter fun p => (env.unmarshalQuery p.2).isNone).map (fun p => env.error p.2) ++
    qs.filterMap fun p => (env.unmarshalQuery p.2).map (env.search p.1)

/-- `MultipleSearch` of the node. -/
def multipleSearch (doc : Doc) (lines : List Line) : Option (List R) :=
  (env.queries defaults doc lines).map env.answers

structure Entry (Q : Type) where
  order : Nat
  index : String
  query : Q

def entries (qs : List (List String × Line)) : List (Entry Q) :=
  (qs.filterMap fun p => (env.unmarshalQuery p.2).map fun q => (p.1, q)).zipIdx.flatMap fun p =>
    p.1.1.map fun i => ⟨p.2, i, p.1.2⟩

/-- The request of the proxy to a node, whose answers get the numbers of the queries. -/
def fetch (doc : Doc) (es : List (Entry Q)) : Option (List (Nat × R)) :=
  (env.multipleSearch [] doc
      (es.flatMap fun e => [env.indexLine e.index, env.queryLine e.query])).map fun rs =>
    rs.zipIdx.map fun r => ((es.map Entry.order).getD r.2 0, r.1)

/-- `MultiSearch` of the proxy, if all nodes answer. `indexes` and `nodes` are the orders of the
loops over the indexes and the nodes. -/
def multiSearch (addrOf : String → Option String) (indexes nodes : Shuffle String) (doc : Doc)
    (lines : List Line) : Option (List R) :=
  (env.queries defaults doc lines).bind fun qs =>
    let es := env.entries qs
    let names := indexes.keys (es.map Entry.index)
    if names.all fun i => (addrOf i).isSome then
      ((nodes.keys (names.map fun i => (addrOf i).getD "")).mapM fun addr =>
        env.fetch doc ((names.filter fun i => (addrOf i).getD "" = addr).flatMap fun i =>
          es.filter fun e => e.index = i)).map fun rs => (env.sort rs.flatten).map Prod.snd
    else none

/-- The answer to a query. -/
def respond (p : List String × Line) : R :=
  ((env.unmarshalQuery p.2).map (env.search p.1)).getD (env.error p.2)

/-- Every query has one answer, in the order of the queries. -/
def InOrder (doc : Doc) (lines : List Line) (responses : Option (List R)) : Prop :=
  ∃ qs, env.queries defaults doc lines = some qs ∧ responses = some (qs.map env.respond)

/-- An answer shows which query it answers. -/
structure Distinct : Prop where
  search : ∀ names names' q q', env.search names q = env.search names' q' → names = names' ∧ q = q'
  error : ∀ line names q, env.error line ≠ env.search names q

namespace MsearchLemmas

variable {env} {defaults} {doc : Doc} {lines : List Line}

theorem groups_perm {α κ : Type} [DecidableEq κ] (key : α → κ) {ks : List κ} (hks : ks.Nodup)
    {l : List α} (hl : ∀ x ∈ l, key x ∈ ks) :
    (ks.flatMap fun k => l.filter fun x => key x = k).Perm l := by
  induction ks generalizing l with
  | nil => rw [eq_nil_iff_forall_not_mem.2 fun x hx => not_mem_nil (hl x hx)]; rfl
  | cons k ks ih =>
    obtain ⟨hk, hks⟩ := nodup_cons.1 hks
    have hrest := ih hks (l := l.filter fun x => !decide (key x = k)) fun x hx => by
      obtain ⟨hx, hne⟩ := mem_filter.1 hx
      exact (mem_cons.1 (hl x hx)).resolve_left (by simpa using hne)
    have hsame : (ks.flatMap fun k' => (l.filter fun x => !decide (key x = k)).filter
        fun x => key x = k') = ks.flatMap fun k' => l.filter fun x => key x = k' := by
      refine flatMap_congr fun k' hk' => ?_
      rw [filter_filter]
      refine filter_congr fun x _ => ?_
      by_cases hx : key x = k'
      · have hne : k' ≠ k := fun heq => hk (heq ▸ hk')
        simp [hx, hne]
      · simp [hx]
    rw [flatMap_cons, ← hsame]
    exact (hrest.append_left _).trans (filter_append_perm _ l)

theorem answers_split {bad good : List (List String × Line)}
    (hbad : ∀ p ∈ bad, env.unmarshalQuery p.2 = none)
    (hgood : ∀ p ∈ good, (env.unmarshalQuery p.2).isSome) :
    env.answers (bad ++ good) = (bad ++ good).map env.respond := by
  have hnone : (bad.filterMap fun p => (env.unmarshalQuery p.2).map (env.search p.1)) = [] := by
    rw [filterMap_eq_nil_iff]
    intro p hp
    rw [hbad p hp]
    rfl
  have hall : (bad.filter fun p => (env.unmarshalQuery p.2).isNone) = bad :=
    filter_eq_self.2 fun p hp => by rw [hbad p hp]; rfl
  have hno : (good.filter fun p => (env.unmarshalQuery p.2).isNone) = [] :=
    filter_eq_nil_iff.2 fun p hp => by simp [Option.isSome_iff_ne_none.1 (hgood p hp)]
  rw [answers, filter_append, filterMap_append, hnone, hall, hno, append_nil, nil_append,
    map_append]
  refine congrArg₂ _ (map_congr_left fun p hp => ?_) ?_
  · rw [respond, hbad p hp]
    rfl
  · rw [← filterMap_eq_map]
    refine filterMap_congr fun p hp => ?_
    obtain ⟨q, hq⟩ := Option.isSome_iff_exists.1 (hgood p hp)
    simp [respond, hq]

/-- The answers of a node say where the unreadable queries are: before all others. -/
theorem exists_split (hdistinct : env.Distinct) {qs : List (List String × Line)}
    (h : env.answers qs = qs.map env.respond) :
    ∃ bad good, qs = bad ++ good ∧ (∀ p ∈ bad, env.unmarshalQuery p.2 = none) ∧
      ∀ p ∈ good, (env.unmarshalQuery p.2).isSome := by
  induction qs with
  | nil => exact ⟨[], [], rfl, nofun, nofun⟩
  | cons p qs ih =>
    cases hp : env.unmarshalQuery p.2 with
    | none =>
      have hrest : env.answers qs = qs.map env.respond := by
        simpa [answers, respond, hp] using h
      obtain ⟨bad, good, rfl, hbad, hgood⟩ := ih hrest
      exact ⟨p :: bad, good, rfl, forall_mem_cons.2 ⟨hp, hbad⟩, hgood⟩
    | some q =>
      refine ⟨[], p :: qs, rfl, nofun, fun p' hp' => ?_⟩
      -- a query that cannot be read would have its answer first
      cases hfirst : (p :: qs).filter fun p => (env.unmarshalQuery p.2).isNone with
      | nil => simpa [Option.isSome_iff_ne_none] using filter_eq_nil_iff.1 hfirst p' hp'
      | cons p₁ rest =>
        rw [answers, hfirst, map_cons, cons_append, map_cons, respond, hp] at h
        exact absurd (cons.inj h).1 (hdistinct.error p₁.2 p.1 q)

theorem queries_body (doc : Doc) (es : List (Entry Q)) :
    env.queries [] doc (es.flatMap fun e => [env.indexLine e.index, env.queryLine e.query]) =
      some (es.map fun e => ([e.index], env.queryLine e.query)) := by
  induction es generalizing doc with
  | nil => rfl
  | cons e es ih =>
    obtain ⟨doc', hdoc, hindex⟩ := env.indexLine_read doc e.index
    rw [flatMap_cons, cons_append, cons_append, nil_append, queries, hdoc]
    dsimp only
    rw [hindex]
    dsimp only
    rw [ih doc', Option.map_some, map_cons]

theorem fetch_eq (es : List (Entry Q)) :
    env.fetch doc es = some (es.map fun e => (e.order, env.search [e.index] e.query)) := by
  have hread : ∀ p ∈ es.map fun e => ([e.index], env.queryLine e.query),
      (env.unmarshalQuery p.2).isSome := fun p hp => by
    obtain ⟨e, _, rfl⟩ := mem_map.1 hp
    rw [env.queryLine_read]
    rfl
  have hnone : ∀ p ∈ ([] : List (List String × Line)), env.unmarshalQuery p.2 = none := nofun
  have hsearch := answers_split hnone hread
  rw [nil_append] at hsearch
  rw [fetch, multipleSearch, queries_body, Option.map_some, Option.map_some, hsearch, map_map]
  refine congrArg some (ext_getElem (by simp) fun i hi hi' => ?_)
  simp only [length_map, length_zipIdx] at hi
  simp [respond, env.queryLine_read, hi]

/-- The answers that the proxy gets, before it sorts them. -/
theorem multiSearch_eq (addrOf : String → Option String) (indexes nodes : Shuffle String)
    {qs : List (List String × Line)} (hqs : env.queries defaults doc lines = some qs) :
    ∃ rs : List (Nat × R), rs.Perm ((env.entries qs).map fun e =>
        (e.order, env.search [e.index] e.query)) ∧
      env.multiSearch defaults addrOf indexes nodes doc lines =
        if ∀ e ∈ env.entries qs, (addrOf e.index).isSome then some ((env.sort rs).map Prod.snd)
        else none := by
  have hkeys : ∀ (o : Shuffle String) ks, (o.keys ks).Nodup := fun o ks =>
    (o.perm _).nodup_iff.2 (nodup_dedup ks)
  have hall : ((indexes.keys ((env.entries qs).map Entry.index)).all
      fun i => (addrOf i).isSome) = true ↔ ∀ e ∈ env.entries qs, (addrOf e.index).isSome := by
    simp [Shuffle.mem_keys]
  simp only [multiSearch, hqs, Option.bind_some, fetch_eq, hall]
  refine ⟨_, ?_, by rw [← Option.pure_def, mapM_pure]; rfl⟩
  simp only [flatten_eq_flatMap, flatMap_map, id, ← map_flatMap, ← flatMap_assoc]
  refine Perm.map _ (((groups_perm _ (hkeys nodes _) fun i hi => ?_).flatMap_right _).trans
    (groups_perm Entry.index (hkeys indexes _) fun e he => ?_))
  · exact Shuffle.mem_keys.2 (mem_map_of_mem hi)
  · exact Shuffle.mem_keys.2 (mem_map_of_mem he)

theorem entries_numbered {ps : List (List String × Line)}
    (hps : ∀ p ∈ ps, (env.unmarshalQuery p.2).isSome ∧ ∃ i, p.1 = [i]) (n : Nat) :
    (((ps.filterMap fun p => (env.unmarshalQuery p.2).map fun q => (p.1, q)).zipIdx n).flatMap
        fun p => p.1.1.map fun i => (⟨p.2, i, p.1.2⟩ : Entry Q)).map
      (fun e => (e.order, env.search [e.index] e.query)) =
      ((ps.map env.respond).zipIdx n).map Prod.swap := by
  induction ps generalizing n with
  | nil => rfl
  | cons p ps ih =>
    obtain ⟨hsome, i, hi⟩ := hps p (mem_cons_self ..)
    obtain ⟨q, hq⟩ := Option.isSome_iff_exists.1 hsome
    have hrest := ih (fun p hp => hps p (mem_cons_of_mem _ hp)) (n + 1)
    rw [filterMap_cons_some (by rw [hq]; rfl), zipIdx_cons, flatMap_cons, map_append, hrest,
      map_cons, zipIdx_cons, map_cons, respond, hq, hi]
    rfl

theorem sort_eq {l : List (Nat × R)} {rs : List R} (h : l.Perm (rs.zipIdx.map Prod.swap)) :
    (env.sort l).map Prod.snd = rs := by
  have hperm := (env.sort_perm l).trans h
  have hfst : (rs.zipIdx.map Prod.swap).map Prod.fst = range rs.length := by
    rw [map_map, range_eq_range']
    exact zipIdx_map_snd ..
  have hsorted : (rs.zipIdx.map Prod.swap).Pairwise fun a b => a.1 < b.1 := by
    rw [← pairwise_map (f := Prod.fst) (R := (· < ·)), hfst]
    exact pairwise_lt_range
  have heq : env.sort l = rs.zipIdx.map Prod.swap := by
    refine hperm.eq_of_pairwise (fun a b ha hb hle hge => ?_) (env.sort_sorted l)
      (hsorted.imp le_of_lt)
    refine inj_on_of_nodup_map ?_ (hperm.mem_iff.1 ha) hb (le_antisymm hle hge)
    rw [hfst]
    exact nodup_range
  rw [heq, map_map]
  exact zipIdx_map_fst ..

theorem mem_entries {p : List String × Line} {qs : List (List String × Line)} (hp : p ∈ qs)
    (hq : env.unmarshalQuery p.2 = some q) (hi : i ∈ p.1) :
    ∃ e ∈ env.entries qs, e.index = i := by
  have hmem : (p.1, q) ∈ qs.filterMap fun p => (env.unmarshalQuery p.2).map fun q => (p.1, q) :=
    mem_filterMap.2 ⟨p, hp, by rw [hq]; rfl⟩
  obtain ⟨n, hn⟩ := mem_iff_getElem?.1 hmem
  exact ⟨⟨n, i, q⟩, mem_flatMap.2 ⟨((p.1, q), n), mk_mem_zipIdx_iff_getElem?.2 hn,
    mem_map.2 ⟨i, hi, rfl⟩⟩, rfl⟩

theorem index_of_mem_entries {e : Entry Q} {qs : List (List String × Line)}
    (he : e ∈ env.entries qs) : ∃ p ∈ qs, e.index ∈ p.1 := by
  obtain ⟨⟨⟨names, q⟩, n⟩, hp, he⟩ := mem_flatMap.1 he
  obtain ⟨p, hmem, hq⟩ := mem_filterMap.1 (fst_mem_of_mem_zipIdx hp)
  obtain ⟨q', _, heq⟩ := Option.map_eq_some_iff.1 hq
  obtain ⟨i, hi, rfl⟩ := mem_map.1 he
  obtain ⟨rfl, _⟩ := Prod.mk.inj heq
  exact ⟨p, hmem, hi⟩

end MsearchLemmas

open MsearchLemmas

/-- A line is the index of a header, and the number that is a query, if it can be read. -/
def numbers : Msearch (String × Option Nat) String Nat (Option (List String × Nat)) where
  unmarshalHeader _ line := some line.1
  index doc := .names [doc]
  unmarshalQuery line := line.2
  indexLine i := (i, none)
  queryLine n := ("", some n)
  search names n := some (names, n)
  error _ := none
  sort l := l.mergeSort fun a b => a.1 ≤ b.1
  indexLine_read _ i := ⟨i, rfl, rfl⟩
  queryLine_read _ := rfl
  sort_perm l := mergeSort_perm ..
  sort_sorted l := by
    have hsorted : (l.mergeSort fun a b => a.1 ≤ b.1).Pairwise fun a b => decide (a.1 ≤ b.1) :=
      pairwise_mergeSort (fun a b c => by simpa using le_trans)
        (fun a b => by simpa using le_total a.1 b.1) l
    simpa using hsorted

end Msearch

end SeaSearch
