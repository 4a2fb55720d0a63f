import SeaSearch.Uquery.Range

/-!
# The time range of a query

`timerange.Query` looks for a time range in the query before the search, so that the shards outside
the range are not opened; `query.Query` gives the bluge query. The trees of the two calls are the
same up to the orders of their maps.
-/

namespace SeaSearch

open List
open Option (bind_eq_some_iff map_eq_some_iff)

variable {N : Type}

namespace Timerange

variable (lib : GoLib N)

mutual
/-- The loop of `timerange.Query`. -/
def queryFields : Object N → Except Stop (Int × Int)
  | [] => .error .unbounded
  | f :: fields =>
    match queryField f with
    | none => queryFields fields
    | some range => range

def queryField : String × Json N → Option (Except Stop (Int × Int))
  | (k, v) => queryClause (lib.lower k) v

def queryClause (name : String) : Json N → Option (Except Stop (Int × Int))
  | .map fields =>
    if name = "bool" then some (boolQuery fields)
    else if name = "range" then some (rangeQuery lib fields)
    else none
  | _ => some (.error .unbounded)

def boolQuery : Object N → Except Stop (Int × Int)
  | [] => .error .unbounded
  | f :: fields =>
    match boolField f with
    | none => boolQuery fields
    | some range => range

def boolField : String × Json N → Option (Except Stop (Int × Int))
  | (k, v) => if lib.lower k ∈ ["should", "must", "filter"] then subqueries v else none

def subqueries : Json N → Option (Except Stop (Int × Int))
  | .map fields => some (queryFields fields)
  | .list items => subItems items
  | _ => none

def subItems : List (Json N) → Option (Except Stop (Int × Int))
  | [] => none
  | v :: items =>
    match subItem v with
    | .error .panic => some (.error .panic)
    | .error .unbounded => subItems items
    | .ok range => if 0 < range.1 ∨ 0 < range.2 then some (.ok range) else subItems items

def subItem : Json N → Except Stop (Int × Int)
  | .map fields => queryFields fields
  | _ => .error .panic
end

def find : Json N → Except Stop (Int × Int)
  | .map fields => queryFields lib fields
  | _ => .error .unbounded

/-- `timerange.Query`: nothing is returned after a panic. -/
def query (tree : Json N) : Option (Int × Int) :=
  match find lib tree with
  | .ok range => some range
  | .error .unbounded => some (0, 0)
  | .error .panic => none

end Timerange

/-- What is used of a `bluge.BooleanQuery`, with the value of `minimum_should_match`. -/
structure BoolQuery (engine : Engine N) where
  musts : List (engine.Doc → Bool) := []
  shoulds : List (engine.Doc → Bool) := []
  mustNots : List (engine.Doc → Bool) := []
  minShould : Option (Json N) := none

namespace BoolQuery

variable {engine : Engine N}

/-- The end of `query.BoolQuery`. -/
def toQuery (b : BoolQuery engine) : Option (engine.Doc → Bool) :=
  match bound b.minShould with
  | none => some (engine.boolean b.musts b.shoulds b.mustNots none)
  | some v =>
    (engine.calculateMin b.shoulds.length v).map fun min =>
      engine.boolean b.musts b.shoulds b.mustNots (some min)

end BoolQuery

namespace Query

variable (lib : GoLib N) (engine : Engine N) (mappings : String → Property)

mutual
/-- The loop of `query.Query`, with the query so far: a query must be the last. -/
def queryFields : Object N → Option (engine.Doc → Bool) →
    Option (Option (engine.Doc → Bool))
  | [], subq => some subq
  | f :: fields, none => (queryField f).bind (queryFields fields)
  | _ :: _, some _ => none

def queryField : String × Json N → Option (Option (engine.Doc → Bool))
  | (k, v) => queryClause (lib.lower k) v

def queryClause (name : String) : Json N → Option (Option (engine.Doc → Bool))
  | .map fields =>
    if name = "bool" then ((boolFields fields {}).bind BoolQuery.toQuery).map some
    else if name = "range" then rangeQuery lib engine mappings fields
    else engine.clause name fields
  | _ => none

def boolFields : Object N → BoolQuery engine → Option (BoolQuery engine)
  | [], b => some b
  | f :: fields, b => (boolField f b).bind (boolFields fields)

def boolField : String × Json N → BoolQuery engine → Option (BoolQuery engine)
  | (k, v), b =>
    match lib.lower k with
    | "should" => (subqueries v).map fun qs => { b with shoulds := b.shoulds ++ qs }
    | "must" => (subqueries v).map fun qs => { b with musts := b.musts ++ qs }
    | "must_not" => (subqueries v).map fun qs => { b with mustNots := b.mustNots ++ qs }
    | "filter" =>
      (subqueries v).map fun qs => { b with musts := b.musts ++ [engine.boolean qs [] [] none] }
    | "minimum_should_match" => some { b with minShould := some v }
    | _ => none

def subqueries : Json N → Option (List (engine.Doc → Bool))
  | .map fields => (queryFields fields none).join.map fun q => [q]
  | .list items => subItems items
  | _ => none

def subItems : List (Json N) → Option (List (engine.Doc → Bool))
  | [] => some []
  | v :: items => (subItem v).bind fun q => (subItems items).map (q :: ·)

def subItem : Json N → Option (engine.Doc → Bool)
  | .map fields => (queryFields fields none).join
  | _ => none
end

def query : Json N → Option (engine.Doc → Bool)
  | .null => some engine.matchAll
  | .map fields => (queryFields lib engine mappings fields none).join
  | _ => none

def selects (tree : Json N) (doc : engine.Doc) : Bool :=
  (query lib engine mappings tree).any fun q => q doc

end Query

/-- The queries in a clause of a `bool`. -/
def subtrees : Json N → List (Json N)
  | .map fields => [.map fields]
  | .list items => items
  | _ => []

/-- The number of queries in the `should` clauses. -/
def shouldCount (lib : GoLib N) (fields : Object N) : Nat :=
  (fields.map fun f => if lib.lower f.1 = "should" then (subtrees f.2).length else 0).sum

/-- A `bool` that is one `should`, with nothing that must match beside it. -/
def onlyShould (lib : GoLib N) (fields : Object N) : Bool :=
  (fields.all fun f => lib.lower f.1 ∉ ["must", "filter"]) && shouldCount lib fields = 1

/-- `TimeClause lib tree required options`: the tree has a range clause of the time field with
these options, and `required` says that the tree matches only what the clause matches. -/
inductive TimeClause (lib : GoLib N) : Json N → Bool → Object N → Prop
  | range : (k, .map clause) ∈ fields → lib.lower k = "range" →
      (timeFieldName, .map options) ∈ clause → TimeClause lib (.map fields) true options
  | must : (k, .map clause) ∈ fields → lib.lower k = "bool" → (m, v) ∈ clause →
      lib.lower m ∈ ["must", "filter"] → tree ∈ subtrees v →
      TimeClause lib tree required options → TimeClause lib (.map fields) required options
  | should : (k, .map clause) ∈ fields → lib.lower k = "bool" → (m, v) ∈ clause →
      lib.lower m = "should" → tree ∈ subtrees v → TimeClause lib tree required options →
      TimeClause lib (.map fields) (required && onlyShould lib clause) options

/-- A range that is returned, if it has a bound, is that of a required clause, which both readers
read alike, and the time field is not numeric. -/
def Plain (lib : GoLib N) (prop : Property) (tree : Json N) : Prop :=
  ∀ range, Timerange.find lib tree = .ok range → 0 < range.1 ∨ 0 < range.2 →
    prop.type ≠ "numeric" ∧ ∃ options, TimeClause lib tree true options ∧
      plainOptions lib prop options ∧ Timerange.rangeQueryTime lib options = .ok range

namespace QueryLemmas

open RangeLemmas

variable {lib : GoLib N} {fields fields' : Object N} {v tree : Json N}

section Find

variable {range : Int × Int} {clause : Object N}

theorem exists_queryField (h : Timerange.queryFields lib fields = .ok range) :
    ∃ f ∈ fields, Timerange.queryField lib f = some (.ok range) := by
  induction fields with
  | nil => cases h
  | cons f fields ih =>
    rw [Timerange.queryFields] at h
    split at h
    · obtain ⟨g, hg, hfound⟩ := ih h
      exact ⟨g, mem_cons_of_mem _ hg, hfound⟩
    next hfound => exact ⟨f, mem_cons_self, h ▸ hfound⟩

theorem exists_boolField (h : Timerange.boolQuery lib fields = .ok range) :
    ∃ f ∈ fields, Timerange.boolField lib f = some (.ok range) := by
  induction fields with
  | nil => cases h
  | cons f fields ih =>
    rw [Timerange.boolQuery] at h
    split at h
    · obtain ⟨g, hg, hfound⟩ := ih h
      exact ⟨g, mem_cons_of_mem _ hg, hfound⟩
    next hfound => exact ⟨f, mem_cons_self, h ▸ hfound⟩

theorem exists_subItem (h : Timerange.subItems lib items = some (.ok range)) :
    ∃ v ∈ items, Timerange.subItem lib v = .ok range := by
  induction items with
  | nil => cases h
  | cons v items ih =>
    have hrest (h : Timerange.subItems lib items = some (.ok range)) :
        ∃ v' ∈ v :: items, Timerange.subItem lib v' = .ok range := by
      obtain ⟨v', hv', hfound⟩ := ih h
      exact ⟨v', mem_cons_of_mem _ hv', hfound⟩
    rw [Timerange.subItems] at h
    split at h
    · cases h
    · exact hrest h
    next hfound =>
      split at h
      · cases h
        exact ⟨v, mem_cons_self, hfound⟩
      · exact hrest h

theorem find_of_subItem (h : Timerange.subItem lib v = .ok range) :
    Timerange.find lib v = .ok range := by
  cases v with
  | map fields => exact h
  | _ => cases h

theorem exists_subtree (h : Timerange.subqueries lib v = some (.ok range)) :
    ∃ tree ∈ subtrees v, Timerange.find lib tree = .ok range := by
  cases v with
  | map fields => exact ⟨.map fields, mem_singleton_self _, Option.some.inj h⟩
  | list items =>
    obtain ⟨tree, htree, hfound⟩ := exists_subItem h
    exact ⟨tree, htree, find_of_subItem hfound⟩
  | _ => cases h

theorem exists_options (h : Timerange.rangeQuery lib clause = .ok range) :
    ∃ options, (timeFieldName, .map options) ∈ clause ∧
      Timerange.rangeQueryTime lib options = .ok range := by
  unfold Timerange.rangeQuery at h
  split at h
  · cases h
  next name options hfind =>
    have hfound := List.find?_some hfind
    have hname : name = timeFieldName := of_decide_eq_true hfound
    exact ⟨options, hname ▸ mem_of_find?_eq_some hfind, h⟩
  · cases h

theorem exists_subtree_of_boolQuery (h : Timerange.boolQuery lib clause = .ok range) :
    ∃ m v, (m, v) ∈ clause ∧ lib.lower m ∈ ["should", "must", "filter"] ∧
      ∃ tree ∈ subtrees v, Timerange.find lib tree = .ok range := by
  obtain ⟨⟨m, v⟩, hmem, hfield⟩ := exists_boolField h
  rw [Timerange.boolField] at hfield
  split at hfield
  next hname => exact ⟨m, v, hmem, hname, exists_subtree hfield⟩
  · cases hfield

theorem find_cases (h : Timerange.find lib tree = .ok range) :
    ∃ fields k clause, tree = .map fields ∧ (k, .map clause) ∈ fields ∧
      (lib.lower k = "bool" ∧ Timerange.boolQuery lib clause = .ok range ∨
        lib.lower k = "range" ∧ Timerange.rangeQuery lib clause = .ok range) := by
  cases tree with
  | map fields =>
    obtain ⟨⟨k, v⟩, hmem, hfield⟩ := exists_queryField h
    rw [Timerange.queryField] at hfield
    cases v with
    | map clause =>
      rw [Timerange.queryClause] at hfield
      split at hfield
      next hbool =>
        exact ⟨fields, k, clause, rfl, hmem, .inl ⟨hbool, Option.some.inj hfield⟩⟩
      · split at hfield
        next hrange =>
          exact ⟨fields, k, clause, rfl, hmem, .inr ⟨hrange, Option.some.inj hfield⟩⟩
        · cases hfield
    | _ => cases hfield
  | _ => cases h

theorem sizeOf_subtree (h : tree ∈ subtrees v) : sizeOf tree ≤ sizeOf v := by
  cases v with
  | map fields =>
    rw [mem_singleton.1 h]
  | list items =>
    have hlt : sizeOf tree < sizeOf items := sizeOf_lt_of_mem h
    simp only [Json.list.sizeOf_spec]
    omega
  | _ => cases h

theorem sizeOf_field (h : (k, v) ∈ fields) : sizeOf v < sizeOf (Json.map fields) := by
  have hlt := sizeOf_lt_of_mem h
  simp only [Prod.mk.sizeOf_spec] at hlt
  simp only [Json.map.sizeOf_spec]
  omega

theorem exists_timeClause (h : Timerange.find lib tree = .ok range) :
    ∃ required options, TimeClause lib tree required options ∧
      Timerange.rangeQueryTime lib options = .ok range := by
  -- A clause of a `bool` is in a smaller tree.
  induction hsize : sizeOf tree using Nat.strong_induction_on generalizing tree with
  | _ size ih =>
    obtain ⟨fields, k, clause, rfl, hclause, ⟨hk, hbool⟩ | ⟨hk, hrange⟩⟩ := find_cases h
    · obtain ⟨m, v, hmem, hm, sub, hsub, hfind⟩ := exists_subtree_of_boolQuery hbool
      have hlt : sizeOf sub < size := by
        rw [← hsize]
        exact ((sizeOf_subtree hsub).trans_lt (sizeOf_field hmem)).trans (sizeOf_field hclause)
      obtain ⟨required, options, htime, hoptions⟩ := ih (sizeOf sub) hlt hfind rfl
      rcases mem_cons.1 hm with hm | hm
      · exact ⟨_, options, .should hclause hk hmem hm hsub htime, hoptions⟩
      · exact ⟨required, options, .must hclause hk hmem hm hsub htime, hoptions⟩
    · obtain ⟨options, hmem, hoptions⟩ := exists_options hrange
      exact ⟨true, options, .range hclause hk hmem, hoptions⟩

end Find

theorem exists_subtree_same (h : v.same v') (htree : tree ∈ subtrees v) :
    ∃ tree' ∈ subtrees v', tree.same tree' := by
  cases v with
  | map fields =>
    obtain ⟨fields', rfl, hfields⟩ := h
    rw [mem_singleton.1 htree]
    exact ⟨.map fields', mem_singleton_self _, fields', rfl, hfields⟩
  | list items =>
    obtain ⟨items', rfl, hitems⟩ := h
    exact exists_of_sameItems hitems htree
  | _ => cases htree

theorem length_subtrees (h : v.same v') : (subtrees v').length = (subtrees v).length := by
  cases v with
  | map fields =>
    obtain ⟨fields', rfl, -⟩ := h
    rfl
  | list items =>
    obtain ⟨items', rfl, hitems⟩ := h
    exact length_of_sameItems hitems
  | _ =>
    cases h
    rfl

theorem shouldCount_same (h : sameFields fields fields') :
    shouldCount lib fields' = shouldCount lib fields := by
  refine (map_perm_of_sameFields (fun f f' hsame => ?_) h).sum_nat
  obtain ⟨hname, hvalue⟩ := sameField_iff.1 hsame
  rw [hname, length_subtrees hvalue]

theorem onlyShould_same (h : sameFields fields fields') (hshould : onlyShould lib fields) :
    onlyShould lib fields' := by
  simp only [onlyShould, Bool.and_eq_true, all_eq_true, decide_eq_true_eq] at hshould ⊢
  refine ⟨fun f' hf' => ?_, (shouldCount_same h).trans hshould.2⟩
  obtain ⟨f, hf, hsame⟩ := exists_of_sameFields' h hf'
  rw [(sameField_iff.1 hsame).1]
  exact hshould.1 f hf

section Match

variable {engine : Engine N} {mappings : String → Property} {q : engine.Doc → Bool}
  {fields clause options : Object N} {f : String × Json N} {v tree tree' : Json N}
  {qs : List (engine.Doc → Bool)} {b b' : BoolQuery engine}

theorem queryField_of_mem (h : Query.queryFields lib engine mappings fields none = some (some q))
    (hf : f ∈ fields) :
    Query.queryField lib engine mappings f = some none ∨
      Query.queryField lib engine mappings f = some (some q) := by
  induction fields with
  | nil => cases hf
  | cons g fields ih =>
    rw [Query.queryFields] at h
    obtain ⟨subq, hsubq, hrest⟩ := bind_eq_some_iff.1 h
    cases subq with
    | none =>
      rcases mem_cons.1 hf with rfl | hf
      · exact .inl hsubq
      · exact ih hrest hf
    | some q' =>
      cases fields with
      | nil =>
        rw [mem_singleton.1 hf]
        exact .inr (hsubq.trans hrest)
      | cons g' rest => cases hrest

theorem query_of_subItem (h : Query.subItem lib engine mappings v = some q) :
    Query.query lib engine mappings v = some q := by
  cases v with
  | map fields => exact h
  | _ => cases h

theorem exists_of_subItems (h : Query.subItems lib engine mappings items = some qs)
    (hv : v ∈ items) :
    ∃ p ∈ qs, Query.query lib engine mappings v = some p := by
  induction items generalizing qs with
  | nil => cases hv
  | cons w items ih =>
    rw [Query.subItems] at h
    obtain ⟨p, hp, h⟩ := bind_eq_some_iff.1 h
    obtain ⟨ps, hps, rfl⟩ := map_eq_some_iff.1 h
    rcases mem_cons.1 hv with rfl | hv
    · exact ⟨p, mem_cons_self, query_of_subItem hp⟩
    · obtain ⟨p', hp', hquery⟩ := ih hps hv
      exact ⟨p', mem_cons_of_mem _ hp', hquery⟩

theorem length_of_subItems (h : Query.subItems lib engine mappings items = some qs) :
    qs.length = items.length := by
  induction items generalizing qs with
  | nil =>
    cases h
    rfl
  | cons w items ih =>
    rw [Query.subItems] at h
    obtain ⟨p, hp, h⟩ := bind_eq_some_iff.1 h
    obtain ⟨ps, hps, rfl⟩ := map_eq_some_iff.1 h
    rw [length_cons, length_cons, ih hps]

theorem exists_of_subqueries (h : Query.subqueries lib engine mappings v = some qs)
    (htree : tree ∈ subtrees v) : ∃ p ∈ qs, Query.query lib engine mappings tree = some p := by
  cases v with
  | map fields =>
    obtain ⟨p, hp, rfl⟩ := map_eq_some_iff.1 h
    rw [mem_singleton.1 htree]
    exact ⟨p, mem_singleton_self _, hp⟩
  | list items => exact exists_of_subItems h htree
  | _ => cases htree

theorem length_of_subqueries (h : Query.subqueries lib engine mappings v = some qs) :
    qs.length = (subtrees v).length := by
  cases v with
  | map fields =>
    obtain ⟨p, hp, rfl⟩ := map_eq_some_iff.1 h
    rfl
  | list items => exact length_of_subItems h
  | _ => cases h

theorem boolField_cases (h : Query.boolField lib engine mappings (k, v) b = some b') :
    (∃ qs, Query.subqueries lib engine mappings v = some qs ∧
      (lib.lower k = "should" ∧ b' = { b with shoulds := b.shoulds ++ qs } ∨
        lib.lower k = "must" ∧ b' = { b with musts := b.musts ++ qs } ∨
        lib.lower k = "must_not" ∧ b' = { b with mustNots := b.mustNots ++ qs } ∨
        lib.lower k = "filter" ∧
          b' = { b with musts := b.musts ++ [engine.boolean qs [] [] none] })) ∨
      lib.lower k = "minimum_should_match" ∧ b' = { b with minShould := some v } := by
  rw [Query.boolField] at h
  split at h
  next hname =>
    obtain ⟨qs, hqs, rfl⟩ := map_eq_some_iff.1 h
    exact .inl ⟨qs, hqs, .inl ⟨hname, rfl⟩⟩
  next hname =>
    obtain ⟨qs, hqs, rfl⟩ := map_eq_some_iff.1 h
    exact .inl ⟨qs, hqs, .inr (.inl ⟨hname, rfl⟩)⟩
  next hname =>
    obtain ⟨qs, hqs, rfl⟩ := map_eq_some_iff.1 h
    exact .inl ⟨qs, hqs, .inr (.inr (.inl ⟨hname, rfl⟩))⟩
  next hname =>
    obtain ⟨qs, hqs, rfl⟩ := map_eq_some_iff.1 h
    exact .inl ⟨qs, hqs, .inr (.inr (.inr ⟨hname, rfl⟩))⟩
  next hname => exact .inr ⟨hname, (Option.some.inj h).symm⟩
  · cases h

def Within (b b' : BoolQuery engine) : Prop := b.musts ⊆ b'.musts ∧ b.shoulds ⊆ b'.shoulds

theorem Within.refl (b : BoolQuery engine) : Within b b :=
  ⟨List.Subset.refl _, List.Subset.refl _⟩

theorem Within.trans (h : Within b b') (h' : Within b' b'') : Within b b'' :=
  ⟨List.Subset.trans h.1 h'.1, List.Subset.trans h.2 h'.2⟩

section Field

variable (h : Query.boolField lib engine mappings f b = some b')
include h

theorem within_boolField : Within b b' := by
  obtain ⟨k, v⟩ := f
  rcases boolField_cases h with
    ⟨qs, -, ⟨-, rfl⟩ | ⟨-, rfl⟩ | ⟨-, rfl⟩ | ⟨-, rfl⟩⟩ | ⟨-, rfl⟩
  · exact ⟨List.Subset.refl _, subset_append_left _ _⟩
  · exact ⟨subset_append_left _ _, List.Subset.refl _⟩
  · exact Within.refl _
  · exact ⟨subset_append_left _ _, List.Subset.refl _⟩
  · exact Within.refl _

theorem length_shoulds_boolField :
    b'.shoulds.length = b.shoulds.length + shouldCount lib [f] := by
  obtain ⟨k, v⟩ := f
  rcases boolField_cases h with
    ⟨qs, hqs, ⟨hk, rfl⟩ | ⟨hk, rfl⟩ | ⟨hk, rfl⟩ | ⟨hk, rfl⟩⟩ | ⟨hk, rfl⟩
  · simp [shouldCount, hk, length_of_subqueries hqs]
  all_goals simp [shouldCount, hk]

theorem musts_boolField (hf : lib.lower f.1 ∉ ["must", "filter"]) : b'.musts = b.musts := by
  obtain ⟨k, v⟩ := f
  rcases boolField_cases h with
    ⟨qs, -, ⟨-, rfl⟩ | ⟨hk, -⟩ | ⟨-, rfl⟩ | ⟨hk, -⟩⟩ | ⟨-, rfl⟩
  · rfl
  · exact absurd (hk ▸ mem_cons_self) hf
  · rfl
  · exact absurd (hk ▸ mem_cons_of_mem _ mem_cons_self) hf
  · rfl

end Field

section Fields

variable (h : Query.boolFields lib engine mappings fields b = some b')
include h

theorem within_boolFields : Within b b' := by
  induction fields generalizing b with
  | nil =>
    cases h
    exact Within.refl _
  | cons f fields ih =>
    rw [Query.boolFields] at h
    obtain ⟨b₁, hb₁, hrest⟩ := bind_eq_some_iff.1 h
    exact (within_boolField hb₁).trans (ih hrest)

theorem exists_boolField_of_mem (hf : f ∈ fields) :
    ∃ b₁ b₂, Query.boolField lib engine mappings f b₁ = some b₂ ∧ Within b₂ b' := by
  induction fields generalizing b with
  | nil => cases hf
  | cons g fields ih =>
    rw [Query.boolFields] at h
    obtain ⟨b₁, hb₁, hrest⟩ := bind_eq_some_iff.1 h
    rcases mem_cons.1 hf with rfl | hf
    · exact ⟨b, b₁, hb₁, within_boolFields hrest⟩
    · exact ih hrest hf

theorem length_shoulds_boolFields :
    b'.shoulds.length = b.shoulds.length + shouldCount lib fields := by
  induction fields generalizing b with
  | nil =>
    cases h
    rfl
  | cons f fields ih =>
    rw [Query.boolFields] at h
    obtain ⟨b₁, hb₁, hrest⟩ := bind_eq_some_iff.1 h
    rw [ih hrest, length_shoulds_boolField hb₁]
    simp [shouldCount, add_assoc]

theorem musts_boolFields (hfields : ∀ f ∈ fields, lib.lower f.1 ∉ ["must", "filter"]) :
    b'.musts = b.musts := by
  induction fields generalizing b with
  | nil =>
    cases h
    rfl
  | cons f fields ih =>
    rw [Query.boolFields] at h
    obtain ⟨b₁, hb₁, hrest⟩ := bind_eq_some_iff.1 h
    rw [ih hrest fun g hg => hfields g (mem_cons_of_mem _ hg),
      musts_boolField hb₁ (hfields f mem_cons_self)]

end Fields

theorem exists_boolean (h : b.toQuery = some q) :
    ∃ min, q = engine.boolean b.musts b.shoulds b.mustNots min := by
  unfold BoolQuery.toQuery at h
  split at h
  · exact ⟨none, (Option.some.inj h).symm⟩
  · obtain ⟨min, -, rfl⟩ := map_eq_some_iff.1 h
    exact ⟨some min, rfl⟩

variable {doc : engine.Doc}

theorem exists_of_must (hb : Query.boolFields lib engine mappings clause {} = some b)
    (hq : b.toQuery = some q) (hdoc : q doc) (hm : (m, v) ∈ clause)
    (hname : lib.lower m ∈ ["must", "filter"]) (htree : tree ∈ subtrees v) :
    ∃ p, Query.query lib engine mappings tree = some p ∧ p doc := by
  obtain ⟨min, rfl⟩ := exists_boolean hq
  obtain ⟨b₁, b₂, hfield, hwithin⟩ := exists_boolField_of_mem hb hm
  have hmust : ∀ p ∈ b₂.musts, p doc := fun p hp =>
    engine.must_of_boolean b.musts b.shoulds b.mustNots min doc hdoc p (hwithin.1 hp)
  rcases boolField_cases hfield with
    ⟨qs, hqs, ⟨hk, -⟩ | ⟨-, rfl⟩ | ⟨hk, -⟩ | ⟨-, rfl⟩⟩ | ⟨hk, -⟩
  · rw [hk] at hname
    exact absurd hname (by decide)
  · obtain ⟨p, hp, hquery⟩ := exists_of_subqueries hqs htree
    exact ⟨p, hquery, hmust p (mem_append_right _ hp)⟩
  · rw [hk] at hname
    exact absurd hname (by decide)
  · obtain ⟨p, hp, hquery⟩ := exists_of_subqueries hqs htree
    have hfilter := hmust _ (mem_append_right _ (mem_singleton_self _))
    exact ⟨p, hquery, engine.must_of_boolean qs [] [] none doc hfilter p hp⟩
  · rw [hk] at hname
    exact absurd hname (by decide)

theorem exists_of_should (hb : Query.boolFields lib engine mappings clause {} = some b)
    (hq : b.toQuery = some q) (hdoc : q doc) (hshould : onlyShould lib clause)
    (hm : (m, v) ∈ clause) (hname : lib.lower m = "should") (htree : tree ∈ subtrees v) :
    ∃ p, Query.query lib engine mappings tree = some p ∧ p doc := by
  simp only [onlyShould, Bool.and_eq_true, all_eq_true, decide_eq_true_eq] at hshould
  obtain ⟨min, rfl⟩ := exists_boolean hq
  have hmusts : b.musts = [] := musts_boolFields hb hshould.1
  have hlength : b.shoulds.length = 1 := by
    rw [length_shoulds_boolFields hb, hshould.2]
    rfl
  obtain ⟨p₀, hp₀⟩ := length_eq_one_iff.1 hlength
  obtain ⟨b₁, b₂, hfield, hwithin⟩ := exists_boolField_of_mem hb hm
  rcases boolField_cases hfield with
    ⟨qs, hqs, ⟨-, rfl⟩ | ⟨hk, -⟩ | ⟨hk, -⟩ | ⟨hk, -⟩⟩ | ⟨hk, -⟩
  · obtain ⟨p, hp, hquery⟩ := exists_of_subqueries hqs htree
    have hmem : p ∈ b.shoulds := hwithin.2 (mem_append_right _ hp)
    rw [hp₀] at hmem
    rw [hmusts, hp₀] at hdoc
    obtain ⟨p', hp', hmatch⟩ :=
      engine.should_of_boolean [p₀] b.mustNots min doc (cons_ne_nil _ _) hdoc
    rw [mem_singleton.1 hp', ← mem_singleton.1 hmem] at hmatch
    exact ⟨p, hquery, hmatch⟩
  all_goals exact absurd (hname.symm.trans hk) (by decide)

theorem exists_of_range (hx : Query.rangeQuery lib engine mappings clause = some x)
    (htype : (mappings timeFieldName).type ≠ "numeric")
    (hoptions : (timeFieldName, .map options) ∈ clause) :
    ∃ p, x = some p ∧
      Query.rangeQueryTime lib engine (mappings timeFieldName) timeFieldName options = some p := by
  unfold Query.rangeQuery at hx
  split at hx
  · cases hoptions
  next field options' =>
    cases mem_singleton.1 hoptions
    rw [if_neg htype] at hx
    split at hx
    · obtain ⟨p, hp, rfl⟩ := map_eq_some_iff.1 hx
      exact ⟨p, rfl, hp⟩
    · cases hx
  · cases hx

theorem exists_clause_same (hsame : (Json.map fields).same tree')
    (hq : Query.query lib engine mappings tree' = some q) (hclause : (k, .map clause) ∈ fields) :
    ∃ clause', sameFields clause clause' ∧
      (Query.queryClause lib engine mappings (lib.lower k) (.map clause') = some none ∨
        Query.queryClause lib engine mappings (lib.lower k) (.map clause') = some (some q)) := by
  obtain ⟨fields', rfl, hfields⟩ := hsame
  obtain ⟨⟨k', v'⟩, hmem, hfield⟩ := exists_of_sameFields hfields hclause
  obtain ⟨rfl, clause', rfl, hclause'⟩ := sameField_iff.1 hfield
  exact ⟨clause', hclause', queryField_of_mem (Option.join_eq_some_iff.1 hq) hmem⟩

theorem exists_bool_same (hsame : (Json.map fields).same tree')
    (hq : Query.query lib engine mappings tree' = some q) (hclause : (k, .map clause) ∈ fields)
    (hk : lib.lower k = "bool") :
    ∃ clause' b, sameFields clause clause' ∧
      Query.boolFields lib engine mappings clause' {} = some b ∧ b.toQuery = some q := by
  obtain ⟨clause', hclause', hquery⟩ := exists_clause_same hsame hq hclause
  rw [hk, Query.queryClause, if_pos rfl] at hquery
  have hbool := hquery.resolve_left fun hnil => by
    obtain ⟨p, -, hp⟩ := map_eq_some_iff.1 hnil
    cases hp
  obtain ⟨p, hp, hpq⟩ := map_eq_some_iff.1 hbool
  cases hpq
  obtain ⟨b, hb, hquery⟩ := bind_eq_some_iff.1 hp
  exact ⟨clause', b, hclause', hb, hquery⟩

theorem exists_field_same (hsame : sameFields clause clause') (hm : (m, v) ∈ clause)
    (htree : tree ∈ subtrees v) :
    ∃ v' tree', (m, v') ∈ clause' ∧ tree' ∈ subtrees v' ∧ tree.same tree' := by
  obtain ⟨⟨m', v'⟩, hmem, hfield⟩ := exists_of_sameFields hsame hm
  obtain ⟨rfl, hv⟩ := sameField_iff.1 hfield
  obtain ⟨tree', htree', hsub⟩ := exists_subtree_same hv htree
  exact ⟨v', tree', hmem, htree', hsub⟩

theorem matches_of_required (hclause : TimeClause lib tree required options)
    (hrequired : required = true) (htype : (mappings timeFieldName).type ≠ "numeric")
    (hsame : tree.same tree') (hq : Query.query lib engine mappings tree' = some q) (hdoc : q doc) :
    ∃ options' p, sameFields options options' ∧
      Query.rangeQueryTime lib engine (mappings timeFieldName) timeFieldName options' = some p ∧
      p doc := by
  -- By induction on the path from the tree to the clause.
  induction hclause generalizing tree' q with
  | range hclause hk hoptions =>
    obtain ⟨clause', hclause', hquery⟩ := exists_clause_same hsame hq hclause
    obtain ⟨⟨name, v'⟩, hmem, hfield⟩ := exists_of_sameFields hclause' hoptions
    obtain ⟨rfl, options', rfl, hoptions'⟩ := sameField_iff.1 hfield
    rw [hk, Query.queryClause, if_neg (by decide), if_pos rfl] at hquery
    rcases hquery with hnil | hquery
    · obtain ⟨p, hp, -⟩ := exists_of_range hnil htype hmem
      cases hp
    · obtain ⟨p, hp, hrange⟩ := exists_of_range hquery htype hmem
      cases hp
      exact ⟨options', q, hoptions', hrange, hdoc⟩
  | must hclause hk hm hname htree _ ih =>
    obtain ⟨clause', b, hclause', hb, hbq⟩ := exists_bool_same hsame hq hclause hk
    obtain ⟨v', sub', hm', hsub', hsub⟩ := exists_field_same hclause' hm htree
    obtain ⟨p, hp, hmatch⟩ := exists_of_must hb hbq hdoc hm' hname hsub'
    exact ih hrequired hsub hp hmatch
  | should hclause hk hm hname htree _ ih =>
    obtain ⟨hrequired, hshould⟩ := Bool.and_eq_true_iff.1 hrequired
    obtain ⟨clause', b, hclause', hb, hbq⟩ := exists_bool_same hsame hq hclause hk
    obtain ⟨v', sub', hm', hsub', hsub⟩ := exists_field_same hclause' hm htree
    obtain ⟨p, hp, hmatch⟩ :=
      exists_of_should hb hbq hdoc (onlyShould_same hclause' hshould) hm' hname hsub'
    exact ih hrequired hsub hp hmatch

end Match

end QueryLemmas

namespace Trees

def lib : GoLib Int where
  lower s := String.ofList (s.toList.map Char.toLower)
  format _ := ""
  trunc := id
  atoi _ := none
  parseFloat _ := none
  Zone := Unit
  utc := ()
  parseTimeZone _ := none
  parseInLocation _ _ _ := none
  now := 10 ^ 18
  atoi_exact := fun _ n x h => (nomatch h : _ → _ → x = n)
  atoi_large := fun _ _ x h => (nomatch h : _ → _ → _ ≤ x.natAbs)

instance (t : Int) : Decidable (FitsNano t) := inferInstanceAs (Decidable (_ ∧ _))

/-- A document is its time. A boolean query with shoulds only matches what one of them
matches. -/
def engine : Engine Int where
  Doc := Int
  timestamp := id
  clause _ _ := none
  matchAll _ := true
  numericRange _ _ _ := false
  dateRange field min max i j doc :=
    field = timeFieldName &&
      (min = zeroTime || FitsNano min && (if i then min ≤ doc else min < doc)) &&
      (max = zeroTime || FitsNano max && (if j then doc ≤ max else doc < max))
  boolean musts shoulds mustNots min doc :=
    musts.all (· doc) && (!mustNots.any (· doc)) &&
      (min.getD 0 ≤ shoulds.countP (· doc) && (!musts.isEmpty || shoulds.any (· doc)))
  calculateMin _ _ := none
  must_of_boolean := by
    intro musts shoulds mustNots min doc h
    simp only [Bool.and_eq_true, all_eq_true] at h
    exact h.1.1
  should_of_boolean := by
    intro shoulds mustNots min doc _ h
    simp only [Bool.and_eq_true] at h
    simpa using h.2.2
  min_of_dateRange := by
    intro min max i j doc h
    simp only [Bool.and_eq_true, Bool.or_eq_true, decide_eq_true_eq] at h
    refine h.1.2.imp id fun hmin => ⟨hmin.1, ?_⟩
    have hle := hmin.2
    split at hle <;> simp only [decide_eq_true_eq, id] at hle ⊢ <;> omega
  max_of_dateRange := by
    intro min max i j doc h
    simp only [Bool.and_eq_true, Bool.or_eq_true, decide_eq_true_eq] at h
    refine h.2.imp id fun hmax => ⟨hmax.1, ?_⟩
    have hle := hmax.2
    split at hle <;> simp only [decide_eq_true_eq, id] at hle ⊢ <;> omega

def mappings (field : String) : Property :=
  if field = timeFieldName then { type := "date" } else {}

/-- The milliseconds from `first` up to `last`. -/
def millis (first last : Int) : Json Int :=
  .map [("range", .map [(timeFieldName,
    .map [("format", .str "epoch_millis"), ("gte", .num first), ("lt", .num last)])])]

def twoShoulds : Json Int :=
  .map [("bool", .map [("should", .list [millis 1000 2000, millis 5000 6000])])]

end Trees

open RangeLemmas QueryLemmas

namespace Trees

def filtered : Json Int :=
  .map [("bool", .map [("must", .list [millis 1000 2000, twoShoulds])])]

theorem plain_filtered : Plain lib (mappings timeFieldName) filtered := by
  intro range hrange _
  have hfound : Timerange.find lib filtered = .ok (1000000000, 2000000000) := rfl
  rw [← Except.ok.inj (hfound.symm.trans hrange)]
  refine ⟨by decide, [("format", .str "epoch_millis"), ("gte", .num 1000), ("lt", .num 2000)],
    ?_, by decide, rfl⟩
  refine .must mem_cons_self (by decide) mem_cons_self (by decide) mem_cons_self ?_
  exact .range mem_cons_self (by decide) mem_cons_self

end Trees

open Trees (engine filtered lib mappings twoShoulds)

end SeaSearch
