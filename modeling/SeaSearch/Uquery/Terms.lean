import SeaSearch.Uquery.Query

/-!
# `term` and `terms` clauses

`TermQuery` converts its value to the type of the field. `TermsQuery` does not look at the mapping
and takes each value for what it is in the JSON of the query, and a field `boost` for the boost.
-/

namespace SeaSearch

open List

variable {N : Type}

/-- `strconv.FormatBool`. -/
def formatBool (b : Bool) : String := if b then "true" else "false"

/-- The conversions of values: `ParseBool` reads what `FormatBool` writes, and `ToString` uses it.
`coded` is the term of a number. -/
structure TermsLib (N : Type) extends GoLib N where
  parseBool : String → Option Bool
  isZero : N → Bool
  ofBool : Bool → N
  coded : N → String
  parseBool_format : ∀ b, parseBool (formatBool b) = some b
  format_bool : ∀ b, format (.bool b) = formatBool b

inductive Leaf (N : Type) where
  | term (field text : String)
  | numeric (field : String) (x : N)

namespace TermsLib

variable (lib : TermsLib N) (mappings : String → Property)

/-- `zutils.ToFloat64`. -/
def toFloat : Json N → Option N
  | .num x => some x
  | .str s => lib.parseFloat s
  | .bool b => some (lib.ofBool b)
  | _ => none

/-- `zutils.ToBool`. -/
def toBool : Json N → Option Bool
  | .bool b => some b
  | .str s => lib.parseBool s
  | .num x => some (!lib.isZero x)
  | _ => none

def termValue : Object N → Option (String × Json N)
  | [] => some ("", .null)
  | [(k, .map options)] =>
    if options.all fun f =>
        match lib.lower f.1, f.2 with
        | "case_insensitive", .bool _ => true
        | "case_insensitive", _ => false
        | "boost", .num _ => true
        | "boost", _ => false
        | _, _ => true
    then some (k, (readOptions lib.toGoLib options "value").getD .null)
    else none
  | [(_, .null)] => none
  | [(_, .list _)] => none
  | [(k, v)] => some (k, v)
  | _ => none

/-- `TermQuery`. -/
def termQuery (fields : Object N) : Option (Leaf N) :=
  (termValue lib fields).bind fun (k, v) =>
    match (mappings k).type with
    | "numeric" => (lib.toFloat v).map (Leaf.numeric k)
    | "bool" => (lib.toBool v).map fun b => .term k (formatBool b)
    | _ => some (.term k (lib.toString v))

structure TermsRead (N : Type) where
  field : String := ""
  strs : List String := []
  nums : List N := []
  bools : List Bool := []
  boost : Option N := none

def TermsRead.shoulds (r : TermsRead N) : List (Leaf N) :=
  r.strs.map (Leaf.term r.field) ++ r.nums.map (Leaf.numeric r.field) ++
    r.bools.map fun b => .term r.field (formatBool b)

def readTerm (r : TermsRead N) : Json N → Option (TermsRead N)
  | .str s => some { r with strs := r.strs ++ [s] }
  | .num x => some { r with nums := r.nums ++ [x] }
  | .bool b => some { r with bools := r.bools ++ [b] }
  | _ => none

def readTerms (r : TermsRead N) (k : String) : Json N → Option (TermsRead N)
  | .list items => items.foldlM readTerm { r with field := k }
  | _ => none

/-- The loop of `TermsQuery`. -/
def termsField (r : TermsRead N) (f : String × Json N) : Option (TermsRead N) :=
  if lib.lower f.1 = "boost" then
    match f.2 with
    | .num x => some { r with boost := some x }
    | _ => none
  else readTerms r f.1 f.2

/-- `TermsQuery`: the shoulds and the boost. -/
def termsQuery (fields : Object N) : Option (List (Leaf N) × Option N) :=
  if 2 < fields.length then none
  else (fields.foldlM (termsField lib) {}).map fun r => (r.shoulds, r.boost)

/-- A string, a number or a boolean. -/
def Scalar : Json N → Prop
  | .str _ => True
  | .num _ => True
  | .bool _ => True
  | _ => False

/-- `TermsQuery` may take the value for what it is: numbers for a numeric field, and for the others
strings and booleans, of which a bool field has its two words only. -/
def OfType (type : String) : Json N → Prop
  | .str s => type ≠ "numeric" ∧ (type = "bool" → ∃ b, s = formatBool b)
  | .num _ => type = "numeric"
  | .bool _ => type ≠ "numeric"
  | _ => False

/-- The query that `TermsQuery` makes of a value. -/
def valueLeaf (field : String) : Json N → Option (Leaf N)
  | .str s => some (.term field s)
  | .num x => some (.numeric field x)
  | .bool b => some (.term field (formatBool b))
  | _ => none

namespace ListLemmas

variable {lib : TermsLib N} {mappings : String → Property} {field : String}

theorem readTerms_boost {r r' : TermsRead N} {k : String} {v : Json N}
    (hr : readTerms r k v = some r') : r'.boost = r.boost := by
  have hitem : ∀ {r r' : TermsRead N} {v}, readTerm r v = some r' → r'.boost = r.boost := by
    intro r r' v hr
    cases v <;> simp only [readTerm, Option.some_inj, reduceCtorEq] at hr <;> rw [← hr]
  cases v with
  | list items =>
    have hloop : ∀ (items : List (Json N)) (r : TermsRead N), items.foldlM readTerm r = some r' →
        r'.boost = r.boost := by
      intro items
      induction items with
      | nil => rintro r ⟨⟩; rfl
      | cons v items ih =>
        intro r hr
        obtain ⟨r₁, h₁, hr⟩ := Option.bind_eq_some_iff.1 hr
        exact (ih r₁ hr).trans (hitem h₁)
    exact hloop items { r with field := k } hr
  | _ => cases hr

theorem readTerm_shoulds (hl : valueLeaf r.field v = some l) :
    ∃ r', readTerm r v = some r' ∧ r'.field = r.field ∧
      ∀ x, x ∈ r'.shoulds ↔ x ∈ r.shoulds ∨ x = l := by
  cases v <;> simp only [valueLeaf, Option.some_inj, reduceCtorEq] at hl <;> subst hl <;>
    refine ⟨_, rfl, rfl, fun x => ?_⟩ <;>
    simp only [TermsRead.shoulds, map_append, map_singleton, mem_append, mem_singleton] <;> tauto

theorem readTerms_shoulds {values : List (Json N)}
    (hvalues : ∀ v ∈ values, ∃ l, valueLeaf r.field v = some l) :
    ∃ r', values.foldlM readTerm r = some r' ∧
      ∀ x, x ∈ r'.shoulds ↔ x ∈ r.shoulds ∨ ∃ v ∈ values, valueLeaf r.field v = some x := by
  induction values generalizing r with
  | nil => exact ⟨r, rfl, fun x => by simp⟩
  | cons v values ih =>
    obtain ⟨l, hl⟩ := hvalues v (mem_cons_self ..)
    obtain ⟨r₁, h₁, hfield, hmem₁⟩ := readTerm_shoulds hl
    rw [← hfield] at hvalues
    obtain ⟨r', hr', hmem⟩ := ih fun v hv => hvalues v (mem_cons_of_mem _ hv)
    refine ⟨r', by rw [foldlM_cons, h₁]; exact hr', fun x => ?_⟩
    rw [hmem, hmem₁, hfield, exists_mem_cons_iff, hl, Option.some_inj, or_assoc, eq_comm (a := l)]

theorem termQuery_ofType (lib : TermsLib N) (hv : OfType (mappings field).type v) :
    ∃ l, valueLeaf field v = some l ∧ termQuery lib mappings [(field, v)] = some l := by
  cases v with
  | str s =>
    refine ⟨_, rfl, ?_⟩
    simp only [termQuery, termValue, Option.bind_some]
    split
    · next heq => exact absurd heq hv.1
    · next heq =>
      obtain ⟨b, rfl⟩ := hv.2 heq
      rw [toBool, lib.parseBool_format, Option.map_some]
    · rfl
  | num x =>
    have hnumeric : (mappings field).type = "numeric" := hv
    exact ⟨_, rfl, by simp [termQuery, termValue, hnumeric, toFloat]⟩
  | bool b =>
    refine ⟨_, rfl, ?_⟩
    simp only [termQuery, termValue, Option.bind_some]
    split
    · next heq => exact absurd heq hv
    · rfl
    · rw [GoLib.toString, lib.format_bool]
      exact nofun
  | _ => exact hv.elim

theorem ofType_of_leaf {v' : Json N} {l : Leaf N} (hv' : Scalar v')
    (hterm : termQuery lib mappings [(field, v')] = some l) (hl : valueLeaf field v = some l) :
    OfType (mappings field).type v := by
  have hvalue : termValue lib [(field, v')] = some (field, v') := by
    cases v' <;> first | rfl | exact hv'.elim
  rw [termQuery, hvalue, Option.bind_some] at hterm
  dsimp only at hterm
  split at hterm
  · next heq =>
    obtain ⟨x, -, rfl⟩ := Option.map_eq_some_iff.1 hterm
    cases v with
    | num y => exact heq
    | _ => cases hl
  · next heq =>
    obtain ⟨b, -, rfl⟩ := Option.map_eq_some_iff.1 hterm
    have hne : (mappings field).type ≠ "numeric" := heq ▸ by decide
    cases v with
    | str s => exact ⟨hne, fun _ => ⟨b, (Leaf.term.inj (Option.some.inj hl)).2⟩⟩
    | bool b' => exact hne
    | _ => cases hl
  · next hnumeric hbool =>
    cases v with
    | str s => exact ⟨hnumeric, fun heq => absurd heq hbool⟩
    | bool b => exact hnumeric
    | _ => cases hl.trans hterm.symm

theorem exists_valueLeaf (hv : Scalar v) : ∃ l : Leaf N, valueLeaf field v = some l := by
  cases v <;> first | exact ⟨_, rfl⟩ | exact hv.elim

/-- The shoulds are the queries of the values, if the field is not taken for the boost. -/
theorem termsQuery_shoulds {values : List (Json N)} (hboost : lib.lower field ≠ "boost")
    (hvalues : ∀ v ∈ values, Scalar v) :
    ∃ shoulds, termsQuery lib [(field, .list values)] = some (shoulds, none) ∧
      ∀ l, l ∈ shoulds ↔ ∃ v ∈ values, valueLeaf field v = some l := by
  obtain ⟨r, hr, hmem⟩ := readTerms_shoulds (r := { field }) fun v hv =>
    exists_valueLeaf (hvalues v hv)
  have hread : [(field, Json.list values)].foldlM (termsField lib) {} = some r := by
    rw [foldlM_cons, termsField, if_neg hboost, readTerms, hr]
    rfl
  have hnone : r.boost = none := readTerms_boost (r := {}) (k := field) (v := .list values) hr
  refine ⟨r.shoulds, ?_, fun l => (hmem l).trans (or_iff_right not_mem_nil)⟩
  rw [termsQuery, if_neg (by simp), hread, Option.map_some, hnone]

end ListLemmas

open ListLemmas

/-- Whatever a document matches: it matches the query of a list of values if and only if it matches
the query of one of them. That holds if and only if all values have the type of the field, and the
field is not named boost. -/
theorem terms_disjunction (field : String) (values : List (Json N))
    (haccepted : ∀ v ∈ values, Scalar v ∧ (termQuery lib mappings [(field, v)]).isSome) :
    (∃ shoulds, termsQuery lib [(field, .list values)] = some (shoulds, none) ∧
      ∀ hits : Leaf N → Prop, (∃ l ∈ shoulds, hits l) ↔
        ∃ v ∈ values, ∃ l, termQuery lib mappings [(field, v)] = some l ∧ hits l) ↔
      lib.lower field ≠ "boost" ∧ ∀ v ∈ values, OfType (mappings field).type v := by
  have hscalar : ∀ v ∈ values, Scalar v := fun v hv => (haccepted v hv).1
  constructor
  · rintro ⟨shoulds, hshoulds, hsame⟩
    have hboost : lib.lower field ≠ "boost" := fun hboost => by
      rw [termsQuery, if_neg (by simp), foldlM_cons, termsField, if_pos hboost] at hshoulds
      cases hshoulds
    refine ⟨hboost, fun v hv => ?_⟩
    obtain ⟨shoulds', hshoulds', hmem⟩ := termsQuery_shoulds hboost hscalar
    cases hshoulds.symm.trans hshoulds'
    obtain ⟨l, hl⟩ : ∃ l : Leaf N, valueLeaf field v = some l := exists_valueLeaf (hscalar v hv)
    obtain ⟨v', hv', l', hterm, rfl⟩ := (hsame (· = l)).1 ⟨l, (hmem l).2 ⟨v, hv, hl⟩, rfl⟩
    exact ofType_of_leaf (hscalar v' hv') hterm hl
  · rintro ⟨hboost, htype⟩
    obtain ⟨shoulds, hshoulds, hmem⟩ := termsQuery_shoulds hboost hscalar
    refine ⟨shoulds, hshoulds, fun hits => ?_⟩
    constructor
    · rintro ⟨l, hl, hdoc⟩
      obtain ⟨v, hv, hvl⟩ := (hmem l).1 hl
      obtain ⟨l', hl', hterm⟩ := termQuery_ofType lib (htype v hv)
      cases hvl.symm.trans hl'
      exact ⟨v, hv, l, hterm, hdoc⟩
    · rintro ⟨v, hv, l, hterm, hdoc⟩
      obtain ⟨l', hl', hterm'⟩ := termQuery_ofType lib (htype v hv)
      cases hterm.symm.trans hterm'
      exact ⟨l, (hmem l).2 ⟨v, hv, hl'⟩, hdoc⟩

/-- An index with a numeric field `n`. -/
def sample : TermsLib Int where
  toGoLib := { Trees.lib with
    format := fun v => match v with
      | .bool b => formatBool b
      | _ => ""
    parseFloat := fun s => if s = "5" then some 5 else none
    atoi_exact := nofun
    atoi_large := nofun }
  parseBool s := if s = "true" then some true else if s = "false" then some false else none
  isZero x := x = 0
  ofBool b := if b then 1 else 0
  coded x := "#" ++ toString x
  parseBool_format := by decide
  format_bool _ := rfl

def sampleMappings (field : String) : Property := { type := if field = "n" then "numeric" else "" }

/-- What the document with a number matches. -/
def numberHits (doc : Int) : Leaf Int → Prop
  | .numeric _ x => doc = x
  | .term _ text => text = sample.coded doc

theorem terms_disjunction_numbers :
    ∃ shoulds, termsQuery sample [("n", .list [.num 5, .num 7])] = some (shoulds, none) ∧
      ∃ l ∈ shoulds, numberHits 7 l := by
  obtain ⟨shoulds, hshoulds, hdoc⟩ := (terms_disjunction sample sampleMappings "n"
    [.num 5, .num 7] (by
      intro v hv
      rcases mem_pair.1 hv with rfl | rfl <;> exact ⟨trivial, rfl⟩)).2 ⟨by decide, by
      intro v hv
      rcases mem_pair.1 hv with rfl | rfl <;> rfl⟩
  exact ⟨shoulds, hshoulds, (hdoc (numberHits 7)).2 ⟨.num 7, by simp, _, rfl, rfl⟩⟩

/-- `term` converts the text of a number, and `terms` does not. -/
theorem terms_text_number :
    (∃ l, termQuery sample sampleMappings [("n", .str "5")] = some l ∧ numberHits 5 l) ∧
      ∃ shoulds, termsQuery sample [("n", .list [.str "5"])] = some (shoulds, none) ∧
        ¬ ∃ l ∈ shoulds, numberHits 5 l := by
  refine ⟨⟨_, rfl, rfl⟩, _, rfl, ?_⟩
  rintro ⟨l, hl, hdoc⟩
  cases mem_singleton.1 hl
  have hcoded : "5" ≠ sample.coded 5 := by decide
  exact hcoded hdoc

end TermsLib

end SeaSearch
