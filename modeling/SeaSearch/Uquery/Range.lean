import SeaSearch.Lib.Versions
import SeaSearch.Uquery.Json

/-!
# Range clauses

There are two readers of a range clause: `timerange.RangeQuery`, which gives the first and last time
of the documents to search, and `query.RangeQuery`, which gives the bluge query that the documents
must match.
-/

namespace SeaSearch

open Versions

variable {N : Type}

/-- What is used of Go and of `zutils`. `trunc` is the conversion of a float to an integer, and
`format` is `ToString` for what is not a string. The location of `parseInLocation` may be `nil`.
A number in a string is read by `Atoi` and by `ParseFloat`: they agree on what a float can hold,
and what is larger stays larger. -/
structure GoLib (N : Type) where
  lower : String → String
  format : Json N → String
  trunc : N → Int
  atoi : String → Option Int
  parseFloat : String → Option N
  Zone : Type
  utc : Zone
  parseTimeZone : String → Option Zone
  parseInLocation : String → String → Option Zone → Option Int
  now : Int
  atoi_exact : ∀ s n x, atoi s = some n → parseFloat s = some x → n.natAbs ≤ 2 ^ 53 → trunc x = n
  atoi_large : ∀ s n x, atoi s = some n → parseFloat s = some x → 2 ^ 53 < n.natAbs →
    2 ^ 53 ≤ (trunc x).natAbs

namespace GoLib

variable (lib : GoLib N)

def toString : Json N → String
  | .str s => s
  | v => lib.format v

def toInt : Json N → Option Int
  | .num x => some (lib.trunc x)
  | .str s => lib.atoi s
  | .bool b => some (if b then 1 else 0)
  | _ => none

/-- `zutils.ToFloat64`, and the conversion of the float to an integer. -/
def toFloat64 : Json N → Option Int
  | .num x => some (lib.trunc x)
  | .str s => (lib.parseFloat s).map lib.trunc
  | .bool b => some (if b then 1 else 0)
  | _ => none

end GoLib

/-- `time.Time{}`. -/
def zeroTime : Int := -62135596800 * 10 ^ 9

def unixNano (t : Int) : Int := Int.bmod t (2 ^ 64)

def unixMilli (n : Int) : Int := n * 10 ^ 6

/-- The times that `UnixNano` can give. -/
def FitsNano (t : Int) : Prop := -2 ^ 63 ≤ t ∧ t < 2 ^ 63

def rfc3339 : String := "2006-01-02T15:04:05Z07:00"

structure Property where
  type : String := ""
  format : String := ""
  timeZone : String := ""

/-- What is used of bluge, with the clauses other than `bool` and `range`. A document that
matches a boolean query matches all its musts and, if it has none, one of its shoulds; one that
matches a date range is in it, and bluge refuses ends that are set but do not fit. -/
structure Engine (N : Type) where
  Doc : Type
  timestamp : Doc → Int
  clause : String → Object N → Option (Option (Doc → Bool))
  matchAll : Doc → Bool
  numericRange : String → Object N → Doc → Bool
  dateRange : String → Int → Int → Bool → Bool → Doc → Bool
  boolean : List (Doc → Bool) → List (Doc → Bool) → List (Doc → Bool) → Option Nat → Doc → Bool
  calculateMin : Nat → Json N → Option Nat
  must_of_boolean : ∀ musts shoulds mustNots min doc, boolean musts shoulds mustNots min doc →
    ∀ q ∈ musts, q doc
  should_of_boolean : ∀ shoulds mustNots min doc, shoulds ≠ [] →
    boolean [] shoulds mustNots min doc → ∃ q ∈ shoulds, q doc
  min_of_dateRange : ∀ min max i j doc, dateRange timeFieldName min max i j doc →
    min = zeroTime ∨ FitsNano min ∧ min ≤ timestamp doc
  max_of_dateRange : ∀ min max i j doc, dateRange timeFieldName min max i j doc →
    max = zeroTime ∨ FitsNano max ∧ timestamp doc ≤ max

/-- The loop over the options: a later one overwrites an earlier one of the same name. -/
def readOptions (lib : GoLib N) (options : Object N) : String → Option (Json N) :=
  options.foldl (fun value f => Function.update value (lib.lower f.1) (some f.2)) fun _ => none

/-- A bound that is set: `null` is not. -/
def bound : Option (Json N) → Option (Json N)
  | none => none
  | some .null => none
  | some v => some v

def optionString : Option (Json N) → String
  | some (.str s) => s
  | _ => ""

/-- Why a time range is not read: a panic, or `return 0, 0`. -/
inductive Stop where
  | panic
  | unbounded

namespace Timerange

variable (lib : GoLib N)

/-- An option in the loop of `RangeQueryTime`. -/
def checkOption (f : String × Json N) : Except Stop Unit :=
  if lib.lower f.1 ∈ ["gt", "gte", "lt", "lte"] then .ok ()
  else if lib.lower f.1 ∈ ["format", "time_zone"] then
    match f.2 with
    | .str _ => .ok ()
    | _ => .error .panic
  else if lib.lower f.1 = "boost" then
    match f.2 with
    | .num _ => .ok ()
    | _ => .error .panic
  else .error .unbounded

def parseBound (format : String) (zone : lib.Zone) (v : Json N) : Except Stop Int :=
  if format = "epoch_millis" then
    match lib.toInt v with
    | none => .error .unbounded
    | some n => .ok (unixMilli n)
  else
    match v with
    | .str s =>
      match lib.parseInLocation format s (some zone) with
      | none => .error .unbounded
      | some t => .ok t
    | _ => .error .panic

/-- One option for an end of the range that is `t` so far. -/
def setEnd (format : String) (zone : lib.Zone) (t : Int) (option : Option (Json N)) :
    Except Stop Int :=
  match bound option with
  | none => .ok t
  | some v => parseBound lib format zone v

def parseEnd (format : String) (zone : lib.Zone) (first second : Option (Json N)) :
    Except Stop Int := do
  let t ← setEnd lib format zone zeroTime first
  setEnd lib format zone t second

def formatOf (option : String) : String :=
  if option ≠ "" then option else rfc3339

def zoneOf (option : String) : Except Stop lib.Zone :=
  if option ≠ "" then
    match lib.parseTimeZone option with
    | none => .error .unbounded
    | some zone => .ok zone
  else .ok lib.utc

def rangeQueryTime (options : Object N) : Except Stop (Int × Int) := do
  options.forM (checkOption lib)
  let value := readOptions lib options
  let format := formatOf (optionString (value "format"))
  let zone ← zoneOf lib (optionString (value "time_zone"))
  let min ← parseEnd lib format zone (value "gt") (value "gte")
  let max ← parseEnd lib format zone (value "lt") (value "lte")
  return (unixNano min, unixNano max)

def rangeQuery (fields : Object N) : Except Stop (Int × Int) :=
  match fields.find? fun f => f.1 = timeFieldName with
  | none => .error .unbounded
  | some (_, .map options) => rangeQueryTime lib options
  | some _ => .error .unbounded

end Timerange

namespace Query

variable (lib : GoLib N)

def parseBound (format : String) (zone : Option lib.Zone) (v : Json N) : Option Int :=
  if format = "epoch_millis" then (lib.toFloat64 v).map unixMilli
  else lib.parseInLocation format (lib.toString v) zone

/-- One option for an end of the range that is `t` so far. -/
def setEnd (format : String) (zone : Option lib.Zone) (t : Int) (option : Option (Json N)) :
    Option Int :=
  match bound option with
  | none => some t
  | some v => parseBound lib format zone v

def parseEnd (format : String) (zone : Option lib.Zone) (first second : Option (Json N)) :
    Option Int := do
  let t ← setEnd lib format zone zeroTime first
  setEnd lib format zone t second

def stringOf : Option (Json N) → String
  | none => ""
  | some v => lib.toString v

def formatOf (prop : Property) (option : String) : String :=
  if option ≠ "" then option
  else if prop.format ≠ "" then prop.format
  else rfc3339

/-- The location is `nil` where the time zone of the mapping is not found. -/
def zoneOf (prop : Property) (option : String) : Option (Option lib.Zone) :=
  if option ≠ "" then (lib.parseTimeZone option).map some
  else if prop.timeZone ≠ "" then some (lib.parseTimeZone prop.timeZone)
  else some (some lib.utc)

variable (engine : Engine N)

def rangeQueryTime (prop : Property) (field : String) (options : Object N) :
    Option (engine.Doc → Bool) := do
  let value := readOptions lib options
  let format := formatOf prop (stringOf lib (value "format"))
  let zone ← zoneOf lib prop (stringOf lib (value "time_zone"))
  let min ← parseEnd lib format zone (value "gt") (value "gte")
  let max ← parseEnd lib format zone (value "lt") (value "lte")
  return engine.dateRange field min (if max = zeroTime then lib.now else max)
    (bound (value "gte")).isSome (bound (value "lte")).isSome

/-- `query.RangeQuery`. An empty clause is no query, which is not an error. -/
def rangeQuery (mappings : String → Property) :
    Object N → Option (Option (engine.Doc → Bool))
  | [] => some none
  | [(field, .map options)] =>
    if (mappings field).type = "numeric" then some (some (engine.numericRange field options))
    else if (mappings field).type ∈ ["date", "time"] then
      (rangeQueryTime lib engine (mappings field) field options).map some
    else none
  | _ => none

end Query

/-- The clause is read alike by both: no two options differ in case only, and the mapping has no
format and no time zone, or the clause has its own. -/
def plainOptions (lib : GoLib N) (prop : Property) (options : Object N) : Bool :=
  decide ((options.map fun f => lib.lower f.1).Nodup) &&
    (prop.format = "" || optionString (readOptions lib options "format") ≠ "") &&
    (prop.timeZone = "" || optionString (readOptions lib options "time_zone") ≠ "")

/-- A bound that is not positive is none. -/
def InRange (range : Int × Int) (t : Int) : Prop :=
  (range.1 ≤ 0 ∨ range.1 ≤ t) ∧ (range.2 ≤ 0 ∨ t ≤ range.2)

namespace RangeLemmas

variable {lib : GoLib N} {options options' : Object N} {v : Json N} {t : Int}
  {format : String} {zone : lib.Zone} {prop : Property} {engine : Engine N} {doc : engine.Doc}

theorem readOptions_eq (options : Object N) (name : String) :
    readOptions lib options name =
      current (fun f => lib.lower f.1) (fun f => some f.2) none options name :=
  foldl_update _ _ _ _

theorem mem_of_readOptions (h : readOptions lib options name = some v) :
    ∃ f ∈ options, lib.lower f.1 = name ∧ f.2 = v := by
  rw [readOptions_eq] at h
  cases hlast : last (fun f => lib.lower f.1) options name with
  | none =>
    rw [current_of_last hlast] at h
    cases h
  | some f =>
    rw [current_of_last_some hlast] at h
    obtain ⟨hf, hname⟩ := mem_of_last hlast
    exact ⟨f, hf, hname, Option.some.inj h⟩

theorem readOptions_same (hsame : sameFields options options')
    (hnodup : (options.map fun f => lib.lower f.1).Nodup) (name : String) :
    Option.Rel Json.same (readOptions lib options name) (readOptions lib options' name) := by
  have hkey : ∀ {f f' : String × Json N}, sameField f f' → lib.lower f'.1 = lib.lower f.1 :=
    fun h => congrArg lib.lower (sameField_iff.1 h).1
  rw [readOptions_eq, readOptions_eq]
  cases hlast : last (fun f => lib.lower f.1) options name with
  | none =>
    have hlast' : last (fun f => lib.lower f.1) options' name = none := by
      rw [last_eq_none] at hlast ⊢
      intro f' hf' heq
      obtain ⟨f, hf, hff'⟩ := exists_of_sameFields' hsame hf'
      exact hlast f hf ((hkey hff').symm.trans heq)
    rw [current_of_last hlast, current_of_last hlast']
    exact .none
  | some f =>
    obtain ⟨hf, hname⟩ := mem_of_last hlast
    cases hlast' : last (fun f => lib.lower f.1) options' name with
    | none =>
      obtain ⟨f', hf', hff'⟩ := exists_of_sameFields hsame hf
      exact absurd ((hkey hff').trans hname) (last_eq_none.1 hlast' f' hf')
    | some f' =>
      obtain ⟨hf', hname'⟩ := mem_of_last hlast'
      obtain ⟨g, hg, hgf'⟩ := exists_of_sameFields' hsame hf'
      have hgf : g = f := List.inj_on_of_nodup_map hnodup hg hf
        (((hkey hgf').symm.trans hname').trans hname.symm)
      rw [current_of_last_some hlast, current_of_last_some hlast']
      exact .some (hgf ▸ (sameField_iff.1 hgf').2)

theorem unixNano_of_fits (h : FitsNano t) : unixNano t = t :=
  Int.bmod_eq_of_le h.1 h.2

theorem unixNano_zeroTime : unixNano zeroTime ≤ 0 := by decide

def Reads (t t' : Int) : Prop := t' = t ∨ ¬ FitsNano t' ∧ t' ≠ zeroTime

theorem reads_unixMilli (hn : 2 ^ 53 ≤ n'.natAbs) : Reads n (unixMilli n') := by
  refine .inr ⟨fun hfits => ?_, fun hzero => ?_⟩
  · have hle := hfits.1
    have hlt := hfits.2
    rw [unixMilli] at hle hlt
    omega
  · rw [unixMilli, zeroTime] at hzero
    omega

theorem toFloat64_of_toInt (hn : lib.toInt v = some n) (hn' : lib.toFloat64 v = some n') :
    Reads (unixMilli n) (unixMilli n') := by
  cases v with
  | num x | bool b => exact .inl (congrArg unixMilli (Option.some.inj (hn'.symm.trans hn)))
  | str s =>
    obtain ⟨x, hx, rfl⟩ := Option.map_eq_some_iff.1 hn'
    by_cases hsmall : n.natAbs ≤ 2 ^ 53
    · exact .inl (congrArg unixMilli (lib.atoi_exact s n x hn hx hsmall))
    · exact reads_unixMilli (lib.atoi_large s n x hn hx (by omega))
  | null | list items | map fields => cases hn

theorem toInt_same (h : v.same v') (hn : lib.toInt v = some n) : v' = v := by
  cases v with
  | num x | bool b | str s => exact h
  | null | list items | map fields => cases hn

theorem reads_parseBound (hsame : v.same v') (ht : Timerange.parseBound lib format zone v = .ok t)
    (ht' : Query.parseBound lib format (some zone) v' = some t') : Reads t t' := by
  unfold Timerange.parseBound at ht
  unfold Query.parseBound at ht'
  split at ht
  next hmillis =>
    rw [if_pos hmillis] at ht'
    split at ht
    · cases ht
    next n hn =>
      cases ht
      rw [toInt_same hsame hn] at ht'
      obtain ⟨n', hn', rfl⟩ := Option.map_eq_some_iff.1 ht'
      exact toFloat64_of_toInt hn hn'
  next hmillis =>
    rw [if_neg hmillis] at ht'
    split at ht
    next s =>
      obtain rfl : v' = .str s := hsame
      split at ht
      · cases ht
      next t₀ ht₀ =>
        cases ht
        exact .inl (Option.some.inj (ht'.symm.trans ht₀))
    · cases ht

theorem bound_same (h : Option.Rel Json.same a b) : Option.Rel Json.same (bound a) (bound b) := by
  cases h with
  | none => exact .none
  | some hv =>
    rename_i v v'
    cases v with
    | null =>
      obtain rfl : v' = .null := hv
      exact .none
    | num x =>
      obtain rfl : v' = .num x := hv
      exact .some (Json.same_refl _)
    | bool b =>
      obtain rfl : v' = .bool b := hv
      exact .some (Json.same_refl _)
    | str s =>
      obtain rfl : v' = .str s := hv
      exact .some (Json.same_refl _)
    | list items =>
      obtain ⟨items', rfl, hitems⟩ := hv
      exact .some ⟨items', rfl, hitems⟩
    | map fields =>
      obtain ⟨fields', rfl, hfields⟩ := hv
      exact .some ⟨fields', rfl, hfields⟩

theorem bind_eq_ok {ε α β : Type} {x : Except ε α} {f : α → Except ε β} {b : β}
    (h : x >>= f = .ok b) : ∃ a, x = .ok a ∧ f a = .ok b := by
  cases x with
  | error e => cases h
  | ok a => exact ⟨a, rfl, h⟩

theorem forM_eq_ok {ε α : Type} {f : α → Except ε Unit} {l : List α} (h : l.forM f = .ok ()) :
    ∀ a ∈ l, f a = .ok () := by
  induction l with
  | nil => intro a ha; cases ha
  | cons b l ih =>
    obtain ⟨u, hb, hl⟩ := bind_eq_ok h
    intro a ha
    rcases List.mem_cons.1 ha with rfl | ha
    · exact hb
    · exact ih hl a ha

theorem reads_setEnd (hreads : Reads t t') (hsame : Option.Rel Json.same option option')
    (hu : Timerange.setEnd lib format zone t option = .ok u)
    (hu' : Query.setEnd lib format (some zone) t' option' = some u') : Reads u u' := by
  unfold Timerange.setEnd at hu
  unfold Query.setEnd at hu'
  have hbound := bound_same hsame
  generalize bound option = v at hu hbound
  generalize bound option' = v' at hu' hbound
  cases hbound with
  | none =>
    cases hu
    cases hu'
    exact hreads
  | some hv => exact reads_parseBound hv hu hu'

theorem reads_parseEnd {first second first' second' : Option (Json N)} {t' : Int}
    (hfirst : Option.Rel Json.same first first') (hsecond : Option.Rel Json.same second second')
    (ht : Timerange.parseEnd lib format zone first second = .ok t)
    (ht' : Query.parseEnd lib format (some zone) first' second' = some t') : Reads t t' := by
  obtain ⟨u, hu, ht⟩ := bind_eq_ok ht
  obtain ⟨u', hu', ht'⟩ := Option.bind_eq_some_iff.1 ht'
  exact reads_setEnd (reads_setEnd (.inl rfl) hfirst hu hu') hsecond ht ht'

theorem isString_of_checkOption (hname : lib.lower f.1 ∈ ["format", "time_zone"])
    (hcheck : Timerange.checkOption lib f = .ok ()) : ∃ s, f.2 = .str s := by
  have hbound : lib.lower f.1 ∉ ["gt", "gte", "lt", "lte"] := by
    rcases List.mem_pair.1 hname with h | h <;> rw [h] <;> decide
  unfold Timerange.checkOption at hcheck
  rw [if_neg hbound, if_pos hname] at hcheck
  split at hcheck
  next s hs => exact ⟨s, hs⟩
  · cases hcheck

theorem stringOf_eq (hsame : sameFields options options')
    (hnodup : (options.map fun f => lib.lower f.1).Nodup)
    (hcheck : ∀ f ∈ options, Timerange.checkOption lib f = .ok ())
    (hname : name ∈ ["format", "time_zone"]) :
    Query.stringOf lib (readOptions lib options' name) =
      optionString (readOptions lib options name) := by
  have hrel := readOptions_same hsame hnodup name
  generalize readOptions lib options' name = value' at hrel
  cases hvalue : readOptions lib options name with
  | none =>
    rw [hvalue] at hrel
    cases hrel
    rfl
  | some v =>
    obtain ⟨f, hf, rfl, rfl⟩ := mem_of_readOptions hvalue
    obtain ⟨s, hs⟩ := isString_of_checkOption hname (hcheck f hf)
    rw [hvalue, hs] at hrel
    rw [hs]
    cases hrel with
    | some hv' =>
      rw [hv']
      rfl

theorem formatOf_eq (h : prop.format = "" ∨ option ≠ "") :
    Query.formatOf prop option = Timerange.formatOf option := by
  unfold Query.formatOf Timerange.formatOf
  split
  · rfl
  next hempty => rw [if_neg (not_not.2 (h.resolve_right hempty))]

theorem zoneOf_eq (h : prop.timeZone = "" ∨ option ≠ "")
    (hzone : Timerange.zoneOf lib option = .ok zone) :
    Query.zoneOf lib prop option = some (some zone) := by
  unfold Timerange.zoneOf at hzone
  unfold Query.zoneOf
  split at hzone
  next hset =>
    rw [if_pos hset]
    split at hzone
    · cases hzone
    next zone' hfound =>
      cases hzone
      rw [hfound]
      rfl
  next hempty =>
    rw [if_neg hempty, if_neg (not_not.2 (h.resolve_right hempty))]
    cases hzone
    rfl

theorem min_le {min min' max' : Int} (hreads : Reads min min')
    (hdoc : engine.dateRange timeFieldName min' max' i j doc) :
    unixNano min ≤ 0 ∨ unixNano min ≤ engine.timestamp doc := by
  rcases engine.min_of_dateRange min' max' i j doc hdoc with hzero | ⟨hfits, hle⟩
  · rcases hreads with rfl | ⟨-, hne⟩
    · exact .inl (hzero ▸ unixNano_zeroTime)
    · exact absurd hzero hne
  · rcases hreads with rfl | ⟨hnot, -⟩
    · exact .inr ((unixNano_of_fits hfits).symm ▸ hle)
    · exact absurd hfits hnot

theorem le_max {max min' max' : Int} {i j : Bool} (hreads : Reads max max')
    (hdoc : engine.dateRange timeFieldName min' (if max' = zeroTime then lib.now else max') i j
      doc) : unixNano max ≤ 0 ∨ engine.timestamp doc ≤ unixNano max := by
  by_cases hzero : max' = zeroTime
  · rcases hreads with rfl | ⟨-, hne⟩
    · exact .inl (hzero ▸ unixNano_zeroTime)
    · exact absurd hzero hne
  · rw [if_neg hzero] at hdoc
    obtain ⟨hfits, hle⟩ := (engine.max_of_dateRange min' max' i j doc hdoc).resolve_left hzero
    rcases hreads with rfl | ⟨hnot, -⟩
    · exact .inr ((unixNano_of_fits hfits).symm ▸ hle)
    · exact absurd hfits hnot

theorem rangeTime_sound (hsame : sameFields options options')
    (hplain : plainOptions lib prop options) {range : Int × Int}
    (hrange : Timerange.rangeQueryTime lib options = .ok range) {q : engine.Doc → Bool}
    (hq : Query.rangeQueryTime lib engine prop timeFieldName options' = some q) (hdoc : q doc) :
    InRange range (engine.timestamp doc) := by
  simp only [plainOptions, Bool.and_eq_true, Bool.or_eq_true, decide_eq_true_eq] at hplain
  obtain ⟨⟨hnodup, hformat⟩, hzone⟩ := hplain
  obtain ⟨u, hcheck, hrange⟩ := bind_eq_ok hrange
  obtain ⟨zone, hzoneOf, hrange⟩ := bind_eq_ok hrange
  obtain ⟨min, hmin, hrange⟩ := bind_eq_ok hrange
  obtain ⟨max, hmax, hrange⟩ := bind_eq_ok hrange
  cases hrange
  have hstring : ∀ name ∈ ["format", "time_zone"],
      Query.stringOf lib (readOptions lib options' name) =
        optionString (readOptions lib options name) :=
    fun _ => stringOf_eq hsame hnodup (forM_eq_ok hcheck)
  have hvalue := readOptions_same hsame hnodup
  obtain ⟨zone', hzoneOf', hq⟩ := Option.bind_eq_some_iff.1 hq
  rw [hstring "time_zone" (by decide), zoneOf_eq hzone hzoneOf] at hzoneOf'
  cases hzoneOf'
  rw [hstring "format" (by decide), formatOf_eq hformat] at hq
  obtain ⟨min', hmin', hq⟩ := Option.bind_eq_some_iff.1 hq
  obtain ⟨max', hmax', hq⟩ := Option.bind_eq_some_iff.1 hq
  cases hq
  exact ⟨min_le (reads_parseEnd (hvalue "gt") (hvalue "gte") hmin hmin') hdoc,
    le_max (reads_parseEnd (hvalue "lt") (hvalue "lte") hmax hmax') hdoc⟩

end RangeLemmas

end SeaSearch
