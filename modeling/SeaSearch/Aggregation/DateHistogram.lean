import SeaSearch.Aggregation.Buckets

/-!
# The date histogram aggregation

A calculator puts the dates of its documents into buckets of an interval. With a `minDocCount` of 0
`Finish` adds the empty buckets between the first and the last date.
-/

namespace SeaSearch

open List
open Bucket (cells key_merge new weight_merge)
open Tally (cut total_perm)
open Option (bind_eq_bind bind_eq_some_iff bind_some isSome_iff_exists isSome_of_eq_some
  map_eq_some_iff map_some)

variable {D A : Type}

/-! ## The calculator -/

inductive CalendarInterval
  | week
  | month
  | quarter
  | year
  deriving DecidableEq

inductive HistInterval
  | calendar (interval : CalendarInterval)
  | fixed (interval : Int)
  deriving DecidableEq

structure CivilDate where
  year : Int
  month : Int
  day : Int
  weekday : Int

/-- What is known of a time zone: the date of a time, the `UnixNano` of `time.Date` at midnight for
a year, a month and a day, and `Format` for a layout. -/
structure TimeZone where
  civil : Int → CivilDate
  date : Int → Int → Int → Int
  format : String → Int → String

/-- `DateHistogramAggregation`. A bound is `int64(Min * 1e6)` and `int64(Max * 1e6)`. -/
structure DateHistogram (D A : Type) where
  /-- `src.Dates` with `UnixNano`. -/
  dates : D → List Int
  size : Nat
  interval : HistInterval
  minDocCount : Int
  minDocCount_range : -2 ^ 63 ≤ minDocCount ∧ minDocCount < 2 ^ 63
  format : String
  timeZone : TimeZone
  extendedBounds : Option (Int × Int)
  hardBounds : Option (Int × Int)
  aggregations : SubAggs D A
  sortFunc : SortFunc (Bucket A) fun a b => a.name < b.name

/-- `DateHistogramCalculator`. -/
structure DateCalculator (A : Type) where
  lists : BucketLists A
  minValue : Int
  maxValue : Int

/-- `Calculator`. -/
def DateCalculator.new : DateCalculator A := ⟨.empty, 2 ^ 63 - 1, -2 ^ 63⟩

namespace DateHistogram

variable (h : DateHistogram D A)

def bucketStart (value : Int) : Int :=
  let t := h.timeZone.civil value
  match h.interval with
  | .calendar .week => h.timeZone.date t.year t.month (t.day - t.weekday)
  | .calendar .month => h.timeZone.date t.year t.month 1
  | .calendar .quarter =>
    h.timeZone.date t.year
      (if t.month ≤ 3 then 1 else if t.month ≤ 6 then 4 else if t.month ≤ 9 then 7 else 10) 1
  | .calendar .year => h.timeZone.date t.year 1 1
  | .fixed interval => value.tdiv interval * interval

def bucketName (value : Int) : String :=
  if h.format = "epoch_millis" then toString (h.bucketStart value / 1000000)
  else h.timeZone.format h.format (h.bucketStart value)

/-- `bucketKey`; there is none if it divides by 0. -/
def bucketKey (value : Int) : Option String :=
  if h.interval = .fixed 0 then none else some (h.bucketName value)

def next (value : Int) : Int :=
  let t := h.timeZone.civil value
  match h.interval with
  | .calendar .week => h.timeZone.date t.year t.month (t.day + 7)
  | .calendar .month => h.timeZone.date t.year (t.month + 1) t.day
  | .calendar .quarter => h.timeZone.date t.year (t.month + 3) t.day
  | .calendar .year => h.timeZone.date (t.year + 1) t.month t.day
  | .fixed interval => Int.bmod (value + interval) (2 ^ 64)

/-- `uint64(a.minDocCount)`. -/
def leastCount : Nat := (h.minDocCount % 2 ^ 64).toNat

/-- `Consume` for one date. -/
def consumeDate (d : D) (a : DateCalculator A) (value : Int) : Option (DateCalculator A) :=
  (h.bucketKey value).map fun termStr =>
    { lists := a.lists.consumeTerm h.aggregations d termStr
      minValue := if value < a.minValue then value else a.minValue
      maxValue := if value > a.maxValue then value else a.maxValue }

def consume (a : DateCalculator A) (d : D) : Option (DateCalculator A) :=
  (h.dates d).foldlM (h.consumeDate d) { a with lists.total := a.lists.total + 1 }

/-- The bounds of the loop of `Finish`. -/
def bounds (minValue maxValue : Int) : Int × Int :=
  let (minValue, maxValue) := match h.extendedBounds with
    | none => (minValue, maxValue)
    | some (low, high) =>
      (if minValue > low then low else minValue, if maxValue < high then high else maxValue)
  h.hardBounds.getD (minValue, maxValue)

/-- The names of the loop of `Finish`. -/
def loopNames (fuel : Nat) (minValue maxValue : Int) : Option (List String) :=
  (loopValues h.next maxValue fuel minValue).bind fun values => values.mapM h.bucketKey

def finish (fuel : Nat) (a : DateCalculator A) : Option (DateCalculator A) :=
  let (minValue, maxValue) := h.bounds a.minValue a.maxValue
  let bucketsList :=
    if h.minDocCount = 0 then
      (h.loopNames fuel minValue maxValue).map fun names =>
        a.lists.bucketsList ++ (names.filter (· ∉ a.lists.bucketsMap)).map (.new h.aggregations)
    else some (a.lists.bucketsList.filter fun b => h.leastCount ≤ b.count)
  bucketsList.map fun bucketsList =>
    ⟨{ a.lists with bucketsList := bucketsList }.trim h.sortFunc h.size, minValue, maxValue⟩

def merge (fuel : Nat) (a other : DateCalculator A) : Option (DateCalculator A) :=
  h.finish fuel
    { a with
      lists.total := a.lists.total + other.lists.total
      lists.bucketsList :=
        mergeBuckets h.aggregations a.lists.bucketsList other.lists.bucketsList }

def single (fuel : Nat) (docs : List D) : Option (DateCalculator A) :=
  (docs.foldlM h.consume .new).bind (h.finish fuel)

/-- The calculators of the parts are merged as `MultiSearch` does it: the first is kept, and each
of the others is merged into it in the order they come. -/
def merged (fuel : Nat) (first : List D) (rest : List (List D)) : Option (DateCalculator A) :=
  (h.single fuel first).bind fun a =>
    rest.foldlM (fun a docs => (h.single fuel docs).bind (h.merge fuel a)) a

/-! ## What it is for -/

def names (docs : List D) : List String := (docs.flatMap h.dates).map h.bucketName

/-- The buckets are those of all documents; `filled` are the buckets of a single calculator. -/
structure Exact (docs : List D) (filled : List String) (bs : List (Bucket A)) : Prop where
  distinct : (bs.map Bucket.name).Nodup
  counts : ∀ b ∈ bs, b.count = (h.names docs).count b.name
  kept : ∀ name, name ∈ bs.map Bucket.name ↔
    if h.minDocCount = 0 then name ∈ filled
    else name ∈ h.names docs ∧ h.minDocCount ≤ (h.names docs).count name

/-- The merged parts have the exact counts for the buckets of a single reader. -/
def MergesExactly (fuel : Nat) (first : List D) (rest : List (List D)) : Prop :=
  ∃ c s, h.merged fuel first rest = some c ∧ h.single fuel (first ++ rest.flatten) = some s ∧
    h.Exact (first ++ rest.flatten) (s.lists.bucketsList.map Bucket.name) c.lists.bucketsList

/-- A `size` that is large enough: no list has more buckets than dates and turns of loops. -/
def room (fuel : Nat) (first : List D) (rest : List (List D)) : Nat :=
  ((first ++ rest.flatten).flatMap h.dates).length + (2 * rest.length + 1) * fuel

def span (docs : List D) : Int × Int :=
  h.bounds ((docs.flatMap h.dates).foldl (fun m v => if v < m then v else m) (2 ^ 63 - 1))
    ((docs.flatMap h.dates).foldl (fun m v => if v > m then v else m) (-2 ^ 63))

def loopOf (fuel : Nat) (docs : List D) : Option (List String) :=
  h.loopNames fuel (h.span docs).1 (h.span docs).2

def gaps (fuel : Nat) (docs : List D) : List String :=
  ((h.loopOf fuel docs).getD []).filter (· ∉ h.names docs)

/-- The loop ends for every part and for all documents. If there is only one part then it has no gap
twice. Otherwise the first part has no gaps, and the gaps of the other parts that are not filled by
documents are those of all documents. -/
def GapsAgree (fuel : Nat) (first : List D) (rest : List (List D)) : Prop :=
  (∀ docs ∈ (first ++ rest.flatten) :: first :: rest, (h.loopOf fuel docs).isSome) ∧
    if rest = [] then (h.gaps fuel first).Nodup
    else h.gaps fuel first = [] ∧ ∀ name ∉ h.names (first ++ rest.flatten),
      name ∈ h.gaps fuel (first ++ rest.flatten) ↔ ∃ docs ∈ rest, name ∈ h.gaps fuel docs

/-- A part that has a bucket of the result has enough documents in it. -/
def PartsEnough (first : List D) (rest : List (List D)) : Prop :=
  ∀ name ∈ h.names (first ++ rest.flatten),
    h.minDocCount ≤ (h.names (first ++ rest.flatten)).count name →
    ∀ docs ∈ first :: rest,
      (h.names docs).count name = 0 ∨ h.leastCount ≤ (h.names docs).count name

/-- No date meets an interval of zero. Without a minimum count the parts agree on the gaps, with one
each has enough documents. -/
def Mergeable (fuel : Nat) (first : List D) (rest : List (List D)) : Prop :=
  (h.interval = .fixed 0 → (first ++ rest.flatten).flatMap h.dates = []) ∧
    if h.minDocCount = 0 then h.GapsAgree fuel first rest else h.PartsEnough first rest

end DateHistogram

open DateHistogram (bounds bucketKey consume consumeDate finish leastCount loopOf merged room
  single)

namespace DateLemmas

open BucketLemmas

variable {h : DateHistogram D A} {fuel : Nat} {docs : List D} {a : DateCalculator A}
  {values : List Int} {bs bs' others others' : List (Bucket A)}

def Divides (h : DateHistogram D A) (docs : List D) : Prop :=
  h.interval = .fixed 0 → docs.flatMap h.dates = []

structure Consumed (h : DateHistogram D A) (values : List Int) (a : DateCalculator A) : Prop where
  mapped : Mapped a.lists
  tallies : Tallies (values.map h.bucketName) a.lists.bucketsList
  minValue : a.minValue = values.foldl (fun m v => if v < m then v else m) (2 ^ 63 - 1)
  maxValue : a.maxValue = values.foldl (fun m v => if v > m then v else m) (-2 ^ 63)

theorem consumed_new : Consumed h [] (.new : DateCalculator A) :=
  ⟨rfl, Tallies.nil, rfl, rfl⟩

theorem consumed_date (ha : Consumed h values a) (hne : h.interval ≠ .fixed 0) (d : D) (v : Int) :
    ∃ a', h.consumeDate d a v = some a' ∧ Consumed h (values ++ [v]) a' := by
  obtain ⟨hmapped, htallies⟩ := tallies_foldl ha.mapped ha.tallies d [h.bucketName v]
  refine ⟨_, by rw [consumeDate, bucketKey, if_neg hne, map_some], hmapped, ?_, ?_, ?_⟩
  · rw [map_append]
    exact htallies
  · rw [foldl_append, ← ha.minValue]
    rfl
  · rw [foldl_append, ← ha.maxValue]
    rfl

theorem consumed_dates (ha : Consumed h values a) (d : D)
    (hok : h.interval = .fixed 0 → dates = []) :
    ∃ a', dates.foldlM (h.consumeDate d) a = some a' ∧ Consumed h (values ++ dates) a' := by
  induction dates generalizing a values with
  | nil => exact ⟨a, rfl, by rwa [append_nil]⟩
  | cons v dates ih =>
    have hne : h.interval ≠ .fixed 0 := fun h0 => nomatch hok h0
    obtain ⟨b, hstep, hb⟩ := consumed_date ha hne d v
    obtain ⟨a', hfold, ha'⟩ := ih hb fun h0 => absurd h0 hne
    refine ⟨a', ?_, ?_⟩
    · rw [foldlM_cons, hstep]
      exact hfold
    · rwa [append_assoc, singleton_append] at ha'

theorem consumed_docs (ha : Consumed h values a) (hok : Divides h docs) :
    ∃ a', docs.foldlM h.consume a = some a' ∧ Consumed h (values ++ docs.flatMap h.dates) a' := by
  induction docs generalizing a values with
  | nil => exact ⟨a, rfl, by rwa [flatMap_nil, append_nil]⟩
  | cons d docs ih =>
    have hok' : h.interval = .fixed 0 → h.dates d = [] ∧ docs.flatMap h.dates = [] := by
      intro h0
      simpa using hok h0
    have htotal : Consumed h values { a with lists.total := a.lists.total + 1 } :=
      ⟨ha.mapped, ha.tallies, ha.minValue, ha.maxValue⟩
    obtain ⟨b, hdates, hb⟩ := consumed_dates htotal d fun h0 => (hok' h0).1
    obtain ⟨a', hdocs, ha'⟩ := ih hb fun h0 => (hok' h0).2
    refine ⟨a', ?_, ?_⟩
    · rw [foldlM_cons, consume, hdates]
      exact hdocs
    · rwa [flatMap_cons, ← append_assoc]

theorem divides_of_consumed (hfold : docs.foldlM h.consume a = some a') : Divides h docs := by
  intro h0
  induction docs generalizing a with
  | nil => rfl
  | cons d docs ih =>
    rw [foldlM_cons, bind_eq_bind, bind_eq_some_iff] at hfold
    obtain ⟨b, hb, hrest⟩ := hfold
    have hdates : h.dates d = [] := by
      cases hd : h.dates d with
      | nil => rfl
      | cons v vs =>
        rw [consume, hd, foldlM_cons, consumeDate, bucketKey, if_pos h0] at hb
        cases hb
    rw [flatMap_cons, hdates, ih hrest, append_nil]

theorem length_loopValues {next : Int → Int} {last v : Int}
    (hloop : loopValues next last fuel v = some values) : values.length ≤ fuel := by
  induction fuel generalizing v values with
  | zero => cases hloop
  | succ fuel ih =>
    rw [loopValues] at hloop
    split at hloop
    · obtain ⟨rest, hrest, rfl⟩ := map_eq_some_iff.1 hloop
      exact Nat.succ_le_succ (ih hrest)
    · cases hloop
      exact Nat.zero_le _

theorem length_mapM (hmap : values.mapM f = some names) : names.length = values.length := by
  induction values generalizing names with
  | nil =>
    cases hmap
    rfl
  | cons v values ih =>
    rw [mapM_cons, bind_eq_bind, bind_eq_some_iff] at hmap
    obtain ⟨name, -, hrest⟩ := hmap
    obtain ⟨rest, hvalues, hnames⟩ := bind_eq_some_iff.1 hrest
    cases hnames
    rw [length_cons, ih hvalues, length_cons]

theorem length_loopOf (hloop : h.loopOf fuel docs = some names) : names.length ≤ fuel := by
  obtain ⟨values, hvalues, hnames⟩ := bind_eq_some_iff.1 hloop
  rw [length_mapM hnames]
  exact length_loopValues hvalues

theorem length_gaps_le : (h.gaps fuel docs).length ≤ fuel := by
  refine le_trans (length_filter_le _ _) ?_
  cases hloop : h.loopOf fuel docs with
  | none => exact Nat.zero_le _
  | some names => exact length_loopOf hloop

theorem bounds_idem (low high : Int) :
    h.bounds (h.bounds low high).1 (h.bounds low high).2 = h.bounds low high := by
  rcases hhard : h.hardBounds with _ | b
  · rcases hext : h.extendedBounds with _ | ⟨l, u⟩
    · simp [bounds, hhard, hext]
    · simp only [bounds, hhard, hext, Option.getD_none, Prod.mk.injEq]
      constructor
      · split <;> omega
      · split <;> omega
  · simp [bounds, hhard]

/-- The names and the span of the buckets are those of the documents. -/
structure Keeps (h : DateHistogram D A) (docs : List D) (a : DateCalculator A) : Prop where
  names : ∀ name, name ∈ a.lists.bucketsMap ↔ name ∈ h.names docs
  span : h.bounds a.minValue a.maxValue = h.span docs

theorem keeps_of_consumed (ha : Consumed h (docs.flatMap h.dates) a) : Keeps h docs a := by
  refine ⟨fun name => ?_, ?_⟩
  · rw [ha.mapped, ha.tallies.names]
    rfl
  · rw [ha.minValue, ha.maxValue]
    rfl

def closing (h : DateHistogram D A) (fuel : Nat) (docs : List D) (bs : List (Bucket A)) :
    Option (List (Bucket A)) :=
  if h.minDocCount = 0 then
    (h.loopOf fuel docs).map fun _ => bs ++ (h.gaps fuel docs).map (.new h.aggregations)
  else some (bs.filter fun b => h.leastCount ≤ b.count)

theorem finish_eq (ha : Keeps h docs a) :
    h.finish fuel a = (closing h fuel docs a.lists.bucketsList).map fun bs =>
      ⟨{ a.lists with bucketsList := bs }.trim h.sortFunc h.size, (h.span docs).1,
        (h.span docs).2⟩ := by
  have hgaps : ∀ names, h.loopOf fuel docs = some names →
      names.filter (· ∉ a.lists.bucketsMap) = h.gaps fuel docs := by
    intro names hloop
    rw [DateHistogram.gaps, hloop, Option.getD_some]
    refine filter_congr fun name _ => ?_
    rw [decide_eq_decide, ha.names]
  rw [finish, ha.span, closing]
  dsimp only
  congr 1
  split
  · rw [← loopOf]
    cases hloop : h.loopOf fuel docs with
    | none => rfl
    | some names => rw [map_some, map_some, hgaps names hloop]
  · rfl

theorem finish_spec (ha : Keeps h docs a)
    (hclosing : closing h fuel docs a.lists.bucketsList = some bs) (hsize : bs.length ≤ h.size) :
    ∃ a', h.finish fuel a = some a' ∧ Keeps h docs a' ∧ a'.lists.bucketsList.Perm bs := by
  refine ⟨⟨{ a.lists with bucketsList := bs }.trim h.sortFunc h.size, (h.span docs).1,
    (h.span docs).2⟩, ?_, ⟨ha.names, bounds_idem _ _⟩, ?_⟩
  · rw [finish_eq ha, hclosing, map_some]
  · exact trim_perm hsize

theorem closing_isSome (bs : List (Bucket A)) :
    (closing h fuel docs bs).isSome ↔ (h.minDocCount = 0 → (h.loopOf fuel docs).isSome) := by
  rw [closing]
  split
  · next hm => simp [hm]
  · next hm => simp [hm]

theorem closing_length (hclosing : closing h fuel docs bs = some bs') :
    bs'.length ≤ bs.length + fuel := by
  rw [closing] at hclosing
  split at hclosing
  · obtain ⟨names, -, rfl⟩ := map_eq_some_iff.1 hclosing
    rw [length_append, length_map]
    exact Nat.add_le_add_left length_gaps_le _
  · cases hclosing
    exact le_trans (length_filter_le _ _) (Nat.le_add_right _ _)

theorem single_spec (hok : Divides h docs) (hloop : h.minDocCount = 0 → (h.loopOf fuel docs).isSome)
    (hsize : (docs.flatMap h.dates).length + fuel ≤ h.size) :
    ∃ a bs bs', h.single fuel docs = some a ∧ Keeps h docs a ∧ Tallies (h.names docs) bs ∧
      closing h fuel docs bs = some bs' ∧ a.lists.bucketsList.Perm bs' ∧
      a.lists.bucketsList.length ≤ (docs.flatMap h.dates).length + fuel := by
  obtain ⟨c, hfold, hc⟩ := consumed_docs (consumed_new (h := h)) hok
  rw [nil_append] at hc
  obtain ⟨bs', hbs'⟩ := isSome_iff_exists.1
    ((closing_isSome c.lists.bucketsList).2 hloop)
  have hlen : c.lists.bucketsList.length ≤ (docs.flatMap h.dates).length := by
    refine le_trans hc.tallies.length_le ?_
    exact le_trans (dedup_sublist _).length_le (le_of_eq (length_map _))
  have hlen' := closing_length hbs'
  obtain ⟨a, hfinish, ha, hperm⟩ := finish_spec (keeps_of_consumed hc) hbs' (by omega)
  refine ⟨a, c.lists.bucketsList, bs', ?_, ha, hc.tallies, hbs', hperm, ?_⟩
  · rw [single, hfold]
    exact hfinish
  · rw [hperm.length_eq]
    omega

theorem single_isSome (hsome : (h.single fuel docs).isSome) :
    Divides h docs ∧ (h.minDocCount = 0 → (h.loopOf fuel docs).isSome) := by
  obtain ⟨a, ha⟩ := isSome_iff_exists.1 hsome
  obtain ⟨c, hfold, hfinish⟩ := bind_eq_some_iff.1 ha
  have hok := divides_of_consumed hfold
  refine ⟨hok, ?_⟩
  obtain ⟨c', hfold', hc⟩ := consumed_docs (consumed_new (h := h)) hok
  obtain rfl : c = c' := Option.some.inj (hfold.symm.trans hfold')
  rw [nil_append] at hc
  rw [finish_eq (keeps_of_consumed hc)] at hfinish
  obtain ⟨bs, hbs, -⟩ := map_eq_some_iff.1 hfinish
  exact (closing_isSome _).1 (isSome_of_eq_some hbs)

theorem merge_spec (ha : Keeps h docs a) (hloop : h.minDocCount = 0 → (h.loopOf fuel docs).isSome)
    (other : DateCalculator A)
    (hsize : a.lists.bucketsList.length + other.lists.bucketsList.length + fuel ≤ h.size) :
    ∃ a' bs, h.merge fuel a other = some a' ∧ Keeps h docs a' ∧
      closing h fuel docs (mergeBuckets h.aggregations a.lists.bucketsList
        other.lists.bucketsList) = some bs ∧ a'.lists.bucketsList.Perm bs ∧
      a'.lists.bucketsList.length ≤
        a.lists.bucketsList.length + other.lists.bucketsList.length + fuel := by
  have hmerge := Tally.length_absorb_le (C := cells A) (Bucket.merge h.aggregations)
    a.lists.bucketsList other.lists.bucketsList
  obtain ⟨bs, hbs⟩ := isSome_iff_exists.1 ((closing_isSome (mergeBuckets
    h.aggregations a.lists.bucketsList other.lists.bucketsList)).2 hloop)
  have hlen := closing_length hbs
  rw [mergeBuckets] at hlen
  have hkeeps : Keeps h docs { a with
      lists.total := a.lists.total + other.lists.total
      lists.bucketsList :=
        mergeBuckets h.aggregations a.lists.bucketsList other.lists.bucketsList } :=
    ⟨ha.names, ha.span⟩
  obtain ⟨a', hfinish, ha', hp⟩ := finish_spec hkeeps hbs (by omega)
  refine ⟨a', bs, hfinish, ha', hbs, hp, ?_⟩
  rw [hp.length_eq]
  omega

def Finishes (h : DateHistogram D A) (fuel : Nat) (docs : List D) : Prop :=
  Divides h docs ∧ (h.minDocCount = 0 → (h.loopOf fuel docs).isSome)

variable {first : List D} {rest : List (List D)}

theorem merged_rule {P : List (List D) → List (Bucket A) → Prop}
    (hperm : ∀ {rest bs bs'}, P rest bs → bs'.Perm bs → P rest bs')
    (hbase : ∀ {bs bs'}, Tallies (h.names first) bs → closing h fuel first bs = some bs' → P [] bs')
    (hstep : ∀ {rest bs docs ts others others' bs'}, P rest bs → Tallies (h.names docs) ts →
      closing h fuel docs ts = some others → others'.Perm others →
      closing h fuel first (mergeBuckets h.aggregations bs others') = some bs' →
      P (rest ++ [docs]) bs')
    (hok : ∀ docs ∈ first :: rest, Finishes h fuel docs) (hsize : h.room fuel first rest ≤ h.size) :
    ∃ a, h.merged fuel first rest = some a ∧ Keeps h first a ∧ P rest a.lists.bucketsList ∧
      a.lists.bucketsList.length ≤ h.room fuel first rest := by
  induction rest using List.reverseRecOn with
  | nil =>
    obtain ⟨hdiv, hloop⟩ := hok first mem_cons_self
    have hroom : h.room fuel first [] = (first.flatMap h.dates).length + fuel := by
      simp [room]
    rw [hroom] at hsize ⊢
    obtain ⟨a, bs, bs', hsingle, ha, hbs, hclosing, hp, hlen⟩ := single_spec hdiv hloop hsize
    refine ⟨a, ?_, ha, hperm (hbase hbs hclosing) hp, hlen⟩
    rw [merged, hsingle]
    rfl
  | append_singleton rest docs ih =>
    have hroom : h.room fuel first (rest ++ [docs]) =
        h.room fuel first rest + (docs.flatMap h.dates).length + 2 * fuel := by
      simp only [room, flatten_append, flatten_singleton,
        flatMap_append, length_append, length_singleton]
      ring
    rw [hroom] at hsize ⊢
    have hok' : ∀ q ∈ first :: rest, Finishes h fuel q := by
      intro q hq
      rcases mem_cons.1 hq with rfl | hq
      · exact hok _ mem_cons_self
      · exact hok q (mem_cons_of_mem _ (mem_append_left _ hq))
    obtain ⟨a, hmerged, ha, hP, hlen⟩ := ih hok' (by omega)
    obtain ⟨hdiv, hloop⟩ := hok docs (by simp)
    obtain ⟨o, ts, others, ho, -, hts, hothers, hp, hlen'⟩ := single_spec hdiv hloop (by omega)
    obtain ⟨a', bs, hmerge, ha', hbs, hp', hlen''⟩ :=
      merge_spec ha (hok first mem_cons_self).2 o (by omega)
    refine ⟨a', ?_, ha', hperm (hstep hP hts hothers hp hbs) hp', by omega⟩
    rw [merged, bind_eq_some_iff] at hmerged ⊢
    obtain ⟨b, hb, hfold⟩ := hmerged
    refine ⟨b, hb, ?_⟩
    rw [foldlM_append, hfold, bind_eq_bind, bind_some, foldlM_cons, ho, bind_some, hmerge]
    rfl

theorem finishes_of_merged (hmerged : (h.merged fuel first rest).isSome) :
    ∀ docs ∈ first :: rest, Finishes h fuel docs := by
  have hfold : ∀ {rest : List (List D)} {a c : DateCalculator A},
      rest.foldlM (fun a docs => (h.single fuel docs).bind (h.merge fuel a)) a = some c →
      ∀ docs ∈ rest, Finishes h fuel docs := by
    intro rest
    induction rest with
    | nil => exact fun _ docs hdocs => absurd hdocs not_mem_nil
    | cons q rest ih =>
      intro a c hc docs hdocs
      rw [foldlM_cons, bind_eq_bind, bind_eq_some_iff] at hc
      obtain ⟨b, hb, hrest⟩ := hc
      obtain ⟨o, ho, -⟩ := bind_eq_some_iff.1 hb
      rcases mem_cons.1 hdocs with rfl | hdocs
      · exact single_isSome (isSome_of_eq_some ho)
      · exact ih hrest docs hdocs
  obtain ⟨c, hc⟩ := isSome_iff_exists.1 hmerged
  obtain ⟨a, ha, hrest⟩ := bind_eq_some_iff.1 hc
  intro docs hdocs
  rcases mem_cons.1 hdocs with rfl | hdocs
  · exact single_isSome (isSome_of_eq_some ha)
  · exact hfold hrest docs hdocs

theorem names_append (docs docs' : List D) :
    h.names (docs ++ docs') = h.names docs ++ h.names docs' := by
  rw [DateHistogram.names, flatMap_append, map_append]
  rfl

theorem total_new (names : List String) (name : String) :
    Tally.total (cells A) (names.map (.new h.aggregations)) name = 0 := by
  induction names with
  | nil => rfl
  | cons n names ih =>
    rw [map_cons, Tally.total_cons, ih]
    split
    · rfl
    · rfl

theorem names_new (names : List String) :
    (names.map (new h.aggregations)).map Bucket.name = names := by
  rw [map_map]
  exact map_id _

theorem closing_filled (hm : h.minDocCount = 0) (hclosing : closing h fuel docs bs = some bs') :
    bs' = bs ++ (h.gaps fuel docs).map (.new h.aggregations) := by
  rw [closing, if_pos hm] at hclosing
  obtain ⟨names, -, rfl⟩ := map_eq_some_iff.1 hclosing
  rfl

structure Filled (h : DateHistogram D A) (fuel : Nat) (first : List D) (rest : List (List D))
    (bs : List (Bucket A)) : Prop where
  gaps : ∀ name ∈ h.gaps fuel first, name ∈ bs.map Bucket.name
  twice : rest ≠ [] → h.gaps fuel first ≠ [] → ¬ (bs.map Bucket.name).Nodup
  nodup : h.gaps fuel first = [] → (bs.map Bucket.name).Nodup
  names : ∀ name, name ∈ bs.map Bucket.name ↔ name ∈ h.names (first ++ rest.flatten) ∨
    ∃ docs ∈ first :: rest, name ∈ h.gaps fuel docs
  total : h.gaps fuel first = [] → ∀ name,
    Tally.total (cells A) bs name = (h.names (first ++ rest.flatten)).count name

theorem filled_perm (hbs : Filled h fuel first rest bs) (hp : bs'.Perm bs) :
    Filled h fuel first rest bs' where
  gaps name hname := (hp.map _).mem_iff.2 (hbs.gaps name hname)
  twice hrest hgaps hnodup := hbs.twice hrest hgaps ((hp.map _).nodup_iff.1 hnodup)
  nodup hgaps := (hp.map _).nodup_iff.2 (hbs.nodup hgaps)
  names name := (hp.map _).mem_iff.trans (hbs.names name)
  total hgaps name := (total_perm hp name).trans (hbs.total hgaps name)

theorem filled_first (hm : h.minDocCount = 0) (hbs : Tallies (h.names first) bs)
    (hclosing : closing h fuel first bs = some bs') : Filled h fuel first [] bs' := by
  obtain rfl := closing_filled hm hclosing
  have hall : h.names (first ++ ([] : List (List D)).flatten) = h.names first := by
    rw [flatten_nil, append_nil]
  refine ⟨fun name hname => ?_, fun hne => absurd rfl hne, fun hgaps => ?_, fun name => ?_,
    fun hgaps name => ?_⟩
  · rw [map_append, names_new]
    exact mem_append_right _ hname
  · rw [hgaps, map_nil, append_nil]
    exact hbs.nodup
  · rw [map_append, names_new, mem_append, hbs.names, hall]
    simp
  · rw [hgaps, map_nil, append_nil, hall]
    exact hbs.total name

theorem filled_merge (hm : h.minDocCount = 0) (hbs : Filled h fuel first rest bs)
    (hts : Tallies (h.names docs) ts) (hothers : closing h fuel docs ts = some others)
    (hp : others'.Perm others)
    (hclosing : closing h fuel first (mergeBuckets h.aggregations bs others') = some bs') :
    Filled h fuel first (rest ++ [docs]) bs' := by
  obtain rfl := closing_filled hm hothers
  obtain rfl := closing_filled hm hclosing
  have hall : h.names (first ++ (rest ++ [docs]).flatten) =
      h.names (first ++ rest.flatten) ++ h.names docs := by
    rw [flatten_append, flatten_singleton, ← append_assoc, names_append]
  have hmem : ∀ name, name ∈ (mergeBuckets h.aggregations bs others').map Bucket.name ↔
      name ∈ bs.map Bucket.name ∨ name ∈ h.names docs ∨ name ∈ h.gaps fuel docs := by
    intro name
    refine (Tally.mem_keys_absorb (key_merge h.aggregations)).trans ?_
    refine or_congr Iff.rfl ?_
    refine (hp.map (cells A).key).mem_iff.trans ?_
    have hnames : (ts ++ (h.gaps fuel docs).map (new h.aggregations)).map
        (cells A).key = ts.map Bucket.name ++ h.gaps fuel docs := by
      rw [map_append]
      exact congrArg _ (names_new _)
    rw [hnames, mem_append, hts.names]
  refine ⟨fun name hname => ?_, fun _ hgaps hnodup => ?_, fun hgaps => ?_, fun name => ?_,
    fun hgaps name => ?_⟩
  · rw [map_append, names_new]
    exact mem_append_right _ hname
  · obtain ⟨name, hname⟩ := exists_mem_of_ne_nil _ hgaps
    rw [map_append, names_new, nodup_append] at hnodup
    exact hnodup.2.2 name ((hmem name).2 (.inl (hbs.gaps name hname))) name hname rfl
  · rw [hgaps, map_nil, append_nil]
    exact Tally.nodup_absorb (key_merge h.aggregations) (hbs.nodup hgaps)
  · rw [map_append, names_new, mem_append, hmem, hbs.names, hall, mem_append]
    have hrest : (∃ q ∈ first :: (rest ++ [docs]), name ∈ h.gaps fuel q) ↔
        (∃ q ∈ first :: rest, name ∈ h.gaps fuel q) ∨ name ∈ h.gaps fuel docs := by
      rw [← cons_append]
      simp only [mem_append, mem_singleton, or_and_right, exists_or, exists_eq_left]
    -- the gaps of the first part are among those that are already there
    rw [hrest, or_iff_left_of_imp fun hname => .inl (.inr ⟨first, mem_cons_self, hname⟩)]
    exact or_or_or_comm
  · rw [hgaps, map_nil, append_nil, mergeBuckets,
      Tally.total_absorb (key_merge h.aggregations) (weight_merge h.aggregations)
        (hbs.nodup hgaps), hbs.total hgaps, total_perm hp, Tally.total_append, hts.total,
      total_new, hall, count_append, add_zero]

theorem merged_filled (hm : h.minDocCount = 0) (hok : ∀ docs ∈ first :: rest, Finishes h fuel docs)
    (hsize : h.room fuel first rest ≤ h.size) :
    ∃ a, h.merged fuel first rest = some a ∧ Filled h fuel first rest a.lists.bucketsList := by
  obtain ⟨a, hmerged, -, hfilled, -⟩ := merged_rule (P := Filled h fuel first) filled_perm
    (filled_first hm) (filled_merge hm) hok hsize
  exact ⟨a, hmerged, hfilled⟩

theorem leastCount_pos (hm : h.minDocCount ≠ 0) : 0 < h.leastCount := by
  have := h.minDocCount_range
  unfold leastCount
  omega

theorem leastCount_eq (hm : 0 < h.minDocCount) : (h.leastCount : Int) = h.minDocCount := by
  have := h.minDocCount_range
  unfold leastCount
  omega

structure Cut (h : DateHistogram D A) (parts : List (List D)) (bs : List (Bucket A)) : Prop where
  nodup : (bs.map Bucket.name).Nodup
  least : ∀ b ∈ bs, h.leastCount ≤ b.count
  total : ∀ name, Tally.total (cells A) bs name =
    (parts.map fun docs => cut h.leastCount ((h.names docs).count name)).sum

theorem cut_perm (hbs : Cut h parts bs) (hp : bs'.Perm bs) :
    Cut h parts bs' where
  nodup := (hp.map _).nodup_iff.2 hbs.nodup
  least b hb := hbs.least b (hp.mem_iff.1 hb)
  total name := (total_perm hp name).trans (hbs.total name)

theorem closing_cut (hm : h.minDocCount ≠ 0) (hclosing : closing h fuel docs bs = some bs') :
    bs' = bs.filter fun b => h.leastCount ≤ b.count := by
  rw [closing, if_neg hm] at hclosing
  exact (Option.some.inj hclosing).symm

theorem cut_filter (hnodup : (bs.map Bucket.name).Nodup)
    (htotal : ∀ name, cut h.leastCount (Tally.total (cells A) bs name) =
      (parts.map fun docs => cut h.leastCount ((h.names docs).count name)).sum) :
    Cut h parts (bs.filter fun b => h.leastCount ≤ b.count) where
  nodup := hnodup.sublist (filter_sublist.map _)
  least b hb := by simpa using (mem_filter.1 hb).2
  total name := (Tally.total_filter hnodup _ _).trans (htotal name)

theorem cut_tallies (hbs : Tallies (h.names docs) bs) :
    Cut h [docs] (bs.filter fun b => h.leastCount ≤ b.count) := by
  refine cut_filter hbs.nodup fun name => ?_
  rw [map_singleton, sum_singleton, ← hbs.total]

theorem cut_merge (hm : h.minDocCount ≠ 0) (hbs : Cut h parts bs) (hts : Tallies (h.names docs) ts)
    (hothers : closing h fuel docs ts = some others) (hp : others'.Perm others)
    (hclosing : closing h fuel first (mergeBuckets h.aggregations bs others') = some bs') :
    Cut h (parts ++ [docs]) bs' := by
  obtain rfl := closing_cut hm hothers
  obtain rfl := closing_cut hm hclosing
  have hcut := cut_perm (cut_tallies hts) hp
  refine cut_filter (Tally.nodup_absorb (key_merge h.aggregations) hbs.nodup) fun name => ?_
  rw [mergeBuckets, Tally.total_absorb (key_merge h.aggregations) (weight_merge h.aggregations)
    hbs.nodup, hbs.total, hcut.total, ← sum_append, ← map_append, Tally.cut_sum]

theorem merged_cut (hm : h.minDocCount ≠ 0) (hok : ∀ docs ∈ first :: rest, Finishes h fuel docs)
    (hsize : h.room fuel first rest ≤ h.size) :
    ∃ a, h.merged fuel first rest = some a ∧ Cut h (first :: rest) a.lists.bucketsList := by
  obtain ⟨a, hmerged, -, hcut, -⟩ := merged_rule (P := fun rest => Cut h (first :: rest)) cut_perm
    (fun hbs hclosing => closing_cut hm hclosing ▸ cut_tallies hbs) (cut_merge hm) hok hsize
  exact ⟨a, hmerged, hcut⟩

theorem room_all_le (h : DateHistogram D A) (fuel : Nat) (first : List D) (rest : List (List D)) :
    h.room fuel (first ++ rest.flatten) [] ≤ h.room fuel first rest := by
  simp only [room, flatten_nil, append_nil, length_nil]
  exact Nat.add_le_add_left (Nat.mul_le_mul_right _ (by omega)) _

theorem merged_nil (docs : List D) : h.merged fuel docs [] = h.single fuel docs := by
  rw [merged]
  cases h.single fuel docs with
  | none | some a => rfl

theorem single_filled (hm : h.minDocCount = 0) (hok : Finishes h fuel docs)
    (hsize : h.room fuel docs [] ≤ h.size) :
    ∃ s bs, h.single fuel docs = some s ∧ Tallies (h.names docs) bs ∧
      s.lists.bucketsList.Perm (bs ++ (h.gaps fuel docs).map (.new h.aggregations)) := by
  obtain ⟨s, bs, bs', hs, -, hbs, hclosing, hp, -⟩ := single_spec hok.1 hok.2 (by
    simpa [room] using hsize)
  exact ⟨s, bs, hs, hbs, closing_filled hm hclosing ▸ hp⟩

theorem nodup_filled (hbs : Tallies (h.names docs) bs) :
    ((bs ++ (h.gaps fuel docs).map (new h.aggregations)).map Bucket.name).Nodup ↔
      (h.gaps fuel docs).Nodup := by
  rw [map_append, names_new, nodup_append]
  refine ⟨fun hnodup => hnodup.2.1, fun hnodup => ⟨hbs.nodup, hnodup, ?_⟩⟩
  rintro name hname _ hgap rfl
  have hnot := (mem_filter.1 hgap).2
  rw [hbs.names] at hname
  simp [hname] at hnot

theorem exact_of_totals (hm : h.minDocCount = 0) {filled : List String}
    (hnodup : (bs.map Bucket.name).Nodup)
    (htotal : ∀ name, Tally.total (cells A) bs name = (h.names docs).count name)
    (hnames : ∀ name, name ∈ bs.map Bucket.name ↔ name ∈ filled) : h.Exact docs filled bs where
  distinct := hnodup
  counts b hb := (Tally.weight_eq_total (C := cells A) hnodup hb).trans (htotal b.name)
  kept name := by rw [if_pos hm, hnames]

theorem exact_filled_one (hm : h.minDocCount = 0) (hsize : h.room fuel first [] ≤ h.size) :
    h.MergesExactly fuel first [] ↔ Finishes h fuel first ∧ (h.gaps fuel first).Nodup := by
  unfold DateHistogram.MergesExactly
  rw [merged_nil, flatten_nil, append_nil]
  constructor
  · rintro ⟨c, s, hc, hs, hexact⟩
    have hok := single_isSome (isSome_of_eq_some hc)
    obtain ⟨c', bs, hc', hbs, hp⟩ := single_filled hm hok hsize
    cases hc.symm.trans hc'
    exact ⟨hok, (nodup_filled hbs).1 ((hp.map _).nodup_iff.1 hexact.distinct)⟩
  · rintro ⟨hok, hnodup⟩
    obtain ⟨c, bs, hc, hbs, hp⟩ := single_filled hm hok hsize
    refine ⟨c, c, hc, hc, exact_of_totals hm ((hp.map _).nodup_iff.2 ((nodup_filled hbs).2 hnodup))
      (fun name => ?_) fun name => Iff.rfl⟩
    rw [total_perm hp, Tally.total_append, hbs.total, total_new, add_zero]

theorem exact_filled_parts (hm : h.minDocCount = 0) (hrest : rest ≠ [])
    (hsize : h.room fuel first rest ≤ h.size) :
    h.MergesExactly fuel first rest ↔
      (∀ docs ∈ (first ++ rest.flatten) :: first :: rest, Finishes h fuel docs) ∧
      h.gaps fuel first = [] ∧ ∀ name ∉ h.names (first ++ rest.flatten),
        (name ∈ h.gaps fuel (first ++ rest.flatten) ↔ ∃ docs ∈ rest, name ∈ h.gaps fuel docs) := by
  have hsize' := le_trans (room_all_le h fuel first rest) hsize
  have hmem : ∀ {s : DateCalculator A} {bs : List (Bucket A)},
      Tallies (h.names (first ++ rest.flatten)) bs →
      s.lists.bucketsList.Perm
        (bs ++ (h.gaps fuel (first ++ rest.flatten)).map (.new h.aggregations)) →
      ∀ name, name ∈ s.lists.bucketsList.map Bucket.name ↔
        name ∈ h.names (first ++ rest.flatten) ∨ name ∈ h.gaps fuel (first ++ rest.flatten) := by
    intro s bs hbs hp name
    rw [(hp.map _).mem_iff, map_append, names_new, mem_append, hbs.names]
  constructor
  · rintro ⟨c, s, hc, hs, hexact⟩
    have hok := finishes_of_merged (isSome_of_eq_some hc)
    have hall := single_isSome (isSome_of_eq_some hs)
    obtain ⟨c', hc', hfilled⟩ := merged_filled hm hok hsize
    cases hc.symm.trans hc'
    obtain ⟨s', bs, hs', hbs, hp⟩ := single_filled hm hall hsize'
    cases hs.symm.trans hs'
    have hgaps : h.gaps fuel first = [] := by
      by_contra hne
      exact hfilled.twice hrest hne hexact.distinct
    refine ⟨forall_mem_cons.2 ⟨hall, hok⟩, hgaps, fun name hname => ?_⟩
    have hkept := hexact.kept name
    rw [if_pos hm, hfilled.names, hmem hbs hp] at hkept
    simpa [hname, hgaps] using hkept.symm
  · rintro ⟨hok, hgaps, hagree⟩
    obtain ⟨hall, hok⟩ := forall_mem_cons.1 hok
    obtain ⟨c, hc, hfilled⟩ := merged_filled hm hok hsize
    obtain ⟨s, bs, hs, hbs, hp⟩ := single_filled hm hall hsize'
    refine ⟨c, s, hc, hs, exact_of_totals hm (hfilled.nodup hgaps) (hfilled.total hgaps)
      fun name => ?_⟩
    rw [hfilled.names, hmem hbs hp]
    by_cases hname : name ∈ h.names (first ++ rest.flatten)
    · simp [hname]
    · have hname' := hagree name hname
      simpa [hname, hgaps] using hname'.symm

theorem count_names (parts : List (List D)) (name : String) :
    (h.names parts.flatten).count name = (parts.map fun docs => (h.names docs).count name).sum := by
  induction parts with
  | nil => rfl
  | cons docs parts ih =>
    rw [flatten_cons, names_append, count_append, ih, map_cons, sum_cons]

theorem exact_cut (hm : h.minDocCount ≠ 0) (hok : ∀ docs ∈ first :: rest, Finishes h fuel docs)
    (hall : Finishes h fuel (first ++ rest.flatten)) (hsize : h.room fuel first rest ≤ h.size) :
    h.MergesExactly fuel first rest ↔ h.PartsEnough first rest := by
  have hsize' := le_trans (room_all_le h fuel first rest) hsize
  obtain ⟨c, hc, hcut⟩ := merged_cut hm hok hsize
  obtain ⟨s, hs, -⟩ := merged_cut hm (fun docs hdocs => (mem_singleton.1 hdocs) ▸ hall) hsize'
  rw [merged_nil] at hs
  set all := first ++ rest.flatten
  have hpos := leastCount_pos hm
  have hcount : ∀ name, (h.names all).count name =
      ((first :: rest).map fun docs => (h.names docs).count name).sum := fun name =>
    count_names (first :: rest) name
  -- a bucket that is left has the total of what is left in the parts
  have hweight : ∀ b ∈ c.lists.bucketsList, b.count = ((first :: rest).map fun docs =>
      cut h.leastCount ((h.names docs).count b.name)).sum := fun b hb =>
    (Tally.weight_eq_total (C := cells A) hcut.nodup hb).trans (hcut.total b.name)
  have henough : ∀ b ∈ c.lists.bucketsList, b.name ∈ h.names all ∧
      h.minDocCount ≤ (h.names all).count b.name := by
    intro b hb
    have hle := Tally.sum_cut_le h.leastCount (fun docs => (h.names docs).count b.name)
      (first :: rest)
    rw [← hweight b hb, ← hcount] at hle
    have hleast := hcut.least b hb
    refine ⟨count_pos_iff.1 (by omega), ?_⟩
    rcases lt_or_gt_of_ne hm with hneg | hpos'
    · omega
    · have := leastCount_eq hpos'
      omega
  constructor
  · rintro ⟨c', s', hc', -, hexact⟩ name hname hmin
    cases hc.symm.trans hc'
    have hkept := hexact.kept name
    rw [if_neg hm] at hkept
    obtain ⟨b, hb, rfl⟩ := mem_map.1 (hkept.2 ⟨hname, hmin⟩)
    refine (Tally.sum_cut_eq_iff h.leastCount (fun docs => (h.names docs).count b.name) _).1 ?_
    rw [← hweight b hb, ← hcount]
    exact hexact.counts b hb
  · intro hparts
    have hsum : ∀ name, name ∈ h.names all →
        h.minDocCount ≤ (h.names all).count name →
        ((first :: rest).map fun docs => cut h.leastCount ((h.names docs).count name)).sum =
          (h.names all).count name := by
      intro name hname hmin
      rw [hcount]
      exact (Tally.sum_cut_eq_iff h.leastCount _ _).2 (hparts name hname hmin)
    refine ⟨c, s, hc, hs, hcut.nodup, fun b hb => ?_, fun name => ?_⟩
    · rw [hweight b hb, hsum b.name (henough b hb).1 (henough b hb).2]
    · rw [if_neg hm]
      constructor
      · intro hname
        obtain ⟨b, hb, rfl⟩ := mem_map.1 hname
        exact henough b hb
      · rintro ⟨hname, hmin⟩
        by_contra hnot
        have hzero := Tally.total_of_not_mem (C := cells A) hnot
        rw [hcut.total, hsum name hname hmin] at hzero
        exact absurd hzero (count_pos_iff.2 hname).ne'

theorem divides_parts (hall : Divides h (first ++ rest.flatten)) :
    ∀ docs ∈ first :: rest, Divides h docs := by
  intro docs hdocs h0
  have hnone := hall h0
  rw [flatMap_eq_nil_iff] at hnone ⊢
  intro d hd
  refine hnone d ?_
  rcases mem_cons.1 hdocs with rfl | hdocs
  · exact mem_append_left _ hd
  · exact mem_append_right _ (mem_flatten.2 ⟨docs, hdocs, hd⟩)

theorem finishes_iff (h : DateHistogram D A) (fuel : Nat) (first : List D) (rest : List (List D)) :
    (∀ docs ∈ (first ++ rest.flatten) :: first :: rest, Finishes h fuel docs) ↔
      Divides h (first ++ rest.flatten) ∧ (h.minDocCount = 0 →
        ∀ docs ∈ (first ++ rest.flatten) :: first :: rest, (h.loopOf fuel docs).isSome) := by
  constructor
  · intro hok
    exact ⟨(hok _ mem_cons_self).1, fun hm docs hdocs => (hok docs hdocs).2 hm⟩
  · rintro ⟨hall, hloops⟩ docs hdocs
    refine ⟨?_, fun hm => hloops hm docs hdocs⟩
    rcases mem_cons.1 hdocs with rfl | hdocs
    · exact hall
    · exact divides_parts hall docs hdocs

end DateLemmas

open DateLemmas

/--
The calculators of the parts, each finished and then merged in their order, have the buckets of all
documents with a large enough `size` if and only if `Mergeable` holds. For a `minDocCount` of 0 the
first part must have no gaps, and the gaps of the others must be those of all documents. Otherwise
each part must have no or enough documents for every bucket that is to be kept.
-/
theorem date_merge_iff (h : DateHistogram D A) (fuel : Nat) (first : List D) (rest : List (List D))
    (hsize : h.room fuel first rest ≤ h.size) :
    h.MergesExactly fuel first rest ↔ h.Mergeable fuel first rest := by
  unfold DateHistogram.Mergeable
  by_cases hm : h.minDocCount = 0
  · have hfinishes := finishes_iff h fuel first rest
    simp only [hm, forall_const] at hfinishes
    rw [if_pos hm, DateHistogram.GapsAgree, ← and_assoc]
    refine Iff.trans ?_ (and_congr_left' hfinishes)
    by_cases hrest : rest = []
    · subst hrest
      rw [exact_filled_one hm hsize, if_pos rfl]
      simp
    · rw [exact_filled_parts hm hrest hsize, if_neg hrest]
  · rw [if_neg hm]
    constructor
    · intro hexact
      have ⟨c, s, hc, hs, _⟩ := hexact
      have hall := single_isSome (isSome_of_eq_some hs)
      have hok := finishes_of_merged (isSome_of_eq_some hc)
      exact ⟨hall.1, (exact_cut hm hok hall hsize).1 hexact⟩
    · rintro ⟨hall, hparts⟩
      obtain ⟨hall, hok⟩ := forall_mem_cons.1
        ((finishes_iff h fuel first rest).2 ⟨hall, fun hzero => absurd hzero hm⟩)
      exact (exact_cut hm hok hall hsize).2 hparts

def hourly : DateHistogram (List Int) Unit where
  dates := id
  size := 100
  interval := .fixed 3600000000000
  minDocCount := 0
  minDocCount_range := by decide
  format := "epoch_millis"
  timeZone := ⟨fun _ => ⟨1970, 1, 1, 4⟩, fun _ _ _ => 0, fun _ _ => ""⟩
  extendedBounds := none
  hardBounds := none
  aggregations := ⟨(), fun _ _ => (), fun _ _ => ()⟩
  sortFunc := SortFunc.byKey fun b : Bucket Unit => b.name

/-- A part with dates in the hours 0 and 2 and a part with one in hour 1: the first part has an
empty bucket for hour 1, which is filled by the merge and then added once more. -/
theorem empty_bucket_twice :
    (hourly.merged 10 [[0], [7200000000000]] [[[3600000000000]]]).map (fun c =>
      c.lists.bucketsList.map fun b => (b.name, b.count)) =
        some [("0", 1), ("3600000", 1), ("3600000", 0), ("7200000", 1)] ∧
    (hourly.single 10 [[0], [7200000000000], [3600000000000]]).map (fun c =>
      c.lists.bucketsList.map fun b => (b.name, b.count)) =
        some [("0", 1), ("3600000", 1), ("7200000", 1)] ∧
    ¬ hourly.MergesExactly 10 [[0], [7200000000000]] [[[3600000000000]]] := by
  have hmerged : (hourly.merged 10 [[0], [7200000000000]] [[[3600000000000]]]).map (fun c =>
      c.lists.bucketsList.map fun b => (b.name, b.count)) =
        some [("0", 1), ("3600000", 1), ("3600000", 0), ("7200000", 1)] := by
    decide +kernel
  refine ⟨hmerged, by decide +kernel, ?_⟩
  rintro ⟨c, s, hc, -, hexact⟩
  rw [hc, map_some, Option.some.injEq] at hmerged
  have hnames := congrArg (List.map Prod.fst) hmerged
  rw [map_map] at hnames
  have hdistinct := hexact.distinct
  rw [show Bucket.name = Prod.fst ∘ fun b : Bucket Unit => (b.name, b.count) from rfl,
    hnames] at hdistinct
  exact absurd hdistinct (by decide)

theorem date_merge_hours : hourly.MergesExactly 10 [[0]] [[[0], [3600000000000]]] := by
  have hgaps : hourly.gaps 10 [[0]] = [] ∧ hourly.gaps 10 [[0], [3600000000000]] = [] ∧
      hourly.gaps 10 [[0], [0], [3600000000000]] = [] := by
    decide +kernel
  refine (date_merge_iff hourly 10 [[0]] [[[0], [3600000000000]]] (by decide +kernel)).2
    ⟨fun hzero => absurd hzero (by decide), ?_⟩
  rw [if_pos (by decide)]
  refine ⟨by decide +kernel, ?_⟩
  rw [if_neg (by decide)]
  refine ⟨hgaps.1, fun name _ => ?_⟩
  simp [hgaps]

end SeaSearch
