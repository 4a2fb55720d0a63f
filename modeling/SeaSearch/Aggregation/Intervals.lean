import SeaSearch.Aggregation.AutoDateHistogram
import SeaSearch.Aggregation.DateHistogram

/-!
# Intervals and keys of the histograms

What a fixed interval does to a time, what is left of the buckets after another interval is taken,
and which interval the auto date histogram takes.
-/

namespace SeaSearch

open List AutoLemmas
open AutoDateHistogram (bucketStart)

variable {D A : Type}

/-! ## Starts of buckets -/

/-- `start` is the greatest multiple of the interval that is not above the time. -/
structure IsFloor (interval value start : Int) : Prop where
  multiple : interval ∣ start
  le : start ≤ value
  lt : value < start + interval

namespace IntervalLemmas

variable {h : AutoDateHistogram D A} {interval value : Int} {m : List (KeyedBucket A)}

theorem lt_succ_tdiv_mul (hpos : 0 < interval) (value : Int) :
    value < (value.tdiv interval + 1) * interval := by
  have heq := Int.mul_tdiv_add_tmod value interval
  have hlt := Int.tmod_lt_of_pos value hpos
  linarith [mul_comm interval (value.tdiv interval)]

theorem le_tdiv_mul_of_nonpos (hvalue : value ≤ 0) : value ≤ value.tdiv interval * interval := by
  have heq := Int.mul_tdiv_add_tmod value interval
  have hneg : 0 ≤ (-value).tmod interval := Int.tmod_nonneg interval (by omega)
  rw [Int.neg_tmod] at hneg
  linarith [mul_comm interval (value.tdiv interval)]

theorem isFloor_tdiv_iff (hpos : 0 < interval) :
    IsFloor interval value (value.tdiv interval * interval) ↔ 0 ≤ value ∨ interval ∣ value := by
  constructor
  · intro hfloor
    refine or_iff_not_imp_left.2 fun hneg => ?_
    have hle : value ≤ value.tdiv interval * interval := le_tdiv_mul_of_nonpos (not_le.1 hneg).le
    rw [le_antisymm hle hfloor.le]
    exact dvd_mul_left _ _
  · rintro (hvalue | ⟨k, rfl⟩)
    · have hle := Int.mul_tdiv_self_le (k := interval) hvalue
      have hlt := lt_succ_tdiv_mul hpos value
      rw [mul_comm] at hle
      rw [Int.add_mul, one_mul] at hlt
      exact ⟨dvd_mul_left _ _, hle, hlt⟩
    · rw [Int.mul_tdiv_cancel_left _ hpos.ne', mul_comm]
      exact ⟨dvd_mul_left _ _, le_rfl, Int.lt_add_of_pos_right _ hpos⟩

theorem tdiv_mul_stable (hpos : 0 < interval) (value : Int) :
    (value.tdiv interval * interval).tdiv interval * interval = value.tdiv interval * interval := by
  rw [Int.mul_tdiv_cancel _ hpos.ne']

theorem bucketStart_stable (hpos : 0 < interval) (value : Int) :
    bucketStart interval (bucketStart interval value) = bucketStart interval value := by
  have hday : ∀ day, day * MinimumInterval.dayNanos / MinimumInterval.dayNanos = day := fun day =>
    Int.mul_ediv_cancel _ (by decide)
  unfold bucketStart
  split
  · rw [hday, Calendar.yearStart_yearStart]
  · split
    · rw [hday, Calendar.monthStart_monthStart]
    · exact tdiv_mul_stable hpos value

theorem mem_keys_rebucketKey {k key : Int} (hk : k ∈ (h.rebucketKey interval m key).map Prod.fst) :
    k ∈ m.map Prod.fst ∧ k ≠ key ∨ k = bucketStart interval key := by
  unfold AutoDateHistogram.rebucketKey at hk
  split at hk
  next hnone =>
    refine .inl ⟨hk, fun heq => ?_⟩
    obtain ⟨e, he, hek⟩ := mem_map.1 hk
    exact absurd (find?_eq_none.1 hnone e he) (by simp [hek, heq])
  next bucket _ =>
    refine ((mem_keys_put (f := fun e => (e.1, e.2.merge h.aggregations bucket)) (fun _ => rfl)
      k).1 hk).imp (fun hk => ?_) id
    obtain ⟨e, he, rfl⟩ := mem_map.1 hk
    obtain ⟨he, hne⟩ := mem_filter.1 he
    exact ⟨mem_map_of_mem he, of_decide_eq_true hne⟩

theorem nodup_rebucketKey (hm : (m.map Prod.fst).Nodup) (key : Int) :
    ((h.rebucketKey interval m key).map Prod.fst).Nodup := by
  unfold AutoDateHistogram.rebucketKey
  split
  · exact hm
  next bucket _ =>
    exact Tally.nodup_upsert (C := AutoCalculator.cells A)
      (f := fun e => (e.1, e.2.merge h.aggregations bucket)) (fun _ => rfl) rfl
      (hm.sublist (filter_sublist.map _))

/-- A key is moved when it is visited, so what has not been moved is still to be visited. -/
theorem rebucketKeys_spec (hpos : 0 < interval) (hm : (m.map Prod.fst).Nodup) {keys : List Int}
    (htodo : ∀ k ∈ m.map Prod.fst, bucketStart interval k = k ∨ k ∈ keys) :
    sumCounts (keys.foldl (h.rebucketKey interval) m) = sumCounts m ∧
      ∀ k ∈ (keys.foldl (h.rebucketKey interval) m).map Prod.fst, bucketStart interval k = k := by
  induction keys generalizing m with
  | nil => exact ⟨rfl, fun k hk => (htodo k hk).resolve_right not_mem_nil⟩
  | cons key keys ih =>
    obtain ⟨hsum, hkeys⟩ := ih (nodup_rebucketKey hm key) fun k hk => by
      rcases mem_keys_rebucketKey hk with ⟨hk, hne⟩ | rfl
      · exact (htodo k hk).imp_right fun hmem => (mem_cons.1 hmem).resolve_left hne
      · exact .inl (bucketStart_stable hpos key)
    exact ⟨hsum.trans (sumCounts_rebucketKey hm interval key), hkeys⟩

end IntervalLemmas

open IntervalLemmas

/-- A fixed interval gives the floor of a time if and only if the time is not before 1970 or is a
multiple of the interval. What it gives is not moved again. -/
theorem fixed_floor_iff (h : DateHistogram D A) {interval : Int} (hpos : 0 < interval)
    (value : Int) :
    (h.interval = .fixed interval →
      (IsFloor interval value (h.bucketStart value) ↔ 0 ≤ value ∨ interval ∣ value) ∧
      h.bucketStart (h.bucketStart value) = h.bucketStart value) ∧
    (interval < MinimumInterval.monthNanos →
      (IsFloor interval value (bucketStart interval value) ↔ 0 ≤ value ∨ interval ∣ value) ∧
      bucketStart interval (bucketStart interval value) = bucketStart interval value) := by
  constructor
  · intro hfixed
    have hstart : ∀ v, h.bucketStart v = v.tdiv interval * interval := fun v => by
      rw [DateHistogram.bucketStart, hfixed]
    rw [hstart, hstart]
    exact ⟨isFloor_tdiv_iff hpos, tdiv_mul_stable hpos value⟩
  · intro hshort
    have hyear : interval < MinimumInterval.yearNanos := hshort.trans (by decide)
    have hstart : ∀ v, bucketStart interval v = v.tdiv interval * interval := fun v => by
      rw [bucketStart, if_neg (not_le.2 hyear), if_neg (not_le.2 hshort)]
    rw [hstart, hstart]
    exact ⟨isFloor_tdiv_iff hpos, tdiv_mul_stable hpos value⟩

theorem fixed_floor_hour :
    IsFloor 3600000000000 5000000000000 (hourly.bucketStart 5000000000000) :=
  (((fixed_floor_iff hourly (by decide) 5000000000000).1 rfl).1).2 (.inl (by decide))

/-- A minute before 1970 is put into the hour that starts with 1970. -/
theorem before_1970_above :
    hourly.bucketStart (-60000000000) = 0 ∧
      ¬ IsFloor 3600000000000 (-60000000000) (hourly.bucketStart (-60000000000)) :=
  ⟨by decide, fun hfloor => absurd hfloor.le (by decide)⟩

/-- Whatever the order and whatever else is visited, the loop over the map keeps the sum of the
counts, and every key that it leaves is the start of its own bucket. -/
theorem rebucket_conserves (h : AutoDateHistogram D A) {interval : Int}
    (hinterval : interval ∈ h.intervals) {m : List (KeyedBucket A)}
    (hm : (m.map Prod.fst).Nodup) :
    sumCounts (h.rebucket interval m) = sumCounts m ∧
      ∀ k ∈ (h.rebucket interval m).map Prod.fst, bucketStart interval k = k :=
  rebucketKeys_spec (intervals_positive hinterval) hm fun _ hk => .inr (h.visits_all _ hk)

/-- Four buckets from seconds on, with keys as names. -/
def fourBuckets : AutoDateHistogram Unit Unit where
  size := 4
  minimumInterval := .second
  termsSize := 1000
  format := toString
  aggregations := ⟨(), fun _ _ => (), fun _ _ => ()⟩
  visits := id
  visits_all := List.Subset.refl

/-- Days of February and of March 2024 come into the buckets of their months. -/
theorem rebucket_conserves_months :
    let m : List (KeyedBucket Unit) := [(1709164800000000000, ⟨"a", 2, ()⟩),
      (1709251200000000000, ⟨"b", 3, ()⟩), (1706745600000000000, ⟨"c", 1, ()⟩)]
    let monthly := fourBuckets.rebucket MinimumInterval.monthNanos m
    sumCounts monthly = 6 ∧ monthly.map Prod.fst = [1709251200000000000, 1706745600000000000] :=
  have hmonth : MinimumInterval.monthNanos ∈ fourBuckets.intervals := by decide
  ⟨(rebucket_conserves fourBuckets hmonth (by decide)).1, by decide⟩

/-! ## The interval of the auto date histogram -/

/-- The first interval from an index on that, times `termsSize`, covers the distance. -/
structure FirstCover (h : AutoDateHistogram D A) (minValue maxValue : Int) (start index : Nat) :
    Prop where
  start_le : start ≤ index
  listed : index < h.intervals.length
  covers : maxValue - minValue ≤ h.interval index * h.termsSize
  first : ∀ i, start ≤ i → i < index → h.interval i * h.termsSize < maxValue - minValue

/-- The interval at which the first loop should stop: the first one that covers the distance, or
else the last one. -/
def Chosen (h : AutoDateHistogram D A) (minValue maxValue : Int) (start index : Nat) : Prop :=
  FirstCover h minValue maxValue start index ∨ index + 1 = h.intervals.length ∧
    ∀ i, start ≤ i → i < h.intervals.length → h.interval i * h.termsSize < maxValue - minValue

namespace IntervalLemmas

variable {h : AutoDateHistogram D A} {minValue maxValue : Int} {fuel start index : Nat}
  {intervals : List Int}

theorem raise_ge {index' : Nat} (hraise : h.raise minValue maxValue intervals index = some index') :
    index ≤ index' := by
  induction intervals generalizing index with
  | nil => cases hraise
  | cons interval intervals ih =>
    rw [AutoDateHistogram.raise] at hraise
    split at hraise
    · exact Nat.le_of_succ_le (ih hraise)
    · exact (Option.some.inj hraise).le

section Raise

variable (hmin : -2 ^ 63 ≤ minValue) (hmax : maxValue < 2 ^ 63) (hsize : 0 ≤ h.termsSize)

include hmin hmax hsize

/-- A sum that is below the last time does not overflow. -/
theorem raise_short (hlt : start < h.intervals.length)
    (hshort : h.interval start * h.termsSize < maxValue - minValue) :
    h.raise minValue maxValue (h.intervals.drop start) start =
      h.raise minValue maxValue (h.intervals.drop (start + 1)) (start + 1) := by
  have hnonneg := Int.mul_nonneg (interval_pos hlt).le hsize
  have hcons : h.intervals.drop start = h.interval start :: h.intervals.drop (start + 1) := by
    rw [drop_eq_getElem_cons hlt, AutoDateHistogram.interval, getD_eq_getElem _ _ hlt]
  rw [hcons, AutoDateHistogram.raise, Int.add_bmod_bmod, Int.bmod_eq_of_le (by omega) (by omega),
    if_pos (by omega)]

theorem raise_shorts (hle : start ≤ index) (hlisted : index ≤ h.intervals.length)
    (hshort : ∀ i, start ≤ i → i < index →
      h.interval i * h.termsSize < maxValue - minValue) :
    h.raise minValue maxValue (h.intervals.drop start) start =
      h.raise minValue maxValue (h.intervals.drop index) index := by
  induction index, hle using Nat.le_induction with
  | base => rfl
  | succ index hle ih =>
    rw [ih (Nat.le_of_succ_le hlisted) fun i hi hlt => hshort i hi (Nat.lt_succ_of_lt hlt)]
    exact raise_short hmin hmax hsize hlisted (hshort index hle (Nat.lt_succ_self index))

/-- At the first interval that covers the distance the sum may overflow. -/
theorem raise_cover (hcover : FirstCover h minValue maxValue start index) :
    h.raise minValue maxValue (h.intervals.drop start) start = some index ↔
      maxValue ≤ Int.bmod (minValue + h.interval index * h.termsSize) (2 ^ 64) := by
  have hcons : h.intervals.drop index = h.interval index :: h.intervals.drop (index + 1) := by
    rw [drop_eq_getElem_cons hcover.listed, AutoDateHistogram.interval,
      getD_eq_getElem _ _ hcover.listed]
  rw [raise_shorts hmin hmax hsize hcover.start_le hcover.listed.le hcover.first, hcons,
    AutoDateHistogram.raise, Int.add_bmod_bmod]
  split
  · next hlt =>
    refine iff_of_false (fun hraise => ?_) (not_le.2 hlt)
    have hle := raise_ge hraise
    omega
  · next hge => exact iff_of_true rfl (not_lt.1 hge)

theorem raise_none (hle : start ≤ h.intervals.length)
    (hshort : ∀ i, start ≤ i → i < h.intervals.length →
      h.interval i * h.termsSize < maxValue - minValue) :
    h.raise minValue maxValue (h.intervals.drop start) start = none := by
  rw [raise_shorts hmin hmax hsize hle le_rfl hshort, drop_length, AutoDateHistogram.raise]

end Raise

theorem loopValues_ends {interval v : Int} (hpos : 0 < interval) (hlow : -2 ^ 63 ≤ v)
    (hhigh : maxValue + interval ≤ 2 ^ 63) (hfuel : (maxValue - v).toNat < fuel) :
    (loopValues (fun value => Int.bmod (value + interval) (2 ^ 64)) maxValue fuel v).isSome := by
  induction fuel generalizing v with
  | zero => omega
  | succ fuel ih =>
    rw [loopValues]
    split
    · rw [Option.isSome_map, Int.bmod_eq_of_le (by omega) (by omega)]
      exact ih (by omega) (by omega)
    · rfl

theorem settle_listed {last : Nat} {m m' : List (KeyedBucket A)}
    (hsettle : h.settle fuel minValue maxValue intervals index m = some (last, m')) :
    last < index + intervals.length := by
  induction intervals generalizing index m with
  | nil => cases hsettle
  | cons interval intervals ih =>
    cases intervals with
    | nil =>
      obtain ⟨m₁, -, heq⟩ := Option.map_eq_some_iff.1 hsettle
      cases heq
      exact Nat.lt_succ_self _
    | cons interval' intervals =>
      obtain ⟨m₁, -, hrest⟩ := Option.bind_eq_some_iff.1 hsettle
      split at hrest
      · cases hrest
        exact Nat.lt_add_of_pos_right (Nat.succ_pos _)
      · have hlt := ih hrest
        simp only [length_cons] at hlt ⊢
        omega

theorem settle_ends
    (hfill : ∀ interval ∈ intervals, ∀ m, (h.replenish fuel interval minValue maxValue m).isSome)
    (hne : intervals ≠ []) (index : Nat) (m : List (KeyedBucket A)) :
    (h.settle fuel minValue maxValue intervals index m).isSome := by
  induction intervals generalizing index m with
  | nil => exact absurd rfl hne
  | cons interval intervals ih =>
    obtain ⟨hfirst, hrest⟩ := forall_mem_cons.1 hfill
    obtain ⟨m₁, hm₁⟩ := Option.isSome_iff_exists.1 (hfirst m)
    cases intervals with
    | nil => rw [AutoDateHistogram.settle, hm₁, Option.map_some, Option.isSome_some]
    | cons interval' intervals =>
      rw [AutoDateHistogram.settle, hm₁, Option.bind_some]
      split
      · rfl
      · exact ih hrest (cons_ne_nil _ _) _ _

theorem replenish_ends {interval : Int} (hpos : 0 < interval) (hlow : -2 ^ 63 ≤ minValue)
    (hhigh : maxValue + interval ≤ 2 ^ 63) (hfuel : (maxValue - minValue).toNat < fuel)
    (m : List (KeyedBucket A)) : (h.replenish fuel interval minValue maxValue m).isSome := by
  rw [AutoDateHistogram.replenish]
  split
  · rw [Option.isSome_map]
    exact loopValues_ends hpos hlow hhigh hfuel
  · rfl

end IntervalLemmas

/-- The first loop stops at the first interval that covers the distance, or else at the last one, if
and only if some interval covers it and the sum for the first such interval is, as an `int64`
number, not below the last time. The second loop only stops in the list, and it stops if no time of
its inner loops overflows. -/
theorem interval_choice (h : AutoDateHistogram D A) {minValue maxValue : Int} {start : Nat}
    (hmin : -2 ^ 63 ≤ minValue) (hmax : maxValue < 2 ^ 63) (hsize : 0 ≤ h.termsSize) :
    ((∃ index, Chosen h minValue maxValue start index ∧
        h.raise minValue maxValue (h.intervals.drop start) start = some index) ↔
      ∃ index, FirstCover h minValue maxValue start index ∧
        maxValue ≤ Int.bmod (minValue + h.interval index * h.termsSize) (2 ^ 64)) ∧
    ∀ index < h.intervals.length, ∀ fuel m,
      (∀ last m', h.settle fuel minValue maxValue (h.intervals.drop index) index m =
        some (last, m') → last < h.intervals.length) ∧
      ((∀ interval ∈ h.intervals, maxValue + interval ≤ 2 ^ 63) →
        (maxValue - minValue).toNat < fuel →
        (h.settle fuel minValue maxValue (h.intervals.drop index) index m).isSome) := by
  refine ⟨⟨?_, ?_⟩, fun index hindex fuel m => ⟨fun last m' hsettle => ?_, fun hhigh hfuel => ?_⟩⟩
  · rintro ⟨index, hcover | ⟨-, hshort⟩, hraise⟩
    · exact ⟨index, hcover, (raise_cover hmin hmax hsize hcover).1 hraise⟩
    · have hstart : start ≤ h.intervals.length := by
        by_contra hlt
        rw [drop_eq_nil_of_le (not_le.1 hlt).le] at hraise
        cases hraise
      rw [raise_none hmin hmax hsize hstart hshort] at hraise
      cases hraise
  · rintro ⟨index, hcover, hsum⟩
    exact ⟨index, .inl hcover, (raise_cover hmin hmax hsize hcover).2 hsum⟩
  · have hlt := settle_listed hsettle
    rw [length_drop] at hlt
    omega
  · refine settle_ends (fun interval hinterval => ?_) (by simpa using hindex) index m
    have hlisted := mem_of_mem_drop hinterval
    exact replenish_ends (intervals_positive hlisted) hmin (hhigh interval hlisted) hfuel

theorem interval_choice_minute :
    ∃ index, Chosen fourBuckets 0 2000000000000 0 index ∧
      fourBuckets.raise 0 2000000000000 fourBuckets.intervals 0 = some index := by
  have hcover : FirstCover fourBuckets 0 2000000000000 0 1 :=
    ⟨by decide, by decide, by decide, fun i _ hi => by interval_cases i; decide⟩
  exact (interval_choice fourBuckets (by decide) (by decide) (by decide)).1.2
    ⟨1, hcover, by decide⟩

/-- The sums overflow, and the loop leaves the list, although years times `termsSize` cover the
distance. -/
theorem raise_past_end :
    fourBuckets.raise (-2 ^ 63) (2 ^ 63 - 1) fourBuckets.intervals 0 = none ∧
      (2 ^ 63 - 1) - (-2 ^ 63) ≤ fourBuckets.interval 16 * fourBuckets.termsSize := by
  decide

end SeaSearch
