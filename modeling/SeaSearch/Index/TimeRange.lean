import SeaSearch.Wal.Recovery

/-!
# Time ranges of second-layer shards

A first-layer shard records the time range of the documents that it writes.
-/

namespace SeaSearch

open List WalMergeDocs WriteToLemmas SequentialLemmas

variable {σ ν : Type}

def Stats.outside (r : Stats) (timeMin timeMax : Int) : Prop :=
  (timeMin > 0 ∧ r.docTimeMax > 0 ∧ r.docTimeMax < timeMin) ∨
    (timeMax > 0 ∧ r.docTimeMin > 0 ∧ r.docTimeMin > timeMax)

def Stats.stops (r : Stats) (timeMin : Int) : Prop :=
  r.docTimeMin > 0 ∧ r.docTimeMin < timeMin

instance (r : Stats) (timeMin timeMax : Int) : Decidable (r.outside timeMin timeMax) :=
  inferInstanceAs (Decidable (_ ∨ _))

instance (r : Stats) (timeMin : Int) : Decidable (r.stops timeMin) :=
  inferInstanceAs (Decidable (_ ∧ _))

/-- The loop of `GetSearchers` over the shards below `i`, from the latest one on. -/
def searchersBelow (range : Nat → Stats) (timeMin timeMax : Int) : Nat → List Nat
  | 0 => []
  | i + 1 =>
    if (range i).outside timeMin timeMax then searchersBelow range timeMin timeMax i
    else if (range i).stops timeMin then [i]
    else i :: searchersBelow range timeMin timeMax i

namespace IndexShard

variable {B : Bluge σ}

def range (s : IndexShard B) (k : Nat) : Stats := ((s.shards[k]?).map fun sh => sh.stats).getD {}

/-- `GetSearchers`: the second-layer shards that are searched. -/
def getSearchers (s : IndexShard B) (timeMin timeMax : Int) : List Nat :=
  searchersBelow s.range timeMin timeMax s.shardNum

/-- A document with this timestamp is live in the second-layer shard `k`. -/
def Holds (s : IndexShard B) (k : Nat) (t : Int) : Prop :=
  ∃ id, ∃ d ∈ s.versions k id, d.timestamp = t

end IndexShard

/-- A bound that is not positive is none. -/
def InWindow (timeMin timeMax t : Int) : Prop :=
  (timeMin ≤ 0 ∨ timeMin ≤ t) ∧ (timeMax ≤ 0 ∨ t ≤ timeMax)

def NeverHidden {B : Bluge σ} (s : IndexShard B) : Prop :=
  ∀ timeMin timeMax k t, s.Holds k t → InWindow timeMin timeMax t →
    k ∈ s.getSearchers timeMin timeMax

/-- No window that contains `t` is outside of the range. -/
def Stats.Admits (r : Stats) (t : Int) : Prop :=
  (r.docTimeMax ≤ 0 ∨ t ≤ r.docTimeMax) ∧ (r.docTimeMin ≤ 1 ∨ r.docTimeMin ≤ t)

/-- A search for a window that contains `t` may stop at a shard with the range. -/
def Stats.Cuts (r : Stats) (t : Int) : Prop :=
  0 < r.docTimeMin ∧ r.docTimeMin < t ∧ (r.docTimeMax ≤ 0 ∨ r.docTimeMin < r.docTimeMax)

namespace TimeRangeLemmas

theorem mem_searchersBelow {range : Nat → Stats} {timeMin timeMax : Int} :
    k ∈ searchersBelow range timeMin timeMax n ↔ k < n ∧ ¬ (range k).outside timeMin timeMax ∧
        ∀ i, k < i → i < n → (range i).outside timeMin timeMax ∨ ¬ (range i).stops timeMin := by
  induction n with
  | zero => simp [searchersBelow]
  | succ n ih =>
    rw [searchersBelow]
    -- the shards after `k` are those below `n` and `n` itself
    have hsplit : ∀ P : Nat → Prop, k < n →
        ((∀ i, k < i → i < n + 1 → P i) ↔ P n ∧ ∀ i, k < i → i < n → P i) := by
      intro P hk
      refine ⟨fun h => ⟨h n hk (by omega), fun i hki hi => h i hki (by omega)⟩, ?_⟩
      rintro ⟨hn, h⟩ i hki hi
      rcases Nat.lt_succ_iff_lt_or_eq.mp hi with hi | rfl
      · exact h i hki hi
      · exact hn
    rcases Nat.lt_trichotomy k n with hk | rfl | hk
    · rw [hsplit _ hk]
      split
      · next hout => simp [ih, hout, hk, Nat.lt_succ_of_lt hk]
      · next hout =>
        split
        · next hstop => simp [hout, hstop, ne_of_lt hk]
        · next hstop => simp [ih, hout, hstop, hk, ne_of_lt hk, Nat.lt_succ_of_lt hk]
    · have hlast : ∀ i, k < i → i < k + 1 →
          (range i).outside timeMin timeMax ∨ ¬ (range i).stops timeMin := fun i h h' => by omega
      split
      · next hout => simp [ih, hout]
      · next hout => split <;> simpa [hout] using hlast
    · have hnot : ¬ k < n + 1 := by omega
      have hnot' : ¬ k < n := by omega
      split
      · simp [ih, hnot, hnot']
      · split
        · simp [hnot, ne_of_gt hk]
        · simp [ih, hnot, hnot', ne_of_gt hk]

end TimeRangeLemmas

open TimeRangeLemmas

section Hidden

variable {B : Bluge σ} {s : IndexShard B}

theorem mem_getSearchers {timeMin timeMax : Int} {k : Nat} :
    k ∈ s.getSearchers timeMin timeMax ↔ k < s.shardNum ∧ ¬ (s.range k).outside timeMin timeMax ∧
        ∀ i, k < i → i < s.shardNum →
          (s.range i).outside timeMin timeMax ∨ ¬ (s.range i).stops timeMin :=
  mem_searchersBelow

namespace TimeRangeLemmas

theorem admits_iff {r : Stats} {t : Int} :
    r.Admits t ↔ ∀ timeMin timeMax, InWindow timeMin timeMax t → ¬ r.outside timeMin timeMax := by
  constructor
  · rintro ⟨hmax, hmin⟩ timeMin timeMax ⟨hlo, hhi⟩ (⟨h0, h1, h2⟩ | ⟨h0, h1, h2⟩) <;> omega
  · intro h
    refine ⟨?_, ?_⟩
    · -- the window from `t` on
      have := h t 0 ⟨by omega, .inl (le_refl 0)⟩
      unfold Stats.outside at this
      omega
    · -- the window up to `t`
      have := h 0 (max t 1) ⟨.inl (le_refl 0), by omega⟩
      unfold Stats.outside at this
      omega

theorem not_cuts_iff {r : Stats} {t : Int} :
    ¬ r.Cuts t ↔ ∀ timeMin timeMax, InWindow timeMin timeMax t →
      r.outside timeMin timeMax ∨ ¬ r.stops timeMin := by
  constructor
  · intro hcut timeMin timeMax hwin
    by_contra hstop
    obtain ⟨hin, h0, h1⟩ := by simpa only [not_or, not_not] using hstop
    refine hcut ⟨h0, ?_, ?_⟩ <;> unfold InWindow at hwin <;> unfold Stats.outside at hin <;> omega
  · rintro h ⟨h0, h1, h2⟩
    -- the window that starts just after the range
    have := h (r.docTimeMin + 1) 0 ⟨by omega, .inl (le_refl 0)⟩
    unfold Stats.outside Stats.stops at this
    omega

theorem holds_lt {k : Nat} {t : Int} (h : s.Holds k t) : k < s.shardNum := by
  obtain ⟨id, d, hd, -⟩ := h
  by_contra hk
  rw [s.versions_of_le (Nat.le_of_not_lt hk)] at hd
  cases hd

theorem range_of_le {i : Nat} (h : s.shardNum ≤ i) : s.range i = {} := by
  simp [IndexShard.range, List.getElem?_eq_none (show s.shards.length ≤ i from h)]

end TimeRangeLemmas

theorem never_hidden_iff :
    NeverHidden s ↔ ∀ k t, s.Holds k t →
      (s.range k).Admits t ∧ ∀ i, k < i → ¬ (s.range i).Cuts t := by
  constructor
  · intro h k t hk
    refine ⟨admits_iff.mpr fun timeMin timeMax hwin => ?_, fun i hi => ?_⟩
    · exact (mem_getSearchers.mp (h timeMin timeMax k t hk hwin)).2.1
    · rcases lt_or_ge i s.shardNum with hin | hin
      · exact not_cuts_iff.mpr fun timeMin timeMax hwin =>
          (mem_getSearchers.mp (h timeMin timeMax k t hk hwin)).2.2 i hi hin
      · rw [range_of_le hin]
        exact fun hcut => absurd hcut.1 (lt_irrefl 0)
  · intro h timeMin timeMax k t hk hwin
    obtain ⟨hadm, hcut⟩ := h k t hk
    exact mem_getSearchers.mpr ⟨holds_lt hk, admits_iff.mp hadm timeMin timeMax hwin,
      fun i hi _ => not_cuts_iff.mp (hcut i hi) timeMin timeMax hwin⟩

end Hidden

/-- The timestamp that an operation is written with. A deletion has none, and the current
time is taken. -/
def Operation.stamp (now : Int) (o : Operation σ ν) : Int := o.fields.timestamp.getD now

def Effect.stamp : Effect σ ν → Option Int
  | .setTimestamp t => some t
  | .commit _ _ _ => none
  | .vectors _ _ _ => none

open Effect (stamp)

namespace TimeRangeLemmas

variable {B : Bluge σ} {s : IndexShard B}

theorem stats_runEffects (s : IndexShard B) (es : Effects σ ν) :
    (s.runEffects es).stats = (es.filterMap stamp).foldl Stats.record s.stats := by
  induction es generalizing s with
  | nil => rfl
  | cons e es ih =>
    rw [IndexShard.runEffects_cons, ih]
    cases e with
    | setTimestamp t => rfl
    | commit g k b => rfl
    | vectors f ins dels => rfl

theorem range_runEffects (s : IndexShard B) (es : Effects σ ν) (k : Nat) :
    (s.runEffects es).range k = s.range k := by
  induction es generalizing s with
  | nil => rfl
  | cons e es ih =>
    rw [IndexShard.runEffects_cons, ih]
    cases e with
    | setTimestamp t => simp [IndexShard.runEffect, IndexShard.range]
    | commit g j b =>
      simp only [IndexShard.runEffect, IndexShard.commit, IndexShard.range, List.getElem?_modify]
      cases s.shards[k]? with
      | none => rfl
      | some sh => by_cases hj : j = k <;> simp [hj]
    | vectors f ins dels => rfl

theorem range_updateMetadataByShard (s : IndexShard B) (k : Nat) :
    s.updateMetadataByShard.range k = if k = s.shardNum - 1 then s.stats else s.range k := by
  have hpos := s.shardNum_pos
  simp only [IndexShard.updateMetadataByShard, IndexShard.publish, IndexShard.range,
    List.getElem?_modify]
  by_cases hk : s.shardNum - 1 = k
  · have hlt : k < s.shards.length := by
      show k < s.shardNum
      omega
    simp [hk, List.getElem?_eq_getElem hlt]
  · simp [hk, Ne.symm hk]

theorem range_newShard (s : IndexShard B) (k : Nat) :
    s.newShard.range k = s.updateMetadataByShard.range k :=
  s.getD_newShard k rfl

theorem visited_addDocument (order : MapOrder σ ν) (o : Operation σ ν) :
    visited order (empty.addDocument o) = [(o.shard, [⟨o.docID, o.action, [], o.fields⟩])] := by
  have hgroups : ∀ g, order.groups [g] = [g] :=
    fun g => perm_singleton.mp (order.groups_perm _)
  have hdocs : ∀ d, order.docs [d] = [d] := fun d => perm_singleton.mp (order.docs_perm _)
  have hentries : (empty.addDocument o : WalMergeDocs σ ν).groups.entries =
      [⟨o.shard, (∅ : DocMap σ ν).insert o.docID ⟨o.docID, o.action, [], o.fields⟩⟩] := rfl
  have hdoc : ((∅ : DocMap σ ν).insert o.docID ⟨o.docID, o.action, [], o.fields⟩).entries =
      [⟨o.docID, ⟨o.docID, o.action, [], o.fields⟩⟩] := rfl
  rw [visited, hentries, hgroups, map_singleton, hdoc, hdocs]
  rfl

theorem stamps_writeToShard {env : FlushEnv σ ν} (h : writeToShard env n k ds = .ok es) :
    es.filterMap stamp = ds.map fun d => (d.build env.now).timestamp := by
  have hstamps : (ds.map fun d =>
      (.setTimestamp (d.build env.now).timestamp : Effect σ ν)).filterMap
      stamp = ds.map fun d => (d.build env.now).timestamp := by
    simp [filterMap_map, Function.comp_def, stamp]
  have hvecs : ∀ visit acts, (batchVectors visit acts : Effects σ ν).filterMap stamp = [] :=
    fun visit acts => by simp [batchVectors, filterMap_map, Function.comp_def, stamp]
  unfold writeToShard at h
  generalize (if k = shardIDNeedLatest then (n : Int) - 1 else k) = target at h
  simp only at h
  split at h
  · split at h
    · cases h
    · cases h
      rw [filterMap_append, hstamps, filterMap_cons_none rfl, hvecs, append_nil]
  · split at h
    · cases h
    · cases h
      have hother : ∀ (b : Batch σ), ((List.range (n - 1)).map fun j =>
          (.commit k j b : Effect σ ν)).filterMap stamp = [] := fun b => by
        simp [filterMap_map, Function.comp_def, stamp]
      rw [filterMap_append, filterMap_append, hstamps, filterMap_cons_none rfl, hother,
        hvecs, append_nil, append_nil]

variable {env : FlushEnv σ ν} {o : Operation σ ν}

theorem stats_applyOne (ho : o.WritePath s.shardNum) :
    (s.applyOne env o).stats = s.stats.record (o.stamp env.now) := by
  obtain ⟨hlo, hhi⟩ := WritePath_shard s.shardNum_pos ho
  obtain ⟨pre, post, b, hok, -⟩ := writeToShard_single env s.shardNum_pos hlo hhi
    [⟨o.docID, o.action, [], o.fields⟩]
  have hstamps := stamps_writeToShard hok
  have heffects : ((empty.addDocument o).writeTo env s.shardNum false).1 =
      pre ++ .commit o.shard (mainShard s.shardNum o.shard) b :: post := by
    simp [writeTo, visited_addDocument, writeGroups, hok]
  rw [IndexShard.applyOne, IndexShard.flush, stats_runEffects, heffects, hstamps]
  rfl

theorem range_applyOne (k : Nat) : (s.applyOne env o).range k = s.range k :=
  range_runEffects s _ k

theorem holds_applyOne (ho : o.WritePath s.shardNum) (h : (s.applyOne env o).Holds j t) :
    s.Holds j t ∨ (o.action = .insert ∨ o.action = .update) ∧
      j = mainShard s.shardNum o.shard ∧ t = o.stamp env.now := by
  obtain ⟨id, d, hd, rfl⟩ := h
  rw [versions_applyOne env ho] at hd
  split at hd
  · next hreach =>
    have hwrite : d = o.document → o.action = .insert ∨ o.action = .update →
        d.timestamp = o.stamp env.now := by
      rintro rfl hact
      have hts : o.fields.timestamp.isSome := by
        unfold Operation.WritePath at ho
        rcases hact with hact | hact <;> rw [hact] at ho
        · exact ho.2
        · exact ho.2.2
      obtain ⟨t, ht⟩ := Option.isSome_iff_exists.mp hts
      simp [Operation.document, Operation.stamp, ht]
    unfold Operation.keyOp at hd
    cases hact : o.action with
    | insert =>
      rw [hact] at hd
      rcases Multiset.mem_add.mp hd with hd | hd
      · exact .inl ⟨id, d, hd, rfl⟩
      · exact .inr ⟨.inl rfl, hreach.2.symm, hwrite (Multiset.mem_singleton.mp hd) (.inl hact)⟩
    | update =>
      rw [hact] at hd
      exact .inr ⟨.inr rfl, hreach.2.symm, hwrite (Multiset.mem_singleton.mp hd) (.inr hact)⟩
    | delete =>
      rw [hact] at hd
      cases hd
    | deleteVecOnly =>
      rw [hact] at hd
      exact .inl ⟨id, d, hd, rfl⟩
  · exact .inl ⟨id, d, hd, rfl⟩

end TimeRangeLemmas

def Operation.writes (o : Operation σ ν) : Prop := o.action = .insert ∨ o.action = .update

/-- An operation with the timestamp `t` stays within the recorded ranges:
* its timestamp is not zero, which would read as "not set";
* the range of its shard admits the timestamp of a document that it writes, and the
  ranges of later shards do not cut it off;
* after `SetTimestamp` the range of the first-layer shard, which the latest
  second-layer shard gets, does not cut off the documents of older shards. -/
structure WithinRanges {B : Bluge σ} (s : IndexShard B) (t : Int) (o : Operation σ ν) : Prop where
  set : t ≠ 0
  admitted : o.writes → (s.range (mainShard s.shardNum o.shard)).Admits t
  later : o.writes → ∀ i, mainShard s.shardNum o.shard < i → ¬ (s.range i).Cuts t
  older : ∀ j u, j < s.shardNum - 1 →
    (s.Holds j u ∨ o.writes ∧ j = mainShard s.shardNum o.shard ∧ u = t) →
    ¬ (s.stats.record t).Cuts u

/-- The states that document operations, `NewShard` and `UpdateMetadataByShard` reach
from a new shard. All operations meet `ok`. -/
inductive TimeRun (ν : Type) {B : Bluge σ}
    (ok : IndexShard B → Int → Operation σ ν → Prop) : IndexShard B → Prop
  | new : TimeRun ν ok (.new B)
  | write {s : IndexShard B} (env : FlushEnv σ ν) (o : Operation σ ν) :
      TimeRun ν ok s → o.WritePath s.shardNum → ok s (o.stamp env.now) o →
      TimeRun ν ok (s.applyOne env o)
  | newShard {s : IndexShard B} : TimeRun ν ok s → TimeRun ν ok s.newShard
  | updateMetadataByShard {s : IndexShard B} :
      TimeRun ν ok s → TimeRun ν ok s.updateMetadataByShard

structure TimeInv {B : Bluge σ} (s : IndexShard B) : Prop where
  now : NeverHidden s
  published : NeverHidden s.updateMetadataByShard
  inside : ∀ t, s.Holds (s.shardNum - 1) t →
    s.stats.docTimeMin ≠ 0 ∧ s.stats.docTimeMin ≤ t ∧ t ≤ s.stats.docTimeMax
  ordered : s.stats.docTimeMin ≤ s.stats.docTimeMax

namespace TimeRangeLemmas

variable {B : Bluge σ} {s s' : IndexShard B}

theorem never_hidden_congr (h : NeverHidden s) (hholds : ∀ k t, s'.Holds k t → s.Holds k t)
    (hrange : ∀ k, s'.range k = s.range k) : NeverHidden s' := by
  rw [never_hidden_iff] at h ⊢
  intro k t hk
  simp only [hrange]
  exact h k t (hholds k t hk)

theorem holds_updateMetadataByShard : s.updateMetadataByShard.Holds k t ↔ s.Holds k t := by
  simp [IndexShard.Holds]

theorem holds_newShard : s.newShard.Holds k t ↔ s.Holds k t := by
  simp [IndexShard.Holds]

theorem not_holds_of_le (hk : s.shardNum ≤ k) (t : Int) : ¬ s.Holds k t :=
  fun h => Nat.not_lt_of_le hk (holds_lt h)

variable {r : Stats} {t u : Int}

theorem record_ordered (h : r.docTimeMin ≤ r.docTimeMax) :
    (r.record t).docTimeMin ≤ (r.record t).docTimeMax := by
  grind [Stats.record]

theorem record_set (h : r.docTimeMin ≤ r.docTimeMax) (ht : t ≠ 0) :
    (r.record t).docTimeMin ≠ 0 ∧ (r.record t).docTimeMin ≤ t ∧ t ≤ (r.record t).docTimeMax := by
  grind [Stats.record]

theorem record_widens (hmin : r.docTimeMin ≠ 0) :
    (r.record t).docTimeMin ≤ r.docTimeMin ∧ r.docTimeMax ≤ (r.record t).docTimeMax := by
  grind [Stats.record]

theorem admits_of_inside (hlo : r.docTimeMin ≤ u) (hhi : u ≤ r.docTimeMax) : r.Admits u :=
  ⟨.inr hhi, .inr hlo⟩

theorem timeInv_new : TimeInv (.new B) := by
  have hnone : ∀ k t, ¬ (IndexShard.new B).Holds k t := by
    rintro k t ⟨id, d, hd, -⟩
    cases k <;> simp [IndexShard.versions, IndexShard.new] at hd
  refine ⟨?_, ?_, fun t ht => absurd ht (hnone _ t), le_refl 0⟩
  · exact fun _ _ k t hk => absurd hk (hnone k t)
  · exact fun _ _ k t hk => absurd (holds_updateMetadataByShard.mp hk) (hnone k t)

theorem timeInv_updateMetadataByShard (h : TimeInv s) : TimeInv s.updateMetadataByShard := by
  refine ⟨h.published, never_hidden_congr h.published (fun k t => holds_updateMetadataByShard.mp)
    ?_,
    fun t ht => ?_, h.ordered⟩
  · intro k
    rw [range_updateMetadataByShard s.updateMetadataByShard, range_updateMetadataByShard s,
      IndexShard.shardNum_updateMetadataByShard]
    split <;> rfl
  · rw [IndexShard.shardNum_updateMetadataByShard] at ht
    exact h.inside t (holds_updateMetadataByShard.mp ht)

theorem timeInv_newShard (h : TimeInv s) : TimeInv s.newShard := by
  have hholds : ∀ k t, s.newShard.Holds k t → s.updateMetadataByShard.Holds k t := fun k t hk =>
    holds_updateMetadataByShard.mpr (holds_newShard.mp hk)
  refine ⟨never_hidden_congr h.published hholds (range_newShard s), never_hidden_congr h.published
      (fun k t hk => hholds k t (holds_updateMetadataByShard.mp hk)) fun k => ?_,
    fun t ht => ?_, le_refl 0⟩
  · -- the new shard gets the empty range that it has
    rw [range_updateMetadataByShard s.newShard, range_newShard]
    split
    · next hk =>
      have hlast : s.shardNum ≤ k := by simp [hk]
      rw [range_of_le (by simpa using hlast)]
      rfl
    · rfl
  · rw [IndexShard.shardNum_newShard] at ht
    exact absurd (holds_newShard.mp ht) (not_holds_of_le (by omega) t)

theorem timeInv_write (h : TimeInv s) (ho : o.WritePath s.shardNum)
    (hok : WithinRanges s (o.stamp env.now) o) :
    TimeInv (s.applyOne env o) := by
  have hnum : (s.applyOne env o).shardNum = s.shardNum := shardNum_flush s env _
  have hstats : (s.applyOne env o).stats = s.stats.record (o.stamp env.now) := stats_applyOne ho
  obtain ⟨hset, hlo, hhi⟩ := record_set (t := o.stamp env.now) h.ordered hok.set
  -- the range of the first-layer shard contains the documents of the latest shard
  have hinside : ∀ t, (s.applyOne env o).Holds (s.shardNum - 1) t →
      (s.stats.record (o.stamp env.now)).docTimeMin ≤ t ∧
        t ≤ (s.stats.record (o.stamp env.now)).docTimeMax := by
    intro t ht
    rcases holds_applyOne ho ht with hold | ⟨-, -, rfl⟩
    · obtain ⟨hmin, hl, hh⟩ := h.inside t hold
      obtain ⟨hwl, hwh⟩ := record_widens (t := o.stamp env.now) hmin
      exact ⟨le_trans hwl hl, le_trans hh hwh⟩
    · exact ⟨hlo, hhi⟩
  have hrecorded : ∀ j t, (s.applyOne env o).Holds j t →
      (s.range j).Admits t ∧ ∀ i, j < i → ¬ (s.range i).Cuts t := by
    intro j t ht
    rcases holds_applyOne ho ht with hold | ⟨hw, rfl, rfl⟩
    · exact never_hidden_iff.mp h.now j t hold
    · exact ⟨hok.admitted hw, hok.later hw⟩
  refine ⟨?_, ?_, fun t ht => ?_, ?_⟩
  · refine never_hidden_iff.mpr fun j t ht => ?_
    simp only [range_applyOne]
    exact hrecorded j t ht
  · refine never_hidden_iff.mpr fun j t ht => ?_
    have ht' := holds_updateMetadataByShard.mp ht
    have hj := hnum ▸ holds_lt ht'
    obtain ⟨hadm, hcut⟩ := hrecorded j t ht'
    simp only [range_updateMetadataByShard, range_applyOne, hnum, hstats]
    refine ⟨?_, fun i hi => ?_⟩
    · split
      · next hlast =>
        obtain ⟨hl, hh⟩ := hinside t (hlast ▸ ht')
        exact admits_of_inside hl hh
      · exact hadm
    · split
      · next hlast =>
        refine hok.older j t (hlast ▸ hi) ?_
        rcases holds_applyOne ho ht' with hold | hnew
        · exact .inl hold
        · exact .inr hnew
      · exact hcut i hi
  · rw [hnum] at ht
    rw [hstats]
    exact ⟨hset, hinside t ht⟩
  · rw [hstats]
    exact record_ordered h.ordered

theorem timeInv_run (h : TimeRun ν WithinRanges s) : TimeInv s := by
  induction h with
  | new => exact timeInv_new
  | write env o _ ho hok ih => exact timeInv_write ih ho hok
  | newShard _ ih => exact timeInv_newShard ih
  | updateMetadataByShard _ ih => exact timeInv_updateMetadataByShard ih

end TimeRangeLemmas

/-- In every run that writes documents within the recorded ranges, no window of time
hides a document. -/
theorem time_pruning_sound {B : Bluge σ} {s : IndexShard B} (h : TimeRun ν WithinRanges s)
    (timeMin timeMax : Int) (k : Nat) (t : Int) (hk : s.Holds k t)
    (hwin : InWindow timeMin timeMax t) : k ∈ s.getSearchers timeMin timeMax :=
  (timeInv_run h).now timeMin timeMax k t hk hwin

namespace TimeRangeLemmas

def insertAt (id : DocID) (t : Int) : Operation Unit Unit :=
  ⟨.insert, id, shardIDNeedLatest, ⟨some t, [], ()⟩⟩

def updateAt (id : DocID) (k : Nat) (t : Int) : Operation Unit Unit :=
  ⟨.update, id, k, ⟨some t, [], ()⟩⟩

def firstShard : IndexShard (Bluge.lists Unit) :=
  ((IndexShard.new _).applyOne (refEnv Unit Unit) (insertAt "a" 100)).updateMetadataByShard.newShard

def secondShard : IndexShard (Bluge.lists Unit) :=
  (firstShard.applyOne (refEnv Unit Unit) (insertAt "b" 200)).updateMetadataByShard

theorem within_of_unset (ht : t ≠ 0) (hlast : mainShard s.shardNum o.shard = s.shardNum - 1)
    (hrange : s.range (s.shardNum - 1) = {}) (hstats : s.stats = {}) : WithinRanges s t o where
  set := ht
  admitted _ := by
    rw [hlast, hrange]
    exact ⟨.inl (le_refl 0), .inl (by decide)⟩
  later _ i hi hcut := by
    rw [range_of_le (by omega)] at hcut
    exact absurd hcut.1 (lt_irrefl 0)
  older j u _ _ hcut := by
    rw [hstats] at hcut
    -- a single instant cuts nothing off
    obtain ⟨h0, h1, h2⟩ : 0 < t ∧ t < u ∧ (t ≤ 0 ∨ t < t) := hcut
    omega

theorem timeRun_firstShard : TimeRun Unit WithinRanges firstShard :=
  .newShard (.updateMetadataByShard (.write (refEnv Unit Unit) (insertAt "a" 100) .new ⟨rfl, rfl⟩
      (within_of_unset (by decide) rfl rfl rfl)))

theorem timeRun_secondShard : TimeRun Unit WithinRanges secondShard :=
  .updateMetadataByShard (.write (refEnv Unit Unit) (insertAt "b" 200) timeRun_firstShard ⟨rfl, rfl⟩
    (within_of_unset (by decide) rfl rfl rfl))

end TimeRangeLemmas

theorem time_pruning_sound_in_order :
    secondShard.Holds 0 100 ∧ 0 ∈ secondShard.getSearchers 0 150 :=
  have hholds : secondShard.Holds 0 100 := ⟨"a", ⟨"a", 100, ()⟩, by decide, rfl⟩
  ⟨hholds, time_pruning_sound timeRun_secondShard 0 150 0 100 hholds (by unfold InWindow; decide)⟩

/-- A document of the first shard is updated after the second one has been written. Its
new timestamp is recorded for the latest shard only, and the window from 250 on does
not find it. -/
theorem updated_document_hidden :
    let s := (secondShard.applyOne (refEnv Unit Unit) (updateAt "a" 0 300)).updateMetadataByShard
    TimeRun Unit (fun _ _ (_ : Operation Unit Unit) => True) s ∧ s.Holds 0 300 ∧
      InWindow 250 0 300 ∧ 0 ∉ s.getSearchers 250 0 := by
  refine ⟨?_, ⟨"a", ⟨"a", 300, ()⟩, by decide, rfl⟩, by unfold InWindow; decide, by decide⟩
  refine .updateMetadataByShard (.write _ _ (.updateMetadataByShard (.write _ _
    (.newShard (.updateMetadataByShard (.write _ _ .new ?_ trivial))) ?_ trivial)) ?_ trivial)
  · exact ⟨rfl, rfl⟩
  · exact ⟨rfl, rfl⟩
  · exact ⟨by decide, by decide, rfl⟩

end SeaSearch
