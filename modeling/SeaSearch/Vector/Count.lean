import SeaSearch.Vector.Faithful

/-!
# The number of vectors in an HNSW segment

`Batch` returns by how much the number of vectors changes, and `HNSWIndex` adds this to its count.
-/

namespace SeaSearch

open List Versions

variable {α : Type} {d : Nat}

/-- A document of the loop in `countDelta`. -/
def SegmentMemory.deltaOf (m : SegmentMemory α d) (docID count : Int) : Int :=
  match m.cache.docIDIndex docID with
  | some _ => if count < 0 then count else 0
  | none =>
    match m.docTS docID with
    | some _ => if count > 0 then count else 0
    | none =>
      match m.index with
      | none => if count > 0 then count else 0
      | some index =>
        if docID ∈ index.map HNSWDocRow.id ∧ count < 0 then count
        else if docID ∉ index.map HNSWDocRow.id ∧ count > 0 then count
        else 0

/-- The map `docIDs` of `countDelta`. -/
def batchCounts (addIDs delIDs : List Int) : Int → Option Int :=
  addIDs.foldl (fun docIDs docID => Function.update docIDs docID (some 1))
    (delIDs.foldl (fun docIDs docID => Function.update docIDs docID (some (-1))) fun _ => none)

/-- `countDelta`, where `o` is the order of the loop over the map. -/
def SegmentMemory.countDelta (m : SegmentMemory α d) (o : Shuffle Int) (addIDs delIDs : List Int) :
    Int :=
  (o.keys (delIDs ++ addIDs)).foldl
    (fun delta docID => delta + m.deltaOf docID ((batchCounts addIDs delIDs docID).getD 0)) 0

/-- What the `Batch` that holds the mutex will return. -/
def HNSWSystem.delta (s : HNSWSystem α d) (o : Shuffle Int) : Int :=
  match s.batching with
  | none => 0
  | some b => s.memory.countDelta o b.call.addIDs b.call.delIDs

/-- The states of a segment, with the sum of what `Batch` has returned. A segment is closed
and opened again with the mutex, so not while `Batch` holds it. -/
inductive CountedRun : HNSWSystem α d → Int → Prop
  | new : CountedRun {} 0
  | batchReturn {s : HNSWSystem α d} {count : Int} (o : Shuffle Int) :
      CountedRun s count → CountedRun (s.step .batchReturn) (count + s.delta o)
  | reload {s : HNSWSystem α d} {count : Int} :
      s.batching = none → CountedRun s count → CountedRun (s.step .crash) count
  | other {s : HNSWSystem α d} {count : Int} (e : HNSWEvent α d) :
      e ≠ .batchReturn → e ≠ .crash → CountedRun s count → CountedRun (s.step e) count

/-- The documents that have a vector after the calls of `Batch`. -/
def HNSWSystem.live (s : HNSWSystem α d) : Set Int := {docID | (replay s.calls docID).isSome}

open HNSWSystem (delta live pendingCall step)

/-- The count is the number of documents with a vector, and they are those of the segment. -/
structure CountExact (s : HNSWSystem α d) (count : Int) : Prop where
  finite : s.live.Finite
  count : count = s.live.ncard
  content : s.memory.loaded → ∀ docID, (s.content docID).isSome ↔ docID ∈ s.live

namespace CountLemmas

variable {c : BatchCall α} {count : Int} {e : HNSWEvent α d}

def holds (m : SegmentMemory α d) (docID : Int) : Bool :=
  match m.cache.docIDIndex docID with
  | some _ => true
  | none =>
    match m.docTS docID with
    | some _ => false
    | none => docID ∈ (m.index.getD []).map HNSWDocRow.id

theorem deltaOf_eq (m : SegmentMemory α d) (docID count : Int) :
    m.deltaOf docID count =
      if holds m docID then if count < 0 then count else 0 else if count > 0 then count else 0 := by
  unfold SegmentMemory.deltaOf holds
  cases m.cache.docIDIndex docID with
  | some i => rfl
  | none =>
    cases m.docTS docID with
    | some ts => rfl
    | none =>
      cases m.index with
      | none => rfl
      | some index =>
        by_cases hkey : docID ∈ index.map HNSWDocRow.id
        · simp only [Option.getD_some, hkey, true_and, not_true, false_and, if_false, decide_true]
          rfl
        · simp only [Option.getD_some, hkey, not_false_iff, true_and, false_and, if_false,
            decide_false]
          rfl

theorem holds_iff (h : SegmentInv s L m b) (hloaded : s.memory.loaded = true) (docID : Int) :
    holds s.memory docID = true ↔ (replay s.calls docID).isSome := by
  have hfaithful := h.faithful
  have hcontent := hfaithful.content hloaded docID
  rw [HNSWSystem.content] at hcontent
  rw [← hcontent, holds]
  have hcache : (s.memory.cache.get docID).isSome = (s.memory.cache.docIDIndex docID).isSome :=
    Option.isSome_map
  cases hts : s.memory.docTS docID with
  | some ts =>
    dsimp only
    rw [hcache]
    cases s.memory.cache.docIDIndex docID <;> rfl
  | none =>
    -- without a timestamp there is no vector in the cache
    have hnone : s.memory.cache.get docID = none := by
      have hentry := (h.loaded hloaded).entry docID
      rw [entryOf, current_of_last (SegmentInv.last_of_docTS (h.loaded hloaded) hts)] at hentry
      exact congrArg Prod.snd hentry
    rw [hnone] at hcache
    cases hindex : s.memory.cache.docIDIndex docID with
    | some i =>
      rw [hindex] at hcache
      cases hcache
    | none =>
      rw [hfaithful.indexed hloaded docID hts, docVector, Option.isSome_map]
      exact decide_eq_true_iff.trans isSome_lookup.symm

theorem foldl_update_const (ids : List Int) (f : Int → Option Int) (v : Int) (docID : Int) :
    ids.foldl (fun f id => Function.update f id (some v)) f docID =
      if docID ∈ ids then some v else f docID := by
  induction ids generalizing f with
  | nil => simp
  | cons id ids ih =>
    rw [foldl_cons, ih]
    by_cases hmem : docID ∈ ids
    · simp [hmem]
    · by_cases heq : docID = id
      · simp [heq]
      · simp [hmem, heq]

theorem batchCounts_eq (addIDs delIDs : List Int) (docID : Int) :
    batchCounts addIDs delIDs docID =
      if docID ∈ addIDs then some 1 else if docID ∈ delIDs then some (-1) else none := by
  rw [batchCounts, foldl_update_const, foldl_update_const]

theorem isSome_replayCall (hlen : c.addIDs.length = c.vectors.length)
    (content : Int → Option (List α)) (docID : Int) :
    (replayCall content c docID).isSome ↔
      docID ∈ c.addIDs ∨ docID ∉ c.delIDs ∧ (content docID).isSome := by
  have hadds : ∀ (adds : List (Int × List α)) (f : Int → Option (List α)),
      (adds.foldl (fun (g : Int → Option (List α)) x => Function.update g x.1 (some x.2)) f
          docID).isSome ↔
        docID ∈ adds.map Prod.fst ∨ (f docID).isSome := by
    intro adds
    induction adds with
    | nil => simp
    | cons x adds ih =>
      intro f
      rw [foldl_cons, ih]
      by_cases heq : docID = x.1
      · simp [heq]
      · simp [heq]
  rw [replayCall, hadds, map_fst_zip (le_of_eq hlen)]
  by_cases hdel : docID ∈ c.delIDs <;> simp [hdel]

theorem sum_changes {keys old new : Finset Int} (h : ∀ k ∉ keys, k ∈ new ↔ k ∈ old) :
    ∑ k ∈ keys, ((if k ∈ new then 1 else 0) - (if k ∈ old then 1 else 0) : Int) =
      new.card - old.card := by
  have hrest : new \ keys = old \ keys := by
    ext k
    rw [Finset.mem_sdiff, Finset.mem_sdiff]
    exact and_congr_left (h k)
  have hcard : ∀ s : Finset Int, (∑ k ∈ keys, if k ∈ s then 1 else 0 : Int) =
      s.card - (s \ keys).card := by
    intro s
    rw [Finset.sum_ite_mem, Finset.sum_const, Finset.inter_comm]
    have := Finset.card_inter_add_card_sdiff s keys
    simp only [nsmul_eq_mul, mul_one]
    omega
  rw [Finset.sum_sub_distrib, hcard, hcard, hrest]
  omega

theorem foldl_add_eq_sum (l : List Int) (f : Int → Int) (a : Int) :
    l.foldl (fun acc x => acc + f x) a = a + (l.map f).sum := by
  induction l generalizing a with
  | nil => simp
  | cons x l ih => simp [ih, add_assoc]

theorem sum_keys (o : Shuffle Int) (ids : List Int) (f : Int → Int) :
    ((o.keys ids).map f).sum = ∑ k ∈ ids.toFinset, f k := by
  have hset : ids.dedup.toFinset = ids.toFinset := by
    ext k
    simp
  rw [Shuffle.keys, ((o.perm ids.dedup).map f).sum_eq, ← sum_toFinset f (nodup_dedup ids), hset]

variable {s : HNSWSystem α d}

theorem countDelta_eq {content : Int → Option (List α)} (hlen : c.addIDs.length = c.vectors.length)
    (hholds : ∀ docID, holds m docID = true ↔ (content docID).isSome) (o : Shuffle Int)
    {old new : Finset Int} (hold : ∀ docID, docID ∈ old ↔ (content docID).isSome)
    (hnew : ∀ docID, docID ∈ new ↔ (replayCall content c docID).isSome) :
    m.countDelta o c.addIDs c.delIDs = new.card - old.card := by
  have hmem : ∀ k, k ∈ new ↔ k ∈ c.addIDs ∨ k ∉ c.delIDs ∧ k ∈ old := by
    intro k
    rw [hnew, isSome_replayCall hlen, hold]
  have hsame : ∀ k ∉ (c.delIDs ++ c.addIDs).toFinset, k ∈ new ↔ k ∈ old := by
    intro k hk
    rw [mem_toFinset, mem_append, not_or] at hk
    rw [hmem]
    simp [hk.1, hk.2]
  rw [SegmentMemory.countDelta, foldl_add_eq_sum, zero_add, sum_keys, ← sum_changes hsame]
  refine Finset.sum_congr rfl fun k hk => ?_
  rw [mem_toFinset, mem_append] at hk
  rw [deltaOf_eq, batchCounts_eq]
  have hk' : holds m k = true ↔ k ∈ old := (hholds k).trans (hold k).symm
  by_cases hadd : k ∈ c.addIDs
  · by_cases hin : k ∈ old <;> simp [hmem, hadd, hin, hk']
  · have hdel : k ∈ c.delIDs := hk.resolve_right hadd
    by_cases hin : k ∈ old <;> simp [hmem, hadd, hdel, hin, hk']

structure CountInv (s : HNSWSystem α d) (count : Int) : Prop where
  segment : ∃ L m b, SegmentInv s L m b
  lengths : ∀ b, s.batching = some b → b.call.addIDs.length = b.call.vectors.length
  finite : s.live.Finite
  count : count = s.live.ncard

theorem CountInv.same (h : CountInv s count) (hcalls : (s.step e).calls = s.calls)
    (hlengths : ∀ b, (s.step e).batching = some b → b.call.addIDs.length = b.call.vectors.length) :
    CountInv (s.step e) count := by
  obtain ⟨L, m, b, hseg⟩ := h.segment
  have hlive : (s.step e).live = s.live := by rw [live, live, hcalls]
  refine ⟨hseg.step e, hlengths, ?_, ?_⟩
  · rw [hlive]
    exact h.finite
  · rw [hlive]
    exact h.count

theorem length_of_changes {changes : List (Int × Option (List.Vector α d))}
    (h : c.changes d = some changes) : c.addIDs.length = c.vectors.length := by
  rw [BatchCall.changes] at h
  split at h
  · cases h
  · next hlen => exact not_not.1 hlen

theorem step_other (hreturn : e ≠ .batchReturn) (hcrash : e ≠ .crash) :
    (s.step e).calls = s.calls ∧ ∀ b, (s.step e).batching = some b →
      s.batching = some b ∨ b.call.addIDs.length = b.call.vectors.length := by
  cases e with
  | batch call =>
    rw [step]
    split
    case h_1 changes _ _ hchanges =>
      refine ⟨rfl, fun b hb => .inr ?_⟩
      cases hb
      exact length_of_changes hchanges
    case h_2 => exact ⟨rfl, fun b hb => .inl hb⟩
  | batchReturn => exact absurd rfl hreturn
  | crash => exact absurd rfl hcrash
  | _ =>
    rw [step]
    split <;> exact ⟨rfl, fun b hb => .inl hb⟩

theorem CountInv.other (h : CountInv s count) (hreturn : e ≠ .batchReturn) (hcrash : e ≠ .crash) :
    CountInv (s.step e) count := by
  obtain ⟨hcalls, hbatching⟩ := step_other (s := s) hreturn hcrash
  exact h.same hcalls fun b hb => (hbatching b hb).elim (h.lengths b) id

theorem CountInv.reload (h : CountInv s count) (hb : s.batching = none) :
    CountInv (s.step .crash) count :=
  h.same (by simp [step, pendingCall, hb]) nofun

theorem CountInv.batchReturn (h : CountInv s count) (o : Shuffle Int) :
    CountInv (s.step .batchReturn) (count + s.delta o) := by
  obtain ⟨L, m, b, hseg⟩ := h.segment
  cases hb : s.batching with
  | none =>
    rw [delta, hb, add_zero]
    exact h.same (by simp [step, pendingCall, hb]) nofun
  | some batching =>
    have hloaded : s.memory.loaded = true := by
      cases hl : s.memory.loaded with
      | true => rfl
      | false => cases hb.symm.trans (hseg.unloaded hl).batching
    have hlen := h.lengths batching hb
    have hreplay : replay (s.step .batchReturn).calls =
        replayCall (replay s.calls) batching.call := by
      simp [step, pendingCall, hb, replay]
    have hlive : ∀ docID, docID ∈ (s.step .batchReturn).live ↔
        (replayCall (replay s.calls) batching.call docID).isSome := by
      intro docID
      rw [← hreplay]
      exact Iff.rfl
    have hfinite : (s.step .batchReturn).live.Finite := by
      refine (h.finite.union batching.call.addIDs.finite_toSet).subset fun docID hdoc => ?_
      rw [hlive, isSome_replayCall hlen] at hdoc
      exact hdoc.elim .inr fun hold => .inl hold.2
    refine ⟨hseg.step .batchReturn, nofun, hfinite, ?_⟩
    have hdelta : s.delta o = hfinite.toFinset.card - h.finite.toFinset.card := by
      rw [delta, hb]
      exact countDelta_eq hlen (holds_iff hseg hloaded) o
        (fun docID => h.finite.mem_toFinset) fun docID => hfinite.mem_toFinset.trans (hlive docID)
    rw [h.count, hdelta, Set.ncard_eq_toFinset_card _ h.finite,
      Set.ncard_eq_toFinset_card _ hfinite]
    omega

theorem countInv_run (h : CountedRun s count) : CountInv s count := by
  induction h with
  | new =>
    have hlive : ({} : HNSWSystem α d).live = ∅ := by
      ext docID
      simp [live, replay]
    exact ⟨⟨0, 0, 0, SegmentInv.init⟩, by simp, hlive ▸ Set.finite_empty, by simp [hlive]⟩
  | batchReturn o _ ih => exact ih.batchReturn o
  | reload hb _ ih => exact ih.reload hb
  | other e hreturn hcrash _ ih => exact ih.other hreturn hcrash

end CountLemmas

open CountLemmas

/-- In every state that calls of `Batch`, the parts of `BuildHNSW` and reloads lead to, the sum
of what the calls have returned is the number of documents with a vector. -/
theorem count_exact {s : HNSWSystem α d} {count : Int} (h : CountedRun s count) :
    CountExact s count := by
  have hinv := countInv_run h
  obtain ⟨L, m, b, hseg⟩ := hinv.segment
  refine ⟨hinv.finite, hinv.count, fun hloaded docID => ?_⟩
  rw [hseg.faithful.content hloaded docID]
  exact Iff.rfl

namespace CountLemmas

def repeated : HNSWSystem Unit 0 :=
  (({} : HNSWSystem Unit 0).step (.load ⟨⟨id, .refl⟩, ⟨id, .refl⟩, ⟨id, .refl⟩⟩ .hnsw)).step
    (.batch ⟨[5, 5], [[], []], [7]⟩)

theorem repeated_run : CountedRun (repeated.step .batchReturn) 1 := by
  have hdelta : 0 + repeated.delta ⟨id, .refl⟩ = 1 := by decide
  exact hdelta ▸ .batchReturn ⟨id, .refl⟩ (.other _ nofun nofun (.other _ nofun nofun .new))

end CountLemmas

theorem count_exact_repeated :
    CountedRun (repeated.step .batchReturn) 1 ∧ CountExact (repeated.step .batchReturn) 1 :=
  ⟨repeated_run, count_exact repeated_run⟩

end SeaSearch
