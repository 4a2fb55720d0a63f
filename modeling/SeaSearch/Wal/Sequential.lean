import SeaSearch.Wal.WriteTo

/-!
# A merged flush and the entries one at a time

A flush writes once what the first and the last action of a document amount to, shard group by shard
group in any order. This module compares it with applying the same operations one after the other.
-/

namespace SeaSearch

open List KeyedBag WalMergeDocs

variable {σ ν : Type}

def Operation.document (o : Operation σ ν) : Document σ :=
  ⟨o.docID, o.fields.timestamp.getD 0, o.fields.source⟩

/-- The operations that `CreateDocument`, `CreateDocuments`, `UpdateDocument`,
`DeleteDocument` and `DeleteDocuments` produce on a shard with `n` second-layer
shards: a document that was found is updated or deleted in its shard, and
everything else goes to the latest shard. -/
def Operation.WritePath (n : Nat) (o : Operation σ ν) : Prop :=
  match o.action with
  | .insert => o.shard = shardIDNeedLatest ∧ o.fields.timestamp.isSome
  | .update => 0 ≤ o.shard ∧ o.shard < n ∧ o.fields.timestamp.isSome
  | .delete => 0 ≤ o.shard ∧ o.shard < n
  | .deleteVecOnly => o.shard = shardIDNeedLatest

def Operation.keyOp (o : Operation σ ν) : KeyOp (Document σ) :=
  match o.action with
  | .insert => .add o.document
  | .update => .set o.document
  | .delete => .clear
  | .deleteVecOnly => .keep

def IndexShard.applyOne {B : Bluge σ} (env : FlushEnv σ ν) (s : IndexShard B)
    (o : Operation σ ν) : IndexShard B :=
  s.flush env (WalMergeDocs.empty.addDocument o)

def IndexShard.sequential {B : Bluge σ} (env : FlushEnv σ ν) (s : IndexShard B)
    (ops : Ops σ ν) : IndexShard B :=
  ops.foldl (fun s o => s.applyOne env o) s

open IndexShard (docs_ext flush latestShardID new)

/-- The operations on an id that reach the shard `j` of `n`. -/
def reaching (n : Nat) (ops : Ops σ ν) (j : Nat) (id : DocID) :
    Ops σ ν :=
  ops.filter fun o => o.docID = id ∧ mainShard n o.shard = j

def Operation.direct (o : Operation σ ν) : Bool := o.shard ≠ shardIDNeedLatest

open Operation (direct document keyOp)

/-- The operations on an id all ask for the latest shard, which holds the
documents `m` of the id. They can be merged when nothing is inserted, when they
are a single insert, or when they are one insert after vector deletions of an
id that the shard does not hold. -/
def MergeableAlone (m : Docs σ) (pend : Ops σ ν) : Prop :=
  (∀ o ∈ pend, o.action = .deleteVecOnly) ∨
  (∃ o, pend = [o] ∧ o.action = .insert) ∨
  (m = 0 ∧ ∃ vs o, pend = vs ++ [o] ∧ vs ≠ [] ∧ (∀ v ∈ vs, v.action = .deleteVecOnly) ∧
    o.action = .insert)

/-- Some operation names the latest shard, and `last` is the last that does. The
operations `pend` that ask for the latest shard can be merged beside it when
they write nothing, or write in its place the document that `last` writes. -/
def MergeableBeside (pend : Ops σ ν) (last : Operation σ ν) : Prop :=
  (∀ o, pend.getLast? = some o → o.action = .deleteVecOnly) ∨
  (last.action = .update ∧ ∃ v vs o, pend = v :: vs ++ [o] ∧ v.action = .deleteVecOnly ∧
    o.action = .insert ∧ o.document = last.document)

/-- The operations `ws` on one id that reach the latest shard give the same in
one flush as one at a time. If some of them name the shard, every insert is
followed by one that does. -/
def Mergeable (m : Docs σ) (ws : Ops σ ν) : Prop :=
  match (ws.filter direct).getLast? with
  | none => MergeableAlone m ws
  | some last =>
    (∀ pre o post, ws = pre ++ o :: post → o.action = .insert → ∃ l ∈ post, l.direct = true) ∧
      MergeableBeside (ws.filter fun o => !o.direct) last

def mergedOp (now : Int) (os : Ops σ ν) : KeyOp (Document σ) :=
  match WalDocument.ofOps os with
  | none => .keep
  | some d => d.keyOp now

namespace SequentialLemmas

variable {n : Nat} {id : DocID} {now : Int} {o l : Operation σ ν}

theorem build_ofOps (hid : o.docID = id) (hts : o.fields.timestamp.isSome) :
    (⟨id, o.fields.timestamp.getD now, o.fields.source⟩ : Document σ) = o.document := by
  obtain ⟨t, ht⟩ := Option.isSome_iff_exists.mp hts
  simp [document, hid, ht]

theorem mergedOp_single (ho : o.WritePath n) : mergedOp now [o] = o.keyOp := by
  simp only [mergedOp, WalDocument.ofOps, WalDocument.keyOp, WalDocument.merge, WalDocument.build,
    map_nil, List.getLast?_nil, getLast_singleton, keyOp]
  cases ha : o.action <;> simp only [Operation.WritePath, ha] at ho
  · simp [build_ofOps rfl ho.2]
  · simp [build_ofOps rfl ho.2.2]
  · rfl
  · rfl

theorem mergedOp_ends (now : Int) (o : Operation σ ν) (os : Ops σ ν) (l : Operation σ ν) :
    mergedOp now (o :: os ++ [l]) =
      (⟨o.docID, o.action, [l.action], l.fields⟩ : WalDocument σ ν).keyOp now := by
  simp [mergedOp, WalDocument.ofOps, WalDocument.keyOp, WalDocument.merge, WalDocument.build]

theorem direct_action (ho : o.WritePath n) (hd : o.direct = true) :
    (o.action = .update ∧ o.fields.timestamp.isSome) ∨ o.action = .delete := by
  cases ha : o.action <;> simp_all [Operation.WritePath, direct]

theorem pending_action (ho : o.WritePath n) (hd : o.direct = false) :
    (o.action = .insert ∧ o.fields.timestamp.isSome) ∨ o.action = .deleteVecOnly := by
  have hlat : o.shard = -1 := of_not_not (of_decide_eq_false hd)
  cases ha : o.action <;> simp_all [Operation.WritePath]

theorem mergedOp_direct (hid : ∀ o ∈ os ++ [l], o.docID = id)
    (hw : ∀ o ∈ os ++ [l], o.WritePath n) (hd : ∀ o ∈ os ++ [l], o.direct = true) :
    mergedOp now (os ++ [l]) = l.keyOp := by
  cases os with
  | nil => exact mergedOp_single (hw l (by simp))
  | cons o os =>
    have hl : l ∈ o :: os ++ [l] := by simp
    have hbuild (hts : l.fields.timestamp.isSome) :
        (⟨o.docID, l.fields.timestamp.getD now, l.fields.source⟩ : Document σ) = l.document :=
      build_ofOps ((hid l hl).trans (hid o (by simp)).symm) hts
    rw [mergedOp_ends]
    simp only [WalDocument.keyOp, WalDocument.merge, WalDocument.build, keyOp,
      List.getLast?_singleton]
    rcases direct_action (hw o (by simp)) (hd o (by simp)) with ⟨ho, -⟩ | ho <;>
      rcases direct_action (hw l hl) (hd l hl) with ⟨hla, hts⟩ | hla <;>
      simp only [ho, hla]
    · rw [hbuild hts]
    · rw [hbuild hts]

theorem mergedOp_vec_last (hl : l.action = .deleteVecOnly) : mergedOp now (os ++ [l]) = .keep := by
  cases os with
  | nil => simp [mergedOp, WalDocument.ofOps, WalDocument.keyOp, WalDocument.merge, hl]
  | cons o os =>
    rw [mergedOp_ends]
    simp only [WalDocument.keyOp, WalDocument.merge, hl, List.getLast?_singleton]
    cases o.action <;> rfl

section Ends

variable (hid : l.docID = o.docID) (hl : l.action = .insert) (hts : l.fields.timestamp.isSome)
include hid hl hts

theorem mergedOp_insert_insert (ho : o.action = .insert) :
    mergedOp now (o :: os ++ [l]) = .add l.document := by
  rw [mergedOp_ends]
  simp [WalDocument.keyOp, WalDocument.merge, WalDocument.build, ho, hl, build_ofOps hid hts]

theorem mergedOp_vec_insert (ho : o.action = .deleteVecOnly) :
    mergedOp now (o :: os ++ [l]) = .set l.document := by
  rw [mergedOp_ends]
  simp [WalDocument.keyOp, WalDocument.merge, WalDocument.build, ho, hl, build_ofOps hid hts]

end Ends

def inserted (os : Ops σ ν) : Docs σ :=
  (os.map fun o => o.keyOp.added).sum

theorem inserted_append (os os' : Ops σ ν) :
    inserted (os ++ os') = inserted os + inserted os' := by
  simp [inserted]

theorem inserted_insert (ho : o.action = .insert) : inserted [o] = {o.document} := by
  simp [inserted, keyOp, ho, KeyOp.added]

variable {os : Ops σ ν} (hw : ∀ o ∈ os, o.WritePath n)
  (hp : ∀ o ∈ os, o.direct = false)
include hw hp

theorem runOps_pending (m : Docs σ) :
    runOps (os.map keyOp) m = m + inserted os := by
  rw [runOps_adds, inserted, map_map]
  · rfl
  · intro k hk
    obtain ⟨o, ho, rfl⟩ := mem_map.mp hk
    rcases pending_action (hw o ho) (hp o ho) with ⟨ha, -⟩ | ha <;>
      simp [keyOp, ha, KeyOp.resets]

theorem inserted_eq_zero : inserted os = 0 ↔ ∀ o ∈ os, o.action = .deleteVecOnly := by
  rw [inserted, sum_eq_zero_iff]
  simp only [mem_map, forall_exists_index, and_imp, forall_apply_eq_imp_iff₂]
  refine forall₂_congr fun o ho => ?_
  rcases pending_action (hw o ho) (hp o ho) with ⟨ha, -⟩ | ha <;>
    simp [keyOp, ha, KeyOp.added]

omit hw hp in
theorem word_cases (os : Ops σ ν) :
    os = [] ∨ (∃ o, os = [o]) ∨ ∃ o vs l, os = o :: vs ++ [l] := by
  cases os with
  | nil => exact .inl rfl
  | cons o os =>
    rcases eq_nil_or_concat os with rfl | ⟨vs, l, rfl⟩
    · exact .inr (.inl ⟨o, rfl⟩)
    · exact .inr (.inr ⟨o, vs, l, by simp⟩)

omit hw hp in
theorem mergeableAlone_ends :
    MergeableAlone m (o :: vs ++ [l]) ↔ (∀ v ∈ o :: vs, v.action = .deleteVecOnly) ∧
      (l.action = .deleteVecOnly ∨ m = 0 ∧ l.action = .insert) := by
  have hone : ¬ ∃ x, o :: vs ++ [l] = [x] ∧ x.action = .insert := by simp
  have hsplit : (∃ ws x, o :: vs ++ [l] = ws ++ [x] ∧ ws ≠ [] ∧
      (∀ v ∈ ws, v.action = .deleteVecOnly) ∧ x.action = .insert) ↔
      (∀ v ∈ o :: vs, v.action = .deleteVecOnly) ∧ l.action = .insert := by
    constructor
    · rintro ⟨ws, x, he, -, hv, hx⟩
      obtain ⟨rfl, he'⟩ := append_inj' he rfl
      obtain rfl := singleton_inj.mp he'
      exact ⟨hv, hx⟩
    · rintro ⟨hv, hx⟩
      exact ⟨o :: vs, l, rfl, by simp, hv, hx⟩
  have hall : (∀ v ∈ o :: vs ++ [l], v.action = .deleteVecOnly) ↔
      (∀ v ∈ o :: vs, v.action = .deleteVecOnly) ∧ l.action = .deleteVecOnly := by
    rw [forall_mem_append, forall_mem_singleton]
  rw [MergeableAlone, hsplit, hall, or_iff_right hone, and_or_left, and_left_comm]

variable (hid : ∀ o ∈ os, o.docID = id)

include hid

theorem alone_iff (now : Int) (m : Docs σ) :
    (mergedOp now os).run m = runOps (os.map keyOp) m ↔ MergeableAlone m os := by
  rw [runOps_pending hw hp]
  rcases word_cases os with rfl | ⟨o, rfl⟩ | ⟨o, vs, l, rfl⟩
  · simp [mergedOp, WalDocument.ofOps, MergeableAlone, inserted]
  · rw [mergedOp_single (hw o (by simp))]
    rcases pending_action (hw o (by simp)) (hp o (by simp)) with ⟨ha, -⟩ | ha <;>
      simp [MergeableAlone, inserted, keyOp, ha, KeyOp.added]
  · have hl : l ∈ o :: vs ++ [l] := by simp
    have ho : o ∈ o :: vs ++ [l] := by simp
    have hlid : l.docID = o.docID := (hid l hl).trans (hid o ho).symm
    have hwv : ∀ v ∈ o :: vs, v.WritePath n := fun v hv => hw v (mem_append_left _ hv)
    have hpv : ∀ v ∈ o :: vs, v.direct = false := fun v hv => hp v (mem_append_left _ hv)
    rw [mergeableAlone_ends, ← inserted_eq_zero hwv hpv, inserted_append]
    rcases pending_action (hw l hl) (hp l hl) with ⟨hla, hts⟩ | hla
    · rw [inserted_insert hla]
      rcases pending_action (hw o ho) (hp o ho) with ⟨hoa, -⟩ | hoa
      · -- the first insert is lost
        have hpos : inserted (o :: vs) ≠ 0 := by
          rw [Ne, inserted_eq_zero hwv hpv]
          intro h
          simp [h o (by simp)] at hoa
        rw [mergedOp_insert_insert hlid hla hts hoa]
        simp [hpos]
      · -- the shard's own documents are replaced
        rw [mergedOp_vec_insert hlid hla hts hoa, run_set, eq_comm, ← add_assoc, add_eq_right,
          add_eq_zero]
        simp [hla, and_comm]
    · rw [mergedOp_vec_last hla, run_keep, left_eq_add, ← inserted_append,
        inserted_eq_zero hw hp, inserted_eq_zero hwv hpv, forall_mem_append,
        forall_mem_singleton]
      simp [hla]

/-- What a flush makes of operations on one id that name no shard: nothing if they end with a
deletion, an insert if they start and end with one, or the documents of the id are replaced. -/
theorem pending_cases (now : Int) :
    ((∀ l, os.getLast? = some l → l.action = .deleteVecOnly) ∧ mergedOp now os = .keep) ∨
      ((∃ o l, os.head? = some o ∧ os.getLast? = some l ∧ o.action = .insert ∧
        l.action = .insert) ∧ ∃ x, mergedOp now os = .add x) ∨
      ((∃ v vs l, os = v :: vs ++ [l] ∧ v.action = .deleteVecOnly ∧ l.action = .insert) ∧
        ∃ l, os.getLast? = some l ∧ mergedOp now os = .set l.document) := by
  rcases word_cases os with rfl | ⟨o, rfl⟩ | ⟨o, vs, l, rfl⟩
  · exact .inl ⟨by simp, rfl⟩
  · rw [mergedOp_single (hw o (by simp))]
    rcases pending_action (hw o (by simp)) (hp o (by simp)) with ⟨ha, -⟩ | ha
    · exact .inr (.inl ⟨⟨o, o, rfl, rfl, ha, ha⟩, o.document, by simp [keyOp, ha]⟩)
    · exact .inl ⟨by simpa using ha, by simp [keyOp, ha]⟩
  · have hl : l ∈ o :: vs ++ [l] := by simp
    have ho : o ∈ o :: vs ++ [l] := by simp
    have hlid : l.docID = o.docID := (hid l hl).trans (hid o ho).symm
    rcases pending_action (hw l hl) (hp l hl) with ⟨hla, hts⟩ | hla
    · rcases pending_action (hw o ho) (hp o ho) with ⟨hoa, -⟩ | hoa
      · exact .inr (.inl ⟨⟨o, l, rfl, List.getLast?_concat, hoa, hla⟩, l.document,
          mergedOp_insert_insert hlid hla hts hoa⟩)
      · exact .inr (.inr ⟨⟨o, vs, l, rfl, hoa, hla⟩, l, List.getLast?_concat,
          mergedOp_vec_insert hlid hla hts hoa⟩)
    · refine .inl ⟨fun l' hl' => ?_, mergedOp_vec_last hla⟩
      rw [List.getLast?_concat] at hl'
      cases hl'
      exact hla

theorem pending_same_iff (now : Int) (m : Docs σ) :
    (mergedOp now os).run m = m ↔ (∀ l, os.getLast? = some l → l.action = .deleteVecOnly) ∨
      ∃ v vs l, os = v :: vs ++ [l] ∧ v.action = .deleteVecOnly ∧ l.action = .insert ∧
        m = {l.document} := by
  rcases pending_cases hw hp hid now with ⟨hend, hop⟩ | ⟨⟨o, l, ho, hl, hoa, hla⟩, x, hop⟩ |
    ⟨⟨v, vs, l, rfl, hv, hla⟩, l', hl, hop⟩ <;> rw [hop]
  · exact iff_of_true rfl (.inl hend)
  · refine iff_of_false (by simp) ?_
    rintro (hend | ⟨v, vs, l', rfl, hv, -⟩)
    · cases hla.symm.trans (hend l hl)
    · cases ho
      cases hoa.symm.trans hv
  · rw [List.getLast?_concat] at hl
    cases hl
    have hnot : ¬ ∀ l', (v :: vs ++ [l]).getLast? = some l' → l'.action = .deleteVecOnly :=
      fun hend => by cases hla.symm.trans (hend l List.getLast?_concat)
    rw [or_iff_right hnot]
    constructor
    · exact fun h => ⟨v, vs, l, rfl, hv, hla, h.symm⟩
    · rintro ⟨v', vs', l', heq, -, -, hm⟩
      obtain ⟨-, hl'⟩ := append_inj' heq rfl
      rw [(List.cons.inj hl').1]
      exact hm.symm

theorem beside_iff {last : Operation σ ν} (hlast : last.WritePath n)
    (hdir : last.direct = true) (m : Docs σ) :
    (mergedOp now os).run (last.keyOp.run m) = last.keyOp.run m ↔ MergeableBeside os last := by
  rw [pending_same_iff hw hp hid now, MergeableBeside]
  rcases direct_action hlast hdir with ⟨ha, -⟩ | ha
  · simp [keyOp, ha, eq_comm]
  · simp [keyOp, ha]

omit hw hp hid in
theorem followed_iff {pre post : Ops σ ν} {last : Operation σ ν}
    (hw : ∀ o ∈ pre ++ last :: post, o.WritePath n) (hdir : last.direct = true)
    (hpost : ∀ o ∈ post, o.direct = false) :
    (∀ pre' o post', pre ++ last :: post = pre' ++ o :: post' → o.action = .insert →
      ∃ l ∈ post', l.direct = true) ↔ inserted post = 0 := by
  have hwp : ∀ o ∈ post, o.WritePath n := fun o ho => hw o (by simp [ho])
  have hlast : last.action ≠ .insert := by
    rcases direct_action (hw last (by simp)) hdir with ⟨ha, -⟩ | ha <;> simp [ha]
  rw [inserted_eq_zero hwp hpost]
  constructor
  · intro h o ho
    obtain ⟨as, bs, rfl⟩ := append_of_mem ho
    rcases pending_action (hwp o ho) (hpost o ho) with ⟨ha, -⟩ | ha
    · obtain ⟨l, hl, hld⟩ := h (pre ++ last :: as) o bs (by simp) ha
      simp [hpost l (by simp [hl])] at hld
    · exact ha
  · intro h pre' o post' he ho
    rcases append_eq_append_iff.mp he with ⟨as, -, hr⟩ | ⟨bs, -, hr⟩
    · cases as with
      | nil => exact absurd ((List.cons.inj hr).1 ▸ ho) hlast
      | cons a as =>
        have hmem : o ∈ post := by simp [(List.cons.inj hr).2]
        simp [h o hmem] at ho
    · cases bs with
      | nil => exact absurd ((List.cons.inj hr).1 ▸ ho) hlast
      | cons b bs => exact ⟨last, by simp [(List.cons.inj hr).2], hdir⟩

omit hp in
theorem latest_iff (now : Int) (m : Docs σ) :
    ((mergedOp now (os.filter direct)).run
        ((mergedOp now (os.filter fun o => !o.direct)).run m) = runOps (os.map keyOp) m ∧
      (mergedOp now (os.filter fun o => !o.direct)).run
        ((mergedOp now (os.filter direct)).run m) = runOps (os.map keyOp) m) ↔ Mergeable m os := by
  unfold Mergeable
  rcases eq_nil_or_concat (os.filter direct) with hd | ⟨ds, last, hd⟩
  · -- nothing names the shard
    have hp : ∀ o ∈ os, o.direct = false := by simpa using hd
    have hall : (os.filter fun o => !o.direct) = os :=
      filter_eq_self.mpr fun o ho => by simp [hp o ho]
    simp only [hd, hall, List.getLast?_nil]
    rw [← alone_iff hw hp hid now m]
    exact and_self_iff
  · -- `last` is the last operation that names the shard
    rw [concat_eq_append] at hd
    have hmem : ∀ o ∈ ds ++ [last], o ∈ os ∧ o.direct = true :=
      fun o ho => mem_filter.mp (hd ▸ ho)
    have hdir : last.direct = true := (hmem last (by simp)).2
    have hlast : last.WritePath n := hw last (hmem last (by simp)).1
    have hmerged : mergedOp now (ds ++ [last]) = last.keyOp :=
      mergedOp_direct (fun o ho => hid o (hmem o ho).1) (fun o ho => hw o (hmem o ho).1)
        fun o ho => (hmem o ho).2
    have hreset : last.keyOp.resets = true := by
      rcases direct_action hlast hdir with ⟨ha, -⟩ | ha <;> simp [keyOp, ha, KeyOp.resets]
    have hpend : ∀ o ∈ os.filter fun o => !o.direct, o ∈ os ∧ o.direct = false := by simp
    obtain ⟨pre, post, rfl, hpost⟩ :
        ∃ pre post, os = pre ++ last :: post ∧ ∀ o ∈ post, o.direct = false := by
      obtain ⟨pre, tl, rfl, -, htl⟩ := filter_eq_append_iff.mp hd
      obtain ⟨mid, post, rfl, -, -, hpost⟩ := filter_eq_cons_iff.mp htl
      exact ⟨pre ++ mid, post, by simp, by simpa using hpost⟩
    have hseq : runOps ((pre ++ last :: post).map keyOp) m = last.keyOp.run m + inserted post := by
      rw [map_append, map_cons, runOps_append, runOps_cons,
        runOps_pending (fun o ho => hw o (by simp [ho])) hpost, run_of_resets hreset _ m]
    simp only [hd, List.getLast?_concat, hmerged, hseq, run_of_resets hreset _ m]
    rw [followed_iff hw hdir hpost, left_eq_add]
    refine and_congr_right fun hzero => ?_
    rw [hzero, Multiset.add_zero, beside_iff (fun o ho => hw o (hpend o ho).1)
      (fun o ho => (hpend o ho).2) (fun o ho => hid o (hpend o ho).1) hlast hdir]

end SequentialLemmas

/-- The map holds the operations `ops` and nothing else. -/
def WalMergeDocs.Collects (w : WalMergeDocs σ ν) (ops : Ops σ ν) : Prop :=
  ∀ k id, w.doc k id = WalDocument.ofOps (opsOf ops k id)

theorem WalMergeDocs.collects_addDocuments {w : WalMergeDocs σ ν} (hw : w.Blank)
    (ops : Ops σ ν) : (w.addDocuments ops).Collects ops :=
  fun k id => doc_addDocuments hw ops k id

namespace SequentialLemmas

variable {n : Nat} {ops : Ops σ ν} {id : DocID}

theorem WritePath_shard {o : Operation σ ν} (hn : 0 < n) (ho : o.WritePath n) :
    shardIDNeedLatest ≤ o.shard ∧ o.shard < n := by
  unfold Operation.WritePath at ho
  simp only [shardIDNeedLatest] at ho ⊢
  split at ho <;> omega

theorem addressed_addDocuments {w : WalMergeDocs σ ν} (hn : 0 < n) (hw : w.Addressed n)
    (ops : Ops σ ν) (hops : ∀ o ∈ ops, o.WritePath n) :
    (w.addDocuments ops).Addressed n := by
  intro k hk
  rcases mem_keys_addDocuments.mp hk with hk | ⟨o, ho, rfl⟩
  · exact hw k hk
  · exact WritePath_shard hn (hops o ho)

theorem addressed_empty : (empty : WalMergeDocs σ ν).Addressed n := by
  simp [WalMergeDocs.Addressed, empty]

theorem groupOp_ofOps (now : Int) (hk : shardIDNeedLatest ≤ k) (j : Nat)
    (os : Ops σ ν) :
    groupOp now n k j (WalDocument.ofOps os) =
      if j = mainShard n k then mergedOp now os else .keep := by
  have hlat : ¬ k < shardIDNeedLatest := Int.not_lt.mpr hk
  cases h : WalDocument.ofOps os with
  | none => simp [groupOp, mergedOp, h]
  | some d => simp [groupOp, mergedOp, h, hlat]

theorem mergedOp_not_mem (now : Int) {w : WalMergeDocs σ ν} (hc : w.Collects ops) {k : Int}
    (hk : k ∉ w.groups.keys) (id : DocID) : mergedOp now (opsOf ops k id) = .keep := by
  have hnone : w.doc k id = none := by
    rw [WalMergeDocs.doc, AList.lookup_eq_none.mpr hk]
    rfl
  rw [mergedOp, ← hc k id, hnone]

variable {B : Bluge σ} {s : IndexShard B} {w : WalMergeDocs σ ν}

theorem mainShard_latestShardID (s : IndexShard B) :
    mainShard s.shardNum s.latestShardID = s.shardNum - 1 := by
  have hpos := s.shardNum_pos
  rw [mainShard, latestShardID, if_neg (by omega)]
  omega

theorem nodup_visited (o : MapOrder σ ν) (w : WalMergeDocs σ ν) :
    ((o.groups w.groups.entries).map Sigma.fst).Nodup ∧
      ∀ k, k ∈ (o.groups w.groups.entries).map Sigma.fst ↔ k ∈ w.groups.keys := by
  have hperm : ((o.groups w.groups.entries).map Sigma.fst).Perm w.groups.keys :=
    (o.groups_perm _).map Sigma.fst
  exact ⟨hperm.nodup_iff.mpr w.groups.nodupKeys, fun k => hperm.mem_iff⟩

theorem versions_flush_older (env : FlushEnv σ ν) (hw : w.Addressed s.shardNum)
    (hc : w.Collects ops) {j : Nat} (hj : j ≠ s.shardNum - 1) (id : DocID) :
    (s.flush env w).versions j id = (mergedOp env.now (opsOf ops j id)).run (s.versions j id) := by
  obtain ⟨hnd, hkeys⟩ := nodup_visited env.order w
  rw [versions_flush s env hw]
  have hself : groupOp env.now s.shardNum j j (w.doc j id) = mergedOp env.now (opsOf ops j id) := by
    rw [hc, groupOp_ofOps _ (by simp only [shardIDNeedLatest]; omega)]
    simp [mainShard]
  rw [← hself]
  refine runOps_map_single hnd (fun k hk hne => ?_) (fun hk => ?_) _
  · have hk' := hw k ((hkeys k).mp hk)
    rw [hc, groupOp_ofOps _ hk'.1, if_neg]
    simp only [mainShard]
    split <;> omega
  · rw [hself]
    exact mergedOp_not_mem _ hc (fun h => hk ((hkeys _).mpr h)) id

theorem runOps_latest (now : Int) (hw : w.Addressed s.shardNum) (hc : w.Collects ops) (id : DocID)
    {K : List Int} (hnd : K.Nodup) (hkeys : ∀ k, k ∈ K ↔ k ∈ w.groups.keys)
    (m : Docs σ) :
    let run (K : List Int) := runOps
      (K.map fun k => groupOp now s.shardNum k (s.shardNum - 1) (w.doc k id)) m
    let pend := mergedOp now (opsOf ops shardIDNeedLatest id)
    let dir := mergedOp now (opsOf ops s.latestShardID id)
    (run K = dir.run (pend.run m) ∧ run K.reverse = pend.run (dir.run m)) ∨
      (run K = pend.run (dir.run m) ∧ run K.reverse = dir.run (pend.run m)) := by
  have hpos := s.shardNum_pos
  have hlat : shardIDNeedLatest ≤ s.latestShardID := by
    simp only [shardIDNeedLatest, latestShardID]
    omega
  have hop : ∀ k, shardIDNeedLatest ≤ k → groupOp now s.shardNum k (s.shardNum - 1) (w.doc k id) =
      if s.shardNum - 1 = mainShard s.shardNum k then mergedOp now (opsOf ops k id) else .keep := by
    intro k hk
    rw [hc, groupOp_ofOps now hk]
  have hpend := hop _ le_rfl
  have hdir := hop _ hlat
  rw [if_pos (by simp [mainShard, shardIDNeedLatest])] at hpend
  rw [if_pos (mainShard_latestShardID s).symm] at hdir
  intro run pend dir
  have hpair := runOps_map_pair hnd (a := shardIDNeedLatest) (b := s.latestShardID)
    (f := fun k => groupOp now s.shardNum k (s.shardNum - 1) (w.doc k id))
    (by simp only [shardIDNeedLatest, latestShardID]; omega) (fun k hk hne hne' => ?_)
    (fun hk => ?_) (fun hk => ?_) m
  · simpa only [hpend, hdir] using hpair
  · -- the other groups go to older shards
    have hk' := hw k ((hkeys k).mp hk)
    show groupOp now s.shardNum k (s.shardNum - 1) (w.doc k id) = .keep
    rw [hop k hk'.1, if_neg]
    simp only [mainShard, shardIDNeedLatest, latestShardID] at *
    split <;> omega
  · exact hpend.trans (mergedOp_not_mem now hc (fun h => hk ((hkeys _).mpr h)) id)
  · exact hdir.trans (mergedOp_not_mem now hc (fun h => hk ((hkeys _).mpr h)) id)

theorem versions_flush_latest_iff (hw : w.Addressed s.shardNum) (hc : w.Collects ops) (id : DocID)
    (m' : Docs σ) :
    (∀ env, (s.flush env w).versions (s.shardNum - 1) id = m') ↔ ∀ now,
      (mergedOp now (opsOf ops s.latestShardID id)).run
          ((mergedOp now (opsOf ops shardIDNeedLatest id)).run (s.versions (s.shardNum - 1) id)) =
        m' ∧
      (mergedOp now (opsOf ops shardIDNeedLatest id)).run
          ((mergedOp now (opsOf ops s.latestShardID id)).run (s.versions (s.shardNum - 1) id)) =
        m' := by
  constructor
  · intro h now
    have hl := h ⟨now, [], .listed σ ν⟩
    have hr := h ⟨now, [], .reversed σ ν⟩
    rw [versions_flush s _ hw] at hl hr
    have hent : ((MapOrder.reversed σ ν).groups w.groups.entries).map Sigma.fst =
        (((MapOrder.listed σ ν).groups w.groups.entries).map Sigma.fst).reverse :=
      map_reverse
    rw [hent] at hr
    obtain ⟨hnd, hkeys⟩ := nodup_visited (MapOrder.listed σ ν) w
    rcases runOps_latest now hw hc id hnd hkeys (s.versions (s.shardNum - 1) id) with
      ⟨h1, h2⟩ | ⟨h1, h2⟩
    · exact ⟨h1.symm.trans hl, h2.symm.trans hr⟩
    · exact ⟨h2.symm.trans hr, h1.symm.trans hl⟩
  · intro h env
    obtain ⟨hnd, hkeys⟩ := nodup_visited env.order w
    rw [versions_flush s env hw]
    rcases runOps_latest env.now hw hc id hnd hkeys (s.versions (s.shardNum - 1) id) with
      ⟨h1, -⟩ | ⟨h1, -⟩
    · exact h1.trans (h env.now).1
    · exact h1.trans (h env.now).2

theorem shardNum_flush (s : IndexShard B) (env : FlushEnv σ ν) (w : WalMergeDocs σ ν) :
    (s.flush env w).shardNum = s.shardNum := by
  simp [flush]

theorem versions_applyOne (env : FlushEnv σ ν) {o : Operation σ ν} (ho : o.WritePath s.shardNum)
    (j : Nat) (id : DocID) :
    (s.applyOne env o).versions j id =
      if o.docID = id ∧ mainShard s.shardNum o.shard = j then o.keyOp.run (s.versions j id)
      else s.versions j id := by
  have hw : (empty.addDocuments [o]).Addressed s.shardNum :=
    addressed_addDocuments s.shardNum_pos addressed_empty [o] (by simpa using ho)
  have hc := collects_addDocuments (blank_empty (σ := σ) (ν := ν)) [o]
  obtain ⟨hnd, hkeys⟩ := nodup_visited env.order (empty.addDocuments [o])
  have hshard := WritePath_shard s.shardNum_pos ho
  have hmem : ∀ k, k ∈ (empty.addDocuments [o]).groups.keys ↔ k = o.shard := by
    intro k
    rw [mem_keys_addDocuments]
    simp [empty, eq_comm]
  show (s.flush env (empty.addDocuments [o])).versions j id = _
  rw [versions_flush s env hw, runOps_map_single hnd (a := o.shard)
    (fun k hk hne => absurd ((hmem k).mp ((hkeys k).mp hk)) hne)
    (fun hk => absurd ((hkeys _).mpr ((hmem _).mpr rfl)) hk), hc, groupOp_ofOps _ hshard.1]
  by_cases hid : o.docID = id
  · have hops : opsOf [o] o.shard id = [o] := by simp [opsOf, hid]
    by_cases hj : mainShard s.shardNum o.shard = j
    · simp [hops, hid, hj, mergedOp_single ho]
    · simp [hid, hj, Ne.symm hj]
  · have hops : opsOf [o] o.shard id = [] := by simp [opsOf, hid]
    simp [hops, hid, mergedOp, WalDocument.ofOps]

theorem shardNum_sequential (s : IndexShard B) (env : FlushEnv σ ν) (ops : Ops σ ν) :
    (s.sequential env ops).shardNum = s.shardNum := by
  induction ops generalizing s with
  | nil => rfl
  | cons o ops ih => exact (ih _).trans (shardNum_flush s env _)

end SequentialLemmas

open SequentialLemmas

variable {ops : Ops σ ν}

theorem versions_sequential (s : IndexShard B) (env : FlushEnv σ ν)
    (hops : ∀ o ∈ ops, o.WritePath s.shardNum) (j : Nat) (id : DocID) :
    (s.sequential env ops).versions j id =
      runOps ((reaching s.shardNum ops j id).map keyOp) (s.versions j id) := by
  induction ops generalizing s with
  | nil => rfl
  | cons o ops ih =>
    have hnum : (s.applyOne env o).shardNum = s.shardNum := shardNum_flush s env _
    show ((s.applyOne env o).sequential env ops).versions j id = _
    rw [ih (s.applyOne env o) (by rw [hnum]; exact fun p hp => hops p (mem_cons_of_mem _ hp)),
      hnum, versions_applyOne env (hops o mem_cons_self)]
    by_cases h : o.docID = id ∧ mainShard s.shardNum o.shard = j
    · simp [reaching, h]
    · simp [reaching, h]

namespace SequentialLemmas

variable {n : Nat} {ops : Ops σ ν}

theorem mainShard_eq_latest (hn : 0 < n) {k : Int} (hk : shardIDNeedLatest ≤ k) :
    mainShard n k = n - 1 ↔ k = shardIDNeedLatest ∨ k = (n : Int) - 1 := by
  simp only [shardIDNeedLatest, mainShard] at *
  split <;> omega

theorem reaching_older (hj : j ≠ n - 1) (id : DocID) : reaching n ops j id = opsOf ops j id := by
  refine filter_congr fun o _ => ?_
  have hiff : mainShard n o.shard = j ↔ o.shard = j := by
    simp only [mainShard]
    split <;> omega
  simp only [hiff, and_comm]

theorem reaching_latest (hn : 0 < n) (hops : ∀ o ∈ ops, o.WritePath n) (id : DocID) :
    (reaching n ops (n - 1) id).filter direct = opsOf ops ((n : Int) - 1) id ∧
    (reaching n ops (n - 1) id).filter (fun o => !o.direct) = opsOf ops shardIDNeedLatest id := by
  constructor <;>
  · rw [reaching, filter_filter]
    refine filter_congr fun o ho => ?_
    simp only [mainShard_eq_latest hn (WritePath_shard hn (hops o ho)).1, direct, shardIDNeedLatest]
    grind

theorem merged_older (now : Int) (hops : ∀ o ∈ ops, o.WritePath n) (j : Nat) (id : DocID)
    (m : Docs σ) :
    (mergedOp now (opsOf ops j id)).run m = runOps ((opsOf ops j id).map keyOp) m := by
  have hmem : ∀ o ∈ opsOf ops j id, o ∈ ops ∧ o.shard = j ∧ o.docID = id := by simp [opsOf]
  have hdir : ∀ o ∈ opsOf ops j id, o.direct = true := by
    intro o ho
    have hshard := (hmem o ho).2.1
    exact decide_eq_true (show o.shard ≠ -1 by omega)
  rcases eq_nil_or_concat (opsOf ops j id) with h | ⟨os, l, h⟩
  · rw [h]; rfl
  · rw [concat_eq_append] at h
    rw [h] at hmem hdir ⊢
    rw [mergedOp_direct (fun o ho => (hmem o ho).2.2) (fun o ho => hops o (hmem o ho).1) hdir,
      runOps_last (by simp) _ m m]
    · simp
    · intro k hk
      obtain ⟨o, ho, rfl⟩ := mem_map.mp hk
      rcases direct_action (hops o (hmem o ho).1) (hdir o ho) with ⟨ha, -⟩ | ha <;>
        simp [keyOp, ha, KeyOp.resets]

end SequentialLemmas

theorem flush_collected_iff {B : Bluge σ} {s : IndexShard B} {w : WalMergeDocs σ ν}
    (hw : w.Addressed s.shardNum) (hc : w.Collects ops) (hops : ∀ o ∈ ops, o.WritePath s.shardNum) :
    (∀ env env', (s.flush env w).docs = (s.sequential env' ops).docs) ↔
      ∀ id, Mergeable (s.versions (s.shardNum - 1) id)
        (reaching s.shardNum ops (s.shardNum - 1) id) := by
  have hseq := fun env' => versions_sequential s env' hops
  -- the older shards are right
  have holder : ∀ env env' id j, j ≠ s.shardNum - 1 →
      (s.flush env w).versions j id = (s.sequential env' ops).versions j id := by
    intro env env' id j hj
    rw [versions_flush_older env hw hc hj, hseq, reaching_older hj, merged_older env.now hops]
  -- the latest shard is right in both orders of its two groups
  have hlatest : ∀ id, (∀ env, (s.flush env w).versions (s.shardNum - 1) id =
        runOps ((reaching s.shardNum ops (s.shardNum - 1) id).map keyOp)
          (s.versions (s.shardNum - 1) id)) ↔
      Mergeable (s.versions (s.shardNum - 1) id)
        (reaching s.shardNum ops (s.shardNum - 1) id) := by
    intro id
    have hmem : ∀ o ∈ reaching s.shardNum ops (s.shardNum - 1) id, o ∈ ops ∧ o.docID = id := by
      intro o ho
      have := mem_filter.mp ho
      simp_all
    rw [versions_flush_latest_iff hw hc]
    have hiff := fun now => latest_iff (fun o ho => hops o (hmem o ho).1)
      (fun o ho => (hmem o ho).2) now (s.versions (s.shardNum - 1) id)
    simp only [reaching_latest s.shardNum_pos hops] at hiff
    exact ⟨fun h => (hiff 0).mp (h 0), fun h now => (hiff now).mpr h⟩
  have hdocs : ∀ env env', (s.flush env w).docs = (s.sequential env' ops).docs ↔
      ∀ j id, (s.flush env w).versions j id = (s.sequential env' ops).versions j id :=
    fun env env' => docs_ext
      ((shardNum_flush s env w).trans (shardNum_sequential s env' ops).symm)
  constructor
  · intro h id
    refine (hlatest id).mp fun env => ?_
    rw [← hseq env]
    exact (hdocs env env).mp (h env env) _ id
  · intro h env env'
    refine (hdocs env env').mpr fun j id => ?_
    by_cases hj : j = s.shardNum - 1
    · rw [hj, hseq]
      exact (hlatest id).mpr (h id) env
    · exact holder env env' id j hj

/-- A merged flush equals the operations one at a time, in every order of the
maps, exactly when the operations on every id that reach the latest shard are
`Mergeable`. -/
theorem flush_eq_sequential_iff {B : Bluge σ} (s : IndexShard B) (ops : Ops σ ν)
    (hops : ∀ o ∈ ops, o.WritePath s.shardNum) :
    (∀ env env', (s.flush env (empty.addDocuments ops)).docs = (s.sequential env' ops).docs) ↔
      ∀ id, Mergeable (s.versions (s.shardNum - 1) id)
        (reaching s.shardNum ops (s.shardNum - 1) id) :=
  flush_collected_iff (addressed_addDocuments s.shardNum_pos addressed_empty ops hops)
    (collects_addDocuments blank_empty ops) hops

theorem flush_eq_sequential_delete_update :
    let ops : List (Operation Unit Unit) :=
      [⟨.delete, "a", 0, ⟨none, [], ()⟩⟩, ⟨.update, "a", 0, ⟨some 1, [], ()⟩⟩]
    ∀ env env', ((new (Bluge.lists Unit)).flush env (empty.addDocuments ops)).docs =
      ((new (Bluge.lists Unit)).sequential env' ops).docs := by
  intro ops
  refine (flush_eq_sequential_iff _ ops ?_).mpr fun id => ?_
  · rw [forall_mem_cons, forall_mem_singleton]
    exact ⟨⟨by decide, by decide⟩, by decide, by decide, rfl⟩
  · by_cases hid : id = "a"
    · subst hid
      refine ⟨fun pre o post he ho => ?_, .inl (by decide)⟩
      have hmem : o ∈ ops := (show ops = pre ++ o :: post from he) ▸ by simp
      simp only [ops, mem_cons, not_mem_nil, or_false] at hmem
      rcases hmem with rfl | rfl <;> cases ho
    · have hnil : reaching (new (Bluge.lists Unit)).shardNum ops
          ((new (Bluge.lists Unit)).shardNum - 1) id = [] := by
        simp [reaching, ops, Ne.symm hid]
      rw [hnil]
      exact .inl (by simp)

/-- A document is deleted in the shard that holds it and created again with an
operation that asks for the latest shard. -/
def deleteThenInsert : List (Operation Unit Unit) :=
  [⟨.delete, "a", 0, ⟨none, [], ()⟩⟩, ⟨.insert, "a", shardIDNeedLatest, ⟨some 2, [], ()⟩⟩]

/-- An index whose only document is `a`. -/
def holdsA : IndexShard (Bluge.lists Unit) :=
  (new _).sequential ⟨0, [], .listed Unit Unit⟩
    [⟨.insert, "a", shardIDNeedLatest, ⟨some 1, [], ()⟩⟩]

/-- When the latest shard's group is written first, the new document is deleted
with the old one. -/
theorem insert_beside_delete_not_sequential :
    (∀ o ∈ deleteThenInsert, o.WritePath holdsA.shardNum) ∧
      (holdsA.flush ⟨0, [], .listed Unit Unit⟩ (empty.addDocuments deleteThenInsert)).docs = [0] ∧
      (holdsA.sequential ⟨0, [], .listed Unit Unit⟩ deleteThenInsert).docs = [{⟨"a", 2, ()⟩}] := by
  refine ⟨?_, by decide, by decide⟩
  rw [deleteThenInsert, forall_mem_cons, forall_mem_singleton]
  exact ⟨⟨by decide, by decide⟩, rfl, rfl⟩

end SeaSearch
