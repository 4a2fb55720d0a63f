import SeaSearch.Shard

/-!
# Merging document operations

`walMergeDocs` collects operations in a map from second-layer shard ids to maps from document ids to
the actions on the document. Go visits a map in any order; `MapOrder` is such an order.
-/

namespace SeaSearch

open List

variable {σ ν : Type}

inductive ActionType
  | insert
  | update
  | delete
  | deleteVecOnly
  deriving DecidableEq, Repr

/-- The fields of a checked document besides its action, id and shard:
`@timestamp`, the vector fields and the source. A delete operation has neither
a timestamp nor vectors. -/
structure Fields (σ ν : Type) where
  timestamp : Option Int := none
  vectors : List (String × ν) := []
  source : σ
  deriving DecidableEq, Repr

structure Operation (σ ν : Type) where
  action : ActionType
  docID : DocID
  shard : Int
  fields : Fields σ ν
  deriving DecidableEq, Repr

abbrev Ops (σ ν : Type) := List (Operation σ ν)

/-- `walDocument`. Its list of actions is never empty: `first :: rest`. -/
structure WalDocument (σ ν : Type) where
  docID : DocID
  first : ActionType
  rest : List ActionType
  data : Fields σ ν

abbrev DocMap (σ ν : Type) := AList fun _ : DocID => WalDocument σ ν

/-- `walMergeDocs`. A document is stored under its own id. -/
structure WalMergeDocs (σ ν : Type) where
  groups : AList fun _ : Int => DocMap σ ν
  keyed : ∀ k g id d, groups.lookup k = some g → g.lookup id = some d → d.docID = id

/-- The order in which Go visits the shard groups, the documents of a group and
the vector fields of a flush. -/
structure MapOrder (σ ν : Type) where
  groups : List (Σ _ : Int, DocMap σ ν) → List (Σ _ : Int, DocMap σ ν)
  docs : List (Σ _ : DocID, WalDocument σ ν) → List (Σ _ : DocID, WalDocument σ ν)
  fields : List String → List String
  groups_perm : ∀ l, (groups l).Perm l
  docs_perm : ∀ l, (docs l).Perm l
  fields_perm : ∀ l, (fields l).Perm l

/-- What a flush reads from its surroundings: the clock, the vector fields of
the index and the order of the maps. -/
structure FlushEnv (σ ν : Type) where
  now : Int
  vecFields : List String
  order : MapOrder σ ν

def MapOrder.listed (σ ν : Type) : MapOrder σ ν where
  groups := id
  docs := id
  fields := id
  groups_perm := fun _ => .refl _
  docs_perm := fun _ => .refl _
  fields_perm := .refl

def MapOrder.reversed (σ ν : Type) : MapOrder σ ν where
  groups := List.reverse
  docs := List.reverse
  fields := List.reverse
  groups_perm := reverse_perm
  docs_perm := reverse_perm
  fields_perm := reverse_perm

namespace WalMergeDocs

def empty : WalMergeDocs σ ν := ⟨∅, by simp⟩

def doc (w : WalMergeDocs σ ν) (k : Int) (id : DocID) : Option (WalDocument σ ν) :=
  (w.groups.lookup k).bind fun g => g.lookup id

/-- The `walDocument` after one more operation on it. -/
def appendAction (d : Option (WalDocument σ ν)) (op : Operation σ ν) : WalDocument σ ν :=
  match d with
  | none => ⟨op.docID, op.action, [], op.fields⟩
  | some d => ⟨d.docID, d.first, d.rest ++ [op.action], op.fields⟩

def addDocument (w : WalMergeDocs σ ν) (op : Operation σ ν) : WalMergeDocs σ ν where
  groups := w.groups.insert op.shard
    (((w.groups.lookup op.shard).getD ∅).insert op.docID
      (appendAction (w.doc op.shard op.docID) op))
  keyed := by
    intro k g id d hg hd
    by_cases hk : k = op.shard
    · subst hk
      rw [AList.lookup_insert] at hg
      cases hg
      by_cases hid : id = op.docID
      · subst hid
        rw [AList.lookup_insert] at hd
        cases hd
        cases hold : w.doc op.shard op.docID with
        | none => rfl
        | some d =>
          obtain ⟨g, hg', hd'⟩ := Option.bind_eq_some_iff.mp hold
          show d.docID = op.docID
          exact w.keyed _ _ _ _ hg' hd'
      · rw [AList.lookup_insert_ne hid] at hd
        cases hold : w.groups.lookup op.shard with
        | none => simp [hold] at hd
        | some g => exact w.keyed _ _ _ _ hold (by simpa [hold] using hd)
    · rw [AList.lookup_insert_ne hk] at hg
      exact w.keyed _ _ _ _ hg hd

def maxShardLen (w : WalMergeDocs σ ν) : Nat :=
  w.groups.entries.foldl (fun n g => if g.2.entries.length > n then g.2.entries.length else n) 0

/-- `Reset`. The shard groups stay, without documents. -/
def reset (w : WalMergeDocs σ ν) : WalMergeDocs σ ν where
  groups := ⟨w.groups.entries.map fun g => ⟨g.1, ∅⟩, by
    have hkeys : (w.groups.entries.map fun g => (⟨g.1, ∅⟩ : Σ _ : Int, DocMap σ ν)).keys =
        w.groups.keys := by
      simp [List.keys, AList.keys]
    rw [List.NodupKeys, hkeys]
    exact w.groups.nodupKeys⟩
  keyed := by
    intro k g id d hg hd
    have hmem := AList.mem_lookup_iff.mp (Option.mem_def.mpr hg)
    obtain ⟨g', _, he⟩ := mem_map.mp hmem
    obtain ⟨-, hempty⟩ := Sigma.mk.inj_iff.mp he
    obtain rfl := eq_of_heq hempty
    simp at hd

def addDocuments (w : WalMergeDocs σ ν) (ops : Ops σ ν) : WalMergeDocs σ ν :=
  ops.foldl addDocument w

def Blank (w : WalMergeDocs σ ν) : Prop := ∀ k id, w.doc k id = none

@[simp] theorem doc_empty (k : Int) (id : DocID) : (empty : WalMergeDocs σ ν).doc k id = none := by
  simp [doc, empty]

theorem doc_addDocument (w : WalMergeDocs σ ν) (op : Operation σ ν) (k : Int) (id : DocID) :
    (w.addDocument op).doc k id =
      if op.shard = k ∧ op.docID = id then some (appendAction (w.doc k id) op)
      else w.doc k id := by
  by_cases hk : op.shard = k
  · subst hk
    by_cases hid : op.docID = id
    · subst hid
      simp [doc, addDocument]
    · have hne : id ≠ op.docID := fun h => hid h.symm
      simp only [doc, addDocument, AList.lookup_insert, Option.bind_some,
        AList.lookup_insert_ne hne, hid, and_false, ↓reduceIte]
      cases w.groups.lookup op.shard <;> simp
  · have hne : k ≠ op.shard := fun h => hk h.symm
    simp [doc, addDocument, AList.lookup_insert_ne hne, hk]

theorem blank_reset (w : WalMergeDocs σ ν) : w.reset.Blank := by
  intro k id
  cases h : w.reset.doc k id with
  | none => rfl
  | some d =>
    obtain ⟨g, hg, hd⟩ := Option.bind_eq_some_iff.mp h
    have hmem := AList.mem_lookup_iff.mp (Option.mem_def.mpr hg)
    obtain ⟨g', _, he⟩ := mem_map.mp hmem
    obtain ⟨-, hempty⟩ := Sigma.mk.inj_iff.mp he
    obtain rfl := eq_of_heq hempty
    simp at hd

theorem blank_empty : (empty : WalMergeDocs σ ν).Blank := doc_empty

end WalMergeDocs

open WalMergeDocs

def opsOf (ops : Ops σ ν) (k : Int) (id : DocID) : Ops σ ν :=
  ops.filter fun o => o.shard = k ∧ o.docID = id

/-- The `walDocument` that a list of operations on one document builds. -/
def WalDocument.ofOps : Ops σ ν → Option (WalDocument σ ν)
  | [] => none
  | o :: os => some ⟨o.docID, o.action, os.map Operation.action,
    ((o :: os).getLast (by simp)).fields⟩

theorem foldl_appendAction (d : WalDocument σ ν) (os : Ops σ ν) (h : os ≠ []) :
    os.foldl (fun d o => some (appendAction d o)) (some d) =
      some ⟨d.docID, d.first, d.rest ++ os.map Operation.action, (os.getLast h).fields⟩ := by
  induction os generalizing d with
  | nil => exact absurd rfl h
  | cons o os ih =>
    cases os with
    | nil => rfl
    | cons o' os =>
      rw [foldl_cons, ih _ (by simp)]
      simp [appendAction]

theorem ofOps_eq_foldl (os : Ops σ ν) :
    WalDocument.ofOps os = os.foldl (fun d o => some (appendAction d o)) none := by
  cases os with
  | nil => rfl
  | cons o os =>
    cases os with
    | nil => rfl
    | cons o' os =>
      rw [foldl_cons, foldl_appendAction _ _ (by simp)]
      simp [WalDocument.ofOps, appendAction]

namespace WalMergeDocs

theorem doc_addDocuments {w : WalMergeDocs σ ν} (hw : w.Blank) (ops : Ops σ ν)
    (k : Int) (id : DocID) :
    (w.addDocuments ops).doc k id = WalDocument.ofOps (opsOf ops k id) := by
  have hgen : ∀ (ops : Ops σ ν) (w : WalMergeDocs σ ν), (w.addDocuments ops).doc k id =
        (opsOf ops k id).foldl (fun d o => some (appendAction d o)) (w.doc k id) := by
    intro ops
    induction ops with
    | nil => intro w; rfl
    | cons o ops ih =>
      intro w
      show ((w.addDocument o).addDocuments ops).doc k id = _
      rw [ih, doc_addDocument]
      by_cases h : o.shard = k ∧ o.docID = id
      · simp [opsOf, h]
      · simp [opsOf, h]
  rw [hgen, hw, ofOps_eq_foldl]

theorem mem_keys_addDocuments {w : WalMergeDocs σ ν} {ops : Ops σ ν} {k : Int} :
    k ∈ (w.addDocuments ops).groups.keys ↔ k ∈ w.groups.keys ∨ ∃ o ∈ ops, o.shard = k := by
  induction ops generalizing w with
  | nil => simp [addDocuments]
  | cons o ops ih =>
    show k ∈ ((w.addDocument o).addDocuments ops).groups.keys ↔ _
    rw [ih]
    simp only [← AList.mem_keys, addDocument, AList.mem_insert, mem_cons, exists_eq_or_imp]
    tauto

theorem le_maxShardLen_iff {w : WalMergeDocs σ ν} {b : Nat} (hb : 0 < b) :
    b ≤ w.maxShardLen ↔ ∃ k g, w.groups.lookup k = some g ∧ b ≤ g.entries.length := by
  have hfold : ∀ (l : List (Σ _ : Int, DocMap σ ν)) (n : Nat),
      b ≤ l.foldl (fun n g => if g.2.entries.length > n then g.2.entries.length else n) n ↔
        b ≤ n ∨ ∃ g ∈ l, b ≤ g.2.entries.length := by
    intro l
    induction l with
    | nil => simp
    | cons g l ih =>
      intro n
      rw [foldl_cons, ih]
      simp only [mem_cons, exists_eq_or_imp, ← or_assoc]
      refine or_congr_left ?_
      split <;> omega
  rw [maxShardLen, hfold]
  constructor
  · rintro (h0 | ⟨g, hg, hlen⟩)
    · omega
    · exact ⟨g.1, g.2, AList.mem_lookup_iff.mpr hg, hlen⟩
  · rintro ⟨k, g, hg, hlen⟩
    exact .inr ⟨⟨k, g⟩, AList.mem_lookup_iff.mp hg, hlen⟩

theorem length_le_of_doc {w w' : WalMergeDocs σ ν} (h : ∀ k id, w.doc k id = w'.doc k id)
    {k : Int} {g : DocMap σ ν} (hg : w.groups.lookup k = some g) (hne : 0 < g.entries.length) :
    ∃ g', w'.groups.lookup k = some g' ∧ g.entries.length ≤ g'.entries.length := by
  have hdoc : ∀ id, g.lookup id = w'.doc k id := fun id => by rw [← h, doc, hg]; rfl
  cases hg' : w'.groups.lookup k with
  | none =>
    obtain ⟨e, he⟩ := exists_mem_of_length_pos hne
    have hlk := hdoc e.1
    rw [doc, hg', AList.mem_lookup_iff.mpr he] at hlk
    cases hlk
  | some g' =>
    refine ⟨g', rfl, ?_⟩
    have hsub : g.keys ⊆ g'.keys := by
      intro id hid
      obtain ⟨d, hd⟩ := Option.isSome_iff_exists.mp
        (AList.lookup_isSome.mpr (AList.mem_keys.mpr hid))
      rw [hdoc, doc, hg'] at hd
      exact AList.mem_keys.mp (AList.lookup_isSome.mp (Option.isSome_iff_exists.mpr ⟨d, hd⟩))
    have hlen := (subperm_of_subset g.nodupKeys hsub).length_le
    simpa [AList.keys, List.keys] using hlen

theorem maxShardLen_congr {w w' : WalMergeDocs σ ν} (h : ∀ k id, w.doc k id = w'.doc k id) :
    w.maxShardLen = w'.maxShardLen := by
  have hle : ∀ {w w' : WalMergeDocs σ ν}, (∀ k id, w.doc k id = w'.doc k id) →
      w.maxShardLen ≤ w'.maxShardLen := by
    intro w w' h
    rcases Nat.eq_zero_or_pos w.maxShardLen with h0 | hpos
    · omega
    · obtain ⟨k, g, hg, hlen⟩ := (le_maxShardLen_iff hpos).mp le_rfl
      obtain ⟨g', hg', hlen'⟩ := length_le_of_doc h hg (by omega)
      exact (le_maxShardLen_iff hpos).mpr ⟨k, g', hg', by omega⟩
  exact le_antisymm (hle h) (hle fun k id => (h k id).symm)

end WalMergeDocs

end SeaSearch
