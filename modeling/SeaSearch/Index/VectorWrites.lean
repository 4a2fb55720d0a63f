import SeaSearch.Index.VectorIds
import SeaSearch.Vector.Faithful

/-!
# The vectors of an index

`WriteTo` hands the vectors of the documents to the vector indexes of their fields. A vector index
knows a document by the number of its id. The segments of a flat or an IVFPQ index write this number
with `Encode` and read it back with `Decode`.
-/

namespace SeaSearch

open List Base62 Versions WalMergeDocs WriteToLemmas SequentialLemmas ConsumeLemmas PartialLemmas
  DocumentLemmas OneLiveLemmas
open ShardBatches (addDoc vecActionsOf)

variable {σ ν δ ε κ : Type}

/-- `flat`, `ivf_pq` and `hnsw`. -/
inductive VecIndexType
  | flat
  | ivfPq
  | hnsw
  deriving DecidableEq

namespace VecIndexType

def key (ty : VecIndexType) (docID : DocID) : Int :=
  match ty with
  | .hnsw => decode (bytes docID)
  | .flat | .ivfPq => decode (encode (decode (bytes docID)))

/-- What is stored under a number after `Batch`: the deletion comes first. A log row of an HNSW
index replaces a vector, and a segment of another index keeps all that are added. -/
def write (ty : VecIndexType) (deleted : Bool) (added stored : List ν) : List ν :=
  let kept := if deleted then [] else stored
  match ty with
  | .hnsw => added.getLast?.elim kept fun v => [v]
  | .flat | .ivfPq => kept ++ added

end VecIndexType

abbrev Vectors (ν : Type) := String → Int → List ν

namespace Vectors

/-- `Batch` on the vector index of a field. -/
def batch (types : String → VecIndexType) (V : Vectors ν) (f : String)
    (inserts : List (DocID × ν)) (deletes : List DocID) : Vectors ν :=
  Function.update V f fun k =>
    (types f).write (decide (k ∈ deletes.map (types f).key))
      ((inserts.filter fun p => (types f).key p.1 = k).map Prod.snd) (V f k)

def runEffect (types : String → VecIndexType) (V : Vectors ν) : Effect σ ν → Vectors ν
  | .vectors f inserts deletes => V.batch types f inserts deletes
  | .setTimestamp _ => V
  | .commit _ _ _ => V

def runEffects (types : String → VecIndexType) (V : Vectors ν) (es : Effects σ ν) :
    Vectors ν :=
  es.foldl (runEffect types) V

end Vectors

namespace VecOp

def id : VecOp ν → DocID
  | .insert _ id _ => id
  | .update _ id _ => id
  | .delete _ id => id

def added : VecOp ν → Option ν
  | .insert _ _ v => some v
  | .update _ _ v => some v
  | .delete _ _ => none

def deletes : VecOp ν → Bool
  | .insert _ _ _ => false
  | .update _ _ _ => true
  | .delete _ _ => true

def inserted (a : VecOp ν) : Option (DocID × ν) := a.added.map fun v => (a.id, v)

/-- The entry of `deleteIdList`. -/
def deleted (a : VecOp ν) : Option DocID := if a.deletes then some a.id else none

end VecOp

def VecIndexType.apply (ty : VecIndexType) (acts : List (VecOp ν)) (stored : List ν) : List ν :=
  ty.write (acts.any VecOp.deletes) (acts.filterMap VecOp.added) stored

/-- A `Batch` as the segment has it, with the numbers of the documents. -/
def batchCall (inserts : List (DocID × List α)) (deletes : List DocID) : BatchCall α where
  addIDs := inserts.map fun p => decode (bytes p.1)
  vectors := inserts.map Prod.snd
  delIDs := deletes.map fun id => decode (bytes id)

/-- The call of `Batch` that an effect makes on the vector index of the field. -/
def batchOn (f : String) : Effect σ (List α) → Option (BatchCall α)
  | .vectors f' inserts deletes => if f' = f then some (batchCall inserts deletes) else none
  | _ => none

def actsOn (types : String → VecIndexType) (f : String) (k : Int) (acts : List (VecOp ν)) :
    List (VecOp ν) :=
  acts.filter fun a => a.field = f ∧ (types f).key a.id = k

namespace VectorLemmas

variable {types : String → VecIndexType} {V : Vectors ν} {f : String} {k : Int}
  {es : Effects σ ν}

theorem runEffects_append (types : String → VecIndexType) (V : Vectors ν)
    (es es' : Effects σ ν) :
    V.runEffects types (es ++ es') = (V.runEffects types es).runEffects types es' :=
  foldl_append

@[simp] theorem write_nothing (ty : VecIndexType) (stored : List ν) :
    ty.write false [] stored = stored := by
  cases ty <;> simp [VecIndexType.write]

@[simp] theorem apply_nil (ty : VecIndexType) (stored : List ν) : ty.apply [] stored = stored :=
  write_nothing ty stored

theorem batch_self (types : String → VecIndexType) (V : Vectors ν) (f : String)
    (inserts : List (DocID × ν)) (deletes : List DocID) (k : Int) :
    V.batch types f inserts deletes f k = (types f).write (decide (k ∈ deletes.map (types f).key))
        ((inserts.filter fun p => (types f).key p.1 = k).map Prod.snd) (V f k) := by
  rw [Vectors.batch, Function.update_self]

theorem batch_of_ne (h : f ≠ f') (inserts : List (DocID × ν)) (deletes : List DocID) :
    V.batch types f' inserts deletes f k = V f k := by
  rw [Vectors.batch, Function.update_of_ne h]

theorem runEffects_induction {P : List ν → Prop} (h : P (V f k))
    (hstep : ∀ inserts deletes, Effect.vectors f inserts deletes ∈ es → ∀ stored, P stored →
      P ((types f).write (decide (k ∈ deletes.map (types f).key))
        ((inserts.filter fun p => (types f).key p.1 = k).map Prod.snd) stored)) :
    P (V.runEffects types es f k) := by
  induction es generalizing V with
  | nil => exact h
  | cons e es ih =>
    refine ih (V := V.runEffect types e) ?_ fun inserts deletes hmem =>
      hstep inserts deletes (mem_cons_of_mem e hmem)
    cases e with
    | setTimestamp t => exact h
    | commit g i b => exact h
    | vectors f' inserts deletes =>
      by_cases hf : f = f'
      · subst hf
        show P (V.batch types f inserts deletes f k)
        rw [batch_self]
        exact hstep inserts deletes mem_cons_self _ h
      · show P (V.batch types f' inserts deletes f k)
        rw [batch_of_ne hf]
        exact h

theorem runEffects_other (h : ∀ inserts deletes, Effect.vectors f inserts deletes ∉ es) :
    V.runEffects types es f k = V f k :=
  runEffects_induction (P := fun stored => stored = V f k) rfl
    fun inserts deletes hmem => absurd hmem (h inserts deletes)

theorem runEffects_untouched
    (h : ∀ ins dels, Effect.vectors f ins dels ∈ es → ∀ id ∈ ins.map Prod.fst ++ dels,
      (types f).key id ≠ k) : V.runEffects types es f k = V f k := by
  refine runEffects_induction (P := fun stored => stored = V f k) rfl ?_
  rintro ins dels hmem _ rfl
  have hkeys := h ins dels hmem
  have hins : ins.filter (fun p => (types f).key p.1 = k) = [] :=
    filter_eq_nil_iff.2 fun p hp hkey =>
      hkeys p.1 (mem_append_left _ (mem_map_of_mem hp)) (of_decide_eq_true hkey)
  have hdels : k ∉ dels.map (types f).key := fun hin => by
    obtain ⟨id, hid, hkey⟩ := mem_map.1 hin
    exact hkeys id (mem_append_right _ hid) hkey
  rw [hins, decide_eq_false hdels, map_nil, write_nothing]

section Hnsw

variable {α : Type} {V : Vectors (List α)} {content : Int → Option (List α)}

/-- A batch of an HNSW index is `replayCall`. -/
theorem hnsw_batch (hty : types f = .hnsw) (hcontent : ∀ k, V f k = (content k).toList)
    (inserts : List (DocID × List α)) (deletes : List DocID) (k : Int) :
    V.batch types f inserts deletes f k =
      (replayCall content (batchCall inserts deletes) k).toList := by
  have hkey : (types f).key = fun id => decode (bytes id) := by
    rw [hty]
    rfl
  rw [batch_self, hkey, hty, hcontent, replayCall, batchCall, zip_map', foldl_update, current_map,
    current, last]
  simp only [VecIndexType.write, List.getLast?_map]
  cases (inserts.filter fun p => decode (bytes p.1) = k).getLast? with
  | none =>
    by_cases hk : k ∈ deletes.map fun id => decode (bytes id)
    · simp [hk]
    · simp [hk]
  | some p => rfl

theorem hnsw_effects (hty : types f = .hnsw) (hcontent : ∀ k, V f k = (content k).toList)
    (es : List (Effect σ (List α))) (k : Int) :
    V.runEffects types es f k = ((es.filterMap (batchOn f)).foldl replayCall content k).toList := by
  induction es generalizing V content with
  | nil => exact hcontent k
  | cons e es ih =>
    cases e with
    | setTimestamp | commit => exact ih hcontent
    | vectors f' inserts deletes =>
      by_cases hf : f' = f
      · subst hf
        rw [filterMap_cons, batchOn, if_pos rfl]
        exact ih (hnsw_batch hty hcontent inserts deletes)
      · rw [filterMap_cons, batchOn, if_neg hf]
        exact ih fun k => (batch_of_ne (Ne.symm hf) inserts deletes).trans (hcontent k)

end Hnsw

theorem batchVectors_eq (visit : List String → List String) (acts : List (VecOp ν)) :
    (batchVectors visit acts : Effects σ ν) =
      (visit (acts.map VecOp.field).dedup).map fun f =>
        .vectors f ((acts.filter fun a => a.field = f).filterMap VecOp.inserted)
          ((acts.filter fun a => a.field = f).filterMap VecOp.deleted) := by
  have hinserted : (VecOp.inserted : VecOp ν → Option (DocID × ν)) = fun
      | .insert _ id v => some (id, v)
      | .update _ id v => some (id, v)
      | .delete _ _ => none := by
    funext a
    cases a <;> rfl
  have hdeleted : (VecOp.deleted : VecOp ν → Option DocID) = fun
      | .insert _ _ _ => none
      | .update _ id _ => some id
      | .delete _ id => some id := by
    funext a
    cases a <;> rfl
  rw [hinserted, hdeleted]
  rfl

theorem map_inserted (acts : List (VecOp ν)) (p : DocID → Bool) :
    ((acts.filterMap VecOp.inserted).filter fun x => p x.1).map Prod.snd =
      (acts.filter fun a => p a.id).filterMap VecOp.added := by
  induction acts with
  | nil => rfl
  | cons a acts ih =>
    cases hadded : a.added <;> cases hp : p a.id <;>
      simp [VecOp.inserted, hadded, hp, ih]

theorem mem_deleted {acts : List (VecOp ν)} :
    k ∈ (acts.filterMap VecOp.deleted).map g ↔
      (acts.filter fun a => g a.id = k).any VecOp.deletes = true := by
  simp only [mem_map, mem_filterMap, any_eq_true, mem_filter, decide_eq_true_eq, VecOp.deleted]
  constructor
  · rintro ⟨id, ⟨a, ha, hid⟩, rfl⟩
    split at hid
    · next hdeletes =>
      cases hid
      exact ⟨a, ⟨ha, rfl⟩, hdeletes⟩
    · cases hid
  · rintro ⟨a, ⟨ha, rfl⟩, hdeletes⟩
    exact ⟨a.id, ⟨a, ha, by rw [if_pos hdeletes]⟩, rfl⟩

theorem batch_acts (V : Vectors ν) (acts : List (VecOp ν)) :
    V.batch types f ((acts.filter fun a => a.field = f).filterMap VecOp.inserted)
      ((acts.filter fun a => a.field = f).filterMap VecOp.deleted) f k =
      (types f).apply (actsOn types f k acts) (V f k) := by
  have hacts : actsOn types f k acts =
      (acts.filter fun a => a.field = f).filter fun a => (types f).key a.id = k := by
    rw [actsOn, filter_filter]
    exact filter_congr fun a _ => by simp [Bool.and_comm]
  rw [batch_self, VecIndexType.apply, hacts, map_inserted _ fun id => decide ((types f).key id = k)]
  congr 1
  rw [Bool.eq_iff_iff, decide_eq_true_iff]
  exact mem_deleted

theorem no_batch {fields : List String} (h : f ∉ fields) {inserts : String → List (DocID × ν)}
    {deletes : String → List DocID} (ins : List (DocID × ν)) (dels : List DocID) :
    Effect.vectors f ins dels ∉
      fields.map fun f => (.vectors f (inserts f) (deletes f) : Effect σ ν) := by
  intro hin
  obtain ⟨f', hf', heq⟩ := mem_map.1 hin
  cases heq
  exact h hf'

theorem runEffects_batchVectors (hvisit : ∀ l, (visit l).Perm l) (acts : List (VecOp ν)) :
    V.runEffects types (batchVectors visit acts : Effects σ ν) f k =
      (types f).apply (actsOn types f k acts) (V f k) := by
  have hnodup : (visit (acts.map VecOp.field).dedup).Nodup :=
    (hvisit _).nodup_iff.2 (nodup_dedup _)
  have hmem : f ∈ visit (acts.map VecOp.field).dedup ↔ f ∈ acts.map VecOp.field :=
    (hvisit _).mem_iff.trans mem_dedup
  rw [batchVectors_eq]
  by_cases hf : f ∈ visit (acts.map VecOp.field).dedup
  · -- the batch of the field is the only one on it
    obtain ⟨before, after, hsplit⟩ := append_of_mem hf
    rw [hsplit] at hnodup ⊢
    obtain ⟨-, hafter, hbefore⟩ := nodup_append.1 hnodup
    rw [map_append, map_cons, runEffects_append]
    refine (runEffects_other (no_batch (nodup_cons.1 hafter).1)).trans ?_
    refine (batch_acts _ acts).trans (congrArg _ (runEffects_other (no_batch ?_)))
    exact fun hin => hbefore f hin f mem_cons_self rfl
  · have hnil : actsOn types f k acts = [] := by
      refine filter_eq_nil_iff.2 fun a ha hfield => ?_
      exact hf (hmem.2 (mem_map.2 ⟨a, ha, (of_decide_eq_true hfield).1⟩))
    rw [hnil, apply_nil]
    exact runEffects_other (no_batch hf)

section Flush

variable {n : Nat} {env : FlushEnv σ ν} {w : WalMergeDocs σ ν} {ops : Ops σ ν}
  {g : Int} {ds : List (WalDocument σ ν)} {d : WalDocument σ ν}

theorem vecActions_foldl (now : Int) (vecFields : List String) (ds : List (WalDocument σ ν))
    (acc : ShardBatches σ ν) :
    (ds.foldl (addDoc now vecFields) acc).vecActions =
      acc.vecActions ++ ds.flatMap (vecActionsOf vecFields) := by
  induction ds generalizing acc with
  | nil => simp
  | cons d ds ih => simp [ih, addDoc]

theorem writeToShard_vectors (h : writeToShard env n g ds = .ok es) :
    ∃ pre, (∀ f inserts deletes, Effect.vectors f inserts deletes ∉ pre) ∧
      es = pre ++ batchVectors env.order.fields
        (ds.flatMap (vecActionsOf env.vecFields)) := by
  rw [writeToShard] at h
  simp only [vecActions_foldl, nil_append] at h
  generalize (if g = shardIDNeedLatest then (n : Int) - 1 else g) = shard at h
  split at h
  · split at h
    · cases h
    · cases h
      refine ⟨_ ++ [_], ?_, (append_assoc _ [_] _).symm⟩
      simp
  · split at h
    · cases h
    · cases h
      refine ⟨_ ++ _ :: _, ?_, rfl⟩
      simp

theorem runEffects_writeToShard (h : writeToShard env n g ds = .ok es) :
    V.runEffects types es f k = (types f).apply
      (actsOn types f k (ds.flatMap (vecActionsOf env.vecFields))) (V f k) := by
  obtain ⟨pre, hpre, rfl⟩ := writeToShard_vectors h
  rw [runEffects_append, runEffects_batchVectors env.order.fields_perm]
  exact congrArg _ (runEffects_other (hpre f))

theorem mem_visited (env : FlushEnv σ ν) (hw : w.Addressed n) :
    (∃ ds, (g, ds) ∈ visited env.order w ∧ d ∈ ds) ↔ w.doc g d.docID = some d := by
  constructor
  · rintro ⟨ds, hg, hd⟩
    obtain ⟨-, -, hnodup, hlook⟩ := groupsOk_visited hw env.order _ hg
    rw [← hlook d.docID]
    obtain ⟨as, bs, rfl, has, -⟩ := MergeLemmas.split_at_id hnodup hd
    have hnone : as.find? (fun a => a.docID = d.docID) = none := by simpa using has
    simp [hnone]
  · intro hdoc
    obtain ⟨dm, hdm, -⟩ := Option.bind_eq_some_iff.1 hdoc
    have hvisited : (g, (env.order.docs dm.entries).map Sigma.snd) ∈ visited env.order w :=
      mem_map.2
        ⟨⟨g, dm⟩, (env.order.groups_perm _).mem_iff.2 (AList.mem_lookup_iff.1 hdm), rfl⟩
    obtain ⟨-, -, -, hlook⟩ := groupsOk_visited hw env.order _ hvisited
    exact ⟨_, hvisited, mem_of_find?_eq_some ((hlook d.docID).trans hdoc)⟩

theorem exists_group {groups : List (Int × List (WalDocument σ ν))}
    (h : e ∈ (writeGroups write groups).1) :
    ∃ g ∈ groups, ∃ es, write g.1 g.2 = .ok es ∧ e ∈ es := by
  induction groups with
  | nil => cases h
  | cons g groups ih =>
    rw [writeGroups] at h
    split at h
    · cases h
    · next es hok =>
      rcases mem_append.1 h with h | h
      · exact ⟨g, mem_cons_self, es, hok, h⟩
      · obtain ⟨g', hg', hes⟩ := ih h
        exact ⟨g', mem_cons_of_mem g hg', hes⟩

theorem mem_batchVectors
    (h : Effect.vectors f ins dels ∈ (batchVectors visit acts : Effects σ ν)) :
    ins = (acts.filter fun a => a.field = f).filterMap VecOp.inserted ∧
      dels = (acts.filter fun a => a.field = f).filterMap VecOp.deleted := by
  rw [batchVectors_eq] at h
  obtain ⟨f', -, heq⟩ := mem_map.1 h
  cases heq
  exact ⟨rfl, rfl⟩

theorem id_of_vecActionsOf {vecFields : List String}
    (h : a ∈ vecActionsOf vecFields d) : a.id = d.docID := by
  rw [vecActionsOf] at h
  split at h
  · cases h
  · obtain ⟨p, -, rfl⟩ := mem_map.1 h
    rfl
  · obtain ⟨p, -, rfl⟩ := mem_map.1 h
    rfl
  · rcases mem_append.1 h with h | h
    · obtain ⟨p, -, rfl⟩ := mem_map.1 h
      rfl
    · obtain ⟨f, -, rfl⟩ := mem_map.1 h
      rfl

theorem exists_op (hc : w.Collects ops) {id : DocID} (h : w.doc g id = some d) :
    ∃ o ∈ ops, o.docID = id ∧ o.shard = g := by
  rw [hc g id] at h
  cases hops : opsOf ops g id with
  | nil =>
    rw [hops] at h
    cases h
  | cons o os =>
    have ho : o ∈ opsOf ops g id := hops ▸ mem_cons_self
    obtain ⟨hmem, hshard, hid⟩ := mem_opsOf.1 ho
    exact ⟨o, hmem, hid, hshard⟩

theorem exists_doc (hc : w.Collects ops) (ho : o ∈ ops) :
    ∃ d, w.doc o.shard o.docID = some d ∧ d.docID = o.docID := by
  have hmem : o ∈ opsOf ops o.shard o.docID := mem_opsOf.2 ⟨ho, rfl, rfl⟩
  obtain ⟨p, ps, hops⟩ := exists_cons_of_ne_nil (ne_nil_of_mem hmem)
  have hdoc := hc o.shard o.docID
  rw [hops] at hdoc
  obtain ⟨g, hg, hd⟩ := Option.bind_eq_some_iff.1 hdoc
  exact ⟨_, hdoc, w.keyed _ _ _ _ hg hd⟩

/-- The ids of a batch are those of the operations, and the added ones those of inserts and
updates. -/
structure FromOps (ops : Ops σ ν) (ins : List (DocID × ν)) (dels : List DocID) :
    Prop where
  inserted : ∀ p ∈ ins, ∃ o ∈ ops, o.docID = p.1 ∧ (o.action = .insert ∨ o.action = .update)
  deleted : ∀ id ∈ dels, ∃ o ∈ ops, o.docID = id

theorem FromOps.exists_op {ins : List (DocID × ν)} (h : FromOps ops ins dels) {id : DocID}
    (hid : id ∈ ins.map Prod.fst ++ dels) : ∃ o ∈ ops, o.docID = id := by
  rcases mem_append.1 hid with hid | hid
  · obtain ⟨p, hp, rfl⟩ := mem_map.1 hid
    exact (h.inserted p hp).imp fun o ho => ⟨ho.1, ho.2.1⟩
  · exact h.deleted id hid

theorem vec_of_deletes (hfirst : d.first = .delete ∨ d.first = .deleteVecOnly)
    (hrest : ∀ a ∈ d.rest, a = .delete ∨ a = .deleteVecOnly) : d.merge.vec = .delete := by
  rw [WalDocument.merge]
  cases hlast : d.rest.getLast? with
  | none => rcases hfirst with h | h <;> rw [h]
  | some a =>
    rcases hfirst with h | h <;> rw [h] <;>
      rcases hrest a (mem_of_getLast? hlast) with rfl | rfl <;> rfl

theorem exists_adding (hc : w.Collects ops) (hd : w.doc g d.docID = some d)
    (ha : a ∈ vecActionsOf vecFields d) (hadded : a.added = some v) :
    ∃ o ∈ ops, o.docID = d.docID ∧ (o.action = .insert ∨ o.action = .update) := by
  by_contra hnone
  push Not at hnone
  have hdeletes : ∀ o ∈ opsOf ops g d.docID, o.action = .delete ∨ o.action = .deleteVecOnly := by
    intro o ho
    obtain ⟨hmem, -, hid⟩ := mem_opsOf.1 ho
    obtain ⟨hinsert, hupdate⟩ := hnone o hmem hid
    cases haction : o.action with
    | insert => exact absurd haction hinsert
    | update => exact absurd haction hupdate
    | delete => exact .inl rfl
    | deleteVecOnly => exact .inr rfl
  have hvec : d.merge.vec = .delete := by
    rw [hc g d.docID] at hd
    generalize opsOf ops g d.docID = os at hd hdeletes
    cases os with
    | nil => cases hd
    | cons o os =>
      cases hd
      refine vec_of_deletes (hdeletes o mem_cons_self) fun a ha => ?_
      obtain ⟨o', ho', rfl⟩ := mem_map.1 ha
      exact hdeletes o' (mem_cons_of_mem _ ho')
  rw [vecActionsOf, hvec] at ha
  rcases mem_append.1 ha with ha | ha <;>
    · obtain ⟨p, -, rfl⟩ := mem_map.1 ha
      cases hadded

theorem fromOps_writeTo (hw : w.Addressed n) (hc : w.Collects ops)
    (h : Effect.vectors f ins dels ∈ (w.writeTo env n false).1) : FromOps ops ins dels := by
  obtain ⟨g, hg, es, hok, hin⟩ := exists_group h
  obtain ⟨pre, hpre, rfl⟩ := writeToShard_vectors hok
  obtain ⟨rfl, rfl⟩ := mem_batchVectors ((mem_append.1 hin).resolve_left (hpre f ins dels))
  have hacts : ∀ a ∈ (g.2.flatMap (vecActionsOf env.vecFields)).filter fun a => a.field = f,
      ∃ d, a ∈ vecActionsOf env.vecFields d ∧ w.doc g.1 d.docID = some d := by
    intro a ha
    obtain ⟨d, hd, had⟩ := mem_flatMap.1 (mem_filter.1 ha).1
    exact ⟨d, had, (mem_visited env hw).1 ⟨g.2, hg, hd⟩⟩
  refine ⟨fun p hp => ?_, fun id hid => ?_⟩
  · obtain ⟨a, ha, hinserted⟩ := mem_filterMap.1 hp
    obtain ⟨v, hadded, rfl⟩ := Option.map_eq_some_iff.1 hinserted
    obtain ⟨d, had, hdoc⟩ := hacts a ha
    rw [id_of_vecActionsOf had]
    exact exists_adding hc hdoc had hadded
  · obtain ⟨a, ha, hdeleted⟩ := mem_filterMap.1 hid
    obtain ⟨d, had, hdoc⟩ := hacts a ha
    rw [VecOp.deleted] at hdeleted
    split at hdeleted
    · cases hdeleted
      obtain ⟨o, ho, hdocID, -⟩ := exists_op hc hdoc
      exact ⟨o, ho, hdocID.trans (id_of_vecActionsOf had).symm⟩
    · cases hdeleted

end Flush

end VectorLemmas

open VectorLemmas in
/-- The content of an HNSW index is what the effects of the flushes leave in it, in every run of its
segment with their calls of `Batch`, whenever it is loaded. -/
theorem hnsw_content_effects {types : String → VecIndexType} (hty : types f = .hnsw)
    (es : List (Effect σ (List α))) (events : List (HNSWEvent α d))
    (hl : (HNSWSystem.run events).memory.loaded)
    (hcalls : (HNSWSystem.run events).calls = es.filterMap (batchOn f)) (k : Int) :
    Vectors.runEffects types (fun _ _ => []) es f k =
      ((HNSWSystem.run events).content k).toList := by
  obtain ⟨L, m, b, hinv⟩ := SegmentInv.run events
  rw [hinv.faithful.content hl, hcalls]
  exact hnsw_effects hty (fun _ => rfl) es k

def twoVectorEffects : List (Effect Unit (List Nat)) :=
  [.vectors "v" [("7", [5]), ("8", [6])] [], .vectors "v" [("7", [9])] ["7", "8"]]

/-- The vector of "7" is replaced and that of "8" deleted, after a rebuild. -/
theorem hnsw_content_effects_replaced :
    Vectors.runEffects (fun _ => .hnsw) (fun _ _ => []) twoVectorEffects "v" 7 = [[9]] ∧
      Vectors.runEffects (fun _ => .hnsw) (fun _ _ => []) twoVectorEffects "v" 8 = [] :=
  ⟨hnsw_content_effects rfl twoVectorEffects replacedSeven rfl rfl 7,
    hnsw_content_effects rfl twoVectorEffects replacedSeven rfl rfl 8⟩

/-- A flush of some operations on a first-layer shard with `n` second-layer shards. -/
structure DocFlush (σ ν : Type) where
  env : FlushEnv σ ν
  n : Nat
  ops : Ops σ ν
  docs : WalMergeDocs σ ν
  pos : 0 < n
  collects : docs.Collects ops
  addressed : docs.Addressed n

/-- The effects of `WriteTo`. -/
def DocFlush.effects (fl : DocFlush σ ν) : Effects σ ν :=
  (fl.docs.writeTo fl.env fl.n false).1

/-- The effects of the second loop of `CommitOperations`. -/
def commitEffects (flush : Nat → FlushEnv σ ν) (n : Nat) :
    Nat → List (Ops σ ν) → Effects σ ν
  | _, [] => []
  | i, b :: bs =>
    let (effects, err) := (empty.addDocuments b).writeTo (flush i) n false
    match err with
    | some _ => effects
    | none => effects ++ commitEffects flush n (i + 1) bs

def effectsOf (es : Events σ ν) : Effects σ ν :=
  es.filterMap fun
    | .effect e => some e
    | _ => none

namespace Index

variable {B : Bluge σ} [DecidableEq κ]

/-- The effects of `commitAll`. -/
def commitAllEffects (commit : κ → CommitEnv σ ν) (ix : Index B ν κ) (ops : Ops σ ν) :
    Effects σ ν :=
  ix.keys.flatMap fun k =>
    commitEffects (commit k).flush (ix.stores k).shard.shardNum 0
      (slices (commit k).batchSize (ops.filter fun o => ix.lookup o.docID = k))

end Index

namespace VectorLemmas

section Commit

variable {flush : Nat → FlushEnv σ ν} {bs : List (Ops σ ν)} {n : Nat}

theorem commitEffects_cons (hn : 0 < n) (i : Nat) (hb : ∀ o ∈ b, o.WritePath n) :
    commitEffects flush n i (b :: bs) =
      ((empty.addDocuments b).writeTo (flush i) n false).1 ++ commitEffects flush n (i + 1) bs := by
  have hadr := addressed_addDocuments hn (addressed_empty (σ := σ) (ν := ν)) b hb
  have herr := (writeTo_committed (flush i) hn hadr).1
  rw [commitEffects]
  simp [herr]

theorem commit_flushes (flush : Nat → FlushEnv σ ν) (hn : 0 < n)
    (hbs : ∀ b ∈ bs, ∀ o ∈ b, o.WritePath n) (i : Nat) :
    ∃ fls : List (DocFlush σ ν), commitEffects flush n i bs = fls.flatMap DocFlush.effects ∧
      fls.map DocFlush.ops = bs := by
  induction bs generalizing i with
  | nil => exact ⟨[], rfl, rfl⟩
  | cons b bs ih =>
    obtain ⟨hb, hbs⟩ := forall_mem_cons.1 hbs
    obtain ⟨fls, heffects, hops⟩ := ih hbs (i + 1)
    refine ⟨⟨flush i, n, b, empty.addDocuments b, hn, collects_addDocuments blank_empty b,
      addressed_addDocuments hn addressed_empty b hb⟩ :: fls, ?_, by rw [map_cons, hops]⟩
    rw [commitEffects_cons hn i hb, heffects]
    rfl

end Commit

section Consume

variable {B : Bluge σ} {st : Store B ν}

theorem effectsOf_visible (es : Events σ ν) : effectsOf (visible es) = effectsOf es := by
  rw [effectsOf, effectsOf, visible, filterMap_filter]
  refine filterMap_congr fun e _ => ?_
  cases e <;> rfl

theorem effectsOf_map_effect (es : Effects σ ν) : effectsOf (es.map .effect) = es := by
  rw [effectsOf, filterMap_map]
  exact filterMap_some

variable (env : CallEnv σ ν)

theorem effectsOf_events (n : Nat) (fl : Flush σ ν) :
    effectsOf (fl.events env n) = fl.effects env n := by
  have hreads : ∀ i k, effectsOf (Flush.reads i k : Events σ ν) = [] := fun i k => by
    rw [effectsOf, Flush.reads, filterMap_map]
    exact filterMap_eq_nil_iff.2 fun _ _ => rfl
  have hwrites : effectsOf (fl.writes env n) = fl.effects env n := by
    refine Eq.trans ?_ (effectsOf_map_effect (fl.effects env n))
    rw [effectsOf, effectsOf, Flush.writes, filterMap_append]
    exact append_nil _
  rw [effectsOf, Flush.events, filterMap_append]
  exact (congrArg₂ (· ++ ·) (hreads _ _) hwrites).trans (nil_append _)

theorem effectsOf_closing (i : Nat) : effectsOf (closing env i) = [] := by
  refine filterMap_eq_nil_iff.2 fun e he => ?_
  rcases mem_closing he with rfl | rfl | rfl <;> rfl

theorem docFlushes_of_ok {n : Nat} (hn : 0 < n) {fs : List (Flush σ ν)} (hok : ∀ fl ∈ fs, fl.Ok n) :
    ∃ fls : List (DocFlush σ ν), fls.flatMap DocFlush.effects = fs.flatMap (Flush.effects env n) ∧
      fls.map DocFlush.ops = fs.map Flush.ops := by
  induction fs with
  | nil => exact ⟨[], rfl, rfl⟩
  | cons fl fs ih =>
    obtain ⟨fls, heffects, hops⟩ := ih fun fl' hfl' => hok fl' (mem_cons_of_mem fl hfl')
    have hfl := hok fl mem_cons_self
    refine ⟨⟨env.flush fl.startID, n, fl.ops, fl.docs, hn, hfl.collects, hfl.addressed⟩ :: fls,
      ?_, ?_⟩
    · rw [flatMap_cons, flatMap_cons, heffects]
      rfl
    · rw [map_cons, map_cons, hops]

theorem consume_flushes (hst : st.Ready) (hlast : st.wal.lastIndex + 1 < 2 ^ 64) :
    ∃ fls : List (DocFlush σ ν),
      effectsOf (consumeWAL env st).steps = fls.flatMap DocFlush.effects ∧
      fls.map DocFlush.ops = batchesFrom env.batchSize [] st.backlog := by
  by_cases hnew : st.redoMax = st.wal.lastIndex
  · have hsteps : (consumeWAL env st).steps = [] := by simp [consumeWAL, hnew]
    rw [hsteps, backlog_eq_nil hnew]
    exact ⟨[], rfl, rfl⟩
  · obtain ⟨fs, steps, hfs, hcall, hvis, -⟩ := consumeWAL_spec env hst hlast hnew
    obtain ⟨fls, heffects, hops⟩ := docFlushes_of_ok env st.shard.shardNum_pos hfs.ok
    refine ⟨fls, ?_, hops.trans hfs.ops⟩
    rw [hcall, ← effectsOf_visible, hvis, effectsOf, filterMap_append, filterMap_flatMap, heffects]
    refine (congrArg₂ (· ++ ·) ?_ (effectsOf_closing env _)).trans (append_nil _)
    exact flatMap_congr fun fl _ => effectsOf_events env _ fl

end Consume

theorem FromOps.mono {ops ops' : Ops σ ν} (h : FromOps ops ins dels)
    (hops : ∀ o ∈ ops, o ∈ ops') : FromOps ops' ins dels where
  inserted p hp := (h.inserted p hp).imp fun o ho => ⟨hops o ho.1, ho.2⟩
  deleted id hid := (h.deleted id hid).imp fun o ho => ⟨hops o ho.1, ho.2⟩

theorem fromOps_flushes {fls : List (DocFlush σ ν)}
    (h : Effect.vectors f ins dels ∈ fls.flatMap DocFlush.effects) :
    FromOps (fls.map DocFlush.ops).flatten ins dels := by
  obtain ⟨fl, hfl, hin⟩ := mem_flatMap.1 h
  exact (fromOps_writeTo fl.addressed fl.collects hin).mono fun o ho =>
    mem_flatten.2 ⟨fl.ops, mem_map_of_mem hfl, ho⟩

end VectorLemmas

end SeaSearch
