import SeaSearch.Index.VectorWrites

/-!
# The vectors of the latest version

A document is inserted and updated, with any of the vector fields. `WriteToShard` makes an action of
each vector field that the last operation of the flush has, and none of the other fields.
-/

namespace SeaSearch

open List Versions WalMergeDocs WriteToLemmas SequentialLemmas VectorLemmas
open ShardBatches (vecActionsOf)
open Operation (action docID)

variable {σ ν : Type}

/-- A flush of inserts and updates:
* `fields`: the vector fields of a document are those of a map;
* `shard`: the operations on one document are for the same second-layer shard. -/
structure DocFlush.Writes (fl : DocFlush σ ν) : Prop where
  actions : ∀ o ∈ fl.ops, o.action = .insert ∨ o.action = .update
  fields : ∀ o ∈ fl.ops, (o.fields.vectors.map Prod.fst).Nodup
  shard : ∀ o ∈ fl.ops, ∀ o' ∈ fl.ops, o.docID = o'.docID → o.shard = o'.shard

/-- The flushes one after another:
* `fresh`: a document that is inserted has not been written by a flush before;
* `numbers`: documents with different ids have different numbers. -/
structure WriteRun (types : String → VecIndexType) (fls : List (DocFlush σ ν)) : Prop where
  writes : ∀ fl ∈ fls, fl.Writes
  fresh : fls.Pairwise fun fl fl' =>
    ∀ o ∈ fl.ops, ∀ o' ∈ fl'.ops, o'.action = .insert → o.docID ≠ o'.docID
  numbers : ∀ f, ∀ o ∈ fls.flatMap DocFlush.ops, ∀ o' ∈ fls.flatMap DocFlush.ops,
    (types f).key o.docID = (types f).key o'.docID → o.docID = o'.docID

def vectorsAfter (types : String → VecIndexType) (fls : List (DocFlush σ ν)) : Vectors ν :=
  Vectors.runEffects types (fun _ _ => []) (fls.flatMap DocFlush.effects)

def DocFlush.version (fl : DocFlush σ ν) (id : DocID) : Option (Fields σ ν) :=
  (last docID fl.ops id).map Operation.fields

def versionsOf (fls : List (DocFlush σ ν)) (id : DocID) : List (Fields σ ν) :=
  fls.filterMap fun fl => fl.version id

def latestVersion (fls : List (DocFlush σ ν)) (id : DocID) : Option (Fields σ ν) :=
  (last docID (fls.flatMap DocFlush.ops) id).map Operation.fields

namespace VectorVersionLemmas

variable {types : String → VecIndexType} {V : Vectors ν} {f : String} {k : Int}

theorem filter_field {l : List (String × ν)} (h : (l.map Prod.fst).Nodup) (f : String) :
    l.filter (fun p => p.1 = f) = (l.lookup f).toList.map fun v => (f, v) := by
  induction l with
  | nil => rfl
  | cons p l ih =>
    obtain ⟨g, v⟩ := p
    obtain ⟨hnot, hnodup⟩ := nodup_cons.1 h
    by_cases hg : g = f
    · subst hg
      have hrest : l.filter (fun q => q.1 = g) = [] :=
        filter_eq_nil_iff.2 fun q hq heq =>
          hnot (mem_map.2 ⟨q, hq, of_decide_eq_true heq⟩)
      simp [hrest]
    · have hne : (f == g) = false := beq_eq_false_iff_ne.2 (Ne.symm hg)
      simp [lookup_cons, hg, hne, ih hnodup]

theorem filter_actions {l : List (String × ν)} (h : (l.map Prod.fst).Nodup)
    (act : String → ν → VecOp ν) (hact : ∀ f v, (act f v).field = f) (f : String) :
    (l.map fun p => act p.1 p.2).filter (fun a => a.field = f) =
      (l.lookup f).toList.map (act f) := by
  have hfilter : l.filter ((fun a : VecOp ν => decide (a.field = f)) ∘ fun p => act p.1 p.2) =
      l.filter fun p => p.1 = f :=
    filter_congr fun p _ => by rw [Function.comp_apply, hact]
  rw [filter_map, hfilter, filter_field h, map_map]
  rfl

theorem merge_writes (h : WalDocument.ofOps os = some d)
    (hos : ∀ o ∈ os, o.action = .insert ∨ o.action = .update) :
    os.getLast?.map Operation.fields = some d.data ∧
      (d.merge.vec = .insert ∧ (∃ o ∈ os, o.action = .insert) ∨ d.merge.vec = .update) := by
  cases os with
  | nil => cases h
  | cons o os =>
    cases h
    refine ⟨?_, ?_⟩
    · rw [List.getLast?_eq_some_getLast (cons_ne_nil o os)]
      rfl
    · have hlast : ∀ a, (os.map action).getLast? = some a → a = .insert ∨ a = .update := by
        intro a ha
        obtain ⟨o', ho', rfl⟩ := mem_map.1 (mem_of_getLast? ha)
        exact hos o' (mem_cons_of_mem o ho')
      rcases hos o mem_cons_self with hfirst | hfirst
      · refine .inl ⟨?_, o, mem_cons_self, hfirst⟩
        rw [WalDocument.merge]
        cases hrest : (os.map action).getLast? with
        | none => simp [hfirst]
        | some a => rcases hlast a hrest with rfl | rfl <;> simp [hfirst]
      · refine .inr ?_
        rw [WalDocument.merge]
        cases hrest : (os.map action).getLast? with
        | none => simp [hfirst]
        | some a => rcases hlast a hrest with rfl | rfl <;> simp [hfirst]

theorem apply_writes {vecFields : List String} {d : WalDocument σ ν}
    (hfields : (d.data.vectors.map Prod.fst).Nodup) (ty : VecIndexType) {stored : List ν}
    (hvec : d.merge.vec = .insert ∧ stored = [] ∨ d.merge.vec = .update) :
    ty.apply ((vecActionsOf vecFields d).filter fun a => a.field = f) stored =
      (d.data.vectors.lookup f).elim stored fun v => [v] := by
  rcases hvec with ⟨hvec, rfl⟩ | hvec
  · have hacts : (vecActionsOf vecFields d).filter (fun a => a.field = f) =
        (d.data.vectors.lookup f).toList.map (VecOp.insert f d.docID) := by
      rw [vecActionsOf, hvec]
      exact filter_actions hfields (fun f v => .insert f d.docID v) (fun _ _ => rfl) f
    rw [hacts]
    cases d.data.vectors.lookup f with
    | none => exact apply_nil ty []
    | some v => cases ty <;> rfl
  · have hacts : (vecActionsOf vecFields d).filter (fun a => a.field = f) =
        (d.data.vectors.lookup f).toList.map (VecOp.update f d.docID) := by
      rw [vecActionsOf, hvec]
      exact filter_actions hfields (fun f v => .update f d.docID v) (fun _ _ => rfl) f
    rw [hacts]
    cases d.data.vectors.lookup f with
    | none => exact apply_nil ty stored
    | some v => cases ty <;> rfl

theorem actsOn_flatMap (vecFields : List String) (ds : List (WalDocument σ ν)) :
    actsOn types f k (ds.flatMap (vecActionsOf vecFields)) =
      (ds.filter fun d => (types f).key d.docID = k).flatMap fun d =>
        (vecActionsOf vecFields d).filter fun a => a.field = f := by
  induction ds with
  | nil => rfl
  | cons d ds ih =>
    have hd : actsOn types f k (vecActionsOf vecFields d) = if (types f).key d.docID = k then
          (vecActionsOf vecFields d).filter fun a => a.field = f
        else [] := by
      split
      case isTrue hk =>
        exact filter_congr fun a ha => by simp [id_of_vecActionsOf ha, hk]
      case isFalse hk =>
        exact filter_eq_nil_iff.2 fun a ha => by simp [id_of_vecActionsOf ha, hk]
    rw [flatMap_cons, actsOn, filter_append]
    refine (congrArg₂ (· ++ ·) hd ih).trans ?_
    by_cases hk : (types f).key d.docID = k
    · simp [hk]
    · simp [hk]

theorem runEffects_writeGroups {n : Nat} {env : FlushEnv σ ν} (hn : 0 < n)
    {look : Int → DocID → Option (WalDocument σ ν)}
    {groups : List (Int × List (WalDocument σ ν))} (hgs : GroupsOk n look groups) :
    V.runEffects types (writeGroups (writeToShard env n) groups).1 f k =
      groups.foldl (fun stored g => (types f).apply
        (actsOn types f k (g.2.flatMap (vecActionsOf env.vecFields))) stored)
        (V f k) := by
  induction groups generalizing V with
  | nil => rfl
  | cons g groups ih =>
    obtain ⟨hk, hkn, -, -⟩ := hgs g mem_cons_self
    obtain ⟨pre, post, b, hok, -, -⟩ := writeToShard_single env hn hk hkn g.2
    have hrest := fun V => ih (V := V) fun g' hg' => hgs g' (mem_cons_of_mem _ hg')
    simp only [writeGroups, hok, foldl_cons]
    rw [runEffects_append, hrest, runEffects_writeToShard hok]

section Flush

variable {fl : DocFlush σ ν} {id : DocID}

theorem runEffects_single {g : Int} {d : WalDocument σ ν} (hdoc : fl.docs.doc g d.docID = some d)
    (hkey : (types f).key d.docID = k)
    (honly : ∀ g' d', fl.docs.doc g' d'.docID = some d' → (types f).key d'.docID = k →
      g' = g ∧ d' = d) :
    V.runEffects types fl.effects f k = (types f).apply
      ((vecActionsOf fl.env.vecFields d).filter fun a => a.field = f) (V f k) := by
  have hgs := groupsOk_visited fl.addressed fl.env.order
  have honly' : ∀ g' ∈ visited fl.env.order fl.docs, ∀ d' ∈ g'.2, (types f).key d'.docID = k →
      g'.1 = g ∧ d' = d := fun g' hg' d' hd' =>
    honly g'.1 d' ((mem_visited fl.env fl.addressed).1 ⟨g'.2, hg', hd'⟩)
  obtain ⟨ds, hg, hd⟩ := (mem_visited fl.env fl.addressed).2 hdoc
  obtain ⟨before, after, hsplit⟩ := append_of_mem hg
  have hnodup : ((visited fl.env.order fl.docs).map Prod.fst).Nodup := by
    rw [visited, map_map]
    exact (nodup_visited fl.env.order fl.docs).1
  refine (runEffects_writeGroups fl.pos hgs).trans ?_
  simp only [actsOn_flatMap]
  -- no other group has the number
  have hother : ∀ g' ∈ before ++ after, ∀ stored : List ν, (types f).apply
      ((g'.2.filter fun d => (types f).key d.docID = k).flatMap fun d =>
        (vecActionsOf fl.env.vecFields d).filter fun a => a.field = f) stored =
      stored := by
    intro g' hg' stored
    have hmem : g' ∈ visited fl.env.order fl.docs := by
      rw [hsplit]
      rcases mem_append.1 hg' with h | h
      · exact mem_append_left _ h
      · exact mem_append_right _ (mem_cons_of_mem _ h)
    have hnil : g'.2.filter (fun d => (types f).key d.docID = k) = [] := by
      refine filter_eq_nil_iff.2 fun d' hd' hk => ?_
      obtain ⟨hfst, -⟩ := honly' g' hmem d' hd' (of_decide_eq_true hk)
      rw [hsplit, map_append, map_cons, nodup_middle, nodup_cons, ← map_append] at hnodup
      exact hnodup.1 (mem_map.2 ⟨g', hg', hfst⟩)
    rw [hnil]
    exact apply_nil _ stored
  have hown : ds.filter (fun d => (types f).key d.docID = k) = [d] := by
    obtain ⟨-, -, hids, -⟩ := hgs _ hg
    obtain ⟨as, bs, rfl, has, hbs⟩ := MergeLemmas.split_at_id hids hd
    have hfirst : as.filter (fun d => (types f).key d.docID = k) = [] :=
      filter_eq_nil_iff.2 fun d' hd' hk => has d' hd' (congrArg WalDocument.docID
        (honly' _ hg d' (mem_append_left _ hd') (of_decide_eq_true hk)).2)
    have hrest : bs.filter (fun d => (types f).key d.docID = k) = [] :=
      filter_eq_nil_iff.2 fun d' hd' hk => hbs d' hd' (congrArg WalDocument.docID
        (honly' _ hg d' (mem_append_right _ (mem_cons_of_mem _ hd')) (of_decide_eq_true hk)).2)
    simp [filter_append, hfirst, hrest, hkey]
  rw [hsplit, foldl_append, foldl_cons,
    Threads.foldl_of_fixed fun g' hg' => hother g' (mem_append_left _ hg') _,
    Threads.foldl_of_fixed fun g' hg' => hother g' (mem_append_right _ hg') _, hown]
  rw [flatMap_singleton]

variable (hkeys : ∀ o ∈ fl.ops, (types f).key o.docID = (types f).key id → o.docID = id)
include hkeys

theorem runEffects_absent (h : fl.version id = none) :
    V.runEffects types fl.effects f ((types f).key id) = V f ((types f).key id) := by
  refine runEffects_untouched fun ins dels hin id' hid' hkey => ?_
  obtain ⟨o, ho, rfl⟩ := (fromOps_writeTo fl.addressed fl.collects hin).exists_op hid'
  exact last_eq_none.1 (Option.map_eq_none_iff.1 h) o ho (hkeys o ho hkey)

theorem runEffects_version (hfl : fl.Writes) (h : fl.version id = some F)
    (hfresh : (∃ o ∈ fl.ops, o.docID = id ∧ o.action = .insert) → V f ((types f).key id) = []) :
    V.runEffects types fl.effects f ((types f).key id) =
      (F.vectors.lookup f).elim (V f ((types f).key id)) fun v => [v] := by
  obtain ⟨o, hlast, rfl⟩ := Option.map_eq_some_iff.1 h
  obtain ⟨ho, rfl⟩ := mem_of_last hlast
  have hops : opsOf fl.ops o.shard o.docID = fl.ops.filter fun p => p.docID = o.docID := by
    refine filter_congr fun p hp => ?_
    by_cases hid : p.docID = o.docID
    · simp [hid, hfl.shard p hp o ho hid]
    · simp [hid]
  obtain ⟨d, hdoc, hdocID⟩ := exists_doc fl.collects ho
  have hmerged := fl.collects o.shard o.docID
  rw [hdoc, hops] at hmerged
  obtain ⟨hdata, hvec⟩ := merge_writes hmerged.symm fun p hp =>
    hfl.actions p (mem_filter.1 hp).1
  have hfields : o.fields = d.data :=
    Option.some.inj ((congrArg (Option.map Operation.fields) hlast).symm.trans hdata)
  have hnodup := hfl.fields o ho
  rw [← hdocID] at hdoc hfresh hkeys ⊢
  rw [hfields] at hnodup ⊢
  rw [runEffects_single hdoc rfl]
  · refine apply_writes hnodup (types f) (hvec.imp_left fun ⟨hinsert, p, hp, hact⟩ =>
      ⟨hinsert, hfresh ⟨p, (mem_filter.1 hp).1, ?_, hact⟩⟩)
    exact (of_decide_eq_true (mem_filter.1 hp).2).trans hdocID.symm
  · -- another document with the number has the id, and so the shard
    intro g' d' hdoc' hkey'
    obtain ⟨o', ho', hid', rfl⟩ := exists_op fl.collects hdoc'
    have hsame : o'.docID = d.docID := hkeys o' ho' (hid' ▸ hkey')
    have hshard : o'.shard = o.shard := hfl.shard o' ho' o ho (hsame.trans hdocID)
    rw [← hid', hsame, hshard, hdoc] at hdoc'
    exact ⟨hshard, (Option.some.inj hdoc').symm⟩

end Flush

section Run

variable {fls : List (DocFlush σ ν)} {fl : DocFlush σ ν} {id : DocID}

theorem vectorsAfter_concat (types : String → VecIndexType) (fls : List (DocFlush σ ν))
    (fl : DocFlush σ ν) :
    vectorsAfter types (fls ++ [fl]) = (vectorsAfter types fls).runEffects types fl.effects := by
  rw [vectorsAfter, vectorsAfter, flatMap_append, flatMap_singleton, runEffects_append]

theorem versionsOf_concat (fls : List (DocFlush σ ν)) (fl : DocFlush σ ν) (id : DocID) :
    versionsOf (fls ++ [fl]) id = versionsOf fls id ++ (fl.version id).toList := by
  rw [versionsOf, filterMap_append]
  cases h : fl.version id with
  | none | some F => simp [h, versionsOf]

theorem latestVersion_eq (fls : List (DocFlush σ ν)) (id : DocID) :
    latestVersion fls id = (versionsOf fls id).getLast? := by
  induction fls using List.reverseRecOn with
  | nil => rfl
  | append_singleton fls fl ih =>
    rw [versionsOf_concat, List.getLast?_append, ← ih, latestVersion, flatMap_append,
      flatMap_singleton, last_append, latestVersion, DocFlush.version]
    cases last docID fl.ops id with
    | none => rfl
    | some o => rfl

theorem versionsOf_eq_nil (h : ∀ fl ∈ fls, ∀ o ∈ fl.ops, o.docID ≠ id) : versionsOf fls id = [] :=
  filterMap_eq_nil_iff.2 fun fl hfl =>
    Option.map_eq_none_iff.2 (last_eq_none.2 (h fl hfl))

theorem vectors_run (hwrites : ∀ fl ∈ fls, fl.Writes)
    (hfresh : fls.Pairwise fun fl fl' =>
      ∀ o ∈ fl.ops, ∀ o' ∈ fl'.ops, o'.action = .insert → o.docID ≠ o'.docID)
    (hkeys : ∀ o ∈ fls.flatMap DocFlush.ops, (types f).key o.docID = (types f).key id →
      o.docID = id) :
    vectorsAfter types fls f ((types f).key id) =
      ((versionsOf fls id).filterMap fun F => F.vectors.lookup f).getLast?.toList := by
  induction fls using List.reverseRecOn with
  | nil => rfl
  | append_singleton fls fl ih =>
    have hlast : fl ∈ fls ++ [fl] := by simp
    have hmem : ∀ fl' ∈ fls, fl' ∈ fls ++ [fl] := fun _ h => mem_append_left _ h
    obtain ⟨hbefore, -, hpair⟩ := pairwise_append.1 hfresh
    have hrest := ih (fun fl' hfl' => hwrites fl' (hmem fl' hfl')) hbefore fun o ho =>
      hkeys o (by
        obtain ⟨fl', hfl', ho⟩ := mem_flatMap.1 ho
        exact mem_flatMap.2 ⟨fl', hmem fl' hfl', ho⟩)
    have hown : ∀ o ∈ fl.ops, (types f).key o.docID = (types f).key id → o.docID = id :=
      fun o ho => hkeys o (mem_flatMap.2 ⟨fl, hlast, ho⟩)
    rw [vectorsAfter_concat, versionsOf_concat]
    cases hversion : fl.version id with
    | none =>
      rw [runEffects_absent hown hversion, hrest, Option.toList_none, append_nil]
    | some F =>
      rw [runEffects_version hown (hwrites fl hlast) hversion, hrest]
      · cases hF : F.vectors.lookup f with
        | none => simp [hF]
        | some v => simp [hF]
      · rintro ⟨o, ho, rfl, hact⟩
        rw [hrest, versionsOf_eq_nil fun fl' hfl' p hp =>
          hpair fl' hfl' fl mem_cons_self p hp o ho hact]
        rfl

end Run

end VectorVersionLemmas

open VectorVersionLemmas

/-- The stored vectors of a document are those of its latest version exactly if this version has
all vector fields of the versions before. -/
theorem vectors_latest_iff {types : String → VecIndexType} {fls : List (DocFlush σ ν)}
    (hrun : WriteRun types fls) {id : DocID} {latest : Fields σ ν}
    (hlatest : latestVersion fls id = some latest) :
    (∀ f, vectorsAfter types fls f ((types f).key id) = (latest.vectors.lookup f).toList) ↔
      ∀ F ∈ versionsOf fls id, ∀ f, (F.vectors.lookup f).isSome →
        (latest.vectors.lookup f).isSome := by
  have hstored : ∀ f, vectorsAfter types fls f ((types f).key id) =
      ((versionsOf fls id).filterMap fun F => F.vectors.lookup f).getLast?.toList := by
    intro f
    obtain ⟨o, hlast, -⟩ := Option.map_eq_some_iff.1 hlatest
    obtain ⟨ho, rfl⟩ := mem_of_last hlast
    exact vectors_run hrun.writes hrun.fresh fun p hp => hrun.numbers f p hp o ho
  rw [latestVersion_eq] at hlatest
  obtain ⟨before, hversions⟩ := List.getLast?_eq_some_iff.1 hlatest
  constructor
  · intro h F hF f hsome
    by_contra hnone
    have hempty := (hstored f).symm.trans (h f)
    rw [Option.not_isSome_iff_eq_none.1 hnone, Option.toList_none, Option.toList_eq_nil_iff,
      List.getLast?_eq_none_iff, filterMap_eq_nil_iff] at hempty
    rw [hempty F hF] at hsome
    cases hsome
  · intro h f
    rw [hstored f]
    cases hf : latest.vectors.lookup f with
    | some v => simp [hversions, hf]
    | none =>
      -- no version has the field
      have hnone : ((versionsOf fls id).filterMap fun F => F.vectors.lookup f) = [] := by
        refine filterMap_eq_nil_iff.2 fun F hF => ?_
        by_contra hsome
        have hlatest := h F hF f (Option.isSome_iff_ne_none.2 hsome)
        rw [hf] at hlatest
        cases hlatest
      rw [hnone]
      rfl

namespace VectorVersionLemmas

def flushOne (o : Operation Unit Nat) (ho : o.WritePath 1) : DocFlush Unit Nat where
  env := { refEnv Unit Nat with vecFields := ["v"] }
  n := 1
  ops := [o]
  docs := empty.addDocuments [o]
  pos := Nat.one_pos
  collects := collects_addDocuments blank_empty [o]
  addressed := addressed_addDocuments Nat.one_pos addressed_empty [o] (by simpa using ho)

def updated (vectors : List (String × Nat)) : List (DocFlush Unit Nat) :=
  [flushOne ⟨.insert, "1", shardIDNeedLatest, ⟨some 1, [("v", 5)], ()⟩⟩ ⟨rfl, rfl⟩,
    flushOne ⟨.update, "1", 0, ⟨some 1, vectors, ()⟩⟩ ⟨le_refl 0, Int.zero_lt_one, rfl⟩]

theorem writeRun_updated (types : String → VecIndexType) (vectors : List (String × Nat))
    (h : (vectors.map Prod.fst).Nodup) : WriteRun types (updated vectors) where
  writes := by
    intro fl hfl
    rcases mem_cons.1 hfl with rfl | hfl
    · exact ⟨by simp [flushOne], by simp [flushOne], by simp [flushOne]⟩
    · obtain rfl := mem_singleton.1 hfl
      exact ⟨by simp [flushOne], by simpa [flushOne] using h, by simp [flushOne]⟩
  fresh := by simp [updated, flushOne]
  numbers := by simp [updated, flushOne]

end VectorVersionLemmas

theorem vectors_latest_replaced :
    vectorsAfter (fun _ => .flat) (updated [("v", 7)]) "v" (VecIndexType.flat.key "1") = [7] := by
  have hrun := writeRun_updated (fun _ => .flat) [("v", 7)] (nodup_singleton "v")
  have hversions : versionsOf (updated [("v", 7)]) "1" =
      [⟨some 1, [("v", 5)], ()⟩, ⟨some 1, [("v", 7)], ()⟩] := rfl
  have hlatest : latestVersion (updated [("v", 7)]) "1" = some ⟨some 1, [("v", 7)], ()⟩ := rfl
  refine (vectors_latest_iff hrun hlatest).2 (fun F hF f => ?_) "v"
  rw [hversions] at hF
  rcases mem_cons.1 hF with rfl | hF
  · cases hf : f == "v" <;> simp [lookup_cons, hf]
  · rw [mem_singleton.1 hF]
    exact id

/-- After an update without the field the vector of the version before is still stored. -/
theorem update_keeps_vector :
    WriteRun (fun _ => .flat) (updated []) ∧
      (latestVersion (updated []) "1").map Fields.vectors = some [] ∧
      vectorsAfter (fun _ => .flat) (updated []) "v" (VecIndexType.flat.key "1") = [5] :=
  ⟨writeRun_updated _ [] nodup_nil, rfl, by decide +kernel⟩

end SeaSearch
