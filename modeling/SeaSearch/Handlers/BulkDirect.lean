import SeaSearch.Handlers.BulkActions

/-!
# Bulk requests without the WAL

Without the WAL a bulk request commits the deletes of an index and then its documents, in slices of
`BatchSize`. All documents are resolved before the first slice is committed.
-/

namespace SeaSearch

open List KeyedBag WalMergeDocs PartialLemmas DocumentLemmas
  OneLiveLemmas RunLemmas WordLemmas BulkLemmas
open BulkAction (isData outcome)
open Index (entries home live_own)

variable {σ ν ε κ τ : Type}

namespace BulkLemmas

variable {B : Bluge σ}

section Entries

variable {B : Bluge σ} {ix : Index B ν κ} {env : IndexEnv (JsonObject τ) ε σ ν}
  {acts : List (BulkAction τ)} {id : DocID} (hvalid : ∀ a ∈ acts, a.Valid env ix)
include hvalid

theorem mem_entries {o : Operation σ ν} (ho : o ∈ ix.entries env acts) :
    ∃ a ∈ acts, EntryOf env ix a o := by
  obtain ⟨a, ha, hentry⟩ := mem_filterMap.mp ho
  rcases entry_cases (hvalid a ha) with ⟨hnone, -⟩ | ⟨o', hsome, ho'⟩
  · rw [hnone] at hentry
    cases hentry
  · cases hsome.symm.trans hentry
    exact ⟨a, ha, ho'⟩

theorem entries_resolved :
    ∀ o ∈ ix.entries env acts, Resolved (ix.stores (ix.lookup o.docID)).shard o := fun o ho => by
  obtain ⟨a, -, h⟩ := mem_entries hvalid ho
  exact h.resolved

theorem entries_home :
    ∀ o ∈ ix.entries env acts, o.docID = id → o.shard = ix.home id := fun o ho hid => by
  obtain ⟨a, -, h⟩ := mem_entries hvalid ho
  rw [h.shard, ← h.docID, hid]

theorem opsOf_entries [DecidableEq κ] :
    opsOf ((ix.entries env acts).filter fun o => ix.lookup o.docID = ix.lookup id) (ix.home id) id =
      (acts.filter fun a => a.docID = id).filterMap (ix.entry env) := by
  induction acts with
  | nil => rfl
  | cons a acts ih =>
    have hrest := ih fun b hb => hvalid b (mem_cons_of_mem _ hb)
    rcases entry_cases (hvalid a mem_cons_self) with ⟨hnone, -⟩ | ⟨o, hsome, ho⟩
    · rw [entries, filterMap_cons_none hnone, ← entries, hrest, filter_cons]
      split
      · rw [filterMap_cons_none hnone]
      · rfl
    · rw [entries, filterMap_cons_some hsome, ← entries, filter_cons, filter_cons]
      by_cases hid : a.docID = id
      · have hop : opsOf [o] (ix.home id) id = [o] := by
          simp [opsOf, ho.shard, ho.docID, hid]
        rw [if_pos (decide_eq_true (by rw [ho.docID, hid])), if_pos (decide_eq_true hid),
          filterMap_cons_some hsome, ← hrest, ← singleton_append, opsOf_append, hop,
          singleton_append]
      · have hop : ∀ l, opsOf (o :: l) (ix.home id) id = opsOf l (ix.home id) id := fun l => by
          simp [opsOf, ho.docID, hid]
        have hskip : ¬ decide (a.docID = id) = true := by simpa using hid
        rw [if_neg hskip, ← hrest]
        split
        · exact hop _
        · rfl

omit hvalid in
theorem last_entry (hsome : ∀ a, lastAction acts id = some a → ix.entry env a ≠ none) :
    ((acts.filter fun a => a.docID = id).filterMap (ix.entry env)).getLast? =
      (lastAction acts id).bind (ix.entry env) := by
  unfold lastAction at hsome ⊢
  rcases eq_nil_or_concat (acts.filter fun a => a.docID = id) with hnil | ⟨as, a, has⟩
  · rw [hnil]
    rfl
  · rw [concat_eq_append] at has
    rw [has, List.getLast?_concat] at hsome
    obtain ⟨o, ho⟩ := Option.ne_none_iff_exists'.mp (hsome a rfl)
    rw [has, List.getLast?_concat, filterMap_append, filterMap_cons_some ho]
    simp [ho]

omit hvalid in
theorem home_of_missing (hmiss : ix.Missing id) : ix.home id = shardIDNeedLatest := by
  simp [home, missing_iff_locate.mp hmiss]

theorem last_insert [DecidableEq κ] (hmiss : ix.Missing id) {a : BulkAction τ}
    (ha : lastAction acts id = some a) (hd : a.isData = true) :
    ∃ o : Operation σ ν, o.action = .insert ∧ a.outcome env = {o.document} ∧
      (opsOf ((ix.entries env acts).filter fun o => ix.lookup o.docID = ix.lookup id)
        shardIDNeedLatest id).getLast? = some o := by
  obtain ⟨hin, hid⟩ := lastAction_mem ha
  rcases entry_cases (hvalid a hin) with ⟨-, -, hdel⟩ | ⟨o, hsome, ho⟩
  · rw [hd] at hdel
    cases hdel
  refine ⟨o, ?_, ?_, ?_⟩
  · rw [ho.action, hd, hid, missing_iff_locate.mp hmiss]
    rfl
  · rw [ho.outcome, hd]
    rfl
  · rw [← home_of_missing hmiss, opsOf_entries hvalid, last_entry fun b hb => ?_, ha]
    · exact hsome
    · rw [ha] at hb
      cases hb
      simp [hsome]

end Entries

section Missing

variable {B : Bluge σ} {s : IndexShard B} {id : DocID} {bs : List (Nat × Ops σ ν)}
  (hops : ∀ p ∈ bs, ∀ o ∈ p.2, o.docID = id → o.action = .insert ∨ o.action = .deleteVecOnly)
  (hvers : ∀ j, s.versions j id =
    runPlaced (bs.map fun p => placedWrite shardIDNeedLatest id p.1 p.2) (fun _ => 0) j)
include hops hvers

theorem live_none_iff : s.live id = 0 ↔ insertingWords id bs = [] := by
  rw [IndexShard.live_eq_zero_iff, ← words_none_iff hops]
  simp only [hvers]

theorem live_last_iff (hpos : ∀ p ∈ bs, 0 < p.1) {l : Operation σ ν}
    (hl : (opsOf (bs.map Prod.snd).flatten shardIDNeedLatest id).getLast? = some l)
    (ha : l.action = .insert) : s.live id = {l.document} ↔ OneInserted id bs := by
  obtain ⟨vs, hvs⟩ := List.getLast?_eq_some_iff.mp hl
  obtain ⟨i, hmem, hiff⟩ := words_last_iff hops hpos hvs ha
  rw [← hiff, live_eq_singleton_iff (i := i) (by rw [hvers]; exact hmem)]
  simp only [hvers]

end Missing

def batchesOf {B : Bluge σ} [DecidableEq κ] (batchSize : Nat) (ix : Index B ν κ)
    (ops : Ops σ ν) (id : DocID) : List (Nat × Ops σ ν) :=
  (slices batchSize (ops.filter fun o => ix.lookup o.docID = ix.lookup id)).map
    (Prod.mk (ix.stores (ix.lookup id)).shard.shardNum)

theorem mem_batchesOf [DecidableEq κ] {batchSize : Nat} {ix : Index B ν κ}
    {ops : Ops σ ν} {id : DocID} {p : Nat × Ops σ ν}
    (hp : p ∈ batchesOf batchSize ix ops id) : 0 < p.1 ∧ ∀ o ∈ p.2, o ∈ ops := by
  obtain ⟨b, hb, rfl⟩ := mem_map.mp hp
  exact ⟨IndexShard.shardNum_pos _, fun o ho => (mem_filter.mp (mem_of_mem_slices hb ho)).1⟩

theorem flatten_batchesOf [DecidableEq κ] {batchSize : Nat} (hbatch : 0 < batchSize)
    (ix : Index B ν κ) (ops : Ops σ ν) (id : DocID) :
    ((batchesOf batchSize ix ops id).map Prod.snd).flatten =
      ops.filter fun o => ix.lookup o.docID = ix.lookup id := by
  rw [batchesOf, map_map]
  exact (congrArg List.flatten (map_id _)).trans (flatten_slices hbatch _)

theorem countP_batchesOf [DecidableEq κ] (batchSize : Nat) (ix : Index B ν κ)
    (ops : Ops σ ν) (id : DocID) :
    ((batchesOf batchSize ix ops id).countP fun p => id ∈ p.2.map Operation.docID) =
      (slices batchSize ((ops.map Operation.docID).filter fun i =>
        ix.lookup i = ix.lookup id)).countP fun b => id ∈ b := by
  rw [batchesOf, countP_map, filter_map, ← map_slices, countP_map]
  rfl

section CommitEntries

variable {B : Bluge σ} [DecidableEq κ] {ix : Index B ν κ} {env : IndexEnv (JsonObject τ) ε σ ν}
  {acts : List (BulkAction τ)} {id : DocID} {batchSize : Nat} {commit : κ → CommitEnv σ ν}
  (hvalid : ∀ a ∈ acts, a.Valid env ix)
include hvalid

omit [DecidableEq κ] in
theorem entry_found (hfound : ¬ ix.Missing id) (ha : a ∈ acts) (hid : a.docID = id) :
    ∃ o, ix.entry env a = some o ∧ EntryOf env ix a o ∧
      (o.action = .update ∨ o.action = .delete) := by
  rw [missing_iff_locate, ← hid] at hfound
  rcases entry_cases (hvalid a ha) with ⟨-, hloc, -⟩ | ⟨o, hsome, ho⟩
  · exact absurd hloc hfound
  · refine ⟨o, hsome, ho, ?_⟩
    rw [ho.action, if_neg hfound, if_neg hfound]
    split <;> simp

omit [DecidableEq κ] in
theorem entry_missing (hmiss : ix.Missing id) {o : Operation σ ν} (ho : o ∈ ix.entries env acts)
    (hid : o.docID = id) : o.action = .insert ∨ o.action = .deleteVecOnly := by
  obtain ⟨a, -, h⟩ := mem_entries hvalid ho
  rw [missing_iff_locate, ← hid, h.docID] at hmiss
  rw [h.action, if_pos hmiss, if_pos hmiss]
  split <;> simp

theorem live_words_found (hrest : ix.AtRest) (hfound : ¬ ix.Missing id)
    {bs : List (Ops σ ν)}
    (hbs : bs.flatten = (ix.entries env acts).filter fun o => ix.lookup o.docID = ix.lookup id) :
    runOps (bs.map fun b => wordOp (opsOf b (ix.home id) id)) (ix.live id) =
      outcomeOf env acts id (ix.live id) := by
  have hmem : ∀ b ∈ bs, ∀ o ∈ b, o ∈ ix.entries env acts := fun b hb o ho => by
    have : o ∈ bs.flatten := mem_flatten.mpr ⟨b, hb, ho⟩
    rw [hbs] at this
    exact (mem_filter.mp this).1
  rw [words_direct]
  · have hsome : ∀ a, lastAction acts id = some a → ix.entry env a ≠ none := fun a ha => by
      obtain ⟨hin, hid⟩ := lastAction_mem ha
      obtain ⟨o, ho, -⟩ := entry_found hvalid hfound hin hid
      simp [ho]
    rw [hbs, opsOf_entries hvalid, last_entry hsome]
    unfold outcomeOf
    cases hla : lastAction acts id with
    | none => rfl
    | some a =>
      obtain ⟨hin, hid⟩ := lastAction_mem hla
      obtain ⟨o, hsome, ho, -⟩ := entry_found hvalid hfound hin hid
      simp only [Option.bind_some, hsome]
      rw [← hid]
      exact entry_run hrest ho
  · intro b hb o ho _ hid
    obtain ⟨a, ha, hentry⟩ := mem_entries hvalid (hmem b hb o ho)
    have hloc := hfound
    rw [missing_iff_locate, ← hid, hentry.docID] at hloc
    rw [hentry.action, if_neg hloc, if_neg hloc]
    split <;> simp

theorem live_commit_found (hrest : ix.AtRest) (hbatch : 0 < batchSize)
    (hcommit : ∀ k, (commit k).batchSize = batchSize) (hfound : ¬ ix.Missing id) :
    (ix.commitAll (ε := ε) commit (ix.entries env acts)).1.live id =
      outcomeOf env acts id (ix.live id) := by
  rw [live_commitAll commit hrest (entries_resolved hvalid) (entries_home hvalid), hcommit]
  exact live_words_found hvalid hrest hfound (flatten_slices hbatch _)

theorem versions_commit_missing (hcommit : ∀ k, (commit k).batchSize = batchSize)
    (hmiss : ix.Missing id) (j : Nat) :
    ((ix.commitAll (ε := ε) commit (ix.entries env acts)).1.stores (ix.lookup id)).shard.versions
        j id =
      runPlaced ((batchesOf batchSize ix (ix.entries env acts) id).map
        fun p => placedWrite shardIDNeedLatest id p.1 p.2) (fun _ => 0) j := by
  have hhome := home_of_missing hmiss
  have hzero : (fun j => (ix.stores (ix.lookup id)).shard.versions j id) = fun _ => 0 :=
    funext hmiss
  rw [versions_commitAll commit (entries_resolved hvalid) (entries_home hvalid), hcommit, hhome,
    hzero, batchesOf, map_map]
  rfl

end CommitEntries

end BulkLemmas

/-- Without the WAL the order of the actions on an id is kept when all are deletes, or
when the last one is a document and either the id is live and not deleted, or its
documents are all in one slice. -/
def DirectOrdered {B : Bluge σ} [DecidableEq κ] (batchSize : Nat) (ix : Index B ν κ)
    (acts : List (BulkAction τ)) (id : DocID) : Prop :=
  match lastAction acts id with
  | none => True
  | some (.delete _) => ∀ a ∈ acts, a.docID = id → a.isData = false
  | some (.data _ _ _ _) =>
    (¬ ix.Missing id ∧ ∀ a ∈ acts, a.docID = id → a.isData = true) ∨
      ((slices batchSize (((acts.filter isData).map BulkAction.docID).filter fun i =>
        ix.lookup i = ix.lookup id)).countP fun b => id ∈ b) ≤ 1

namespace BulkLemmas

section Direct

variable {B : Bluge σ} [DecidableEq κ] {ix : Index B ν κ} {env : IndexEnv (JsonObject τ) ε σ ν}
  {acts : List (BulkAction τ)} {id : DocID} {batchSize : Nat}
  {ctx : CallContext (JsonObject τ) ε ix} {p : BulkAction τ → Bool}

omit [DecidableEq κ] in
theorem deletes_eq_entries (acts : List (BulkAction τ)) :
    (deleteIds acts).filterMap (fun id => (env.deleteOperation ix.locate id).toOption) =
      ix.entries env (acts.filter fun a => !a.isData) := by
  induction acts with
  | nil => rfl
  | cons a acts ih =>
    cases a with
    | data => exact ih
    | delete docID =>
      show ((docID :: deleteIds acts).filterMap _) = (BulkAction.delete docID :: _).filterMap _
      rw [filterMap_cons, filterMap_cons, ih]
      rfl

omit [DecidableEq κ] in
theorem creates_eq_entries
    (h : (docOperations acts).mapM (env.createOperation ix.locate) = .ok os) :
    os = ix.entries env (acts.filter isData) := by
  have hres := mapM_ok h
  clear h
  induction acts generalizing os with
  | nil =>
    cases hres
    rfl
  | cons a acts ih =>
    cases a with
    | delete => exact ih hres
    | data docID doc update op =>
      cases hres with
      | @cons _ o _ os hop hrest =>
        have hentry : ix.entry env (.data docID doc update op) = some o :=
          congrArg Except.toOption hop
        rw [ih hrest, filter_cons_of_pos rfl, entries, entries, filterMap_cons_some hentry]

theorem mem_docOperations {docID : DocID} {doc : JsonObject τ} {update : Bool}
    (h : .data docID doc update op ∈ acts) :
    ⟨docID, doc, update⟩ ∈ docOperations acts :=
  mem_filterMap.mpr ⟨_, h, rfl⟩

theorem accepts_of_createDocuments (hok : (ix.createDocuments ctx ops).2 = none) (hop : op ∈ ops) :
    ctx.env.Accepts op.docID op.doc := by
  unfold Index.createDocuments at hok
  split at hok
  · cases hok
  next os hos =>
  have hres := mapM_ok hos
  clear hos hok
  induction hres with
  | nil => cases hop
  | cons hfirst _ ih =>
    rcases mem_cons.mp hop with rfl | hop
    · exact accepts_of_createOperation hfirst
    · exact ih hop

theorem createDocuments_eq (hrest : ix.AtRest) (henv : ctx.env = env)
    (hok : (ix.createDocuments ctx (docOperations acts)).2 = none) :
    ix.createDocuments ctx (docOperations acts) =
      ix.commitAll ctx.commit (ix.entries env (acts.filter isData)) := by
  have hfind := find_eq_locate (rest_single hrest) ctx
  unfold Index.createDocuments at hok ⊢
  rw [henv, hfind] at hok ⊢
  split at hok
  · cases hok
  · next os hos => rw [creates_eq_entries hos]

theorem deleteDocuments_live (hrest : ix.AtRest) (henv : ctx.env = env) (hbatch : 0 < batchSize)
    (hcommit : ∀ k, (ctx.commit k).batchSize = batchSize) (acts : List (BulkAction τ)) :
    (ix.deleteDocuments ctx (deleteIds acts)).1.AtRest ∧
      (ix.deleteDocuments ctx (deleteIds acts)).1.lookup = ix.lookup ∧
      ∀ id, (ix.deleteDocuments ctx (deleteIds acts)).1.live id =
        if ∃ a ∈ acts, a.docID = id ∧ a.isData = false then 0 else ix.live id := by
  have hvalid : ∀ a ∈ acts.filter (fun a => !a.isData), a.Valid env ix := by
    intro a ha
    cases a with
    | data => simp [isData] at ha
    | delete => trivial
  have hfind := find_eq_locate (rest_single hrest) ctx
  have hdelete : ix.deleteDocuments ctx (deleteIds acts) =
      ix.commitAll ctx.commit (ix.entries env (acts.filter fun a => !a.isData)) := by
    rw [Index.deleteDocuments, henv, hfind, deletes_eq_entries]
  have hnoins : ∀ o ∈ ix.entries env (acts.filter fun a => !a.isData), o.action ≠ .insert := by
    intro o ho hins
    obtain ⟨a, ha, hentry⟩ := mem_entries hvalid ho
    have hdel : a.isData = false := by simpa using (mem_filter.mp ha).2
    rw [hentry.action, hdel] at hins
    simp only [Bool.false_eq_true, if_false] at hins
    split at hins <;> cases hins
  rw [hdelete]
  refine ⟨atRest_commitAll hrest (entries_resolved hvalid) (inv_commitAll hrest.inv hbatch hcommit
    (entries_resolved hvalid) fun id h => ?_), rfl, fun id => ?_⟩
  · obtain ⟨o, ho, -, hins⟩ := h
    exact absurd hins (hnoins o ho)
  by_cases hmiss : ix.Missing id
  · -- nothing is inserted
    have hzero : (ix.commitAll (ε := ε) ctx.commit
        (ix.entries env (acts.filter fun a => !a.isData))).1.live id = 0 := by
      rw [live_own fun k hk => others_commitAll ctx.commit hrest (entries_resolved hvalid) hk]
      exact (live_none_iff
        (fun p hp o ho => entry_missing hvalid hmiss ((mem_batchesOf hp).2 o ho))
        (versions_commit_missing hvalid hcommit hmiss)).mpr
        (insertingWords_eq_nil fun p hp o ho _ => hnoins o ((mem_batchesOf hp).2 o ho))
    rw [hzero, (missing_iff_live hrest).mp hmiss]
    split <;> rfl
  · rw [live_commit_found hvalid hrest hbatch hcommit hmiss, outcomeOf]
    cases hla : lastAction (acts.filter fun a => !a.isData) id with
    | none =>
      rw [if_neg]
      rintro ⟨a, ha, hid, hdel⟩
      exact lastAction_eq_none.mp hla a (mem_filter.mpr ⟨ha, by simp [hdel]⟩) hid
    | some a =>
      obtain ⟨hin, hid⟩ := lastAction_mem hla
      obtain ⟨ha, hdel⟩ := mem_filter.mp hin
      rw [if_pos ⟨a, ha, hid, by simpa using hdel⟩]
      cases a with
      | data => cases hdel
      | delete => rfl

theorem oneInserted_iff {bs : List (Nat × Ops σ ν)}
    (hops : ∀ p ∈ bs, ∀ o ∈ p.2, o.docID = id → o.action = .insert ∧ o.shard = shardIDNeedLatest)
    (hsome : ∃ p ∈ bs, id ∈ p.2.map Operation.docID) :
    OneInserted id bs ↔ (bs.countP fun p => id ∈ p.2.map Operation.docID) ≤ 1 := by
  have hword : ∀ p ∈ bs, ∀ o ∈ opsOf p.2 shardIDNeedLatest id, o.action = .insert := by
    intro p hp o ho
    obtain ⟨hmem, -, hid⟩ := mem_opsOf.mp ho
    exact (hops p hp o hmem hid).1
  have hend : ∀ p ∈ bs, endsWithInsert (opsOf p.2 shardIDNeedLatest id) =
      decide (id ∈ p.2.map Operation.docID) := by
    intro p hp
    rcases word_eq_nil_or_concat (opsOf p.2 shardIDNeedLatest id) with hnil | ⟨vs, l, hl⟩
    · rw [hnil, eq_comm, decide_eq_false]
      · rfl
      · intro hmem
        obtain ⟨o, ho, hid⟩ := mem_map.mp hmem
        have : o ∈ opsOf p.2 shardIDNeedLatest id :=
          mem_opsOf.mpr ⟨ho, (hops p hp o ho hid).2, hid⟩
        rw [hnil] at this
        cases this
    · have hmem : l ∈ opsOf p.2 shardIDNeedLatest id :=
        hl ▸ mem_append_right vs mem_cons_self
      obtain ⟨hlp, -, hid⟩ := mem_opsOf.mp hmem
      rw [decide_eq_true (mem_map.mpr ⟨l, hlp, hid⟩), hl, endsWithInsert, List.getLast?_concat]
      simp [hword p hp l hmem]
  have hlen : (insertingWords id bs).length = bs.countP fun p => id ∈ p.2.map Operation.docID := by
    rw [insertingWords, ← countP_eq_length_filter, countP_map]
    exact countP_congr fun p hp => by simp [hend p hp]
  -- no word starts with a deletion
  have hstart : ∀ w ∈ insertingWords id bs, startsWithDeletion w.2 = false := by
    intro w hw
    obtain ⟨p, hp, rfl⟩ := mem_map.mp (mem_filter.mp hw).1
    unfold startsWithDeletion
    cases hh : (opsOf p.2 shardIDNeedLatest id).head? with
    | none => rfl
    | some o => simp [hword p hp o (mem_of_head? hh)]
  rw [← hlen]
  constructor
  · intro hone
    have hne : insertingWords id bs ≠ [] := by
      obtain ⟨p, hp, hid⟩ := hsome
      refine ne_nil_of_length_pos ?_
      rw [hlen]
      exact countP_pos_iff.mpr ⟨p, hp, decide_eq_true hid⟩
    obtain ⟨pre, w, hw⟩ := (eq_nil_or_concat _).resolve_left hne
    rw [concat_eq_append] at hw
    rcases hone pre w hw with rfl | ⟨hdel, -⟩
    · simp [hw]
    · rw [hstart w (hw ▸ mem_append_right pre mem_cons_self)] at hdel
      cases hdel
  · intro hle pre w hw
    rw [hw, length_append, length_singleton] at hle
    exact .inl (eq_nil_of_length_eq_zero (by omega))

theorem lastAction_filter (h : lastAction acts id = some a) (hp : p a = true) :
    lastAction (acts.filter p) id = some a := by
  unfold lastAction at h ⊢
  obtain ⟨as, has⟩ := List.getLast?_eq_some_iff.mp h
  rw [filter_filter, ← filter_filter, filter_comm, has, filter_append,
    filter_cons_of_pos hp, filter_nil, List.getLast?_concat]

theorem lastAction_filter_all (h : ∀ a ∈ acts, a.docID = id → p a = true) :
    lastAction (acts.filter p) id = lastAction acts id := by
  unfold lastAction
  rw [filter_filter]
  refine congrArg _ (filter_congr fun a ha => ?_)
  by_cases hid : a.docID = id
  · simp [hid, h a ha hid]
  · simp [hid]

omit [DecidableEq κ] in
theorem map_docID_entries (hvalid : ∀ a ∈ acts, a.Valid env ix)
    (hdata : ∀ a ∈ acts, a.isData = true) :
    (ix.entries env acts).map Operation.docID = acts.map BulkAction.docID := by
  induction acts with
  | nil => rfl
  | cons a acts ih =>
    have hrest := ih (fun b hb => hvalid b (mem_cons_of_mem _ hb))
      fun b hb => hdata b (mem_cons_of_mem _ hb)
    rcases entry_cases (hvalid a mem_cons_self) with ⟨-, -, hdel⟩ | ⟨o, hsome, ho⟩
    · rw [hdata a mem_cons_self] at hdel
      cases hdel
    · rw [entries, filterMap_cons_some hsome, map_cons, map_cons, ho.docID]
      exact congrArg _ hrest

theorem createDocuments_missing {commit : κ → CommitEnv σ ν} (hrest : ix.AtRest)
    (hbatch : 0 < batchSize) (hcommit : ∀ k, (commit k).batchSize = batchSize)
    (hvalid : ∀ a ∈ acts, a.Valid env ix) (hdata : ∀ a ∈ acts, a.isData = true)
    (hmiss : ix.Missing id) :
    (lastAction acts id = none →
      (ix.commitAll (ε := ε) commit (ix.entries env acts)).1.live id = 0) ∧
    ∀ a, lastAction acts id = some a →
      (ix.commitAll (ε := ε) commit (ix.entries env acts)).1.live id ≠ 0 ∧
      ((ix.commitAll (ε := ε) commit (ix.entries env acts)).1.live id = a.outcome env ↔
        ((slices batchSize ((acts.map BulkAction.docID).filter fun i =>
          ix.lookup i = ix.lookup id)).countP fun b => id ∈ b) ≤ 1) := by
  have hown : (ix.commitAll (ε := ε) commit (ix.entries env acts)).1.live id =
      ((ix.commitAll (ε := ε) commit (ix.entries env acts)).1.stores
          (ix.lookup id)).shard.live id :=
    live_own fun k hk => others_commitAll commit hrest (entries_resolved hvalid) hk
  have hvers := versions_commit_missing (ε := ε) hvalid hcommit hmiss
  have hops : ∀ p ∈ batchesOf batchSize ix (ix.entries env acts) id, ∀ o ∈ p.2, o.docID = id →
      o.action = .insert ∨ o.action = .deleteVecOnly :=
    fun p hp o ho => entry_missing hvalid hmiss ((mem_batchesOf hp).2 o ho)
  rw [hown]
  refine ⟨fun hnone => (live_none_iff hops hvers).mpr
    (insertingWords_eq_nil fun p hp o ho hid => ?_), fun a ha => ?_⟩
  · obtain ⟨a, ha, hentry⟩ := mem_entries hvalid ((mem_batchesOf hp).2 o ho)
    exact absurd (hentry.docID.symm.trans hid) (lastAction_eq_none.mp hnone a ha)
  · obtain ⟨o, hins, hout, hlast⟩ := last_insert hvalid hmiss ha (hdata a (lastAction_mem ha).1)
    rw [← flatten_batchesOf hbatch] at hlast
    obtain ⟨vs, hvs⟩ := List.getLast?_eq_some_iff.mp hlast
    obtain ⟨pre, w, -, hwords, -⟩ := insertingWords_last hops hvs hins
    refine ⟨fun hzero => ?_, ?_⟩
    · rw [(live_none_iff hops hvers).mp hzero] at hwords
      simp at hwords
    · rw [hout, live_last_iff hops hvers (fun p hp => (mem_batchesOf hp).1) hlast hins,
        oneInserted_iff (fun p hp o ho hid => ?_) ?_, countP_batchesOf,
        map_docID_entries hvalid hdata]
      · obtain ⟨hmem, -, hid⟩ := mem_opsOf.mp (mem_of_getLast? hlast)
        obtain ⟨b, hb, hob⟩ := mem_flatten.mp hmem
        obtain ⟨q, hq, rfl⟩ := mem_map.mp hb
        exact ⟨q, hq, mem_map.mpr ⟨o, hob, hid⟩⟩
      · obtain ⟨b, hb, hentry⟩ := mem_entries hvalid ((mem_batchesOf hp).2 o ho)
        have hbid : b.docID = id := hentry.docID.symm.trans hid
        rw [hentry.action, hentry.shard, hdata b hb, hbid, missing_iff_locate.mp hmiss]
        exact ⟨rfl, home_of_missing hmiss⟩

section Deleted

variable {deleted : Index B ν κ} (hlive : ∀ id, deleted.live id =
    if ∃ a ∈ acts, a.docID = id ∧ a.isData = false then 0 else ix.live id)

include hlive

omit [DecidableEq κ] in
theorem live_of_data (hall : ∀ a ∈ acts, a.docID = id → a.isData = true) :
    deleted.live id = ix.live id := by
  rw [hlive, if_neg]
  rintro ⟨a, ha, hid, hd⟩
  rw [hall a ha hid] at hd
  cases hd

omit [DecidableEq κ] in
theorem valid_deleted (hrest : ix.AtRest) (hrest' : deleted.AtRest)
    (hvalid : ValidActions env ix acts) :
    ∀ a ∈ acts.filter isData, a.Valid env deleted := by
  intro a ha
  have hold := valid_mem hvalid (mem_filter.mp ha).1
  cases a with
  | delete => trivial
  | data docID doc update op =>
    refine ⟨hold.1, hold.2.imp_right fun hmiss => ?_⟩
    rw [missing_iff_live hrest', hlive, (missing_iff_live hrest).mp hmiss]
    split <;> rfl

theorem directOrdered_of_found (hrest : ix.AtRest) (hrest' : deleted.AtRest)
    (hfound : ¬ deleted.Missing id) :
    (∀ a ∈ acts, a.docID = id → a.isData = true) ∧ DirectOrdered batchSize ix acts id := by
  have hall : ∀ a ∈ acts, a.docID = id → a.isData = true := by
    intro a ha hid
    by_contra hd
    rw [missing_iff_live hrest', hlive] at hfound
    exact hfound (if_pos ⟨a, ha, hid, by simpa using hd⟩)
  refine ⟨hall, ?_⟩
  rw [missing_iff_live hrest', live_of_data hlive hall, ← missing_iff_live hrest] at hfound
  rw [DirectOrdered]
  cases hla : lastAction acts id with
  | none => trivial
  | some a =>
    obtain ⟨hin, hid⟩ := lastAction_mem hla
    cases a with
    | delete => cases hall _ hin hid
    | data => exact .inl ⟨hfound, hall⟩

theorem directOrdered_of_missing (hrest : ix.AtRest) (hrest' : deleted.AtRest)
    (hmiss : deleted.Missing id) {live : Docs σ}
    (hnone : lastAction (acts.filter isData) id = none → live = 0)
    (hsome : ∀ a, lastAction (acts.filter isData) id = some a → live ≠ 0 ∧ (live = a.outcome env ↔
        ((slices batchSize (((acts.filter isData).map BulkAction.docID).filter fun i =>
          ix.lookup i = ix.lookup id)).countP fun b => id ∈ b) ≤ 1)) :
    live = outcomeOf env acts id (ix.live id) ↔ DirectOrdered batchSize ix acts id := by
  rw [outcomeOf, DirectOrdered]
  cases hla : lastAction acts id with
  | none =>
    have hno := lastAction_eq_none.mp hla
    rw [hnone (lastAction_eq_none.mpr fun a ha => hno a (mem_filter.mp ha).1),
      ← live_of_data hlive fun a ha hid => absurd hid (hno a ha),
      (missing_iff_live hrest').mp hmiss]
    simp
  | some a =>
    cases a with
    | delete docID =>
      simp only [outcome]
      constructor
      · intro hzero a ha hid
        by_contra hd
        cases hlast : lastAction (acts.filter isData) id with
        | none =>
          exact lastAction_eq_none.mp hlast a (mem_filter.mpr ⟨ha, by simpa using hd⟩) hid
        | some b => exact (hsome b hlast).1 hzero
      · intro hall
        refine hnone (lastAction_eq_none.mpr fun a ha hid => ?_)
        obtain ⟨ha, hd⟩ := mem_filter.mp ha
        rw [hall a ha hid] at hd
        cases hd
    | data docID doc update op =>
      rw [(hsome _ (lastAction_filter hla rfl)).2]
      refine ⟨.inr, fun h => h.resolve_left ?_⟩
      rintro ⟨hfound, hall⟩
      rw [missing_iff_live hrest, ← live_of_data hlive hall, ← missing_iff_live hrest'] at hfound
      exact hfound hmiss

end Deleted

end Direct

end BulkLemmas

section Direct

variable {B : Bluge σ} [DecidableEq κ] {ix : Index B ν κ} {env : IndexEnv (JsonObject τ) ε σ ν}
  {acts : List (BulkAction τ)} {batchSize : Nat}

theorem direct_live_iff (hbatch : 0 < batchSize) (hrest : ix.AtRest)
    (hvalid : ValidActions env ix acts) (hdel : Configured env batchSize del)
    (hcre : Configured env batchSize cre) {deleted : Index B ν κ}
    (hdeleted : deleted = (ix.deleteDocuments (del ix) (deleteIds acts)).1)
    (hok : (deleted.createDocuments (cre deleted) (docOperations acts)).2 = none) (id : DocID) :
    (deleted.createDocuments (cre deleted) (docOperations acts)).1.live id =
        outcomeOf env acts id (ix.live id) ↔
      DirectOrdered batchSize ix acts id := by
  obtain ⟨hrest', hlookup, hlive⟩ :=
    deleteDocuments_live hrest (hdel ix).1 hbatch (hdel ix).2 acts
  rw [← hdeleted] at hrest' hlookup hlive
  obtain ⟨henv, hcommit⟩ := hcre deleted
  have hvalid' := valid_deleted hlive hrest hrest' hvalid
  rw [createDocuments_eq hrest' henv hok]
  by_cases hmiss : deleted.Missing id
  · obtain ⟨hnone, hsome⟩ := createDocuments_missing hrest' hbatch hcommit hvalid'
      (fun a ha => (mem_filter.mp ha).2) hmiss (ε := ε)
    rw [hlookup] at hsome
    exact directOrdered_of_missing hlive hrest hrest' hmiss hnone hsome
  · obtain ⟨hall, hordered⟩ := directOrdered_of_found hlive hrest hrest' hmiss
    rw [live_commit_found hvalid' hrest' hbatch hcommit hmiss, live_of_data hlive hall, outcomeOf,
      lastAction_filter_all hall]
    exact iff_of_true rfl hordered

end Direct

end SeaSearch
