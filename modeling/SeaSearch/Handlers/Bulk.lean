import SeaSearch.Index.Words

/-!
# Bulk requests

`BulkWorker` reads a body line by line. A metadata line names an action, and unless that is a delete
the next line is the document. With the WAL every action is performed when it is read.
-/

namespace SeaSearch

open List

variable {σ ν ε κ τ : Type}

inductive Value (τ : Type)
  | null
  | string (s : String)
  | object (fields : List (String × Value τ))
  | other (x : τ)

abbrev JsonObject (τ : Type) := List (String × Value τ)

/-- `o[key]`, which is nil for a missing key. -/
def field (o : JsonObject τ) (key : String) : Value τ := (o.lookup key).getD .null

/-- A line that is not JSON, or the object on it (`null` reads as an empty one). -/
inductive Line (τ : Type)
  | invalid
  | object (fields : JsonObject τ)

structure Body (τ : Type) where
  lines : List (Line τ)
  broken : Bool := false

/-- The errors of a bulk request:
* `format`: "bulk index data format error";
* `panic`: a type assertion fails;
* `index`: `GetOrCreate` fails;
* `document`: a call on an index fails;
* `scanner`: the body cannot be read to its end. -/
inductive BulkError (ε : Type)
  | format
  | panic
  | index (e : ε)
  | document (e : DocError ε)
  | scanner

/-- `v == ""`. -/
def Value.isEmptyString : Value τ → Bool
  | .string s => s = ""
  | _ => false

/-- `v.(string)`. -/
def Value.asString : Value τ → Except (BulkError ε) String
  | .string s => .ok s
  | _ => .error .panic

/-- An action of a body: a document with its id (`update` says whether the body gives
one), or a delete. -/
inductive BulkAction (τ : Type)
  | data (docID : DocID) (doc : JsonObject τ) (update : Bool) (operation : Option String)
  | delete (docID : DocID)

/-- Actions with the names of their indexes. -/
abbrev Actions (τ : Type) := List (String × BulkAction τ)

/-- `lastLineMetaData`. A missing key reads as nil. -/
structure LineMeta (τ : Type) where
  operation : Option String := none
  index : Value τ := .null
  id : Value τ := .null

structure Scan (τ : Type) where
  nextLineIsData : Bool := false
  lastLineMetaData : LineMeta τ := {}

def LineMeta.docID (m : LineMeta τ) : Except (BulkError ε) String :=
  match m.id with
  | .null => .ok ""
  | v => v.asString

def LineMeta.indexName (target : String) (m : LineMeta τ) : Except (BulkError ε) String :=
  match m.index with
  | .null => if target = "" then .error .panic else .ok target
  | v => v.asString

/-- A data line. `generated` is the answer of `ider.Generate`. -/
def dataLine (target : String) (generated : DocID) (m : LineMeta τ) (doc : JsonObject τ) :
    Except (BulkError ε) (String × BulkAction τ) := do
  let docID ← m.docID
  let indexName ← m.indexName target
  let operation := m.operation <|> if target = "" then none else some "create"
  pure (indexName, .data (if docID = "" then generated else docID) doc (docID != "") operation)

def namedIndex (target : String) (vm : JsonObject τ) : Value τ :=
  if (field vm "_index").isEmptyString then .string target else field vm "_index"

def metaField (target : String) (st : Scan τ) (key : String) (v : Value τ) :
    Except (BulkError ε) (Scan τ × Option (String × BulkAction τ)) :=
  match v with
  | .object vm =>
    if key = "index" ∨ key = "create" ∨ key = "update" then
      if (namedIndex target vm).isEmptyString then .error .format
      else .ok (⟨true, ⟨some key, namedIndex target vm, field vm "_id"⟩⟩, none)
    else if key = "delete" then do
      let docID ← (field vm "_id").asString
      let indexName ← (namedIndex target vm).asString
      if indexName = "" then .error .format
      else pure (⟨false, {}⟩, some (indexName, .delete docID))
    else .ok (⟨st.nextLineIsData, ⟨some "index", .string target, .null⟩⟩, none)
  | _ => .error .format

def metaLine (target : String) :
    JsonObject τ → Scan τ → Actions τ × Except (BulkError ε) (Scan τ)
  | [], st => ([], .ok st)
  | (key, v) :: fields, st =>
    match metaField target st key v with
    | .error e => ([], .error e)
    | .ok (st, act) =>
      let (acts, result) := metaLine target fields st
      (act.toList ++ acts, result)

def scanLine (target : String) (generated : DocID) (line : Line τ) (st : Scan τ) :
    Actions τ × Except (BulkError ε) (Scan τ) :=
  match line with
  | .invalid => ([], .ok st)
  | .object fields =>
    if st.nextLineIsData then
      match dataLine target generated st.lastLineMetaData fields with
      | .error e => ([], .error e)
      | .ok act => ([act], .ok { st with nextLineIsData := false })
    else metaLine target fields st

/-- The lines from number `i` on, up to an error, with the actions they give. -/
def scanLines (target : String) (generate : Nat → DocID) :
    Nat → List (Line τ) → Scan τ → Actions τ × Option (BulkError ε)
  | _, [], _ => ([], none)
  | i, line :: lines, st =>
    match scanLine target (generate i) line st with
    | (acts, .error e) => (acts, some e)
    | (acts, .ok st) =>
      let (acts', err) := scanLines target generate (i + 1) lines st
      (acts ++ acts', err)

def scanBody (target : String) (generate : Nat → DocID) (body : Body τ) :
    Actions τ × Option (BulkError ε) :=
  let (acts, err) := scanLines target generate 0 body.lines {}
  (acts, err <|> if body.broken then some .scanner else none)

/-- The indexes, by name. `GetOrCreate` makes an index that does not exist, so it is
here as an index without documents. -/
abbrev Indexes (B : Bluge σ) (ν κ : Type) := String → Index B ν κ

abbrev Around (B : Bluge σ) (ν κ ε τ : Type) :=
  ∀ ix : Index B ν κ, CallContext (JsonObject τ) ε ix

/-- `BulkResponseItem` under its key, without the fields that are the same in all items
and the offset of the sequence number. -/
structure BulkResponseItem (ε : Type) where
  key : String
  seqNo : Nat
  index : String
  id : DocID
  result : String
  error : Option (DocError ε) := none

/-- What a request does not decide itself: the path parameter, the answers of
`ider.Generate` (by line) and `GetOrCreate`, the surroundings of the calls (by number
with the WAL, by index without it) and the orders in which the maps are visited. -/
structure BulkEnv (B : Bluge σ) (ν κ ε τ : Type) where
  target : String
  generate : Nat → DocID
  getOrCreate : String → Option ε
  calls : Nat → Around B ν κ ε τ
  deletes : String → Around B ν κ ε τ
  creates : String → Around B ν κ ε τ
  visit : List String → List String
  visit_perm : ∀ l, (visit l).Perm l

def withCalls {B : Bluge σ} (acts : Actions τ)
    (calls : Nat → Around B ν κ ε τ) : List ((String × BulkAction τ) × Around B ν κ ε τ) :=
  acts.zipIdx.map fun p => (p.1, calls p.2)

section Perform

variable {B : Bluge σ} [DecidableEq κ]

def Index.perform (wal : Bool) (ix : Index B ν κ) (ctx : CallContext (JsonObject τ) ε ix) :
    BulkAction τ → Index B ν κ × Option (DocError ε)
  | .data docID doc update _ => ix.createDocument wal ctx docID doc update
  | .delete docID => ix.deleteDocument wal ctx docID

/-- The answer to an action after `count` others. `err` is the error of the call, which
only a delete reports. -/
def BulkAction.items (count : Nat) (name : String) (err : Option (DocError ε)) :
    BulkAction τ → List (BulkResponseItem ε)
  | .data docID _ _ operation =>
    if operation = some "index" ∨ operation = some "create"
    then [⟨"index", count + 1, name, docID, "created", none⟩]
    else if operation = some "update" then [⟨"index", count + 1, name, docID, "updated", none⟩]
    else []
  | .delete docID => [⟨"delete", count + 1, name, docID, "deleted", err⟩]

def BulkAction.failure (err : Option (DocError ε)) : BulkAction τ → Option (BulkError ε)
  | .data _ _ _ _ => err.map .document
  | .delete _ => none

/-- `operation.(string)` fails. -/
def BulkAction.panics : BulkAction τ → Bool
  | .data _ _ _ operation => operation.isNone
  | .delete _ => false

/-- The answer when `GetOrCreate` fails: that to a document is written before. -/
def BulkAction.early (count : Nat) (name : String) (act : BulkAction τ) :
    List (BulkResponseItem ε) :=
  match act with
  | .data _ _ _ _ => act.items count name none
  | .delete _ => []

/-- The actions with the WAL, after `count` others, up to an error. -/
def walActions (getOrCreate : String → Option ε) :
    List ((String × BulkAction τ) × Around B ν κ ε τ) → Nat → Indexes B ν κ →
      Indexes B ν κ × List (BulkResponseItem ε) × Option (BulkError ε)
  | [], _, ixs => (ixs, [], none)
  | ((name, act), around) :: acts, count, ixs =>
    if act.panics then (ixs, [], some .panic)
    else
      match getOrCreate name with
      | some e => (ixs, act.early count name, some (.index e))
      | none =>
        let (ix, err) := (ixs name).perform true (around (ixs name)) act
        match act.failure err with
        | some e => (Function.update ixs name ix, act.items count name err, some e)
        | none =>
          let (ixs, items, e) := walActions getOrCreate acts (count + 1)
            (Function.update ixs name ix)
          (ixs, act.items count name err ++ items, e)

/-- A loop over the names in a map: `GetOrCreate`, the answers and one call for each
index, up to an error. -/
def forIndexes (getOrCreate : String → Option ε) (items : Nat → String → List (BulkResponseItem ε))
    (call : String → Index B ν κ → Index B ν κ × Option (DocError ε)) :
    List String → Nat → Indexes B ν κ →
      Indexes B ν κ × List (BulkResponseItem ε) × Option (BulkError ε)
  | [], _, ixs => (ixs, [], none)
  | name :: names, count, ixs =>
    match getOrCreate name with
    | some e => (ixs, [], some (.index e))
    | none =>
      let answered := items count name
      match call name (ixs name) with
      | (ix, some e) => (Function.update ixs name ix, answered, some (.document e))
      | (ix, none) =>
        let (ixs, rest, e) := forIndexes getOrCreate items call names (count + answered.length)
          (Function.update ixs name ix)
        (ixs, answered ++ rest, e)

end Perform

def actionsOn (name : String) (acts : Actions τ) : List (BulkAction τ) :=
  acts.filterMap fun p => if p.1 = name then some p.2 else none

def deleteIds (acts : List (BulkAction τ)) : List DocID :=
  acts.filterMap fun
    | .delete docID => some docID
    | .data _ _ _ _ => none

def docOperations (acts : List (BulkAction τ)) : List (DocOperation (JsonObject τ)) :=
  acts.filterMap fun
    | .data docID doc update _ => some ⟨docID, doc, update⟩
    | .delete _ => none

/-- `indexDelDocMap[name]`. -/
def deletedIds (acts : Actions τ) (name : String) : List DocID :=
  deleteIds (actionsOn name acts)

/-- `indexDocMap[name]`. -/
def createdDocs (acts : Actions τ) (name : String) :
    List (DocOperation (JsonObject τ)) :=
  docOperations (actionsOn name acts)

def deleteItems (acts : Actions τ) (count : Nat) (name : String) :
    List (BulkResponseItem ε) :=
  (deletedIds acts name).mapIdx fun i id => ⟨"delete", count + i + 1, name, id, "deleted", none⟩

def createItems (acts : Actions τ) (count : Nat) (name : String) :
    List (BulkResponseItem ε) :=
  (createdDocs acts name).mapIdx fun i op =>
    ⟨"index", count + i + 1, name, op.docID, if op.update then "updated" else "created", none⟩

section Worker

variable {B : Bluge σ} [DecidableEq κ]

def directRequest (env : BulkEnv B ν κ ε τ) (acts : Actions τ)
    (ixs : Indexes B ν κ) : Indexes B ν κ × List (BulkResponseItem ε) × Option (BulkError ε) :=
  let names := (acts.map Prod.fst).dedup
  let deleted := forIndexes env.getOrCreate (deleteItems acts)
    (fun name ix => ix.deleteDocuments (env.deletes name ix) (deletedIds acts name))
    (env.visit (names.filter fun name => !(deletedIds acts name).isEmpty)) 0 ixs
  match deleted with
  | (ixs, items, some e) => (ixs, items, some e)
  | (ixs, items, none) =>
    let created := forIndexes env.getOrCreate (createItems acts)
      (fun name ix => ix.createDocuments (env.creates name ix) (createdDocs acts name))
      (env.visit (names.filter fun name => !(createdDocs acts name).isEmpty)) items.length ixs
    (created.1, items ++ created.2.1, created.2.2)

/-- `BulkWorker`: the indexes, the answers and the error. A format error has no
answers. -/
def bulkWorker (wal : Bool) (env : BulkEnv B ν κ ε τ) (body : Body τ) (ixs : Indexes B ν κ) :
    Indexes B ν κ × List (BulkResponseItem ε) × Option (BulkError ε) :=
  let (acts, err) := scanBody env.target env.generate body
  if wal then
    -- the actions before an error of the body have been performed
    let (ixs, items, failed) := walActions env.getOrCreate (withCalls acts env.calls) 0 ixs
    match failed, err with
    | some e, _ => (ixs, items, some e)
    | none, some .format => (ixs, [], some .format)
    | none, e => (ixs, items, e)
  else
    match err with
    | some e => (ixs, [], some e)
    | none => directRequest env acts ixs

end Worker

section Accepted

variable {B : Bluge σ} [DecidableEq κ]

def performed (wal : Bool) (acts : List ((String × BulkAction τ) × Around B ν κ ε τ))
    (ixs : Indexes B ν κ) : Indexes B ν κ :=
  acts.foldl (fun ixs p => Function.update ixs p.1.1
    ((ixs p.1.1).perform wal (p.2 (ixs p.1.1)) p.1.2).1) ixs

def onIndex (name : String) (acts : List ((String × BulkAction τ) × Around B ν κ ε τ)) :
    List (BulkAction τ × Around B ν κ ε τ) :=
  acts.filterMap fun p => if p.1.1 = name then some (p.1.2, p.2) else none

def Index.performAll (wal : Bool) (acts : List (BulkAction τ × Around B ν κ ε τ))
    (ix : Index B ν κ) : Index B ν κ :=
  acts.foldl (fun ix p => (ix.perform wal (p.2 ix) p.1).1) ix

theorem performed_apply (wal : Bool) (acts : List ((String × BulkAction τ) × Around B ν κ ε τ))
    (ixs : Indexes B ν κ) (name : String) :
    performed wal acts ixs name = (ixs name).performAll wal (onIndex name acts) := by
  induction acts generalizing ixs with
  | nil => rfl
  | cons p acts ih =>
    refine (ih _).trans ?_
    by_cases h : p.1.1 = name
    · subst h
      simp [onIndex, Index.performAll]
    · simp [onIndex, h, Function.update_of_ne (Ne.symm h)]

def IndexEnv.Accepts {δ : Type} (env : IndexEnv δ ε σ ν) (docID : DocID) (doc : δ) : Prop :=
  (env.hasVectors = true → env.canonical docID = true) ∧
    ∃ fields, env.checkDocument docID doc = .ok fields

theorem accepts_of_createOperation {δ : Type} {env : IndexEnv δ ε σ ν}
    {find : DocID → Option Nat} {op : DocOperation δ} {o : Operation σ ν}
    (h : env.createOperation find op = .ok o) : env.Accepts op.docID op.doc := by
  unfold IndexEnv.createOperation at h
  simp only at h
  split at h
  · cases h
  next hcan =>
  split at h
  · cases h
  next fields hfields =>
  exact ⟨by simpa using hcan, fields, hfields⟩

variable {getOrCreate : String → Option ε} {name : String}
  {acts : List ((String × BulkAction τ) × Around B ν κ ε τ)} {count : Nat} {ixs : Indexes B ν κ}

theorem walActions_cons {act : BulkAction τ} {around : Around B ν κ ε τ}
    (h : (walActions getOrCreate (((name, act), around) :: acts) count ixs).2.2 = none) :
    let called := (ixs name).perform true (around (ixs name)) act
    let rest := walActions getOrCreate acts (count + 1) (Function.update ixs name called.1)
    act.failure called.2 = none ∧ rest.2.2 = none ∧
      walActions getOrCreate (((name, act), around) :: acts) count ixs =
        (rest.1, act.items count name called.2 ++ rest.2.1, rest.2.2) := by
  simp only [walActions] at h ⊢
  split at h
  · cases h
  next hpanic =>
  split at h
  · cases h
  split at h
  · cases h
  · next hfail => exact ⟨hfail, h, if_neg hpanic⟩

theorem walActions_accepted (h : (walActions getOrCreate acts count ixs).2.2 = none) :
    (walActions getOrCreate acts count ixs).1 = performed true acts ixs ∧
      ∀ name docID doc update op around, ((name, .data docID doc update op), around) ∈ acts →
        ∃ ix, (around ix).env.Accepts docID doc := by
  induction acts generalizing count ixs with
  | nil => exact ⟨rfl, by simp⟩
  | cons p acts ih =>
    obtain ⟨⟨name, act⟩, around⟩ := p
    obtain ⟨hfail, hrest, heq⟩ := walActions_cons h
    rw [heq]
    obtain ⟨hixs, haccepts⟩ := ih hrest
    refine ⟨hixs, fun name' docID doc update op around' hmem => ?_⟩
    rcases mem_cons.mp hmem with heq | hmem
    · obtain ⟨⟨rfl, rfl⟩, rfl⟩ := by simpa using heq
      refine ⟨ixs name', ?_⟩
      simp only [Index.perform, Index.createDocument, BulkAction.failure, Option.map_eq_none_iff]
        at hfail
      split at hfail
      · cases hfail
      · next o ho => exact accepts_of_createOperation ho
    · exact haccepts name' docID doc update op around' hmem

def BulkAction.docID : BulkAction τ → DocID
  | .data docID _ _ _ => docID
  | .delete docID => docID

omit [DecidableEq κ] in
theorem forIndexes_accepted (hnd : names.Nodup)
    (h : (forIndexes getOrCreate items call names count ixs).2.2 = none) (name : String) :
    (forIndexes getOrCreate items call names count ixs).1 name =
        (if name ∈ names then (call name (ixs name)).1 else ixs name) ∧
      (name ∈ names → (call name (ixs name)).2 = none) := by
  induction names generalizing count ixs with
  | nil => exact ⟨rfl, by simp⟩
  | cons n names ih =>
    obtain ⟨hn, hnd⟩ := nodup_cons.mp hnd
    simp only [forIndexes] at h ⊢
    split at h
    · cases h
    split at h
    · cases h
    next ix hcall =>
    obtain ⟨hixs, hnone⟩ := ih hnd h
    rw [hixs]
    by_cases hname : name = n
    · subst hname
      simp [hn, hcall]
    · simp only [mem_cons, hname, false_or, Function.update_of_ne hname] at hnone ⊢
      exact ⟨trivial, hnone⟩

theorem commitAll_nil (commit : κ → CommitEnv σ ν) (ix : Index B ν κ) :
    ix.commitAll (ε := ε) commit [] = (ix, none) := by
  simp [Index.commitAll]

theorem mem_of_actionsOn {acts : Actions τ} (h : actionsOn name acts ≠ []) :
    name ∈ acts.map Prod.fst := by
  obtain ⟨a, ha⟩ := exists_mem_of_ne_nil _ h
  obtain ⟨p, hp, hpa⟩ := mem_filterMap.mp ha
  have hname : p.1 = name := by
    by_contra hne
    simp [hne] at hpa
  exact hname ▸ mem_map_of_mem hp

theorem eq_nil_of_not_visited {α : Type} {f : List (BulkAction τ) → List α} (hf : f [] = [])
    {acts : Actions τ}
    (h : name ∉ (acts.map Prod.fst).dedup.filter fun name => !(f (actionsOn name acts)).isEmpty) :
    f (actionsOn name acts) = [] := by
  by_contra hne
  refine h (mem_filter.mpr ⟨mem_dedup.mpr (mem_of_actionsOn fun hnil => ?_), by simp [hne]⟩)
  rw [hnil, hf] at hne
  exact hne rfl

omit [DecidableEq κ] in
theorem visit_filter_nodup (env : BulkEnv B ν κ ε τ) (names : List String) (p : String → Bool) :
    (env.visit (names.dedup.filter p)).Nodup :=
  (env.visit_perm _).nodup_iff.mpr ((nodup_dedup names).filter p)

theorem directRequest_accepted {env : BulkEnv B ν κ ε τ} {acts : Actions τ}
    (h : (directRequest env acts ixs).2.2 = none) (name : String) :
    let deleted := ((ixs name).deleteDocuments (env.deletes name (ixs name))
      (deletedIds acts name)).1
    let created := deleted.createDocuments (env.creates name deleted) (createdDocs acts name)
    (directRequest env acts ixs).1 name = created.1 ∧ created.2 = none := by
  intro deleted created
  unfold directRequest at h ⊢
  simp only at h ⊢
  split at h
  · cases h
  next ixs' items hdel =>
  obtain ⟨hdeleted, -⟩ := forIndexes_accepted
    (visit_filter_nodup env (acts.map Prod.fst) _) (by rw [hdel]) name
  obtain ⟨hcreated, hok⟩ := forIndexes_accepted
    (visit_filter_nodup env (acts.map Prod.fst) _) h name
  rw [hdel] at hdeleted
  have hmid : ixs' name = deleted := by
    refine hdeleted.trans ?_
    split
    · rfl
    · next hmem =>
      have hnil : deletedIds acts name = [] :=
        eq_nil_of_not_visited rfl fun h => hmem ((env.visit_perm _).mem_iff.mpr h)
      simp only [deleted, Index.deleteDocuments, hnil, filterMap_nil, commitAll_nil]
  rw [hmid] at hcreated hok
  by_cases hmem : name ∈ env.visit ((acts.map Prod.fst).dedup.filter fun name =>
      !(createdDocs acts name).isEmpty)
  · exact ⟨hcreated.trans (if_pos hmem), hok hmem⟩
  · have hnil : createdDocs acts name = [] :=
      eq_nil_of_not_visited rfl fun h => hmem ((env.visit_perm _).mem_iff.mpr h)
    have hid : created = (deleted, none) := by
      simp only [created, Index.createDocuments, hnil]
      exact commitAll_nil _ _
    rw [hid]
    exact ⟨hcreated.trans (if_neg hmem), rfl⟩

end Accepted

section Requests

variable {B : Bluge σ} [DecidableEq κ] {env : BulkEnv B ν κ ε τ} {body : Body τ}
  {ixs : Indexes B ν κ}

def BulkEnv.actions (env : BulkEnv B ν κ ε τ) (body : Body τ) : Actions τ :=
  (scanBody (ε := ε) env.target env.generate body).1

theorem bulkWorker_wal (h : (bulkWorker true env body ixs).2.2 = none) :
    (walActions env.getOrCreate (withCalls (env.actions body) env.calls) 0 ixs).2.2 = none ∧
      (bulkWorker true env body ixs).1 =
        (walActions env.getOrCreate (withCalls (env.actions body) env.calls) 0 ixs).1 := by
  simp only [bulkWorker, if_true, BulkEnv.actions] at h ⊢
  split at h
  · cases h
  · cases h
  · next hfailed _ => exact ⟨hfailed, rfl⟩

theorem bulkWorker_direct (h : (bulkWorker false env body ixs).2.2 = none) :
    (directRequest env (env.actions body) ixs).2.2 = none ∧
      (bulkWorker false env body ixs).1 = (directRequest env (env.actions body) ixs).1 := by
  simp only [bulkWorker, Bool.false_eq_true, if_false, BulkEnv.actions] at h ⊢
  split at h
  · cases h
  · exact ⟨h, rfl⟩

omit [DecidableEq κ] in
theorem map_fst_onIndex (name : String) (acts : Actions τ) (calls : Nat → Around B ν κ ε τ) :
    (onIndex name (withCalls acts calls)).map Prod.fst = actionsOn name acts := by
  conv_rhs => rw [← zipIdx_map_fst 0 acts]
  rw [onIndex, withCalls, actionsOn, filterMap_map, filterMap_map, map_filterMap]
  refine filterMap_congr fun p _ => ?_
  simp only [Function.comp]
  split <;> rfl

omit [DecidableEq κ] in
theorem mem_onIndex (hp : p ∈ onIndex name acts) : ((name, p.1), p.2) ∈ acts := by
  obtain ⟨⟨⟨n, a⟩, around⟩, hq, heq⟩ := mem_filterMap.mp hp
  by_cases h : n = name
  · subst h
    obtain rfl := by simpa using heq
    exact hq
  · simp [h] at heq

end Requests

end SeaSearch
