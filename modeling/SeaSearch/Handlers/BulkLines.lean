import SeaSearch.Handlers.BulkProxy
import SeaSearch.Handlers.BulkSequential

/-!
# The lines of a bulk request

`BulkWorker` skips a line that is not JSON and then takes the next one for what it waits for. So
after a data line that is not JSON the next metadata line is stored as a document.
-/

namespace SeaSearch

open List BulkProxyLemmas BulkLemmas

variable {σ ν ε κ τ : Type}

/-- The metadata line of a document, with the id that it gives (empty without one) and the index
that it names, or else the target. -/
structure DocumentMeta (target : String) (τ : Type) where
  key : String
  vm : JsonObject τ
  id : String
  index : String
  opens : key = "index" ∨ key = "create" ∨ key = "update"
  hasId : field vm "_id" = .string id ∨ field vm "_id" = .null ∧ id = ""
  hasIndex : namedIndex target vm = .string index ∨ namedIndex target vm = .null ∧ index = target
  named : index ≠ ""

/-- The metadata line of a delete. -/
structure DeleteMeta (target : String) (τ : Type) where
  vm : JsonObject τ
  id : String
  index : String
  hasId : field vm "_id" = .string id
  hasIndex : namedIndex target vm = .string index
  named : index ≠ ""

/-- An action as it stands in a body. A line that is not JSON is `none`. -/
inductive BulkItem (target : String) (τ : Type)
  | document (head : Option (DocumentMeta target τ)) (data : Option (JsonObject τ))
  | delete (head : Option (DeleteMeta target τ))

namespace BulkItem

variable {target : String}

def lines : BulkItem target τ → List (Line τ)
  | document head data =>
    [head.elim .invalid fun m => .object [(m.key, .object m.vm)], data.elim .invalid .object]
  | delete head => [head.elim .invalid fun m => .object [("delete", .object m.vm)]]

/-- The action, if all its lines are JSON. -/
def action (generated : DocID) : BulkItem target τ → Actions τ
  | document (some m) (some doc) =>
    [(m.index, .data (if m.id = "" then generated else m.id) doc (m.id != "") (some m.key))]
  | delete (some m) => [(m.index, .delete m.id)]
  | _ => []

/-- What each line of the item should give: the action is that of its last line. -/
def lineActions (generated : DocID) (item : BulkItem target τ) :
    List (Actions τ) :=
  match item with
  | document _ _ => [[], item.action generated]
  | delete _ => [item.action generated]

/-- What each line should give, for items whose lines start with number `i`. -/
def actions (generate : Nat → DocID) :
    Nat → List (BulkItem target τ) → List (Actions τ)
  | _, [] => []
  | i, item :: items =>
    item.lineActions (generate (i + 1)) ++ actions generate (i + item.lines.length) items

/-- No line of the items is JSON. -/
def Silent (items : List (BulkItem target τ)) : Prop :=
  ∀ line ∈ items.flatMap lines, line = .invalid

/-- A data line that is taken for metadata gives no action and no error. -/
def Harmless (target : String) (doc : JsonObject τ) : Prop :=
  formatError target doc = false ∧ ∀ action ∈ metaActions doc, action.1 ≠ "delete"

/-- No line is taken for what it is not, or only without an effect. Behind a data line that is not
JSON there is no JSON line. If a metadata line is not JSON then its data line is harmless as
metadata, and if it has an action then no JSON line is behind it. -/
def Framed : List (BulkItem target τ) → Prop
  | [] => True
  | document (some _) none :: items => Silent items
  | document none (some doc) :: items =>
    Harmless target doc ∧ if expectsData doc then Silent items else Framed items
  | _ :: items => Framed items

end BulkItem

open BulkItem (actions Framed Harmless Silent)

/-- The actions that each line gives, if there is no error. -/
def lineActions (ε : Type) (target : String) (generate : Nat → DocID) :
    Nat → List (Line τ) → Scan τ → Option (List (Actions τ))
  | _, [], _ => some []
  | i, line :: lines, st =>
    match scanLine (ε := ε) target (generate i) line st with
    | (_, .error _) => none
    | (acts, .ok st) => (lineActions ε target generate (i + 1) lines st).map (acts :: ·)

/-- The index that an action names, or else the target. -/
def ownIndex (target : String) (vm : JsonObject τ) : String :=
  match field vm "_index" with
  | .string s => if s = "" then target else s
  | _ => target

/-- The action of a metadata line that takes the next line as its document. -/
def waiting (fields : JsonObject τ) : Option (JsonObject τ) :=
  ((metaActions fields).find? fun action => action.1 ≠ "delete").map Prod.snd

/-- The indexes of the actions of a body, after a metadata line that may wait for its document. An
action without a document is none. -/
def targets (target : String) : Option (JsonObject τ) → List (JsonObject τ) → List String
  | _, [] => []
  | some vm, _ :: lines => ownIndex target vm :: targets target none lines
  | none, fields :: lines =>
    ((metaActions fields).filter fun action => action.1 = "delete").map
      (fun action => ownIndex target action.2) ++ targets target (waiting fields) lines

/-- The `_id` is a string or not given, and the `_index` is a string, or not given if there is a
target. -/
def DocumentConvertible (target : String) (vm : JsonObject τ) : Prop :=
  (field vm "_id" = .null ∨ ∃ id, field vm "_id" = .string id) ∧
    (namedIndex target vm = .null ∧ target ≠ "" ∨ ∃ name, namedIndex target vm = .string name)

/-- Up to a format error, every delete has a string for its id and its index, and the metadata of
every document that is read can be converted. -/
def Convertible (target : String) : Option (JsonObject τ) → List (JsonObject τ) → Prop
  | _, [] => True
  | some vm, _ :: lines => DocumentConvertible target vm ∧ Convertible target none lines
  | none, fields :: lines => Deletes target (readActions target fields) ∧
    (formatError target fields = false → Convertible target (waiting fields) lines)

/-- What a request does with the actions of its body. -/
def performActions {B : Bluge σ} [DecidableEq κ] (wal : Bool) (env : BulkEnv B ν κ ε τ)
    (acts : Actions τ) (ixs : Indexes B ν κ) :
    Indexes B ν κ × List (BulkResponseItem ε) × Option (BulkError ε) :=
  if wal then walActions env.getOrCreate (withCalls acts env.calls) 0 ixs
  else directRequest env acts ixs

namespace BulkLinesLemmas

variable {target : String} {generate : Nat → DocID} {st : Scan τ}

theorem scanLine_document (m : DocumentMeta target τ) (generated : DocID)
    (hst : st.nextLineIsData = false) :
    scanLine (ε := ε) target generated (.object [(m.key, .object m.vm)]) st =
      ([], .ok ⟨true, some m.key, namedIndex target m.vm, field m.vm "_id"⟩) := by
  have hempty : (namedIndex target m.vm).isEmptyString = false := by
    rcases m.hasIndex with h | ⟨h, _⟩
    · simp [h, Value.isEmptyString, m.named]
    · simp [h, Value.isEmptyString]
  rw [scanLine_meta _ hst, metaLine, metaField, if_pos m.opens, hempty]
  rfl

theorem dataLine_ok {key id name : String} {v w : Value τ} {generated : DocID}
    {doc : JsonObject τ} (hid : LineMeta.docID (ε := ε) ⟨some key, v, w⟩ = .ok id)
    (hindex : LineMeta.indexName (ε := ε) target ⟨some key, v, w⟩ = .ok name) :
    dataLine (ε := ε) target generated ⟨some key, v, w⟩ doc =
      .ok (name, .data (if id = "" then generated else id) doc (id != "") (some key)) := by
  simp only [dataLine, hid, hindex, bind, Except.bind, pure, Except.pure]
  rfl

theorem dataLine_document (m : DocumentMeta target τ) (generated : DocID) (doc : JsonObject τ) :
    dataLine (ε := ε) target generated ⟨some m.key, namedIndex target m.vm, field m.vm "_id"⟩ doc =
      .ok (m.index, .data (if m.id = "" then generated else m.id) doc (m.id != "")
        (some m.key)) := by
  have hid : LineMeta.docID (ε := ε) ⟨some m.key, namedIndex target m.vm, field m.vm "_id"⟩ =
      .ok m.id := by
    rcases m.hasId with h | ⟨h, hid⟩
    · rw [LineMeta.docID, h]
      rfl
    · rw [LineMeta.docID, h, hid]
  have hindex : LineMeta.indexName (ε := ε) target
      ⟨some m.key, namedIndex target m.vm, field m.vm "_id"⟩ = .ok m.index := by
    rcases m.hasIndex with h | ⟨h, hindex⟩
    · rw [LineMeta.indexName, h]
      rfl
    · simp only [LineMeta.indexName, h]
      rw [if_neg (hindex ▸ m.named), hindex]
  exact dataLine_ok hid hindex

theorem scanLine_delete (m : DeleteMeta target τ) (generated : DocID)
    (hst : st.nextLineIsData = false) :
    scanLine (ε := ε) target generated (.object [("delete", .object m.vm)]) st =
      ([(m.index, .delete m.id)], .ok ⟨false, {}⟩) := by
  rw [scanLine_meta _ hst]
  simp [metaLine, metaField, m.hasId, m.hasIndex, m.named, Value.asString, bind, Except.bind, pure,
    Except.pure]

theorem lineActions_cons {line : Line τ} {lines : List (Line τ)}
    (h : scanLine (ε := ε) target (generate i) line st = (acts, .ok st')) :
    lineActions ε target generate i (line :: lines) st =
      (lineActions ε target generate (i + 1) lines st').map (acts :: ·) := by
  rw [lineActions, h]

theorem scanLine_waiting (generated : DocID) (fields : JsonObject τ)
    (hst : st.nextLineIsData = true) :
    (∃ e, scanLine (ε := ε) target generated (.object fields) st = ([], .error e)) ∨
      ∃ name docID update op st', scanLine (ε := ε) target generated (.object fields) st =
        ([(name, .data docID fields update op)], .ok st') := by
  rw [scanLine, if_pos hst]
  cases hdata : dataLine (ε := ε) target generated st.lastLineMetaData fields with
  | error e => exact .inl ⟨e, rfl⟩
  | ok act =>
    simp only [dataLine, bind, Except.bind, pure, Except.pure] at hdata
    split at hdata
    · cases hdata
    · split at hdata
      · cases hdata
      · cases hdata
        exact .inr ⟨_, _, _, _, _, rfl⟩

theorem lineActions_waiting {fields : JsonObject τ} {lines : List (Line τ)}
    (hst : st.nextLineIsData = true)
    (h : lineActions ε target generate i (.object fields :: lines) st = some (acts :: rest)) :
    ∃ name docID update op, acts = [(name, .data docID fields update op)] := by
  rcases scanLine_waiting (ε := ε) (generate i) fields hst with
    ⟨e, hline⟩ | ⟨name, docID, update, op, st', hline⟩
  · rw [lineActions, hline] at h
    cases h
  · rw [lineActions_cons hline] at h
    obtain ⟨_, -, heq⟩ := Option.map_eq_some_iff.1 h
    exact ⟨name, docID, update, op, (List.cons.inj heq).1.symm⟩

theorem map_cons_eq {β : Type} {a : β} {x : Option (List β)} {l : List β} :
    x.map (a :: ·) = some (a :: l) ↔ x = some l := by
  cases x <;> simp

/-- While the scan waits for a document, it must not come to a JSON line. -/
theorem waiting_iff {items : List (BulkItem target τ)} (hst : st.nextLineIsData = true) (i : Nat) :
    lineActions ε target generate i (items.flatMap BulkItem.lines) st =
      some (actions generate i items) ↔ Silent items := by
  induction items generalizing i with
  | nil => exact iff_of_true rfl nofun
  | cons item items ih =>
    rw [Silent, flatMap_cons, forall_mem_append, ← Silent]
    rcases item with ⟨_ | m, _ | doc⟩ | ⟨_ | m⟩
    · refine (map_cons_eq.trans map_cons_eq).trans ((ih (i + 1 + 1)).trans (and_iff_right ?_).symm)
      simp [BulkItem.lines]
    · refine iff_of_false (fun h => ?_) fun h => nomatch h.1 _ (mem_cons_of_mem _ mem_cons_self)
      obtain ⟨_, _, _, _, heq⟩ := lineActions_waiting hst (map_cons_eq.1 h)
      cases heq
    · refine iff_of_false (fun h => ?_) fun h => nomatch h.1 _ mem_cons_self
      obtain ⟨_, _, _, _, heq⟩ := lineActions_waiting hst h
      cases heq
    · refine iff_of_false (fun h => ?_) fun h => nomatch h.1 _ mem_cons_self
      obtain ⟨_, _, _, _, heq⟩ := lineActions_waiting hst h
      cases heq
    · refine map_cons_eq.trans ((ih (i + 1)).trans (and_iff_right ?_).symm)
      simp [BulkItem.lines]
    · refine iff_of_false (fun h => ?_) fun h => nomatch h.1 _ mem_cons_self
      obtain ⟨_, _, _, _, heq⟩ := lineActions_waiting hst h
      cases heq

theorem metaField_act {key : String} {v : Value τ} {act : Option (String × BulkAction τ)}
    (h : metaField (ε := ε) target st key v = .ok (st', act)) :
    key ≠ "delete" ∧ act = none ∨ key = "delete" ∧ ∃ name id, act = some (name, .delete id) := by
  cases fieldKind target key v with
  | null | string | other => cases h
  | opens hkey =>
    rw [metaField, if_pos hkey] at h
    split at h
    · cases h
    · cases h
      refine .inl ⟨?_, rfl⟩
      rintro rfl
      simp at hkey
  | delete =>
    rw [metaField, if_neg (by decide), if_pos rfl] at h
    simp only [bind, Except.bind, pure, Except.pure] at h
    split at h
    · cases h
    · split at h
      · cases h
      · split at h
        · cases h
        · cases h
          exact .inr ⟨rfl, _, _, rfl⟩
  | unknown hkey hdel =>
    rw [metaField, if_neg hkey, if_neg hdel] at h
    cases h
    exact .inl ⟨hdel, rfl⟩

theorem metaLine_harmless {doc : JsonObject τ} (h : Harmless target doc) (st : Scan τ) :
    ∃ st' : Scan τ, metaLine (ε := ε) target doc st = ([], .ok st') ∧
      st'.nextLineIsData = (st.nextLineIsData || expectsData doc) := by
  induction doc generalizing st with
  | nil => exact ⟨st, rfl, (Bool.or_false _).symm⟩
  | cons q doc ih =>
    obtain ⟨hformat, hactions⟩ := h
    rw [formatError_cons, Bool.or_eq_false_iff] at hformat
    rw [metaActions_cons, forall_mem_append] at hactions
    have hrest := ih ⟨hformat.2, hactions.2⟩
    obtain ⟨key, v⟩ := q
    cases fieldKind target key v with
    | null | string | other => cases hformat.1
    | @opens _ vm hkey _ herror =>
      obtain ⟨st', hst', hnext⟩ := hrest ⟨true, some key, namedIndex target vm, field vm "_id"⟩
      refine ⟨st', ?_, by simp [hnext, expectsData, hkey]⟩
      rw [metaLine, metaField, if_pos hkey, ← herror, hformat.1]
      simp [hst']
    | delete => exact absurd rfl (hactions.1 _ mem_cons_self)
    | @unknown _ vm hkey hdel =>
      obtain ⟨st', hst', hnext⟩ := hrest ⟨st.nextLineIsData, some "index", .string target, .null⟩
      refine ⟨st', by simp [metaLine, metaField, hkey, hdel, hst'], ?_⟩
      rw [hnext, show expectsData ((key, .object vm) :: doc) = expectsData doc by
        simp only [expectsData, any_cons, decide_eq_false hkey, Bool.false_or]]

theorem harmless_of_metaLine {doc : JsonObject τ}
    (h : metaLine (ε := ε) target doc st = ([], .ok st')) : Harmless target doc := by
  induction doc generalizing st with
  | nil => exact ⟨rfl, forall_mem_nil _⟩
  | cons q doc ih =>
    obtain ⟨key, v⟩ := q
    rw [metaLine] at h
    split at h
    · cases h
    · next st₁ act hfield =>
      obtain ⟨hacts, hresult⟩ := Prod.mk.inj h
      obtain ⟨hnone, hacts⟩ := append_eq_nil_iff.1 hacts
      obtain ⟨hformat, hactions⟩ := ih (Prod.ext hacts hresult)
      rw [Harmless, formatError_cons, metaActions_cons, forall_mem_append]
      cases fieldKind target key v with
      | null | string | other => cases hfield
      | @opens _ vm hkey hone herror =>
        rw [metaField, if_pos hkey] at hfield
        split at hfield
        · cases hfield
        · next hempty =>
          refine ⟨by simp [herror, hempty, hformat], ?_, hactions⟩
          rw [hone, forall_mem_singleton]
          rintro rfl
          simp at hkey
      | delete =>
        rcases metaField_act hfield with ⟨hdel, -⟩ | ⟨-, name, id, rfl⟩
        · exact absurd rfl hdel
        · cases hnone
      | unknown _ _ hone herror =>
        exact ⟨by rw [herror, hformat]; rfl, by rw [hone]; exact forall_mem_nil _, hactions⟩

theorem framed_iff {items : List (BulkItem target τ)} (hst : st.nextLineIsData = false) (i : Nat) :
    lineActions ε target generate i (items.flatMap BulkItem.lines) st =
      some (actions generate i items) ↔ Framed items := by
  induction items generalizing st i with
  | nil => exact iff_of_true rfl trivial
  | cons item items ih =>
    rw [flatMap_cons]
    rcases item with ⟨_ | m, _ | doc⟩ | ⟨_ | m⟩
    · exact (map_cons_eq.trans map_cons_eq).trans (ih hst (i + 1 + 1))
    · -- the data line is taken for metadata
      refine map_cons_eq.trans ?_
      change lineActions ε target generate (i + 1) (.object doc :: _) st = some ([] :: _) ↔
        Harmless target doc ∧ if expectsData doc then Silent items else Framed items
      by_cases hdoc : Harmless target doc
      · obtain ⟨st', hline, hnext⟩ := metaLine_harmless (ε := ε) hdoc st
        rw [hst, Bool.false_or] at hnext
        rw [and_iff_right hdoc, lineActions_cons ((scanLine_meta doc hst).trans hline), map_cons_eq]
        split
        · next hexpects => exact waiting_iff (hnext.trans hexpects) _
        · next hexpects => exact ih (hnext.trans (Bool.eq_false_iff.2 hexpects)) _
      · refine iff_of_false (fun h => hdoc ?_) fun h => hdoc h.1
        rw [lineActions] at h
        split at h
        · cases h
        · next acts st' hline =>
          obtain ⟨_, -, heq⟩ := Option.map_eq_some_iff.1 h
          rw [(List.cons.inj heq).1, scanLine_meta doc hst] at hline
          exact harmless_of_metaLine hline
    · change lineActions ε target generate i (.object [(m.key, .object m.vm)] :: .invalid :: _) st =
        some ([] :: [] :: _) ↔ _
      rw [lineActions_cons (scanLine_document m _ hst)]
      exact (map_cons_eq.trans map_cons_eq).trans (waiting_iff rfl (i + 1 + 1))
    · change lineActions ε target generate i (.object [(m.key, .object m.vm)] :: .object doc :: _)
        st = some ([] :: [_] :: _) ↔ _
      rw [lineActions_cons (scanLine_document m _ hst), lineActions, scanLine, if_pos rfl,
        dataLine_document]
      exact (map_cons_eq.trans map_cons_eq).trans (ih rfl (i + 1 + 1))
    · exact map_cons_eq.trans (ih hst (i + 1))
    · change lineActions ε target generate i (.object [("delete", .object m.vm)] :: _) st =
        some ([_] :: _) ↔ _
      rw [lineActions_cons (scanLine_delete m _ hst)]
      exact map_cons_eq.trans (ih rfl (i + 1))

theorem scanLines_of_lineActions {lines : List (Line τ)}
    (h : lineActions ε target generate i lines st = some acts) :
    scanLines (ε := ε) target generate i lines st = (acts.flatten, none) := by
  induction lines generalizing i st acts with
  | nil =>
    cases h
    rfl
  | cons line lines ih =>
    rw [lineActions] at h
    split at h
    · cases h
    · next hline =>
      obtain ⟨rest, hrest, rfl⟩ := Option.map_eq_some_iff.1 h
      rw [scanLines, hline, flatten_cons]
      simp only [ih hrest]

variable {B : Bluge σ} [DecidableEq κ] {env : BulkEnv B ν κ ε τ} {ixs : Indexes B ν κ}

theorem bulkWorker_scanned (wal : Bool) {body : Body τ} {acts : Actions τ}
    (hscan : scanBody (ε := ε) env.target env.generate body = (acts, none)) :
    bulkWorker wal env body ixs = performActions wal env acts ixs := by
  rw [bulkWorker, hscan, performActions]
  cases wal with
  | true =>
    simp only [if_true]
    split
    · next hfailed => rw [← hfailed]
    · next h => cases h
    · next hfailed _ => rw [← hfailed]
  | false => rfl

/-- What the scan waits for after a metadata line. -/
def Awaits (target : String) (w : Option (JsonObject τ)) (st : Scan τ) : Prop :=
  match w with
  | none => st.nextLineIsData = false
  | some vm => ∃ key, st = ⟨true, some key, namedIndex target vm, field vm "_id"⟩

theorem ownIndex_of_named {vm : JsonObject τ} {name : String}
    (h : namedIndex target vm = .string name) : ownIndex target vm = name := by
  rw [namedIndex] at h
  rw [ownIndex]
  cases hfield : field vm "_index" with
  | string s =>
    rw [hfield] at h
    by_cases hs : s = ""
    · simpa [hs, Value.isEmptyString] using h
    · simpa [hs, Value.isEmptyString] using h
  | null | object o | other x => simp [hfield, Value.isEmptyString] at h

theorem ownIndex_of_null {vm : JsonObject τ} (h : namedIndex target vm = .null) :
    ownIndex target vm = target := by
  rw [namedIndex] at h
  rw [ownIndex]
  cases hfield : field vm "_index" with
  | string s => by_cases hs : s = "" <;> simp [hfield, hs, Value.isEmptyString] at h
  | null | object o | other x => rfl

theorem dataLine_cases (key : String) (vm : JsonObject τ) (generated : DocID)
    (doc : JsonObject τ) :
    DocumentConvertible target vm ∧ (∃ act : BulkAction τ, act.panics = false ∧
        dataLine (ε := ε) target generated ⟨some key, namedIndex target vm, field vm "_id"⟩ doc =
          .ok (ownIndex target vm, act)) ∨
      ¬ DocumentConvertible target vm ∧
        dataLine (ε := ε) target generated ⟨some key, namedIndex target vm, field vm "_id"⟩ doc =
          .error .panic := by
  have hok : ∀ id name, LineMeta.docID (ε := ε)
      ⟨some key, namedIndex target vm, field vm "_id"⟩ = .ok id → LineMeta.indexName (ε := ε)
      target ⟨some key, namedIndex target vm, field vm "_id"⟩ = .ok name →
      name = ownIndex target vm → ∃ act : BulkAction τ, act.panics = false ∧
        dataLine (ε := ε) target generated ⟨some key, namedIndex target vm, field vm "_id"⟩ doc =
          .ok (ownIndex target vm, act) := by
    rintro id _ hid hindex rfl
    exact ⟨_, rfl, dataLine_ok hid hindex⟩
  unfold DocumentConvertible
  cases hid : field vm "_id" with
  | object o | other x => exact .inr ⟨by simp, rfl⟩
  | null | string id =>
    rw [hid] at hok
    cases hindex : namedIndex target vm with
    | object o | other x => exact .inr ⟨by simp, rfl⟩
    | string name =>
      rw [hindex] at hok
      exact .inl ⟨by simp, hok _ name rfl rfl (ownIndex_of_named hindex).symm⟩
    | null =>
      rw [hindex] at hok
      by_cases htarget : target = ""
      · subst htarget
        exact .inr ⟨by simp, rfl⟩
      · exact .inl ⟨by simp [htarget], hok _ target rfl (if_neg htarget)
          (ownIndex_of_null hindex).symm⟩

theorem metaLine_noPanic (fields : JsonObject τ) (st : Scan τ) :
    ∀ p ∈ (metaLine (ε := ε) target fields st).1, p.2.panics = false := by
  induction fields generalizing st with
  | nil => exact forall_mem_nil _
  | cons q fields ih =>
    rw [metaLine]
    split
    · exact forall_mem_nil _
    · next st' act hfield =>
      refine forall_mem_append.2 ⟨fun p hp => ?_, ih st'⟩
      rcases metaField_act hfield with ⟨-, rfl⟩ | ⟨-, name, id, rfl⟩
      · cases hp
      · rw [mem_singleton.1 hp]
        rfl

theorem scan_spec (generate : Nat → DocID) {w : Option (JsonObject τ)}
    {lines : List (JsonObject τ)} (hst : Awaits target w st)
    (hone : OneActions target w.isSome (lines.map .object)) (i : Nat) :
    ((scanLines (ε := ε) target generate i (lines.map .object) st).2 ≠ some .panic ↔
        Convertible target w lines) ∧
      ((scanLines (ε := ε) target generate i (lines.map .object) st).2 = none →
        (scanLines (ε := ε) target generate i (lines.map .object) st).1.map Prod.fst =
          targets target w lines) ∧
      ∀ p ∈ (scanLines (ε := ε) target generate i (lines.map .object) st).1,
        p.2.panics = false := by
  induction lines generalizing w st i with
  | nil =>
    exact ⟨iff_of_true (Option.some_ne_none _).symm (by cases w <;> trivial),
      fun _ => by cases w <;> rfl, forall_mem_nil _⟩
  | cons fields lines ih =>
    cases w with
    | some vm =>
      obtain ⟨key, rfl⟩ := hst
      rw [map_cons, scanLines, scanLine, if_pos rfl]
      rcases dataLine_cases (ε := ε) key vm (generate i) fields with
        ⟨hconv, act, hact, hdata⟩ | ⟨hnot, hdata⟩
      · have hnext : Awaits target none ⟨false, some key, namedIndex target vm, field vm "_id"⟩ :=
          rfl
        obtain ⟨hpanic, htargets, hacts⟩ := ih hnext hone (i + 1)
        rw [hdata]
        refine ⟨hpanic.trans (and_iff_right hconv).symm, fun h => ?_, ?_⟩
        · exact congrArg (ownIndex target vm :: ·) (htargets h)
        · exact forall_mem_cons.2 ⟨hact, hacts⟩
      · rw [hdata]
        exact ⟨iff_of_false (fun h => h rfl) fun h => hnot h.1, fun h => (by cases h),
          forall_mem_nil _⟩
    | none =>
      obtain ⟨hfields, hrest⟩ := oneActions_meta hone
      have houtcome : MetaOutcome ε target (readActions target fields)
          (formatError target fields) _ (metaLine target fields st).2 :=
        metaLine_outcome hfields hst
      have hnoPanic : ∀ p ∈ (metaLine (ε := ε) target fields st).1, p.2.panics = false :=
        metaLine_noPanic fields st
      have hexpects : formatError target fields = false → expectsData fields = _ := expectsData_eq
      have hactions : formatError target fields = false → _ := readActions_eq
      rw [map_cons, scanLines, scanLine_meta fields hst, Convertible, targets, waiting]
      generalize metaLine (ε := ε) target fields st = r at houtcome hnoPanic ⊢
      obtain ⟨acts, r⟩ := r
      dsimp only at houtcome hnoPanic
      generalize formatError target fields = format at houtcome hrest hexpects hactions ⊢
      generalize readActions target fields = actions at houtcome hactions ⊢
      cases houtcome with
      | panic hnot =>
        exact ⟨iff_of_false (fun h => h rfl) fun h => hnot h.1, fun h => (by cases h), hnoPanic⟩
      | format hdeletes =>
        exact ⟨iff_of_true (fun h => by cases h) ⟨hdeletes, fun h => (by cases h)⟩,
          fun h => (by cases h), hnoPanic⟩
      | quiet hnext =>
        rw [← hactions rfl] at hexpects ⊢
        have hrest' := hrest rfl
        rw [hexpects rfl] at hrest'
        obtain ⟨hpanic, htargets, hacts⟩ := ih (w := none) hnext hrest' (i + 1)
        exact ⟨hpanic.trans ⟨fun h => ⟨fun _ hmem => absurd hmem not_mem_nil, fun _ => h⟩,
          fun h => h.2 rfl⟩, htargets, hacts⟩
      | @delete vm name _ id hid hname hnext =>
        rw [← hactions rfl] at hexpects ⊢
        have hrest' := hrest rfl
        rw [hexpects rfl] at hrest'
        obtain ⟨hpanic, htargets, hacts⟩ := ih (w := none) hnext hrest' (i + 1)
        refine ⟨hpanic.trans ⟨fun h => ⟨fun vm' hvm => ?_, fun _ => h⟩, fun h => h.2 rfl⟩,
          fun h => ?_, forall_mem_cons.2 ⟨rfl, hacts⟩⟩
        · cases mem_singleton.1 hvm
          exact ⟨⟨id, hid⟩, name, hname⟩
        · exact congrArg₂ (· :: ·) (ownIndex_of_named hname).symm (htargets h)
      | @opens key vm hkey =>
        rw [← hactions rfl] at hexpects ⊢
        have hdel : key ≠ "delete" := by
          rintro rfl
          simp at hkey
        have hrest' := hrest rfl
        rw [show expectsData fields = true by simp [hexpects, hkey]] at hrest'
        obtain ⟨hpanic, htargets, hacts⟩ := ih (w := some vm) ⟨key, rfl⟩ hrest' (i + 1)
        rw [find?_cons_of_pos (by simpa using hdel), filter_cons_of_neg (by simpa using hdel)]
        refine ⟨hpanic.trans ⟨fun h => ⟨fun vm' hvm => ?_, fun _ => h⟩, fun h => h.2 rfl⟩,
          htargets, hacts⟩
        cases mem_singleton.1 hvm
        exact absurd rfl hdel

theorem walActions_noPanic {getOrCreate : String → Option ε}
    {acts : List ((String × BulkAction τ) × Around B ν κ ε τ)}
    (h : ∀ p ∈ acts, p.1.2.panics = false) (count : Nat) :
    (walActions getOrCreate acts count ixs).2.2 ≠ some .panic := by
  induction acts generalizing count ixs with
  | nil => simp [walActions]
  | cons p acts ih =>
    obtain ⟨⟨name, act⟩, around⟩ := p
    obtain ⟨hact, hrest⟩ := forall_mem_cons.1 h
    simp only [walActions, show act.panics = false from hact, Bool.false_eq_true, if_false]
    split
    · simp
    · split
      · next hfail =>
        cases act with
        | data docID doc update op =>
          obtain ⟨e, -, rfl⟩ := Option.map_eq_some_iff.1 hfail
          simp
        | delete docID => cases hfail
      · exact ih hrest _

omit [DecidableEq κ] in
theorem forIndexes_noPanic {getOrCreate : String → Option ε} (names : List String) (count : Nat) :
    (forIndexes getOrCreate items call names count ixs).2.2 ≠ some .panic := by
  induction names generalizing count ixs with
  | nil => simp [forIndexes]
  | cons name names ih =>
    rw [forIndexes]
    split
    · simp
    · split
      · simp
      · exact ih _

theorem performActions_noPanic (wal : Bool) {acts : Actions τ}
    (h : ∀ p ∈ acts, p.2.panics = false) :
    (performActions wal env acts ixs).2.2 ≠ some .panic := by
  cases wal with
  | true =>
    refine walActions_noPanic (fun p hp => ?_) 0
    obtain ⟨q, hq, rfl⟩ := mem_map.1 hp
    exact h _ (fst_mem_of_mem_zipIdx hq)
  | false =>
    change (directRequest env acts ixs).2.2 ≠ _
    unfold directRequest
    dsimp only
    split
    · next hdeleted =>
      have hne := congrArg (fun r => r.2.2) hdeleted
      exact fun heq => forIndexes_noPanic _ _ (hne.trans heq)
    · exact forIndexes_noPanic _ _

theorem bulkWorker_noPanic (wal : Bool) {body : Body τ}
    (hscan : (scanBody (ε := ε) env.target env.generate body).2 ≠ some .panic)
    (hacts : ∀ p ∈ (scanBody (ε := ε) env.target env.generate body).1, p.2.panics = false) :
    (bulkWorker wal env body ixs).2.2 ≠ some .panic := by
  have hperform : (performActions wal env _ ixs).2.2 ≠ some .panic :=
    performActions_noPanic wal hacts
  rw [bulkWorker]
  generalize scanBody (ε := ε) env.target env.generate body = r at hscan hperform ⊢
  obtain ⟨acts, err⟩ := r
  cases wal with
  | true =>
    simp only [performActions, if_true] at hperform ⊢
    generalize walActions env.getOrCreate (withCalls acts env.calls) 0 ixs = r at hperform ⊢
    obtain ⟨ixs, items, failed⟩ := r
    cases failed with
    | some e => exact hperform
    | none =>
      cases err with
      | none => exact fun h => by cases h
      | some e =>
        cases e with
        | panic => exact absurd rfl hscan
        | format | scanner | index e | document e => exact fun h => by cases h
  | false =>
    simp only [performActions, Bool.false_eq_true, if_false] at hperform ⊢
    cases err with
    | some e => exact hscan
    | none => exact hperform

end BulkLinesLemmas

open BulkLinesLemmas

section Lines

variable {B : Bluge σ} [DecidableEq κ] (wal : Bool) (env : BulkEnv B ν κ ε τ)
  (items : List (BulkItem env.target τ)) (ixs : Indexes B ν κ)

/-- Each line gives the action that it should give, and no error, if and only if the lines are
framed. Then a request performs the actions whose lines are all JSON, each document with the data
line of its own pair. -/
theorem bulk_framing :
    (lineActions ε env.target env.generate 0 (items.flatMap BulkItem.lines) {} =
      some (actions env.generate 0 items) ↔ Framed items) ∧
    (Framed items → bulkWorker wal env ⟨items.flatMap BulkItem.lines, false⟩ ixs =
      performActions wal env (actions env.generate 0 items).flatten ixs) := by
  refine ⟨framed_iff rfl 0, fun h => bulkWorker_scanned wal ?_⟩
  rw [scanBody, scanLines_of_lineActions ((framed_iff rfl 0).2 h)]
  rfl

end Lines

def documentMeta : DocumentMeta "" Unit :=
  ⟨"index", [("_index", .string "docs"), ("_id", .string "a")], "a", "docs", .inl rfl, .inl rfl,
    .inl rfl, by decide⟩

/-- A pair without JSON, a document, and a pair whose metadata line is not JSON. -/
theorem bulk_framing_skipped :
    let items := [.document none none, .document (some documentMeta) (some []),
      .document none (some [])]
    bulkWorker true plainRequest ⟨items.flatMap BulkItem.lines, false⟩ noDocuments =
      performActions true plainRequest [("docs", .data "a" [] true (some "index"))] noDocuments :=
  (bulk_framing true plainRequest _ noDocuments).2 ⟨⟨rfl, nofun⟩, trivial⟩

/-- After a data line that is not JSON the next metadata line is stored as a document, and its
document is not stored. -/
theorem metadata_stored :
    let items := [.document (some documentMeta) none, .document (some documentMeta) (some [])]
    plainRequest.actions ⟨items.flatMap BulkItem.lines, false⟩ =
      [("docs", .data "a" [("index", .object documentMeta.vm)] true (some "index"))] := rfl

end SeaSearch
