import SeaSearch.Handlers.Bulk
import SeaSearch.Lib.Versions

/-!
# Bulk requests in the proxy

`processBody` of the proxy reads a bulk body as `BulkWorker` does, but it only finds out to which
index each line belongs.
-/

namespace SeaSearch

open Versions
open Value (asString isEmptyString)

variable {ε τ α : Type}

/-- The variables of the loop of `processBody`: `lastIndex` is `lastLineMetaData["_index"]`. -/
structure ProxyScan (τ : Type) where
  nextLineIsData : Bool := false
  lastIndex : Value τ := .null

def proxyField (target : String) (st : ProxyScan τ) (key : String) (v : Value τ) :
    Except (BulkError ε) (ProxyScan τ × Option String) :=
  match v with
  | .object vm =>
    if key = "index" ∨ key = "create" ∨ key = "update" then
      if (namedIndex target vm).isEmptyString then .error .format
      else do
        let indexName ← (namedIndex target vm).asString
        pure (⟨true, namedIndex target vm⟩, some indexName)
    else if key = "delete" then do
      let indexName ← (namedIndex target vm).asString
      if indexName = "" then .error .format
      else pure (⟨false, .null⟩, some indexName)
    else .ok (⟨st.nextLineIsData, .null⟩, none)
  | _ => .error .format

def proxyFields (target : String) :
    JsonObject τ → ProxyScan τ → Except (BulkError ε) (ProxyScan τ × List String)
  | [], st => .ok (st, [])
  | (key, v) :: fields, st => do
    let (st, index) ← proxyField target st key v
    let (st, indexes) ← proxyFields target fields st
    pure (st, index.toList ++ indexes)

def proxyLine (target : String) (line : Line τ) (st : ProxyScan τ) :
    Except (BulkError ε) (ProxyScan τ × List String) :=
  match line with
  | .invalid => .ok (st, [])
  | .object fields =>
    if st.nextLineIsData then do
      let indexName ← st.lastIndex.asString
      pure ({ st with nextLineIsData := false }, [indexName])
    else proxyFields target fields st

def proxyLines (target : String) :
    List (Line τ) → ProxyScan τ → Except (BulkError ε) (List (String × Line τ))
  | [], _ => .ok []
  | line :: lines, st => do
    let (st, indexes) ← proxyLine target line st
    let pushed ← proxyLines target lines st
    pure (indexes.map (fun index => (index, line)) ++ pushed)

/-- `indexLineMap[name]`. -/
def linesOf (pushed : List (String × Line τ)) (name : String) : List (Line τ) :=
  pushed.filterMap fun p => if p.1 = name then some p.2 else none

/-- The loop over `indexLineMap`, up to an error of `GetAddrByIndex`. A node that gets nothing
is not in the map. -/
def sendLines [DecidableEq α] (addrOf : String → Except ε α) (pushed : List (String × Line τ)) :
    List String → (α → List (Line τ)) → Except (BulkError ε) (α → List (Line τ))
  | [], sent => .ok sent
  | name :: names, sent =>
    match addrOf name with
    | .error e => .error (.index e)
    | .ok addr =>
      sendLines addrOf pushed names
        (Function.update sent addr (sent addr ++ linesOf pushed name))

/-- `processBody`: the lines for each node. `order` is that of the loop over
`indexLineMap`. -/
def processBody [DecidableEq α] (target : String) (addrOf : String → Except ε α)
    (order : Shuffle String) (body : Body τ) : Except (BulkError ε) (α → List (Line τ)) :=
  match proxyLines target body.lines {} with
  | .error e => .error e
  | .ok pushed =>
    if body.broken then .error .scanner
    else sendLines addrOf pushed (order.keys (pushed.map Prod.fst)) fun _ => []

/-- The proxy does not panic. And when `BulkWorker` reads the whole body, each node performs
the actions on its indexes, in the order of the body, and no others. The ids that are not in
the body are all written as `generated`. -/
structure SplitAgrees [DecidableEq α] (target : String) (generated : DocID)
    (addrOf : String → Except ε α) (body : Body τ) : Prop where
  noPanic : ∀ order, processBody target addrOf order body ≠ .error .panic
  sameActions : ∀ acts,
    scanBody (ε := ε) target (fun _ => generated) body = (acts, none) → ∀ order,
      ∃ sent, processBody target addrOf order body = .ok sent ∧ ∀ addr, ∃ acts',
        scanBody (ε := ε) target (fun _ => generated) ⟨sent addr, false⟩ = (acts', none) ∧
          ∀ name, (addrOf name = .ok addr → actionsOn name acts' = actionsOn name acts) ∧
            (addrOf name ≠ .ok addr → actionsOn name acts' = [])

def expectsData (fields : JsonObject τ) : Bool :=
  fields.any fun p => p.1 = "index" ∨ p.1 = "create" ∨ p.1 = "update"

/-- The metadata lines of a body, where `waits` says that a document comes first. -/
def metaLines : Bool → List (Line τ) → List (JsonObject τ)
  | _, [] => []
  | waits, .invalid :: lines => metaLines waits lines
  | true, .object _ :: lines => metaLines false lines
  | false, .object fields :: lines => fields :: metaLines (expectsData fields) lines

/-- The metadata line whose document is missing at the end of the body, after `last`. -/
def danglingLine : Option (JsonObject τ) → List (Line τ) → Option (JsonObject τ)
  | last, [] => last
  | last, .invalid :: lines => danglingLine last lines
  | some _, .object _ :: lines => danglingLine none lines
  | none, .object fields :: lines =>
    danglingLine (if expectsData fields then some fields else none) lines

/-- The actions of a metadata line, in the order in which its fields are visited. -/
def metaActions (fields : JsonObject τ) : List (String × JsonObject τ) :=
  fields.filterMap fun
    | (key, .object vm) =>
      if key = "index" ∨ key = "create" ∨ key = "update" ∨ key = "delete" then some (key, vm)
      else none
    | _ => none

/-- The values for `_index` of the actions in a metadata line, or the target for an empty
one. -/
def actionIndexes (target : String) (fields : JsonObject τ) : List (Value τ) :=
  (metaActions fields).map fun action => namedIndex target action.2

/-- A field of a metadata line is a format error: it is not an object, or an action without an
index when the request has no target. -/
def fieldError (target : String) (p : String × Value τ) : Bool :=
  match p with
  | (_, .object _) => (actionIndexes target [p]).any isEmptyString
  | _ => true

def formatError (target : String) (fields : JsonObject τ) : Bool := fields.any (fieldError target)

/-- The entries up to the first with the property, which is one of them. -/
def upTo {β : Type} (P : β → Bool) : List β → List β
  | [] => []
  | b :: l => b :: if P b then [] else upTo P l

/-- The actions of a metadata line that are read: those up to a format error. -/
def readActions (target : String) (fields : JsonObject τ) : List (String × JsonObject τ) :=
  metaActions (upTo (fieldError target) fields)

/-- The metadata lines that are read: those up to a format error. -/
abbrev readLines (target : String) (waits : Bool) (lines : List (Line τ)) :
    List (JsonObject τ) :=
  upTo (formatError target) (metaLines waits lines)

/-- No field has the name of an action. -/
def NoAction (fields : JsonObject τ) : Prop :=
  ∀ p ∈ fields, ¬ (p.1 = "index" ∨ p.1 = "create" ∨ p.1 = "update") ∧ p.1 ≠ "delete"

/-- A metadata line has at most one action, besides fields with other names. An action that takes
the next line as its document is visited last. -/
def OneAction : JsonObject τ → Prop
  | [] => True
  | (key, _) :: fields =>
    if key = "index" ∨ key = "create" ∨ key = "update" then fields = []
    else if key = "delete" then NoAction fields
    else OneAction fields

/-- Every metadata line that is read has at most one action. -/
def OneActions (target : String) (waits : Bool) (lines : List (Line τ)) : Prop :=
  ∀ fields ∈ readLines target waits lines, OneAction fields

/-- Every action has a string for its index, which may be empty. -/
abbrev Named (target : String) (actions : List (String × JsonObject τ)) : Prop :=
  ∀ action ∈ actions, ∃ name, namedIndex target action.2 = .string name

/-- Every action that is read names its index. -/
def NamesIndexes (target : String) (waits : Bool) (lines : List (Line τ)) : Prop :=
  ∀ fields ∈ readLines target waits lines, Named target (readActions target fields)

/-- The body has an action on the index. -/
def Mentions (target : String) (body : Body τ) (name : String) : Prop :=
  ∃ fields ∈ metaLines false body.lines, .string name ∈ actionIndexes target fields

/-- What the nodes need: each index has a node, and a metadata line without a document at
the end of the body is for an index that has its node alone. -/
structure NodesReady (target : String) (addrOf : String → Except ε α) (body : Body τ) : Prop where
  addressed : ∀ name, Mentions target body name → ∃ addr, addrOf name = .ok addr
  alone : ∀ fields name, danglingLine none body.lines = some fields →
    .string name ∈ actionIndexes target fields → ∀ other, Mentions target body other →
      addrOf other = addrOf name → other = name

namespace BulkProxyLemmas

/-- What a field of a metadata line is. -/
inductive FieldKind (target : String) : String → Value τ → Prop
  | null : FieldKind target key .null
  | string : FieldKind target key (.string s)
  | other : FieldKind target key (.other x)
  | opens : (key = "index" ∨ key = "create" ∨ key = "update") →
      metaActions [(key, .object vm)] = [(key, vm)] →
      fieldError target (key, .object vm) = (namedIndex target vm).isEmptyString →
      FieldKind target key (.object vm)
  | delete : FieldKind target "delete" (.object vm)
  | unknown : ¬ (key = "index" ∨ key = "create" ∨ key = "update") → key ≠ "delete" →
      metaActions [(key, .object vm)] = [] → fieldError target (key, .object vm) = false →
      FieldKind target key (.object vm)

/-- What the proxy does with a metadata line, by the actions that are read and whether there is a
format error. -/
inductive ProxyOutcome (ε : Type) (target : String) : List (String × JsonObject τ) → Bool →
    Except (BulkError ε) (ProxyScan τ × List String) → Prop
  | panic : ¬ Named target actions → ProxyOutcome ε target actions format (.error .panic)
  | format : Named target actions → ProxyOutcome ε target actions true (.error .format)
  | quiet : p'.nextLineIsData = false → ProxyOutcome ε target [] false (.ok (p', []))
  | delete : namedIndex target vm = .string name → p'.nextLineIsData = false →
      ProxyOutcome ε target [("delete", vm)] false (.ok (p', [name]))
  | opens : (key = "index" ∨ key = "create" ∨ key = "update") →
      namedIndex target vm = .string name → ProxyOutcome ε target [(key, vm)] false
        (.ok (⟨true, .string name⟩, [name]))

/-- The deletes have strings for their ids and indexes. -/
def Deletes (target : String) (actions : List (String × JsonObject τ)) : Prop :=
  ∀ vm, ("delete", vm) ∈ actions →
    (∃ id, field vm "_id" = .string id) ∧ ∃ name, namedIndex target vm = .string name

/-- What `BulkWorker` does with a metadata line, by the actions that are read and whether there is
a format error. -/
inductive MetaOutcome (ε : Type) (target : String) : List (String × JsonObject τ) → Bool →
    Actions τ → Except (BulkError ε) (Scan τ) → Prop
  | panic : ¬ Deletes target actions → MetaOutcome ε target actions format acts (.error .panic)
  | format : Deletes target actions → MetaOutcome ε target actions true acts (.error .format)
  | quiet : st'.nextLineIsData = false → MetaOutcome ε target [] false [] (.ok st')
  | delete {id : DocID} : field vm "_id" = .string id → namedIndex target vm = .string name →
      st'.nextLineIsData = false →
      MetaOutcome ε target [("delete", vm)] false [(name, .delete id)] (.ok st')
  | opens : (key = "index" ∨ key = "create" ∨ key = "update") →
      MetaOutcome ε target [(key, vm)] false []
        (.ok ⟨true, some key, namedIndex target vm, field vm "_id"⟩)

inductive StepShape (ε : Type) (target : String) (generated : DocID) (line : Line τ) (st : Scan τ) :
    Actions τ → List String → Scan τ → Prop
  | skip : line = .invalid → StepShape ε target generated line st [] [] st
  | data : line = .object fields → st.nextLineIsData = true →
      st.lastLineMetaData.index = .string name → st'.nextLineIsData = false →
      StepShape ε target generated line st [(name, act)] [name] st'
  | quiet : line = .object fields → st.nextLineIsData = false → st'.nextLineIsData = false →
      expectsData fields = false → actionIndexes target fields = [] →
      StepShape ε target generated line st [] [] st'
  | action : line = .object fields → st.nextLineIsData = false →
      st'.nextLineIsData = expectsData fields → actionIndexes target fields = [.string name] →
      (st'.nextLineIsData = true → st'.lastLineMetaData.index = .string name) →
      (acts = [] ∨ ∃ act, acts = [(name, act)]) →
      (∀ s : Scan τ, s.nextLineIsData = false →
        scanLine (ε := ε) target generated line s = (acts, .ok st')) →
      StepShape ε target generated line st acts [name] st'

inductive Tracked (ε : Type) (target : String) (generated : DocID) :
    Scan τ → List (Line τ) → Actions τ → List (String × Line τ) →
      Scan τ → Prop
  | nil : Tracked ε target generated st [] [] [] st
  | cons : scanLine (ε := ε) target generated line st = (acts, .ok st') →
      StepShape ε target generated line st acts indexes st' →
      Tracked ε target generated st' lines acts' pushed st'' →
      Tracked ε target generated st (line :: lines) (acts ++ acts')
        (indexes.map (fun index => (index, line)) ++ pushed) st''

variable {fields vm : JsonObject τ} {key : String} {p : ProxyScan τ} {lines : List (Line τ)}
  {line : Line τ} {st st' : Scan τ} {acts : Actions τ}

theorem asString_cases (v : Value τ) :
    (∃ name, v = .string name) ∨ (v.asString : Except (BulkError ε) String) = .error .panic ∧
      v.isEmptyString = false ∧ ∀ name, v ≠ .string name := by
  cases v <;> simp [asString, isEmptyString]

theorem isEmptyString_of_ne {name : String} (h : name ≠ "") :
    (.string name : Value τ).isEmptyString = false := by
  simp [isEmptyString, h]

variable {target : String} {generated : DocID}

theorem upTo_of_any {β : Type} {P : β → Bool} {l : List β} (h : l.any P = false) :
    upTo P l = l := by
  induction l with
  | nil => rfl
  | cons b l ih =>
    rw [List.any_cons, Bool.or_eq_false_iff] at h
    rw [upTo, if_neg (by simp [h.1]), ih h.2]

theorem readActions_eq (h : formatError target fields = false) :
    readActions target fields = metaActions fields := congrArg metaActions (upTo_of_any h)

theorem metaActions_cons (q : String × Value τ) (fields : JsonObject τ) :
    metaActions (q :: fields) = metaActions [q] ++ metaActions fields := by
  simp only [metaActions, ← List.filterMap_append]
  rfl

theorem readActions_cons (q : String × Value τ) (fields : JsonObject τ) :
    readActions target (q :: fields) =
      metaActions [q] ++ if fieldError target q then [] else readActions target fields := by
  rw [readActions, upTo, metaActions_cons]
  split <;> rfl

/-- The field is the only one of its line. -/
theorem readActions_single (q : String × Value τ) :
    metaActions [q] ++ (if fieldError target q then [] else readActions target []) =
      metaActions [q] := by
  rw [show readActions target ([] : JsonObject τ) = [] from rfl, ite_self, List.append_nil]

theorem formatError_cons (q : String × Value τ) (fields : JsonObject τ) :
    formatError target (q :: fields) = (fieldError target q || formatError target fields) := rfl

theorem fieldKind (target key : String) (v : Value τ) : FieldKind target key v := by
  cases v with
  | object vm =>
    by_cases hdata : key = "index" ∨ key = "create" ∨ key = "update"
    · have hactions : metaActions [(key, .object vm)] = [(key, vm)] := by
        rcases hdata with rfl | rfl | rfl <;> rfl
      exact .opens hdata hactions (by simp [fieldError, actionIndexes, hactions])
    · by_cases hdel : key = "delete"
      · rw [hdel]
        exact .delete
      · have hactions : metaActions [(key, .object vm)] = [] := by
          simp only [not_or] at hdata
          simp [metaActions, hdata, hdel]
        exact .unknown hdata hdel hactions (by simp [fieldError, actionIndexes, hactions])
  | null => exact .null
  | string s => exact .string
  | other x => exact .other

theorem fieldError_delete : fieldError target ("delete", .object vm) =
    (namedIndex target vm).isEmptyString := by
  simp [fieldError, actionIndexes, metaActions]

theorem NoAction.oneAction (h : NoAction fields) : OneAction fields := by
  induction fields with
  | nil => trivial
  | cons q fields ih =>
    obtain ⟨⟨hkey, hdel⟩, hrest⟩ := List.forall_mem_cons.1 h
    rw [OneAction, if_neg hkey, if_neg hdel]
    exact ih hrest

theorem NoAction.readActions (h : NoAction fields) : readActions target fields = [] := by
  induction fields with
  | nil => rfl
  | cons q fields ih =>
    obtain ⟨⟨hkey, hdel⟩, hrest⟩ := List.forall_mem_cons.1 h
    rw [readActions_cons, ih hrest, ite_self, List.append_nil]
    obtain ⟨key, v⟩ := q
    cases fieldKind target key v with
    | null | string | other => rfl
    | opens hopens => exact absurd hopens hkey
    | delete => exact absurd rfl hdel
    | unknown _ _ hactions => exact hactions

theorem expectsData_eq (h : formatError target fields = false) :
    expectsData fields = (metaActions fields).any fun action =>
      action.1 = "index" ∨ action.1 = "create" ∨ action.1 = "update" := by
  induction fields with
  | nil => rfl
  | cons q fields ih =>
    rw [formatError_cons, Bool.or_eq_false_iff] at h
    rw [metaActions_cons, List.any_append, ← ih h.2]
    obtain ⟨key, v⟩ := q
    cases fieldKind target key v with
    | null | string | other => cases h.1
    | opens hkey hactions => simp [expectsData, hactions]
    | delete => simp [expectsData, metaActions]
    | unknown hkey _ hactions => simp [expectsData, hactions, hkey]

theorem named_singleton : Named target [(key, vm)] ↔ ∃ name, namedIndex target vm = .string name :=
  List.forall_mem_singleton

theorem proxyFields_outcome (hone : OneAction fields) (hp : p.nextLineIsData = false) :
    ProxyOutcome ε target (readActions target fields) (formatError target fields)
      (proxyFields target fields p) := by
  induction fields generalizing p with
  | nil => exact .quiet hp
  | cons q fields ih =>
    obtain ⟨key, v⟩ := q
    rw [readActions_cons, formatError_cons]
    cases fieldKind target key v with
    | null | string | other => exact .format nofun
    | @opens _ vm hkey hactions herror =>
      rw [OneAction, if_pos hkey] at hone
      subst hone
      rw [readActions_single, hactions, herror, formatError, List.any_nil, Bool.or_false]
      rw [proxyFields, proxyField, if_pos hkey]
      rcases asString_cases (ε := ε) (namedIndex target vm) with ⟨name, hname⟩ |
          ⟨hpanic, hempty, hnot⟩
      · rw [hname]
        by_cases hempty : name = ""
        · rw [hempty] at hname ⊢
          exact .format (named_singleton.2 ⟨"", hname⟩)
        · rw [isEmptyString_of_ne hempty]
          exact .opens hkey hname
      · rw [hempty, hpanic]
        exact .panic (mt named_singleton.1 (not_exists.2 hnot))
    | @delete vm =>
      rw [OneAction, if_neg (by decide), if_pos rfl] at hone
      rw [NoAction.readActions hone, ite_self, fieldError_delete]
      rcases asString_cases (ε := ε) (namedIndex target vm) with ⟨name, hname⟩ | ⟨hpanic, -, hnot⟩
      · have hnamed : Named target [("delete", vm)] := named_singleton.2 ⟨name, hname⟩
        rw [hname]
        by_cases hempty : name = ""
        · rw [show proxyFields (ε := ε) target (("delete", .object vm) :: fields) p =
              .error .format by
            simp [proxyFields, proxyField, hname, hempty, asString, bind, Except.bind], hempty]
          exact .format hnamed
        · rw [isEmptyString_of_ne hempty, Bool.false_or,
            show proxyFields (ε := ε) target (("delete", .object vm) :: fields) p =
              (proxyFields target fields {}).map fun r => (r.1, name :: r.2) by
            rw [proxyFields, show proxyField (ε := ε) target p "delete" (.object vm) =
                .ok ({}, some name) by
              simp [proxyField, hname, hempty, asString, bind, Except.bind, pure, Except.pure]]
            change (proxyFields target fields {} >>= fun r => .ok (r.1, name :: r.2)) = _
            cases proxyFields (ε := ε) target fields {} <;> rfl]
          have hrest := ih (p := {}) (NoAction.oneAction hone) rfl
          rw [NoAction.readActions hone] at hrest
          generalize formatError target fields = format at hrest ⊢
          generalize proxyFields (ε := ε) target fields {} = r at hrest ⊢
          cases hrest with
          | panic hnot => exact absurd nofun hnot
          | format => exact .format hnamed
          | quiet hnext => exact .delete hname hnext
      · rw [show proxyFields (ε := ε) target (("delete", .object vm) :: fields) p =
            .error .panic by simp [proxyFields, proxyField, hpanic, bind, Except.bind]]
        exact .panic (mt named_singleton.1 (not_exists.2 hnot))
    | @unknown _ vm hkey hdel hactions herror =>
      rw [OneAction, if_neg hkey, if_neg hdel] at hone
      rw [hactions, herror, Bool.false_or, List.nil_append, if_neg Bool.false_ne_true,
        show proxyFields (ε := ε) target ((key, .object vm) :: fields) p =
          proxyFields target fields ⟨p.nextLineIsData, .null⟩ by
        simp only [proxyFields, proxyField, hkey, hdel, if_false, bind, Except.bind]
        cases proxyFields (ε := ε) target fields ⟨p.nextLineIsData, .null⟩ <;> rfl]
      exact ih hone hp

theorem proxyLine_outcome (hone : OneAction fields) (hp : p.nextLineIsData = false) :
    ProxyOutcome ε target (readActions target fields) (formatError target fields)
      (proxyLine target (.object fields) p) := by
  rw [show proxyLine (ε := ε) target (.object fields) p = proxyFields target fields p by
    simp [proxyLine, hp]]
  exact proxyFields_outcome hone hp

theorem names_meta :
    NamesIndexes target false (.object fields :: lines) ↔
      Named target (readActions target fields) ∧
        (formatError target fields = false → NamesIndexes target (expectsData fields) lines) := by
  rw [NamesIndexes, readLines, metaLines, upTo, List.forall_mem_cons]
  cases formatError target fields with
  | true => simp
  | false => simp [NamesIndexes]

theorem oneActions_meta (h : OneActions target false (.object fields :: lines)) :
    OneAction fields ∧
      (formatError target fields = false → OneActions target (expectsData fields) lines) := by
  rw [OneActions, readLines, metaLines, upTo, List.forall_mem_cons] at h
  refine ⟨h.1, fun hformat => ?_⟩
  rw [hformat] at h
  exact h.2

theorem proxyLines_cons {p' : ProxyScan τ} {indexes : List String}
    (h : proxyLine (ε := ε) target line p = .ok (p', indexes)) :
    proxyLines (ε := ε) target (line :: lines) p = (proxyLines target lines p').map fun pushed =>
        indexes.map (fun index => (index, line)) ++ pushed := by
  rw [proxyLines, h]
  rfl

theorem proxyLines_error {e : BulkError ε} (h : proxyLine target line p = .error e) :
    proxyLines target (line :: lines) p = .error e := by
  rw [proxyLines, h]
  rfl

theorem map_ne_panic {β γ : Type} {x : Except (BulkError ε) β} {f : β → γ} :
    x.map f ≠ .error .panic ↔ x ≠ .error .panic := by
  cases x <;> simp [Except.map]

theorem proxyLine_data {name : String} (hp : p.nextLineIsData = true)
    (hname : p.lastIndex = .string name) :
    proxyLine (ε := ε) target (.object fields) p =
      .ok ({ p with nextLineIsData := false }, [name]) := by
  simp [proxyLine, hp, hname, asString, bind, Except.bind, pure, Except.pure]

theorem proxyLines_panic (hone : OneActions target p.nextLineIsData lines)
    (hp : p.nextLineIsData = true → ∃ name, p.lastIndex = .string name) :
    proxyLines (ε := ε) target lines p ≠ .error .panic ↔
      NamesIndexes target p.nextLineIsData lines := by
  induction lines generalizing p with
  | nil => exact iff_of_true nofun fun fields hfields => by cases hfields
  | cons line lines ih =>
    cases line with
    | invalid =>
      rw [proxyLines_cons rfl, map_ne_panic]
      exact ih hone hp
    | object fields =>
      cases hnext : p.nextLineIsData with
      | true =>
        obtain ⟨name, hname⟩ := hp hnext
        rw [hnext] at hone
        rw [proxyLines_cons (proxyLine_data hnext hname), map_ne_panic]
        exact ih hone nofun
      | false =>
        rw [hnext] at hone
        obtain ⟨hfields, hrest⟩ := oneActions_meta hone
        rw [names_meta]
        have hline : ProxyOutcome ε target (readActions target fields) (formatError target fields)
            (proxyLine target (.object fields) p) := proxyLine_outcome hfields hnext
        have hexpects : formatError target fields = false → expectsData fields = _ :=
          expectsData_eq
        have hactions : formatError target fields = false → _ := readActions_eq
        generalize hr : proxyLine (ε := ε) target (.object fields) p = r at hline
        generalize formatError target fields = format at hline hrest hexpects hactions ⊢
        generalize readActions target fields = actions at hline hactions ⊢
        cases hline with
        | panic hnot =>
          rw [proxyLines_error hr]
          exact iff_of_false (fun h => h rfl) fun h => hnot h.1
        | format hnamed =>
          rw [proxyLines_error hr]
          exact iff_of_true nofun ⟨hnamed, nofun⟩
        | quiet hp' =>
          rw [← hactions rfl] at hexpects
          have hnext' := (hexpects rfl).trans hp'.symm
          rw [proxyLines_cons hr, map_ne_panic, ih (hnext' ▸ hrest rfl) (by simp [hp']), hnext']
          simp [Named]
        | @delete vm name p' hname hp' =>
          rw [← hactions rfl] at hexpects
          have hnext' := (hexpects rfl).trans hp'.symm
          rw [proxyLines_cons hr, map_ne_panic, ih (hnext' ▸ hrest rfl) (by simp [hp']), hnext']
          simp [Named, hname]
        | @opens key vm name hkey hname =>
          rw [← hactions rfl] at hexpects
          have hnext' : expectsData fields = true := by simp [hexpects, hkey]
          rw [proxyLines_cons hr, map_ne_panic, ih (hnext' ▸ hrest rfl) fun _ => ⟨name, rfl⟩,
            hnext']
          simp [Named, hname]

structure Tracks (st : Scan τ) (p : ProxyScan τ) : Prop where
  next : p.nextLineIsData = st.nextLineIsData
  index : st.nextLineIsData = true →
    ∃ name, p.lastIndex = .string name ∧ st.lastLineMetaData.index = .string name

theorem dataLine_index (hname : m.index = .string name)
    (h : dataLine (ε := ε) target generated m fields = .ok act) :
    act.1 = name := by
  simp only [dataLine, LineMeta.indexName, hname, asString, bind, Except.bind, pure,
    Except.pure] at h
  split at h
  · cases h
  · cases h
    rfl

theorem step_data (htrack : Tracks st p) (hnext : st.nextLineIsData = true)
    (h : scanLine (ε := ε) target generated (.object fields) st = (acts, .ok st')) :
    ∃ p' indexes, proxyLine (ε := ε) target (.object fields) p = .ok (p', indexes) ∧
      StepShape ε target generated (.object fields) st acts indexes st' ∧ Tracks st' p' ∧
      st'.nextLineIsData = false := by
  obtain ⟨name, hlast, hindex⟩ := htrack.index hnext
  simp only [scanLine, hnext, if_true] at h
  split at h
  · cases h
  · next act hdata =>
    cases h
    obtain ⟨actName, act⟩ := act
    obtain rfl : actName = name := dataLine_index hindex hdata
    exact ⟨_, [actName], proxyLine_data (htrack.next.trans hnext) hlast,
      .data rfl hnext hindex rfl, ⟨rfl, nofun⟩, rfl⟩

theorem scanLine_meta (fields : JsonObject τ) (h : st.nextLineIsData = false) :
    scanLine (ε := ε) target generated (.object fields) st = metaLine target fields st := by
  simp [scanLine, h]

theorem metaLine_congr {s : Scan τ} (hs : s.nextLineIsData = st.nextLineIsData)
    (hfields : fields ≠ []) :
    metaLine (ε := ε) target fields s = metaLine target fields st := by
  cases fields with
  | nil => exact absurd rfl hfields
  | cons q fields =>
    have hfield : metaField (ε := ε) target s q.1 q.2 = metaField target st q.1 q.2 := by
      simp only [metaField, hs]
    rw [metaLine, metaLine, hfield]

theorem metaLine_outcome (hone : OneAction fields) (hst : st.nextLineIsData = false) :
    MetaOutcome ε target (readActions target fields) (formatError target fields)
      (metaLine (ε := ε) target fields st).1 (metaLine target fields st).2 := by
  induction fields generalizing st with
  | nil => exact .quiet hst
  | cons q fields ih =>
    obtain ⟨key, v⟩ := q
    rw [readActions_cons, formatError_cons]
    cases fieldKind target key v with
    | null | string | other => exact .format nofun
    | @opens _ vm hkey hactions herror =>
      rw [OneAction, if_pos hkey] at hone
      subst hone
      rw [readActions_single, hactions, herror, formatError, List.any_nil, Bool.or_false]
      rw [metaLine, metaField, if_pos hkey]
      cases (namedIndex target vm).isEmptyString with
      | true =>
        refine .format fun vm' hvm => ?_
        cases List.mem_singleton.1 hvm
        simp at hkey
      | false => exact .opens hkey
    | @delete vm =>
      rw [OneAction, if_neg (by decide), if_pos rfl] at hone
      rw [NoAction.readActions hone, ite_self, fieldError_delete]
      have hfirst : Deletes target [("delete", vm)] →
          (∃ id, field vm "_id" = .string id) ∧ ∃ name, namedIndex target vm = .string name :=
        fun h => h vm List.mem_cons_self
      rcases asString_cases (ε := ε) (field vm "_id") with ⟨id, hid⟩ | ⟨hpanic, -, hnot⟩
      · rcases asString_cases (ε := ε) (namedIndex target vm) with ⟨name, hname⟩ | ⟨-, -, hnot⟩
        · have hdeletes : Deletes target [("delete", vm)] := by
            intro vm' hvm
            cases List.mem_singleton.1 hvm
            exact ⟨⟨id, hid⟩, name, hname⟩
          rw [hname]
          by_cases hempty : name = ""
          · simp only [metaLine, metaField, hid, hname, hempty, asString, bind, Except.bind]
            exact .format hdeletes
          · rw [isEmptyString_of_ne hempty, Bool.false_or,
              show metaLine (ε := ε) target (("delete", .object vm) :: fields) st =
                ((name, .delete id) :: (metaLine (ε := ε) target fields ⟨false, {}⟩).1,
                  (metaLine target fields ⟨false, {}⟩).2) by
              rw [metaLine, show metaField (ε := ε) target st "delete" (.object vm) =
                  .ok (⟨false, {}⟩, some (name, .delete id)) by
                simp [metaField, hid, hname, hempty, asString, bind, Except.bind, pure,
                  Except.pure]]
              rfl]
            have hrest : MetaOutcome ε target _ _ (metaLine target fields ⟨false, {}⟩).1 _ :=
              ih (NoAction.oneAction hone) rfl
            rw [NoAction.readActions hone] at hrest
            generalize formatError target fields = format at hrest ⊢
            generalize metaLine (ε := ε) target fields ⟨false, {}⟩ = r at hrest ⊢
            obtain ⟨acts, r⟩ := r
            dsimp only at hrest ⊢
            cases hrest with
            | panic hnot => exact absurd nofun hnot
            | format => exact .format hdeletes
            | quiet hnext => exact .delete hid hname hnext
        · rw [show metaLine (ε := ε) target (("delete", .object vm) :: fields) st =
              ([], .error .panic) by simp [metaLine, metaField, hid, asString, bind, Except.bind]]
          exact .panic fun h => (hfirst h).2.elim hnot
      · simp only [metaLine, metaField, hpanic, bind, Except.bind]
        exact .panic fun h => (hfirst h).1.elim hnot
    | @unknown _ vm hkey hdel hactions herror =>
      rw [OneAction, if_neg hkey, if_neg hdel] at hone
      rw [hactions, herror, Bool.false_or, List.nil_append, if_neg Bool.false_ne_true]
      simp only [metaLine, metaField, hkey, hdel, if_false, Option.toList]
      exact ih hone hst

theorem step_meta (htrack : Tracks st p) (hone : OneAction fields)
    (hnext : st.nextLineIsData = false) (hnames : Named target (readActions target fields))
    (h : scanLine (ε := ε) target generated (.object fields) st = (acts, .ok st')) :
    formatError target fields = false ∧ ∃ p' indexes,
      proxyLine (ε := ε) target (.object fields) p = .ok (p', indexes) ∧
      StepShape ε target generated (.object fields) st acts indexes st' ∧ Tracks st' p' ∧
      st'.nextLineIsData = expectsData fields := by
  have hline : ∀ s : Scan τ, s.nextLineIsData = false → fields ≠ [] →
      scanLine (ε := ε) target generated (.object fields) s = (acts, .ok st') := by
    intro s hs hsome
    rw [scanLine_meta fields hnext] at h
    rw [scanLine_meta fields hs, metaLine_congr (hs.trans hnext.symm) hsome, h]
  have hworker : MetaOutcome ε target (readActions target fields) (formatError target fields) acts
      (.ok st') := by
    have hmeta : MetaOutcome ε target _ _ _ (metaLine target fields st).2 :=
      metaLine_outcome hone hnext
    rwa [(scanLine_meta fields hnext).symm.trans h] at hmeta
  have hproxy : ProxyOutcome ε target (readActions target fields) (formatError target fields)
      (proxyLine target (.object fields) p) := proxyLine_outcome hone (htrack.next.trans hnext)
  have hexpects : formatError target fields = false → expectsData fields = _ := expectsData_eq
  have hactions : formatError target fields = false → _ := readActions_eq
  have hindexes : actionIndexes target fields =
      (metaActions fields).map fun action => namedIndex target action.2 := rfl
  generalize proxyLine (ε := ε) target (.object fields) p = r at hproxy ⊢
  generalize formatError target fields = format at hworker hproxy hexpects hactions ⊢
  generalize readActions target fields = actions at hworker hproxy hnames hactions
  have hsome : format = false → actions ≠ [] → fields ≠ [] := by
    rintro rfl hne rfl
    exact hne (hactions rfl)
  cases hworker with
  | quiet hnext' =>
    rw [← hactions rfl] at hexpects hindexes
    cases hproxy with
    | panic hnot => exact absurd hnames hnot
    | quiet hp' =>
      exact ⟨rfl, _, [], rfl, .quiet rfl hnext hnext' (hexpects rfl) hindexes,
        ⟨hp'.trans hnext'.symm, fun h => nomatch hnext'.symm.trans h⟩,
        hnext'.trans (hexpects rfl).symm⟩
  | @delete vm id name _ hid hname hnext' =>
    rw [← hactions rfl] at hexpects hindexes
    rw [List.map_singleton, hname] at hindexes
    have hnot : st'.nextLineIsData ≠ true := by simp [hnext']
    have hexpects' : expectsData fields = false := by simp [hexpects]
    cases hproxy with
    | panic hnot => exact absurd hnames hnot
    | opens hkey => simp at hkey
    | delete hname' hp' =>
      cases hname.symm.trans hname'
      exact ⟨rfl, _, [_], rfl, .action rfl hnext (hnext'.trans hexpects'.symm) hindexes
        (absurd · hnot) (.inr ⟨_, rfl⟩) fun s hs => hline s hs (hsome rfl (by simp)),
        ⟨hp'.trans hnext'.symm, (absurd · hnot)⟩, hnext'.trans hexpects'.symm⟩
  | @opens key vm hkey =>
    rw [← hactions rfl] at hexpects hindexes
    have hexpects' : expectsData fields = true := by simp [hexpects, hkey]
    cases hproxy with
    | panic hnot => exact absurd hnames hnot
    | delete => simp at hkey
    | @opens _ _ name _ hname =>
      rw [List.map_singleton, hname] at hindexes
      exact ⟨rfl, _, [name], rfl, .action rfl hnext hexpects'.symm hindexes (fun _ => hname)
        (.inl rfl) fun s hs => hline s hs (hsome rfl (by simp)),
        ⟨rfl, fun _ => ⟨name, rfl, hname⟩⟩, hexpects'.symm⟩

theorem scanLines_cons
    (h : scanLines (ε := ε) target (fun _ => generated) i (line :: lines) st = (acts, none)) :
    ∃ acts₁ st' acts₂, scanLine (ε := ε) target generated line st = (acts₁, .ok st') ∧
      scanLines (ε := ε) target (fun _ => generated) (i + 1) lines st' = (acts₂, none) ∧
      acts = acts₁ ++ acts₂ := by
  rw [scanLines] at h
  split at h
  · cases h
  · next acts₁ st' hline =>
    obtain ⟨hacts, herr⟩ := Prod.mk.inj h
    exact ⟨acts₁, st', _, hline, Prod.ext rfl herr, hacts.symm⟩

theorem tracked_of_scan (htrack : Tracks st p) (hone : OneActions target st.nextLineIsData lines)
    (hnames : NamesIndexes target st.nextLineIsData lines)
    (h : scanLines (ε := ε) target (fun _ => generated) i lines st = (acts, none)) :
    ∃ pushed st', proxyLines (ε := ε) target lines p = .ok pushed ∧
      Tracked ε target generated st lines acts pushed st' := by
  induction lines generalizing st p i acts with
  | nil =>
    cases h
    exact ⟨[], st, rfl, .nil⟩
  | cons line lines ih =>
    obtain ⟨acts₁, st', acts₂, hline, hlines, rfl⟩ := scanLines_cons h
    -- one step of both, and the conditions for the rest
    obtain ⟨p', indexes, hproxy, hshape, htrack', hone', hnames'⟩ : ∃ p' indexes,
        proxyLine (ε := ε) target line p = .ok (p', indexes) ∧
          StepShape ε target generated line st acts₁ indexes st' ∧ Tracks st' p' ∧
          OneActions target st'.nextLineIsData lines ∧
          NamesIndexes target st'.nextLineIsData lines := by
      cases line with
      | invalid =>
        cases hline
        exact ⟨p, [], rfl, .skip rfl, htrack, hone, hnames⟩
      | object fields =>
        cases hnext : st.nextLineIsData with
        | true =>
          rw [hnext] at hone hnames
          obtain ⟨p', indexes, hproxy, hshape, htrack', hnext'⟩ := step_data htrack hnext hline
          rw [hnext']
          exact ⟨p', indexes, hproxy, hshape, htrack', hone, hnames⟩
        | false =>
          rw [hnext] at hone hnames
          obtain ⟨hfields, hone'⟩ := oneActions_meta hone
          obtain ⟨hnamed, hnames'⟩ := names_meta.1 hnames
          obtain ⟨hformat, p', indexes, hproxy, hshape, htrack', hnext'⟩ :=
            step_meta htrack hfields hnext hnamed hline
          rw [hnext']
          exact ⟨p', indexes, hproxy, hshape, htrack', hone' hformat, hnames' hformat⟩
    obtain ⟨pushed, st'', hpushed, htracked⟩ := ih htrack' hone' hnames' hlines
    refine ⟨_, st'', ?_, .cons hline hshape htracked⟩
    rw [proxyLines_cons hproxy, hpushed]
    rfl

section Panics

variable [DecidableEq α] {addrOf : String → Except ε α} {pushed : List (String × Line τ)}

theorem sendLines_ne_panic (start : α → List (Line τ)) :
    sendLines addrOf pushed names start ≠ .error .panic := by
  induction names generalizing start with
  | nil => exact nofun
  | cons name names ih =>
    rw [sendLines]
    cases addrOf name with
    | error e => exact nofun
    | ok addr => exact ih _

theorem processBody_panic :
    processBody target addrOf order body = .error .panic ↔
      proxyLines (ε := ε) target body.lines {} = .error .panic := by
  unfold processBody
  cases hlines : proxyLines (ε := ε) target body.lines {} with
  | error e => simp
  | ok pushed =>
    dsimp only
    refine ⟨fun h => ?_, nofun⟩
    split at h
    · cases h
    · exact absurd h (sendLines_ne_panic _)

end Panics

end BulkProxyLemmas

open BulkProxyLemmas in
theorem noPanic_iff [DecidableEq α] {target : String} {addrOf : String → Except ε α}
    (hone : OneActions target false body.lines) (order : Shuffle String) :
    processBody target addrOf order body ≠ .error .panic ↔
      NamesIndexes target false body.lines := by
  have hlines : proxyLines (ε := ε) target body.lines {} ≠ .error .panic ↔
      NamesIndexes target false body.lines := proxyLines_panic hone nofun
  rw [← hlines]
  exact not_congr processBody_panic

end SeaSearch
