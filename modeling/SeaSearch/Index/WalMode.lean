import SeaSearch.Lib.Rounding
import SeaSearch.Uquery.Json

/-!
# A document with and without the WAL

An accepted document becomes an operation: its flattened fields with the action, the id, the second
shard, the timestamp and the document itself. Without the WAL the operation is indexed as it is.
-/

namespace SeaSearch

open Rounding

/-- A number in memory: an `int64`, or a `float64` with its exact value. -/
inductive Number
  | int64 (n : Int)
  | float64 (x : ℚ)

/-- A value in memory. A map that is `nil` is not the value `nil`. -/
inductive GoValue
  | json (v : Json Number)
  | nilMap

/-- The range of an `int64`. -/
def isInt64 (n : Int) : Prop := -2 ^ 63 ≤ n ∧ n < 2 ^ 63

instance : DecidablePred isInt64 := fun n =>
  inferInstanceAs (Decidable (-2 ^ 63 ≤ n ∧ n < 2 ^ 63))

/-- The integer part. What does not fit into an `int64` becomes the smallest one, as on amd64. -/
def int64OfFloat (x : ℚ) : Int :=
  if -2 ^ 63 ≤ x.num.tdiv x.den ∧ x.num.tdiv x.den < 2 ^ 63 then x.num.tdiv x.den else -2 ^ 63

def Number.reread : Number → Number
  | int64 n => float64 (roundInt 53 n)
  | float64 x => float64 x

namespace GoValue

/-- What `json.Marshal` writes. -/
def toJson : GoValue → Json Number
  | json v => v
  | nilMap => .null

def isNil : GoValue → Bool
  | json .null => true
  | _ => false

/-- A value after `json.Marshal` and `json.Unmarshal`. -/
def reread (v : GoValue) : GoValue := json (v.toJson.mapNum Number.reread)

def int64? : GoValue → Option Int
  | json (.num (.float64 x)) => some (int64OfFloat x)
  | json (.num (.int64 n)) => some n
  | _ => none

end GoValue

/-- A `map[string]interface{}`. -/
abbrev GoMap := List (String × GoValue)

namespace GoMap

def get (doc : GoMap) (key : String) : Option GoValue :=
  (doc.find? fun field => field.1 = key).map Prod.snd

def delete (doc : GoMap) (key : String) : GoMap := doc.filter fun field => field.1 ≠ key

def set (doc : GoMap) (key : String) (v : GoValue) : GoMap := doc.delete key ++ [(key, v)]

def reread (doc : GoMap) : GoMap := doc.map fun field => (field.1, field.2.reread)

end GoMap

def idFieldName : String := "@_id"
def actionFieldName : String := "@_action"
def shardFieldName : String := "@_shard"
def sourceFieldName : String := "@_source"

/-- A document as it has been read from a request, which may be `nil`. -/
abbrev RequestDoc := Option (List (String × Json ℚ))

def RequestDoc.value : RequestDoc → GoValue
  | none => .nilMap
  | some fields => .json ((Json.map fields).mapNum .float64)

/-- The end of `CheckDocumentOperation`. `flat` are the flattened fields of the document after they
have been checked, and `timestamp` is the time of the document in nanoseconds. -/
def prepareForWal (flat : List (String × Json ℚ)) (doc : RequestDoc) (docID : String)
    (update : Bool) (shard timestamp : Int) : GoMap :=
  ((((GoMap.set (flat.map fun field => (field.1, .json (field.2.mapNum .float64))) actionFieldName
    (.json (.str (if update then "update" else "insert")))).set idFieldName
    (.json (.str docID))).set shardFieldName (.json (.num (.int64 shard)))).set timeFieldName
    (.json (.num (.int64 timestamp)))).set sourceFieldName doc.value

/-- What `AddDocument` and `BuildBlugeDocumentFromJSON` make of an operation: the group of its
second shard, the timestamp, and the value that is marshalled as `_source`. -/
structure StoredDocument where
  shard : Int
  timestamp : Int
  source : Json Number

namespace GoMap

/-- The source without `@_source`: what remains of the operation. -/
def rest (doc : GoMap) : Json Number :=
  .map (((((doc.delete actionFieldName).delete idFieldName).delete shardFieldName).delete
    timeFieldName).delete sourceFieldName |>.map fun field => (field.1, field.2.toJson))

/-- The value that is marshalled as `_source`. -/
def source (doc : GoMap) : Json Number :=
  match doc.get sourceFieldName with
  | some v => if v.isNil then doc.rest else v.toJson
  | none => doc.rest

/-- `AddDocument`, then `BuildBlugeDocumentFromJSON` at the time `now`. There is none if a number
has another type. -/
def build (doc : GoMap) (now : Int) : Option StoredDocument := do
  let shard ← (← doc.get shardFieldName).int64?
  let timestamp ← match doc.get timeFieldName with
    | none => some now
    | some v => v.int64?
  some ⟨shard, timestamp, doc.source⟩

end GoMap

/-- Without the WAL: `CommitOperations`. -/
def directMode (op : GoMap) (now : Int) : Option StoredDocument := op.build now

/-- With the WAL: `wal.Write` of the marshalled operation, then `ConsumeWAL`. -/
def walMode (op : GoMap) (now : Int) : Option StoredDocument := op.reread.build now

/-- The number is a `float64`. -/
def fits53 (n : Int) : Prop := lastPlace 53 n.natAbs ∣ n.natAbs

instance : DecidablePred fits53 := fun n =>
  inferInstanceAs (Decidable (lastPlace 53 n.natAbs ∣ n.natAbs))

namespace WalModeLemmas

section Maps

variable (doc : GoMap) {key key' : String} (v : GoValue)

theorem get_delete_of_ne (h : key' ≠ key) : (doc.delete key).get key' = doc.get key' := by
  rw [GoMap.get, GoMap.get, GoMap.delete, List.find?_filter]
  congr 2
  funext field
  by_cases hf : field.1 = key'
  · simp [hf, h]
  · simp [hf]

theorem get_delete_self : (doc.delete key).get key = none := by
  rw [GoMap.get, Option.map_eq_none_iff, List.find?_eq_none]
  intro field hfield
  have hne := (List.mem_filter.1 hfield).2
  simpa using hne

theorem get_append (doc' : GoMap) (key : String) :
    (doc ++ doc').get key = (doc.get key).or (doc'.get key) := by
  rw [GoMap.get, List.find?_append, Option.map_or]
  rfl

theorem get_set_self : (doc.set key v).get key = some v := by
  rw [GoMap.set, get_append, get_delete_self, Option.none_or]
  simp [GoMap.get]

theorem get_set_of_ne (h : key' ≠ key) : (doc.set key v).get key' = doc.get key' := by
  rw [GoMap.set, get_append, get_delete_of_ne doc h]
  simp [GoMap.get, h.symm]

theorem get_reread (key : String) : doc.reread.get key = (doc.get key).map GoValue.reread := by
  rw [GoMap.get, GoMap.reread, List.find?_map, Option.map_map, GoMap.get, Option.map_map]
  rfl

end Maps

theorem int64OfFloat_intCast (n : Int) :
    int64OfFloat n = if -2 ^ 63 ≤ n ∧ n < 2 ^ 63 then n else -2 ^ 63 := by
  rw [int64OfFloat, Rat.num_intCast, Rat.den_intCast, Nat.cast_one, Int.tdiv_one]

theorem int64OfFloat_roundInt_iff (hn : isInt64 n) :
    int64OfFloat (roundInt 53 n) = n ↔ fits53 n := by
  rw [int64OfFloat_intCast, fits53, ← roundInt_eq_self_iff]
  constructor
  · intro h
    split at h
    next => exact h
    next => rw [← h]; decide
  · intro h
    rw [h]
    exact if_pos hn

theorem reread_value (fields : List (String × Json ℚ)) :
    (RequestDoc.value (some fields)).reread = RequestDoc.value (some fields) := by
  have hcomp : Number.reread ∘ Number.float64 = Number.float64 := rfl
  rw [RequestDoc.value, GoValue.reread, GoValue.toJson, Json.mapNum_mapNum, hcomp]

section Modes

variable (flat : List (String × Json ℚ)) (doc : RequestDoc) (docID : String) (update : Bool)
  (shard timestamp now : Int)

theorem get_source :
    (prepareForWal flat doc docID update shard timestamp).get sourceFieldName = some doc.value :=
  get_set_self _ _

theorem get_time : (prepareForWal flat doc docID update shard timestamp).get timeFieldName =
    some (.json (.num (.int64 timestamp))) := by
  rw [prepareForWal, get_set_of_ne _ _ (by decide), get_set_self]

theorem get_shard : (prepareForWal flat doc docID update shard timestamp).get shardFieldName =
    some (.json (.num (.int64 shard))) := by
  rw [prepareForWal, get_set_of_ne _ _ (by decide), get_set_of_ne _ _ (by decide), get_set_self]

theorem isNil_value (doc : RequestDoc) : doc.value.isNil = false := by
  cases doc <;> rfl

theorem build_prepared :
    directMode (prepareForWal flat doc docID update shard timestamp) now =
      some ⟨shard, timestamp, doc.value.toJson⟩ := by
  rw [directMode, GoMap.build, get_shard, get_time, GoMap.source, get_source]
  simp [GoValue.int64?, isNil_value]

theorem build_reread :
    walMode (prepareForWal flat doc docID update shard timestamp) now =
      some ⟨int64OfFloat (roundInt 53 shard), int64OfFloat (roundInt 53 timestamp),
        if doc.isSome then doc.value.toJson
        else (prepareForWal flat doc docID update shard timestamp).reread.rest⟩ := by
  rw [walMode, GoMap.build, get_reread, get_reread, get_shard, get_time, GoMap.source, get_reread,
    get_source]
  cases doc with
  | none => rfl
  | some fields =>
    rw [Option.map_some, Option.map_some, Option.map_some, reread_value]
    rfl

end Modes

end WalModeLemmas

open WalModeLemmas in
/-- For every accepted document and every timestamp, the two modes store the same second shard,
timestamp and source if and only if the document is not `nil` and the two numbers have at most 53
significant bits. -/
theorem wal_mode_same_iff (flat : List (String × Json ℚ)) (doc : RequestDoc) (docID : String)
    (update : Bool) {shard timestamp : Int} (hshard : isInt64 shard) (htime : isInt64 timestamp)
    (now : Int) :
    walMode (prepareForWal flat doc docID update shard timestamp) now =
        directMode (prepareForWal flat doc docID update shard timestamp) now ↔
      fits53 shard ∧ fits53 timestamp ∧ doc ≠ none := by
  rw [build_prepared, build_reread, Option.some.injEq, StoredDocument.mk.injEq,
    int64OfFloat_roundInt_iff hshard, int64OfFloat_roundInt_iff htime]
  refine and_congr_right fun _ => and_congr_right fun _ => ?_
  cases doc with
  | none => exact iff_of_false nofun (fun h => h rfl)
  | some fields => exact iff_of_true rfl nofun

def emptyDocAt (timestamp : Int) : GoMap := prepareForWal [] (some []) "1" false (-1) timestamp

theorem wal_mode_same_iff_whole_second :
    walMode (emptyDocAt 1700000000000000000) 0 = directMode (emptyDocAt 1700000000000000000) 0 :=
  (wal_mode_same_iff [] (some []) "1" false (by decide) (by decide) 0).2 (by decide)

/-- One nanosecond after a whole second. -/
theorem wal_mode_rounds_timestamp :
    (walMode (emptyDocAt 1700000000000000001) 0).map StoredDocument.timestamp =
        some 1700000000000000000 ∧
      (directMode (emptyDocAt 1700000000000000001) 0).map StoredDocument.timestamp =
        some 1700000000000000001 := by
  decide

end SeaSearch
