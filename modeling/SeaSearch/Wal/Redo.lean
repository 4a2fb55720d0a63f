import SeaSearch.Lib.Bytes
import SeaSearch.Lib.Digits
import SeaSearch.Lib.Threads

/-!
# The redo log

A redo log keeps one record of 80 bytes for each key: the key, the length of the value and 64 bytes
for the value. A value is written over the one before it, and what is longer there stays behind it.
-/

namespace SeaSearch

open List Bytes
open Function (update update_of_ne update_self)

def valueFixedLength : Nat := 64

def redoRecordLength : Nat := 8 + 8 + valueFixedLength

/-- `Log`: `index` has the position behind each key in `data`. -/
structure RedoLog where
  index : UInt64 → Option Nat
  data : List UInt8

/-- `Uint64` at a position. -/
def uint64At (data : List UInt8) (n : Nat) : Nat := leValue ((data.drop n).take 8)

/-- `PutUint64` at a position. -/
def putUint64 (data : List UInt8) (n v : Nat) : List UInt8 := splice data n (leBytes 8 v)

/-- `Open` for a file with this content. -/
def openRedo (file : List UInt8) : RedoLog where
  data := file
  -- `n` goes in steps of a record as long as it is in the file
  index := (List.range ((file.length + (redoRecordLength - 1)) / redoRecordLength)).foldl
    (fun index i => update index
      (UInt64.ofNat (uint64At file (redoRecordLength * i))) (some (redoRecordLength * i + 8)))
    fun _ => none

/-- `Write` up to the file; `none` is `ErrValueTooLarge`. -/
def RedoLog.write (l : RedoLog) (key : UInt64) (value : List UInt8) : Option RedoLog :=
  if value.length > valueFixedLength then none
  else
    match l.index key with
    | some offset =>
      some { l with data := splice (putUint64 l.data offset value.length) (offset + 8) value }
    | none =>
      let offset := l.data.length
      let data := l.data ++ List.replicate redoRecordLength 0
      let data := putUint64 data offset key.toNat
      let offset := offset + 8
      let data := putUint64 data offset value.length
      some ⟨update l.index key (some offset), splice data (offset + 8) value⟩

/-- `Read`; `none` is `ErrNotFound`. -/
def RedoLog.read (l : RedoLog) (key : UInt64) : Option (List UInt8) :=
  (l.index key).map fun offset =>
    (l.data.drop (offset + 8)).take (uint64At l.data offset)

structure RedoStore where
  file : List UInt8
  log : RedoLog

inductive RedoOp
  | write (key : UInt64) (value : List UInt8)
  /-- `Close`, and `Open` for the same file. -/
  | reopen

namespace RedoStore

/-- A step. `Write` writes all data to the start of the file. -/
def step (s : RedoStore) : RedoOp → RedoStore
  | .write key value =>
    match s.log.write key value with
    | none => s
    | some log => { file := splice s.file 0 log.data, log := log }
  | .reopen => { s with log := openRedo s.file }

def run (ops : List RedoOp) : RedoStore := ops.foldl step ⟨[], openRedo []⟩

end RedoStore

open RedoStore (run step)

def decimalValue (c : Char) : Option Nat :=
  if '0' ≤ c ∧ c ≤ '9' then some (c.toNat - '0'.toNat) else none

/-- `ToUint64` of a text: `strconv.ParseUint` with base 10 and 64 bits. -/
def toUint64 (s : List Char) : Option UInt64 :=
  if s = [] then none
  else ((s.foldlM (Digits.push 10 decimalValue) 0).filter (· < 2 ^ 64)).map UInt64.ofNat

/-- The text of `writeRedoLog`. -/
def redoText (minID maxID : UInt64) : List Char :=
  Nat.toDigits 10 minID.toNat ++ ':' :: Nat.toDigits 10 maxID.toNat

def textBytes (s : List Char) : List UInt8 := s.map fun c => UInt8.ofNat c.toNat

def bytesText (b : List UInt8) : List Char := b.map fun x => Char.ofNat x.toNat

/-- `readRedoLog` for a value that has been read. -/
def parseRedo (value : List UInt8) : Option (UInt64 × UInt64) :=
  match (bytesText value).splitOn ':' with
  | [a, b] => (toUint64 a).bind fun minID => (toUint64 b).map fun maxID => (minID, maxID)
  | _ => none

/-- `readRedoLog`; `none` is any error. -/
def RedoLog.readRedoLog (l : RedoLog) (option : UInt64) : Option (UInt64 × UInt64) :=
  (l.read option).bind parseRedo

def RedoOp.writeRedoLog (option minID maxID : UInt64) : RedoOp :=
  .write option (textBytes (redoText minID maxID))

def RedoOp.effect (key : UInt64) (value : Option (List UInt8)) : RedoOp → Option (List UInt8)
  | .write k v => if k = key ∧ v.length ≤ valueFixedLength then some v else value
  | .reopen => value

def RedoOp.Keeps (key : UInt64) : RedoOp → Prop
  | .write k _ => k ≠ key
  | .reopen => True

def lastWrite (ops : List RedoOp) (key : UInt64) : Option (List UInt8) :=
  ops.foldl (RedoOp.effect key) none

structure RedoRecord where
  key : UInt64
  value : List UInt8
  rest : List UInt8
  fits : value.length + rest.length = valueFixedLength

namespace RedoRecord

def bytes (r : RedoRecord) : List UInt8 :=
  leBytes 8 r.key.toNat ++ (leBytes 8 r.value.length ++ (r.value ++ r.rest))

def overwrite (r : RedoRecord) (value : List UInt8) (h : value.length ≤ valueFixedLength) :
    RedoRecord where
  key := r.key
  value := value
  rest := (r.value ++ r.rest).drop value.length
  fits := by
    have := r.fits
    simp only [length_drop, length_append]
    omega

def blank (key : UInt64) : RedoRecord where
  key := key
  value := []
  rest := List.replicate valueFixedLength 0
  fits := by simp

variable (r : RedoRecord)

theorem length_bytes : r.bytes.length = redoRecordLength := by
  have := r.fits
  simp only [bytes, length_append, length_leBytes, redoRecordLength]
  omega

theorem splice_bytes {value : List UInt8} (h : value.length ≤ valueFixedLength) :
    splice (splice r.bytes 8 (leBytes 8 value.length)) 16 value = (r.overwrite value h).bytes := by
  have hlen : splice r.bytes 8 (leBytes 8 value.length) =
      leBytes 8 r.key.toNat ++ (leBytes 8 value.length ++ (r.value ++ r.rest)) := by
    have hright : splice r.bytes ((leBytes 8 r.key.toNat).length + 0) (leBytes 8 value.length) =
        leBytes 8 r.key.toNat ++ splice (leBytes 8 r.value.length ++ (r.value ++ r.rest)) 0
          (leBytes 8 value.length) := splice_append_right
    rw [splice_front (by simp)] at hright
    simpa using hright
  rw [hlen, bytes, overwrite, ← append_assoc]
  have hright : splice (leBytes 8 r.key.toNat ++ leBytes 8 value.length ++ (r.value ++ r.rest))
      ((leBytes 8 r.key.toNat ++ leBytes 8 value.length).length + 0) value =
        leBytes 8 r.key.toNat ++ leBytes 8 value.length ++ splice (r.value ++ r.rest) 0 value :=
    splice_append_right
  simpa [splice] using hright

theorem uint64At_key (post : List UInt8) : uint64At (r.bytes ++ post) 0 = r.key.toNat := by
  have hkey : ((r.bytes ++ post).drop 0).take 8 = leBytes 8 r.key.toNat := by
    rw [drop_zero, bytes, append_assoc]
    exact take_left' (length_leBytes 8 _)
  rw [uint64At, hkey, leValue_leBytes]
  exact Nat.mod_eq_of_lt r.key.toNat_lt

theorem uint64At_length (post : List UInt8) : uint64At (r.bytes ++ post) 8 = r.value.length := by
  have hlen : ((r.bytes ++ post).drop 8).take 8 = leBytes 8 r.value.length := by
    rw [bytes, append_assoc, drop_left' (length_leBytes 8 _), append_assoc]
    exact take_left' (length_leBytes 8 _)
  have hfits := r.fits
  rw [uint64At, hlen, leValue_leBytes]
  exact Nat.mod_eq_of_lt (by unfold valueFixedLength at hfits; omega)

theorem value_bytes (post : List UInt8) :
    ((r.bytes ++ post).drop 16).take r.value.length = r.value := by
  have hdrop : (r.bytes ++ post).drop 16 = r.value ++ (r.rest ++ post) := by
    rw [bytes, ← append_assoc, append_assoc, drop_left' (by simp), append_assoc]
  rw [hdrop]
  exact take_left' rfl

end RedoRecord

open RedoRecord (blank bytes)

structure Represents (recs : List RedoRecord) (l : RedoLog) : Prop where
  data : l.data = recs.flatMap bytes
  nodup : (recs.map RedoRecord.key).Nodup
  index : ∀ key offset, l.index key = some offset ↔
    ∃ i, (recs.map RedoRecord.key)[i]? = some key ∧ offset = redoRecordLength * i + 8

def recordValue (recs : List RedoRecord) (key : UInt64) : Option (List UInt8) :=
  (recs.find? fun r => r.key = key).map RedoRecord.value

namespace RedoLemmas

variable {recs before after : List RedoRecord} {l : RedoLog} {r : RedoRecord} {key : UInt64}
  {value : List UInt8}

theorem length_flatMap (recs : List RedoRecord) :
    (recs.flatMap bytes).length = redoRecordLength * recs.length := by
  induction recs with
  | nil => rfl
  | cons r recs ih =>
    rw [flatMap_cons, length_append, r.length_bytes, ih, length_cons, Nat.mul_succ, add_comm]

theorem length_data (h : Represents recs l) : l.data.length = redoRecordLength * recs.length := by
  rw [h.data, length_flatMap]

theorem notMem_keys (h : Represents recs l) (hkey : l.index key = none) :
    key ∉ recs.map RedoRecord.key := by
  intro hmem
  obtain ⟨i, hi⟩ := mem_iff_getElem?.1 hmem
  rw [(h.index key _).2 ⟨i, hi, rfl⟩] at hkey
  cases hkey

theorem drop_flatMap (before after : List RedoRecord) (r : RedoRecord) (n : Nat) :
    ((before ++ r :: after).flatMap bytes).drop (redoRecordLength * before.length + n) =
      (r.bytes ++ after.flatMap bytes).drop n := by
  rw [flatMap_append, flatMap_cons, ← length_flatMap before, drop_length_add_append]

theorem recordValue_split (hnodup : ((before ++ r :: after).map RedoRecord.key).Nodup) :
    recordValue (before ++ r :: after) r.key = some r.value := by
  have hbefore : before.find? (fun x => x.key = r.key) = none := by
    rw [List.find?_eq_none]
    intro x hx
    rw [map_append, nodup_append] at hnodup
    simpa using hnodup.2.2 x.key (mem_map_of_mem hx) r.key (by simp)
  simp [recordValue, List.find?_append, hbefore]

theorem recordValue_none (h : ∀ r ∈ recs, r.key ≠ key) : recordValue recs key = none := by
  rw [recordValue, Option.map_eq_none_iff, List.find?_eq_none]
  intro x hx
  simpa using h x hx

theorem split_of_key (h : (recs.map RedoRecord.key)[i]? = some key) :
    ∃ before r after, recs = before ++ r :: after ∧ r.key = key ∧ before.length = i := by
  rw [List.getElem?_map, Option.map_eq_some_iff] at h
  obtain ⟨r, hr, rfl⟩ := h
  obtain ⟨hi, rfl⟩ := List.getElem?_eq_some_iff.1 hr
  exact ⟨recs.take i, recs[i], recs.drop (i + 1), by simp, rfl, length_take_of_le (le_of_lt hi)⟩

theorem read_eq (h : Represents recs l) (key : UInt64) : l.read key = recordValue recs key := by
  cases hindex : l.index key with
  | none =>
    rw [RedoLog.read, hindex, Option.map_none, recordValue_none]
    rintro r hr rfl
    exact notMem_keys h hindex (mem_map_of_mem hr)
  | some offset =>
    obtain ⟨i, hi, rfl⟩ := (h.index key offset).1 hindex
    obtain ⟨before, r, after, rfl, rfl, rfl⟩ := split_of_key hi
    have hlen : uint64At l.data (redoRecordLength * before.length + 8) = r.value.length := by
      rw [uint64At, h.data, drop_flatMap]
      exact r.uint64At_length _
    rw [RedoLog.read, hindex, Option.map_some, hlen, recordValue_split h.nodup, h.data,
      add_assoc, drop_flatMap, r.value_bytes]

theorem map_key_overwrite (hvalue : value.length ≤ valueFixedLength) :
    (before ++ r.overwrite value hvalue :: after).map RedoRecord.key =
      (before ++ r :: after).map RedoRecord.key := by
  rw [map_append, map_append]
  rfl

theorem represents_overwrite (h : Represents (before ++ r :: after) l)
    (hvalue : value.length ≤ valueFixedLength) :
    Represents (before ++ r.overwrite value hvalue :: after)
      { l with
        data := splice (putUint64 l.data (redoRecordLength * before.length + 8) value.length)
          (redoRecordLength * before.length + 8 + 8) value } where
  data := by
    have hbytes := r.length_bytes
    have hsplice : ∀ {n : Nat} {rec v : List UInt8}, n + v.length ≤ rec.length →
        splice (before.flatMap bytes ++ (rec ++ after.flatMap bytes))
          (redoRecordLength * before.length + n) v =
        before.flatMap bytes ++ (splice rec n v ++ after.flatMap bytes) := by
      intro n rec v hn
      rw [← length_flatMap before, splice_append_right, splice_append_left hn]
    have hlen : (splice r.bytes 8 (leBytes 8 value.length)).length = redoRecordLength := by
      simp only [splice, length_append, length_take, length_drop, length_leBytes,
        hbytes, redoRecordLength]
      omega
    rw [h.data, flatMap_append, flatMap_cons, putUint64,
      hsplice (by rw [hbytes, length_leBytes]; decide), add_assoc, hsplice,
      r.splice_bytes hvalue, flatMap_append, flatMap_cons]
    rw [hlen]
    unfold redoRecordLength valueFixedLength at *
    omega
  nodup := by
    rw [map_key_overwrite]
    exact h.nodup
  index key offset := by
    rw [map_key_overwrite]
    exact h.index key offset

theorem represents_blank (h : Represents recs l) (hkey : l.index key = none) :
    Represents (recs ++ [.blank key])
      ⟨update l.index key (some (l.data.length + 8)),
        putUint64 (l.data ++ List.replicate redoRecordLength 0) l.data.length key.toNat⟩ where
  data := by
    have hzero : List.replicate redoRecordLength (0 : UInt8) =
        List.replicate 8 0 ++ (leBytes 8 0 ++ ([] ++ List.replicate valueFixedLength 0)) := by
      decide
    have hput : putUint64 (l.data ++ List.replicate redoRecordLength 0) (l.data.length + 0)
        key.toNat = l.data ++ (blank key).bytes := by
      rw [putUint64, splice_append_right, hzero, splice_front (by simp)]
      rfl
    rw [flatMap_append, ← h.data]
    simpa using hput
  nodup := by
    rw [map_append, nodup_append]
    refine ⟨h.nodup, by simp, fun a ha b hb => ?_⟩
    obtain rfl : b = key := by simpa [blank] using hb
    exact ne_of_mem_of_not_mem ha (notMem_keys h hkey)
  index k offset := by
    have hlen : l.data.length = redoRecordLength * (recs.map RedoRecord.key).length := by
      rw [length_data h, length_map]
    dsimp only
    rw [map_append, hlen]
    constructor
    · intro hk
      by_cases heq : k = key
      · subst heq
        rw [update_self] at hk
        exact ⟨_, by simp [blank], (Option.some.inj hk).symm⟩
      · rw [update_of_ne heq, h.index] at hk
        obtain ⟨i, hi, hoffset⟩ := hk
        refine ⟨i, ?_, hoffset⟩
        rw [List.getElem?_append_left (List.getElem?_eq_some_iff.1 hi).1]
        exact hi
    · rintro ⟨i, hi, rfl⟩
      rcases lt_or_ge i (recs.map RedoRecord.key).length with hlt | hge
      · rw [List.getElem?_append_left hlt] at hi
        have hne : k ≠ key := ne_of_mem_of_not_mem (mem_of_getElem? hi) (notMem_keys h hkey)
        rw [update_of_ne hne]
        exact (h.index k _).2 ⟨i, hi, rfl⟩
      · rw [List.getElem?_append_right hge] at hi
        obtain ⟨hlast, rfl⟩ : i - (recs.map RedoRecord.key).length = 0 ∧ key = k := by
          simpa [List.getElem?_singleton, blank] using hi
        obtain rfl : i = (recs.map RedoRecord.key).length := by omega
        rw [update_self]

theorem recordValue_overwrite (hnodup : ((before ++ r :: after).map RedoRecord.key).Nodup)
    (hvalue : value.length ≤ valueFixedLength) (key : UInt64) :
    recordValue (before ++ r.overwrite value hvalue :: after) key =
      if r.key = key then some value else recordValue (before ++ r :: after) key := by
  split
  · next hkey =>
    subst hkey
    rw [← map_key_overwrite hvalue] at hnodup
    exact recordValue_split hnodup
  · next hkey =>
    have hother : (r.overwrite value hvalue).key ≠ key := hkey
    simp [recordValue, List.find?_append, hkey, hother]

theorem recordValue_blank (k : UInt64) (hne : k ≠ key) :
    recordValue (recs ++ [.blank key]) k = recordValue recs k := by
  have hblank : (blank key).key ≠ k := Ne.symm hne
  simp [recordValue, List.find?_append, hblank]

theorem write_eq (h : Represents recs l) (key : UInt64) (hvalue : value.length ≤ valueFixedLength) :
    ∃ l' recs', l.write key value = some l' ∧ Represents recs' l' ∧ l.data.length ≤ l'.data.length ∧
      ∀ k, recordValue recs' k = if key = k then some value else recordValue recs k := by
  cases hindex : l.index key with
  | some offset =>
    obtain ⟨i, hi, rfl⟩ := (h.index key offset).1 hindex
    obtain ⟨before, r, after, rfl, rfl, rfl⟩ := split_of_key hi
    have hwrite := represents_overwrite h hvalue
    refine ⟨_, _, ?_, hwrite, ?_, fun k => ?_⟩
    · simp [RedoLog.write, Nat.not_lt.2 hvalue, hindex]
    · rw [length_data hwrite, length_data h]
      simp
    · exact recordValue_overwrite h.nodup hvalue k
  | none =>
    have hblank := represents_blank h hindex
    have hwrite := represents_overwrite hblank hvalue
    refine ⟨_, _, ?_, hwrite, ?_, fun k => ?_⟩
    · simp [RedoLog.write, Nat.not_lt.2 hvalue, hindex, length_data h]
    · rw [length_data hwrite, length_data h]
      exact Nat.mul_le_mul_left _ (by simp)
    · rw [recordValue_overwrite hblank.nodup hvalue k]
      by_cases hkey : key = k
      · simp [blank, hkey]
      · rw [recordValue_blank k (Ne.symm hkey)]
        simp [blank, hkey]

theorem openRedo_steps (hnodup : (recs.map RedoRecord.key).Nodup) (hn : n ≤ recs.length)
    (key : UInt64) (offset : Nat) :
    (List.range n).foldl (fun index i => update index
      (UInt64.ofNat (uint64At (recs.flatMap bytes) (redoRecordLength * i)))
        (some (redoRecordLength * i + 8))) (fun _ => none) key = some offset ↔
      ∃ i < n, (recs.map RedoRecord.key)[i]? = some key ∧ offset = redoRecordLength * i + 8 := by
  induction n with
  | zero => simp
  | succ n ih =>
    have hlt : n < (recs.map RedoRecord.key).length := by rwa [length_map]
    have hkey : (recs.map RedoRecord.key)[n]? = some (recs.map RedoRecord.key)[n] :=
      List.getElem?_eq_getElem hlt
    have hat : UInt64.ofNat (uint64At (recs.flatMap bytes) (redoRecordLength * n)) =
        (recs.map RedoRecord.key)[n] := by
      obtain ⟨before, r, after, rfl, hr, rfl⟩ := split_of_key hkey
      have hdrop := drop_flatMap before after r 0
      rw [add_zero] at hdrop
      have huint := r.uint64At_key (after.flatMap bytes)
      rw [uint64At, ← hdrop] at huint
      rw [uint64At, huint, UInt64.ofNat_toNat, hr]
    rw [range_succ, foldl_append, foldl_cons, foldl_nil, hat]
    by_cases heq : key = (recs.map RedoRecord.key)[n]
    · rw [heq, update_self]
      constructor
      · intro hoffset
        exact ⟨n, n.lt_succ_self, hkey, (Option.some.inj hoffset).symm⟩
      · rintro ⟨i, hi, hget, rfl⟩
        rw [(List.getElem?_inj (lt_of_lt_of_le hi hlt) hnodup).1 (hget.trans hkey.symm)]
    · rw [update_of_ne heq, ih (le_of_lt hn)]
      constructor
      · rintro ⟨i, hi, h⟩
        exact ⟨i, Nat.lt_succ_of_lt hi, h⟩
      · rintro ⟨i, hi, hget, hoffset⟩
        refine ⟨i, ?_, hget, hoffset⟩
        rcases Nat.lt_succ_iff_lt_or_eq.1 hi with hi | rfl
        · exact hi
        · exact absurd (Option.some.inj (hget.symm.trans hkey)) heq

theorem represents_open (hnodup : (recs.map RedoRecord.key).Nodup) :
    Represents recs (openRedo (recs.flatMap bytes)) where
  data := rfl
  nodup := hnodup
  index key offset := by
    have hcount : ((recs.flatMap bytes).length + (redoRecordLength - 1)) /
        redoRecordLength = recs.length := by
      rw [length_flatMap]
      unfold redoRecordLength valueFixedLength
      omega
    rw [openRedo, hcount, openRedo_steps hnodup le_rfl]
    constructor
    · rintro ⟨i, -, h⟩
      exact ⟨i, h⟩
    · rintro ⟨i, hget, hoffset⟩
      obtain ⟨hi, -⟩ := List.getElem?_eq_some_iff.1 hget
      exact ⟨i, by rwa [length_map] at hi, hget, hoffset⟩

/-- The file is what is in memory, and each key has the value that was written last. -/
def Holds (ops : List RedoOp) (s : RedoStore) : Prop :=
  s.file = s.log.data ∧
    ∃ recs, Represents recs s.log ∧ ∀ key, recordValue recs key = lastWrite ops key

theorem holds_step (h : Holds ops s) (op : RedoOp) : Holds (ops ++ [op]) (s.step op) := by
  obtain ⟨hfile, recs, hrecs, hvalue⟩ := h
  have hlast : ∀ key, lastWrite (ops ++ [op]) key = op.effect key (recordValue recs key) := by
    intro key
    rw [lastWrite, foldl_append, hvalue, foldl_cons, foldl_nil, lastWrite]
  cases op with
  | reopen =>
    have hlog : openRedo s.file = openRedo (recs.flatMap bytes) := by
      rw [hfile, hrecs.data]
    refine ⟨rfl, recs, ?_, fun key => (hlast key).symm⟩
    rw [step, hlog]
    exact represents_open hrecs.nodup
  | write key value =>
    by_cases hlen : value.length ≤ valueFixedLength
    · obtain ⟨l', recs', hwrite, hrecs', hle, hvalue'⟩ := write_eq hrecs key hlen
      have hsplice : splice s.file 0 l'.data = l'.data := by
        rw [hfile, splice]
        simpa using hle
      have hstep : s.step (.write key value) = ⟨l'.data, l'⟩ := by
        rw [step, hwrite]
        simp only [hsplice]
      rw [hstep]
      refine ⟨rfl, recs', hrecs', fun k => ?_⟩
      rw [hvalue', hlast]
      simp [RedoOp.effect, hlen]
    · have hstep : s.step (.write key value) = s := by
        simp [step, RedoLog.write, Nat.not_le.1 hlen]
      rw [hstep]
      refine ⟨hfile, recs, hrecs, fun k => ?_⟩
      rw [hlast]
      simp [RedoOp.effect, hlen]

theorem holds_run (ops : List RedoOp) : Holds ops (run ops) := by
  induction ops using List.reverseRecOn with
  | nil => exact ⟨rfl, [], represents_open nodup_nil, fun _ => rfl⟩
  | append_singleton ops op ih =>
    rw [run, foldl_append]
    exact holds_step ih op

theorem foldl_effect_keeps {rest : List RedoOp} (h : ∀ op ∈ rest, op.Keeps key)
    (value : Option (List UInt8)) : rest.foldl (RedoOp.effect key) value = value := by
  refine Threads.foldl_of_fixed fun op hop => ?_
  cases op with
  | reopen => rfl
  | write k v => exact if_neg fun hk => h (.write k v) hop hk.1

theorem isDigit_of_mem {n : Nat} {c : Char} (h : c ∈ Nat.toDigits 10 n) : c.isDigit :=
  Nat.isDigit_of_mem_toDigits (by decide) le_rfl h

theorem toUint64_toDigits (n : UInt64) : toUint64 (Nat.toDigits 10 n.toNat) = some n := by
  have hvalue : ∀ d < 10, decimalValue (Nat.digitChar d) = some d := by decide
  rw [toUint64, if_neg Nat.toDigits_ne_nil, Digits.foldlM_toDigits (by decide) hvalue]
  simp [Option.filter, n.toNat_lt]

theorem bytesText_textBytes {s : List Char} (h : ∀ c ∈ s, c.toNat < 256) :
    bytesText (textBytes s) = s := by
  have hbyte : ∀ c ∈ s, Char.ofNat (UInt8.ofNat c.toNat).toNat = c := by
    intro c hc
    rw [UInt8.toNat_ofNat', Nat.mod_eq_of_lt (h c hc), Char.ofNat_toNat]
  rw [bytesText, textBytes, map_map]
  exact (map_congr_left hbyte).trans (map_id _)

theorem toNat_lt_of_isDigit {c : Char} (h : c.isDigit) : c.toNat < 256 := by
  rw [Char.isDigit, Bool.and_eq_true, decide_eq_true_eq, decide_eq_true_eq] at h
  exact lt_of_le_of_lt h.2 (by decide)

theorem parseRedo_text (minID maxID : UInt64) :
    parseRedo (textBytes (redoText minID maxID)) = some (minID, maxID) := by
  have hascii : ∀ c ∈ redoText minID maxID, c.toNat < 256 := by
    intro c hc
    rcases mem_append.1 hc with hc | hc
    · exact toNat_lt_of_isDigit (isDigit_of_mem hc)
    · rcases mem_cons.1 hc with rfl | hc
      · decide
      · exact toNat_lt_of_isDigit (isDigit_of_mem hc)
  have hcolon : ∀ l ∈ [Nat.toDigits 10 minID.toNat, Nat.toDigits 10 maxID.toNat], ':' ∉ l := by
    intro l hl hmem
    have hdigit : (':').isDigit := by
      rcases mem_pair.1 hl with rfl | rfl <;> exact isDigit_of_mem hmem
    exact absurd hdigit (by decide)
  have hsplit : (redoText minID maxID).splitOn ':' =
      [Nat.toDigits 10 minID.toNat, Nat.toDigits 10 maxID.toNat] := by
    rw [← splitOn_intercalate ':' hcolon (by simp)]
    simp [redoText]
  rw [parseRedo, bytesText_textBytes hascii, hsplit]
  simp only [toUint64_toDigits, Option.bind_some, Option.map_some]

theorem length_text (minID maxID : UInt64) :
    (textBytes (redoText minID maxID)).length ≤ valueFixedLength := by
  have hdigits : ∀ n : UInt64, (Nat.toDigits 10 n.toNat).length ≤ 20 := fun n =>
    (Nat.length_toDigits_le_iff (by decide) (by decide)).2
      (lt_of_lt_of_le n.toNat_lt (by decide))
  have hmin := hdigits minID
  have hmax := hdigits maxID
  rw [textBytes, length_map, redoText, length_append, length_cons, valueFixedLength]
  omega

end RedoLemmas

open RedoLemmas

/--
After any writes and reopenings the file is made of whole records and every position is that of a
value inside of the data. `Read` returns the last value that was written for the key, a write
leaves the other keys, and `readRedoLog` returns the numbers of the last `writeRedoLog`.
-/
theorem redo_persistent_map (ops : List RedoOp) :
    redoRecordLength ∣ (run ops).file.length ∧
    (∀ key offset, (run ops).log.index key = some offset →
      offset + 8 + valueFixedLength ≤ (run ops).log.data.length) ∧
    (∀ key, (run ops).log.read key = lastWrite ops key) ∧
    (∀ key value k, k ≠ key → (run (ops ++ [.write key value])).log.read k =
      (run ops).log.read k) ∧
    ∀ option minID maxID rest, (∀ op ∈ rest, RedoOp.Keeps option op) →
      (run (ops ++ .writeRedoLog option minID maxID :: rest)).log.readRedoLog option =
        some (minID, maxID) := by
  have hread : ∀ ops key, (run ops).log.read key = lastWrite ops key := by
    intro ops key
    obtain ⟨-, recs, hrecs, hvalue⟩ := holds_run ops
    rw [read_eq hrecs, hvalue]
  obtain ⟨hfile, recs, hrecs, -⟩ := holds_run ops
  have hlen := length_data hrecs
  refine ⟨⟨recs.length, by rw [hfile, hlen]⟩, fun key offset hindex => ?_, hread ops, ?_, ?_⟩
  · obtain ⟨i, hi, rfl⟩ := (hrecs.index key offset).1 hindex
    have hlt : i < recs.length := by
      simpa using (List.getElem?_eq_some_iff.1 hi).1
    rw [hlen]
    exact Nat.mul_le_mul_left redoRecordLength hlt
  · intro key value k hk
    rw [hread, hread, lastWrite, foldl_append]
    exact if_neg fun heq => hk heq.1.symm
  · intro option minID maxID rest hrest
    have hlast : lastWrite (ops ++ .writeRedoLog option minID maxID :: rest) option =
        some (textBytes (redoText minID maxID)) := by
      rw [lastWrite, foldl_append, foldl_cons, foldl_effect_keeps hrest]
      exact if_pos ⟨rfl, length_text minID maxID⟩
    rw [RedoLog.readRedoLog, hread, hlast, Option.bind_some, parseRedo_text]

end SeaSearch
