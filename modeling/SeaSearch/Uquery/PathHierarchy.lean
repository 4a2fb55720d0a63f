import Mathlib

/-!
# The path hierarchy tokenizer

The loop of `Tokenize` writes the replacement into its own input, and the last token depends on
the last byte after that.
-/

namespace SeaSearch

open List

structure PathHierarchyTokenizer where
  dilimiter : UInt8
  replacement : UInt8
  skip : Nat

structure PathToken where
  term : List UInt8
  start : Nat
  stop : Nat
  deriving DecidableEq

def PathToken.offsets (token : PathToken) : Nat × Nat := (token.start, token.stop)

/-- The variables of the loop. -/
structure PathScan where
  input : List UInt8
  start : Nat := 0
  skip : Nat := 0
  rv : List PathToken := []

namespace PathHierarchyTokenizer

def makeToken (input : List UInt8) (start stop : Nat) : PathToken :=
  ⟨(input.drop start).take (stop - start), start, stop⟩

variable (t : PathHierarchyTokenizer)

def step (s : PathScan) (i : Nat) : PathScan :=
  if s.input.getD i 0 = t.dilimiter then
    let input := s.input.set i t.replacement
    if t.skip > 0 ∧ s.skip < t.skip then { s with input, start := i, skip := s.skip + 1 }
    else { s with input, rv := s.rv ++ [makeToken input s.start i] }
  else s

def scan (input : List UInt8) : PathScan :=
  (range' 1 (input.length - 1)).foldl t.step { input }

/-- `none` if the last byte of an empty input is read. -/
def tokenize (input : List UInt8) : Option (List PathToken) :=
  let n := input.length
  let s := t.scan input
  if n = 0 then none
  else if s.input.getD (n - 1) 0 ≠ t.dilimiter ∧ s.skip = t.skip then
    some (s.rv ++ [makeToken s.input s.start n])
  else some s.rv

/-- The start and end offsets of the tokens. -/
def offsets (input : List UInt8) : Option (List (Nat × Nat)) :=
  (t.tokenize input).map (map PathToken.offsets)

variable {t} {input : List UInt8} {i : Nat} {s s' : PathScan}

/-- The loop before byte `i`: the delimiters before it are replaced, except for the first byte,
which the loop does not read. -/
structure Scanned (t : PathHierarchyTokenizer) (input : List UInt8) (i : Nat) (s : PathScan) :
    Prop where
  length : s.input.length = input.length
  bytes : ∀ j, s.input.getD j 0 =
    if 0 < j ∧ j < i ∧ input.getD j 0 = t.dilimiter then t.replacement else input.getD j 0
  skip : s.skip = min t.skip ((input.take i).tail.count t.dilimiter)

/-- The loops for two replacements. -/
structure Along (s s' : PathScan) : Prop where
  start : s.start = s'.start
  skip : s.skip = s'.skip
  rv : s.rv.map PathToken.offsets = s'.rv.map PathToken.offsets

theorem Scanned.byte (h : Scanned t input i s) : s.input.getD i 0 = input.getD i 0 := by
  rw [h.bytes, if_neg fun hlt => lt_irrefl i hlt.2.1]

theorem count_succ (hi : 0 < i) (hlt : i < input.length) (b : UInt8) :
    (input.take (i + 1)).tail.count b =
      (input.take i).tail.count b + if input.getD i 0 = b then 1 else 0 := by
  have hne : input.take i ≠ [] := by
    rw [← length_pos_iff, length_take]
    omega
  rw [take_succ_eq_append_getElem hlt, tail_append_of_ne_nil hne, count_append, count_singleton,
    getD_eq_getElem _ _ hlt]
  simp only [beq_iff_eq]

theorem Scanned.step (h : Scanned t input i s) (hi : 0 < i) (hlt : i < input.length) :
    Scanned t input (i + 1) (t.step s i) := by
  have hbyte := h.byte
  have hcount := count_succ hi hlt t.dilimiter
  obtain ⟨hlength, hbytes, hskip⟩ := h
  have hset : ∀ j, (s.input.set i t.replacement).getD j 0 =
      if j = i then t.replacement else s.input.getD j 0 := fun j => by
    rw [getD_eq_getElem?_getD, getElem?_set, getD_eq_getElem?_getD]
    grind
  rw [PathHierarchyTokenizer.step]
  split
  · next hdelimiter =>
    rw [hbyte] at hdelimiter
    rw [if_pos hdelimiter] at hcount
    split
    all_goals refine ⟨by simpa using hlength, fun j => ?_, by grind⟩
    all_goals exact (hset j).trans (by grind)
  · next hother =>
    rw [hbyte] at hother
    rw [if_neg hother] at hcount
    exact ⟨hlength, fun j => (hbytes j).trans (by grind), by rw [hskip, hcount, add_zero]⟩

theorem Along.step {replacement : UInt8} (h : Along s s') (hs : Scanned t input i s)
    (hs' : Scanned { t with replacement } input i s') :
    Along (t.step s i) (step { t with replacement } s' i) := by
  obtain ⟨hstart, hskip, hrv⟩ := h
  simp only [PathHierarchyTokenizer.step, hs.byte, hs'.byte, hskip]
  split
  · split
    all_goals constructor
    all_goals simp_all [makeToken, PathToken.offsets]
  · exact ⟨hstart, hskip, hrv⟩

variable (t input)

theorem scan_spec (replacement : UInt8) {n : Nat} (hn : n < input.length) :
    Scanned t input (n + 1) ((range' 1 n).foldl t.step { input }) ∧
      Scanned { t with replacement } input (n + 1)
        ((range' 1 n).foldl (step { t with replacement }) { input }) ∧
      Along ((range' 1 n).foldl t.step { input })
        ((range' 1 n).foldl (step { t with replacement }) { input }) := by
  have hnil : (input.take 1).tail = [] := by
    rw [← drop_one, drop_take]
    simp
  induction n with
  | zero =>
    refine ⟨⟨rfl, fun j => ?_, by simp [hnil]⟩, ⟨rfl, fun j => ?_, by simp [hnil]⟩, rfl, rfl, rfl⟩
    all_goals exact (if_neg (by omega)).symm
  | succ n ih =>
    obtain ⟨hs, hs', halong⟩ := ih (Nat.lt_of_succ_lt hn)
    rw [range'_1_concat, foldl_concat, foldl_concat, Nat.add_comm 1 n]
    exact ⟨hs.step (Nat.succ_pos n) hn, hs'.step (Nat.succ_pos n) hn, halong.step hs hs'⟩

theorem offsets_cons (b : UInt8) (tail : List UInt8) :
    t.offsets (b :: tail) = some ((t.scan (b :: tail)).rv.map PathToken.offsets ++
      if (t.scan (b :: tail)).input.getD tail.length 0 ≠ t.dilimiter ∧
        (t.scan (b :: tail)).skip = t.skip then [((t.scan (b :: tail)).start, tail.length + 1)]
      else []) := by
  simp only [offsets, tokenize, length_cons, Nat.add_sub_cancel, Nat.add_one_ne_zero, if_false]
  split
  · simp [makeToken, PathToken.offsets]
  · simp

theorem getLast?_eq_iff (b : UInt8) (tail : List UInt8) :
    tail.getLast? = some t.dilimiter ↔
      0 < tail.length ∧ (b :: tail).getD tail.length 0 = t.dilimiter := by
  cases tail using List.reverseRecOn with
  | nil => simp
  | append_singleton tail b' => simp

/-- The offsets do not depend on the replacement if and only if the input is not empty, and the
replacement is the delimiter, or the last byte is not a delimiter that is replaced, or there are
fewer delimiters than are skipped. -/
theorem offsets_eq_iff :
    t.tokenize input ≠ none ∧
        t.offsets input = offsets { t with replacement := t.dilimiter } input ↔
      input ≠ [] ∧ (t.replacement = t.dilimiter ∨ input.tail.getLast? ≠ some t.dilimiter ∨
        input.tail.count t.dilimiter < t.skip) := by
  cases input with
  | nil => simp [tokenize]
  | cons b tail =>
    have hlast := getLast?_eq_iff t b tail
    have hsome : t.tokenize (b :: tail) ≠ none := by
      simp only [tokenize, length_cons, Nat.add_one_ne_zero, if_false]
      split <;> simp
    obtain ⟨hs, hs', hstart, hskip, hrv⟩ :
        Scanned t (b :: tail) (tail.length + 1) (t.scan (b :: tail)) ∧
          Scanned { t with replacement := t.dilimiter } (b :: tail) (tail.length + 1)
            (scan { t with replacement := t.dilimiter } (b :: tail)) ∧
          Along (t.scan (b :: tail)) (scan { t with replacement := t.dilimiter } (b :: tail)) :=
      scan_spec t (b :: tail) t.dilimiter (by simp)
    rw [and_iff_right hsome, and_iff_right (cons_ne_nil b tail), offsets_cons, offsets_cons]
    generalize t.scan (b :: tail) = s at *
    generalize scan { t with replacement := t.dilimiter } (b :: tail) = s' at *
    have hcount : s.skip = min t.skip (tail.count t.dilimiter) := by simpa using hs.skip
    -- both loops end with the same tokens, and the last token depends on the last byte
    rw [hs.bytes, hs'.bytes, ← hstart, ← hskip, ← hrv, Option.some_inj, append_cancel_left_eq,
      hcount]
    grind

/-- An empty input panics, and the delimiter at the end of `a/` is a token if it is replaced. -/
theorem replacement_adds_token :
    tokenize ⟨47, 45, 0⟩ [] = none ∧ offsets ⟨47, 45, 0⟩ [97, 47] = some [(0, 1), (0, 2)] ∧
      offsets ⟨47, 47, 0⟩ [97, 47] = some [(0, 1)] := by
  decide

end PathHierarchyTokenizer

end SeaSearch
