import Mathlib

/-!
# Document ids as numbers

`base62.Encode` writes a positive number with the digits `0-9a-zA-Z`, and `base62.Decode` reads a
string as a number.
-/

namespace SeaSearch.Base62

open List

def chars : List UInt8 :=
  "0123456789abcdefghijklmnopqrstuvwxyzABCDEFGHIJKLMNOPQRSTUVWXYZ".toUTF8.data.toList

/-- The result of an operation on `int64` numbers. -/
def wrap (x : Int) : Int := x.bmod (2 ^ 64)

/-- `Encode`. The loop takes the last digit first; nothing is written for a number that is not
positive. -/
def encode (num : Int) : List UInt8 :=
  ((Nat.digits 62 num.toNat).map fun d => chars.getD d 0).reverse

/-- `strings.IndexByte(chars, b)`. -/
def indexByte (b : UInt8) : Int :=
  match chars.idxOf? b with
  | some i => i
  | none => -1

/-- `int64(math.Pow(62, n))`. The powers up to `62^10` are `float64` numbers, and the next ones do
not fit into an `int64`: the conversion gives the smallest one, as on amd64. -/
def pow (n : Nat) : Int := if n ≤ 10 then 62 ^ n else -2 ^ 63

/-- The loop of `Decode` from a byte on, for any values of the powers. -/
def decodeWith (power : Nat → Int) : Int → List UInt8 → Int
  | num, [] => num
  | num, b :: str => decodeWith power (wrap (num + wrap (power str.length * indexByte b))) str

def decode (str : List UInt8) : Int := decodeWith pow 0 str

def bytes (s : String) : List UInt8 := s.toUTF8.data.toList

/-- `Encode(Decode(s)) == s`. -/
def canonical (s : String) : Bool := encode (decode (bytes s)) = bytes s

theorem bytes_injective : Function.Injective bytes := by
  intro s t h
  exact String.toByteArray_inj.1 (ByteArray.ext (Array.toList_inj.1 h))

theorem indexByte_chars : ∀ d < 62, indexByte (chars.getD d 0) = d := by
  decide +kernel

variable {power : Nat → Int}

theorem decodeWith_digits (hpower : ∀ k ≤ 10, power k = 62 ^ k) (hlen : ds.length ≤ 11)
    (hlt : ∀ d ∈ ds, d < 62) (num : Int) :
    wrap (decodeWith power num (ds.map fun d => chars.getD d 0).reverse) =
      wrap (num + (Nat.ofDigits 62 ds : Nat)) := by
  -- the loop starts with the digit of the highest power, the last one of the list
  induction ds using List.reverseRecOn generalizing num with
  | nil => simp [decodeWith, Nat.ofDigits_nil]
  | append_singleton ds d ih =>
    have hlen' : ds.length ≤ 10 := by simpa [Nat.lt_succ_iff] using hlen
    have hd : d < 62 := hlt d (by simp)
    rw [map_append, map_singleton, reverse_append, reverse_singleton,
      singleton_append, decodeWith, ih (by omega) fun x hx => hlt x (by simp [hx]),
      length_reverse, length_map, indexByte_chars d hd, hpower _ hlen', Nat.ofDigits_append,
      Nat.ofDigits_singleton]
    simp only [wrap, Int.bmod_add_bmod]
    rw [Int.add_right_comm, Int.add_bmod_bmod]
    push_cast
    ring_nf

theorem wrap_eq (hlow : -2 ^ 63 ≤ x) (hhigh : x < 2 ^ 63) : wrap x = x :=
  Int.bmod_eq_of_le (by omega) (by omega)

theorem wrap_decodeWith (hnum : wrap num = num) (str : List UInt8) :
    wrap (decodeWith power num str) = decodeWith power num str := by
  induction str generalizing num with
  | nil => exact hnum
  | cons b str ih => exact ih Int.bmod_bmod

theorem decodeWith_encode (hpower : ∀ k ≤ 10, power k = 62 ^ k) (hlow : 0 ≤ num)
    (hhigh : num < 2 ^ 63) : decodeWith power 0 (encode num) = num := by
  obtain ⟨n, rfl⟩ := Int.eq_ofNat_of_zero_le hlow
  have hlen : (Nat.digits 62 n).length ≤ 11 :=
    (Nat.digits_length_le_iff (by decide) n).2 (by omega)
  have hread := decodeWith_digits hpower hlen (fun d hd => Nat.digits_lt_base (by decide) hd) 0
  rw [wrap_decodeWith rfl, Nat.ofDigits_digits, zero_add, wrap_eq (by omega) hhigh] at hread
  exact hread

theorem decode_encode (hlow : 0 ≤ num) (hhigh : num < 2 ^ 63) : decode (encode num) = num :=
  decodeWith_encode (fun _ hk => if_pos hk) hlow hhigh

theorem encode_toNat (num : Int) : encode num.toNat = encode num := by
  rw [encode, encode, Int.toNat_natCast]

theorem encode_decode_encode (hhigh : num < 2 ^ 63) :
    encode (decode (encode num)) = encode num := by
  rw [← encode_toNat num, decode_encode (Int.natCast_nonneg _) (by omega)]

/-- Ids are canonical, whatever the powers of 62 are that do not fit into an `int64`. -/
theorem base62_canonical (power : Nat → Int) (hpower : ∀ k ≤ 10, power k = 62 ^ k) :
    (∀ n, 0 ≤ n → n < 2 ^ 63 → decodeWith power 0 (encode n) = n) ∧
    (∀ s, encode (decodeWith power 0 s) = s ↔ ∃ n : Int, 0 ≤ n ∧ n < 2 ^ 63 ∧ s = encode n) ∧
    {s | encode (decodeWith power 0 s) = s}.InjOn (decodeWith power 0) := by
  have hread : ∀ n, 0 ≤ n → n < 2 ^ 63 → decodeWith power 0 (encode n) = n := fun n =>
    decodeWith_encode hpower
  refine ⟨hread, fun s => ⟨fun hs => ?_, ?_⟩, fun s hs t ht heq => ?_⟩
  · have hlt : decodeWith power 0 s < 2 ^ 63 := by
      rw [← wrap_decodeWith rfl]
      exact Int.bmod_lt (by decide)
    exact ⟨(decodeWith power 0 s).toNat, Int.natCast_nonneg _, by omega, by rw [encode_toNat, hs]⟩
  · rintro ⟨n, hlow, hhigh, rfl⟩
    rw [hread n hlow hhigh]
  · rw [← show encode (decodeWith power 0 s) = s from hs, heq]
    exact ht

theorem base62_canonical_amd64 : decodeWith pow 0 (encode 3843) = 3843 :=
  (base62_canonical pow fun _ hk => if_pos hk).1 3843 (by decide) (by decide)

example : decode (encode (-5)) = 0 := by decide +kernel

theorem decode_injOn (hs : canonical s) (ht : canonical t)
    (h : decode (bytes s) = decode (bytes t)) : s = t := by
  refine bytes_injective ?_
  rw [← of_decide_eq_true hs, ← of_decide_eq_true ht, h]

end SeaSearch.Base62
