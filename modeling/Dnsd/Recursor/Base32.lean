/-
# Base32 — base32hex labels and their decoder.

`base32HexEncode` is the encoding from its definition: the octets as one string of bits, cut into groups of five.
The decoder gives the octets back (`base32HexDecode_encode`).  With `r` bits of an octet not yet written, the
decoder has the other `8 - r` in its accumulator; the induction is over this state.
-/
import Dnsd.Recursor.Dnssec
import Mathlib.Tactic.IntervalCases

namespace Dnsd.Recursor

open Proto

def base32HexChar (d : Nat) : UInt8 := if d < 10 then UInt8.ofNat (48 + d) else UInt8.ofNat (87 + d)

/-- The digits of some octets behind `bits` bits of an octet before them, fewer than five, with value
`acc`. -/
def base32HexDigits : List UInt8 → Nat → Nat → Label
  | [], acc, bits => if bits = 0 then [] else [base32HexChar (acc * 2 ^ (5 - bits))]
  | b :: bs, acc, bits =>
      let value := acc * 256 + b.toNat
      let first := base32HexChar (value / 2 ^ (bits + 3))
      if bits < 2 then first :: base32HexDigits bs (value % 2 ^ (bits + 3)) (bits + 3)
      else
        first :: base32HexChar (value % 2 ^ (bits + 3) / 2 ^ (bits - 2)) ::
          base32HexDigits bs (value % 2 ^ (bits - 2)) (bits - 2)

def base32HexEncode (octets : List UInt8) : Label := base32HexDigits octets 0 0

/-! ## One digit -/

theorem base32HexDigit_char {d : Nat} (h : d < 32) : base32HexDigit (base32HexChar d) = some d := by
  have hall : ∀ d : Fin 32, base32HexDigit (base32HexChar d) = some d.val := by decide
  exact hall ⟨d, h⟩

theorem base32HexDigit_lowerByte (b : UInt8) : base32HexDigit (lowerByte b) = base32HexDigit b := by
  have hall : ∀ b : Fin 256, base32HexDigit (lowerByte (UInt8.ofNat b)) = base32HexDigit (UInt8.ofNat b) := by
    decide +kernel
  have hb := hall ⟨b.toNat, b.toNat_lt⟩
  rwa [UInt8.ofNat_toNat] at hb

theorem base32HexOctets_lowerByte (label : Label) (acc bits : Nat) :
    base32HexOctets (label.map lowerByte) acc bits = base32HexOctets label acc bits := by
  induction label generalizing acc bits with
  | nil => rfl
  | cons b label ih =>
    rw [List.map_cons]
    unfold base32HexOctets
    rw [base32HexDigit_lowerByte]
    simp only [ih]

section Step

variable {d acc bits : Nat} (hd : d < 32) (label : Label)

include hd

theorem base32HexOctets_short (hbits : bits + 5 < 8) :
    base32HexOctets (base32HexChar d :: label) acc bits =
      base32HexOctets label (acc * 32 + d) (bits + 5) := by
  rw [base32HexOctets, base32HexDigit_char hd]
  dsimp only
  rw [if_pos hbits]

theorem base32HexOctets_long (hbits : ¬ bits + 5 < 8) :
    base32HexOctets (base32HexChar d :: label) acc bits =
      (base32HexOctets label ((acc * 32 + d) % 2 ^ (bits - 3)) (bits - 3)).map
        (UInt8.ofNat ((acc * 32 + d) / 2 ^ (bits - 3)) :: ·) := by
  rw [base32HexOctets, base32HexDigit_char hd]
  dsimp only
  rw [if_neg hbits]

end Step

/-! ## Round trip -/

section Arithmetic

variable {b c r : Nat} (hc : c < 256) (hr : r < 5)

include hc hr

theorem first_lt : ((b % 2 ^ r) * 256 + c) / 2 ^ (r + 3) < 32 := by
  interval_cases r <;> omega

theorem first_octet :
    (b / 2 ^ r * 32 + ((b % 2 ^ r) * 256 + c) / 2 ^ (r + 3)) / 2 ^ (5 - r) = b ∧
      (b / 2 ^ r * 32 + ((b % 2 ^ r) * 256 + c) / 2 ^ (r + 3)) % 2 ^ (5 - r) = c / 2 ^ (r + 3) := by
  interval_cases r <;> constructor <;> omega

omit hc in
theorem first_left : ((b % 2 ^ r) * 256 + c) % 2 ^ (r + 3) = c % 2 ^ (r + 3) := by
  interval_cases r <;> omega

omit hc in
theorem second_octet (hr2 : 2 ≤ r) :
    c % 2 ^ (r + 3) / 2 ^ (r - 2) < 32 ∧
      c / 2 ^ (r + 3) * 32 + c % 2 ^ (r + 3) / 2 ^ (r - 2) = c / 2 ^ (r - 2) ∧
      ((b % 2 ^ r) * 256 + c) % 2 ^ (r - 2) = c % 2 ^ (r - 2) := by
  interval_cases r <;> refine ⟨?_, ?_, ?_⟩ <;> omega

end Arithmetic

theorem base32HexOctets_digits (octets : List UInt8) :
    base32HexOctets (base32HexDigits octets 0 0) 0 0 = some octets ∧
      ∀ (b : UInt8) (r : Nat), 0 < r → r < 5 →
        base32HexOctets (base32HexDigits octets (b.toNat % 2 ^ r) r) (b.toNat / 2 ^ r) (8 - r) =
          some (b :: octets) := by
  induction octets with
  | nil =>
    refine ⟨rfl, fun b r hr hr5 => ?_⟩
    have hb := b.toNat_lt
    rw [base32HexDigits, if_neg (by omega)]
    have hd : b.toNat % 2 ^ r * 2 ^ (5 - r) < 32 := by interval_cases r <;> omega
    rw [base32HexOctets_long hd _ (by omega), base32HexOctets]
    have hleft : (b.toNat / 2 ^ r * 32 + b.toNat % 2 ^ r * 2 ^ (5 - r)) % 2 ^ (8 - r - 3) = 0 := by
      interval_cases r <;> omega
    have hoctet : (b.toNat / 2 ^ r * 32 + b.toNat % 2 ^ r * 2 ^ (5 - r)) / 2 ^ (8 - r - 3) = b.toNat := by
      interval_cases r <;> omega
    rw [if_pos ⟨by omega, hleft⟩, hoctet, UInt8.ofNat_toNat]
    rfl
  | cons c octets ih =>
    have hc := c.toNat_lt
    constructor
    · rw [base32HexDigits, if_pos (by omega)]
      simp only [Nat.zero_mul, Nat.zero_add]
      rw [base32HexOctets_short (by omega) _ (by omega)]
      simp only [Nat.zero_mul, Nat.zero_add]
      exact ih.2 c 3 (by omega) (by omega)
    · intro b r hr hr5
      rw [base32HexDigits]
      have hfirst : 8 - r - 3 = 5 - r := by omega
      -- The rest of `b` is in the first digit, and the next octet is the pending one.
      have hemit : ∀ label, base32HexOctets
          (base32HexChar ((b.toNat % 2 ^ r * 256 + c.toNat) / 2 ^ (r + 3)) :: label) (b.toNat / 2 ^ r)
            (8 - r) =
          (base32HexOctets label (c.toNat / 2 ^ (r + 3)) (5 - r)).map (b :: ·) := by
        intro label
        obtain ⟨hoctet, hnext⟩ := first_octet (b := b.toNat) hc hr5
        rw [base32HexOctets_long (first_lt hc hr5) _ (by omega), hfirst, hnext, hoctet, UInt8.ofNat_toNat]
      split
      · have hr1 : r = 1 := by omega
        subst hr1
        rw [hemit, first_left (by omega), ih.2 c 4 (by omega) (by omega)]
        rfl
      · obtain ⟨hd, hsecond, hleft⟩ := second_octet (b := b.toNat) (c := c.toNat) hr5 (by omega)
        rw [hemit, first_left hr5, hleft]
        rcases Nat.eq_or_lt_of_le (show 2 ≤ r by omega) with hr2 | hr2
        · -- Nothing of the next octet is left over.
          subst hr2
          rw [base32HexOctets_long hd _ (by omega), hsecond]
          simp only [Nat.sub_self, Nat.pow_zero, Nat.mod_one, Nat.div_one, UInt8.ofNat_toNat]
          rw [ih.1]
          rfl
        · have hbits : 5 - r + 5 = 8 - (r - 2) := by omega
          rw [base32HexOctets_short hd _ (by omega), hsecond, hbits, ih.2 c (r - 2) (by omega) (by omega)]
          rfl

/-- **Every hash can be read back from its label**, whatever the case of the letters. -/
theorem base32HexDecode_encode {label : Label} {octets : List UInt8}
    (h : label.map lowerByte = (base32HexEncode octets).map lowerByte) :
    base32HexDecode label = some octets := by
  rw [base32HexDecode, ← base32HexOctets_lowerByte, h, base32HexOctets_lowerByte]
  exact (base32HexOctets_digits octets).1

end Dnsd.Recursor
