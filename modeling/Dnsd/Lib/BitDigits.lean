/-
# BitDigits — bit vectors, digit by digit.

`ofDigits` puts digits of `d` bits together, the most significant first; digit `j`, counted from the least
significant, is the slice of `d` bits at `d * j`.  The two are inverse to each other (`getLsbD_ofDigits`).
-/
import Mathlib.Data.List.Induction

namespace Dnsd.Lib

open List

def ofDigits (w : Nat) {d : Nat} (ds : List (BitVec d)) : BitVec w :=
  ds.foldl (fun acc x => acc <<< d ||| x.setWidth w) 0

/-- Digit `j`, the least significant one being digit 0. -/
def digit {w : Nat} (d : Nat) (a : BitVec w) (j : Nat) : BitVec d := a.extractLsb' (d * j) d

variable {w d : Nat}

theorem getLsbD_digit {a : BitVec w} {j k : Nat} (hk : k < d) :
    (digit d a j).getLsbD k = a.getLsbD (d * j + k) := by
  simp [digit, hk]

theorem getLsbD_ofDigits (hd : 0 < d) (ds : List (BitVec d)) {k : Nat} (hk : k < w) :
    (ofDigits w ds).getLsbD k = ds.reverse[k / d]?.any fun x => x.getLsbD (k % d) := by
  induction ds using List.reverseRecOn generalizing k with
  | nil => simp [ofDigits]
  | append_singleton ds x ih =>
    have hsplit : ofDigits w (ds ++ [x]) = ofDigits w ds <<< d ||| x.setWidth w := by
      simp [ofDigits, foldl_append]
    rw [hsplit, reverse_append, BitVec.getLsbD_or, BitVec.getLsbD_shiftLeft, BitVec.getLsbD_setWidth]
    by_cases hlow : k < d
    · -- The last digit.
      simp [hlow, hk, Nat.div_eq_of_lt hlow, Nat.mod_eq_of_lt hlow]
    have hle : d ≤ k := Nat.le_of_not_lt hlow
    have hdiv : k / d = (k - d) / d + 1 := by
      rw [Nat.div_eq_sub_div hd hle]
    have hmod : k % d = (k - d) % d := Nat.mod_eq_sub_mod hle
    rw [hdiv, hmod, ih (Nat.lt_of_le_of_lt (Nat.sub_le k d) hk)]
    simp [hlow, hk, BitVec.getLsbD_of_ge x k hle]

theorem digit_ofDigits (hd : 0 < d) {ds : List (BitVec d)} {x : BitVec d} {j : Nat}
    (hx : ds.reverse[j]? = some x) (hw : d * (j + 1) ≤ w) : digit d (ofDigits w ds) j = x := by
  refine BitVec.eq_of_getLsbD_eq fun k hk => ?_
  have hlt : d * j + k < w := by
    rw [Nat.mul_add, Nat.mul_one] at hw
    omega
  have hdiv : (d * j + k) / d = j := by
    rw [Nat.mul_add_div hd, Nat.div_eq_of_lt hk, Nat.add_zero]
  have hmod : (d * j + k) % d = k := by
    rw [Nat.mul_add_mod, Nat.mod_eq_of_lt hk]
  rw [getLsbD_digit hk, getLsbD_ofDigits hd ds hlt, hdiv, hmod, hx, Option.any_some]

theorem ofDigits_digits (hd : 0 < d) {n : Nat} {a : BitVec w} (hw : w ≤ d * n) :
    ofDigits w ((List.range n).map (digit d a)).reverse = a := by
  refine BitVec.eq_of_getLsbD_eq fun k hk => ?_
  have hlt : k / d < n := Nat.div_lt_of_lt_mul (Nat.lt_of_lt_of_le hk hw)
  rw [getLsbD_ofDigits hd _ hk, reverse_reverse, List.getElem?_map, List.getElem?_range hlt,
    Option.map_some, Option.any_some, getLsbD_digit (Nat.mod_lt k hd), Nat.div_add_mod]

end Dnsd.Lib
