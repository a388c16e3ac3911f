/-
# SerialNumber — arcs on the circle of fixed-width numbers.

A window between two fixed-width numbers is an arc of the circle, and a number is on it by its distance from the
start.  Where the arc does not come round it is an interval (`onArc_iff_of_le`, `onArc_iff_of_lt`).
-/
import Mathlib.Algebra.GroupWithZero.Nat
import Mathlib.Order.Defs.LinearOrder

namespace Dnsd.Lib

variable {w : Nat} {a b x : BitVec w}

/-- `x` is on the arc that leads forward from `a` to `b`. -/
def OnArc (a b x : BitVec w) : Prop := x - a ≤ b - a

instance : Decidable (OnArc a b x) := inferInstanceAs (Decidable (_ ≤ _))

theorem toNat_sub_of_lt (h : x < a) : (x - a).toNat = 2 ^ w - a.toNat + x.toNat := by
  have hlt : x.toNat < a.toNat := h
  have ha : a.toNat < 2 ^ w := a.isLt
  rw [BitVec.toNat_sub]
  exact Nat.mod_eq_of_lt (by omega)

theorem onArc_iff_of_le (h : a ≤ b) : OnArc a b x ↔ a ≤ x ∧ x ≤ b := by
  have hab : a.toNat ≤ b.toNat := h
  have hb : b.toNat < 2 ^ w := b.isLt
  show (x - a).toNat ≤ (b - a).toNat ↔ a.toNat ≤ x.toNat ∧ x.toNat ≤ b.toNat
  rw [BitVec.toNat_sub_of_le h]
  rcases Nat.lt_or_ge x.toNat a.toNat with hx | hx
  · rw [toNat_sub_of_lt hx]
    omega
  · rw [BitVec.toNat_sub_of_le hx]
    omega

theorem onArc_iff_of_lt (h : b < a) : OnArc a b x ↔ a ≤ x ∨ x ≤ b := by
  have hba : b.toNat < a.toNat := h
  have hx : x.toNat < 2 ^ w := x.isLt
  show (x - a).toNat ≤ (b - a).toNat ↔ a.toNat ≤ x.toNat ∨ x.toNat ≤ b.toNat
  rw [toNat_sub_of_lt h]
  rcases Nat.lt_or_ge x.toNat a.toNat with hxa | hxa
  · rw [toNat_sub_of_lt hxa]
    omega
  · rw [BitVec.toNat_sub_of_le hxa]
    omega

end Dnsd.Lib
