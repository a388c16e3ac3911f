/-
# SignatureWindow — the validity window of a signature, on the circle of 32-bit seconds.

The window of a signature is an arc of 32-bit seconds (`OnArc`), widened by the clock skew.
`check_rrsig_validity` compares plain numbers, and its sums may overflow; a build without overflow checks goes on
with the remainder.
-/
import Dnsd.Lib.SerialNumber
import Dnsd.Recursor.Dnssec

namespace Dnsd.Recursor

open Proto Lib

/-! ## The sums -/

def validityAdditions (now : UInt32) (sig : RRSIG) : List (UInt32 × UInt32) :=
  if sig.sigExpiration < sig.sigInception then []
  else if now + clockSkew < sig.sigInception then [(now, clockSkew)]
  else [(now, clockSkew), (sig.sigExpiration, clockSkew)]

def SumFits (x y : UInt32) : Prop := x.toNat + y.toNat < 2 ^ 32

instance (x y : UInt32) : Decidable (SumFits x y) := inferInstanceAs (Decidable (_ < _))

def NoOverflow (now : UInt32) (sig : RRSIG) : Prop := ∀ s ∈ validityAdditions now sig, SumFits s.1 s.2

instance (now : UInt32) (sig : RRSIG) : Decidable (NoOverflow now sig) :=
  List.decidableBAll (fun s : UInt32 × UInt32 => SumFits s.1 s.2) (validityAdditions now sig)

theorem toNat_add_of_sumFits {x y : UInt32} (h : SumFits x y) : (x + y).toNat = x.toNat + y.toNat := by
  rw [UInt32.toNat_add]
  exact Nat.mod_eq_of_lt h

/-! ## The window -/

def lifetime (sig : RRSIG) : Nat := (sig.sigExpiration - sig.sigInception).toNat

/-- The clock is between inception and expiration, give or take the skew, on the circle. -/
def InSerialWindow (now : UInt32) (sig : RRSIG) : Prop :=
  OnArc (sig.sigInception - clockSkew).toBitVec (sig.sigExpiration + clockSkew).toBitVec now.toBitVec

instance (now : UInt32) (sig : RRSIG) : Decidable (InSerialWindow now sig) :=
  inferInstanceAs (Decidable (OnArc _ _ _))

section

variable {now : UInt32} {sig : RRSIG}

theorem inWindow_iff : InWindow now sig ↔ ¬sig.sigExpiration < sig.sigInception ∧
    ¬now + clockSkew < sig.sigInception ∧ ¬sig.sigExpiration + clockSkew < now := by
  unfold InWindow checkRrsigValidity
  split
  · simp [*]
  · split
    · simp [*]
    · split <;> simp [*]

theorem InWindow.additions (h : InWindow now sig) :
    validityAdditions now sig = [(now, clockSkew), (sig.sigExpiration, clockSkew)] := by
  obtain ⟨horder, hearly, _⟩ := inWindow_iff.mp h
  rw [validityAdditions, if_neg horder, if_neg hearly]

theorem inWindow_iff_serial (hlife : lifetime sig + 2 * clockSkew.toNat < 2 ^ 31)
    (horder : sig.sigInception ≤ sig.sigExpiration) (hnow : SumFits now clockSkew)
    (hexp : SumFits sig.sigExpiration clockSkew) : InWindow now sig ↔ InSerialWindow now sig := by
  have hskew : clockSkew.toNat = 300 := rfl
  have hle : sig.sigInception.toNat ≤ sig.sigExpiration.toNat := horder
  have hnowNat := toNat_add_of_sumFits hnow
  have hexpNat := toNat_add_of_sumFits hexp
  have hlifeNat : lifetime sig = sig.sigExpiration.toNat - sig.sigInception.toNat :=
    UInt32.toNat_sub_of_le _ _ horder
  unfold SumFits at hnow hexp
  rw [inWindow_iff, UInt32.not_lt, UInt32.not_lt, UInt32.not_lt, UInt32.le_iff_toNat_le,
    UInt32.le_iff_toNat_le, UInt32.le_iff_toNat_le, hnowNat, hexpNat]
  unfold InSerialWindow
  rcases Nat.lt_or_ge sig.sigInception.toNat clockSkew.toNat with hearly | hlate
  · -- The widened window starts before zero; the clock is not as late as that.
    have hstart : (sig.sigInception - clockSkew).toNat =
        2 ^ 32 - clockSkew.toNat + sig.sigInception.toNat := toNat_sub_of_lt hearly
    have hround : (sig.sigExpiration + clockSkew).toBitVec < (sig.sigInception - clockSkew).toBitVec := by
      show (sig.sigExpiration + clockSkew).toNat < (sig.sigInception - clockSkew).toNat
      omega
    rw [onArc_iff_of_lt hround]
    show _ ↔ (sig.sigInception - clockSkew).toNat ≤ now.toNat ∨
      now.toNat ≤ (sig.sigExpiration + clockSkew).toNat
    omega
  · have hstart : (sig.sigInception - clockSkew).toNat = sig.sigInception.toNat - clockSkew.toNat :=
      UInt32.toNat_sub_of_le _ _ hlate
    have hplain : (sig.sigInception - clockSkew).toBitVec ≤ (sig.sigExpiration + clockSkew).toBitVec := by
      show (sig.sigInception - clockSkew).toNat ≤ (sig.sigExpiration + clockSkew).toNat
      omega
    rw [onArc_iff_of_le hplain]
    show _ ↔ (sig.sigInception - clockSkew).toNat ≤ now.toNat ∧
      now.toNat ≤ (sig.sigExpiration + clockSkew).toNat
    omega

/-- **The window of a signature.**  For every signature with a lifetime that serial arithmetic can handle and
every time: the check accepts exactly on the arc and adds without overflow, exactly if the sums it computes fit
and a clock on the arc meets a window that does not come round. -/
theorem checkRrsigValidity_window (now : UInt32) (sig : RRSIG)
    (hlife : lifetime sig < 2 ^ 31 - 2 * clockSkew.toNat) :
    ((checkRrsigValidity now sig = .ok () ↔ InSerialWindow now sig) ∧ NoOverflow now sig) ↔
      NoOverflow now sig ∧ (InSerialWindow now sig →
        sig.sigInception ≤ sig.sigExpiration ∧ SumFits sig.sigExpiration clockSkew) := by
  have hlife' : lifetime sig + 2 * clockSkew.toNat < 2 ^ 31 := Nat.add_lt_of_lt_sub hlife
  rw [and_comm]
  refine and_congr_right fun hfits => ?_
  constructor
  · intro hiff harc
    have haccept : InWindow now sig := hiff.mpr harc
    rw [NoOverflow, haccept.additions] at hfits
    exact ⟨UInt32.not_lt.mp (inWindow_iff.mp haccept).1, hfits (sig.sigExpiration, clockSkew) (by simp)⟩
  · intro hcond
    by_cases hplain : sig.sigInception ≤ sig.sigExpiration ∧ SumFits sig.sigExpiration clockSkew
    · have hmem : (now, clockSkew) ∈ validityAdditions now sig := by
        rw [validityAdditions, if_neg (UInt32.not_lt.mpr hplain.1)]
        split <;> exact .head _
      exact inWindow_iff_serial hlife' hplain.1 (hfits _ hmem) hplain.2
    · -- The clock is off the arc, and the check does not get as far as to accept.
      refine iff_of_false (fun haccept => hplain ?_) fun harc => hplain (hcond harc)
      have hwin : InWindow now sig := haccept
      rw [NoOverflow, hwin.additions] at hfits
      exact ⟨UInt32.not_lt.mp (inWindow_iff.mp hwin).1, hfits (sig.sigExpiration, clockSkew) (by simp)⟩

end

/-! ## Signatures of today, and of 2106 -/

def windowSig (inception expiration : UInt32) : RRSIG :=
  ⟨.A, 8, 1, 300, expiration, inception, 0, Name.root, []⟩

theorem checkRrsigValidity_today :
    (checkRrsigValidity 1767268800 (windowSig 1767225600 1768435200) = .ok () ↔
      InSerialWindow 1767268800 (windowSig 1767225600 1768435200)) ∧
    NoOverflow 1767268800 (windowSig 1767225600 1768435200) ∧
    InSerialWindow 1767268800 (windowSig 1767225600 1768435200) :=
  ⟨((checkRrsigValidity_window 1767268800 (windowSig 1767225600 1768435200) (by decide +kernel)).mpr
    (by decide +kernel)).1, by decide +kernel, by decide +kernel⟩

/-- Three signatures that are inside their windows.  One runs across the end of the 32-bit range and is
refused.  One is used within the skew of that end: the sum with the clock overflows, and the signature counts
as not yet valid.  One expires there: the sum with the expiration overflows, and it counts as expired. -/
theorem checkRrsigValidity_around :
    (lifetime (windowSig 4294967196 100) < 2 ^ 31 - 2 * clockSkew.toNat ∧
      InSerialWindow 0 (windowSig 4294967196 100) ∧
      checkRrsigValidity 0 (windowSig 4294967196 100) = .error .expirationPrecedesInception) ∧
    (lifetime (windowSig 4294960000 4294966900) < 2 ^ 31 - 2 * clockSkew.toNat ∧
      InSerialWindow 4294967100 (windowSig 4294960000 4294966900) ∧
      ¬NoOverflow 4294967100 (windowSig 4294960000 4294966900) ∧
      checkRrsigValidity 4294967100 (windowSig 4294960000 4294966900) = .error .notYetValid) ∧
    (lifetime (windowSig 4294960000 4294967100) < 2 ^ 31 - 2 * clockSkew.toNat ∧
      InSerialWindow 4294966900 (windowSig 4294960000 4294967100) ∧
      ¬NoOverflow 4294966900 (windowSig 4294960000 4294967100) ∧
      checkRrsigValidity 4294966900 (windowSig 4294960000 4294967100) = .error .expired) := by
  decide +kernel

end Dnsd.Recursor
