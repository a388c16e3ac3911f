/-
# Name — domain names as the resolver compares, orders and cuts them.

A name is its label sequence, leftmost label first, and absolute.  Equality and order ignore ASCII case, `zoneOf`
is the label-wise suffix test, and `numLabels` does NOT count a leftmost `*`, so `*.com` and `com` rank alike.
The second half is the algebra the proofs use.
-/
import Mathlib.Algebra.GroupWithZero.Nat
import Mathlib.Data.List.Infix

namespace Dnsd.Proto

abbrev Label := List UInt8

def lowerByte (b : UInt8) : UInt8 := if 65 ≤ b ∧ b ≤ 90 then b + 32 else b

theorem forall_octet {P : UInt8 → Prop} (h : ∀ n : Fin 256, P (UInt8.ofNat n)) (b : UInt8) : P b := by
  have hb := h ⟨b.toNat, b.toNat_lt⟩
  rwa [UInt8.ofNat_toNat] at hb

/-- An absolute domain name: its labels from the leftmost one. -/
structure Name where
  labels : List Label
  deriving DecidableEq, Repr

namespace Name

variable {a b c n : Name}

def root : Name := ⟨[]⟩

def toLowercase (n : Name) : Name := ⟨n.labels.map (·.map lowerByte)⟩

/-- `==` on names: equal up to ASCII case. -/
def same (a b : Name) : Bool := a.toLowercase == b.toLowercase

def isRoot (n : Name) : Bool := n.labels.isEmpty

def star : Label := [42]

/-- The number of labels, discounting a leftmost `*`. -/
def numLabels (n : Name) : Nat :=
  match n.labels with
  | [] => 0
  | l :: ls => if l = star then ls.length else ls.length + 1

def isWildcard (n : Name) : Bool := n.labels.head? == some star

def trimTo (n : Name) (k : Nat) : Name :=
  if n.labels.length < k then n else ⟨n.labels.drop (n.labels.length - k)⟩

def baseName (n : Name) : Name :=
  if 0 < n.labels.length then n.trimTo (n.labels.length - 1) else n

/-- `z.zoneOf n`: `n` is at or below `z`. -/
def zoneOf (z n : Name) : Bool := z.toLowercase.labels.isSuffixOf n.toLowercase.labels

def cmpLabel (a b : Label) : Ordering := List.compareLex compare a b

/-- Canonical order: labels from the right, ASCII case ignored, a proper suffix first. -/
def cmp (a b : Name) : Ordering :=
  List.compareLex cmpLabel a.toLowercase.labels.reverse b.toLowercase.labels.reverse

def wireLen (n : Name) : Nat := (n.labels.map (fun l => l.length + 1)).sum + 1

def prepend? (l : Label) (n : Name) : Option Name :=
  if wireLen ⟨l :: n.labels⟩ ≤ 255 then some ⟨l :: n.labels⟩ else none

/-! ## Equality up to case -/

theorem lowerByte_idem : ∀ b : UInt8, lowerByte (lowerByte b) = lowerByte b := forall_octet (by decide +kernel)

@[simp] theorem toLowercase_idem (n : Name) : n.toLowercase.toLowercase = n.toLowercase := by
  simp only [toLowercase, List.map_map, Name.mk.injEq]
  refine List.map_congr_left fun l _ => ?_
  simp [Function.comp_def, lowerByte_idem]

@[simp] theorem toLowercase_length (n : Name) :
    n.toLowercase.labels.length = n.labels.length := by simp [toLowercase]

@[simp] theorem toLowercase_root : root.toLowercase = root := rfl

theorem same_iff : a.same b = true ↔ a.toLowercase = b.toLowercase := by
  simp [same]

@[simp] theorem same_refl (a : Name) : a.same a = true := same_iff.mpr rfl

theorem same_symm (h : a.same b = true) : b.same a = true := same_iff.mpr (same_iff.mp h).symm

theorem same_comm (a b : Name) : a.same b = b.same a := by
  rw [Bool.eq_iff_iff]
  exact ⟨same_symm, same_symm⟩

theorem same_trans (hab : a.same b = true) (hbc : b.same c = true) : a.same c = true :=
  same_iff.mpr ((same_iff.mp hab).trans (same_iff.mp hbc))

@[simp] theorem same_toLowercase_left (a b : Name) : a.toLowercase.same b = a.same b := by
  simp [same]

@[simp] theorem same_toLowercase_right (a b : Name) : a.same b.toLowercase = a.same b := by
  simp [same]

theorem same_length (h : a.same b = true) : a.labels.length = b.labels.length := by
  have := congrArg (fun n : Name => n.labels.length) (same_iff.mp h)
  simpa using this

theorem isRoot_iff : n.isRoot = true ↔ n = root := by
  obtain ⟨ls⟩ := n
  simp [isRoot, root]

theorem same_root_iff : n.same root = true ↔ n = root := by
  constructor
  · intro h
    have hlen : n.labels.length = 0 := same_length h
    exact congrArg Name.mk (List.length_eq_zero_iff.mp hlen)
  · rintro rfl
    exact same_refl _

/-! ## The ancestor order -/

theorem zoneOf_iff {z : Name} : z.zoneOf n = true ↔ z.toLowercase.labels <:+ n.toLowercase.labels := by
  simp [zoneOf]

theorem zoneOf_of_same (h : a.same b = true) : a.zoneOf b = true := by
  rw [zoneOf_iff, same_iff.mp h]

@[simp] theorem zoneOf_refl (n : Name) : n.zoneOf n = true := zoneOf_of_same (same_refl n)

theorem zoneOf_trans (hab : a.zoneOf b = true) (hbc : b.zoneOf c = true) : a.zoneOf c = true :=
  zoneOf_iff.mpr ((zoneOf_iff.mp hab).trans (zoneOf_iff.mp hbc))

theorem zoneOf_congr_left (h : a.same b = true) : a.zoneOf c = b.zoneOf c := by
  simp only [zoneOf, same_iff.mp h]

theorem zoneOf_congr_right (h : a.same b = true) : c.zoneOf a = c.zoneOf b := by
  simp only [zoneOf, same_iff.mp h]

@[simp] theorem zoneOf_toLowercase_left (a b : Name) : a.toLowercase.zoneOf b = a.zoneOf b := by
  simp [zoneOf]

@[simp] theorem zoneOf_toLowercase_right (a b : Name) : a.zoneOf b.toLowercase = a.zoneOf b := by
  simp [zoneOf]

@[simp] theorem root_zoneOf (n : Name) : root.zoneOf n = true := zoneOf_iff.mpr List.nil_suffix

theorem zoneOf_length (h : a.zoneOf b = true) : a.labels.length ≤ b.labels.length := by
  have := (zoneOf_iff.mp h).length_le
  simpa using this

theorem same_of_zoneOf_of_length (h : a.zoneOf b = true) (hl : b.labels.length ≤ a.labels.length) :
    a.same b = true := by
  have heq : a.toLowercase.labels = b.toLowercase.labels :=
    (zoneOf_iff.mp h).eq_of_length_le (by simpa using hl)
  rw [same_iff]
  exact congrArg Name.mk heq

theorem zoneOf_antisymm (hab : a.zoneOf b = true) (hba : b.zoneOf a = true) : a.same b = true :=
  same_of_zoneOf_of_length hab (zoneOf_length hba)

theorem zoneOf_total (ha : a.zoneOf c = true) (hb : b.zoneOf c = true) :
    a.zoneOf b = true ∨ b.zoneOf a = true := by
  rcases List.suffix_or_suffix_of_suffix (zoneOf_iff.mp ha) (zoneOf_iff.mp hb) with h | h
  · exact Or.inl (zoneOf_iff.mpr h)
  · exact Or.inr (zoneOf_iff.mpr h)

/-! ## Label counts -/

theorem numLabels_le (n : Name) : n.numLabels ≤ n.labels.length := by
  unfold numLabels
  split
  · exact Nat.zero_le _
  · rename_i l ls h
    rw [h]
    split <;> simp

theorem length_le_numLabels (n : Name) : n.labels.length ≤ n.numLabels + 1 := by
  unfold numLabels
  split
  · rename_i h
    simp [h]
  · rename_i l ls h
    rw [h]
    split <;> simp

theorem numLabels_of_not_isWildcard (h : n.isWildcard = false) : n.numLabels = n.labels.length := by
  obtain ⟨ls⟩ := n
  cases ls with
  | nil => rfl
  | cons l ls =>
    have hl : l ≠ star := by simpa [isWildcard] using h
    simp [numLabels, hl]

theorem lowerByte_eq_star_iff : ∀ b : UInt8, lowerByte b = 42 ↔ b = 42 := forall_octet (by decide +kernel)

theorem map_lowerByte_eq_star_iff (l : Label) : l.map lowerByte = star ↔ l = star := by
  cases l with
  | nil => simp [star]
  | cons b bs => simp [star, lowerByte_eq_star_iff]

@[simp] theorem numLabels_toLowercase (n : Name) : n.toLowercase.numLabels = n.numLabels := by
  obtain ⟨ls⟩ := n
  cases ls with
  | nil => rfl
  | cons l ls => simp [numLabels, toLowercase, map_lowerByte_eq_star_iff]

theorem numLabels_congr (h : a.same b = true) : a.numLabels = b.numLabels := by
  rw [← numLabels_toLowercase a, ← numLabels_toLowercase b, same_iff.mp h]

/-! ## The canonical order -/

theorem compareLex_eq_eq_iff {α : Type} {c : α → α → Ordering} (hc : ∀ a b, c a b = .eq ↔ a = b)
    (xs ys : List α) : List.compareLex c xs ys = .eq ↔ xs = ys := by
  induction xs generalizing ys with
  | nil => cases ys <;> simp [List.compareLex]
  | cons x xs ih =>
    cases ys with
    | nil => simp [List.compareLex]
    | cons y ys =>
      rw [List.compareLex_cons_cons, Ordering.then_eq_eq, hc, ih, List.cons.injEq]

theorem cmpLabel_eq_iff (a b : Label) : cmpLabel a b = .eq ↔ a = b :=
  compareLex_eq_eq_iff (fun _ _ => Std.LawfulEqCmp.compare_eq_iff_eq) a b

theorem cmp_eq_iff : a.cmp b = .eq ↔ a.same b = true := by
  rw [cmp, compareLex_eq_eq_iff cmpLabel_eq_iff, List.reverse_inj, same_iff]
  constructor
  · exact congrArg Name.mk
  · exact congrArg Name.labels

theorem transCmp_on {α β : Type} {c : β → β → Ordering} (h : Std.TransCmp c) (f : α → β) :
    Std.TransCmp fun a b => c (f a) (f b) where
  eq_swap := h.eq_swap
  isLE_trans := h.isLE_trans

instance : Std.TransCmp cmp :=
  have : Std.TransCmp cmpLabel := inferInstanceAs (Std.TransCmp (List.compareLex compare))
  have hlabels : Std.TransCmp (List.compareLex cmpLabel) := inferInstance
  transCmp_on hlabels fun n : Name => n.toLowercase.labels.reverse

end Name

end Dnsd.Proto
