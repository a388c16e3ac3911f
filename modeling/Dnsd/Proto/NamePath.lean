/-
# NamePath — names as paths from the root.

`path` lists a name's labels from the right and as numbers: the canonical order of names is the lexicographic
order of paths (`cmp_lt_iff`), and `zoneOf` the prefix relation (`zoneOf_iff_path`).
-/
import Dnsd.Lib.PrefixOrder
import Dnsd.Proto.Name

namespace Dnsd.Proto

def ordinals (octets : List UInt8) : List Nat := octets.map UInt8.toNat

theorem ordinals_inj {a b : List UInt8} : ordinals a = ordinals b ↔ a = b :=
  List.map_inj_right fun _ _ => UInt8.toNat_inj.mp

theorem compareLex_iff {α β : Type} [LinearOrder β] {c : α → α → Ordering} {f : α → β}
    (hlt : ∀ a b, c a b = .lt ↔ f a < f b) (heq : ∀ a b, c a b = .eq ↔ f a = f b) (xs ys : List α) :
    (List.compareLex c xs ys = .lt ↔ xs.map f < ys.map f) ∧
      (List.compareLex c xs ys = .eq ↔ xs.map f = ys.map f) := by
  induction xs generalizing ys with
  | nil =>
    cases ys with
    | nil => simp [List.compareLex]
    | cons y ys => simp [List.compareLex]
  | cons x xs ih =>
    cases ys with
    | nil => simp [List.compareLex]
    | cons y ys =>
      rw [List.compareLex_cons_cons, Ordering.then_eq_lt, Ordering.then_eq_eq, hlt, heq, (ih ys).1,
        (ih ys).2]
      simp [List.cons_lt_cons_iff]

theorem compare_octet_lt_iff (a b : UInt8) : compare a b = .lt ↔ a.toNat < b.toNat := by
  rw [Std.compare_eq_lt, UInt8.lt_iff_toNat_lt]

theorem compare_octet_eq_iff (a b : UInt8) : compare a b = .eq ↔ a.toNat = b.toNat := by
  rw [Std.LawfulEqCmp.compare_eq_iff_eq, UInt8.toNat_inj]

theorem compareLex_octets_iff (a b : List UInt8) :
    (List.compareLex compare a b = .lt ↔ ordinals a < ordinals b) ∧
      (List.compareLex compare a b = .eq ↔ ordinals a = ordinals b) :=
  compareLex_iff compare_octet_lt_iff compare_octet_eq_iff a b

namespace Name

def path (n : Name) : List (List Nat) := n.toLowercase.labels.reverse.map ordinals

theorem path_eq_iff {a b : Name} : a.path = b.path ↔ a.same b = true := by
  unfold path
  rw [List.map_inj_right fun _ _ => ordinals_inj.mp, List.reverse_inj, same_iff]
  exact ⟨congrArg Name.mk, congrArg Name.labels⟩

theorem zoneOf_iff_path {z n : Name} : z.zoneOf n = true ↔ z.path <+: n.path := by
  rw [zoneOf_iff]
  unfold path
  rw [List.prefix_map_iff_of_injective fun _ _ => ordinals_inj.mp, List.reverse_prefix]

theorem cmp_lt_iff {a b : Name} : a.cmp b = .lt ↔ a.path < b.path :=
  (compareLex_iff (fun a b => (compareLex_octets_iff a b).1) (fun a b => (compareLex_octets_iff a b).2)
    a.toLowercase.labels.reverse b.toLowercase.labels.reverse).1

@[simp] theorem path_toLowercase (n : Name) : n.toLowercase.path = n.path := path_eq_iff.mpr (by simp)

@[simp] theorem length_path (n : Name) : n.path.length = n.labels.length := by
  simp [path]

@[simp] theorem path_root : root.path = [] := rfl

theorem path_cons (l : Label) (ls : List Label) :
    path ⟨l :: ls⟩ = path ⟨ls⟩ ++ [ordinals (l.map lowerByte)] := by
  simp [path, toLowercase]

def starStep : List Nat := ordinals star

theorem path_star (n : Name) : path ⟨star :: n.labels⟩ = n.path ++ [starStep] := path_cons _ _

theorem path_trimTo (n : Name) (k : Nat) : (n.trimTo k).path = n.path.take k := by
  unfold trimTo
  split
  · rename_i h
    rw [List.take_of_length_le (by rw [length_path]; omega)]
  rename_i h
  unfold path toLowercase
  simp only [List.map_drop, List.map_reverse, List.map_map]
  rw [List.take_reverse]
  simp

end Name

end Dnsd.Proto
