/-
# PrefixOrder — lists as paths in a tree, in lexicographic order.

In lexicographic order an ancestor comes before what is below it, and whatever lies between two descendants of
a node is a descendant too (`prefix_of_between`).
-/
import Mathlib.Data.List.Lex
import Mathlib.Order.Lattice

namespace Dnsd.Lib

open List

variable {α : Type} [LinearOrder α] {p a q b : List α}

theorem prefix_lt (h : p <+: q) (hne : p ≠ q) : p < q := by
  obtain ⟨t, rfl⟩ := h
  have ht : t ≠ [] := by
    rintro rfl
    exact hne (append_nil p).symm
  obtain ⟨x, t, rfl⟩ := exists_cons_of_ne_nil ht
  clear hne ht
  induction p with
  | nil => exact nil_lt_cons ..
  | cons y p ih => exact cons_lt_cons_iff.mpr (Or.inr ⟨rfl, ih⟩)

theorem prefix_le (h : p <+: q) : p ≤ q := by
  by_cases heq : p = q
  · exact heq.le
  · exact (prefix_lt h heq).le

theorem prefix_of_strictly_between (ha : p <+: a) (hb : p <+: b) (haq : a < q) (hqb : q < b) : p <+: q := by
  induction p generalizing a b q with
  | nil => exact nil_prefix
  | cons x p ih =>
    obtain ⟨s, rfl⟩ := ha
    obtain ⟨t, rfl⟩ := hb
    cases q with
    | nil => exact absurd haq (not_lt_nil _)
    | cons y q =>
      rw [cons_append, cons_lt_cons_iff] at haq hqb
      rcases haq with hxy | ⟨rfl, haq⟩
      · rcases hqb with hyx | ⟨rfl, _⟩
        · exact absurd hyx (lt_asymm hxy)
        · exact absurd hxy (lt_irrefl _)
      · rcases hqb with hyx | ⟨_, hqb⟩
        · exact absurd hyx (lt_irrefl _)
        · exact cons_prefix_cons.mpr ⟨rfl, ih (prefix_append ..) (prefix_append ..) haq hqb⟩

/-- **The descendants of a node are an interval.** -/
theorem prefix_of_between (ha : p <+: a) (hb : p <+: b) (haq : a ≤ q) (hqb : q ≤ b) : p <+: q := by
  rcases haq.lt_or_eq with haq | rfl
  · rcases hqb.lt_or_eq with hqb | rfl
    · exact prefix_of_strictly_between ha hb haq hqb
    · exact hb
  · exact ha

theorem prefix_of_le_of_le (hpq : p <+: b) (hp : p ≤ q) (hq : q ≤ b) : p <+: q :=
  prefix_of_between (prefix_refl p) hpq hp hq

end Dnsd.Lib
