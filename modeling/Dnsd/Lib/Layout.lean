/-
# Layout — pieces laid end to end.

A list of pieces, each with its own elements, laid one after the other at the start of a longer list.
`offset` is the position at which a piece starts; a piece that is laid can be read back there
(`drop_offset`).  A list splits into pieces and a rest in one way if no piece starts another (`Splits.unique`).
-/
import Mathlib.Data.List.Basic

namespace Dnsd.Lib

open List

variable {α β : Type} {f : α → List β} {l : List α} {i j : Nat} {a : α}

/-- The position at which piece `i` starts. -/
def offset (f : α → List β) (l : List α) (i : Nat) : Nat := ((l.take i).flatMap f).length

theorem offset_succ (h : l[i]? = some a) : offset f l (i + 1) = offset f l i + (f a).length := by
  unfold offset
  rw [take_add_one, h]
  simp

theorem offset_le (f : α → List β) (l : List α) (h : i ≤ j) : offset f l i ≤ offset f l j := by
  unfold offset
  rw [← Nat.add_sub_cancel' h, take_add, flatMap_append, length_append]
  exact Nat.le_add_right ..

theorem offset_add_le (h : l[i]? = some a) (hij : i < j) : offset f l i + (f a).length ≤ offset f l j := by
  rw [← offset_succ h]
  exact offset_le f l hij

theorem drop_offset (h : l[i]? = some a) {whole : List β} (hl : l.flatMap f <+: whole) :
    f a <+: whole.drop (offset f l i) := by
  obtain ⟨rest, rfl⟩ := hl
  obtain ⟨hi, rfl⟩ := List.getElem?_eq_some_iff.mp h
  have hsplit : l.flatMap f = (l.take i).flatMap f ++ (f l[i] ++ (l.drop (i + 1)).flatMap f) := by
    conv_lhs => rw [← take_append_drop i l, drop_eq_getElem_cons hi]
    rw [flatMap_append, flatMap_cons]
  unfold offset
  rw [hsplit, append_assoc, drop_left]
  exact ⟨_, (append_assoc ..).symm⟩

/-! ## Splitting -/

/-- A list is the pieces `l`, all of them `ok`, and then `rest`, which starts with no such piece. -/
def Splits (f : α → List β) (ok : α → Prop) (rest : List β) : List α → List β → Prop
  | [], whole => whole = rest ∧ ∀ a, ok a → ¬ f a <+: rest
  | a :: l, whole => ok a ∧ ∃ whole', whole = f a ++ whole' ∧ Splits f ok rest l whole'

variable {ok : α → Prop} {rest rest' whole : List β} {l' : List α}

theorem exists_splits (hpos : ∀ a, ok a → f a ≠ []) (whole : List β) : ∃ l rest, Splits f ok rest l whole := by
  induction hn : whole.length using Nat.strongRecOn generalizing whole with
  | ind n ih =>
    by_cases h : ∃ a, ok a ∧ f a <+: whole
    · obtain ⟨a, ha, whole', rfl⟩ := h
      have hlt : whole'.length < n := by
        have := length_pos_iff.mpr (hpos a ha)
        rw [← hn, length_append]
        omega
      obtain ⟨l, rest, hsplit⟩ := ih _ hlt whole' rfl
      exact ⟨a :: l, rest, ha, whole', rfl, hsplit⟩
    · exact ⟨[], whole, rfl, fun a ha hp => h ⟨a, ha, hp⟩⟩

theorem Splits.length_le (hpos : ∀ a, ok a → f a ≠ []) (h : Splits f ok rest l whole) : l.length ≤ whole.length := by
  induction l generalizing whole with
  | nil => exact Nat.zero_le _
  | cons a l ih =>
    obtain ⟨ha, whole', rfl, hl⟩ := h
    have hle := ih hl
    have := length_pos_iff.mpr (hpos a ha)
    rw [length_append, length_cons]
    omega

theorem Splits.unique (hf : ∀ {a b whole}, ok a → ok b → f a <+: whole → f b <+: whole → a = b)
    (h : Splits f ok rest l whole) (h' : Splits f ok rest' l' whole) : l' = l ∧ rest' = rest := by
  induction l generalizing l' whole with
  | nil =>
    obtain ⟨rfl, hno⟩ := h
    cases l' with
    | nil => exact ⟨rfl, h'.1.symm⟩
    | cons b l' =>
      obtain ⟨hb, _, rfl, _⟩ := h'
      exact absurd (prefix_append ..) (hno b hb)
  | cons a l ih =>
    obtain ⟨ha, whole', rfl, hl⟩ := h
    cases l' with
    | nil => exact absurd (h'.1 ▸ prefix_append ..) (h'.2 a ha)
    | cons b l' =>
      obtain ⟨hb, _, heq, hl'⟩ := h'
      obtain rfl := hf ha hb (prefix_append ..) ⟨_, heq.symm⟩
      obtain rfl := append_cancel_left heq
      obtain ⟨rfl, rfl⟩ := ih hl hl'
      exact ⟨rfl, rfl⟩

end Dnsd.Lib
