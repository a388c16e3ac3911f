/-
# Lines — lines, comments and fields of a text.

A text is cut into lines at an end mark, a comment runs from its mark to the end of the line, and the fields of
a line stand between separators.  Changing a comment has no effect beyond its line (`bareLines_comment`), and
fields written out with single separators are read back (`fields_spaced`).
-/
import Mathlib.Data.List.Basic

namespace Dnsd.Lib

open List

variable {α : Type}

/-! ## Lines and comments -/

section

variable [DecidableEq α] {eol mark : α} {text text' comment : List α}

def bare (mark : α) (line : List α) : List α := line.takeWhile (· ≠ mark)

def bareLines (eol mark : α) (text : List α) : List (List α) := (text.splitOn eol).map (bare mark)

theorem bare_cons (x : α) (line : List α) :
    bare mark (x :: line) = if x = mark then [] else x :: bare mark line := by
  by_cases hx : x = mark <;> simp [bare, hx]

theorem bare_of_not_mem {line : List α} (h : mark ∉ line) : bare mark line = line := by
  induction line with
  | nil => rfl
  | cons x line ih =>
    obtain ⟨hx, hrest⟩ := not_or.mp (mt mem_cons.mpr h)
    rw [bare_cons, if_neg (Ne.symm hx), ih hrest]

@[simp] theorem bareLines_nil : bareLines eol mark [] = [[]] := rfl

theorem bareLines_cons (x : α) (text : List α) :
    bareLines eol mark (x :: text) =
      if x = eol then [] :: bareLines eol mark text
      else (bareLines eol mark text).modifyHead fun line => if x = mark then [] else x :: line := by
  unfold bareLines
  rw [splitOn_cons_eq_if_modifyHead]
  by_cases hx : x = eol
  · rw [if_pos (beq_iff_eq.mpr hx), if_pos hx]
    rfl
  rw [if_neg (mt beq_iff_eq.mp hx), if_neg hx]
  cases text.splitOn eol with
  | nil => rfl
  | cons line rest =>
    show bare mark (x :: line) :: _ = _ :: _
    rw [bare_cons]

theorem bareLines_append_congr (pre : List α) (h : bareLines eol mark text = bareLines eol mark text') :
    bareLines eol mark (pre ++ text) = bareLines eol mark (pre ++ text') := by
  induction pre with
  | nil => exact h
  | cons x pre ih => rw [cons_append, cons_append, bareLines_cons, bareLines_cons, ih]

theorem bareLines_blank (h : eol ∉ comment) (text : List α) :
    (bareLines eol mark (comment ++ text)).modifyHead (fun _ => []) =
      (bareLines eol mark text).modifyHead fun _ => [] := by
  induction comment with
  | nil => rfl
  | cons x comment ih =>
    obtain ⟨hx, hrest⟩ := not_or.mp (mt mem_cons.mpr h)
    rw [cons_append, bareLines_cons, if_neg (Ne.symm hx), modifyHead_modifyHead]
    exact ih hrest

/-- **A comment counts for nothing, up to the line end.** -/
theorem bareLines_comment (hmark : mark ≠ eol) (h : eol ∉ comment) (text : List α) :
    bareLines eol mark (mark :: (comment ++ text)) = (bareLines eol mark text).modifyHead fun _ => [] := by
  rw [bareLines_cons, if_neg hmark]
  simp only [if_true]
  exact bareLines_blank h text

theorem bareLines_ended (h : ∀ x ∈ text.head?, x = eol) :
    (bareLines eol mark text).modifyHead (fun _ => []) = bareLines eol mark text := by
  cases text with
  | nil => rfl
  | cons x text =>
    rw [bareLines_cons, if_pos (h x rfl)]
    rfl

theorem bareLines_lines {lines : List (List α)} (h : ∀ line ∈ lines, eol ∉ line) :
    bareLines eol mark (lines.flatMap (· ++ [eol])) = lines.map (bare mark) ++ [[]] := by
  induction lines with
  | nil => rfl
  | cons line lines ih =>
    have hrest := ih fun l hl => h l (.tail _ hl)
    rw [flatMap_cons, append_assoc, singleton_append]
    unfold bareLines at hrest ⊢
    rw [splitOn_append_cons_self_of_not_mem (h line mem_cons_self), map_cons, hrest]
    rfl

end

/-! ## Fields -/

section

variable {sep : α → Bool} {field : List α}

def fields (sep : α → Bool) (line : List α) : List (List α) := (line.splitOnP sep).filter (!·.isEmpty)

structure IsField (sep : α → Bool) (field : List α) : Prop where
  ne_nil : field ≠ []
  unseparated : ∀ x ∈ field, sep x = false

theorem fields_single (h : IsField sep field) : fields sep field = [field] := by
  unfold fields
  rw [splitOnP_eq_singleton h.unseparated]
  simp [h.ne_nil]

theorem fields_cons {s : α} (h : IsField sep field) (hs : sep s = true) (line : List α) :
    fields sep (field ++ s :: line) = field :: fields sep line := by
  unfold fields
  rw [splitOnP_append_cons_of_forall_mem h.unseparated s hs]
  simp [h.ne_nil]

def spaced (cells : List (List α × α)) (last : List α) : List α :=
  cells.flatMap (fun cell => cell.1 ++ [cell.2]) ++ last

theorem fields_spaced {cells : List (List α × α)}
    (hcells : ∀ cell ∈ cells, IsField sep cell.1 ∧ sep cell.2 = true) (hlast : IsField sep field) :
    fields sep (spaced cells field) = cells.map Prod.fst ++ [field] := by
  induction cells with
  | nil => exact fields_single hlast
  | cons cell cells ih =>
    obtain ⟨hcell, hs⟩ := hcells cell mem_cons_self
    have hrest := ih fun c hc => hcells c (.tail _ hc)
    have hshape : spaced (cell :: cells) field = cell.1 ++ cell.2 :: spaced cells field := by
      simp [spaced]
    rw [hshape, fields_cons hcell hs, hrest]
    rfl

theorem mem_spaced {cells : List (List α × α)} {x : α} (h : x ∈ spaced cells field) :
    (∃ cell ∈ cells, x ∈ cell.1 ∨ x = cell.2) ∨ x ∈ field := by
  simpa [spaced] using h

end

end Dnsd.Lib
