/-
# Path — paths of a deterministic step relation.

Where every edge climbs and no state has two edges out, two paths from one state are one path followed for
longer and for less long.
-/
import Mathlib.Data.List.Basic

namespace Dnsd.Lib

variable {α ε : Type} {step : α → ε → Prop} {target : ε → α} {a b b' : α} {e : ε} {es es' : List ε}

inductive Path (step : α → ε → Prop) (target : ε → α) : α → List ε → α → Prop
  | nil (a : α) : Path step target a [] a
  | cons {a b : α} {e : ε} {es : List ε} : step a e → Path step target (target e) es b →
      Path step target a (e :: es) b

namespace Path

theorem snoc (h : Path step target a es b) (hstep : step b e) :
    Path step target a (es ++ [e]) (target e) := by
  induction h with
  | nil a => exact .cons hstep (.nil _)
  | cons hs _ ih => exact .cons hs (ih hstep)

theorem end_of_concat (h : Path step target a (es ++ [e]) b) : b = target e := by
  induction es generalizing a with
  | nil =>
    cases h with
    | cons _ hrest =>
      cases hrest
      rfl
  | cons e' es ih =>
    cases h with
    | cons _ hrest => exact ih hrest

theorem to_edge (h : Path step target a es b) (he : e ∈ es) :
    ∃ front c, Path step target a front c ∧ step c e := by
  induction h with
  | nil a => nomatch he
  | @cons a b e' es hs _ ih =>
    rcases List.mem_cons.mp he with rfl | he
    · exact ⟨[], a, .nil a, hs⟩
    · obtain ⟨front, c, hpath, hc⟩ := ih he
      exact ⟨e' :: front, c, .cons hs hpath, hc⟩

theorem mono {step' : α → ε → Prop} (h : Path step target a es b)
    (hstep : ∀ c, ∀ e ∈ es, step c e → step' c e) : Path step' target a es b := by
  induction h with
  | nil a => exact .nil a
  | cons hs _ ih =>
    refine .cons (hstep _ _ (.head _) hs) (ih fun c e he => ?_)
    exact hstep c e (.tail _ he)

section

variable {rank : α → Nat}

theorem length_le (hclimb : ∀ a e, step a e → rank a < rank (target e))
    (h : Path step target a es b) : rank a + es.length ≤ rank b := by
  induction h with
  | nil a => exact Nat.le_refl _
  | cons hs _ ih =>
    have hlt := hclimb _ _ hs
    rw [List.length_cons]
    omega

theorem split (hdet : ∀ a e e', step a e → step a e' → e = e')
    (hclimb : ∀ a e, step a e → rank a < rank (target e)) (h : Path step target a es b)
    (h' : Path step target a es' b') (hle : rank b ≤ rank b') :
    ∃ rest, es' = es ++ rest ∧ Path step target b rest b' := by
  induction h generalizing es' with
  | nil a => exact ⟨es', rfl, h'⟩
  | cons hs hrest ih =>
    cases h' with
    | nil =>
      have hlt := hclimb _ _ hs
      have hlen := length_le hclimb hrest
      omega
    | cons hs' hrest' =>
      cases hdet _ _ _ hs hs'
      obtain ⟨rest, rfl, hpath⟩ := ih hrest' hle
      exact ⟨rest, rfl, hpath⟩

end

theorem eq_nil_of_stuck (h : Path step target a es b) (hstuck : ∀ e, ¬ step a e) : es = [] ∧ b = a := by
  cases h with
  | nil => exact ⟨rfl, rfl⟩
  | cons hs _ => exact absurd hs (hstuck _)

end Path

end Dnsd.Lib
