/-
# Commute — steps that may be taken in any order that is possible.

Taking a ready label's step one place earlier ends in a state that cannot be told from the old one (`swap`).
Then every order in which each label is ready at its turn has a run with such an end.
-/
import Mathlib.Data.List.Perm.Basic

namespace Dnsd.Lib

variable {σ ι : Type}

inductive Steps (Step : σ → ι → σ → Prop) : σ → List ι → σ → Prop
  | nil {s : σ} : Steps Step s [] s
  | cons {s s₁ s' : σ} {a : ι} {as : List ι} : Step s a s₁ → Steps Step s₁ as s' → Steps Step s (a :: as) s'

theorem steps_append {Step : σ → ι → σ → Prop} {s s' : σ} {as bs : List ι} :
    Steps Step s (as ++ bs) s' ↔ ∃ t, Steps Step s as t ∧ Steps Step t bs s' := by
  induction as generalizing s with
  | nil =>
    constructor
    · exact fun h => ⟨s, .nil, h⟩
    · rintro ⟨t, hnil, h⟩
      cases hnil
      exact h
  | cons a as ih =>
    constructor
    · intro h
      cases h with
      | cons ha hrest =>
        obtain ⟨t, has, hbs⟩ := ih.mp hrest
        exact ⟨t, .cons ha has, hbs⟩
    · rintro ⟨t, h, hbs⟩
      cases h with
      | cons ha has => exact .cons ha (ih.mpr ⟨t, has, hbs⟩)

def Orderly (Step : σ → ι → σ → Prop) (ready : σ → ι → Prop) : σ → List ι → Prop
  | _, [] => True
  | s, a :: as => ready s a ∧ ∀ s₁, Step s a s₁ → Orderly Step ready s₁ as

structure Commutes (Step : σ → ι → σ → Prop) (ready : σ → ι → Prop) (sim : σ → σ → Prop) : Prop where
  refl : ∀ s, sim s s
  trans : ∀ {s t u}, sim s t → sim t u → sim s u
  step : ∀ {s t s₁ a}, sim s t → Step s a s₁ → ∃ t₁, Step t a t₁ ∧ sim s₁ t₁
  stays : ∀ {s s₁ a b}, ready s b → Step s a s₁ → ready s₁ b
  swap : ∀ {s s₁ s₂ a b}, Step s a s₁ → Step s₁ b s₂ → ready s b →
    ∃ t₁ t₂, Step s b t₁ ∧ Step t₁ a t₂ ∧ sim s₂ t₂

section

variable {Step : σ → ι → σ → Prop} {ready : σ → ι → Prop} {sim : σ → σ → Prop} {s s' t : σ}
  {as bs : List ι} {b : ι}

theorem Commutes.steps (h : Commutes Step ready sim) (hst : sim s t) (hrun : Steps Step s as s') :
    ∃ t', Steps Step t as t' ∧ sim s' t' := by
  induction hrun generalizing t with
  | nil => exact ⟨t, .nil, hst⟩
  | cons ha _ ih =>
    obtain ⟨t₁, hb, hsim⟩ := h.step hst ha
    obtain ⟨t', hrun', hend⟩ := ih hsim
    exact ⟨t', .cons hb hrun', hend⟩

theorem Commutes.toFront (h : Commutes Step ready sim) (hb : ready s b)
    (hrun : Steps Step s (as ++ b :: bs) s') :
    ∃ t', Steps Step s (b :: (as ++ bs)) t' ∧ sim s' t' := by
  induction as generalizing s with
  | nil => exact ⟨s', hrun, h.refl s'⟩
  | cons a as ih =>
    cases hrun with
    | cons ha hrest =>
      obtain ⟨t', hfront, hsim⟩ := ih (h.stays hb ha) hrest
      cases hfront with
      | cons hb₁ hrest₁ =>
        obtain ⟨t₁, t₂, hb₀, ha₁, hswap⟩ := h.swap ha hb₁ hb
        obtain ⟨u', hrest₂, hend⟩ := h.steps hswap hrest₁
        exact ⟨u', .cons hb₀ (.cons ha₁ hrest₂), h.trans hsim hend⟩

theorem Commutes.perm (h : Commutes Step ready sim) (hrun : Steps Step s as s')
    (hperm : as.Perm bs) (hbs : Orderly Step ready s bs) :
    ∃ t', Steps Step s bs t' ∧ sim s' t' := by
  induction bs generalizing s as s' with
  | nil =>
    cases hperm.eq_nil
    exact ⟨s', hrun, h.refl s'⟩
  | cons b bs ih =>
    obtain ⟨hready, hlater⟩ := hbs
    obtain ⟨l, r, rfl⟩ := List.append_of_mem (hperm.mem_iff.mpr (.head _))
    obtain ⟨t', hfront, hsim⟩ := h.toFront hready hrun
    cases hfront with
    | cons hb hrest =>
      have hrest' := (List.perm_middle.symm.trans hperm).cons_inv
      obtain ⟨u', hrun', hend⟩ := ih hrest hrest' (hlater _ hb)
      exact ⟨u', .cons hb hrun', h.trans hsim hend⟩

end

end Dnsd.Lib
