/-
# Holding — tasks that hold things, and what every interleaving keeps.

What one task holds no other does.  What the unfinished tasks hold together stands beside the state in the
invariant; `Shares.step` and `Shares.drop` are what an operation and an abandoned task do to it, and
`Shares.reach` is the rule for interleavings.
-/
import Mathlib.Data.List.Perm.Basic
import Dnsd.Lib.Contract

namespace Dnsd.Lib.System

open List

variable {ι τ Op : Type} {Res : Op → Type} {σ : Type}

structure Shares (S : System ι Op Res σ) (C : ι → Contract (List τ) Op Res)
    (inv : σ → List τ → Prop) : Prop where
  init : ∀ s, S.init s → inv s []
  env : ∀ s s' f, inv s f → S.env s s' → inv s' f
  step : ∀ i s o r s' h f, inv s (h ++ f) → (C i).pre h o → S.step i s o r s' →
    (C i).post h o r ∧ inv s' ((C i).upd h o r ++ f)
  perm : ∀ s h h', h.Perm h' → inv s h → inv s h'
  drop : ∀ s h f, inv s (h ++ f) → inv s f
  start : ∀ i p, S.start i p → (C i).Safe [] p fun _ _ => True

variable {S : System ι Op Res σ} {C : ι → Contract (List τ) Op Res} {inv : σ → List τ → Prop} {s : σ}
  {ts us : List (ι × Prog Op Res Unit)}

def Holders (C : ι → Contract (List τ) Op Res) (ts : List (ι × Prog Op Res Unit))
    (hs : List (List τ)) : Prop :=
  List.Forall₂ (fun t h => (C t.1).Safe h t.2 fun _ _ => True) ts hs

theorem flatten_middle_perm (hs₁ : List (List τ)) (h : List τ) (hs₂ : List (List τ)) :
    (hs₁ ++ h :: hs₂).flatten.Perm (h ++ (hs₁ ++ hs₂).flatten) := by
  simp only [flatten_append, flatten_cons]
  exact perm_append_comm_assoc _ _ _

theorem Holders.split {t : ι × Prog Op Res Unit} {hs : List (List τ)} (h : Holders C (ts ++ t :: us) hs) :
    ∃ hs₁ g hs₂, hs = hs₁ ++ g :: hs₂ ∧ Holders C ts hs₁ ∧
      ((C t.1).Safe g t.2 fun _ _ => True) ∧ Holders C us hs₂ := by
  induction ts generalizing hs with
  | nil =>
    cases h with
    | @cons _ g _ hs₂ hg h₂ => exact ⟨[], g, hs₂, rfl, .nil, hg, h₂⟩
  | cons u ts ih =>
    cases h with
    | @cons _ g₀ _ rest hg₀ hrest =>
      obtain ⟨hs₁, g, hs₂, rfl, h₁, hg, h₂⟩ := ih hrest
      exact ⟨g₀ :: hs₁, g, hs₂, rfl, .cons hg₀ h₁, hg, h₂⟩

theorem Holders.join {hs₁ hs₂ : List (List τ)} (h₁ : Holders C ts hs₁) (h₂ : Holders C us hs₂) :
    Holders C (ts ++ us) (hs₁ ++ hs₂) := by
  induction h₁ with
  | nil => exact h₂
  | cons hg _ ih => exact .cons hg ih

/-- **The rule for interleavings of tasks that hold things.**  In every reachable state each unfinished
task holds something with which it can go on safely, and the state with all they hold satisfies the
invariant. -/
theorem Shares.reach (hS : S.Shares C inv) (h : S.Reach s ts) :
    ∃ hs, Holders C ts hs ∧ inv s hs.flatten := by
  induction h with
  | init h => exact ⟨[], .nil, hS.init _ h⟩
  | env _ he ih =>
    obtain ⟨hs, hheld, hinv⟩ := ih
    exact ⟨hs, hheld, hS.env _ _ _ hinv he⟩
  | spawn _ hp ih =>
    obtain ⟨hs, hheld, hinv⟩ := ih
    exact ⟨[] :: hs, .cons (hS.start _ _ hp) hheld, hinv⟩
  | @step s s' ts us i o k r _ hs ih =>
    obtain ⟨held, hheld, hinv⟩ := ih
    obtain ⟨hs₁, g, hs₂, rfl, h₁, hsafe, h₂⟩ := hheld.split
    have hfront := hS.perm _ _ _ (flatten_middle_perm hs₁ g hs₂) hinv
    obtain ⟨hpost, hinv'⟩ := hS.step i s o r s' g _ hfront hsafe.1 hs
    refine ⟨hs₁ ++ (C i).upd g o r :: hs₂, h₁.join (.cons (hsafe.2 r hpost) h₂), ?_⟩
    exact hS.perm _ _ _ (flatten_middle_perm hs₁ _ hs₂).symm hinv'
  | drop _ ih =>
    obtain ⟨held, hheld, hinv⟩ := ih
    obtain ⟨hs₁, g, hs₂, rfl, h₁, _, h₂⟩ := hheld.split
    have hfront := hS.perm _ _ _ (flatten_middle_perm hs₁ g hs₂) hinv
    exact ⟨hs₁ ++ hs₂, h₁.join h₂, hS.drop _ _ _ hfront⟩

theorem Shares.reach_inv (hS : S.Shares C inv) (h : S.Reach s ts) : inv s [] := by
  obtain ⟨hs, _, hinv⟩ := hS.reach h
  apply hS.drop s hs.flatten []
  rwa [append_nil]

theorem Shares.reach_pre (hS : S.Shares C inv) (h : S.Reach s ts) {i : ι} {o : Op}
    {k : Res o → Prog Op Res Unit} (ht : (i, .op o k) ∈ ts) :
    ∃ g f, (C i).pre g o ∧ inv s (g ++ f) := by
  obtain ⟨held, hheld, hinv⟩ := hS.reach h
  obtain ⟨ts₁, us, rfl⟩ := append_of_mem ht
  obtain ⟨hs₁, g, hs₂, rfl, _, hsafe, _⟩ := hheld.split
  exact ⟨g, (hs₁ ++ hs₂).flatten, hsafe.1, hS.perm _ _ _ (flatten_middle_perm hs₁ g hs₂) hinv⟩

end Dnsd.Lib.System
