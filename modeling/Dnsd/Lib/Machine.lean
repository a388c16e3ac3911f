/-
# Machine — runs of a machine, and conditions on the events of a run.

A machine says what an event does to a state, or that it cannot happen there.  `Along` is a condition on every
event of a run in its state, and `run_induction` the rule for what such runs keep.
-/
import Mathlib.Logic.Basic

namespace Dnsd.Lib

open List

/-- What an event does to a state; `none` when it cannot happen there. -/
abbrev Machine (σ ε : Type) := σ → ε → Option σ

namespace Machine

variable {σ ε : Type}

def run (M : Machine σ ε) : σ → List ε → Option σ
  | s, [] => some s
  | s, e :: es => (M s e).bind fun s' => run M s' es

/-- Every event satisfies the condition in the state in which it happens. -/
def Along (M : Machine σ ε) (ok : σ → ε → Prop) : σ → List ε → Prop
  | _, [] => True
  | s, e :: es => ok s e ∧ ∀ s', M s e = some s' → Along M ok s' es

variable {M : Machine σ ε} {ok : σ → ε → Prop} {s s' : σ} {e : ε} {es es' : List ε}

@[simp] theorem run_nil : run M s [] = some s := rfl

theorem run_cons : run M s (e :: es) = some s' ↔ ∃ s₁, M s e = some s₁ ∧ run M s₁ es = some s' :=
  Option.bind_eq_some_iff

theorem run_append :
    run M s (es ++ es') = some s' ↔ ∃ s₁, run M s es = some s₁ ∧ run M s₁ es' = some s' := by
  induction es generalizing s with
  | nil => simp
  | cons e es ih =>
    simp only [cons_append, run_cons, ih]
    constructor
    · rintro ⟨s₁, h₁, s₂, h₂, h₃⟩
      exact ⟨s₂, ⟨s₁, h₁, h₂⟩, h₃⟩
    · rintro ⟨s₂, ⟨s₁, h₁, h₂⟩, h₃⟩
      exact ⟨s₁, h₁, s₂, h₂, h₃⟩

theorem run_concat {s₁ : σ} (h : run M s es = some s₁) (he : M s₁ e = some s') :
    run M s (es ++ [e]) = some s' :=
  run_append.mpr ⟨s₁, h, run_cons.mpr ⟨s', he, rfl⟩⟩

theorem Along.cons {s₁ : σ} (h : M s e = some s₁) (hok : ok s e) (hrest : Along M ok s₁ es) :
    Along M ok s (e :: es) := by
  refine ⟨hok, fun s₂ h₂ => ?_⟩
  cases h.symm.trans h₂
  exact hrest

theorem Along.and {ok' : σ → ε → Prop} (h : Along M ok s es) (h' : Along M ok' s es) :
    Along M (fun s e => ok s e ∧ ok' s e) s es := by
  induction es generalizing s with
  | nil => trivial
  | cons e es ih => exact ⟨⟨h.1, h'.1⟩, fun s₁ hs => ih (h.2 s₁ hs) (h'.2 s₁ hs)⟩

theorem along_append : Along M ok s (es ++ es') ↔
    Along M ok s es ∧ ∀ s₁, run M s es = some s₁ → Along M ok s₁ es' := by
  induction es generalizing s with
  | nil => simp [Along]
  | cons e es ih =>
    simp only [cons_append, Along, run_cons, ih]
    constructor
    · rintro ⟨hok, h⟩
      refine ⟨⟨hok, fun s₁ hs => (h s₁ hs).1⟩, ?_⟩
      rintro s₂ ⟨s₁, hs, hrun⟩
      exact (h s₁ hs).2 s₂ hrun
    · rintro ⟨⟨hok, h⟩, hrest⟩
      exact ⟨hok, fun s₁ hs => ⟨h s₁ hs, fun s₂ hrun => hrest s₂ ⟨s₁, hs, hrun⟩⟩⟩

theorem along_iff : Along M ok s es ↔
    ∀ before e after s₁, es = before ++ e :: after → run M s before = some s₁ → ok s₁ e := by
  constructor
  · rintro h before e after s₁ rfl hrun
    exact ((along_append.mp h).2 s₁ hrun).1
  · intro h
    induction es generalizing s with
    | nil => trivial
    | cons e es ih =>
      refine ⟨h [] e es s rfl rfl, fun s₁ hs => ih ?_⟩
      rintro before e' after s₂ rfl hrun
      exact h (e :: before) e' after s₂ rfl (run_cons.mpr ⟨s₁, hs, hrun⟩)

theorem along_congr {ok' : σ → ε → Prop} {I : σ → Prop} (hs : I s)
    (hiff : ∀ s e, I s → (ok s e ↔ ok' s e))
    (hstep : ∀ s e s', I s → ok s e → M s e = some s' → I s') :
    Along M ok s es ↔ Along M ok' s es := by
  induction es generalizing s with
  | nil => exact Iff.rfl
  | cons e es ih =>
    constructor
    · rintro ⟨hok, h⟩
      exact ⟨(hiff s e hs).mp hok, fun s₁ h₁ => (ih (hstep s e s₁ hs hok h₁)).mp (h s₁ h₁)⟩
    · rintro ⟨hok', h⟩
      have hok := (hiff s e hs).mpr hok'
      exact ⟨hok, fun s₁ h₁ => (ih (hstep s e s₁ hs hok h₁)).mpr (h s₁ h₁)⟩

/-- **The rule for runs.**  What holds at the start and is kept by every event that satisfies the
condition holds at the end of every run along which the condition holds. -/
theorem run_induction {I : List ε → σ → Prop} (hstart : I [] s)
    (hstep : ∀ h s e s', I h s → ok s e → M s e = some s' → I (h ++ [e]) s')
    (hok : Along M ok s es) (hrun : run M s es = some s') : I es s' := by
  -- The events before `s` are a parameter of the induction.
  suffices ∀ (h : List ε) (s : σ), I h s → Along M ok s es → run M s es = some s' →
      I (h ++ es) s' from this [] s hstart hok hrun
  clear hstart hok hrun
  induction es with
  | nil =>
    intro h s hI _ hrun
    cases hrun
    rwa [append_nil]
  | cons e es ih =>
    intro h s hI hok hrun
    obtain ⟨s₁, hs, hrest⟩ := run_cons.mp hrun
    have hnext := ih (h ++ [e]) s₁ (hstep h s e s₁ hI hok.1 hs) (hok.2 s₁ hs) hrest
    rwa [append_assoc, singleton_append] at hnext

end Machine

end Dnsd.Lib
