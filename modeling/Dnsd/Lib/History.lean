/-
# History — programs that remember all they have done.

The contract `recording` remembers each operation with its answer, so that `Safe` can compare two points of a
run.  What a program adds to the record does not depend on what was there (`Safe.frame`).  `monitoring` keeps
a summary of the record and an invariant of it.
-/
import Dnsd.Lib.Runs

namespace Dnsd.Lib.Contract

open Prog List

variable {Op : Type} {Res : Op → Type} {α : Type} {pre pre' : Op → Prop}

def recording (Res : Op → Type) (pre : Op → Prop) : Contract (Trace Res) Op Res where
  pre _ o := pre o
  post _ _ _ := True
  upd g o r := g ++ [⟨o, r⟩]

theorem recording_monotone : (recording Res pre).Monotone (· ⊆ ·) where
  refl g := List.Subset.refl g
  trans h h' := List.Subset.trans h h'
  grow _ _ _ := subset_append_left ..
  pre _ h := h
  post _ _ := trivial
  upd _ _ h := append_subset.mpr ⟨subset_append_of_subset_left _ h, subset_append_right ..⟩

variable {p : Prog Op Res α} {g : Trace Res} {Q : Trace Res → α → Prop}

theorem Safe.extends (h : (recording Res pre).Safe g p Q) :
    (recording Res pre).Safe g p fun g' a => Q g' a ∧ g <+: g' := by
  induction p generalizing g with
  | ret a => exact ⟨h, prefix_refl g⟩
  | op o k ih =>
    refine ⟨h.1, fun r hr => (ih r (h.2 r hr)).mono fun g' a ha => ?_⟩
    exact ⟨ha.1, (prefix_append g _).trans ha.2⟩

theorem recording_extends (p : Prog Op Res α) (g : Trace Res) :
    (recording Res fun _ => True).Safe g p fun g' _ => g <+: g' := by
  have hall : (recording Res fun _ => True).Safe g p fun _ _ => True := by
    induction p generalizing g with
    | ret a => trivial
    | op o k ih => exact ⟨trivial, fun r _ => ih r _⟩
  exact hall.extends.mono fun _ _ h => h.2

/-- **Frame.**  What is shown from the empty record holds, behind any other record, of the part that the
program adds; and everything in that part is permitted. -/
theorem Safe.frame (hpre : ∀ o, pre o → pre' o) (h : (recording Res pre).Safe [] p Q)
    (g : Trace Res) :
    (recording Res pre').Safe g p fun g' a =>
      ∃ t, g' = g ++ t ∧ (∀ x ∈ t, pre x.1) ∧ Q t a := by
  suffices ∀ s : Trace Res, (∀ x ∈ s, pre x.1) → (recording Res pre).Safe s p Q →
      (recording Res pre').Safe (g ++ s) p fun g' a =>
        ∃ t, g' = g ++ t ∧ (∀ x ∈ t, pre x.1) ∧ Q t a by
    have := this [] (fun _ hx => nomatch hx) h
    rwa [append_nil] at this
  clear h
  induction p with
  | ret a => exact fun s hs h => ⟨s, rfl, hs, h⟩
  | op o k ih =>
    intro s hs h
    refine ⟨hpre o h.1, fun r hr => ?_⟩
    have hs' : ∀ x ∈ s ++ [⟨o, r⟩], pre x.1 := by
      intro x hx
      rcases mem_append.mp hx with hx | hx
      · exact hs x hx
      · rw [mem_singleton.mp hx]
        exact h.1
    have := ih r (s ++ [⟨o, r⟩]) hs' (h.2 r hr)
    rwa [← append_assoc] at this

theorem Safe.runs {ok : (o : Op) → Res o → Prop} {t : Trace Res} {a : α}
    (h : (recording Res pre).Safe g p Q) (hr : p.Runs ok t (some a)) : Q (g ++ t) a := by
  generalize hres : some a = res at hr
  induction hr generalizing g with
  | stop p => nomatch hres
  | ret b =>
    cases hres
    rwa [append_nil]
  | @op o k t r x hx _ ih =>
    have hrest : Q ((g ++ [⟨o, x⟩]) ++ t) a := ih (h.2 x trivial) hres
    rwa [append_assoc, singleton_append] at hrest

/-! ## Monitors -/

section Monitor

variable {γ : Type} {step : γ → (o : Op) → Res o → γ} {ok : (o : Op) → Res o → Prop} {inv : γ → Prop}

def monitoring (step : γ → (o : Op) → Res o → γ) (ok : (o : Op) → Res o → Prop) (inv : γ → Prop) :
    Contract γ Op Res where
  pre g o := ∀ r, ok o r → inv (step g o r)
  post _ o r := ok o r
  upd := step

theorem Safe.monitored {g : γ} {Q : γ → α → Prop} {t : Trace Res} {res : Option α}
    (h : (monitoring step ok inv).Safe g p Q) (hg : inv g) (hr : p.Runs ok t res) :
    inv (t.foldl (fun g x => step g x.1 x.2) g) := by
  induction hr generalizing g with
  | stop p => exact hg
  | ret a => exact hg
  | op x hx _ ih => exact ih (h.2 x hx) (h.1 x hx)

theorem Safe.concluded {g : γ} {Q : γ → α → Prop} {t : Trace Res} {a : α}
    (h : (monitoring step ok inv).Safe g p Q) (hr : p.Runs ok t (some a)) :
    Q (t.foldl (fun g x => step g x.1 x.2) g) a := by
  generalize hres : some a = res at hr
  induction hr generalizing g with
  | stop p => nomatch hres
  | ret b =>
    cases hres
    exact h
  | op x hx _ ih => exact ih (h.2 x hx) hres

end Monitor

end Dnsd.Lib.Contract
