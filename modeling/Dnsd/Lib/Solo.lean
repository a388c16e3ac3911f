/-
# Solo — a program alone with its state.

`RunsOn` is a run of one program from a state to its end while nobody else is at work.  `Lands` is total
correctness for such runs, by recursion on the program.
-/
import Dnsd.Lib.Prog

namespace Dnsd.Lib.Prog

variable {Op : Type} {Res : Op → Type} {σ α β : Type}

/-- `p.RunsOn step s a s'`: from the state `s` the program ends with the result `a` in the state `s'`. -/
inductive RunsOn (step : σ → (o : Op) → Res o → σ → Prop) : Prog Op Res α → σ → α → σ → Prop
  | ret (a : α) (s : σ) : RunsOn step (.ret a) s a s
  | op {o : Op} {k : Res o → Prog Op Res α} {s s' s'' : σ} {a : α} (r : Res o) :
      step s o r s' → RunsOn step (k r) s' a s'' → RunsOn step (.op o k) s a s''

def Lands (step : σ → (o : Op) → Res o → σ → Prop) : Prog Op Res α → σ → (α → σ → Prop) → Prop
  | .ret a, s, Q => Q a s
  | .op o k, s, Q => (∃ r s', step s o r s') ∧ ∀ r s', step s o r s' → Lands step (k r) s' Q

variable {step : σ → (o : Op) → Res o → σ → Prop} {s : σ} {Q : α → σ → Prop} {f : α → Prog Op Res β}
  {p : Prog Op Res α}

theorem Lands.of_runsOn {a : α} {s' : σ} (h : p.Lands step s Q) (hrun : p.RunsOn step s a s') : Q a s' := by
  induction hrun with
  | ret a s => exact h
  | op r hstep _ ih => exact ih (h.2 r _ hstep)

theorem Lands.exists_runsOn (h : p.Lands step s Q) : ∃ a s', p.RunsOn step s a s' := by
  induction p generalizing s with
  | ret a => exact ⟨a, s, .ret a s⟩
  | op o k ih =>
    obtain ⟨⟨r, s', hstep⟩, hall⟩ := h
    obtain ⟨a, s'', hrun⟩ := ih r (hall r s' hstep)
    exact ⟨a, s'', .op r hstep hrun⟩

theorem lands_bind {Q : β → σ → Prop} :
    (p >>= f).Lands step s Q ↔ p.Lands step s fun a s' => (f a).Lands step s' Q := by
  induction p generalizing s with
  | ret a => exact Iff.rfl
  | op o k ih => exact and_congr Iff.rfl (forall_congr' fun r => forall₂_congr fun s' _ => ih r)

theorem Lands.mono {Q' : α → σ → Prop} (h : p.Lands step s Q) (hQ : ∀ a s', Q a s' → Q' a s') :
    p.Lands step s Q' := by
  induction p generalizing s with
  | ret a => exact hQ a s h
  | op o k ih => exact ⟨h.1, fun r s' hstep => ih r (h.2 r s' hstep)⟩

theorem Lands.bind {P : α → σ → Prop} {Q : β → σ → Prop} (hp : p.Lands step s P)
    (hf : ∀ a s', P a s' → (f a).Lands step s' Q) : (p >>= f).Lands step s Q :=
  lands_bind.mpr (hp.mono hf)

theorem lands_perform_bind {o : Op} {f : Res o → Prog Op Res β} {Q : β → σ → Prop}
    (hex : ∃ r s', step s o r s') (hall : ∀ r s', step s o r s' → (f r).Lands step s' Q) :
    (perform o >>= f).Lands step s Q :=
  ⟨hex, hall⟩

theorem exec_runsOn {h : σ → (o : Op) → Res o × σ} (hstep : ∀ s o, step s o (h s o).1 (h s o).2)
    (p : Prog Op Res α) (s : σ) : p.RunsOn step s (p.exec h s).1 (p.exec h s).2 := by
  induction p generalizing s with
  | ret a => exact .ret a s
  | op o k ih => exact .op _ (hstep s o) (ih _ _)

end Dnsd.Lib.Prog
