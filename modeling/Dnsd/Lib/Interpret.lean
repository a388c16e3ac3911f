/-
# Interpret — a program over finer operations, read as one over coarser operations.

`interp` replaces every operation of a program by a program.  It commutes with sequencing, so a function of the
coarse language equals the interpretation of its finer counterpart along its own structure.
-/
import Dnsd.Lib.Prog

namespace Dnsd.Lib.Prog

variable {Op Op' : Type} {Res : Op → Type} {Res' : Op' → Type} {α β : Type}

def interp (h : (o : Op) → Prog Op' Res' (Res o)) : Prog Op Res α → Prog Op' Res' α
  | .ret a => .ret a
  | .op o k => h o >>= fun r => (k r).interp h

variable {h : (o : Op) → Prog Op' Res' (Res o)}

@[simp] theorem interp_ret (a : α) : (.ret a : Prog Op Res α).interp h = .ret a := rfl

@[simp] theorem interp_pure (a : α) : (pure a : Prog Op Res α).interp h = pure a := rfl

theorem interp_bind (p : Prog Op Res α) (f : α → Prog Op Res β) :
    (p >>= f).interp h = p.interp h >>= fun a => (f a).interp h := by
  induction p with
  | ret a => rfl
  | op o k ih =>
    show (h o >>= fun r => (k r >>= f).interp h) = (h o >>= fun r => (k r).interp h) >>= _
    rw [bind_assoc]
    exact congrArg (h o >>= ·) (funext ih)

theorem interp_perform_bind (o : Op) (f : Res o → Prog Op Res β) :
    (perform o >>= f).interp h = h o >>= fun r => (f r).interp h := rfl

theorem interp_interp {g : (o : Op') → Prog Op Res (Res' o)}
    (hback : ∀ o, (g o).interp h = perform o) (p : Prog Op' Res' α) : (p.interp g).interp h = p := by
  induction p with
  | ret a => rfl
  | op o k ih =>
    show (g o >>= fun r => (k r).interp g).interp h = _
    rw [interp_bind, hback]
    exact congrArg (Prog.op o) (funext ih)

end Dnsd.Lib.Prog
