/-
# Prog — effectful programs as finite trees of operations.

A program performs one operation after another and branches on the answers; which answers are possible is not
fixed here.  `Yields` says which results a program can have, `exec` runs it against a state, `par` interleaves
two programs and `cancellable` lets a deadline strike before any operation.
-/
import Mathlib.Logic.Basic

namespace Dnsd.Lib

/-- A program: stop with a result, or perform an operation and continue with its answer. -/
inductive Prog (Op : Type) (Res : Op → Type) (α : Type) : Type where
  | ret (a : α) : Prog Op Res α
  | op (o : Op) (k : Res o → Prog Op Res α) : Prog Op Res α

namespace Prog

variable {Op : Type} {Res : Op → Type} {α β γ σ : Type} {Q : α → Prop} {a : α} {f : α → Prog Op Res β}
  {o : Op} {p : Prog Op Res α}

def bind : Prog Op Res α → (α → Prog Op Res β) → Prog Op Res β
  | .ret a, f => f a
  | .op o k, f => .op o fun r => (k r).bind f

instance : Monad (Prog Op Res) where
  pure := Prog.ret
  bind := Prog.bind

def perform (o : Op) : Prog Op Res (Res o) := .op o .ret

@[simp] theorem pure_eq (a : α) : (pure a : Prog Op Res α) = .ret a := rfl

@[simp] theorem ret_bind (a : α) (f : α → Prog Op Res β) : (.ret a >>= f) = f a := rfl

@[simp] theorem op_bind (o : Op) (k : Res o → Prog Op Res α) (f : α → Prog Op Res β) :
    (.op o k >>= f) = .op o fun r => k r >>= f := rfl

@[simp] theorem perform_bind (o : Op) (f : Res o → Prog Op Res β) : (perform o >>= f) = .op o f := rfl

theorem bind_ret (p : Prog Op Res α) : (p >>= fun a => .ret a) = p := by
  induction p with
  | ret a => rfl
  | op o k ih =>
    simp only [op_bind]
    exact congrArg (Prog.op o) (funext ih)

theorem bind_assoc (p : Prog Op Res α) (f : α → Prog Op Res β) (g : β → Prog Op Res γ) :
    (p >>= f >>= g) = p >>= fun a => f a >>= g := by
  induction p with
  | ret a => rfl
  | op o k ih =>
    simp only [op_bind]
    exact congrArg (Prog.op o) (funext ih)

instance : LawfulMonad (Prog Op Res) :=
  LawfulMonad.mk' _ (fun p => bind_ret p) (fun _ _ => rfl) bind_assoc

/-! ## Deadlines and interleaving -/

/-- A cancellable run of `p`: before each operation the deadline may strike (`tick` answers `true`),
and then the operations already performed stay performed. -/
def cancellable (tick : Op) (struck : Res tick → Bool) : Prog Op Res α → Prog Op Res (Option α)
  | .ret a => .ret (some a)
  | .op o k => .op tick fun t =>
      if struck t then .ret none else .op o fun r => (k r).cancellable tick struck

/-- The inner recursion of `par`: the left program is at the operation `o`, `f` is what remains of
both once `o` is answered, and the right program is consumed. -/
def parRight (pick : Op) (left : Res pick → Bool) (o : Op) (k : Res o → Prog Op Res α)
    (f : Res o → Prog Op Res β → Prog Op Res (α × β)) : Prog Op Res β → Prog Op Res (α × β)
  | .ret b => .op o fun r => k r >>= fun a => .ret (a, b)
  | .op o' k' => .op pick fun c =>
      if left c then .op o fun r => f r (.op o' k')
      else .op o' fun r => parRight pick left o k f (k' r)

/-- Two programs at once, interleaved operation by operation; `pick` says whose turn it is. -/
def par (pick : Op) (left : Res pick → Bool) : Prog Op Res α → Prog Op Res β → Prog Op Res (α × β)
  | .ret a => fun q => q >>= fun b => .ret (a, b)
  | .op o k => parRight pick left o k fun r => par pick left (k r)

def parAll (pick : Op) (left : Res pick → Bool) : List (Prog Op Res α) → Prog Op Res (List α)
  | [] => .ret []
  | p :: ps => par pick left p (parAll pick left ps) >>= fun r => .ret (r.1 :: r.2)

/-! ## Results -/

/-- `p.Yields ok a`: `p` has the result `a` for some answers allowed by `ok`. -/
inductive Yields (ok : (o : Op) → Res o → Prop) : Prog Op Res α → α → Prop
  | ret (a : α) : Yields ok (.ret a) a
  | op {o : Op} {k : Res o → Prog Op Res α} {a : α} (r : Res o) :
      ok o r → Yields ok (k r) a → Yields ok (.op o k) a

variable {ok : (o : Op) → Res o → Prop}

@[simp] theorem yields_ret {b : α} : (.ret a : Prog Op Res α).Yields ok b ↔ b = a := by
  constructor
  · intro h
    cases h
    rfl
  · rintro rfl
    exact .ret _

theorem yields_op {k : Res o → Prog Op Res α} :
    (Prog.op o k).Yields ok a ↔ ∃ r, ok o r ∧ (k r).Yields ok a := by
  constructor
  · intro h
    cases h with
    | op r hr hk => exact ⟨r, hr, hk⟩
  · rintro ⟨r, hr, hk⟩
    exact .op r hr hk

theorem yields_bind {b : β} : (p >>= f).Yields ok b ↔ ∃ a, p.Yields ok a ∧ (f a).Yields ok b := by
  induction p with
  | ret a => simp
  | op o k ih =>
    simp only [op_bind, yields_op, ih]
    constructor
    · rintro ⟨r, hr, a, ha, hb⟩
      exact ⟨a, ⟨r, hr, ha⟩, hb⟩
    · rintro ⟨a, ⟨r, hr, ha⟩, hb⟩
      exact ⟨r, hr, a, ha, hb⟩

theorem yields_perform_bind {f : Res o → Prog Op Res β} {b : β} :
    (perform o >>= f).Yields ok b ↔ ∃ r, ok o r ∧ (f r).Yields ok b :=
  yields_op (k := f)

theorem Yields.mono {ok' : (o : Op) → Res o → Prop} (h : p.Yields ok a) (hok : ∀ o r, ok o r → ok' o r) :
    p.Yields ok' a := by
  induction h with
  | ret a => exact .ret a
  | op r hr _ ih => exact .op r (hok _ r hr) ih

def Always (p : Prog Op Res α) (Q : α → Prop) : Prop := ∀ a, p.Yields (fun _ _ => True) a → Q a

theorem Yields.always (h : p.Yields ok a) (hp : p.Always Q) : Q a :=
  hp a (h.mono fun _ _ _ => trivial)

theorem always_ret (h : Q a) : (.ret a : Prog Op Res α).Always Q :=
  fun _ hb => yields_ret.mp hb ▸ h

theorem always_true : p.Always fun _ => True := fun _ _ => trivial

theorem always_perform_bind {f : Res o → Prog Op Res β} {Q : β → Prop} (h : ∀ r, (f r).Always Q) :
    (perform o >>= f).Always Q := by
  intro b hb
  obtain ⟨r, _, hr⟩ := yields_perform_bind.mp hb
  exact h r b hr

theorem Always.bind {P : α → Prop} {Q : β → Prop} (hp : p.Always P) (hf : ∀ a, P a → (f a).Always Q) :
    (p >>= f).Always Q := by
  intro b hb
  obtain ⟨a, ha, hb⟩ := yields_bind.mp hb
  exact hf a (hp a ha) b hb

theorem yields_exists (htotal : ∀ o, ∃ r, ok o r) (p : Prog Op Res α) : ∃ a, p.Yields ok a := by
  induction p with
  | ret a => exact ⟨a, .ret a⟩
  | op o k ih =>
    obtain ⟨r, hr⟩ := htotal o
    obtain ⟨a, ha⟩ := ih r
    exact ⟨a, .op r hr ha⟩

/-! ## The executable reading -/

def exec (h : σ → (o : Op) → Res o × σ) : Prog Op Res α → σ → α × σ
  | .ret a, s => (a, s)
  | .op o k, s => (k (h s o).1).exec h (h s o).2

theorem exec_bind (h : σ → (o : Op) → Res o × σ) (p : Prog Op Res α) (f : α → Prog Op Res β) (s : σ) :
    (p >>= f).exec h s = (f (p.exec h s).1).exec h (p.exec h s).2 := by
  induction p generalizing s with
  | ret a => rfl
  | op o k ih => exact ih _ _

def execFor (h : σ → (o : Op) → Res o × σ) : Nat → Prog Op Res α → σ → Prog Op Res α × σ
  | 0, p, s => (p, s)
  | _ + 1, .ret a, s => (.ret a, s)
  | n + 1, .op o k, s => execFor h n (k (h s o).1) (h s o).2

def next? : Prog Op Res α → Option Op
  | .ret _ => none
  | .op o _ => some o

theorem next?_eq_some (h : p.next? = some o) : ∃ k, p = .op o k := by
  cases p with
  | ret a => nomatch h
  | op o' k =>
    cases h
    exact ⟨k, rfl⟩

theorem exec_yields {h : σ → (o : Op) → Res o × σ} (hok : ∀ s o, ok o (h s o).1)
    (p : Prog Op Res α) (s : σ) : p.Yields ok (p.exec h s).1 := by
  induction p generalizing s with
  | ret a => exact .ret a
  | op o k ih => exact .op (h s o).1 (hok s o) (ih _ _)

theorem Yields.eq_exec {answer : (o : Op) → Res o} (h : p.Yields (fun o r => r = answer o) a) :
    a = (p.exec (fun (u : Unit) o => (answer o, u)) ()).1 := by
  induction h with
  | ret a => rfl
  | op r hr _ ih =>
    subst hr
    exact ih

end Prog

end Dnsd.Lib
