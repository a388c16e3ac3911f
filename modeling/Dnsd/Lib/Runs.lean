/-
# Runs — runs of a program, finished or not.

`Runs` keeps the operations of a run with their answers; the run may stop anywhere (`none`) or at the result
(`some`).  For programs that may fail, `runs_ok_bind` takes a run that succeeds apart.
-/
import Dnsd.Lib.Contract

namespace Dnsd.Lib.Prog

open List

variable {Op : Type} {Res : Op → Type} {α β : Type} {ok : (o : Op) → Res o → Prop} {a : α}
  {f : α → Prog Op Res β} {p : Prog Op Res α} {r : Option α}

abbrev Trace (Res : Op → Type) := List (Σ o, Res o)

/-- `p.Runs ok t r`: `p` performs `t`, and has then the result `r` or is not done. -/
inductive Runs (ok : (o : Op) → Res o → Prop) : Prog Op Res α → Trace Res → Option α → Prop
  | stop (p : Prog Op Res α) : Runs ok p [] none
  | ret (a : α) : Runs ok (.ret a) [] (some a)
  | op {o : Op} {k : Res o → Prog Op Res α} {t : Trace Res} {r : Option α} (x : Res o) :
      ok o x → Runs ok (k x) t r → Runs ok (.op o k) (⟨o, x⟩ :: t) r

theorem Runs.bind {t t' : Trace Res} {r : Option β} (hp : p.Runs ok t (some a))
    (hf : (f a).Runs ok t' r) : (p >>= f).Runs ok (t ++ t') r := by
  generalize hres : some a = res at hp
  induction hp with
  | stop p => nomatch hres
  | ret b =>
    cases hres
    exact hf
  | op x hx _ ih => exact .op x hx (ih hres)

theorem Runs.bind_none {t : Trace Res} (hp : p.Runs ok t none) : (p >>= f).Runs ok t none := by
  generalize hres : (none : Option α) = res at hp
  induction hp with
  | stop p => exact .stop _
  | ret b => nomatch hres
  | op x hx _ ih => exact .op x hx (ih hres)

theorem Runs.parAll_single {pick : Op} {left : Res pick → Bool} {t : Trace Res} (hp : p.Runs ok t none) :
    (Prog.parAll pick left [p]).Runs ok t none := by
  refine Runs.bind_none ?_
  cases hp with
  | stop p => exact .stop _
  | op x hx hk => exact .op x hx hk.bind_none

theorem runs_op {o : Op} {k : Res o → Prog Op Res α} {t : Trace Res} :
    (Prog.op o k).Runs ok t (some a) ↔ ∃ x t', t = ⟨o, x⟩ :: t' ∧ ok o x ∧ (k x).Runs ok t' (some a) := by
  constructor
  · intro h
    cases h with
    | op x hx hk => exact ⟨x, _, rfl, hx, hk⟩
  · rintro ⟨x, t', rfl, hx, hk⟩
    exact .op x hx hk

theorem runs_bind {t : Trace Res} {b : β} :
    (p >>= f).Runs ok t (some b) ↔
      ∃ t₁ t₂ a, t = t₁ ++ t₂ ∧ p.Runs ok t₁ (some a) ∧ (f a).Runs ok t₂ (some b) := by
  constructor
  · intro h
    induction p generalizing t with
    | ret a => exact ⟨[], t, a, rfl, .ret a, h⟩
    | op o k ih =>
      obtain ⟨x, t', rfl, hx, hk⟩ := runs_op.mp h
      obtain ⟨t₁, t₂, a, rfl, h₁, h₂⟩ := ih x hk
      exact ⟨⟨o, x⟩ :: t₁, t₂, a, rfl, .op x hx h₁, h₂⟩
  · rintro ⟨t₁, t₂, a, rfl, h₁, h₂⟩
    exact h₁.bind h₂

theorem runs_perform_bind {o : Op} {f : Res o → Prog Op Res β} {t : Trace Res} {b : β} :
    (perform o >>= f).Runs ok t (some b) ↔
      ∃ x t', t = ⟨o, x⟩ :: t' ∧ ok o x ∧ (f x).Runs ok t' (some b) :=
  runs_op (k := f)

theorem runs_ret {b : α} {t : Trace Res} :
    (.ret a : Prog Op Res α).Runs ok t (some b) ↔ t = [] ∧ b = a := by
  constructor
  · intro h
    cases h
    exact ⟨rfl, rfl⟩
  · rintro ⟨rfl, rfl⟩
    exact .ret _

theorem Runs.yields {t : Trace Res} (h : p.Runs ok t (some a)) : p.Yields ok a := by
  generalize hres : some a = res at h
  induction h with
  | stop p => nomatch hres
  | ret b =>
    cases hres
    exact .ret _
  | op x hx _ ih => exact .op x hx (ih hres)

theorem Runs.finish {t : Trace Res} (htotal : ∀ o, ∃ x, ok o x) (h : p.Runs ok t r) :
    ∃ t' a, p.Runs ok (t ++ t') (some a) := by
  induction h with
  | stop p =>
    induction p with
    | ret a => exact ⟨[], a, .ret a⟩
    | op o k ih =>
      obtain ⟨x, hx⟩ := htotal o
      obtain ⟨t, a, ht⟩ := ih x
      exact ⟨⟨o, x⟩ :: t, a, .op x hx ht⟩
  | ret a => exact ⟨[], a, .ret a⟩
  | op x hx _ ih =>
    obtain ⟨t', a, ht⟩ := ih
    exact ⟨t', a, .op x hx ht⟩

theorem not_forever (p : Prog Op Res α) (f : Nat → Σ o, Res o) :
    ∃ n, ¬p.Runs ok ((List.range n).map f) none := by
  induction p generalizing f with
  | ret a =>
    refine ⟨1, fun h => ?_⟩
    nomatch h
  | op o k ih =>
    by_cases hfirst : ∃ x, f 0 = ⟨o, x⟩
    · obtain ⟨x, hx⟩ := hfirst
      obtain ⟨n, hn⟩ := ih x fun i => f (i + 1)
      refine ⟨n + 1, fun h => hn ?_⟩
      rw [range_succ_eq_map, map_cons, hx, map_map] at h
      cases h with
      | op x _ hrest => exact hrest
    · refine ⟨1, fun h => hfirst ?_⟩
      rw [range_one, map_singleton] at h
      generalize f 0 = y at h
      cases h with
      | op x _ _ => exact ⟨x, rfl⟩

def trace {σ : Type} (h : σ → (o : Op) → Res o × σ) : Prog Op Res α → σ → Trace Res
  | .ret _, _ => []
  | .op o k, s => ⟨o, (h s o).1⟩ :: (k (h s o).1).trace h (h s o).2

theorem runs_trace {σ : Type} {h : σ → (o : Op) → Res o × σ} (hok : ∀ s o, ok o (h s o).1)
    (p : Prog Op Res α) (s : σ) : p.Runs ok (p.trace h s) (some (p.exec h s).1) := by
  induction p generalizing s with
  | ret a => exact .ret a
  | op o k ih => exact .op _ (hok s o) (ih _ _)

theorem exec_runs {σ : Type} {h : σ → (o : Op) → Res o × σ} (hok : ∀ s o, ok o (h s o).1)
    (p : Prog Op Res α) (s : σ) : ∃ t, p.Runs ok t (some (p.exec h s).1) :=
  ⟨_, runs_trace hok p s⟩

theorem Runs.permitted {pre : Op → Prop} {Q : Unit → α → Prop} {t : Trace Res}
    (hsafe : (Contract.plain pre ok).Safe () p Q) (h : p.Runs ok t r) :
    ∀ x ∈ t, pre x.1 ∧ ok x.1 x.2 := by
  induction h with
  | stop p => exact fun _ hx => nomatch hx
  | ret a => exact fun _ hx => nomatch hx
  | op x hx _ ih =>
    intro y hy
    rcases mem_cons.mp hy with rfl | hy
    · exact ⟨hsafe.1, hx⟩
    · exact ih (hsafe.2 x hx) y hy

/-! ## Programs that may fail -/

section Fallible

variable {E : Type} {t : Trace Res}

theorem runs_ok_bind {x : ExceptT E (Prog Op Res) α} {f : α → ExceptT E (Prog Op Res) β} {b : β} :
    (x >>= f).run.Runs ok t (some (.ok b)) ↔
      ∃ t₁ t₂ a, t = t₁ ++ t₂ ∧ x.run.Runs ok t₁ (some (.ok a)) ∧ (f a).run.Runs ok t₂ (some (.ok b)) := by
  rw [ExceptT.run_bind, runs_bind]
  constructor
  · rintro ⟨t₁, t₂, r, rfl, h₁, h₂⟩
    cases r with
    | ok a => exact ⟨t₁, t₂, a, rfl, h₁, h₂⟩
    | error e => nomatch (runs_ret.mp h₂).2
  · rintro ⟨t₁, t₂, a, rfl, h₁, h₂⟩
    exact ⟨t₁, t₂, .ok a, rfl, h₁, h₂⟩

theorem runs_ok_pure {a b : α} :
    (pure a : ExceptT E (Prog Op Res) α).run.Runs ok t (some (.ok b)) ↔ t = [] ∧ b = a := by
  rw [show (pure a : ExceptT E (Prog Op Res) α).run = .ret (.ok a) from rfl, runs_ret, Except.ok.injEq]

theorem not_runs_ok_throw {e : E} {b : α} :
    ¬(throw e : ExceptT E (Prog Op Res) α).run.Runs ok t (some (.ok b)) := by
  intro h
  nomatch (runs_ret.mp h).2

end Fallible

end Dnsd.Lib.Prog

namespace Dnsd.Lib

theorem Contract.Safe.seq {Op : Type} {Res : Op → Type} {α β E γ : Type} {C : Contract γ Op Res} {g : γ}
    {x : ExceptT E (Prog Op Res) α} {f : α → ExceptT E (Prog Op Res) β} {P : γ → Except E α → Prop}
    {Q : γ → Except E β → Prop}
    (hx : C.Safe g x.run P) (hok : ∀ h a, P h (.ok a) → C.Safe h (f a).run Q)
    (herror : ∀ h e, P h (.error e) → Q h (.error e)) : C.Safe g (x >>= f).run Q := by
  rw [ExceptT.run_bind]
  refine Contract.Safe.bind hx fun h r hr => ?_
  cases r with
  | ok a => exact hok h a hr
  | error e => exact herror h e hr

end Dnsd.Lib
