/-
# Spending — programs that pay for their operations.

Under the contract `spending` a safe program never asks for an operation it cannot pay for, so no run of it costs
more than its allowance (`Safe.cost_le`).
-/
import Mathlib.Algebra.GroupWithZero.Nat
import Dnsd.Lib.Runs

namespace Dnsd.Lib

open Prog

variable {Op : Type} {Res : Op → Type} {α β : Type}

def Prog.Trace.cost (price : Op → Nat) (t : Prog.Trace Res) : Nat := (t.map fun x => price x.1).sum

namespace Prog.Trace

variable {price : Op → Nat}

@[simp] theorem cost_nil : cost price ([] : Trace Res) = 0 := rfl

@[simp] theorem cost_cons (x : Σ o, Res o) (t : Trace Res) :
    cost price (x :: t) = price x.1 + cost price t := by
  simp [cost]

theorem cost_append (t t' : Trace Res) : cost price (t ++ t') = cost price t + cost price t' := by
  simp [cost]

end Prog.Trace

theorem Prog.Runs.cancellable {ok : (o : Op) → Res o → Prop} {tick : Op} {struck : Res tick → Bool}
    {calm : Res tick} (hcalm : ok tick calm) (hstruck : struck calm = false) {price : Op → Nat}
    (htick : price tick = 0) {p : Prog Op Res α} {t : Prog.Trace Res} (h : p.Runs ok t none) :
    ∃ t', (p.cancellable tick struck).Runs ok t' none ∧ t'.cost price = t.cost price := by
  generalize hres : (none : Option α) = r at h
  induction h with
  | stop p => exact ⟨[], .stop _, rfl⟩
  | ret a => nomatch hres
  | @op o k t r x hx _ ih =>
    obtain ⟨t', ht', hcost⟩ := ih hres
    refine ⟨⟨tick, calm⟩ :: ⟨o, x⟩ :: t', .op calm hcalm ?_, ?_⟩
    · rw [hstruck]
      exact .op x hx ht'
    · simp only [Prog.Trace.cost_cons, htick, hcost, Nat.zero_add]

namespace Contract

def spending (price : Op → Nat) (post : (o : Op) → Res o → Prop) : Contract Nat Op Res where
  pre n o := price o ≤ n
  post _ o r := post o r
  upd n o _ := n - price o

abbrev Affords (price : Op → Nat) (post : (o : Op) → Res o → Prop) (n : Nat) (p : Prog Op Res α) :
    Prop :=
  (spending price post).Safe n p fun _ _ => True

variable {price : Op → Nat} {post : (o : Op) → Res o → Prop} {n m : Nat} {p : Prog Op Res α}
  {Q : Nat → α → Prop} {o pick : Op} {q : Prog Op Res β}

theorem safe_free {k : Res o → Prog Op Res α} (hfree : price o = 0) :
    (spending price post).Safe n (.op o k) Q ↔ ∀ r, post o r → (spending price post).Safe n (k r) Q := by
  have hpay : (spending price post).Safe n (.op o k) Q ↔
      price o ≤ n ∧ ∀ r, post o r → (spending price post).Safe (n - price o) (k r) Q := Iff.rfl
  rw [hpay, hfree]
  exact and_iff_right (Nat.zero_le n)

theorem safe_free_bind {f : Res o → Prog Op Res α} (hfree : price o = 0) :
    (spending price post).Safe n (perform o >>= f) Q ↔
      ∀ r, post o r → (spending price post).Safe n (f r) Q :=
  safe_free (k := f) hfree

/-- **No run costs more than the allowance.** -/
theorem Safe.cost_le {t : Trace Res} {r : Option α} (h : (spending price post).Safe n p Q)
    (hrun : p.Runs post t r) : t.cost price ≤ n := by
  induction hrun generalizing n with
  | stop p => exact Nat.zero_le n
  | ret a => exact Nat.zero_le n
  | @op o k t r x hx _ ih =>
    have hprice : price o ≤ n := h.1
    have hrest : t.cost price ≤ n - price o := ih (h.2 x hx)
    rw [Trace.cost_cons]
    show price o + t.cost price ≤ n
    omega

theorem Safe.aside (h : (spending price post).Safe n p Q) (m : Nat) :
    (spending price post).Safe (n + m) p fun left a => ∃ k, left = k + m ∧ Q k a := by
  induction p generalizing n with
  | ret a => exact ⟨n, rfl, h⟩
  | op o k ih =>
    have hprice : price o ≤ n := h.1
    refine ⟨Nat.le_add_right_of_le hprice, fun r hr => ?_⟩
    have hleft : n + m - price o = (n - price o) + m := by omega
    show (spending price post).Safe (n + m - price o) (k r) _
    rw [hleft]
    exact ih r (h.2 r hr)

theorem Affords.mono (h : Affords price post n p) (hle : n ≤ m) : Affords price post m p := by
  obtain ⟨k, rfl⟩ := Nat.exists_eq_add_of_le hle
  exact (h.aside k).mono fun _ _ _ => trivial

theorem Affords.seq {f : α → Prog Op Res β} (hp : Affords price post n p)
    (hf : ∀ a, Affords price post m (f a)) : Affords price post (n + m) (p >>= f) := by
  refine (hp.aside m).bind ?_
  rintro _ a ⟨k, rfl, _⟩
  exact (hf a).mono (Nat.le_add_left m k)

theorem Safe.gratis {Q : Unit → α → Prop}
    (h : (plain (fun o => price o = 0) post).Safe () p Q) (n : Nat) :
    (spending price post).Safe n p fun left a => left = n ∧ Q () a := by
  induction p with
  | ret a => exact ⟨rfl, h⟩
  | op o k ih =>
    refine (safe_free h.1).mpr fun r hr => ?_
    exact ih r (h.2 r hr)

theorem Affords.cancellable {tick : Op} {struck : Res tick → Bool} (htick : price tick = 0)
    (h : Affords price post n p) : Affords price post n (p.cancellable tick struck) := by
  induction p generalizing n with
  | ret a => trivial
  | op o k ih =>
    refine (safe_free htick).mpr fun t _ => ?_
    split
    · trivial
    · exact ⟨h.1, fun r hr => ih r (h.2 r hr)⟩

theorem Affords.parRight {left : Res pick → Bool} (hpick : price pick = 0) {k : Res o → Prog Op Res α}
    {f : Res o → Prog Op Res β → Prog Op Res (α × β)}
    (hf : ∀ n m r q, Affords price post n (k r) → Affords price post m q → Affords price post (n + m) (f r q))
    (hp : Affords price post n (.op o k)) (hq : Affords price post m q) :
    Affords price post (n + m) (Prog.parRight pick left o k f q) := by
  have ho : price o ≤ n := hp.1
  have hleft : ∀ m, n + m - price o = (n - price o) + m := fun m => by omega
  induction q generalizing m with
  | ret b =>
    refine ⟨Nat.le_add_right_of_le ho, fun r hr => ?_⟩
    show Affords price post (n + m - price o) _
    rw [hleft]
    exact ((hp.2 r hr).aside m).bind fun _ _ _ => trivial
  | op o' k' ih =>
    have ho' : price o' ≤ m := hq.1
    refine (safe_free hpick).mpr fun c _ => ?_
    split
    · refine ⟨Nat.le_add_right_of_le ho, fun r hr => ?_⟩
      show Affords price post (n + m - price o) _
      rw [hleft]
      exact hf _ _ r _ (hp.2 r hr) hq
    · refine ⟨Nat.le_add_left_of_le ho', fun r hr => ?_⟩
      show Affords price post (n + m - price o') _
      rw [Nat.add_sub_assoc ho']
      exact ih r (hq.2 r hr)

theorem Affords.par {left : Res pick → Bool} (hpick : price pick = 0) (hp : Affords price post n p)
    (hq : Affords price post m q) : Affords price post (n + m) (Prog.par pick left p q) := by
  induction p generalizing n m q with
  | ret a => exact (hq.mono (Nat.le_add_left m n)).bind fun _ _ _ => trivial
  | op o k ih => exact Affords.parRight hpick (fun n m r q hk hq => ih r hk hq) hp hq

theorem Affords.parAll {left : Res pick → Bool} (hpick : price pick = 0) {ps : List (Prog Op Res α)}
    (h : ∀ p ∈ ps, Affords price post n p) :
    Affords price post (ps.length * n) (Prog.parAll pick left ps) := by
  induction ps with
  | nil => trivial
  | cons p ps ih =>
    have hp := h p (.head _)
    have hps := ih fun q hq => h q (.tail _ hq)
    rw [List.length_cons, Nat.succ_mul, Nat.add_comm]
    exact (Affords.par hpick hp hps).bind fun _ _ _ => trivial

end Contract

end Dnsd.Lib
