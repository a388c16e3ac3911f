/-
# Lockstep — two programs that go the same way under answers that correspond.

`p.Lockstep ok ok' R q`: every answer the first program can get has an answer for the second with which they
stay in step, and they return related results.  The operations themselves need not be equal.
-/
import Mathlib.Data.List.Forall2
import Dnsd.Lib.Prog

namespace Dnsd.Lib

namespace Prog

variable {Op : Type} {Res : Op → Type} {α β α' β' : Type} {ok ok' : (o : Op) → Res o → Prop}
  {R : α → β → Prop}

def Lockstep (ok ok' : (o : Op) → Res o → Prop) (R : α → β → Prop) : Prog Op Res α → Prog Op Res β → Prop
  | .ret a, .ret b => R a b
  | .op o k, .op o' k' => ∀ r, ok o r → ∃ r', ok' o' r' ∧ Lockstep ok ok' R (k r) (k' r')
  | _, _ => False

theorem lockstep_refl (p : Prog Op Res α) : p.Lockstep ok ok Eq p := by
  induction p with
  | ret a => exact rfl
  | op o k ih => exact fun r hr => ⟨r, hr, ih r⟩

theorem Lockstep.yields {p : Prog Op Res α} {q : Prog Op Res β} (h : p.Lockstep ok ok' R q) {a : α}
    (hp : p.Yields ok a) : ∃ b, q.Yields ok' b ∧ R a b := by
  induction hp generalizing q with
  | ret a =>
    cases q with
    | ret b => exact ⟨b, .ret b, h⟩
    | op o k => exact h.elim
  | op r hr _ ih =>
    cases q with
    | ret b => exact h.elim
    | op o' k' =>
      obtain ⟨r', hr', hk⟩ := h r hr
      obtain ⟨b, hb, hab⟩ := ih hk
      exact ⟨b, .op r' hr' hb, hab⟩

theorem Lockstep.bind {S : α' → β' → Prop} {f : α → Prog Op Res α'} {g : β → Prog Op Res β'}
    (hf : ∀ a b, R a b → (f a).Lockstep ok ok' S (g b)) :
    ∀ {p : Prog Op Res α} {q : Prog Op Res β}, p.Lockstep ok ok' R q → (p >>= f).Lockstep ok ok' S (q >>= g)
  | .ret a, .ret b, h => hf a b h
  | .ret _, .op _ _, h => h.elim
  | .op _ _, .ret _, h => h.elim
  | .op _ _, .op _ _, h => fun r hr =>
      let ⟨r', hr', hk⟩ := h r hr
      ⟨r', hr', hk.bind hf⟩

theorem lockstep_perform_bind {o o' : Op} {f : Res o → Prog Op Res α} {g : Res o' → Prog Op Res β}
    (h : ∀ r, ok o r → ∃ r', ok' o' r' ∧ (f r).Lockstep ok ok' R (g r')) :
    (perform o >>= f).Lockstep ok ok' R (perform o' >>= g) := h

theorem Lockstep.cancellable {tick : Op} {struck : Res tick → Bool}
    (htick : ∀ t, ok tick t → ok' tick t) :
    ∀ {p : Prog Op Res α} {q : Prog Op Res β}, p.Lockstep ok ok' R q →
      (p.cancellable tick struck).Lockstep ok ok' (Option.Rel R) (q.cancellable tick struck)
  | .ret _, .ret _, h => Option.Rel.some h
  | .ret _, .op _ _, h => h.elim
  | .op _ _, .ret _, h => h.elim
  | .op o k, .op o' k', h => by
      intro t ht
      refine ⟨t, htick t ht, ?_⟩
      dsimp only
      by_cases hs : struck t = true
      · rw [if_pos hs, if_pos hs]
        exact Option.Rel.none
      rw [if_neg hs, if_neg hs]
      intro r hr
      obtain ⟨r', hr', hk⟩ := h r hr
      exact ⟨r', hr', hk.cancellable htick⟩

section

variable {pick : Op} {left : Res pick → Bool} {R : α → α' → Prop} {S : β → β' → Prop}

theorem Lockstep.parRight (hpick : ∀ c, ok pick c → ok' pick c) {o o' : Op} {k : Res o → Prog Op Res α}
    {k' : Res o' → Prog Op Res α'} {f : Res o → Prog Op Res β → Prog Op Res (α × β)}
    {f' : Res o' → Prog Op Res β' → Prog Op Res (α' × β')}
    (hk : (Prog.op o k).Lockstep ok ok' R (.op o' k'))
    (hf : ∀ r r', (k r).Lockstep ok ok' R (k' r') → ∀ {q : Prog Op Res β} {q' : Prog Op Res β'}, q.Lockstep ok ok' S q' → (f r q).Lockstep ok ok' (fun x y => R x.1 y.1 ∧ S x.2 y.2) (f' r' q')) :
    ∀ {q : Prog Op Res β} {q' : Prog Op Res β'}, q.Lockstep ok ok' S q' →
      (Prog.parRight pick left o k f q).Lockstep ok ok' (fun x y => R x.1 y.1 ∧ S x.2 y.2)
        (Prog.parRight pick left o' k' f' q')
  | .ret b, .ret b', h => by
      intro r hr
      obtain ⟨r', hr', hkr⟩ := hk r hr
      refine ⟨r', hr', hkr.bind fun a a' ha => ?_⟩
      show R a a' ∧ S b b'
      exact ⟨ha, h⟩
  | .ret _, .op _ _, h => h.elim
  | .op _ _, .ret _, h => h.elim
  | .op o₂ k₂, .op o₂' k₂', h => by
    intro c hc
    refine ⟨c, hpick c hc, ?_⟩
    dsimp only
    by_cases hl : left c = true
    · rw [if_pos hl, if_pos hl]
      intro r hr
      obtain ⟨r', hr', hkr⟩ := hk r hr
      exact ⟨r', hr', hf r r' hkr h⟩
    · rw [if_neg hl, if_neg hl]
      intro r hr
      obtain ⟨r', hr', hkr⟩ := h r hr
      exact ⟨r', hr', Lockstep.parRight hpick hk hf hkr⟩

theorem Lockstep.par (hpick : ∀ c, ok pick c → ok' pick c) :
    ∀ {p : Prog Op Res α} {p' : Prog Op Res α'}, p.Lockstep ok ok' R p' →
      ∀ {q : Prog Op Res β} {q' : Prog Op Res β'}, q.Lockstep ok ok' S q' →
        (Prog.par pick left p q).Lockstep ok ok' (fun x y => R x.1 y.1 ∧ S x.2 y.2)
          (Prog.par pick left p' q')
  | .ret a, .ret a', h, _, _, hq => by
      refine hq.bind fun b b' hb => ?_
      show R a a' ∧ S b b'
      exact ⟨h, hb⟩
  | .ret _, .op _ _, h, _, _, _ => h.elim
  | .op _ _, .ret _, h, _, _, _ => h.elim
  | .op _ _, .op _ _, h, _, _, hq =>
      Lockstep.parRight hpick h (fun _ _ hkr _ _ hq' => hkr.par hpick hq') hq

theorem Lockstep.parAll (hpick : ∀ c, ok pick c → ok' pick c) {R : α → β → Prop}
    {ps : List (Prog Op Res α)} {qs : List (Prog Op Res β)}
    (h : List.Forall₂ (Lockstep ok ok' R) ps qs) :
    (Prog.parAll pick left ps).Lockstep ok ok' (List.Forall₂ R) (Prog.parAll pick left qs) := by
  induction h with
  | nil => exact .nil
  | cons hp _ ih =>
    refine (hp.par hpick ih).bind fun x y hxy => ?_
    exact List.Forall₂.cons hxy.1 hxy.2

end

end Prog

end Dnsd.Lib
