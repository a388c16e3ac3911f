/-
# Contract — contracts for operations, and what every interleaving keeps.

A contract says what a task must know before an operation and what it may conclude from the answer; what it
knows is a ghost value `g : γ`.  `Safe` checks a program against a contract without regard to other tasks.
`Reach` is any number of tasks of a `System`, stepped in any order and abandoned at any point.  `Keeps`
connects the two (`Keeps.reach_inv`, `Keeps.reach_pre`).
-/
import Mathlib.Data.List.Forall2
import Dnsd.Lib.Prog

namespace Dnsd.Lib

open List

variable {ι γ Op : Type} {Res : Op → Type} {σ α β : Type}

structure Contract (γ Op : Type) (Res : Op → Type) where
  pre : γ → Op → Prop
  post : γ → (o : Op) → Res o → Prop
  upd : γ → (o : Op) → Res o → γ

namespace Contract

open Prog

def plain (pre : Op → Prop) (post : (o : Op) → Res o → Prop) : Contract Unit Op Res where
  pre _ o := pre o
  post _ o r := post o r
  upd _ _ _ := ()

variable (C : Contract γ Op Res)

def Safe : γ → Prog Op Res α → (γ → α → Prop) → Prop
  | g, .ret a, Q => Q g a
  | g, .op o k, Q => C.pre g o ∧ ∀ r, C.post g o r → Safe (C.upd g o r) (k r) Q

variable {C} {P Q : γ → α → Prop} {f : α → Prog Op Res β} {g : γ} {o pick : Op} {p : Prog Op Res α}
  {post : (o : Op) → Res o → Prop} {pre : Op → Prop} {q : Prog Op Res β}

@[simp] theorem safe_ret {a : α} : C.Safe g (.ret a) Q ↔ Q g a := Iff.rfl

@[simp] theorem safe_op {k : Res o → Prog Op Res α} :
    C.Safe g (.op o k) Q ↔ C.pre g o ∧ ∀ r, C.post g o r → C.Safe (C.upd g o r) (k r) Q := Iff.rfl

theorem safe_perform_bind {f : Res o → Prog Op Res β} {Q : γ → β → Prop} :
    C.Safe g (perform o >>= f) Q ↔ C.pre g o ∧ ∀ r, C.post g o r → C.Safe (C.upd g o r) (f r) Q := Iff.rfl

theorem safe_bind {Q : γ → β → Prop} :
    C.Safe g (p >>= f) Q ↔ C.Safe g p (fun h a => C.Safe h (f a) Q) := by
  induction p generalizing g with
  | ret a => exact Iff.rfl
  | op o k ih =>
    constructor
    · rintro ⟨hpre, h⟩
      exact ⟨hpre, fun r hr => (ih r).mp (h r hr)⟩
    · rintro ⟨hpre, h⟩
      exact ⟨hpre, fun r hr => (ih r).mpr (h r hr)⟩

theorem Safe.mono {Q' : γ → α → Prop} (h : C.Safe g p Q) (hQ : ∀ h a, Q h a → Q' h a) : C.Safe g p Q' := by
  induction p generalizing g with
  | ret a => exact hQ g a h
  | op o k ih => exact ⟨h.1, fun r hr => ih r (h.2 r hr)⟩

theorem Safe.bind {Q : γ → β → Prop} (hp : C.Safe g p P) (hf : ∀ h a, P h a → C.Safe h (f a) Q) :
    C.Safe g (p >>= f) Q :=
  safe_bind.mpr (hp.mono hf)

theorem Safe.keeps {I : γ → Prop} (hI : ∀ g o r, I g → I (C.upd g o r)) (hg : I g) (h : C.Safe g p Q) :
    C.Safe g p fun g a => I g ∧ Q g a := by
  induction p generalizing g with
  | ret a => exact ⟨hg, h⟩
  | op o k ih => exact ⟨h.1, fun r hr => ih r (hI g o r hg) (h.2 r hr)⟩

theorem safe_trivial (p : Prog Op Res α) : (plain (fun _ => True) post).Safe () p fun _ _ => True := by
  induction p with
  | ret a => trivial
  | op o k ih => exact ⟨trivial, fun r _ => ih r⟩

theorem Safe.yields {Q : Unit → α → Prop} {a : α} (h : (plain pre post).Safe () p Q)
    (hy : p.Yields post a) : Q () a := by
  induction hy with
  | ret a => exact h
  | op r hr _ ih => exact ih (h.2 r hr)

theorem Safe.always {Q : α → Prop} (h : (plain (fun _ => True) fun _ _ => True).Safe () p fun _ => Q) :
    p.Always Q :=
  fun _ ha => h.yields ha

theorem Safe.and_yields {Q : Unit → α → Prop} (h : (plain pre post).Safe () p Q) :
    (plain pre post).Safe () p fun g a => Q g a ∧ p.Yields post a := by
  induction p with
  | ret a => exact ⟨h, .ret a⟩
  | op o k ih =>
    refine ⟨h.1, fun r hr => ?_⟩
    exact (ih r (h.2 r hr)).mono fun _ a ha => ⟨ha.1, .op r hr ha.2⟩

theorem Safe.and_plain {Q' : Unit → α → Prop} (hpost : ∀ g o r, C.post g o r → post o r)
    (h : C.Safe g p Q) (h' : (plain pre post).Safe () p Q') : C.Safe g p fun g a => Q g a ∧ Q' () a := by
  induction p generalizing g with
  | ret a => exact ⟨h, h'⟩
  | op o k ih => exact ⟨h.1, fun r hr => ih r (h.2 r hr) (h'.2 r (hpost g o r hr))⟩

theorem Safe.and_always {R : α → Prop} (h : C.Safe g p Q) (hp : p.Always R) :
    C.Safe g p fun g a => Q g a ∧ R a := by
  induction p generalizing g with
  | ret a => exact ⟨h, hp a (.ret a)⟩
  | op o k ih => exact ⟨h.1, fun r hr => ih r (h.2 r hr) fun a ha => hp a (.op r trivial ha)⟩

theorem Safe.exec {inv : σ → Prop} {h : σ → (o : Op) → Res o × σ}
    (hstep : ∀ s o, inv s → pre o → post o (h s o).1 ∧ inv (h s o).2) {Q : Unit → α → Prop}
    (hsafe : (plain pre post).Safe () p Q) {s : σ} (hs : inv s) : Q () (p.exec h s).1 := by
  induction p generalizing s with
  | ret a => exact hsafe
  | op o k ih =>
    obtain ⟨hpost, hinv⟩ := hstep s o hs hsafe.1
    exact ih _ (hsafe.2 _ hpost) hinv

/-! ## Knowledge only grows -/

structure Monotone (C : Contract γ Op Res) (le : γ → γ → Prop) : Prop where
  refl : ∀ g, le g g
  trans : ∀ {g₁ g₂ g₃}, le g₁ g₂ → le g₂ g₃ → le g₁ g₃
  grow : ∀ g o r, le g (C.upd g o r)
  pre : ∀ {g g' o}, le g g' → C.pre g o → C.pre g' o
  post : ∀ {g g' o r}, le g g' → C.post g' o r → C.post g o r
  upd : ∀ {g g'} o r, le g g' → le (C.upd g o r) (C.upd g' o r)

theorem plain_monotone (pre : Op → Prop) (post : (o : Op) → Res o → Prop) :
    (plain pre post).Monotone (fun _ _ => True) where
  refl _ := trivial
  trans _ _ := trivial
  grow _ _ _ := trivial
  pre _ h := h
  post _ h := h
  upd _ _ _ := trivial

def learning {φ : Type} (pre : List φ → Op → Prop) (post : (o : Op) → Res o → Prop)
    (learn : (o : Op) → Res o → List φ) : Contract (List φ) Op Res where
  pre := pre
  post _ o r := post o r
  upd g o r := learn o r ++ g

theorem learning_monotone {φ : Type} {pre : List φ → Op → Prop} {learn : (o : Op) → Res o → List φ}
    (hpre : ∀ g g' o, g ⊆ g' → pre g o → pre g' o) :
    (learning pre post learn).Monotone (· ⊆ ·) where
  refl g := List.Subset.refl g
  trans h h' := List.Subset.trans h h'
  grow _ _ _ := subset_append_right ..
  pre h hp := hpre _ _ _ h hp
  post _ h := h
  upd _ _ h := append_subset.mpr ⟨subset_append_left .., subset_append_of_subset_right _ h⟩

variable {le : γ → γ → Prop}

theorem Safe.lift (hC : C.Monotone le) (hpre : ∀ g o, pre o → C.pre g o)
    (hpost : ∀ g o r, C.post g o r → post o r) {Q : Unit → α → Prop} (h : (plain pre post).Safe () p Q)
    (g : γ) : C.Safe g p fun g' a => le g g' ∧ Q () a := by
  induction p generalizing g with
  | ret a => exact ⟨hC.refl g, h⟩
  | op o k ih =>
    refine ⟨hpre g o h.1, fun r hr => ?_⟩
    refine (ih r (h.2 r (hpost g o r hr)) _).mono fun g' a ha => ?_
    exact ⟨hC.trans (hC.grow g o r) ha.1, ha.2⟩

theorem Safe.weaken (hC : C.Monotone le) {g' : γ} (hQ : ∀ h h' a, le h h' → Q h a → Q h' a)
    (hle : le g g') (h : C.Safe g p Q) : C.Safe g' p Q := by
  induction p generalizing g g' with
  | ret a => exact hQ g g' a hle h
  | op o k ih =>
    refine ⟨hC.pre hle h.1, fun r hr => ?_⟩
    exact ih r (hC.upd o r hle) (h.2 r (hC.post hle hr))

theorem Safe.cancellable (hC : C.Monotone le) {tick : Op} {struck : Res tick → Bool}
    (htick : ∀ g, C.pre g tick) {E : Prop} (hE : ∀ g t, C.post g tick t → struck t = true → E)
    (hQ : ∀ h h' a, le h h' → Q h a → Q h' a) (h : C.Safe g p Q) :
    C.Safe g (p.cancellable tick struck) fun h o => (∀ a, o = some a → Q h a) ∧ (o = none → E) := by
  induction p generalizing g with
  | ret a =>
    refine ⟨?_, nofun⟩
    intro b hb
    cases hb
    exact h
  | op o k ih =>
    refine ⟨htick g, fun t ht => ?_⟩
    dsimp only
    split
    · rename_i hstruck
      exact ⟨fun b hb => (nomatch hb), fun _ => hE g t ht hstruck⟩
    have hg := hC.grow g tick t
    refine ⟨hC.pre hg h.1, fun r hr => ?_⟩
    have hk := h.2 r (hC.post hg hr)
    exact ih r (hk.weaken hC hQ (hC.upd o r hg))

theorem Safe.parRight (hC : C.Monotone le) {left : Res pick → Bool} (hpick : ∀ g, C.pre g pick)
    {Q : γ → β → Prop} (hP : ∀ h h' a, le h h' → P h a → P h' a)
    (hQ : ∀ h h' b, le h h' → Q h b → Q h' b) {k : Res o → Prog Op Res α}
    {f : Res o → Prog Op Res β → Prog Op Res (α × β)}
    (hf : ∀ g r q, C.Safe g (k r) P → C.Safe g q Q → C.Safe g (f r q) fun h ab => P h ab.1 ∧ Q h ab.2)
    (hp : C.Safe g (.op o k) P) (hq : C.Safe g q Q) :
    C.Safe g (parRight pick left o k f q) fun h ab => P h ab.1 ∧ Q h ab.2 := by
  induction q generalizing g with
  | ret b =>
    refine ⟨hp.1, fun r hr => ?_⟩
    -- The right side is done, so its fact has to survive the rest of the left side.
    have hb : Q (C.upd g o r) b := hQ _ _ b (hC.grow g o r) hq
    suffices ∀ (h : γ) (p : Prog Op Res α), C.Safe h p P → Q h b →
        C.Safe h (p >>= fun a => .ret (a, b)) fun h ab => P h ab.1 ∧ Q h ab.2 from
      this _ _ (hp.2 r hr) hb
    intro h p hsafe hbq
    induction p generalizing h with
    | ret a => exact ⟨hsafe, hbq⟩
    | op o' k' ih =>
      exact ⟨hsafe.1, fun r' hr' =>
        ih r' _ (hsafe.2 r' hr') (hQ _ _ b (hC.grow h o' r') hbq)⟩
  | op o' k' ih =>
    refine ⟨hpick g, fun c _ => ?_⟩
    have hg := hC.grow g pick c
    have hp' := hp.weaken hC hP hg
    have hq' := hq.weaken hC hQ hg
    dsimp only
    split
    · exact ⟨hp'.1, fun r hr => hf _ r _ (hp'.2 r hr) (hq'.weaken hC hQ (hC.grow _ o r))⟩
    · exact ⟨hq'.1, fun r hr => ih r (hp'.weaken hC hP (hC.grow _ o' r)) (hq'.2 r hr)⟩

theorem Safe.par (hC : C.Monotone le) {left : Res pick → Bool} (hpick : ∀ g, C.pre g pick)
    {Q : γ → β → Prop} (hP : ∀ h h' a, le h h' → P h a → P h' a)
    (hQ : ∀ h h' b, le h h' → Q h b → Q h' b) (hp : C.Safe g p P) (hq : C.Safe g q Q) :
    C.Safe g (Prog.par pick left p q) fun h ab => P h ab.1 ∧ Q h ab.2 := by
  induction p generalizing g q with
  | ret a =>
    refine safe_bind.mpr ?_
    induction q generalizing g with
    | ret b => exact ⟨hp, hq⟩
    | op o k ih =>
      exact ⟨hq.1, fun r hr => ih r (hP _ _ a (hC.grow g o r) hp) (hq.2 r hr)⟩
  | op o k ih =>
    exact Safe.parRight hC hpick hP hQ (fun g r q hk hq => ih r hk hq) hp hq

theorem Safe.parAll (hC : C.Monotone le) {left : Res pick → Bool} (hpick : ∀ g, C.pre g pick) {δ : Type}
    {f : δ → Prog Op Res α} {P : δ → γ → α → Prop} (hP : ∀ d h h' a, le h h' → P d h a → P d h' a)
    {ds : List δ} (h : ∀ d ∈ ds, C.Safe g (f d) (P d)) :
    C.Safe g (Prog.parAll pick left (ds.map f)) fun h as => List.Forall₂ (fun d a => P d h a) ds as := by
  induction ds with
  | nil => exact .nil
  | cons d ds ih =>
    have hd := h d (.head _)
    have hds := ih fun e he => h e (.tail _ he)
    have hstable : ∀ h h' as, le h h' → List.Forall₂ (fun d a => P d h a) ds as →
        List.Forall₂ (fun d a => P d h' a) ds as :=
      fun h h' as hle hf => hf.imp fun d a hda => hP d h h' a hle hda
    refine Safe.bind (Safe.par hC hpick (hP d) hstable hd hds) ?_
    rintro h ⟨a, as⟩ ⟨ha, has⟩
    exact .cons ha has

end Contract

/-! ## Any number of tasks, in any order -/

/-- What the operations do, what moves the state besides, where the system starts and which programs
may be started in it. -/
structure System (ι Op : Type) (Res : Op → Type) (σ : Type) where
  init : σ → Prop
  env : σ → σ → Prop
  step : ι → σ → (o : Op) → Res o → σ → Prop
  start : ι → Prog Op Res Unit → Prop

namespace System

/-- `S.Reach s ts`: the system can be in state `s` with the unfinished tasks `ts`. -/
inductive Reach (S : System ι Op Res σ) : σ → List (ι × Prog Op Res Unit) → Prop
  | init {s : σ} : S.init s → Reach S s []
  | env {s s' : σ} {ts : List (ι × Prog Op Res Unit)} : Reach S s ts → S.env s s' → Reach S s' ts
  | spawn {s : σ} {ts : List (ι × Prog Op Res Unit)} {i : ι} {p : Prog Op Res Unit} :
      Reach S s ts → S.start i p → Reach S s ((i, p) :: ts)
  | step {s s' : σ} {ts us : List (ι × Prog Op Res Unit)} {i : ι} {o : Op}
      {k : Res o → Prog Op Res Unit} {r : Res o} :
      Reach S s (ts ++ (i, .op o k) :: us) → S.step i s o r s' →
      Reach S s' (ts ++ (i, k r) :: us)
  | drop {s : σ} {ts us : List (ι × Prog Op Res Unit)} {t : ι × Prog Op Res Unit} :
      Reach S s (ts ++ t :: us) → Reach S s (ts ++ us)

structure Keeps (S : System ι Op Res σ) (C : ι → Contract γ Op Res) (inv : σ → Prop)
    (knows : σ → γ → Prop) (g₀ : γ) : Prop where
  init : ∀ s, S.init s → inv s
  fresh : ∀ s, knows s g₀
  env : ∀ s s', inv s → S.env s s' → inv s' ∧ ∀ g, knows s g → knows s' g
  step : ∀ i s o r s' g, inv s → knows s g → (C i).pre g o → S.step i s o r s' →
    (C i).post g o r ∧ inv s' ∧ knows s' ((C i).upd g o r)
  stable : ∀ i s o r s', inv s → S.step i s o r s' → ∀ g, knows s g → knows s' g
  start : ∀ i p, S.start i p → (C i).Safe g₀ p fun _ _ => True

variable {S : System ι Op Res σ} {C : ι → Contract γ Op Res} {inv : σ → Prop} {knows : σ → γ → Prop}
  {g₀ : γ} {h : σ → (o : Op) → Res o × σ} {i : ι} {p : Prog Op Res Unit}
  {post : ι → (o : Op) → Res o → Prop} {s : σ} {ts : List (ι × Prog Op Res Unit)}

/-- **The rule for interleavings.**  If every task that may be started is safe on its own, the invariant
holds in every reachable state, whatever the order of the steps, and every unfinished task is still
safe. -/
theorem Keeps.reach (hK : S.Keeps C inv knows g₀) (h : S.Reach s ts) :
    inv s ∧ ∀ t ∈ ts, ∃ g, knows s g ∧ (C t.1).Safe g t.2 fun _ _ => True := by
  -- An unfinished task stays safe while the others move the state: what it knows is stable.
  have hmove : ∀ {s₁ s₂ : σ} {t : ι × Prog Op Res Unit}, (∀ g, knows s₁ g → knows s₂ g) →
      (∃ g, knows s₁ g ∧ (C t.1).Safe g t.2 fun _ _ => True) →
      ∃ g, knows s₂ g ∧ (C t.1).Safe g t.2 fun _ _ => True := by
    rintro s₁ s₂ t hst ⟨g, hg, hsafe⟩
    exact ⟨g, hst g hg, hsafe⟩
  induction h with
  | init h => exact ⟨hK.init _ h, fun t ht => nomatch ht⟩
  | env _ he ih =>
    obtain ⟨hi, hst⟩ := hK.env _ _ ih.1 he
    exact ⟨hi, fun t ht => hmove hst (ih.2 t ht)⟩
  | @spawn s ts i p _ hp ih =>
    refine ⟨ih.1, ?_⟩
    intro t ht
    rcases mem_cons.mp ht with rfl | ht
    · exact ⟨g₀, hK.fresh s, hK.start i p hp⟩
    · exact ih.2 t ht
  | @step s s' ts us i o k r _ hs ih =>
    obtain ⟨g, hg, hsafe⟩ := ih.2 (i, .op o k) (by simp)
    obtain ⟨hpost, hinv, hknows⟩ := hK.step i s o r s' g ih.1 hg hsafe.1 hs
    have hst := hK.stable i s o r s' ih.1 hs
    refine ⟨hinv, ?_⟩
    intro t ht
    rcases mem_append.mp ht with ht | ht
    · exact hmove hst (ih.2 t (mem_append_left _ ht))
    · rcases mem_cons.mp ht with rfl | ht
      · exact ⟨_, hknows, hsafe.2 r hpost⟩
      · exact hmove hst (ih.2 t (mem_append_right _ (.tail _ ht)))
  | drop _ ih =>
    refine ⟨ih.1, ?_⟩
    intro t ht
    apply ih.2 t
    rcases mem_append.mp ht with ht | ht
    · exact mem_append_left _ ht
    · exact mem_append_right _ (.tail _ ht)

theorem Keeps.reach_inv (hK : S.Keeps C inv knows g₀) (h : S.Reach s ts) : inv s := (hK.reach h).1

theorem Keeps.reach_pre (hK : S.Keeps C inv knows g₀) (h : S.Reach s ts) {o : Op}
    {k : Res o → Prog Op Res Unit} (ht : (i, .op o k) ∈ ts) : ∃ g, knows s g ∧ (C i).pre g o := by
  obtain ⟨g, hg, hsafe⟩ := (hK.reach h).2 _ ht
  exact ⟨g, hg, hsafe.1⟩

theorem Reach.invariant (hinit : ∀ s, S.init s → inv s) (henv : ∀ s s', inv s → S.env s s' → inv s')
    (hstep : ∀ i s o r s', inv s → S.step i s o r s' → inv s') (h : S.Reach s ts) : inv s := by
  induction h with
  | init h => exact hinit _ h
  | env _ he ih => exact henv _ _ ih he
  | spawn _ _ ih => exact ih
  | step _ hs ih => exact hstep _ _ _ _ _ ih hs
  | drop _ ih => exact ih

theorem keeps_plain {pre : ι → Op → Prop} (init : ∀ s, S.init s → inv s)
    (env : ∀ s s', inv s → S.env s s' → inv s')
    (step : ∀ i s o r s', inv s → pre i o → S.step i s o r s' → post i o r ∧ inv s')
    (start : ∀ i p, S.start i p → (Contract.plain (pre i) (post i)).Safe () p fun _ _ => True) :
    S.Keeps (fun i => Contract.plain (pre i) (post i)) inv (fun _ _ => True) () where
  init := init
  fresh _ := trivial
  env s s' hi he := ⟨env s s' hi he, fun _ _ => trivial⟩
  step i s o r s' _ hi _ hpre hs :=
    have h := step i s o r s' hi hpre hs
    ⟨h.1, h.2, trivial⟩
  stable _ _ _ _ _ _ _ _ _ := trivial
  start := start

theorem keeps_learning {φ : Type} {holds : σ → φ → Prop} {pre : ι → List φ → Op → Prop}
    {learn : ι → (o : Op) → Res o → List φ} (init : ∀ s, S.init s → inv s)
    (env : ∀ s s', inv s → S.env s s' → inv s' ∧ ∀ f, holds s f → holds s' f)
    (step : ∀ i s o r s' g, inv s → (∀ f ∈ g, holds s f) → pre i g o → S.step i s o r s' → post i o r ∧ inv s' ∧ ∀ f ∈ learn i o r, holds s' f)
    (stable : ∀ i s o r s' f, S.step i s o r s' → holds s f → holds s' f)
    (start : ∀ i p, S.start i p → (Contract.learning (pre i) (post i) (learn i)).Safe [] p fun _ _ => True) :
    S.Keeps (fun i => Contract.learning (pre i) (post i) (learn i)) inv
      (fun s g => ∀ f ∈ g, holds s f) [] where
  init := init
  fresh _ f hf := nomatch hf
  env s s' hi he := ⟨(env s s' hi he).1, fun g hg f hf => (env s s' hi he).2 f (hg f hf)⟩
  step i s o r s' g hi hg hpre hs := by
    obtain ⟨hpost, hinv, hlearn⟩ := step i s o r s' g hi hg hpre hs
    refine ⟨hpost, hinv, ?_⟩
    intro f hf
    rcases mem_append.mp hf with hf | hf
    · exact hlearn f hf
    · exact stable i s o r s' f hs (hg f hf)
  stable i s o r s' _ hs g hg f hf := stable i s o r s' f hs (hg f hf)
  start := start

theorem Reach.step_head {o : Op} {k : Res o → Prog Op Res Unit} {r : Res o} {s' : σ}
    (h : S.Reach s ((i, .op o k) :: ts)) (hs : S.step i s o r s') : S.Reach s' ((i, k r) :: ts) :=
  have hstep : S.Reach s ([] ++ (i, .op o k) :: ts) := h
  .step hstep hs

theorem Reach.exec (hh : ∀ s o, S.step i s o (h s o).1 (h s o).2) (hr : S.Reach s ((i, p) :: ts)) :
    S.Reach (p.exec h s).2 ((i, .ret ()) :: ts) := by
  induction p generalizing s with
  | ret a => exact hr
  | op o k ih =>
    exact ih _ (hr.step_head (hh s o))

theorem Reach.exec_bind (hh : ∀ s o, S.step i s o (h s o).1 (h s o).2) {p : Prog Op Res α}
    {f : α → Prog Op Res Unit} (hr : S.Reach s ((i, p >>= f) :: ts)) :
    S.Reach (p.exec h s).2 ((i, f (p.exec h s).1) :: ts) := by
  induction p generalizing s with
  | ret a => exact hr
  | op o k ih => exact ih _ (hr.step_head (hh s o))

theorem Reach.execFor (hh : ∀ s o, S.step i s o (h s o).1 (h s o).2) (n : Nat)
    (hr : S.Reach s ((i, p) :: ts)) : S.Reach (p.execFor h n s).2 ((i, (p.execFor h n s).1) :: ts) := by
  induction n generalizing p s with
  | zero => exact hr
  | succ n ih =>
    cases p with
    | ret a => exact hr
    | op o k => exact ih (hr.step_head (hh s o))

theorem Reach.relabel {κ : Type} {S' : System κ Op Res σ} {f : κ → ι}
    (hinit : ∀ s, S'.init s → S.init s) (henv : ∀ s s', S'.env s s' → S.env s s')
    (hstep : ∀ i s o r s', S'.step i s o r s' → S.step (f i) s o r s')
    (hstart : ∀ i p, S'.start i p → S.start (f i) p) {ts : List (κ × Prog Op Res Unit)}
    (h : S'.Reach s ts) : S.Reach s (ts.map fun t => (f t.1, t.2)) := by
  induction h with
  | init hs => exact .init (hinit _ hs)
  | env _ he ih => exact .env ih (henv _ _ he)
  | spawn _ hp ih => exact .spawn ih (hstart _ _ hp)
  | step _ hs ih =>
    rw [map_append] at ih ⊢
    exact .step ih (hstep _ _ _ _ _ hs)
  | drop _ ih =>
    rw [map_append] at ih ⊢
    exact .drop ih

end System

end Dnsd.Lib
