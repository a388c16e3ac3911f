/-
# PoolLifetime — how long a pooled connection is used.

`exchange_pooled` puts a stream back as `DotConn::new(stream)`, which sets `created_at` anew, so `MAX_LIFETIME` is
counted from there and never decides (`lifetime_exceeded`).  What holds is a consequence of `IDLE_CAP`.
-/
import Dnsd.Properties.PoolIsolation

namespace Dnsd.Upstream.Pooled

open Lib Prog List

variable {S E R : Type} {key : DotConnKey}

structure Dated (S : Type) where
  world : World S
  /-- When each stream was built. -/
  built : List (S × Instant)
  /-- When a stream was put back. -/
  putBack : List (S × Instant)

namespace Dated

def start : Dated S := ⟨.empty, [], []⟩

/-- An operation was performed and has led to the state `w`. -/
def after (d : Dated S) (w : World S) : (o : Op S) → Op.Res S E R o → Dated S
  | .build _, .ok s => ⟨w, (s, d.world.now) :: d.built, d.putBack⟩
  | .release _ conn, _ => ⟨w, d.built, (conn.stream, d.world.now) :: d.putBack⟩
  | _, _ => { d with world := w }

def Filed (d : Dated S) : Prop := ∀ k, ∀ c ∈ d.world.pool.idle k, (c.stream, c.lastUsed) ∈ d.putBack

end Dated

/-- Calls of `exchange_pooled` for one key, any number of them at a time, while time passes. -/
def dated (S E R : Type) [DecidableEq S] (key : DotConnKey) : System Unit (Op S) (Op.Res S E R) (Dated S) where
  init d := d = .start
  env d d' := ∃ w, Env d.world w ∧ d' = { d with world := w }
  step _ d o r d' := ∃ w, Step d.world o r w ∧ d' = d.after w o r
  start _ p := p = (exchange key >>= fun _ => return ())

theorem filed_step [DecidableEq S] {d : Dated S} {o : Op S} {r : Op.Res S E R o} {w : World S} (hd : d.Filed)
    (h : Step d.world o r w) : (d.after w o r).Filed := by
  cases h with
  | take key =>
    intro k c hc
    exact hd k c ((d.world.pool.take_bucket d.world.now key k).sublist.subset (mem_append_right _ hc))
  | release key conn =>
    intro k c hc
    rcases d.world.pool.release_bucket d.world.now key k conn with hsame | ⟨rfl, -, hpush⟩
    · exact .tail _ (hd k c (hsame ▸ hc))
    · rcases mem_cons.mp (hpush ▸ hc) with rfl | hc
      · exact mem_cons_self
      · exact .tail _ (hd k c hc)
  | _ => exact hd

theorem reach_filed [DecidableEq S] {d : Dated S} {ts : List (Unit × Task S E R Unit)}
    (h : (dated S E R key).Reach d ts) : d.Filed := by
  refine h.invariant ?_ ?_ ?_
  · rintro _ rfl k c hc
    cases hc
  · rintro d _ hd ⟨w, henv, rfl⟩
    cases henv with
    | later t _ => exact hd
    | sweep => exact fun k c hc => hd k c ((d.world.pool.sweep_bucket d.world.now k).subset hc)
  · rintro _ d o r _ hd ⟨w, hstep, rfl⟩
    exact filed_step hd hstep

/-- **The lifetime of a stream.**  In every run of calls for a key: if no stream was put back later than
`MAX_LIFETIME` less `IDLE_CAP` after it was built, then no exchange starts on a stream that was built `MAX_LIFETIME`
ago or earlier. -/
theorem lifetime_capped [DecidableEq S] {d : Dated S} {ts : List (Unit × Task S E R Unit)} {c : DotConn S}
    {b : Instant} (h : (dated S E R key).Reach d ts)
    (hput : ∀ s r b, (s, r) ∈ d.putBack → (s, b) ∈ d.built → r + idleCap ≤ b + maxLifetime)
    (hc : (d.world.pool.take d.world.now key).1 = some c) (hb : (c.stream, b) ∈ d.built) :
    d.world.now < b + maxLifetime := by
  obtain ⟨hmem, hfresh⟩ := DotPool.pop_some hc
  have hused := hput c.stream c.lastUsed b (reach_filed h key c hmem) hb
  simp only [DotConn.isStale, Bool.or_eq_false_iff, decide_eq_false_iff_not] at hfresh
  have hidle : d.world.now < c.lastUsed + idleCap := Nat.lt_of_not_le fun hlong =>
    hfresh.1 (Nat.le_sub_of_add_le' hlong)
  exact Nat.lt_of_lt_of_le hidle hused

def smoothDated (d : Dated Nat) (o : Op Nat) : Op.Res Nat Unit Unit o × Dated Nat :=
  ((smooth d.world o).1, d.after (smooth d.world o).2 o (smooth d.world o).1)

def round (d : Dated Nat) : Dated Nat :=
  let d' := ((exchange torKey >>= fun _ => return () : Task Nat Unit Unit Unit).exec smoothDated d).2
  { d' with world := { d'.world with now := d'.world.now + seconds 29 } }

theorem reach_rounds (n : Nat) : (dated Nat Unit Unit torKey).Reach (round^[n] .start) [] := by
  induction n with
  | zero => exact .init rfl
  | succ n ih =>
    rw [Function.iterate_succ_apply']
    have hstep : ∀ d o, (dated Nat Unit Unit torKey).step () d o (smoothDated d o).1 (smoothDated d o).2 :=
      fun d o => ⟨_, smooth_step d.world o, rfl⟩
    have hcall := (ih.spawn (i := ()) rfl).exec hstep
    have hdone : (dated Nat Unit Unit torKey).Reach _ ([] ++ []) := .drop hcall
    exact .env hdone ⟨_, .later _ _ (Nat.le_add_right ..), rfl⟩

theorem lifetime_capped_once : ∃ d, (dated Nat Unit Unit torKey).Reach d [] ∧
    (d.world.pool.take d.world.now torKey).1 = some ⟨1, 0, 0⟩ ∧ (1, 0) ∈ d.built ∧
      d.world.now < 0 + maxLifetime := by
  have hput : ∀ s r b, (s, r) ∈ (round^[1] .start).putBack → (s, b) ∈ (round^[1] .start).built →
      r + idleCap ≤ b + maxLifetime := by
    intro s r b hr hb
    obtain ⟨-, rfl⟩ := Prod.mk.inj (mem_singleton.mp hr)
    exact Nat.le_trans (by decide) (Nat.le_add_left ..)
  have hc : ((round^[1] .start).world.pool.take (round^[1] .start).world.now torKey).1 = some ⟨1, 0, 0⟩ := by
    decide +kernel
  have hb : (1, 0) ∈ (round^[1] .start).built := by decide +kernel
  exact ⟨_, reach_rounds 1, hc, hb, lifetime_capped (reach_rounds 1) hput hc hb⟩

theorem lifetime_exceeded : ∃ d c, (dated Nat Unit Unit torKey).Reach d [] ∧
    (d.world.pool.take d.world.now torKey).1 = some c ∧ (c.stream, 0) ∈ d.built ∧
      0 + maxLifetime ≤ d.world.now := by
  refine ⟨_, ⟨1, seconds 290, seconds 290⟩, reach_rounds 11, ?_⟩
  decide +kernel

end Dnsd.Upstream.Pooled
