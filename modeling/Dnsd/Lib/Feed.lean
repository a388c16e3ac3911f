/-
# Feed — a stream that arrives in pieces.

A read delivers at most so many symbols of what is still to come, and at least one if there is one; how the
stream is cut is arbitrary.  A dialogue of exact reads is carried out by such reads (`inPieces`), and the cuts do
not matter (`exec_inPieces`).
-/
import Dnsd.Lib.Interpret

namespace Dnsd.Lib

open List

variable {α β : Type}

/-! ## Pieces -/

/-- What is to come.  The next read delivers at most `cuts 0 + 1` symbols of it, the one after `cuts 1 + 1`, and so
on. -/
structure Feed (α : Type) where
  unread : List α
  cuts : Nat → Nat

namespace Feed

/-- A read of at most `max` symbols. -/
def read (f : Feed α) (max : Nat) : List α × Feed α :=
  (f.unread.take (min max (f.cuts 0 + 1)), ⟨f.unread.drop (min max (f.cuts 0 + 1)), fun n => f.cuts (n + 1)⟩)

variable (f : Feed α) (max : Nat)

theorem read_append : (f.read max).1 ++ (f.read max).2.unread = f.unread := take_append_drop ..

theorem length_read_le : (f.read max).1.length ≤ max := by
  unfold read
  rw [length_take]
  omega

theorem read_eq_nil_iff {f : Feed α} {max : Nat} (h : 0 < max) : (f.read max).1 = [] ↔ f.unread = [] := by
  unfold read
  rw [← length_eq_zero_iff, ← length_eq_zero_iff, length_take]
  omega

end Feed

/-! ## Exact amounts -/

inductive ExactOp (α : Type) where
  | readExact (n : Nat)
  | write (symbols : List α)

/-- A read fails at the end of the stream; a write says whether it worked. -/
@[reducible] def ExactOp.Res : ExactOp α → Type
  | .readExact _ => Option (List α)
  | .write _ => Bool

inductive PieceOp (α : Type) where
  | read (max : Nat)
  | write (symbols : List α)

@[reducible] def PieceOp.Res : PieceOp α → Type
  | .read _ => Option (List α)
  | .write _ => Bool

/-- The loop behind an exact read, with `n` symbols to go. -/
def readLoop : Nat → Nat → List α → Prog (PieceOp α) PieceOp.Res (Option (List α))
  | _, 0, got => return some got
  | 0, _, _ => return none
  | fuel + 1, n, got => do
      let piece : Option (List α) ← Prog.perform (PieceOp.read n)
      match piece with
      | none => return none
      | some [] => return none
      | some piece => readLoop fuel (n - piece.length) (got ++ piece)

def inPieces : (o : ExactOp α) → Prog (PieceOp α) PieceOp.Res o.Res
  | .readExact n => readLoop n n []
  | .write symbols => Prog.perform (PieceOp.write symbols)

/-- One side's view: what the other side will have sent, and what it has been sent. -/
@[ext] structure Talk (α : Type) where
  unread : List α
  written : List α

/-- Exact operations on a stream that is there as a whole.  A read that fails has used it up. -/
def Talk.answer (s : Talk α) : (o : ExactOp α) → o.Res × Talk α
  | .readExact n =>
      if n ≤ s.unread.length then (some (s.unread.take n), { s with unread := s.unread.drop n })
      else (none, { s with unread := [] })
  | .write symbols => (true, { s with written := s.written ++ symbols })

theorem Talk.answer_enough {s : Talk α} {n : Nat} (h : n ≤ s.unread.length) :
    s.answer (.readExact n) = (some (s.unread.take n), { s with unread := s.unread.drop n }) := if_pos h

theorem Talk.answer_short {s : Talk α} {n : Nat} (h : ¬ n ≤ s.unread.length) :
    s.answer (.readExact n) = (none, { s with unread := [] }) := if_neg h

section

variable (k : Option (List α) → Prog (ExactOp α) ExactOp.Res β) (written : List α)

theorem exec_read_append (symbols rest : List α) :
    (Prog.op (.readExact symbols.length) k).exec Talk.answer ⟨symbols ++ rest, written⟩ =
      (k (some symbols)).exec Talk.answer ⟨rest, written⟩ := by
  show (k (Talk.answer _ (.readExact symbols.length)).1).exec _ (Talk.answer _ (.readExact symbols.length)).2 = _
  rw [Talk.answer_enough (by simp), take_left, drop_left]

theorem exec_read_short {n : Nat} {unread : List α} (h : unread.length < n) :
    (Prog.op (.readExact n) k).exec Talk.answer ⟨unread, written⟩ = (k none).exec Talk.answer ⟨[], written⟩ := by
  show (k (Talk.answer _ (.readExact n)).1).exec _ (Talk.answer _ (.readExact n)).2 = _
  rw [Talk.answer_short (Nat.not_le.mpr h)]

end

def pieceAnswer (s : Feed α × List α) : (o : PieceOp α) → o.Res × (Feed α × List α)
  | .read max => (some (s.1.read max).1, ((s.1.read max).2, s.2))
  | .write symbols => (true, (s.1, s.2 ++ symbols))

theorem exec_readLoop {fuel n : Nat} (hfuel : n ≤ fuel) (got : List α) (f : Feed α) (w : List α) : ∃ cuts,
    (readLoop fuel n got).exec pieceAnswer (f, w) =
      if n ≤ f.unread.length then (some (got ++ f.unread.take n), ⟨f.unread.drop n, cuts⟩, w)
      else (none, ⟨[], cuts⟩, w) := by
  induction fuel generalizing n got f with
  | zero =>
    obtain rfl := Nat.le_zero.mp hfuel
    exact ⟨f.cuts, by simp [readLoop, Prog.exec]⟩
  | succ fuel ih =>
    cases n with
    | zero => exact ⟨f.cuts, by simp [readLoop, Prog.exec]⟩
    | succ n =>
      have hsplit := f.read_append (n + 1)
      have hle := f.length_read_le (n + 1)
      show ∃ cuts, Prog.exec pieceAnswer (match some (f.read (n + 1)).1 with
        | none => return none
        | some [] => return none
        | some piece => readLoop fuel (n + 1 - piece.length) (got ++ piece)) ((f.read (n + 1)).2, w) = _
      cases hpiece : (f.read (n + 1)).1 with
      | nil =>
        have hend := (Feed.read_eq_nil_iff (Nat.succ_pos n)).mp hpiece
        rw [hpiece, hend, nil_append] at hsplit
        refine ⟨(f.read (n + 1)).2.cuts, ?_⟩
        show (none, (f.read (n + 1)).2, w) = _
        rw [hend, if_neg (by exact Nat.not_succ_le_zero n), ← hsplit]
      | cons x piece =>
        rw [hpiece] at hle
        obtain ⟨cuts, hrest⟩ := ih (n := n + 1 - (x :: piece).length) (by rw [length_cons]; omega)
          (got ++ x :: piece) (f.read (n + 1)).2
        refine ⟨cuts, hrest.trans ?_⟩
        rw [← hsplit, hpiece]
        have htake : (x :: piece).take (n + 1) = x :: piece := take_of_length_le hle
        have hdrop : (x :: piece).drop (n + 1) = [] := drop_of_length_le hle
        by_cases hlen : n + 1 - (x :: piece).length ≤ (f.read (n + 1)).2.unread.length
        · rw [if_pos hlen, if_pos (by rw [length_append]; omega), take_append, drop_append, htake,
            hdrop, append_assoc, nil_append]
        · rw [if_neg hlen, if_neg (by rw [length_append]; omega)]

theorem exec_inPieces_op (o : ExactOp α) (s : Talk α) (cuts : Nat → Nat) : ∃ cuts',
    (inPieces o).exec pieceAnswer (⟨s.unread, cuts⟩, s.written) =
      ((s.answer o).1, ⟨(s.answer o).2.unread, cuts'⟩, (s.answer o).2.written) := by
  cases o with
  | readExact n =>
    obtain ⟨cuts', hread⟩ := exec_readLoop (Nat.le_refl n) [] ⟨s.unread, cuts⟩ s.written
    refine ⟨cuts', hread.trans ?_⟩
    by_cases hn : n ≤ s.unread.length
    · rw [Talk.answer_enough hn, if_pos hn, nil_append]
    · rw [Talk.answer_short hn, if_neg hn]
  | write symbols => exact ⟨cuts, rfl⟩

/-- **The cuts do not matter to exact reads.** -/
theorem exec_inPieces (p : Prog (ExactOp α) ExactOp.Res β) (s : Talk α) (cuts : Nat → Nat) : ∃ cuts',
    (p.interp inPieces).exec pieceAnswer (⟨s.unread, cuts⟩, s.written) =
      ((p.exec Talk.answer s).1, ⟨(p.exec Talk.answer s).2.unread, cuts'⟩, (p.exec Talk.answer s).2.written) := by
  induction p generalizing s cuts with
  | ret a => exact ⟨cuts, rfl⟩
  | op o k ih =>
    obtain ⟨cuts₁, hop⟩ := exec_inPieces_op o s cuts
    show ∃ cuts', Prog.exec pieceAnswer (inPieces o >>= fun r => (k r).interp inPieces) _ = _
    rw [Prog.exec_bind, hop]
    exact ih _ _ cuts₁

/-! ## Dialogues that may fail -/

abbrev Dialogue (E α β : Type) := ExceptT E (Prog (ExactOp α) ExactOp.Res) β

namespace Dialogue

variable {E γ : Type} {e : E} {s s' : Talk α} {symbols : List α} {x : Dialogue E α β}

/-- Read `n` symbols, or fail. -/
def receive (e : E) (n : Nat) : Dialogue E α (List α) :=
  ExceptT.mk <| .op (.readExact n) fun
    | none => .ret (.error e)
    | some symbols => .ret (.ok symbols)

def send (e : E) (symbols : List α) : Dialogue E α Unit :=
  ExceptT.mk <| .op (.write symbols) fun
    | true => .ret (.ok ())
    | false => .ret (.error e)

def Gives (x : Dialogue E α β) (s : Talk α) (b : β) (s' : Talk α) : Prop :=
  x.run.exec Talk.answer s = (.ok b, s')

theorem gives_pure {a b : β} : Gives (pure a : Dialogue E α β) s b s' ↔ b = a ∧ s' = s := by
  show (Except.ok a, s) = (.ok b, s') ↔ _
  rw [Prod.mk.injEq, Except.ok.injEq, eq_comm, @eq_comm _ s]

theorem not_gives_throw {b : β} : ¬ Gives (throw e : Dialogue E α β) s b s' := nofun

theorem gives_guard {c : Prop} [Decidable c] {b : β} :
    Gives (if c then throw e else x) s b s' ↔ ¬c ∧ Gives x s b s' := by
  by_cases hc : c
  · rw [if_pos hc]
    exact ⟨fun h => absurd h not_gives_throw, fun h => absurd hc h.1⟩
  · rw [if_neg hc, and_iff_right hc]

theorem gives_bind {f : β → Dialogue E α γ} {c : γ} :
    Gives (x >>= f) s c s' ↔ ∃ b s₁, Gives x s b s₁ ∧ Gives (f b) s₁ c s' := by
  unfold Gives
  rw [ExceptT.run_bind, Prog.exec_bind]
  generalize x.run.exec Talk.answer s = r
  obtain ⟨_ | b, s₁⟩ := r
  · exact ⟨nofun, nofun⟩
  · constructor
    · exact fun h => ⟨b, s₁, rfl, h⟩
    · rintro ⟨_, _, ⟨⟩, h⟩
      exact h

theorem gives_send_bind {f : Unit → Dialogue E α β} {b : β} :
    Gives (send e symbols >>= f) s b s' ↔ Gives (f ()) { s with written := s.written ++ symbols } b s' := Iff.rfl

theorem gives_receive_bind {n : Nat} {f : List α → Dialogue E α β} {b : β} :
    Gives (receive e n >>= f) s b s' ↔ ∃ symbols rest, symbols.length = n ∧ s.unread = symbols ++ rest ∧
      Gives (f symbols) { s with unread := rest } b s' := by
  rw [gives_bind]
  unfold Gives receive
  simp only [ExceptT.run_mk, Prog.exec]
  by_cases hn : n ≤ s.unread.length
  · rw [Talk.answer_enough hn]
    constructor
    · rintro ⟨_, _, ⟨⟩, h⟩
      exact ⟨_, _, length_take_of_le hn, (take_append_drop n s.unread).symm, h⟩
    · rintro ⟨symbols, rest, rfl, hunread, h⟩
      rw [hunread, take_left, drop_left]
      exact ⟨symbols, _, rfl, h⟩
  · rw [Talk.answer_short hn]
    refine ⟨nofun, ?_⟩
    rintro ⟨symbols, rest, rfl, hunread, _⟩
    rw [hunread, length_append] at hn
    exact absurd (Nat.le_add_right ..) hn

end Dialogue

end Dnsd.Lib
