/-
# HoldDown — a new key is trusted only after its hold-down.

The invariant ties the time stored in a pending entry to the run: then the key was observed with SEP and without
REVOKE, and every refresh since has shown it so.  Several copies of a key in one response give several entries.
-/
import Dnsd.Recursor.Anchor

namespace Dnsd.Recursor

open Proto List

def Presented (id : KeyId) (r : Refresh) : Prop :=
  ∃ o ∈ r.observed, observedId o = id ∧ o.2.secureEntryPoint = true ∧ o.2.revoke = false

/-- The refresh observed the key, and its first occurrence is without REVOKE. -/
def Shown (id : KeyId) (r : Refresh) : Prop := ∃ o, firstSeen id r.observed = some o ∧ o.2.revoke = false

def WaitingSince (id : KeyId) (t : Nat) (run : List Refresh) : Prop :=
  ∃ before first since, run = before ++ first :: since ∧ first.now = t ∧ Presented id first ∧
    ∀ r ∈ since, Shown id r

/-- The key was offered at one refresh, shown by every one up to a second, and the two are at least the
hold-down apart. -/
def HeldDown (holdDown : Nat) (id : KeyId) (run : List Refresh) : Prop :=
  ∃ before first between second after, run = before ++ first :: (between ++ second :: after) ∧
    first.now + holdDown ≤ second.now ∧ Presented id first ∧ ∀ r ∈ between ++ [second], Shown id r

def OwedTo (holdDown : Nat) (id : KeyId) (run : List Refresh) : KeyStatus → Prop
  | .active => HeldDown holdDown id run
  | .pendingAdd t => WaitingSince id t run
  | .revoked _ => True

section

variable {K : Codec} {holdDown t : Nat} {id : KeyId} {run : List Refresh} {r : Refresh}

theorem WaitingSince.snoc (h : WaitingSince id t run) (hr : Shown id r) :
    WaitingSince id t (run ++ [r]) := by
  obtain ⟨before, first, since, rfl, ht, hoff, hall⟩ := h
  refine ⟨before, first, since ++ [r], by simp, ht, hoff, ?_⟩
  intro r' hr'
  rcases mem_append.mp hr' with hr' | hr'
  · exact hall r' hr'
  · exact mem_singleton.mp hr' ▸ hr

theorem HeldDown.snoc (h : HeldDown holdDown id run) : HeldDown holdDown id (run ++ [r]) := by
  obtain ⟨before, first, between, second, after, rfl, hrest⟩ := h
  exact ⟨before, first, between, second, after ++ [r], by simp, hrest⟩

theorem WaitingSince.heldDown (h : WaitingSince id t run) (hr : Shown id r)
    (hclock : (run ++ [r]).Pairwise fun a b => a.now ≤ b.now) (hdue : holdDown ≤ r.now - t) :
    HeldDown holdDown id (run ++ [r]) := by
  obtain ⟨before, first, since, rfl, rfl, hoff, hall⟩ := h
  -- The clock has not gone back, so the truncated difference is a real one.
  have hle : first.now ≤ r.now := by
    rw [pairwise_append] at hclock
    exact hclock.2.2 first (by simp) r (by simp)
  refine ⟨before, first, since, r, [], by simp, by omega, hoff, ?_⟩
  intro r' hr'
  rcases mem_append.mp hr' with hr' | hr'
  · exact hall r' hr'
  · exact mem_singleton.mp hr' ▸ hr

theorem owedTo_step {state : List ManagedKey}
    (hclock : (run ++ [r]).Pairwise fun a b => a.now ≤ b.now)
    (hstate : ∀ e ∈ state, e.keyId K = id → OwedTo holdDown id run e.status) :
    ∀ e ∈ (applyRefresh K state r.observed r.now holdDown).1, e.keyId K = id →
      OwedTo holdDown id (run ++ [r]) e.status := by
  intro e' he' hid
  rcases mem_applyRefresh.mp he' with ⟨e, he, hfate⟩ | ⟨o, hseeds, rfl⟩
  · have howed := hstate e he (hfate.keyId_eq.symm.trans hid)
    cases hfate with
    | promoted hst ho hrev hdue =>
      rw [hst] at howed
      exact WaitingSince.heldDown howed ⟨_, hid ▸ ho, hrev⟩ hclock hdue
    | waiting hst ho hrev _ =>
      rw [hst] at howed ⊢
      exact WaitingSince.snoc howed ⟨_, hid ▸ ho, hrev⟩
    | kept hst _ =>
      rw [hst] at howed ⊢
      exact HeldDown.snoc howed
    | revoked _ _ _ => trivial
    | remembered hst _ =>
      rw [hst]
      trivial
  · refine ⟨run, r, [], rfl, rfl, ⟨o, hseeds.mem, ?_, hseeds.sep, hseeds.live⟩, ?_⟩
    · exact (keyId_fromObserved o.1 o.2 _).symm.trans hid
    · exact fun _ h => nomatch h

theorem owedTo_run {state : List ManagedKey} (hnew : ∀ e ∈ state, e.keyId K ≠ id)
    (hclock : run.Pairwise fun a b => a.now ≤ b.now) :
    ∀ e ∈ refreshAll K holdDown state run, e.keyId K = id → OwedTo holdDown id run e.status := by
  induction run using List.reverseRecOn with
  | nil => exact fun e he hid => absurd hid (hnew e he)
  | append_singleton run r ih =>
    have hprefix := (pairwise_append.mp hclock).1
    unfold refreshAll
    rw [foldl_append]
    exact owedTo_step hclock (ih hprefix)

/-- **The add hold-down.**  In a run whose clock never goes back and that starts without an entry for a key, the
key is active only after two refreshes at least the hold-down apart: the first observed it with SEP and without
REVOKE, and every one up to the second showed it first without REVOKE. -/
theorem active_after_holdDown {state : List ManagedKey} {e : ManagedKey}
    (hclock : run.Pairwise fun a b => a.now ≤ b.now) (hnew : ∀ e ∈ state, e.keyId K ≠ id)
    (he : e ∈ refreshAll K holdDown state run) (hid : e.keyId K = id) (hactive : e.status = .active) :
    HeldDown holdDown id run := by
  have howed := owedTo_run hnew hclock e he hid
  rwa [hactive] at howed

end

/-! ## A key that becomes active -/

def steadyRun : List Refresh := [0, 10, 20].map fun t => ⟨t, [rootKey 7 false]⟩

theorem active_after_holdDown_steady : HeldDown 20 (observedId (rootKey 7 false)) steadyRun := by
  have hactive : activeEntry 7 ∈ refreshAll plainCodec 20 [] steadyRun := by decide
  exact active_after_holdDown (by decide) (forall_mem_nil _) hactive (by decide) rfl

end Dnsd.Recursor
