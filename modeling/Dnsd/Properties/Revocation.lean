/-
# Revocation — what takes a key out, and for how long.

A revoked entry is pruned by the first refresh that does not see the key, and a pending one is dropped at once.
So a revocation holds as long as it is remembered (`Barred`, `Remembered`), and after that until the key comes
back (`revoked_key_returns`).  Any published anchor may revoke any key (`revoked_by_another_key`).
-/
import Dnsd.Recursor.Anchor
import Dnsd.Recursor.Script

namespace Dnsd.Recursor

open Proto List

/-! ## How long a revocation lasts -/

def Barred (K : Codec) (id : KeyId) (state : List ManagedKey) : Prop :=
  ∀ e ∈ state, e.keyId K = id → ∃ t, e.status = .revoked t

def Remembered (K : Codec) (id : KeyId) (state : List ManagedKey) : Prop := ∃ e ∈ state, e.keyId K = id

def OnlyRevoked (id : KeyId) (r : Refresh) : Prop := ∀ o ∈ r.observed, observedId o = id → o.2.revoke = true

instance (id : KeyId) (r : Refresh) : Decidable (OnlyRevoked id r) :=
  inferInstanceAs (Decidable (∀ o ∈ r.observed, _ → _))

def SeenOnce (id : KeyId) (r : Refresh) : Prop :=
  ∃! i : Nat, ∃ o, r.observed[i]? = some o ∧ observedId o = id

section

variable {K : Codec} {holdDown : Nat} {id : KeyId} {state : List ManagedKey} {r : Refresh}

theorem firstSeen_isSome_of_mem {o : Observed} {observed : List Observed} (ho : o ∈ observed)
    (hid : observedId o = id) : ∃ o', firstSeen id observed = some o' := by
  have hsome : (observed.find? fun o => observedId o == id).isSome = true :=
    List.find?_isSome.mpr ⟨o, ho, by simp [hid]⟩
  exact Option.isSome_iff_exists.mp hsome

theorem OnlyRevoked.not_seeded (h : OnlyRevoked id r) {o : Observed}
    (hs : Seeds K state r.observed o) : observedId o ≠ id := by
  intro hid
  have hrev := h o hs.mem hid
  rw [hs.live] at hrev
  nomatch hrev

theorem SeenOnce.not_seeded (h : SeenOnce id r) (hrem : Remembered K id state) {o : Observed}
    (hs : Seeds K state r.observed o) : observedId o ≠ id := by
  intro hid
  obtain ⟨e, he, heid⟩ := hrem
  obtain ⟨i, hi, hfree⟩ := hs.unmatched
  have hsome : (r.observed.findIdx? fun o => observedId o == e.keyId K).isSome = true := by
    rw [List.findIdx?_isSome, any_eq_true]
    exact ⟨o, hs.mem, by simp [hid, heid]⟩
  obtain ⟨j, hj⟩ := Option.isSome_iff_exists.mp hsome
  obtain ⟨hlt, hp, _⟩ := List.findIdx?_eq_some_iff_getElem.mp hj
  have hjid : observedId r.observed[j] = id := (eq_of_beq hp).trans heid
  -- Both positions hold a copy of the key, so they are one.
  have hij : i = j := h.unique ⟨o, hi, hid⟩ ⟨_, List.getElem?_eq_getElem hlt, hjid⟩
  subst hij
  rw [matchedAt_findIdx he hj] at hfree
  nomatch hfree

theorem barred_of_revoking (hseen : ∃ o ∈ r.observed, observedId o = id) (hrev : OnlyRevoked id r) :
    Barred K id (applyRefresh K state r.observed r.now holdDown).1 := by
  obtain ⟨o, ho, hoid⟩ := hseen
  obtain ⟨first, hfirst⟩ := firstSeen_isSome_of_mem ho hoid
  have hfirstRev : first.2.revoke = true :=
    hrev first (firstSeen_eq_some hfirst).1 (firstSeen_eq_some hfirst).2
  intro e' he' hid
  rcases mem_applyRefresh.mp he' with ⟨e, _, hfate⟩ | ⟨o', hseeds, rfl⟩
  · have heid : e.keyId K = id := hfate.keyId_eq.symm.trans hid
    -- The key that decides about the entry is revoked.
    have hdecides : ∀ o, firstSeen (e.keyId K) r.observed = some o → o.2.revoke = true := by
      intro o' ho'
      rw [heid, hfirst] at ho'
      cases ho'
      exact hfirstRev
    cases hfate with
    | promoted _ ho' hlive _ => nomatch hlive.symm.trans (hdecides _ ho')
    | waiting _ ho' hlive _ => nomatch hlive.symm.trans (hdecides _ ho')
    | kept _ hall =>
      rw [heid] at hall
      nomatch (hall first hfirst).symm.trans hfirstRev
    | revoked _ _ _ => exact ⟨r.now, rfl⟩
    | remembered hst _ => exact ⟨_, hst⟩
  · exact absurd ((keyId_fromObserved o'.1 o'.2 _).symm.trans hid) (hrev.not_seeded hseeds)

theorem remembered_of_revoking (hactive : ∃ e ∈ state, e.keyId K = id ∧ e.status = .active) :
    Remembered K id (applyRefresh K state r.observed r.now holdDown).1 := by
  obtain ⟨e, he, hid, hst⟩ := hactive
  -- An active entry is never dropped, whatever the refresh sees.
  cases hfirst : firstSeen (e.keyId K) r.observed with
  | none =>
    have hfate : Fate K r.now holdDown r.observed e e :=
      .kept hst fun o ho => nomatch hfirst.symm.trans ho
    exact ⟨e, mem_applyRefresh.mpr (Or.inl ⟨e, he, hfate⟩), hid⟩
  | some o =>
    cases hrev : o.2.revoke with
    | true =>
      exact ⟨_, mem_applyRefresh.mpr (Or.inl ⟨e, he, .revoked hst hfirst hrev⟩), hid⟩
    | false =>
      have hfate : Fate K r.now holdDown r.observed e e := by
        refine .kept hst fun o' ho' => ?_
        cases hfirst.symm.trans ho'
        exact hrev
      exact ⟨e, mem_applyRefresh.mpr (Or.inl ⟨e, he, hfate⟩), hid⟩

theorem Barred.step (h : Barred K id state)
    (hnew : ∀ o, Seeds K state r.observed o → observedId o ≠ id) :
    Barred K id (applyRefresh K state r.observed r.now holdDown).1 := by
  intro e' he' hid
  rcases mem_applyRefresh.mp he' with ⟨e, he, hfate⟩ | ⟨o, hseeds, rfl⟩
  · obtain ⟨t, ht⟩ := h e he (hfate.keyId_eq.symm.trans hid)
    cases hfate with
    | promoted hst _ _ _ => nomatch hst.symm.trans ht
    | waiting hst _ _ _ => nomatch hst.symm.trans ht
    | kept hst _ => nomatch hst.symm.trans ht
    | revoked _ _ _ => exact ⟨r.now, rfl⟩
    | remembered hst _ => exact ⟨_, hst⟩
  · exact absurd ((keyId_fromObserved o.1 o.2 _).symm.trans hid) (hnew o hseeds)

theorem Remembered.step (hbar : Barred K id state) (h : Remembered K id state)
    (hseen : ∃ o ∈ r.observed, observedId o = id) :
    Remembered K id (applyRefresh K state r.observed r.now holdDown).1 := by
  obtain ⟨e, he, hid⟩ := h
  obtain ⟨t, ht⟩ := hbar e he hid
  obtain ⟨o, ho, hoid⟩ := hseen
  obtain ⟨first, hfirst⟩ := firstSeen_isSome_of_mem ho (hoid.trans hid.symm)
  exact ⟨e, mem_applyRefresh.mpr (Or.inl ⟨e, he, .remembered ht hfirst⟩), hid⟩

theorem SeenOnce.seen (h : SeenOnce id r) : ∃ o ∈ r.observed, observedId o = id := by
  obtain ⟨i, ⟨o, ho, hid⟩, _⟩ := h
  exact ⟨o, mem_of_getElem? ho, hid⟩

theorem barred_while_seen {run : List Refresh} (hbar : Barred K id state)
    (hrem : Remembered K id state) (hrun : ∀ r ∈ run, SeenOnce id r) :
    Barred K id (refreshAll K holdDown state run) := by
  induction run generalizing state with
  | nil => exact hbar
  | cons r run ih =>
    have hr := hrun r (.head _)
    refine ih ?_ (hrem.step hbar hr.seen) fun r' hr' => hrun r' (.tail _ hr')
    exact hbar.step fun o hs => hr.not_seeded hrem hs

theorem barred_while_revoked {run : List Refresh} (hbar : Barred K id state)
    (hrun : ∀ r ∈ run, OnlyRevoked id r) : Barred K id (refreshAll K holdDown state run) := by
  induction run generalizing state with
  | nil => exact hbar
  | cons r run ih =>
    have hr := hrun r (.head _)
    exact ih (hbar.step fun o hs => hr.not_seeded hs) fun r' hr' =>
      hrun r' (.tail _ hr')

/-- **A revocation holds as long as it is remembered.**  After a refresh in which every copy of the key is revoked,
the key is neither active nor waiting; if it was active, this lasts as long as each refresh sees the key once
(`seen`), and in any case through every refresh (`rest`) that sees no copy without REVOKE. -/
theorem revoked_while_remembered {seen rest : List Refresh}
    (hthere : ∃ o ∈ r.observed, observedId o = id) (hrev : OnlyRevoked id r)
    (hseen : ∀ r' ∈ seen, SeenOnce id r') (hrest : ∀ r' ∈ rest, OnlyRevoked id r')
    (hactive : seen ≠ [] → ∃ e ∈ state, e.keyId K = id ∧ e.status = .active) :
    Barred K id (refreshAll K holdDown state (r :: (seen ++ rest))) := by
  have hbar : Barred K id (applyRefresh K state r.observed r.now holdDown).1 :=
    barred_of_revoking hthere hrev
  have hall : refreshAll K holdDown state (r :: (seen ++ rest)) =
      refreshAll K holdDown
        (refreshAll K holdDown (applyRefresh K state r.observed r.now holdDown).1 seen) rest := by
    unfold refreshAll
    rw [foldl_cons, foldl_append]
  rw [hall]
  refine barred_while_revoked ?_ hrest
  rcases eq_or_ne seen [] with rfl | hne
  · exact hbar
  · exact barred_while_seen hbar (remembered_of_revoking (hactive hne)) hseen

end

theorem seenOnce_single (t : Nat) (o : Observed) : SeenOnce (observedId o) ⟨t, [o]⟩ := by
  refine ⟨0, ⟨o, rfl, rfl⟩, ?_⟩
  rintro j ⟨o', ho', _⟩
  have hj : j < 1 := (List.getElem?_eq_some_iff.mp ho').1
  omega

theorem revoked_while_remembered_once :
    Barred plainCodec (observedId (rootKey 7 false))
      (refreshAll plainCodec 10 [activeEntry 7]
        (⟨0, [rootKey 7 true]⟩ :: ([⟨1, [rootKey 7 false]⟩] ++ [⟨2, []⟩]))) := by
  refine revoked_while_remembered (by decide) (by decide) ?_ (by decide) ?_
  · intro r hr
    rw [mem_singleton.mp hr]
    exact seenOnce_single 1 (rootKey 7 false)
  · exact fun _ => ⟨activeEntry 7, by decide, by decide, rfl⟩

theorem revoked_key_returns :
    (∃ o, firstSeen (observedId (rootKey 7 false)) [rootKey 7 true] = some o ∧ o.2.revoke = true) ∧
      refreshAll plainCodec 10 [activeEntry 7] [⟨0, [rootKey 7 true]⟩, ⟨1, []⟩,
        ⟨2, [rootKey 7 false]⟩, ⟨12, [rootKey 7 false]⟩] = [activeEntry 7] := by
  refine ⟨⟨rootKey 7 true, ?_, ?_⟩, ?_⟩ <;> decide

/-! ## Who may revoke -/

/-- The entries a tick of this store starts from; none when the state file cannot be used. -/
def AnchorStore.prior (K : Codec) (s : AnchorStore) : List ManagedKey :=
  match loadState s.stateFile with
  | .ok stored => priorKeys K s.live stored
  | .error _ => []

def ManagedKey.revokedAt (now : Nat) (e : ManagedKey) : ManagedKey :=
  { e with status := .revoked now, flags := e.flags ||| 0x0080 }

theorem keyId_revokedAt {K : Codec} (now : Nat) (e : ManagedKey) :
    (e.revokedAt now).keyId K = e.keyId K := rfl

/-- A tick at `now` moved the entry from active to revoked. -/
structure MovedToRevoked (K : Codec) (now : Nat) (s s' : AnchorStore) (e : ManagedKey) : Prop where
  before : e ∈ s.prior K
  active : e.status = .active
  fresh : e.revokedAt now ∉ s.prior K
  after : ∃ keys, s'.stateFile = .found 1 keys ∧ e.revokedAt now ∈ keys

/-- **A tick revokes on the word of any published anchor.**  If a tick moves an active key to revoked, the
key's first copy in the response has the REVOKE flag, and the response has a signature that verifies
under a published anchor. -/
theorem revoked_by_live_anchor {K : Codec} {C : Crypto} {holdDown now : Nat} {roots : List IpAddr}
    {reply : Reply} {disk : Disk} {s s' : AnchorStore} {result : Except RefreshError RefreshDiff}
    {e : ManagedKey} (h : tick K C holdDown roots reply now disk s = (s', result))
    (hmoved : MovedToRevoked K now s s' e) :
    ∃ resp, reply = .parsed resp ∧ Accepted C s.live resp ∧
      ∃ o, firstSeen (e.keyId K) (observedKeys resp) = some o ∧ o.2.revoke = true := by
  obtain ⟨keys, hkeys, hmem⟩ := hmoved.after
  -- Where the state file is not written, its entries are the ones the tick started from.
  have hwritten : s'.stateFile ≠ s.stateFile := by
    intro hsame
    rw [hsame] at hkeys
    have hprior : s.prior K = keys := by simp [AnchorStore.prior, hkeys, loadState, priorKeys]
    exact hmoved.fresh (hprior ▸ hmem)
  rcases tick_cases h with ⟨rfl, _⟩ | ⟨resp, stored, rfl, hacc, hload, hroll⟩
  · exact absurd rfl hwritten
  · refine ⟨resp, rfl, hacc, ?_⟩
    have hprior : s.prior K = priorKeys K s.live stored := by simp [AnchorStore.prior, hload]
    have hnext := (rollState_stateFile hroll).resolve_left hwritten
    cases hkeys.symm.trans hnext
    rcases mem_applyRefresh.mp hmem with ⟨e', he', hfate⟩ | ⟨o, _, hnew⟩
    · generalize hto : e.revokedAt now = gone at hfate
      cases hfate with
      | promoted _ _ _ _ => nomatch congrArg ManagedKey.status hto
      | waiting hst _ _ _ => nomatch (congrArg ManagedKey.status hto).trans hst
      | kept hst _ => nomatch (congrArg ManagedKey.status hto).trans hst
      | revoked _ ho hrev =>
        rw [← keyId_revokedAt now e, hto]
        exact ⟨_, ho, hrev⟩
      | remembered _ _ =>
        subst hto
        exact absurd (hprior ▸ he') hmoved.fresh
    · nomatch congrArg ManagedKey.status hnew

def twoAnchors : AnchorStore :=
  ⟨⟨[(Name.root, (rootKey 1 false).2), (Name.root, (rootKey 2 false).2)]⟩, .missing, []⟩

def revokingResponse : Message := keyAnswer Name.root [(rootKey 1 false).2, (rootKey 2 true).2]

def firstKeySigns : Crypto := listCrypto [(rootKey 1 false).2]

def revokingTick : AnchorStore × Except RefreshError RefreshDiff :=
  tick plainCodec firstKeySigns 10 [.v4 1] (.parsed revokingResponse) 100 {} twoAnchors

theorem revokingTick_moves : MovedToRevoked plainCodec 100 twoAnchors revokingTick.1 (activeEntry 2) where
  before := by decide
  active := rfl
  fresh := by decide
  after := ⟨_, rfl, by decide⟩

theorem revoked_by_live_anchor_first : Accepted firstKeySigns twoAnchors.live revokingResponse := by
  obtain ⟨resp, hresp, hacc, _⟩ := revoked_by_live_anchor (Prod.eta revokingTick).symm revokingTick_moves
  cases hresp
  exact hacc

theorem revoked_by_another_key :
    MovedToRevoked plainCodec 100 twoAnchors revokingTick.1 (activeEntry 2) ∧
      ∀ sig revoke, verifyRrset firstKeySigns (extractDnskeyResponse revokingResponse).records sig
        (rootKey 2 revoke).2 = false := by
  refine ⟨⟨by decide, rfl, by decide, _, rfl, by decide⟩, ?_⟩
  intro sig revoke
  cases revoke <;> rfl

end Dnsd.Recursor
