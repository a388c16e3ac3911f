/-
# AnchorsKept — which published anchors survive a tick.

A tick publishes what becomes of the entries of the state file.  An anchor that nobody revoked survives exactly
when an entry accounts for it (`Carried`); one added to the anchor file after the state file was written is
dropped (`edited_anchor_dropped`).
-/
import Dnsd.Recursor.Anchor
import Dnsd.Recursor.Script

namespace Dnsd.Recursor

open Proto List

/-- The same zone, algorithm and public key; flags are not part of an anchor's identity. -/
def SameAnchor (a b : Name × DNSKEY) : Prop :=
  a.1 = b.1 ∧ a.2.algorithm = b.2.algorithm ∧ a.2.publicKey = b.2.publicKey

def TrustAnchors.Has (anchors : TrustAnchors) (a : Name × DNSKEY) : Prop :=
  ∃ b ∈ anchors.keys, SameAnchor a b

def FileHas (K : Codec) (file : List AnchorLine) (a : Name × DNSKEY) : Prop :=
  ∃ line ∈ file, ∃ b, line.anchor? K = some b ∧ SameAnchor a b

def RevokedIn (resp : Message) (a : Name × DNSKEY) : Prop :=
  ∃ o ∈ observedKeys resp, o.2.revoke = true ∧ SameAnchor a (Name.root, o.2)

def Denotes (K : Codec) (e : ManagedKey) (a : Name × DNSKEY) : Prop :=
  K.fromAscii e.zone = some a.1 ∧ e.algorithm = a.2.algorithm ∧ K.decode e.publicKey = some a.2.publicKey

/-- The entry is active, or waits and its hold-down ends with this refresh. -/
def Carried (K : Codec) (holdDown now : Nat) (observed : List Observed) (e : ManagedKey) : Prop :=
  e.status = .active ∨
    ∃ t, e.status = .pendingAdd t ∧ holdDown ≤ now - t ∧ (firstSeen (e.keyId K) observed).isSome = true

section

variable {K : Codec} {holdDown now : Nat} {e e' : ManagedKey} {a : Name × DNSKEY} {key : DNSKEY}
  {keys : List ManagedKey} {resp : Message} {text : Text}

theorem dnskeyOf_eq_some {flags : UInt16} {algorithm : UInt8}
    (h : dnskeyOf K flags algorithm text = some key) :
    key.algorithm = algorithm ∧ K.decode text = some key.publicKey := by
  obtain ⟨bytes, hbytes, rfl⟩ := Option.map_eq_some_iff.mp h
  exact ⟨rfl, hbytes⟩

theorem dnskeyOf_of_decode {bytes : List UInt8} (h : K.decode text = some bytes) (flags : UInt16)
    (algorithm : UInt8) :
    ∃ key, dnskeyOf K flags algorithm text = some key ∧ key.algorithm = algorithm ∧
      key.publicKey = bytes := by
  unfold dnskeyOf
  rw [h]
  exact ⟨_, rfl, rfl, rfl⟩

theorem toDnskey_eq_ok (h : e.toDnskey K = .ok key) :
    key.algorithm = e.algorithm ∧ K.decode e.publicKey = some key.publicKey := by
  unfold ManagedKey.toDnskey at h
  split at h
  · rename_i hkey
    cases h
    exact dnskeyOf_eq_some hkey
  · nomatch h

/-- **The published anchors are the active entries.** -/
theorem fromManagedKeys_has {anchors : TrustAnchors} (h : fromManagedKeys K keys = .ok anchors) :
    anchors.Has a ↔ ∃ e ∈ keys, e.status = .active ∧ Denotes K e a := by
  induction keys generalizing anchors with
  | nil =>
    cases h
    constructor
    · rintro ⟨b, hb, _⟩
      nomatch hb
    · rintro ⟨e, he, _⟩
      nomatch he
  | cons e keys ih =>
    unfold fromManagedKeys at h
    split at h
    · rename_i hact
      have hst : e.status = .active := eq_of_beq hact
      cases hkey : e.toDnskey K with
      | error err =>
        rw [hkey] at h
        nomatch h
      | ok key =>
        obtain ⟨halg, hdec⟩ := toDnskey_eq_ok hkey
        cases hname : K.fromAscii e.zone with
        | none =>
          rw [hkey, hname] at h
          nomatch h
        | some name =>
          cases hrest : fromManagedKeys K keys with
          | error err =>
            rw [hkey, hname, hrest] at h
            nomatch h
          | ok rest =>
            rw [hkey, hname, hrest] at h
            cases h
            have hhead : SameAnchor a (name, key) ↔ Denotes K e a := by
              unfold SameAnchor Denotes
              rw [hname, hdec, halg]
              simp only [Option.some.injEq]
              constructor
              · rintro ⟨h1, h2, h3⟩
                exact ⟨h1.symm, h2.symm, h3.symm⟩
              · rintro ⟨h1, h2, h3⟩
                exact ⟨h1.symm, h2.symm, h3.symm⟩
            unfold TrustAnchors.Has at ih ⊢
            simp only [exists_mem_cons_iff, hhead, ih hrest, hst, true_and]
    · rename_i hact
      have hst : e.status ≠ .active := fun hst => hact (beq_iff_eq.mpr hst)
      rw [ih h]
      simp only [exists_mem_cons_iff, hst, false_and, false_or]

/-- **The anchor file has the active entries.** -/
theorem renderAnchorFile_has {ttl : Nat} :
    FileHas K (renderAnchorFile keys ttl) a ↔ ∃ e ∈ keys, e.status = .active ∧ Denotes K e a := by
  constructor
  · rintro ⟨line, hline, b, hb, hsame⟩
    obtain ⟨e, he, rfl⟩ := mem_map.mp hline
    obtain ⟨hmem, hact⟩ := mem_filter.mp he
    obtain ⟨key, hkey, hb⟩ := Option.bind_eq_some_iff.mp hb
    obtain ⟨name, hname, hb⟩ := Option.bind_eq_some_iff.mp hb
    cases hb
    obtain ⟨halg, hdec⟩ := dnskeyOf_eq_some hkey
    refine ⟨e, hmem, eq_of_beq hact, ?_, ?_, ?_⟩
    · rw [hname, hsame.1]
    · rw [hsame.2.1, halg]
    · rw [hdec, hsame.2.2]
  · rintro ⟨e, he, hact, hname, halg, hdec⟩
    obtain ⟨key, hkey, hkalg, hkpub⟩ := dnskeyOf_of_decode hdec (e.flags &&& ~~~0x0080) e.algorithm
    refine ⟨_, mem_map.mpr ⟨e, mem_filter.mpr ⟨he, beq_iff_eq.mpr hact⟩, rfl⟩,
      (a.1, key), ?_, rfl, ?_, hkpub.symm⟩
    · simp only [AnchorLine.anchor?, hkey, hname, Option.pure_def, Option.bind_eq_bind, Option.bind_some]
    · rw [hkalg, halg]

/-! ## What a refresh carries on -/

theorem Fate.denotes {observed : List Observed} (h : Fate K now holdDown observed e e') :
    Denotes K e' a ↔ Denotes K e a := by
  cases h <;> exact Iff.rfl

theorem firstSeen_not_revoked {o : Observed} (hlive : ¬ RevokedIn resp a) (hden : Denotes K e a)
    (ho : firstSeen (e.keyId K) (observedKeys resp) = some o) : o.2.revoke = false := by
  obtain ⟨hmem, hid⟩ := firstSeen_eq_some ho
  obtain ⟨hzone, halg, hdec⟩ := hden
  -- Observed keys are the root's, so the entry is about a root anchor.
  have hroot : o.1 = toAscii Name.root := by
    obtain ⟨k, _, rfl⟩ := mem_map.mp hmem
    rfl
  have hname : a.1 = Name.root := by
    have hz : e.zone = o.1 := (congrArg KeyId.zone hid).symm
    rw [hz, hroot, K.fromAscii_root] at hzone
    exact (Option.some.inj hzone).symm
  have hpub : a.2.publicKey = o.2.publicKey := by
    have hp : o.2.publicKey = (K.decode e.publicKey).getD [] := congrArg KeyId.publicKey hid
    rw [hp, hdec]
    rfl
  have hsame : SameAnchor a (Name.root, o.2) :=
    ⟨hname, halg.symm.trans (congrArg KeyId.algorithm hid).symm, hpub⟩
  by_contra hrev
  exact hlive ⟨o, hmem, Bool.not_eq_false _ ▸ hrev, hsame⟩

theorem active_next_iff {prior : List ManagedKey} (hlive : ¬ RevokedIn resp a) :
    (∃ e' ∈ (applyRefresh K prior (observedKeys resp) now holdDown).1,
      e'.status = .active ∧ Denotes K e' a) ↔
      ∃ e ∈ prior, Denotes K e a ∧ Carried K holdDown now (observedKeys resp) e := by
  constructor
  · rintro ⟨e', he', hact, hden⟩
    rcases mem_applyRefresh.mp he' with ⟨e, he, hfate⟩ | ⟨o, _, rfl⟩
    · refine ⟨e, he, hfate.denotes.mp hden, ?_⟩
      cases hfate with
      | promoted hst ho _ hdue => exact Or.inr ⟨_, hst, hdue, by rw [ho]; rfl⟩
      | waiting hst _ _ _ => nomatch hst.symm.trans hact
      | kept hst _ => exact Or.inl hst
      | revoked hst _ _ => exact Or.inl hst
      | remembered hst _ => nomatch hst.symm.trans hact
    · nomatch hact
  · rintro ⟨e, he, hden, hcar⟩
    rcases hcar with hst | ⟨t, hst, hdue, hseen⟩
    · have hfate : Fate K now holdDown (observedKeys resp) e e :=
        .kept hst fun o ho => firstSeen_not_revoked hlive hden ho
      exact ⟨e, mem_applyRefresh.mpr (Or.inl ⟨e, he, hfate⟩), hst, hden⟩
    · obtain ⟨o, ho⟩ := Option.isSome_iff_exists.mp hseen
      have hfate := Fate.promoted hst ho (firstSeen_not_revoked hlive hden ho) hdue
      exact ⟨_, mem_applyRefresh.mpr (Or.inl ⟨e, he, hfate⟩), rfl, hfate.denotes.mpr hden⟩

/-! ## What a tick keeps -/

/-- Every anchor that was published and is not revoked by the response is still published, and in the
anchor file. -/
def TickKeeps (K : Codec) (resp : Message) (s s' : AnchorStore) : Prop :=
  ∀ a ∈ s.live.keys, ¬ RevokedIn resp a → s'.live.Has a ∧ FileHas K s'.anchorFile a

/-- The entries a tick starts from account for every published anchor that the response does not
revoke. -/
def StateCovers (K : Codec) (holdDown now : Nat) (resp : Message) (live : TrustAnchors)
    (prior : List ManagedKey) : Prop :=
  ∀ a ∈ live.keys, ¬ RevokedIn resp a →
    ∃ e ∈ prior, Denotes K e a ∧ Carried K holdDown now (observedKeys resp) e

/-- **A tick keeps the unrevoked anchors exactly when its entries account for them**, for every response
it accepts.  The entries are those of the state file, or the published anchors themselves when there is
no state file. -/
theorem tick_keeps_anchors_iff {C : Crypto} {roots : List IpAddr} {resp : Message} {s : AnchorStore}
    {stored : Option (List ManagedKey)} (hroots : roots ≠ []) (hacc : Accepted C s.live resp)
    (hstored : loadState s.stateFile = .ok stored) :
    TickKeeps K resp s (tick K C holdDown roots (.parsed resp) now {} s).1 ↔
      StateCovers K holdDown now resp s.live (priorKeys K s.live stored) := by
  rw [tick_accepted hroots hacc hstored]
  obtain ⟨hfile, hlive⟩ := rollState_writes (K := K) (s := s)
  have hone : ∀ a ∈ s.live.keys, ¬ RevokedIn resp a →
      ((rollState K holdDown now {} s stored resp).1.live.Has a ∧
        FileHas K (rollState K holdDown now {} s stored resp).1.anchorFile a ↔
        ∃ e ∈ priorKeys K s.live stored, Denotes K e a ∧ Carried K holdDown now (observedKeys resp) e) := by
    intro a ha hnot
    rw [hfile, renderAnchorFile_has, ← active_next_iff hnot]
    refine and_iff_right_of_imp fun hactive => ?_
    rcases hlive with hpublished | hsame
    · exact (fromManagedKeys_has hpublished).mpr hactive
    · rw [hsame]
      exact ⟨a, ha, rfl, rfl, rfl⟩
  constructor
  · intro hkeeps a ha hnot
    exact (hone a ha hnot).mp (hkeeps a ha hnot)
  · intro hcovers a ha hnot
    exact (hone a ha hnot).mpr (hcovers a ha hnot)

end

/-! ## An anchor file edited after the state file was written -/

def editedStore (state : List ManagedKey) : AnchorStore where
  live := ⟨[(Name.root, (rootKey 1 false).2), (Name.root, (rootKey 2 false).2)]⟩
  stateFile := .found 1 state
  anchorFile := []

def bothKeys : Message := keyAnswer Name.root [(rootKey 1 false).2, (rootKey 2 false).2]

def editedTick (state : List ManagedKey) : AnchorStore × Except RefreshError RefreshDiff :=
  tick plainCodec (listCrypto [(rootKey 1 false).2]) 10 [.v4 1] (.parsed bothKeys) 100 {}
    (editedStore state)

theorem tick_keeps_anchors_edited :
    TickKeeps plainCodec bothKeys (editedStore [activeEntry 1, activeEntry 2])
      (editedTick [activeEntry 1, activeEntry 2]).1 := by
  have hacc : Accepted (listCrypto [(rootKey 1 false).2])
      (editedStore [activeEntry 1, activeEntry 2]).live bothKeys :=
    ⟨_, rfl, (Name.root, (rootKey 1 false).2), by decide, by decide⟩
  refine (tick_keeps_anchors_iff (by decide) hacc rfl).mpr ?_
  intro a ha _
  rcases mem_cons.mp ha with rfl | ha
  · exact ⟨activeEntry 1, by decide, ⟨rfl, rfl, rfl⟩, Or.inl rfl⟩
  · rw [mem_singleton.mp ha]
    exact ⟨activeEntry 2, by decide, ⟨rfl, rfl, rfl⟩, Or.inl rfl⟩

theorem edited_anchor_dropped :
    (Name.root, (rootKey 2 false).2) ∈ (editedStore [activeEntry 1]).live.keys ∧
      (observedKeys bothKeys).all (fun o => !o.2.revoke) = true ∧
      (editedTick [activeEntry 1]).1.live.keys = [(Name.root, (rootKey 1 false).2)] ∧
      (editedTick [activeEntry 1]).1.anchorFile.map (fun line => line.key) = [[1]] := by
  decide

end Dnsd.Recursor
