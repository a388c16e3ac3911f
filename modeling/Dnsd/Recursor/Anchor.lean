/-
# Anchor — the life of a trust anchor.

`anchor.rs`: the RFC 5011 state machine (`apply_refresh`), its two files, and one tick of the refresh task.  The
state file is read when it is there, whatever the anchor file says.  Entries and observed keys are matched by
`KeyId`, and an entry looks only at the FIRST observed key it matches.  Time is in whole seconds since the epoch.
`Fate` and `mem_applyRefresh` say once what a refresh does.
-/
import Dnsd.Recursor.LocalZones
import Dnsd.Recursor.Validator

namespace Dnsd.Proto.DNSKEY

def zoneKey (k : DNSKEY) : Bool := k.flags &&& 0x0100 != 0

def secureEntryPoint (k : DNSKEY) : Bool := k.flags &&& 0x0001 != 0

def revoke (k : DNSKEY) : Bool := k.flags &&& 0x0080 != 0

def flagsOf (zoneKey secureEntryPoint revoke : Bool) : UInt16 :=
  (if zoneKey then 0x0100 else 0) ||| (if secureEntryPoint then 0x0001 else 0) |||
    (if revoke then 0x0080 else 0)

end Dnsd.Proto.DNSKEY

namespace Dnsd.Recursor

open Proto

abbrev Text := List UInt8

/-- What the anchor code takes from its libraries: base64, names in presentation form, key tags. -/
structure Codec where
  encode : List UInt8 → Text
  decode : Text → Option (List UInt8)
  decode_encode : ∀ bs, decode (encode bs) = some bs
  fromAscii : Text → Option Name
  fromAscii_root : fromAscii (toAscii Name.root) = some Name.root
  /-- `calculate_key_tag`. -/
  keyTag : DNSKEY → Option UInt16

/-! ## Managed keys -/

inductive KeyStatus where
  | active
  | pendingAdd (addedAt : Nat)
  | revoked (revokedAt : Nat)
  deriving DecidableEq, Repr

structure ManagedKey where
  zone : Text
  keyTag : UInt16
  algorithm : UInt8
  flags : UInt16
  /-- In base64. -/
  publicKey : Text
  status : KeyStatus
  deriving DecidableEq, Repr

def ManagedKey.isActive (k : ManagedKey) : Bool := k.status == .active

inductive RefreshError where
  | noRoots
  | upstream
  | unparsed
  | noRrsig
  | unverified
  | stateUnreadable
  | stateVersion (version : Nat)
  | saveState
  | saveAnchorFile
  | badPublicKey
  | badZone (zone : Text)
  deriving DecidableEq, Repr

/-- The key that three flags, an algorithm and a base64 text stand for. -/
def dnskeyOf (K : Codec) (flags : UInt16) (algorithm : UInt8) (publicKey : Text) : Option DNSKEY :=
  (K.decode publicKey).map fun bytes =>
    ⟨DNSKEY.flagsOf (flags &&& 0x0100 != 0) (flags &&& 0x0001 != 0) (flags &&& 0x0080 != 0),
      algorithm, bytes⟩

def ManagedKey.toDnskey (K : Codec) (k : ManagedKey) : Except RefreshError DNSKEY :=
  match dnskeyOf K k.flags k.algorithm k.publicKey with
  | some key => .ok key
  | none => .error .badPublicKey

def ManagedKey.fromObserved (K : Codec) (zone : Text) (key : DNSKEY) (status : KeyStatus) : ManagedKey where
  zone := zone
  keyTag := (K.keyTag key).getD 0
  algorithm := key.algorithm
  flags := DNSKEY.flagsOf key.zoneKey key.secureEntryPoint key.revoke
  publicKey := K.encode key.publicKey
  status := status

/-! ## One refresh -/

structure RefreshDiff where
  addedPending : List UInt16 := []
  promoted : List UInt16 := []
  revoked : List UInt16 := []
  droppedPending : List UInt16 := []
  prunedRevoked : List UInt16 := []
  deriving DecidableEq, Repr

def RefreshDiff.append (a b : RefreshDiff) : RefreshDiff :=
  ⟨a.addedPending ++ b.addedPending, a.promoted ++ b.promoted, a.revoked ++ b.revoked,
    a.droppedPending ++ b.droppedPending, a.prunedRevoked ++ b.prunedRevoked⟩

abbrev Observed := Text × DNSKEY

structure KeyId where
  zone : Text
  algorithm : UInt8
  publicKey : List UInt8
  deriving DecidableEq, Repr

def observedId (o : Observed) : KeyId := ⟨o.1, o.2.algorithm, o.2.publicKey⟩

def ManagedKey.keyId (K : Codec) (k : ManagedKey) : KeyId :=
  ⟨k.zone, k.algorithm, (K.decode k.publicKey).getD []⟩

def firstSeen (id : KeyId) (observed : List Observed) : Option Observed :=
  observed.find? fun o => observedId o == id

section

variable (K : Codec)

def refreshEntry (now holdDown : Nat) (observed : List Observed) (entry : ManagedKey) :
    Option ManagedKey × RefreshDiff :=
  match entry.status, firstSeen (entry.keyId K) observed with
  | .pendingAdd addedAt, some o =>
      if o.2.revoke then (none, { droppedPending := [entry.keyTag] })
      else if holdDown ≤ now - addedAt then
        (some { entry with status := .active }, { promoted := [entry.keyTag] })
      else (some entry, {})
  | .pendingAdd _, none => (none, { droppedPending := [entry.keyTag] })
  | .active, some o =>
      if o.2.revoke then
        (some { entry with status := .revoked now, flags := entry.flags ||| 0x0080 },
          { revoked := [entry.keyTag] })
      else (some entry, {})
  | .active, none => (some entry, {})
  | .revoked _, some _ => (some entry, {})
  | .revoked _, none => (none, { prunedRevoked := [entry.keyTag] })

/-- `matched[i]`: the first match of some entry is at position `i`. -/
def matchedAt (state : List ManagedKey) (observed : List Observed) (i : Nat) : Bool :=
  state.any fun e => observed.findIdx? (fun o => observedId o == e.keyId K) == some i

def newEntries (state : List ManagedKey) (observed : List Observed) (now : Nat) :
    List ManagedKey :=
  observed.zipIdx.filterMap fun oi =>
    if matchedAt K state observed oi.2 || oi.1.2.revoke then none
    else if !oi.1.2.secureEntryPoint then none
    else some (ManagedKey.fromObserved K oi.1.1 oi.1.2 (.pendingAdd now))

def applyRefresh (state : List ManagedKey) (observed : List Observed) (now holdDown : Nat) :
    List ManagedKey × RefreshDiff :=
  let fates := state.map (refreshEntry K now holdDown observed)
  let added := newEntries K state observed now
  (fates.filterMap Prod.fst ++ added,
    (fates.foldl (fun (d : RefreshDiff) f => d.append f.2) {}).append { addedPending := added.map (·.keyTag) })

structure Refresh where
  now : Nat
  observed : List Observed
  deriving DecidableEq, Repr

def refreshAll (holdDown : Nat) (state : List ManagedKey) (run : List Refresh) : List ManagedKey :=
  run.foldl (fun s r => (applyRefresh K s r.observed r.now holdDown).1) state

/-! ## The files -/

structure AnchorLine where
  owner : Text
  ttl : Nat
  flags : UInt16
  algorithm : UInt8
  key : Text
  deriving DecidableEq, Repr

def defaultAnchorTtl : Nat := 172800

/-- `render_anchor_file`: the active entries, never with the REVOKE flag. -/
def renderAnchorFile (keys : List ManagedKey) (ttl : Nat) : List AnchorLine :=
  (keys.filter (·.isActive)).map fun k =>
    ⟨k.zone, ttl, k.flags &&& ~~~0x0080, k.algorithm, k.publicKey⟩

/-- What `parse_presentation_format` reads off a line; `none` is an error of the whole file. -/
def AnchorLine.anchor? (line : AnchorLine) : Option (Name × DNSKEY) := do
  let key ← dnskeyOf K line.flags line.algorithm line.key
  let name ← K.fromAscii line.owner
  return (name, key)

def fromManagedKeys : List ManagedKey → Except RefreshError TrustAnchors
  | [] => .ok ⟨[]⟩
  | k :: ks =>
      if k.isActive then do
        let key ← k.toDnskey K
        match K.fromAscii k.zone with
        | none => .error (.badZone k.zone)
        | some name => do
            let rest ← fromManagedKeys ks
            return ⟨(name, key) :: rest.keys⟩
      else fromManagedKeys ks

inductive StateFile where
  | missing
  | unreadable
  | found (version : Nat) (keys : List ManagedKey)
  deriving DecidableEq, Repr

def loadState : StateFile → Except RefreshError (Option (List ManagedKey))
  | .missing => .ok none
  | .unreadable => .error .stateUnreadable
  | .found version keys => if version ≠ 1 then .error (.stateVersion version) else .ok (some keys)

/-! ## One tick -/

structure AnchorStore where
  live : TrustAnchors
  stateFile : StateFile
  anchorFile : List AnchorLine
  deriving DecidableEq, Repr

structure Disk where
  stateWrites : Bool := true
  anchorWrites : Bool := true

def extractDnskeyResponse (resp : Message) : DnskeySet := dnskeySetOf Name.root resp.answers

def observedKeys (resp : Message) : List Observed :=
  (extractDnskeyResponse resp).keys.map fun k => (toAscii Name.root, k)

def priorKeys (live : TrustAnchors) (stored : Option (List ManagedKey)) : List ManagedKey :=
  stored.getD (live.keys.map fun a => ManagedKey.fromObserved K (toAscii a.1) a.2 .active)

/-- The second half of `tick`, once the response is verified and the state file is read. -/
def rollState (holdDown now : Nat) (disk : Disk) (s : AnchorStore)
    (stored : Option (List ManagedKey)) (resp : Message) :
    AnchorStore × Except RefreshError RefreshDiff :=
  let next := applyRefresh K (priorKeys K s.live stored) (observedKeys resp) now holdDown
  if !disk.stateWrites then (s, .error .saveState)
  else
    let s := { s with stateFile := .found 1 next.1 }
    if !disk.anchorWrites then (s, .error .saveAnchorFile)
    else
      let s := { s with anchorFile := renderAnchorFile next.1 defaultAnchorTtl }
      match fromManagedKeys K next.1 with
      | .error e => (s, .error e)
      | .ok anchors => ({ s with live := anchors }, .ok next.2)

/-- `any_valid`: the response's one signature verifies under a published anchor, whatever its zone. -/
def refreshVerified (C : Crypto) (live : TrustAnchors) (set : DnskeySet) (sig : RRSIG) : Bool :=
  live.keys.any fun a => verifyRrset C set.records sig a.2

/-- `AnchorRefresh::tick`, for the reply of a root server.  The window of the signature is not checked. -/
def tick (C : Crypto) (holdDown : Nat) (roots : List IpAddr) (reply : Reply) (now : Nat)
    (disk : Disk) (s : AnchorStore) : AnchorStore × Except RefreshError RefreshDiff :=
  if roots.isEmpty then (s, .error .noRoots)
  else
    match reply with
    | .failed => (s, .error .upstream)
    | .unparsed => (s, .error .unparsed)
    | .parsed resp =>
        match (extractDnskeyResponse resp).sig with
        | none => (s, .error .noRrsig)
        | some sig =>
            if refreshVerified C s.live (extractDnskeyResponse resp) sig then
              match loadState s.stateFile with
              | .error e => (s, .error e)
              | .ok stored => rollState K holdDown now disk s stored resp
            else (s, .error .unverified)

end

/-! ## What a refresh does -/

section

variable {K : Codec} {now holdDown : Nat} {observed : List Observed} {state : List ManagedKey}
  {e e' : ManagedKey} {id : KeyId}

inductive Fate (K : Codec) (now holdDown : Nat) (observed : List Observed) : ManagedKey → ManagedKey → Prop
  | promoted {e : ManagedKey} {o : Observed} {t : Nat} : e.status = .pendingAdd t →
      firstSeen (e.keyId K) observed = some o → o.2.revoke = false → holdDown ≤ now - t →
      Fate K now holdDown observed e { e with status := .active }
  | waiting {e : ManagedKey} {o : Observed} {t : Nat} : e.status = .pendingAdd t →
      firstSeen (e.keyId K) observed = some o → o.2.revoke = false → ¬ holdDown ≤ now - t →
      Fate K now holdDown observed e e
  | kept {e : ManagedKey} : e.status = .active →
      (∀ o, firstSeen (e.keyId K) observed = some o → o.2.revoke = false) →
      Fate K now holdDown observed e e
  | revoked {e : ManagedKey} {o : Observed} : e.status = .active →
      firstSeen (e.keyId K) observed = some o → o.2.revoke = true →
      Fate K now holdDown observed e { e with status := .revoked now, flags := e.flags ||| 0x0080 }
  | remembered {e : ManagedKey} {o : Observed} {t : Nat} : e.status = .revoked t →
      firstSeen (e.keyId K) observed = some o → Fate K now holdDown observed e e

theorem refreshEntry_eq_some :
    (refreshEntry K now holdDown observed e).1 = some e' ↔ Fate K now holdDown observed e e' := by
  constructor
  · intro h
    unfold refreshEntry at h
    split at h
    · rename_i t o hst ho
      split at h
      · nomatch h
      rename_i hrev
      split at h
      · rename_i hdue
        cases h
        exact .promoted hst ho (Bool.eq_false_iff.mpr hrev) hdue
      · rename_i hdue
        cases h
        exact .waiting hst ho (Bool.eq_false_iff.mpr hrev) hdue
    · nomatch h
    · rename_i o hst ho
      split at h
      · rename_i hrev
        cases h
        exact .revoked hst ho hrev
      · rename_i hrev
        cases h
        refine .kept hst fun o' ho' => ?_
        cases ho.symm.trans ho'
        exact Bool.eq_false_iff.mpr hrev
    · rename_i hst ho
      cases h
      exact .kept hst fun o' ho' => nomatch ho.symm.trans ho'
    · rename_i t o hst ho
      cases h
      exact .remembered hst ho
    · nomatch h
  · intro h
    unfold refreshEntry
    cases h with
    | promoted hst ho hrev hdue => simp [hst, ho, hrev, hdue]
    | waiting hst ho hrev hdue => simp [hst, ho, hrev, hdue]
    | kept hst hall =>
      cases ho : firstSeen (e.keyId K) observed with
      | none => simp [hst]
      | some o => simp [hst, hall o ho]
    | revoked hst ho hrev => simp [hst, ho, hrev]
    | remembered hst ho => simp [hst, ho]

theorem Fate.keyId_eq (h : Fate K now holdDown observed e e') : e'.keyId K = e.keyId K := by
  cases h <;> rfl

@[simp] theorem keyId_fromObserved (zone : Text) (key : DNSKEY) (status : KeyStatus) :
    (ManagedKey.fromObserved K zone key status).keyId K = observedId (zone, key) := by
  simp [ManagedKey.keyId, ManagedKey.fromObserved, observedId, K.decode_encode]

theorem firstSeen_eq_some {o : Observed} (h : firstSeen id observed = some o) :
    o ∈ observed ∧ observedId o = id :=
  ⟨List.mem_of_find?_eq_some h, eq_of_beq (List.find?_some h :)⟩

structure Seeds (K : Codec) (state : List ManagedKey) (observed : List Observed) (o : Observed) : Prop where
  unmatched : ∃ i, observed[i]? = some o ∧ matchedAt K state observed i = false
  live : o.2.revoke = false
  sep : o.2.secureEntryPoint = true

theorem Seeds.mem {o : Observed} (h : Seeds K state observed o) : o ∈ observed := by
  obtain ⟨i, hi, _⟩ := h.unmatched
  exact List.mem_of_getElem? hi

theorem mem_newEntries : e ∈ newEntries K state observed now ↔
    ∃ o, Seeds K state observed o ∧ e = ManagedKey.fromObserved K o.1 o.2 (.pendingAdd now) := by
  unfold newEntries
  rw [List.mem_filterMap]
  constructor
  · rintro ⟨⟨o, i⟩, hoi, h⟩
    have hi : observed[i]? = some o := List.mem_zipIdx_iff_getElem?.mp hoi
    split at h
    · nomatch h
    rename_i hskip
    rw [Bool.or_eq_true, not_or, Bool.not_eq_true, Bool.not_eq_true] at hskip
    split at h
    · nomatch h
    · rename_i hsep
      exact ⟨o, ⟨⟨i, hi, hskip.1⟩, hskip.2, by simpa using hsep⟩, (Option.some.inj h).symm⟩
  · rintro ⟨o, ⟨⟨i, hi, hm⟩, hrev, hsep⟩, rfl⟩
    exact ⟨(o, i), List.mem_zipIdx_iff_getElem?.mpr hi, by simp [hm, hrev, hsep]⟩

/-- **Where the entries of the next state come from**: an entry that was there, or a key that starts its
hold-down. -/
theorem mem_applyRefresh : e' ∈ (applyRefresh K state observed now holdDown).1 ↔
    (∃ e ∈ state, Fate K now holdDown observed e e') ∨
      ∃ o, Seeds K state observed o ∧ e' = ManagedKey.fromObserved K o.1 o.2 (.pendingAdd now) := by
  unfold applyRefresh
  rw [List.mem_append, mem_newEntries, List.filterMap_map, List.mem_filterMap]
  simp only [Function.comp_def, refreshEntry_eq_some]

theorem matchedAt_findIdx {i : Nat} (he : e ∈ state)
    (hi : observed.findIdx? (fun o => observedId o == e.keyId K) = some i) :
    matchedAt K state observed i = true := by
  unfold matchedAt
  rw [List.any_eq_true]
  exact ⟨e, he, by simp [hi]⟩

/-! ## What a tick does -/

variable {C : Crypto} {roots : List IpAddr} {reply : Reply} {disk : Disk} {s s' : AnchorStore}
  {result : Except RefreshError RefreshDiff} {stored : Option (List ManagedKey)} {resp : Message}

/-- The response passed the check of a tick: it has a signature that verifies under a published anchor. -/
def Accepted (C : Crypto) (live : TrustAnchors) (resp : Message) : Prop :=
  ∃ sig, (extractDnskeyResponse resp).sig = some sig ∧
    ∃ a ∈ live.keys, verifyRrset C (extractDnskeyResponse resp).records sig a.2 = true

theorem tick_cases (h : tick K C holdDown roots reply now disk s = (s', result)) :
    s' = s ∧ (∃ e, result = .error e) ∨
      ∃ resp stored, reply = .parsed resp ∧ Accepted C s.live resp ∧
        loadState s.stateFile = .ok stored ∧
        rollState K holdDown now disk s stored resp = (s', result) := by
  have hstop : ∀ e, (s, (.error e : Except RefreshError RefreshDiff)) = (s', result) →
      s' = s ∧ ∃ e, result = .error e := by
    rintro e ⟨⟩
    exact ⟨rfl, e, rfl⟩
  unfold tick at h
  split at h
  · exact Or.inl (hstop _ h)
  split at h
  · exact Or.inl (hstop _ h)
  · exact Or.inl (hstop _ h)
  · rename_i resp
    split at h
    · exact Or.inl (hstop _ h)
    rename_i sig hsig
    split at h
    · rename_i hverified
      split at h
      · exact Or.inl (hstop _ h)
      · rename_i stored hstored
        exact Or.inr ⟨resp, stored, rfl, ⟨sig, hsig, List.any_eq_true.mp hverified⟩, hstored, h⟩
    · exact Or.inl (hstop _ h)

def nextKeys (K : Codec) (holdDown now : Nat) (live : TrustAnchors)
    (stored : Option (List ManagedKey)) (resp : Message) : List ManagedKey :=
  (applyRefresh K (priorKeys K live stored) (observedKeys resp) now holdDown).1

theorem rollState_stateFile (h : rollState K holdDown now disk s stored resp = (s', result)) :
    s'.stateFile = s.stateFile ∨ s'.stateFile = .found 1 (nextKeys K holdDown now s.live stored resp) := by
  unfold rollState at h
  dsimp only at h
  split at h
  · cases h
    exact Or.inl rfl
  split at h
  · cases h
    exact Or.inr rfl
  · split at h
    · cases h
      exact Or.inr rfl
    · cases h
      exact Or.inr rfl

theorem tick_accepted (hroots : roots ≠ []) (hacc : Accepted C s.live resp)
    (hload : loadState s.stateFile = .ok stored) :
    tick K C holdDown roots (.parsed resp) now disk s = rollState K holdDown now disk s stored resp := by
  obtain ⟨sig, hsig, hverified⟩ := hacc
  have hany : refreshVerified C s.live (extractDnskeyResponse resp) sig = true :=
    List.any_eq_true.mpr hverified
  simp [tick, hroots, hsig, hany, hload]

theorem rollState_writes : (rollState K holdDown now {} s stored resp).1.anchorFile =
      renderAnchorFile (nextKeys K holdDown now s.live stored resp) defaultAnchorTtl ∧
    (fromManagedKeys K (nextKeys K holdDown now s.live stored resp) =
        .ok (rollState K holdDown now {} s stored resp).1.live ∨
      (rollState K holdDown now {} s stored resp).1.live = s.live) := by
  unfold rollState nextKeys
  simp only [Bool.not_true, Bool.false_eq_true, if_false]
  split
  · exact ⟨rfl, Or.inr rfl⟩
  · rename_i hanchors
    exact ⟨rfl, Or.inl hanchors⟩

end

/-! ## Sample data -/

def plainCodec : Codec where
  encode bs := bs
  decode t := some t
  decode_encode _ := rfl
  fromAscii t := if t = [46] then some Name.root else none
  fromAscii_root := rfl
  keyTag _ := none

def rootKey (n : UInt8) (revoke : Bool) : Observed :=
  (toAscii Name.root, ⟨DNSKEY.flagsOf true true revoke, 13, [n]⟩)

def activeEntry (n : UInt8) : ManagedKey :=
  ManagedKey.fromObserved plainCodec (rootKey n false).1 (rootKey n false).2 .active

end Dnsd.Recursor
