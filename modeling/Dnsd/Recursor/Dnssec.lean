/-
# Dnssec — the synchronous half of the validator.

Everything in `dnssec.rs` that touches neither the network nor a cache.  Signature verification, DS digest
matching and the NSEC3 hash are a parameter, `Crypto`; nothing is assumed about them.  The 32-bit additions of the
window check wrap, as in a release build.  Reasons of a Bogus verdict are data instead of prose.
-/
import Dnsd.Lib.Grouping
import Dnsd.Proto.Message

namespace Dnsd.Recursor

open Proto Lib

structure Crypto where
  /-- `DNSKEY::verify_rrsig`: the key, the owner and class, the signature, the signed records. -/
  verifyRrsig : DNSKEY → Name → DNSClass → RRSIG → List Record → Bool
  /-- `DS::covers` for a zone name and a key; an error counts as no match. -/
  covers : DS → Name → DNSKEY → Bool
  /-- `Nsec3HashAlgorithm::SHA1.hash` for a salt, a name and an iteration count. -/
  nsec3Hash : List UInt8 → Name → UInt16 → Option (List UInt8)

/-! ## The walk handed to the validator -/

/-- A delegation step: the zone delegated to, the DS records and DS signatures the parent sent, and
the addresses of the zone's servers. -/
structure ChainStep where
  zone : Name
  ds : List Record
  dsRrsig : List RRSIG
  nsIps : List IpAddr
  deriving DecidableEq, Repr

structure WalkChain where
  steps : List ChainStep := []
  deriving DecidableEq, Repr

structure TrustAnchors where
  keys : List (Name × DNSKEY)
  deriving DecidableEq, Repr

abbrev ChainKeys := List (Name × List DNSKEY)

/-! ## Verdicts -/

inductive ValidityError where
  | expirationPrecedesInception
  | notYetValid
  | expired
  deriving DecidableEq, Repr

inductive DenialReason where
  | noRrsig (owner : Name)
  | rrsigInvalid (owner : Name) (e : ValidityError)
  | noTrustedKeys (signer owner : Name)
  | unverified (owner signer : Name)
  | nodataTypePresent (qname : Name) (qtype : RecordType)
  | nsecIncomplete (qname : Name) (nameCover wildcardCover : Bool)
  | nsec3HashAlgo (algo : UInt8)
  | nsec3NodataContradicted (qname : Name) (qtype : RecordType)
  | nsec3NoEncloser (qname : Name)
  | nsec3SameAsEncloser (qname encloser : Name)
  | nsec3NextCloserUncovered (nextCloser : Name)
  | nsec3WildcardUncovered (wildcard : Name)
  deriving DecidableEq, Repr

inductive FetchError where
  | noAddresses (zone : Name)
  | unparsed (zone : Name)
  | allFailed (zone : Name)
  | timedOut (zone : Name)
  deriving DecidableEq, Repr

inductive SpliceError where
  | fetch (e : FetchError)
  | unsigned (zone : Name)
  | rrsigInvalid (zone : Name) (e : ValidityError)
  | unverified (zone : Name)
  deriving DecidableEq, Repr

inductive BogusReason where
  | rootBootstrap (e : SpliceError)
  | dsUnsigned (zone : Name)
  | dsRrsigInvalid (zone : Name) (e : ValidityError)
  | dsUnverified (zone : Name)
  | noDnskey (zone : Name)
  | dnskeyUnsigned (zone : Name)
  | dnskeyRrsigInvalid (zone : Name) (e : ValidityError)
  | notSelfSigned (zone : Name)
  | noDsMatch (zone : Name)
  | answerRrsigInvalid (name : Name) (rtype : RecordType) (e : ValidityError)
  | answerUnverified (name : Name) (rtype : RecordType) (signer : Name)
  | denial (reason : DenialReason)
  deriving DecidableEq, Repr

inductive ValidationStatus where
  | secure
  | insecure
  | bogus (reason : BogusReason)
  deriving DecidableEq, Repr

inductive DenialOutcome where
  | secure
  | insecure
  | bogus (reason : DenialReason)
  deriving DecidableEq, Repr

def DenialOutcome.toStatus : DenialOutcome → ValidationStatus
  | .secure => .secure
  | .insecure => .insecure
  | .bogus r => .bogus (.denial r)

inductive DnssecPolicy where
  | passThrough
  | strip
  | validate
  deriving DecidableEq, Repr

def DnssecPolicy.applyToResponse (p : DnssecPolicy) (resp : Message) : Message :=
  match p with
  | .passThrough => resp
  | .strip => { resp with authenticData := false }
  | .validate => { resp with authenticData := false }

/-! ## Single signatures -/

def clockSkew : UInt32 := 300

def checkRrsigValidity (now : UInt32) (sig : RRSIG) : Except ValidityError Unit :=
  if sig.sigExpiration < sig.sigInception then .error .expirationPrecedesInception
  else if now + clockSkew < sig.sigInception then .error .notYetValid
  else if sig.sigExpiration + clockSkew < now then .error .expired
  else .ok ()

/-- The signature is inside its window at `now`. -/
def InWindow (now : UInt32) (sig : RRSIG) : Prop := checkRrsigValidity now sig = .ok ()

instance (now : UInt32) (sig : RRSIG) : Decidable (InWindow now sig) := inferInstanceAs (Decidable (_ = _))

section

variable (C : Crypto)

/-- `verify_rrset`: owner and class are those of the first record; an empty set never verifies. -/
def verifyRrset (rrset : List Record) (sig : RRSIG) (key : DNSKEY) : Bool :=
  match rrset with
  | [] => false
  | r :: rs => C.verifyRrsig key r.name r.dnsClass sig (r :: rs)

def dsCovers (ds : List Record) (zone : Name) (key : DNSKEY) : Bool :=
  (ds.filterMap Record.ds?).any fun d => C.covers d zone key

end

/-! ## The choice of trusted keys -/

/-- One iteration of `closest_trusted_keys`: an entry at or above the zone replaces the best one so
far when it has strictly more labels. -/
def closer (zone : Name) (best : Option (Name × List DNSKEY)) (entry : Name × List DNSKEY) :
    Option (Name × List DNSKEY) :=
  if entry.1.same zone || entry.1.zoneOf zone then
    match best with
    | none => some entry
    | some b => if b.1.numLabels < entry.1.numLabels then some entry else best
  else best

def closestEntry (chain : ChainKeys) (zone : Name) : Option (Name × List DNSKEY) :=
  chain.foldl (closer zone) none

def closestTrustedKeys (chain : ChainKeys) (zone : Name) : List DNSKEY :=
  match closestEntry chain zone with
  | some (_, keys) => keys
  | none => []

/-! ## The answer section -/

structure RrsetKey where
  name : Name
  rtype : RecordType
  dnsClass : DNSClass
  deriving DecidableEq, Repr

def RrsetKey.cmp (a b : RrsetKey) : Ordering :=
  (a.name.cmp b.name).then ((a.rtype.cmp b.rtype).then (a.dnsClass.cmp b.dnsClass))

theorem RrsetKey.cmp_eq_iff {a b : RrsetKey} : a.cmp b = .eq ↔
    a.name.same b.name = true ∧ a.rtype = b.rtype ∧ a.dnsClass = b.dnsClass := by
  rw [cmp, Ordering.then_eq_eq, Ordering.then_eq_eq, Name.cmp_eq_iff, RecordType.cmp_eq_iff,
    DNSClass.cmp_eq_iff]

instance : Std.TransCmp RrsetKey.cmp :=
  have : Std.TransCmp fun a b : RrsetKey => a.name.cmp b.name :=
    Name.transCmp_on inferInstance RrsetKey.name
  have : Std.TransCmp fun a b : RrsetKey => a.rtype.cmp b.rtype :=
    Name.transCmp_on inferInstance RrsetKey.rtype
  have : Std.TransCmp fun a b : RrsetKey => a.dnsClass.cmp b.dnsClass :=
    Name.transCmp_on inferInstance RrsetKey.dnsClass
  inferInstanceAs (Std.TransCmp (compareLex _ (compareLex _ _)))

def rrsetKey (r : Record) : RrsetKey := ⟨r.name, r.recordType, r.dnsClass⟩

def answerGroups (answers : List Record) : List (RrsetKey × List Record) :=
  collect RrsetKey.cmp rrsetKey (answers.filter fun r => r.rrsig?.isNone)

def answerSigs (answers : List Record) : List (RRSIG × Name) :=
  answers.filterMap fun r => r.rrsig?.map fun s => (s, r.name)

def coveringSig (sigs : List (RRSIG × Name)) (name : Name) (rtype : RecordType) : Option RRSIG :=
  (sigs.find? fun s => s.1.typeCovered == rtype && s.2.same name).map Prod.fst

section

variable (C : Crypto)

/-- One iteration of the answer loop: `ok` to go on, `error` to return. -/
def checkAnswerRrset (now : UInt32) (chain : ChainKeys) (sigs : List (RRSIG × Name))
    (g : RrsetKey × List Record) : Except ValidationStatus Unit :=
  match coveringSig sigs g.1.name g.1.rtype with
  | none => .error .insecure
  | some sig =>
      match checkRrsigValidity now sig with
      | .error e => .error (.bogus (.answerRrsigInvalid g.1.name g.1.rtype e))
      | .ok () =>
          let keys := closestTrustedKeys chain sig.signerName
          if keys.isEmpty then .error .insecure
          else if keys.any fun k => verifyRrset C g.2 sig k then .ok ()
          else .error (.bogus (.answerUnverified g.1.name g.1.rtype sig.signerName))

def checkAnswerRrsets (now : UInt32) (chain : ChainKeys) (sigs : List (RRSIG × Name)) :
    List (RrsetKey × List Record) → ValidationStatus
  | [] => .secure
  | g :: gs =>
      match checkAnswerRrset C now chain sigs g with
      | .error status => status
      | .ok () => checkAnswerRrsets now chain sigs gs

/-! ## Denial of existence -/

def isNsec (r : Record) : Bool :=
  match r.data with
  | .nsec _ => true
  | _ => false

def isNsec3 (r : Record) : Bool :=
  match r.data with
  | .nsec3 _ => true
  | _ => false

def authoritySets (kind : Record → Bool) (authorities : List Record) : List (Name × List Record) :=
  collect Name.cmp Record.name (authorities.filter kind)

def authoritySigs (rtype : RecordType) (authorities : List Record) :
    List (Name × List (Name × RRSIG)) :=
  collect Name.cmp Prod.fst
    (authorities.filterMap fun r =>
      r.rrsig?.bind fun s => if s.typeCovered = rtype then some (r.name, s) else none)

/-- One iteration of `verify_authority_rrsets`. -/
def verifyAuthorityRrset (now : UInt32) (chain : ChainKeys)
    (rrsigsByOwner : List (Name × List (Name × RRSIG))) (g : Name × List Record) :
    Except DenialReason Unit :=
  match g.2 with
  | [] => .error (.noRrsig g.1)
  | r :: _ =>
      match (groupAt Name.cmp g.1 rrsigsByOwner).find? (fun s => s.2.typeCovered == r.recordType) with
      | none => .error (.noRrsig g.1)
      | some (_, sig) =>
          match checkRrsigValidity now sig with
          | .error e => .error (.rrsigInvalid g.1 e)
          | .ok () =>
              let keys := closestTrustedKeys chain sig.signerName
              if keys.isEmpty then .error (.noTrustedKeys sig.signerName g.1)
              else if keys.any fun k => verifyRrset C g.2 sig k then .ok ()
              else .error (.unverified g.1 sig.signerName)

def verifyAuthorityRrsets (now : UInt32) (chain : ChainKeys)
    (rrsigsByOwner : List (Name × List (Name × RRSIG))) :
    List (Name × List Record) → Except DenialReason Unit
  | [] => .ok ()
  | g :: gs =>
      match verifyAuthorityRrset C now chain rrsigsByOwner g with
      | .error e => .error e
      | .ok () => verifyAuthorityRrsets now chain rrsigsByOwner gs

end

def headNsec (records : List Record) : Option NSEC :=
  match records with
  | { data := .nsec n, .. } :: _ => some n
  | _ => none

def headNsec3 (records : List Record) : Option NSEC3 :=
  match records with
  | { data := .nsec3 n, .. } :: _ => some n
  | _ => none

def canonicalLt (a b : Name) : Bool := a.cmp b == .lt

/-- Climb from `anc` to the first ancestor that is at or above `cand`; `fuel` bounds the labels. -/
def enclosingAncestor (cand : Name) : Nat → Name → Option Name
  | 0, _ => none
  | fuel + 1, anc =>
      if anc.numLabels = 0 then none
      else if anc.zoneOf cand || anc.same cand then some anc
      else enclosingAncestor cand fuel (anc.trimTo (anc.numLabels - 1))

def closestEncloser (qname : Name) (candidates : List Name) : Name :=
  candidates.foldl
    (fun best cand =>
      match enclosingAncestor cand.toLowercase (qname.labels.length + 1) qname with
      | some anc => if best.numLabels < anc.numLabels then anc else best
      | none => best)
    Name.root

def prependWildcard (owner : Name) : Option Name := (owner.prepend? Name.star).map Name.toLowercase

def nsecCovers (qname : Name) (qtype : RecordType) (seen : Bool × Bool)
    (g : Name × List Record) : Bool × Bool :=
  match headNsec g.2 with
  | none => seen
  | some nsec =>
      let next := nsec.nextDomainName
      let nameCover := seen.1 || (canonicalLt g.1 qname && canonicalLt qname next)
      match prependWildcard (closestEncloser qname [g.1, next]) with
      | none => (nameCover, seen.2)
      | some wildcard =>
          (nameCover,
            seen.2 || (canonicalLt g.1 wildcard && canonicalLt wildcard next)
              || (g.1.same wildcard && !nsec.typeBitMaps.contains qtype))

def proveDenialNsec (sets : List (Name × List Record)) (qname : Name) (qtype : RecordType)
    (rcode : ResponseCode) : DenialOutcome :=
  match rcode with
  | .noError =>
      match (sets.filter fun g => g.1.same qname).findSome? (fun g => headNsec g.2) with
      | some nsec =>
          if nsec.typeBitMaps.contains qtype then .bogus (.nodataTypePresent qname qtype)
          else .secure
      | none => .insecure
  | .nxDomain =>
      let covers := sets.foldl (nsecCovers qname.toLowercase qtype) (false, false)
      if covers.1 && covers.2 then .secure
      else .bogus (.nsecIncomplete qname covers.1 covers.2)
  | _ => .insecure

structure Nsec3Interval where
  ownerHash : List UInt8
  nextHash : List UInt8
  types : List RecordType
  optOut : Bool
  deriving DecidableEq, Repr

def base32HexDigit (b : UInt8) : Option Nat :=
  if 48 ≤ b ∧ b ≤ 57 then some (b.toNat - 48)
  else if 65 ≤ b ∧ b ≤ 86 then some (b.toNat - 55)
  else if 97 ≤ b ∧ b ≤ 118 then some (b.toNat - 87)
  else none

/-- Unpadded base32hex: `acc` holds `bits` bits not yet emitted.  A left-over of five bits or more,
or one that is not zero, is rejected. -/
def base32HexOctets : List UInt8 → Nat → Nat → Option (List UInt8)
  | [], acc, bits => if bits < 5 ∧ acc = 0 then some [] else none
  | b :: bs, acc, bits =>
      match base32HexDigit b with
      | none => none
      | some d =>
          if bits + 5 < 8 then base32HexOctets bs (acc * 32 + d) (bits + 5)
          else
            let value := acc * 32 + d
            let left := bits - 3
            (base32HexOctets bs (value % 2 ^ left) left).map (UInt8.ofNat (value / 2 ^ left) :: ·)

def base32HexDecode (label : Label) : Option (List UInt8) := base32HexOctets label 0 0

def cmpOctets (a b : List UInt8) : Ordering := List.compareLex compare a b

def hashInRange (target ownerHash nextHash : List UInt8) : Bool :=
  if cmpOctets ownerHash target == .lt && cmpOctets target nextHash == .lt then true
  else if cmpOctets ownerHash nextHash == .gt then
    cmpOctets ownerHash target == .lt || cmpOctets target nextHash == .lt
  else false

def nsec3Interval (g : Name × List Record) : Option Nsec3Interval :=
  match headNsec3 g.2, g.1.labels with
  | some nsec3, leftmost :: _ =>
      (base32HexDecode leftmost).map fun ownerHash =>
        ⟨ownerHash, nsec3.nextHashedOwnerName, nsec3.typeBitMaps, nsec3.optOut⟩
  | _, _ => none

/-- The longest proper ancestor of `current` whose hash is an interval's owner. -/
def nsec3Encloser (hashOf : Name → Option (List UInt8)) (intervals : List Nsec3Interval) :
    Nat → Name → Option Name
  | 0, _ => none
  | fuel + 1, current =>
      if current.numLabels = 0 then none
      else
        let parent := current.trimTo (current.numLabels - 1)
        match hashOf parent with
        | none => none
        | some h =>
            if intervals.any fun i => i.ownerHash == h then some parent
            else if parent.isRoot then none
            else nsec3Encloser hashOf intervals fuel parent

def proveNsec3NxDomain (hashOf : Name → Option (List UInt8)) (intervals : List Nsec3Interval)
    (qname encloser : Name) : DenialOutcome :=
  if qname.numLabels < encloser.numLabels + 1 then
    .bogus (.nsec3SameAsEncloser qname encloser)
  else
    let nextCloser := qname.trimTo (encloser.numLabels + 1)
    match hashOf nextCloser with
    | none => .insecure
    | some ncHash =>
        if intervals.any fun i => hashInRange ncHash i.ownerHash i.nextHash then
          match prependWildcard encloser with
          | none => .insecure
          | some wildcard =>
              match hashOf wildcard with
              | none => .insecure
              | some wcHash =>
                  if intervals.any fun i =>
                      hashInRange wcHash i.ownerHash i.nextHash || i.ownerHash == wcHash then
                    .secure
                  else .bogus (.nsec3WildcardUncovered wildcard)
        else .bogus (.nsec3NextCloserUncovered nextCloser)

section

variable (C : Crypto)

def proveDenialNsec3 (sets : List (Name × List Record)) (qname : Name) (qtype : RecordType)
    (rcode : ResponseCode) : DenialOutcome :=
  match sets.findSome? fun g => headNsec3 g.2 with
  | none => .insecure
  | some params =>
      if params.hashAlgorithm ≠ 1 then .bogus (.nsec3HashAlgo params.hashAlgorithm)
      else
        let intervals := sets.filterMap nsec3Interval
        let hashOf := fun name => C.nsec3Hash params.salt name params.iterations
        match rcode with
        | .noError =>
            match hashOf qname with
            | none => .insecure
            | some target =>
                match intervals.find? fun i => i.ownerHash == target with
                | some i =>
                    if i.types.contains qtype then .bogus (.nsec3NodataContradicted qname qtype)
                    else .secure
                | none => .insecure
        | .nxDomain =>
            match nsec3Encloser hashOf intervals (qname.labels.length + 1) qname with
            | none => .bogus (.nsec3NoEncloser qname)
            | some encloser => proveNsec3NxDomain hashOf intervals qname encloser
        | _ => .insecure

def validateDenial (now : UInt32) (resp : Message) (chain : ChainKeys) (qname : Name)
    (qtype : RecordType) : DenialOutcome :=
  let nsecSets := authoritySets isNsec resp.authorities
  let nsec3Sets := authoritySets isNsec3 resp.authorities
  if nsecSets.isEmpty && nsec3Sets.isEmpty then .insecure
  else
    match verifyAuthorityRrsets C now chain (authoritySigs .NSEC resp.authorities) nsecSets with
    | .error e => .bogus e
    | .ok () =>
        match verifyAuthorityRrsets C now chain (authoritySigs .NSEC3 resp.authorities)
            nsec3Sets with
        | .error e => .bogus e
        | .ok () =>
            if nsec3Sets.isEmpty then proveDenialNsec nsecSets qname qtype resp.responseCode
            else proveDenialNsec3 C nsec3Sets qname qtype resp.responseCode

def validateAnswerAgainstChain (now : UInt32) (resp : Message) (chain : ChainKeys) (qname : Name)
    (qtype : RecordType) : ValidationStatus :=
  let groups := answerGroups resp.answers
  if groups.isEmpty then (validateDenial C now resp chain qname qtype).toStatus
  else checkAnswerRrsets C now chain (answerSigs resp.answers) groups

end

end Dnsd.Recursor
