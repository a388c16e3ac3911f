/-
# Validator — chain validation as a program.

`validate_walk` and what it calls, effect by effect.  Every place where keys join the trusted ones carries a `note`
in the history.  Loops of the source are recursions over the list they run through; `?` is an `Except` result.
-/
import Dnsd.Recursor.World

namespace Dnsd.Recursor

open Proto Lib

/-- `UpstreamClient::query` at one server.  The client lower-cases the owner names of what it
returns. -/
def upstreamQuery (asked : Name) (ip : IpAddr) (q : Query) : RProg Reply := do
  let reply : Reply ← call (.query asked ip q)
  match reply with
  | .parsed m => return .parsed m.lowercaseResponseNames
  | r => return r

def admitKeys (zone : Name) (keys : List DNSKEY) : RProg Unit :=
  call (.note (.admitted zone keys))

/-! ## Key sets as they come off the wire -/

/-- What `fetch_dnskey_rrset` returns: the key records, their keys and the covering signature. -/
structure DnskeySet where
  records : List Record
  keys : List DNSKEY
  sig : Option RRSIG
  deriving DecidableEq, Repr

def lastSigOver (rtype : RecordType) (rs : List Record) : Option RRSIG :=
  ((rs.filterMap Record.rrsig?).filter fun s => s.typeCovered == rtype).getLast?

def dnskeySetOf (zone : Name) (answers : List Record) : DnskeySet :=
  let rs := answers.filter fun r => r.name.same zone
  let records := rs.filter fun r => r.dnskey?.isSome
  ⟨records, records.filterMap Record.dnskey?, lastSigOver .DNSKEY rs⟩

/-- The loop of `fetch_dnskey_rrset`: the first server that answers decides. -/
def fetchDnskeyFrom (asked zone : Name) : List IpAddr → RProg (Except FetchError DnskeySet)
  | [] => return .error (.allFailed zone)
  | ip :: ips => do
      let reply ← upstreamQuery asked ip ⟨zone, .DNSKEY, .IN⟩
      match reply with
      | .parsed m => return .ok (dnskeySetOf zone m.answers)
      | .unparsed => return .error (.unparsed zone)
      | .failed => fetchDnskeyFrom asked zone ips

def fetchDnskeyRrset (asked zone : Name) (nsIps : List IpAddr) :
    RProg (Except FetchError DnskeySet) :=
  if nsIps.isEmpty then return .error (.noAddresses zone) else fetchDnskeyFrom asked zone nsIps

def dnskeyTtl (records : List Record) : Nat :=
  if records.isEmpty then minPositiveTtl else DelegationCache.minTtl records

section

variable (C : Crypto)

def selfSigned (set : DnskeySet) (sig : RRSIG) : Bool :=
  set.keys.any fun k => verifyRrset C set.records sig k

def dsMatch (ds : List Record) (zone : Name) (keys : List DNSKEY) : Bool :=
  keys.any fun k => dsCovers C ds zone k

end

/-! ## The keys trusted so far -/

def hasZone (chain : ChainKeys) (zone : Name) : Bool := chain.any fun e => e.1.same zone

def entryKeys (chain : ChainKeys) (zone : Name) : List DNSKEY :=
  match chain.find? fun e => e.1.same zone with
  | some e => e.2
  | none => []

/-- `retain` the other zones, then push. -/
def putEntry (chain : ChainKeys) (zone : Name) (keys : List DNSKEY) : ChainKeys :=
  (chain.filter fun e => !e.1.same zone) ++ [(zone, keys)]

def addAnchor (name : Name) (key : DNSKEY) : ChainKeys → ChainKeys
  | [] => [(name, [key])]
  | e :: chain =>
      if e.1.same name then (e.1, e.2 ++ [key]) :: chain else e :: addAnchor name key chain

def seedChain (anchors : TrustAnchors) : ChainKeys :=
  anchors.keys.foldl (fun chain a => addAnchor a.1 a.2 chain) []

section

variable (C : Crypto)

/-- `splice_in_zone_dnskey`: replace a zone's entry by its whole DNSKEY set, verified under a key
that is already trusted for the zone. -/
def spliceInZoneDnskey (chain : ChainKeys) (zone : Name) (nsIps : List IpAddr) :
    RProg (Except SpliceError ChainKeys) := do
  let cached : Option (List DNSKEY) ← call (.keyGet zone.toLowercase)
  match cached with
  | some keys => do
      admitKeys zone keys
      return .ok (putEntry chain zone keys)
  | none => do
      let fetched ← fetchDnskeyRrset zone zone nsIps
      match fetched with
      | .error e => return .error (.fetch e)
      | .ok set =>
          match set.sig with
          | none => return .error (.unsigned zone)
          | some sig => do
              let now : UInt32 ← call .unixNow
              match checkRrsigValidity now sig with
              | .error e => return .error (.rrsigInvalid zone e)
              | .ok () =>
                  if (entryKeys chain zone).any fun k => verifyRrset C set.records sig k then do
                    call (.keyPut zone.toLowercase set.keys (dnskeyTtl set.records))
                    admitKeys zone set.keys
                    return .ok (putEntry chain zone set.keys)
                  else return .error (.unverified zone)

/-! ## Zones the walk has skipped -/

inductive BootstrapError where
  | rootMissing (target : Name)
  | noTrustedParent (zone : Name)
  | noDs (zone : Name)
  | dsUnsigned (zone : Name)
  | dsRrsigInvalid (zone : Name) (e : ValidityError)
  | dsUnverified (zone : Name)
  | fetch (e : FetchError)
  | dnskeyUnsigned (zone : Name)
  | dnskeyRrsigInvalid (zone : Name) (e : ValidityError)
  | notSelfSigned (zone : Name)
  | noDsMatch (zone : Name)
  deriving DecidableEq, Repr

/-- The ancestors of a name up to the first trusted one, shallow to deep; `none` when the root is
reached and is not trusted. -/
def missingAncestors (chain : ChainKeys) : List Label → Option (List Name)
  | [] => if hasZone chain Name.root then some [] else none
  | l :: ls =>
      if hasZone chain ⟨l :: ls⟩ then some []
      else (missingAncestors chain ls).map (· ++ [⟨l :: ls⟩])

def ownRecords (zone : Name) (m : Message) : List Record :=
  (m.answers ++ m.authorities).filter fun r => r.name.same zone

def dsRecordsOf (zone : Name) (m : Message) : List Record :=
  (ownRecords zone m).filter fun r => r.ds?.isSome

def collectDs (zone : Name) : List IpAddr → List Record → Option RRSIG → RProg (List Record × Option RRSIG)
  | [], ds, sig => return (ds, sig)
  | ip :: ips, ds, sig => do
      let reply ← upstreamQuery Name.root ip ⟨zone, .DS, .IN⟩
      match reply with
      | .parsed m =>
          let ds := ds ++ dsRecordsOf zone m
          let sig := (lastSigOver .DS (ownRecords zone m)).or sig
          if !ds.isEmpty && sig.isSome then return (ds, sig) else collectDs zone ips ds sig
      | _ => collectDs zone ips ds sig

def bootstrapDnskey (chain : ChainKeys) (zone : Name) (ds : List Record) (rootIps : List IpAddr) :
    RProg (Except BootstrapError ChainKeys) := do
  let fetched ← fetchDnskeyRrset Name.root zone rootIps
  match fetched with
  | .error e => return .error (.fetch e)
  | .ok set =>
      match set.sig with
      | none => return .error (.dnskeyUnsigned zone)
      | some sig => do
          let now : UInt32 ← call .unixNow
          match checkRrsigValidity now sig with
          | .error e => return .error (.dnskeyRrsigInvalid zone e)
          | .ok () =>
              if !selfSigned C set sig then return .error (.notSelfSigned zone)
              else if !dsMatch C ds zone set.keys then return .error (.noDsMatch zone)
              else do
                call (.keyPut zone.toLowercase set.keys (dnskeyTtl set.records))
                admitKeys zone set.keys
                return .ok (putEntry chain zone set.keys)

/-- One iteration of `bootstrap_intermediate_zone`. -/
def bootstrapZone (chain : ChainKeys) (zone : Name) (rootIps : List IpAddr) :
    RProg (Except BootstrapError ChainKeys) := do
  let cached : Option (List DNSKEY) ← call (.keyGet zone.toLowercase)
  match cached with
  | some keys => do
      admitKeys zone keys
      return .ok (putEntry chain zone keys)
  | none =>
      let parentKeys := closestTrustedKeys chain zone
      if parentKeys.isEmpty then return .error (.noTrustedParent zone)
      else do
        let collected ← collectDs zone rootIps [] none
        if collected.1.isEmpty then return .error (.noDs zone)
        else
          match collected.2 with
          | none => return .error (.dsUnsigned zone)
          | some dsSig => do
              let now : UInt32 ← call .unixNow
              match checkRrsigValidity now dsSig with
              | .error e => return .error (.dsRrsigInvalid zone e)
              | .ok () =>
                  if parentKeys.any fun k => verifyRrset C collected.1 dsSig k then
                    bootstrapDnskey C chain zone collected.1 rootIps
                  else return .error (.dsUnverified zone)

def bootstrapZones (rootIps : List IpAddr) : List Name → ChainKeys → RProg (Except BootstrapError ChainKeys)
  | [], chain => return .ok chain
  | zone :: zones, chain => do
      let result ← bootstrapZone C chain zone rootIps
      match result with
      | .error e => return .error e
      | .ok chain => bootstrapZones rootIps zones chain

def bootstrapIntermediateZone (chain : ChainKeys) (target : Name) (rootIps : List IpAddr) :
    RProg (Except BootstrapError ChainKeys) :=
  match missingAncestors chain target.toLowercase.labels with
  | none => return .error (.rootMissing target)
  | some zones => bootstrapZones C rootIps zones chain

def bootstrapSigner (chain : ChainKeys) (signer : Name) (rootIps : List IpAddr) :
    RProg (Except BootstrapError ChainKeys) :=
  if hasZone chain signer then return .ok chain
  else bootstrapIntermediateZone C chain signer rootIps

/-! ## Prefetch -/

inductive StepDnskeyState where
  | cached (keys : List DNSKEY)
  | insecure
  | fetched (result : Except FetchError DnskeySet)

def prefetchFetch (step : ChainStep) : RProg StepDnskeyState := do
  let fetched ← timeout (fetchDnskeyRrset step.zone step.zone step.nsIps)
  match fetched with
  | some (.ok set) => return .fetched (.ok set)
  | some (.error e) => do
      call (.keyPutNegative step.zone.toLowercase step)
      return .fetched (.error e)
  | none => do
      call (.keyPutNegative step.zone.toLowercase step)
      return .fetched (.error (.timedOut step.zone))

def prefetchUncached (step : ChainStep) : RProg StepDnskeyState := do
  let negative : Bool ← call (.keyHasNegative step.zone.toLowercase)
  if negative then return .insecure else prefetchFetch step

def prefetchStep (step : ChainStep) : RProg StepDnskeyState := do
  let cached : Option (List DNSKEY) ← call (.keyGet step.zone.toLowercase)
  match cached with
  | some keys =>
      if dsMatch C step.ds step.zone keys then return .cached keys
      else do
        call (.keyInvalidate step.zone.toLowercase step)
        prefetchUncached step
  | none => prefetchUncached step

def prefetchStepDnskeys (walk : WalkChain) : RProg (List StepDnskeyState) :=
  joinAll (walk.steps.map (prefetchStep C))

/-! ## The walk -/

def dsSigOf (step : ChainStep) : Option RRSIG :=
  step.dsRrsig.find? fun s => s.typeCovered == .DS

def acceptStepKeys (step : ChainStep) (state : Option StepDnskeyState) (chain : ChainKeys) :
    RProg (Except ValidationStatus ChainKeys) :=
  match state with
  | some (.cached keys) => do
      admitKeys step.zone keys
      return .ok (chain ++ [(step.zone, keys)])
  | some .insecure => return .error .insecure
  | some (.fetched (.error _)) => return .error .insecure
  | none => return .error .insecure
  | some (.fetched (.ok set)) =>
      if set.keys.isEmpty then return .error (.bogus (.noDnskey step.zone))
      else
        match set.sig with
        | none => return .error (.bogus (.dnskeyUnsigned step.zone))
        | some sig => do
            let now : UInt32 ← call .unixNow
            match checkRrsigValidity now sig with
            | .error e => return .error (.bogus (.dnskeyRrsigInvalid step.zone e))
            | .ok () =>
                if !selfSigned C set sig then return .error (.bogus (.notSelfSigned step.zone))
                else if !dsMatch C step.ds step.zone set.keys then
                  return .error (.bogus (.noDsMatch step.zone))
                else do
                  call (.keyPut step.zone.toLowercase set.keys (dnskeyTtl set.records))
                  admitKeys step.zone set.keys
                  return .ok (chain ++ [(step.zone, set.keys)])

def verifyStepDs (step : ChainStep) (state : Option StepDnskeyState) (chain : ChainKeys) :
    RProg (Except ValidationStatus ChainKeys) :=
  let parentKeys := closestTrustedKeys chain step.zone
  if parentKeys.isEmpty then return .error .insecure
  else if step.ds.isEmpty then return .error .insecure
  else
    match dsSigOf step with
    | none => return .error (.bogus (.dsUnsigned step.zone))
    | some dsSig => do
        let now : UInt32 ← call .unixNow
        match checkRrsigValidity now dsSig with
        | .error e => return .error (.bogus (.dsRrsigInvalid step.zone e))
        | .ok () =>
            if parentKeys.any fun k => verifyRrset C step.ds dsSig k then
              acceptStepKeys C step state chain
            else return .error (.bogus (.dsUnverified step.zone))

/-- One iteration of the loop over the steps: `error` is the verdict to return. -/
def validateStep (rootIps : List IpAddr) (step : ChainStep) (state : Option StepDnskeyState)
    (chain : ChainKeys) : RProg (Except ValidationStatus ChainKeys) :=
  match dsSigOf step with
  | none => verifyStepDs C step state chain
  | some dsSig => do
      let booted ← bootstrapSigner C chain dsSig.signerName rootIps
      match booted with
      | .error _ => return .error .insecure
      | .ok chain => verifyStepDs C step state chain

def validateSteps (rootIps : List IpAddr) : List ChainStep → List StepDnskeyState → ChainKeys →
    List Name → RProg (Except ValidationStatus ChainKeys × List Name)
  | [], _, chain, zones => return (.ok chain, zones)
  | step :: steps, states, chain, zones => do
      let result ← validateStep C rootIps step states.head? chain
      match result with
      | .error status => return (.error status, zones)
      | .ok chain => validateSteps rootIps steps states.tail chain (zones ++ [step.zone])

def addSigner (chain : ChainKeys) (needed : List Name) (r : Record) : List Name :=
  match r.rrsig? with
  | some s =>
      if hasZone chain s.signerName || needed.any (fun n => n.same s.signerName) then needed
      else needed ++ [s.signerName]
  | none => needed

def neededSigners (chain : ChainKeys) (answer : Message) : List Name :=
  (answer.answers ++ answer.authorities).foldl (addSigner chain) []

def bootstrapSigners (rootIps : List IpAddr) : List Name → ChainKeys →
    RProg (Except BootstrapError ChainKeys)
  | [], chain => return .ok chain
  | signer :: signers, chain => do
      let result ← bootstrapIntermediateZone C chain signer rootIps
      match result with
      | .error e => return .error e
      | .ok chain => bootstrapSigners rootIps signers chain

def firstQuestion (answer : Message) : Name × RecordType :=
  match answer.queries with
  | q :: _ => (q.name, q.queryType)
  | [] => (Name.root, .A)

def validateAnswer (rootIps : List IpAddr) (answer : Message) (chain : ChainKeys) :
    RProg ValidationStatus := do
  let result ← bootstrapSigners C rootIps (neededSigners chain answer) chain
  match result with
  | .error _ => return .insecure
  | .ok chain => do
      let now : UInt32 ← call .unixNow
      let q := firstQuestion answer
      return validateAnswerAgainstChain C now answer chain q.1 q.2

def trustRoot (anchors : TrustAnchors) (rootIps : List IpAddr) :
    RProg (Except ValidationStatus ChainKeys) := do
  let result ← spliceInZoneDnskey C (seedChain anchors) Name.root rootIps
  match result with
  | .error e => return .error (.bogus (.rootBootstrap e))
  | .ok chain => return .ok chain

/-- The first half of `validate_walk`, up to the end of the loop over the steps: the root addresses,
the trusted keys or a verdict, and the zones validated. -/
def walkKeys (walk : WalkChain) :
    RProg (List IpAddr × Except ValidationStatus ChainKeys × List Name) := do
  let anchors : TrustAnchors ← call .loadAnchors
  if (seedChain anchors).isEmpty then return ([], .error .insecure, [])
  else do
    let rootIps : List IpAddr ← call .readRoots
    let rooted ← trustRoot C anchors rootIps
    match rooted with
    | .error status => return (rootIps, .error status, [])
    | .ok chain => do
        let prefetched ← prefetchStepDnskeys C walk
        let result ← validateSteps C rootIps walk.steps prefetched chain []
        return (rootIps, result)

/-- `validate_walk` without the note of its verdict. -/
def validateWalkBody (walk : WalkChain) (answer : Message) :
    RProg (ValidationStatus × List Name) := do
  let (rootIps, keys, zones) ← walkKeys C walk
  match keys with
  | .error status => return (status, zones)
  | .ok chain => do
      let status ← validateAnswer C rootIps answer chain
      return (status, zones)

/-- The first half of `validate_walk` with the caller's vector: the zones validated are pushed behind
what the vector holds. -/
def walkKeysInto (walk : WalkChain) (out : List Name) :
    RProg (List IpAddr × Except ValidationStatus ChainKeys × List Name) := do
  let anchors : TrustAnchors ← call .loadAnchors
  if (seedChain anchors).isEmpty then return ([], .error .insecure, out)
  else do
    let rootIps : List IpAddr ← call .readRoots
    let rooted ← trustRoot C anchors rootIps
    match rooted with
    | .error status => return (rootIps, .error status, out)
    | .ok chain => do
        let prefetched ← prefetchStepDnskeys C walk
        let result ← validateSteps C rootIps walk.steps prefetched chain out
        return (rootIps, result)

/-- `validate_walk` with the out-parameter as the source has it. -/
def validateWalkInto (walk : WalkChain) (answer : Message) (out : List Name) :
    RProg (ValidationStatus × List Name) := do
  let (rootIps, keys, zones) ← walkKeysInto C walk out
  match keys with
  | .error status => return (status, zones)
  | .ok chain => do
      let status ← validateAnswer C rootIps answer chain
      return (status, zones)

def validateWalk (walk : WalkChain) (answer : Message) : RProg (ValidationStatus × List Name) := do
  let result ← validateWalkBody C walk answer
  call (.note (.verdict walk answer result.1 result.2))
  return result

def validateTask (walk : WalkChain) (answer : Message) : RProg Unit := do
  let _ ← validateWalk C walk answer
  return ()

end

end Dnsd.Recursor
