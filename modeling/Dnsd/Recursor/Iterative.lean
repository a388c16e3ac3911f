/-
# Iterative — the delegation walk as a program.

`iterative.rs`: the walk from the root (or from a cached zone) down to an answer, the glueless sub-walks, the cache
writes on the way, and root priming.

Two counters are not in the source.  `hops` bounds the referral loop: every turn spends a query of the budget, so
`queries + 1` is never reached.  `nest` bounds how deep sub-walks nest, which the source bounds by wall-clock
deadlines only: every run of the source is a run for some `nest`.  Any schedule of the two sub-walks in flight is
a schedule of all.
-/
import Mathlib.Data.List.Sort
import Mathlib.Data.List.Destutter
import Dnsd.Recursor.Validator
import Dnsd.Recursor.LocalZones

namespace Dnsd.Recursor

open Proto Lib

/-! ## Budget -/

structure Budget where
  depthRemaining : Nat
  queriesRemaining : Nat
  cnameRemaining : Nat
  deriving DecidableEq, Repr

inductive WalkError where
  | noQuestion
  | depthExceeded
  | queryBudgetExceeded
  | cnameDepthExceeded
  | noNsResponded
  | upstreamServfail
  | nonProgressiveReferral (newZone currentZone : Name)
  | noUsableNs (zone : Name)
  | abandoned
  deriving DecidableEq, Repr

namespace Budget

def referral (b : Budget) : Except WalkError Budget :=
  if b.depthRemaining = 0 then .error .depthExceeded
  else .ok { b with depthRemaining := b.depthRemaining - 1 }

def query (b : Budget) : Except WalkError Budget :=
  if b.queriesRemaining = 0 then .error .queryBudgetExceeded
  else .ok { b with queriesRemaining := b.queriesRemaining - 1 }

def cname (b : Budget) : Except WalkError Budget :=
  if b.cnameRemaining = 0 then .error .cnameDepthExceeded
  else .ok { b with cnameRemaining := b.cnameRemaining - 1 }

def canSubstep (b : Budget) : Bool := 0 < b.depthRemaining && 0 < b.queriesRemaining

end Budget

structure IterConfig where
  maxDepth : Nat := 32
  maxQueries : Nat := 384
  maxCname : Nat := 8
  ipv6Upstream : Bool := true
  dnssecOk : Bool
  deriving DecidableEq, Repr

def maxNsAttempts : Nat := 4
def nsParallel : Nat := 2

/-! ## Classification of a response -/

abbrev Glue := List (Name × List IpAddr)

inductive Classification where
  | answer
  | nxDomain
  | empty
  | cname (target : Name)
  | referral (zone : Name) (nsRecords : List Record) (glue : Glue)
  | servFail
  deriving DecidableEq, Repr

def glueOf (additionals : List Record) : Glue :=
  (collect Name.cmp Prod.fst
    (additionals.filterMap fun r => r.addr?.map fun ip => (r.name.toLowercase, ip))).map
    fun g => (g.1, g.2.map Prod.snd)

def cnameAt (qname : Name) (r : Record) : Option Name :=
  match r.data with
  | .cname target => if r.name.same qname then some target.toLowercase else none
  | _ => none

def classify (resp : Message) (qname : Name) (qtype : RecordType) : Classification :=
  match resp.responseCode with
  | .nxDomain => .nxDomain
  | .servFail => .servFail
  | .refused => .servFail
  | _ =>
      match (if qtype = .CNAME then none else resp.answers.findSome? (cnameAt qname)) with
      | some target => .cname target
      | none =>
          if resp.answers.isEmpty then
            match resp.authorities.filter fun r => r.recordType == .NS with
            | [] => .empty
            | r :: rs => .referral r.name.toLowercase (r :: rs) (glueOf resp.additionals)
          else .answer

def extractDsAndRrsig (resp : Message) (childZone : Name) : List Record × List RRSIG :=
  let rs := resp.authorities.filter fun r => r.name.same childZone
  (rs.filter fun r => r.ds?.isSome,
    (rs.filterMap Record.rrsig?).filter fun s => s.typeCovered == .DS)

/-! ## Cache writes of a walk -/

/-- A synthetic answer from the addresses of one family; `none` when there is none. -/
def buildSyntheticAnswer (name : Name) (rtype : RecordType) (ips : List IpAddr) : Option Message :=
  let answers := ips.filterMap fun ip =>
    match ip with
    | .v4 a => if rtype = .A then some { name := name, ttl := 300, data := .a a } else none
    | .v6 a => if rtype = .AAAA then some { name := name, ttl := 300, data := .aaaa a } else none
  if answers.isEmpty then none
  else some { queries := [⟨name, rtype, .IN⟩], answers := answers }

def cacheGlueFamily (asked name : Name) (rtype : RecordType) (ips : List IpAddr) : RProg Unit :=
  match buildSyntheticAnswer name rtype ips with
  | some msg => call (.cachePut (.glue asked) (CacheKey.of name rtype .IN) msg)
  | none => return ()

def cacheGlue (asked : Name) : Glue → RProg Unit
  | [] => return ()
  | (name, ips) :: glue => do
      cacheGlueFamily asked name .A ips
      cacheGlueFamily asked name .AAAA ips
      cacheGlue asked glue

def zoneNsMessage (zone : Name) (nsRecords : List Record) : Option Message :=
  match nsRecords.filter fun r => r.recordType == .NS && r.name.same zone with
  | [] => none
  | rs => some { queries := [⟨zone, .NS, .IN⟩], answers := rs }

def cacheZoneNs (asked zone : Name) (nsRecords : List Record) : RProg Unit :=
  match zoneNsMessage zone nsRecords with
  | some msg => call (.cachePut (.zoneNs asked) (CacheKey.of zone .NS .IN) msg)
  | none => return ()

/-! ## Addresses of name servers -/

def sortDedup (ips : List IpAddr) : List IpAddr :=
  (ips.insertionSort fun a b => a.le b = true).destutter (· ≠ ·)

def v4Answers (msg : Message) : List IpAddr :=
  msg.answers.filterMap fun r =>
    match r.data with
    | .a v4 => some (.v4 v4)
    | _ => none

def v6Answers (msg : Message) : List IpAddr :=
  msg.answers.filterMap fun r =>
    match r.data with
    | .aaaa v6 => some (.v6 v6)
    | _ => none

def cachedAddrs (name : Name) (rtype : RecordType) (addrs : Message → List IpAddr) :
    RProg (List IpAddr) := do
  let cached : Option Message ← call (.cacheGet (CacheKey.of name rtype .IN))
  match cached with
  | some msg => return addrs msg
  | none => return []

def cachedNsIps (cfg : IterConfig) (name : Name) : RProg (List IpAddr) := do
  let v4 ← cachedAddrs name .A v4Answers
  if cfg.ipv6Upstream then do
    let v6 ← cachedAddrs name .AAAA v6Answers
    return v4 ++ v6
  else return v4

def nsTarget? (r : Record) : Option Name :=
  match r.data with
  | .ns target => some target
  | _ => none

/-- The first pass of `resolve_ns_ips`: glue, then cache, then the names that need a sub-walk. -/
def gatherNsIps (cfg : IterConfig) (glue : Glue) (canSubstep : Bool) :
    List Name → List IpAddr → List Name → RProg (List IpAddr × List Name)
  | [], ips, needs => return (ips, needs)
  | target :: targets, ips, needs =>
      match glue.find? fun g => g.1.same target with
      | some g =>
          gatherNsIps cfg glue canSubstep targets
            (ips ++ g.2.filter fun ip => cfg.ipv6Upstream || ip.isIpv4) needs
      | none => do
          let cached ← cachedNsIps cfg target
          if !cached.isEmpty then gatherNsIps cfg glue canSubstep targets (ips ++ cached) needs
          else if canSubstep then gatherNsIps cfg glue canSubstep targets ips (needs ++ [target])
          else gatherNsIps cfg glue canSubstep targets ips needs

abbrev WalkResult := Except WalkError (Message × WalkChain × Budget)

/-- The signature of `walk`, for the walks it starts. -/
abbrev Walker := Name → RecordType → DNSClass → Budget → RProg WalkResult

def subWalkIps (r : Option WalkResult) : List IpAddr :=
  match r with
  | some (.ok (msg, _, _)) => v4Answers msg
  | _ => []

def resolveNsIps (cfg : IterConfig) (walk : Walker) (nsRecords : List Record) (glue : Glue)
    (qclass : DNSClass) (budget : Budget) : RProg (List IpAddr) := do
  let targets := (nsRecords.filterMap nsTarget?).map Name.toLowercase
  let (ips, needs) ← gatherNsIps cfg glue budget.canSubstep targets [] []
  if needs.isEmpty then return sortDedup ips
  else do
    let results ← joinAll (needs.map fun target => timeout (walk target .A qclass ⟨8, 24, 4⟩))
    return sortDedup (ips ++ results.flatMap subWalkIps)

/-! ## One hop -/

/-- The race of `query_ns_set`: some server in flight completes first; a failure lets the next one
in.  The first argument counts the servers not yet heard of. -/
def raceNs (asked : Name) (q : Query) : Nat → List IpAddr → List IpAddr → Budget →
    RProg (Except WalkError (Message × Budget))
  | 0, _, _, _ => return .error .noNsResponded
  | n + 1, inFlight, waiting, budget => do
      let choice : Nat ← call (.pick inFlight.length)
      match inFlight[choice % inFlight.length]? with
      | none => return .error .noNsResponded
      | some ip => do
          let reply ← upstreamQuery asked ip q
          match reply with
          | .parsed m => return .ok (m, budget)
          | _ =>
              let rest := inFlight.eraseIdx (choice % inFlight.length)
              match waiting with
              | [] => raceNs asked q n rest [] budget
              | next :: waiting =>
                  match budget.query with
                  | .error e => return .error e
                  | .ok budget => raceNs asked q n (rest ++ [next]) waiting budget

def startQueries : List IpAddr → Budget → Except WalkError Budget
  | [], budget => .ok budget
  | _ :: ips, budget =>
      match budget.query with
      | .error e => .error e
      | .ok budget => startQueries ips budget

def queryNsSet (asked : Name) (nsIps : List IpAddr) (q : Query) (budget : Budget) :
    RProg (Except WalkError (Message × Budget)) := do
  let shuffled : List IpAddr ← call (.shuffle nsIps)
  let order := shuffled.take maxNsAttempts
  let inFlight := order.take nsParallel
  match startQueries inFlight budget with
  | .error e => return .error e
  | .ok budget => raceNs asked q order.length inFlight (order.drop nsParallel) budget

structure Hop where
  zone : Name
  nsIps : List IpAddr
  chain : WalkChain
  deriving DecidableEq, Repr

def stitch (resp chased : Message) : Message :=
  { resp with
    answers := resp.answers ++ chased.answers
    responseCode := chased.responseCode }

def nonProgressive (newZone currentZone : Name) : Bool :=
  decide (newZone.numLabels ≤ currentZone.numLabels) && !newZone.same Name.root

/-- The referral loop of `walk`. -/
def walkHops (cfg : IterConfig) (walk : Walker) (qname : Name) (qtype : RecordType)
    (qclass : DNSClass) : Nat → Hop → Budget → RProg WalkResult
  | 0, _, _ => return .error .abandoned
  | hops + 1, hop, budget => do
      let result ← queryNsSet hop.zone hop.nsIps ⟨qname, qtype, qclass⟩ budget
      match result with
      | .error e => return .error e
      | .ok (resp, budget) =>
          match classify resp qname qtype with
          | .answer => return .ok (resp, hop.chain, budget)
          | .nxDomain => return .ok (resp, hop.chain, budget)
          | .empty => return .ok (resp, hop.chain, budget)
          | .servFail => return .error .upstreamServfail
          | .cname target =>
              match budget.cname with
              | .error e => return .error e
              | .ok budget => do
                  let chased ← walk target qtype qclass budget
                  match chased with
                  | .error e => return .error e
                  | .ok (sub, _, budget) => return .ok (stitch resp sub, hop.chain, budget)
          | .referral newZone nsRecords glue =>
              if nonProgressive newZone hop.zone then
                return .error (.nonProgressiveReferral newZone hop.zone)
              else do
                cacheGlue hop.zone glue
                cacheZoneNs hop.zone newZone nsRecords
                let (ds, dsRrsig) := extractDsAndRrsig resp newZone
                let nsIps ← resolveNsIps cfg walk nsRecords glue qclass budget
                if nsIps.isEmpty then return .error (.noUsableNs newZone)
                else
                  walkHops cfg walk qname qtype qclass hops
                    ⟨newZone, nsIps, ⟨hop.chain.steps ++ [⟨newZone, ds, dsRrsig, nsIps⟩]⟩⟩ budget

/-! ## Where a walk starts -/

def ancestorZones : List Label → List Name
  | [] => []
  | l :: ls => if 1 ≤ (Name.mk (l :: ls)).numLabels then ⟨l :: ls⟩ :: ancestorZones ls else []

def cachedPrefix : List Name → RProg (List ChainStep)
  | [] => return []
  | zone :: zones => do
      let cached : Option ChainStep ← call (.delegationGet zone)
      match cached with
      | none => return []
      | some step => do
          let steps ← cachedPrefix zones
          return step :: steps

def cachedDelegationStart (qname : Name) : RProg (Option Hop) := do
  let steps ← cachedPrefix (ancestorZones qname.baseName.labels).reverse
  match steps.getLast? with
  | none => return none
  | some last =>
      if last.nsIps.isEmpty then return none
      else return some ⟨last.zone, last.nsIps, ⟨steps⟩⟩

def cachedIpsOf (cfg : IterConfig) : List Name → RProg (List IpAddr)
  | [] => return []
  | target :: targets => do
      let ips ← cachedNsIps cfg target
      let rest ← cachedIpsOf cfg targets
      return ips ++ rest

def cachedZoneIps (cfg : IterConfig) (qclass : DNSClass) (zone : Name) : RProg (List IpAddr) := do
  let cached : Option Message ← call (.cacheGet (CacheKey.of zone .NS qclass))
  match cached with
  | some msg => do
      let ips ← cachedIpsOf cfg (msg.answers.filterMap nsTarget?)
      return sortDedup ips
  | none => return []

/-- The loop of `closest_cached_zone`, over the labels of the zone tried. -/
def closestCachedFrom (cfg : IterConfig) (qclass : DNSClass) :
    List Label → RProg (Option (Name × List IpAddr))
  | [] => do
      let ips ← cachedZoneIps cfg qclass Name.root
      return if ips.isEmpty then none else some (Name.root, ips)
  | l :: rest => do
      let ips ← cachedZoneIps cfg qclass ⟨l :: rest⟩
      if ips.isEmpty then closestCachedFrom cfg qclass rest
      else return some (⟨l :: rest⟩, ips)

def closestCachedZone (cfg : IterConfig) (qname : Name) (qclass : DNSClass) :
    RProg (Option (Name × List IpAddr)) :=
  closestCachedFrom cfg qclass (if 0 < qname.numLabels then qname.baseName else qname).labels

def cachedStart (cfg : IterConfig) (qname : Name) (qclass : DNSClass) : RProg (Option Hop) :=
  if cfg.dnssecOk then cachedDelegationStart qname
  else do
    let zone ← closestCachedZone cfg qname qclass
    match zone with
    | some (zone, ips) => return some ⟨zone, ips, ⟨[]⟩⟩
    | none => return none

def walkStart (cfg : IterConfig) (qname : Name) (qclass : DNSClass) : RProg Hop := do
  let cached ← cachedStart cfg qname qclass
  match cached with
  | some hop => return hop
  | none => do
      let roots : List IpAddr ← call .readRoots
      return ⟨Name.root, roots, ⟨[]⟩⟩

def walk (cfg : IterConfig) : Nat → Walker
  | 0, _, _, _, _ => return .error .abandoned
  | nest + 1, qname, qtype, qclass, budget =>
      match budget.referral with
      | .error e => return .error e
      | .ok budget => do
          let hop ← walkStart cfg qname qclass
          walkHops cfg (walk cfg nest) qname qtype qclass (budget.queriesRemaining + 1) hop budget

/-! ## Resolution -/

def localNxdomain (clientQuery : Message) : Message :=
  { Message.response clientQuery.id .query with
    recursionDesired := clientQuery.recursionDesired
    recursionAvailable := true
    authoritative := true
    responseCode := .nxDomain
    queries := clientQuery.queries }.lowercaseResponseNames

def stitchResponse (clientQuery answer : Message) : Message :=
  { Message.response clientQuery.id .query with
    recursionDesired := clientQuery.recursionDesired
    recursionAvailable := true
    responseCode := answer.responseCode
    queries := clientQuery.queries
    answers := answer.answers
    authorities := answer.authorities }.lowercaseResponseNames

def resolveWithChain (cfg : IterConfig) (nest : Nat) (clientQuery : Message) :
    RProg (Except WalkError (Message × WalkChain)) :=
  match clientQuery.queries with
  | [] => return .error .noQuestion
  | q :: _ =>
      if isPrivateReverse q.name then do
        let response := localNxdomain clientQuery
        call (.cachePut .localZone (CacheKey.of q.name q.queryType q.queryClass) response)
        return .ok (response, ⟨[]⟩)
      else do
        let result ← walk cfg nest q.name q.queryType q.queryClass
          ⟨cfg.maxDepth, cfg.maxQueries, cfg.maxCname⟩
        match result with
        | .error e => return .error e
        | .ok (answer, chain, _) => do
            let response := stitchResponse clientQuery answer
            if !cfg.dnssecOk then
              call (.cachePut .walked (CacheKey.of q.name q.queryType q.queryClass) response)
            return .ok (response, chain)

/-- `cache_validated_delegations`: the steps whose zone is among the validated ones. -/
def insertDelegations (zones : List Name) : List ChainStep → RProg Unit
  | [] => return ()
  | step :: steps => do
      if zones.any fun z => z.same step.zone then call (.delegationInsert step)
      insertDelegations zones steps

def cacheValidatedDelegations (cfg : IterConfig) (chain : WalkChain) (zones : List Name) :
    RProg Unit :=
  if !cfg.dnssecOk || zones.isEmpty then return () else insertDelegations zones chain.steps

/-! ## Root hints -/

/-- `default_root_hints`: the servers `a` to `m`, each with its IPv4 and its IPv6 address. -/
def defaultRootHints : List IpAddr :=
  [ .v4 0xc6290004, .v6 0x20010503ba3e00000000000000020030,
    .v4 0xaaf7aa02, .v6 0x280101b800100000000000000000000b,
    .v4 0xc021040c, .v6 0x2001050000020000000000000000000c,
    .v4 0xc7075b0d, .v6 0x20010500002d0000000000000000000d,
    .v4 0xc0cbe60a, .v6 0x2001050000a80000000000000000000e,
    .v4 0xc00505f1, .v6 0x20010500002f0000000000000000000f,
    .v4 0xc0702404, .v6 0x20010500001200000000000000000d0d,
    .v4 0xc661be35, .v6 0x20010500000100000000000000000053,
    .v4 0xc0249411, .v6 0x200107fe000000000000000000000053,
    .v4 0xc03a801e, .v6 0x200105030c2700000000000000020030,
    .v4 0xc1000e81, .v6 0x200107fd000000000000000000000001,
    .v4 0xc707532a, .v6 0x20010500009f00000000000000000042,
    .v4 0xca0c1b21, .v6 0x20010dc3000000000000000000000035 ]

/-- `read_root_hints_file`.  The file is a list of lines with what each parses to; a file without an
address counts as unreadable. -/
def readRootHintsFile (file : Option (List (Option IpAddr))) : Option (List IpAddr) :=
  match file.map fun lines => lines.filterMap id with
  | none => none
  | some [] => none
  | some ips => some ips

/-- The root set of `IterativeResolver::new`: the persisted hints, or else the compiled-in ones. -/
def initialRoots (cfg : IterConfig) (file : Option (List (Option IpAddr))) : List IpAddr :=
  let roots := (readRootHintsFile file).getD defaultRootHints
  if cfg.ipv6Upstream then roots else roots.filter IpAddr.isIpv4

/-! ## Root priming -/

def primingSeed (roots : List IpAddr) : Option IpAddr := (roots.find? IpAddr.isIpv4).or roots.head?

def primedRoots (cfg : IterConfig) (resp : Message) : List IpAddr :=
  ((resp.answers.filterMap nsTarget?).map Name.toLowercase).flatMap fun target =>
    match (glueOf resp.additionals).find? fun g => g.1.same target with
    | some g => g.2.filter fun ip => cfg.ipv6Upstream || ip.isIpv4
    | none => []

/-- `prime`: ask one root server for `./NS`, cache the glue and the response as received, and swap
the root set. -/
def prime (cfg : IterConfig) : RProg Unit := do
  let roots : List IpAddr ← call .readRoots
  match primingSeed roots with
  | none => return ()
  | some seed => do
      let reply ← timeout (upstreamQuery Name.root seed ⟨Name.root, .NS, .IN⟩)
      match reply with
      | some (.parsed resp) =>
          if (resp.answers.filterMap nsTarget?).isEmpty then return ()
          else do
            cacheGlue Name.root (glueOf resp.additionals)
            call (.cachePut .primed (CacheKey.of Name.root .NS .IN) resp)
            if (primedRoots cfg resp).isEmpty then return ()
            else call (.writeRoots (primedRoots cfg resp))
      | _ => return ()

end Dnsd.Recursor
