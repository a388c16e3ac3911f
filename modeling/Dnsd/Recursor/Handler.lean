/-
# Handler — from a client's query to the response.

`RecursorHandler::handle_bytes_inner` with everything it calls, root priming and the DNSKEY prewarm.  Every
response that goes out is recorded (`sent`), and so is every cache entry a response is built from (`served`).  The
per-question lock is left out: without it the code has more interleavings, not fewer.
-/
import Dnsd.Recursor.Iterative
import Dnsd.Recursor.Dns64

namespace Dnsd.Recursor

open Proto Lib

/-! ## Configuration -/

/-- The forwarder table: the configured domains, the ones with most labels first. -/
structure Forwarders where
  entries : List Name
  sorted : entries.Pairwise fun a b => b.numLabels ≤ a.numLabels

def isSuffix (name suffix : Name) : Bool :=
  if name.numLabels < suffix.numLabels then false else suffix.zoneOf name

def Forwarders.lookupWithDomain (f : Forwarders) (qname : Name) : Option Name :=
  f.entries.find? fun domain => isSuffix qname.toLowercase domain

structure Config where
  policy : DnssecPolicy
  forwarders : Forwarders
  /-- Recursion is on. -/
  iterative : Bool
  maxCname : Nat
  ipv6Upstream : Bool
  dns64 : Option Dns64Policy
  rrl : Bool
  ddrSvcb : List (List UInt8)

namespace Config

/-- There is a validator exactly in `validate` mode. -/
def validates (cfg : Config) : Bool := cfg.policy == .validate

/-- The resolver's settings: DNSSEC records are asked for exactly in `validate` mode. -/
def iter (cfg : Config) : IterConfig where
  maxCname := min (max cfg.maxCname 1) 16
  ipv6Upstream := cfg.ipv6Upstream
  dnssecOk := cfg.validates

end Config

/-! ## Responses without data -/

def buildRefused (query : Message) : Message :=
  { Message.response query.id query.opCode with
    recursionDesired := query.recursionDesired
    responseCode := if query.opCode = .query then .refused else .notImp
    queries := query.queries }

def servfail (query : Message) : Message :=
  { Message.response query.id .query with
    recursionDesired := query.recursionDesired
    responseCode := .servFail
    queries := query.queries }

def edeDnssecBogus : UInt16 := 6

def servfailWithEde (query : Message) (infoCode : UInt16) : Message :=
  { servfail query with ede := some infoCode }

/-! ## Recursion, validation and the cache -/

inductive ResolveOutcome where
  | ok (resp : Message)
  | bogus (resp : Message)
  | walkFailed
  deriving DecidableEq, Repr

def storeResolved (q : Query) (resp : Message) : RProg ResolveOutcome := do
  call (.cachePut .resolved (CacheKey.of q.name q.queryType q.queryClass) resp)
  return .ok resp

section

variable (C : Crypto) (cfg : Config)

/-- The validating tail of `resolve_validate_cache`. -/
def validateAndStore (msg : Message) (q : Query) (parsed : Message) (chain : WalkChain) :
    RProg ResolveOutcome := do
  let result ← validateWalk C chain parsed
  cacheValidatedDelegations cfg.iter chain result.2
  match result.1 with
  | .secure => storeResolved q { parsed with authenticData := true }
  | .insecure => storeResolved q { parsed with authenticData := false }
  | .bogus _ => return .bogus (servfailWithEde msg edeDnssecBogus)

def resolveValidateCache (nest : Nat) (msg : Message) : RProg ResolveOutcome :=
  match msg.queries with
  | [] => return .walkFailed
  | q :: _ => do
      let result ← resolveWithChain cfg.iter nest msg
      match result with
      | .error _ => return .walkFailed
      | .ok (parsed, chain) =>
          if cfg.validates then validateAndStore C cfg msg q parsed chain
          else storeResolved q (cfg.policy.applyToResponse parsed)

/-! ## Forwarders -/

/-- `UpstreamClient::query_forwarder` at the servers configured for a domain: the client's own
identifier is restored and owner names are lower-cased. -/
def queryForwarder (domain : Name) (query : Message) : RProg Reply := do
  let reply : Reply ← call (.forward domain query)
  match reply with
  | .parsed m => return .parsed { m.lowercaseResponseNames with id := query.id }
  | r => return r

def aQuery (msg : Message) (q : Query) : Message := { msg with queries := [⟨q.name, .A, .IN⟩] }

def resolveForwarded (query : Message) (qname : Name) : RProg (Option Message) := do
  let key := CacheKey.of qname .PTR .IN
  let cached : Option Message ← call (.cacheGet key)
  match cached with
  | some m => do
      call (.note (.served key m))
      return some m
  | none =>
      match cfg.forwarders.lookupWithDomain qname with
      | none => return none
      | some domain => do
          let reply ← queryForwarder domain query
          match reply with
          | .parsed m => do
              call (.cachePut .ptrForwarded key m)
              return some m
          | _ => return none

def rewriteQueryName (msg : Message) (name : Name) : Message :=
  { recursionDesired := msg.recursionDesired, queries := [⟨name, .PTR, .IN⟩] }

/-- The DNS64 reverse path; `none` when the question is not one of it. -/
def ptrName? (dns64Enabled : Bool) (q : Query) : Option Name :=
  if dns64Enabled && q.queryType == .PTR then
    cfg.dns64.bind fun p => rewritePtrQuestion p q.name
  else none

def answerPtr (msg : Message) (name : Name) : RProg Message := do
  let resolved ← resolveForwarded cfg (rewriteQueryName msg name) name
  match resolved with
  | some m => return cfg.policy.applyToResponse (rewrapPtrResponse msg m)
  | none => return servfail msg

/-! ## The cache -/

def cachedAAnswer (qname : Name) : RProg (Option Message) := do
  let cached : Option Message ← call (.cacheGet (CacheKey.of qname .A .IN))
  match cached with
  | some a =>
      if a.answers.any fun r => r.recordType == .A then do
        call (.note (.served (CacheKey.of qname .A .IN) a))
        return some a
      else return none
  | none => return none

def buildFromCacheValue (dns64Enabled : Bool) (msg : Message) (q : Query) (cached : Message) :
    RProg (Option Message) :=
  let parsed := { cached with id := msg.id }
  if shouldSynthesise cfg.dns64 dns64Enabled q.name q.queryType parsed then
    match cfg.dns64 with
    | none => return none
    | some p => do
        let a ← cachedAAnswer q.name
        match a with
        | some a => return some (cfg.policy.applyToResponse (synthesiseFromA p msg a))
        | none => return none
  else do
    call (.note (.served (CacheKey.of q.name q.queryType q.queryClass) cached))
    return some (if cfg.validates then parsed else cfg.policy.applyToResponse parsed)

def tryCache (dns64Enabled : Bool) (msg : Message) (q : Query) : RProg (Option Message) := do
  let cached : Option Message ← call (.cacheGet (CacheKey.of q.name q.queryType q.queryClass))
  match cached with
  | some m => buildFromCacheValue cfg dns64Enabled msg q m
  | none => return none

/-! ## Misses -/

def answerIterative (nest : Nat) (dns64Enabled : Bool) (msg : Message) (q : Query) :
    RProg Message := do
  let outcome ← resolveValidateCache C cfg nest msg
  match outcome with
  | .bogus resp => return resp
  | .walkFailed => do
      call (.negInsert q.name q.queryType)
      return servfail msg
  | .ok parsed =>
      match cfg.dns64 with
      | none => return parsed
      | some p =>
          if shouldSynthesise cfg.dns64 dns64Enabled q.name q.queryType parsed then do
            let follow ← resolveValidateCache C cfg nest (aQuery msg q)
            match follow with
            | .ok a =>
                if a.answers.isEmpty then return parsed
                else return cfg.policy.applyToResponse (synthesiseFromA p msg a)
            | _ => return parsed
          else return parsed

def storeForwarded (q : Query) (resp : Message) : RProg Message := do
  let out := cfg.policy.applyToResponse resp
  call (.cachePut .forwarded (CacheKey.of q.name q.queryType q.queryClass) out)
  return out

def answerForwarded (domain : Name) (dns64Enabled : Bool) (msg : Message) (q : Query) :
    RProg Message := do
  let reply ← queryForwarder domain msg
  match reply with
  | .parsed resp =>
      match cfg.dns64 with
      | none => storeForwarded cfg q resp
      | some p =>
          if shouldSynthesise cfg.dns64 dns64Enabled q.name q.queryType resp then do
            let follow ← queryForwarder domain (aQuery msg q)
            match follow with
            | .parsed a =>
                if a.answers.isEmpty then storeForwarded cfg q resp
                else return cfg.policy.applyToResponse (synthesiseFromA p msg a)
            | _ => storeForwarded cfg q resp
          else storeForwarded cfg q resp
  | _ => return servfail msg

def answerMiss (nest : Nat) (dns64Enabled : Bool) (msg : Message) (q : Query) : RProg Message := do
  let failed : Bool ← call (.negHit q.name q.queryType)
  if failed then return servfail msg
  else
    match cfg.forwarders.lookupWithDomain q.name with
    | some domain => answerForwarded cfg domain dns64Enabled msg q
    | none =>
        if cfg.iterative then answerIterative C cfg nest dns64Enabled msg q
        else return servfail msg

def answerQuestion (nest : Nat) (dns64Enabled : Bool) (msg : Message) (q : Query) :
    RProg Message := do
  let failed : Bool ← call (.negHit q.name q.queryType)
  if failed then return servfail msg
  else do
    let hit ← tryCache cfg dns64Enabled msg q
    match hit with
    | some resp => return resp
    | none => do
        -- The lock of the question is taken here; the winner may have filled the cache.
        let again ← tryCache cfg dns64Enabled msg q
        match again with
        | some resp => return resp
        | none => answerMiss C cfg nest dns64Enabled msg q

def rrlAllows (peer : IpAddr) : RProg Bool := if cfg.rrl then call (.rrlCheck peer) else return true

/-- `handle_bytes_inner` for a query that parses. -/
def handleBytes (nest : Nat) (peer : IpAddr) (dns64Enabled : Bool) (msg : Message) :
    RProg (Option Message) := do
  let ready : Bool ← call .isReady
  if !ready then return some (buildRefused msg)
  else
    match msg.queries with
    | [] => return none
    | q :: _ => do
        let allowed ← rrlAllows cfg peer
        if !allowed then return none
        else if isLocalQuestion q.name q.queryType then
          return some (ipv4onlyResponse msg q cfg.dns64 dns64Enabled)
        else if !cfg.ddrSvcb.isEmpty && isDdrQuestion q.name then
          return some (ddrResponse msg q cfg.ddrSvcb)
        else
          match ptrName? cfg dns64Enabled q with
          | some name => do
              let resp ← answerPtr cfg msg name
              return some resp
          | none => do
              let resp ← answerQuestion C cfg nest dns64Enabled msg q
              return some resp

/-! ## Tasks -/

def serve (nest : Nat) (peer : IpAddr) (dns64Enabled : Bool) (msg : Message) : RProg Unit := do
  let resp ← handleBytes C cfg nest peer dns64Enabled msg
  match resp with
  | some resp => call (.note (.sent resp))
  | none => return ()

def prewarm (nest : Nat) (name : Name) : RProg Unit := do
  let result ← resolveWithChain cfg.iter nest { recursionDesired := true, queries := [⟨name, .A, .IN⟩] }
  match result with
  | .error _ => return ()
  | .ok (resp, chain) => do
      let verdict ← validateWalk C chain resp
      cacheValidatedDelegations cfg.iter chain verdict.2

inductive Task : RProg Unit → Prop
  | serve (nest : Nat) (peer : IpAddr) (dns64Enabled : Bool) (msg : Message) :
      Task (serve C cfg nest peer dns64Enabled msg)
  | prime : cfg.iterative = true → Task (prime cfg.iter)
  | prewarm (nest : Nat) (name : Name) : cfg.iterative = true → cfg.validates = true →
      Task (prewarm C cfg nest name)

end

def process {ι : Type} [DecidableEq ι] (C : Crypto) (cfg : ι → Config) (N : Net ι) :
    System ι Op Op.Res (World ι) :=
  system N fun i p => Task C (cfg i) p

end Dnsd.Recursor
