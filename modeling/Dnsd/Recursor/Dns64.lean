/-
# Dns64 — answers the resolver makes up itself.

`dns64.rs`, `ipv4only.rs` and the answering half of `ddr.rs`: answers built on a fresh response, whose
authentic-data bit is clear.  The policy carries that a NAT64 prefix has one of six lengths.
-/
import Dnsd.Recursor.LocalZones

namespace Dnsd.Recursor

open Proto

/-! ## The address embedding -/

structure Ipv6Net where
  addr : BitVec 128
  prefixLen : Nat
  deriving DecidableEq, Repr

def Ipv6Net.contains (n : Ipv6Net) (a : BitVec 128) : Bool :=
  a >>> (128 - n.prefixLen) == n.addr >>> (128 - n.prefixLen)

def validPrefixLength (len : Nat) : Bool :=
  len = 32 || len = 40 || len = 48 || len = 56 || len = 64 || len = 96

theorem validPrefixLength_96 : validPrefixLength 96 = true := rfl

structure Dns64Policy where
  net : Ipv6Net
  exclusions : List Name
  valid : validPrefixLength net.prefixLen = true

def Dns64Policy.defaultWkp : Dns64Policy := ⟨⟨0x0064ff9b000000000000000000000000, 96⟩, [], rfl⟩

def Dns64Policy.isExcluded (p : Dns64Policy) (qname : Name) : Bool :=
  p.exclusions.any fun ex => ex.zoneOf qname.toLowercase || qname.toLowercase.same ex

/-- Octet `i` of an address, the first one most significant. -/
def octet4 (a : BitVec 32) (i : Nat) : BitVec 8 := a.extractLsb' (24 - 8 * i) 8
def octet6 (a : BitVec 128) (i : Nat) : BitVec 8 := a.extractLsb' (120 - 8 * i) 8

def fromOctets {w : Nat} (octets : List (BitVec 8)) : BitVec w :=
  octets.foldl (fun acc o => acc <<< 8 ||| o.setWidth w) 0

/-- Octet `i` of the embedding: of the IPv4 address, of the prefix, or the zero octet 8. -/
def embedOctet (n : Ipv6Net) (v4 : BitVec 32) (i : Nat) : BitVec 8 :=
  let start := n.prefixLen / 8
  if n.prefixLen = 32 ∨ n.prefixLen = 96 then
    if start ≤ i ∧ i < start + 4 then octet4 v4 (i - start) else octet6 n.addr i
  else if i = 8 then 0
  else if i < start then octet6 n.addr i
  else if i < 8 then octet4 v4 (i - start)
  else if i - 1 - start < 4 then octet4 v4 (i - 1 - start)
  else octet6 n.addr i

/-- `embed_v4`: RFC 6052. -/
def embedV4 (n : Ipv6Net) (v4 : BitVec 32) : BitVec 128 :=
  fromOctets ((List.range 16).map (embedOctet n v4))

def embeddedAt (len : Nat) : Option (List Nat) :=
  match len with
  | 32 => some [4, 5, 6, 7]
  | 40 => some [5, 6, 7, 9]
  | 48 => some [6, 7, 9, 10]
  | 56 => some [7, 9, 10, 11]
  | 64 => some [9, 10, 11, 12]
  | 96 => some [12, 13, 14, 15]
  | _ => none

def extractV4 (n : Ipv6Net) (a : BitVec 128) : Option (BitVec 32) :=
  if n.contains a then (embeddedAt n.prefixLen).map fun ps => fromOctets (ps.map (octet6 a))
  else none

def hexDigit (b : UInt8) : Option (BitVec 4) :=
  if 48 ≤ b ∧ b ≤ 57 then some (BitVec.ofNat 4 (b.toNat - 48))
  else if 97 ≤ b ∧ b ≤ 102 then some (BitVec.ofNat 4 (b.toNat - 87))
  else if 65 ≤ b ∧ b ≤ 70 then some (BitVec.ofNat 4 (b.toNat - 55))
  else none

def nibble (l : Label) : Option (BitVec 4) :=
  match l with
  | [b] => hexDigit b
  | _ => none

def ip6ArpaToAddr (name : Name) : Option (BitVec 128) :=
  let labels := name.toLowercase.labels
  if name.toLowercase.numLabels ≠ 34 ∨ labels.length < 34 then none
  else if labels[32]? ≠ some ip6 ∨ labels[33]? ≠ some arpa then none
  else
    -- The first label is the lowest nibble.
    ((labels.take 32).mapM nibble).map fun ns =>
      ns.reverse.foldl (fun acc n => acc <<< 4 ||| n.setWidth 128) 0

/-! ## Synthesis -/

def shouldSynthesise (policy : Option Dns64Policy) (listenerEnabled : Bool) (qname : Name)
    (qtype : RecordType) (response : Message) : Bool :=
  if !listenerEnabled then false
  else
    match policy with
    | none => false
    | some p =>
        if qtype ≠ .AAAA then false
        else if p.isExcluded qname then false
        else
          match response.responseCode with
          | .noError => !response.answers.any fun r => r.recordType == .AAAA
          | .nxDomain => true
          | _ => false

def localResponse (query : Message) : Message :=
  { Message.response query.id .query with
    recursionDesired := query.recursionDesired
    recursionAvailable := true
    queries := query.queries }

def synthesiseRecord (p : Dns64Policy) (r : Record) : Option Record :=
  match r.data with
  | .cname _ => some r
  | .a v4 => some { r with data := .aaaa (embedV4 p.net v4) }
  -- An empty RDATA field keeps the type it was sent under.
  | .update0 t => if t = .CNAME then some r else none
  | _ => none

def synthesiseFromA (p : Dns64Policy) (originalQuery aResponse : Message) : Message :=
  { localResponse originalQuery with
    answers := aResponse.answers.filterMap (synthesiseRecord p) }

def rewritePtrQuestion (p : Dns64Policy) (qname : Name) : Option Name :=
  (ip6ArpaToAddr qname).bind fun addr =>
    (extractV4 p.net addr).map fun v4 =>
      inAddrArpa [(octet4 v4 3).toNat, (octet4 v4 2).toNat, (octet4 v4 1).toNat, (octet4 v4 0).toNat]

def rewrapRecord (qname : Name) (r : Record) : Option Record :=
  match r.data with
  | .ptr target => some { name := qname, ttl := r.ttl, data := .ptr target }
  | _ => none

def rewrapPtrResponse (originalQuery v4Response : Message) : Message :=
  match originalQuery.queries with
  | [] => v4Response
  | q :: _ =>
      { localResponse originalQuery with
        responseCode := v4Response.responseCode
        answers := v4Response.answers.filterMap (rewrapRecord q.name) }

/-! ## `ipv4only.arpa` -/

def localTtl : Nat := 3600

def ipv4only : Label := [105, 112, 118, 52, 111, 110, 108, 121]
def ipv4onlyArpa : Name := ⟨[ipv4only, arpa]⟩

def a170 : BitVec 32 := 0xc00000aa
def a171 : BitVec 32 := 0xc00000ab

def ptrNames : List Name := [inAddrArpa [170, 0, 0, 192], inAddrArpa [171, 0, 0, 192]]

def isLocalQuestion (qname : Name) (qtype : RecordType) : Bool :=
  let s := toAscii qname.toLowercase
  if qtype = .A ∨ qtype = .AAAA then s == toAscii ipv4onlyArpa
  else if qtype = .PTR then ptrNames.any fun n => s == toAscii n
  else false

def ipv4onlyData (policy : Option Dns64Policy) (dns64Enabled : Bool) (qtype : RecordType) :
    List RData :=
  if qtype = .A then [.a a170, .a a171]
  else if qtype = .AAAA then
    match dns64Enabled, policy with
    | true, some p => [.aaaa (embedV4 p.net a170), .aaaa (embedV4 p.net a171)]
    | _, _ => []
  else if qtype = .PTR then [.ptr ipv4onlyArpa]
  else []

def ipv4onlyResponse (query : Message) (q : Query) (policy : Option Dns64Policy)
    (dns64Enabled : Bool) : Message :=
  { localResponse query with
    answers := (ipv4onlyData policy dns64Enabled q.queryType).map fun d =>
      { name := q.name, ttl := localTtl, data := d } }

/-! ## `_dns.resolver.arpa` -/

def ddrTtl : Nat := 7200

def resolverArpa : Name := ⟨[[95, 100, 110, 115], [114, 101, 115, 111, 108, 118, 101, 114], arpa]⟩

def isDdrQuestion (qname : Name) : Bool := toAscii qname.toLowercase == toAscii resolverArpa

def ddrResponse (query : Message) (q : Query) (svcbs : List (List UInt8)) : Message :=
  { localResponse query with
    answers :=
      if q.queryType = .SVCB then
        svcbs.map fun s => { name := q.name, ttl := ddrTtl, data := .other .SVCB s }
      else [] }

end Dnsd.Recursor
