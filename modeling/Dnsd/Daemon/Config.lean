/-
# Config — `router.yaml`, and what is built from it.

The `dns:` block as `config.rs` reads it, the two loaders (`load`, and `load_for_vrf` for `--vrf`), the
forwarder table and the settings of a handler.  The parsers of libraries are a parameter (`Library`).  An
entry of the table carries what a server list is checked for (`ForwarderEntry`).
-/
import Mathlib.Data.List.Sort
import Dnsd.Recursor.Handler

namespace Dnsd.Daemon

open Proto Recursor List

/-! ## The file -/

inductive Transport where
  | udp
  | tcp
  | dot
  deriving DecidableEq, Repr

inductive Via where
  | direct
  | tor
  deriving DecidableEq, Repr

structure ForwarderServer where
  address : IpAddr
  transport : Transport
  tlsName : Option String
  via : Via
  deriving DecidableEq, Repr

structure ServerSpecFull where
  address : IpAddr
  transport : Transport := .udp
  tlsName : Option String := none
  via : Via := .direct
  deriving DecidableEq, Repr

inductive ServerSpec where
  | bare (address : IpAddr)
  | full (spec : ServerSpecFull)
  deriving DecidableEq, Repr

structure Forwarder where
  domain : String
  servers : List ServerSpec := []
  deriving DecidableEq, Repr

structure IpNet where
  addr : IpAddr
  prefixLen : Nat
  deriving DecidableEq, Repr

structure Listener where
  name : String
  address : IpAddr
  port : UInt16 := 53
  protocols : List String := []
  allowFrom : List IpNet := []
  dns64 : Bool := false
  authToken : Option String := none
  deriving DecidableEq, Repr

inductive DnssecMode where
  | passThrough
  | strip
  | validate
  deriving DecidableEq, Repr

structure Recursion where
  enabled : Bool := true
  dnssec : DnssecMode := .passThrough
  dnssecValidate : Bool := false
  maxCnameDepth : Option Nat := none
  ipv6Upstream : Bool := true
  sourceV6 : Option (BitVec 128) := none
  deriving DecidableEq, Repr

structure Dns64 where
  net : Option String := none
  exclusions : List String := []
  deriving DecidableEq, Repr

structure Tls where
  certSource : String := ""
  /-- The domains of the `acme:` block, if there is one. -/
  acme : Option (List String) := none
  certPath : Option String := none
  keyPath : Option String := none
  deriving DecidableEq, Repr

structure RateLimit where
  perClientQps : Option Nat := none
  perClientBurst : Option Nat := none
  deriving DecidableEq, Repr

/-- What the `dns:` block and each entry of `dns.vrfs` have in common. -/
structure DnsSection where
  enabled : Bool := false
  listeners : List Listener := []
  forwarders : List Forwarder := []
  recursion : Option Recursion := none
  dns64 : Option Dns64 := none
  tls : Option Tls := none
  rateLimit : Option RateLimit := none
  deriving DecidableEq, Repr

structure DnsVrfConfig extends DnsSection where
  name : String
  deriving DecidableEq, Repr

structure DnsConfig extends DnsSection where
  torSocks : IpAddr × UInt16 := (.v4 0x7f000001, 9050)
  vrfs : List DnsVrfConfig := []
  deriving DecidableEq, Repr

structure RouterYaml where
  dns : Option DnsConfig := none
  /-- The names of the declared VRFs. -/
  vrfs : List String := []
  deriving DecidableEq, Repr

/-- What can be wrong with a configuration. -/
inductive ConfigError where
  /-- The file cannot be read or parsed. -/
  | unreadable
  | vrfNotDeclared (vrf : String)
  | noDnsVrf (vrf : String)
  | badForwarderDomain (domain : String)
  | dotWithoutTlsName (domain : String) (server : IpAddr)
  | tcpNotWired (domain : String) (server : IpAddr)
  | torWithoutDot (domain : String) (server : IpAddr) (transport : Transport)
  | mixedVia (domain : String)
  deriving DecidableEq, Repr

/-! ## Loading -/

namespace DnsConfig

/-- `DnsConfig::load`; the file is `none` when it cannot be read or parsed. -/
def load (file : Option RouterYaml) : Except ConfigError DnsConfig :=
  match file with
  | none => .error .unreadable
  | some doc => .ok (doc.dns.getD {})

/-- `DnsConfig::load_for_vrf`: the entry of the VRF as a flat configuration, with the router's SOCKS
endpoint. -/
def loadForVrf (file : Option RouterYaml) (vrf : String) : Except ConfigError DnsConfig :=
  match file with
  | none => .error .unreadable
  | some doc =>
      if !doc.vrfs.any (· == vrf) then .error (.vrfNotDeclared vrf)
      else
        let dns := doc.dns.getD {}
        match dns.vrfs.find? fun v => v.name == vrf with
        | none => .error (.noDnsVrf vrf)
        | some v => .ok { v.toDnsSection with torSocks := dns.torSocks }

/-- What a process started with or without `--vrf` loads. -/
def loadFor (file : Option RouterYaml) : Option String → Except ConfigError DnsConfig
  | none => load file
  | some vrf => loadForVrf file vrf

end DnsConfig

/-! ## Forwarder servers -/

def ServerSpec.normalise : ServerSpec → ForwarderServer
  | .bare address => ⟨address, .udp, none, .direct⟩
  | .full s => ⟨s.address, s.transport, s.tlsName, s.via⟩

/-- The checks of `resolved_servers` on one server. -/
def checkServer (domain : String) (s : ForwarderServer) : Except ConfigError ForwarderServer :=
  if s.transport = .dot ∧ s.tlsName = none then .error (.dotWithoutTlsName domain s.address)
  else if s.transport = .tcp then .error (.tcpNotWired domain s.address)
  else if s.via = .tor ∧ s.transport ≠ .dot then
    .error (.torWithoutDot domain s.address s.transport)
  else .ok s

def checkServers (domain : String) : List ServerSpec → Except ConfigError (List ForwarderServer)
  | [] => .ok []
  | spec :: specs => do
      let s ← checkServer domain spec.normalise
      let ss ← checkServers domain specs
      return s :: ss

def Forwarder.resolvedServers (f : Forwarder) : Except ConfigError (List ForwarderServer) := do
  let out ← checkServers f.domain f.servers
  if (out.any fun s => s.via = .tor) && out.any fun s => s.via = .direct then
    .error (.mixedVia f.domain)
  else return out

/-- What the query path relies on: DoT has a name to verify, plain TCP does not occur, and tor servers
are reached over DoT. -/
structure ForwarderServer.Usable (s : ForwarderServer) : Prop where
  named : s.transport = .dot → s.tlsName ≠ none
  wired : s.transport ≠ .tcp
  encrypted : s.via = .tor → s.transport = .dot

def Unmixed (servers : List ForwarderServer) : Prop :=
  (∀ s ∈ servers, s.via = .tor) ∨ ∀ s ∈ servers, s.via = .direct

theorem checkServer_ok {domain : String} {s s' : ForwarderServer}
    (h : checkServer domain s = .ok s') : s' = s ∧ s.Usable := by
  unfold checkServer at h
  split at h
  · nomatch h
  rename_i hnamed
  split at h
  · nomatch h
  rename_i hwired
  split at h
  · nomatch h
  rename_i hdot
  obtain rfl := Except.ok.inj h
  exact ⟨rfl, fun ht hn => hnamed ⟨ht, hn⟩, hwired, fun hv => not_not.mp fun ht => hdot ⟨hv, ht⟩⟩

theorem checkServers_usable {domain : String} {specs : List ServerSpec}
    {servers : List ForwarderServer} (h : checkServers domain specs = .ok servers) :
    ∀ s ∈ servers, s.Usable := by
  induction specs generalizing servers with
  | nil =>
    cases h
    exact fun s hs => nomatch hs
  | cons spec specs ih =>
    unfold checkServers at h
    cases hs : checkServer domain spec.normalise with
    | error e =>
      rw [hs] at h
      nomatch h
    | ok s =>
      cases hrest : checkServers domain specs with
      | error e =>
        rw [hs, hrest] at h
        nomatch h
      | ok rest =>
        rw [hs, hrest] at h
        cases h
        obtain ⟨rfl, husable⟩ := checkServer_ok hs
        intro s' hs'
        rcases mem_cons.mp hs' with rfl | hs'
        · exact husable
        · exact ih hrest s' hs'

theorem resolvedServers_ok {f : Forwarder} {servers : List ForwarderServer}
    (h : f.resolvedServers = .ok servers) : (∀ s ∈ servers, s.Usable) ∧ Unmixed servers := by
  unfold Forwarder.resolvedServers at h
  cases hout : checkServers f.domain f.servers with
  | error e =>
    rw [hout] at h
    nomatch h
  | ok out =>
    rw [hout] at h
    simp only [bind, Except.bind, pure, Except.pure] at h
    split at h
    · nomatch h
    rename_i hmix
    cases h
    refine ⟨checkServers_usable hout, ?_⟩
    simp only [Bool.and_eq_true, any_eq_true, decide_eq_true_eq, not_and, not_exists] at hmix
    by_cases htor : ∃ s ∈ servers, s.via = .tor
    · left
      intro s hs
      cases hv : s.via with
      | tor => rfl
      | direct => exact absurd hv (hmix htor s hs)
    · right
      intro s hs
      cases hv : s.via with
      | tor => exact absurd ⟨s, hs, hv⟩ htor
      | direct => rfl

/-! ## The forwarder table -/

structure Library where
  /-- `Name::from_ascii`, made fully qualified. -/
  name : String → Option Name
  /-- `Dns64Policy::from_config`. -/
  dns64 : Dns64 → Option Dns64Policy
  /-- `Dns64Policy::default_wkp`. -/
  wellKnown : Dns64Policy
  /-- `build_ddr_records`, encoded. -/
  ddrRecords : Name → List IpAddr → List IpAddr → List (List UInt8)

structure ForwarderEntry where
  domain : Name
  servers : List ForwarderServer
  usable : ∀ s ∈ servers, s.Usable
  unmixed : Unmixed servers
  deriving DecidableEq

/-- The forwarder is reached through tor. -/
def ForwarderEntry.tor (e : ForwarderEntry) : Bool := e.servers.any fun s => s.via = .tor

def ForwarderEntry.new (L : Library) (c : Forwarder) : Except ConfigError ForwarderEntry :=
  match L.name c.domain with
  | none => .error (.badForwarderDomain c.domain)
  | some domain =>
      match h : c.resolvedServers with
      | .error e => .error e
      | .ok servers =>
          .ok ⟨domain.toLowercase, servers, (resolvedServers_ok h).1, (resolvedServers_ok h).2⟩

def Longer (a b : ForwarderEntry) : Prop := b.domain.numLabels ≤ a.domain.numLabels

instance : DecidableRel Longer := fun _ _ => inferInstanceAs (Decidable (_ ≤ _))
instance : Std.Total Longer := ⟨fun a b => Nat.le_total b.domain.numLabels a.domain.numLabels⟩
instance : IsTrans ForwarderEntry Longer := ⟨fun _ _ _ hab hbc => Nat.le_trans hbc hab⟩

/-- `Forwarders`: the entries, the ones with most labels first. -/
structure ForwarderTable where
  entries : List ForwarderEntry
  sorted : entries.Pairwise Longer
  deriving DecidableEq

namespace ForwarderTable

def newEntries (L : Library) : List Forwarder → Except ConfigError (List ForwarderEntry)
  | [] => .ok []
  | c :: cs => do
      let e ← ForwarderEntry.new L c
      let es ← newEntries L cs
      return e :: es

def new (L : Library) (configs : List Forwarder) : Except ConfigError ForwarderTable := do
  let entries ← newEntries L configs
  return ⟨entries.insertionSort Longer, pairwise_insertionSort Longer entries⟩

def lookupWithDomain (t : ForwarderTable) (qname : Name) : Option ForwarderEntry :=
  t.entries.find? fun e => isSuffix qname.toLowercase e.domain

def domains (t : ForwarderTable) : Forwarders where
  entries := t.entries.map ForwarderEntry.domain
  sorted := pairwise_map.mpr t.sorted

theorem lookupWithDomain_domains (t : ForwarderTable) (qname : Name) :
    t.domains.lookupWithDomain qname = (t.lookupWithDomain qname).map ForwarderEntry.domain := by
  unfold Forwarders.lookupWithDomain lookupWithDomain domains
  rw [List.find?_map]
  rfl

theorem find?_domain {t : ForwarderTable} {n : Name} {e : ForwarderEntry}
    (h : t.lookupWithDomain n = some e) :
    (t.entries.find? fun e' => e'.domain = e.domain) = some e := by
  obtain ⟨hmatch, before, after, hsplit, hbefore⟩ := List.find?_eq_some_iff_append.mp h
  refine List.find?_eq_some_iff_append.mpr ⟨by simp, before, after, hsplit, fun e' he' => ?_⟩
  have hne : e'.domain ≠ e.domain := by
    intro heq
    have hmatch' := hbefore e' he'
    rw [heq, hmatch] at hmatch'
    nomatch hmatch'
  simp [hne]

end ForwarderTable

/-! ## The settings of a handler -/

def Recursion.effectiveDnssec (r : Recursion) : DnssecMode :=
  if r.dnssec = .passThrough ∧ r.dnssecValidate = true then .validate else r.dnssec

/-- `DnssecPolicy::from_recursion`. -/
def policyOf (r : Option Recursion) : DnssecPolicy :=
  match (r.map Recursion.effectiveDnssec).getD .passThrough with
  | .passThrough => .passThrough
  | .strip => .strip
  | .validate => .validate

def eqIgnoreAsciiCase (a b : String) : Bool := a.toList.map Char.toLower == b.toList.map Char.toLower

inductive Protocol where
  | udp
  | tcp
  | dot
  | doh
  deriving DecidableEq, Repr

namespace Protocol

def text : Protocol → String
  | .udp => "udp"
  | .tcp => "tcp"
  | .dot => "dot"
  | .doh => "doh"

def all : List Protocol := [.udp, .tcp, .dot, .doh]

theorem mem_all (p : Protocol) : p ∈ all := by
  cases p <;> decide

end Protocol

def Listener.hasProtocol (lc : Listener) (p : Protocol) : Bool :=
  lc.protocols.any fun s => eqIgnoreAsciiCase s p.text

def defaultMaxCname : Nat := 8

def ddrSvcb (L : Library) (cfg : DnsConfig) : List (List UInt8) :=
  let dotAddrs := (cfg.listeners.filter fun l => l.hasProtocol .dot).map Listener.address
  let dohAddrs := (cfg.listeners.filter fun l => l.hasProtocol .doh && l.authToken.isNone).map
    Listener.address
  match (cfg.tls.bind Tls.acme).bind List.head? with
  | none => []
  | some domain =>
      match L.name domain with
      | none => []
      | some name => L.ddrRecords name dotAddrs dohAddrs

/-- The settings with which `from_parts` builds a handler. -/
def handlerConfig (L : Library) (cfg : DnsConfig) (table : ForwarderTable) : Config where
  policy := policyOf cfg.recursion
  forwarders := table.domains
  iterative := (cfg.recursion.map Recursion.enabled).getD true
  maxCname := (cfg.recursion.bind Recursion.maxCnameDepth).getD defaultMaxCname
  ipv6Upstream := (cfg.recursion.map Recursion.ipv6Upstream).getD true
  dns64 :=
    if (cfg.listeners.any fun l => l.dns64) || cfg.dns64.isSome then
      some ((L.dns64 (cfg.dns64.getD {})).getD L.wellKnown)
    else none
  rrl := (cfg.rateLimit.bind RateLimit.perClientQps).isSome
  ddrSvcb := ddrSvcb L cfg

/-- The source addresses of upstream sockets, IPv4 and IPv6; what was found at start-up comes before the
listeners' own addresses. -/
structure Sources where
  v4 : Option (BitVec 32)
  v6 : Option (BitVec 128)
  deriving DecidableEq, Repr

def Listener.v4? (lc : Listener) : Option (BitVec 32) :=
  match lc.address with
  | .v4 a => some a
  | .v6 _ => none

def Listener.v6? (lc : Listener) : Option (BitVec 128) :=
  match lc.address with
  | .v4 _ => none
  | .v6 a => some a

def upstreamSources (cfg : DnsConfig) (found : Sources) : Sources where
  v4 := found.v4.or (cfg.listeners.findSome? Listener.v4?)
  v6 := ((cfg.recursion.bind Recursion.sourceV6).or found.v6).or (cfg.listeners.findSome? Listener.v6?)

end Dnsd.Daemon
