/-
# Dns64Policy — the operator's DNS64 settings, and what is sent.

With a block that is accepted only the owner of a record can go wrong: a CNAME leads to it.  A block that is
refused is replaced by the defaults, and nothing of it is honoured.
-/
import Dnsd.Daemon.Dns64Block
import Dnsd.Recursor.Embedding
import Dnsd.Properties.Dns64Cache

namespace Dnsd.Recursor

open Proto Lib

/-! ## The records that DNS64 makes -/

theorem isExcluded_eq_false {p : Dns64Policy} {name : Name} :
    p.isExcluded name = false ↔ ∀ ex ∈ p.exclusions, ex.zoneOf name = false := by
  have hiff : p.isExcluded name = true ↔ ∃ ex ∈ p.exclusions, ex.zoneOf name = true := by
    rw [Dns64Policy.isExcluded, List.any_eq_true]
    refine exists_congr fun ex => and_congr_right fun _ => ?_
    rw [Bool.or_eq_true, Name.zoneOf_toLowercase_right, Name.same_toLowercase_left]
    exact or_iff_left_of_imp fun h => Name.zoneOf_of_same (Name.same_symm h)
  rw [← Bool.not_eq_true, hiff]
  simp

section

variable {ι : Type} {N : Net ι} {i : ι} {cfg : Config} {dns64Enabled : Bool} {msg draft resp : Message}
  {q : Query} {p : Dns64Policy} {r : Record}

theorem Synthesis.policy (h : Synthesis cfg dns64Enabled msg q p resp) : cfg.dns64 = some p := by
  cases h with
  | fromA _ hsynth _ => exact hsynth.policy
  | probe _ _ hp _ _ _ => exact hp

theorem Synthesis.record (h : Synthesis cfg dns64Enabled msg q p resp) (hr : r ∈ resp.answers)
    (htype : r.recordType = .AAAA) :
    (∃ v4, r.data = .aaaa (embedV4 p.net v4)) ∧ (r.name = q.name ∨ p.isExcluded q.name = false) := by
  cases h with
  | @fromA _ a _ hsynth hanswers =>
    rw [hanswers] at hr
    obtain ⟨r₀, _, hmade⟩ := List.mem_filterMap.mp hr
    refine ⟨?_, .inr hsynth.included⟩
    unfold synthesiseRecord at hmade
    split at hmade
    · rename_i hdata
      obtain rfl := Option.some.inj hmade
      rw [Record.recordType, hdata] at htype
      nomatch htype
    · obtain rfl := Option.some.inj hmade
      exact ⟨_, rfl⟩
    · rename_i hdata
      obtain ⟨hcname, hmade⟩ := Option.ite_none_right_eq_some.mp hmade
      obtain rfl := Option.some.inj hmade
      rw [Record.recordType, hdata, hcname] at htype
      nomatch htype
    · nomatch hmade
  | probe _ _ hp hon haaaa hanswers =>
    rw [hanswers] at hr
    obtain ⟨d, hd, rfl⟩ := List.mem_map.mp hr
    refine ⟨?_, .inl rfl⟩
    rw [hp, hon, haaaa] at hd
    rcases List.mem_pair.mp hd with rfl | rfl
    · exact ⟨_, rfl⟩
    · exact ⟨_, rfl⟩

end

end Dnsd.Recursor

namespace Dnsd.Daemon

open Proto Lib Recursor

/-! ## The law -/

/-- A record made for a question is as the block wants it: inside the prefix, and neither the question nor the
owner is an excluded name or below one. -/
structure Honours (net : String → Option Ipv6Net) (name : String → Option Name) (block : Dns64)
    (qname : Name) (r : Record) : Prop where
  inside : ∃ n a, net (block.net.getD defaultPrefix) = some n ∧ r.data = .aaaa a ∧ n.contains a = true
  question : ∀ e ∈ block.exclusions, ∀ ex, name e = some ex → ex.zoneOf qname = false
  owner : ∀ e ∈ block.exclusions, ∀ ex, name e = some ex → ex.zoneOf r.name = false

section

variable {net : String → Option Ipv6Net} {name : String → Option Name} {block : Dns64} {p : Dns64Policy}

theorem fromConfig_excludes (h : fromConfig net name block = .ok p) {n : Name} :
    p.isExcluded n = false ↔ ∀ e ∈ block.exclusions, ∀ ex, name e = some ex → ex.zoneOf n = false := by
  rw [isExcluded_eq_false]
  constructor
  · intro hall e he ex hex
    have hmem := ((fromConfig_ok h).2 ex.toLowercase).mpr ⟨e, he, ex, hex, rfl⟩
    have hfree := hall _ hmem
    rwa [Name.zoneOf_toLowercase_left] at hfree
  · intro hall ex hex
    obtain ⟨e, he, n', hn', rfl⟩ := ((fromConfig_ok h).2 ex).mp hex
    rw [Name.zoneOf_toLowercase_left]
    exact hall e he n' hn'

/-- **With an accepted block a record is right exactly if its owner is not excluded.** -/
theorem honours_iff (h : fromConfig net name block = .ok p) {cfg : Config} {dns64Enabled : Bool}
    {msg resp : Message} {q : Query} {r : Record} (hsynth : Synthesis cfg dns64Enabled msg q p resp)
    (hr : r ∈ resp.answers) (htype : r.recordType = .AAAA) :
    Honours net name block q.name r ↔ p.isExcluded r.name = false := by
  obtain ⟨⟨v4, hdata⟩, hname⟩ := hsynth.record hr htype
  constructor
  · intro hhonours
    exact (fromConfig_excludes h).mpr hhonours.owner
  · intro hfree
    have hquestion : p.isExcluded q.name = false := by
      rcases hname with heq | hincluded
      · rwa [← heq]
      · exact hincluded
    exact ⟨⟨p.net, _, (fromConfig_ok h).1, hdata, contains_embedV4 p.valid⟩,
      (fromConfig_excludes h).mp hquestion, (fromConfig_excludes h).mp hfree⟩

end

section

variable {ι : Type} [DecidableEq ι] {C : Crypto} {L : Library} {net : String → Option Ipv6Net}
  {conf : ι → DnsConfig} {table : ι → ForwarderTable} {N : Net ι} {w : World ι}
  {ts : List (Visit ι × RProg Unit)} {v : Visit ι} {resp : Message} {k : Unit → RProg Unit}

end

/-! ## Four blocks -/

def blockNet (text : String) : Option Ipv6Net :=
  if text = defaultPrefix then some Dns64Policy.defaultWkp.net
  else if text = "2001:db8::/96" then some ⟨0x20010db8000000000000000000000000, 96⟩
  else if text = "2001:db8::/33" then some ⟨0x20010db8000000000000000000000000, 33⟩
  else none

def blockName (text : String) : Option Name :=
  if text = "z" then some childZone else if text = "arpa" then some ⟨[arpa]⟩ else none

def blockLibrary : Library where
  name := blockName
  dns64 block := (fromConfig blockNet blockName block).toOption
  wellKnown := .defaultWkp
  ddrRecords _ _ _ := []

theorem blockLibrary_reads : blockLibrary.Reads blockNet := ⟨fun _ => rfl, rfl⟩

def blockConf (block : Dns64) : DnsConfig where
  recursion := some { enabled := false, dnssec := .strip }
  dns64 := some block

def rootTable : ForwarderTable where
  entries := [⟨Name.root, [], fun _ h => (nomatch h), .inl fun _ h => (nomatch h)⟩]
  sorted := List.pairwise_singleton _ _

def blockConfig (block : Dns64) : Config := handlerConfig blockLibrary (blockConf block) rootTable

def blockClients (block : Dns64) (reply : Message) : System (Visit Unit) Op Op.Res (World Unit) :=
  clients (listCrypto []) (fun _ => blockConfig block) (relayNet reply)

theorem blockClients_reach {block : Dns64} {p : Dns64Policy} {reply resp : Message} {v : Visit Unit}
    (hcfg : blockConfig block = relayConfig (some p))
    (hresp : (relayVisit (some p) reply v (freshWorld rootAnchors)).1 = some resp) :
    ∃ w, (blockClients block reply).Reach w [(v, .op (.note (.sent resp)) .ret)] := by
  unfold blockClients
  rw [hcfg]
  exact ⟨_, relayVisit_reach (relay_init (some p) reply) hresp⟩

def sixQuery (name : Name) : Visit Unit := ⟨(), true, { queries := [⟨name, .AAAA, .IN⟩] }⟩

def goodBlock : Dns64 := ⟨some "2001:db8::/96", ["z"]⟩

def goodPolicy : Dns64Policy := ⟨⟨0x20010db8000000000000000000000000, 96⟩, [childZone], rfl⟩

def outsideReply : Message := { answers := [sampleRecord outsideName (.a 7)] }

def goodRecord : Record := sampleRecord outsideName (.aaaa 0x20010db8000000000000000000000007)

def goodResponse : Message := { localResponse (sixQuery outsideName).query with answers := [goodRecord] }

def Betrayed (block : Dns64) (reply : Message) (name : Name) (r : Record) : Prop :=
  ∃ w ts resp p, (blockClients block reply).Reach w ts ∧
    (sixQuery name, .op (.note (.sent resp)) .ret) ∈ ts ∧
    Synthesis (blockConfig block) true (sixQuery name).query ⟨name, .AAAA, .IN⟩ p resp ∧
    r ∈ resp.answers ∧ ¬Honours blockNet blockName block name r

def badLengthBlock : Dns64 := ⟨some "2001:db8::/33", ["z"]⟩

def insideReply : Message := { answers := [sampleRecord insideName (.a 7)] }

def wkpRecord : Record := sampleRecord insideName (.aaaa 0x0064ff9b000000000000000000000007)

def aliasReply : Message :=
  { answers := [sampleRecord outsideName (.cname insideName), sampleRecord insideName (.a 7)] }

def zPolicy : Dns64Policy := ⟨Dns64Policy.defaultWkp.net, [childZone], rfl⟩
def arpaPolicy : Dns64Policy := ⟨Dns64Policy.defaultWkp.net, [⟨[arpa]⟩], rfl⟩

def probeRecord : Record :=
  { name := ipv4onlyArpa, ttl := localTtl, data := .aaaa 0x0064ff9b0000000000000000c00000aa }

end Dnsd.Daemon
