/-
# Echo — whose header and question section a reply has.

The replies the resolver makes up itself and those of a walk have the transaction id, the RD bit and the question
section of their query.  A cache hit and a forwarder's reply are another message with only the id replaced
(`Template`).
-/
import Dnsd.Recursor.Replies

namespace Dnsd.Recursor

open Proto Lib

def questions (m : Message) : List Query := m.lowercaseResponseNames.queries

@[simp] theorem questions_lowercase (m : Message) : questions m.lowercaseResponseNames = questions m := by
  simp [questions, Message.lowercaseResponseNames]

theorem questions_congr {m m' : Message} (h : m.queries = m'.queries) : questions m = questions m' := by
  simp only [questions, Message.lowercaseResponseNames, h]

structure Echoes (query resp : Message) : Prop where
  id : resp.id = query.id
  recursionDesired : resp.recursionDesired = query.recursionDesired
  questions : questions resp = questions query

/-! ## Replies that are built on the query -/

section

variable {query resp : Message}

theorem localResponse_echoes {answers : List Record} {code : ResponseCode} :
    Echoes query { localResponse query with responseCode := code, answers := answers } :=
  ⟨rfl, rfl, questions_congr rfl⟩

theorem buildRefused_echoes : Echoes query (buildRefused query) := ⟨rfl, rfl, questions_congr rfl⟩

theorem servfail_echoes {ede : Option UInt16} : Echoes query { servfail query with ede := ede } :=
  ⟨rfl, rfl, questions_congr rfl⟩

theorem Resolution.echoes {hear : (o : Op) → o.Res → Prop} (h : Resolution hear query resp) :
    Echoes query resp := by
  obtain ⟨_, _, _, ⟨_, rfl⟩ | ⟨answer, _, rfl, _⟩⟩ := h
  · exact ⟨rfl, rfl, by rw [localNxdomain, questions_lowercase]; exact questions_congr rfl⟩
  · exact ⟨rfl, rfl, by rw [stitchResponse, questions_lowercase]; exact questions_congr rfl⟩

theorem rewrapPtrResponse_echoes {q : Query} {qs : List Query} {m : Message}
    (hq : query.queries = q :: qs) : Echoes query (rewrapPtrResponse query m) := by
  simp only [rewrapPtrResponse, hq]
  exact localResponse_echoes

theorem Echoes.ad (h : Echoes query resp) (b : Bool) : Echoes query { resp with authenticData := b } :=
  ⟨h.id, h.recursionDesired, h.questions⟩

end

/-! ## Replies that are copied -/

/-- A message whose RD bit and question section a reply to a query with this key may have. -/
inductive Template {ι : Type} (N : Net ι) (key : CacheKey) : Message → Prop
  /-- A client's query with the same first question. -/
  | client {query : Message} {q : Query} {qs : List Query} : query.queries = q :: qs →
      CacheKey.of q.name q.queryType q.queryClass = key → Template N key query
  /-- What is stored of a referral: no RD bit, and the question alone. -/
  | referral : Template N key { queries := [⟨key.name, key.rtype, key.dnsClass⟩] }
  | forwarder {i : ι} {domain : Name} {query reply : Message} :
      N.forward i domain query (.parsed reply) → Template N key reply
  | priming {ip : IpAddr} {reply : Message} :
      N.reply Name.root ip ⟨Name.root, .NS, .IN⟩ (.parsed reply) → Template N key reply

/-- A message with the RD bit and the question section of a template. -/
def Headed {ι : Type} (N : Net ι) (key : CacheKey) (m : Message) : Prop :=
  ∃ t, Template N key t ∧ m.recursionDesired = t.recursionDesired ∧ questions m = questions t

section

variable {ι : Type} {N : Net ι} {cfg : ι → Config} {P : CacheKey → Message → Prop}

theorem headed_referral {name : Name} {rtype : RecordType} {m : Message}
    (hrd : m.recursionDesired = false) (hqueries : m.queries = [⟨name, rtype, .IN⟩]) :
    Headed N (CacheKey.of name rtype .IN) m := by
  refine ⟨_, .referral, hrd, ?_⟩
  simp [questions, Message.lowercaseResponseNames, hqueries, CacheKey.of]

theorem headed_client {query m : Message} {q : Query} {qs : List Query} (hq : query.queries = q :: qs)
    (h : Echoes query m) : Headed N (CacheKey.of q.name q.queryType q.queryClass) m :=
  ⟨query, .client hq rfl, h.recursionDesired, h.questions⟩

/-- **Every entry has the header of a template.** -/
theorem Stored.headed {i : ι} {origin : Origin} {key : CacheKey} {m : Message}
    (h : Stored (heard P N i) (cfg i) origin key m) : Headed N key m := by
  cases h with
  | glue _ _ hmsg | primedGlue _ _ hmsg =>
    obtain ⟨_, rfl, _⟩ := buildSyntheticAnswer_eq_some hmsg
    exact headed_referral rfl rfl
  | zoneNs _ hmsg =>
    obtain rfl := zoneNsMessage_eq_some hmsg
    exact headed_referral rfl rfl
  | localZone hq hprivate =>
    have hres : Resolution (heard P N i) _ (localNxdomain _) := ⟨_, _, hq, .inl ⟨hprivate, rfl⟩⟩
    exact headed_client hq hres.echoes
  | walked hq ht =>
    have hres : Resolution (heard P N i) _ (stitchResponse _ _) := ⟨_, _, hq, .inr ⟨_, _, rfl, ht⟩⟩
    exact headed_client hq hres.echoes
  | resolved hq hres => exact headed_client hq (hres.echoes.ad _)
  | forwarded hm _ => exact ⟨_, .forwarder hm, rfl, (questions_congr rfl).trans (questions_lowercase _)⟩
  | ptrForwarded hm => exact ⟨_, .forwarder hm, rfl, (questions_congr rfl).trans (questions_lowercase _)⟩
  | primed hm => exact ⟨_, .priming hm, rfl, questions_lowercase _⟩

inductive Replied (N : Net ι) (query resp : Message) : Prop
  | built : Echoes query resp → Replied N query resp
  | copied {q : Query} {qs : List Query} {t : Message} : query.queries = q :: qs →
      Template N (CacheKey.of q.name q.queryType q.queryClass) t → resp.id = query.id →
      resp.recursionDesired = t.recursionDesired → questions resp = questions t → Replied N query resp

theorem Replied.ad {query resp : Message} (h : Replied N query resp) (b : Bool) :
    Replied N query { resp with authenticData := b } := by
  cases h with
  | built h => exact .built (h.ad b)
  | copied hq ht hid hrd hquestions => exact .copied hq ht hid hrd hquestions

theorem Drafted.replied {i : ι} {dns64Enabled : Bool} {msg draft : Message}
    (h : Drafted (heard (Headed N) N i) (cfg i) dns64Enabled msg draft) : Replied N msg draft := by
  cases h with
  | refused => exact .built buildRefused_echoes
  | servfail => exact .built servfail_echoes
  | bogus => exact .built servfail_echoes
  | ipv4only _ _ => exact .built localResponse_echoes
  | ddr _ _ => exact .built localResponse_echoes
  | cached hfrom hget =>
    cases hfrom with
    | replayed hq =>
      obtain ⟨t, ht, hrd, hquestions⟩ := hget _ rfl
      exact .copied hq ht rfl hrd ((questions_congr rfl).trans hquestions)
    | synthesised _ _ => exact .built localResponse_echoes
    | rewrapped hq _ => exact .built (rewrapPtrResponse_echoes hq)
  | rewrapped hq _ _ => exact .built (rewrapPtrResponse_echoes hq)
  | resolved hres => exact .built hres.echoes
  | synthesised _ _ _ => exact .built localResponse_echoes
  | forwarded hq _ hm =>
    exact .copied hq (.forwarder hm) rfl rfl ((questions_congr rfl).trans (questions_lowercase _))
  | forwardSynthesised _ _ _ => exact .built localResponse_echoes

end

section

variable {ι : Type} [DecidableEq ι] {C : Crypto} {cfg : ι → Config} {N : Net ι} {w : World ι}
  {ts : List (Visit ι × RProg Unit)} {v : Visit ι} {resp : Message} {k : Unit → RProg Unit}

end

/-! ## Two clients -/

def curiousClient : Visit Unit :=
  ⟨(), false, { id := 1, recursionDesired := true, queries := [⟨insideName, .A, .IN⟩, ⟨outsideName, .A, .IN⟩] }⟩

def modestClient : Visit Unit := ⟨(), false, { id := 2, queries := [⟨insideName, .A, .IN⟩] }⟩

def curiousReply : Message := { curiousClient.query with answers := [sampleRecord insideName (.a 7)] }

def afterCurious : World Unit := (relayVisit none curiousReply curiousClient (freshWorld rootAnchors)).2

theorem afterCurious_reach : (relayClients none curiousReply).Reach afterCurious
    [(curiousClient, .op (.note (.sent curiousReply)) .ret)] :=
  relayVisit_reach (relay_init none curiousReply) (by decide)

end Dnsd.Recursor
