/-
# Dns64Cache — DNS64 stays out of the cache.

AAAA records that DNS64 makes, PTR records under an `ip6.arpa` name and the answers for `ipv4only.arpa` are
never stored: every AAAA or PTR record in the cache has been sent by a server or a forwarder (`Genuine`).  The
AAAA records of a reply are genuine too, unless DNS64 has made them (`Synthesis`).
-/
import Dnsd.Recursor.Replies

namespace Dnsd.Recursor

open Proto Lib List

/-! ## Records from upstream -/

def Copies (r₀ r : Record) : Prop := r.name.same r₀.name = true ∧ r.data = r₀.data

theorem Copies.lowercase {r₀ r : Record} (h : Copies r₀ r) : Copies r₀ r.lowercaseName := by
  refine ⟨?_, h.2⟩
  rw [Record.lowercaseName_name, Name.same_toLowercase_left]
  exact h.1

theorem copies_lowercase (r : Record) : Copies r r.lowercaseName := Copies.lowercase ⟨Name.same_refl _, rfl⟩

section

variable {ι : Type}

inductive Upstream (N : Net ι) (m : Message) : Prop
  | server {asked : Name} {ip : IpAddr} {q : Query} : N.reply asked ip q (.parsed m) → Upstream N m
  | forwarder {i : ι} {domain : Name} {query : Message} : N.forward i domain query (.parsed m) → Upstream N m

inductive GivesGlue (N : Net ι) (m : Message) : Prop
  | referral {asked zone : Name} {ip : IpAddr} {q : Query} {nsRecords : List Record} {glue : Glue} :
      N.reply asked ip q (.parsed m) →
      classify m.lowercaseResponseNames q.name q.queryType = .referral zone nsRecords glue → GivesGlue N m
  | priming {ip : IpAddr} : N.reply Name.root ip ⟨Name.root, .NS, .IN⟩ (.parsed m) → GivesGlue N m

/-- The records of these types come from upstream, section by section; answers may also be glue. -/
structure Genuine (N : Net ι) (types : List RecordType) (m : Message) : Prop where
  answers : ∀ r ∈ m.answers, r.recordType ∈ types →
    (∃ up, Upstream N up ∧ ∃ r₀ ∈ up.answers, Copies r₀ r) ∨
      ∃ up, GivesGlue N up ∧ ∃ r₀ ∈ up.additionals, Copies r₀ r
  authorities : ∀ r ∈ m.authorities, r.recordType ∈ types →
    ∃ up, Upstream N up ∧ ∃ r₀ ∈ up.authorities, Copies r₀ r
  additionals : ∀ r ∈ m.additionals, r.recordType ∈ types →
    ∃ up, Upstream N up ∧ ∃ r₀ ∈ up.additionals, Copies r₀ r

variable {N : Net ι} {types types' : List RecordType} {m : Message} {g : Name × List IpAddr} {q : Query}
  {qs : List Query}

theorem Genuine.mono (h : Genuine N types m) (hsub : types' ⊆ types) : Genuine N types' m where
  answers r hr htype := h.answers r hr (hsub htype)
  authorities r hr htype := h.authorities r hr (hsub htype)
  additionals r hr htype := h.additionals r hr (hsub htype)

theorem Genuine.congr {m' : Message} (h : Genuine N types m) (hanswers : m'.answers = m.answers)
    (hauth : m'.authorities = m.authorities) (hadd : m'.additionals = m.additionals) :
    Genuine N types m' := by
  refine ⟨?_, ?_, ?_⟩
  · rw [hanswers]
    exact h.answers
  · rw [hauth]
    exact h.authorities
  · rw [hadd]
    exact h.additionals

theorem genuine_answers (hanswers : ∀ r ∈ m.answers, r.recordType ∉ types) (hauth : m.authorities = [])
    (hadd : m.additionals = []) : Genuine N types m where
  answers r hr htype := absurd htype (hanswers r hr)
  authorities r hr := by
    rw [hauth] at hr
    nomatch hr
  additionals r hr := by
    rw [hadd] at hr
    nomatch hr

theorem Upstream.genuine (h : Upstream N m) : Genuine N types m.lowercaseResponseNames where
  answers r hr _ := by
    obtain ⟨r₀, hr₀, rfl⟩ := mem_map.mp hr
    exact .inl ⟨m, h, r₀, hr₀, copies_lowercase r₀⟩
  authorities r hr _ := by
    obtain ⟨r₀, hr₀, rfl⟩ := mem_map.mp hr
    exact ⟨m, h, r₀, hr₀, copies_lowercase r₀⟩
  additionals r hr _ := by
    obtain ⟨r₀, hr₀, rfl⟩ := mem_map.mp hr
    exact ⟨m, h, r₀, hr₀, copies_lowercase r₀⟩

/-! ## What a walk returns -/

theorem Genuine.stitch {sub : Message} (h : Genuine N types m) (hsub : Genuine N types sub) :
    Genuine N types (stitch m sub) where
  answers r hr := (mem_append.mp hr).elim (h.answers r) (hsub.answers r)
  authorities := h.authorities
  additionals := h.additionals

theorem Genuine.stitchResponse {query : Message} (h : Genuine N types m) :
    Genuine N types (stitchResponse query m) where
  answers r hr htype := by
    obtain ⟨r₁, hr₁, rfl⟩ := mem_map.mp hr
    rcases h.answers r₁ hr₁ htype with ⟨up, hup, r₀, hr₀, hcopy⟩ | ⟨up, hup, r₀, hr₀, hcopy⟩
    · exact .inl ⟨up, hup, r₀, hr₀, hcopy.lowercase⟩
    · exact .inr ⟨up, hup, r₀, hr₀, hcopy.lowercase⟩
  authorities r hr htype := by
    obtain ⟨r₁, hr₁, rfl⟩ := mem_map.mp hr
    obtain ⟨up, hup, r₀, hr₀, hcopy⟩ := h.authorities r₁ hr₁ htype
    exact ⟨up, hup, r₀, hr₀, hcopy.lowercase⟩
  additionals _ hr := nomatch hr

variable {i : ι} {P : CacheKey → Message → Prop} {cfg : Config} {query resp : Message}

theorem Traced.genuine {Inv : Query → Hop → Prop} {answer : Message} {chain : WalkChain}
    (h : Traced (heard P N i) Inv q answer chain) : Genuine N types answer := by
  induction h with
  | done _ hm _ => exact (Upstream.server hm).genuine
  | chased _ hm _ _ ih => exact (Upstream.server hm).genuine.stitch ih

theorem localNxdomain_genuine : Genuine N types (localNxdomain query) :=
  genuine_answers (fun _ hr => nomatch hr) rfl rfl

theorem Resolution.genuine (h : Resolution (heard P N i) query resp) : Genuine N types resp := by
  obtain ⟨_, _, _, ⟨_, rfl⟩ | ⟨answer, _, rfl, ht⟩⟩ := h
  · exact localNxdomain_genuine
  · exact ht.genuine.stitchResponse

/-! ## Glue -/

theorem mem_glueOf {additionals : List Record} {ip : IpAddr} (hg : g ∈ glueOf additionals)
    (hip : ip ∈ g.2) : ∃ r ∈ additionals, g.1.same r.name = true ∧ r.addr? = some ip := by
  obtain ⟨group, hgroup, rfl⟩ := mem_map.mp hg
  obtain ⟨x, hx, rfl⟩ := mem_map.mp hip
  obtain ⟨hmem, hkey⟩ := (mem_collect (fun k => Name.cmp_eq_iff.mpr (Name.same_refl k)) hgroup).mem x hx
  obtain ⟨r, hr, hx⟩ := mem_filterMap.mp hmem
  obtain ⟨ip, haddr, rfl⟩ := Option.map_eq_some_iff.mp hx
  have hsame := Name.cmp_eq_iff.mp hkey
  rw [Name.same_toLowercase_left] at hsame
  exact ⟨r, hr, Name.same_symm hsame, haddr⟩

theorem buildSyntheticAnswer_genuine {up : Message} {rtype : RecordType} (hup : GivesGlue N up)
    (hg : g ∈ glueOf up.lowercaseResponseNames.additionals)
    (hmsg : buildSyntheticAnswer g.1 rtype g.2 = some m) : Genuine N types m := by
  obtain ⟨answers, rfl, hanswers⟩ := buildSyntheticAnswer_eq_some hmsg
  refine ⟨fun r hr _ => .inr ?_, fun _ hr => (nomatch hr), fun _ hr => (nomatch hr)⟩
  obtain ⟨hname, ip, hip, haddr⟩ := hanswers r hr
  obtain ⟨r₁, hr₁, hname₁, haddr₁⟩ := mem_glueOf hg hip
  obtain ⟨r₀, hr₀, rfl⟩ := mem_map.mp hr₁
  rw [Record.lowercaseName_name, Name.same_toLowercase_right, ← hname] at hname₁
  have hdata : r.data = r₀.data := (Record.addr?_eq_some.mp haddr).trans (Record.addr?_eq_some.mp haddr₁).symm
  exact ⟨up, hup, r₀, hr₀, hname₁, hdata⟩

/-! ## What is stored -/

/-- **Every entry is genuine.** -/
theorem Stored.genuine {origin : Origin} {key : CacheKey} (h : Stored (heard P N i) cfg origin key m) :
    Genuine N [.AAAA, .PTR] m := by
  cases h with
  | glue href hg hmsg =>
    obtain ⟨ip, q, up, hup, hcls⟩ := href
    obtain ⟨_, rfl, _⟩ := classify_eq_referral hcls
    exact buildSyntheticAnswer_genuine (.referral hup hcls) hg hmsg
  | zoneNs _ hmsg =>
    obtain rfl := zoneNsMessage_eq_some hmsg
    refine genuine_answers (fun r hr htype => ?_) rfl rfl
    have hns : r.recordType = .NS := by
      have hkept := (mem_filter.mp hr).2
      exact eq_of_beq (Bool.and_eq_true_iff.mp hkept).1
    rw [hns] at htype
    exact absurd htype (by decide)
  | localZone _ _ => exact localNxdomain_genuine
  | walked _ ht => exact ht.genuine.stitchResponse
  | resolved _ hres => exact hres.genuine.congr rfl rfl rfl
  | forwarded hm _ => exact (Upstream.forwarder hm).genuine.congr rfl rfl rfl
  | ptrForwarded hm => exact (Upstream.forwarder hm).genuine.congr rfl rfl rfl
  | primed hm => exact (Upstream.server hm).genuine
  | primedGlue hm hg hmsg => exact buildSyntheticAnswer_genuine (.priming hm) hg hmsg

/-! ## What is sent -/

/-- The answers of the reply to a query are made by DNS64 with the policy. -/
inductive Synthesis (cfg : Config) (dns64Enabled : Bool) (msg : Message) (q : Query) (p : Dns64Policy)
    (resp : Message) : Prop
  | fromA {qs : List Query} {a : Message} : msg.queries = q :: qs → Synthesises cfg dns64Enabled q p →
      resp.answers = (synthesiseFromA p msg a).answers → Synthesis cfg dns64Enabled msg q p resp
  | probe {qs : List Query} : msg.queries = q :: qs → isLocalQuestion q.name q.queryType = true →
      cfg.dns64 = some p → dns64Enabled = true → q.queryType = .AAAA →
      resp.answers = (ipv4onlyResponse msg q cfg.dns64 dns64Enabled).answers →
      Synthesis cfg dns64Enabled msg q p resp

variable {dns64Enabled : Bool} {msg draft : Message}

theorem Synthesis.enabled {p : Dns64Policy} (h : Synthesis cfg dns64Enabled msg q p resp) :
    dns64Enabled = true := by
  cases h with
  | fromA _ hsynth _ => exact hsynth.enabled
  | probe _ _ _ hon _ _ => exact hon

theorem ipv4onlyData_aaaa {policy : Option Dns64Policy} {qtype : RecordType} {d : RData}
    (h : d ∈ ipv4onlyData policy dns64Enabled qtype) (htype : d.recordType = .AAAA) :
    qtype = .AAAA ∧ dns64Enabled = true ∧ ∃ p, policy = some p := by
  unfold ipv4onlyData at h
  split at h
  · rcases mem_pair.mp h with rfl | rfl
    · nomatch htype
    · nomatch htype
  · split at h
    · rename_i haaaa
      split at h
      · exact ⟨haaaa, rfl, _, rfl⟩
      · nomatch h
    · split at h
      · obtain rfl := mem_singleton.mp h
        nomatch htype
      · nomatch h

theorem ipv4onlyResponse_genuine_or (hq : msg.queries = q :: qs)
    (hlocal : isLocalQuestion q.name q.queryType = true) :
    Genuine N [.AAAA] (ipv4onlyResponse msg q cfg.dns64 dns64Enabled) ∨
      ∃ q' p, Synthesis cfg dns64Enabled msg q' p (ipv4onlyResponse msg q cfg.dns64 dns64Enabled) := by
  by_cases hmade : ∃ d ∈ ipv4onlyData cfg.dns64 dns64Enabled q.queryType, d.recordType = .AAAA
  · obtain ⟨d, hd, htype⟩ := hmade
    obtain ⟨haaaa, hon, p, hp⟩ := ipv4onlyData_aaaa hd htype
    exact .inr ⟨q, p, .probe hq hlocal hp hon haaaa rfl⟩
  · refine .inl (genuine_answers (fun r hr htype => ?_) rfl rfl)
    obtain ⟨d, hd, rfl⟩ := mem_map.mp hr
    exact hmade ⟨d, hd, mem_singleton.mp htype⟩

theorem ddrResponse_genuine {svcbs : List (List UInt8)} : Genuine N [.AAAA] (ddrResponse msg q svcbs) := by
  refine genuine_answers (fun r hr htype => ?_) rfl rfl
  simp only [ddrResponse] at hr
  split at hr
  · obtain ⟨s, _, rfl⟩ := mem_map.mp hr
    nomatch mem_singleton.mp htype
  · nomatch hr

theorem rewrapPtrResponse_genuine (hq : msg.queries = q :: qs) :
    Genuine N [.AAAA] (rewrapPtrResponse msg m) := by
  rw [rewrapPtrResponse, hq]
  refine genuine_answers (fun r hr htype => ?_) rfl rfl
  obtain ⟨r₀, _, hr⟩ := mem_filterMap.mp hr
  unfold rewrapRecord at hr
  split at hr
  · obtain rfl := Option.some.inj hr
    nomatch mem_singleton.mp htype
  · nomatch hr

/-- **The AAAA records of a reply are genuine or made by DNS64**, if the entries of the cache are genuine. -/
theorem Drafted.genuine_or_synthesis
    (h : Drafted (heard (fun _ m => Genuine N [.AAAA, .PTR] m) N i) cfg dns64Enabled msg draft) :
    Genuine N [.AAAA] draft ∨ ∃ q p, Synthesis cfg dns64Enabled msg q p draft := by
  cases h with
  | refused | servfail | bogus => exact .inl (genuine_answers (fun _ hr => nomatch hr) rfl rfl)
  | ipv4only hq hlocal => exact ipv4onlyResponse_genuine_or hq hlocal
  | ddr _ _ => exact .inl ddrResponse_genuine
  | cached hfrom hget =>
    cases hfrom with
    | replayed _ =>
      have hentry : Genuine N [.AAAA, .PTR] _ := hget _ rfl
      exact .inl ((hentry.mono (by decide)).congr rfl rfl rfl)
    | synthesised hq hsynth => exact .inr ⟨_, _, .fromA hq hsynth rfl⟩
    | rewrapped hq _ => exact .inl (rewrapPtrResponse_genuine hq)
  | rewrapped hq _ _ => exact .inl (rewrapPtrResponse_genuine hq)
  | resolved hres => exact .inl hres.genuine
  | synthesised hq hsynth _ => exact .inr ⟨_, _, .fromA hq hsynth rfl⟩
  | forwarded _ _ hm => exact .inl ((Upstream.forwarder hm).genuine.congr rfl rfl rfl)
  | forwardSynthesised hq hsynth _ => exact .inr ⟨_, _, .fromA hq hsynth rfl⟩

end

section

variable {ι : Type} [DecidableEq ι] {C : Crypto} {cfg : ι → Config} {N : Net ι} {w : World ι}
  {ts : List (Visit ι × RProg Unit)}

theorem genuine_reach (h : (clients C cfg N).Reach w ts) :
    (∀ key e, w.cache.lookup key = some e → Genuine N [.AAAA, .PTR] e.msg) ∧
      ∀ v resp k, (v, .op (.note (.sent resp)) k) ∈ ts →
        Genuine N [.AAAA] resp ∨ ∃ q p, Synthesis (cfg v.handler) v.dns64 v.query q p resp := by
  have hentries : ∀ i origin key m,
      Stored (heard (fun _ m => Genuine N [.AAAA, .PTR] m) N i) (cfg i) origin key m →
        Genuine N [.AAAA, .PTR] m := fun _ _ _ _ hstored => hstored.genuine
  obtain ⟨hcache, hsent⟩ := replies_reach hentries h
  refine ⟨hcache, fun v resp k hmem => ?_⟩
  obtain ⟨draft, b, hdraft, rfl⟩ := hsent v resp k hmem
  rcases hdraft.genuine_or_synthesis with hgenuine | ⟨q, p, hsynth⟩
  · exact .inl (hgenuine.congr rfl rfl rfl)
  · refine .inr ⟨q, p, ?_⟩
    cases hsynth with
    | fromA hq hsynth hanswers => exact .fromA hq hsynth hanswers
    | probe hq hlocal hp hon haaaa hanswers => exact .probe hq hlocal hp hon haaaa hanswers

/-- **DNS64 never pollutes the shared cache.**  In every run, whatever the listeners and the upstreams: the
AAAA and PTR records of every entry come from upstream, and so do the AAAA records of every reply of a
listener without DNS64. -/
theorem cache_genuine (h : (clients C cfg N).Reach w ts) :
    (∀ key e, w.cache.lookup key = some e → Genuine N [.AAAA, .PTR] e.msg) ∧
      ∀ v resp k, (v, .op (.note (.sent resp)) k) ∈ ts → v.dns64 = false → Genuine N [.AAAA] resp := by
  obtain ⟨hcache, hsent⟩ := genuine_reach h
  refine ⟨hcache, fun v resp k hmem hoff => ?_⟩
  rcases hsent v resp k hmem with hgenuine | ⟨q, p, hsynth⟩
  · exact hgenuine
  · exact absurd (hoff.symm.trans hsynth.enabled) (by decide)

end

/-! ## Two listeners -/

def sixVisit (dns64 : Bool) : Visit Unit := ⟨(), dns64, { queries := [⟨insideName, .AAAA, .IN⟩] }⟩

def fourReply : Message := { answers := [sampleRecord insideName (.a 7)] }

def afterSix : World Unit :=
  (relayVisit (some .defaultWkp) fourReply (sixVisit true) (freshWorld rootAnchors)).2

def sixReply : Message :=
  { localResponse (sixVisit true).query with
    answers := [sampleRecord insideName (.aaaa 0x0064ff9b000000000000000000000007)] }

theorem afterSix_reach : (relayClients (some .defaultWkp) fourReply).Reach afterSix
    [(sixVisit true, .op (.note (.sent sixReply)) .ret)] :=
  relayVisit_reach (relay_init (some .defaultWkp) fourReply) (by decide)

theorem cache_genuine_after_synthesis : ∃ w ts,
    (relayClients (some .defaultWkp) fourReply).Reach w ts ∧
    (sixVisit true, .op (.note (.sent sixReply)) .ret) ∈ ts ∧
    (sixVisit false, .op (.note (.sent fourReply)) .ret) ∈ ts ∧
    (∀ key e, w.cache.lookup key = some e →
      Genuine (relayNet fourReply) [.AAAA, .PTR] e.msg) ∧
    Genuine (relayNet fourReply) [.AAAA] fourReply := by
  have hreach : (relayClients (some .defaultWkp) fourReply).Reach
      (relayVisit (some .defaultWkp) fourReply (sixVisit false) afterSix).2
      [(sixVisit false, .op (.note (.sent fourReply)) .ret),
        (sixVisit true, .op (.note (.sent sixReply)) .ret)] :=
    relayVisit_reach afterSix_reach (by decide)
  have hsix : (sixVisit true, .op (.note (.sent sixReply)) .ret) ∈
      [(sixVisit false, .op (.note (.sent fourReply)) .ret),
        (sixVisit true, (.op (.note (.sent sixReply)) .ret : RProg Unit))] := by
    exact .tail _ (.head _)
  obtain ⟨hcache, hreply⟩ := cache_genuine hreach
  exact ⟨_, _, hreach, hsix, .head _, hcache, hreply _ _ _ (.head _) rfl⟩

end Dnsd.Recursor
