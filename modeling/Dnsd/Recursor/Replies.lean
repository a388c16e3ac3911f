/-
# Replies — every reply of a handler, and every entry of its cache, with where it comes from.

`Drafted` lists where a reply comes from, `Stored` the nine places where the code puts something into the response
cache; both say what the message is, up to the authentic-data bit.  `replies_reach` is the rule for the process.
-/
import Dnsd.Recursor.HandlerPaths
import Dnsd.Recursor.WalkSpec
import Dnsd.Recursor.ValidatorSpec
import Dnsd.Recursor.Script

namespace Dnsd.Recursor

open Proto Lib Contract

/-! ## What is heard -/

section

variable {hear hear' : (o : Op) → o.Res → Prop}

theorem Referral.mono {asked zone : Name} {nsRecords : List Record} {glue : Glue}
    (hle : ∀ o r, hear o r → hear' o r) (h : Referral hear asked zone nsRecords glue) :
    Referral hear' asked zone nsRecords glue := by
  obtain ⟨ip, q, m, hm, hcls⟩ := h
  exact ⟨ip, q, m, hle _ _ hm, hcls⟩

theorem Traced.mono {Inv Inv' : Query → Hop → Prop} {q : Query} {answer : Message} {chain : WalkChain}
    (hle : ∀ o r, hear o r → hear' o r) (hinv : ∀ q hop, Inv q hop → Inv' q hop)
    (h : Traced hear Inv q answer chain) : Traced hear' Inv' q answer chain := by
  induction h with
  | done hhop hm hterm => exact .done (hinv _ _ hhop) (hle _ _ hm) hterm
  | chased hhop hm hcls _ ih => exact .chased (hinv _ _ hhop) (hle _ _ hm) hcls ih

end

/-- The outcome of a resolution, before its authentic-data bit is set: the answer of a local zone, or what
a walk for the first question ended with. -/
def Resolution (hear : (o : Op) → o.Res → Prop) (query resp : Message) : Prop :=
  ∃ q qs, query.queries = q :: qs ∧
    (isPrivateReverse q.name = true ∧ resp = localNxdomain query ∨
      ∃ answer chain, resp = stitchResponse query answer ∧
        Traced hear (fun _ _ => True) q answer chain)

def forwardedReply (query m : Message) : Message := { m.lowercaseResponseNames with id := query.id }

/-! ## What is stored -/

inductive Stored (hear : (o : Op) → o.Res → Prop) (cfg : Config) : Origin → CacheKey → Message → Prop
  | glue {asked zone : Name} {nsRecords : List Record} {glue : Glue} {g : Name × List IpAddr}
      {rtype : RecordType} {m : Message} : Referral hear asked zone nsRecords glue → g ∈ glue →
      buildSyntheticAnswer g.1 rtype g.2 = some m →
      Stored hear cfg (.glue asked) (CacheKey.of g.1 rtype .IN) m
  | zoneNs {asked zone : Name} {nsRecords : List Record} {glue : Glue} {m : Message} :
      Referral hear asked zone nsRecords glue → zoneNsMessage zone nsRecords = some m →
      Stored hear cfg (.zoneNs asked) (CacheKey.of zone .NS .IN) m
  | localZone {query : Message} {q : Query} {qs : List Query} : query.queries = q :: qs →
      isPrivateReverse q.name = true →
      Stored hear cfg .localZone (CacheKey.of q.name q.queryType q.queryClass) (localNxdomain query)
  | walked {query answer : Message} {q : Query} {qs : List Query} {chain : WalkChain} :
      query.queries = q :: qs → Traced hear (fun _ _ => True) q answer chain →
      Stored hear cfg .walked (CacheKey.of q.name q.queryType q.queryClass) (stitchResponse query answer)
  | resolved {query resp : Message} {q : Query} {qs : List Query} {b : Bool} :
      query.queries = q :: qs → Resolution hear query resp →
      Stored hear cfg .resolved (CacheKey.of q.name q.queryType q.queryClass)
        { resp with authenticData := b }
  | forwarded {domain : Name} {query m : Message} {q : Query} {b : Bool} :
      hear (.forward domain query) (.parsed m) → cfg.forwarders.lookupWithDomain q.name = some domain →
      Stored hear cfg .forwarded (CacheKey.of q.name q.queryType q.queryClass)
        { forwardedReply query m with authenticData := b }
  | ptrForwarded {domain name : Name} {query m : Message} :
      hear (.forward domain query) (.parsed m) →
      Stored hear cfg .ptrForwarded (CacheKey.of name .PTR .IN) (forwardedReply query m)
  | primed {ip : IpAddr} {m : Message} :
      hear (.query Name.root ip ⟨Name.root, .NS, .IN⟩) (.parsed m) →
      Stored hear cfg .primed (CacheKey.of Name.root .NS .IN) m.lowercaseResponseNames
  | primedGlue {ip : IpAddr} {m msg : Message} {g : Name × List IpAddr} {rtype : RecordType} :
      hear (.query Name.root ip ⟨Name.root, .NS, .IN⟩) (.parsed m) →
      g ∈ glueOf m.lowercaseResponseNames.additionals →
      buildSyntheticAnswer g.1 rtype g.2 = some msg →
      Stored hear cfg (.glue Name.root) (CacheKey.of g.1 rtype .IN) msg

/-! ## What is sent -/

/-- A reply made from a cache entry, up to the authentic-data bit. -/
inductive FromCache (cfg : Config) (dns64Enabled : Bool) (msg : Message) :
    CacheKey → Message → Message → Prop
  | replayed {q : Query} {qs : List Query} {m : Message} : msg.queries = q :: qs →
      FromCache cfg dns64Enabled msg (CacheKey.of q.name q.queryType q.queryClass) m { m with id := msg.id }
  | synthesised {q : Query} {qs : List Query} {p : Dns64Policy} {a : Message} :
      msg.queries = q :: qs → Synthesises cfg dns64Enabled q p →
      FromCache cfg dns64Enabled msg (CacheKey.of q.name .A .IN) a (synthesiseFromA p msg a)
  | rewrapped {q : Query} {qs : List Query} {name : Name} {m : Message} :
      msg.queries = q :: qs → ptrName? cfg dns64Enabled q = some name →
      FromCache cfg dns64Enabled msg (CacheKey.of name .PTR .IN) m (rewrapPtrResponse msg m)

/-- A reply to the query, up to the authentic-data bit. -/
inductive Drafted (hear : (o : Op) → o.Res → Prop) (cfg : Config) (dns64Enabled : Bool) (msg : Message) :
    Message → Prop
  | refused : Drafted hear cfg dns64Enabled msg (buildRefused msg)
  | servfail : Drafted hear cfg dns64Enabled msg (servfail msg)
  | bogus : Drafted hear cfg dns64Enabled msg (servfailWithEde msg edeDnssecBogus)
  | ipv4only {q : Query} {qs : List Query} : msg.queries = q :: qs →
      isLocalQuestion q.name q.queryType = true →
      Drafted hear cfg dns64Enabled msg (ipv4onlyResponse msg q cfg.dns64 dns64Enabled)
  | ddr {q : Query} {qs : List Query} : msg.queries = q :: qs → isDdrQuestion q.name = true →
      Drafted hear cfg dns64Enabled msg (ddrResponse msg q cfg.ddrSvcb)
  | cached {key : CacheKey} {m resp : Message} : FromCache cfg dns64Enabled msg key m resp →
      hear (.cacheGet key) (some m) → Drafted hear cfg dns64Enabled msg resp
  | rewrapped {q : Query} {qs : List Query} {name domain : Name} {m : Message} :
      msg.queries = q :: qs → ptrName? cfg dns64Enabled q = some name →
      hear (.forward domain (rewriteQueryName msg name)) (.parsed m) →
      Drafted hear cfg dns64Enabled msg
        (rewrapPtrResponse msg (forwardedReply (rewriteQueryName msg name) m))
  | resolved {resp : Message} : Resolution hear msg resp → Drafted hear cfg dns64Enabled msg resp
  | synthesised {q : Query} {qs : List Query} {p : Dns64Policy} {a : Message} {b : Bool} :
      msg.queries = q :: qs → Synthesises cfg dns64Enabled q p → Resolution hear (aQuery msg q) a →
      Drafted hear cfg dns64Enabled msg (synthesiseFromA p msg { a with authenticData := b })
  | forwarded {q : Query} {qs : List Query} {domain : Name} {m : Message} : msg.queries = q :: qs →
      cfg.forwarders.lookupWithDomain q.name = some domain →
      hear (.forward domain msg) (.parsed m) →
      Drafted hear cfg dns64Enabled msg (forwardedReply msg m)
  | forwardSynthesised {q : Query} {qs : List Query} {p : Dns64Policy} {domain : Name} {m : Message} :
      msg.queries = q :: qs → Synthesises cfg dns64Enabled q p →
      hear (.forward domain (aQuery msg q)) (.parsed m) →
      Drafted hear cfg dns64Enabled msg (synthesiseFromA p msg (forwardedReply (aQuery msg q) m))

def Built (hear : (o : Op) → o.Res → Prop) (cfg : Config) (dns64Enabled : Bool) (msg resp : Message) :
    Prop :=
  ∃ draft b, Drafted hear cfg dns64Enabled msg draft ∧ resp = { draft with authenticData := b }

theorem applyToResponse_eq (policy : DnssecPolicy) (resp : Message) :
    ∃ b, policy.applyToResponse resp = { resp with authenticData := b } := by
  cases policy with
  | passThrough => exact ⟨resp.authenticData, rfl⟩
  | strip => exact ⟨false, rfl⟩
  | validate => exact ⟨false, rfl⟩

section

variable {hear : (o : Op) → o.Res → Prop} {cfg : Config} {dns64Enabled : Bool} {msg draft : Message}

theorem Drafted.built (h : Drafted hear cfg dns64Enabled msg draft) :
    Built hear cfg dns64Enabled msg draft :=
  ⟨draft, draft.authenticData, h, rfl⟩

theorem Drafted.policy (h : Drafted hear cfg dns64Enabled msg draft) (policy : DnssecPolicy) :
    Built hear cfg dns64Enabled msg (policy.applyToResponse draft) := by
  obtain ⟨b, heq⟩ := applyToResponse_eq policy draft
  exact ⟨draft, b, h, heq⟩

end

/-! ## The paths through the handler -/

def Op.unwritten : Op → Bool
  | .cachePut _ _ _ | .keyPut _ _ _ | .keyInvalidate _ _ | .keyPutNegative _ _ => false
  | .note (.served _ _) => true
  | .note _ => false
  | _ => true

structure Permits {ι : Type} (C : Crypto) (N : Net ι) (i : ι) (hear : (o : Op) → o.Res → Prop)
    (cfg : Config) (pre : Op → Prop) (post : (o : Op) → o.Res → Prop) : Prop where
  trust : ∀ o r, post o r → trustPost (asCoded C) C N i o r
  hears : ∀ o r, post o r → hear o r
  checks : ∀ o, trustPre (asCoded C) C N i o → pre o
  free : ∀ o, o.unwritten = true → pre o
  put : ∀ origin key m, Stored hear cfg origin key m → pre (.cachePut origin key m)

section

variable {ι : Type} {C : Crypto} {N : Net ι} {i : ι} {hear : (o : Op) → o.Res → Prop} {cfg : Config}
  {pre : Op → Prop} {post : (o : Op) → o.Res → Prop} {nest : Nat} {dns64Enabled : Bool} {msg : Message}

namespace Permits

variable {chain : WalkChain} {domain name : Name} {peer : IpAddr} {q : Query} {qs : List Query}
  {query : Message}

variable (h : Permits C N i hear cfg pre post)

include h

theorem resolveWithChain :
    (Contract.plain pre post).Safe () (resolveWithChain cfg.iter nest query) fun _ r =>
      ∀ resp chain, r = .ok (resp, chain) → Resolution hear query resp := by
  have hlocal : ∀ o : Op, o.readOnly = true → pre o := by
    intro o ho
    refine h.free o ?_
    cases o <;> first | rfl | nomatch ho
  have htour : Tour pre post cfg.iter fun _ _ => True :=
    { free := fun o ho => hlocal o (Op.readOnly_of_localRead ho)
      ask := fun _ _ _ _ _ => hlocal _ rfl
      start := fun _ _ _ => trivial
      next := fun _ _ _ _ _ => trivial
      glue := fun _ _ _ _ href g hg _ _ hmsg => h.put _ _ _ (.glue (href.mono h.hears) hg hmsg)
      zoneNs := fun _ _ _ _ href _ hmsg => h.put _ _ _ (.zoneNs (href.mono h.hears) hmsg) }
  have htrace : ∀ {q answer chain}, Traced post (fun _ _ => True) q answer chain →
      Traced hear (fun _ _ => True) q answer chain := Traced.mono h.hears fun _ _ h => h
  refine (resolveWithChain_safe_of htour.any (fun _ _ _ => trivial) ?_ ?_).mono fun _ r hr => ?_
  · exact fun q qs hq hprivate => h.put _ _ _ (.localZone hq hprivate)
  · exact fun _ q qs answer chain hq ht => h.put _ _ _ (.walked hq (htrace ht))
  · intro resp chain hok
    obtain ⟨q, qs, hq, ⟨hprivate, hresp, _⟩ | ⟨answer, hresp, ht⟩⟩ := hr resp chain hok
    · exact ⟨q, qs, hq, .inl ⟨hprivate, hresp⟩⟩
    · exact ⟨q, qs, hq, .inr ⟨answer, chain, hresp, htrace ht⟩⟩

theorem validateWalk {answer : Message} :
    (Contract.plain pre post).Safe () (validateWalk C chain answer) fun _ _ => True := by
  have hsafe : (trustContract (asCoded C) C N i).Safe () (Recursor.validateWalk C chain answer)
      fun _ r => ReportOk (asCoded C) C N i chain r.2 :=
    validateWalk_safe asCoded_bootAllowed asCoded_walkAllowed
  exact (hsafe.lift (Contract.plain_monotone pre post) (fun _ => h.checks) (fun _ => h.trust) ()).mono
    fun _ _ _ => trivial

theorem cacheValidatedDelegations {zones : List Name} :
    (Contract.plain pre post).Safe () (cacheValidatedDelegations cfg.iter chain zones)
      fun _ _ => True := by
  unfold Recursor.cacheValidatedDelegations
  split
  · trivial
  generalize chain.steps = steps
  induction steps with
  | nil => trivial
  | cons step steps ih =>
    unfold insertDelegations
    split
    · exact safe_perform_bind.mpr ⟨h.free _ rfl, fun _ _ => ih⟩
    · exact ih

def Resolved (hear : (o : Op) → o.Res → Prop) (query resp : Message) : Prop :=
  ∃ draft b, Resolution hear query draft ∧ resp = { draft with authenticData := b }

theorem storeResolved {resp : Message} {b : Bool}
    {Sent : Unit → Message → Prop} (hq : query.queries = q :: qs) (hresp : Resolution hear query resp) :
    (Contract.plain pre post).Safe () (storeResolved q { resp with authenticData := b })
      (Settled (fun _ => Resolved hear query) Sent) :=
  safe_perform_bind.mpr ⟨h.put _ _ _ (.resolved hq hresp), fun _ _ => ⟨resp, b, hresp, rfl⟩⟩

theorem resolveValidateCache :
    (Contract.plain pre post).Safe () (resolveValidateCache C cfg nest query)
      (Settled (fun _ => Resolved hear query) fun _ resp => resp = servfailWithEde query edeDnssecBogus) := by
  unfold Recursor.resolveValidateCache
  split
  · trivial
  rename_i q qs hq
  refine h.resolveWithChain.bind fun _ result hresult => ?_
  match result, hresult with
  | .error e, _ => trivial
  | .ok (parsed, chain), hresult =>
    have hresp := hresult parsed chain rfl
    dsimp only
    split
    · refine h.validateWalk.bind fun _ verdict _ => ?_
      refine h.cacheValidatedDelegations.bind fun _ _ _ => ?_
      cases verdict.1 with
      | secure => exact h.storeResolved hq hresp
      | insecure => exact h.storeResolved hq hresp
      | bogus reason => rfl
    · obtain ⟨b, heq⟩ := applyToResponse_eq cfg.policy parsed
      rw [heq]
      exact h.storeResolved hq hresp

theorem queryForwarder :
    (Contract.plain pre post).Safe () (queryForwarder domain query) fun _ r =>
      ∀ m, r = .parsed m → ∃ m', hear (.forward domain query) (.parsed m') ∧
        m = forwardedReply query m' := by
  refine safe_perform_bind.mpr ⟨h.free _ rfl, fun reply hreply => ?_⟩
  cases reply with
  | parsed m' =>
    rintro m ⟨⟩
    exact ⟨m', h.hears _ _ hreply, rfl⟩
  | failed => exact fun _ h => nomatch h
  | unparsed => exact fun _ h => nomatch h

theorem paths (hq : msg.queries = q :: qs) :
    Paths (Contract.plain pre post) C cfg dns64Enabled msg q (fun _ => Built hear cfg dns64Enabled msg)
      (fun _ key m => hear (.cacheGet key) (some m))
      (fun _ domain m => ∃ m', hear (.forward domain msg) (.parsed m') ∧ m = forwardedReply msg m')
      (fun _ => Resolved hear msg) where
  passing _ o ho := by
    refine h.free o ?_
    cases o <;> first | rfl | nomatch ho
  told_kept _ _ _ _ _ htold := htold
  found_kept _ _ _ _ hfound := hfound
  servfail _ := Drafted.servfail.built
  ipv4only _ hlocal := (Drafted.ipv4only hq hlocal).built
  ddr _ hddr := (Drafted.ddr hq hddr).built
  read _ _ _ hread := h.hears _ _ hread
  replayed _ m hread := by
    have hdraft : Drafted hear cfg dns64Enabled msg { m with id := msg.id } := .cached (.replayed hq) hread
    refine ⟨h.free _ rfl, fun _ _ => ?_⟩
    split
    · exact hdraft.built
    · exact hdraft.policy cfg.policy
  made _ _ _ hs hread :=
    ⟨h.free _ rfl, fun _ _ => (Drafted.cached (.synthesised hq hs) hread).policy cfg.policy⟩
  reread _ _ _ hname hread :=
    ⟨h.free _ rfl, fun _ _ => (Drafted.cached (.rewrapped hq hname) hread).policy cfg.policy⟩
  reversed _ name domain hname _ := by
    refine h.queryForwarder.mono fun _ r hr m hm => ?_
    obtain ⟨m', hm', rfl⟩ := hr m hm
    exact ⟨h.put _ _ _ (.ptrForwarded hm'), fun _ _ => (Drafted.rewrapped hq hname hm').policy cfg.policy⟩
  forwarded _ _ _ := h.queryForwarder
  stored _ domain m hdomain htold := by
    obtain ⟨m', hm', rfl⟩ := htold
    unfold storeForwarded
    obtain ⟨b, heq⟩ := applyToResponse_eq cfg.policy (forwardedReply msg m')
    rw [heq]
    exact safe_perform_bind.mpr
      ⟨h.put _ _ _ (.forwarded hm' hdomain), fun _ _ => ⟨_, b, .forwarded hq hdomain hm', rfl⟩⟩
  followed _ _ _ _ hs := by
    refine h.queryForwarder.mono fun _ r hr a ha => ?_
    obtain ⟨m', hm', rfl⟩ := hr a ha
    exact (Drafted.forwardSynthesised hq hs hm').policy cfg.policy
  resolved _ _ _ := by
    refine h.resolveValidateCache.mono fun _ r hr => ?_
    cases r with
    | ok resp => exact hr
    | bogus resp =>
      obtain rfl : resp = servfailWithEde msg edeDnssecBogus := hr
      exact Drafted.bogus.built
    | walkFailed => trivial
  found _ _ hfound := by
    obtain ⟨draft, b, hdraft, rfl⟩ := hfound
    exact ⟨draft, b, .resolved hdraft, rfl⟩
  again _ _ _ _ hs := by
    refine h.resolveValidateCache.mono fun _ r hr a ha => ?_
    subst ha
    obtain ⟨draft, b, hdraft, rfl⟩ := hr
    exact (Drafted.synthesised hq hs hdraft).policy cfg.policy

/-! ### The tasks -/

theorem serve
    (hsent : ∀ resp, Built hear cfg dns64Enabled msg resp → pre (.note (.sent resp))) :
    (Contract.plain pre post).Safe () (serve C cfg nest peer dns64Enabled msg) fun _ _ => True := by
  refine (handleBytes_paths (fun _ => h.free _ rfl) (fun _ => Drafted.refused.built)
    fun _ _ hq => h.paths hq).bind fun _ resp hresp => ?_
  cases resp with
  | none => trivial
  | some resp => exact ⟨hsent resp (hresp resp rfl), fun _ _ => trivial⟩

theorem prewarm :
    (Contract.plain pre post).Safe () (prewarm C cfg nest name) fun _ _ => True := by
  refine h.resolveWithChain.bind fun _ result _ => ?_
  match result with
  | .error e => trivial
  | .ok (resp, chain) =>
    refine h.validateWalk.bind fun _ verdict _ => ?_
    exact h.cacheValidatedDelegations

theorem prime :
    (Contract.plain pre post).Safe () (prime cfg.iter) fun _ _ => True := by
  refine prime_paths (fun o ho => h.free o ?_) (fun _ _ _ _ => h.free _ rfl) (fun _ _ hm => ?_)
    fun _ _ => h.free _ rfl
  · cases o <;> first | rfl | nomatch ho
  · have hheard := h.hears _ _ hm
    exact ⟨h.put _ _ _ (.primed hheard), fun g hg rtype msg hmsg =>
      h.put _ _ _ (.primedGlue hheard hg hmsg)⟩

end Permits

end

/-! ## The process, visit by visit -/

structure Visit (ι : Type) where
  handler : ι
  dns64 : Bool
  query : Message

section

variable {ι : Type}

inductive Visited (C : Crypto) (cfg : ι → Config) (v : Visit ι) : RProg Unit → Prop
  | serve (nest : Nat) (peer : IpAddr) : Visited C cfg v (serve C (cfg v.handler) nest peer v.dns64 v.query)
  | prime : (cfg v.handler).iterative = true → Visited C cfg v (prime (cfg v.handler).iter)
  | prewarm (nest : Nat) (name : Name) : (cfg v.handler).iterative = true →
      (cfg v.handler).validates = true → Visited C cfg v (prewarm C (cfg v.handler) nest name)

def clients [DecidableEq ι] (C : Crypto) (cfg : ι → Config) (N : Net ι) :
    System (Visit ι) Op Op.Res (World ι) where
  init := Init N
  env := Env N
  step v := Step N v.handler
  start := Visited C cfg

def heard (P : CacheKey → Message → Prop) (N : Net ι) (i : ι) : (o : Op) → o.Res → Prop
  | .query asked ip q, r => N.reply asked ip q r
  | .forward domain m, r => N.forward i domain m r
  | .cacheGet key, r => ∀ m, r = some m → P key m
  | _, _ => True

variable {C : Crypto} {cfg : ι → Config} {N : Net ι} {P : CacheKey → Message → Prop} {v : Visit ι}

def visitPre (C : Crypto) (cfg : ι → Config) (N : Net ι) (P : CacheKey → Message → Prop) (v : Visit ι)
    (o : Op) : Prop :=
  trustAsk (asCoded C) C N v.handler o ∧
    match o with
    | .cachePut _ key m => P key m
    | .note (.sent resp) => Built (heard P N v.handler) (cfg v.handler) v.dns64 v.query resp
    | _ => True

def visitPost (C : Crypto) (N : Net ι) (P : CacheKey → Message → Prop) (v : Visit ι) (o : Op) (r : o.Res) :
    Prop :=
  trustPost (asCoded C) C N v.handler o r ∧ heard P N v.handler o r

theorem visit_permits
    (hP : ∀ i origin key m, Stored (heard P N i) (cfg i) origin key m → P key m) (v : Visit ι) :
    Permits C N v.handler (heard P N v.handler) (cfg v.handler) (visitPre C cfg N P v)
      (visitPost C N P v) where
  trust _ _ h := h.1
  hears _ _ h := h.2
  checks o ho := by
    refine ⟨trustAsk_of_pre ho, ?_⟩
    cases o with
    | cachePut _ _ _ => exact ho.elim
    | note e =>
      cases e with
      | sent _ => exact ho.elim
      | _ => trivial
    | _ => trivial
  free o ho := by
    cases o with
    | cachePut _ _ _ | keyPut _ _ _ | keyInvalidate _ _ | keyPutNegative _ _ => nomatch ho
    | note e =>
      cases e with
      | served _ _ => exact ⟨trivial, trivial⟩
      | _ => nomatch ho
    | _ => exact ⟨trivial, trivial⟩
  put origin key m h := ⟨trivial, hP v.handler origin key m h⟩

theorem visited_safe (hP : ∀ i origin key m, Stored (heard P N i) (cfg i) origin key m → P key m)
    {p : RProg Unit} (h : Visited C cfg v p) :
    (Contract.plain (visitPre C cfg N P v) (visitPost C N P v)).Safe () p fun _ _ => True := by
  have hpermits := visit_permits (C := C) hP v
  cases h with
  | serve nest peer => exact hpermits.serve fun _ hresp => ⟨trivial, hresp⟩
  | prime _ => exact hpermits.prime
  | prewarm nest name _ _ => exact hpermits.prewarm

variable [DecidableEq ι] {w : World ι} {ts : List (Visit ι × RProg Unit)}

/-- **The rule for entries and replies.**  A property of all that is stored is one of all entries, and a
reply on its way out is built for the query of its visit. -/
theorem replies_reach (hP : ∀ i origin key m, Stored (heard P N i) (cfg i) origin key m → P key m)
    (h : (clients C cfg N).Reach w ts) :
    (∀ key e, w.cache.lookup key = some e → P key e.msg) ∧
      ∀ v resp k, (v, .op (.note (.sent resp)) k) ∈ ts →
        Built (heard P N v.handler) (cfg v.handler) v.dns64 v.query resp := by
  have hkeeps : (clients C cfg N).Keeps
      (fun v => Contract.plain (visitPre C cfg N P v) (visitPost C N P v))
      (fun w => TrustKept (asCoded C) C N w ∧ ∀ key e, w.cache.lookup key = some e → P key e.msg)
      (fun _ _ => True) () := by
    refine System.keeps_plain ?init ?env ?step fun v p hp => visited_safe hP hp
    case init =>
      intro w hw
      refine ⟨trustKept_init hw, fun key e he => ?_⟩
      rw [hw.cache] at he
      nomatch he
    case env =>
      intro w w' hw henv
      exact ⟨trustKept_env hw.1 henv, fun key e he => hw.2 key e (henv.frame.cache key e he)⟩
    case step =>
      intro v w o r w' hw hpre hstep
      have htrust := trustKept_step hw.1 hpre.1 hstep
      obtain ⟨hanswers, victim, rfl⟩ := hstep
      refine ⟨⟨trustPost_of_answers hw.1 hanswers, ?_⟩, htrust, fun key e he => ?_⟩
      · cases o with
        | query _ _ _ => exact hanswers
        | forward _ _ => exact hanswers
        | cacheGet key =>
          rintro m hm
          obtain rfl : r = w.cacheLookup key := hanswers
          obtain ⟨e, he, rfl⟩ := World.cacheLookup_eq_some hm
          exact hw.2 key e he
        | _ => trivial
      · rcases World.lookup_cache_apply he with he | ⟨rfl, -⟩
        · exact hw.2 key e he
        · exact hpre.2
  refine ⟨(hkeeps.reach_inv h).2, fun v resp k hmem => ?_⟩
  obtain ⟨_, _, hpre⟩ := hkeeps.reach_pre h hmem
  exact hpre.2

theorem clients_process (h : (clients C cfg N).Reach w ts) :
    (process C cfg N).Reach w (ts.map fun t => (t.1.handler, t.2)) := by
  have hstart : ∀ v p, Visited C cfg v p → Task C (cfg v.handler) p := by
    intro v p hp
    cases hp with
    | serve nest peer => exact .serve ..
    | prime hiter => exact .prime hiter
    | prewarm nest name hiter hval => exact .prewarm nest name hiter hval
  exact System.Reach.relabel (S := process C cfg N) (f := Visit.handler) (fun _ h => h)
    (fun _ _ h => h) (fun _ _ _ _ _ h => h) hstart h

/-! ### Scripted visits -/

theorem Script.visit {s : Script} {resp : Message} {nest : Nat} {peer : IpAddr}
    (hfits : s.Fits N v.handler) (hw : (clients C cfg N).Reach w ts)
    (hresp : ((handleBytes C (cfg v.handler) nest peer v.dns64 v.query).exec (s.handle v.handler) w).1 = some resp) :
    (clients C cfg N).Reach
      ((handleBytes C (cfg v.handler) nest peer v.dns64 v.query).exec (s.handle v.handler) w).2
      ((v, .op (.note (.sent resp)) .ret) :: ts) := by
  have hspawn : (clients C cfg N).Reach w
      ((v, serve C (cfg v.handler) nest peer v.dns64 v.query) :: ts) := .spawn hw (.serve nest peer)
  have hbuilt := hspawn.exec_bind (Script.handle_step hfits)
  rw [hresp] at hbuilt
  exact hbuilt

end

def relayConfig (dns64 : Option Dns64Policy) : Config where
  policy := .strip
  forwarders := rootForwarders
  iterative := false
  maxCname := 8
  ipv6Upstream := true
  dns64 := dns64
  rrl := false
  ddrSvcb := []

def relayScript (reply : Message) : Script where
  forward _ _ := .parsed reply

abbrev relayNet (reply : Message) : Net Unit := (relayScript reply).net rootAnchors

abbrev relayClients (dns64 : Option Dns64Policy) (reply : Message) :
    System (Visit Unit) Op Op.Res (World Unit) :=
  clients (listCrypto []) (fun _ => relayConfig dns64) (relayNet reply)

def relayVisit (dns64 : Option Dns64Policy) (reply : Message) (v : Visit Unit) (w : World Unit) :
    Option Message × World Unit :=
  (handleBytes (listCrypto []) (relayConfig dns64) 0 (.v4 9) v.dns64 v.query).exec
    ((relayScript reply).handle ()) w

theorem relayVisit_reach {dns64 : Option Dns64Policy} {reply resp : Message} {v : Visit Unit}
    {w : World Unit} {ts : List (Visit Unit × RProg Unit)} (hw : (relayClients dns64 reply).Reach w ts)
    (hresp : (relayVisit dns64 reply v w).1 = some resp) :
    (relayClients dns64 reply).Reach (relayVisit dns64 reply v w).2
      ((v, .op (.note (.sent resp)) .ret) :: ts) :=
  Script.visit (Script.fits_net _ _ _) hw hresp

theorem relay_init (dns64 : Option Dns64Policy) (reply : Message) :
    (relayClients dns64 reply).Reach (freshWorld rootAnchors) [] :=
  .init (freshWorld_init fun _ => rfl)

end Dnsd.Recursor
