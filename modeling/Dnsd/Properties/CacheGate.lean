/-
# CacheGate — what a client is served from the cache.

A response is stored after its validation, but referrals and priming store entries that no validation sees, and
clients get those as answers.
-/
import Dnsd.Recursor.HandlerSpec
import Dnsd.Recursor.Script

namespace Dnsd.Recursor

open Proto Lib

variable {ι : Type} {C : Crypto} {cfg : Config} {N : Net ι}

/-! ## The law -/

/-- The message is one that the validator has seen and not found Bogus. -/
def Validated (l : List (ι × Event)) (msg : Message) : Prop :=
  ∃ j walk answer status zones, (j, .verdict walk answer status zones) ∈ l ∧
    (status = .secure ∨ status = .insecure) ∧ msg = { answer with authenticData := msg.authenticData }

theorem Validated.mono {l l' : List (ι × Event)} {msg : Message} (hle : l ⊆ l')
    (h : Validated l msg) : Validated l' msg := by
  obtain ⟨j, walk, answer, status, zones, hm, h⟩ := h
  exact ⟨j, walk, answer, status, zones, hle hm, h⟩

/-- The entries that are stored without validation: addresses from the additional section of a response,
the NS set of a referral, and the response to priming. -/
inductive Referred (N : Net ι) : CacheKey → Message → Prop
  | glue {asked : Name} {ip : IpAddr} {q : Query} {m : Message} {g : Name × List IpAddr}
      {rtype : RecordType} {msg : Message} : N.reply asked ip q (.parsed m) →
      g ∈ glueOf m.lowercaseResponseNames.additionals →
      buildSyntheticAnswer g.1 rtype g.2 = some msg →
      Referred N (CacheKey.of g.1 rtype .IN) msg
  | zoneNs {asked : Name} {ip : IpAddr} {q : Query} {m : Message} {zone : Name}
      {nsRecords : List Record} {glue : Glue} {msg : Message} : N.reply asked ip q (.parsed m) →
      classify m.lowercaseResponseNames q.name q.queryType = .referral zone nsRecords glue →
      zoneNsMessage zone nsRecords = some msg → Referred N (CacheKey.of zone .NS .IN) msg
  | primed {ip : IpAddr} {m : Message} :
      N.reply Name.root ip ⟨Name.root, .NS, .IN⟩ (.parsed m) →
      Referred N (CacheKey.of Name.root .NS .IN) m.lowercaseResponseNames

def GateEntry (cfg : Config) (N : Net ι) (l : List (ι × Event)) (origin : Origin) (key : CacheKey)
    (msg : Message) : Prop :=
  match origin with
  | .resolved => Validated l msg
  | .glue _ | .zoneNs _ | .primed => Referred N key msg
  | .localZone => isPrivateReverse key.name = true
  | .forwarded | .ptrForwarded => (cfg.forwarders.lookupWithDomain key.name).isSome = true
  | .walked => False

def gateLaw (cfg : Config) (N : Net ι) : Law ι where
  entry := GateEntry cfg N
  link _ _ _ := True
  response _ _ _ := True
  hop _ := True
  entry_mono {_ _ origin _ _} hle h := by
    cases origin with
    | resolved => exact Validated.mono hle h
    | _ => exact h
  link_mono _ _ := trivial
  response_mono _ _ := trivial

/-! ## The writers -/

theorem lookupWithDomain_key {f : Forwarders} {name domain : Name} {rtype : RecordType}
    {dnsClass : DNSClass} (h : f.lookupWithDomain name = some domain) :
    (f.lookupWithDomain (CacheKey.of name rtype dnsClass).name).isSome = true := by
  unfold Forwarders.lookupWithDomain CacheKey.of at *
  rw [Name.toLowercase_idem, h]
  rfl

theorem isPrivateReverse_key {name : Name} {rtype : RecordType} {dnsClass : DNSClass}
    (h : isPrivateReverse name = true) :
    isPrivateReverse (CacheKey.of name rtype dnsClass).name = true := by
  unfold isPrivateReverse CacheKey.of at *
  rw [Name.toLowercase_idem]
  exact h

theorem gateLaw_holds (hval : cfg.validates = true) :
    (gateLaw cfg N).Holds C (fun _ => cfg) N where
  hop _ := ⟨fun _ _ => trivial, fun _ _ _ _ _ _ _ _ _ _ => trivial⟩
  glue _ _ _ _ _ href g hg _ _ hmsg := by
    obtain ⟨ip, q, m, hm, hcls⟩ := href
    rw [(classify_eq_referral hcls).2.1] at hg
    exact .glue hm.1 hg hmsg
  zoneNs _ _ _ _ _ href _ hmsg := by
    obtain ⟨ip, q, m, hm, hcls⟩ := href
    exact .zoneNs hm.1 hcls hmsg
  localZone _ _ hprivate _ := isPrivateReverse_key hprivate
  walked _ hoff _ _ _ := nomatch hval.symm.trans hoff
  primed _ _ hm := .primed hm
  primedGlue _ _ hm _ hg _ _ hmsg := .glue hm hg hmsg
  secure i _ chain resp zones _ _ hlog := ⟨i, chain, resp, .secure, zones, hlog, Or.inl rfl, rfl⟩
  insecure i _ chain resp zones _ _ hlog := ⟨i, chain, resp, .insecure, zones, hlog, Or.inr rfl, rfl⟩
  plain _ hoff _ _ _ := nomatch hval.symm.trans hoff
  link _ _ _ _ _ _ _ _ _ _ _ _ := trivial
  forwarded _ _ _ _ _ _ hdom := lookupWithDomain_key hdom
  ptrForwarded _ _ _ _ _ _ _ hdom := lookupWithDomain_key hdom
  clear _ _ _ _ := trivial
  pass _ _ _ _ := trivial
  verified _ _ _ _ _ _ _ := trivial
  hit _ _ _ _ _ _ _ _ := trivial

/-- **The cache gate.**  In every run of a process in validate mode: an entry that a client is served,
for a name that no forwarder matches and that is in no local zone, has been validated and was not Bogus,
or it is an address set or NS set from a referral, or what priming learned. -/
theorem served_validated_or_referred [DecidableEq ι] (hval : cfg.validates = true) {w : World ι}
    {ts : List (ι × RProg Unit)} (h : (process C (fun _ => cfg) N).Reach w ts) {i : ι}
    {key : CacheKey} {msg : Message} (hserved : (i, .served key msg) ∈ w.log)
    (hforward : cfg.forwarders.lookupWithDomain key.name = none)
    (hlocal : isPrivateReverse key.name = false) : Validated w.log msg ∨ Referred N key msg := by
  obtain ⟨origin, hentry⟩ := ((gateLaw_holds hval).reach h).served i key msg hserved
  have hforwarded : ¬ (cfg.forwarders.lookupWithDomain key.name).isSome = true := by
    rw [hforward]
    exact Bool.false_ne_true
  cases origin with
  | resolved => exact Or.inl hentry
  | glue asked => exact Or.inr hentry
  | zoneNs asked => exact Or.inr hentry
  | primed => exact Or.inr hentry
  | walked => exact hentry.elim
  | localZone => nomatch hlocal.symm.trans hentry
  | forwarded => exact absurd hentry hforwarded
  | ptrForwarded => exact absurd hentry hforwarded

/-! ## Two clients

The first asks for the address of `a.z.`; the referral to `z.` has the address of the name server `n.`
as glue.  The second asks for the address of `n.`. -/

def gateCrypto : Crypto := listCrypto [sampleKey 1, sampleKey 2]

def gateRun (second : Message) : World Unit :=
  twoRuns (serverScript honestServer) () ()
    (serve gateCrypto (sampleConfig .validate) 2 (.v4 9) false insideQuery)
    (serve gateCrypto (sampleConfig .validate) 2 (.v4 9) false second)

theorem gateRun_reach (second : Message) :
    (process gateCrypto (fun _ => sampleConfig .validate)
      ((serverScript honestServer).net rootAnchors)).Reach (gateRun second)
      [((), .ret ()), ((), .ret ())] := by
  refine twoRuns_reach ?_ ?_
  · exact .serve ..
  · exact .serve ..

theorem served_validated_or_referred_address :
    ∃ msg, ((), .served (CacheKey.of insideName .A .IN) msg) ∈ (gateRun insideQuery).log ∧
      (Validated (gateRun insideQuery).log msg ∨
        Referred ((serverScript honestServer).net rootAnchors : Net Unit)
          (CacheKey.of insideName .A .IN) msg) := by
  have hserved : ((), .served (CacheKey.of insideName .A .IN)
      { stitchResponse insideQuery (signedAnswer insideName childZone) with
        authenticData := true }) ∈ (gateRun insideQuery).log := by decide
  exact ⟨_, hserved, served_validated_or_referred rfl (gateRun_reach insideQuery) hserved rfl (by decide)⟩

def Event.judged? : Event → Option Message
  | .verdict _ answer _ _ => some answer
  | _ => none

/-- The second client is served the glue, which was never validated. -/
theorem served_unvalidated :
    ∃ w ts msg, (process gateCrypto (fun _ => sampleConfig .validate)
        ((serverScript honestServer).net rootAnchors)).Reach w ts ∧
      ((), .served (CacheKey.of serverName .A .IN) msg) ∈ w.log ∧
      (sampleConfig .validate).forwarders.lookupWithDomain serverName = none ∧
      isPrivateReverse serverName = false ∧ ¬ Validated w.log msg := by
  have hserved : ((), .served (CacheKey.of serverName .A .IN)
      { queries := [⟨serverName, .A, .IN⟩], answers := [⟨serverName, .IN, 300, .a 2⟩] }) ∈
        (gateRun (questionFor serverName .A)).log := by decide
  refine ⟨_, _, _, gateRun_reach (questionFor serverName .A), hserved, rfl, by decide, ?_⟩
  -- Only the answer to the first client was validated, and it is for another question.
  have hjudged : ∀ e ∈ (gateRun (questionFor serverName .A)).log, ∀ m ∈ e.2.judged?,
      m.queries ≠ [⟨serverName, .A, .IN⟩] := by decide
  rintro ⟨j, walk, answer, status, zones, hm, _, heq⟩
  exact hjudged _ hm answer rfl (congrArg Message.queries heq).symm

end Dnsd.Recursor
