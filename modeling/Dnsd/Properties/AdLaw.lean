/-
# AdLaw — what AD=1 vouches for.

In validate mode AD=1 should mean that `validate_walk` found the response Secure.  A validating handler hands
out cache entries as they are, so this is about every writer of the cache.  Three writers keep the bit a peer
sent (the DNS64 reverse path, priming, pass-through handlers).  If those replies come with AD=0 the law holds
(`sent_authentic_vouched`); each of the three breaks it (`sent_authentic_leaked`).
-/
import Dnsd.Recursor.HandlerSpec
import Dnsd.Recursor.Script

namespace Dnsd.Recursor

open Proto Lib

variable {ι : Type} {C : Crypto} {cfg : ι → Config} {N : Net ι} {l : List (ι × Event)} {m msg : Message}

/-! ## The law -/

/-- The message is, but for its identifier, one that the validator found Secure. -/
def Vouched (l : List (ι × Event)) (m : Message) : Prop :=
  ∃ j walk answer zones, (j, .verdict walk answer .secure zones) ∈ l ∧
    m = { answer with authenticData := true, id := m.id }

theorem Vouched.mono {l' : List (ι × Event)} (hle : l ⊆ l') (h : Vouched l m) : Vouched l' m := by
  obtain ⟨j, walk, answer, zones, hm, h⟩ := h
  exact ⟨j, walk, answer, zones, hle hm, h⟩

def adLaw (cfg : ι → Config) : Law ι where
  entry l _ _ msg := msg.authenticData = true → Vouched l msg
  link _ _ _ := True
  response l i resp := (cfg i).validates = true → resp.authenticData = true → Vouched l resp
  hop _ := True
  entry_mono hle h had := (h had).mono hle
  link_mono _ _ := trivial
  response_mono hle h hval had := (h hval had).mono hle

/-- The replies that are stored as received come with AD=0: of a forwarder to a rewritten reverse
question, of a root server to priming, of a forwarder to a pass-through handler. -/
structure ClearPeers (cfg : ι → Config) (N : Net ι) : Prop where
  reverse : ∀ i domain msg name m, (cfg i).dns64.isSome = true →
    N.forward i domain (rewriteQueryName msg name) (.parsed m) → m.authenticData = false
  priming : ∀ ip m, N.reply Name.root ip ⟨Name.root, .NS, .IN⟩ (.parsed m) → m.authenticData = false
  passed : ∀ i domain query m, (cfg i).policy = .passThrough →
    N.forward i domain query (.parsed m) → m.authenticData = false

/-! ## The writers -/

theorem buildSyntheticAnswer_clear {name : Name} {rtype : RecordType} {ips : List IpAddr}
    (h : buildSyntheticAnswer name rtype ips = some msg) : msg.authenticData = false := by
  obtain ⟨_, rfl, _⟩ := buildSyntheticAnswer_eq_some h
  rfl

theorem zoneNsMessage_clear {zone : Name} {nsRecords : List Record}
    (h : zoneNsMessage zone nsRecords = some msg) : msg.authenticData = false := by
  rw [zoneNsMessage_eq_some h]

theorem adLaw_entry_clear {origin : Origin} {key : CacheKey} (h : msg.authenticData = false) :
    (adLaw cfg).entry l origin key msg := by
  intro had
  rw [h] at had
  nomatch had

theorem applyToResponse_forwarded (hN : ClearPeers cfg N) {i : ι} {domain : Name} {query : Message}
    (hm : N.forward i domain query (.parsed m)) :
    ((cfg i).policy.applyToResponse { m.lowercaseResponseNames with id := query.id }).authenticData =
      false := by
  cases hp : (cfg i).policy with
  | passThrough => exact hN.passed i domain query m hp hm
  | strip => rfl
  | validate => rfl

theorem vouched_secure {i : ι} {chain : WalkChain} {resp : Message} {zones : List Name}
    (h : (i, .verdict chain resp .secure zones) ∈ l) : Vouched l { resp with authenticData := true } :=
  ⟨i, chain, resp, zones, h, rfl⟩

theorem adLaw_holds (hN : ClearPeers cfg N) : (adLaw cfg).Holds C cfg N where
  hop _ := ⟨fun _ _ => trivial, fun _ _ _ _ _ _ _ _ _ _ => trivial⟩
  glue _ _ _ _ _ _ _ _ _ _ hmsg := adLaw_entry_clear (buildSyntheticAnswer_clear hmsg)
  zoneNs _ _ _ _ _ _ _ hmsg := adLaw_entry_clear (zoneNsMessage_clear hmsg)
  localZone _ _ _ hclear := adLaw_entry_clear hclear
  walked _ _ _ _ hclear := adLaw_entry_clear hclear
  primed ip m hm := adLaw_entry_clear (hN.priming ip m hm)
  primedGlue _ _ _ _ _ _ _ hmsg := adLaw_entry_clear (buildSyntheticAnswer_clear hmsg)
  secure _ _ _ _ _ _ _ hlog _ := vouched_secure hlog
  insecure _ _ _ _ _ _ _ _ := adLaw_entry_clear rfl
  plain _ _ _ _ hclear := adLaw_entry_clear hclear
  link _ _ _ _ _ _ _ _ _ _ _ _ := trivial
  forwarded _ _ _ _ _ hm _ := adLaw_entry_clear (applyToResponse_forwarded hN hm)
  ptrForwarded i domain msg m name hdns64 hm _ :=
    adLaw_entry_clear (hN.reverse i domain msg name m hdns64 hm)
  clear _ _ _ hclear _ had := by
    rw [hclear] at had
    nomatch had
  pass _ i _ hpass hval _ := by
    rw [Config.validates, hpass] at hval
    nomatch hval
  verified _ _ _ _ _ _ hlog _ _ := vouched_secure hlog
  hit i l origin key msg id _ hentry _ had := by
    obtain ⟨j, walk, answer, zones, hm, heq⟩ := hentry had
    refine ⟨j, walk, answer, zones, hm, ?_⟩
    rw [heq]

/-- **AD law.**  In every run of the process, over any handlers and any order of their tasks, if the
replies that are stored as received come with AD=0: a response with AD=1 that a validating handler
sends is one that `validate_walk` found Secure in this process. -/
theorem sent_authentic_vouched [DecidableEq ι] (hN : ClearPeers cfg N) {w : World ι}
    {ts : List (ι × RProg Unit)} (h : (process C cfg N).Reach w ts) {i : ι} {resp : Message}
    (hsent : (i, .sent resp) ∈ w.log) (hval : (cfg i).validates = true)
    (had : resp.authenticData = true) : Vouched w.log resp :=
  ((adLaw_holds hN).reach h).sent i resp hsent hval had

/-! ## An honest run -/

theorem honestServer_clear (cfg : Unit → Config) :
    ClearPeers cfg ((serverScript honestServer).net rootAnchors) where
  reverse _ _ _ _ _ _ hm := nomatch hm
  priming ip m hm := by
    cases hm
    unfold honestServer
    dsimp only
    split
    · rfl
    · split <;> rfl
  passed i _ _ _ _ hm := nomatch hm

def authenticAnswer : Message :=
  { stitchResponse insideQuery (signedAnswer insideName childZone) with authenticData := true }

theorem sent_authentic_vouched_address :
    ((), .sent authenticAnswer) ∈ (clientRun honestServer).log ∧
      Vouched (clientRun honestServer).log authenticAnswer := by
  have hsent : ((), .sent authenticAnswer) ∈ (clientRun honestServer).log := by decide
  exact ⟨hsent, sent_authentic_vouched (honestServer_clear _) (clientRun_reach honestServer) hsent rfl rfl⟩

/-! ## Three leaks -/

def Event.isVerdict : Event → Bool
  | .verdict _ _ _ _ => true
  | _ => false

theorem not_vouched (h : ∀ e ∈ l, e.2.isVerdict = false) : ¬ Vouched l m := by
  rintro ⟨j, walk, answer, zones, hm, _⟩
  nomatch h _ hm

def Leaked [DecidableEq ι] (cfg : ι → Config) (N : Net ι) : Prop :=
  ∃ w ts i resp, (process (listCrypto []) cfg N).Reach w ts ∧ (i, .sent resp) ∈ w.log ∧
    (cfg i).validates = true ∧ resp.authenticData = true ∧ ¬ Vouched w.log resp

def boldScript (answer : Message) : Script where
  reply _ _ _ := .parsed { answer with authenticData := true }
  forward _ _ := .parsed { answer with authenticData := true }

def rootNsAnswer : Message where
  answers := [sampleRecord Name.root (.ns serverName)]
  additionals := [sampleRecord serverName (.a 2)]

def forwardingConfig (policy : DnssecPolicy) : Config :=
  { sampleConfig policy with
    forwarders := rootForwarders
    dns64 := some ⟨⟨0, 96⟩, [], validPrefixLength_96⟩ }

theorem leaked_priming :
    Leaked (fun _ : Unit => sampleConfig .validate) ((boldScript rootNsAnswer).net rootAnchors) := by
  refine ⟨_, _, (), { rootNsAnswer with authenticData := true },
    twoRuns_reach (i := ()) (j := ()) (.prime rfl)
      (.serve 2 (.v4 9) false (questionFor Name.root .NS)), ?_, rfl, rfl, not_vouched ?_⟩
  · decide
  · decide

def nat64Name : Name := ⟨List.replicate 32 [48] ++ [ip6, arpa]⟩

def reverseAnswer : Message where
  answers := [sampleRecord (inAddrArpa [0, 0, 0, 0]) (.ptr insideName)]

theorem leaked_reverse :
    Leaked (fun _ : Unit => forwardingConfig .validate) ((boldScript reverseAnswer).net rootAnchors) := by
  refine ⟨_, _, (), { reverseAnswer with authenticData := true },
    twoRuns_reach (i := ()) (j := ()) (.serve 2 (.v4 9) true (questionFor nat64Name .PTR))
      (.serve 2 (.v4 9) true (questionFor (inAddrArpa [0, 0, 0, 0]) .PTR)), ?_, rfl, rfl,
    not_vouched ?_⟩
  · decide +kernel
  · decide +kernel

def reloaded (validating : Bool) : Config :=
  forwardingConfig (if validating then .validate else .passThrough)

theorem leaked_reload :
    Leaked reloaded ((boldScript (signedAnswer insideName childZone)).net rootAnchors) := by
  refine ⟨_, _, true, { signedAnswer insideName childZone with authenticData := true },
    twoRuns_reach (i := false) (j := true) (.serve 2 (.v4 9) false insideQuery)
      (.serve 2 (.v4 9) false insideQuery), ?_, rfl, rfl, not_vouched ?_⟩
  · decide
  · decide

theorem sent_authentic_leaked :
    Leaked (fun _ : Unit => sampleConfig .validate) ((boldScript rootNsAnswer).net rootAnchors) ∧
      Leaked (fun _ : Unit => forwardingConfig .validate)
        ((boldScript reverseAnswer).net rootAnchors) ∧
      Leaked reloaded ((boldScript (signedAnswer insideName childZone)).net rootAnchors) :=
  ⟨leaked_priming, leaked_reverse, leaked_reload⟩

end Dnsd.Recursor
