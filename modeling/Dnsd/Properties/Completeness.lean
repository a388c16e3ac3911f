/-
# Completeness — an honest hierarchy validates.

Beyond honesty, the end of a validity window must stay clear of the end of the 32-bit range (`ValidAt`, `limit`),
and no zone may have `*` as its leftmost label, which the label count leaves out.
-/
import Dnsd.Recursor.AnswerCheck
import Dnsd.Recursor.ValidatorSpec
import Dnsd.Recursor.Script

namespace Dnsd.Recursor

open Proto Lib Prog Contract List

variable {ι : Type}

/-! ## Honest data -/

/-- The time is within the signature's window, and the window ends the clock skew or more below the
limit. -/
def ValidAt (limit : Nat) (t : UInt32) (sig : RRSIG) : Prop :=
  sig.sigInception ≤ t ∧ t ≤ sig.sigExpiration ∧ sig.sigExpiration.toNat + 300 ≤ limit

structure SignedTree where
  Zone : Name → Prop
  keysOf : Name → List DNSKEY

section

variable (limit : Nat) (C : Crypto) (N : Net ι) (T : SignedTree)

/-- A signature that is valid whenever the clock is read, over records that verify under one of the
keys. -/
def SignedBy (keys : List DNSKEY) (records : List Record) (sig : RRSIG) : Prop :=
  (∀ t, N.clock t → ValidAt limit t sig) ∧ ∃ k ∈ keys, verifyRrset C records sig k = true

/-- The network serves the tree to handler `i`: the servers of a zone send its signed key set, nobody
sends other keys for it, no deadline passes, and the anchors are keys of the root, one of which signs
the root's key set. -/
structure Serves (i : ι) : Prop where
  root : T.Zone Name.root
  zone_congr : ∀ z z', z.same z' = true → T.Zone z → T.Zone z'
  keys_congr : ∀ z z', z.same z' = true → T.keysOf z = T.keysOf z'
  patient : ¬ N.deadlines
  answers : ∀ zone ip r, T.Zone zone → N.reply zone ip ⟨zone, .DNSKEY, .IN⟩ r → ∃ m, r = .parsed m ∧
    (dnskeySetOf zone m.lowercaseResponseNames.answers).keys = T.keysOf zone ∧
    ∃ sig, (dnskeySetOf zone m.lowercaseResponseNames.answers).sig = some sig ∧
      SignedBy limit C N (T.keysOf zone) (dnskeySetOf zone m.lowercaseResponseNames.answers).records sig
  elsewhere : ∀ zone set, T.Zone zone → Received N zone set → set.keys = [] ∨ set.keys = T.keysOf zone
  anchored : ∀ a, N.anchors i a → a.keys ≠ []
  anchors : ∀ a, N.anchors i a → ∀ x ∈ a.keys, x.1 = Name.root
  rootKey : ∀ a ip m sig, N.anchors i a → N.reply Name.root ip ⟨Name.root, .DNSKEY, .IN⟩ (.parsed m) →
    (dnskeySetOf Name.root m.lowercaseResponseNames.answers).sig = some sig → ∃ x ∈ a.keys,
      verifyRrset C (dnskeySetOf Name.root m.lowercaseResponseNames.answers).records sig x.2 = true

/-- A referral from a zone to a zone below it, with a signed DS set that covers a key of the child. -/
structure SignedStep (parent : Name) (step : ChainStep) : Prop where
  zone : T.Zone step.zone
  below : parent.zoneOf step.zone = true
  proper : parent.same step.zone = false
  servers : step.nsIps ≠ []
  signed : ∃ sig, dsSigOf step = some sig ∧ sig.signerName.same parent = true ∧
    SignedBy limit C N (T.keysOf parent) step.ds sig
  covers : dsMatch C step.ds step.zone (T.keysOf step.zone) = true

inductive SignedPath : Name → List ChainStep → Name → Prop
  | nil (zone : Name) : SignedPath zone [] zone
  | cons {parent last : Name} {step : ChainStep} {steps : List ChainStep} :
      SignedStep limit C N T parent step → SignedPath step.zone steps last →
      SignedPath parent (step :: steps) last

/-- A positive answer, every RRset of it signed by the zone. -/
structure SignedMessage (zone : Name) (resp : Message) : Prop where
  positive : answerGroups resp.answers ≠ []
  signed : ∀ g ∈ answerGroups resp.answers, ∃ sig,
    coveringSig (answerSigs resp.answers) g.1.name g.1.rtype = some sig ∧
      sig.signerName.same zone = true ∧ SignedBy limit C N (T.keysOf zone) g.2 sig

/-- A walk down the tree and an answer of the zone it ends in; every RRSIG of the answer is by a zone of
the walk. -/
structure HonestRun (i : ι) (walk : WalkChain) (resp : Message) : Prop where
  serves : Serves limit C N T i
  answered : ∃ last, SignedPath limit C N T Name.root walk.steps last ∧ SignedMessage limit C N T last resp
  signers : SignersWalked walk resp

end

def treeRules (C : Crypto) (T : SignedTree) : TrustRules :=
  { asCoded C with walked := fun s => T.Zone s.zone ∧ s.nsIps ≠ [] }

def treeValidations [DecidableEq ι] (C : Crypto) (N : Net ι) (T : SignedTree) :
    System ι Op Op.Res (World ι) :=
  system N fun _ p => ∃ walk answer, (∀ s ∈ walk.steps, T.Zone s.zone ∧ s.nsIps ≠ []) ∧
    p = validateTask C walk answer

section

variable {limit : Nat} {C : Crypto} {N : Net ι} {T : SignedTree} {i : ι} {chain : ChainKeys}
  {ips : List IpAddr} {keys : List DNSKEY} {last parent zone : Name} {resp : Message} {sig : RRSIG}
  {state : StepDnskeyState} {step : ChainStep} {steps : List ChainStep} {w : World ι} {walk : WalkChain}

/-! ## What earlier validations leave behind -/

theorem Serves.admissible_keys (hT : Serves limit C N T i) (hz : T.Zone zone)
    (h : Admissible (treeRules C T) C N i zone keys) : keys = T.keysOf zone := by
  rcases h with ⟨_, _, _, child, _, hs, _, _, set, sig, _, hset, rfl, _, _, _, hself, _⟩ |
    ⟨rfl, _, set, sig, _, _, hset, rfl, _, _, _, k, _, hv⟩
  · have hchild := hT.zone_congr _ _ (Name.same_symm hs) hz
    rw [← hT.keys_congr _ _ hs]
    refine (hT.elsewhere child set hchild hset).resolve_left ?_
    obtain ⟨k, hk, _⟩ := any_eq_true.mp hself
    exact ne_nil_of_mem hk
  · refine (hT.elsewhere Name.root set hT.root hset).resolve_left ?_
    exact hset.keys_ne_nil hv

structure TreeState (N : Net ι) (T : SignedTree) (i : ι) (w : World ι) : Prop where
  roots : (w.inst i).roots ≠ []
  anchors : N.anchors i (w.inst i).anchors
  positive : ∀ zone e, T.Zone zone → (w.inst i).keys.positive.lookup zone = some e → e.keys = T.keysOf zone
  negative : ∀ zone, (w.inst i).keys.negative.lookup zone = none

theorem Serves.reach_treeState [DecidableEq ι] (hT : Serves limit C N T i) {ts : List (ι × RProg Unit)}
    (h : (treeValidations C N T).Reach w ts) (hroots : (w.inst i).roots ≠ []) : TreeState N T i w := by
  have hkept : TrustKept (treeRules C T) C N w := by
    refine trustKept_reach ?_ h
    rintro i p ⟨walk, answer, hwalk, rfl⟩
    have hboot : BootAllowed (treeRules C T) C N :=
      ⟨fun _ _ hz _ => hz, fun _ _ _ _ _ _ _ hself hmatch => ⟨hself, hmatch⟩⟩
    have hallowed : WalkAllowed (treeRules C T) C N i walk :=
      ⟨hwalk, fun _ _ _ _ _ _ _ _ hz => hz, fun _ _ _ _ _ _ hself hmatch => ⟨hself, hmatch⟩⟩
    exact (validateWalk_safe hboot hallowed).bind fun _ _ _ => trivial
  refine ⟨hroots, hkept.anchors i, ?_, ?_⟩
  · intro zone e hz he
    exact hT.admissible_keys hz (hkept.positive i zone e he)
  · intro zone
    refine Option.eq_none_iff_forall_ne_some.mpr fun e he => ?_
    -- No deadline passes and every server of the tree answers, so no zone was marked.
    obtain ⟨step, ⟨hz, hips⟩, _, hdead | hempty | ⟨ip, _, r, hr, hr'⟩⟩ := hkept.negative i zone e he
    · exact hT.patient hdead
    · exact hips hempty
    · obtain ⟨m, rfl, _⟩ := hT.answers step.zone ip r hz hr
      exact hr' m rfl

/-! ## The contract of an honest validation -/

def honestPre (T : SignedTree) : Op → Prop
  | .keyPut zone keys _ => T.Zone zone → keys = T.keysOf zone
  | .keyPutNegative _ _ => False
  | .writeRoots _ => False
  | _ => True

def honestPost (N : Net ι) (T : SignedTree) (i : ι) : (o : Op) → o.Res → Prop
  | .unixNow, t => N.clock t
  | .struck, b => b = false
  | .query asked ip q, r => N.reply asked ip q r
  | .loadAnchors, a => N.anchors i a
  | .readRoots, ips => ips ≠ []
  | .keyGet zone, r => T.Zone zone → ∀ keys, r = some keys → keys = T.keysOf zone
  | .keyHasNegative _, b => b = false
  | _, _ => True

abbrev honestContract (N : Net ι) (T : SignedTree) (i : ι) : Contract Unit Op Op.Res :=
  Contract.plain (honestPre T) (honestPost N T i)

theorem honestPost_of_answers (hT : Serves limit C N T i) {o : Op} {r : o.Res} (hw : TreeState N T i w)
    (h : Answers N i w o r) : honestPost N T i o r := by
  cases o with
  | unixNow => exact h
  | struck => exact Bool.eq_false_iff.mpr fun hb => hT.patient (h hb)
  | query asked ip q => exact h
  | loadAnchors =>
    cases h
    exact hw.anchors
  | readRoots =>
    cases h
    exact hw.roots
  | keyGet zone =>
    intro hz keys hk
    obtain rfl : r = (w.inst i).keys.getPositive w.now zone := h
    obtain ⟨e, he, rfl⟩ := DnskeyCache.getPositive_eq_some hk
    exact hw.positive zone e hz he
  | keyHasNegative zone =>
    obtain rfl : r = (w.inst i).keys.hasNegative w.now zone := h
    simp [honestPost, DnskeyCache.hasNegative, hw.negative zone]
  | _ => trivial

theorem treeState_step [DecidableEq ι] {w' : World ι} {o : Op} {r : o.Res} (hw : TreeState N T i w)
    (hpre : honestPre T o) (hs : Step N i w o r w') : TreeState N T i w' := by
  obtain ⟨_, victim, rfl⟩ := hs
  constructor
  · rw [World.roots_apply]
    · exact hw.roots
    · rintro ips rfl
      exact hpre
  · rw [World.anchors_apply]
    exact hw.anchors
  · intro zone e hz he
    rcases World.lookup_positive_apply he with he | ⟨ttl, _, rfl⟩
    · exact hw.positive zone e hz he
    · exact hpre hz
  · intro zone
    refine Option.eq_none_iff_forall_ne_some.mpr fun e he => ?_
    rcases World.lookup_negative_apply he with he | ⟨step, _, rfl⟩
    · rw [hw.negative zone] at he
      nomatch he
    · exact hpre

/-! ## Windows and entries -/

theorem ValidAt.inWindow {t : UInt32} (h : ValidAt (2 ^ 32 - 1) t sig) : InWindow t sig := by
  obtain ⟨hinc, hexp, hlimit⟩ := h
  have hskew : clockSkew.toNat = 300 := rfl
  simp only [UInt32.le_iff_toNat_le] at hinc hexp
  unfold InWindow checkRrsigValidity
  have h1 : ¬ sig.sigExpiration < sig.sigInception := by
    rw [UInt32.lt_iff_toNat_lt]
    omega
  have h2 : ¬ t + clockSkew < sig.sigInception := by
    rw [UInt32.lt_iff_toNat_lt, UInt32.toNat_add, hskew, Nat.mod_eq_of_lt (by omega)]
    omega
  have h3 : ¬ sig.sigExpiration + clockSkew < t := by
    rw [UInt32.lt_iff_toNat_lt, UInt32.toNat_add, hskew, Nat.mod_eq_of_lt (by omega)]
    omega
  rw [if_neg h1, if_neg h2, if_neg h3]

theorem SignedBy.verified {records : List Record} {t : UInt32}
    (h : SignedBy (2 ^ 32 - 1) C N keys records sig) (ht : N.clock t) :
    checkRrsigValidity t sig = .ok () ∧ (keys.any fun k => verifyRrset C records sig k) = true := by
  obtain ⟨hvalid, k, hk, hv⟩ := h
  exact ⟨(hvalid t ht).inWindow, any_eq_true.mpr ⟨k, hk, hv⟩⟩

def Deepest (T : SignedTree) (chain : ChainKeys) (zone : Name) : Prop :=
  ∃ before, chain = before ++ [(zone, T.keysOf zone)] ∧ ∀ e ∈ before, e.1.numLabels < zone.numLabels

theorem Deepest.closest {target : Name} (h : Deepest T chain zone) (hz : zone.zoneOf target = true) :
    closestTrustedKeys chain target = T.keysOf zone := by
  obtain ⟨before, rfl, hlt⟩ := h
  have hcond : (zone.same target || zone.zoneOf target) = true := by rw [hz, Bool.or_true]
  have hentry : closestEntry (before ++ [(zone, T.keysOf zone)]) target = some (zone, T.keysOf zone) := by
    unfold closestEntry
    rw [foldl_append, foldl_cons, foldl_nil]
    change closer target (closestEntry before target) _ = _
    unfold closer
    rw [if_pos hcond]
    cases hb : closestEntry before target with
    | none => rfl
    | some b => exact if_pos (hlt b (closestEntry_mem hb).1)
  simp only [closestTrustedKeys, hentry]

theorem Deepest.hasZone {name : Name} (h : Deepest T chain zone) (hs : zone.same name = true) :
    hasZone chain name = true := by
  obtain ⟨before, rfl, _⟩ := h
  exact hasZone_iff.mpr ⟨_, mem_append_right _ (mem_singleton_self _), hs⟩

theorem SignedStep.numLabels_lt (h : SignedStep limit C N T parent step)
    (hplain : step.zone.isWildcard = false) : parent.numLabels < step.zone.numLabels := by
  have hlen := Name.zoneOf_length h.below
  have hne : parent.labels.length ≠ step.zone.labels.length := by
    intro heq
    have hsame := Name.same_of_zoneOf_of_length h.below heq.ge
    rw [h.proper] at hsame
    nomatch hsame
  have hle := Name.numLabels_le parent
  rw [Name.numLabels_of_not_isWildcard hplain]
  omega

theorem Deepest.append (h : Deepest T chain parent) (hlt : parent.numLabels < zone.numLabels) :
    Deepest T (chain ++ [(zone, T.keysOf zone)]) zone := by
  refine ⟨chain, rfl, ?_⟩
  obtain ⟨before, rfl, hbefore⟩ := h
  intro e he
  rcases mem_append.mp he with he | he
  · exact (hbefore e he).trans hlt
  · rw [mem_singleton.mp he]
    exact hlt

/-! ## Every stage of an honest validation -/

theorem fetch_honest (hT : Serves limit C N T i) (hz : T.Zone zone) (hips : ips ≠ []) :
    (honestContract N T i).Safe () (fetchDnskeyRrset zone zone ips) fun _ r =>
      ∃ ip m, N.reply zone ip ⟨zone, .DNSKEY, .IN⟩ (.parsed m) ∧
        r = .ok (dnskeySetOf zone m.lowercaseResponseNames.answers) := by
  cases ips with
  | nil => exact absurd rfl hips
  | cons ip ips =>
    refine safe_bind.mpr ⟨trivial, fun r hr => ?_⟩
    obtain ⟨m, rfl, _⟩ := hT.answers zone ip r hz hr
    exact ⟨ip, m, hr, rfl⟩

theorem trustRoot_honest (hT : Serves (2 ^ 32 - 1) C N T i) {a : TrustAnchors} (ha : N.anchors i a)
    (hips : ips ≠ []) :
    (honestContract N T i).Safe () (trustRoot C a ips) fun _ r =>
      r = .ok [(Name.root, T.keysOf Name.root)] := by
  have hput : ∀ keys, putEntry (seedChain a) Name.root keys = [(Name.root, keys)] := by
    intro keys
    unfold putEntry
    rw [filter_eq_nil_iff.mpr]
    · rfl
    · intro e he
      obtain ⟨k, hk⟩ := (mem_seedChain he).name
      have hroot : e.1 = Name.root := hT.anchors a ha _ hk
      simp [hroot]
  suffices (honestContract N T i).Safe () (spliceInZoneDnskey C (seedChain a) Name.root ips) fun _ r =>
      r = .ok [(Name.root, T.keysOf Name.root)] from
    this.bind fun _ r hr => by rw [hr]; rfl
  refine safe_perform_bind.mpr ⟨trivial, fun cached hcached => ?_⟩
  cases cached with
  | some keys =>
    obtain rfl := hcached hT.root keys rfl
    refine safe_perform_bind.mpr ⟨trivial, fun _ _ => ?_⟩
    exact congrArg Except.ok (hput _)
  | none =>
    refine (fetch_honest hT hT.root hips).bind fun _ r hr => ?_
    obtain ⟨ip, m, hm, rfl⟩ := hr
    obtain ⟨_, ⟨⟩, hkeys, sig, hsig, hsigned⟩ := hT.answers Name.root ip _ hT.root hm
    obtain ⟨x, hx, hv⟩ := hT.rootKey a ip m sig ha hm hsig
    have hmem := mem_entryKeys_seedChain hx
    rw [hT.anchors a ha x hx] at hmem
    dsimp only
    rw [hsig]
    refine safe_perform_bind.mpr ⟨trivial, fun now hnow => ?_⟩
    rw [(hsigned.verified hnow).1]
    rw [if_pos (any_eq_true.mpr ⟨x.2, hmem, hv⟩)]
    refine safe_perform_bind.mpr ⟨fun _ => hkeys, fun _ _ => ?_⟩
    refine safe_perform_bind.mpr ⟨trivial, fun _ _ => ?_⟩
    rw [hkeys]
    exact congrArg Except.ok (hput _)

def Ready (C : Crypto) (N : Net ι) (T : SignedTree) (zone : Name) (s : StepDnskeyState) : Prop :=
  s = .cached (T.keysOf zone) ∨
    ∃ set sig, s = .fetched (.ok set) ∧ set.keys = T.keysOf zone ∧ set.sig = some sig ∧
      SignedBy (2 ^ 32 - 1) C N (T.keysOf zone) set.records sig

theorem prefetchStep_honest (hT : Serves (2 ^ 32 - 1) C N T i) (hs : SignedStep limit C N T parent step) :
    (honestContract N T i).Safe () (prefetchStep C step) fun _ s => Ready C N T step.zone s := by
  have hlower : T.Zone step.zone.toLowercase := hT.zone_congr _ _ (by simp) hs.zone
  refine safe_perform_bind.mpr ⟨trivial, fun cached hcached => ?_⟩
  cases cached with
  | some keys =>
    have hkeys : keys = T.keysOf step.zone := (hcached hlower keys rfl).trans (hT.keys_congr _ _ (by simp))
    rw [hkeys]
    dsimp only
    rw [if_pos hs.covers]
    exact Or.inl rfl
  | none =>
    refine safe_perform_bind.mpr ⟨trivial, fun negative hnegative => ?_⟩
    rw [show negative = false from hnegative]
    refine (timeout_safe trivial (fetch_honest hT hs.zone hs.servers)).bind fun _ r hr => ?_
    cases r with
    | none => nomatch hr.2 rfl
    | some r =>
      obtain ⟨ip, m, hm, rfl⟩ := hr.1 r rfl
      obtain ⟨_, ⟨⟩, hkeys, sig, hsig, hsigned⟩ := hT.answers _ ip _ hs.zone hm
      exact Or.inr ⟨_, sig, rfl, hkeys, hsig, hsigned⟩

theorem acceptStepKeys_honest (hT : Serves (2 ^ 32 - 1) C N T i)
    (hs : SignedStep limit C N T parent step) (hready : Ready C N T step.zone state) :
    (honestContract N T i).Safe () (acceptStepKeys C step (some state) chain) fun _ r =>
      r = .ok (chain ++ [(step.zone, T.keysOf step.zone)]) := by
  rcases hready with rfl | ⟨set, sig, rfl, hkeys, hsig, hsigned⟩
  · exact safe_perform_bind.mpr ⟨trivial, fun _ _ => rfl⟩
  · have hne : ¬ set.keys.isEmpty = true := by
      obtain ⟨_, k, hk, _⟩ := hsigned
      rw [hkeys]
      exact fun h => ne_nil_of_mem hk (isEmpty_iff.mp h)
    have hlower : T.keysOf step.zone = T.keysOf step.zone.toLowercase := hT.keys_congr _ _ (by simp)
    unfold acceptStepKeys
    dsimp only
    rw [if_neg hne, hsig]
    refine safe_perform_bind.mpr ⟨trivial, fun now hnow => ?_⟩
    obtain ⟨hwin, hself⟩ := hsigned.verified hnow
    have hself' : (!selfSigned C set sig) = false := by
      unfold selfSigned
      rw [hkeys, hself]
      rfl
    have hmatch : (!dsMatch C step.ds step.zone set.keys) = false := by
      rw [hkeys, hs.covers]
      rfl
    rw [hwin]
    rw [hself', hmatch]
    refine safe_perform_bind.mpr ⟨fun _ => hkeys.trans hlower, fun _ _ => ?_⟩
    refine safe_perform_bind.mpr ⟨trivial, fun _ _ => ?_⟩
    rw [hkeys]
    rfl

theorem verifyStepDs_honest (hT : Serves (2 ^ 32 - 1) C N T i)
    (hs : SignedStep (2 ^ 32 - 1) C N T parent step) (hchain : Deepest T chain parent)
    (hready : Ready C N T step.zone state) :
    (honestContract N T i).Safe () (verifyStepDs C step (some state) chain) fun _ r =>
      r = .ok (chain ++ [(step.zone, T.keysOf step.zone)]) := by
  obtain ⟨sig, hsig, _, hsigned⟩ := hs.signed
  have hne : ¬ (T.keysOf parent).isEmpty = true := by
    obtain ⟨_, k, hk, _⟩ := hsigned
    exact fun h => ne_nil_of_mem hk (isEmpty_iff.mp h)
  have hds : ¬ step.ds.isEmpty = true := by
    obtain ⟨_, k, _, hv⟩ := hsigned
    intro h
    rw [isEmpty_iff.mp h] at hv
    nomatch hv
  unfold verifyStepDs
  rw [hchain.closest hs.below, if_neg hne, if_neg hds, hsig]
  refine safe_perform_bind.mpr ⟨trivial, fun now hnow => ?_⟩
  obtain ⟨hwin, hver⟩ := hsigned.verified hnow
  rw [hwin]
  rw [if_pos hver]
  exact acceptStepKeys_honest hT hs hready

theorem validateStep_honest (hT : Serves (2 ^ 32 - 1) C N T i)
    (hs : SignedStep (2 ^ 32 - 1) C N T parent step) (hchain : Deepest T chain parent)
    (hready : Ready C N T step.zone state) :
    (honestContract N T i).Safe () (validateStep C ips step (some state) chain) fun _ r =>
      r = .ok (chain ++ [(step.zone, T.keysOf step.zone)]) := by
  obtain ⟨sig, hsig, hsigner, _⟩ := hs.signed
  -- The signer is the parent, which is trusted, so there is nothing to bootstrap.
  have hboot : bootstrapSigner C chain sig.signerName ips = .ret (.ok chain) := by
    unfold bootstrapSigner
    rw [if_pos (hchain.hasZone (Name.same_symm hsigner))]
    rfl
  unfold validateStep
  rw [hsig]
  dsimp only
  rw [hboot]
  exact verifyStepDs_honest hT hs hchain hready

theorem validateSteps_honest (hT : Serves (2 ^ 32 - 1) C N T i) {states : List StepDnskeyState}
    {zones : List Name} (hpath : SignedPath (2 ^ 32 - 1) C N T parent steps last)
    (hplain : ∀ s ∈ steps, s.zone.isWildcard = false) (hchain : Deepest T chain parent)
    (hready : List.Forall₂ (fun s state => Ready C N T s.zone state) steps states) :
    (honestContract N T i).Safe () (validateSteps C ips steps states chain zones) fun _ r =>
      ∃ c, r = (.ok c, zones ++ steps.map ChainStep.zone) ∧ Deepest T c last := by
  induction hpath generalizing states chain zones with
  | nil zone => exact ⟨chain, by simp, hchain⟩
  | @cons parent last step steps hs _ ih =>
    cases hready with
    | @cons _ state _ states hhead htail =>
      have hlt := hs.numLabels_lt (hplain step (.head _))
      refine (validateStep_honest hT hs hchain hhead).bind fun _ r hr => ?_
      rw [hr]
      refine (ih (fun s h => hplain s (.tail _ h)) (hchain.append hlt)
        htail).mono fun _ r hr => ?_
      obtain ⟨c, hc, hdeep⟩ := hr
      exact ⟨c, by simp [hc], hdeep⟩

theorem SignedPath.signedStep (h : SignedPath limit C N T parent steps last) {s : ChainStep}
    (hs : s ∈ steps) : ∃ p, SignedStep limit C N T p s := by
  induction h with
  | nil zone => nomatch hs
  | cons hstep _ ih =>
    rcases mem_cons.mp hs with rfl | hs
    · exact ⟨_, hstep⟩
    · exact ih hs

theorem walkKeys_honest (hT : Serves (2 ^ 32 - 1) C N T i)
    (hpath : SignedPath (2 ^ 32 - 1) C N T Name.root walk.steps last)
    (hplain : ∀ s ∈ walk.steps, s.zone.isWildcard = false) :
    (honestContract N T i).Safe () (walkKeys C walk) fun _ r =>
      ∃ ips c, r = (ips, .ok c, walk.steps.map ChainStep.zone) ∧ Deepest T c last := by
  refine safe_perform_bind.mpr ⟨trivial, fun a ha => ?_⟩
  have hseed : ¬ (seedChain a).isEmpty = true :=
    fun h => seedChain_ne_nil (hT.anchored a ha) (isEmpty_iff.mp h)
  rw [if_neg hseed]
  refine safe_perform_bind.mpr ⟨trivial, fun ips hips => ?_⟩
  refine (trustRoot_honest hT ha hips).bind fun _ r hr => ?_
  rw [hr]
  have hprefetch : (honestContract N T i).Safe () (prefetchStepDnskeys C walk) fun _ states =>
      List.Forall₂ (fun s state => Ready C N T s.zone state) walk.steps states := by
    refine joinAll_safe trivial fun s hs => ?_
    obtain ⟨p, hp⟩ := hpath.signedStep hs
    exact prefetchStep_honest hT hp
  refine hprefetch.bind fun _ states hstates => ?_
  have hroot : Deepest T [(Name.root, T.keysOf Name.root)] Name.root :=
    ⟨[], rfl, fun _ h => nomatch h⟩
  refine (validateSteps_honest hT hpath hplain hroot hstates).bind fun _ r hr => ?_
  obtain ⟨c, rfl, hdeep⟩ := hr
  exact ⟨ips, c, rfl, hdeep⟩

theorem validateAnswerAgainstChain_honest {qname : Name} {qtype : RecordType} {now : UInt32}
    (hnow : N.clock now) (hchain : Deepest T chain zone)
    (hresp : SignedMessage (2 ^ 32 - 1) C N T zone resp) :
    validateAnswerAgainstChain C now resp chain qname qtype = .secure := by
  have hne : ¬ (answerGroups resp.answers).isEmpty = true :=
    fun h => hresp.positive (isEmpty_iff.mp h)
  unfold validateAnswerAgainstChain
  rw [if_neg hne]
  refine checkAnswerRrsets_eq_secure_iff.mpr fun g hg => ?_
  obtain ⟨sig, hsig, hsigner, hvalid, k, hk, hv⟩ := hresp.signed g hg
  have hkeys := hchain.closest (Name.zoneOf_of_same (Name.same_symm hsigner))
  exact ⟨sig, hsig, (hvalid now hnow).inWindow, k, hkeys ▸ hk, hv⟩

theorem validateWalk_honest (h : HonestRun (2 ^ 32 - 1) C N T i walk resp)
    (hplain : ∀ s ∈ walk.steps, s.zone.isWildcard = false) :
    (honestContract N T i).Safe () (validateWalk C walk resp) fun _ r =>
      r = (.secure, walk.steps.map ChainStep.zone) := by
  obtain ⟨last, hpath, hresp⟩ := h.answered
  suffices (honestContract N T i).Safe () (validateWalkBody C walk resp) fun _ r =>
      r = (.secure, walk.steps.map ChainStep.zone) from
    this.bind fun _ r hr => ⟨trivial, fun _ _ => hr⟩
  refine (walkKeys_honest h.serves hpath hplain).and_yields.bind fun _ r hr => ?_
  obtain ⟨⟨ips, c, rfl, hdeep⟩, hyields⟩ := hr
  obtain ⟨_, hroot, hsteps⟩ := hyields.always walkKeys_covers
  -- Every signer is trusted, so nothing is bootstrapped and the answer is checked at once.
  have hneeded : neededSigners c resp = [] :=
    neededSigners_eq_nil fun r hr sig hs => signersWalked_hasZone h.signers hroot hsteps hr hs
  have hanswer : (honestContract N T i).Safe () (validateAnswer C ips resp c) fun _ status =>
      status = .secure := by
    unfold validateAnswer
    rw [hneeded]
    refine safe_perform_bind.mpr ⟨trivial, fun now hnow => ?_⟩
    exact validateAnswerAgainstChain_honest hnow hdeep hresp
  refine hanswer.bind fun _ status hstatus => ?_
  rw [hstatus]
  rfl

/-- **An honest hierarchy validates.**  From every state that validations over the tree may have left
behind, whatever the answers the network then gives: `validate_walk` on a walk down the tree and a
positive answer of its last zone returns Secure and reports every step. -/
theorem honest_walk_secure [DecidableEq ι] {walk : WalkChain} {resp : Message}
    (h : HonestRun (2 ^ 32 - 1) C N T i walk resp)
    (hplain : ∀ s ∈ walk.steps, s.zone.isWildcard = false) {w : World ι}
    {ts : List (ι × RProg Unit)}
    (hreach : (treeValidations C N T).Reach w ts) (hroots : (w.inst i).roots ≠ [])
    {step : World ι → (o : Op) → o.Res × World ι}
    (hstep : ∀ w o, Step N i w o (step w o).1 (step w o).2) :
    ((validateWalk C walk resp).exec step w).1 = (.secure, walk.steps.map ChainStep.zone) := by
  refine (validateWalk_honest h hplain).exec ?_ (h.serves.reach_treeState hreach hroots)
  intro w o hw hpre
  exact ⟨honestPost_of_answers h.serves hw (hstep w o).1, treeState_step hw hpre (hstep w o)⟩

end

/-! ## A tree with one zone below the root

The root's key 1 verifies what the root signs, the zone's key 2 verifies what others sign. -/

def signerCrypto : Crypto where
  verifyRrsig k _ _ sig _ := if sig.signerName.isRoot then k == sampleKey 1 else k == sampleKey 2
  covers _ _ k := k == sampleKey 2
  nsec3Hash _ _ _ := none

def treeScript : Script where
  reply _ _ q :=
    if q.queryType = .DNSKEY then
      .parsed (keyAnswer q.name [if q.name.isRoot then sampleKey 1 else sampleKey 2])
    else .parsed {}

def sampleTree (zone : Name) : SignedTree where
  Zone z := z.isRoot = true ∨ z.same zone = true
  keysOf z := [if z.isRoot then sampleKey 1 else sampleKey 2]

theorem isRoot_congr {z z' : Name} (h : z.same z' = true) : z.isRoot = z'.isRoot := by
  rw [Bool.eq_iff_iff, Name.isRoot_iff, Name.isRoot_iff, ← Name.same_root_iff, ← Name.same_root_iff]
  exact ⟨fun hz => Name.same_trans (Name.same_symm h) hz, fun hz => Name.same_trans h hz⟩

theorem dnskeySetOf_keyAnswer {zone : Name} {keys : List DNSKEY} :
    dnskeySetOf zone (keyAnswer zone keys).lowercaseResponseNames.answers =
      ⟨keys.map fun k => sampleRecord zone.toLowercase (.dnskey k), keys,
        some (sampleSig zone .DNSKEY)⟩ := by
  have howner : ∀ data, (sampleRecord zone data).lowercaseName =
      sampleRecord zone.toLowercase data := fun _ => rfl
  have hrs : (keyAnswer zone keys).lowercaseResponseNames.answers.filter (fun r => r.name.same zone) =
      keys.map (fun k => sampleRecord zone.toLowercase (.dnskey k)) ++
        [sampleRecord zone.toLowercase (.rrsig (sampleSig zone .DNSKEY))] := by
    rw [filter_eq_self.mpr]
    · simp [keyAnswer, Message.lowercaseResponseNames, howner]
    · intro r hr
      simp only [keyAnswer, Message.lowercaseResponseNames, mem_map, mem_append,
        mem_singleton] at hr
      obtain ⟨r', ⟨k, _, rfl⟩ | rfl, rfl⟩ := hr <;> simp [sampleRecord]
  have hty : (sampleSig zone .DNSKEY).typeCovered = .DNSKEY := rfl
  unfold dnskeySetOf
  rw [hrs]
  simp [lastSigOver, sampleRecord, Record.dnskey?, Record.rrsig?, Function.comp_def, filter_map, hty]

section

variable {limit : Nat} {zone : Name}

abbrev treeNet : Net Unit := treeScript.net rootAnchors

theorem sampleSig_signed {keys : List DNSKEY} {r : Record} {rs : List Record}
    {covered : RecordType} (hlimit : 2 ^ 32 - 1 ≤ limit)
    (hk : (if zone.isRoot then sampleKey 1 else sampleKey 2) ∈ keys) :
    SignedBy limit signerCrypto treeNet keys (r :: rs) (sampleSig zone covered) := by
  constructor
  · rintro t rfl
    have hinc : (0 : UInt32) ≤ 1000 := by decide
    have hexp : (1000 : UInt32) ≤ 86400 := by decide
    have hend : (sampleSig zone covered).sigExpiration.toNat = 86400 := rfl
    exact ⟨hinc, hexp, by omega⟩
  · refine ⟨_, hk, ?_⟩
    simp only [verifyRrset, signerCrypto, sampleSig]
    split <;> rfl

theorem treeNet_serves (hlimit : 2 ^ 32 - 1 ≤ limit) :
    Serves limit signerCrypto treeNet (sampleTree zone) () where
  root := Or.inl rfl
  zone_congr z z' h hz := by
    rcases hz with hz | hz
    · exact Or.inl (isRoot_congr h ▸ hz)
    · exact Or.inr (Name.same_trans (Name.same_symm h) hz)
  keys_congr z z' h := by simp only [sampleTree, isRoot_congr h]
  patient := id
  answers z ip r _ hr := by
    obtain rfl : r = .parsed (keyAnswer z [if z.isRoot then sampleKey 1 else sampleKey 2]) := hr
    refine ⟨_, rfl, ?_⟩
    rw [dnskeySetOf_keyAnswer]
    exact ⟨rfl, _, rfl, sampleSig_signed hlimit (mem_singleton_self _)⟩
  elsewhere z set _ hset := by
    obtain ⟨_, ip, m, hm, rfl⟩ := hset
    obtain rfl : keyAnswer z [if z.isRoot then sampleKey 1 else sampleKey 2] = m :=
      (Reply.parsed.inj hm).symm
    rw [dnskeySetOf_keyAnswer]
    exact Or.inr rfl
  anchored a ha := by
    obtain rfl : a = rootAnchors := ha
    decide
  anchors a ha := by
    obtain rfl : a = rootAnchors := ha
    decide
  rootKey a ip m sig ha hm hsig := by
    obtain rfl : a = rootAnchors := ha
    obtain rfl : keyAnswer Name.root [sampleKey 1] = m := (Reply.parsed.inj hm).symm
    cases hsig
    exact ⟨_, mem_singleton_self _, rfl⟩

theorem sampleTree_honest {sig : RRSIG} (hlimit : 2 ^ 32 - 1 ≤ limit) (hz : zone.isRoot = false)
    (hty : sig.typeCovered = .A) (hsigner : sig.signerName = zone)
    (hvalid : ValidAt limit 1000 sig) {owner : Name} :
    HonestRun limit signerCrypto treeNet (sampleTree zone) () ⟨[sampleStep zone]⟩
      (addressAnswer owner sig) := by
  refine ⟨treeNet_serves hlimit, ⟨zone, ?_, ?_⟩, ?_⟩
  · have hstep : SignedStep limit signerCrypto treeNet (sampleTree zone) Name.root (sampleStep zone) := by
      refine ⟨Or.inr (Name.same_refl _), Name.root_zoneOf _, ?_, cons_ne_nil _ _, ?_, ?_⟩
      · refine Bool.eq_false_iff.mpr fun hs => ?_
        have hroot : Name.root.isRoot = zone.isRoot := isRoot_congr hs
        rw [hz] at hroot
        nomatch hroot
      · exact ⟨_, rfl, rfl, sampleSig_signed hlimit (mem_singleton_self _)⟩
      · simp [dsMatch, dsCovers, sampleTree, sampleStep, hz, signerCrypto, sampleRecord, Record.ds?]
    exact .cons hstep (.nil _)
  · refine ⟨nofun, ?_⟩
    intro g hg
    obtain rfl := mem_singleton.mp hg
    refine ⟨sig, ?_, hsigner ▸ Name.same_refl _, ?_, ?_⟩
    · simp [coveringSig, answerSigs, addressAnswer, sampleRecord, Record.rrsig?, hty, rrsetKey,
        Record.recordType, RData.recordType]
    · rintro t rfl
      exact hvalid
    · refine ⟨sampleKey 2, by simp [sampleTree, hz], ?_⟩
      simp [verifyRrset, signerCrypto, hsigner, hz]
  · intro r hr s hs
    right
    refine ⟨_, mem_singleton_self _, ?_⟩
    simp only [addressAnswer, append_nil, mem_cons, not_mem_nil, or_false] at hr
    rcases hr with rfl | rfl
    · nomatch hs
    · cases hs
      exact hsigner ▸ Name.same_refl _

def treeVerdict (zone : Name) (sig : RRSIG) (owner : Name) : ValidationStatus × List Name :=
  treeScript.result (validateWalk signerCrypto ⟨[sampleStep zone]⟩ (addressAnswer owner sig))
    (freshWorld rootAnchors)

end

theorem honest_walk_secure_address :
    treeVerdict childZone (sampleSig childZone .A) insideName = (.secure, [childZone]) := by
  have hvalid : ValidAt (2 ^ 32 - 1) 1000 (sampleSig childZone .A) := by
    unfold ValidAt
    decide
  exact honest_walk_secure (sampleTree_honest (Nat.le_refl _) rfl rfl rfl hvalid) (by decide)
    (.init (freshWorld_init fun _ => rfl)) (cons_ne_nil _ _)
    (Script.handle_step (Script.fits_net _ _ _))

def lastMomentSig : RRSIG := { sampleSig childZone .A with sigExpiration := 4294966996 }

def starZone : Name := ⟨[Name.star]⟩

def starName : Name := ⟨[[97], Name.star]⟩

/-- Two honest runs that come out Bogus: a window that ends the clock skew below `2 ^ 32`, and a zone
named `*.`, whose own signature is checked with the keys of the root. -/
theorem honest_walk_bogus :
    (HonestRun (2 ^ 32) signerCrypto treeNet (sampleTree childZone) () ⟨[sampleStep childZone]⟩
        (addressAnswer insideName lastMomentSig) ∧
      treeVerdict childZone lastMomentSig insideName =
        (.bogus (.answerRrsigInvalid insideName .A .expired), [childZone])) ∧
    HonestRun (2 ^ 32 - 1) signerCrypto treeNet (sampleTree starZone) () ⟨[sampleStep starZone]⟩
        (addressAnswer starName (sampleSig starZone .A)) ∧
      treeVerdict starZone (sampleSig starZone .A) starName =
        (.bogus (.answerUnverified starName .A starZone), [starZone]) := by
  have hlast : ValidAt (2 ^ 32) 1000 lastMomentSig := by
    unfold ValidAt
    decide
  have hstar : ValidAt (2 ^ 32 - 1) 1000 (sampleSig starZone .A) := by
    unfold ValidAt
    decide
  exact ⟨⟨sampleTree_honest (Nat.sub_le _ _) rfl rfl rfl hlast, by decide⟩,
    sampleTree_honest (Nat.le_refl _) rfl rfl rfl hstar, by decide⟩

end Dnsd.Recursor
