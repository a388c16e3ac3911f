/-
# HandlerSpec — laws of the caches and of what is sent.

A `Law` says what must be true of every entry of the response cache, of every cached delegation and of every
response.  `Law.Holds` has one demand for each place where the code stores, caches or sends; `Law.Holds.reach`
gives the law in every reachable state.
-/
import Dnsd.Recursor.HandlerPaths
import Dnsd.Recursor.WalkSpec
import Dnsd.Recursor.ValidatorSpec

namespace Dnsd.Recursor

open Proto Lib Contract List

/-! ## Laws -/

structure Law (ι : Type) where
  entry : List (ι × Event) → Origin → CacheKey → Message → Prop
  link : List (ι × Event) → ι → ChainStep → Prop
  response : List (ι × Event) → ι → Message → Prop
  /-- What is said of a walk, hop by hop. -/
  hop : Hop → Prop
  entry_mono : ∀ {l l' origin key msg}, l ⊆ l' → entry l origin key msg → entry l' origin key msg
  link_mono : ∀ {l l' i step}, l ⊆ l' → link l i step → link l' i step
  response_mono : ∀ {l l' i resp}, l ⊆ l' → response l i resp → response l' i resp

/-- What a task remembers. -/
inductive Fact (ι : Type) where
  /-- The history has the event. -/
  | logged (i : ι) (e : Event)
  /-- The entry was read from the cache. -/
  | cached (key : CacheKey) (msg : Message)

variable {ι : Type} {g : List (Fact ι)}

/-- The part of the history that a task knows. -/
def known (g : List (Fact ι)) : List (ι × Event) :=
  g.filterMap fun f =>
    match f with
    | .logged i e => some (i, e)
    | .cached _ _ => none

theorem mem_known {i : ι} {e : Event} : (i, e) ∈ known g ↔ .logged i e ∈ g := by
  unfold known
  rw [mem_filterMap]
  constructor
  · rintro ⟨f, hf, h⟩
    cases f with
    | logged j e' =>
      cases h
      exact hf
    | cached key msg => nomatch h
  · intro h
    exact ⟨_, h, rfl⟩

theorem known_mono {g' : List (Fact ι)} (h : g ⊆ g') : known g ⊆ known g' := by
  rintro ⟨i, e⟩ he
  exact mem_known.mpr (h (mem_known.mp he))

def learn (i : ι) : (o : Op) → o.Res → List (Fact ι)
  | .note e, _ => [.logged i e]
  | .cacheGet key, some msg => [.cached key msg]
  | _, _ => []

def servePost (C : Crypto) (N : Net ι) (i : ι) (o : Op) (r : o.Res) : Prop :=
  trustPost (asCoded C) C N i o r ∧
    match o, r with
    | .forward domain query, r => N.forward i domain query r
    | .delegationGet zone, r => ∀ step, r = some step → step.zone.same zone = true
    | _, _ => True

namespace Law

variable (L : Law ι) (C : Crypto) (N : Net ι)

def Sendable (i : ι) (g : List (Fact ι)) (resp : Message) : Prop :=
  L.response (known g) i resp ∨
    ∃ key msg, .cached key msg ∈ g ∧ ∀ l origin, L.entry l origin key msg → L.response l i resp

def pre (i : ι) (g : List (Fact ι)) (o : Op) : Prop :=
  trustAsk (asCoded C) C N i o ∧
    match o with
    | .cachePut origin key msg => L.entry (known g) origin key msg
    | .delegationInsert step => L.link (known g) i step
    | .note (.served key msg) => .cached key msg ∈ g
    | .note (.sent resp) => L.Sendable i g resp
    | _ => True

abbrev contract (i : ι) : Contract (List (Fact ι)) Op Op.Res :=
  learning (L.pre C N i) (servePost C N i) (learn i)

variable {L C N} {i : ι} {g g' : List (Fact ι)}

theorem Sendable.mono (hle : g ⊆ g') {resp : Message} (h : L.Sendable i g resp) : L.Sendable i g' resp := by
  rcases h with h | ⟨key, msg, hm, h⟩
  · exact Or.inl (L.response_mono (known_mono hle) h)
  · exact Or.inr ⟨key, msg, hle hm, h⟩

theorem pre_mono {o : Op} (hle : g ⊆ g') (h : L.pre C N i g o) : L.pre C N i g' o := by
  refine ⟨h.1, ?_⟩
  cases o with
  | cachePut origin key msg => exact L.entry_mono (known_mono hle) h.2
  | delegationInsert step => exact L.link_mono (known_mono hle) h.2
  | note e =>
    cases e with
    | served key msg => exact hle h.2
    | sent resp => exact Sendable.mono hle h.2
    | _ => trivial
  | _ => trivial

theorem contract_monotone : (L.contract C N i).Monotone (· ⊆ ·) :=
  learning_monotone fun _ _ _ hle h => pre_mono hle h

theorem pre_of_trustPre {o : Op} (h : trustPre (asCoded C) C N i o) : L.pre C N i g o := by
  refine ⟨trustAsk_of_pre h, ?_⟩
  cases o with
  | cachePut _ _ _ | delegationInsert _ => exact h.elim
  | note e => cases e <;> trivial
  | _ => trivial

/-! ## What a law asks of the code -/

structure Holds (L : Law ι) (C : Crypto) (cfg : ι → Config) (N : Net ι) : Prop where
  hop : ∀ i, HopRule (servePost C N i) L.hop
  -- What a walk stores.
  glue : ∀ i asked zone nsRecords glue, Referral (servePost C N i) asked zone nsRecords glue →
    ∀ g ∈ glue, ∀ rtype msg, buildSyntheticAnswer g.1 rtype g.2 = some msg →
      L.entry [] (.glue asked) (CacheKey.of g.1 rtype .IN) msg
  zoneNs : ∀ i asked zone nsRecords glue, Referral (servePost C N i) asked zone nsRecords glue →
    ∀ msg, zoneNsMessage zone nsRecords = some msg →
      L.entry [] (.zoneNs asked) (CacheKey.of zone .NS .IN) msg
  localZone : ∀ (q : Query) msg, isPrivateReverse q.name = true → msg.authenticData = false →
    L.entry [] .localZone (CacheKey.of q.name q.queryType q.queryClass) msg
  walked : ∀ i, (cfg i).validates = false → ∀ (q : Query) msg, msg.authenticData = false →
    L.entry [] .walked (CacheKey.of q.name q.queryType q.queryClass) msg
  -- What priming stores.
  primed : ∀ ip m, N.reply Name.root ip ⟨Name.root, .NS, .IN⟩ (.parsed m) →
    L.entry [] .primed (CacheKey.of Name.root .NS .IN) m.lowercaseResponseNames
  primedGlue : ∀ ip m, N.reply Name.root ip ⟨Name.root, .NS, .IN⟩ (.parsed m) →
    ∀ g ∈ glueOf m.lowercaseResponseNames.additionals, ∀ rtype msg,
      buildSyntheticAnswer g.1 rtype g.2 = some msg →
      L.entry [] (.glue Name.root) (CacheKey.of g.1 rtype .IN) msg
  -- What a handler stores after a validation, or without one.
  secure : ∀ i l chain resp zones (q : Query), (cfg i).validates = true →
    (i, .verdict chain resp .secure zones) ∈ l →
    L.entry l .resolved (CacheKey.of q.name q.queryType q.queryClass) { resp with authenticData := true }
  insecure : ∀ i l chain resp zones (q : Query), (cfg i).validates = true →
    (i, .verdict chain resp .insecure zones) ∈ l →
    L.entry l .resolved (CacheKey.of q.name q.queryType q.queryClass) { resp with authenticData := false }
  plain : ∀ i, (cfg i).validates = false → ∀ (q : Query) msg, msg.authenticData = false →
    L.entry [] .resolved (CacheKey.of q.name q.queryType q.queryClass) msg
  link : ∀ i l hop resp status zones step,
    (i, .verdict hop.chain resp status zones) ∈ l →
    Judged (asCoded C) C N i hop.chain resp status zones → L.hop hop → step ∈ hop.chain.steps →
    (zones.any fun z => z.same step.zone) = true → L.link l i step
  -- What a handler stores for a forwarder.
  forwarded : ∀ i domain query m (q : Query), N.forward i domain query (.parsed m) →
    (cfg i).forwarders.lookupWithDomain q.name = some domain →
    L.entry [] .forwarded (CacheKey.of q.name q.queryType q.queryClass)
      ((cfg i).policy.applyToResponse { m.lowercaseResponseNames with id := query.id })
  ptrForwarded : ∀ i domain msg m name, (cfg i).dns64.isSome = true →
    N.forward i domain (rewriteQueryName msg name) (.parsed m) →
    (cfg i).forwarders.lookupWithDomain name = some domain →
    L.entry [] .ptrForwarded (CacheKey.of name .PTR .IN)
      { m.lowercaseResponseNames with id := (rewriteQueryName msg name).id }
  -- What a handler sends.
  clear : ∀ l i resp, resp.authenticData = false → L.response l i resp
  pass : ∀ l i resp, (cfg i).policy = .passThrough → L.response l i resp
  verified : ∀ i l chain resp zones, (cfg i).validates = true →
    (i, .verdict chain resp .secure zones) ∈ l →
    L.response l i { resp with authenticData := true }
  hit : ∀ i l origin key msg id, (cfg i).validates = true → L.entry l origin key msg →
    L.response l i { msg with id := id }

end Law

section

variable {L : Law ι} {C : Crypto} {cfg : ι → Config} {N : Net ι} {i : ι} {g : List (Fact ι)}
  {chain : WalkChain} {dns64Enabled : Bool} {domain name : Name} {g' g₀ : List (Fact ι)} {key : CacheKey}
  {m msg query resp : Message} {nest : Nat} {peer : IpAddr} {q : Query}

/-! ## Resolution and validation -/

theorem Law.Holds.walkRules (h : L.Holds C cfg N) (i : ι) :
    WalkRules (L.pre C N i []) (servePost C N i) where
  free o ho := by
    cases o <;> first | exact ⟨trivial, trivial⟩ | nomatch ho
  glue asked zone nsRecords glue href g hg rtype msg hmsg :=
    ⟨trivial, h.glue i asked zone nsRecords glue href g hg rtype msg hmsg⟩
  zoneNs asked zone nsRecords glue href msg hmsg :=
    ⟨trivial, h.zoneNs i asked zone nsRecords glue href msg hmsg⟩

def Unflagged (Inv : Hop → Prop) (r : Except WalkError (Message × WalkChain)) : Prop :=
  ∀ resp chain, r = .ok (resp, chain) → resp.authenticData = false ∧
    ((∃ hop, Inv hop ∧ hop.chain = chain) ∨ chain = ⟨[]⟩)

theorem resolveWithChain_unflagged (h : L.Holds C cfg N) :
    (L.contract C N i).Safe g (resolveWithChain (cfg i).iter nest query) fun g' r =>
      g ⊆ g' ∧ Unflagged L.hop r := by
  have hplain : (Contract.plain (L.pre C N i []) (servePost C N i)).Safe ()
      (resolveWithChain (cfg i).iter nest query) fun _ r => Unflagged L.hop r := by
    refine (resolveWithChain_safe ((h.hop i).tour (h.walkRules i)) ?_ ?_).mono fun _ r hr => ?_
    · exact fun q qs _ hprivate => ⟨trivial, h.localZone q _ hprivate rfl⟩
    · exact fun hoff q _ _ _ _ _ => ⟨trivial, h.walked i hoff q _ rfl⟩
    · intro resp chain heq
      obtain ⟨q, qs, _, ⟨_, rfl, rfl⟩ | ⟨answer, last, final, rfl, _, hop, ⟨_, hinv⟩, hchain⟩⟩ :=
        hr resp chain heq
      · exact ⟨rfl, Or.inr rfl⟩
      · exact ⟨rfl, Or.inl ⟨hop, hinv, hchain⟩⟩
  exact hplain.lift Law.contract_monotone
    (fun g' o ho => Law.pre_mono (nil_subset g') ho) (fun _ _ _ hr => hr) g

def Checked (C : Crypto) (N : Net ι) (i : ι) (chain : WalkChain) (resp : Message)
    (g : List (Fact ι)) (r : ValidationStatus × List Name) : Prop :=
  .logged i (.verdict chain resp r.1 r.2) ∈ g ∧ Judged (asCoded C) C N i chain resp r.1 r.2

theorem validateWalk_checked :
    (L.contract C N i).Safe g (validateWalk C chain resp) fun g' r =>
      g ⊆ g' ∧ Checked C N i chain resp g' r := by
  have hbody : (trustContract (asCoded C) C N i).Safe () (validateWalkBody C chain resp) fun _ r =>
      ReportOk (asCoded C) C N i chain r.2 :=
    validateWalkBody_safe asCoded_bootAllowed asCoded_walkAllowed
  have hlift := hbody.and_yields.lift (Law.contract_monotone (L := L))
    (fun _ _ => Law.pre_of_trustPre) (fun _ _ _ hr => hr.1) g
  refine hlift.bind fun g₁ r hr => ?_
  obtain ⟨hle, _, hyields⟩ := hr
  refine safe_perform_bind.mpr ⟨⟨hyields, trivial⟩, fun u _ => ?_⟩
  refine ⟨fun f hf => .tail _ (hle hf), .head _, hyields⟩

theorem insertDelegations_safe {zones : List Name} {steps : List ChainStep}
    (h : ∀ s ∈ steps, (zones.any fun z => z.same s.zone) = true → L.link (known g) i s) :
    (L.contract C N i).Safe g (insertDelegations zones steps) fun g' _ => g ⊆ g' := by
  induction steps with
  | nil => exact List.Subset.refl g
  | cons s steps ih =>
    have hrest := ih fun s' hs' => h s' (.tail _ hs')
    unfold insertDelegations
    split
    · rename_i hz
      have hlink := h s (.head _) hz
      exact safe_perform_bind.mpr ⟨⟨trivial, hlink⟩, fun _ _ => hrest⟩
    · exact hrest

theorem cacheValidatedDelegations_safe (h : L.Holds C cfg N) {r : ValidationStatus × List Name}
    (hchecked : Checked C N i chain resp g r)
    (hchain : (∃ hop, L.hop hop ∧ hop.chain = chain) ∨ chain = ⟨[]⟩) :
    (L.contract C N i).Safe g (cacheValidatedDelegations (cfg i).iter chain r.2) fun g' _ =>
      g ⊆ g' := by
  unfold cacheValidatedDelegations
  split
  · exact List.Subset.refl g
  refine insertDelegations_safe fun s hs hz => ?_
  rcases hchain with ⟨hop, hinv, rfl⟩ | rfl
  · exact h.link i _ hop resp r.1 r.2 s (mem_known.mpr hchecked.1) hchecked.2 hinv hs hz
  · nomatch hs

theorem Law.Holds.sendable_clear (h : L.Holds C cfg N) (hclear : resp.authenticData = false) :
    L.Sendable i g resp :=
  Or.inl (h.clear _ i resp hclear)

theorem Law.Holds.sendable_policy (h : L.Holds C cfg N) (resp : Message) :
    L.Sendable i g ((cfg i).policy.applyToResponse resp) := by
  cases hp : (cfg i).policy with
  | passThrough => exact Or.inl (h.pass _ i _ hp)
  | strip => exact h.sendable_clear rfl
  | validate => exact h.sendable_clear rfl

theorem applyToResponse_clear {policy : DnssecPolicy} (h : resp.authenticData = false) :
    (policy.applyToResponse resp).authenticData = false := by
  cases policy with
  | passThrough => exact h
  | strip => rfl
  | validate => rfl

theorem storeResolved_safe
    (hput : L.entry (known g) .resolved (CacheKey.of q.name q.queryType q.queryClass) resp)
    (hsend : L.Sendable i g resp) :
    (L.contract C N i).Safe g (storeResolved q resp) (Settled (L.Sendable i) (L.Sendable i)) :=
  safe_perform_bind.mpr ⟨⟨trivial, hput⟩, fun _ _ => hsend⟩

theorem validateAndStore_safe (h : L.Holds C cfg N) (hval : (cfg i).validates = true) {parsed : Message}
    (hchain : (∃ hop, L.hop hop ∧ hop.chain = chain) ∨ chain = ⟨[]⟩) :
    (L.contract C N i).Safe g (validateAndStore C (cfg i) msg q parsed chain)
      (Settled (L.Sendable i) (L.Sendable i)) := by
  refine validateWalk_checked.bind fun g₁ result hres => ?_
  obtain ⟨_, hchecked⟩ := hres
  refine (cacheValidatedDelegations_safe h hchecked hchain).bind fun g₂ _ hle => ?_
  have hlogged := mem_known.mpr (hle hchecked.1)
  obtain ⟨status, zones⟩ := result
  cases status with
  | secure =>
    exact storeResolved_safe (h.secure i _ chain parsed zones q hval hlogged)
      (Or.inl (h.verified i _ chain parsed zones hval hlogged))
  | insecure =>
    exact storeResolved_safe (h.insecure i _ chain parsed zones q hval hlogged) (h.sendable_clear rfl)
  | bogus reason => exact h.sendable_clear rfl

theorem resolveValidateCache_safe (h : L.Holds C cfg N) :
    (L.contract C N i).Safe g (resolveValidateCache C (cfg i) nest msg)
      (Settled (L.Sendable i) (L.Sendable i)) := by
  unfold resolveValidateCache
  split
  · trivial
  rename_i q qs _
  refine (resolveWithChain_unflagged h).bind fun g₁ result hres => ?_
  match result, hres.2 with
  | .error e, _ => trivial
  | .ok (parsed, chain), hflag =>
    obtain ⟨hclear, hchain⟩ := hflag parsed chain rfl
    dsimp only
    split
    · rename_i hval
      exact validateAndStore_safe h hval hchain
    rename_i hval
    have hput := h.plain i (Bool.eq_false_iff.mpr hval) q
      ((cfg i).policy.applyToResponse parsed) (applyToResponse_clear hclear)
    exact storeResolved_safe (L.entry_mono (nil_subset _) hput) (h.sendable_policy parsed)

/-! ## The handler -/

theorem served_safe (hseen : .cached key m ∈ g) (hsend : L.Sendable i g resp) :
    (L.contract C N i).Safe g (call (.note (.served key m))) fun g _ => L.Sendable i g resp :=
  ⟨⟨trivial, hseen⟩, fun _ _ => hsend.mono (subset_cons_self ..)⟩

theorem queryForwarder_safe :
    (L.contract C N i).Safe g (queryForwarder domain query) fun _ r => ∀ m, r = .parsed m →
      ∃ m', N.forward i domain query (.parsed m') ∧
        m = { m'.lowercaseResponseNames with id := query.id } := by
  refine safe_perform_bind.mpr ⟨⟨trivial, trivial⟩, fun reply hreply => ?_⟩
  cases reply with
  | parsed m' =>
    rintro m ⟨⟩
    exact ⟨m', hreply.2, rfl⟩
  | failed => exact fun m hm => nomatch hm
  | unparsed => exact fun m hm => nomatch hm

theorem dns64_of_ptrName? (h : ptrName? (cfg i) dns64Enabled q = some name) :
    (cfg i).dns64.isSome = true := by
  unfold ptrName? at h
  cases hd : (cfg i).dns64 with
  | none => simp [hd] at h
  | some p => rfl

theorem Law.Holds.paths (h : L.Holds C cfg N) :
    Paths (L.contract C N i) C (cfg i) dns64Enabled msg q (L.Sendable i) (fun g key m => .cached key m ∈ g)
      (fun _ domain m => ∃ m', N.forward i domain msg (.parsed m') ∧
        m = { m'.lowercaseResponseNames with id := msg.id })
      (L.Sendable i) where
  passing g o ho := by
    cases o <;> first | exact ⟨trivial, trivial⟩ | nomatch ho
  told_kept _ _ _ _ _ htold := htold
  found_kept _ _ _ _ hfound := hfound.mono (subset_append_right ..)
  servfail _ := h.sendable_clear rfl
  ipv4only _ _ := h.sendable_clear rfl
  ddr _ _ := h.sendable_clear rfl
  read _ _ _ _ := .head _
  replayed g m hseen := by
    refine served_safe hseen ?_
    split
    · rename_i hval
      exact Or.inr ⟨_, m, hseen, fun l origin he => h.hit i l origin _ m msg.id hval he⟩
    · exact h.sendable_policy _
  made _ _ _ _ hseen := served_safe hseen (h.sendable_policy _)
  reread _ _ _ _ hseen := served_safe hseen (h.sendable_policy _)
  reversed g name domain hname hdom := by
    refine queryForwarder_safe.mono fun g' r hr m hm => ?_
    obtain ⟨m', hm', rfl⟩ := hr m hm
    have hput := h.ptrForwarded i domain msg m' name (dns64_of_ptrName? hname) hm' hdom
    exact ⟨⟨trivial, L.entry_mono (nil_subset _) hput⟩, fun _ _ => h.sendable_policy _⟩
  forwarded _ _ _ := queryForwarder_safe
  stored g domain m hdom htold := by
    obtain ⟨m', hm', rfl⟩ := htold
    have hput := h.forwarded i domain msg m' q hm' hdom
    exact safe_perform_bind.mpr
      ⟨⟨trivial, L.entry_mono (nil_subset _) hput⟩, fun _ _ => h.sendable_policy _⟩
  followed _ _ _ _ _ := queryForwarder_safe.mono fun _ _ _ _ _ => h.sendable_policy _
  resolved _ _ _ := resolveValidateCache_safe h
  found _ _ hfound := hfound
  again _ _ _ _ _ := (resolveValidateCache_safe h).mono fun _ _ _ _ _ => h.sendable_policy _

/-! ## The tasks -/

theorem serve_safe (h : L.Holds C cfg N) :
    (L.contract C N i).Safe g (serve C (cfg i) nest peer dns64Enabled msg) fun _ _ => True := by
  refine (handleBytes_paths (K := L.contract C N i) (fun _ => ⟨trivial, trivial⟩)
    (fun _ => h.sendable_clear rfl) fun _ _ _ => h.paths).bind fun g₁ resp hresp => ?_
  cases resp with
  | none => trivial
  | some m => exact ⟨⟨trivial, hresp m rfl⟩, fun _ _ => trivial⟩

theorem prewarm_safe (h : L.Holds C cfg N) :
    (L.contract C N i).Safe g (prewarm C (cfg i) nest name) fun _ _ => True := by
  refine (resolveWithChain_unflagged h).bind fun g₁ result hres => ?_
  match result, hres.2 with
  | .error e, _ => trivial
  | .ok (resp, chain), hflag =>
    obtain ⟨_, hchain⟩ := hflag resp chain rfl
    refine validateWalk_checked.bind fun g₂ r hr => ?_
    exact (cacheValidatedDelegations_safe h hr.2 hchain).mono fun _ _ _ => trivial

theorem prime_safe (h : L.Holds C cfg N) :
    (L.contract C N i).Safe g (prime (cfg i).iter) fun _ _ => True := by
  have hplain : (Contract.plain (L.pre C N i []) (servePost C N i)).Safe () (prime (cfg i).iter)
      fun _ _ => True := by
    refine prime_paths (fun o ho => ?_) (fun _ _ _ _ => ⟨trivial, trivial⟩) (fun ip m hm => ?_)
      fun _ _ => ⟨trivial, trivial⟩
    · cases o <;> first | exact ⟨trivial, trivial⟩ | nomatch ho
    · refine ⟨⟨trivial, h.primed ip m hm.1⟩, fun g hg rtype msg hmsg => ?_⟩
      exact ⟨trivial, h.primedGlue ip m hm.1 g hg rtype msg hmsg⟩
  have hlift := hplain.lift (Law.contract_monotone (L := L))
    (fun g' o ho => Law.pre_mono (nil_subset g') ho) (fun _ _ _ hr => hr) g
  exact hlift.mono fun _ _ _ => trivial

theorem task_safe (h : L.Holds C cfg N) {p : RProg Unit} (hp : Task C (cfg i) p) :
    (L.contract C N i).Safe g p fun _ _ => True := by
  cases hp with
  | serve nest peer dns64Enabled msg => exact serve_safe h
  | prime _ => exact prime_safe h
  | prewarm nest name _ _ => exact prewarm_safe h

end

/-! ## Every run -/

structure Lawful (L : Law ι) (C : Crypto) (N : Net ι) (w : World ι) : Prop where
  trust : TrustKept (asCoded C) C N w
  entries : ∀ key e, w.cache.lookup key = some e → L.entry w.log e.origin key e.msg
  links : ∀ i zone e, AList.lookup zone (w.inst i).delegations = some e →
    zone = e.step.zone.toLowercase ∧ L.link w.log i e.step
  served : ∀ i key msg, (i, .served key msg) ∈ w.log → ∃ origin, L.entry w.log origin key msg
  sent : ∀ i resp, (i, .sent resp) ∈ w.log → L.response w.log i resp

def Law.FactHolds (L : Law ι) (w : World ι) : Fact ι → Prop
  | .logged i e => (i, e) ∈ w.log
  | .cached key msg => ∃ origin, L.entry w.log origin key msg

section

variable {L : Law ι} {C : Crypto} {cfg : ι → Config} {N : Net ι} {w w' : World ι} {g : List (Fact ι)}
  {i : ι} {o : Op}

theorem Law.FactHolds.mono {f : Fact ι} (hlog : w.log ⊆ w'.log) (h : L.FactHolds w f) :
    L.FactHolds w' f := by
  cases f with
  | logged i e => exact hlog h
  | cached key msg =>
    obtain ⟨origin, h⟩ := h
    exact ⟨origin, L.entry_mono hlog h⟩

theorem known_subset_log (hg : ∀ f ∈ g, L.FactHolds w f) : known g ⊆ w.log := by
  rintro ⟨i, e⟩ he
  exact hg _ (mem_known.mp he)

theorem Law.Sendable.response {resp : Message} (h : L.Sendable i g resp) (hg : ∀ f ∈ g, L.FactHolds w f) :
    L.response w.log i resp := by
  rcases h with h | ⟨key, msg, hm, h⟩
  · exact L.response_mono (known_subset_log hg) h
  · obtain ⟨origin, he⟩ := hg _ hm
    exact h _ origin he

theorem lawful_init (h : Init N w) : Lawful L C N w := by
  refine ⟨trustKept_init h, ?_, ?_, ?_, ?_⟩
  · intro key e he
    rw [h.cache] at he
    nomatch he
  · intro i zone e he
    obtain ⟨roots, a, _, hi⟩ := h.fresh i
    rw [hi] at he
    nomatch he
  · intro i key msg hm
    rw [h.log] at hm
    nomatch hm
  · intro i resp hm
    rw [h.log] at hm
    nomatch hm

variable [DecidableEq ι]

theorem lawful_env (hw : Lawful L C N w) (he : Env N w w') : Lawful L C N w' := by
  have hf := he.frame
  refine ⟨trustKept_env hw.trust he, ?_, ?_, ?_, ?_⟩
  · intro key e h
    rw [hf.log]
    exact hw.entries key e (hf.cache key e h)
  · intro i zone e h
    rw [hf.delegations i] at h
    rw [hf.log]
    exact hw.links i zone e h
  · rw [hf.log]
    exact hw.served
  · rw [hf.log]
    exact hw.sent

omit [DecidableEq ι] in
theorem servePost_of_answers {r : o.Res} (hw : Lawful L C N w) (h : Answers N i w o r) :
    servePost C N i o r := by
  refine ⟨trustPost_of_answers hw.trust h, ?_⟩
  cases o with
  | forward domain query => exact h
  | delegationGet zone =>
    rintro step hstep
    obtain rfl : r = (w.inst i).delegations.get w.now zone := h
    obtain ⟨e, he, rfl⟩ := DelegationCache.get_eq_some hstep
    rw [Name.same_iff]
    exact (hw.links i _ e he).1.symm
  | _ => trivial

theorem log_subset_apply {victim : Name × RecordType} : w.log ⊆ (w.apply i victim o).log := by
  intro e he
  exact World.mem_log_apply.mpr (Or.inr he)

theorem lawful_step {r : o.Res} (hw : Lawful L C N w) (hg : ∀ f ∈ g, L.FactHolds w f)
    (hpre : L.pre C N i g o) (hs : Step N i w o r w') : Lawful L C N w' := by
  have htrust := trustKept_step hw.trust hpre.1 hs
  obtain ⟨_, victim, rfl⟩ := hs
  have hlog : w.log ⊆ (w.apply i victim o).log := log_subset_apply
  have hknown : known g ⊆ (w.apply i victim o).log := List.Subset.trans (known_subset_log hg) hlog
  refine ⟨htrust, ?_, ?_, ?_, ?_⟩
  · intro key e he
    rcases World.lookup_cache_apply he with he | ⟨rfl, -⟩
    · exact L.entry_mono hlog (hw.entries key e he)
    · exact L.entry_mono hknown hpre.2
  · intro j zone e he
    rcases World.lookup_delegations_apply he with he | ⟨rfl, rfl, hzone⟩
    · obtain ⟨hzone, hlink⟩ := hw.links j zone e he
      exact ⟨hzone, L.link_mono hlog hlink⟩
    · exact ⟨hzone, L.link_mono hknown hpre.2⟩
  · intro j key msg hm
    rcases World.mem_log_apply.mp hm with ⟨ev, hev, heq⟩ | hm
    · cases heq
      cases o with
      | note e =>
        cases hev
        obtain ⟨origin, he⟩ := hg _ hpre.2
        exact ⟨origin, L.entry_mono hlog he⟩
      | _ => nomatch hev
    · obtain ⟨origin, he⟩ := hw.served j key msg hm
      exact ⟨origin, L.entry_mono hlog he⟩
  · intro j resp hm
    rcases World.mem_log_apply.mp hm with ⟨ev, hev, heq⟩ | hm
    · cases heq
      cases o with
      | note e =>
        cases hev
        exact L.response_mono hlog (Law.Sendable.response hpre.2 hg)
      | _ => nomatch hev
    · exact L.response_mono hlog (hw.sent j resp hm)

theorem learn_holds {r : o.Res} (hw : Lawful L C N w) (hs : Step N i w o r w') :
    ∀ f ∈ learn i o r, L.FactHolds w' f := by
  obtain ⟨hr, victim, rfl⟩ := hs
  intro f hf
  cases o with
  | note e =>
    cases mem_singleton.mp hf
    exact World.mem_log_apply.mpr (Or.inl ⟨e, rfl, rfl⟩)
  | cacheGet key =>
    cases r with
    | none => nomatch hf
    | some msg =>
      cases mem_singleton.mp hf
      obtain ⟨e, he, rfl⟩ := World.cacheLookup_eq_some (Eq.symm hr)
      exact ⟨e.origin, L.entry_mono log_subset_apply (hw.entries key e he)⟩
  | _ => nomatch hf

/-- **The law holds in every run**: any number of clients' queries, primings and prewarms of any number
of handlers, in any order. -/
theorem Law.Holds.reach (h : L.Holds C cfg N) {ts : List (ι × RProg Unit)}
    (hr : (process C cfg N).Reach w ts) : Lawful L C N w := by
  have hkeeps : (process C cfg N).Keeps (fun i => L.contract C N i) (Lawful L C N)
      (fun w g => ∀ f ∈ g, L.FactHolds w f) [] := by
    refine System.keeps_learning ?_ ?_ ?_ ?_ ?_
    · exact fun w hw => lawful_init hw
    · intro w w' hw he
      refine ⟨lawful_env hw he, fun f hf => hf.mono ?_⟩
      rw [he.frame.log]
      exact List.Subset.refl _
    · intro i w o r w' g hw hg hpre hs
      exact ⟨servePost_of_answers hw hs.1, lawful_step hw hg hpre hs, learn_holds hw hs⟩
    · rintro i w o r _ f ⟨_, victim, rfl⟩ hf
      exact hf.mono log_subset_apply
    · exact fun i p hp => task_safe h hp
  exact hkeeps.reach_inv hr

end

end Dnsd.Recursor
