/-
# Conduct — what a task may do, function by function.

A `Conduct` says which questions may be put to which servers, what may be handed to a forwarder, and which root
sets and delegations may be kept; in return a task finds only such.  One lemma for each function.  A task keeps to
it by its walks (`Toured`), its checks (`Checkable`) and the client's question (`Serves`).
-/
import Dnsd.Recursor.AnswerCheck
import Dnsd.Recursor.HandlerPaths
import Dnsd.Recursor.WalkSpec

namespace Dnsd.Recursor

open Proto Lib Contract

structure Conduct where
  reply : Name → IpAddr → Query → Reply → Prop
  ask : Name → IpAddr → Query → Prop
  roots : List IpAddr → Prop
  keep : ChainStep → Prop
  forward : Name → Message → Prop

namespace Conduct

variable (D : Conduct)

def pre : Op → Prop
  | .query asked ip q => D.ask asked ip q
  | .forward domain m => D.forward domain m
  | .writeRoots ips => D.roots ips
  | .delegationInsert step => D.keep step
  | _ => True

def post : (o : Op) → o.Res → Prop
  | .query asked ip q, r => D.reply asked ip q r
  | .shuffle ips, order => order.Perm ips
  | .readRoots, ips => D.roots ips
  | .delegationGet zone, r => ∀ step, r = some step → step.zone.same zone = true ∧ D.keep step
  | _, _ => True

abbrev contract : Contract Unit Op Op.Res := Contract.plain D.pre D.post

def AskAll (asked : Name) (q : Query) (ips : List IpAddr) : Prop := ∀ ip ∈ ips, D.ask asked ip q

structure Boots (ips : List IpAddr) (zone : Name) : Prop where
  ds : D.AskAll Name.root ⟨zone, .DS, .IN⟩ ips
  dnskey : D.AskAll Name.root ⟨zone, .DNSKEY, .IN⟩ ips

def BootsUp (signer : Name) : Prop :=
  ∀ ips, D.roots ips → ∀ zone : Name, zone.labels <:+ signer.toLowercase.labels → D.Boots ips zone

def Rooted : Prop := ∀ ips, D.roots ips → D.AskAll Name.root ⟨Name.root, .DNSKEY, .IN⟩ ips

structure Checkable (chain : WalkChain) (answer : Message) : Prop where
  steps : ∀ step ∈ chain.steps, D.AskAll step.zone ⟨step.zone, .DNSKEY, .IN⟩ step.nsIps
  linked : ∀ step ∈ chain.steps, ∀ s ∈ step.dsRrsig, D.BootsUp s.signerName
  signed : ∀ r ∈ answer.answers ++ answer.authorities, ∀ s, r.rrsig? = some s → D.BootsUp s.signerName

structure Toured (cfg : IterConfig) (X : Name → Prop) (Inv : Query → Hop → Prop) : Prop where
  tour : TourOf D.pre D.post cfg X Inv
  rooted : cfg.dnssecOk = true → D.Rooted
  checked : cfg.dnssecOk = true → ∀ q msg chain, Traced D.post Inv q msg chain → D.Checkable chain msg
  keep : cfg.dnssecOk = true → ∀ q hop, Inv q hop → ∀ step ∈ hop.chain.steps, D.keep step

structure Vouched (cfg : IterConfig) (chain : WalkChain) (answer : Message) : Prop where
  checked : cfg.dnssecOk = true → D.Checkable chain answer
  keep : cfg.dnssecOk = true → ∀ step ∈ chain.steps, D.keep step

structure Serves (cfg : Config) (X : Name → Prop) (msg : Message) (q : Query) : Prop where
  walked : cfg.forwarders.lookupWithDomain q.name = none → X q.name
  forwarded : ∀ domain, cfg.forwarders.lookupWithDomain q.name = some domain →
    D.forward domain msg ∧ D.forward domain (aQuery msg q)
  reversed : ∀ dns64Enabled name domain, ptrName? cfg dns64Enabled q = some name →
    cfg.forwarders.lookupWithDomain name = some domain →
    D.forward domain (rewriteQueryName msg name)

end Conduct

section

variable {D : Conduct} {cfg : IterConfig} {X : Name → Prop} {Inv : Query → Hop → Prop} {C : Crypto}
  {rootIps : List IpAddr} {answer query : Message} {chain : ChainKeys} {ds : List Record}
  {ips : List IpAddr} {state : Option StepDnskeyState} {step : ChainStep} {steps : List ChainStep}
  {walk : WalkChain} {zone : Name} {zones : List Name}

/-! ## The walk -/

theorem Conduct.Checkable.stitched {chain : WalkChain} (query : Message) (h : D.Checkable chain answer) :
    D.Checkable chain (stitchResponse query answer) := by
  refine ⟨h.steps, h.linked, ?_⟩
  have hlower : ∀ rs : List Record, (∀ r ∈ rs, ∀ s, r.rrsig? = some s → D.BootsUp s.signerName) →
      ∀ r ∈ rs.map Record.lowercaseName, ∀ s, r.rrsig? = some s → D.BootsUp s.signerName := by
    intro rs hrs r hr
    obtain ⟨r', hr', rfl⟩ := List.mem_map.mp hr
    exact hrs r' hr'
  obtain ⟨hanswers, hauthorities⟩ := List.forall_mem_append.mp h.signed
  exact List.forall_mem_append.mpr ⟨hlower _ hanswers, hlower _ hauthorities⟩

theorem Conduct.checkable_local : D.Checkable ⟨[]⟩ (localNxdomain query) :=
  ⟨List.forall_mem_nil _, List.forall_mem_nil _, List.forall_mem_nil _⟩

theorem StartedAt.keep {q : Query} {hop : Hop} (h : StartedAt D.post cfg q hop) :
    ∀ step ∈ hop.chain.steps, D.keep step := by
  cases h with
  | root _ => exact List.forall_mem_nil _
  | closest _ _ _ => exact List.forall_mem_nil _
  | cached _ hzones hall hlast =>
    clear hzones hlast
    induction hall with
    | nil => exact List.forall_mem_nil _
    | cons hget _ ih => exact List.forall_mem_cons.mpr ⟨(hget _ rfl).2, ih⟩

theorem resolveWithChain_conduct (hD : D.Toured cfg X Inv) {nest : Nat}
    (hname : ∀ q qs, query.queries = q :: qs → X q.name) :
    D.contract.Safe () (resolveWithChain cfg nest query) fun _ r =>
      ∀ resp chain, r = .ok (resp, chain) → D.Vouched cfg chain resp := by
  refine (resolveWithChain_safe_of hD.tour hname (fun _ _ _ _ => trivial)
    fun _ _ _ _ _ _ _ => trivial).mono fun _ r hr resp chain h => ?_
  obtain ⟨q, qs, _, ⟨_, rfl, rfl⟩ | ⟨answer, rfl, htraced⟩⟩ := hr resp chain h
  · exact ⟨fun _ => Conduct.checkable_local, fun _ => List.forall_mem_nil _⟩
  · refine ⟨fun hon => (hD.checked hon q answer chain htraced).stitched query, fun hon => ?_⟩
    obtain ⟨hop, hinv, rfl⟩ := htraced.chain_inv
    exact hD.keep hon q hop hinv

/-! ## The validator -/

theorem fetchDnskeyRrset_conduct {asked : Name} (hips : D.AskAll asked ⟨zone, .DNSKEY, .IN⟩ ips) :
    D.contract.Safe () (fetchDnskeyRrset asked zone ips) fun _ _ => True := by
  unfold fetchDnskeyRrset
  split
  · trivial
  induction ips with
  | nil => trivial
  | cons ip ips ih =>
    obtain ⟨hip, hrest⟩ := List.forall_mem_cons.mp hips
    refine (upstreamQuery_asked hip).bind fun _ reply _ => ?_
    cases reply with
    | parsed m => trivial
    | unparsed => trivial
    | failed =>
      cases ips with
      | nil => trivial
      | cons ip' ips => exact ih hrest (by simp)

theorem Conduct.reads (D : Conduct) : Reads D.contract := ⟨fun _ _ => trivial, fun _ => trivial⟩

theorem admitCached_conduct {keys : List DNSKEY} {α : Type} {a : α} :
    D.contract.Safe () (admitCached zone keys a) fun _ _ => True :=
  ⟨trivial, fun _ _ => trivial⟩

theorem admitFetched_conduct {set : DnskeySet} {α : Type} {a : α} :
    D.contract.Safe () (admitFetched zone set a) fun _ _ => True :=
  ⟨trivial, fun _ _ => ⟨trivial, fun _ _ => trivial⟩⟩

theorem collectDs_conduct {sig : Option RRSIG} (hips : D.AskAll Name.root ⟨zone, .DS, .IN⟩ ips) :
    D.contract.Safe () (collectDs zone ips ds sig) fun _ _ => True := by
  induction ips generalizing ds sig with
  | nil => trivial
  | cons ip ips ih =>
    obtain ⟨hip, hrest⟩ := List.forall_mem_cons.mp hips
    refine (upstreamQuery_asked hip).bind fun _ reply _ => ?_
    cases reply with
    | parsed m =>
      dsimp only
      split
      · trivial
      · exact ih hrest
    | unparsed => exact ih hrest
    | failed => exact ih hrest

theorem bootable_conduct {target : Name} (hroots : D.roots rootIps) (htarget : D.BootsUp target) :
    Bootable D.contract C rootIps (fun _ _ => True) target := by
  intro _ chain zone _ _ hsuffix
  have hboots := htarget rootIps hroots zone hsuffix
  have htrivial : D.contract.Safe () (bootstrapZone C chain zone rootIps) fun _ _ => True :=
    bootstrapZone_paths D.reads (fun _ _ => trivial) (fun _ _ => admitCached_conduct)
      (collectDs_conduct hboots.ds) fun _ _ _ _ _ _ _ _ _ =>
        bootstrapDnskey_paths D.reads (fun _ _ => trivial) (fetchDnskeyRrset_conduct hboots.dnskey)
          fun _ _ _ _ _ _ _ _ _ _ => admitFetched_conduct
  exact htrivial.mono fun _ _ _ _ _ => trivial

theorem prefetchUncached_conduct (hips : D.AskAll step.zone ⟨step.zone, .DNSKEY, .IN⟩ step.nsIps) :
    D.contract.Safe () (prefetchUncached step) fun _ _ => True := by
  refine safe_perform_bind.mpr ⟨trivial, fun negative _ => ?_⟩
  split
  · trivial
  refine (timeout_safe trivial (fetchDnskeyRrset_conduct hips)).bind fun _ fetched _ => ?_
  match fetched with
  | some (.ok set) => trivial
  | some (.error e) => exact safe_perform_bind.mpr ⟨trivial, fun _ _ => trivial⟩
  | none => exact safe_perform_bind.mpr ⟨trivial, fun _ _ => trivial⟩

theorem prefetchStep_conduct (hips : D.AskAll step.zone ⟨step.zone, .DNSKEY, .IN⟩ step.nsIps) :
    D.contract.Safe () (prefetchStep C step) fun _ _ => True := by
  refine safe_perform_bind.mpr ⟨trivial, fun cached _ => ?_⟩
  cases cached with
  | some keys =>
    dsimp only
    split
    · trivial
    · exact safe_perform_bind.mpr ⟨trivial, fun _ _ => prefetchUncached_conduct hips⟩
  | none => exact prefetchUncached_conduct hips

theorem validateSteps_conduct {states : List StepDnskeyState} (hroots : D.roots rootIps)
    (hlinked : ∀ step ∈ steps, ∀ s ∈ step.dsRrsig, D.BootsUp s.signerName) :
    D.contract.Safe () (validateSteps C rootIps steps states chain zones) fun _ _ => True := by
  induction steps generalizing states chain zones with
  | nil => trivial
  | cons step steps ih =>
    obtain ⟨hstep, hrest⟩ := List.forall_mem_cons.mp hlinked
    refine Safe.bind (P := fun _ _ => True) ?_ fun _ result _ => ?_
    · refine validateStep_paths (P := fun _ _ => True) (fun _ _ _ => trivial) (fun _ => trivial)
        (fun sig hsig => ?_) fun _ _ _ => ?_
      · have hsigner := hstep sig (List.mem_of_find?_eq_some hsig)
        exact bootstrapSigner_paths (bootable_conduct hroots hsigner) trivial
      · exact verifyStepDs_paths D.reads (fun _ _ _ => trivial) fun _ _ _ _ _ _ _ =>
          acceptStepKeys_paths D.reads (fun _ _ _ => trivial) (fun _ _ => admitCached_conduct)
            fun _ _ _ _ _ _ _ _ _ => admitFetched_conduct
    · cases result with
      | error status => trivial
      | ok chain => exact ih hrest

theorem walkKeys_conduct (hroot : D.Rooted) (hwalk : D.Checkable walk answer) :
    D.contract.Safe () (walkKeys C walk) fun _ r => ∀ chain, r.2.1 = .ok chain → D.roots r.1 := by
  refine safe_perform_bind.mpr ⟨trivial, fun anchors _ => ?_⟩
  split
  · exact fun _ h => nomatch h
  refine safe_perform_bind.mpr ⟨trivial, fun ips hips => ?_⟩
  refine Safe.bind (P := fun _ _ => True) ?_ fun _ rooted _ => ?_
  · refine Safe.bind (P := fun _ _ => True) ?_ fun _ result _ => by cases result <;> trivial
    exact spliceInZoneDnskey_paths D.reads (fun _ _ => trivial) (fun _ _ => admitCached_conduct)
      (fetchDnskeyRrset_conduct (hroot ips hips)) fun _ _ _ _ _ _ _ _ _ => admitFetched_conduct
  · cases rooted with
    | error status => exact fun _ h => nomatch h
    | ok chain =>
      refine (joinAll_safe trivial fun step hstep =>
        prefetchStep_conduct (hwalk.steps step hstep)).bind fun _ prefetched _ => ?_
      exact (validateSteps_conduct hips hwalk.linked).bind fun _ result _ _ _ => hips

theorem exists_of_mem_neededSigners {signer : Name} (h : signer ∈ neededSigners chain answer) :
    ∃ r ∈ answer.answers ++ answer.authorities, ∃ s, r.rrsig? = some s ∧ s.signerName = signer := by
  have hfold : ∀ (rs : List Record) (needed : List Name),
      signer ∈ rs.foldl (addSigner chain) needed →
      signer ∈ needed ∨ ∃ r ∈ rs, ∃ s, r.rrsig? = some s ∧ s.signerName = signer := by
    intro rs
    induction rs with
    | nil => exact fun needed hmem => Or.inl hmem
    | cons r rs ih =>
      intro needed hmem
      rcases ih _ hmem with hmem | ⟨r', hr', hs⟩
      · unfold addSigner at hmem
        split at hmem
        · rename_i s hs
          split at hmem
          · exact Or.inl hmem
          rcases List.mem_append.mp hmem with hmem | hmem
          · exact Or.inl hmem
          · have heq := List.mem_singleton.mp hmem
            exact Or.inr ⟨r, .head _, s, hs, heq.symm⟩
        · exact Or.inl hmem
      · exact Or.inr ⟨r', .tail _ hr', hs⟩
  rcases hfold _ _ h with hmem | hfound
  · nomatch hmem
  · exact hfound

theorem validateWalk_conduct (hroot : D.Rooted) (hwalk : D.Checkable walk answer) :
    D.contract.Safe () (validateWalk C walk answer) fun _ _ => True := by
  refine Safe.bind (P := fun _ _ => True) ?_ fun _ result _ =>
    safe_perform_bind.mpr ⟨trivial, fun _ _ => trivial⟩
  refine (walkKeys_conduct hroot hwalk).bind fun _ r hips => ?_
  obtain ⟨ips, keys, zones⟩ := r
  cases keys with
  | error status => trivial
  | ok chain =>
    refine Safe.bind (P := fun _ _ => True) ?_ fun _ _ _ => trivial
    have hboot : ∀ signer ∈ neededSigners chain answer,
        Bootable D.contract C ips (fun _ _ => True) signer := by
      intro signer hsigner
      obtain ⟨r, hr, s, hs, rfl⟩ := exists_of_mem_neededSigners hsigner
      exact bootable_conduct (hips chain rfl) (hwalk.signed r hr s hs)
    refine (bootstrapSigners_paths hboot trivial).bind fun _ result _ => ?_
    cases result with
    | error e => trivial
    | ok chain => exact safe_perform_bind.mpr ⟨trivial, fun _ _ => trivial⟩

/-! ## The handler -/

theorem insertDelegations_conduct (hsteps : ∀ step ∈ steps, D.keep step) :
    D.contract.Safe () (insertDelegations zones steps) fun _ _ => True := by
  induction steps with
  | nil => trivial
  | cons step steps ih =>
    obtain ⟨hstep, hrest⟩ := List.forall_mem_cons.mp hsteps
    unfold insertDelegations
    split
    · exact safe_perform_bind.mpr ⟨hstep, fun _ _ => ih hrest⟩
    · exact ih hrest

theorem cacheValidatedDelegations_conduct {chain : WalkChain}
    (hkeep : cfg.dnssecOk = true → ∀ step ∈ chain.steps, D.keep step) :
    D.contract.Safe () (cacheValidatedDelegations cfg chain zones) fun _ _ => True := by
  unfold cacheValidatedDelegations
  split
  · trivial
  rename_i hskip
  have hon : cfg.dnssecOk = true := by
    cases hcase : cfg.dnssecOk with
    | true => rfl
    | false => simp [hcase] at hskip
  exact insertDelegations_conduct (hkeep hon)

theorem prime_conduct (hask : ∀ ips, D.roots ips → D.AskAll Name.root ⟨Name.root, .NS, .IN⟩ ips)
    (hroots : ∀ ips, (∀ ip ∈ ips, Usable cfg ip) → D.roots ips) :
    D.contract.Safe () (prime cfg) fun _ _ => True := by
  refine prime_paths (fun o ho => ?_) hask (fun _ _ _ => ⟨trivial, fun _ _ _ _ _ => trivial⟩) hroots
  cases o <;> trivial

end

section

variable {D : Conduct} {cfg : Config} {X : Name → Prop} {Inv : Query → Hop → Prop} {C : Crypto} {nest : Nat}
  {msg : Message} {q : Query} {dns64Enabled : Bool} {domain name : Name} {qs : List Query}

theorem resolveValidateCache_conduct (hD : D.Toured cfg.iter X Inv)
    (hname : ∀ q qs, msg.queries = q :: qs → X q.name) :
    D.contract.Safe () (resolveValidateCache C cfg nest msg) fun _ _ => True := by
  unfold resolveValidateCache
  split
  · trivial
  refine (resolveWithChain_conduct hD hname).bind fun _ result hres => ?_
  match result, hres with
  | .error e, _ => trivial
  | .ok (parsed, chain), hres =>
    have hvouched := hres parsed chain rfl
    dsimp only
    split
    · rename_i hon
      refine (validateWalk_conduct (hD.rooted hon) (hvouched.checked hon)).bind
        fun _ result _ => ?_
      refine (cacheValidatedDelegations_conduct hvouched.keep).bind fun _ _ _ => ?_
      cases result.1 with
      | secure => exact safe_perform_bind.mpr ⟨trivial, fun _ _ => trivial⟩
      | insecure => exact safe_perform_bind.mpr ⟨trivial, fun _ _ => trivial⟩
      | bogus reason => trivial
    · exact safe_perform_bind.mpr ⟨trivial, fun _ _ => trivial⟩

theorem prewarm_conduct (hD : D.Toured cfg.iter X Inv) (hon : cfg.validates = true) (hname : X name) :
    D.contract.Safe () (prewarm C cfg nest name) fun _ _ => True := by
  have hfirst : ∀ (q : Query) qs, [(⟨name, .A, .IN⟩ : Query)] = q :: qs → X q.name := by
    rintro q qs ⟨⟩
    exact hname
  refine (resolveWithChain_conduct hD hfirst).bind fun _ result hres => ?_
  match result, hres with
  | .error e, _ => trivial
  | .ok (resp, chain), hres =>
    have hvouched := hres resp chain rfl
    refine (validateWalk_conduct (hD.rooted hon) (hvouched.checked hon)).bind fun _ verdict _ => ?_
    exact cacheValidatedDelegations_conduct hvouched.keep

theorem queryForwarder_conduct {query : Message} (h : D.forward domain query) :
    D.contract.Safe () (queryForwarder domain query) fun _ _ => True := by
  refine safe_perform_bind.mpr ⟨h, fun reply _ => ?_⟩
  cases reply <;> trivial

theorem Conduct.Toured.paths (hD : D.Toured cfg.iter X Inv) (hq : msg.queries = q :: qs)
    (hserves : D.Serves cfg X msg q) :
    Paths D.contract C cfg dns64Enabled msg q (fun _ _ => True) (fun _ _ _ => True) (fun _ _ _ => True)
      (fun _ _ => True) where
  passing _ o ho := by
    cases o <;> trivial
  told_kept _ _ _ _ _ _ := trivial
  found_kept _ _ _ _ _ := trivial
  servfail _ := trivial
  ipv4only _ _ := trivial
  ddr _ _ := trivial
  read _ _ _ _ := trivial
  replayed _ _ _ := ⟨trivial, fun _ _ => trivial⟩
  made _ _ _ _ _ := ⟨trivial, fun _ _ => trivial⟩
  reread _ _ _ _ _ := ⟨trivial, fun _ _ => trivial⟩
  reversed _ name domain hname hdomain :=
    (queryForwarder_conduct (hserves.reversed dns64Enabled name domain hname hdomain)).mono
      fun _ _ _ _ _ => ⟨trivial, fun _ _ => trivial⟩
  forwarded _ domain hdomain :=
    (queryForwarder_conduct (hserves.forwarded domain hdomain).1).mono fun _ _ _ _ _ => trivial
  stored _ _ _ _ _ := safe_perform_bind.mpr ⟨trivial, fun _ _ => trivial⟩
  followed _ domain _ hdomain _ :=
    (queryForwarder_conduct (hserves.forwarded domain hdomain).2).mono fun _ _ _ _ _ => trivial
  resolved _ _ hnone := by
    refine (resolveValidateCache_conduct hD fun q' qs' hq' => ?_).mono fun _ r _ => ?_
    · cases hq.symm.trans hq'
      exact hserves.walked hnone
    · cases r <;> trivial
  found _ _ _ := trivial
  again _ _ _ hnone _ := by
    refine (resolveValidateCache_conduct hD ?_).mono fun _ _ _ _ _ => trivial
    rintro q' qs' ⟨⟩
    exact hserves.walked hnone

/-- **Serving a client keeps to the conduct** if the client's question may be served. -/
theorem serve_conduct (hD : D.Toured cfg.iter X Inv) {peer : IpAddr}
    (hserves : ∀ q qs, msg.queries = q :: qs → D.Serves cfg X msg q) :
    D.contract.Safe () (serve C cfg nest peer dns64Enabled msg) fun _ _ => True := by
  refine (handleBytes_paths (K := D.contract) (fun _ => trivial) (fun _ => trivial)
    fun q qs hq => hD.paths hq (hserves q qs hq)).bind fun _ resp _ => ?_
  cases resp with
  | some resp => exact ⟨trivial, fun _ _ => trivial⟩
  | none => trivial

end

/-! ## The state of a process -/

section

variable {ι : Type} [DecidableEq ι] {D : ι → Conduct} {N : Net ι} {w w' : World ι}

structure Held (D : ι → Conduct) (w : World ι) : Prop where
  roots : ∀ i, (D i).roots (w.inst i).roots
  keyed : ∀ i zone e, AList.lookup zone (w.inst i).delegations = some e → zone = e.step.zone.toLowercase
  delegations : ∀ i zone e, AList.lookup zone (w.inst i).delegations = some e → (D i).keep e.step

omit [DecidableEq ι] in
theorem held_init (hinit : Init N w) (hroots : ∀ i, (D i).roots (w.inst i).roots) : Held D w := by
  have hempty : ∀ i zone e, AList.lookup zone (w.inst i).delegations ≠ some e := by
    intro i zone e he
    obtain ⟨roots, anchors, _, hfresh⟩ := hinit.fresh i
    rw [hfresh] at he
    nomatch he
  exact ⟨hroots, fun i zone e he => absurd he (hempty i zone e),
    fun i zone e he => absurd he (hempty i zone e)⟩

theorem Held.env (h : Held D w) (henv : Env N w w') : Held D w' := by
  refine ⟨fun i => ?_, fun i zone e he => ?_, fun i zone e he => ?_⟩
  · rw [henv.frame.roots]
    exact h.roots i
  · rw [henv.frame.delegations] at he
    exact h.keyed i zone e he
  · rw [henv.frame.delegations] at he
    exact h.delegations i zone e he

theorem Held.step (hN : ∀ i asked ip q r, N.reply asked ip q r → (D i).reply asked ip q r)
    (h : Held D w) {i : ι} {o : Op} {r : o.Res} (hpre : (D i).pre o) (hstep : Step N i w o r w') :
    (D i).post o r ∧ Held D w' := by
  obtain ⟨hans, victim, rfl⟩ := hstep
  constructor
  · cases o with
    | query asked ip q => exact hN i asked ip q r hans
    | shuffle ips => exact hans
    | readRoots =>
      rw [show r = (w.inst i).roots from hans]
      exact h.roots i
    | delegationGet zone =>
      rintro step rfl
      have hget : some step = (w.inst i).delegations.get w.now zone := hans
      obtain ⟨e, he, rfl⟩ := DelegationCache.get_eq_some hget.symm
      exact ⟨Name.same_iff.mpr (h.keyed i _ e he).symm, h.delegations i _ e he⟩
    | _ => trivial
  · refine ⟨fun j => ?_, fun j zone e he => ?_, fun j zone e he => ?_⟩
    · by_cases hwrite : ∃ ips, o = .writeRoots ips
      · obtain ⟨ips, rfl⟩ := hwrite
        by_cases hj : j = i
        · subst hj
          rw [World.apply, World.inst_updInst_self]
          exact hpre
        · rw [World.inst_apply_ne hj]
          exact h.roots j
      · rw [World.roots_apply fun ips hips => hwrite ⟨ips, hips⟩]
        exact h.roots j
    · rcases World.lookup_delegations_apply he with he | ⟨_, _, hzone⟩
      · exact h.keyed j zone e he
      · exact hzone
    · rcases World.lookup_delegations_apply he with he | ⟨rfl, rfl, _⟩
      · exact h.delegations j zone e he
      · exact hpre

theorem conduct_keeps {init : World ι → Prop} {start : ι → RProg Unit → Prop}
    (hN : ∀ i asked ip q r, N.reply asked ip q r → (D i).reply asked ip q r)
    (hinit : ∀ w, init w → Init N w ∧ ∀ i, (D i).roots (w.inst i).roots)
    (hstart : ∀ i p, start i p → (D i).contract.Safe () p fun _ _ => True) :
    ({ system N start with init := init } : System ι Op Op.Res (World ι)).Keeps
      (fun i => (D i).contract) (Held D) (fun _ _ => True) () :=
  System.keeps_plain (fun w hw => held_init (hinit w hw).1 (hinit w hw).2)
    (fun _ _ h => h.env) (fun _ _ _ _ _ h hpre hstep => h.step hN hpre hstep) hstart

end

end Dnsd.Recursor
