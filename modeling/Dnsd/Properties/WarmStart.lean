/-
# WarmStart — a walk from cached delegations and a walk from the root agree.

Over a static tree a question has one answer under one sequence of delegations, and every walk that returns gives
it.  Whether a walk returns is another matter: zones whose servers are named in each other keep a walk from the
root waiting, while a walk from a cached delegation answers.
-/
import Dnsd.Recursor.Script
import Dnsd.Recursor.TreeWalk

namespace Dnsd.Recursor

open Proto Lib Contract List

variable {cfg : IterConfig} {glue : Glue} {newZone zone : Name} {nsRecords : List Record} {q : Query}

/-! ## Warm and cold walks -/

section

variable {ι : Type} [DecidableEq ι] {T : Tree} {N : Net ι} {C : Crypto} {cfg : ι → Config} {budget : Budget}
  {cached : DelegationCache} {cuts : List Cut} {msg : Message} {roots : List IpAddr}

def MayReturn (ok : (o : Op) → o.Res → Prop) (cfg : IterConfig) (q : Query) (nest : Nat)
    (budget : Budget) (msg : Message) (cuts : List Cut) : Prop :=
  ∃ chain b, (walk cfg nest q.name q.queryType q.queryClass budget).Yields ok (.ok (msg, chain, b)) ∧
    chain.cuts = cuts

/-- A walk returns the message, with the delegations recorded, however it is answered. -/
def Returns (ok : (o : Op) → o.Res → Prop) (cfg : IterConfig) (q : Query) (nest : Nat)
    (budget : Budget) (msg : Message) (cuts : List Cut) : Prop :=
  (∃ r, (walk cfg nest q.name q.queryType q.queryClass budget).Yields ok r) ∧
    ∀ r, (walk cfg nest q.name q.queryType q.queryClass budget).Yields ok r →
      ∃ chain b, r = .ok (msg, chain, b) ∧ chain.cuts = cuts

theorem treeAnswers_total (T : Tree) (roots : List IpAddr) (cached : DelegationCache) (o : Op) :
    ∃ r, treeAnswers T roots cached o r := by
  cases o with
  | query asked ip q => exact ⟨_, rfl⟩
  | shuffle ips => exact ⟨_, List.Perm.refl ips⟩
  | readRoots => exact ⟨_, rfl⟩
  | delegationGet zone => exact ⟨none, fun _ h => nomatch h⟩
  | unixNow => exact ⟨0, trivial⟩
  | pick n => exact ⟨(0 : Nat), trivial⟩
  | struck | turn | isReady | rrlCheck _ | keyHasNegative _ | negHit _ _ => exact ⟨false, trivial⟩
  | forward domain m => exact ⟨.failed, trivial⟩
  | loadAnchors => exact ⟨⟨[]⟩, trivial⟩
  | keyGet _ | cacheGet _ => exact ⟨none, trivial⟩
  | writeRoots _ | keyPut _ _ _ | keyInvalidate _ _ | keyPutNegative _ _ | delegationInsert _
  | cachePut _ _ _ | negInsert _ _ | note _ => exact ⟨(), trivial⟩

theorem finds_of_mayReturn {cfg : IterConfig} {q : Query} {nest : Nat} (hon : cfg.dnssecOk = true)
    (hcached : T.Caches cached) (h : MayReturn (treeAnswers T roots cached) cfg q nest budget msg cuts) :
    T.Finds q cuts msg := by
  obtain ⟨chain, b, hy, rfl⟩ := h
  exact finds_of_walk hon (hy.mono (custody_of_treeAnswers hcached))

theorem returns_of_safe {cfg : IterConfig} {q : Query} {nest : Nat}
    (h : (inTree T roots cached).Safe () (walk cfg nest q.name q.queryType q.queryClass budget) fun _ r => ∃ chain b, r = .ok (msg, chain, b) ∧ chain.cuts = cuts) :
    Returns (treeAnswers T roots cached) cfg q nest budget msg cuts :=
  ⟨Prog.yields_exists (treeAnswers_total T roots cached) _, fun _ hr => h.yields hr⟩

/-- **Warm and cold walks agree.**  In every reachable state over a delegation tree, a walk from whatever is left
of the cached delegations and a walk from the root return the same response and record the same zones with the same
DS RRsets, whenever both return one.  If referrals bring an address of a server and either walk can return a
response, then with enough of a budget both do. -/
theorem warm_cold_agree (hT : T.Serves N) {w : World ι} {ts : List (ι × RProg Unit)}
    (h : (process C cfg N).Reach w ts) {i : ι} (hon : (cfg i).iter.dnssecOk = true) (q : Query)
    (roots : List IpAddr) :
    (∀ nest budget msg cuts nest' budget' msg' cuts',
      MayReturn (treeAnswers T (w.inst i).roots (w.inst i).delegations) (cfg i).iter q nest budget
        msg cuts →
      MayReturn (treeAnswers T roots ∅) (cfg i).iter q nest' budget' msg' cuts' →
      msg = msg' ∧ cuts = cuts') ∧
    (T.Glued (cfg i).iter → (w.inst i).roots ≠ [] → roots ≠ [] →
      ∀ nest budget msg cuts,
        MayReturn (treeAnswers T (w.inst i).roots (w.inst i).delegations) (cfg i).iter q nest budget
            msg cuts ∨
          MayReturn (treeAnswers T roots ∅) (cfg i).iter q nest budget msg cuts →
        ∃ depth enough, ∀ nest' budget', depth ≤ nest' → budget'.Covers enough →
          Returns (treeAnswers T (w.inst i).roots (w.inst i).delegations) (cfg i).iter q nest' budget'
              msg cuts ∧
            Returns (treeAnswers T roots ∅) (cfg i).iter q nest' budget' msg cuts) := by
  have hwarm := caches_of_reach hT h i
  have hcold := caches_empty T
  constructor
  · intro nest budget msg cuts nest' budget' msg' cuts' hw hc
    obtain ⟨hcuts, hmsg⟩ := (finds_of_mayReturn hon hwarm hw).unique (finds_of_mayReturn hon hcold hc)
    exact ⟨hmsg, hcuts⟩
  · intro hglued hroots hroots' nest budget msg cuts hmay
    have hfinds : T.Finds q cuts msg := by
      rcases hmay with hw | hc
      · exact finds_of_mayReturn hon hwarm hw
      · exact finds_of_mayReturn hon hcold hc
    obtain ⟨depth, enough, hreturns⟩ := walk_returns hon hglued hfinds
    refine ⟨depth, enough, fun nest' budget' hnest hbudget => ⟨?_, ?_⟩⟩
    · exact returns_of_safe (hreturns _ _ nest' budget' hroots hwarm hnest hbudget)
    · exact returns_of_safe (hreturns _ _ nest' budget' hroots' hcold hnest hbudget)

end

/-! ## Trees of two levels -/

def topZone (n : Name) : Name := ⟨n.toLowercase.labels.getLast?.toList⟩

def plainAnswer (zone : Name) (q : Query) : Message :=
  if q.queryType = .DNSKEY then keyAnswer q.name [sampleKey (if q.name = Name.root then 1 else 2)]
  else signedAnswer q.name zone

def flatReply (referrals : List (Name × Message)) (zone : Name) (q : Query) : Message :=
  if zone = Name.root then (referrals.lookup (topZone q.name)).getD (plainAnswer zone q)
  else plainAnswer zone q

def Delegates (d : Name × Message) : Prop :=
  d.1.toLowercase = d.1 ∧ d.1.labels.length = 1 ∧ d.2.answers = [] ∧
    ∀ r ∈ d.2.authorities, r.name.toLowercase = d.1

instance (d : Name × Message) : Decidable (Delegates d) := by
  unfold Delegates
  infer_instance

theorem topZone_zoneOf (n : Name) : (topZone n).zoneOf n = true := by
  obtain ⟨labels⟩ := n
  rcases eq_nil_or_concat labels with rfl | ⟨front, l, rfl⟩
  · rfl
  · have htop : topZone ⟨front ++ [l]⟩ = (Name.mk [l]).toLowercase := by
      simp [topZone, Name.toLowercase]
    rw [concat_eq_append, htop, Name.zoneOf_toLowercase_left]
    exact zoneOf_of_labels_suffix (suffix_append ..)

theorem topZone_of_zoneOf {z n : Name} (hlower : z.toLowercase = z) (hlen : z.labels.length = 1)
    (h : z.zoneOf n = true) : topZone n = z := by
  obtain ⟨front, hfront⟩ := Name.zoneOf_iff.mp h
  obtain ⟨labels⟩ := z
  obtain ⟨l, rfl⟩ := length_eq_one_iff.mp hlen
  rw [topZone, ← hfront, hlower]
  simp

theorem classify_of_answers_nil {resp : Message} (h : resp.answers = []) (n n' : Name)
    (t t' : RecordType) : classify resp n t = classify resp n' t' := by
  unfold classify
  rw [h]
  simp

theorem plainAnswer_ne_referral {n : Name} {t : RecordType} :
    classify (plainAnswer zone q).lowercaseResponseNames n t ≠ .referral newZone nsRecords glue := by
  intro hcls
  obtain ⟨⟨r, hr, _⟩, _⟩ := classify_eq_referral hcls
  unfold plainAnswer at hr
  split at hr <;> nomatch hr

theorem mem_of_referral {referrals : List (Name × Message)} (h : ∀ d ∈ referrals, Delegates d)
    (hcls : classify (flatReply referrals zone q).lowercaseResponseNames q.name q.queryType = .referral newZone nsRecords glue) :
    zone = Name.root ∧ newZone = topZone q.name ∧ ∃ d ∈ referrals, d.1 = topZone q.name ∧
      ∀ q', topZone q'.name = topZone q.name → flatReply referrals zone q' = d.2 := by
  by_cases hroot : zone = Name.root
  · cases hlookup : referrals.lookup (topZone q.name) with
    | none =>
      rw [flatReply, if_pos hroot, hlookup] at hcls
      exact absurd hcls plainAnswer_ne_referral
    | some m =>
      have hmem : (topZone q.name, m) ∈ referrals := by
        obtain ⟨l₁, l₂, rfl, _⟩ := lookup_eq_some_iff.mp hlookup
        exact mem_append_right _ (.head _)
      refine ⟨hroot, ?_, _, hmem, rfl, fun q' htop => ?_⟩
      · obtain ⟨_, _, _, howners⟩ := h _ hmem
        rw [flatReply, if_pos hroot, hlookup] at hcls
        obtain ⟨⟨r, hr, _, hzone⟩, _⟩ := classify_eq_referral hcls
        obtain ⟨r', hr', rfl⟩ := mem_map.mp hr
        rw [hzone, Record.lowercaseName_name, Name.toLowercase_idem]
        exact howners r' hr'
      · rw [flatReply, if_pos hroot, htop, hlookup]
        rfl
  · rw [flatReply, if_neg hroot] at hcls
    exact absurd hcls plainAnswer_ne_referral

def flatTree (referrals : List (Name × Message)) (h : ∀ d ∈ referrals, Delegates d) : Tree where
  reply := flatReply referrals
  proper := by
    intro q zone cut href
    obtain ⟨⟨nsRecords, glue, hcls⟩, _⟩ := href
    obtain ⟨rfl, hcut, d, hd, htop, _⟩ := mem_of_referral h hcls
    obtain ⟨_, hlen, _⟩ := h d hd
    rw [hcut]
    refine ⟨fun hroot => ?_, Name.root_zoneOf _, topZone_zoneOf q.name⟩
    rw [htop, hroot] at hlen
    nomatch hlen
  uniform := by
    intro q q' zone cut href hbelow
    obtain ⟨⟨nsRecords, glue, hcls⟩, hds, hguard⟩ := href
    obtain ⟨rfl, hcut, d, hd, htop, hreply⟩ := mem_of_referral h hcls
    obtain ⟨hlower, hlen, hanswers, _⟩ := h d hd
    have htop' : topZone q'.name = topZone q.name := by
      rw [← htop]
      refine topZone_of_zoneOf hlower hlen ?_
      rw [htop, ← hcut]
      exact hbelow.1
    have hnone : d.2.lowercaseResponseNames.answers = [] := by
      rw [Message.lowercaseResponseNames, hanswers]
      rfl
    rw [hreply q rfl] at hcls hds
    refine ⟨⟨nsRecords, glue, ?_⟩, ?_, hguard⟩
    · rw [hreply q' htop', ← hcls]
      exact classify_of_answers_nil hnone ..
    · rw [hreply q' htop']
      exact hds

def Tree.script (T : Tree) : Script where
  reply asked _ q := .parsed (T.reply asked q)

theorem serves_script (T : Tree) : T.Serves (T.script.net rootAnchors : Net Unit) :=
  fun _ _ _ _ h => h

def treeProcess (T : Tree) : System Unit Op Op.Res (World Unit) :=
  process (listCrypto [sampleKey 1, sampleKey 2]) (fun _ => sampleConfig .validate)
    (T.script.net rootAnchors)

def askFor (name : Name) : RProg Unit :=
  serve (listCrypto [sampleKey 1, sampleKey 2]) (sampleConfig .validate) 2 (.v4 9) false
    (questionFor name .A)

/-! ### A zone with an address in its referral -/

def signedTree : Tree := flatTree [(childZone, signedReferral 2)] (by decide)

theorem signedTree_glued (cfg : IterConfig) : signedTree.Glued cfg := by
  intro q zone newZone nsRecords glue hcls
  obtain ⟨_, _, d, hd, _, hreply⟩ := mem_of_referral (by decide) hcls
  have hreply : flatReply [(childZone, signedReferral 2)] zone q = signedReferral 2 := by
    rw [hreply q rfl, mem_singleton.mp hd]
  rw [Tree.answer, show signedTree.reply zone q = signedReferral 2 from hreply] at hcls
  obtain ⟨_, rfl, rfl⟩ := classify_eq_referral hcls
  exact ⟨serverName, by decide, (serverName, [.v4 2]), by decide, .v4 2, by decide, Or.inr rfl⟩

def warmWorld : World Unit := signedTree.script.run () (askFor insideName) (freshWorld rootAnchors)

theorem warmWorld_reach : (treeProcess signedTree).Reach warmWorld [((), .ret ())] :=
  Script.reach (Script.fits_net _ _ _) (.serve ..) (.init (freshWorld_init fun _ => rfl))

def insideA : Query := ⟨insideName, .A, .IN⟩

theorem coldWalk_signedTree : MayReturn (treeAnswers signedTree [.v4 1] ∅)
    (sampleConfig .validate).iter insideA 1 ⟨32, 384, 8⟩
    (signedAnswer insideName childZone).lowercaseResponseNames
    [⟨childZone, [sampleRecord childZone (.ds sampleDs)]⟩] := by
  refine ⟨⟨[sampleStep childZone]⟩, ⟨31, 382, 8⟩, ?_, rfl⟩
  have hrun : (walk (sampleConfig .validate).iter 1 insideName .A .IN ⟨32, 384, 8⟩).Yields
      (treeAnswers signedTree [.v4 1] ∅) _ :=
    Prog.exec_yields
      (h := fun (_ : Unit) o => (signedTree.script.answer () (freshWorld rootAnchors) o, ()))
      (fun _ o => by
        cases o <;> first | rfl | trivial | exact List.Perm.refl _ | exact fun _ h => nomatch h)
      _ ()
  have hresult : (Prog.exec
      (fun (_ : Unit) o => (signedTree.script.answer () (freshWorld rootAnchors) o, ()))
      (walk (sampleConfig .validate).iter 1 insideName .A .IN ⟨32, 384, 8⟩) ()).1 =
      .ok ((signedAnswer insideName childZone).lowercaseResponseNames,
        ⟨[sampleStep childZone]⟩, ⟨31, 382, 8⟩) := by decide
  exact hresult ▸ hrun

theorem warm_cold_agree_signedTree :
    (treeProcess signedTree).Reach warmWorld [((), .ret ())] ∧
      (AList.lookup childZone (warmWorld.inst ()).delegations).isSome = true ∧
      ∃ depth enough, ∀ nest budget, depth ≤ nest → budget.Covers enough →
        Returns (treeAnswers signedTree (warmWorld.inst ()).roots (warmWorld.inst ()).delegations)
            (sampleConfig .validate).iter insideA nest budget
            (signedAnswer insideName childZone).lowercaseResponseNames
            [⟨childZone, [sampleRecord childZone (.ds sampleDs)]⟩] ∧
          Returns (treeAnswers signedTree [.v4 1] ∅) (sampleConfig .validate).iter insideA nest
            budget (signedAnswer insideName childZone).lowercaseResponseNames
            [⟨childZone, [sampleRecord childZone (.ds sampleDs)]⟩] := by
  have hroots : (warmWorld.inst ()).roots ≠ [] := by decide
  refine ⟨warmWorld_reach, by decide, ?_⟩
  exact (warm_cold_agree (i := ()) (serves_script signedTree) warmWorld_reach rfl insideA
    [.v4 1]).2 (signedTree_glued _) hroots (cons_ne_nil _ _) _ _ _ _
    (Or.inr coldWalk_signedTree)

/-! ### Two zones that serve each other -/

def zoneX : Name := ⟨[[120]]⟩

def zoneY : Name := ⟨[[121]]⟩

def serverInY : Name := ⟨[110] :: zoneY.labels⟩

def serverInZ : Name := ⟨[110] :: childZone.labels⟩

def delegation (zone server : Name) (additionals : List Record) : Message where
  authorities := [.ns server, .ds sampleDs, .rrsig (sampleSig Name.root .DS)].map (sampleRecord zone)
  additionals := additionals

/-- The server of `z.` is in `y.`, and that of `y.` in `z.`.  An address of the former comes with the
referral to `x.` only. -/
def mutualReferrals : List (Name × Message) :=
  [(zoneX, delegation zoneX serverInY [sampleRecord serverInY (.a 2)]),
    (zoneY, delegation zoneY serverInZ []), (childZone, delegation childZone serverInY [])]

def mutualTree : Tree := flatTree mutualReferrals (by decide)

/-- A client has asked for an address in `x.` and for one in `z.`, and 301 seconds have passed: the
address of the server has expired, the delegation of `z.` has not. -/
def strandedWorld : World Unit :=
  { twoRuns mutualTree.script () () (askFor ⟨[97] :: zoneX.labels⟩) (askFor insideName) with
    now := secs 301 }

theorem strandedWorld_reach :
    (treeProcess mutualTree).Reach strandedWorld [((), .ret ()), ((), .ret ())] :=
  .env (twoRuns_reach (.serve ..) (.serve ..)) (.tick (secs 301) (by decide))

def addresslessPre : Op → Prop
  | .cachePut _ key _ => key.rtype ≠ .A ∧ key.rtype ≠ .AAAA
  | .delegationInsert _ => False
  | _ => True

def addresslessPost (T : Tree) : (o : Op) → o.Res → Prop
  | .query asked _ q, r => r = .parsed (T.reply asked q)
  | .delegationGet _, r => r = none
  | .cacheGet key, r => key.rtype = .A ∨ key.rtype = .AAAA → r = none
  | _, _ => True

abbrev addressless (T : Tree) : Contract Unit Op Op.Res := Contract.plain addresslessPre (addresslessPost T)

structure Addressless (w : World Unit) : Prop where
  cache : ∀ key e, w.cache.lookup key = some e → key.rtype ≠ .A ∧ key.rtype ≠ .AAAA
  delegations : ∀ zone e, AList.lookup zone (w.inst ()).delegations ≠ some e

theorem addressless_step {T : Tree} {w : World Unit} (h : Addressless w) {o : Op}
    (hpre : addresslessPre o) :
    addresslessPost T o (T.script.handle () w o).1 ∧ Addressless (T.script.handle () w o).2 := by
  constructor
  · cases o with
    | query asked ip q => rfl
    | delegationGet zone =>
      show (w.inst ()).delegations.get w.now zone = none
      cases hget : (w.inst ()).delegations.get w.now zone with
      | none => rfl
      | some step =>
        obtain ⟨e, he, _⟩ := DelegationCache.get_eq_some hget
        exact absurd he (h.delegations _ e)
    | cacheGet key =>
      intro htype
      show w.cacheLookup key = none
      cases hget : w.cacheLookup key with
      | none => rfl
      | some msg =>
        obtain ⟨e, he, _⟩ := World.cacheLookup_eq_some hget
        obtain ⟨hA, hAAAA⟩ := h.cache key e he
        rcases htype with htype | htype
        · exact absurd htype hA
        · exact absurd htype hAAAA
    | _ => trivial
  · refine ⟨fun key e he => ?_, fun zone e he => ?_⟩
    · rcases World.lookup_cache_apply he with he | ⟨rfl, -⟩
      · exact h.cache key e he
      · exact hpre
    · rcases World.lookup_delegations_apply he with he | ⟨_, rfl, _⟩
      · exact h.delegations zone e he
      · exact hpre

def Mutual (n : Name) : Prop := topZone n = zoneY ∨ topZone n = childZone

theorem flatMap_eq_nil_of_forall₂ {ns : List Name} {results : List (Option WalkResult)}
    (h : List.Forall₂ (fun _ r => subWalkIps r = []) ns results) :
    results.flatMap subWalkIps = [] := by
  induction h with
  | nil => rfl
  | cons hr _ ih => rw [flatMap_cons, hr, ih, nil_append]

theorem resolveNsIps_mutual {walk : Walker} {server : Name} {qclass : DNSClass} {budget : Budget}
    (hserver : Mutual server.toLowercase)
    (hwalk : ∀ n t c b, Mutual n → (addressless mutualTree).Safe () (walk n t c b) fun _ r => ∃ e, r = .error e) :
    (addressless mutualTree).Safe ()
      (resolveNsIps cfg walk [sampleRecord zone (.ns server)] [] qclass budget) fun _ ips =>
      ips = [] := by
  have hcached : ∀ {rtype : RecordType} {addrs : Message → List IpAddr},
      rtype = .A ∨ rtype = .AAAA → (addressless mutualTree).Safe ()
        (cachedAddrs server.toLowercase rtype addrs) fun _ ips => ips = [] := by
    intro rtype addrs htype
    refine safe_perform_bind.mpr ⟨trivial, fun cached hcached => ?_⟩
    have hnone : cached = none := hcached htype
    subst hnone
    rfl
  have hgather : (addressless mutualTree).Safe ()
      (gatherNsIps cfg [] budget.canSubstep [server.toLowercase] [] []) fun _ r =>
      r.1 = [] ∧ ∀ n ∈ r.2, Mutual n := by
    have hnone : (addressless mutualTree).Safe () (cachedNsIps cfg server.toLowercase) fun _ ips =>
        ips = [] := by
      refine (hcached (Or.inl rfl)).bind fun _ v4 hv4 => ?_
      subst hv4
      split
      · refine (hcached (Or.inr rfl)).bind fun _ v6 hv6 => ?_
        subst hv6
        rfl
      · rfl
    refine hnone.bind fun _ cached hcached => ?_
    subst hcached
    rw [if_neg (by decide)]
    split
    · exact ⟨rfl, fun n hn => mem_singleton.mp hn ▸ hserver⟩
    · exact ⟨rfl, forall_mem_nil _⟩
  refine hgather.bind fun _ r hr => ?_
  obtain ⟨ips, needs⟩ := r
  obtain ⟨rfl, hneeds⟩ := hr
  dsimp only
  split
  · rfl
  refine (joinAll_safe (Q := fun _ r => subWalkIps r = []) trivial fun n hn => ?_).bind
    fun _ results hresults => ?_
  · refine (timeout_safe trivial (hwalk n .A qclass _ (hneeds n hn))).mono fun _ r hr => ?_
    cases r with
    | none => rfl
    | some r =>
      obtain ⟨e, rfl⟩ := hr.1 r rfl
      rfl
  · rw [flatMap_eq_nil_of_forall₂ hresults]
    rfl

theorem mutualTree_refers (h : Mutual q.name) :
    ∃ zone server, Mutual server.toLowercase ∧ nonProgressive zone Name.root = false ∧
      classify (mutualTree.answer Name.root q) q.name q.queryType =
        .referral zone [sampleRecord zone (.ns server)] [] := by
  have hreply : mutualTree.answer Name.root q =
      ((mutualReferrals.lookup (topZone q.name)).getD (plainAnswer Name.root q)).lowercaseResponseNames :=
    rfl
  rcases h with h | h
  · have hlookup : mutualReferrals.lookup zoneY = some (delegation zoneY serverInZ []) := by decide
    refine ⟨zoneY, serverInZ, Or.inr (by decide), by decide, ?_⟩
    rw [hreply, h, hlookup, Option.getD_some]
    exact (classify_of_answers_nil rfl _ Name.root _ .A).trans (by decide)
  · have hlookup : mutualReferrals.lookup childZone = some (delegation childZone serverInY []) := by
      decide
    refine ⟨childZone, serverInY, Or.inl (by decide), by decide, ?_⟩
    rw [hreply, h, hlookup, Option.getD_some]
    exact (classify_of_answers_nil rfl _ Name.root _ .A).trans (by decide)

theorem walk_mutual (hon : cfg.dnssecOk = true) (nest : Nat) (n : Name) (t : RecordType) (c : DNSClass)
    (budget : Budget) (hn : Mutual n) :
    (addressless mutualTree).Safe () (walk cfg nest n t c budget) fun _ r => ∃ e, r = .error e := by
  have hfree : ∀ o : Op, o.localRead = true → addresslessPre o := by
    intro o ho
    cases o <;> trivial
  induction nest generalizing n t c budget with
  | zero => exact ⟨_, rfl⟩
  | succ nest ih =>
    unfold walk
    cases budget.referral with
    | error e => exact ⟨e, rfl⟩
    | ok budget =>
      refine (walkStart_safe (q := ⟨n, t, c⟩) hfree).bind fun _ hop hstart => ?_
      -- With no delegation cached the walk starts at the root.
      have hroot : hop.zone = Name.root := by
        cases hstart with
        | root _ => rfl
        | closest hoff _ _ =>
          rw [hon] at hoff
          cases hoff
        | cached _ _ hall hlast =>
          cases hall with
          | nil => cases hlast
          | cons hget _ => cases hget
      refine (queryNsSet_safe hfree fun _ _ => trivial).bind fun _ result hres => ?_
      cases result with
      | error e => exact ⟨e, rfl⟩
      | ok answer =>
        obtain ⟨resp, budget⟩ := answer
        obtain ⟨ip, m, hm, rfl⟩ := hres resp budget rfl
        cases hm
        obtain ⟨zone, server, hserver, hguard, hcls⟩ := mutualTree_refers (q := ⟨n, t, c⟩) hn
        rw [← hroot] at hguard hcls
        have hcls : classify (mutualTree.reply hop.zone ⟨n, t, c⟩).lowercaseResponseNames n t =
          .referral zone [sampleRecord zone (.ns server)] [] := hcls
        dsimp only
        rw [hcls]
        dsimp only
        rw [if_neg (by rw [hguard]; decide)]
        refine Safe.bind (P := fun _ _ => True) trivial fun _ _ _ => ?_
        refine (cacheZoneNs_safe fun msg _ => ?_).bind fun _ _ _ => ?_
        · constructor <;> rintro ⟨⟩
        · refine (resolveNsIps_mutual hserver fun n t c b => ih n t c b).bind
            fun _ nsIps hnone => ?_
          subst hnone
          exact ⟨_, rfl⟩

/-- From the cached delegation of `z.` a walk returns the address asked for; from the root no walk does,
whatever its budget. -/
theorem warm_walk_alone :
    (treeProcess mutualTree).Reach strandedWorld [((), .ret ()), ((), .ret ())] ∧
      (mutualTree.script.result (walk (sampleConfig .validate).iter 1 insideName .A .IN
          ⟨32, 384, 8⟩) strandedWorld).toOption.map (fun r => (r.1, r.2.1.cuts)) =
        some ((signedAnswer insideName childZone).lowercaseResponseNames,
          [⟨childZone, [sampleRecord childZone (.ds sampleDs)]⟩]) ∧
      ∀ nest budget, ∃ e, mutualTree.script.result
        (walk (sampleConfig .validate).iter nest insideName .A .IN budget)
        (freshWorld rootAnchors) = .error e := by
  refine ⟨strandedWorld_reach, by decide +kernel, fun nest budget => ?_⟩
  have hfresh : Addressless (freshWorld rootAnchors) :=
    ⟨(fun _ _ he => nomatch he), fun _ _ he => nomatch he⟩
  have hstep : ∀ (w : World Unit) o, Addressless w → addresslessPre o →
      addresslessPost mutualTree o (mutualTree.script.handle () w o).1 ∧
        Addressless (mutualTree.script.handle () w o).2 := fun _ _ h hpre => addressless_step h hpre
  exact Safe.exec hstep (walk_mutual rfl nest insideName .A .IN budget (Or.inr (by decide))) hfresh

end Dnsd.Recursor
