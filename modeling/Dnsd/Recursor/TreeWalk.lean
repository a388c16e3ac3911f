/-
# TreeWalk — walks over a delegation tree.

Every walk of a handler that validates stands on the route of its question from the root (`OnRoute`), so what it
records and returns is what the tree says.  If referrals bring an address, every walk with enough of a budget
returns (`walk_returns`).
-/
import Dnsd.Recursor.Custody
import Dnsd.Recursor.DelegationTree

namespace Dnsd.Recursor

open Proto Lib Contract

/-! ## Delegations in custody -/

section

variable {T : Tree} {cfg : IterConfig} {q : Query} {hop hop' : Hop}
  {post : (o : Op) → o.Res → Prop}

def Tree.custody (T : Tree) : Custody where
  reply asked _ q r := r = .parsed (T.reply asked q)
  usable _ := True
  keep step := T.HasCut step.cut

def OnRoute (T : Tree) (cfg : IterConfig) (q : Query) (hop : Hop) : Prop :=
  cfg.dnssecOk = true → T.Route q Name.root hop.chain.cuts hop.zone

theorem onRoute_start (hpost : ∀ o r, post o r → T.custody.post o r)
    (h : StartedAt post cfg q hop) : OnRoute T cfg q hop := by
  intro hon
  cases h with
  | root _ => exact .nil _
  | closest hoff _ _ =>
    rw [hoff] at hon
    nomatch hon
  | @cached zones steps last _ hzones hall hlast =>
    obtain ⟨ls, hls, rfl⟩ := Tree.ancestorZones_of_run hzones
    have hcuts : List.Forall₂ (fun z cut => cut.zone.same z = true ∧ T.HasCut cut)
        (ancestorZones ls) (steps.map ChainStep.cut).reverse := by
      rw [← List.forall₂_reverse_iff, List.reverse_reverse, List.forall₂_map_right_iff]
      exact hall.imp fun z step hget => hpost (.delegationGet z) (some step) hget step rfl
    obtain ⟨zone, hroute, _⟩ := Tree.route_of_cached hls hcuts
    rw [List.reverse_reverse] at hroute
    -- The route ends at the last of the cached delegations.
    obtain ⟨front, rfl⟩ := List.getLast?_eq_some_iff.mp hlast
    have hend : zone = last.zone := by
      rw [List.map_append] at hroute
      exact hroute.end_of_concat
    exact hend ▸ hroute

theorem OnRoute.follow (h : OnRoute T cfg q hop) (hfollows : Follows T.custody.post cfg q hop hop') :
    OnRoute T cfg q hop' := by
  intro hon
  obtain ⟨ip, m, nsRecords, glue, hm, hcls, hsteps⟩ := hfollows.referred
  have hreply : Reply.parsed m = .parsed (T.reply hop.zone q) := hm
  cases hreply
  have href : T.Refers q hop.zone
      ⟨hop'.zone, (extractDsAndRrsig (T.answer hop.zone q) hop'.zone).1⟩ :=
    ⟨⟨_, _, hcls⟩, rfl, hfollows.progressive⟩
  have hroute := (h hon).snoc href
  rwa [WalkChain.cuts, hsteps, List.map_append]

theorem tour_onRoute (T : Tree) (cfg : IterConfig) :
    Tour T.custody.pre T.custody.post cfg (OnRoute T cfg) where
  free o ho := by cases o <;> trivial
  ask _ _ _ _ _ := trivial
  start _ _ h := onRoute_start (fun _ _ h => h) h
  next _ _ _ := OnRoute.follow
  glue _ _ _ _ _ _ _ _ _ _ := trivial
  zoneNs _ _ _ _ _ _ _ := trivial

theorem toured_onRoute (T : Tree) (cfg : IterConfig) : T.custody.Toured cfg (OnRoute T cfg) where
  tour := tour_onRoute T cfg
  usable _ _ _ _ _ _ _ := trivial
  keep hon _ _ h _ hstep := (h hon).hasCut (List.mem_map_of_mem hstep)
  primed _ _ := trivial

end

/-! ## What a walk returns is in the tree -/

section

variable {T : Tree} {cfg : IterConfig} {q : Query} {msg : Message} {chain : WalkChain}

theorem finds_of_traced (hon : cfg.dnssecOk = true)
    (h : Traced T.custody.post (OnRoute T cfg) q msg chain) : T.Finds q chain.cuts msg := by
  induction h with
  | @done q hop ip m hinv hm hterm =>
    have hreply : Reply.parsed m = .parsed (T.reply hop.zone q) := hm
    cases hreply
    exact .done (hinv hon) hterm
  | @chased q hop ip m sub target chain hinv hm hcls _ ih =>
    have hreply : Reply.parsed m = .parsed (T.reply hop.zone q) := hm
    cases hreply
    exact .chased (hinv hon) hcls ih

theorem finds_of_walk (hon : cfg.dnssecOk = true) {nest : Nat} {budget b : Budget}
    (h : (walk cfg nest q.name q.queryType q.queryClass budget).Yields T.custody.post
      (.ok (msg, chain, b))) : T.Finds q chain.cuts msg :=
  finds_of_traced hon ((walk_safe (tour_onRoute T cfg) nest budget).yields h msg chain b rfl)

end

/-! ## The answers of a process over a tree -/

section

variable {ι : Type} [DecidableEq ι] {T : Tree} {N : Net ι} {C : Crypto} {cfg : ι → Config}

def Tree.Serves (T : Tree) (N : Net ι) : Prop :=
  ∀ asked ip q r, N.reply asked ip q r → r = .parsed (T.reply asked q)

/-- What a walk can be answered over a tree, with a root set and a delegation cache of which any entries
may have expired. -/
def treeAnswers (T : Tree) (roots : List IpAddr) (cached : DelegationCache) : (o : Op) → o.Res → Prop
  | .query asked _ q, r => r = .parsed (T.reply asked q)
  | .shuffle ips, order => order.Perm ips
  | .readRoots, ips => ips = roots
  | .delegationGet zone, r => ∀ step, r = some step →
      ∃ e, AList.lookup zone.toLowercase cached = some e ∧ e.step = step
  | _, _ => True

def Tree.Caches (T : Tree) (cached : DelegationCache) : Prop :=
  ∀ zone e, AList.lookup zone cached = some e → zone = e.step.zone.toLowercase ∧ T.HasCut e.step.cut

theorem caches_empty (T : Tree) : T.Caches ∅ := fun _ _ he => nomatch he

theorem caches_of_reach (hT : T.Serves N) {w : World ι} {ts : List (ι × RProg Unit)}
    (h : (process C cfg N).Reach w ts) (i : ι) : T.Caches (w.inst i).delegations := by
  have hkeeps : (process C cfg N).Keeps (fun _ => T.custody.contract) (InCustody fun _ => T.custody)
      (fun _ _ => True) () :=
    custody_keeps (fun _ => hT) (fun w hw => ⟨hw, fun _ _ _ => trivial⟩)
      fun i => toured_onRoute T (cfg i).iter
  have hin := hkeeps.reach_inv h
  exact fun zone e he => ⟨hin.keyed i zone e he, hin.delegations i zone e he⟩

theorem custody_of_treeAnswers {roots : List IpAddr} {cached : DelegationCache}
    (hcached : T.Caches cached) (o : Op) (r : o.Res) (h : treeAnswers T roots cached o r) :
    T.custody.post o r := by
  cases o with
  | query asked ip q => exact h
  | shuffle ips => exact h
  | readRoots => exact fun _ _ => trivial
  | delegationGet zone =>
    intro step hstep
    obtain ⟨e, he, rfl⟩ := h step hstep
    obtain ⟨hzone, hcut⟩ := hcached _ e he
    exact ⟨Name.same_iff.mpr hzone.symm, hcut⟩
  | _ => trivial

end

/-! ## A walk with enough of a budget -/

structure Budget.Covers (b enough : Budget) : Prop where
  depth : enough.depthRemaining ≤ b.depthRemaining
  queries : enough.queriesRemaining ≤ b.queriesRemaining
  cname : enough.cnameRemaining ≤ b.cnameRemaining

structure Budget.Spent (n : Nat) (b b' : Budget) : Prop where
  depth : b'.depthRemaining = b.depthRemaining
  queries : b.queriesRemaining ≤ b'.queriesRemaining + n
  cname : b'.cnameRemaining = b.cnameRemaining

theorem Budget.Spent.trans {n m : Nat} {b b' b'' : Budget} (h : b.Spent n b') (h' : b'.Spent m b'') :
    b.Spent (n + m) b'' := by
  refine ⟨h'.depth.trans h.depth, ?_, h'.cname.trans h.cname⟩
  have hfirst := h.queries
  have hsecond := h'.queries
  omega

/-- Every referral brings an address of one of the zone's servers that the configuration lets a walk use. -/
def Tree.Glued (T : Tree) (cfg : IterConfig) : Prop :=
  ∀ q zone newZone nsRecords glue,
    classify (T.answer zone q) q.name q.queryType = .referral newZone nsRecords glue →
    ∃ target ∈ nsRecords.filterMap nsTarget?, ∃ g,
      glue.find? (fun g => g.1.same target.toLowercase) = some g ∧ ∃ ip ∈ g.2, Usable cfg ip

section

variable {T : Tree} {cfg : IterConfig} {roots : List IpAddr} {cached : DelegationCache} {q : Query}
  {asked zone : Name} {ips : List IpAddr} {budget : Budget} {cuts : List Cut} {hop : Hop}
  {walk : Walker}

abbrev inTree (T : Tree) (roots : List IpAddr) (cached : DelegationCache) : Contract Unit Op Op.Res :=
  Contract.plain (fun _ => True) (treeAnswers T roots cached)

theorem upstreamQuery_replies {ip : IpAddr} :
    (inTree T roots cached).Safe () (upstreamQuery asked ip q) fun _ r =>
      r = .parsed (T.answer asked q) := by
  refine ⟨trivial, fun r hr => ?_⟩
  have hreply : r = .parsed (T.reply asked q) := hr
  subst hreply
  rfl

theorem raceNs_replies {n : Nat} {inFlight waiting : List IpAddr} (hne : inFlight ≠ []) :
    (inTree T roots cached).Safe () (raceNs asked q (n + 1) inFlight waiting budget) fun _ r =>
      r = .ok (T.answer asked q, budget) := by
  refine safe_perform_bind.mpr ⟨trivial, fun choice _ => ?_⟩
  have hlt : choice % inFlight.length < inFlight.length := Nat.mod_lt _ (List.length_pos_iff.mpr hne)
  rw [List.getElem?_eq_getElem hlt]
  refine upstreamQuery_replies.bind fun _ reply hreply => ?_
  subst hreply
  rfl

theorem startQueries_spends (h : ips.length ≤ budget.queriesRemaining) :
    ∃ b, startQueries ips budget = .ok b ∧ budget.Spent ips.length b := by
  induction ips generalizing budget with
  | nil => exact ⟨budget, rfl, rfl, Nat.le_refl _, rfl⟩
  | cons ip ips ih =>
    rw [List.length_cons] at h
    let one : Budget := { budget with queriesRemaining := budget.queriesRemaining - 1 }
    have hleft : ips.length ≤ one.queriesRemaining := by
      show ips.length ≤ budget.queriesRemaining - 1
      omega
    have hfirst : budget.Spent 1 one := by
      refine ⟨rfl, ?_, rfl⟩
      show budget.queriesRemaining ≤ budget.queriesRemaining - 1 + 1
      omega
    obtain ⟨b, hb, hrest⟩ := ih hleft
    refine ⟨b, ?_, ?_⟩
    · rw [startQueries, Budget.query, if_neg (by omega)]
      exact hb
    · rw [List.length_cons, Nat.add_comm]
      exact hfirst.trans hrest

theorem queryNsSet_replies (hne : ips ≠ []) (hq : nsParallel ≤ budget.queriesRemaining) :
    (inTree T roots cached).Safe () (queryNsSet asked ips q budget) fun _ r =>
      ∃ b, r = .ok (T.answer asked q, b) ∧ budget.Spent nsParallel b := by
  refine safe_perform_bind.mpr ⟨trivial, fun shuffled hperm => ?_⟩
  cases shuffled with
  | nil => exact absurd hperm.symm.eq_nil hne
  | cons ip rest =>
    have htake : (((ip :: rest).take maxNsAttempts).take nsParallel).length ≤ nsParallel :=
      List.length_take_le ..
    obtain ⟨b, hb, hspent⟩ := startQueries_spends (htake.trans hq)
    dsimp only
    rw [hb]
    refine (raceNs_replies (List.cons_ne_nil _ _)).mono fun _ r hr => ⟨b, hr, ?_⟩
    exact ⟨hspent.depth, hspent.queries.trans (Nat.add_le_add_left htake _), hspent.cname⟩

/-! ### Addresses -/

theorem gatherNsIps_glue {glue : Glue} {canSubstep : Bool} {targets needs : List Name} :
    (inTree T roots cached).Safe () (gatherNsIps cfg glue canSubstep targets ips needs) fun _ r =>
      (∀ ip ∈ ips, ip ∈ r.1) ∧ ∀ target ∈ targets, ∀ g,
        glue.find? (fun g => g.1.same target) = some g → ∀ ip ∈ g.2, Usable cfg ip → ip ∈ r.1 := by
  induction targets generalizing ips needs with
  | nil => exact ⟨fun _ h => h, List.forall_mem_nil _⟩
  | cons target targets ih =>
    unfold gatherNsIps
    cases hglue : glue.find? fun g => g.1.same target with
    | some g =>
      refine ih.mono fun _ r hr => ⟨fun ip hip => hr.1 ip (List.mem_append_left _ hip), ?_⟩
      refine List.forall_mem_cons.mpr ⟨fun g' hg' ip hip huse => ?_, hr.2⟩
      rw [hglue] at hg'
      cases hg'
      refine hr.1 ip (List.mem_append_right _ (List.mem_filter.mpr ⟨hip, ?_⟩))
      rw [Bool.or_eq_true]
      exact huse
    | none =>
      refine (safe_trivial _).bind fun _ more _ => ?_
      -- Whatever is added, nothing is lost.
      have hkeep : ∀ {r : List IpAddr}, (∀ t ∈ targets, ∀ g,
          glue.find? (fun g => g.1.same t) = some g → ∀ ip ∈ g.2, Usable cfg ip → ip ∈ r) →
          ∀ t ∈ target :: targets, ∀ g, glue.find? (fun g => g.1.same t) = some g →
            ∀ ip ∈ g.2, Usable cfg ip → ip ∈ r := by
        intro r hr
        refine List.forall_mem_cons.mpr ⟨fun g hg => ?_, hr⟩
        rw [hglue] at hg
        cases hg
      split
      · exact ih.mono fun _ r hr =>
          ⟨fun ip hip => hr.1 ip (List.mem_append_left _ hip), hkeep hr.2⟩
      · split
        · exact ih.mono fun _ r hr => ⟨hr.1, hkeep hr.2⟩
        · exact ih.mono fun _ r hr => ⟨hr.1, hkeep hr.2⟩

theorem sortDedup_ne_nil {ip : IpAddr} (h : ip ∈ ips) : sortDedup ips ≠ [] := by
  intro hnil
  rw [sortDedup, List.destutter_eq_nil] at hnil
  have hmem := (List.mem_insertionSort fun a b => a.le b = true).mpr h
  rw [hnil] at hmem
  nomatch hmem

theorem resolveNsIps_glued (hglued : T.Glued cfg) {newZone : Name} {nsRecords : List Record}
    {glue : Glue} {qclass : DNSClass}
    (hcls : classify (T.answer zone q) q.name q.queryType = .referral newZone nsRecords glue) :
    (inTree T roots cached).Safe () (resolveNsIps cfg walk nsRecords glue qclass budget)
      fun _ ips => ips ≠ [] := by
  obtain ⟨target, htarget, g, hg, ip, hip, huse⟩ := hglued _ _ _ _ _ hcls
  refine gatherNsIps_glue.bind fun _ r hr => ?_
  have hmem : ip ∈ r.1 := hr.2 _ (List.mem_map_of_mem htarget) g hg ip hip huse
  obtain ⟨found, needs⟩ := r
  dsimp only
  split
  · exact sortDedup_ne_nil hmem
  · refine (safe_trivial _).bind fun _ results _ => ?_
    exact sortDedup_ne_nil (List.mem_append_left _ hmem)

/-! ### Down the route -/

theorem walkHops_down (hglued : T.Glued cfg) {hops : Nat} {Q : Unit → WalkResult → Prop}
    (hroute : T.Route q hop.zone cuts zone) (hne : hop.nsIps ≠ [])
    (hq : nsParallel * cuts.length ≤ budget.queriesRemaining)
    (hend : ∀ last b, last.zone = zone → last.nsIps ≠ [] →
      last.chain.cuts = hop.chain.cuts ++ cuts → budget.Spent (nsParallel * cuts.length) b →
      (inTree T roots cached).Safe () (walkHops cfg walk q.name q.queryType q.queryClass hops last b) Q) :
    (inTree T roots cached).Safe ()
      (walkHops cfg walk q.name q.queryType q.queryClass (cuts.length + hops) hop budget) Q := by
  induction cuts generalizing hop budget with
  | nil =>
    cases hroute
    rw [List.length_nil, Nat.zero_add]
    exact hend hop budget rfl hne (List.append_nil _).symm ⟨rfl, Nat.le_refl _, rfl⟩
  | cons cut cuts ih =>
    cases hroute with
    | cons href hrest =>
      obtain ⟨⟨nsRecords, glue, hcls⟩, hds, hguard⟩ := href
      rw [List.length_cons, Nat.mul_succ] at hq
      rw [List.length_cons, Nat.add_right_comm]
      refine (queryNsSet_replies hne (by omega)).bind fun _ result hres => ?_
      obtain ⟨b, rfl, hspent⟩ := hres
      have hcls' : classify (T.answer hop.zone q) q.name q.queryType =
        .referral cut.zone nsRecords glue := hcls
      dsimp only
      rw [hcls']
      dsimp only
      rw [if_neg (by rw [hguard]; decide)]
      refine (safe_trivial _).bind fun _ _ _ => ?_
      refine (safe_trivial _).bind fun _ _ _ => ?_
      refine (resolveNsIps_glued hglued hcls').bind fun _ nsIps hnsIps => ?_
      rw [if_neg (by rwa [List.isEmpty_iff])]
      have hleft := hspent.queries
      refine ih hrest hnsIps (by omega) fun last b' hzone hips hchain hspent' => ?_
      refine hend last b' hzone hips ?_ ?_
      · rw [hchain, WalkChain.cuts, List.map_append, List.append_assoc]
        congr 1
        show [Cut.mk cut.zone (extractDsAndRrsig (T.answer hop.zone q) cut.zone).1] ++ cuts = cut :: cuts
        rw [List.singleton_append, show (extractDsAndRrsig (T.answer hop.zone q) cut.zone).1 =
          cut.ds from hds.symm]
      · rw [List.length_cons, Nat.mul_succ, Nat.add_comm]
        exact hspent.trans hspent'

theorem walkHops_done {hops : Nat} (hne : hop.nsIps ≠ [])
    (hq : nsParallel ≤ budget.queriesRemaining)
    (hterm : (classify (T.answer hop.zone q) q.name q.queryType).terminal = true) :
    (inTree T roots cached).Safe ()
      (walkHops cfg walk q.name q.queryType q.queryClass (hops + 1) hop budget) fun _ r =>
      ∃ b, r = .ok (T.answer hop.zone q, hop.chain, b) := by
  refine (queryNsSet_replies hne hq).bind fun _ result hres => ?_
  obtain ⟨b, rfl, _⟩ := hres
  dsimp only
  cases hcls : classify (T.answer hop.zone q) q.name q.queryType with
  | answer => exact ⟨b, rfl⟩
  | nxDomain => exact ⟨b, rfl⟩
  | empty => exact ⟨b, rfl⟩
  | cname target =>
    rw [hcls] at hterm
    nomatch hterm
  | referral zone nsRecords glue =>
    rw [hcls] at hterm
    nomatch hterm
  | servFail =>
    rw [hcls] at hterm
    nomatch hterm

theorem walkHops_chased {hops : Nat} {target : Name} (sub : Message) (hne : hop.nsIps ≠ [])
    (hq : nsParallel ≤ budget.queriesRemaining) (hcname : 0 < budget.cnameRemaining)
    (hcls : classify (T.answer hop.zone q) q.name q.queryType = .cname target)
    (hwalk : ∀ b : Budget, b.depthRemaining = budget.depthRemaining →
      budget.queriesRemaining ≤ b.queriesRemaining + nsParallel →
      b.cnameRemaining + 1 = budget.cnameRemaining →
      (inTree T roots cached).Safe () (walk target q.queryType q.queryClass b) fun _ r =>
        ∃ chain b', r = .ok (sub, chain, b')) :
    (inTree T roots cached).Safe ()
      (walkHops cfg walk q.name q.queryType q.queryClass (hops + 1) hop budget) fun _ r =>
      ∃ b, r = .ok (stitch (T.answer hop.zone q) sub, hop.chain, b) := by
  refine (queryNsSet_replies hne hq).bind fun _ result hres => ?_
  obtain ⟨b, rfl, hspent⟩ := hres
  have hleft : b.cnameRemaining ≠ 0 := by
    rw [hspent.cname]
    omega
  dsimp only
  rw [hcls, Budget.cname, if_neg hleft]
  refine (hwalk { b with cnameRemaining := b.cnameRemaining - 1 } hspent.depth hspent.queries
    ?_).bind fun _ chased hchased => ?_
  · show b.cnameRemaining - 1 + 1 = budget.cnameRemaining
    have hsame := hspent.cname
    omega
  · obtain ⟨chain, b', rfl⟩ := hchased
    exact ⟨b', rfl⟩

/-! ### The whole walk -/

theorem walkStart_onRoute (hon : cfg.dnssecOk = true) (hcached : T.Caches cached)
    (hroots : roots ≠ []) :
    (inTree T roots cached).Safe () (walkStart cfg q.name q.queryClass) fun _ hop =>
      T.Route q Name.root hop.chain.cuts hop.zone ∧ hop.nsIps ≠ [] := by
  have hstart : (inTree T roots cached).Safe () (walkStart cfg q.name q.queryClass) fun _ hop =>
      StartedAt (treeAnswers T roots cached) cfg q hop := walkStart_safe fun _ _ => trivial
  have hservers : (inTree T roots cached).Safe () (walkStart cfg q.name q.queryClass) fun _ hop =>
      hop.nsIps ≠ [] := by
    unfold walkStart cachedStart
    rw [if_pos hon]
    have hcachedStart : (inTree T roots cached).Safe () (cachedDelegationStart q.name) fun _ r =>
        ∀ hop, r = some hop → hop.nsIps ≠ [] := by
      refine (safe_trivial _).bind fun _ steps _ => ?_
      split
      · exact fun _ h => nomatch h
      split
      · exact fun _ h => nomatch h
      · rename_i last _ hne
        rintro hop ⟨⟩
        exact fun hnil => hne (List.isEmpty_iff.mpr hnil)
    refine hcachedStart.bind fun _ found hfound => ?_
    cases found with
    | some hop => exact hfound hop rfl
    | none =>
      refine ⟨trivial, fun ips hips => ?_⟩
      rw [hips]
      exact hroots
  refine (hstart.and_plain (fun _ _ _ h => h) hservers).mono fun _ hop h => ⟨?_, h.2⟩
  exact onRoute_start (custody_of_treeAnswers hcached) h.1 hon

end

section

variable {T : Tree} {cfg : IterConfig} {roots : List IpAddr} {cached : DelegationCache} {q : Query}
  {cuts : List Cut} {msg : Message} {nest : Nat} {budget : Budget}

theorem walk_down (hon : cfg.dnssecOk = true) (hglued : T.Glued cfg) (hcached : T.Caches cached)
    (hroots : roots ≠ []) {zone : Name} (hroute : T.Route q Name.root cuts zone)
    (hstuck : ∀ cut, ¬ T.Refers q zone cut) (hdepth : 0 < budget.depthRemaining)
    (hq : nsParallel * (cuts.length + 1) ≤ budget.queriesRemaining)
    {Q : Unit → WalkResult → Prop}
    (hend : ∀ hops last (b : Budget), last.zone = zone → last.nsIps ≠ [] →
      last.chain.cuts = cuts → b.depthRemaining + 1 = budget.depthRemaining →
      budget.queriesRemaining ≤ b.queriesRemaining + nsParallel * cuts.length →
      b.cnameRemaining = budget.cnameRemaining →
      (inTree T roots cached).Safe ()
        (walkHops cfg (walk cfg nest) q.name q.queryType q.queryClass (hops + 1) last b) Q) :
    (inTree T roots cached).Safe () (walk cfg (nest + 1) q.name q.queryType q.queryClass budget) Q := by
  unfold walk
  rw [Budget.referral, if_neg (by omega)]
  refine (walkStart_onRoute hon hcached hroots).bind fun _ hop hhop => ?_
  obtain ⟨rest, rfl, hrest⟩ := hhop.1.rest hroute hstuck
  -- Each referral still to follow, and the answer, cost two queries at most.
  have hlen : nsParallel * rest.length ≤ nsParallel * (hop.chain.cuts ++ rest).length := by
    rw [List.length_append]
    exact Nat.mul_le_mul_left _ (Nat.le_add_left ..)
  rw [Nat.mul_succ] at hq
  have hhops : budget.queriesRemaining + 1 = rest.length + (budget.queriesRemaining - rest.length + 1) := by
    have htwo : nsParallel * rest.length = 2 * rest.length := rfl
    omega
  show (inTree T roots cached).Safe () (walkHops cfg (walk cfg nest) q.name q.queryType q.queryClass
    (budget.queriesRemaining + 1) hop _) Q
  rw [hhops]
  refine walkHops_down hglued hrest hhop.2 ?_ fun last b hzone hips hchain hspent => ?_
  · show nsParallel * rest.length ≤ budget.queriesRemaining
    omega
  · have hdepthLeft : b.depthRemaining = budget.depthRemaining - 1 := hspent.depth
    have hqueries : budget.queriesRemaining ≤ b.queriesRemaining + nsParallel * rest.length :=
      hspent.queries
    refine hend _ last b hzone hips hchain (by omega) (by omega) hspent.cname

/-- **What the tree has, a walk finds.**  With enough of a budget, every walk that validates returns the
answer of the tree and has recorded the delegations above it, from whatever cached delegations it starts. -/
theorem walk_returns (hon : cfg.dnssecOk = true) (hglued : T.Glued cfg) (h : T.Finds q cuts msg) :
    ∃ depth enough, ∀ roots cached nest budget, roots ≠ [] → T.Caches cached → depth ≤ nest →
      budget.Covers enough →
      (inTree T roots cached).Safe () (walk cfg nest q.name q.queryType q.queryClass budget)
        fun _ r => ∃ chain b, r = .ok (msg, chain, b) ∧ chain.cuts = cuts := by
  induction h with
  | @done q cuts zone hroute hterm =>
    refine ⟨1, ⟨1, nsParallel * (cuts.length + 1), 0⟩, ?_⟩
    intro roots cached nest budget hroots hcached hnest hbudget
    obtain ⟨nest, rfl⟩ := Nat.exists_eq_add_of_le' hnest
    refine walk_down hon hglued hcached hroots hroute (Tree.not_refers_of_terminal hterm)
      hbudget.depth hbudget.queries fun hops last b hzone hips hchain _ hqueries _ => ?_
    subst hzone
    have hq : nsParallel * (cuts.length + 1) ≤ budget.queriesRemaining := hbudget.queries
    rw [Nat.mul_succ] at hq
    refine (walkHops_done hips (by omega) hterm).mono fun _ r hr => ?_
    obtain ⟨b', rfl⟩ := hr
    exact ⟨_, b', rfl, hchain⟩
  | @chased q cuts cuts' zone target sub hroute hcls _ ih =>
    obtain ⟨depth, enough, hsub⟩ := ih
    refine ⟨depth + 1, ⟨enough.depthRemaining + 1,
      nsParallel * (cuts.length + 1) + enough.queriesRemaining, enough.cnameRemaining + 1⟩, ?_⟩
    intro roots cached nest budget hroots hcached hnest hbudget
    obtain ⟨hdepth, hq, hcname⟩ := hbudget
    dsimp only at hdepth hq hcname
    obtain ⟨nest, rfl⟩ := Nat.exists_eq_add_of_le' ((Nat.le_add_left 1 depth).trans hnest)
    refine walk_down hon hglued hcached hroots hroute (Tree.not_refers_of_cname hcls)
      (by omega) (by omega) fun hops last b hzone hips hchain hdepth' hq' hcname' => ?_
    subst hzone
    rw [Nat.mul_succ] at hq
    refine (walkHops_chased sub hips (by omega) (by omega) hcls
      fun b' hdepth'' hq'' hcname'' => ?_).mono fun _ r hr => ?_
    · refine (hsub roots cached nest b' hroots hcached (by omega)
        ⟨by omega, by omega, by omega⟩).mono fun _ r hr => ?_
      obtain ⟨chain, b'', rfl, _⟩ := hr
      exact ⟨chain, b'', rfl⟩
    · obtain ⟨b', rfl⟩ := hr
      exact ⟨_, b', rfl, hchain⟩

end

end Dnsd.Recursor
