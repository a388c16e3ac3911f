/-
# Amplification — how many upstream queries one resolution can cause.

A walk for the address of a server without glue gets a query budget of its own, and so do the walks it starts
in turn.  The queries are bounded where every such address is easier to find than the name that led to it
(`Ranked`, `amplification_bounded`); otherwise there is no bound (`amplification_unbounded`).
-/
import Mathlib.Algebra.BigOperators.Ring.List
import Mathlib.Algebra.Ring.Nat
import Dnsd.Lib.Spending
import Dnsd.Recursor.Script
import Dnsd.Recursor.WalkSpec

namespace Dnsd.Recursor

open Proto Lib Contract List

variable {ι : Type} {t : Prog.Trace Op.Res}

def Op.queryCount : Op → Nat
  | .query _ _ _ => 1
  | _ => 0

def upstreamQueries (t : Prog.Trace Op.Res) : Nat := t.cost Op.queryCount

def Op.price (o : Op) : Nat := nsParallel * o.queryCount

/-- Names are ranked: a CNAME leads to a name of no higher rank, and a referral has at most `fanout`
servers without glue, all of lower rank than the name in question. -/
structure Ranked (N : Net ι) (rank : Name → Nat) (fanout : Nat) : Prop where
  cname : ∀ asked ip q m target, N.reply asked ip q (.parsed m) →
    classify m.lowercaseResponseNames q.name q.queryType = .cname target →
    rank target ≤ rank q.name
  few : ∀ asked ip q m zone nsRecords glue, N.reply asked ip q (.parsed m) →
    classify m.lowercaseResponseNames q.name q.queryType = .referral zone nsRecords glue →
    (glueless nsRecords glue).length ≤ fanout
  lower : ∀ asked ip q m zone nsRecords glue, N.reply asked ip q (.parsed m) →
    classify m.lowercaseResponseNames q.name q.queryType = .referral zone nsRecords glue →
    ∀ target ∈ glueless nsRecords glue, rank target < rank q.name

/-- What one walk for a server's address can cost, for a server of a rank below the given one. -/
def subCost (fanout : Nat) : Nat → Nat
  | 0 => 0
  | d + 1 => 24 * (nsParallel + fanout * subCost fanout d)

/-- What one query of the budget can cost in a walk for a name of the given rank: the query, and the walks
that a referral in reply to it starts. -/
def queryRate (fanout rank : Nat) : Nat := nsParallel + fanout * subCost fanout rank

section

variable {N : Net ι} {asked : Name} {q : Query} {b b' budget : Budget} {extra left : Nat}
  {ips : List IpAddr}

/-! ## One hop -/

theorem pay_query {k n : Nat} (h : (k + 1) * (nsParallel + extra) ≤ n) :
    nsParallel ≤ n ∧ k * (nsParallel + extra) + extra ≤ n - nsParallel := by
  rw [Nat.succ_mul] at h
  omega

theorem Budget.query_eq_ok (h : b.query = .ok b') : b'.queriesRemaining + 1 = b.queriesRemaining := by
  unfold Budget.query at h
  split at h
  · nomatch h
  · cases h
    show b.queriesRemaining - 1 + 1 = b.queriesRemaining
    omega

theorem startQueries_eq_ok (h : startQueries ips b = .ok b') :
    ips.length + b'.queriesRemaining = b.queriesRemaining := by
  induction ips generalizing b with
  | nil =>
    cases h
    exact Nat.zero_add _
  | cons ip ips ih =>
    unfold startQueries at h
    split at h
    · nomatch h
    rename_i b₁ hq
    have hone := Budget.query_eq_ok hq
    have hrest := ih h
    rw [length_cons]
    omega

def Leaves (extra : Nat) (left : Nat) (r : Except WalkError (Message × Budget)) : Prop :=
  ∀ resp b, r = .ok (resp, b) → b.queriesRemaining * (nsParallel + extra) + extra ≤ left

theorem leaves_error {e : WalkError} : Leaves extra left (.error e) :=
  fun _ _ h => nomatch h

theorem raceNs_spends (extra : Nat) {n : Nat} {inFlight waiting : List IpAddr}
    (h : (inFlight.length + budget.queriesRemaining) * (nsParallel + extra) ≤ left) :
    (spending Op.price (anyProcess N)).Safe left (raceNs asked q n inFlight waiting budget)
      (Leaves extra) := by
  induction n generalizing left inFlight waiting budget with
  | zero => exact leaves_error
  | succ n ih =>
    have hfree : (Op.pick inFlight.length).price = 0 := rfl
    refine (safe_free_bind hfree).mpr fun choice _ => ?_
    cases hip : inFlight[choice % inFlight.length]? with
    | none => exact leaves_error
    | some ip =>
      obtain ⟨hlt, _⟩ := List.getElem?_eq_some_iff.mp hip
      have hshort : (inFlight.eraseIdx (choice % inFlight.length)).length + 1 = inFlight.length := by
        rw [length_eraseIdx_of_lt hlt]
        omega
      have hunits : inFlight.length - 1 + budget.queriesRemaining + 1 =
          inFlight.length + budget.queriesRemaining := by omega
      rw [← hunits] at h
      obtain ⟨hpay, hleft⟩ := pay_query h
      have hmul : budget.queriesRemaining * (nsParallel + extra) ≤
          (inFlight.length - 1 + budget.queriesRemaining) * (nsParallel + extra) :=
        Nat.mul_le_mul_right _ (Nat.le_add_left ..)
      refine ⟨hpay, fun reply _ => ?_⟩
      cases reply with
      | parsed m =>
        rintro resp b ⟨⟩
        show budget.queriesRemaining * (nsParallel + extra) + extra ≤ left - nsParallel
        omega
      | _ =>
        -- Without a parsed reply the next server joins, if there is one.
        cases waiting with
        | nil =>
          refine ih ?_
          have hunits : (inFlight.eraseIdx (choice % inFlight.length)).length =
            inFlight.length - 1 := by omega
          rw [hunits]
          show _ ≤ left - nsParallel
          omega
        | cons next waiting =>
          cases hq : budget.query with
          | error e => exact leaves_error
          | ok b =>
            refine ih ?_
            have hone := Budget.query_eq_ok hq
            have hunits : (inFlight.eraseIdx (choice % inFlight.length) ++ [next]).length +
                b.queriesRemaining = inFlight.length - 1 + budget.queriesRemaining := by
              rw [length_append, length_singleton]
              omega
            rw [hunits]
            show _ ≤ left - nsParallel
            omega

theorem queryNsSet_spends (extra : Nat) (h : budget.queriesRemaining * (nsParallel + extra) ≤ left) :
    (spending Op.price (anyProcess N)).Safe left (queryNsSet asked ips q budget) (Leaves extra) := by
  have hfree : (Op.shuffle ips).price = 0 := rfl
  refine (safe_free_bind hfree).mpr fun shuffled _ => ?_
  dsimp only
  cases hstart : startQueries ((shuffled.take maxNsAttempts).take nsParallel) budget with
  | error e => exact leaves_error
  | ok b =>
    refine raceNs_spends extra ?_
    rwa [startQueries_eq_ok hstart]

/-! ## Servers without glue -/

variable {cfg : IterConfig} {qname : Name} {qtype : RecordType} {qclass : DNSClass}
  {rank : Name → Nat} {fanout : Nat}

theorem Op.price_of_localRead {o : Op} (h : o.localRead = true) : o.price = 0 := by
  cases o <;> first | rfl | nomatch h

theorem resolveNsIps_spends {walk : Walker} {nsRecords : List Record} {glue : Glue} {cost : Nat}
    (hfew : (glueless nsRecords glue).length ≤ fanout)
    (hwalk : ∀ target ∈ glueless nsRecords glue, Affords Op.price (anyProcess N) cost (walk target .A qclass ⟨8, 24, 4⟩))
    (left : Nat) :
    (spending Op.price (anyProcess N)).Safe (fanout * cost + left)
      (resolveNsIps cfg walk nsRecords glue qclass budget) fun rest _ => left ≤ rest := by
  have hgather : (Contract.plain (fun o => o.price = 0) (anyProcess N)).Safe ()
      (gatherNsIps cfg glue budget.canSubstep ((nsRecords.filterMap nsTarget?).map Name.toLowercase)
        [] []) fun _ r => (∀ ip ∈ r.1, Usable cfg ip) ∧ r.2.Sublist ([] ++ glueless nsRecords glue) :=
    gatherNsIps_safe (fun _ => Op.price_of_localRead) (forall_mem_nil _)
  refine (hgather.gratis _).bind ?_
  rintro _ ⟨ips, needs⟩ ⟨rfl, _, hneeds⟩
  dsimp only
  split
  · exact Nat.le_add_left ..
  have hsub : ∀ p ∈ needs.map fun target => timeout (walk target .A qclass ⟨8, 24, 4⟩),
      Affords Op.price (anyProcess N) cost p := by
    intro p hp
    obtain ⟨target, htarget, rfl⟩ := mem_map.mp hp
    exact (hwalk target (hneeds.subset htarget)).cancellable rfl
  have hall : Affords Op.price (anyProcess N) (needs.length * cost)
      (joinAll (needs.map fun target => timeout (walk target .A qclass ⟨8, 24, 4⟩))) := by
    have hturn : Op.price .turn = 0 := rfl
    rw [← length_map (fun target => timeout (walk target .A qclass ⟨8, 24, 4⟩))]
    exact Affords.parAll hturn hsub
  have hle : needs.length * cost ≤ fanout * cost := Nat.mul_le_mul_right _ (hneeds.length_le.trans hfew)
  refine ((hall.mono hle).aside left).bind ?_
  rintro _ results ⟨k, rfl, _⟩
  exact Nat.le_add_left ..

/-! ## The walk -/

theorem Budget.cname_eq_ok (h : b.cname = .ok b') : b'.queriesRemaining = b.queriesRemaining := by
  unfold Budget.cname at h
  split at h
  · nomatch h
  · cases h
    rfl

theorem Budget.referral_eq_ok (h : b.referral = .ok b') : b'.queriesRemaining = b.queriesRemaining := by
  unfold Budget.referral at h
  split at h
  · nomatch h
  · cases h
    rfl

theorem walkHops_affords (hN : Ranked N rank fanout) {walk : Walker} {cost : Nat}
    (hchase : ∀ target b, rank target ≤ rank qname → Affords Op.price (anyProcess N) (b.queriesRemaining * (nsParallel + fanout * cost)) (walk target qtype qclass b))
    (hsub : ∀ target, rank target < rank qname → Affords Op.price (anyProcess N) cost (walk target .A qclass ⟨8, 24, 4⟩))
    {hops : Nat} {hop : Hop} (h : budget.queriesRemaining * (nsParallel + fanout * cost) ≤ left) :
    Affords Op.price (anyProcess N) left (walkHops cfg walk qname qtype qclass hops hop budget) := by
  induction hops generalizing left hop budget with
  | zero => trivial
  | succ hops ih =>
    have hasked : (Contract.plain (fun _ => True) (anyProcess N)).Safe ()
        (queryNsSet hop.zone hop.nsIps ⟨qname, qtype, qclass⟩ budget) fun _ r =>
        Asked (anyProcess N) hop.zone ⟨qname, qtype, qclass⟩ r :=
      queryNsSet_safe (fun _ _ => trivial) fun _ _ => trivial
    refine ((queryNsSet_spends (fanout * cost) h).and_plain (fun _ _ _ hr => hr) hasked).bind
      fun rest result hres => ?_
    match result, hres with
    | .error e, _ => trivial
    | .ok (resp, b), ⟨hleaves, hasked⟩ =>
      obtain ⟨ip, m, hm, rfl⟩ := hasked resp b rfl
      have hrest := hleaves _ b rfl
      dsimp only
      cases hcls : classify m.lowercaseResponseNames qname qtype with
      | answer => trivial
      | nxDomain => trivial
      | empty => trivial
      | servFail => trivial
      | cname target =>
        cases hb : b.cname with
        | error e => trivial
        | ok b' =>
          have hchased := hchase target b' (hN.cname _ _ _ _ _ hm hcls)
          rw [Budget.cname_eq_ok hb] at hchased
          refine (hchased.mono (by omega)).bind fun _ chased _ => ?_
          cases chased <;> trivial
      | referral zone nsRecords glue =>
        dsimp only
        split
        · trivial
        have hglue : (Contract.plain (fun o => o.price = 0) (anyProcess N)).Safe ()
            (cacheGlue hop.zone glue) fun _ _ => True := cacheGlue_safe fun _ _ _ _ _ => rfl
        have hzone : (Contract.plain (fun o => o.price = 0) (anyProcess N)).Safe ()
            (cacheZoneNs hop.zone zone nsRecords) fun _ _ => True :=
          cacheZoneNs_safe fun _ _ => rfl
        obtain ⟨spare, rfl⟩ := Nat.exists_eq_add_of_le hrest
        refine (hglue.gratis _).bind fun _ _ hkept => ?_
        rw [hkept.1]
        refine (hzone.gratis _).bind fun _ _ hkept => ?_
        rw [hkept.1]
        have hsplit : b.queriesRemaining * (nsParallel + fanout * cost) + fanout * cost +
            spare = fanout * cost + (b.queriesRemaining * (nsParallel + fanout * cost) + spare) := by omega
        rw [hsplit]
        refine (resolveNsIps_spends (hN.few _ _ _ _ _ _ _ hm hcls) (fun target ht =>
          hsub target (hN.lower _ _ _ _ _ _ _ hm hcls target ht)) _).bind
          fun rest nsIps hnext => ?_
        split
        · trivial
        · exact ih (Nat.le_of_add_right_le hnext)

/-- **A walk affords itself**, at any depth of nesting: each query of its budget costs at most the rate of
the rank. -/
theorem walk_affords (hN : Ranked N rank fanout) (nest : Nat) {d : Nat} (hd : rank qname ≤ d)
    (budget : Budget) :
    Affords Op.price (anyProcess N) (budget.queriesRemaining * queryRate fanout d)
      (walk cfg nest qname qtype qclass budget) := by
  induction nest generalizing qname qtype qclass d budget with
  | zero => trivial
  | succ nest ih =>
    unfold walk
    cases hb : budget.referral with
    | error e => trivial
    | ok b =>
      have hstart : (Contract.plain (fun o => o.price = 0) (anyProcess N)).Safe ()
          (walkStart cfg qname qclass) fun _ hop =>
          StartedAt (anyProcess N) cfg ⟨qname, qtype, qclass⟩ hop :=
        walkStart_safe (q := ⟨qname, qtype, qclass⟩) fun _ => Op.price_of_localRead
      refine (hstart.gratis _).bind fun _ hop hkept => ?_
      rw [hkept.1, ← Budget.referral_eq_ok hb]
      refine walkHops_affords hN (fun target b' hle => ih (hle.trans hd) b') ?_ (Nat.le_refl _)
      -- A server without glue has a lower rank, so its walk costs what the rank below allows.
      intro target hlt
      cases d with
      | zero => omega
      | succ d => exact ih (by omega) ⟨8, 24, 4⟩

end

/-! ## Servers with glue -/

def defaultLimits : IterConfig := { dnssecOk := true }

def gluedScript : Script where
  reply _ ip _ := .parsed (honestServer ip)

theorem gluedScript_ranked : Ranked (gluedScript.net rootAnchors : Net Unit) (fun _ => 0) 0 := by
  -- A referral is the one of the root server.
  have href : ∀ asked ip (q : Query) m zone nsRecords glue,
      (gluedScript.net rootAnchors : Net Unit).reply asked ip q (.parsed m) →
      classify m.lowercaseResponseNames q.name q.queryType = .referral zone nsRecords glue →
      glueless nsRecords glue = [] := by
    intro asked ip q m zone nsRecords glue hm hcls
    cases hm
    obtain ⟨⟨r, hr, _⟩, rfl, rfl⟩ := classify_eq_referral hcls
    unfold honestServer at hr ⊢
    split at hr
    · rw [if_pos (by assumption)]
      decide
    · nomatch hr
  refine ⟨fun _ _ _ _ _ _ _ => Nat.le_refl 0, ?_, ?_⟩
  · intro asked ip q m zone nsRecords glue hm hcls
    rw [href asked ip q m zone nsRecords glue hm hcls]
    exact Nat.le_refl 0
  · intro asked ip q m zone nsRecords glue hm hcls target ht
    rw [href asked ip q m zone nsRecords glue hm hcls] at ht
    nomatch ht

def circularScript : Script where
  reply _ _ _ := .parsed { authorities := [sampleRecord childZone (.ns serverName)] }

abbrev circular : (o : Op) → o.Res → Prop := anyProcess (circularScript.net rootAnchors : Net Unit)

theorem resolveNsIps_circular {w : Walker} {d n c : Nat}
    (hsub : (w serverName .A .IN ⟨8, 24, 4⟩).Runs circular t none) :
    ∃ t', (resolveNsIps defaultLimits w [sampleRecord childZone (.ns serverName)] [] .IN
        ⟨d + 1, n + 1, c⟩).Runs circular t' none ∧
      upstreamQueries t' = upstreamQueries t := by
  have hcalm : circular .struck false := trivial
  have hprice : Op.queryCount .struck = 0 := rfl
  obtain ⟨t₁, ht₁, hcost⟩ : ∃ t₁, (timeout (w serverName .A .IN ⟨8, 24, 4⟩)).Runs circular t₁ none ∧
      t₁.cost Op.queryCount = t.cost Op.queryCount := hsub.cancellable hcalm rfl hprice
  -- Neither cache has an address of the server.
  have hgather : (gatherNsIps defaultLimits [] true [serverName] [] []).Runs circular
      [⟨.cacheGet (CacheKey.of serverName .A .IN), none⟩,
        ⟨.cacheGet (CacheKey.of serverName .AAAA .IN), none⟩] (some ([], [serverName])) := by
    refine Prog.runs_op.mpr ⟨none, _, rfl, trivial, ?_⟩
    exact Prog.runs_op.mpr ⟨none, _, rfl, trivial, .ret _⟩
  refine ⟨_, hgather.bind ht₁.parAll_single.bind_none, ?_⟩
  rw [upstreamQueries, Prog.Trace.cost_append, hcost]
  exact Nat.zero_add _

theorem walkHops_circular {w : Walker} {name : Name} {hops d n c : Nat}
    (hsub : (w serverName .A .IN ⟨8, 24, 4⟩).Runs circular t none) :
    ∃ t', (walkHops defaultLimits w name .A .IN (hops + 1) ⟨Name.root, [.v4 1], ⟨[]⟩⟩
        ⟨d + 1, n + 2, c⟩).Runs circular t' none ∧
      upstreamQueries t' = upstreamQueries t + 1 := by
  obtain ⟨t₁, ht₁, hcost⟩ := resolveNsIps_circular (d := d) (n := n) (c := c) hsub
  refine ⟨_, .op [.v4 1] trivial (.op (0 : Nat) trivial (.op _ rfl (.op () trivial ht₁.bind_none))), ?_⟩
  rw [← hcost]
  simp only [upstreamQueries, Prog.Trace.cost_cons, Op.queryCount]
  omega

theorem walk_circular (nest : Nat) :
    ∃ t, (walk defaultLimits nest serverName .A .IN ⟨8, 24, 4⟩).Runs circular t none ∧
      upstreamQueries t = nest := by
  induction nest with
  | zero => exact ⟨[], .stop _, rfl⟩
  | succ nest ih =>
    obtain ⟨t, ht, hcount⟩ := ih
    obtain ⟨t', ht', hmore⟩ := walkHops_circular ht
    have hstart : (walkStart defaultLimits serverName .IN).Runs circular
        [⟨.readRoots, [.v4 1]⟩] (some ⟨Name.root, [.v4 1], ⟨[]⟩⟩) :=
      Prog.runs_op.mpr ⟨[IpAddr.v4 1], _, rfl, trivial, .ret _⟩
    refine ⟨_, hstart.bind ht', ?_⟩
    rw [upstreamQueries, Prog.Trace.cost_append, ← hcount]
    exact (Nat.zero_add _).trans hmore

end Dnsd.Recursor
