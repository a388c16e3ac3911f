/-
# WalkTermination — a walk comes to an end within its limits.

Every attempt started takes a query from the budget, every CNAME followed one of the continuations, and nothing is
given back (`Balanced`).
-/
import Dnsd.Lib.History
import Dnsd.Recursor.Attempts
import Dnsd.Recursor.WalkSpec

namespace Dnsd.Recursor

open Proto Lib List

variable {k : Nat} {m : Message} {qname : Name} {received : List Message}

/-! ## Runs of a walk -/

/-- The answers a walk has to reckon with: any, except that an attempt that completes is one in flight. -/
def attemptAnswers : (o : AttemptOp) → o.Res → Prop
  | .next _ _ inFlight, none => inFlight = []
  | .next _ _ inFlight, some (i, _) => i < inFlight.length
  | _, _ => True

theorem attemptAnswers_total (o : AttemptOp) : ∃ r, attemptAnswers o r := by
  cases o with
  | base o =>
    obtain ⟨r⟩ := o.nonempty_res
    exact ⟨r, trivial⟩
  | start asked q a => exact ⟨(), trivial⟩
  | next asked q inFlight =>
    cases inFlight with
    | nil => exact ⟨none, rfl⟩
    | cons a as => exact ⟨some (0, .failed), Nat.zero_lt_succ _⟩
  | lookup nest nsRecords glue qclass budget => exact ⟨[], trivial⟩
  | follow target => exact ⟨(), trivial⟩

structure Spent where
  starts : Nat := 0
  follows : Nat := 0
  received : List Message := []
  deriving DecidableEq, Repr

def Spent.step (g : Spent) : (o : AttemptOp) → o.Res → Spent
  | .start _ _ _, _ => { g with starts := g.starts + 1 }
  | .follow _, _ => { g with follows := g.follows + 1 }
  | .next _ _ _, some (_, .parsed m) => { g with received := g.received ++ [m] }
  | _, _ => g

def spent (t : Prog.Trace AttemptOp.Res) : Spent := t.foldl (fun g x => g.step x.1 x.2) {}

/-! ## What a walk returns -/

/-- The message is put together from responses: all but the last lead on to another name, and the last one
ends the chase. -/
inductive Assembled (qtype : RecordType) : Name → List Message → Message → Prop
  | done {qname : Name} {m : Message} : (classify m qname qtype).terminal = true → Assembled qtype qname [m] m
  | cname {qname target : Name} {resp sub : Message} {rs : List Message} :
      classify resp qname qtype = .cname target → Assembled qtype target rs sub →
      Assembled qtype qname (resp :: rs) (stitch resp sub)

/-- A message for the name, from the responses received while `k` CNAMEs were followed. -/
def Complete (qtype : RecordType) (qname : Name) (received : List Message) (k : Nat) (m : Message) : Prop :=
  ∃ rs, Assembled qtype qname rs m ∧ rs.Sublist received ∧ rs.getLast? = received.getLast? ∧ rs.length = k + 1

def Honest (b : Budget) : WalkError → Prop
  | .depthExceeded => b.depthRemaining = 0
  | .queryBudgetExceeded => b.queriesRemaining = 0
  | .cnameDepthExceeded => b.cnameRemaining = 0
  | .abandoned => False
  | _ => True

theorem complete_done {qtype : RecordType} (h : (classify m qname qtype).terminal = true) :
    Complete qtype qname [m] 0 m :=
  ⟨[m], .done h, List.Sublist.refl _, rfl, rfl⟩

theorem Complete.getLast?_cons {qtype : RecordType} (h : Complete qtype qname received k m)
    (resp : Message) : (resp :: received).getLast? = received.getLast? := by
  obtain ⟨rs, -, -, hlast, hlen⟩ := h
  cases received with
  | nil =>
    cases rs with
    | nil => nomatch hlen
    | cons r rs => nomatch hlast
  | cons r received => rfl

theorem Complete.after {qtype : RecordType} (h : Complete qtype qname received k m) (resp : Message) :
    Complete qtype qname (resp :: received) k m := by
  have hcons := h.getLast?_cons resp
  obtain ⟨rs, hmade, hsub, hlast, hlen⟩ := h
  exact ⟨rs, hmade, hsub.cons resp, hlast.trans hcons.symm, hlen⟩

theorem Complete.stitched {qtype : RecordType} {target : Name} {resp sub : Message}
    (hclass : classify resp qname qtype = .cname target) (h : Complete qtype target received k sub) :
    Complete qtype qname (resp :: received) (k + 1) (stitch resp sub) := by
  have hcons := h.getLast?_cons resp
  obtain ⟨rs, hmade, hsub, hlast, hlen⟩ := h
  refine ⟨resp :: rs, .cname hclass hmade, hsub.cons_cons resp, ?_, ?_⟩
  · rw [hcons, ← hlast]
    cases rs with
    | nil => nomatch hlen
    | cons r rs => rfl
  · rw [length_cons, hlen]

/-! ## Paying -/

theorem Budget.query_cases (b : Budget) :
    (b.query = .error .queryBudgetExceeded ∧ b.queriesRemaining = 0) ∨
      ∃ b', b.query = .ok b' ∧ b'.queriesRemaining + 1 = b.queriesRemaining ∧
        b'.cnameRemaining = b.cnameRemaining := by
  unfold Budget.query
  split
  · exact .inl ⟨rfl, ‹_›⟩
  · refine .inr ⟨_, rfl, ?_, rfl⟩
    show b.queriesRemaining - 1 + 1 = b.queriesRemaining
    omega

theorem Budget.cname_cases (b : Budget) :
    (b.cname = .error .cnameDepthExceeded ∧ b.cnameRemaining = 0) ∨
      ∃ b', b.cname = .ok b' ∧ b'.cnameRemaining + 1 = b.cnameRemaining ∧
        b'.queriesRemaining = b.queriesRemaining := by
  unfold Budget.cname
  split
  · exact .inl ⟨rfl, ‹_›⟩
  · refine .inr ⟨_, rfl, ?_, rfl⟩
    show b.cnameRemaining - 1 + 1 = b.cnameRemaining
    omega

theorem Budget.referral_cases (b : Budget) :
    (b.referral = .error .depthExceeded ∧ b.depthRemaining = 0) ∨
      ∃ b', b.referral = .ok b' ∧ b'.queriesRemaining = b.queriesRemaining ∧
        b'.cnameRemaining = b.cnameRemaining := by
  unfold Budget.referral
  split
  · exact .inl ⟨rfl, ‹_›⟩
  · exact .inr ⟨_, rfl, rfl, rfl⟩

structure Balanced (maxQueries maxCname : Nat) (g : Spent) (b : Budget) : Prop where
  queries : g.starts + b.queriesRemaining = maxQueries
  cnames : g.follows + b.cnameRemaining = maxCname

structure Spent.Within (maxQueries maxCname : Nat) (g : Spent) : Prop where
  starts : g.starts ≤ maxQueries
  follows : g.follows ≤ maxCname

abbrev walkContract (maxQueries maxCname : Nat) : Contract Spent AttemptOp AttemptOp.Res :=
  Contract.monitoring Spent.step attemptAnswers (Spent.Within maxQueries maxCname)

section

variable {Q C : Nat} {g : Spent} {b : Budget} {b' : Budget}

theorem Balanced.within (h : Balanced Q C g b) : g.Within Q C where
  starts := by
    have := h.queries
    omega
  follows := by
    have := h.cnames
    omega

theorem Balanced.start (h : Balanced Q C g b) (hq : b'.queriesRemaining + 1 = b.queriesRemaining)
    (hc : b'.cnameRemaining = b.cnameRemaining) :
    Balanced Q C { g with starts := g.starts + 1 } b' where
  queries := by
    have := h.queries
    dsimp only
    omega
  cnames := by
    have := h.cnames
    dsimp only
    omega

theorem Balanced.follow (h : Balanced Q C g b) (hc : b'.cnameRemaining + 1 = b.cnameRemaining)
    (hq : b'.queriesRemaining = b.queriesRemaining) :
    Balanced Q C { g with follows := g.follows + 1 } b' where
  queries := by
    have := h.queries
    dsimp only
    omega
  cnames := by
    have := h.cnames
    dsimp only
    omega

theorem ofBase_free {α : Type} (hg : g.Within Q C) (p : RProg α) :
    (walkContract Q C).Safe g (AProg.ofBase p) fun g' _ => g' = g := by
  induction p with
  | ret a => rfl
  | op o k ih => exact ⟨fun _ _ => hg, fun r _ => ih r⟩

end

/-! ## One hop -/

structure Queried (Q C : Nat) (g : Spent) (b : Budget) (spare : Nat) (g' : Spent)
    (r : Except WalkError Message × Budget) : Prop where
  balanced : Balanced Q C g' r.2
  follows : g'.follows = g.follows
  honest : ∀ e, r.1 = .error e → Honest r.2 e
  received : ∀ m, r.1 = .ok m → g'.received = g.received ++ [m]
  paid : ∀ m, r.1 = .ok m → r.2.queriesRemaining + spare ≤ b.queriesRemaining

section

variable {Q C : Nat} {g : Spent} {b : Budget} {g' : Spent} {r : Except WalkError Message × Budget}
  {spare : Nat}

theorem queried_error {e : WalkError} {left : Budget} (h : Balanced Q C g' left)
    (hfollows : g'.follows = g.follows) (he : Honest left e) :
    Queried Q C g b spare g' (.error e, left) where
  balanced := h
  follows := hfollows
  honest := by
    intro _ heq
    cases heq
    exact he
  received := by
    intro m hm
    nomatch hm
  paid := by
    intro m hm
    nomatch hm

theorem Queried.after_starts {k : Nat} {g₁ : Spent} {b₁ : Budget} (h : Queried Q C g₁ b₁ spare g' r)
    (hfollows : g₁.follows = g.follows) (hreceived : g₁.received = g.received)
    (hpaid : b₁.queriesRemaining + k = b.queriesRemaining) : Queried Q C g b (spare + k) g' r where
  balanced := h.balanced
  follows := h.follows.trans hfollows
  honest := h.honest
  received := by
    intro m hm
    rw [h.received m hm, hreceived]
  paid := by
    intro m hm
    have := h.paid m hm
    omega

theorem Queried.spare_le {k : Nat} (h : Queried Q C g b spare g' r) (hk : k ≤ spare) :
    Queried Q C g b k g' r :=
  { h with paid := fun m hm => (Nat.add_le_add_left hk _).trans (h.paid m hm) }

theorem raceAttempts_queried (asked : Name) (q : Query) (n : Nat) {inFlight waiting : List Attempt}
    (h : Balanced Q C g b) :
    (walkContract Q C).Safe g (raceAttempts asked q n inFlight waiting b) (Queried Q C g b 0) := by
  induction n generalizing g b inFlight waiting with
  | zero => exact queried_error h rfl trivial
  | succ n ih =>
    refine ⟨fun done _ => ?_, fun done _ => ?_⟩
    · -- What completes changes at most the responses.
      cases done with
      | none => exact h.within
      | some done =>
        obtain ⟨i, reply⟩ := done
        cases reply with
        | parsed m => exact ⟨h.within.starts, h.within.follows⟩
        | _ => exact h.within
    · cases done with
      | none => exact queried_error h rfl trivial
      | some done =>
        obtain ⟨i, reply⟩ := done
        cases reply with
        | parsed m =>
          exact
            { balanced := ⟨h.queries, h.cnames⟩
              follows := rfl
              honest := fun _ he => by cases he
              received := fun _ hm => by
                cases hm
                rfl
              paid := fun _ _ => Nat.le_refl _ }
        | _ =>
          cases waiting with
          | nil => exact ih h
          | cons next waiting =>
            obtain ⟨hquery, hzero⟩ | ⟨b', hquery, hq, hc⟩ := b.query_cases
            · rw [hquery]
              exact queried_error h rfl hzero
            · rw [hquery]
              have hnext := h.start hq hc
              refine ⟨fun _ _ => hnext.within, fun _ _ => (ih hnext).mono fun g' r hr => ?_⟩
              have hall : Queried Q C g b (0 + 1) g' r := hr.after_starts rfl rfl hq
              exact hall.spare_le (Nat.zero_le _)

theorem startAttempts_queried (asked : Name) (q : Query) (as : List Attempt) (h : Balanced Q C g b) :
    (walkContract Q C).Safe g (startAttempts asked q as b) fun g' r =>
      Balanced Q C g' r.2 ∧ g'.follows = g.follows ∧ g'.received = g.received ∧
        (∀ e, r.1 = .error e → Honest r.2 e) ∧
        (r.1 = .ok () → r.2.queriesRemaining + as.length = b.queriesRemaining) := by
  induction as generalizing g b with
  | nil =>
    refine ⟨h, rfl, rfl, fun _ he => ?_, fun _ => rfl⟩
    cases he
  | cons a as ih =>
    unfold startAttempts
    obtain ⟨hquery, hzero⟩ | ⟨b', hquery, hq, hc⟩ := b.query_cases
    · rw [hquery]
      refine ⟨h, rfl, rfl, fun _ he => ?_, fun hok => ?_⟩
      · cases he
        exact hzero
      · cases hok
    · rw [hquery]
      have hnext := h.start hq hc
      refine ⟨fun _ _ => hnext.within, fun _ _ => (ih hnext).mono ?_⟩
      rintro g' r ⟨hbal, hfollows, hreceived, hhonest, hpaid⟩
      refine ⟨hbal, hfollows, hreceived, hhonest, fun hok => ?_⟩
      have := hpaid hok
      rw [length_cons]
      omega

theorem queryAttempts_queried (asked : Name) (nsIps : List IpAddr) (q : Query) (h : Balanced Q C g b) :
    (walkContract Q C).Safe g (queryAttempts asked nsIps q b) (Queried Q C g b 1) := by
  refine Contract.safe_perform_bind.mpr ⟨fun _ _ => h.within, fun shuffled _ => ?_⟩
  generalize attemptsOf (List.take maxNsAttempts shuffled) = order
  refine Contract.Safe.bind (startAttempts_queried asked q (order.take nsParallel) h) ?_
  rintro g' ⟨started, b'⟩ ⟨hbal, hfollows, hreceived, hhonest, hpaid⟩
  cases started with
  | error e => exact queried_error hbal hfollows (hhonest e rfl)
  | ok _ =>
    cases order with
    | nil => exact queried_error hbal hfollows trivial
    | cons a as =>
      refine (raceAttempts_queried asked q _ hbal).mono fun g'' r hr => ?_
      refine (hr.after_starts hfollows hreceived (hpaid rfl)).spare_le ?_
      exact Nat.succ_le_succ (Nat.zero_le _)

end

/-! ## Walks -/

structure WalkEnd (Q C : Nat) (qtype : RecordType) (qname : Name) (g g' : Spent)
    (r : WalkOutcome × Budget) : Prop where
  balanced : Balanced Q C g' r.2
  honest : ∀ e, r.1 = .error e → Honest r.2 e
  complete : ∀ m chain, r.1 = .ok (m, chain) → ∃ new k, g'.received = g.received ++ new ∧
    g'.follows = g.follows + k ∧ Complete qtype qname new k m

section

variable {Q C : Nat} {qtype : RecordType} {qname : Name} {g g' : Spent} {b : Budget}

theorem walkEnd_error {e : WalkError} (h : Balanced Q C g' b) (he : Honest b e) :
    WalkEnd Q C qtype qname g g' (.error e, b) where
  balanced := h
  honest := by
    intro _ heq
    cases heq
    exact he
  complete := by
    intro m chain hm
    nomatch hm

theorem walkEnd_ok {new : List Message} {k : Nat} {m : Message} {chain : WalkChain}
    (h : Balanced Q C g' b) (hreceived : g'.received = g.received ++ new)
    (hfollows : g'.follows = g.follows + k) (hm : Complete qtype qname new k m) :
    WalkEnd Q C qtype qname g g' (.ok (m, chain), b) where
  balanced := h
  honest := by
    intro _ heq
    nomatch heq
  complete := by
    intro _ _ heq
    cases heq
    exact ⟨new, k, hreceived, hfollows, hm⟩

theorem WalkEnd.after {g₁ : Spent} {resp : Message} {r : WalkOutcome × Budget}
    (h : WalkEnd Q C qtype qname g₁ g' r) (hreceived : g₁.received = g.received ++ [resp])
    (hfollows : g₁.follows = g.follows) : WalkEnd Q C qtype qname g g' r where
  balanced := h.balanced
  honest := h.honest
  complete := by
    intro m chain hm
    obtain ⟨new, k, hnew, hk, hcomplete⟩ := h.complete m chain hm
    refine ⟨resp :: new, k, ?_, ?_, hcomplete.after resp⟩
    · rw [hnew, hreceived, append_assoc, singleton_append]
    · rw [hk, hfollows]

theorem hopAttempts_end {nest : Nat}
    {chase : Name → RecordType → DNSClass → Budget → AProg (WalkOutcome × Budget)}
    (hchase : ∀ {g : Spent} {b : Budget} (target : Name) (qtype : RecordType) (qclass : DNSClass),
      Balanced Q C g b → b.cnameRemaining < nest →
      (walkContract Q C).Safe g (chase target qtype qclass b) (WalkEnd Q C qtype target g))
    (qclass : DNSClass) (hops : Nat) (hop : Hop) (h : Balanced Q C g b) (hhops : b.queriesRemaining < hops)
    (hnest : b.cnameRemaining ≤ nest) :
    (walkContract Q C).Safe g (hopAttempts chase nest qname qtype qclass hops hop b)
      (WalkEnd Q C qtype qname g) := by
  induction hops generalizing g b hop with
  | zero => exact absurd hhops (Nat.not_lt_zero _)
  | succ hops ih =>
    refine Contract.Safe.bind (queryAttempts_queried hop.zone hop.nsIps _ h) ?_
    rintro g₁ ⟨result, b₁⟩ hq
    have hbal : Balanced Q C g₁ b₁ := hq.balanced
    have hcname : b₁.cnameRemaining = b.cnameRemaining := by
      have hbefore := h.cnames
      have hafter := hbal.cnames
      rw [hq.follows] at hafter
      omega
    cases result with
    | error e => exact walkEnd_error hbal (hq.honest e rfl)
    | ok resp =>
      have hreceived := hq.received resp rfl
      have hpaid : b₁.queriesRemaining + 1 ≤ b.queriesRemaining := hq.paid resp rfl
      have hfinal : (classify resp qname qtype).terminal = true →
          WalkEnd Q C qtype qname g g₁ (.ok (resp, hop.chain), b₁) := fun hterm =>
        walkEnd_ok (k := 0) hbal hreceived hq.follows (complete_done hterm)
      dsimp only
      cases hclass : classify resp qname qtype with
      | answer => exact hfinal (by rw [hclass]; rfl)
      | nxDomain => exact hfinal (by rw [hclass]; rfl)
      | empty => exact hfinal (by rw [hclass]; rfl)
      | servFail => exact walkEnd_error hbal trivial
      | cname target =>
        obtain ⟨hspent, hzero⟩ | ⟨b₂, hspent, hc, hqueries⟩ := b₁.cname_cases
        · rw [hspent]
          exact walkEnd_error hbal hzero
        · rw [hspent]
          have hfollow := hbal.follow hc hqueries
          refine Contract.safe_perform_bind.mpr ⟨fun _ _ => hfollow.within, fun _ _ => ?_⟩
          refine Contract.Safe.bind (hchase target qtype qclass hfollow (by omega)) ?_
          rintro g₂ ⟨chased, b₃⟩ hsub
          cases chased with
          | error e => exact walkEnd_error hsub.balanced (hsub.honest e rfl)
          | ok sub =>
            obtain ⟨sub, chain⟩ := sub
            obtain ⟨new, k, hnew, hk, hcomplete⟩ := hsub.complete sub chain rfl
            refine walkEnd_ok hsub.balanced ?_ ?_ (hcomplete.stitched hclass)
            · rw [hnew]
              show g₁.received ++ new = _
              rw [hreceived, append_assoc, singleton_append]
            · rw [hk]
              show g₁.follows + 1 + k = _
              rw [hq.follows]
              omega
      | referral newZone nsRecords glue =>
        dsimp only
        split
        · exact walkEnd_error hbal trivial
        refine Contract.Safe.bind (ofBase_free hbal.within _) ?_
        rintro _ _ rfl
        refine Contract.Safe.bind (ofBase_free hbal.within _) ?_
        rintro _ _ rfl
        refine Contract.safe_perform_bind.mpr ⟨fun _ _ => hbal.within, fun nsIps _ => ?_⟩
        split
        · exact walkEnd_error hbal trivial
        · refine (ih _ hbal (by omega) (by omega)).mono fun g₂ r hr => ?_
          exact hr.after hreceived hq.follows

theorem walkAttempts_end (cfg : IterConfig) (nest : Nat) (qname : Name) (qtype : RecordType)
    (qclass : DNSClass) (h : Balanced Q C g b) (hnest : b.cnameRemaining < nest) :
    (walkContract Q C).Safe g (walkAttempts cfg nest qname qtype qclass b) (WalkEnd Q C qtype qname g) := by
  induction nest generalizing g b qname qtype qclass with
  | zero => exact absurd hnest (Nat.not_lt_zero _)
  | succ nest ih =>
    unfold walkAttempts
    obtain ⟨hreferral, hzero⟩ | ⟨b₁, hreferral, hq, hc⟩ := b.referral_cases
    · rw [hreferral]
      exact walkEnd_error h hzero
    · rw [hreferral]
      have hbal : Balanced Q C g b₁ := ⟨hq ▸ h.queries, hc ▸ h.cnames⟩
      refine Contract.Safe.bind (ofBase_free hbal.within _) ?_
      rintro _ hop rfl
      exact hopAttempts_end (fun target qtype qclass h hlt => ih target qtype qclass h hlt) qclass _ hop hbal
        (Nat.lt_succ_self _) (by omega)

end

/-- **A walk ends within its limits**, whatever servers and address lookups bring: the limits are kept at every
point, no run goes on for ever, and each can be brought to an end.  A run that is through has not run out of the
bounds the program has beside the source's own; a result is complete, and an error that names a limit means that it
is used up. -/
theorem walk_terminates (cfg : IterConfig) (nest : Nat) (hnest : cfg.maxCname < nest) (qname : Name)
    (qtype : RecordType) (qclass : DNSClass) :
    let walk := walkAttempts cfg nest qname qtype qclass ⟨cfg.maxDepth, cfg.maxQueries, cfg.maxCname⟩
    (∀ t res, walk.Runs attemptAnswers t res →
      (spent t).starts ≤ cfg.maxQueries ∧ (spent t).follows ≤ cfg.maxCname ∧
      ∃ t' r, walk.Runs attemptAnswers (t ++ t') (some r)) ∧
    (∀ f : Nat → Σ o, AttemptOp.Res o, ∃ n, ¬walk.Runs attemptAnswers ((List.range n).map f) none) ∧
    ∀ t result left, walk.Runs attemptAnswers t (some (result, left)) →
      (∀ e, result = .error e → Honest left e) ∧
      ∀ m chain, result = .ok (m, chain) → Complete qtype qname (spent t).received (spent t).follows m := by
  intro walk
  have hstart : Balanced cfg.maxQueries cfg.maxCname {} ⟨cfg.maxDepth, cfg.maxQueries, cfg.maxCname⟩ :=
    ⟨Nat.zero_add _, Nat.zero_add _⟩
  have hsafe := walkAttempts_end cfg nest qname qtype qclass hstart hnest
  refine ⟨fun t res hrun => ?_, walk.not_forever, fun t result left hrun => ?_⟩
  · have hwithin : (spent t).Within cfg.maxQueries cfg.maxCname := hsafe.monitored hstart.within hrun
    exact ⟨hwithin.starts, hwithin.follows, hrun.finish attemptAnswers_total⟩
  · have hend : WalkEnd cfg.maxQueries cfg.maxCname qtype qname {} (spent t) (result, left) :=
      hsafe.concluded hrun
    refine ⟨hend.honest, fun m chain hm => ?_⟩
    obtain ⟨new, k, hnew, hk, hcomplete⟩ := hend.complete m chain hm
    rw [hnew, hk]
    have hzero : ({} : Spent).follows + k = k := Nat.zero_add k
    rw [hzero]
    exact hcomplete

/-! ## A referral loop through the root -/

def oneQuery : IterConfig := { maxQueries := 1, dnssecOk := true }

def rootReferral : Message := { authorities := [{ name := Name.root, ttl := 300, data := .ns Name.root }] }

def loopTrace : Prog.Trace AttemptOp.Res :=
  [⟨.base .readRoots, [.v4 1]⟩,
   ⟨.base (.shuffle [.v4 1]), [.v4 1]⟩,
   ⟨.start Name.root ⟨Name.root, .A, .IN⟩ ⟨0, .v4 1⟩, ()⟩,
   ⟨.next Name.root ⟨Name.root, .A, .IN⟩ [⟨0, .v4 1⟩], some (0, .parsed rootReferral)⟩,
   ⟨.base (.cachePut (.zoneNs Name.root) (CacheKey.of Name.root .NS .IN)
      { queries := [⟨Name.root, .NS, .IN⟩], answers := rootReferral.authorities }), ()⟩,
   ⟨.lookup 8 rootReferral.authorities [] .IN ⟨31, 0, 8⟩, [.v4 1]⟩,
   ⟨.base (.shuffle [.v4 1]), [.v4 1]⟩]

theorem loopTrace_runs :
    (walkAttempts oneQuery 9 Name.root .A .IN ⟨32, 1, 8⟩).Runs attemptAnswers loopTrace
      (some (.error .queryBudgetExceeded, ⟨31, 0, 8⟩)) := by
  refine Prog.runs_op.mpr ⟨[.v4 1], _, rfl, trivial, ?_⟩
  refine Prog.runs_op.mpr ⟨[.v4 1], _, rfl, trivial, ?_⟩
  refine Prog.runs_op.mpr ⟨(), _, rfl, trivial, ?_⟩
  refine Prog.runs_op.mpr ⟨some (0, .parsed rootReferral), _, rfl, Nat.zero_lt_one, ?_⟩
  refine Prog.runs_op.mpr ⟨(), _, rfl, trivial, ?_⟩
  refine Prog.runs_op.mpr ⟨[.v4 1], _, rfl, trivial, ?_⟩
  exact Prog.runs_op.mpr ⟨[.v4 1], _, rfl, trivial, .ret _⟩

theorem walk_terminates_looping :
    ∃ t left, (walkAttempts oneQuery 9 Name.root .A .IN ⟨32, 1, 8⟩).Runs attemptAnswers t
        (some (.error .queryBudgetExceeded, left)) ∧
      (spent t).starts = 1 ∧ left.queriesRemaining = 0 := by
  refine ⟨loopTrace, ⟨31, 0, 8⟩, loopTrace_runs, rfl, ?_⟩
  have hend := (walk_terminates oneQuery 9 (by decide) Name.root .A .IN).2.2 _ _ _ loopTrace_runs
  exact hend.1 _ rfl

end Dnsd.Recursor
