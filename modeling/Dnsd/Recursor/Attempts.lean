/-
# Attempts — walks in which the start of an upstream attempt is an event of its own.

In `Iterative` an exchange with a server is one effect.  Here `query_ns_set` and `walk` are programs over finer
ones: an attempt is started (`start`), some attempt completes (`next`), a CNAME is followed (`follow`), and the
addresses of a referral's servers are looked up as a whole (`lookup`).  Under `attemptMeaning` they are the
programs of `Iterative` (`walkAttempts_interp`).
-/
import Mathlib.Data.List.InsertIdx
import Dnsd.Lib.Interpret
import Dnsd.Recursor.Iterative

namespace Dnsd.Recursor

open Proto Lib List

/-! ## The effects -/

structure Attempt where
  position : Nat
  ip : IpAddr
  deriving DecidableEq, Repr

inductive AttemptOp where
  /-- An effect of `Iterative`. -/
  | base (o : Op)
  /-- `in_flight.push(make_query(ip))` -/
  | start (asked : Name) (q : Query) (a : Attempt)
  /-- `in_flight.next().await`: which attempt completes, and with what. -/
  | next (asked : Name) (q : Query) (inFlight : List Attempt)
  /-- `resolve_ns_ips`, in a walk below which walks are nested at most `nest` deep. -/
  | lookup (nest : Nat) (nsRecords : List Record) (glue : Glue) (qclass : DNSClass) (budget : Budget)
  /-- The walk goes on with the target of a CNAME. -/
  | follow (target : Name)

@[reducible] def AttemptOp.Res : AttemptOp → Type
  | .base o => o.Res
  | .start _ _ _ => Unit
  | .next _ _ _ => Option (Nat × Reply)
  | .lookup _ _ _ _ _ => List IpAddr
  | .follow _ => Unit

abbrev AProg (α : Type) := Prog AttemptOp AttemptOp.Res α

/-- Perform one effect. -/
abbrev act (o : AttemptOp) : AProg o.Res := Prog.perform o

/-- Effects of `Iterative` stay what they are. -/
def AProg.ofBase {α : Type} (p : RProg α) : AProg α := p.interp fun o => act (.base o)

theorem Op.nonempty_res (o : Op) : Nonempty o.Res := by
  cases o with
  | query asked ip q => exact ⟨.failed⟩
  | forward domain query => exact ⟨.failed⟩
  | loadAnchors => exact ⟨⟨[]⟩⟩
  | _ => exact ⟨default⟩

/-! ## One hop -/

/-- The loop of `query_ns_set`.  The first argument counts the attempts not yet heard of. -/
def raceAttempts (asked : Name) (q : Query) : Nat → List Attempt → List Attempt → Budget →
    AProg (Except WalkError Message × Budget)
  | 0, _, _, budget => return (.error .noNsResponded, budget)
  | n + 1, inFlight, waiting, budget => do
      let done : Option (Nat × Reply) ← act (.next asked q inFlight)
      match done with
      | none => return (.error .noNsResponded, budget)
      | some (i, reply) =>
          match reply with
          | .parsed m => return (.ok m, budget)
          | _ =>
              match waiting with
              | [] => raceAttempts asked q n (inFlight.eraseIdx i) [] budget
              | next :: waiting =>
                  match budget.query with
                  | .error e => return (.error e, budget)
                  | .ok budget => do
                      act (.start asked q next)
                      raceAttempts asked q n (inFlight.eraseIdx i ++ [next]) waiting budget

def startAttempts (asked : Name) (q : Query) : List Attempt → Budget →
    AProg (Except WalkError Unit × Budget)
  | [], budget => return (.ok (), budget)
  | a :: as, budget =>
      match budget.query with
      | .error e => return (.error e, budget)
      | .ok budget => do
          act (.start asked q a)
          startAttempts asked q as budget

def attemptsOf (ips : List IpAddr) : List Attempt := ips.zipIdx.map fun p => ⟨p.2, p.1⟩

def queryAttempts (asked : Name) (nsIps : List IpAddr) (q : Query) (budget : Budget) :
    AProg (Except WalkError Message × Budget) := do
  let shuffled : List IpAddr ← act (.base (.shuffle nsIps))
  let order := attemptsOf (shuffled.take maxNsAttempts)
  let (started, budget) ← startAttempts asked q (order.take nsParallel) budget
  match started with
  | .error e => return (.error e, budget)
  | .ok () => raceAttempts asked q order.length (order.take nsParallel) (order.drop nsParallel) budget

/-! ## Walks -/

abbrev WalkOutcome := Except WalkError (Message × WalkChain)

/-- The referral loop of `walk`; `chase` goes on with the target of a CNAME. -/
def hopAttempts (chase : Name → RecordType → DNSClass → Budget → AProg (WalkOutcome × Budget))
    (nest : Nat) (qname : Name) (qtype : RecordType) (qclass : DNSClass) :
    Nat → Hop → Budget → AProg (WalkOutcome × Budget)
  | 0, _, budget => return (.error .abandoned, budget)
  | hops + 1, hop, budget => do
      let (result, budget) ← queryAttempts hop.zone hop.nsIps ⟨qname, qtype, qclass⟩ budget
      match result with
      | .error e => return (.error e, budget)
      | .ok resp =>
          match classify resp qname qtype with
          | .answer => return (.ok (resp, hop.chain), budget)
          | .nxDomain => return (.ok (resp, hop.chain), budget)
          | .empty => return (.ok (resp, hop.chain), budget)
          | .servFail => return (.error .upstreamServfail, budget)
          | .cname target =>
              match budget.cname with
              | .error e => return (.error e, budget)
              | .ok budget => do
                  act (.follow target)
                  let (chased, budget) ← chase target qtype qclass budget
                  match chased with
                  | .error e => return (.error e, budget)
                  | .ok (sub, _) => return (.ok (stitch resp sub, hop.chain), budget)
          | .referral newZone nsRecords glue =>
              if nonProgressive newZone hop.zone then
                return (.error (.nonProgressiveReferral newZone hop.zone), budget)
              else do
                AProg.ofBase (cacheGlue hop.zone glue)
                AProg.ofBase (cacheZoneNs hop.zone newZone nsRecords)
                let (ds, dsRrsig) := extractDsAndRrsig resp newZone
                let nsIps : List IpAddr ← act (.lookup nest nsRecords glue qclass budget)
                if nsIps.isEmpty then return (.error (.noUsableNs newZone), budget)
                else
                  hopAttempts chase nest qname qtype qclass hops
                    ⟨newZone, nsIps, ⟨hop.chain.steps ++ [⟨newZone, ds, dsRrsig, nsIps⟩]⟩⟩ budget

/-- `walk`, with CNAMEs followed at most `nest` deep. -/
def walkAttempts (cfg : IterConfig) :
    Nat → Name → RecordType → DNSClass → Budget → AProg (WalkOutcome × Budget)
  | 0, _, _, _, budget => return (.error .abandoned, budget)
  | nest + 1, qname, qtype, qclass, budget =>
      match budget.referral with
      | .error e => return (.error e, budget)
      | .ok budget => do
          let hop ← AProg.ofBase (walkStart cfg qname qclass)
          hopAttempts (walkAttempts cfg nest) nest qname qtype qclass (budget.queriesRemaining + 1) hop
            budget

/-! ## What the effects stand for -/

def attemptMeaning (cfg : IterConfig) : (o : AttemptOp) → RProg o.Res
  | .base o => call o
  | .start _ _ _ => return ()
  | .next asked q inFlight => do
      let choice : Nat ← call (.pick inFlight.length)
      match inFlight[choice % inFlight.length]? with
      | none => return none
      | some a => do
          let reply ← upstreamQuery asked a.ip q
          return some (choice % inFlight.length, reply)
  | .lookup nest nsRecords glue qclass budget =>
      resolveNsIps cfg (walk cfg nest) nsRecords glue qclass budget
  | .follow _ => return ()

def settle {α : Type} (r : Except WalkError α × Budget) : Except WalkError (α × Budget) :=
  r.1.map fun a => (a, r.2)

section

variable (cfg : IterConfig)

theorem interp_ofBase {α : Type} (p : RProg α) :
    (AProg.ofBase p).interp (attemptMeaning cfg) = p :=
  Prog.interp_interp (fun _ => rfl) p

theorem raceAttempts_interp (asked : Name) (q : Query) (n : Nat) (inFlight waiting : List Attempt)
    (budget : Budget) :
    ((raceAttempts asked q n inFlight waiting budget).interp (attemptMeaning cfg) >>= fun r =>
      pure (settle r)) =
      raceNs asked q n (inFlight.map Attempt.ip) (waiting.map Attempt.ip) budget := by
  induction n generalizing inFlight waiting budget with
  | zero => rfl
  | succ n ih =>
    unfold raceAttempts raceNs
    rw [Prog.interp_perform_bind, bind_assoc, length_map]
    show ((call (.pick inFlight.length) >>= _) >>= _) = _
    rw [bind_assoc]
    refine congrArg (call (.pick inFlight.length) >>= ·) (funext fun choice => ?_)
    rw [List.getElem?_map]
    cases inFlight[choice % inFlight.length]? with
    | none => rfl
    | some a =>
      show ((upstreamQuery asked a.ip q >>= _) >>= _) = upstreamQuery asked a.ip q >>= _
      rw [bind_assoc]
      refine congrArg (upstreamQuery asked a.ip q >>= ·) (funext fun reply => ?_)
      cases reply with
      | parsed m => rfl
      | _ =>
        -- A failure of either kind leaves the same race.
        dsimp only
        rw [eraseIdx_map]
        cases waiting with
        | nil => exact ih _ [] budget
        | cons next waiting =>
          rw [map_cons]
          dsimp only
          cases budget.query with
          | error e => rfl
          | ok budget =>
            have := ih (inFlight.eraseIdx (choice % inFlight.length) ++ [next]) waiting budget
            rwa [map_append] at this

theorem startAttempts_interp (asked : Name) (q : Query) (as : List Attempt) (budget : Budget) :
    ∃ r, (startAttempts asked q as budget).interp (attemptMeaning cfg) = .ret r ∧
      settle r = (startQueries (as.map Attempt.ip) budget).map fun b => ((), b) := by
  induction as generalizing budget with
  | nil => exact ⟨_, rfl, rfl⟩
  | cons a as ih =>
    unfold startAttempts
    rw [map_cons]
    unfold startQueries
    cases budget.query with
    | error e => exact ⟨_, rfl, rfl⟩
    | ok budget => exact ih budget

theorem map_ip_attemptsOf (ips : List IpAddr) : (attemptsOf ips).map Attempt.ip = ips := by
  unfold attemptsOf
  rw [map_map]
  exact zipIdx_map_fst 0 ips

theorem queryAttempts_interp (asked : Name) (nsIps : List IpAddr) (q : Query) (budget : Budget) :
    ((queryAttempts asked nsIps q budget).interp (attemptMeaning cfg) >>= fun r => pure (settle r)) =
      queryNsSet asked nsIps q budget := by
  unfold queryAttempts queryNsSet
  rw [Prog.interp_perform_bind, bind_assoc]
  refine congrArg (call (.shuffle nsIps) >>= ·) (funext fun shuffled => ?_)
  generalize horder : attemptsOf (shuffled.take maxNsAttempts) = order
  have hips : shuffled.take maxNsAttempts = order.map Attempt.ip := by
    rw [← horder, map_ip_attemptsOf]
  rw [hips]
  dsimp only
  rw [← map_take, ← map_drop, length_map]
  obtain ⟨⟨started, budget'⟩, hstart, hsettle⟩ :=
    startAttempts_interp cfg asked q (order.take nsParallel) budget
  rw [Prog.interp_bind, hstart]
  cases hqueries : startQueries ((order.take nsParallel).map Attempt.ip) budget with
  | error e =>
    rw [hqueries] at hsettle
    cases started with
    | ok _ => nomatch hsettle
    | error e' =>
      cases hsettle
      rfl
  | ok left =>
    rw [hqueries] at hsettle
    cases started with
    | error _ => nomatch hsettle
    | ok _ =>
      cases hsettle
      exact raceAttempts_interp cfg asked q _ _ _ _

def settleWalk (r : WalkOutcome × Budget) : WalkResult := r.1.map fun a => (a.1, a.2, r.2)

theorem hopAttempts_interp {nest : Nat}
    {chase : Name → RecordType → DNSClass → Budget → AProg (WalkOutcome × Budget)}
    (hchase : ∀ qname qtype qclass budget,
      ((chase qname qtype qclass budget).interp (attemptMeaning cfg) >>= fun r => pure (settleWalk r)) =
        walk cfg nest qname qtype qclass budget)
    (qname : Name) (qtype : RecordType) (qclass : DNSClass) (hops : Nat) (hop : Hop) (budget : Budget) :
    ((hopAttempts chase nest qname qtype qclass hops hop budget).interp (attemptMeaning cfg) >>= fun r =>
      pure (settleWalk r)) =
      walkHops cfg (walk cfg nest) qname qtype qclass hops hop budget := by
  induction hops generalizing hop budget with
  | zero => rfl
  | succ hops ih =>
    unfold hopAttempts walkHops
    rw [← queryAttempts_interp cfg, Prog.interp_bind, bind_assoc, bind_assoc]
    refine congrArg (_ >>= ·) (funext fun r => ?_)
    obtain ⟨result, budget⟩ := r
    cases result with
    | error e => rfl
    | ok resp =>
      rw [pure_bind]
      dsimp only [settle, Except.map]
      cases classify resp qname qtype with
      | answer => rfl
      | nxDomain => rfl
      | empty => rfl
      | servFail => rfl
      | cname target =>
        dsimp only
        cases budget.cname with
        | error e => rfl
        | ok budget =>
          dsimp only
          rw [← hchase, Prog.interp_perform_bind, bind_assoc, bind_assoc]
          refine Eq.trans (pure_bind () _) ?_
          rw [Prog.interp_bind, bind_assoc]
          refine congrArg (_ >>= ·) (funext fun r => ?_)
          obtain ⟨chased, budget⟩ := r
          cases chased with
          | error e => rfl
          | ok sub => rfl
      | referral newZone nsRecords glue =>
        dsimp only
        split
        · rfl
        rw [Prog.interp_bind, bind_assoc, interp_ofBase]
        refine congrArg (_ >>= ·) (funext fun _ => ?_)
        rw [Prog.interp_bind, bind_assoc, interp_ofBase]
        refine congrArg (_ >>= ·) (funext fun _ => ?_)
        rw [Prog.interp_perform_bind, bind_assoc]
        refine congrArg (_ >>= ·) (funext fun nsIps => ?_)
        split
        · rfl
        · exact ih _ budget

theorem walkAttempts_interp (nest : Nat) (qname : Name) (qtype : RecordType) (qclass : DNSClass)
    (budget : Budget) :
    ((walkAttempts cfg nest qname qtype qclass budget).interp (attemptMeaning cfg) >>= fun r =>
      pure (settleWalk r)) =
      walk cfg nest qname qtype qclass budget := by
  induction nest generalizing qname qtype qclass budget with
  | zero => rfl
  | succ nest ih =>
    unfold walkAttempts walk
    cases budget.referral with
    | error e => rfl
    | ok budget =>
      dsimp only
      rw [Prog.interp_bind, bind_assoc, interp_ofBase]
      refine congrArg (_ >>= ·) (funext fun hop => ?_)
      exact hopAttempts_interp cfg ih qname qtype qclass _ hop budget

end

end Dnsd.Recursor
