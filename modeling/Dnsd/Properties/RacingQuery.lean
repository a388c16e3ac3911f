/-
# RacingQuery — the race for the servers of a zone.

`query_ns_set` shuffles the addresses, keeps the first `MAX_NS_ATTEMPTS` and runs `NS_PARALLEL` attempts at once.
The shuffle is any permutation, and any attempt in flight may complete next (`raceAnswers`); a `Tally` of the run
so far is kept.
-/
import Dnsd.Lib.History
import Dnsd.Recursor.Attempts

namespace Dnsd.Recursor

open Proto Lib List

/-! ## Runs of the race -/

/-- The answers of a race: any shuffle, and any attempt in flight completes with the outcome of its
position. -/
def raceAnswers (out : Nat → Reply) : (o : AttemptOp) → o.Res → Prop
  | .base (.shuffle ips), shuffled => shuffled.Perm ips
  | .next _ _ inFlight, none => inFlight = []
  | .next _ _ inFlight, some (i, reply) => ∃ a, inFlight[i]? = some a ∧ reply = out a.position
  | _, _ => True

structure Tally where
  order : List IpAddr := []
  started : List Attempt := []
  heard : Nat := 0
  deriving DecidableEq, Repr

def Tally.step (g : Tally) : (o : AttemptOp) → o.Res → Tally
  | .base (.shuffle _), shuffled => { g with order := shuffled }
  | .start _ _ a, _ => { g with started := g.started ++ [a] }
  | .next _ _ _, some _ => { g with heard := g.heard + 1 }
  | _, _ => g

def tally (t : Prog.Trace AttemptOp.Res) : Tally := t.foldl (fun g x => g.step x.1 x.2) {}

def Tally.allowed (g : Tally) : List Attempt := attemptsOf (g.order.take maxNsAttempts)

structure Tally.Orderly (g : Tally) : Prop where
  heard_le : g.heard ≤ g.started.length
  outstanding_le : g.started.length ≤ g.heard + nsParallel
  started : g.started <+: g.allowed

theorem raceAnswers_total (out : Nat → Reply) (o : AttemptOp) : ∃ r, raceAnswers out o r := by
  cases o with
  | base o =>
    obtain ⟨r⟩ := o.nonempty_res
    cases o with
    | shuffle ips => exact ⟨ips, List.Perm.refl ips⟩
    | _ => exact ⟨r, trivial⟩
  | start asked q a => exact ⟨(), trivial⟩
  | next asked q inFlight =>
    cases inFlight with
    | nil => exact ⟨none, rfl⟩
    | cons a as => exact ⟨some (0, out a.position), a, rfl, rfl⟩
  | lookup nest nsRecords glue qclass budget => exact ⟨[], trivial⟩
  | follow target => exact ⟨(), trivial⟩

/-! ## One attempt after another -/

def Budget.spend (b : Budget) (k : Nat) : Budget := { b with queriesRemaining := b.queriesRemaining - k }

theorem Budget.query_spend {b : Budget} {k : Nat} (h : k < b.queriesRemaining) :
    (b.spend k).query = .ok (b.spend (k + 1)) := by
  unfold Budget.query Budget.spend
  rw [if_neg (by dsimp only; omega)]
  rw [Nat.sub_sub]

theorem length_attemptsOf (ips : List IpAddr) : (attemptsOf ips).length = ips.length := by
  unfold attemptsOf
  rw [length_map, length_zipIdx]

theorem map_position_attemptsOf (ips : List IpAddr) :
    (attemptsOf ips).map Attempt.position = List.range ips.length := by
  unfold attemptsOf
  rw [map_map, range_eq_range']
  exact zipIdx_map_snd 0 ips

theorem Tally.length_allowed_le (g : Tally) : g.allowed.length ≤ maxNsAttempts := by
  unfold Tally.allowed
  rw [length_attemptsOf, length_take]
  exact Nat.min_le_left ..

structure Racing (out : Nat → Reply) (b : Budget) (g : Tally) (n : Nat) (inFlight waiting : List Attempt)
    (budget : Budget) : Prop where
  split : g.started ++ waiting = g.allowed
  flying : ∀ a ∈ inFlight, a ∈ g.started
  accounted : g.heard + inFlight.length = g.started.length
  parallel : inFlight.length ≤ nsParallel
  left : g.heard + n = g.allowed.length
  /-- Nothing waits for long: as long as an attempt waits, another is in flight. -/
  busy : inFlight = [] → waiting = []
  failed : ∀ a ∈ g.started, a ∈ inFlight ∨ ∀ m, out a.position ≠ .parsed m
  paid : budget = b.spend g.started.length

/-- What the loop ends with. -/
structure Raced (out : Nat → Reply) (b : Budget) (nsIps : List IpAddr) (g : Tally)
    (r : Except WalkError Message × Budget) : Prop where
  order : g.order.Perm nsIps
  started : g.started <+: g.allowed
  ok : ∀ m, r.1 = .ok m → ∃ a ∈ g.started, out a.position = .parsed m
  error : ∀ e, r.1 = .error e → ∀ a ∈ g.allowed, ∀ m, out a.position ≠ .parsed m
  paid : r.2 = b.spend g.started.length

section

variable {out : Nat → Reply} {b budget : Budget} {g : Tally} {n : Nat} {inFlight waiting : List Attempt}
  {a : Attempt} {i : Nat} {nsIps : List IpAddr}

theorem Racing.orderly (h : Racing out b g n inFlight waiting budget) : g.Orderly where
  heard_le := by
    have := h.accounted
    omega
  outstanding_le := by
    have := h.accounted
    have := h.parallel
    omega
  started := ⟨waiting, h.split⟩

theorem Racing.all_failed (h : Racing out b g n [] waiting budget) :
    ∀ a ∈ g.allowed, ∀ m, out a.position ≠ .parsed m := by
  intro a ha m
  rw [← h.split, h.busy rfl, append_nil] at ha
  rcases h.failed a ha with hmem | hfail
  · nomatch hmem
  · exact hfail m

theorem Racing.nil_of_zero (h : Racing out b g 0 inFlight waiting budget) : inFlight = [] := by
  have hlen := congrArg List.length h.split
  rw [length_append] at hlen
  have := h.accounted
  have := h.left
  exact length_eq_zero_iff.mp (by omega)

theorem Racing.failed_erase (h : Racing out b g n inFlight waiting budget) (hi : inFlight[i]? = some a)
    (hfail : ∀ m, out a.position ≠ .parsed m) :
    ∀ x ∈ g.started, x ∈ inFlight.eraseIdx i ∨ ∀ m, out x.position ≠ .parsed m := by
  intro x hx
  rcases h.failed x hx with hmem | hx
  · obtain ⟨j, hj⟩ := mem_iff_getElem?.mp hmem
    by_cases hij : j = i
    · subst hij
      rw [hj] at hi
      cases hi
      exact .inr hfail
    · exact .inl (mem_eraseIdx_iff_getElem?.mpr ⟨j, hij, hj⟩)
  · exact .inr hx

theorem length_eraseIdx_add_one (hi : inFlight[i]? = some a) :
    (inFlight.eraseIdx i).length + 1 = inFlight.length := by
  obtain ⟨hlt, -⟩ := List.getElem?_eq_some_iff.mp hi
  rw [length_eraseIdx_of_lt hlt]
  omega

theorem Racing.fail (h : Racing out b g (n + 1) inFlight [] budget) (hi : inFlight[i]? = some a)
    (hfail : ∀ m, out a.position ≠ .parsed m) :
    Racing out b { g with heard := g.heard + 1 } n (inFlight.eraseIdx i) [] budget := by
  have hlen := length_eraseIdx_add_one hi
  have haccounted := h.accounted
  have hparallel := h.parallel
  have hleft := h.left
  exact
    { split := h.split
      flying := fun x hx => h.flying x (mem_of_mem_eraseIdx hx)
      accounted := by dsimp only; omega
      parallel := by omega
      left := by
        show g.heard + 1 + n = g.allowed.length
        omega
      busy := fun _ => rfl
      failed := h.failed_erase hi hfail
      paid := h.paid }

theorem Racing.refill {next : Attempt} (hb : maxNsAttempts ≤ b.queriesRemaining)
    (h : Racing out b g (n + 1) inFlight (next :: waiting) budget) (hi : inFlight[i]? = some a)
    (hfail : ∀ m, out a.position ≠ .parsed m) :
    ∃ budget', budget.query = .ok budget' ∧
      Racing out b { g with heard := g.heard + 1, started := g.started ++ [next] } n
        (inFlight.eraseIdx i ++ [next]) waiting budget' := by
  have hlen := length_eraseIdx_add_one hi
  have haccounted := h.accounted
  have hparallel := h.parallel
  have hleft := h.left
  -- The next attempt is one of those allowed, so the budget has a query for it.
  have hroom : g.started.length < b.queriesRemaining := by
    have hsplit := congrArg List.length h.split
    rw [length_append, length_cons] at hsplit
    have := g.length_allowed_le
    omega
  refine ⟨b.spend (g.started.length + 1), ?_, ?_⟩
  · rw [h.paid, Budget.query_spend hroom]
  · exact
      { split := by
          show (g.started ++ [next]) ++ waiting = g.allowed
          rw [append_assoc, singleton_append, h.split]
        flying := by
          intro x hx
          rcases mem_append.mp hx with hx | hx
          · exact mem_append_left _ (h.flying x (mem_of_mem_eraseIdx hx))
          · exact mem_append_right _ hx
        accounted := by
          dsimp only
          rw [length_append, length_append, length_singleton]
          omega
        parallel := by
          rw [length_append, length_singleton]
          omega
        left := by
          show g.heard + 1 + n = g.allowed.length
          omega
        busy := fun hnil => nomatch (append_eq_nil_iff.mp hnil).2
        failed := by
          intro x hx
          rcases mem_append.mp hx with hx | hx
          · rcases h.failed_erase hi hfail x hx with hmem | hx
            · exact .inl (mem_append_left _ hmem)
            · exact .inr hx
          · exact .inl (mem_append_right _ hx)
        paid := by
          rw [length_append, length_singleton] }

theorem Racing.lost (h : Racing out b g n [] waiting budget) (horder : g.order.Perm nsIps) :
    Raced out b nsIps g (.error .noNsResponded, budget) where
  order := horder
  started := h.orderly.started
  ok := by
    intro m hm
    nomatch hm
  error := by
    intro _ _
    exact h.all_failed
  paid := h.paid

theorem Racing.won {m : Message} (h : Racing out b g n inFlight waiting budget)
    (horder : g.order.Perm nsIps) (hi : inFlight[i]? = some a) (hm : out a.position = .parsed m) :
    Raced out b nsIps { g with heard := g.heard + 1 } (.ok m, budget) where
  order := horder
  started := h.orderly.started
  ok := by
    intro m' heq
    cases heq
    exact ⟨a, h.flying a (mem_of_getElem? hi), hm⟩
  error := by
    intro e he
    nomatch he
  paid := h.paid

theorem Racing.orderly_heard (h : Racing out b g n inFlight waiting budget) (hi : inFlight[i]? = some a) :
    Tally.Orderly { g with heard := g.heard + 1 } where
  heard_le := by
    have := h.accounted
    have := length_eraseIdx_add_one hi
    dsimp only
    omega
  outstanding_le := by
    have := h.orderly.outstanding_le
    dsimp only
    omega
  started := h.orderly.started

end

/-! ## The whole race -/

abbrev raceContract (out : Nat → Reply) : Contract Tally AttemptOp AttemptOp.Res :=
  Contract.monitoring Tally.step (raceAnswers out) Tally.Orderly

section

variable {out : Nat → Reply} {b : Budget} {nsIps : List IpAddr} {g : Tally}

theorem raceAttempts_raced (hb : maxNsAttempts ≤ b.queriesRemaining) (asked : Name) (q : Query)
    (n : Nat) {inFlight waiting : List Attempt} {budget : Budget} (horder : g.order.Perm nsIps)
    (h : Racing out b g n inFlight waiting budget) :
    (raceContract out).Safe g (raceAttempts asked q n inFlight waiting budget) (Raced out b nsIps) := by
  induction n generalizing g inFlight waiting budget with
  | zero =>
    obtain rfl := h.nil_of_zero
    exact h.lost horder
  | succ n ih =>
    refine ⟨fun done hdone => ?_, fun done hdone => ?_⟩
    · cases done with
      | none => exact h.orderly
      | some done =>
        obtain ⟨a, hi, -⟩ := hdone
        exact h.orderly_heard hi
    · cases done with
      | none =>
        have hnil : inFlight = [] := hdone
        subst hnil
        exact h.lost horder
      | some done =>
        obtain ⟨i, reply⟩ := done
        obtain ⟨a, hi, hreply⟩ := hdone
        cases reply with
        | parsed m => exact h.won horder hi hreply.symm
        | _ =>
          have hfail : ∀ m, out a.position ≠ .parsed m := by
            intro m hm
            rw [hm] at hreply
            cases hreply
          cases waiting with
          | nil => exact ih horder (h.fail hi hfail)
          | cons next waiting =>
            obtain ⟨budget', hquery, hnext⟩ := h.refill hb hi hfail
            rw [hquery]
            exact ⟨fun _ _ => hnext.orderly, fun _ _ => ih horder hnext⟩

theorem startAttempts_started (out : Nat → Reply) (asked : Name) (q : Query) (as rest : List Attempt)
    (hb : maxNsAttempts ≤ b.queriesRemaining) (hsplit : g.started ++ (as ++ rest) = g.allowed)
    (hheard : g.heard = 0) (hparallel : g.started.length + as.length ≤ nsParallel) :
    (raceContract out).Safe g (startAttempts asked q as (b.spend g.started.length)) fun g' r =>
      g' = { g with started := g.started ++ as } ∧ r = (.ok (), b.spend (g.started ++ as).length) := by
  induction as generalizing g with
  | nil =>
    refine ⟨?_, ?_⟩
    · rw [append_nil]
    · rw [append_nil]
  | cons a as ih =>
    have hlen := congrArg List.length hsplit
    rw [length_append, length_append, length_cons] at hlen
    have hallowed := g.length_allowed_le
    rw [length_cons] at hparallel
    unfold startAttempts
    rw [Budget.query_spend (by omega)]
    have hsplit' : (g.started ++ [a]) ++ (as ++ rest) = g.allowed := by
      rw [append_assoc, singleton_append, ← cons_append, hsplit]
    have hlength : (g.started ++ [a]).length = g.started.length + 1 := by
      rw [length_append, length_singleton]
    refine ⟨fun _ _ => ⟨?_, ?_, as ++ rest, hsplit'⟩, fun _ _ => ?_⟩
    · show g.heard ≤ (g.started ++ [a]).length
      omega
    · show (g.started ++ [a]).length ≤ g.heard + nsParallel
      omega
    · have hrest := ih (g := { g with started := g.started ++ [a] }) hsplit' hheard
        (by dsimp only; omega)
      rw [hlength, append_assoc, singleton_append] at hrest
      exact hrest

theorem queryAttempts_raced (hb : maxNsAttempts ≤ b.queriesRemaining) (asked : Name) (q : Query) :
    (raceContract out).Safe {} (queryAttempts asked nsIps q b) (Raced out b nsIps) := by
  refine Contract.safe_perform_bind.mpr ⟨?_, fun shuffled hperm => ?_⟩
  · intro shuffled _
    exact ⟨Nat.le_refl 0, Nat.zero_le _, nil_prefix⟩
  generalize horder : attemptsOf (shuffled.take maxNsAttempts) = order
  have hfirst : (order.take nsParallel).length ≤ nsParallel := by
    rw [length_take]
    exact Nat.min_le_left ..
  have hsplit : order.take nsParallel ++ order.drop nsParallel = order := take_append_drop ..
  have hstart := startAttempts_started out (g := ⟨shuffled, [], 0⟩) asked q
    (order.take nsParallel) (order.drop nsParallel) hb (hsplit.trans horder.symm) rfl
    (by rw [length_nil, Nat.zero_add]; exact hfirst)
  refine Contract.Safe.bind hstart fun g r hr => ?_
  obtain ⟨rfl, rfl⟩ := hr
  refine raceAttempts_raced hb asked q _ hperm ?_
  exact
    { split := hsplit.trans horder.symm
      flying := fun _ ha => ha
      accounted := Nat.zero_add _
      parallel := hfirst
      left := by
        rw [← horder]
        exact Nat.zero_add _
      busy := by
        intro hnil
        cases order with
        | nil => rfl
        | cons a as => nomatch hnil
      failed := fun _ ha => .inl ha
      paid := rfl }

theorem Tally.positions_allowed (g : Tally) :
    g.allowed.map Attempt.position = List.range g.allowed.length := by
  unfold Tally.allowed
  rw [map_position_attemptsOf, length_attemptsOf]

theorem Tally.positions_started (h : g.started <+: g.allowed) :
    g.started.map Attempt.position = List.range g.started.length := by
  have hpre : g.started.map Attempt.position <+: List.range g.allowed.length := by
    rw [← g.positions_allowed]
    exact h.map _
  rw [prefix_iff_eq_take.mp hpre, take_range, length_map]
  exact congrArg List.range (Nat.min_eq_left h.length_le)

theorem Tally.exists_position {P : Nat → Prop} {as : List Attempt}
    (h : as.map Attempt.position = List.range as.length) :
    (∃ p < as.length, P p) ↔ ∃ a ∈ as, P a.position := by
  constructor
  · rintro ⟨p, hlt, hp⟩
    rw [← mem_range, ← h] at hlt
    obtain ⟨a, ha, rfl⟩ := mem_map.mp hlt
    exact ⟨a, ha, hp⟩
  · rintro ⟨a, ha, hp⟩
    have hmem : a.position ∈ as.map Attempt.position := mem_map_of_mem ha
    rw [h, mem_range] at hmem
    exact ⟨a.position, hmem, hp⟩

theorem Tally.length_allowed (h : g.order.Perm nsIps) :
    g.allowed.length = min maxNsAttempts nsIps.length := by
  unfold Tally.allowed
  rw [length_attemptsOf, length_take, h.length_eq]

theorem Raced.ok_iff {result : Except WalkError Message} {left : Budget}
    (h : Raced out b nsIps g (result, left)) :
    (∃ m, result = .ok m) ↔ ∃ a ∈ g.allowed, ∃ m, out a.position = .parsed m := by
  constructor
  · rintro ⟨m, rfl⟩
    obtain ⟨a, ha, hm⟩ := h.ok m rfl
    exact ⟨a, h.started.mem ha, m, hm⟩
  · rintro ⟨a, ha, m, hm⟩
    cases result with
    | ok m => exact ⟨m, rfl⟩
    | error e => exact absurd hm (h.error e rfl a ha m)

/-- **The race for an answer.**  At every point at most `NS_PARALLEL` attempts are outstanding, and those started
are at the first positions of the shuffled order, each tried once and paid for.  Every run ends, with a response
exactly if one of the positions that could be tried has one, and then with that of a position tried. -/
theorem racing_query (asked : Name) (nsIps : List IpAddr) (q : Query) (b : Budget) (out : Nat → Reply)
    (hb : maxNsAttempts ≤ b.queriesRemaining) :
    (∀ t res, (queryAttempts asked nsIps q b).Runs (raceAnswers out) t res →
      (tally t).heard ≤ (tally t).started.length ∧
      (tally t).started.length - (tally t).heard ≤ nsParallel ∧
      (tally t).started.map Attempt.position = List.range (tally t).started.length ∧
      (tally t).started.map Attempt.ip <+: (tally t).order.take maxNsAttempts ∧
      ∃ t' r, (queryAttempts asked nsIps q b).Runs (raceAnswers out) (t ++ t') (some r)) ∧
    ∀ t result left, (queryAttempts asked nsIps q b).Runs (raceAnswers out) t (some (result, left)) →
      (tally t).order.Perm nsIps ∧
      ((∃ m, result = .ok m) ↔ ∃ p < min maxNsAttempts nsIps.length, ∃ m, out p = .parsed m) ∧
      (∀ m, result = .ok m → ∃ p < (tally t).started.length, out p = .parsed m) ∧
      left = b.spend (tally t).started.length := by
  have hsafe : (raceContract out).Safe {} (queryAttempts asked nsIps q b) (Raced out b nsIps) :=
    queryAttempts_raced hb asked q
  refine ⟨fun t res hrun => ?_, fun t result left hrun => ?_⟩
  · have horderly : (tally t).Orderly :=
      hsafe.monitored ⟨Nat.le_refl 0, Nat.zero_le _, nil_prefix⟩ hrun
    refine ⟨horderly.heard_le, ?_, Tally.positions_started horderly.started, ?_, ?_⟩
    · have := horderly.outstanding_le
      omega
    · have hips := horderly.started.map Attempt.ip
      unfold Tally.allowed at hips
      rwa [map_ip_attemptsOf] at hips
    · exact hrun.finish (raceAnswers_total out)
  · have hraced : Raced out b nsIps (tally t) (result, left) := hsafe.concluded hrun
    refine ⟨hraced.order, ?_, fun m hm => ?_, hraced.paid⟩
    · rw [← Tally.length_allowed hraced.order, Tally.exists_position (tally t).positions_allowed]
      exact hraced.ok_iff
    · rw [Tally.exists_position (Tally.positions_started hraced.started)]
      exact hraced.ok m hm

end

def secondAnswers (p : Nat) : Reply := if p = 1 then .parsed {} else .failed

def threeServers : List IpAddr := [.v4 1, .v4 2, .v4 3]

def secondTrace (q : Query) : Prog.Trace AttemptOp.Res :=
  [⟨.base (.shuffle threeServers), threeServers⟩,
   ⟨.start Name.root q ⟨0, .v4 1⟩, ()⟩,
   ⟨.start Name.root q ⟨1, .v4 2⟩, ()⟩,
   ⟨.next Name.root q [⟨0, .v4 1⟩, ⟨1, .v4 2⟩], some (0, .failed)⟩,
   ⟨.start Name.root q ⟨2, .v4 3⟩, ()⟩,
   ⟨.next Name.root q [⟨1, .v4 2⟩, ⟨2, .v4 3⟩], some (0, .parsed {})⟩]

theorem secondTrace_runs (q : Query) :
    (queryAttempts Name.root threeServers q ⟨32, 384, 8⟩).Runs (raceAnswers secondAnswers) (secondTrace q)
      (some (.ok {}, ⟨32, 381, 8⟩)) := by
  refine Prog.runs_op.mpr ⟨threeServers, _, rfl, List.Perm.refl _, ?_⟩
  refine Prog.runs_op.mpr ⟨(), _, rfl, trivial, Prog.runs_op.mpr ⟨(), _, rfl, trivial, ?_⟩⟩
  refine Prog.runs_op.mpr ⟨some (0, .failed), _, rfl, ⟨_, rfl, rfl⟩, ?_⟩
  refine Prog.runs_op.mpr ⟨(), _, rfl, trivial, ?_⟩
  exact Prog.runs_op.mpr ⟨some (0, .parsed {}), _, rfl, ⟨_, rfl, rfl⟩, .ret _⟩

theorem racing_query_second :
    ∃ t left, (queryAttempts Name.root threeServers ⟨Name.root, .NS, .IN⟩ ⟨32, 384, 8⟩).Runs
        (raceAnswers secondAnswers) t (some (.ok {}, left)) ∧
      (tally t).started.length = 3 ∧ (tally t).heard = 2 ∧
      (∃ p < min maxNsAttempts threeServers.length, ∃ m, secondAnswers p = .parsed m) ∧
      left = ⟨32, 381, 8⟩ := by
  have hrun := secondTrace_runs ⟨Name.root, .NS, .IN⟩
  have hraced := (racing_query Name.root threeServers ⟨Name.root, .NS, .IN⟩ ⟨32, 384, 8⟩ secondAnswers
    (by decide)).2 _ _ _ hrun
  exact ⟨_, _, hrun, rfl, rfl, hraced.2.1.mp ⟨_, rfl⟩, rfl⟩

end Dnsd.Recursor
