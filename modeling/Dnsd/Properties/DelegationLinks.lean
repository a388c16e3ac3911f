/-
# DelegationLinks — the delegation cache holds proven links.

`cache_validated_delegations` stores every step of the walk whose zone was validated.  That is right as long as
no zone occurs twice in a walk, which the referral guard prevents except for a referral to the root
(`delegation_cache_proven`, `delegation_cache_unproven`).
-/
import Dnsd.Recursor.HandlerSpec
import Dnsd.Recursor.Script

namespace Dnsd.Recursor

open Proto Lib List

variable {ι : Type} {C : Crypto} {N : Net ι} {hop : Hop} {step : ChainStep} {zones : List Name}

/-! ## No zone twice -/

structure Distinct (hop : Hop) : Prop where
  apart : hop.chain.steps.Pairwise fun a b => a.zone.same b.zone = false
  below : ∀ s ∈ hop.chain.steps, s.zone.numLabels ≤ hop.zone.numLabels

theorem numLabels_le_of_length_lt {a b : Name} (h : a.labels.length < b.labels.length) :
    a.numLabels ≤ b.numLabels := by
  have ha := a.numLabels_le
  have hb := b.length_le_numLabels
  omega

theorem ancestorZones_pairwise (labels : List Label) :
    (ancestorZones labels).Pairwise fun a b => b.labels.length < a.labels.length := by
  induction labels with
  | nil => exact .nil
  | cons l ls ih =>
    unfold ancestorZones
    split
    · refine .cons (fun z hz => ?_) ih
      have := (mem_ancestorZones hz).length_le
      rw [length_cons]
      omega
    · exact .nil

theorem cached_pairwise {labels : List Label} {steps : List ChainStep}
    (hzones : zones <+: (ancestorZones labels).reverse)
    (hsteps : List.Forall₂ (fun z (s : ChainStep) => s.zone.same z = true) zones steps) :
    steps.Pairwise fun a b => a.zone.labels.length < b.zone.labels.length := by
  have hup : zones.Pairwise fun a b => a.labels.length < b.labels.length :=
    (pairwise_reverse.mpr (ancestorZones_pairwise labels)).sublist hzones.sublist
  have hlen : steps.map (fun s => s.zone.labels.length) = zones.map fun z => z.labels.length := by
    clear hzones hup
    induction hsteps with
    | nil => rfl
    | cons hsame _ ih => rw [map_cons, map_cons, ih, Name.same_length hsame]
  rw [← pairwise_map (R := (· < ·)), hlen, pairwise_map]
  exact hup

theorem distinct_start {i : ι} (h : Started (servePost C N i) hop) : Distinct hop := by
  rcases h with hnil | ⟨labels, zones, last, hzones, hcached, hlast, hzone⟩
  · constructor
    · rw [hnil]
      exact .nil
    · rw [hnil]
      exact fun s hs => nomatch hs
  · have hup := cached_pairwise hzones (hcached.imp fun z s hs => hs.2 s rfl)
    constructor
    · refine hup.imp fun {a b} hlt => Bool.eq_false_iff.mpr fun hsame => ?_
      rw [Name.same_length hsame] at hlt
      exact Nat.lt_irrefl _ hlt
    · -- The last step is the longest.
      obtain ⟨front, hfront⟩ := List.getLast?_eq_some_iff.mp hlast
      rw [hfront] at hup ⊢
      intro s hs
      rw [hzone]
      rcases mem_append.mp hs with hs | hs
      · have hlt := (pairwise_append.mp hup).2.2 s hs last (mem_singleton_self last)
        exact numLabels_le_of_length_lt hlt
      · rw [mem_singleton.mp hs]

def RootReferral (N : Net ι) : Prop :=
  ∃ asked ip q m nsRecords glue, N.reply asked ip q (.parsed m) ∧
    classify m.lowercaseResponseNames q.name q.queryType = .referral Name.root nsRecords glue

theorem distinct_next {i : ι} (hroot : ¬ RootReferral N) {zone : Name} {nsRecords : List Record}
    {glue : Glue} {ds : List Record} {dsRrsig : List RRSIG} {nsIps : List IpAddr} (h : Distinct hop)
    (href : Referral (servePost C N i) hop.zone zone nsRecords glue)
    (hprog : nonProgressive zone hop.zone = false) :
    Distinct ⟨zone, nsIps, ⟨hop.chain.steps ++ [⟨zone, ds, dsRrsig, nsIps⟩]⟩⟩ := by
  have hne : zone.same Name.root = false := by
    refine Bool.eq_false_iff.mpr fun hsame => hroot ?_
    obtain ⟨ip, q, m, hm, hcls⟩ := href
    rw [Name.same_root_iff.mp hsame] at hcls
    exact ⟨hop.zone, ip, q, m, nsRecords, glue, hm.1, hcls⟩
  have hlt : hop.zone.numLabels < zone.numLabels := by
    simpa [nonProgressive, hne] using hprog
  constructor
  · refine pairwise_append.mpr ⟨h.apart, pairwise_singleton .., ?_⟩
    intro s hs s' hs'
    rw [mem_singleton.mp hs']
    refine Bool.eq_false_iff.mpr fun hsame => ?_
    have hle := h.below s hs
    rw [Name.numLabels_congr hsame] at hle
    exact Nat.lt_irrefl _ (Nat.lt_of_lt_of_le hlt hle)
  · intro s hs
    rcases mem_append.mp hs with hs | hs
    · exact Nat.le_of_lt (Nat.lt_of_le_of_lt (h.below s hs) hlt)
    · rw [mem_singleton.mp hs]

theorem distinct_hopRule (hroot : ¬ RootReferral N) (i : ι) : HopRule (servePost C N i) Distinct where
  start _ h := distinct_start h
  next _ _ _ _ _ _ _ h href hprog := distinct_next hroot h href hprog

/-! ## The law -/

/-- The history has a validation by this handler that validated this very step: its DS set verified
under keys trusted above it, and covering a key of its zone's keys. -/
def LinkProven (C : Crypto) (N : Net ι) (l : List (ι × Event)) (i : ι) (step : ChainStep) : Prop :=
  ∃ walk answer status done rest,
    (i, .verdict walk answer status (done.map ChainStep.zone)) ∈ l ∧ walk.steps = done ++ rest ∧
      step ∈ done ∧ StepProven (asCoded C) C N i step

def provenLinks (C : Crypto) (N : Net ι) : Law ι where
  entry _ _ _ _ := True
  link := LinkProven C N
  response _ _ _ := True
  hop := Distinct
  entry_mono _ _ := trivial
  link_mono hle := fun ⟨walk, answer, status, done, rest, hm, h⟩ =>
    ⟨walk, answer, status, done, rest, hle hm, h⟩
  response_mono _ _ := trivial

theorem mem_done_of_reported (h : Distinct hop) {done rest : List ChainStep}
    (hsteps : hop.chain.steps = done ++ rest) (hstep : step ∈ hop.chain.steps)
    (hzone : ((done.map ChainStep.zone).any fun z => z.same step.zone) = true) : step ∈ done := by
  obtain ⟨z, hz, hsame⟩ := any_eq_true.mp hzone
  obtain ⟨s, hs, rfl⟩ := mem_map.mp hz
  rw [hsteps] at hstep
  rcases mem_append.mp hstep with hstep | hstep
  · exact hstep
  · have hapart := h.apart
    rw [hsteps] at hapart
    have := (pairwise_append.mp hapart).2.2 s hs step hstep
    rw [hsame] at this
    nomatch this

theorem provenLinks_link (i : ι) {l : List (ι × Event)} {resp : Message} {status : ValidationStatus}
    (hlog : (i, .verdict hop.chain resp status zones) ∈ l)
    (hjudged : Judged (asCoded C) C N i hop.chain resp status zones) (hhop : Distinct hop)
    (hstep : step ∈ hop.chain.steps) (hzone : (zones.any fun z => z.same step.zone) = true) :
    LinkProven C N l i step := by
  have hreport : ReportOk (asCoded C) C N i hop.chain zones :=
    (validateWalkBody_safe asCoded_bootAllowed asCoded_walkAllowed).yields hjudged
  obtain ⟨done, rest, hsteps, rfl, hproven⟩ := hreport
  have hdone := mem_done_of_reported hhop hsteps hstep hzone
  exact ⟨hop.chain, resp, status, done, rest, hlog, hsteps, hdone, hproven step hdone⟩

theorem provenLinks_holds (hroot : ¬ RootReferral N) (cfg : ι → Config) :
    (provenLinks C N).Holds C cfg N := by
  constructor
  case hop => exact distinct_hopRule hroot
  case link => exact fun i _ _ _ _ _ _ hlog hj hhop hs hz => provenLinks_link i hlog hj hhop hs hz
  all_goals
    intros
    trivial

/-- **The delegation cache holds only proven links.**  In every run of the process, if no server sends
a referral to the root: each cached step is one that a validation by the same handler validated. -/
theorem delegation_cache_proven [DecidableEq ι] {cfg : ι → Config} (hroot : ¬ RootReferral N)
    {w : World ι} {ts : List (ι × RProg Unit)} (h : (process C cfg N).Reach w ts) {i : ι}
    {zone : Name} {e : CachedDelegation}
    (he : AList.lookup zone (w.inst i).delegations = some e) : LinkProven C N w.log i e.step :=
  (((provenLinks_holds hroot cfg).reach h).links i zone e he).2

/-! ## Two runs

A client asks for the address of `a.z.`.  Replies depend on the server alone, apart from the keys. -/

/-- The server of the zone refers to the root; the address it gives for the root refers to the zone
once more, with another DS record. -/
def loopingServer (ip : IpAddr) : Message :=
  if ip = .v4 1 then signedReferral 2
  else if ip = .v4 2 then referralTo Name.root 3 []
  else if ip = .v4 3 then referralTo childZone 4 [.ds { sampleDs with keyTag := 9 }]
  else signedAnswer insideName childZone

theorem honestServer_noRootReferral :
    ¬ RootReferral (ι := Unit) ((serverScript honestServer).net rootAnchors) := by
  rintro ⟨asked, ip, q, m, nsRecords, glue, hm, hcls⟩
  obtain ⟨⟨r, hr, _, hroot⟩, _⟩ := classify_eq_referral hcls
  -- The only authority sections with records are those of referrals to the zone.
  have hzone : ∀ r ∈ m.lowercaseResponseNames.authorities, r.name.toLowercase = childZone := by
    cases hm
    split
    · split
      · exact fun r hr => nomatch hr
      · exact fun r hr => nomatch hr
    · unfold honestServer
      split
      · decide
      · exact fun r hr => nomatch hr
  rw [hzone r hr] at hroot
  nomatch hroot

theorem delegation_cache_proven_childZone :
    ∃ step, LinkProven (listCrypto [sampleKey 1, sampleKey 2])
      ((serverScript honestServer).net rootAnchors) (clientRun honestServer).log () step := by
  have hcached : AList.lookup childZone ((clientRun honestServer).inst ()).delegations =
      some ⟨sampleStep childZone, secs 3600⟩ := by decide
  exact ⟨_, delegation_cache_proven honestServer_noRootReferral (clientRun_reach honestServer) hcached⟩

theorem delegation_cache_unproven :
    ∃ w ts e, (process (listCrypto [sampleKey 1, sampleKey 2]) (fun _ => sampleConfig .validate)
        ((serverScript loopingServer).net rootAnchors)).Reach w ts ∧
      AList.lookup childZone (w.inst ()).delegations = some e ∧ e.step.dsRrsig = [] ∧
      ¬ LinkProven (listCrypto [sampleKey 1, sampleKey 2])
        ((serverScript loopingServer).net rootAnchors) w.log () e.step := by
  have hcached : AList.lookup childZone ((clientRun loopingServer).inst ()).delegations =
      some ⟨⟨childZone, [sampleRecord childZone (.ds { sampleDs with keyTag := 9 })], [], [.v4 4]⟩,
        secs 3600⟩ := by decide
  refine ⟨_, _, _, clientRun_reach loopingServer, hcached, rfl, ?_⟩
  rintro ⟨_, _, _, _, _, _, _, _, ⟨_, _, _, _, sig, _, hsig, _⟩, _⟩
  nomatch hsig

end Dnsd.Recursor
