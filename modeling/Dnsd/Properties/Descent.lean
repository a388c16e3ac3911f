/-
# Descent — which zones a walk moves through.

`Moves` is the journey of a walk: where it can start, and one move for each referral that passes the guard.  The
guard compares label counts and lets every referral to the root pass, so the journey descends towards the name
exactly as far as the servers make it (`ReferralsDescend`).
-/
import Dnsd.Recursor.Script
import Dnsd.Recursor.WalkSpec

namespace Dnsd.Recursor

open Proto Lib Contract List

variable {ι : Type}

/-! ## Journeys -/

/-- A walk for a question that started in a zone has followed referrals to the zones listed, and stands at
the hop. -/
inductive Moves (post : (o : Op) → o.Res → Prop) (cfg : IterConfig) (q : Query) (start : Name) :
    List Name → Hop → Prop
  | start {hop : Hop} : StartedAt post cfg q hop → hop.zone = start → Moves post cfg q start [] hop
  | refer {zones : List Name} {hop next : Hop} : Moves post cfg q start zones hop →
      Follows post cfg q hop next → Moves post cfg q start (zones ++ [next.zone]) next

/-- What a walk can be answered in a process: anything from the rest of it, except that a cached delegation
is one of the zone looked up. -/
def walkAnswers (N : Net ι) : (o : Op) → o.Res → Prop
  | .query asked ip q, r => N.reply asked ip q r
  | .delegationGet zone, r => ∀ step, r = some step → step.zone.same zone = true
  | _, _ => True

/-- Each zone is a proper subdomain of those before it, and all are at or above the name. -/
structure Descending (name : Name) (zones : List Name) : Prop where
  strict : zones.Pairwise ProperlyBelow
  encloses : ∀ z ∈ zones, z.zoneOf name = true

/-- Every referral is to a zone other than the root, at or below the zone whose servers sent it and at or
above the name in question. -/
def ReferralsDescend (N : Net ι) : Prop :=
  ∀ asked ip q m zone nsRecords glue, N.reply asked ip q (.parsed m) →
    classify m.lowercaseResponseNames q.name q.queryType = .referral zone nsRecords glue →
    zone ≠ Name.root ∧ asked.zoneOf zone = true ∧ zone.zoneOf q.name = true

/-! ## Label counts along a descent -/

theorem Descending.length_le {name z : Name} {zones : List Name} (h : Descending name (z :: zones)) :
    z.labels.length + zones.length ≤ name.labels.length := by
  induction zones generalizing z with
  | nil => exact Name.zoneOf_length (h.encloses z (.head _))
  | cons z' zones ih =>
    obtain ⟨hbelow, hrest⟩ := pairwise_cons.mp h.strict
    have hlt := (hbelow z' (.head _)).length_lt
    have htail : Descending name (z' :: zones) :=
      ⟨hrest, fun y hy => h.encloses y (.tail _ hy)⟩
    have hle := ih htail
    rw [length_cons]
    omega

/-! ## Where a walk starts -/

section

variable {N : Net ι} {cfg : IterConfig} {q : Query} {start : Name} {hop next : Hop}
  {zones : List Name}

theorem StartedAt.encloses (h : StartedAt (walkAnswers N) cfg q hop) : hop.zone.zoneOf q.name = true := by
  cases h with
  | root _ => exact Name.root_zoneOf _
  | closest _ hzone _ => exact hzone
  | @cached zones steps last _ hzones hall hlast =>
    -- The last step was found under an ancestor of the name.
    obtain ⟨front, rfl⟩ := List.getLast?_eq_some_iff.mp hlast
    obtain ⟨z, rest, hz, _, hdrop⟩ :=
      List.forall₂_cons_right_iff.mp (List.forall₂_drop_append zones front [last] hall)
    have hmem : z ∈ ancestorZones q.name.baseName.labels := by
      refine mem_reverse.mp (hzones.subset (mem_of_mem_drop (i := front.length) ?_))
      rw [hdrop]
      exact .head _
    have hsuffix := (mem_ancestorZones hmem).trans (baseName_labels_suffix q.name)
    show last.zone.zoneOf q.name = true
    rw [Name.zoneOf_congr_left (hz last rfl)]
    exact zoneOf_of_labels_suffix hsuffix

/-! ## One referral -/

theorem Follows.properlyBelow (hN : ReferralsDescend N) (h : Follows (walkAnswers N) cfg q hop next) :
    ProperlyBelow hop.zone next.zone ∧ next.zone.zoneOf q.name = true := by
  obtain ⟨ip, m, nsRecords, glue, hm, hcls, _⟩ := h.referred
  obtain ⟨hroot, hdown, hencl⟩ := hN _ _ _ _ _ _ _ hm hcls
  exact ⟨properlyBelow_of_progressive hroot hdown h.progressive, hencl⟩

/-! ## The journey -/

theorem Moves.descending (hN : ReferralsDescend N) (h : Moves (walkAnswers N) cfg q start zones hop) :
    Descending q.name (start :: zones) ∧ ∀ z ∈ start :: zones, z.zoneOf hop.zone = true := by
  induction h with
  | start hstart hzone =>
    subst hzone
    refine ⟨⟨pairwise_singleton .., ?_⟩, ?_⟩
    · intro z hz
      rw [mem_singleton.mp hz]
      exact hstart.encloses
    · intro z hz
      rw [mem_singleton.mp hz]
      exact Name.zoneOf_refl _
  | @refer zones hop next _ hfollows ih =>
    obtain ⟨hdesc, habove⟩ := ih
    obtain ⟨hbelow, hencl⟩ := hfollows.properlyBelow hN
    rw [← cons_append]
    refine ⟨⟨?_, ?_⟩, ?_⟩
    · refine pairwise_append.mpr ⟨hdesc.strict, pairwise_singleton .., ?_⟩
      intro z hz z' hz'
      rw [mem_singleton.mp hz']
      exact ProperlyBelow.trans (habove z hz) hbelow
    · intro z hz
      rcases mem_append.mp hz with hz | hz
      · exact hdesc.encloses z hz
      · rw [mem_singleton.mp hz]
        exact hencl
    · intro z hz
      rcases mem_append.mp hz with hz | hz
      · exact Name.zoneOf_trans (habove z hz) hbelow.1
      · rw [mem_singleton.mp hz]
        exact Name.zoneOf_refl _

def SentOnJourney (N : Net ι) (cfg : IterConfig) : Op → Prop
  | .query asked _ q => ∃ start zones hop, Moves (walkAnswers N) cfg q start zones hop ∧ hop.zone = asked
  | _ => True

theorem tour_moves (N : Net ι) (cfg : IterConfig) :
    Tour (SentOnJourney N cfg) (walkAnswers N) cfg fun q hop =>
      ∃ start zones, Moves (walkAnswers N) cfg q start zones hop where
  free o ho := by cases o <;> trivial
  ask _ hop _ := fun ⟨start, zones, hmoves⟩ _ => ⟨start, zones, hop, hmoves, rfl⟩
  start _ hop h := ⟨hop.zone, [], .start h rfl⟩
  next _ _ _ := fun ⟨start, zones, hmoves⟩ hfollows => ⟨start, _, .refer hmoves hfollows⟩
  glue _ _ _ _ _ _ _ _ _ _ := trivial
  zoneNs _ _ _ _ _ _ _ := trivial

end

/-! ## The answers of a process -/

def DelegationsKeyed (w : World ι) : Prop :=
  ∀ i zone e, AList.lookup zone (w.inst i).delegations = some e → zone = e.step.zone.toLowercase

def directScript : Script where
  reply asked _ q :=
    .parsed (if asked = Name.root ∧ childZone.zoneOf q.name = true then signedReferral 2 else {})

theorem directScript_descends : ReferralsDescend (directScript.net rootAnchors : Net Unit) := by
  intro asked ip q m zone nsRecords glue hm hcls
  cases hm
  by_cases href : asked = Name.root ∧ childZone.zoneOf q.name = true
  · rw [if_pos href] at hcls
    obtain ⟨⟨r, hr, hns, rfl⟩, _⟩ := classify_eq_referral hcls
    have hzone : ∀ r ∈ (signedReferral 2).lowercaseResponseNames.authorities,
        r.name.toLowercase = childZone := by decide
    rw [hzone r hr, href.1]
    exact ⟨by decide, Name.root_zoneOf _, href.2⟩
  · rw [if_neg href] at hcls
    obtain ⟨⟨r, hr, _⟩, _⟩ := classify_eq_referral hcls
    nomatch hr

def strayServer (ip : IpAddr) : Message :=
  if ip = .v4 1 then referralTo childZone 2 []
  else if ip = .v4 2 then referralTo sidewaysZone 3 []
  else if ip = .v4 3 then referralTo Name.root 4 []
  else if ip = .v4 4 then referralTo childZone 5 []
  else signedAnswer insideName childZone

def deepServer (ip : IpAddr) : Message :=
  if ip = .v4 1 then referralTo childZone 2 []
  else if ip = .v4 2 then referralTo insideName 3 []
  else signedAnswer insideName childZone

def zonesFollowed (server : IpAddr → Message) : Option (List Name) :=
  ((serverScript server).result (walk { dnssecOk := true, maxDepth := 1 } 1 insideName .A .IN
    ⟨1, 384, 8⟩) (freshWorld rootAnchors)).toOption.map fun r => r.2.1.steps.map ChainStep.zone

end Dnsd.Recursor
