/-
# Downgrade — when a signed zone's answer comes out Insecure.

In a validated zone an answer without signatures should be Bogus.  The validator gives Insecure for an RRset
without an RRSIG, for an empty answer without NSEC and NSEC3 records and for a denial about something else; for
messages whose RRSIGs name the root or a zone of the walk these are the only ways (`Protected`).
-/
import Dnsd.Recursor.AnswerCheck
import Dnsd.Recursor.ValidatorSpec
import Dnsd.Recursor.Script

namespace Dnsd.Recursor

open Proto Lib Prog List

/-! ## Protected messages -/

def denialProof (C : Crypto) (resp : Message) : DenialOutcome :=
  if (authoritySets isNsec3 resp.authorities).isEmpty then
    proveDenialNsec (authoritySets isNsec resp.authorities) (firstQuestion resp).1
      (firstQuestion resp).2 resp.responseCode
  else
    proveDenialNsec3 C (authoritySets isNsec3 resp.authorities) (firstQuestion resp).1
      (firstQuestion resp).2 resp.responseCode

/-- Every answer RRset has a signature; without answer RRsets there are NSEC or NSEC3 records, and they
speak about the question. -/
def Protected (C : Crypto) (resp : Message) : Prop :=
  if (answerGroups resp.answers).isEmpty then
    ((authoritySets isNsec resp.authorities).isEmpty &&
        (authoritySets isNsec3 resp.authorities).isEmpty) = false ∧
      denialProof C resp ≠ .insecure
  else
    ∀ g ∈ answerGroups resp.answers,
      (coveringSig (answerSigs resp.answers) g.1.name g.1.rtype).isSome = true

variable {C : Crypto} {now : UInt32} {chain : ChainKeys} {resp : Message}

/-! ## The check of the answer -/

theorem closestTrustedKeys_ne_nil {zone : Name} (hfilled : ∀ e ∈ chain, e.2 ≠ [])
    (hz : hasZone chain zone = true) : closestTrustedKeys chain zone ≠ [] := by
  obtain ⟨x, hx, hs⟩ := hasZone_iff.mp hz
  obtain ⟨e, he, _⟩ := closestEntry_max hx (Name.zoneOf_of_same hs)
  have hkeys : closestTrustedKeys chain zone = e.2 := by
    simp only [closestTrustedKeys, he]
  rw [hkeys]
  exact hfilled e (closestEntry_mem he).1

theorem checkAnswerRrsets_not_insecure_iff {sigs : List (RRSIG × Name)}
    {gs : List (RrsetKey × List Record)}
    (hkeys : ∀ g ∈ gs, ∀ sig, coveringSig sigs g.1.name g.1.rtype = some sig →
      closestTrustedKeys chain sig.signerName ≠ []) :
    checkAnswerRrsets C now chain sigs gs ≠ .insecure ↔
      (∀ g ∈ gs, (coveringSig sigs g.1.name g.1.rtype).isSome = true) ∨
        ∃ r, checkAnswerRrsets C now chain sigs gs = .bogus r := by
  constructor
  · intro hne
    cases hst : checkAnswerRrsets C now chain sigs gs with
    | insecure => exact absurd hst hne
    | bogus r => exact Or.inr ⟨r, rfl⟩
    | secure =>
      left
      intro g hg
      obtain ⟨sig, hsig, _⟩ := checkAnswerRrsets_eq_secure_iff.mp hst g hg
      rw [hsig]
      rfl
  · rintro (hall | ⟨r, hr⟩) hins
    · obtain ⟨before, g, after, rfl, _, hg⟩ := checkAnswerRrsets_eq_insecure_iff.mp hins
      have hmem : g ∈ before ++ g :: after := by simp
      obtain ⟨sig, hsig⟩ := Option.isSome_iff_exists.mp (hall g hmem)
      exact hkeys g hmem sig hsig (checkAnswerRrset_eq_insecure_iff.mp hg sig hsig).2
    · rw [hins] at hr
      nomatch hr

theorem validateDenial_not_insecure_iff :
    validateDenial C now resp chain (firstQuestion resp).1 (firstQuestion resp).2 ≠ .insecure ↔
      (((authoritySets isNsec resp.authorities).isEmpty &&
          (authoritySets isNsec3 resp.authorities).isEmpty) = false ∧
        denialProof C resp ≠ .insecure) ∨
      ∃ r, validateDenial C now resp chain (firstQuestion resp).1 (firstQuestion resp).2 = .bogus r := by
  unfold validateDenial
  dsimp only
  split
  · rename_i hempty
    simp [hempty]
  rename_i hsome
  -- A set that fails to verify makes the denial Bogus; otherwise the proof decides.
  split
  · simp
  split
  · simp
  · rw [← denialProof]
    have hsome' := Bool.eq_false_iff.mpr hsome
    simp only [hsome', true_and]
    constructor
    · exact Or.inl
    · rintro (h | ⟨r, hr⟩)
      · exact h
      · rw [hr]
        nofun

theorem validateAnswerAgainstChain_not_insecure_iff (hfilled : ∀ e ∈ chain, e.2 ≠ [])
    (hsigners : ∀ r ∈ resp.answers ++ resp.authorities, ∀ sig, r.rrsig? = some sig →
      hasZone chain sig.signerName = true) {status : ValidationStatus}
    (hst : status = validateAnswerAgainstChain C now resp chain (firstQuestion resp).1
      (firstQuestion resp).2) :
    status ≠ .insecure ↔ Protected C resp ∨ ∃ r, status = .bogus r := by
  subst hst
  unfold validateAnswerAgainstChain Protected
  dsimp only
  split
  · rename_i hempty
    have hiff := @validateDenial_not_insecure_iff C now chain resp
    cases hd : validateDenial C now resp chain (firstQuestion resp).1 (firstQuestion resp).2 with
    | secure => simpa [hd, DenialOutcome.toStatus] using hiff
    | insecure => simpa [hd, DenialOutcome.toStatus] using hiff
    | bogus r => simp [DenialOutcome.toStatus]
  · refine checkAnswerRrsets_not_insecure_iff ?_
    intro g _ sig hsig
    obtain ⟨r, hr, hrs⟩ := coveringSig_mem hsig
    exact closestTrustedKeys_ne_nil hfilled (hsigners r (mem_append_left _ hr) sig hrs)

/-! ## Whole validations -/

theorem walkKeys_error {ok : (o : Op) → o.Res → Prop} {walk : WalkChain} {ips : List IpAddr}
    {status : ValidationStatus} (hanchors : ∀ a, ok .loadAnchors a → a.keys ≠ [])
    (h : (walkKeys C walk).Yields ok (ips, .error status, walk.steps.map ChainStep.zone)) :
    ∃ r, status = .bogus r := by
  obtain ⟨a, ha, h⟩ := yields_perform_bind.mp h
  have hseed : (seedChain a).isEmpty = false :=
    Bool.eq_false_iff.mpr fun h => seedChain_ne_nil (hanchors a ha) (isEmpty_iff.mp h)
  rw [hseed] at h
  obtain ⟨roots, _, h⟩ := yields_perform_bind.mp h
  obtain ⟨rooted, hroot, h⟩ := yields_bind.mp h
  cases rooted with
  | error s =>
    have hs : status = s := Except.error.inj (congrArg (fun r => r.2.1) (yields_ret.mp h))
    obtain ⟨spliced, _, h⟩ := yields_bind.mp hroot
    cases spliced with
    | error e => exact ⟨_, hs.trans (Except.error.inj (yields_ret.mp h))⟩
    | ok c => nomatch yields_ret.mp h
  | ok chain =>
    obtain ⟨states, _, h⟩ := yields_bind.mp h
    obtain ⟨r, hsteps, h⟩ := yields_bind.mp h
    cases yields_ret.mp h
    -- A failed step is not reported, so the report is too short.
    have hlen := (hsteps.always validateSteps_covers).2
    simp [Reported] at hlen

theorem Trusted.filled {ι : Type} {N : Net ι} {i : ι} {zone : Name} {keys : List DNSKEY}
    (h : Trusted (asCoded C) C N i zone keys) : keys ≠ [] := by
  cases h with
  | anchor _ hne _ => exact hne
  | rootSet _ hrec _ _ _ hver =>
    obtain ⟨k, _, hv⟩ := hver
    exact hrec.keys_ne_nil hv
  | link _ hl =>
    obtain ⟨_, _, _, _, _, set, sig, _, _, rfl, _, _, _, hself, _⟩ := hl
    obtain ⟨k, hk, _⟩ := any_eq_true.mp hself
    exact ne_nil_of_mem hk

def strippedAnswer : Message :=
  { signedAnswer insideName childZone with
    answers := [sampleRecord insideName (.a 7)] }

def foreignSigned : Message :=
  { signedAnswer insideName childZone with
    authorities := [sampleRecord insideName (.rrsig (sampleSig ⟨[[113]]⟩ .NS))] }

end Dnsd.Recursor
