/-
# SignerBinding — who may sign what.

The signer's name is taken from the RRSIG and its zone bootstrapped; an RRset is verified with the keys of that
zone (`closestEntry_same`), but nothing compares the zone with the owner or with the name in question.
-/
import Dnsd.Recursor.AnswerCheck
import Dnsd.Recursor.Script

namespace Dnsd.Recursor

open Proto Lib Prog List

/-! ## The RRsets a verdict rests on -/

/-- The sets a verdict rests on, each with its owner and the signature it is checked with: the answer
RRsets, or the sets of a denial when there are none. -/
def checkedSets (resp : Message) : List (Name × List Record × Option RRSIG) :=
  if (answerGroups resp.answers).isEmpty then
    if (authoritySets isNsec3 resp.authorities).isEmpty then
      (authoritySets isNsec resp.authorities).map fun g =>
        (g.1, g.2, authoritySig (authoritySigs .NSEC resp.authorities) g)
    else
      (authoritySets isNsec3 resp.authorities).map fun g =>
        (g.1, g.2, authoritySig (authoritySigs .NSEC3 resp.authorities) g)
  else
    (answerGroups resp.answers).map fun g =>
      (g.1.name, g.2, coveringSig (answerSigs resp.answers) g.1.name g.1.rtype)

/-- The signer is at or above the owner, and in a denial at or above the name in question. -/
def Encloses (resp : Message) (owner : Name) (sig : RRSIG) : Prop :=
  sig.signerName.zoneOf owner = true ∧
    ((answerGroups resp.answers).isEmpty = true → sig.signerName.zoneOf (firstQuestion resp).1 = true)

instance (resp : Message) (owner : Name) (sig : RRSIG) : Decidable (Encloses resp owner sig) :=
  inferInstanceAs (Decidable (_ ∧ _))

/-- Every set was verified with the keys of the zone its signature names, and that zone encloses the
set's owner (and the name in question). -/
def SignerBound (C : Crypto) (now : UInt32) (chain : ChainKeys) (resp : Message) : Prop :=
  ∀ s ∈ checkedSets resp, ∃ sig, s.2.2 = some sig ∧ InWindow now sig ∧
    (∃ e ∈ chain, e.1.same sig.signerName = true ∧
      ∃ k ∈ e.2, verifyRrset C s.2.1 sig k = true) ∧
    Encloses resp s.1 sig

def SignersEnclose (resp : Message) : Prop :=
  ∀ s ∈ checkedSets resp, ∀ sig, s.2.2 = some sig → Encloses resp s.1 sig

variable {C : Crypto} {now : UInt32} {chain : ChainKeys} {resp : Message}

theorem checkedSets_verified {qname : Name} {qtype : RecordType}
    (h : validateAnswerAgainstChain C now resp chain qname qtype = .secure) :
    ∀ s ∈ checkedSets resp, ∃ sig, s.2.2 = some sig ∧ VerifiedBy C now chain s.2.1 sig := by
  unfold validateAnswerAgainstChain at h
  unfold checkedSets
  dsimp only at h
  split at h
  · rename_i hempty
    have hden : validateDenial C now resp chain qname qtype = .secure := by
      cases hd : validateDenial C now resp chain qname qtype with
      | secure => rfl
      | insecure => rw [hd] at h; nomatch h
      | bogus r => rw [hd] at h; nomatch h
    obtain ⟨hnsec, hnsec3⟩ := validateDenial_eq_secure hden
    rw [if_pos hempty]
    intro s hs
    split at hs
    · obtain ⟨g, hg, rfl⟩ := mem_map.mp hs
      exact hnsec g hg
    · obtain ⟨g, hg, rfl⟩ := mem_map.mp hs
      exact hnsec3 g hg
  · rename_i hne
    rw [if_neg hne]
    intro s hs
    obtain ⟨g, hg, rfl⟩ := mem_map.mp hs
    exact checkAnswerRrsets_eq_secure_iff.mp h g hg

/-! ## The signatures come from the message -/

theorem checkedSets_sig_mem {s : Name × List Record × Option RRSIG} {sig : RRSIG}
    (hs : s ∈ checkedSets resp) (hsig : s.2.2 = some sig) :
    ∃ r ∈ resp.answers ++ resp.authorities, r.rrsig? = some sig := by
  unfold checkedSets at hs
  split at hs
  · have hauth : ∃ r ∈ resp.authorities, r.rrsig? = some sig := by
      split at hs
      · obtain ⟨g, _, rfl⟩ := mem_map.mp hs
        exact authoritySig_mem hsig
      · obtain ⟨g, _, rfl⟩ := mem_map.mp hs
        exact authoritySig_mem hsig
    obtain ⟨r, hr, h⟩ := hauth
    exact ⟨r, mem_append_right _ hr, h⟩
  · obtain ⟨g, _, rfl⟩ := mem_map.mp hs
    obtain ⟨r, hr, h⟩ := coveringSig_mem hsig
    exact ⟨r, mem_append_left _ hr, h⟩

/-! ## Secure verdicts -/

theorem bootstrapSigners_hasZone {ok : (o : Op) → o.Res → Prop} {ips : List IpAddr}
    {chain' : ChainKeys} {r : Record} {sig : RRSIG}
    (h : (bootstrapSigners C ips (neededSigners chain resp) chain).Yields ok (.ok chain'))
    (hr : r ∈ resp.answers ++ resp.authorities) (hs : r.rrsig? = some sig) :
    hasZone chain' sig.signerName = true := by
  obtain ⟨hold, hnew⟩ := h.always bootstrapSigners_covers
  rcases neededSigners_spec hr hs with hz | ⟨n, hn, hsame⟩
  · exact hold _ hz
  · rw [← hasZone_congr hsame]
    exact hnew n hn

/-- **Signer binding.**  Whatever the network and the caches answer: behind a Secure verdict, with the
keys trusted when the answer was checked, every answer RRset and every set of a denial is bound to the
zone that its signature names exactly when the signatures used name enclosing zones.  Signers whose
leftmost label is `*` are left out. -/
theorem secure_signerBound_iff {ok : (o : Op) → o.Res → Prop} {walk : WalkChain} {zones : List Name}
    (h : (validateWalk C walk resp).Yields ok (.secure, zones))
    (hwild : ∀ s ∈ checkedSets resp, ∀ sig, s.2.2 = some sig → sig.signerName.isWildcard = false) :
    ∃ ips chain chain' now, (walkKeys C walk).Yields ok (ips, .ok chain, zones) ∧
      (bootstrapSigners C ips (neededSigners chain resp) chain).Yields ok (.ok chain') ∧
      ok .unixNow now ∧
      validateAnswerAgainstChain C now resp chain' (firstQuestion resp).1 (firstQuestion resp).2 =
        .secure ∧
      (SignerBound C now chain' resp ↔ SignersEnclose resp) := by
  obtain ⟨ips, chain, chain', now, hk, hboot, hnow, hst⟩ := validateWalk_secure h
  refine ⟨ips, chain, chain', now, hk, hboot, hnow, hst, ?_⟩
  constructor
  · intro hb s hs sig hsig
    obtain ⟨sig', hsig', _, _, hencl⟩ := hb s hs
    rw [hsig] at hsig'
    cases hsig'
    exact hencl
  · intro hencl s hs
    obtain ⟨sig, hsig, hwin, k, hkey, hver⟩ := checkedSets_verified hst s hs
    obtain ⟨r, hr, hrs⟩ := checkedSets_sig_mem hs hsig
    have hzone := bootstrapSigners_hasZone hboot hr hrs
    obtain ⟨e, he, hsame⟩ := closestEntry_same hzone (hwild s hs sig hsig)
    have hkeys : closestTrustedKeys chain' sig.signerName = e.2 := by
      simp only [closestTrustedKeys, he]
    exact ⟨sig, hsig, hwin, ⟨e, (closestEntry_mem he).1, hsame, k, hkeys ▸ hkey, hver⟩, hencl s hs sig hsig⟩

theorem secure_signerBound_childZone :
    ∃ chain' now, SignerBound (listCrypto [sampleKey 1, sampleKey 2]) now chain'
      (signedAnswer insideName childZone) := by
  have hsecure : (zoneScript [sampleKey 2]).result
      (validateWalk (listCrypto [sampleKey 1, sampleKey 2]) childWalk
        (signedAnswer insideName childZone)) (freshWorld rootAnchors) =
      (.secure, [childZone]) := by decide
  obtain ⟨_, _, chain', now, _, _, _, _, hiff⟩ :=
    secure_signerBound_iff (Script.yields_of_result hsecure) (by unfold checkedSets; decide)
  exact ⟨chain', now, hiff.mpr (by unfold SignersEnclose; decide)⟩

/-- The holder of `z.` signs an address of `v.` and has it accepted: the verdict is Secure, and under
no keys and at no time is the address bound to a zone at or above its owner. -/
theorem secure_signer_outside :
    (validateWalk (listCrypto [sampleKey 1, sampleKey 2]) childWalk
        (signedAnswer outsideName childZone)).Yields (zoneScript [sampleKey 2]).Answered
          (.secure, [childZone]) ∧
      childZone.zoneOf outsideName = false ∧
      ∀ now chain, ¬ SignerBound (listCrypto [sampleKey 1, sampleKey 2]) now chain
        (signedAnswer outsideName childZone) := by
  have hsecure : (zoneScript [sampleKey 2]).result
      (validateWalk (listCrypto [sampleKey 1, sampleKey 2]) childWalk
        (signedAnswer outsideName childZone)) (freshWorld rootAnchors) =
      (.secure, [childZone]) := by decide
  refine ⟨Script.yields_of_result hsecure, rfl, ?_⟩
  intro now chain hb
  have hset : (outsideName, [sampleRecord outsideName (.a 7)], some (sampleSig childZone .A)) ∈
      checkedSets (signedAnswer outsideName childZone) := by decide
  obtain ⟨sig, hsig, _, _, hencl, _⟩ := hb _ hset
  cases hsig
  nomatch (show false = true from hencl)

end Dnsd.Recursor
