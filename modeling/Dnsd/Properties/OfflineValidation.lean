/-
# OfflineValidation — the verdict on a response without a walk.

`validate_response` should report the worst outcome (`Verified`, `Failing`).  Its flag for "some RRset has
verified" wins over RRsets that could not be checked, and the signature of an RRset is the first one that covers
its type, of whatever owner.
-/
import Dnsd.Recursor.Script

namespace Dnsd.Recursor

open Proto Lib List

/-! ## The code -/

def TrustAnchors.dnskeysFor (anchors : TrustAnchors) (owner : Name) : List DNSKEY :=
  (anchors.keys.filter fun a => a.1.same owner).map Prod.snd

section

variable (C : Crypto)

def checkOffline (sigs : List RRSIG) (anchors : TrustAnchors) (g : RrsetKey × List Record) :
    ValidationStatus :=
  match sigs.find? fun s => s.typeCovered == g.1.rtype with
  | none => .insecure
  | some sig =>
      let candidates := anchors.dnskeysFor sig.signerName
      if candidates.isEmpty then .insecure
      else if candidates.any fun key => verifyRrset C g.2 sig key then .secure
      else .bogus (.answerUnverified g.1.name g.1.rtype sig.signerName)

/-- The loop over the RRsets, with `overall` and `saw_secure`. -/
def offlineLoop (sigs : List RRSIG) (anchors : TrustAnchors) :
    List (RrsetKey × List Record) → ValidationStatus → Bool → ValidationStatus
  | [], overall, sawSecure => if sawSecure then .secure else overall
  | g :: gs, overall, sawSecure =>
      match checkOffline C sigs anchors g with
      | .insecure => offlineLoop sigs anchors gs .insecure sawSecure
      | .secure => offlineLoop sigs anchors gs overall true
      | .bogus reason => .bogus reason

def validateResponse (resp : Message) (anchors : TrustAnchors) : ValidationStatus :=
  let groups := answerGroups resp.answers
  let sigs := resp.answers.filterMap Record.rrsig?
  if groups.isEmpty then .insecure else offlineLoop C sigs anchors groups .secure false

end

/-! ## What the loop returns -/

section

variable {C : Crypto} {sigs : List RRSIG} {anchors : TrustAnchors} {gs : List (RrsetKey × List Record)}
  {overall : ValidationStatus} {sawSecure : Bool}

theorem offlineLoop_bogus (h : ∃ g ∈ gs, ∃ r, checkOffline C sigs anchors g = .bogus r) :
    ∃ r, offlineLoop C sigs anchors gs overall sawSecure = .bogus r := by
  induction gs generalizing overall sawSecure with
  | nil =>
    obtain ⟨g, hg, _⟩ := h
    nomatch hg
  | cons g gs ih =>
    unfold offlineLoop
    split
    · rename_i hcheck
      obtain ⟨g', hg', r, hr⟩ := h
      rcases mem_cons.mp hg' with rfl | hg'
      · nomatch hcheck.symm.trans hr
      · exact ih ⟨g', hg', r, hr⟩
    · rename_i hcheck
      obtain ⟨g', hg', r, hr⟩ := h
      rcases mem_cons.mp hg' with rfl | hg'
      · nomatch hcheck.symm.trans hr
      · exact ih ⟨g', hg', r, hr⟩
    · exact ⟨_, rfl⟩

theorem offlineLoop_clear (h : ∀ g ∈ gs, ∀ r, checkOffline C sigs anchors g ≠ .bogus r) :
    offlineLoop C sigs anchors gs overall sawSecure =
      if sawSecure = true ∨ ∃ g ∈ gs, checkOffline C sigs anchors g = .secure then .secure
      else if gs = [] then overall else .insecure := by
  induction gs generalizing overall sawSecure with
  | nil => simp [offlineLoop]
  | cons g gs ih =>
    have hrest := fun g' hg' => h g' (.tail _ hg')
    unfold offlineLoop
    split
    · rename_i hcheck
      rw [ih hrest]
      simp only [exists_mem_cons_iff, hcheck, reduceCtorEq, false_or, if_false]
      by_cases hgs : gs = []
      · simp
      · simp
    · rename_i hcheck
      rw [ih hrest]
      simp [hcheck]
    · rename_i r hcheck
      exact absurd hcheck (h g (.head _) r)

end

/-! ## The verdict of one RRset -/

/-- The RRSIG is in the answer section, at the owner of the RRset, and covers its type. -/
def CoversRrset (answers : List Record) (g : RrsetKey × List Record) (sig : RRSIG) : Prop :=
  ∃ owner, (sig, owner) ∈ answerSigs answers ∧ sig.typeCovered = g.1.rtype ∧ owner.same g.1.name = true

/-- A covering signature of the RRset verifies under an anchor of its signer. -/
def Verified (C : Crypto) (answers : List Record) (anchors : TrustAnchors) (g : RrsetKey × List Record) :
    Prop :=
  ∃ sig, CoversRrset answers g sig ∧
    ∃ key ∈ anchors.dnskeysFor sig.signerName, verifyRrset C g.2 sig key = true

/-- The RRset has a covering signature with a known signer, and does not verify. -/
def Failing (C : Crypto) (answers : List Record) (anchors : TrustAnchors) (g : RrsetKey × List Record) :
    Prop :=
  (∃ sig, CoversRrset answers g sig ∧ anchors.dnskeysFor sig.signerName ≠ []) ∧
    ¬Verified C answers anchors g

/-- One signature covers the type of the RRset, and it is at the owner of the RRset. -/
def OneSignature (answers : List Record) (g : RrsetKey × List Record) : Prop :=
  ∀ s ∈ answerSigs answers, s.1.typeCovered = g.1.rtype → s.2.same g.1.name = true ∧
    ∀ s' ∈ answerSigs answers, s'.1.typeCovered = g.1.rtype → s'.1 = s.1

instance (answers : List Record) (g : RrsetKey × List Record) : Decidable (OneSignature answers g) :=
  inferInstanceAs (Decidable (∀ s ∈ answerSigs answers, _ → _))

section

variable {C : Crypto} {answers : List Record} {anchors : TrustAnchors} {g : RrsetKey × List Record}

theorem mem_answerSigs_fst {sig : RRSIG} (h : sig ∈ answers.filterMap Record.rrsig?) :
    ∃ owner, (sig, owner) ∈ answerSigs answers := by
  obtain ⟨r, hr, hsig⟩ := mem_filterMap.mp h
  refine ⟨r.name, mem_filterMap.mpr ⟨r, hr, ?_⟩⟩
  rw [hsig]
  rfl

theorem mem_rrsigs {sig : RRSIG} {owner : Name} (h : (sig, owner) ∈ answerSigs answers) :
    sig ∈ answers.filterMap Record.rrsig? := by
  obtain ⟨r, hr, hsig⟩ := mem_filterMap.mp h
  obtain ⟨s, hs, heq⟩ := Option.map_eq_some_iff.mp hsig
  cases heq
  exact mem_filterMap.mpr ⟨r, hr, hs⟩

theorem covered_of_find {sigs : List RRSIG} {sig : RRSIG} {rtype : RecordType}
    (h : (sigs.find? fun s => s.typeCovered == rtype) = some sig) : sig ∈ sigs ∧ sig.typeCovered = rtype := by
  have hbeq := List.find?_some h
  exact ⟨mem_of_find?_eq_some h, beq_iff_eq.mp hbeq⟩

theorem find_eq_some_iff (hone : OneSignature answers g) {sig : RRSIG} :
    (answers.filterMap Record.rrsig?).find? (fun s => s.typeCovered == g.1.rtype) = some sig ↔
      CoversRrset answers g sig := by
  constructor
  · intro h
    obtain ⟨hmem, htype⟩ := covered_of_find h
    obtain ⟨owner, howner⟩ := mem_answerSigs_fst hmem
    exact ⟨owner, howner, htype, (hone _ howner htype).1⟩
  · rintro ⟨owner, howner, htype, _⟩
    cases hfind : (answers.filterMap Record.rrsig?).find? fun s => s.typeCovered == g.1.rtype with
    | none =>
      have hno := List.find?_eq_none.mp hfind sig (mem_rrsigs howner)
      exact absurd (beq_iff_eq.mpr htype) hno
    | some sig' =>
      obtain ⟨hmem', htype'⟩ := covered_of_find hfind
      obtain ⟨owner', howner'⟩ := mem_answerSigs_fst hmem'
      exact congrArg some ((hone _ howner htype).2 _ howner' htype')

theorem checkOffline_cases (hone : OneSignature answers g) :
    (checkOffline C (answers.filterMap Record.rrsig?) anchors g = .secure ↔
      Verified C answers anchors g) ∧
    ((∃ r, checkOffline C (answers.filterMap Record.rrsig?) anchors g = .bogus r) ↔
      Failing C answers anchors g) := by
  unfold checkOffline
  cases hfind : (answers.filterMap Record.rrsig?).find? fun s => s.typeCovered == g.1.rtype with
  | none =>
    have hno : ∀ sig, ¬CoversRrset answers g sig := by
      intro sig hsig
      rw [(find_eq_some_iff hone).mpr hsig] at hfind
      nomatch hfind
    simp [Verified, Failing, hno]
  | some sig =>
    have hcovers := (find_eq_some_iff hone).mp hfind
    have honly : ∀ sig', CoversRrset answers g sig' → sig' = sig := by
      intro sig' hsig'
      rw [(find_eq_some_iff hone).mpr hsig'] at hfind
      exact Option.some.inj hfind
    have hverified : Verified C answers anchors g ↔
        ∃ key ∈ anchors.dnskeysFor sig.signerName, verifyRrset C g.2 sig key = true := by
      constructor
      · rintro ⟨sig', hsig', hkey⟩
        rwa [honly sig' hsig'] at hkey
      · exact fun hkey => ⟨sig, hcovers, hkey⟩
    have hknown : (∃ sig', CoversRrset answers g sig' ∧ anchors.dnskeysFor sig'.signerName ≠ []) ↔
        anchors.dnskeysFor sig.signerName ≠ [] := by
      constructor
      · rintro ⟨sig', hsig', hkeys⟩
        rwa [honly sig' hsig'] at hkeys
      · exact fun hkeys => ⟨sig, hcovers, hkeys⟩
    rw [Failing, hverified, hknown]
    dsimp only
    cases hkeys : anchors.dnskeysFor sig.signerName with
    | nil => simp
    | cons key keys =>
      simp only [isEmpty_cons, Bool.false_eq_true, if_false, ne_eq, reduceCtorEq,
        not_false_eq_true, true_and]
      by_cases hany : ((key :: keys).any fun key => verifyRrset C g.2 sig key) = true
      · rw [if_pos hany]
        obtain ⟨k, hk, hverify⟩ := any_eq_true.mp hany
        exact ⟨iff_of_true rfl ⟨k, hk, hverify⟩,
          iff_of_false (fun ⟨r, hr⟩ => nomatch hr) fun hnot => hnot ⟨k, hk, hverify⟩⟩
      · rw [if_neg hany]
        have hnone : ¬∃ k ∈ key :: keys, verifyRrset C g.2 sig k = true :=
          fun ⟨k, hk, hverify⟩ => hany (any_eq_true.mpr ⟨k, hk, hverify⟩)
        exact ⟨iff_of_false nofun hnone, iff_of_true ⟨_, rfl⟩ hnone⟩

end

/-! ## The verdict of a response -/

section

variable {C : Crypto} {resp : Message} {anchors : TrustAnchors}

theorem validateResponse_eq (hclear : ∀ g ∈ answerGroups resp.answers, ∀ r,
      checkOffline C (resp.answers.filterMap Record.rrsig?) anchors g ≠ .bogus r) :
    validateResponse C resp anchors =
      if ∃ g ∈ answerGroups resp.answers,
        checkOffline C (resp.answers.filterMap Record.rrsig?) anchors g = .secure then .secure
      else .insecure := by
  unfold validateResponse
  dsimp only
  cases hgroups : answerGroups resp.answers with
  | nil => simp
  | cons g gs =>
    rw [hgroups] at hclear
    rw [isEmpty_cons, if_neg Bool.false_ne_true, offlineLoop_clear hclear]
    simp only [Bool.false_eq_true, false_or, reduceCtorEq, if_false]

/-- The worst outcome is reported: Secure exactly if there is an RRset and all of them verify, Bogus if one
fails, and Insecure in the remaining cases. -/
structure WorstOutcome (C : Crypto) (resp : Message) (anchors : TrustAnchors) : Prop where
  secure : validateResponse C resp anchors = .secure ↔ answerGroups resp.answers ≠ [] ∧
    ∀ g ∈ answerGroups resp.answers, Verified C resp.answers anchors g
  bogus : (∃ g ∈ answerGroups resp.answers, Failing C resp.answers anchors g) →
    ∃ r, validateResponse C resp anchors = .bogus r
  insecure :
    (answerGroups resp.answers = [] ∨ ∃ g ∈ answerGroups resp.answers, ¬Verified C resp.answers anchors g) →
    (¬∃ g ∈ answerGroups resp.answers, Failing C resp.answers anchors g) →
    validateResponse C resp anchors = .insecure

/-- RRsets that verify are not mixed with RRsets that cannot be checked. -/
def Unmixed (C : Crypto) (resp : Message) (anchors : TrustAnchors) : Prop :=
  (∀ g ∈ answerGroups resp.answers, ¬Failing C resp.answers anchors g) →
  (∃ g ∈ answerGroups resp.answers, Verified C resp.answers anchors g) →
  ∀ g ∈ answerGroups resp.answers, Verified C resp.answers anchors g

theorem validateResponse_failing {g : RrsetKey × List Record} (hg : g ∈ answerGroups resp.answers)
    (hone : OneSignature resp.answers g) (hfailing : Failing C resp.answers anchors g) :
    ∃ r, validateResponse C resp anchors = .bogus r := by
  unfold validateResponse
  rw [if_neg (by simpa using ne_nil_of_mem hg)]
  exact offlineLoop_bogus ⟨g, hg, (checkOffline_cases hone).2.mpr hfailing⟩

theorem validateResponse_unfailing
    (hone : ∀ g ∈ answerGroups resp.answers, OneSignature resp.answers g)
    (hnone : ∀ g ∈ answerGroups resp.answers, ¬Failing C resp.answers anchors g) :
    ((∃ g ∈ answerGroups resp.answers, Verified C resp.answers anchors g) →
      validateResponse C resp anchors = .secure) ∧
    ((¬∃ g ∈ answerGroups resp.answers, Verified C resp.answers anchors g) →
      validateResponse C resp anchors = .insecure) := by
  have heq : validateResponse C resp anchors = _ := validateResponse_eq fun g hg r hr =>
    hnone g hg ((checkOffline_cases (hone g hg)).2.mp ⟨r, hr⟩)
  have hsome : (∃ g ∈ answerGroups resp.answers,
      checkOffline C (resp.answers.filterMap Record.rrsig?) anchors g = .secure) ↔
      ∃ g ∈ answerGroups resp.answers, Verified C resp.answers anchors g :=
    exists_congr fun g => and_congr_right fun hg => (checkOffline_cases (hone g hg)).1
  constructor
  · intro hverified
    rw [heq, if_pos (hsome.mpr hverified)]
  · intro hverified
    rw [heq, if_neg fun h => hverified (hsome.mp h)]

theorem worstOutcome_of_unmixed
    (hone : ∀ g ∈ answerGroups resp.answers, OneSignature resp.answers g) (h : Unmixed C resp anchors) :
    WorstOutcome C resp anchors := by
  by_cases hfail : ∃ g ∈ answerGroups resp.answers, Failing C resp.answers anchors g
  · obtain ⟨g, hg, hfailing⟩ := hfail
    have hbogus := validateResponse_failing hg (hone g hg) hfailing
    refine ⟨?_, fun _ => hbogus, fun _ hnot => absurd ⟨g, hg, hfailing⟩ hnot⟩
    obtain ⟨r, hr⟩ := hbogus
    rw [hr]
    exact iff_of_false nofun fun h => hfailing.2 (h.2 g hg)
  · have hnone : ∀ g ∈ answerGroups resp.answers, ¬Failing C resp.answers anchors g :=
      fun g hg hfailing => hfail ⟨g, hg, hfailing⟩
    obtain ⟨hsecure, hinsecure⟩ := validateResponse_unfailing hone hnone
    by_cases hverified : ∃ g ∈ answerGroups resp.answers, Verified C resp.answers anchors g
    · have hall := h hnone hverified
      have hne : answerGroups resp.answers ≠ [] := by
        obtain ⟨g, hg, _⟩ := hverified
        exact ne_nil_of_mem hg
      refine ⟨iff_of_true (hsecure hverified) ⟨hne, hall⟩, fun h => absurd h hfail, ?_⟩
      rintro (hnil | ⟨g', hg', hnot⟩) _
      · exact absurd hnil hne
      · exact absurd (hall g' hg') hnot
    · have heq := hinsecure hverified
      refine ⟨?_, fun h => absurd h hfail, fun _ _ => heq⟩
      rw [heq]
      refine iff_of_false nofun fun ⟨hne, hall⟩ => ?_
      obtain ⟨g, hg⟩ := exists_mem_of_ne_nil _ hne
      exact hverified ⟨g, hg, hall g hg⟩

end

/-! ## Samples -/

def ownerCrypto : Crypto where
  verifyRrsig _ owner _ sig _ := sig.sig == owner.labels.flatten
  covers _ _ _ := false
  nsec3Hash _ _ _ := none

def ownerSig (owner : Name) (covered : RecordType) : RRSIG :=
  { sampleSig Name.root covered with sig := owner.labels.flatten }

def signedAddress (owner : Name) : List Record :=
  [sampleRecord owner (.a 7), sampleRecord owner (.rrsig (ownerSig owner .A))]

def addressSet (owner : Name) : RrsetKey × List Record := (⟨owner, .A, .IN⟩, [sampleRecord owner (.a 7)])

theorem verified_signedAddress {answers : List Record} {owner : Name}
    (h : (ownerSig owner .A, owner) ∈ answerSigs answers) :
    Verified ownerCrypto answers rootAnchors (addressSet owner) := by
  have hkey : sampleKey 1 ∈ rootAnchors.dnskeysFor Name.root := by decide
  exact ⟨ownerSig owner .A, ⟨owner, h, rfl, Name.same_refl owner⟩, sampleKey 1, hkey, beq_iff_eq.mpr rfl⟩

def mixedAnswers : List Record := signedAddress insideName ++ [sampleRecord insideName (.aaaa 7)]

def sixSet : RrsetKey × List Record := (⟨insideName, .AAAA, .IN⟩, [sampleRecord insideName (.aaaa 7)])

def twoOwners : List Record := signedAddress insideName ++ signedAddress outsideName

end Dnsd.Recursor
