/-
# AnswerCheck — what the end of a validation decides.

The last stage of `validate_walk`, taken apart: which zones have an entry when the answer is checked, which entry
is chosen for a signer, and when the loops over answer and authority RRsets accept.
-/
import Dnsd.Recursor.ValidatorPaths

namespace Dnsd.Recursor

open Proto Lib Prog List

variable {C : Crypto} {chain : ChainKeys} {answer resp : Message} {g : Name × List Record}
  {ips : List IpAddr} {keys : List DNSKEY} {labels : List Label} {needed zones : List Name} {now : UInt32}
  {r : Record} {rrsigsByOwner : List (Name × List (Name × RRSIG))} {sig : RRSIG}
  {state : Option StepDnskeyState} {status : ValidationStatus} {step : ChainStep} {walk : WalkChain}
  {z zone : Name}

/-! ## Which zones have an entry -/

theorem hasZone_congr {z' : Name} (h : z.same z' = true) : hasZone chain z = hasZone chain z' := by
  have hs : ∀ e : Name × List DNSKEY, e.1.same z = e.1.same z' := by
    intro e
    rw [Bool.eq_iff_iff]
    exact ⟨fun he => Name.same_trans he h, fun he => Name.same_trans he (Name.same_symm h)⟩
  simp only [hasZone, hs]

theorem hasZone_putEntry :
    hasZone (putEntry chain zone keys) z = true ↔ hasZone chain z = true ∨ zone.same z = true := by
  simp only [hasZone_iff, putEntry, mem_append, mem_filter, mem_singleton]
  constructor
  · rintro ⟨e, ⟨he, _⟩ | rfl, hs⟩
    · exact Or.inl ⟨e, he, hs⟩
    · exact Or.inr hs
  · rintro (⟨e, he, hs⟩ | hs)
    · by_cases hz : e.1.same zone = true
      -- An entry of the zone itself is replaced by the new one.
      · exact ⟨(zone, keys), Or.inr rfl, Name.same_trans (Name.same_symm hz) hs⟩
      · exact ⟨e, Or.inl ⟨he, by simpa using hz⟩, hs⟩
    · exact ⟨(zone, keys), Or.inr rfl, hs⟩

theorem hasZone_append :
    hasZone (chain ++ [(zone, keys)]) z = true ↔ hasZone chain z = true ∨ zone.same z = true := by
  simp [hasZone]

def Covers {ε : Type} (fails : ε → Prop) (chain : ChainKeys) (zones : List Name) : Except ε ChainKeys → Prop
  | .ok c => (∀ z, hasZone chain z = true → hasZone c z = true) ∧ ∀ z ∈ zones, hasZone c z = true
  | .error e => fails e

section

variable {ε : Type} {fails : ε → Prop} {zones : List Name}

theorem covers_refl (h : ∀ z ∈ zones, hasZone chain z = true) :
    Covers fails chain zones (.ok chain) := ⟨fun _ hz => hz, h⟩

theorem covers_putEntry {zone : Name} {keys : List DNSKEY} :
    Covers fails chain [zone] (.ok (putEntry chain zone keys)) := by
  refine ⟨fun z hz => hasZone_putEntry.mpr (Or.inl hz), ?_⟩
  intro z hz
  rw [mem_singleton.mp hz]
  exact hasZone_putEntry.mpr (Or.inr (Name.same_refl _))

theorem Covers.trans {c : ChainKeys} {zones' : List Name} {r : Except ε ChainKeys}
    (h : Covers fails chain zones (.ok c)) (h' : Covers fails c zones' r) :
    Covers fails chain (zones ++ zones') r := by
  cases r with
  | error e => exact h'
  | ok c' =>
    obtain ⟨hold, hnew⟩ := h
    obtain ⟨hold', hnew'⟩ := h'
    refine ⟨fun z hz => hold' z (hold z hz), ?_⟩
    intro z hz
    rcases mem_append.mp hz with hz | hz
    · exact hold' z (hnew z hz)
    · exact hnew' z hz

end

abbrev anyFailure {ε : Type} : ε → Prop := fun _ => True

abbrev notSecure : ValidationStatus → Prop := fun s => s ≠ .secure

theorem Puts.covers {ε : Type} {r : Except ε ChainKeys} (h : Puts chain zone r) :
    Covers anyFailure chain [zone] r := by
  cases r with
  | error e => trivial
  | ok c =>
    obtain ⟨keys, rfl⟩ := h
    exact covers_putEntry

theorem bootstrapZones_covers :
    (bootstrapZones C ips zones chain).Always (Covers anyFailure chain zones) := by
  induction zones generalizing chain with
  | nil => exact always_ret (covers_refl fun _ h => nomatch h)
  | cons zone zones ih =>
    refine Always.bind bootstrapZone_puts fun r hr => ?_
    cases r with
    | error e => exact always_ret trivial
    | ok c => exact fun r hr' => hr.covers.trans (ih r hr')

def Needs (chain : ChainKeys) (labels : List Label) (z : Name) : Prop :=
  z.labels <:+ labels ∧ ∀ t, z.labels <:+ t → t <:+ labels → hasZone chain ⟨t⟩ = false

theorem mem_missingAncestors (h : missingAncestors chain labels = some zones) :
    z ∈ zones ↔ Needs chain labels z := by
  have htrusted : ∀ ls, hasZone chain ⟨ls⟩ = true → ¬ Needs chain ls z := by
    intro ls hz hn
    rw [hn.2 ls hn.1 suffix_rfl] at hz
    cases hz
  induction labels generalizing zones with
  | nil =>
    unfold missingAncestors at h
    split at h
    · rename_i hz
      cases h
      exact ⟨(absurd · not_mem_nil), fun hn => absurd hn (htrusted _ hz)⟩
    · cases h
  | cons l ls ih =>
    unfold missingAncestors at h
    split at h
    · rename_i hz
      cases h
      exact ⟨(absurd · not_mem_nil), fun hn => absurd hn (htrusted _ hz)⟩
    · rename_i hz
      obtain ⟨zs, hzs, rfl⟩ := Option.map_eq_some_iff.mp h
      have hmem : z ∈ zs ↔ Needs chain ls z := ih hzs
      rw [mem_append, mem_singleton, hmem]
      constructor
      · rintro (⟨hsuf, hall⟩ | rfl)
        · refine ⟨hsuf.trans (suffix_cons l ls), fun t ht hts => ?_⟩
          rcases suffix_cons_iff.mp hts with rfl | hts
          · simpa using hz
          · exact hall t ht hts
        · refine ⟨suffix_rfl, fun t ht hts => ?_⟩
          rw [List.IsSuffix.eq_of_length_le hts ht.length_le]
          simpa using hz
      · rintro ⟨hsuf, hall⟩
        rcases suffix_cons_iff.mp hsuf with heq | hsuf'
        · exact Or.inr (congrArg Name.mk heq)
        · exact Or.inl ⟨hsuf', fun t ht hts => hall t ht (hts.trans (suffix_cons l ls))⟩

theorem missingAncestors_covers (h : missingAncestors chain labels = some zones) :
    hasZone chain ⟨labels⟩ = true ∨ ⟨labels⟩ ∈ zones := by
  cases labels with
  | nil =>
    unfold missingAncestors at h
    split at h
    · rename_i hz
      exact Or.inl hz
    · cases h
  | cons l ls =>
    unfold missingAncestors at h
    split at h
    · rename_i hz
      exact Or.inl hz
    · obtain ⟨zs, _, rfl⟩ := Option.map_eq_some_iff.mp h
      exact Or.inr (by simp)

theorem bootstrapIntermediateZone_covers {target : Name} :
    (bootstrapIntermediateZone C chain target ips).Always (Covers anyFailure chain [target]) := by
  unfold bootstrapIntermediateZone
  split
  · exact always_ret trivial
  rename_i zones hzones
  intro r hr
  have hzs := bootstrapZones_covers r hr
  cases r with
  | error e => trivial
  | ok c =>
    obtain ⟨hold, hnew⟩ := hzs
    refine ⟨hold, ?_⟩
    intro z hz
    have hsame : target.toLowercase.same target = true := by simp
    rw [mem_singleton.mp hz, ← hasZone_congr hsame]
    rcases missingAncestors_covers hzones with h | h
    · exact hold _ h
    · exact hnew _ h

theorem bootstrapSigner_covers {signer : Name} :
    (bootstrapSigner C chain signer ips).Always (Covers anyFailure chain [signer]) := by
  unfold bootstrapSigner
  split
  · rename_i h
    refine always_ret (covers_refl ?_)
    intro z hz
    rw [mem_singleton.mp hz]
    exact h
  · exact bootstrapIntermediateZone_covers

theorem bootstrapSigners_covers {signers : List Name} :
    (bootstrapSigners C ips signers chain).Always (Covers anyFailure chain signers) := by
  induction signers generalizing chain with
  | nil => exact always_ret (covers_refl fun _ h => nomatch h)
  | cons signer signers ih =>
    refine Always.bind bootstrapIntermediateZone_covers fun r hr => ?_
    cases r with
    | error e => exact always_ret trivial
    | ok c => exact fun r hr' => hr.trans (ih r hr')

def Pushes (chain : ChainKeys) (zone : Name) : Except ValidationStatus ChainKeys → Prop
  | .ok c => ∃ keys, c = chain ++ [(zone, keys)]
  | .error status => status ≠ .secure

theorem Pushes.covers {r : Except ValidationStatus ChainKeys} (h : Pushes chain zone r) :
    Covers notSecure chain [zone] r := by
  cases r with
  | error status => exact h
  | ok c =>
    obtain ⟨keys, rfl⟩ := h
    refine ⟨fun z hz => hasZone_append.mpr (Or.inl hz), ?_⟩
    intro z hz
    rw [mem_singleton.mp hz]
    exact hasZone_append.mpr (Or.inr (Name.same_refl _))

def StepDsVerified (C : Crypto) (chain : ChainKeys) (step : ChainStep) : Prop :=
  ∃ dsSig, dsSigOf step = some dsSig ∧
    ∃ k ∈ closestTrustedKeys chain step.zone, verifyRrset C step.ds dsSig k = true

theorem verifyStepDs_pushes :
    (verifyStepDs C step state chain).Always fun r => Pushes chain step.zone r ∧
      ∀ c, r = .ok c → StepDsVerified C chain step := by
  refine Contract.Safe.always (verifyStepDs_paths reads_all (fun _ _ h => ⟨h, fun c hc => nomatch hc⟩)
    fun sig now _ hsig _ _ hver => ?_)
  have hverified : StepDsVerified C chain step := ⟨sig, hsig, hver⟩
  refine acceptStepKeys_paths reads_all (fun _ _ h => ⟨h, fun c hc => nomatch hc⟩) (fun keys _ => ?_)
    fun set _ _ _ _ _ _ _ _ => ?_
  · exact ⟨trivial, fun _ _ => ⟨⟨keys, rfl⟩, fun _ _ => hverified⟩⟩
  · exact ⟨trivial, fun _ _ => ⟨trivial, fun _ _ => ⟨⟨set.keys, rfl⟩, fun _ _ => hverified⟩⟩⟩

theorem validateStep_covers :
    (validateStep C ips step state chain).Always (Covers notSecure chain [step.zone]) := by
  unfold validateStep
  cases dsSigOf step with
  | none => exact fun r hr => (verifyStepDs_pushes r hr).1.covers
  | some dsSig =>
    refine Always.bind bootstrapSigner_covers fun r hr => ?_
    cases r with
    | error e => exact always_ret nofun
    | ok c =>
      intro r' hr'
      have hstep := (verifyStepDs_pushes r' hr').1.covers
      cases r' with
      | error status => exact hstep
      | ok c' => exact ⟨fun z hz => hstep.1 z (hr.1 z hz), hstep.2⟩

def Reported (steps : List ChainStep) (zones : List Name) :
    Except ValidationStatus ChainKeys × List Name → Prop
  | (.ok _, zones') => zones' = zones ++ steps.map ChainStep.zone
  | (.error _, zones') => zones'.length < zones.length + steps.length

theorem validateSteps_covers {steps : List ChainStep} {states : List StepDnskeyState} :
    (validateSteps C ips steps states chain zones).Always fun r =>
      Covers notSecure chain (steps.map ChainStep.zone) r.1 ∧ Reported steps zones r := by
  induction steps generalizing states chain zones with
  | nil =>
    refine always_ret ⟨covers_refl (fun _ h => nomatch h), ?_⟩
    simp [Reported]
  | cons step steps ih =>
    refine Always.bind validateStep_covers fun r hr => ?_
    cases r with
    | error status =>
      refine always_ret ⟨hr, ?_⟩
      simp [Reported]
    | ok c =>
      intro r' hr'
      obtain ⟨hc, hz⟩ := ih r' hr'
      refine ⟨hr.trans hc, ?_⟩
      obtain ⟨keys, zones'⟩ := r'
      cases keys with
      | ok c' => simpa [Reported] using hz
      | error status =>
        simp only [Reported, length_append, length_cons, length_nil] at hz ⊢
        omega

theorem trustRoot_covers {anchors : TrustAnchors} :
    (trustRoot C anchors ips).Always (Covers notSecure (seedChain anchors) [Name.root]) := by
  refine Always.bind spliceInZoneDnskey_puts fun r hr => ?_
  cases r with
  | error e => exact always_ret nofun
  | ok c => exact always_ret hr.covers

theorem walkKeys_covers :
    (walkKeys C walk).Always fun r => match r.2.1 with
      | .ok c => r.2.2 = walk.steps.map ChainStep.zone ∧ hasZone c Name.root = true ∧
          ∀ s ∈ walk.steps, hasZone c s.zone = true
      | .error status => status ≠ .secure := by
  refine always_perform_bind fun anchors => ?_
  split
  · exact always_ret nofun
  refine always_perform_bind fun ips => ?_
  refine Always.bind trustRoot_covers fun r hr => ?_
  cases r with
  | error status => exact always_ret hr
  | ok chain =>
    refine Always.bind always_true fun states _ => ?_
    refine Always.bind validateSteps_covers fun r hr' => always_ret ?_
    obtain ⟨keys, zones⟩ := r
    cases keys with
    | error status => exact hr'.1
    | ok c =>
      obtain ⟨hold, hnew⟩ := hr'.1
      have hroot := hr.2 Name.root (mem_singleton_self _)
      refine ⟨hr'.2, hold _ hroot, ?_⟩
      intro s hs
      exact hnew _ (mem_map_of_mem hs)

theorem mem_addSigner {n : Name} (h : n ∈ needed) : n ∈ addSigner chain needed r := by
  unfold addSigner
  split
  · split
    · exact h
    · exact mem_append_left _ h
  · exact h

theorem addSigner_spec (hs : r.rrsig? = some sig) :
    hasZone chain sig.signerName = true ∨ ∃ n ∈ addSigner chain needed r, n.same sig.signerName = true := by
  unfold addSigner
  simp only [hs]
  split
  · rename_i hc
    rcases Bool.or_eq_true_iff.mp hc with hc | hc
    · exact Or.inl hc
    · exact Or.inr (any_eq_true.mp hc)
  · exact Or.inr ⟨sig.signerName, by simp, Name.same_refl _⟩

theorem neededSigners_spec (hr : r ∈ answer.answers ++ answer.authorities) (hs : r.rrsig? = some sig) :
    hasZone chain sig.signerName = true ∨
      ∃ n ∈ neededSigners chain answer, n.same sig.signerName = true := by
  by_cases hz : hasZone chain sig.signerName = true
  · exact Or.inl hz
  right
  suffices ∀ (rs : List Record) (needed : List Name),
      (r ∈ rs ∨ ∃ n ∈ needed, n.same sig.signerName = true) →
      ∃ n ∈ rs.foldl (addSigner chain) needed, n.same sig.signerName = true from
    this _ [] (Or.inl hr)
  intro rs
  induction rs with
  | nil => exact fun needed h => h.resolve_left nofun
  | cons r' rs ih =>
    intro needed h
    refine ih _ ?_
    rcases h with h | ⟨n, hn, hsame⟩
    · rcases mem_cons.mp h with rfl | h
      · exact Or.inr ((addSigner_spec hs).resolve_left hz)
      · exact Or.inl h
    · exact Or.inr ⟨n, mem_addSigner hn, hsame⟩

theorem neededSigners_eq_nil
    (h : ∀ r ∈ answer.answers ++ answer.authorities, ∀ sig, r.rrsig? = some sig → hasZone chain sig.signerName = true) :
    neededSigners chain answer = [] := by
  unfold neededSigners
  generalize answer.answers ++ answer.authorities = rs at h
  induction rs with
  | nil => rfl
  | cons r rs ih =>
    have hr : addSigner chain [] r = [] := by
      unfold addSigner
      split
      · rename_i s hs
        rw [h r (.head _) s hs]
        rfl
      · rfl
    rw [foldl_cons, hr]
    exact ih fun r' hr' => h r' (.tail _ hr')

def SignersWalked (walk : WalkChain) (resp : Message) : Prop :=
  ∀ r ∈ resp.answers ++ resp.authorities, ∀ sig, r.rrsig? = some sig →
    sig.signerName.isRoot = true ∨ ∃ s ∈ walk.steps, s.zone.same sig.signerName = true

theorem signersWalked_hasZone (h : SignersWalked walk resp) (hroot : hasZone chain Name.root = true)
    (hsteps : ∀ s ∈ walk.steps, hasZone chain s.zone = true) (hr : r ∈ resp.answers ++ resp.authorities)
    (hs : r.rrsig? = some sig) : hasZone chain sig.signerName = true := by
  rcases h r hr sig hs with hz | ⟨s, hs, hsame⟩
  · rwa [Name.isRoot_iff.mp hz]
  · rw [← hasZone_congr hsame]
    exact hsteps s hs

/-! ## The chosen entry -/

theorem closestEntry_max {x : Name × List DNSKEY} (hx : x ∈ chain) (hz : x.1.zoneOf zone = true) :
    ∃ e, closestEntry chain zone = some e ∧ x.1.numLabels ≤ e.1.numLabels := by
  suffices ∀ (chain : ChainKeys) (best : Option (Name × List DNSKEY)),
      (x ∈ chain ∨ ∃ b, best = some b ∧ x.1.numLabels ≤ b.1.numLabels) →
      ∃ e, chain.foldl (closer zone) best = some e ∧ x.1.numLabels ≤ e.1.numLabels from
    this chain none (Or.inl hx)
  intro chain
  induction chain with
  | nil => exact fun best h => h.resolve_left nofun
  | cons y chain ih =>
    intro best h
    refine ih _ ?_
    rcases h with h | ⟨b, rfl, hb⟩
    · rcases mem_cons.mp h with rfl | h
      · right
        have hc : (x.1.same zone || x.1.zoneOf zone) = true := by rw [hz, Bool.or_true]
        simp only [closer, hc, if_true]
        cases best with
        | none => exact ⟨x, rfl, Nat.le_refl _⟩
        | some b =>
          dsimp only
          split
          · exact ⟨x, rfl, Nat.le_refl _⟩
          · exact ⟨b, rfl, by omega⟩
      · exact Or.inl h
    · right
      unfold closer
      split
      · dsimp only
        split
        · exact ⟨y, rfl, by omega⟩
        · exact ⟨b, rfl, hb⟩
      · exact ⟨b, rfl, hb⟩

theorem closestEntry_same (hz : hasZone chain zone = true) (hw : zone.isWildcard = false) :
    ∃ e, closestEntry chain zone = some e ∧ e.1.same zone = true := by
  obtain ⟨x, hx, hs⟩ := hasZone_iff.mp hz
  obtain ⟨e, he, hle⟩ := closestEntry_max hx (Name.zoneOf_of_same hs)
  obtain ⟨_, hze⟩ := closestEntry_mem he
  have hlen : e.1.labels.length = zone.labels.length := by
    have h1 := Name.zoneOf_length hze
    have h2 := Name.numLabels_le e.1
    have h3 := Name.numLabels_congr hs
    have h4 := Name.numLabels_of_not_isWildcard hw
    omega
  exact ⟨e, he, Name.same_of_zoneOf_of_length hze hlen.ge⟩

/-! ## The loop over the answer RRsets -/

theorem coveringSig_mem {answers : List Record} {name : Name} {rtype : RecordType}
    (h : coveringSig (answerSigs answers) name rtype = some sig) :
    ∃ r ∈ answers, r.rrsig? = some sig := by
  obtain ⟨⟨s, owner⟩, hs, rfl⟩ := Option.map_eq_some_iff.mp h
  obtain ⟨r, hr, hmap⟩ := mem_filterMap.mp (mem_of_find?_eq_some hs)
  obtain ⟨s', hs', heq⟩ := Option.map_eq_some_iff.mp hmap
  cases heq
  exact ⟨r, hr, hs'⟩

/-- The records verify, within the signature's window, under a key chosen for its signer. -/
def VerifiedBy (C : Crypto) (now : UInt32) (chain : ChainKeys) (records : List Record)
    (sig : RRSIG) : Prop :=
  InWindow now sig ∧ ∃ k ∈ closestTrustedKeys chain sig.signerName, verifyRrset C records sig k = true

section

variable {now : UInt32} {sigs : List (RRSIG × Name)} {g : RrsetKey × List Record}
  {gs : List (RrsetKey × List Record)}

theorem checkAnswerRrset_eq_ok_iff :
    checkAnswerRrset C now chain sigs g = .ok () ↔
      ∃ sig, coveringSig sigs g.1.name g.1.rtype = some sig ∧ VerifiedBy C now chain g.2 sig := by
  unfold checkAnswerRrset VerifiedBy InWindow
  cases coveringSig sigs g.1.name g.1.rtype with
  | none => simp
  | some sig =>
    simp only [Option.some.injEq, exists_eq_left']
    cases checkRrsigValidity now sig with
    | error e => simp
    | ok _ =>
      dsimp only
      split
      · rename_i hempty
        rw [isEmpty_iff.mp hempty]
        simp
      · split
        · rename_i hany
          simpa using hany
        · rename_i hany
          simpa using hany

theorem checkAnswerRrset_eq_insecure_iff :
    checkAnswerRrset C now chain sigs g = .error .insecure ↔
      ∀ sig, coveringSig sigs g.1.name g.1.rtype = some sig →
        InWindow now sig ∧ closestTrustedKeys chain sig.signerName = [] := by
  unfold checkAnswerRrset InWindow
  cases coveringSig sigs g.1.name g.1.rtype with
  | none => simp
  | some sig =>
    simp only [Option.some.injEq, forall_eq']
    cases checkRrsigValidity now sig with
    | error e => simp
    | ok _ =>
      dsimp only
      split
      · rename_i hempty
        simp [isEmpty_iff.mp hempty]
      rename_i hempty
      have hne : closestTrustedKeys chain sig.signerName ≠ [] :=
        fun h => hempty (isEmpty_iff.mpr h)
      split <;> simp [hne]

theorem checkAnswerRrsets_eq_secure_iff :
    checkAnswerRrsets C now chain sigs gs = .secure ↔
      ∀ g ∈ gs, ∃ sig, coveringSig sigs g.1.name g.1.rtype = some sig ∧ VerifiedBy C now chain g.2 sig := by
  induction gs with
  | nil => simp [checkAnswerRrsets]
  | cons g gs ih =>
    rw [forall_mem_cons, ← ih, ← checkAnswerRrset_eq_ok_iff, checkAnswerRrsets]
    cases hg : checkAnswerRrset C now chain sigs g with
    | ok _ => simp
    | error status =>
      -- A failed check is never reported as Secure.
      have hne : status ≠ .secure := by
        rintro rfl
        unfold checkAnswerRrset at hg
        dsimp only at hg
        repeat' split at hg
        all_goals nomatch hg
      simp [hne]

theorem checkAnswerRrsets_eq_insecure_iff :
    checkAnswerRrsets C now chain sigs gs = .insecure ↔
      ∃ before g after, gs = before ++ g :: after ∧
        (∀ g' ∈ before, checkAnswerRrset C now chain sigs g' = .ok ()) ∧
        checkAnswerRrset C now chain sigs g = .error .insecure := by
  induction gs with
  | nil => simp [checkAnswerRrsets]
  | cons g gs ih =>
    unfold checkAnswerRrsets
    cases hg : checkAnswerRrset C now chain sigs g with
    | ok _ =>
      rw [ih]
      constructor
      · rintro ⟨before, g', after, rfl, hb, hg'⟩
        exact ⟨g :: before, g', after, rfl, by simpa [hg] using hb, hg'⟩
      · rintro ⟨before, g', after, heq, hb, hg'⟩
        cases before with
        | nil =>
          obtain ⟨rfl, rfl⟩ := List.cons.inj heq
          rw [hg] at hg'
          nomatch hg'
        | cons b before =>
          obtain ⟨rfl, rfl⟩ := List.cons.inj heq
          exact ⟨before, g', after, rfl, fun x hx => hb x (.tail _ hx), hg'⟩
    | error status =>
      constructor
      · rintro rfl
        exact ⟨[], g, gs, rfl, (fun _ h => nomatch h), hg⟩
      · rintro ⟨before, g', after, heq, hb, hg'⟩
        cases before with
        | nil =>
          obtain ⟨rfl, rfl⟩ := List.cons.inj heq
          rw [hg] at hg'
          exact Except.error.inj hg'
        | cons b before =>
          obtain ⟨rfl, rfl⟩ := List.cons.inj heq
          have hok := hb g (.head _)
          rw [hg] at hok
          nomatch hok

end

/-! ## The loop over the authority RRsets -/

def authoritySig (rrsigsByOwner : List (Name × List (Name × RRSIG))) (g : Name × List Record) :
    Option RRSIG :=
  match g.2 with
  | [] => none
  | r :: _ =>
      ((groupAt Name.cmp g.1 rrsigsByOwner).find? fun s => s.2.typeCovered == r.recordType).map Prod.snd

theorem authoritySig_mem {authorities : List Record} {rtype : RecordType}
    (h : authoritySig (authoritySigs rtype authorities) g = some sig) :
    ∃ r ∈ authorities, r.rrsig? = some sig := by
  unfold authoritySig at h
  split at h
  · nomatch h
  obtain ⟨⟨owner, s⟩, hs, rfl⟩ := Option.map_eq_some_iff.mp h
  have hmem := mem_of_find?_eq_some hs
  obtain ⟨g', hg', hx⟩ := mem_groupAt hmem
  -- Groups hold members of the list they were collected from.
  have hsrc := ((mem_collect (fun k => Name.cmp_eq_iff.mpr (Name.same_refl k)) hg').mem _ hx).1
  obtain ⟨r, hr, hbind⟩ := mem_filterMap.mp hsrc
  obtain ⟨s', hs', hif⟩ := Option.bind_eq_some_iff.mp hbind
  split at hif
  · cases hif
    exact ⟨r, hr, hs'⟩
  · nomatch hif

theorem verifyAuthorityRrset_eq_ok_iff :
    verifyAuthorityRrset C now chain rrsigsByOwner g = .ok () ↔
      ∃ sig, authoritySig rrsigsByOwner g = some sig ∧ VerifiedBy C now chain g.2 sig := by
  unfold verifyAuthorityRrset authoritySig VerifiedBy InWindow
  cases hg : g.2 with
  | nil => simp
  | cons r rs =>
    dsimp only
    cases (groupAt Name.cmp g.1 rrsigsByOwner).find? fun s =>
        s.2.typeCovered == r.recordType with
    | none => simp
    | some s =>
      obtain ⟨owner, sig⟩ := s
      simp only [Option.map_some, Option.some.injEq, exists_eq_left']
      cases checkRrsigValidity now sig with
      | error e => simp
      | ok _ =>
        dsimp only
        split
        · rename_i hempty
          rw [isEmpty_iff.mp hempty]
          simp
        · split
          · rename_i hany
            simpa using hany
          · rename_i hany
            simpa using hany

theorem verifyAuthorityRrsets_eq_ok_iff {gs : List (Name × List Record)} :
    verifyAuthorityRrsets C now chain rrsigsByOwner gs = .ok () ↔
      ∀ g ∈ gs, ∃ sig, authoritySig rrsigsByOwner g = some sig ∧ VerifiedBy C now chain g.2 sig := by
  induction gs with
  | nil => simp [verifyAuthorityRrsets]
  | cons g gs ih =>
    rw [forall_mem_cons, ← ih, ← verifyAuthorityRrset_eq_ok_iff, verifyAuthorityRrsets]
    cases verifyAuthorityRrset C now chain rrsigsByOwner g <;> simp

theorem validateDenial_eq_secure {qname : Name} {qtype : RecordType}
    (h : validateDenial C now resp chain qname qtype = .secure) :
    (∀ g ∈ authoritySets isNsec resp.authorities, ∃ sig,
      authoritySig (authoritySigs .NSEC resp.authorities) g = some sig ∧
        VerifiedBy C now chain g.2 sig) ∧
    ∀ g ∈ authoritySets isNsec3 resp.authorities, ∃ sig,
      authoritySig (authoritySigs .NSEC3 resp.authorities) g = some sig ∧
        VerifiedBy C now chain g.2 sig := by
  unfold validateDenial at h
  dsimp only at h
  split at h
  · nomatch h
  split at h
  · nomatch h
  · rename_i hnsec
    split at h
    · nomatch h
    · rename_i hnsec3
      exact ⟨verifyAuthorityRrsets_eq_ok_iff.mp hnsec, verifyAuthorityRrsets_eq_ok_iff.mp hnsec3⟩

/-! ## The results of whole validations -/

variable {ok : (o : Op) → o.Res → Prop}

theorem validateAnswer_yields (h : (validateAnswer C ips answer chain).Yields ok status) :
    (∃ e, (bootstrapSigners C ips (neededSigners chain answer) chain).Yields ok (.error e) ∧
      status = .insecure) ∨
    ∃ chain' now, (bootstrapSigners C ips (neededSigners chain answer) chain).Yields ok (.ok chain') ∧
      ok .unixNow now ∧ status = validateAnswerAgainstChain C now answer chain'
        (firstQuestion answer).1 (firstQuestion answer).2 := by
  obtain ⟨r, hr, h⟩ := yields_bind.mp h
  cases r with
  | error e =>
    obtain rfl := yields_ret.mp h
    exact Or.inl ⟨e, hr, rfl⟩
  | ok chain' =>
    obtain ⟨now, hnow, h⟩ := yields_perform_bind.mp h
    obtain rfl := yields_ret.mp h
    exact Or.inr ⟨chain', now, hr, hnow, rfl⟩

theorem validateWalkBody_yields (h : (validateWalkBody C walk answer).Yields ok (status, zones)) :
    (∃ ips, (walkKeys C walk).Yields ok (ips, .error status, zones)) ∨
    ∃ ips chain, (walkKeys C walk).Yields ok (ips, .ok chain, zones) ∧
      (validateAnswer C ips answer chain).Yields ok status := by
  obtain ⟨⟨ips, keys, zs⟩, hkeys, h⟩ := yields_bind.mp h
  cases keys with
  | error s =>
    cases yields_ret.mp h
    exact Or.inl ⟨ips, hkeys⟩
  | ok chain =>
    obtain ⟨s, hs, h⟩ := yields_bind.mp h
    cases yields_ret.mp h
    exact Or.inr ⟨ips, chain, hkeys, hs⟩

theorem validateWalk_yields {r : ValidationStatus × List Name}
    (h : (validateWalk C walk answer).Yields ok r) : (validateWalkBody C walk answer).Yields ok r := by
  obtain ⟨result, hbody, h⟩ := yields_bind.mp h
  obtain ⟨_, _, h⟩ := yields_perform_bind.mp h
  exact yields_ret.mp h ▸ hbody

theorem validateWalk_secure (h : (validateWalk C walk answer).Yields ok (.secure, zones)) :
    ∃ ips chain chain' now, (walkKeys C walk).Yields ok (ips, .ok chain, zones) ∧
      (bootstrapSigners C ips (neededSigners chain answer) chain).Yields ok (.ok chain') ∧
      ok .unixNow now ∧ validateAnswerAgainstChain C now answer chain' (firstQuestion answer).1
        (firstQuestion answer).2 = .secure := by
  rcases validateWalkBody_yields (validateWalk_yields h) with ⟨ips, hk⟩ | ⟨ips, chain, hk, ha⟩
  · exact absurd rfl (hk.always walkKeys_covers)
  · rcases validateAnswer_yields ha with ⟨e, _, hst⟩ | ⟨chain', now, hboot, hnow, hst⟩
    · nomatch hst
    · exact ⟨ips, chain, chain', now, hk, hboot, hnow, hst.symm⟩

end Dnsd.Recursor
