/-
# OrderIndependence — how far the order of the records matters.

With one covering RRSIG for each RRset a validation does not depend on the order of the records.  With several,
each collection point looks at one of them only, the first or the last, and rejects the set when that one does not
verify.
-/
import Dnsd.Recursor.Anchor
import Dnsd.Recursor.BootOrder
import Dnsd.Recursor.Script

namespace Dnsd.Recursor

open Proto Lib Prog List

variable {m m' : Message} {walk : WalkChain}

/-! ## Whole validations -/

/-- Every RRSIG of the first message names the root, a zone of the walk or a signer that the second
message names too. -/
def SignersIn (walk : WalkChain) (m m' : Message) : Prop :=
  ∀ r ∈ m.answers ++ m.authorities, ∀ sig, r.rrsig? = some sig →
    sig.signerName.isRoot = true ∨
      (∃ zone ∈ walk.steps.map ChainStep.zone, zone.same sig.signerName = true) ∨
      ∃ r' ∈ m'.answers ++ m'.authorities, ∃ sig', r'.rrsig? = some sig' ∧
        sig'.signerName.same sig.signerName = true

/-- A validation in two orders: of the steps, of the answer and of the replies. -/
structure Rearranged (walk walk' : WalkChain) (answer answer' : Message)
    (ok ok' : (o : Op) → o.Res → Prop) : Prop where
  steps : List.Forall₂ SameStep walk.steps walk'.steps
  sections : SameAnswer answer answer'
  signers : SignersIn walk answer answer' ∧ SignersIn walk answer' answer
  replies : Resupplied ok ok' ∧ Resupplied ok' ok

theorem zones_eq {steps steps' : List ChainStep} (h : List.Forall₂ SameStep steps steps') :
    steps.map ChainStep.zone = steps'.map ChainStep.zone := by
  induction h with
  | nil => rfl
  | cons hstep _ ih => rw [map_cons, map_cons, hstep.zone, ih]

section

variable {C : Crypto} {walk walk' : WalkChain} {answer answer' : Message} {ok ok' : (o : Op) → o.Res → Prop}
  {chain chain' : ChainKeys}

theorem Rearranged.symm (h : Rearranged walk walk' answer answer' ok ok') :
    Rearranged walk' walk answer' answer ok' ok := by
  refine ⟨?_, h.sections.symm, ?_, h.replies.symm⟩
  · exact (h.steps.imp fun _ _ hstep => hstep.symm).flip
  · unfold SignersIn
    rw [← zones_eq h.steps]
    exact h.signers.symm

theorem mem_neededSigners {n : Name} (h : n ∈ neededSigners chain answer) :
    ∃ r ∈ answer.answers ++ answer.authorities, ∃ sig, r.rrsig? = some sig ∧ sig.signerName = n := by
  suffices ∀ (rs : List Record) (needed : List Name), n ∈ rs.foldl (addSigner chain) needed →
      n ∈ needed ∨ ∃ r ∈ rs, ∃ sig, r.rrsig? = some sig ∧ sig.signerName = n from
    (this _ [] h).resolve_left (not_mem_nil)
  intro rs
  induction rs with
  | nil => exact fun needed h => Or.inl h
  | cons r rs ih =>
    intro needed h
    rcases ih _ h with h | ⟨r', hr', hsig⟩
    · unfold addSigner at h
      split at h
      · rename_i s hs
        split at h
        · exact Or.inl h
        · rcases mem_append.mp h with h | h
          · exact Or.inl h
          · exact Or.inr ⟨r, .head _, s, hs, (mem_singleton.mp h).symm⟩
      · exact Or.inl h
    · exact Or.inr ⟨r', .tail _ hr', hsig⟩

theorem SignersIn.needed (h : SignersIn walk answer answer') (hroot : hasZone chain Name.root = true)
    (hsteps : ∀ s ∈ walk.steps, hasZone chain s.zone = true) :
    ∀ n ∈ neededSigners chain answer,
      hasZone chain n = true ∨ ∃ n' ∈ neededSigners chain answer', n.same n' = true := by
  intro n hn
  obtain ⟨r, hr, sig, hs, rfl⟩ := mem_neededSigners hn
  rcases h r hr sig hs with hz | ⟨zone, hzone, hsame⟩ | ⟨r', hr', sig', hs', hsame⟩
  · rw [Name.isRoot_iff.mp hz]
    exact Or.inl hroot
  · obtain ⟨s, hs, rfl⟩ := mem_map.mp hzone
    rw [← hasZone_congr hsame]
    exact Or.inl (hsteps s hs)
  · have hspec : hasZone chain sig'.signerName = true ∨ _ := neededSigners_spec hr' hs'
    rcases hspec with hz | ⟨n', hn', hsame'⟩
    · rw [← hasZone_congr hsame]
      exact Or.inl hz
    · exact Or.inr ⟨n', hn', Name.same_symm (Name.same_trans hsame' hsame)⟩

theorem neededSigners_sameChain (h : SameChain chain chain') :
    neededSigners chain answer = neededSigners chain' answer := by
  have hadd : addSigner chain = addSigner chain' := by
    funext needed r
    simp only [addSigner, h.hasZone]
  unfold neededSigners
  rw [hadd]

theorem yields_secure {ips : List IpAddr} {zones : List Name} {now : UInt32}
    (hkeys : (walkKeys C walk).Yields ok (ips, .ok chain, zones))
    (hboot : (bootstrapSigners C ips (neededSigners chain answer) chain).Yields ok (.ok chain'))
    (hnow : ok .unixNow now)
    (hcheck : validateAnswerAgainstChain C now answer chain' (firstQuestion answer).1 (firstQuestion answer).2 = .secure)
    (hnote : ok (.note (.verdict walk answer .secure zones)) ()) :
    (validateWalk C walk answer).Yields ok (.secure, zones) := by
  have hstatus : (validateAnswer C ips answer chain).Yields ok .secure :=
    yields_bind.mpr ⟨.ok chain', hboot, yields_perform_bind.mpr ⟨now, hnow, yields_ret.mpr hcheck.symm⟩⟩
  have hbody : (validateWalkBody C walk answer).Yields ok (.secure, zones) :=
    yields_bind.mpr ⟨_, hkeys, yields_bind.mpr ⟨.secure, hstatus, .ret _⟩⟩
  exact yields_bind.mpr ⟨_, hbody, yields_perform_bind.mpr ⟨(), hnote, .ret _⟩⟩

theorem Rearranged.secure (hC : C.Canonical) (h : Rearranged walk walk' answer answer' ok ok')
    (hsec : ∃ zones, (validateWalk C walk answer).Yields ok (.secure, zones)) :
    ∃ zones, (validateWalk C walk' answer').Yields ok' (.secure, zones) := by
  obtain ⟨zones, hsec⟩ := hsec
  obtain ⟨ips, c, c₁, now, hkeys, hboot, hnow, hcheck⟩ := validateWalk_secure hsec
  obtain ⟨-, hroot, hsteps⟩ := hkeys.always walkKeys_covers
  -- The signers in the order of the other answer, still in the first world.
  obtain ⟨c₂, hboot₂, hchoice⟩ := bootstrapSigners_reorder hroot
    (h.signers.1.needed hroot hsteps) (h.signers.2.needed hroot hsteps) hboot
  -- The same questions in the second world.
  obtain ⟨⟨ips', keys', zones'⟩, hkeys', hips, hchain⟩ :=
    (walkKeys_lockstep hC h.replies.1 h.steps).yields hkeys
  obtain rfl : ips = ips' := hips
  cases keys' with
  | error e => exact hchain.elim
  | ok c' =>
    have hcc : SameChain c c' := hchain
    obtain ⟨r, hboot', hr⟩ := (bootstrapSigners_lockstep hC h.replies.1 hcc).yields hboot₂
    cases r with
    | error e => exact hr.elim
    | ok c₂' =>
      have hsame : SameChoice c₁ c₂' := by
        intro zone
        rw [hchoice zone]
        exact SameChain.closestTrustedKeys hr zone
      obtain ⟨now', hnow', hnn⟩ := h.replies.1.reads .unixNow now hnow
      obtain rfl : now = now' := hnn
      have hcheck' := h.sections.secure hC hsame hcheck
      have hq : firstQuestion answer = firstQuestion answer' := by
        rw [firstQuestion, firstQuestion, h.sections.queries]
      rw [neededSigners_sameChain hcc] at hboot'
      rw [hq] at hcheck'
      exact ⟨zones', yields_secure hkeys' hboot' hnow' hcheck' (h.replies.1.note _)⟩

end

/-! ## Refreshes -/

theorem SameLast.accepted {C : Crypto} (hC : C.Canonical) {live : TrustAnchors} {resp resp' : Message}
    (h : SameLast resp.answers resp'.answers) (hacc : Accepted C live resp) :
    Accepted C live resp' := by
  obtain ⟨sig, hsig, a, ha, hver⟩ := hacc
  have hkeys := h.dnskeySetOf Name.root
  refine ⟨sig, hkeys.sig.symm.trans hsig, a, ha, ?_⟩
  rw [← hver]
  exact (hkeys.records.verifyRrset hC sig a.2).symm

/-! ## Where the order can make a difference -/

def Unanimous (P : RRSIG → Prop) (sigs : List RRSIG) : Prop := (∀ s ∈ sigs, P s) ∨ ∀ s ∈ sigs, ¬ P s

def SigsMoved (rs rs' : List Record) : Prop := rs.Perm rs' ∧ unsigned rs' = unsigned rs

section

variable {name : Name} {rtype : RecordType} {rs rs' : List Record} {P : RRSIG → Prop} {sig : RRSIG}
  {step : ChainStep}

theorem SigsMoved.mem_iff (h : SigsMoved rs rs') :
    sig ∈ sigsOver name rtype rs' ↔ sig ∈ sigsOver name rtype rs :=
  (h.1.filterMap _).symm.mem_iff

theorem exists_head (h : sig ∈ sigsOver name rtype rs) :
    ∃ rs', SigsMoved rs rs' ∧ (sigsOver name rtype rs').head? = some sig := by
  obtain ⟨r, hr, hs, htype, hname⟩ := mem_sigsOver.mp h
  obtain ⟨l, t, rfl⟩ := append_of_mem hr
  refine ⟨r :: (l ++ t), ⟨perm_middle, ?_⟩, ?_⟩
  · simp [unsigned, hs]
  · simp [sigsOver, hs, htype, hname]

theorem exists_last (h : sig ∈ sigsOver name rtype rs) :
    ∃ rs', SigsMoved rs rs' ∧ (sigsOver name rtype rs').getLast? = some sig := by
  obtain ⟨r, hr, hs, htype, hname⟩ := mem_sigsOver.mp h
  obtain ⟨l, t, rfl⟩ := append_of_mem hr
  refine ⟨l ++ t ++ [r], ⟨?_, ?_⟩, ?_⟩
  · exact perm_middle.trans (perm_append_singleton r (l ++ t)).symm
  · simp [unsigned, hs]
  · simp [sigsOver, hs, htype, hname]

theorem pick_unanimous {pick : List RRSIG → Option RRSIG}
    (hmem : ∀ l s, pick l = some s → s ∈ l) (hsome : ∀ l, l ≠ [] → ∃ s, pick l = some s)
    (hany : ∀ s ∈ sigsOver name rtype rs, ∃ rs', SigsMoved rs rs' ∧
      pick (sigsOver name rtype rs') = some s) :
    (∀ rs', SigsMoved rs rs' →
      ((∃ s, pick (sigsOver name rtype rs') = some s ∧ P s) ↔
        ∃ s ∈ sigsOver name rtype rs, P s)) ↔
      Unanimous P (sigsOver name rtype rs) := by
  constructor
  · intro h
    by_cases hgood : ∃ s ∈ sigsOver name rtype rs, P s
    · left
      intro s hs
      obtain ⟨rs', hmoved, hpick⟩ := hany s hs
      obtain ⟨s', hs', hP⟩ := (h rs' hmoved).mpr hgood
      rw [hpick] at hs'
      cases hs'
      exact hP
    · right
      intro s hs hP
      exact hgood ⟨s, hs, hP⟩
  · rintro (hall | hnone) rs' hmoved
    · constructor
      · rintro ⟨s, hpick, hP⟩
        exact ⟨s, hmoved.mem_iff.mp (hmem _ s hpick), hP⟩
      · rintro ⟨s, hs, _⟩
        obtain ⟨s', hpick⟩ := hsome _ (ne_nil_of_mem (hmoved.mem_iff.mpr hs))
        exact ⟨s', hpick, hall s' (hmoved.mem_iff.mp (hmem _ s' hpick))⟩
    · constructor
      · rintro ⟨s, hpick, hP⟩
        exact absurd hP (hnone s (hmoved.mem_iff.mp (hmem _ s hpick)))
      · rintro ⟨s, hs, hP⟩
        exact absurd hP (hnone s hs)

theorem head_unanimous :
    (∀ rs', SigsMoved rs rs' → ((∃ s, (sigsOver name rtype rs').head? = some s ∧ P s) ↔
      ∃ s ∈ sigsOver name rtype rs, P s)) ↔ Unanimous P (sigsOver name rtype rs) :=
  pick_unanimous (fun _ _ h => mem_of_head? h)
    (fun _ h => ⟨_, List.head?_eq_some_head h⟩) fun _ hs => exists_head hs

theorem last_unanimous :
    (∀ rs', SigsMoved rs rs' → ((∃ s, (sigsOver name rtype rs').getLast? = some s ∧ P s) ↔
      ∃ s ∈ sigsOver name rtype rs, P s)) ↔ Unanimous P (sigsOver name rtype rs) :=
  pick_unanimous (fun _ _ h => mem_of_getLast? h)
    (fun _ h => ⟨_, List.getLast?_eq_some_getLast h⟩) fun _ hs => exists_last hs

/-! ## The collection points -/

variable {C : Crypto} {now : UInt32} {chain : ChainKeys}

theorem checkAnswerRrset_unanimous {g : RrsetKey × List Record} :
    (∀ rs', SigsMoved rs rs' → (checkAnswerRrset C now chain (answerSigs rs') g = .ok () ↔
      ∃ s ∈ sigsOver g.1.name g.1.rtype rs, VerifiedBy C now chain g.2 s)) ↔
      Unanimous (VerifiedBy C now chain g.2) (sigsOver g.1.name g.1.rtype rs) := by
  simp only [checkAnswerRrset_eq_ok_iff, coveringSig_eq]
  exact head_unanimous

theorem verifyAuthorityRrset_unanimous {g : Name × List Record}
    (h : ∃ r rest, g.2 = r :: rest ∧ r.recordType = rtype) :
    (∀ rs', SigsMoved rs rs' →
      (verifyAuthorityRrset C now chain (authoritySigs rtype rs') g = .ok () ↔
        ∃ s ∈ sigsOver g.1 rtype rs, VerifiedBy C now chain g.2 s)) ↔
      Unanimous (VerifiedBy C now chain g.2) (sigsOver g.1 rtype rs) := by
  simp only [verifyAuthorityRrset_eq_ok_iff, authoritySig_eq h]
  exact head_unanimous

def atTime (now : UInt32) : (o : Op) → o.Res → Prop
  | .unixNow, t => t = now
  | _, _ => True

/-- The signature carries a step's key set: in its window, by a key of the set, and a DS record of the
step covers one of the keys. -/
def CarriesKeys (C : Crypto) (now : UInt32) (step : ChainStep) (set : DnskeySet) (sig : RRSIG) :
    Prop :=
  InWindow now sig ∧ selfSigned C set sig = true ∧ dsMatch C step.ds step.zone set.keys = true

theorem acceptStepKeys_iff {set : DnskeySet} :
    (∃ c, (acceptStepKeys C step (some (.fetched (.ok set))) chain).Yields (atTime now) (.ok c)) ↔
      ∃ sig, set.sig = some sig ∧ CarriesKeys C now step set sig := by
  constructor
  · rintro ⟨c, h⟩
    have hsafe : (Contract.plain (fun _ => True) (atTime now)).Safe ()
        (acceptStepKeys C step (some (.fetched (.ok set))) chain) fun _ r => ∀ c, r = .ok c →
          ∃ sig, set.sig = some sig ∧ CarriesKeys C now step set sig := by
      refine acceptStepKeys_paths ⟨fun _ _ => trivial, fun _ => trivial⟩ (fun _ _ _ c hc => nomatch hc)
        (fun _ hcached => nomatch hcached) ?_
      rintro _ sig _ ⟨⟩ hsig rfl hwin hself hds
      exact ⟨trivial, fun _ _ => ⟨trivial, fun _ _ _ _ => ⟨sig, hsig, hwin, hself, hds⟩⟩⟩
    exact hsafe.yields h c rfl
  · rintro ⟨sig, hsig, hwin, hself, hds⟩
    have hkeys : set.keys.isEmpty = false := by
      unfold selfSigned at hself
      cases hk : set.keys with
      | nil => rw [hk] at hself; nomatch hself
      | cons k ks => rfl
    refine ⟨chain ++ [(step.zone, set.keys)], ?_⟩
    unfold acceptStepKeys
    simp only [hkeys, hsig]
    refine yields_perform_bind.mpr ⟨now, rfl, ?_⟩
    have hwin' : checkRrsigValidity now sig = .ok () := hwin
    simp only [hwin', hself, hds]
    exact yields_perform_bind.mpr ⟨(), trivial, yields_perform_bind.mpr ⟨(), trivial, .ret _⟩⟩

theorem SigsMoved.keySet (h : SigsMoved rs rs') (zone : Name) :
    dnskeySetOf zone rs' = { dnskeySetOf zone rs with sig := (sigsOver zone .DNSKEY rs').getLast? } := by
  have hrecords : (dnskeySetOf zone rs').records = (dnskeySetOf zone rs).records := by
    show (rs'.filter _).filter isDnskey = (rs.filter _).filter isDnskey
    rw [filter_kind rrsig?_of_isDnskey, filter_kind rrsig?_of_isDnskey, h.2]
  have hsig : (dnskeySetOf zone rs').sig = (sigsOver zone .DNSKEY rs').getLast? := lastSigOver_eq
  have hkeys : (dnskeySetOf zone rs').keys = (dnskeySetOf zone rs).keys :=
    congrArg (List.filterMap Record.dnskey?) hrecords
  dsimp only
  rw [← hrecords, ← hkeys, ← hsig]

theorem acceptStepKeys_unanimous :
    (∀ rs', SigsMoved rs rs' →
      ((∃ c, (acceptStepKeys C step (some (.fetched (.ok (dnskeySetOf step.zone rs')))) chain).Yields
          (atTime now) (.ok c)) ↔
        ∃ s ∈ sigsOver step.zone .DNSKEY rs, CarriesKeys C now step (dnskeySetOf step.zone rs) s)) ↔
      Unanimous (CarriesKeys C now step (dnskeySetOf step.zone rs)) (sigsOver step.zone .DNSKEY rs) := by
  rw [← last_unanimous]
  refine forall_congr' fun rs' => forall_congr' fun hmoved => ?_
  rw [acceptStepKeys_iff, hmoved.keySet]
  rfl

/-- The signature verifies the root's keys of a response under a published anchor. -/
def AnchorSigned (C : Crypto) (live : TrustAnchors) (resp : Message) (sig : RRSIG) : Prop :=
  ∃ a ∈ live.keys, verifyRrset C (extractDnskeyResponse resp).records sig a.2 = true

variable {live : TrustAnchors} {resp : Message}

theorem SigsMoved.accepted_iff (h : SigsMoved resp.answers rs') :
    Accepted C live { resp with answers := rs' } ↔
      ∃ s, (sigsOver Name.root .DNSKEY rs').getLast? = some s ∧ AnchorSigned C live resp s := by
  unfold Accepted AnchorSigned extractDnskeyResponse
  rw [h.keySet]

theorem accepted_unanimous :
    (∀ rs', SigsMoved resp.answers rs' → (Accepted C live { resp with answers := rs' } ↔
      ∃ s ∈ sigsOver Name.root .DNSKEY resp.answers, InWindow now s ∧ AnchorSigned C live resp s)) ↔
      (∀ s ∈ sigsOver Name.root .DNSKEY resp.answers, ¬ AnchorSigned C live resp s) ∨
        (∀ s ∈ sigsOver Name.root .DNSKEY resp.answers, AnchorSigned C live resp s) ∧
          ∃ s ∈ sigsOver Name.root .DNSKEY resp.answers, InWindow now s := by
  constructor
  · intro h
    by_cases hgood : ∃ s ∈ sigsOver Name.root .DNSKEY resp.answers, AnchorSigned C live resp s
    · right
      -- With the good one last the set is accepted, so one of them is in its window.
      have hwin : ∃ s ∈ sigsOver Name.root .DNSKEY resp.answers,
          InWindow now s ∧ AnchorSigned C live resp s := by
        obtain ⟨s, hs, hsigned⟩ := hgood
        obtain ⟨rs', hmoved, hlast⟩ := exists_last hs
        exact (h rs' hmoved).mp (hmoved.accepted_iff.mpr ⟨s, hlast, hsigned⟩)
      refine ⟨fun s hs => ?_, ?_⟩
      · obtain ⟨rs', hmoved, hlast⟩ := exists_last hs
        obtain ⟨s', hlast', hsigned⟩ := hmoved.accepted_iff.mp ((h rs' hmoved).mpr hwin)
        rw [hlast] at hlast'
        cases hlast'
        exact hsigned
      · obtain ⟨s, hs, hw, _⟩ := hwin
        exact ⟨s, hs, hw⟩
    · left
      intro s hs hsigned
      exact hgood ⟨s, hs, hsigned⟩
  · rintro (hnone | ⟨hall, s₀, hs₀, hw₀⟩) rs' hmoved
    · rw [hmoved.accepted_iff]
      constructor
      · rintro ⟨s, hlast, hsigned⟩
        exact absurd hsigned (hnone s (hmoved.mem_iff.mp (mem_of_getLast? hlast)))
      · rintro ⟨s, hs, _, hsigned⟩
        exact absurd hsigned (hnone s hs)
    · rw [hmoved.accepted_iff]
      constructor
      · exact fun _ => ⟨s₀, hs₀, hw₀, hall s₀ hs₀⟩
      · intro _
        have hne := ne_nil_of_mem (hmoved.mem_iff.mpr hs₀)
        have hlast := List.getLast?_eq_some_getLast hne
        exact ⟨_, hlast, hall _ (hmoved.mem_iff.mp (mem_of_getLast? hlast))⟩

end

/-! ## Plain permutations -/

def OneSig (rs : List Record) : Prop :=
  ∀ name rtype, ∀ s ∈ sigsOver name rtype rs, ∀ s' ∈ sigsOver name rtype rs, s = s'

theorem eq_of_perm_of_all_eq {α : Type} {l l' : List α} (h : l.Perm l')
    (hall : ∀ a ∈ l, ∀ b ∈ l, a = b) : l = l' := by
  cases l with
  | nil => exact (nil_perm.mp h).symm
  | cons a l =>
    have hrep : a :: l = List.replicate (a :: l).length a :=
      eq_replicate_of_mem fun b hb => hall b hb a (.head _)
    rw [hrep] at h ⊢
    exact (perm_replicate.mp h.symm).symm

section

variable {rs rs' : List Record}

theorem sigsOver_of_perm (h : rs.Perm rs') (hone : OneSig rs) (name : Name) (rtype : RecordType) :
    sigsOver name rtype rs = sigsOver name rtype rs' :=
  eq_of_perm_of_all_eq (h.filterMap _) (hone name rtype)

theorem SameFirst.of_perm (h : rs.Perm rs') (hone : OneSig rs) : SameFirst rs rs' :=
  ⟨h.filter _, fun r _ => by rw [sigsOver_of_perm h hone]⟩

theorem SameLast.of_perm (h : rs.Perm rs') (hone : OneSig rs)
    (hclass : ∀ r ∈ rs, ∀ r' ∈ rs, r.name.same r'.name = true → r.dnsClass = r'.dnsClass) :
    SameLast rs rs' := by
  have hfirst : ∀ (kind : Record → Bool) (name : Name),
      (firstOf kind name rs).map Record.dnsClass = (firstOf kind name rs').map Record.dnsClass := by
    intro kind name
    unfold firstOf
    rw [← List.head?_filter, ← List.head?_filter, ← List.head?_map, ← List.head?_map]
    refine congrArg List.head? (eq_of_perm_of_all_eq ((h.filter _).map _) ?_)
    intro c hc c' hc'
    obtain ⟨r, hr, rfl⟩ := mem_map.mp hc
    obtain ⟨r', hr', rfl⟩ := mem_map.mp hc'
    simp only [mem_filter, Bool.and_eq_true] at hr hr'
    exact hclass r hr.1 r' hr'.1 (Name.same_trans hr.2.2 (Name.same_symm hr'.2.2))
  exact ⟨h.filter _, fun name rtype => by rw [sigsOver_of_perm h hone], hfirst isDnskey, hfirst isDs⟩

end

/-! ## Added signatures -/

section

variable {l t : List Record} {r : Record} {sig : RRSIG} {as bs cs : List Record}

theorem SameFirst.trans (h : SameFirst as bs) (h' : SameFirst bs cs) : SameFirst as cs := by
  refine ⟨h.perm.trans h'.perm, fun r hr => ?_⟩
  rw [h.firstSig r hr]
  exact h'.firstSig r (h.perm.mem_iff.mp hr)

theorem SameLast.trans (h : SameLast as bs) (h' : SameLast bs cs) : SameLast as cs :=
  ⟨h.perm.trans h'.perm, fun n t => (h.lastSig n t).trans (h'.lastSig n t),
    fun n => (h.keyClass n).trans (h'.keyClass n), fun n => (h.dsClass n).trans (h'.dsClass n)⟩

theorem unsigned_added (hr : r.rrsig? = some sig) : unsigned (l ++ r :: t) = unsigned (l ++ t) := by
  simp [unsigned, hr]

theorem sigsOver_singleton (hr : r.rrsig? = some sig) {name : Name} {rtype : RecordType}
    {others : List Record} (hothers : sigsOver r.name sig.typeCovered others ≠ [])
    (hnone : sigsOver name rtype others = []) : sigsOver name rtype [r] = [] := by
  rw [eq_nil_iff_forall_not_mem]
  intro s hs
  obtain ⟨r', hr', hs', htype, hname⟩ := mem_sigsOver.mp hs
  cases mem_singleton.mp hr'
  rw [hr] at hs'
  cases hs'
  rw [sigsOver_congr hname, htype] at hothers
  exact hothers hnone

theorem SameFirst.of_added (hr : r.rrsig? = some sig)
    (hbefore : sigsOver r.name sig.typeCovered l ≠ []) : SameFirst (l ++ t) (l ++ r :: t) := by
  refine ⟨by rw [unsigned_added hr], fun r' _ => ?_⟩
  rw [show r :: t = [r] ++ t from rfl]
  simp only [sigsOver_append, List.head?_append]
  by_cases hnone : sigsOver r'.name r'.recordType l = []
  · rw [sigsOver_singleton hr hbefore hnone]
    rfl
  · rw [List.head?_eq_some_head hnone]
    rfl

theorem SameLast.of_added (hr : r.rrsig? = some sig)
    (hbehind : sigsOver r.name sig.typeCovered t ≠ []) : SameLast (l ++ t) (l ++ r :: t) := by
  have hkind : ∀ kind : Record → Bool, kind r = false → ∀ name,
      firstOf kind name (l ++ r :: t) = firstOf kind name (l ++ t) := by
    intro kind hk name
    simp [firstOf, hk]
  have hdata := Record.rrsig?_eq_some.mp hr
  refine ⟨by rw [unsigned_added hr], fun name rtype => ?_, fun name => ?_, fun name => ?_⟩
  · rw [show r :: t = [r] ++ t from rfl]
    simp only [sigsOver_append, List.getLast?_append]
    by_cases hnone : sigsOver name rtype t = []
    · rw [sigsOver_singleton hr hbehind hnone, List.getLast?_nil, Option.or_none]
    · rw [List.getLast?_eq_some_getLast hnone]
      rfl
  · rw [hkind isDnskey (by simp [isDnskey, Record.dnskey?, hdata])]
  · rw [hkind isDs (by simp [isDs, Record.ds?, hdata])]

end

/-! ## The order of a whole validation -/

def stampCrypto : Crypto where
  verifyRrsig k _ _ sig _ := sig.sig == k.publicKey
  covers _ _ k := k == sampleKey 2
  nsec3Hash _ _ _ := none

theorem stampCrypto_canonical : stampCrypto.Canonical := fun _ _ _ _ _ _ _ _ _ => rfl

def stampSig (signer : Name) (covered : RecordType) (n : UInt8) : RRSIG :=
  { sampleSig signer covered with sig := [n] }

def keysSig (zone : Name) (n : UInt8) : Record := sampleRecord zone (.rrsig (stampSig zone .DNSKEY n))

def keyRecord (zone : Name) (n : UInt8) : Record := sampleRecord zone (.dnskey (sampleKey n))

def addressSig (n : UInt8) : Record := sampleRecord insideName (.rrsig (stampSig childZone .A n))

def addressRecord (addr : BitVec 32) : Record := sampleRecord insideName (.a addr)

def orderScript (root child : List Record) : Script where
  reply _ _ q :=
    if q.queryType = .DNSKEY then
      .parsed { answers := if q.name = Name.root then root else child }
    else .parsed {}

theorem orderScript_resupplied {root root' child child' : List Record} (hroot : SameLast root root')
    (hchild : SameLast child child') :
    Resupplied (orderScript root child).Answered (orderScript root' child').Answered := by
  have hempty : SameLast [] [] := ⟨.refl _, fun _ _ => rfl, fun _ => rfl, fun _ => rfl⟩
  refine ⟨?_, fun _ _ _ => ⟨freshWorld rootAnchors, rfl⟩, fun _ _ => ⟨freshWorld rootAnchors, rfl⟩,
    fun _ _ => ⟨freshWorld rootAnchors, rfl⟩, fun _ => ⟨freshWorld rootAnchors, rfl⟩⟩
  rintro o r ⟨w, rfl⟩
  refine ⟨(orderScript root' child').answer () w o, ⟨w, rfl⟩, ?_⟩
  cases o with
  | query asked ip q =>
    show SameExchange ((orderScript root child).reply asked ip q)
      ((orderScript root' child').reply asked ip q)
    unfold orderScript
    dsimp only
    split
    · refine .parsed ⟨?_, hempty⟩
      split
      · exact hroot
      · exact hchild
    · exact .parsed ⟨hempty, hempty⟩
  | keyGet zone =>
    show Option.Rel List.Perm ((w.inst ()).keys.getPositive w.now zone)
      ((w.inst ()).keys.getPositive w.now zone)
    generalize (w.inst ()).keys.getPositive w.now zone = keys
    cases keys with
    | none => exact .none
    | some keys => exact .some (.refl keys)
  | _ => exact rfl

def stampStep (signing : List UInt8) : ChainStep :=
  { sampleStep childZone with dsRrsig := signing.map (stampSig Name.root .DS) }

def addressesIn (records : List Record) : Message where
  queries := [⟨insideName, .A, .IN⟩]
  answers := records

def plainRoot : List Record := [keyRecord Name.root 1, keyRecord Name.root 3, keysSig Name.root 1]

def plainChild : List Record := [keyRecord childZone 2, keyRecord childZone 3, keysSig childZone 2]

def plainAddresses : List Record := [addressRecord 7, addressRecord 8, addressSig 2]

def shadowedRoot : List Record :=
  [keyRecord Name.root 3, keysSig Name.root 9, keysSig Name.root 1, keyRecord Name.root 1]

def shadowedChild : List Record :=
  [keyRecord childZone 3, keysSig childZone 9, keysSig childZone 2, keyRecord childZone 2]

def shadowedAddresses : List Record := [addressRecord 8, addressSig 2, addressRecord 7, addressSig 9]

theorem oneSig_of_all (sig : RRSIG) {rs : List Record}
    (h : ∀ r ∈ rs, r.rrsig? = none ∨ r.rrsig? = some sig) : OneSig rs := by
  have hsig : ∀ {name rtype s}, s ∈ sigsOver name rtype rs → s = sig := by
    intro name rtype s hs
    obtain ⟨r, hr, hrs, _⟩ := mem_sigsOver.mp hs
    rcases h r hr with hn | hn
    · rw [hn] at hrs
      nomatch hrs
    · rw [hn] at hrs
      exact (Option.some.inj hrs).symm
  intro name rtype s hs s' hs'
  rw [hsig hs, hsig hs']

theorem sameLast_root : SameLast plainRoot shadowedRoot := by
  have hperm : SameLast plainRoot [keyRecord Name.root 3, keysSig Name.root 1, keyRecord Name.root 1] :=
    .of_perm (by decide) (oneSig_of_all (stampSig Name.root .DNSKEY 1) (by decide)) (by decide)
  exact hperm.trans (.of_added (l := [keyRecord Name.root 3]) rfl (by decide))

theorem sameLast_child : SameLast plainChild shadowedChild := by
  have hperm : SameLast plainChild [keyRecord childZone 3, keysSig childZone 2, keyRecord childZone 2] :=
    .of_perm (by decide) (oneSig_of_all (stampSig childZone .DNSKEY 2) (by decide)) (by decide)
  exact hperm.trans (.of_added (l := [keyRecord childZone 3]) rfl (by decide))

theorem sameFirst_addresses : SameFirst plainAddresses shadowedAddresses := by
  have hperm : SameFirst plainAddresses [addressRecord 8, addressSig 2, addressRecord 7] :=
    .of_perm (by decide) (oneSig_of_all (stampSig childZone .A 2) (by decide))
  exact hperm.trans (.of_added (l := [addressRecord 8, addressSig 2, addressRecord 7]) rfl (by decide))

theorem signersIn_child (hwalk : childZone ∈ walk.steps.map ChainStep.zone)
    (h : (m.answers ++ m.authorities).all (fun r => (r.rrsig?.map fun s => childZone.same s.signerName).getD true) = true) :
    SignersIn walk m m' := by
  intro r hr sig hs
  have hall := all_eq_true.mp h r hr
  rw [hs] at hall
  exact Or.inr (Or.inl ⟨childZone, hwalk, hall⟩)

theorem rearranged_shadowed :
    Rearranged ⟨[stampStep [1]]⟩ ⟨[stampStep [1, 9]]⟩ (addressesIn plainAddresses)
      (addressesIn shadowedAddresses) (orderScript plainRoot plainChild).Answered
      (orderScript shadowedRoot shadowedChild).Answered where
  steps := .cons ⟨rfl, ⟨.refl _, rfl⟩, rfl, rfl⟩ .nil
  sections := ⟨rfl, rfl, sameFirst_addresses, ⟨.refl _, fun _ hr => nomatch hr⟩, fun _ => rfl,
    fun _ => rfl⟩
  signers := ⟨signersIn_child (by decide) (by decide), signersIn_child (by decide) (by decide)⟩
  replies := ⟨orderScript_resupplied sameLast_root sameLast_child,
    orderScript_resupplied sameLast_root.symm sameLast_child.symm⟩

def orderVerdict (root child answers : List Record) : ValidationStatus × List Name :=
  (orderScript root child).result
    (validateWalk stampCrypto ⟨[stampStep [1]]⟩ (addressesIn answers)) (freshWorld rootAnchors)

def expiredSig : RRSIG := { stampSig Name.root .DNSKEY 1 with sigExpiration := 1 }

end Dnsd.Recursor
