/-
# ValidatorPaths — the ways through the validator, once.

The functions below `validate_walk` return early in many places, each time with an error.  For each of them there is
one rule, under any contract: errors are all right, and what is left is the way to the end.
-/
import Dnsd.Recursor.Trust

namespace Dnsd.Recursor

open Proto Lib Contract

variable {γ α : Type} {K : Contract γ Op Op.Res} {C : Crypto} {g : γ} {chain : ChainKeys} {ds : List Record}
  {ips : List IpAddr} {state : Option StepDnskeyState} {step : ChainStep} {zone : Name} {zones : List Name}

abbrev admitCached (zone : Name) (keys : List DNSKEY) (a : α) : RProg α := do
  admitKeys zone keys
  return a

abbrev admitFetched (zone : Name) (set : DnskeySet) (a : α) : RProg α := do
  call (.keyPut zone.toLowercase set.keys (dnskeyTtl set.records))
  admitKeys zone set.keys
  return a

theorem missingAncestors_spec {labels : List Label} (h : missingAncestors chain labels = some zones) :
    (∀ z ∈ zones, hasZone chain z = false ∧ z.labels <:+ labels) ∧
      zones.Pairwise fun a b => a.same b = false := by
  induction labels generalizing zones with
  | nil =>
    unfold missingAncestors at h
    split at h
    · cases h
      exact ⟨fun z hz => (nomatch hz), .nil⟩
    · nomatch h
  | cons l ls ih =>
    unfold missingAncestors at h
    split at h
    · cases h
      exact ⟨fun z hz => (nomatch hz), .nil⟩
    rename_i hnew
    obtain ⟨zs, hzs, rfl⟩ := Option.map_eq_some_iff.mp h
    obtain ⟨hall, hpair⟩ := ih hzs
    constructor
    · intro z hz
      rcases List.mem_append.mp hz with hz | hz
      · exact ⟨(hall z hz).1, (hall z hz).2.trans (List.suffix_cons l ls)⟩
      · rw [List.mem_singleton.mp hz]
        exact ⟨Bool.eq_false_iff.mpr hnew, List.suffix_rfl⟩
    · refine List.pairwise_append.mpr ⟨hpair, List.pairwise_singleton .., ?_⟩
      intro z hz b hb
      rw [List.mem_singleton.mp hb]
      refine Bool.eq_false_iff.mpr fun hs => ?_
      have hlen := Name.same_length hs
      have hle := (hall z hz).2.length_le
      simp only [List.length_cons] at hlen
      omega

/-! ## One zone -/

structure Reads (K : Contract γ Op Op.Res) : Prop where
  keyGet : ∀ g zone, K.pre g (.keyGet zone)
  unixNow : ∀ g, K.pre g .unixNow

section

variable (hK : Reads K)

include hK

theorem signed_paths {Q : γ → α → Prop} {sig? : Option RRSIG} {unsigned : α} {late : ValidityError → α}
    {k : RRSIG → RProg α} (hunsigned : Q g unsigned) (hlate : ∀ g e, Q g (late e))
    (hok : ∀ sig now, sig? = some sig → K.post g .unixNow now → InWindow now sig →
      K.Safe (K.upd g .unixNow now) (k sig) Q) :
    K.Safe g (match sig? with
      | none => return unsigned
      | some sig => do
          let now : UInt32 ← call .unixNow
          match checkRrsigValidity now sig with
          | .error e => return late e
          | .ok () => k sig) Q := by
  cases sig? with
  | none => exact hunsigned
  | some sig =>
    refine safe_perform_bind.mpr ⟨hK.unixNow g, fun now hnow => ?_⟩
    cases hwin : checkRrsigValidity now sig with
    | error e => exact hlate _ e
    | ok _ => exact hok sig now rfl hnow hwin

theorem spliceInZoneDnskey_paths {F : γ → Except FetchError DnskeySet → Prop}
    {Q : γ → Except SpliceError ChainKeys → Prop} (herr : ∀ g e, Q g (.error e))
    (hcached : ∀ keys, K.post g (.keyGet zone.toLowercase) (some keys) →
      K.Safe (K.upd g (.keyGet zone.toLowercase) (some keys))
        (admitCached zone keys (.ok (putEntry chain zone keys))) Q)
    (hfetch : K.Safe (K.upd g (.keyGet zone.toLowercase) none) (fetchDnskeyRrset zone zone ips) F)
    (hset : ∀ g set sig now, F g (.ok set) → set.sig = some sig → K.post g .unixNow now → InWindow now sig →
      (∃ k ∈ entryKeys chain zone, verifyRrset C set.records sig k = true) →
      K.Safe (K.upd g .unixNow now) (admitFetched zone set (.ok (putEntry chain zone set.keys))) Q) :
    K.Safe g (spliceInZoneDnskey C chain zone ips) Q := by
  refine safe_perform_bind.mpr ⟨hK.keyGet .., fun cached hpost => ?_⟩
  cases cached with
  | some keys => exact hcached keys hpost
  | none =>
    refine hfetch.bind fun g fetched hfetched => ?_
    cases fetched with
    | error e => exact herr ..
    | ok set =>
      refine signed_paths hK (herr ..) (fun _ _ => herr ..) fun sig now hsig hnow hwin => ?_
      split
      · rename_i hver
        exact hset g set sig now hfetched hsig hnow hwin (List.any_eq_true.mp hver)
      · exact herr ..

theorem bootstrapDnskey_paths {F : γ → Except FetchError DnskeySet → Prop}
    {Q : γ → Except BootstrapError ChainKeys → Prop} (herr : ∀ g e, Q g (.error e))
    (hfetch : K.Safe g (fetchDnskeyRrset Name.root zone ips) F)
    (hset : ∀ g set sig now, F g (.ok set) → set.sig = some sig → K.post g .unixNow now → InWindow now sig →
      selfSigned C set sig = true → dsMatch C ds zone set.keys = true →
      K.Safe (K.upd g .unixNow now) (admitFetched zone set (.ok (putEntry chain zone set.keys))) Q) :
    K.Safe g (bootstrapDnskey C chain zone ds ips) Q := by
  refine hfetch.bind fun g fetched hfetched => ?_
  cases fetched with
  | error e => exact herr ..
  | ok set =>
    refine signed_paths hK (herr ..) (fun _ _ => herr ..) fun sig now hsig hnow hwin => ?_
    split
    · exact herr ..
    rename_i hself
    split
    · exact herr ..
    rename_i hmatch
    simp only [Bool.not_eq_true, Bool.not_eq_false'] at hself hmatch
    exact hset g set sig now hfetched hsig hnow hwin hself hmatch

theorem bootstrapZone_paths {D : γ → List Record × Option RRSIG → Prop}
    {Q : γ → Except BootstrapError ChainKeys → Prop} (herr : ∀ g e, Q g (.error e))
    (hcached : ∀ keys, K.post g (.keyGet zone.toLowercase) (some keys) →
      K.Safe (K.upd g (.keyGet zone.toLowercase) (some keys))
        (admitCached zone keys (.ok (putEntry chain zone keys))) Q)
    (hds : K.Safe (K.upd g (.keyGet zone.toLowercase) none) (collectDs zone ips [] none) D)
    (hverified : ∀ g r sig now, D g r → r.2 = some sig → K.post g .unixNow now → InWindow now sig →
      (∃ k ∈ closestTrustedKeys chain zone, verifyRrset C r.1 sig k = true) →
      K.Safe (K.upd g .unixNow now) (bootstrapDnskey C chain zone r.1 ips) Q) :
    K.Safe g (bootstrapZone C chain zone ips) Q := by
  refine safe_perform_bind.mpr ⟨hK.keyGet .., fun cached hpost => ?_⟩
  cases cached with
  | some keys => exact hcached keys hpost
  | none =>
    dsimp only
    split
    · exact herr ..
    refine hds.bind fun g r hr => ?_
    split
    · exact herr ..
    refine signed_paths hK (herr ..) (fun _ _ => herr ..) fun sig now hsig hnow hwin => ?_
    split
    · rename_i hver
      exact hverified g r sig now hr hsig hnow hwin (List.any_eq_true.mp hver)
    · exact herr ..

/-! ## One step -/

theorem acceptStepKeys_paths {Q : γ → Except ValidationStatus ChainKeys → Prop}
    (herr : ∀ g status, status ≠ .secure → Q g (.error status))
    (hcached : ∀ keys, state = some (.cached keys) →
      K.Safe g (admitCached step.zone keys (.ok (chain ++ [(step.zone, keys)]))) Q)
    (hset : ∀ set sig now, state = some (.fetched (.ok set)) → set.sig = some sig →
      K.post g .unixNow now → InWindow now sig → selfSigned C set sig = true →
      dsMatch C step.ds step.zone set.keys = true →
      K.Safe (K.upd g .unixNow now)
        (admitFetched step.zone set (.ok (chain ++ [(step.zone, set.keys)]))) Q) :
    K.Safe g (acceptStepKeys C step state chain) Q := by
  have hbogus : ∀ g reason, Q g (.error (.bogus reason)) := fun g _ => herr g _ nofun
  have hinsecure : Q g (.error .insecure) := herr g _ nofun
  match state with
  | none => exact hinsecure
  | some .insecure => exact hinsecure
  | some (.fetched (.error _)) => exact hinsecure
  | some (.cached keys) => exact hcached keys rfl
  | some (.fetched (.ok set)) =>
    unfold acceptStepKeys
    dsimp only
    split
    · exact hbogus ..
    refine signed_paths hK (hbogus ..) (fun _ _ => hbogus ..) fun sig now hsig hnow hwin => ?_
    split
    · exact hbogus ..
    rename_i hself
    split
    · exact hbogus ..
    rename_i hmatch
    simp only [Bool.not_eq_true, Bool.not_eq_false'] at hself hmatch
    exact hset set sig now rfl hsig hnow hwin hself hmatch

theorem verifyStepDs_paths {Q : γ → Except ValidationStatus ChainKeys → Prop}
    (herr : ∀ g status, status ≠ .secure → Q g (.error status))
    (hverified : ∀ sig now, step.ds ≠ [] → dsSigOf step = some sig → K.post g .unixNow now →
      InWindow now sig → (∃ k ∈ closestTrustedKeys chain step.zone, verifyRrset C step.ds sig k = true) →
      K.Safe (K.upd g .unixNow now) (acceptStepKeys C step state chain) Q) :
    K.Safe g (verifyStepDs C step state chain) Q := by
  have hbogus : ∀ g reason, Q g (.error (.bogus reason)) := fun g _ => herr g _ nofun
  unfold verifyStepDs
  dsimp only
  split
  · exact herr _ _ nofun
  split
  · exact herr _ _ nofun
  rename_i hds
  refine signed_paths hK (hbogus ..) (fun _ _ => hbogus ..) fun sig now hsig hnow hwin => ?_
  split
  · rename_i hver
    exact hverified sig now (fun h => hds (List.isEmpty_iff.mpr h)) hsig hnow hwin (List.any_eq_true.mp hver)
  · exact hbogus ..

end

theorem validateStep_paths {P : γ → ChainKeys → Prop} {Q : γ → Except ValidationStatus ChainKeys → Prop}
    (herr : ∀ g status, status ≠ .secure → Q g (.error status)) (hnone : dsSigOf step = none → P g chain)
    (hboot : ∀ sig, dsSigOf step = some sig → K.Safe g (bootstrapSigner C chain sig.signerName ips)
      fun g r => ∀ c, r = .ok c → P g c)
    (hverify : ∀ g c, P g c → K.Safe g (verifyStepDs C step state c) Q) :
    K.Safe g (validateStep C ips step state chain) Q := by
  unfold validateStep
  cases hsig : dsSigOf step with
  | none => exact hverify g chain (hnone hsig)
  | some sig =>
    refine (hboot sig hsig).bind fun g booted hbooted => ?_
    cases booted with
    | error e => exact herr _ _ nofun
    | ok c => exact hverify g c (hbooted c rfl)

/-! ## The loops -/

def Puts {ε : Type} (chain : ChainKeys) (zone : Name) : Except ε ChainKeys → Prop
  | .ok c => ∃ keys, c = putEntry chain zone keys
  | .error _ => True

theorem reads_all : Reads (Contract.plain (fun _ : Op => True) fun _ _ => True) :=
  ⟨fun _ _ => trivial, fun _ => trivial⟩

theorem bootstrapZone_puts : (bootstrapZone C chain zone ips).Always (Puts chain zone) := by
  refine Safe.always (bootstrapZone_paths reads_all (fun _ _ => trivial) (fun keys _ => ?_) (safe_trivial _)
    fun _ _ _ _ _ _ _ _ _ => ?_)
  · exact ⟨trivial, fun _ _ => ⟨keys, rfl⟩⟩
  · refine bootstrapDnskey_paths reads_all (fun _ _ => trivial) (safe_trivial _)
      fun _ set _ _ _ _ _ _ _ _ => ?_
    exact ⟨trivial, fun _ _ => ⟨trivial, fun _ _ => ⟨set.keys, rfl⟩⟩⟩

theorem spliceInZoneDnskey_puts : (spliceInZoneDnskey C chain zone ips).Always (Puts chain zone) := by
  refine Safe.always (spliceInZoneDnskey_paths reads_all (fun _ _ => trivial) (fun keys _ => ?_)
    (safe_trivial _) fun _ set _ _ _ _ _ _ _ => ?_)
  · exact ⟨trivial, fun _ _ => ⟨keys, rfl⟩⟩
  · exact ⟨trivial, fun _ _ => ⟨trivial, fun _ _ => ⟨set.keys, rfl⟩⟩⟩

def Bootable (K : Contract γ Op Op.Res) (C : Crypto) (ips : List IpAddr) (Inv : γ → ChainKeys → Prop)
    (target : Name) : Prop :=
  ∀ g chain zone, Inv g chain → hasZone chain zone = false → zone.labels <:+ target.toLowercase.labels →
    K.Safe g (bootstrapZone C chain zone ips) fun g r => ∀ c, r = .ok c → Inv g c

variable {Inv : γ → ChainKeys → Prop} {signer target : Name}

theorem bootstrapIntermediateZone_paths (hboot : Bootable K C ips Inv target) (h : Inv g chain) :
    K.Safe g (bootstrapIntermediateZone C chain target ips) fun g r => ∀ c, r = .ok c → Inv g c := by
  suffices ∀ (zones : List Name) (g : γ) (chain : ChainKeys), Inv g chain →
      (∀ z ∈ zones, hasZone chain z = false ∧ z.labels <:+ target.toLowercase.labels) →
      (zones.Pairwise fun a b => a.same b = false) →
      K.Safe g (bootstrapZones C ips zones chain) fun g r => ∀ c, r = .ok c → Inv g c by
    unfold bootstrapIntermediateZone
    split
    · exact fun c hc => nomatch hc
    rename_i zones hzones
    obtain ⟨hall, hpair⟩ := missingAncestors_spec hzones
    exact this zones g chain h hall hpair
  intro zones
  induction zones with
  | nil =>
    rintro g chain h - -
    rintro c ⟨⟩
    exact h
  | cons zone zones ih =>
    intro g chain h hall hpair
    obtain ⟨⟨hnew, hsuffix⟩, hrest⟩ := List.forall_mem_cons.mp hall
    obtain ⟨hhead, htail⟩ := List.pairwise_cons.mp hpair
    refine ((hboot g chain zone h hnew hsuffix).and_always bootstrapZone_puts).bind fun g r hr => ?_
    cases r with
    | error e => exact fun c hc => nomatch hc
    | ok c =>
      refine ih g c (hr.1 c rfl) (fun z hz => ⟨?_, (hrest z hz).2⟩) htail
      -- Only the zone at hand gets an entry, and the others are different from it.
      obtain ⟨keys, rfl⟩ := hr.2
      refine Bool.eq_false_iff.mpr fun hhas => ?_
      obtain ⟨e, he, hs⟩ := hasZone_iff.mp hhas
      rcases mem_putEntry he with he | rfl
      · exact Bool.eq_false_iff.mp (hrest z hz).1 (hasZone_iff.mpr ⟨e, he, hs⟩)
      · exact Bool.eq_false_iff.mp (hhead z hz) hs

theorem bootstrapSigner_paths (hboot : Bootable K C ips Inv signer) (h : Inv g chain) :
    K.Safe g (bootstrapSigner C chain signer ips) fun g r => ∀ c, r = .ok c → Inv g c := by
  unfold bootstrapSigner
  split
  · rintro c ⟨⟩
    exact h
  · exact bootstrapIntermediateZone_paths hboot h

theorem bootstrapSigners_paths {signers : List Name} (hboot : ∀ s ∈ signers, Bootable K C ips Inv s)
    (h : Inv g chain) :
    K.Safe g (bootstrapSigners C ips signers chain) fun g r => ∀ c, r = .ok c → Inv g c := by
  induction signers generalizing g chain with
  | nil =>
    rintro c ⟨⟩
    exact h
  | cons signer signers ih =>
    obtain ⟨hsigner, hrest⟩ := List.forall_mem_cons.mp hboot
    refine (bootstrapIntermediateZone_paths hsigner h).bind fun g r hr => ?_
    cases r with
    | error e => exact fun c hc => nomatch hc
    | ok c => exact ih hrest (hr c rfl)

def StepsDone (Inv : γ → List ChainStep → ChainKeys → Prop) (Stop : γ → List ChainStep → Prop)
    (steps : List ChainStep) (out : List Name) (g : γ) (r : Except ValidationStatus ChainKeys × List Name) :
    Prop :=
  ∃ done rest, steps = done ++ rest ∧ r.2 = out ++ done.map ChainStep.zone ∧
    match r.1 with
    | .ok c => rest = [] ∧ Inv g done c
    | .error status => rest ≠ [] ∧ status ≠ .secure ∧ Stop g done

theorem validateSteps_paths {Inv : γ → List ChainStep → ChainKeys → Prop} {Stop : γ → List ChainStep → Prop}
    (State : γ → ChainStep → StepDnskeyState → Prop) {steps : List ChainStep}
    {states : List StepDnskeyState} {out : List Name}
    (hstate : ∀ g o r step s, State g step s → State (K.upd g o r) step s)
    (hstep : ∀ g done step rest chain s, steps = done ++ step :: rest → Inv g done chain → State g step s →
      K.Safe g (validateStep C ips step (some s) chain) fun g r =>
        match r with
        | .ok c => Inv g (done ++ [step]) c
        | .error status => status ≠ .secure ∧ Stop g done)
    (hstates : List.Forall₂ (State g) steps states) (h : Inv g [] chain) :
    K.Safe g (validateSteps C ips steps states chain out) (StepsDone Inv Stop steps out) := by
  suffices ∀ (rest done : List ChainStep) (states : List StepDnskeyState) (g : γ) (chain : ChainKeys),
      steps = done ++ rest → List.Forall₂ (State g) rest states → Inv g done chain →
      K.Safe g (validateSteps C ips rest states chain (out ++ done.map ChainStep.zone))
        (StepsDone Inv Stop steps out) by
    simpa using this steps [] states g chain rfl hstates h
  intro rest
  induction rest with
  | nil => exact fun done _ g chain hsplit _ h => ⟨done, [], hsplit, rfl, ⟨rfl, h⟩⟩
  | cons step rest ih =>
    intro done states g chain hsplit hstates h
    cases hstates with
    | @cons _ state _ states hhead htail =>
      have hkeep := (hstep g done step rest chain state hsplit h hhead).keeps
        (fun g o r (h : List.Forall₂ (State g) rest states) => h.imp fun _ _ => hstate g o r _ _) htail
      refine hkeep.bind fun g r hr => ?_
      cases r with
      | error status => exact ⟨done, step :: rest, hsplit, rfl, ⟨nofun, hr.2⟩⟩
      | ok c =>
        have := ih (done ++ [step]) states g c (by rw [hsplit, List.append_assoc]; rfl) hr.1 hr.2
        rwa [List.map_append, ← List.append_assoc] at this

end Dnsd.Recursor
