/-
# Resupplied — a validation under replies in another order.

Two worlds answer the validator's questions, the second with the replies of the first in another order
(`Resupplied`).  Every function up to the end of the loop over the steps goes the same way in both.
-/
import Dnsd.Lib.Lockstep
import Dnsd.Recursor.Rearranged

namespace Dnsd.Recursor

open Proto Lib Prog

/-! ## Worlds and walks -/

inductive SameExchange : Reply → Reply → Prop
  | failed : SameExchange .failed .failed
  | unparsed : SameExchange .unparsed .unparsed
  | parsed {m m' : Message} : SameReply m m' → SameExchange (.parsed m) (.parsed m')

/-- Two answers of an effect: replies in two orders, cached keys in two orders, anything else equal. -/
def SameRead : (o : Op) → o.Res → o.Res → Prop
  | .query _ _ _, r, r' => SameExchange r r'
  | .keyGet _, r, r' => Option.Rel List.Perm r r'
  | _, r, r' => r = r'

/-- For every answer of the first world the second has one that differs in order only, and it stores
what it is told to. -/
structure Resupplied (ok ok' : (o : Op) → o.Res → Prop) : Prop where
  reads : ∀ o r, ok o r → ∃ r', ok' o r' ∧ SameRead o r r'
  keyPut : ∀ zone keys ttl, ok' (.keyPut zone keys ttl) ()
  keyInvalidate : ∀ zone step, ok' (.keyInvalidate zone step) ()
  keyPutNegative : ∀ zone step, ok' (.keyPutNegative zone step) ()
  note : ∀ e, ok' (.note e) ()

/-- Two orders of a delegation step: the DS set is checked with the same signature. -/
structure SameStep (s s' : ChainStep) : Prop where
  zone : s.zone = s'.zone
  ds : SameSet s.ds s'.ds
  dsSig : dsSigOf s = dsSigOf s'
  nsIps : s.nsIps = s'.nsIps

theorem SameStep.symm {s s' : ChainStep} (h : SameStep s s') : SameStep s' s :=
  ⟨h.zone.symm, h.ds.symm, h.dsSig.symm, h.nsIps.symm⟩

def SameResult {ε α β : Type} (R : α → β → Prop) : Except ε α → Except ε β → Prop
  | .ok a, .ok b => R a b
  | .error _, .error _ => True
  | _, _ => False

theorem bindResult {ok ok' : (o : Op) → o.Res → Prop} {ε α β γ δ : Type} {R : α → β → Prop}
    {S : γ → δ → Prop} {p : RProg (Except ε α)} {q : RProg (Except ε β)}
    (h : p.Lockstep ok ok' (SameResult R) q) {f : Except ε α → RProg γ} {g : Except ε β → RProg δ}
    (herror : ∀ e e', (f (.error e)).Lockstep ok ok' S (g (.error e')))
    (hok : ∀ a b, R a b → (f (.ok a)).Lockstep ok ok' S (g (.ok b))) :
    (p >>= f).Lockstep ok ok' S (q >>= g) := by
  refine h.bind fun r r' hr => ?_
  cases r with
  | error e =>
    cases r' with
    | error e' => exact herror e e'
    | ok b => exact hr.elim
  | ok a =>
    cases r' with
    | error e' => exact hr.elim
    | ok b => exact hok a b hr

/-! ## Checks on related sets -/

section

variable {C : Crypto} {keys keys' : List DNSKEY}

theorem any_verifyRrset (hC : C.Canonical) {rs rs' : List Record} (hset : SameSet rs rs')
    (hk : keys.Perm keys') (sig : RRSIG) :
    (keys.any fun k => verifyRrset C rs sig k) = keys'.any fun k => verifyRrset C rs' sig k := by
  simp only [hset.verifyRrset hC]
  exact hk.any_eq

theorem dsMatch_perm {ds ds' : List Record} (hds : ds.Perm ds') (hk : keys.Perm keys')
    (zone : Name) : dsMatch C ds zone keys = dsMatch C ds' zone keys' := by
  have hcovers : ∀ k, dsCovers C ds zone k = dsCovers C ds' zone k :=
    fun k => (hds.filterMap _).any_eq
  unfold dsMatch
  simp only [hcovers]
  exact hk.any_eq

end

/-! ## Fetching -/

section

variable {C : Crypto} {ok ok' : (o : Op) → o.Res → Prop} {α β : Type} {R : α → β → Prop}
  {asked zone zone' : Name} {ds ds' : List Record} {ips : List IpAddr} {keys keys' : List DNSKEY}
  {state state' : Option StepDnskeyState} {walk walk' : WalkChain} {zones : List Name}

theorem Resupplied.same (hs : Resupplied ok ok') {o : Op} (ho : ∀ r r', SameRead o r r' → r = r')
    {f : o.Res → RProg α} {g : o.Res → RProg β} (h : ∀ r, (f r).Lockstep ok ok' R (g r)) :
    (call o >>= f).Lockstep ok ok' R (call o >>= g) := by
  refine lockstep_perform_bind fun r hr => ?_
  obtain ⟨r', hr', hsame⟩ := hs.reads o r hr
  obtain rfl := ho r r' hsame
  exact ⟨r, hr', h r⟩

theorem Resupplied.cachedKeys (hs : Resupplied ok ok') {f : Option (List DNSKEY) → RProg α}
    {g : Option (List DNSKEY) → RProg β}
    (hsome : ∀ keys keys', keys.Perm keys' → (f (some keys)).Lockstep ok ok' R (g (some keys')))
    (hnone : (f none).Lockstep ok ok' R (g none)) :
    (call (.keyGet zone) >>= f).Lockstep ok ok' R (call (.keyGet zone) >>= g) := by
  refine lockstep_perform_bind fun r hr => ?_
  obtain ⟨r', hr', hsame⟩ := hs.reads _ r hr
  refine ⟨r', hr', ?_⟩
  cases r with
  | none =>
    cases r' with
    | none => exact hnone
    | some keys' => nomatch hsame
  | some keys =>
    cases r' with
    | none => nomatch hsame
    | some keys' =>
      cases hsame with
      | some hk => exact hsome keys keys' hk

theorem Resupplied.admit (hs : Resupplied ok ok') {a : α} {b : β} (h : R a b) :
    (do admitKeys zone keys; return a : RProg α).Lockstep ok ok' R
      (do admitKeys zone' keys'; return b) :=
  lockstep_perform_bind fun _ _ => ⟨(), hs.note _, h⟩

theorem Resupplied.store (hs : Resupplied ok ok') {ttl ttl' : Nat} {a : α} {b : β} (h : R a b) :
    (do call (.keyPut zone.toLowercase keys ttl); admitKeys zone keys; return a : RProg α).Lockstep ok ok' R
      (do call (.keyPut zone'.toLowercase keys' ttl'); admitKeys zone' keys'; return b) :=
  lockstep_perform_bind fun _ _ => ⟨(), hs.keyPut _ _ _, hs.admit h⟩

theorem upstreamQuery_lockstep (hs : Resupplied ok ok') {ip : IpAddr} {q : Query} :
    (upstreamQuery asked ip q).Lockstep ok ok' SameExchange (upstreamQuery asked ip q) := by
  refine lockstep_perform_bind fun r hr => ?_
  obtain ⟨r', hr', hsame⟩ := hs.reads _ r hr
  refine ⟨r', hr', ?_⟩
  have hex : SameExchange r r' := hsame
  cases hex with
  | failed => exact SameExchange.failed
  | unparsed => exact SameExchange.unparsed
  | parsed h => exact SameExchange.parsed h.lowercase

theorem fetchDnskeyFrom_lockstep (hs : Resupplied ok ok') :
    (fetchDnskeyFrom asked zone ips).Lockstep ok ok' (SameResult SameKeys)
      (fetchDnskeyFrom asked zone ips) := by
  induction ips with
  | nil => exact trivial
  | cons ip ips ih =>
    refine (upstreamQuery_lockstep hs).bind fun r r' hr => ?_
    cases hr with
    | failed => exact ih
    | unparsed => exact trivial
    | parsed h => exact h.answers.dnskeySetOf zone

theorem fetchDnskeyRrset_lockstep (hs : Resupplied ok ok') :
    (fetchDnskeyRrset asked zone ips).Lockstep ok ok' (SameResult SameKeys)
      (fetchDnskeyRrset asked zone ips) := by
  unfold fetchDnskeyRrset
  split
  · exact trivial
  · exact fetchDnskeyFrom_lockstep hs

theorem collectDs_lockstep (hs : Resupplied ok ok') {sig : Option RRSIG} (hds : SameSet ds ds') :
    (collectDs zone ips ds sig).Lockstep ok ok' (fun r r' => SameSet r.1 r'.1 ∧ r.2 = r'.2)
      (collectDs zone ips ds' sig) := by
  induction ips generalizing ds ds' sig with
  | nil => exact ⟨hds, rfl⟩
  | cons ip ips ih =>
    refine (upstreamQuery_lockstep hs).bind fun r r' hr => ?_
    cases hr with
    | failed => exact ih hds
    | unparsed => exact ih hds
    | @parsed m m' h =>
      have hset := hds.append (h.dsRecordsOf zone)
      dsimp only
      rw [h.lastDsSig zone, hset.perm.isEmpty_eq]
      split
      · exact ⟨hset, rfl⟩
      · exact ih hset

/-! ## The root and skipped zones -/

variable {chain chain' : ChainKeys}

theorem spliceInZoneDnskey_lockstep (hC : C.Canonical) (hs : Resupplied ok ok') :
    (spliceInZoneDnskey C chain zone ips).Lockstep ok ok' (SameResult SameChain)
      (spliceInZoneDnskey C chain zone ips) := by
  refine hs.cachedKeys (fun keys keys' hk => hs.admit ((SameChain.refl chain).putEntry hk)) ?_
  refine bindResult (fetchDnskeyRrset_lockstep hs) (fun _ _ => trivial) fun set set' hset => ?_
  dsimp only
  rw [hset.sig]
  cases set'.sig with
  | none => exact trivial
  | some sig =>
    refine hs.same (o := .unixNow) (fun _ _ h => h) fun now => ?_
    cases checkRrsigValidity now sig with
    | error e => exact trivial
    | ok _ =>
      dsimp only
      rw [any_verifyRrset hC hset.records (.refl _)]
      split
      · exact hs.store ((SameChain.refl chain).putEntry hset.keys)
      · exact trivial

theorem bootstrapDnskey_lockstep (hC : C.Canonical) (hs : Resupplied ok ok')
    (hc : SameChain chain chain') (hds : ds.Perm ds') :
    (bootstrapDnskey C chain zone ds ips).Lockstep ok ok' (SameResult SameChain)
      (bootstrapDnskey C chain' zone ds' ips) := by
  refine bindResult (fetchDnskeyRrset_lockstep hs) (fun _ _ => trivial) fun set set' hset => ?_
  dsimp only
  rw [hset.sig]
  cases set'.sig with
  | none => exact trivial
  | some sig =>
    refine hs.same (o := .unixNow) (fun _ _ h => h) fun now => ?_
    cases checkRrsigValidity now sig with
    | error e => exact trivial
    | ok _ =>
      have hself : selfSigned C set sig = selfSigned C set' sig :=
        any_verifyRrset hC hset.records hset.keys sig
      dsimp only
      rw [hself, dsMatch_perm hds hset.keys]
      split
      · exact trivial
      · split
        · exact trivial
        · exact hs.store (hc.putEntry hset.keys)

theorem bootstrapZone_lockstep (hC : C.Canonical) (hs : Resupplied ok ok') (hc : SameChain chain chain') :
    (bootstrapZone C chain zone ips).Lockstep ok ok' (SameResult SameChain)
      (bootstrapZone C chain' zone ips) := by
  refine hs.cachedKeys (fun keys keys' hk => hs.admit (hc.putEntry hk)) ?_
  have hparent := hc.closestTrustedKeys zone
  dsimp only
  rw [hparent.isEmpty_eq]
  split
  · exact trivial
  have hnil : SameSet [] [] := ⟨.refl _, rfl⟩
  refine (collectDs_lockstep hs hnil).bind fun r r' hr => ?_
  obtain ⟨ds, sig⟩ := r
  obtain ⟨ds', sig'⟩ := r'
  obtain ⟨hds, rfl⟩ : SameSet ds ds' ∧ sig = sig' := hr
  rw [hds.perm.isEmpty_eq]
  split
  · exact trivial
  cases sig with
  | none => exact trivial
  | some dsSig =>
    refine hs.same (o := .unixNow) (fun _ _ h => h) fun now => ?_
    cases checkRrsigValidity now dsSig with
    | error e => exact trivial
    | ok _ =>
      dsimp only
      rw [any_verifyRrset hC hds hparent]
      split
      · exact bootstrapDnskey_lockstep hC hs hc hds.perm
      · exact trivial

theorem bootstrapZones_lockstep (hC : C.Canonical) (hs : Resupplied ok ok')
    (hc : SameChain chain chain') :
    (bootstrapZones C ips zones chain).Lockstep ok ok' (SameResult SameChain)
      (bootstrapZones C ips zones chain') := by
  induction zones generalizing chain chain' with
  | nil => exact hc
  | cons zone zones ih =>
    exact bindResult (bootstrapZone_lockstep hC hs hc) (fun _ _ => trivial)
      fun _ _ hr => ih hr

theorem bootstrapIntermediateZone_lockstep (hC : C.Canonical) (hs : Resupplied ok ok')
    (hc : SameChain chain chain') {target : Name} :
    (bootstrapIntermediateZone C chain target ips).Lockstep ok ok' (SameResult SameChain)
      (bootstrapIntermediateZone C chain' target ips) := by
  unfold bootstrapIntermediateZone
  rw [hc.missingAncestors]
  split
  · exact trivial
  · exact bootstrapZones_lockstep hC hs hc

theorem bootstrapSigner_lockstep (hC : C.Canonical) (hs : Resupplied ok ok')
    (hc : SameChain chain chain') {signer : Name} :
    (bootstrapSigner C chain signer ips).Lockstep ok ok' (SameResult SameChain)
      (bootstrapSigner C chain' signer ips) := by
  unfold bootstrapSigner
  rw [hc.hasZone]
  split
  · exact hc
  · exact bootstrapIntermediateZone_lockstep hC hs hc

theorem bootstrapSigners_lockstep (hC : C.Canonical) (hs : Resupplied ok ok')
    (hc : SameChain chain chain') {signers : List Name} :
    (bootstrapSigners C ips signers chain).Lockstep ok ok' (SameResult SameChain)
      (bootstrapSigners C ips signers chain') := by
  induction signers generalizing chain chain' with
  | nil => exact hc
  | cons signer signers ih =>
    exact bindResult (bootstrapIntermediateZone_lockstep hC hs hc) (fun _ _ => trivial)
      fun _ _ hr => ih hr

/-! ## Prefetch -/

inductive SameState : StepDnskeyState → StepDnskeyState → Prop
  | cached {keys keys' : List DNSKEY} : keys.Perm keys' → SameState (.cached keys) (.cached keys')
  | insecure : SameState .insecure .insecure
  | fetched {r r' : Except FetchError DnskeySet} : SameResult SameKeys r r' →
      SameState (.fetched r) (.fetched r')

variable {step step' : ChainStep}

theorem prefetchFetch_lockstep (hs : Resupplied ok ok') (hstep : SameStep step step') :
    (prefetchFetch step).Lockstep ok ok' SameState (prefetchFetch step') := by
  unfold prefetchFetch
  rw [hstep.zone, hstep.nsIps]
  have hfetch : (timeout (fetchDnskeyRrset step'.zone step'.zone step'.nsIps)).Lockstep ok ok'
      (Option.Rel (SameResult SameKeys))
      (timeout (fetchDnskeyRrset step'.zone step'.zone step'.nsIps)) := by
    refine Lockstep.cancellable ?_ (fetchDnskeyRrset_lockstep hs)
    intro t ht
    obtain ⟨t', ht', rfl⟩ := hs.reads .struck t ht
    exact ht'
  have hnegative : ∀ r r' : Except FetchError DnskeySet, SameResult SameKeys r r' →
      (do call (.keyPutNegative step'.zone.toLowercase step); return .fetched r :
          RProg StepDnskeyState).Lockstep ok ok' SameState
        (do call (.keyPutNegative step'.zone.toLowercase step'); return .fetched r') :=
    fun r r' hr => lockstep_perform_bind fun _ _ =>
      ⟨(), hs.keyPutNegative _ _, SameState.fetched hr⟩
  refine hfetch.bind fun o o' ho => ?_
  cases ho with
  | none => exact hnegative _ _ trivial
  | @some r r' hr =>
    cases r with
    | error e =>
      cases r' with
      | error e' => exact hnegative _ _ trivial
      | ok set' => exact hr.elim
    | ok set =>
      cases r' with
      | error e' => exact hr.elim
      | ok set' => exact SameState.fetched hr

theorem prefetchUncached_lockstep (hs : Resupplied ok ok') (hstep : SameStep step step') :
    (prefetchUncached step).Lockstep ok ok' SameState (prefetchUncached step') := by
  unfold prefetchUncached
  rw [hstep.zone]
  refine hs.same (o := .keyHasNegative step'.zone.toLowercase) (fun _ _ h => h) fun negative => ?_
  split
  · exact SameState.insecure
  · exact prefetchFetch_lockstep hs hstep

theorem prefetchStep_lockstep (hs : Resupplied ok ok') (hstep : SameStep step step') :
    (prefetchStep C step).Lockstep ok ok' SameState (prefetchStep C step') := by
  unfold prefetchStep
  rw [hstep.zone]
  refine hs.cachedKeys (fun keys keys' hk => ?_) (prefetchUncached_lockstep hs hstep)
  dsimp only
  rw [dsMatch_perm hstep.ds.perm hk]
  split
  · exact SameState.cached hk
  · exact lockstep_perform_bind fun _ _ =>
      ⟨(), hs.keyInvalidate _ _, prefetchUncached_lockstep hs hstep⟩

theorem prefetchStepDnskeys_lockstep (hs : Resupplied ok ok')
    (hwalk : List.Forall₂ SameStep walk.steps walk'.steps) :
    (prefetchStepDnskeys C walk).Lockstep ok ok' (List.Forall₂ SameState)
      (prefetchStepDnskeys C walk') := by
  refine Lockstep.parAll ?_ ?_
  · intro t ht
    obtain ⟨t', ht', rfl⟩ := hs.reads .turn t ht
    exact ht'
  · rw [List.forall₂_map_left_iff, List.forall₂_map_right_iff]
    exact hwalk.imp fun _ _ hstep => prefetchStep_lockstep hs hstep

/-! ## The walk -/

theorem acceptStepKeys_lockstep (hC : C.Canonical) (hs : Resupplied ok ok')
    (hstep : SameStep step step') (hstate : Option.Rel SameState state state')
    (hc : SameChain chain chain') :
    (acceptStepKeys C step state chain).Lockstep ok ok' (SameResult SameChain)
      (acceptStepKeys C step' state' chain') := by
  unfold acceptStepKeys
  rw [hstep.zone]
  cases hstate with
  | none => exact trivial
  | some h =>
    cases h with
    | insecure => exact trivial
    | cached hk => exact hs.admit (hc.append hk)
    | @fetched r r' hr =>
      cases r with
      | error e =>
        cases r' with
        | error e' => exact trivial
        | ok set' => exact hr.elim
      | ok set =>
        cases r' with
        | error e' => exact hr.elim
        | ok set' =>
          have hset : SameKeys set set' := hr
          dsimp only
          rw [hset.keys.isEmpty_eq, hset.sig]
          split
          · exact trivial
          cases set'.sig with
          | none => exact trivial
          | some sig =>
            refine hs.same (o := .unixNow) (fun _ _ h => h) fun now => ?_
            cases checkRrsigValidity now sig with
            | error e => exact trivial
            | ok _ =>
              have hself : selfSigned C set sig = selfSigned C set' sig :=
                any_verifyRrset hC hset.records hset.keys sig
              dsimp only
              rw [hself, dsMatch_perm hstep.ds.perm hset.keys]
              split
              · exact trivial
              · split
                · exact trivial
                · exact hs.store (hc.append hset.keys)

theorem verifyStepDs_lockstep (hC : C.Canonical) (hs : Resupplied ok ok') (hstep : SameStep step step')
    (hstate : Option.Rel SameState state state') (hc : SameChain chain chain') :
    (verifyStepDs C step state chain).Lockstep ok ok' (SameResult SameChain)
      (verifyStepDs C step' state' chain') := by
  have hparent := hc.closestTrustedKeys step'.zone
  unfold verifyStepDs
  dsimp only
  rw [hstep.zone, hstep.dsSig, hparent.isEmpty_eq, hstep.ds.perm.isEmpty_eq]
  split
  · exact trivial
  split
  · exact trivial
  · cases dsSigOf step' with
    | none => exact trivial
    | some dsSig =>
      refine hs.same (o := .unixNow) (fun _ _ h => h) fun now => ?_
      cases checkRrsigValidity now dsSig with
      | error e => exact trivial
      | ok _ =>
        dsimp only
        rw [any_verifyRrset hC hstep.ds hparent]
        split
        · exact acceptStepKeys_lockstep hC hs hstep hstate hc
        · exact trivial

theorem validateStep_lockstep (hC : C.Canonical) (hs : Resupplied ok ok') (hstep : SameStep step step')
    (hstate : Option.Rel SameState state state') (hc : SameChain chain chain') :
    (validateStep C ips step state chain).Lockstep ok ok' (SameResult SameChain)
      (validateStep C ips step' state' chain') := by
  unfold validateStep
  rw [hstep.dsSig]
  cases dsSigOf step' with
  | none => exact verifyStepDs_lockstep hC hs hstep hstate hc
  | some dsSig =>
    exact bindResult (bootstrapSigner_lockstep hC hs hc) (fun _ _ => trivial)
      fun _ _ hr => verifyStepDs_lockstep hC hs hstep hstate hr

theorem validateSteps_lockstep (hC : C.Canonical) (hs : Resupplied ok ok')
    {steps steps' : List ChainStep} (hsteps : List.Forall₂ SameStep steps steps')
    {states states' : List StepDnskeyState} (hstates : List.Forall₂ SameState states states')
    (hc : SameChain chain chain') :
    (validateSteps C ips steps states chain zones).Lockstep ok ok'
      (fun r r' => SameResult SameChain r.1 r'.1) (validateSteps C ips steps' states' chain' zones) := by
  induction hsteps generalizing states states' chain chain' zones with
  | nil => exact hc
  | cons hstep _ ih =>
    have hhead : Option.Rel SameState states.head? states'.head? := by
      cases hstates with
      | nil => exact .none
      | cons h _ => exact .some h
    have htail : List.Forall₂ SameState states.tail states'.tail := by
      cases hstates with
      | nil => exact .nil
      | cons _ h => exact h
    refine bindResult (validateStep_lockstep hC hs hstep hhead hc) (fun _ _ => trivial) ?_
    intro c c' hcc
    rw [hstep.zone]
    exact ih htail hcc

theorem trustRoot_lockstep (hC : C.Canonical) (hs : Resupplied ok ok') {anchors : TrustAnchors} :
    (trustRoot C anchors ips).Lockstep ok ok' (SameResult SameChain) (trustRoot C anchors ips) :=
  bindResult (spliceInZoneDnskey_lockstep hC hs) (fun _ _ => trivial) fun _ _ hr => hr

theorem walkKeys_lockstep (hC : C.Canonical) (hs : Resupplied ok ok')
    (hwalk : List.Forall₂ SameStep walk.steps walk'.steps) :
    (walkKeys C walk).Lockstep ok ok' (fun r r' => r.1 = r'.1 ∧ SameResult SameChain r.2.1 r'.2.1)
      (walkKeys C walk') := by
  refine hs.same (o := .loadAnchors) (fun _ _ h => h) fun anchors => ?_
  split
  · exact ⟨rfl, trivial⟩
  refine hs.same (o := .readRoots) (fun _ _ h => h) fun ips => ?_
  refine bindResult (trustRoot_lockstep hC hs) (fun _ _ => ⟨rfl, trivial⟩) fun c c' hc => ?_
  refine (prefetchStepDnskeys_lockstep hs hwalk).bind fun states states' hstates => ?_
  refine (validateSteps_lockstep hC hs hwalk hstates hc).bind fun r r' hr => ?_
  exact ⟨rfl, hr⟩

end

end Dnsd.Recursor
