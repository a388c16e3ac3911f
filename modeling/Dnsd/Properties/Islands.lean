/-
# Islands — anchors for zones below the root.

Only the root's anchor is completed by the zone's own DNSKEY set; the entry of an island stays as configured, and
is the one chosen for the zone.
-/
import Dnsd.Properties.Completeness

namespace Dnsd.Recursor

open Proto Lib Prog List

variable {C : Crypto} {chain c : ChainKeys} {zone : Name} {b e : Name × List DNSKEY}
  {best : Option (Name × List DNSKEY)} {ips : List IpAddr} {zones : List Name}

/-! ## The chosen entry is the first one of the zone -/

theorem numLabels_le_of_zoneOf {n : Name} (h : n.zoneOf zone = true)
    (hw : zone.isWildcard = false) : n.numLabels ≤ zone.numLabels := by
  have hlen := Name.zoneOf_length h
  have hle := Name.numLabels_le n
  have hzone := Name.numLabels_of_not_isWildcard hw
  omega

theorem foldl_closer_settled (hb : zone.numLabels ≤ b.1.numLabels) (hw : zone.isWildcard = false) :
    chain.foldl (closer zone) (some b) = some b := by
  induction chain with
  | nil => rfl
  | cons e chain ih =>
    have hstay : closer zone (some b) e = some b := by
      unfold closer
      split
      · rename_i hcond
        have hz : e.1.zoneOf zone = true := by
          rcases Bool.or_eq_true_iff.mp hcond with hs | hz
          · exact Name.zoneOf_of_same hs
          · exact hz
        have hle := numLabels_le_of_zoneOf hz hw
        dsimp only
        rw [if_neg (by omega)]
      · rfl
    rw [foldl_cons, hstay, ih]

theorem closer_of_same (hs : e.1.same zone = true)
    (hbest : ∀ b, best = some b → b.1.numLabels < zone.numLabels) : closer zone best e = some e := by
  have hlabels : e.1.numLabels = zone.numLabels := Name.numLabels_congr hs
  unfold closer
  rw [hs, Bool.true_or, if_pos rfl]
  cases best with
  | none => rfl
  | some b =>
    have hlt := hbest b rfl
    dsimp only
    rw [if_pos (by omega)]

theorem closer_short (hs : ¬ e.1.same zone = true) (hw : zone.isWildcard = false)
    (hbest : ∀ b, best = some b → b.1.numLabels < zone.numLabels) (h : closer zone best e = some b) :
    b.1.numLabels < zone.numLabels := by
  rcases closer_eq_some h with h | ⟨rfl, hz⟩
  · exact hbest b h
  · have hlen : ¬ zone.labels.length ≤ b.1.labels.length :=
      fun h => hs (Name.same_of_zoneOf_of_length hz h)
    have hle := Name.numLabels_le b.1
    have hzone := Name.numLabels_of_not_isWildcard hw
    omega

theorem closestEntry_eq_find? (hz : hasZone chain zone = true) (hw : zone.isWildcard = false) :
    closestEntry chain zone = chain.find? fun e => e.1.same zone := by
  suffices ∀ (chain : ChainKeys) (best : Option (Name × List DNSKEY)),
      hasZone chain zone = true → (∀ b, best = some b → b.1.numLabels < zone.numLabels) →
      chain.foldl (closer zone) best = chain.find? fun e => e.1.same zone from
    this chain none hz fun _ h => nomatch h
  intro chain
  induction chain with
  | nil => exact fun best h => nomatch h
  | cons e chain ih =>
    intro best hz hbest
    by_cases hs : e.1.same zone = true
    · simp only [foldl_cons, closer_of_same hs hbest, List.find?_cons, hs]
      exact foldl_closer_settled (Name.numLabels_congr hs).ge hw
    simp only [foldl_cons, List.find?_cons, hs]
    refine ih _ ?_ fun b => closer_short hs hw hbest
    obtain ⟨x, hx, hxs⟩ := hasZone_iff.mp hz
    rcases mem_cons.mp hx with rfl | hx
    · exact absurd hxs hs
    · exact hasZone_iff.mpr ⟨x, hx, hxs⟩

theorem closestTrustedKeys_eq_entryKeys (hz : hasZone chain zone = true)
    (hw : zone.isWildcard = false) : closestTrustedKeys chain zone = entryKeys chain zone := by
  unfold closestTrustedKeys entryKeys
  rw [closestEntry_eq_find? hz hw]
  cases chain.find? fun e => e.1.same zone <;> rfl

theorem closestTrustedKeys_congr {z : Name} (h : z.same zone = true) :
    closestTrustedKeys chain z = closestTrustedKeys chain zone := by
  have hcloser : closer z = closer zone := by
    funext best e
    simp only [closer, same_congr_right h, Name.zoneOf_congr_right h]
  unfold closestTrustedKeys closestEntry
  rw [hcloser]

/-! ## The entry of an island stays as it is -/

def EntryKept (zone : Name) (chain c : ChainKeys) : Prop :=
  hasZone chain zone = true → hasZone c zone = true ∧ entryKeys c zone = entryKeys chain zone

theorem EntryKept.refl (zone : Name) (chain : ChainKeys) : EntryKept zone chain chain :=
  fun h => ⟨h, rfl⟩

theorem EntryKept.trans {c' : ChainKeys} (h : EntryKept zone chain c) (h' : EntryKept zone c c') :
    EntryKept zone chain c' := by
  intro hz
  obtain ⟨hz', hkeys⟩ := h hz
  obtain ⟨hz'', hkeys'⟩ := h' hz'
  exact ⟨hz'', hkeys'.trans hkeys⟩

theorem EntryKept.append (zone : Name) (chain : ChainKeys) (e : Name × List DNSKEY) :
    EntryKept zone chain (chain ++ [e]) := by
  intro hz
  refine ⟨hasZone_append.mpr (Or.inl hz), ?_⟩
  obtain ⟨x, hx⟩ := Option.isSome_iff_exists.mp
    (List.find?_isSome.mpr (hasZone_iff.mp hz) : (chain.find? fun e => e.1.same zone).isSome = true)
  simp only [entryKeys, List.find?_append, hx, Option.some_or]

theorem EntryKept.putEntry {other : Name} (h : other.same zone = false) (keys : List DNSKEY) :
    EntryKept zone chain (putEntry chain other keys) := by
  intro hz
  refine ⟨hasZone_putEntry.mpr (Or.inl hz), ?_⟩
  have hfilter : (chain.filter fun e => !e.1.same other).find? (fun e => e.1.same zone) =
      chain.find? fun e => e.1.same zone := by
    rw [List.find?_filter]
    refine congrArg (fun p => chain.find? p) (funext fun e => ?_)
    cases hs : e.1.same zone with
    | false => simp
    | true =>
      have hne : e.1.same other = false := by
        refine Bool.eq_false_iff.mpr fun ho => ?_
        rw [Name.same_trans (Name.same_symm ho) hs] at h
        nomatch h
      simp [hne]
  obtain ⟨x, hx⟩ := Option.isSome_iff_exists.mp
    (List.find?_isSome.mpr (hasZone_iff.mp hz) : (chain.find? fun e => e.1.same zone).isSome = true)
  simp only [entryKeys, Dnsd.Recursor.putEntry, List.find?_append, hfilter, hx, Option.some_or]

theorem bootable_kept {target : Name} :
    Bootable (.plain (fun _ => True) fun _ _ => True) C ips (fun _ c => ∀ zone, EntryKept zone chain c)
      target := by
  intro _ c z h hnew _
  refine ((Contract.safe_trivial _).and_always bootstrapZone_puts).mono ?_
  rintro _ _ ⟨-, hr⟩ c' rfl zone hz
  obtain ⟨keys, rfl⟩ := hr
  refine (h zone).trans (.putEntry (Bool.eq_false_iff.mpr fun hs => ?_) keys) hz
  rw [hasZone_congr hs, (h zone hz).1] at hnew
  nomatch hnew

theorem validateStep_keeps {step : ChainStep} {state : Option StepDnskeyState} :
    (validateStep C ips step state chain).Always fun r => ∀ c, r = .ok c →
      (∀ zone, EntryKept zone chain c) ∧
        ∃ c', (∀ zone, EntryKept zone chain c') ∧ StepDsVerified C c' step := by
  have hrefl : ∀ zone, EntryKept zone chain chain := fun zone => .refl zone chain
  refine Contract.Safe.always (validateStep_paths (P := fun _ c => ∀ zone, EntryKept zone chain c)
    (fun _ _ _ c hc => nomatch hc) (fun _ => hrefl) (fun _ _ => bootstrapSigner_paths bootable_kept hrefl)
    fun _ c' hc' => ?_)
  refine ((Contract.safe_trivial _).and_always verifyStepDs_pushes).mono ?_
  rintro _ _ ⟨-, hpush, hds⟩ c rfl
  obtain ⟨keys, rfl⟩ := hpush
  exact ⟨fun zone => (hc' zone).trans (.append zone c' _), c', hc', hds _ rfl⟩

theorem validateSteps_keeps {steps : List ChainStep} {states : List StepDnskeyState} :
    (validateSteps C ips steps states chain zones).Always fun r => ∀ c, r.1 = .ok c →
      (∀ zone, EntryKept zone chain c) ∧
        ∀ step ∈ steps, ∃ c', (∀ zone, EntryKept zone chain c') ∧ StepDsVerified C c' step := by
  induction steps generalizing states chain zones with
  | nil =>
    refine always_ret ?_
    rintro c ⟨⟩
    exact ⟨fun zone => .refl zone chain, fun _ h => nomatch h⟩
  | cons step steps ih =>
    refine Always.bind validateStep_keeps fun r hr => ?_
    cases r with
    | error status => exact always_ret fun c hc => nomatch hc
    | ok c₁ =>
      obtain ⟨hsame, hfirst⟩ := hr c₁ rfl
      intro r hr' c hc
      obtain ⟨hsame', hrest⟩ := ih r hr' c hc
      refine ⟨fun zone => (hsame zone).trans (hsame' zone), fun s hs => ?_⟩
      rcases mem_cons.mp hs with rfl | hs
      · exact hfirst
      · obtain ⟨c', hc', hds⟩ := hrest s hs
        exact ⟨c', fun zone => (hsame zone).trans (hc' zone), hds⟩

theorem walkKeys_island {ok : (o : Op) → o.Res → Prop} {walk : WalkChain}
    (h : (walkKeys C walk).Yields ok (ips, .ok chain, zones)) (hroot : zone ≠ Name.root) :
    ∃ anchors, ok .loadAnchors anchors ∧ EntryKept zone (seedChain anchors) chain ∧
      ∀ step ∈ walk.steps, ∃ c', EntryKept zone (seedChain anchors) c' ∧ StepDsVerified C c' step := by
  obtain ⟨anchors, hanchors, h⟩ := yields_perform_bind.mp h
  refine ⟨anchors, hanchors, ?_⟩
  split at h
  · nomatch yields_ret.mp h
  obtain ⟨rootIps, -, h⟩ := yields_perform_bind.mp h
  obtain ⟨rooted, hrooted, h⟩ := yields_bind.mp h
  cases rooted with
  | error status => nomatch yields_ret.mp h
  | ok c₀ =>
    have hsplice : EntryKept zone (seedChain anchors) c₀ := by
      obtain ⟨r, hr, hrooted⟩ := yields_bind.mp hrooted
      cases r with
      | error e => nomatch yields_ret.mp hrooted
      | ok c =>
        cases yields_ret.mp hrooted
        obtain ⟨keys, rfl⟩ := hr.always spliceInZoneDnskey_puts
        refine .putEntry (Bool.eq_false_iff.mpr fun hs => hroot ?_) keys
        exact Name.same_root_iff.mp (Name.same_symm hs)
    obtain ⟨states, -, h⟩ := yields_bind.mp h
    obtain ⟨r, hr, h⟩ := yields_bind.mp h
    cases yields_ret.mp h
    obtain ⟨hsame, hsteps⟩ := hr.always validateSteps_keeps chain rfl
    refine ⟨hsplice.trans (hsame zone), fun step hstep => ?_⟩
    obtain ⟨c', hc', hds⟩ := hsteps step hstep
    exact ⟨c', hsplice.trans (hc' zone), hds⟩

/-! ## Answers of an island -/

/-- A positive answer whose RRsets are signed in the name of one zone, in window at every reading of the
clock. -/
structure SignedIn (ok : (o : Op) → o.Res → Prop) (zone : Name) (answer : Message) : Prop where
  positive : answerGroups answer.answers ≠ []
  signer : ∀ r ∈ answer.answers ++ answer.authorities, ∀ sig, r.rrsig? = some sig →
    sig.signerName.same zone = true
  inWindow : ∀ r ∈ answer.answers ++ answer.authorities, ∀ sig, r.rrsig? = some sig →
    ∀ now, ok .unixNow now → InWindow now sig

def AnchorVerifies (C : Crypto) (anchors : TrustAnchors) (zone : Name) (records : List Record)
    (sig : RRSIG) : Prop :=
  ∃ a ∈ anchors.keys, a.1.same zone = true ∧ verifyRrset C records sig a.2 = true

theorem exists_chosen_iff {anchors : TrustAnchors} {z : Name} {records : List Record} {sig : RRSIG}
    (hkeep : EntryKept zone (seedChain anchors) chain)
    (hanchor : ∃ k, (zone, k) ∈ anchors.keys) (hw : zone.isWildcard = false)
    (hz : z.same zone = true) :
    (∃ k ∈ closestTrustedKeys chain z, verifyRrset C records sig k = true) ↔
      AnchorVerifies C anchors zone records sig := by
  obtain ⟨k₀, hk₀⟩ := hanchor
  have hseeded : hasZone (seedChain anchors) zone = true := by
    obtain ⟨e, he, hs, -⟩ := mem_entryKeys (mem_entryKeys_seedChain hk₀)
    exact hasZone_iff.mpr ⟨e, he, hs⟩
  obtain ⟨hzone, hkeys⟩ := hkeep hseeded
  rw [closestTrustedKeys_congr hz, closestTrustedKeys_eq_entryKeys hzone hw, hkeys]
  simp only [mem_entryKeys_seedChain_iff]
  constructor
  · rintro ⟨k, ⟨a, ha, hs, rfl⟩, hv⟩
    exact ⟨a, ha, hs, hv⟩
  · rintro ⟨a, ha, hs, hv⟩
    exact ⟨a.2, ⟨a, ha, hs, rfl⟩, hv⟩

def islandAnchors (zone : Name) (key : DNSKEY) : TrustAnchors := ⟨[(Name.root, sampleKey 1), (zone, key)]⟩

def islandCrypto : Crypto where
  verifyRrsig k _ _ sig _ :=
    k == if sig.typeCovered = .A then sampleKey 3
      else if sig.signerName = Name.root then sampleKey 1 else sampleKey 2
  covers _ _ k := k == sampleKey 2
  nsec3Hash _ _ _ := none

def islandVerdict (walk : WalkChain) : ValidationStatus × List Name :=
  (zoneScript [sampleKey 2, sampleKey 3]).result
    (validateWalk islandCrypto walk (signedAnswer insideName childZone))
    (freshWorld (islandAnchors childZone (sampleKey 2)))

def islandKeys : DnskeySet := dnskeySetOf childZone (keyAnswer childZone [sampleKey 2, sampleKey 3]).answers

def islandAnswer : (o : Op) → o.Res :=
  (zoneScript [sampleKey 2]).answer () (freshWorld (islandAnchors insideName (sampleKey 4)))

theorem island_signedIn :
    SignedIn (fun o r => r = islandAnswer o) insideName (signedAnswer insideName insideName) := by
  have hsig : ∀ r ∈ (signedAnswer insideName insideName).answers ++
      (signedAnswer insideName insideName).authorities, ∀ sig, r.rrsig? = some sig →
      sig = sampleSig insideName .A := by
    intro r hr sig hs
    rcases mem_cons.mp hr with rfl | hr
    · nomatch hs
    · obtain rfl := mem_singleton.mp hr
      exact (Option.some.inj hs).symm
  refine ⟨by decide, fun r hr sig hs => ?_, fun r hr sig hs now hnow => ?_⟩
  · rw [hsig r hr sig hs]
    rfl
  · rw [hsig r hr sig hs, show now = 1000 from hnow]
    decide

end Dnsd.Recursor
