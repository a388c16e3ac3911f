/-
# ValidatedPrefix — what the vector of validated zones reports.

What is trusted at a point is read off the run up to there (`trustedAt`).  `closest_trusted_keys` ranks zones by
`num_labels`, so `*.z.` ranks as `z.` does and the earlier of the two wins.
-/
import Dnsd.Lib.History
import Dnsd.Recursor.ValidatorSpec
import Dnsd.Recursor.Script

namespace Dnsd.Recursor

open Proto Lib Contract Prog

variable {chain : ChainKeys} {e : Name × List DNSKEY} {g t : Trace Op.Res} {keys : List DNSKEY}
  {zone : Name}

/-! ## What is trusted at a point of a run -/

def anchorsOf : (Σ o : Op, o.Res) → Option TrustAnchors
  | ⟨.loadAnchors, a⟩ => some a
  | _ => none

def admissionOf : (Σ o : Op, o.Res) → Option (Name × List DNSKEY)
  | ⟨.note (.admitted zone keys), _⟩ => some (zone, keys)
  | _ => none

def seedOf (t : Trace Op.Res) : ChainKeys := ((t.findSome? anchorsOf).map seedChain).getD []

/-- The trusted keys after a run of the validator: the anchors, the root's key set in the place of the
root's anchors, and the key sets admitted since. -/
def trustedAt (t : Trace Op.Res) : ChainKeys :=
  match t.filterMap admissionOf with
  | [] => seedOf t
  | e :: es => putEntry (seedOf t) e.1 e.2 ++ es

def Quiet : Op → Prop
  | .loadAnchors => False
  | .note (.admitted _ _) => False
  | _ => True

structure Rooted (g : Trace Op.Res) (chain : ChainKeys) : Prop where
  loaded : (g.findSome? anchorsOf).isSome
  admitted : ∃ e es, g.filterMap admissionOf = e :: es ∧ chain = putEntry (seedOf g) e.1 e.2 ++ es

theorem Rooted.trustedAt (h : Rooted g chain) : trustedAt g = chain := by
  obtain ⟨e, es, hes, rfl⟩ := h.admitted
  unfold Recursor.trustedAt
  rw [hes]

theorem seedOf_append (h : (g.findSome? anchorsOf).isSome) (t : Trace Op.Res) :
    seedOf (g ++ t) = seedOf g := by
  obtain ⟨a, ha⟩ := Option.isSome_iff_exists.mp h
  unfold seedOf
  rw [List.findSome?_append, ha]
  rfl

theorem admissionOf_quiet {x : Σ o : Op, o.Res} (h : Quiet x.1) : admissionOf x = none := by
  obtain ⟨o, r⟩ := x
  cases o with
  | note e => cases e <;> first | rfl | exact h.elim
  | _ => rfl

theorem Rooted.quiet (h : Rooted g chain) (ht : ∀ x ∈ t, Quiet x.1) : Rooted (g ++ t) chain := by
  obtain ⟨e, es, hes, hchain⟩ := h.admitted
  have hnone : t.filterMap admissionOf = [] :=
    List.filterMap_eq_nil_iff.mpr fun x hx => admissionOf_quiet (ht x hx)
  refine ⟨?_, e, es, ?_, ?_⟩
  · rw [List.findSome?_append, Option.isSome_or, h.loaded, Bool.true_or]
  · rw [List.filterMap_append, hes, hnone, List.append_nil]
  · rw [seedOf_append h.loaded, hchain]

theorem Rooted.step (h : Rooted g chain) {o : Op} (ho : Quiet o) (r : o.Res) :
    Rooted (g ++ [⟨o, r⟩]) chain :=
  h.quiet fun _ hx => List.mem_singleton.mp hx ▸ ho

theorem Rooted.admits (h : Rooted g chain) (zone : Name) (keys : List DNSKEY) :
    Rooted (g ++ [⟨.note (.admitted zone keys), ()⟩]) (chain ++ [(zone, keys)]) := by
  obtain ⟨e, es, hes, hchain⟩ := h.admitted
  refine ⟨?_, e, es ++ [(zone, keys)], ?_, ?_⟩
  · rw [List.findSome?_append, Option.isSome_or, h.loaded, Bool.true_or]
  · rw [List.filterMap_append, hes]
    rfl
  · rw [seedOf_append h.loaded, hchain, List.append_assoc]

theorem putEntry_of_new (h : hasZone chain zone = false) (keys : List DNSKEY) :
    putEntry chain zone keys = chain ++ [(zone, keys)] := by
  unfold putEntry
  congr 1
  refine List.filter_eq_self.mpr fun e he => ?_
  have hne : e.1.same zone ≠ true := by
    intro hs
    rw [hasZone_iff.mpr ⟨e, he, hs⟩] at h
    nomatch h
  rw [Bool.eq_false_iff.mpr hne]
  rfl

/-! ## The closest entry -/

theorem closestEntry_most (h : closestEntry chain zone = some e) :
    ∀ x ∈ chain, x.1.zoneOf zone = true → x.1.numLabels ≤ e.1.numLabels := by
  suffices ∀ (chain : ChainKeys) (best : Option (Name × List DNSKEY)),
      chain.foldl (closer zone) best = some e →
      (∀ b, best = some b → b.1.numLabels ≤ e.1.numLabels) ∧
        ∀ x ∈ chain, x.1.zoneOf zone = true → x.1.numLabels ≤ e.1.numLabels from
    (this chain none h).2
  intro chain
  induction chain with
  | nil =>
    rintro best rfl
    refine ⟨?_, fun x hx => nomatch hx⟩
    rintro b ⟨⟩
    exact Nat.le_refl _
  | cons x chain ih =>
    intro best hfold
    obtain ⟨hbest, hrest⟩ := ih _ hfold
    -- Where the entry at hand is at or above the zone, the better of the two goes on.
    have hstep : (∀ b, best = some b → b.1.numLabels ≤ e.1.numLabels) ∧
        (x.1.zoneOf zone = true → x.1.numLabels ≤ e.1.numLabels) := by
      unfold closer at hbest
      by_cases hz : x.1.zoneOf zone = true
      · rw [if_pos (by rw [hz, Bool.or_true])] at hbest
        cases best with
        | none => exact ⟨fun b hb => (nomatch hb), fun _ => hbest x rfl⟩
        | some b =>
          dsimp only at hbest
          split at hbest
          · rename_i hlt
            have hx := hbest x rfl
            refine ⟨?_, fun _ => hx⟩
            rintro b' ⟨⟩
            omega
          · rename_i hle
            have hb := hbest b rfl
            refine ⟨?_, fun _ => by omega⟩
            rintro b' ⟨⟩
            exact hb
      · have hs : x.1.same zone = false :=
          Bool.eq_false_iff.mpr fun hs => hz (Name.zoneOf_of_same hs)
        rw [if_neg (by rw [hs, Bool.false_or]; exact hz)] at hbest
        exact ⟨hbest, fun h => absurd h hz⟩
    refine ⟨hstep.1, fun y hy => ?_⟩
    rcases List.mem_cons.mp hy with rfl | hy
    · exact hstep.2
    · exact hrest y hy

theorem closest_of_most (he : e.1.zoneOf zone = true) (hmem : e ∈ chain)
    (hmost : ∀ x ∈ chain, x.1.zoneOf zone = true → x.1.numLabels ≤ e.1.numLabels)
    (hplain : ∀ x ∈ chain, x.1.zoneOf zone = true → x.1.isWildcard = false) :
    ∀ x ∈ chain, x.1.zoneOf zone = true → x.1.zoneOf e.1 = true := by
  intro x hx hz
  have hle := hmost x hx hz
  rw [Name.numLabels_of_not_isWildcard (hplain x hx hz),
    Name.numLabels_of_not_isWildcard (hplain e hmem he)] at hle
  rcases Name.zoneOf_total hz he with h | h
  · exact h
  · have hlen := Name.zoneOf_length h
    exact Name.zoneOf_of_same (Name.same_symm (Name.same_of_zoneOf_of_length h (by omega)))

/-! ## What a reported step has behind it -/

def KeysSeen (g : Trace Op.Res) (zone : Name) (keys : List DNSKEY) : Prop :=
  ⟨.keyGet zone.toLowercase, some keys⟩ ∈ g ∨
    ∃ ip m, ⟨.query zone ip ⟨zone, .DNSKEY, .IN⟩, .parsed m⟩ ∈ g ∧
      keys = (dnskeySetOf zone m.lowercaseResponseNames.answers).keys

/-- The closest trusted entry: it is at or above the zone, and below every other entry that is. -/
structure Closest (chain : ChainKeys) (zone : Name) (e : Name × List DNSKEY) : Prop where
  mem : e ∈ chain
  above : e.1.zoneOf zone = true
  lowest : ∀ x ∈ chain, x.1.zoneOf zone = true → x.1.zoneOf e.1 = true

/-- The step was checked in the run `t`.  The clock was read at the end of `before`, and nothing else
became trusted until the step's own keys did. -/
structure CheckedAt (C : Crypto) (t : Trace Op.Res) (step : ChainStep) (before mid after : Trace Op.Res)
    (now : UInt32) (sig : RRSIG) (parent : Name × List DNSKEY) (keys : List DNSKEY) : Prop where
  run : t = before ++ (⟨.unixNow, now⟩ :: mid ++ ⟨.note (.admitted step.zone keys), ()⟩ :: after)
  undisturbed : ∀ x ∈ mid, Quiet x.1
  present : step.ds ≠ []
  signed : dsSigOf step = some sig
  window : InWindow now sig
  trusted : parent ∈ trustedAt before
  above : parent.1.zoneOf step.zone = true
  closest : (∀ e ∈ trustedAt before, e.1.zoneOf step.zone = true → e.1.isWildcard = false) →
    Closest (trustedAt before) step.zone parent
  verified : ∃ k ∈ parent.2, verifyRrset C step.ds sig k = true
  seen : KeysSeen before step.zone keys
  covered : ∃ k ∈ keys, dsCovers C step.ds step.zone k = true

def StepChecked (C : Crypto) (t : Trace Op.Res) (step : ChainStep) : Prop :=
  ∃ before mid after now sig parent keys, CheckedAt C t step before mid after now sig parent keys

theorem StepChecked.mono {C : Crypto} {t' : Trace Op.Res} {step : ChainStep} (h : StepChecked C t step)
    (ht : t <+: t') : StepChecked C t' step := by
  obtain ⟨before, mid, after, now, sig, parent, keys, hc⟩ := h
  obtain ⟨rest, rfl⟩ := ht
  refine ⟨before, mid, after ++ rest, now, sig, parent, keys, { hc with run := ?_ }⟩
  rw [hc.run]
  simp only [List.append_assoc, List.cons_append]

/-! ## Programs that leave the trusted keys alone -/

abbrev recorded : Contract (Trace Op.Res) Op Op.Res := recording Op.Res fun _ => True

abbrev quietly : Contract (Trace Op.Res) Op Op.Res := recording Op.Res Quiet

section

variable {C : Crypto} {g : Trace Op.Res} {chain : ChainKeys} {zone : Name} {asked : Name} {ds : List Record}
  {g' : Trace Op.Res} {ips : List IpAddr} {keys : List DNSKEY} {now : UInt32} {out : List Name}
  {set : DnskeySet} {sig : RRSIG} {state : Option StepDnskeyState} {steps : List ChainStep}
  {walk : WalkChain}

theorem Rooted.after {α : Type} {p : RProg α} {Q : Trace Op.Res → α → Prop} (h : Rooted g chain)
    (hp : quietly.Safe [] p Q) :
    recorded.Safe g p fun g' a => Rooted g' chain ∧ ∃ t, g' = g ++ t ∧ Q t a := by
  refine (hp.frame (fun _ _ => trivial) g).mono ?_
  rintro g' a ⟨t, rfl, ht, hq⟩
  exact ⟨h.quiet ht, t, rfl, hq⟩

theorem upstreamQuery_quiet {ip : IpAddr} {q : Query} :
    quietly.Safe g (upstreamQuery asked ip q) fun g' r =>
      ∀ m, r = .parsed m → ∃ m', ⟨.query asked ip q, .parsed m'⟩ ∈ g' ∧ m = m'.lowercaseResponseNames := by
  refine ⟨trivial, fun r _ => ?_⟩
  cases r with
  | parsed m' =>
    rintro m ⟨⟩
    exact ⟨m', List.mem_append_right _ (List.mem_singleton_self _), rfl⟩
  | failed => exact fun m hm => nomatch hm
  | unparsed => exact fun m hm => nomatch hm

def SetSeen (g : Trace Op.Res) (asked zone : Name) (set : DnskeySet) : Prop :=
  ∃ ip m, ⟨.query asked ip ⟨zone, .DNSKEY, .IN⟩, .parsed m⟩ ∈ g ∧
    set = dnskeySetOf zone m.lowercaseResponseNames.answers

theorem fetchDnskeyFrom_quiet :
    quietly.Safe g (fetchDnskeyFrom asked zone ips) fun g' r =>
      ∀ set, r = .ok set → SetSeen g' asked zone set := by
  induction ips generalizing g with
  | nil => exact fun set hset => nomatch hset
  | cons ip ips ih =>
    refine upstreamQuery_quiet.bind fun g' r hr => ?_
    cases r with
    | parsed m =>
      obtain ⟨m', hm', rfl⟩ := hr m rfl
      rintro set ⟨⟩
      exact ⟨ip, m', hm', rfl⟩
    | unparsed => exact fun set hset => nomatch hset
    | failed => exact ih

theorem fetchDnskeyRrset_quiet :
    quietly.Safe g (fetchDnskeyRrset asked zone ips) fun g' r =>
      ∀ set, r = .ok set → SetSeen g' asked zone set := by
  unfold fetchDnskeyRrset
  split
  · exact fun set hset => nomatch hset
  · exact fetchDnskeyFrom_quiet

theorem collectDs_quiet {sig : Option RRSIG} :
    quietly.Safe g (collectDs zone ips ds sig) fun _ _ => True := by
  induction ips generalizing g ds sig with
  | nil => trivial
  | cons ip ips ih =>
    refine upstreamQuery_quiet.bind fun g' r _ => ?_
    cases r with
    | parsed m =>
      dsimp only
      split
      · trivial
      · exact ih
    | unparsed => exact ih
    | failed => exact ih

/-! ### The prefetch -/

def PrefetchSeen (C : Crypto) (step : ChainStep) (g : Trace Op.Res) : StepDnskeyState → Prop
  | .cached keys =>
      KeysSeen g step.zone keys ∧ dsMatch C step.ds step.zone keys = true
  | .insecure => True
  | .fetched r => ∀ set, r = .ok set → KeysSeen g step.zone set.keys

theorem KeysSeen.mono (h : KeysSeen g zone keys) (hg : g ⊆ g') : KeysSeen g' zone keys := by
  rcases h with h | ⟨ip, m, h, hkeys⟩
  · exact Or.inl (hg h)
  · exact Or.inr ⟨ip, m, hg h, hkeys⟩

theorem PrefetchSeen.mono {step : ChainStep} {state : StepDnskeyState} (hg : g ⊆ g')
    (h : PrefetchSeen C step g state) : PrefetchSeen C step g' state := by
  cases state with
  | cached keys => exact ⟨h.1.mono hg, h.2⟩
  | insecure => trivial
  | fetched r => exact fun set hset => (h set hset).mono hg

theorem SetSeen.keysSeen (h : SetSeen g zone zone set) : KeysSeen g zone set.keys := by
  obtain ⟨ip, m, hm, rfl⟩ := h
  exact Or.inr ⟨ip, m, hm, rfl⟩

theorem SetSeen.mono (hg : g ⊆ g') (h : SetSeen g asked zone set) : SetSeen g' asked zone set := by
  obtain ⟨ip, m, hm, hset⟩ := h
  exact ⟨ip, m, hg hm, hset⟩

theorem prefetchFetch_quiet {step : ChainStep} :
    quietly.Safe g (prefetchFetch step) fun g' s => PrefetchSeen C step g' s := by
  have hfetch : quietly.Safe g (timeout (fetchDnskeyRrset step.zone step.zone step.nsIps)) fun g' o =>
      (∀ r, o = some r → ∀ set, r = .ok set → SetSeen g' step.zone step.zone set) ∧ (o = none → True) := by
    have htick : ∀ g, quietly.pre g .struck := fun _ => trivial
    refine Safe.cancellable recording_monotone htick (fun _ _ _ _ => trivial) ?_ fetchDnskeyRrset_quiet
    exact fun _ _ _ hg h set hset => (h set hset).mono hg
  refine hfetch.bind fun g' o ho => ?_
  match o with
  | some (.ok set) =>
    rintro s ⟨⟩
    exact (ho.1 _ rfl set rfl).keysSeen
  | some (.error e) => exact ⟨trivial, fun _ _ s hs => nomatch hs⟩
  | none => exact ⟨trivial, fun _ _ s hs => nomatch hs⟩

theorem prefetchUncached_quiet {step : ChainStep} :
    quietly.Safe g (prefetchUncached step) fun g' s => PrefetchSeen C step g' s := by
  refine safe_perform_bind.mpr ⟨trivial, fun negative _ => ?_⟩
  split
  · trivial
  · exact prefetchFetch_quiet

theorem prefetchStep_quiet {step : ChainStep} :
    quietly.Safe g (prefetchStep C step) fun g' s => PrefetchSeen C step g' s := by
  refine safe_perform_bind.mpr ⟨trivial, fun cached _ => ?_⟩
  cases cached with
  | none => exact prefetchUncached_quiet
  | some keys =>
    dsimp only
    split
    · rename_i hmatch
      exact ⟨Or.inl (List.mem_append_right _ (List.mem_singleton_self _)), hmatch⟩
    · exact ⟨trivial, fun _ _ => prefetchUncached_quiet⟩

theorem prefetchStepDnskeys_quiet :
    quietly.Safe g (prefetchStepDnskeys C walk) fun g' states =>
      List.Forall₂ (fun step state => PrefetchSeen C step g' state) walk.steps states := by
  have hturn : ∀ g, quietly.pre g .turn := fun _ => trivial
  exact Safe.parAll recording_monotone hturn (fun _ _ _ _ hg h => h.mono hg)
    fun _ _ => prefetchStep_quiet

/-! ## Bootstraps add one zone after the other -/

theorem recorded_reads : Reads recorded := ⟨fun _ _ => trivial, fun _ => trivial⟩

theorem bootable_rooted {target : Name} : Bootable recorded C ips Rooted target := by
  intro g chain zone h hnew _
  have herr : ∀ (g : Trace Op.Res) (e : BootstrapError) (c : ChainKeys), .error e = Except.ok c → Rooted g c :=
    fun _ _ _ hc => nomatch hc
  have hadmit : ∀ g keys, Rooted g chain → ∀ c, .ok (putEntry chain zone keys) =
      (.ok c : Except BootstrapError ChainKeys) → Rooted (g ++ [⟨.note (.admitted zone keys), ()⟩]) c := by
    rintro g keys h c ⟨⟩
    exact putEntry_of_new hnew keys ▸ h.admits zone keys
  refine bootstrapZone_paths recorded_reads herr (fun keys _ => ?_)
    ((h.step (o := .keyGet _) trivial none).after collectDs_quiet) fun g r sig now hr _ _ _ _ => ?_
  · exact ⟨trivial, fun _ _ => hadmit _ keys (h.step (o := .keyGet _) trivial _)⟩
  · have hnow : Rooted (g ++ [⟨.unixNow, now⟩]) chain := hr.1.step (o := .unixNow) trivial now
    refine bootstrapDnskey_paths recorded_reads herr (hnow.after fetchDnskeyRrset_quiet)
      fun g set sig now hr _ _ _ _ _ => ⟨trivial, fun _ _ => ⟨trivial, fun _ _ => hadmit _ _ ?_⟩⟩
    exact (hr.1.step (o := .unixNow) trivial now).step (o := .keyPut _ _ _) trivial ()

/-! ## One step -/

def StepResult (C : Crypto) (step : ChainStep) (g : Trace Op.Res) : Except ValidationStatus ChainKeys → Prop
  | .ok chain => Rooted g chain ∧ StepChecked C g step
  | .error status => status ≠ .secure

structure DsChecked (C : Crypto) (chain : ChainKeys) (step : ChainStep) (now : UInt32) (sig : RRSIG) :
    Prop where
  present : step.ds ≠ []
  signed : dsSigOf step = some sig
  window : InWindow now sig
  verified : ∃ k ∈ closestTrustedKeys chain step.zone, verifyRrset C step.ds sig k = true

theorem DsChecked.admits {step : ChainStep} {before : Trace Op.Res} (h : DsChecked C chain step now sig)
    (hroot : Rooted before chain) (mid : Trace Op.Res) (hmid : ∀ x ∈ mid, Quiet x.1)
    (hseen : KeysSeen before step.zone keys) (hmatch : dsMatch C step.ds step.zone keys = true) :
    StepResult C step (before ++ ⟨.unixNow, now⟩ :: mid ++ [⟨.note (.admitted step.zone keys), ()⟩])
      (.ok (chain ++ [(step.zone, keys)])) := by
  have hquiet : Rooted (before ++ ⟨.unixNow, now⟩ :: mid) chain := by
    refine hroot.quiet fun x hx => ?_
    rcases List.mem_cons.mp hx with rfl | hx
    · trivial
    · exact hmid x hx
  refine ⟨hquiet.admits step.zone keys, ?_⟩
  obtain ⟨k, hk, hver⟩ := h.verified
  obtain ⟨parent, hparent⟩ : ∃ e, closestEntry chain step.zone = some e := by
    unfold closestTrustedKeys at hk
    cases he : closestEntry chain step.zone with
    | none =>
      rw [he] at hk
      nomatch hk
    | some e => exact ⟨e, rfl⟩
  obtain ⟨hmem, habove⟩ := closestEntry_mem hparent
  have hkeys : closestTrustedKeys chain step.zone = parent.2 := by
    unfold closestTrustedKeys
    rw [hparent]
  refine ⟨before, mid, [], now, sig, parent, keys, ?_⟩
  constructor
  case run => simp only [List.append_assoc]
  case undisturbed => exact hmid
  case present => exact h.present
  case signed => exact h.signed
  case window => exact h.window
  case trusted => exact hroot.trustedAt ▸ hmem
  case above => exact habove
  case closest =>
    rw [hroot.trustedAt]
    exact fun hplain => ⟨hmem, habove, closest_of_most habove hmem (closestEntry_most hparent) hplain⟩
  case verified => exact ⟨k, hkeys ▸ hk, hver⟩
  case seen => exact hseen
  case covered => exact List.any_eq_true.mp hmatch

theorem acceptStepKeys_recorded {step : ChainStep} (hroot : Rooted g chain)
    (hds : DsChecked C chain step now sig) (hstate : ∀ s, state = some s → PrefetchSeen C step g s) :
    recorded.Safe (g ++ [⟨.unixNow, now⟩]) (acceptStepKeys C step state chain) (StepResult C step) := by
  refine acceptStepKeys_paths recorded_reads (fun _ _ h => h) (fun keys hkeys => ?_)
    fun set _ later hfetched _ _ _ _ hmatch => ⟨trivial, fun _ _ => ⟨trivial, fun _ _ => ?_⟩⟩
  · obtain ⟨hseen, hmatch⟩ := hstate _ hkeys
    exact ⟨trivial, fun _ _ => hds.admits hroot [] (fun _ hx => nomatch hx) hseen hmatch⟩
  · have hseen : KeysSeen g step.zone set.keys := hstate _ hfetched set rfl
    let put : Op := .keyPut step.zone.toLowercase set.keys (dnskeyTtl set.records)
    let mid : Trace Op.Res := [⟨.unixNow, later⟩, ⟨put, ()⟩]
    have hmid : ∀ x ∈ mid, Quiet x.1 := by simp [mid, Quiet]
    have hres := hds.admits hroot mid hmid hseen hmatch
    show StepResult C step (g ++ [⟨.unixNow, now⟩] ++ [⟨.unixNow, later⟩] ++ [⟨put, ()⟩] ++
      [⟨.note (.admitted step.zone set.keys), ()⟩]) _
    simpa only [mid, List.append_assoc, List.cons_append, List.nil_append] using hres

theorem validateStep_recorded {step : ChainStep} (hroot : Rooted g chain)
    (hstate : ∀ s, state = some s → PrefetchSeen C step g s) :
    recorded.Safe g (validateStep C ips step state chain) (StepResult C step) := by
  refine validateStep_paths (P := fun g' c => Rooted g' c ∧ g <+: g') (fun _ _ h => h)
    (fun _ => ⟨hroot, List.prefix_rfl⟩) (fun sig _ => ?_) fun g' c hc => ?_
  · refine (bootstrapSigner_paths bootable_rooted hroot).extends.mono fun g' r hr c hc => ?_
    exact ⟨hr.1 c hc, hr.2⟩
  · exact verifyStepDs_paths recorded_reads (fun _ _ h => h) fun sig now hne hsig _ hwin hver =>
      acceptStepKeys_recorded hc.1 ⟨hne, hsig, hwin, hver⟩ fun s hs => (hstate s hs).mono hc.2.subset

/-! ## The loop -/

def ReportedPrefix (C : Crypto) (steps : List ChainStep) (out : List Name) (g : Trace Op.Res)
    (r : Except ValidationStatus ChainKeys × List Name) : Prop :=
  ∃ done rest, steps = done ++ rest ∧ r.2 = out ++ done.map ChainStep.zone ∧
    (∀ s ∈ done, StepChecked C g s) ∧
    match r.1 with
    | .ok _ => rest = []
    | .error status => status ≠ .secure

theorem reported_error {status : ValidationStatus} (h : status ≠ .secure) :
    ReportedPrefix C steps out g (.error status, out) :=
  ⟨[], steps, rfl, by simp, List.forall_mem_nil _, h⟩

theorem validateSteps_recorded {states : List StepDnskeyState} (hroot : Rooted g chain)
    (hstates : List.Forall₂ (fun step state => PrefetchSeen C step g state) steps states) :
    recorded.Safe g (validateSteps C ips steps states chain out) (ReportedPrefix C steps out) := by
  have hloop : recorded.Safe g (validateSteps C ips steps states chain out)
      (StepsDone (fun g done c => Rooted g c ∧ ∀ s ∈ done, StepChecked C g s)
        (fun g done => ∀ s ∈ done, StepChecked C g s) steps out) := by
    refine validateSteps_paths (fun g step s => PrefetchSeen C step g s)
      (fun g o r step s h => h.mono (List.subset_append_left ..))
      (fun g done step rest chain s _ hinv hs => ?_) hstates ⟨hroot, List.forall_mem_nil _⟩
    have hstate : ∀ s', some s = some s' → PrefetchSeen C step g s' := by
      rintro s' ⟨⟩
      exact hs
    refine (validateStep_recorded hinv.1 hstate).extends.mono fun g' r ⟨hr, hle⟩ => ?_
    have hdone : ∀ s ∈ done, StepChecked C g' s := fun s hs => (hinv.2 s hs).mono hle
    cases r with
    | error status => exact ⟨hr, hdone⟩
    | ok c => exact ⟨hr.1, List.forall_mem_append.mpr ⟨hdone, List.forall_mem_singleton.mpr hr.2⟩⟩
  refine hloop.mono fun g' r hr => ?_
  obtain ⟨keys, zones⟩ := r
  obtain ⟨done, rest, hsplit, hzones, hr⟩ := hr
  cases keys with
  | error status => exact ⟨done, rest, hsplit, hzones, hr.2.2, hr.2.1⟩
  | ok c => exact ⟨done, rest, hsplit, hzones, hr.2.2, hr.1⟩

/-! ## The root -/

def Loading (a : TrustAnchors) (g : Trace Op.Res) : Prop :=
  ∃ t, g = ⟨.loadAnchors, a⟩ :: t ∧ ∀ x ∈ t, Quiet x.1

variable {a : TrustAnchors}

theorem Loading.quiet {t : Trace Op.Res} (h : Loading a g) (ht : ∀ x ∈ t, Quiet x.1) :
    Loading a (g ++ t) := by
  obtain ⟨s, rfl, hs⟩ := h
  refine ⟨s ++ t, rfl, fun x hx => ?_⟩
  rcases List.mem_append.mp hx with hx | hx
  · exact hs x hx
  · exact ht x hx

theorem Loading.step (h : Loading a g) {o : Op} (ho : Quiet o) (r : o.Res) :
    Loading a (g ++ [⟨o, r⟩]) :=
  h.quiet fun _ hx => List.mem_singleton.mp hx ▸ ho

theorem Loading.admits (h : Loading a g) :
    Rooted (g ++ [⟨.note (.admitted zone keys), ()⟩]) (putEntry (seedChain a) zone keys) := by
  obtain ⟨t, rfl, ht⟩ := h
  have hnone : t.filterMap admissionOf = [] :=
    List.filterMap_eq_nil_iff.mpr fun x hx => admissionOf_quiet (ht x hx)
  refine ⟨rfl, (zone, keys), [], ?_, (List.append_nil _).symm⟩
  rw [List.cons_append, List.filterMap_cons_none rfl, List.filterMap_append, hnone]
  rfl

theorem spliceInZoneDnskey_recorded (h : Loading a g) :
    recorded.Safe g (spliceInZoneDnskey C (seedChain a) Name.root ips) fun g' r =>
      ∀ c, r = .ok c → Rooted g' c := by
  refine spliceInZoneDnskey_paths recorded_reads (fun _ _ _ hc => nomatch hc)
    (fun keys _ => ⟨trivial, fun _ _ => ?_⟩) (fetchDnskeyRrset_quiet.frame (fun _ _ => trivial) _)
    fun g' set sig now hr _ _ _ _ => ⟨trivial, fun _ _ => ⟨trivial, fun _ _ => ?_⟩⟩
  · rintro c ⟨⟩
    exact (h.step (o := .keyGet _) trivial _).admits
  · obtain ⟨t, rfl, ht, -⟩ := hr
    have hload := (h.step (o := .keyGet Name.root.toLowercase) trivial none).quiet ht
    rintro c ⟨⟩
    exact ((hload.step (o := .unixNow) trivial now).step (o := .keyPut _ _ _) trivial ()).admits

theorem trustRoot_recorded (h : Loading a g) :
    recorded.Safe g (trustRoot C a ips) fun g' r =>
      (∀ c, r = .ok c → Rooted g' c) ∧ ∀ status, r = .error status → status ≠ .secure := by
  refine (spliceInZoneDnskey_recorded h).bind fun g' r hr => ?_
  cases r with
  | error e =>
    refine ⟨fun c hc => (nomatch hc), ?_⟩
    rintro status ⟨⟩
    nofun
  | ok c =>
    refine ⟨?_, fun status hs => nomatch hs⟩
    rintro c' ⟨⟩
    exact hr c rfl

/-! ## The law -/

theorem walkKeysInto_recorded :
    recorded.Safe [] (walkKeysInto C walk out) fun g r => ReportedPrefix C walk.steps out g r.2 := by
  refine safe_perform_bind.mpr ⟨trivial, fun a _ => ?_⟩
  split
  · exact reported_error nofun
  refine safe_perform_bind.mpr ⟨trivial, fun ips _ => ?_⟩
  have hload : Loading a ([] ++ [⟨.loadAnchors, a⟩] ++ [⟨.readRoots, ips⟩]) :=
    Loading.step ⟨[], rfl, fun _ hx => nomatch hx⟩ (o := .readRoots) trivial ips
  refine (trustRoot_recorded hload).bind fun g r hr => ?_
  cases r with
  | error status => exact reported_error (hr.2 status rfl)
  | ok chain =>
    refine ((hr.1 chain rfl).after prefetchStepDnskeys_quiet).bind ?_
    rintro _ states ⟨hroot, t, rfl, hstates⟩
    have hstates' := hstates.imp fun _ _ h => PrefetchSeen.mono (List.subset_append_right g t) h
    exact (validateSteps_recorded hroot hstates').bind fun _ _ h => h

/-- **The vector of validated zones is a prefix report.**  In every run of `validate_walk`, whatever is
answered and whatever the vector held: it gains the zones of the first steps, in order; each of these
steps was checked; and a secure verdict is for all of them. -/
theorem validated_zones_report {walk : WalkChain} {answer : Message} {out zones : List Name}
    {status : ValidationStatus} {t : Trace Op.Res}
    (h : (validateWalkInto C walk answer out).Runs (fun _ _ => True) t (some (status, zones))) :
    ∃ k ≤ walk.steps.length, zones = out ++ (walk.steps.take k).map ChainStep.zone ∧
      (∀ step ∈ walk.steps.take k, StepChecked C t step) ∧
      (status = .secure → k = walk.steps.length) := by
  have hsafe : recorded.Safe [] (validateWalkInto C walk answer out) fun g r =>
      ∃ k ≤ walk.steps.length, r.2 = out ++ (walk.steps.take k).map ChainStep.zone ∧
        (∀ step ∈ walk.steps.take k, StepChecked C g step) ∧
        (r.1 = .secure → k = walk.steps.length) := by
    refine walkKeysInto_recorded.bind fun g r hr => ?_
    obtain ⟨ips, keys, zones⟩ := r
    obtain ⟨done, rest, hsplit, hzones, hall, hend⟩ := hr
    rw [hsplit]
    have hlen : done.length ≤ (done ++ rest).length := List.length_append ▸ Nat.le_add_right ..
    cases keys with
    | error status =>
      refine ⟨done.length, hlen, ?_⟩
      rw [List.take_left]
      exact ⟨hzones, hall, fun hs => absurd hs hend⟩
    | ok chain =>
      obtain rfl : rest = [] := hend
      refine (recording_extends (validateAnswer C ips answer chain) g).bind fun g' status hle => ?_
      refine ⟨done.length, hlen, ?_⟩
      rw [List.take_left, List.append_nil]
      exact ⟨hzones, fun s hs => (hall s hs).mono hle, fun _ => rfl⟩
  simpa only [List.nil_append] using hsafe.runs h

end

/-! ## Two runs -/

theorem validateWalkInto_runs (s : Script) (C : Crypto) (walk : WalkChain) (answer : Message)
    (out : List Name) {r : ValidationStatus × List Name}
    (h : s.result (validateWalkInto C walk answer out) (freshWorld rootAnchors) = r) :
    (validateWalkInto C walk answer out).Runs (fun _ _ => True)
      ((validateWalkInto C walk answer out).trace (s.handle ()) (freshWorld rootAnchors)) (some r) :=
  h ▸ Prog.runs_trace (fun _ _ => trivial) _ _

theorem validated_zones_report_childZone :
    ∃ t, StepChecked (listCrypto [sampleKey 1, sampleKey 2]) t (sampleStep childZone) := by
  have hres : (zoneScript [sampleKey 2]).result (validateWalkInto
      (listCrypto [sampleKey 1, sampleKey 2]) childWalk (signedAnswer insideName childZone) [outsideName])
      (freshWorld rootAnchors) = (.secure, [outsideName, childZone]) := by decide
  obtain ⟨k, _, _, hall, hend⟩ := validated_zones_report (validateWalkInto_runs _ _ _ _ _ hres)
  obtain rfl := hend rfl
  exact ⟨_, hall _ (.head _)⟩

def wildZone : Name := ⟨[Name.star]⟩

def belowWild : Name := ⟨[97] :: wildZone.labels⟩

def wildWalk : WalkChain := ⟨[sampleStep wildZone, sampleStep belowWild]⟩

def keySetCrypto : Crypto where
  verifyRrsig k _ _ sig _ := k == sampleKey 1 || sig.typeCovered == .DNSKEY
  covers _ _ k := k == sampleKey 2
  nsec3Hash _ _ _ := none

def wildScript : Script where
  reply _ _ q :=
    .parsed (if q.queryType = .DNSKEY then
      keyAnswer q.name [if q.name = Name.root then sampleKey 1 else sampleKey 2]
    else {})

def wildTrace : Trace Op.Res :=
  (validateWalkInto keySetCrypto wildWalk (signedAnswer insideName Name.root) []).trace
    (wildScript.handle ()) (freshWorld rootAnchors)

theorem wildTrace_admissions : wildTrace.filterMap admissionOf =
    [(Name.root, [sampleKey 1]), (wildZone, [sampleKey 2]), (belowWild, [sampleKey 2])] := by decide

theorem trustedAt_belowWild {before mid after : Trace Op.Res} {now : UInt32}
    (hrun : wildTrace = before ++ (⟨.unixNow, now⟩ :: mid ++ ⟨.note (.admitted belowWild keys), ()⟩ :: after))
    (hmid : ∀ x ∈ mid, Quiet x.1) :
    trustedAt before = [(Name.root, [sampleKey 1]), (wildZone, [sampleKey 2])] := by
  have hnone : mid.filterMap admissionOf = [] :=
    List.filterMap_eq_nil_iff.mpr fun x hx => admissionOf_quiet (hmid x hx)
  have hadm : before.filterMap admissionOf ++ (belowWild, keys) :: after.filterMap admissionOf =
      [(Name.root, [sampleKey 1]), (wildZone, [sampleKey 2]), (belowWild, [sampleKey 2])] := by
    rw [← wildTrace_admissions, hrun, List.filterMap_append, List.cons_append,
      List.filterMap_cons_none rfl, List.filterMap_append, hnone]
    rfl
  -- The zone is admitted once, so two key sets came before it.
  have hbefore : before.filterMap admissionOf =
      [(Name.root, [sampleKey 1]), (wildZone, [sampleKey 2])] := by
    match hb : before.filterMap admissionOf with
    | [] =>
      rw [hb] at hadm
      nomatch congrArg Prod.fst (List.cons.inj hadm).1
    | [x] =>
      rw [hb] at hadm
      nomatch congrArg Prod.fst (List.cons.inj (List.cons.inj hadm).2).1
    | x :: y :: rest =>
      rw [hb] at hadm
      obtain ⟨hx, hadm⟩ := List.cons.inj hadm
      obtain ⟨hy, hadm⟩ := List.cons.inj hadm
      cases rest with
      | nil => rw [hx, hy]
      | cons z rest =>
        have hlen := congrArg List.length hadm
        simp at hlen
  have hseed : seedOf before = seedChain rootAnchors := by
    cases before with
    | nil => nomatch hbefore
    | cons x before =>
      have hhead : wildTrace.head? = some ⟨.loadAnchors, rootAnchors⟩ := rfl
      rw [hrun, List.cons_append, List.head?_cons] at hhead
      rw [Option.some.inj hhead]
      rfl
  unfold trustedAt
  rw [hbefore, hseed]
  decide

/-- The zone `a.*.` is reported, and the verdict is secure, although the keys of the closest trusted zone,
`*.`, do not verify its DS set: the root's keys do. -/
theorem validated_zones_wildcard :
    (validateWalkInto keySetCrypto wildWalk (signedAnswer insideName Name.root) []).Runs
        (fun _ _ => True) wildTrace (some (.secure, [wildZone, belowWild])) ∧
      ¬ ∃ before mid after now sig parent keys,
        CheckedAt keySetCrypto wildTrace (sampleStep belowWild) before mid after now sig parent keys ∧
          Closest (trustedAt before) belowWild parent := by
  refine ⟨validateWalkInto_runs wildScript _ _ _ _ (by decide), ?_⟩
  rintro ⟨before, mid, after, now, sig, parent, keys, hc, hclosest⟩
  have htrusted := trustedAt_belowWild hc.run hc.undisturbed
  rw [htrusted] at hclosest
  obtain rfl : sampleSig Name.root .DS = sig := Option.some.inj hc.signed
  -- Of the two, only `*.` is below both.
  have hlow : wildZone.zoneOf parent.1 = true := hclosest.lowest (wildZone, [sampleKey 2]) (by simp) rfl
  have hmem := hclosest.mem
  rcases List.mem_cons.mp hmem with rfl | hmem
  · nomatch hlow
  · obtain rfl := List.mem_singleton.mp hmem
    obtain ⟨k, hk, hver⟩ := hc.verified
    obtain rfl := List.mem_singleton.mp hk
    nomatch hver

end Dnsd.Recursor
