/-
# BootOrder — the order in which missing signers are bootstrapped.

`validate_walk` bootstraps the signers of an answer in the order in which its RRSIGs name them.  The keys a zone
gets depend on the keys chosen for its parent only, so any list of the same signers leads to the same keys.
-/
import Dnsd.Lib.Commute
import Dnsd.Recursor.Resupplied

namespace Dnsd.Recursor

open Proto Lib Prog List

def parentOf (n : Name) : Name := ⟨n.labels.tail⟩

theorem parentOf_zoneOf (n : Name) : (parentOf n).zoneOf n = true := by
  rw [Name.zoneOf_iff]
  simp only [parentOf, Name.toLowercase, map_tail]
  exact tail_suffix _

theorem same_parentOf {x z : Name} (h : x.zoneOf z = true)
    (hlen : x.labels.length + 1 = z.labels.length) : x.same (parentOf z) = true := by
  have hp : (parentOf z).labels.length = x.labels.length := by
    simp only [parentOf, length_tail]
    omega
  rcases Name.zoneOf_total h (parentOf_zoneOf z) with hx | hx
  · exact Name.same_of_zoneOf_of_length hx hp.le
  · exact Name.same_symm (Name.same_of_zoneOf_of_length hx hp.ge)

/-! ## What a chain shows -/

structure SameView (c d : ChainKeys) : Prop where
  entry : ∀ x, closestEntry c x = closestEntry d x
  zone : ∀ x, hasZone c x = hasZone d x

theorem SameView.choice {c d : ChainKeys} (h : SameView c d) (x : Name) :
    closestTrustedKeys c x = closestTrustedKeys d x := by
  unfold closestTrustedKeys
  rw [h.entry]

section

variable {c d : ChainKeys} {x z : Name} {k kx kz : List DNSKEY}

theorem closestEntry_concat {e : Name × List DNSKEY} :
    closestEntry (c ++ [e]) x = closer x (closestEntry c x) e := by
  unfold closestEntry
  rw [foldl_append]
  rfl

theorem hasZone_concat : hasZone (c ++ [(z, k)]) x = (hasZone c x || z.same x) := by
  unfold hasZone
  simp

theorem SameView.concat (h : SameView c d) : SameView (c ++ [(z, k)]) (d ++ [(z, k)]) := by
  constructor
  · intro x
    rw [closestEntry_concat, closestEntry_concat, h.entry]
  · intro x
    rw [hasZone_concat, hasZone_concat, h.zone]

theorem ne_of_hasZone (hx : hasZone c x = false) (hz : hasZone c z = true) : x.same z = false := by
  cases hs : x.same z with
  | false => rfl
  | true =>
    rw [hasZone_congr hs, hz] at hx
    nomatch hx

theorem closestEntry_of_parent (hparent : hasZone c (parentOf z) = true)
    (hx : hasZone c x = false) (hne : x.same z = false) :
    closestEntry (c ++ [(x, k)]) z = closestEntry c z := by
  rw [closestEntry_concat]
  unfold closer
  split
  · rename_i hcond
    have habove : x.zoneOf z = true := by
      rw [hne, Bool.false_or] at hcond
      exact hcond
    have hshort : x.labels.length + 2 ≤ z.labels.length := by
      have hle := Name.zoneOf_length habove
      have h0 : x.labels.length ≠ z.labels.length := by
        intro heq
        rw [Name.same_of_zoneOf_of_length habove heq.ge] at hne
        nomatch hne
      have h1 : x.labels.length + 1 ≠ z.labels.length := by
        intro heq
        have := ne_of_hasZone hx hparent
        rw [same_parentOf habove heq] at this
        nomatch this
      omega
    obtain ⟨p, hp, hsame⟩ := hasZone_iff.mp hparent
    have hpz : p.1.zoneOf z = true := by
      rw [Name.zoneOf_congr_left hsame]
      exact parentOf_zoneOf z
    obtain ⟨e, he, hmax⟩ := closestEntry_max hp hpz
    rw [he]
    dsimp only
    have hlow : x.numLabels ≤ e.1.numLabels := by
      have h1 := Name.numLabels_le x
      have h2 := Name.length_le_numLabels p.1
      have h3 : p.1.labels.length = z.labels.length - 1 := by
        rw [Name.same_length hsame, parentOf, length_tail]
      omega
    rw [if_neg (by omega)]
  · rfl

theorem numLabels_ne (hx : hasZone c x = false) (hz : hasZone c z = false)
    (hpx : hasZone c (parentOf x) = true) (hpz : hasZone c (parentOf z) = true)
    (hne : x.same z = false) {y : Name} (hxy : x.zoneOf y = true) (hzy : z.zoneOf y = true) :
    x.numLabels ≠ z.numLabels := by
  -- If the counts agreed, the longer name would start with `*` and the other would be its parent.
  have key : ∀ a b : Name, hasZone c a = false → hasZone c (parentOf b) = true →
      a.same b = false → a.zoneOf b = true → a.numLabels ≠ b.numLabels := by
    intro a b ha hpb hab habove heq
    have h1 := Name.zoneOf_length habove
    have h2 := Name.numLabels_le a
    have h3 := Name.length_le_numLabels b
    by_cases hlen : a.labels.length = b.labels.length
    · rw [Name.same_of_zoneOf_of_length habove hlen.ge] at hab
      nomatch hab
    · have hpar := ne_of_hasZone ha hpb
      rw [same_parentOf habove (by omega)] at hpar
      nomatch hpar
  rcases Name.zoneOf_total hxy hzy with h | h
  · exact key x z hx hpz hne h
  · rw [Name.same_comm] at hne
    exact (key z x hz hpx hne h).symm

theorem sameView_swap (hx : hasZone c x = false) (hz : hasZone c z = false)
    (hpx : hasZone c (parentOf x) = true) (hpz : hasZone c (parentOf z) = true)
    (hne : x.same z = false) :
    SameView (c ++ [(x, kx)] ++ [(z, kz)]) (c ++ [(z, kz)] ++ [(x, kx)]) := by
  constructor
  · intro y
    simp only [closestEntry_concat]
    generalize closestEntry c y = best
    by_cases hxy : (x.same y || x.zoneOf y) = true
    · by_cases hzy : (z.same y || z.zoneOf y) = true
      · have habove : ∀ n : Name, (n.same y || n.zoneOf y) = true → n.zoneOf y = true := by
          intro n hn
          rcases Bool.or_eq_true_iff.mp hn with hn | hn
          · exact Name.zoneOf_of_same hn
          · exact hn
        have hcount := numLabels_ne hx hz hpx hpz hne (habove x hxy) (habove z hzy)
        simp only [closer, hxy, hzy, if_true]
        cases best with
        | none =>
          dsimp only
          by_cases hlt : x.numLabels < z.numLabels
          · rw [if_pos hlt, if_neg (by omega)]
          · rw [if_neg hlt, if_pos (by omega)]
        | some b =>
          by_cases hbx : b.1.numLabels < x.numLabels
          · by_cases hbz : b.1.numLabels < z.numLabels
            · simp only [hbx, hbz, if_true]
              by_cases hlt : x.numLabels < z.numLabels
              · rw [if_pos hlt, if_neg (by omega)]
              · rw [if_neg hlt, if_pos (by omega)]
            · simp only [hbx, hbz, if_true, if_false]
              rw [if_neg (by omega)]
          · by_cases hbz : b.1.numLabels < z.numLabels
            · simp only [hbx, hbz, if_true, if_false]
              rw [if_neg (by omega)]
            · simp only [hbx, hbz, if_false]
      · simp only [closer, hzy, Bool.false_eq_true, if_false]
    · simp only [closer, hxy, Bool.false_eq_true, if_false]
  · intro y
    simp only [hasZone_concat]
    rw [Bool.or_assoc, Bool.or_assoc, Bool.or_comm (x.same y)]

end

/-! ## One zone -/

section

variable {C : Crypto} {ok : (o : Op) → o.Res → Prop} {ips : List IpAddr} {c d c' : ChainKeys}
  {zone : Name}

theorem putEntry_of_missing (h : hasZone c zone = false) (keys : List DNSKEY) :
    putEntry c zone keys = c ++ [(zone, keys)] := by
  unfold putEntry
  congr 1
  rw [filter_eq_self]
  intro e he
  cases hs : e.1.same zone with
  | false => rfl
  | true => rw [hasZone_iff.mpr ⟨e, he, hs⟩] at h; nomatch h

def SamePut (c d : ChainKeys) (zone : Name) (c' d' : ChainKeys) : Prop :=
  ∃ keys, c' = putEntry c zone keys ∧ d' = putEntry d zone keys

theorem bootstrapDnskey_samePut {ds : List Record} :
    (bootstrapDnskey C c zone ds ips).Lockstep ok ok (SameResult (SamePut c d zone))
      (bootstrapDnskey C d zone ds ips) := by
  refine (lockstep_refl _).bind ?_
  rintro r r' rfl
  cases r with
  | error e => exact trivial
  | ok set =>
    dsimp only
    cases set.sig with
    | none => exact trivial
    | some sig =>
      refine lockstep_perform_bind fun now hnow => ⟨now, hnow, ?_⟩
      cases checkRrsigValidity now sig with
      | error e => exact trivial
      | ok _ =>
        dsimp only
        split
        · exact trivial
        split
        · exact trivial
        · exact lockstep_perform_bind fun u hu => ⟨u, hu, lockstep_perform_bind fun v hv =>
            ⟨v, hv, set.keys, rfl, rfl⟩⟩

theorem bootstrapZone_samePut (h : closestTrustedKeys c zone = closestTrustedKeys d zone) :
    (bootstrapZone C c zone ips).Lockstep ok ok (SameResult (SamePut c d zone))
      (bootstrapZone C d zone ips) := by
  refine lockstep_perform_bind fun cached hcached => ⟨cached, hcached, ?_⟩
  cases cached with
  | some keys => exact lockstep_perform_bind fun u hu => ⟨u, hu, keys, rfl, rfl⟩
  | none =>
    dsimp only
    rw [h]
    split
    · exact trivial
    refine (lockstep_refl _).bind ?_
    rintro r r' rfl
    split
    · exact trivial
    cases r.2 with
    | none => exact trivial
    | some dsSig =>
      refine lockstep_perform_bind fun now hnow => ⟨now, hnow, ?_⟩
      cases checkRrsigValidity now dsSig with
      | error e => exact trivial
      | ok _ =>
        dsimp only
        split
        · exact bootstrapDnskey_samePut
        · exact trivial

structure Boots (C : Crypto) (ok : (o : Op) → o.Res → Prop) (ips : List IpAddr) (c : ChainKeys)
    (zone : Name) (c' : ChainKeys) : Prop where
  missing : hasZone c zone = false
  parent : hasZone c (parentOf zone) = true
  joins : ∃ keys, c' = c ++ [(zone, keys)]
  yields : (bootstrapZone C c zone ips).Yields ok (.ok c')

theorem Boots.transfer {keys : List DNSKEY} (h : Boots C ok ips c zone (c ++ [(zone, keys)]))
    (hmissing : hasZone d zone = false) (hparent : hasZone d (parentOf zone) = true)
    (hchoice : closestTrustedKeys c zone = closestTrustedKeys d zone) :
    Boots C ok ips d zone (d ++ [(zone, keys)]) := by
  obtain ⟨r, hr, hput⟩ := (bootstrapZone_samePut hchoice).yields h.yields
  cases r with
  | error e => exact hput.elim
  | ok d' =>
    obtain ⟨keys', hc, rfl⟩ := hput
    rw [putEntry_of_missing hmissing] at hr
    obtain ⟨_, hcons⟩ := append_inj' hc rfl
    cases hcons
    exact ⟨hmissing, hparent, ⟨keys, rfl⟩, hr⟩

theorem boots_commutes (C : Crypto) (ok : (o : Op) → o.Res → Prop) (ips : List IpAddr) :
    Commutes (Boots C ok ips) (fun c zone => hasZone c (parentOf zone) = true) SameView where
  refl _ := ⟨fun _ => rfl, fun _ => rfl⟩
  trans h h' := ⟨fun x => (h.entry x).trans (h'.entry x), fun x => (h.zone x).trans (h'.zone x)⟩
  step {s t s₁ zone} h hboot := by
    obtain ⟨keys, rfl⟩ := hboot.joins
    refine ⟨t ++ [(zone, keys)], hboot.transfer ?_ ?_ (h.choice zone), h.concat⟩
    · rw [← h.zone]
      exact hboot.missing
    · rw [← h.zone]
      exact hboot.parent
  stays {s s₁ a b} hready hboot := by
    obtain ⟨keys, rfl⟩ := hboot.joins
    rw [hasZone_concat, hready, Bool.true_or]
  swap {s s₁ s₂ a b} ha hb hready := by
    obtain ⟨ka, rfl⟩ := ha.joins
    obtain ⟨kb, rfl⟩ := hb.joins
    have hmissing := hb.missing
    rw [hasZone_concat, Bool.or_eq_false_iff] at hmissing
    obtain ⟨hbs, hab⟩ := hmissing
    -- Neither zone is the other's parent, so each is chosen the same keys with and without the other.
    have hchoice : ∀ {x z : Name} {k : List DNSKEY}, hasZone s (parentOf z) = true →
        hasZone s x = false → x.same z = false →
        closestTrustedKeys (s ++ [(x, k)]) z = closestTrustedKeys s z := by
      intro x z k hp hx hne
      unfold closestTrustedKeys
      rw [closestEntry_of_parent hp hx hne]
    have hba : b.same a = false := by rwa [Name.same_comm]
    refine ⟨s ++ [(b, kb)], s ++ [(b, kb)] ++ [(a, ka)], ?_, ?_, ?_⟩
    · exact hb.transfer hbs hready (hchoice hready ha.missing hab)
    · refine ha.transfer ?_ ?_ (hchoice ha.parent hbs hba).symm
      · rw [hasZone_concat, ha.missing, hba]
        rfl
      · rw [hasZone_concat, ha.parent, Bool.true_or]
    · exact sameView_swap ha.missing hbs ha.parent hready hab

end

/-! ## Lists of signers -/

section

variable {c d : ChainKeys} {signers signers' zones : List Name}

def plant (c : ChainKeys) (zones : List Name) : ChainKeys := c ++ zones.map fun z => (z, [])

theorem hasZone_plant {x : Name} :
    hasZone (plant c zones) x = (hasZone c x || zones.any fun z => z.same x) := by
  unfold hasZone plant
  rw [any_append, any_map]
  rfl

def Fits (c : ChainKeys) : List Name → Prop
  | [] => True
  | zone :: zones =>
      hasZone c zone = false ∧ hasZone c (parentOf zone) = true ∧ Fits (plant c [zone]) zones

theorem Fits.congr (h : Fits c zones) (hcd : ∀ x, hasZone c x = hasZone d x) : Fits d zones := by
  induction zones generalizing c d with
  | nil => trivial
  | cons zone zones ih =>
    obtain ⟨hmissing, hparent, hrest⟩ := h
    refine ⟨by rw [← hcd]; exact hmissing, by rw [← hcd]; exact hparent, ih hrest ?_⟩
    intro x
    rw [hasZone_plant, hasZone_plant, hcd]

theorem Fits.append {zones' : List Name} (h : Fits c zones) (h' : Fits (plant c zones) zones') :
    Fits c (zones ++ zones') := by
  induction zones generalizing c with
  | nil =>
    refine h'.congr fun x => ?_
    rw [hasZone_plant, any_nil, Bool.or_false]
  | cons zone zones ih =>
    obtain ⟨hmissing, hparent, hrest⟩ := h
    refine ⟨hmissing, hparent, ih hrest (h'.congr fun x => ?_)⟩
    simp only [hasZone_plant, any_cons, any_nil, Bool.or_false, Bool.or_assoc]

theorem Fits.nodup (h : Fits c zones) : zones.Nodup := by
  have hmiss : ∀ {c : ChainKeys} {zones : List Name}, Fits c zones → ∀ z ∈ zones, hasZone c z = false := by
    intro c zones
    induction zones generalizing c with
    | nil => exact fun _ _ hz => nomatch hz
    | cons zone zones ih =>
      rintro ⟨hmissing, _, hrest⟩ z hz
      rcases mem_cons.mp hz with rfl | hz
      · exact hmissing
      · have := ih hrest z hz
        rw [hasZone_plant, Bool.or_eq_false_iff] at this
        exact this.1
  induction zones generalizing c with
  | nil => exact nodup_nil
  | cons zone zones ih =>
    obtain ⟨_, _, hrest⟩ := h
    refine nodup_cons.mpr ⟨fun hmem => ?_, ih hrest⟩
    have := hmiss hrest zone hmem
    rw [hasZone_plant] at this
    simp at this

theorem missingAncestors_fits {labels : List Label} (h : missingAncestors c labels = some zones) :
    Fits c zones := by
  induction labels generalizing zones with
  | nil =>
    unfold missingAncestors at h
    split at h
    · cases h
      trivial
    · cases h
  | cons l ls ih =>
    unfold missingAncestors at h
    split at h
    · cases h
      trivial
    rename_i hz
    obtain ⟨zs, hzs, rfl⟩ := Option.map_eq_some_iff.mp h
    refine (ih hzs).append ⟨?_, ?_, trivial⟩
    · rw [hasZone_plant, Bool.or_eq_false_iff]
      refine ⟨by simpa using hz, ?_⟩
      -- The ancestors before it are shorter.
      rw [any_eq_false]
      intro z hmem hsame
      have hlen := ((mem_missingAncestors hzs).mp hmem).1.length_le
      have := Name.same_length hsame
      simp only [length_cons] at this
      omega
    · show hasZone (plant c zs) ⟨ls⟩ = true
      rw [hasZone_plant]
      rcases missingAncestors_covers hzs with hroot | hmem
      · rw [hroot, Bool.true_or]
      · rw [Bool.or_eq_true_iff, any_eq_true]
        exact Or.inr ⟨_, hmem, Name.same_refl _⟩

theorem missingAncestors_isSome (hroot : hasZone c Name.root = true) (labels : List Label) :
    ∃ zones, missingAncestors c labels = some zones := by
  induction labels with
  | nil => exact ⟨[], by rw [missingAncestors, if_pos hroot]⟩
  | cons l ls ih =>
    obtain ⟨zs, hzs⟩ := ih
    unfold missingAncestors
    split
    · exact ⟨[], rfl⟩
    · exact ⟨zs ++ [⟨l :: ls⟩], by rw [hzs]; rfl⟩

theorem missingAncestors_congr (h : ∀ x, hasZone c x = hasZone d x) (labels : List Label) :
    missingAncestors c labels = missingAncestors d labels := by
  induction labels with
  | nil => simp only [missingAncestors, h]
  | cons l ls ih => simp only [missingAncestors, h, ih]

def bootOrder : ChainKeys → List Name → List Name
  | _, [] => []
  | c, signer :: signers =>
      let zones := (missingAncestors c signer.toLowercase.labels).getD []
      zones ++ bootOrder (plant c zones) signers

theorem bootOrder_congr (h : ∀ x, hasZone c x = hasZone d x) :
    bootOrder c signers = bootOrder d signers := by
  induction signers generalizing c d with
  | nil => rfl
  | cons signer signers ih =>
    unfold bootOrder
    rw [missingAncestors_congr h]
    dsimp only
    congr 1
    refine ih fun x => ?_
    rw [hasZone_plant, hasZone_plant, h]

theorem bootOrder_fits (hroot : hasZone c Name.root = true) (signers : List Name) :
    Fits c (bootOrder c signers) := by
  induction signers generalizing c with
  | nil => trivial
  | cons signer signers ih =>
    obtain ⟨zones, hzones⟩ := missingAncestors_isSome hroot signer.toLowercase.labels
    simp only [bootOrder, hzones, Option.getD_some]
    refine (missingAncestors_fits hzones).append (ih ?_)
    rw [hasZone_plant, hroot, Bool.true_or]

theorem toLowercase_of_suffix {n : Name} {t : List Label} (h : t <:+ n.toLowercase.labels) :
    (⟨t⟩ : Name).toLowercase = ⟨t⟩ := by
  obtain ⟨pre, hpre⟩ := h
  have hidem := congrArg Name.labels (Name.toLowercase_idem n)
  rw [Name.toLowercase, ← hpre, map_append] at hidem
  exact congrArg Name.mk (append_inj' hidem (by simp)).2

theorem mem_bootOrder (hroot : hasZone c Name.root = true) {z : Name} :
    z ∈ bootOrder c signers ↔ ∃ s ∈ signers, Needs c s.toLowercase.labels z := by
  induction signers generalizing c with
  | nil => simp [bootOrder]
  | cons signer signers ih =>
    obtain ⟨zones, hzones⟩ := missingAncestors_isSome hroot signer.toLowercase.labels
    have hroot' : hasZone (plant c zones) Name.root = true := by
      rw [hasZone_plant, hroot, Bool.true_or]
    simp only [bootOrder, hzones, Option.getD_some, mem_append, ih hroot',
      mem_missingAncestors hzones, exists_mem_cons_iff]
    constructor
    · rintro (h | ⟨s, hs, hsuf, hall⟩)
      · exact Or.inl h
      · refine Or.inr ⟨s, hs, hsuf, fun t ht hts => ?_⟩
        have := hall t ht hts
        rw [hasZone_plant, Bool.or_eq_false_iff] at this
        exact this.1
    · rintro (h | ⟨s, hs, hsuf, hall⟩)
      · exact Or.inl h
      · by_cases hn : Needs (plant c zones) s.toLowercase.labels z
        · exact Or.inr ⟨s, hs, hn⟩
        · -- A name in between has just been bootstrapped, and `z` with it.
          left
          have hex : ∃ t, z.labels <:+ t ∧ t <:+ s.toLowercase.labels ∧
              hasZone (plant c zones) ⟨t⟩ = true := by
            by_contra hno
            refine hn ⟨hsuf, fun t ht hts => ?_⟩
            by_contra hz
            exact hno ⟨t, ht, hts, by simpa using hz⟩
          obtain ⟨t, ht, hts, hz⟩ := hex
          rw [hasZone_plant, hall t ht hts, Bool.false_or, any_eq_true] at hz
          obtain ⟨y, hy, hsame⟩ := hz
          obtain ⟨hysuf, hyall⟩ := (mem_missingAncestors hzones).mp hy
          have hyt : y.labels = t := by
            have hlower := Name.same_iff.mp hsame
            rw [toLowercase_of_suffix hts, show y = ⟨y.labels⟩ from rfl,
              toLowercase_of_suffix hysuf] at hlower
            exact congrArg Name.labels hlower
          rw [← hyt] at ht hts
          refine ⟨ht.trans hysuf, fun u hu hus => ?_⟩
          rcases suffix_or_suffix_of_suffix hysuf hus with hle | hle
          · exact hyall u hle hus
          · exact hall u hu (hle.trans hts)

theorem bootOrder_perm (hroot : hasZone c Name.root = true)
    (h : ∀ s ∈ signers, hasZone c s = true ∨ ∃ s' ∈ signers', s.same s' = true)
    (h' : ∀ s' ∈ signers', hasZone c s' = true ∨ ∃ s ∈ signers, s'.same s = true) :
    (bootOrder c signers).Perm (bootOrder c signers') := by
  have hsub : ∀ {l l' : List Name}, (∀ s ∈ l, hasZone c s = true ∨ ∃ s' ∈ l', s.same s' = true) →
      ∀ z, (∃ s ∈ l, Needs c s.toLowercase.labels z) → ∃ s' ∈ l', Needs c s'.toLowercase.labels z := by
    rintro l l' hl z ⟨s, hs, hn⟩
    rcases hl s hs with hz | ⟨s', hs', hsame⟩
    · have hlow : hasZone c s.toLowercase = true := by
        rw [hasZone_congr (Name.same_toLowercase_left s s ▸ Name.same_refl s)]
        exact hz
      rw [hn.2 _ hn.1 suffix_rfl] at hlow
      nomatch hlow
    · rw [Name.same_iff.mp hsame] at hn
      exact ⟨s', hs', hn⟩
  rw [perm_ext_iff_of_nodup (bootOrder_fits hroot _).nodup (bootOrder_fits hroot _).nodup]
  intro z
  rw [mem_bootOrder hroot, mem_bootOrder hroot]
  exact ⟨hsub h z, hsub h' z⟩

/-! ## Runs -/

variable {C : Crypto} {ok : (o : Op) → o.Res → Prop} {ips : List IpAddr} {c' : ChainKeys}

theorem hasZone_of_joins {zone : Name} {keys : List DNSKEY} (x : Name) :
    hasZone (c ++ [(zone, keys)]) x = hasZone (plant c [zone]) x := by
  rw [hasZone_concat, hasZone_plant]
  simp

theorem Fits.orderly (h : Fits c zones) :
    Orderly (Boots C ok ips) (fun c zone => hasZone c (parentOf zone) = true) c zones := by
  induction zones generalizing c with
  | nil => trivial
  | cons zone zones ih =>
    obtain ⟨_, hparent, hrest⟩ := h
    refine ⟨hparent, fun c₁ hboot => ih ?_⟩
    obtain ⟨keys, rfl⟩ := hboot.joins
    exact hrest.congr fun x => (hasZone_of_joins x).symm

theorem bootstrapZones_steps (h : Fits c zones) :
    (bootstrapZones C ips zones c).Yields ok (.ok c') ↔ Steps (Boots C ok ips) c zones c' := by
  induction zones generalizing c with
  | nil =>
    constructor
    · intro hy
      cases yields_ret.mp hy
      exact .nil
    · intro hrun
      cases hrun
      exact .ret _
  | cons zone zones ih =>
    obtain ⟨hmissing, hparent, hrest⟩ := h
    constructor
    · intro hy
      obtain ⟨r, hr, hy⟩ := yields_bind.mp hy
      cases r with
      | error e => nomatch yields_ret.mp hy
      | ok c₁ =>
        obtain ⟨keys, rfl⟩ := hr.always bootstrapZone_puts
        rw [putEntry_of_missing hmissing] at hr hy
        have hfits := hrest.congr (d := c ++ [(zone, keys)]) fun x => (hasZone_of_joins x).symm
        exact .cons ⟨hmissing, hparent, ⟨keys, rfl⟩, hr⟩ ((ih hfits).mp hy)
    · intro hrun
      cases hrun with
      | cons hboot hrun =>
        refine yields_bind.mpr ⟨_, hboot.yields, ?_⟩
        obtain ⟨keys, rfl⟩ := hboot.joins
        exact (ih (hrest.congr fun x => (hasZone_of_joins x).symm)).mpr hrun

theorem hasZone_of_steps (h : Steps (Boots C ok ips) c zones c') (x : Name) :
    hasZone c' x = hasZone (plant c zones) x := by
  induction h with
  | nil => simp [hasZone_plant]
  | cons hboot _ ih =>
    obtain ⟨keys, rfl⟩ := hboot.joins
    rw [ih, hasZone_plant, hasZone_plant, hasZone_concat, any_cons, Bool.or_assoc]

theorem bootstrapSigners_steps (hroot : hasZone c Name.root = true) :
    (bootstrapSigners C ips signers c).Yields ok (.ok c') ↔
      Steps (Boots C ok ips) c (bootOrder c signers) c' := by
  induction signers generalizing c with
  | nil =>
    constructor
    · intro hy
      cases yields_ret.mp hy
      exact .nil
    · intro hrun
      cases hrun
      exact .ret _
  | cons signer signers ih =>
    obtain ⟨zones, hzones⟩ := missingAncestors_isSome hroot signer.toLowercase.labels
    have hrun : ∀ c₁, (bootstrapIntermediateZone C c signer ips).Yields ok (.ok c₁) ↔
        Steps (Boots C ok ips) c zones c₁ := by
      intro c₁
      unfold bootstrapIntermediateZone
      rw [hzones]
      exact bootstrapZones_steps (missingAncestors_fits hzones)
    -- After the zones of the first signer the chain knows them, and the root still.
    have hlater : ∀ c₁, Steps (Boots C ok ips) c zones c₁ →
        hasZone c₁ Name.root = true ∧ bootOrder c₁ signers = bootOrder (plant c zones) signers := by
      intro c₁ h₁
      constructor
      · rw [hasZone_of_steps h₁, hasZone_plant, hroot, Bool.true_or]
      · exact bootOrder_congr (hasZone_of_steps h₁)
    simp only [bootOrder, hzones, Option.getD_some, steps_append]
    constructor
    · intro hy
      obtain ⟨r, hr, hy⟩ := yields_bind.mp hy
      cases r with
      | error e => nomatch yields_ret.mp hy
      | ok c₁ =>
        have h₁ := (hrun c₁).mp hr
        obtain ⟨hroot₁, horder⟩ := hlater c₁ h₁
        refine ⟨c₁, h₁, ?_⟩
        rw [← horder]
        exact (ih hroot₁).mp hy
    · rintro ⟨c₁, h₁, h₂⟩
      obtain ⟨hroot₁, horder⟩ := hlater c₁ h₁
      rw [← horder] at h₂
      exact yields_bind.mpr ⟨_, (hrun c₁).mpr h₁, (ih hroot₁).mpr h₂⟩

theorem bootstrapSigners_reorder (hroot : hasZone c Name.root = true)
    (h : ∀ s ∈ signers, hasZone c s = true ∨ ∃ s' ∈ signers', s.same s' = true)
    (h' : ∀ s' ∈ signers', hasZone c s' = true ∨ ∃ s ∈ signers, s'.same s = true)
    (hy : (bootstrapSigners C ips signers c).Yields ok (.ok c')) :
    ∃ d, (bootstrapSigners C ips signers' c).Yields ok (.ok d) ∧
      ∀ zone, closestTrustedKeys c' zone = closestTrustedKeys d zone := by
  obtain ⟨d, hrun, hview⟩ := (boots_commutes C ok ips).perm ((bootstrapSigners_steps hroot).mp hy)
    (bootOrder_perm hroot h h') (bootOrder_fits hroot signers').orderly
  exact ⟨d, (bootstrapSigners_steps hroot).mpr hrun, hview.choice⟩

end

end Dnsd.Recursor
