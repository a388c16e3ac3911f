/-
# DenialSpec — what the denial checks compute, in terms of paths.

One statement for each function of the two denial proofs, up to what makes a proof of NXDOMAIN
(`proveDenialNsec_nxDomain`, `proveDenialNsec3_nxDomain`).  The climbs count labels with `num_labels`, so for a
name with a leftmost `*` they leave ancestors out (`closestEncloser_above`, `closestEncloser_longest`).
-/
import Dnsd.Lib.Gaps
import Dnsd.Proto.NamePath
import Dnsd.Recursor.Dnssec

namespace Dnsd.Recursor

open Proto Lib

variable {a best cand n q : Name} {b : List UInt8} {k : Nat} {sets : List (Name × List Record)}

/-! ## Names -/

theorem canonicalLt_iff {b : Name} : canonicalLt a b = true ↔ a.path < b.path := by
  rw [canonicalLt, beq_iff_eq, Name.cmp_lt_iff]

def NoStar (n : Name) : Prop := Name.star ∉ n.labels

theorem NoStar.numLabels (h : NoStar n) : n.numLabels = n.labels.length := by
  refine Name.numLabels_of_not_isWildcard ?_
  rw [← Bool.not_eq_true, Name.isWildcard, beq_iff_eq]
  exact fun hhead => h (List.mem_of_head? hhead)

theorem noStar_iff_path : NoStar n ↔ Name.starStep ∉ n.path := by
  unfold NoStar Name.path Name.toLowercase
  refine not_congr ?_
  simp only [List.mem_map, List.mem_reverse, Name.starStep, ordinals_inj, exists_eq_right]
  constructor
  · exact fun h => ⟨_, h, rfl⟩
  · rintro ⟨l, hl, hstar⟩
    exact (Name.map_lowerByte_eq_star_iff l).mp hstar ▸ hl

theorem NoStar.above (h : NoStar n) (ha : a.path <+: n.path) : NoStar a :=
  noStar_iff_path.mpr fun hmem => noStar_iff_path.mp h (ha.subset hmem)

theorem NoStar.toLowercase (h : NoStar n) : NoStar n.toLowercase := h.above (by rw [Name.path_toLowercase])

theorem noStar_root : NoStar Name.root := List.not_mem_nil

theorem wireLen_path (n : Name) : n.wireLen = (n.path.map fun l => l.length + 1).sum + 1 := by
  unfold Name.wireLen Name.path Name.toLowercase
  simp [Function.comp_def, ordinals]

theorem prependWildcard_some {c w : Name} (h : prependWildcard c = some w) :
    w.path = c.path ++ [Name.starStep] := by
  obtain ⟨v, hv, rfl⟩ := Option.map_eq_some_iff.mp h
  unfold Name.prepend? at hv
  split at hv
  · obtain rfl := Option.some.inj hv
    rw [Name.path_toLowercase, Name.path_star]
  · nomatch hv

/-- A name as it is on the wire: no empty labels, and not too long. -/
structure Wirelike (n : Name) : Prop where
  labels : ∀ l ∈ n.labels, l ≠ []
  length : n.wireLen ≤ 255

theorem Wirelike.step_ne_nil (h : Wirelike n) {l : List Nat} (hl : l ∈ n.path) : l ≠ [] := by
  obtain ⟨l', hl', rfl⟩ := List.mem_map.mp hl
  obtain ⟨l'', hl'', rfl⟩ := List.mem_map.mp (List.mem_reverse.mp hl')
  simpa [ordinals] using h.labels l'' hl''

theorem Wirelike.above (h : Wirelike n) (ha : a.path <+: n.path) : Wirelike a := by
  constructor
  · intro l hl
    have hmem : ordinals (l.map lowerByte) ∈ a.path :=
      List.mem_map_of_mem (List.mem_reverse.mpr (List.mem_map_of_mem hl))
    simpa [ordinals] using h.step_ne_nil (ha.subset hmem)
  · refine le_trans ?_ h.length
    obtain ⟨rest, hrest⟩ := ha
    rw [wireLen_path, wireLen_path, ← hrest, List.map_append, List.sum_append]
    omega

theorem Wirelike.wildcard (h : Wirelike n) (ha : a.path <+: n.path) (hne : a.path ≠ n.path) :
    Wirelike ⟨Name.star :: a.labels⟩ := by
  refine ⟨?_, le_trans ?_ h.length⟩
  · intro l hl
    rcases List.mem_cons.mp hl with rfl | hl
    · exact List.cons_ne_nil _ _
    · exact (h.above ha).labels l hl
  · obtain ⟨rest, hrest⟩ := ha
    rw [wireLen_path, wireLen_path, Name.path_star, ← hrest]
    cases rest with
    | nil => exact absurd (by simpa using hrest) hne
    | cons l rest =>
      have hpos : 0 < l.length := List.length_pos_iff.mpr (h.step_ne_nil (hrest ▸ by simp))
      have hstar : Name.starStep.length = 1 := rfl
      simp only [List.map_append, List.map_cons, List.map_nil, List.sum_append, List.sum_cons, List.sum_nil,
        hstar]
      omega

theorem prependWildcard_isSome {c : Name} (hq : Wirelike q) (hpath : c.path <+: q.path)
    (hne : c.path ≠ q.path) : ∃ w, prependWildcard c = some w := by
  have hfits := (hq.wildcard hpath hne).length
  unfold prependWildcard Name.prepend?
  rw [if_pos hfits]
  exact ⟨_, rfl⟩

/-! ## Common ancestors -/

theorem enclosingAncestor_some {anc : Name} {fuel : Nat} (h : enclosingAncestor cand fuel anc = some a) :
    a.path <+: anc.path ∧ a.path <+: cand.path := by
  induction fuel generalizing anc with
  | zero => nomatch h
  | succ fuel ih =>
    unfold enclosingAncestor at h
    split at h
    · nomatch h
    split at h
    · rename_i hcommon
      obtain rfl := Option.some.inj h
      refine ⟨List.prefix_refl _, ?_⟩
      rcases Bool.or_eq_true_iff.mp hcommon with hzone | hsame
      · exact Name.zoneOf_iff_path.mp hzone
      · rw [Name.path_eq_iff.mpr hsame]
    · obtain ⟨habove, hcand⟩ := ih h
      rw [Name.path_trimTo] at habove
      exact ⟨habove.trans (List.take_prefix ..), hcand⟩

theorem enclosingAncestor_longest {anc : Name} {fuel : Nat} (hstar : NoStar anc)
    (hfuel : anc.labels.length < fuel) (hpos : 0 < k) (hk : k ≤ anc.labels.length)
    (hcommon : anc.path.take k <+: cand.path) :
    ∃ a, enclosingAncestor cand fuel anc = some a ∧ k ≤ a.labels.length := by
  induction fuel generalizing anc with
  | zero => exact absurd hfuel (Nat.not_lt_zero _)
  | succ fuel ih =>
    unfold enclosingAncestor
    rw [hstar.numLabels, if_neg (by omega)]
    split
    · exact ⟨anc, rfl, hk⟩
    rename_i hnot
    have hlt : k < anc.labels.length := by
      refine lt_of_le_of_ne hk fun heq => hnot (Bool.or_eq_true_iff.mpr (Or.inl ?_))
      rw [Name.zoneOf_iff_path]
      rwa [heq, ← Name.length_path, List.take_length] at hcommon
    have hlen : (anc.trimTo (anc.labels.length - 1)).labels.length = anc.labels.length - 1 := by
      rw [← Name.length_path, Name.path_trimTo, List.length_take, Name.length_path]
      omega
    refine ih (hstar.above ?_) (by omega) (by omega) ?_
    · rw [Name.path_trimTo]
      exact List.take_prefix ..
    · rwa [Name.path_trimTo, List.take_take, Nat.min_eq_left (by omega)]

def encloserStep (q best cand : Name) : Name :=
  match enclosingAncestor cand.toLowercase (q.labels.length + 1) q with
  | some anc => if best.numLabels < anc.numLabels then anc else best
  | none => best

theorem closestEncloser_eq (q : Name) (cands : List Name) :
    closestEncloser q cands = cands.foldl (encloserStep q) Name.root := rfl

theorem encloserStep_cases (q best cand : Name) :
    encloserStep q best cand = best ∨
      ((encloserStep q best cand).path <+: q.path ∧ (encloserStep q best cand).path <+: cand.path) := by
  unfold encloserStep
  cases h : enclosingAncestor cand.toLowercase (q.labels.length + 1) q with
  | none => exact Or.inl rfl
  | some anc =>
    obtain ⟨habove, hcand⟩ := enclosingAncestor_some h
    rw [Name.path_toLowercase] at hcand
    dsimp only
    split
    · exact Or.inr ⟨habove, hcand⟩
    · exact Or.inl rfl

theorem foldl_encloserStep (q : Name) (cands : List Name) (best : Name) :
    cands.foldl (encloserStep q) best = best ∨ ∃ cand ∈ cands,
      (cands.foldl (encloserStep q) best).path <+: q.path ∧
        (cands.foldl (encloserStep q) best).path <+: cand.path := by
  induction cands generalizing best with
  | nil => exact Or.inl rfl
  | cons cand cands ih =>
    rw [List.foldl_cons]
    rcases ih (encloserStep q best cand) with heq | ⟨other, hmem, hfound⟩
    · rw [heq]
      rcases encloserStep_cases q best cand with hbest | hcommon
      · exact Or.inl hbest
      · exact Or.inr ⟨cand, .head _, hcommon⟩
    · exact Or.inr ⟨other, .tail _ hmem, hfound⟩

theorem closestEncloser_common (q : Name) (cands : List Name) :
    closestEncloser q cands = Name.root ∨ ∃ cand ∈ cands, (closestEncloser q cands).path <+: cand.path := by
  rcases foldl_encloserStep q cands Name.root with h | ⟨cand, hmem, _, hcand⟩
  · exact Or.inl h
  · exact Or.inr ⟨cand, hmem, hcand⟩

theorem closestEncloser_above (q : Name) (cands : List Name) :
    (closestEncloser q cands).path <+: q.path := by
  rcases foldl_encloserStep q cands Name.root with h | ⟨cand, _, habove, _⟩
  · rw [closestEncloser_eq, h]
    exact List.nil_prefix
  · exact habove

theorem encloserStep_mono (hq : NoStar q) (hbest : NoStar best) :
    NoStar (encloserStep q best cand) ∧ best.labels.length ≤ (encloserStep q best cand).labels.length := by
  unfold encloserStep
  cases h : enclosingAncestor cand.toLowercase (q.labels.length + 1) q with
  | none => exact ⟨hbest, le_refl _⟩
  | some anc =>
    dsimp only
    split
    · rename_i hlt
      have hanc : NoStar anc := hq.above (enclosingAncestor_some h).1
      rw [hbest.numLabels, hanc.numLabels] at hlt
      exact ⟨hanc, hlt.le⟩
    · exact ⟨hbest, le_refl _⟩

theorem encloserStep_longest (hq : NoStar q) (hbest : NoStar best) (hk : k ≤ q.labels.length)
    (hcommon : q.path.take k <+: cand.path) : k ≤ (encloserStep q best cand).labels.length := by
  rcases Nat.eq_zero_or_pos k with rfl | hpos
  · exact Nat.zero_le _
  · rw [← Name.path_toLowercase cand] at hcommon
    obtain ⟨a, ha, hka⟩ := enclosingAncestor_longest hq (Nat.lt_succ_self _) hpos hk hcommon
    have hanc : NoStar a := hq.above (enclosingAncestor_some ha).1
    unfold encloserStep
    rw [ha]
    dsimp only
    split
    · exact hka
    · rename_i hnot
      rw [hbest.numLabels, hanc.numLabels] at hnot
      omega

theorem foldl_encloserStep_mono (hq : NoStar q) (cands : List Name) (hbest : NoStar best) :
    best.labels.length ≤ (cands.foldl (encloserStep q) best).labels.length := by
  induction cands generalizing best with
  | nil => exact le_refl _
  | cons cand cands ih =>
    exact (encloserStep_mono hq hbest).2.trans (ih (encloserStep_mono hq hbest).1)

theorem closestEncloser_longest {cands : List Name} (hq : NoStar q) (hmem : cand ∈ cands)
    (hk : k ≤ q.labels.length) (hcommon : q.path.take k <+: cand.path) :
    k ≤ (closestEncloser q cands).labels.length := by
  suffices ∀ best, NoStar best → k ≤ (cands.foldl (encloserStep q) best).labels.length from
    this Name.root noStar_root
  induction cands with
  | nil => nomatch hmem
  | cons other cands ih =>
    intro best hbest
    rcases List.mem_cons.mp hmem with rfl | hmem
    · exact (encloserStep_longest hq hbest hk hcommon).trans
        (foldl_encloserStep_mono hq cands (encloserStep_mono hq hbest).1)
    · exact ih hmem _ (encloserStep_mono hq hbest).1

/-! ## The NSEC proof of NXDOMAIN -/

def NameCover (q : Name) (g : Name × List Record) : Prop :=
  ∃ nsec, headNsec g.2 = some nsec ∧ g.1.path < q.path ∧ q.path < nsec.nextDomainName.path

def WildcardCover (q : Name) (qtype : RecordType) (g : Name × List Record) : Prop :=
  ∃ nsec w, headNsec g.2 = some nsec ∧
    prependWildcard (closestEncloser q [g.1, nsec.nextDomainName]) = some w ∧
    ((g.1.path < w.path ∧ w.path < nsec.nextDomainName.path) ∨
      (g.1.path = w.path ∧ qtype ∉ nsec.typeBitMaps))

theorem nsecCovers_iff (q : Name) (qtype : RecordType) (seen : Bool × Bool) (g : Name × List Record) :
    ((nsecCovers q qtype seen g).1 = true ↔ seen.1 = true ∨ NameCover q g) ∧
      ((nsecCovers q qtype seen g).2 = true ↔ seen.2 = true ∨ WildcardCover q qtype g) := by
  unfold nsecCovers NameCover WildcardCover
  cases headNsec g.2 with
  | none => simp
  | some nsec =>
    cases hw : prependWildcard (closestEncloser q [g.1, nsec.nextDomainName]) with
    | none => simp [hw, canonicalLt_iff]
    | some w => simp [hw, canonicalLt_iff, Name.path_eq_iff, or_assoc]

theorem foldl_nsecCovers_iff (q : Name) (qtype : RecordType) (sets : List (Name × List Record))
    (seen : Bool × Bool) :
    ((sets.foldl (nsecCovers q qtype) seen).1 = true ↔ seen.1 = true ∨ ∃ g ∈ sets, NameCover q g) ∧
      ((sets.foldl (nsecCovers q qtype) seen).2 = true ↔
        seen.2 = true ∨ ∃ g ∈ sets, WildcardCover q qtype g) := by
  induction sets generalizing seen with
  | nil => simp
  | cons g sets ih =>
    rw [List.foldl_cons, (ih _).1, (ih _).2, (nsecCovers_iff ..).1, (nsecCovers_iff ..).2]
    simp [or_assoc]

theorem proveDenialNsec_nxDomain {qtype : RecordType} :
    proveDenialNsec sets q qtype .nxDomain = .secure ↔
      (∃ g ∈ sets, NameCover q.toLowercase g) ∧ ∃ g ∈ sets, WildcardCover q.toLowercase qtype g := by
  have hcovers := foldl_nsecCovers_iff q.toLowercase qtype sets (false, false)
  simp only [Bool.false_eq_true, false_or] at hcovers
  rw [← hcovers.1, ← hcovers.2, ← Bool.and_eq_true]
  unfold proveDenialNsec
  dsimp only
  split
  · rename_i h
    exact ⟨fun _ => h, fun _ => rfl⟩
  · rename_i h
    exact ⟨fun hs => (nomatch hs), fun h' => absurd h' h⟩

/-! ## Hashes -/

theorem cmpOctets_lt_iff {a : List UInt8} : cmpOctets a b = .lt ↔ ordinals a < ordinals b :=
  (compareLex_octets_iff a b).1

theorem cmpOctets_gt_iff {a : List UInt8} : cmpOctets a b = .gt ↔ ordinals b < ordinals a := by
  obtain ⟨hlt, heq⟩ := compareLex_octets_iff a b
  unfold cmpOctets
  rcases lt_trichotomy (ordinals a) (ordinals b) with h | h | h
  · simp [hlt.mpr h, h.le]
  · simp [heq.mpr h, h]
  · refine ⟨fun _ => h, fun _ => ?_⟩
    cases hc : List.compareLex compare a b with
    | lt => exact absurd (hlt.mp hc) h.not_gt
    | eq => exact absurd (heq.mp hc) h.ne'
    | gt => rfl

theorem hashInRange_iff {target o n : List UInt8} :
    hashInRange target o n = true ↔ o ≠ n ∧ InGap (ordinals o) (ordinals n) (ordinals target) := by
  unfold hashInRange InGap
  simp only [Bool.and_eq_true, beq_iff_eq, cmpOctets_lt_iff, cmpOctets_gt_iff, ← ordinals_inj.not]
  split
  · rename_i h
    exact ⟨fun _ => ⟨(h.1.trans h.2).ne, Or.inl h⟩, fun _ => rfl⟩
  rename_i h
  split
  · rename_i hgt
    simp only [Bool.or_eq_true, beq_iff_eq, cmpOctets_lt_iff]
    exact ⟨fun hx => ⟨hgt.ne', Or.inr ⟨hgt.le, hx⟩⟩, fun hx => (hx.2.resolve_left h).2⟩
  · rename_i hgt
    refine ⟨fun hx => (nomatch hx), fun ⟨hne, hx⟩ => ?_⟩
    exact absurd (lt_of_le_of_ne (hx.resolve_left h).1 (Ne.symm hne)) hgt

/-! ## The NSEC3 proof of NXDOMAIN -/

section Climb

variable {hashOf : Name → Option (List UInt8)} {intervals : List Nsec3Interval} {current : Name}

theorem nsec3Encloser_some {fuel : Nat} {e : Name}
    (h : nsec3Encloser hashOf intervals fuel current = some e) :
    e.path <+: current.path ∧ e.path ≠ current.path ∧ ∃ i ∈ intervals, hashOf e = some i.ownerHash := by
  induction fuel generalizing current with
  | zero => nomatch h
  | succ fuel ih =>
    unfold nsec3Encloser at h
    split at h
    · nomatch h
    have hparent : (current.trimTo (current.numLabels - 1)).path <+: current.path := by
      rw [Name.path_trimTo]
      exact List.take_prefix ..
    have hshorter : (current.trimTo (current.numLabels - 1)).path.length < current.path.length := by
      have hle := current.numLabels_le
      rw [Name.path_trimTo, List.length_take, Name.length_path]
      omega
    dsimp only at h
    cases hhash : hashOf (current.trimTo (current.numLabels - 1)) with
    | none =>
      rw [hhash] at h
      nomatch h
    | some hash =>
      rw [hhash] at h
      dsimp only at h
      split at h
      · rename_i hfound
        obtain rfl := Option.some.inj h
        obtain ⟨i, hi, heq⟩ := List.any_eq_true.mp hfound
        refine ⟨hparent, fun hsame => hshorter.ne (congrArg _ hsame), i, hi, ?_⟩
        rw [hhash, beq_iff_eq.mp heq]
      · split at h
        · nomatch h
        · obtain ⟨habove, _, hmatch⟩ := ih h
          refine ⟨habove.trans hparent, fun hsame => ?_, hmatch⟩
          have hle := habove.length_le
          rw [hsame] at hle
          omega

theorem nsec3Encloser_finds {fuel : Nat} {p : List (List Nat)} (hstar : NoStar current)
    (hfuel : current.labels.length < fuel) (hp : p <+: current.path) (hne : p ≠ current.path)
    (hmatch : ∀ a : Name, a.path = p → ∃ i ∈ intervals, hashOf a = some i.ownerHash)
    (hnone : ∀ a : Name, a.path <+: current.path → a.path ≠ current.path → p.length < a.path.length → ∃ hash, hashOf a = some hash ∧ ∀ i ∈ intervals, i.ownerHash ≠ hash) :
    ∃ e, nsec3Encloser hashOf intervals fuel current = some e ∧ e.path = p := by
  induction fuel generalizing current with
  | zero => exact absurd hfuel (Nat.not_lt_zero _)
  | succ fuel ih =>
    have hlt : p.length < current.labels.length := by
      rw [← Name.length_path]
      exact lt_of_le_of_ne hp.length_le fun heq => hne (hp.eq_of_length heq)
    have hparent : (current.trimTo (current.labels.length - 1)).path <+: current.path := by
      rw [Name.path_trimTo]
      exact List.take_prefix ..
    have hlen : (current.trimTo (current.labels.length - 1)).path.length = current.labels.length - 1 := by
      rw [Name.path_trimTo, List.length_take, Name.length_path]
      omega
    have hshort : ∀ a : Name, a.path <+: (current.trimTo (current.labels.length - 1)).path →
        a.path ≠ current.path := by
      intro a ha heq
      have hle := ha.length_le
      rw [heq, hlen, Name.length_path] at hle
      omega
    have hpparent : p <+: (current.trimTo (current.labels.length - 1)).path :=
      List.prefix_of_prefix_length_le hp hparent (by omega)
    unfold nsec3Encloser
    rw [hstar.numLabels, if_neg (by omega)]
    dsimp only
    by_cases heq : (current.trimTo (current.labels.length - 1)).path = p
    · obtain ⟨i, hi, hhash⟩ := hmatch _ heq
      have hfound : (intervals.any fun j => j.ownerHash == i.ownerHash) = true :=
        List.any_eq_true.mpr ⟨i, hi, beq_self_eq_true _⟩
      rw [hhash]
      dsimp only
      rw [if_pos hfound]
      exact ⟨_, rfl, heq⟩
    · have hplt : p.length < (current.trimTo (current.labels.length - 1)).path.length :=
        lt_of_le_of_ne hpparent.length_le fun hl => heq (hpparent.eq_of_length hl).symm
      obtain ⟨hash, hhash, hall⟩ := hnone _ hparent (hshort _ (List.prefix_refl _)) hplt
      have hroot : ¬ (current.trimTo (current.labels.length - 1)).isRoot = true := by
        rw [Name.isRoot, List.isEmpty_iff, ← List.length_eq_zero_iff, ← Name.length_path]
        omega
      rw [hhash]
      dsimp only
      rw [if_neg ?_, if_neg hroot]
      · refine ih (hstar.above hparent) ?_ hpparent (Ne.symm heq) ?_
        · rw [← Name.length_path, hlen]
          omega
        · exact fun a ha _ hl => hnone a (ha.trans hparent) (hshort a ha) hl
      · rw [List.any_eq_true]
        rintro ⟨i, hi, hsame⟩
        exact hall i hi (beq_iff_eq.mp hsame)

theorem proveNsec3NxDomain_secure {q e : Name} :
    proveNsec3NxDomain hashOf intervals q e = .secure ↔
      e.numLabels < q.numLabels ∧ ∃ nc w wc, hashOf (q.trimTo (e.numLabels + 1)) = some nc ∧
        prependWildcard e = some w ∧ hashOf w = some wc ∧
        (∃ i ∈ intervals, hashInRange nc i.ownerHash i.nextHash = true) ∧
        ∃ i ∈ intervals, hashInRange wc i.ownerHash i.nextHash = true ∨ i.ownerHash = wc := by
  unfold proveNsec3NxDomain
  split
  · rename_i hshort
    exact ⟨fun h => (nomatch h), fun h => absurd h.1 (by omega)⟩
  dsimp only
  have hlt : e.numLabels < q.numLabels := by omega
  cases hnc : hashOf (q.trimTo (e.numLabels + 1)) with
  | none => simp
  | some nc =>
    cases hw : prependWildcard e with
    | none =>
      dsimp only
      split <;> simp
    | some w =>
      cases hwc : hashOf w with
      | none =>
        dsimp only
        split <;> simp [hwc]
      | some wc =>
        simp only [hwc, List.any_eq_true, Bool.or_eq_true, beq_iff_eq, Option.some.injEq, hlt, true_and]
        split
        · rename_i hcovered
          split
          · rename_i hwild
            exact ⟨fun _ => ⟨nc, w, wc, rfl, rfl, hwc, hcovered, hwild⟩, fun _ => rfl⟩
          rename_i hwild
          refine ⟨fun h => (nomatch h), ?_⟩
          rintro ⟨_, _, _, rfl, rfl, hwc', _, hwild'⟩
          rw [hwc] at hwc'
          exact absurd (Option.some.inj hwc' ▸ hwild') hwild
        · rename_i hcovered
          refine ⟨fun h => (nomatch h), ?_⟩
          rintro ⟨_, _, _, rfl, rfl, _, hcovered', _⟩
          exact absurd hcovered' hcovered

end Climb

theorem proveDenialNsec3_nxDomain {C : Crypto} {qtype : RecordType} :
    proveDenialNsec3 C sets q qtype .nxDomain = .secure ↔
      ∃ params, sets.findSome? (fun g => headNsec3 g.2) = some params ∧ params.hashAlgorithm = 1 ∧
        ∃ e, nsec3Encloser (fun name => C.nsec3Hash params.salt name params.iterations)
            (sets.filterMap nsec3Interval) (q.labels.length + 1) q = some e ∧
          proveNsec3NxDomain (fun name => C.nsec3Hash params.salt name params.iterations)
            (sets.filterMap nsec3Interval) q e = .secure := by
  unfold proveDenialNsec3
  cases sets.findSome? (fun g => headNsec3 g.2) with
  | none => simp
  | some params =>
    dsimp only
    split
    · rename_i halg
      simp [halg]
    rename_i halg
    rw [not_not] at halg
    cases he : nsec3Encloser (fun name => C.nsec3Hash params.salt name params.iterations)
        (sets.filterMap nsec3Interval) (q.labels.length + 1) q with
    | none => simp [he]
    | some e => simp [he, halg]

/-! ## The proofs of NODATA -/

theorem proveDenialNsec_noError {qtype : RecordType}
    (h : proveDenialNsec sets q qtype .noError = .secure) :
    ∃ g ∈ sets, g.1.same q = true ∧ ∃ nsec, headNsec g.2 = some nsec ∧ qtype ∉ nsec.typeBitMaps := by
  unfold proveDenialNsec at h
  cases hfind : (sets.filter fun g => g.1.same q).findSome? (fun g => headNsec g.2) with
  | none =>
    rw [hfind] at h
    nomatch h
  | some nsec =>
    rw [hfind] at h
    obtain ⟨g, hg, hnsec⟩ := List.exists_of_findSome?_eq_some hfind
    obtain ⟨hmem, hsame⟩ := List.mem_filter.mp hg
    refine ⟨g, hmem, hsame, nsec, hnsec, fun htype => ?_⟩
    dsimp only at h
    rw [if_pos (List.contains_iff_mem.mpr htype)] at h
    nomatch h

theorem proveDenialNsec3_noError {C : Crypto} {qtype : RecordType}
    (h : proveDenialNsec3 C sets q qtype .noError = .secure) :
    ∃ params, sets.findSome? (fun g => headNsec3 g.2) = some params ∧
      ∃ i ∈ sets.filterMap nsec3Interval,
        C.nsec3Hash params.salt q params.iterations = some i.ownerHash ∧ qtype ∉ i.types := by
  unfold proveDenialNsec3 at h
  cases hparams : sets.findSome? (fun g => headNsec3 g.2) with
  | none =>
    rw [hparams] at h
    nomatch h
  | some params =>
    rw [hparams] at h
    dsimp only at h
    split at h
    · nomatch h
    cases hhash : C.nsec3Hash params.salt q params.iterations with
    | none =>
      rw [hhash] at h
      nomatch h
    | some target =>
      rw [hhash] at h
      dsimp only at h
      cases hfind : (sets.filterMap nsec3Interval).find? fun i => i.ownerHash == target with
      | none =>
        rw [hfind] at h
        nomatch h
      | some i =>
        rw [hfind] at h
        have howner := List.find?_some hfind
        rw [beq_iff_eq] at howner
        refine ⟨params, rfl, i, List.mem_of_find?_eq_some hfind, ?_, fun htype => ?_⟩
        · rw [hhash, howner]
        · dsimp only at h
          rw [if_pos (List.contains_iff_mem.mpr htype)] at h
          nomatch h

end Dnsd.Recursor
