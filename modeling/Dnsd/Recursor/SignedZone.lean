/-
# SignedZone — what a signed zone says about its names.

A zone is a finite set of names with types.  What is below a delegation point is occluded.  The NSEC chain links
the names that are not, in canonical order and in a ring; `NsecSet` is the NSEC set of one link.  `gap_holds_iff` and
`gap_delegated_iff` say what a gap tells about a name in it.
-/
import Dnsd.Lib.Gaps
import Dnsd.Proto.NamePath
import Dnsd.Recursor.Dnssec

namespace Dnsd.Recursor

open Proto Lib List

structure Zone where
  apex : Name
  nodes : List (Name × List RecordType)
  has_apex : ∃ node ∈ nodes, node.1.same apex = true
  within : ∀ node ∈ nodes, apex.zoneOf node.1 = true

def wildcardAt (c : Name) : Name := ⟨Name.star :: c.labels⟩

namespace Zone

variable (z : Zone)

def isNode (n : Name) : Bool := z.nodes.any fun node => node.1.same n

def has (n : Name) (t : RecordType) : Bool :=
  z.nodes.any fun node => node.1.same n && node.2.contains t

def isDelegation (n : Name) : Bool := z.has n .NS && !n.same z.apex

def isDelegated (n : Name) : Bool := z.nodes.any fun node => z.isDelegation node.1 && node.1.zoneOf n

def isOccluded (n : Name) : Bool :=
  z.nodes.any fun node => z.isDelegation node.1 && node.1.zoneOf n && !node.1.same n

def holds (n : Name) : Bool := z.apex.zoneOf n && z.nodes.any fun node => n.zoneOf node.1

def names : List Name := (z.nodes.map Prod.fst).filter fun n => !z.isOccluded n

/-- The closest encloser of a name: the lowest name at or above it that exists. -/
structure IsEncloser (q c : Name) : Prop where
  above : c.zoneOf q = true
  holds : z.holds c = true
  lowest : ∀ c', c'.zoneOf q = true → z.holds c' = true → c'.zoneOf c = true

structure Denied (q : Name) : Prop where
  absent : z.holds q = false
  own : z.isDelegated q = false
  unmatched : ∀ c, z.IsEncloser q c → z.holds (wildcardAt c) = false

/-! ## NSEC records -/

def NsecLink (o n : Name) : Prop := RingLink (z.names.map Name.path) o.path n.path

instance (o n : Name) : Decidable (z.NsecLink o n) := inferInstanceAs (Decidable (RingLink _ _ _))

/-- The types that an NSEC record lists: at a delegation point only what the parent has. -/
def nsecBit (o : Name) (t : RecordType) : Bool :=
  t == .RRSIG || t == .NSEC ||
    if z.isDelegation o then t == .NS || (t == .DS && z.has o .DS) else z.has o t

def NsecSet (o n : Name) (g : Name × List Record) : Prop :=
  z.NsecLink o n ∧ g.1.same o = true ∧ ∃ nsec, headNsec g.2 = some nsec ∧
    nsec.nextDomainName.same n = true ∧ ∀ t, t ∈ nsec.typeBitMaps ↔ z.nsecBit o t = true

def GenuineNsec (g : Name × List Record) : Prop := ∃ o n, z.NsecSet o n g

variable {z} {a b c n q : Name} {p : List (List Nat)}

/-! ## Names up to case -/

theorem isNode_iff : z.isNode n = true ↔ ∃ node ∈ z.nodes, node.1.path = n.path := by
  simp [isNode, Name.path_eq_iff]

theorem has_congr (h : a.path = b.path) (t : RecordType) : z.has a t = z.has b t := by
  unfold has
  congr 1
  funext node
  rw [Bool.eq_iff_iff, Bool.and_eq_true, Bool.and_eq_true, ← Name.path_eq_iff, ← Name.path_eq_iff, h]

theorem isDelegation_congr (h : a.path = b.path) : z.isDelegation a = z.isDelegation b := by
  have hapex : a.same z.apex = b.same z.apex := by
    rw [Bool.eq_iff_iff, ← Name.path_eq_iff, ← Name.path_eq_iff, h]
  unfold isDelegation
  rw [has_congr h, hapex]

theorem isDelegation_node {d : Name} (h : z.isDelegation d = true) :
    ∃ node ∈ z.nodes, node.1.path = d.path ∧ z.isDelegation node.1 = true := by
  have hns := (Bool.and_eq_true_iff.mp h).1
  obtain ⟨node, hnode, hsame⟩ := any_eq_true.mp hns
  have hpath := Name.path_eq_iff.mpr (Bool.and_eq_true_iff.mp hsame).1
  exact ⟨node, hnode, hpath, isDelegation_congr hpath ▸ h⟩

theorem isDelegated_iff : z.isDelegated n = true ↔ ∃ d, z.isDelegation d = true ∧ d.path <+: n.path := by
  constructor
  · intro h
    obtain ⟨node, _, hd⟩ := any_eq_true.mp h
    exact ⟨node.1, (Bool.and_eq_true_iff.mp hd).1, Name.zoneOf_iff_path.mp (Bool.and_eq_true_iff.mp hd).2⟩
  · rintro ⟨d, hd, hpath⟩
    obtain ⟨node, hnode, heq, hdel⟩ := isDelegation_node hd
    refine any_eq_true.mpr ⟨node, hnode, Bool.and_eq_true_iff.mpr ⟨hdel, ?_⟩⟩
    rw [Name.zoneOf_iff_path, heq]
    exact hpath

theorem isOccluded_iff :
    z.isOccluded n = true ↔ ∃ d, z.isDelegation d = true ∧ d.path <+: n.path ∧ d.path ≠ n.path := by
  constructor
  · intro h
    obtain ⟨node, _, hd⟩ := any_eq_true.mp h
    simp only [Bool.and_eq_true, Bool.not_eq_true', ← Bool.not_eq_true, ← Name.path_eq_iff,
      Name.zoneOf_iff_path] at hd
    exact ⟨node.1, hd.1.1, hd.1.2, hd.2⟩
  · rintro ⟨d, hd, hpath, hne⟩
    obtain ⟨node, hnode, heq, hdel⟩ := isDelegation_node hd
    refine any_eq_true.mpr ⟨node, hnode, ?_⟩
    simp only [Bool.and_eq_true, Bool.not_eq_true', ← Bool.not_eq_true, ← Name.path_eq_iff,
      Name.zoneOf_iff_path, heq]
    exact ⟨⟨hdel, hpath⟩, hne⟩

theorem isOccluded_congr (h : a.path = b.path) : z.isOccluded a = z.isOccluded b := by
  rw [Bool.eq_iff_iff, isOccluded_iff, isOccluded_iff, h]

theorem holds_iff :
    z.holds n = true ↔ z.apex.path <+: n.path ∧ ∃ node ∈ z.nodes, n.path <+: node.1.path := by
  simp [holds, Name.zoneOf_iff_path]

theorem holds_congr (h : a.path = b.path) : z.holds a = z.holds b := by
  rw [Bool.eq_iff_iff, holds_iff, holds_iff, h]

-- Letter case does not matter: `A.` exists exactly if `a.` does.
example (z : Zone) : z.holds ⟨[[65]]⟩ = z.holds ⟨[[97]]⟩ := holds_congr (by decide +kernel)

/-! ## The chain -/

theorem mem_names : n.path ∈ z.names.map Name.path ↔ z.isNode n = true ∧ z.isOccluded n = false := by
  rw [isNode_iff]
  simp only [names, mem_map, mem_filter, Bool.not_eq_true']
  constructor
  · rintro ⟨m, ⟨⟨node, hnode, rfl⟩, hocc⟩, hm⟩
    exact ⟨⟨node, hnode, hm⟩, isOccluded_congr hm ▸ hocc⟩
  · rintro ⟨⟨node, hnode, hm⟩, hocc⟩
    exact ⟨node.1, ⟨⟨node, hnode, rfl⟩, (isOccluded_congr hm).trans hocc⟩, hm⟩

theorem exists_name (h : p ∈ z.names.map Name.path) :
    ∃ n : Name, n.path = p ∧ z.isNode n = true ∧ z.isOccluded n = false := by
  obtain ⟨n, hn, rfl⟩ := mem_map.mp h
  exact ⟨n, rfl, mem_names.mp (mem_map_of_mem hn)⟩

theorem isNode_within (h : z.isNode n = true) : z.apex.path <+: n.path := by
  obtain ⟨node, hnode, heq⟩ := isNode_iff.mp h
  rw [← heq]
  exact Name.zoneOf_iff_path.mp (z.within node hnode)

theorem holds_of_isNode (h : z.isNode n = true) : z.holds n = true := by
  obtain ⟨node, hnode, heq⟩ := isNode_iff.mp h
  exact holds_iff.mpr ⟨isNode_within h, node, hnode, heq ▸ prefix_refl _⟩

theorem holds_above (h : z.holds b = true) (hapex : z.apex.path <+: a.path) (hab : a.path <+: b.path) :
    z.holds a = true := by
  obtain ⟨_, node, hnode, hpath⟩ := holds_iff.mp h
  exact holds_iff.mpr ⟨hapex, node, hnode, hab.trans hpath⟩

theorem isDelegation_isNode {d : Name} (h : z.isDelegation d = true) : z.isNode d = true := by
  obtain ⟨node, hnode, heq, _⟩ := isDelegation_node h
  exact isNode_iff.mpr ⟨node, hnode, heq⟩

theorem not_isDelegation_apex : z.isDelegation z.apex = false := by
  simp [isDelegation]

theorem not_isDelegated_apex : z.isDelegated z.apex = false := by
  rw [← Bool.not_eq_true]
  intro h
  obtain ⟨d, hd, hpath⟩ := isDelegated_iff.mp h
  have hwithin := isNode_within (isDelegation_isNode hd)
  have heq : d.path = z.apex.path := hpath.eq_of_length (le_antisymm hpath.length_le hwithin.length_le)
  rw [isDelegation_congr heq, not_isDelegation_apex] at hd
  nomatch hd

theorem isDelegated_of_isOccluded (h : z.isOccluded n = true) : z.isDelegated n = true := by
  obtain ⟨d, hd, hpath, _⟩ := isOccluded_iff.mp h
  exact isDelegated_iff.mpr ⟨d, hd, hpath⟩

theorem apex_mem : z.apex.path ∈ z.names.map Name.path := by
  refine mem_names.mpr ⟨?_, ?_⟩
  · obtain ⟨node, hnode, hsame⟩ := z.has_apex
    exact isNode_iff.mpr ⟨node, hnode, Name.path_eq_iff.mpr hsame⟩
  · rw [← Bool.not_eq_true]
    intro h
    nomatch not_isDelegated_apex.symm.trans (isDelegated_of_isOccluded h)

theorem apex_le (h : p ∈ z.names.map Name.path) : z.apex.path ≤ p := by
  obtain ⟨n, rfl, hnode, _⟩ := exists_name h
  exact prefix_le (isNode_within hnode)

theorem exists_cut (h : z.isDelegated n = true) :
    ∃ d, z.isDelegation d = true ∧ d.path <+: n.path ∧ z.isOccluded d = false := by
  obtain ⟨d, hd, hpath⟩ := isDelegated_iff.mp h
  -- Go up for as long as the point is occluded itself.
  induction hlen : d.path.length using Nat.strongRecOn generalizing d with
  | ind k ih =>
    cases hocc : z.isOccluded d with
    | false => exact ⟨d, hd, hpath, hocc⟩
    | true =>
      obtain ⟨e, he, hed, hne⟩ := isOccluded_iff.mp hocc
      have hlt : e.path.length < k := by
        rw [← hlen]
        exact lt_of_le_of_ne hed.length_le fun heq => hne (hed.eq_of_length heq)
      exact ih _ hlt e he (hed.trans hpath) rfl

theorem exists_below (h : z.holds n = true) (hown : z.isDelegated n = false) :
    ∃ p ∈ z.names.map Name.path, n.path <+: p := by
  obtain ⟨_, node, hnode, hpath⟩ := holds_iff.mp h
  have hisNode : z.isNode node.1 = true := isNode_iff.mpr ⟨node, hnode, rfl⟩
  cases hocc : z.isOccluded node.1 with
  | false => exact ⟨_, mem_names.mpr ⟨hisNode, hocc⟩, hpath⟩
  | true =>
    obtain ⟨d, hd, hdpath, hdocc⟩ := exists_cut (isDelegated_of_isOccluded hocc)
    refine ⟨_, mem_names.mpr ⟨isDelegation_isNode hd, hdocc⟩, ?_⟩
    rcases prefix_or_prefix_of_prefix hpath hdpath with hnd | hdn
    · exact hnd
    · exact absurd (isDelegated_iff.mpr ⟨d, hd, hdn⟩) (by rw [hown]; exact Bool.false_ne_true)

/-! ## Gaps -/

section Gap

variable {o n q : Name} (hlink : z.NsecLink o n) (hlow : o.path < q.path) (hhigh : q.path < n.path)

include hlink hlow hhigh

theorem gap_delegated_iff : z.isDelegated q = true ↔ z.isDelegation o = true ∧ o.path <+: q.path := by
  constructor
  · intro h
    obtain ⟨d, hd, hdq, hocc⟩ := exists_cut h
    have hmem : d.path ∈ z.names.map Name.path := mem_names.mpr ⟨isDelegation_isNode hd, hocc⟩
    have hdo : d.path ≤ o.path := hlink.le_start hmem hhigh (prefix_le hdq)
    have hdo' : d.path <+: o.path := prefix_of_le_of_le hdq hdo hlow.le
    obtain ⟨o', ho', _, hocc'⟩ := exists_name hlink.1
    -- The start of the gap is below the point and not occluded.
    have heq : d.path = o.path := by
      by_contra hne
      have : z.isOccluded o' = true := isOccluded_iff.mpr ⟨d, hd, ho' ▸ hdo', ho' ▸ hne⟩
      nomatch hocc'.symm.trans this
    exact ⟨isDelegation_congr heq ▸ hd, heq ▸ hdq⟩
  · rintro ⟨hdel, hpath⟩
    exact isDelegated_iff.mpr ⟨o, hdel, hpath⟩

theorem gap_holds_iff (hq : z.apex.path <+: q.path) :
    z.holds q = true ∧ z.isDelegated q = false ↔ q.path <+: n.path := by
  obtain ⟨n', hn', hnode, hocc⟩ := exists_name hlink.2.1
  constructor
  · rintro ⟨hholds, hown⟩
    obtain ⟨p, hp, hqp⟩ := exists_below hholds hown
    have hqne : q.path ≠ p := by
      rintro rfl
      exact hlink.not_mem (Or.inl ⟨hlow, hhigh⟩) hp
    have hnp : n.path ≤ p := hlink.le_of_lt hp (hlow.trans (prefix_lt hqp hqne))
    exact prefix_of_le_of_le hqp hhigh.le hnp
  · intro hpath
    have hpath' : q.path <+: n'.path := hn' ▸ hpath
    obtain ⟨node, hmem, heq⟩ := isNode_iff.mp hnode
    refine ⟨holds_iff.mpr ⟨hq, node, hmem, heq ▸ hpath'⟩, ?_⟩
    rw [← Bool.not_eq_true]
    intro hdel
    obtain ⟨d, hd, hdq⟩ := isDelegated_iff.mp hdel
    -- The end of the gap is not occluded, so the point is the end itself, and at or above `q`.
    have hdn : d.path = n'.path := by
      by_contra hne
      have : z.isOccluded n' = true := isOccluded_iff.mpr ⟨d, hd, hdq.trans hpath', hne⟩
      nomatch hocc.symm.trans this
    rw [hn'] at hdn
    exact absurd (prefix_le (hdn ▸ hdq)) hhigh.not_ge

theorem gap_absent_iff (hq : z.apex.path <+: q.path) :
    (z.holds q = false ∧ z.isDelegated q = false) ↔
      ¬ (z.isDelegation o = true ∧ o.path <+: q.path) ∧ ¬ q.path <+: n.path := by
  rw [← gap_delegated_iff hlink hlow hhigh, ← gap_holds_iff hlink hlow hhigh hq]
  cases z.holds q <;> cases z.isDelegated q <;> simp

end Gap

/-! ## Enclosers -/

@[simp] theorem path_wildcardAt (c : Name) : (wildcardAt c).path = c.path ++ [Name.starStep] :=
  Name.path_star c

theorem IsEncloser.path_eq {c' : Name} (h : z.IsEncloser q c) (h' : z.IsEncloser q c') :
    c.path = c'.path :=
  Name.path_eq_iff.mpr (Name.zoneOf_antisymm (h'.lowest c h.above h.holds) (h.lowest c' h'.above h'.holds))

theorem IsEncloser.apex (h : z.IsEncloser q c) : z.apex.path <+: c.path := (holds_iff.mp h.holds).1

theorem isDelegated_below (h : z.isDelegated a = true) (hpath : a.path <+: b.path) :
    z.isDelegated b = true := by
  obtain ⟨d, hd, hda⟩ := isDelegated_iff.mp h
  exact isDelegated_iff.mpr ⟨d, hd, hda.trans hpath⟩

theorem IsEncloser.own (h : z.IsEncloser q c) (hown : z.isDelegated q = false) :
    z.isDelegated c = false := by
  rw [← Bool.not_eq_true] at hown ⊢
  exact fun hc => hown (isDelegated_below hc (Name.zoneOf_iff_path.mp h.above))

theorem IsEncloser.wildcard_holds_iff {o : Name} (h : z.IsEncloser q c) (hown : z.isDelegated q = false)
    (hlink : z.NsecLink o n) (hlow : o.path < (wildcardAt c).path)
    (hhigh : (wildcardAt c).path < n.path) :
    z.holds (wildcardAt c) = true ↔ (wildcardAt c).path <+: n.path := by
  have hc : c.path <+: (wildcardAt c).path := by
    rw [path_wildcardAt]
    exact prefix_append ..
  -- A delegation point above the wildcard is above the encloser.
  have hwild : z.isDelegated (wildcardAt c) = false := by
    rw [← Bool.not_eq_true, gap_delegated_iff hlink hlow hhigh]
    rintro ⟨hdel, hpath⟩
    rw [path_wildcardAt] at hpath hlow
    rcases prefix_concat_iff.mp hpath with heq | hpath
    · exact absurd heq hlow.ne
    · have : z.isDelegated c = true := isDelegated_iff.mpr ⟨o, hdel, hpath⟩
      nomatch (h.own hown).symm.trans this
  rw [← gap_holds_iff hlink hlow hhigh (h.apex.trans hc)]
  exact ⟨fun hh => ⟨hh, hwild⟩, fun hh => hh.1⟩

theorem exists_encloser (hq : z.apex.zoneOf q = true) : ∃ c, z.IsEncloser q c := by
  have hapex : z.holds z.apex = true := by
    obtain ⟨node, hnode, hsame⟩ := z.has_apex
    exact holds_iff.mpr ⟨prefix_refl _, node, hnode, (Name.path_eq_iff.mpr hsame) ▸ prefix_refl _⟩
  -- The longest of the names above `q` that exist.
  have hmax : ∀ k ≤ q.path.length, (∀ c, c.zoneOf q = true → z.holds c = true → c.path.length ≤ k) →
      ∃ c, z.IsEncloser q c := by
    intro k
    induction k with
    | zero =>
      intro _ hall
      refine ⟨z.apex, hq, hapex, fun c' hc' hh => ?_⟩
      have hlen := hall c' hc' hh
      rw [Name.zoneOf_iff_path, length_eq_zero_iff.mp (Nat.le_zero.mp hlen)]
      exact nil_prefix
    | succ k ih =>
      intro hk hall
      by_cases hex : ∃ c, c.zoneOf q = true ∧ z.holds c = true ∧ c.path.length = k + 1
      · obtain ⟨c, habove, hholds, hlen⟩ := hex
        refine ⟨c, habove, hholds, fun c' hc' hh => ?_⟩
        rw [Name.zoneOf_iff_path] at habove hc' ⊢
        exact prefix_of_prefix_length_le hc' habove (hlen ▸ hall c' (Name.zoneOf_iff_path.mpr hc') hh)
      · refine ih (Nat.le_of_succ_le hk) fun c hc hh => ?_
        have hle := hall c hc hh
        rcases Nat.lt_or_ge c.path.length (k + 1) with hlt | hge
        · exact Nat.le_of_lt_succ hlt
        · exact absurd ⟨c, hc, hh, le_antisymm hle hge⟩ hex
  exact hmax _ (le_refl _) fun c hc _ => (Name.zoneOf_iff_path.mp hc).length_le

theorem IsEncloser.bounds {o x : Name} (h : z.IsEncloser q c) (hown : z.isDelegated q = false)
    (hlink : z.NsecLink o n) (hx : InGap o.path n.path x.path) (hcx : c.path <+: x.path) :
    c.path <+: o.path ∨ c.path <+: n.path := by
  obtain ⟨p, hp, hcp⟩ := exists_below h.holds (h.own hown)
  have hpx : p ≠ x.path := by
    rintro rfl
    exact hlink.not_mem hx hp
  have hstart : o.path < x.path → p < x.path → c.path <+: o.path := by
    intro hox hlt
    have hpo : p ≤ o.path := by
      by_contra hgt
      rw [not_le] at hgt
      exact hlink.not_mem (x := p) (by
        rcases hx with ⟨_, hxn⟩ | ⟨hle, _⟩
        · exact Or.inl ⟨hgt, hlt.trans hxn⟩
        · exact Or.inr ⟨hle, Or.inl hgt⟩) hp
    exact prefix_of_between hcp hcx hpo hox.le
  rcases lt_or_gt_of_ne hpx with hlt | hgt
  · rcases hx with ⟨hox, _⟩ | ⟨hle, hox | hxn⟩
    · exact Or.inl (hstart hox hlt)
    · exact Or.inl (hstart hox hlt)
    · exact absurd (hlt.trans hxn) ((hlink.last hle).2 p hp).not_gt
  · rcases hx with ⟨hox, hxn⟩ | ⟨hle, hox | hxn⟩
    · exact Or.inr (prefix_of_between hcx hcp hxn.le (hlink.le_of_lt hp (hox.trans hgt)))
    · exact absurd (hox.trans hgt) ((hlink.last hle).1 p hp).not_gt
    · -- The ring starts at the apex, and nothing below the apex is before it.
      have hapex := (hlink.last hle).2 _ apex_mem
      exact absurd hxn (hapex.trans (prefix_le (h.apex.trans hcx))).not_gt

theorem isEncloser_parent {l : List Nat} (hpath : q.path = c.path ++ [l]) (hc : z.holds c = true)
    (hq : z.holds q = false) : z.IsEncloser q c := by
  refine ⟨?_, hc, fun c' hc' hholds => ?_⟩
  · rw [Name.zoneOf_iff_path, hpath]
    exact prefix_append ..
  · rw [Name.zoneOf_iff_path, hpath] at hc'
    rcases prefix_concat_iff.mp hc' with heq | hpre
    · rw [holds_congr (heq.trans hpath.symm), hq] at hholds
      nomatch hholds
    · exact Name.zoneOf_iff_path.mpr hpre

theorem denied_of_encloser (habsent : z.holds q = false) (hown : z.isDelegated q = false)
    (hc : z.IsEncloser q c) (hwild : z.holds (wildcardAt c) = false) : z.Denied q := by
  refine ⟨habsent, hown, fun c' hc' => ?_⟩
  have hsame : (wildcardAt c').path = (wildcardAt c).path := by
    rw [path_wildcardAt, path_wildcardAt, hc'.path_eq hc]
  rw [holds_congr hsame]
  exact hwild

end Zone

end Dnsd.Recursor
