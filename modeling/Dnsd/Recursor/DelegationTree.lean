/-
# DelegationTree — a static tree of zones, and what it says about a question.

In a delegation tree the servers of a zone answer alike, so a question has one path from the root (`Refers`,
`Path`), and where it ends stands the answer, or a CNAME from which the chase goes on (`Finds`).  What a walk finds
cached is the beginning of the path (`path_of_cached`).
-/
import Dnsd.Lib.Path
import Dnsd.Recursor.WalkSpec

namespace Dnsd.Recursor

open Proto Lib List

/-! ## Trees -/

structure Cut where
  zone : Name
  ds : List Record
  deriving DecidableEq, Repr

def ChainStep.cut (step : ChainStep) : Cut := ⟨step.zone, step.ds⟩

def WalkChain.cuts (chain : WalkChain) : List Cut := chain.steps.map ChainStep.cut

/-- The servers of a zone refer a question to a delegated zone, and the referral passes the guard. -/
def RefersTo (reply : Name → Query → Message) (q : Query) (zone : Name) (cut : Cut) : Prop :=
  (∃ nsRecords glue, classify (reply zone q).lowercaseResponseNames q.name q.queryType =
      .referral cut.zone nsRecords glue) ∧
    cut.ds = (extractDsAndRrsig (reply zone q).lowercaseResponseNames cut.zone).1 ∧
    nonProgressive cut.zone zone = false

/-- What the servers of each zone reply to each question.  Referrals lead down towards the name in question,
and a delegation is made alike for all names below it. -/
structure Tree where
  reply : Name → Query → Message
  proper : ∀ q zone cut, RefersTo reply q zone cut →
    cut.zone ≠ Name.root ∧ zone.zoneOf cut.zone = true ∧ cut.zone.zoneOf q.name = true
  uniform : ∀ q q' zone cut, RefersTo reply q zone cut → ProperlyBelow cut.zone q'.name →
    RefersTo reply q' zone cut

namespace Tree

variable (T : Tree)

def answer (zone : Name) (q : Query) : Message := (T.reply zone q).lowercaseResponseNames

abbrev Refers (q : Query) : Name → Cut → Prop := RefersTo T.reply q

abbrev Route (q : Query) : Name → List Cut → Name → Prop := Path (T.Refers q) Cut.zone

def HasCut (cut : Cut) : Prop := ∃ q cuts zone, T.Route q Name.root cuts zone ∧ T.Refers q zone cut

inductive Finds : Query → List Cut → Message → Prop
  | done {q : Query} {cuts : List Cut} {zone : Name} : T.Route q Name.root cuts zone →
      (classify (T.answer zone q) q.name q.queryType).terminal = true →
      Finds q cuts (T.answer zone q)
  | chased {q : Query} {cuts cuts' : List Cut} {zone target : Name} {sub : Message} :
      T.Route q Name.root cuts zone →
      classify (T.answer zone q) q.name q.queryType = .cname target →
      Finds ⟨target, q.queryType, q.queryClass⟩ cuts' sub →
      Finds q cuts (stitch (T.answer zone q) sub)

/-! ## Routes -/

variable {T} {q q' : Query} {zone a b : Name} {cut cut' : Cut} {cuts cuts' : List Cut} {l : Label}
  {ls : List Label}

theorem Refers.below (h : T.Refers q zone cut) : ProperlyBelow zone cut.zone := by
  obtain ⟨hroot, hdown, _⟩ := T.proper _ _ _ h
  exact properlyBelow_of_progressive hroot hdown h.2.2

theorem Refers.climbs (zone : Name) (cut : Cut) (h : T.Refers q zone cut) :
    zone.labels.length < cut.zone.labels.length :=
  (Refers.below h).length_lt

theorem Refers.unique (zone : Name) (cut cut' : Cut) (h : T.Refers q zone cut)
    (h' : T.Refers q zone cut') : cut = cut' := by
  obtain ⟨⟨ns, glue, hcls⟩, hds, _⟩ := h
  obtain ⟨⟨ns', glue', hcls'⟩, hds', _⟩ := h'
  obtain ⟨zone₁, ds₁⟩ := cut
  obtain ⟨zone₂, ds₂⟩ := cut'
  rw [hcls] at hcls'
  cases hcls'
  dsimp only at hds hds'
  rw [hds, hds']

theorem Route.above (h : T.Route q a cuts b) :
    a.zoneOf b = true ∧ ∀ cut ∈ cuts, cut.zone.zoneOf b = true := by
  induction h with
  | nil a => exact ⟨Name.zoneOf_refl a, forall_mem_nil _⟩
  | cons hs _ ih =>
    refine ⟨Name.zoneOf_trans (Refers.below hs).1 ih.1, ?_⟩
    exact forall_mem_cons.mpr ⟨ih.1, ih.2⟩

theorem Route.transfer (h : T.Route q a cuts b) (hbelow : ProperlyBelow b q'.name) :
    T.Route q' a cuts b := by
  refine Path.mono h fun zone cut hcut href => T.uniform q q' zone cut href ?_
  exact ProperlyBelow.trans (Route.above h |>.2 cut hcut) hbelow

theorem HasCut.route (h : T.HasCut cut) (hbelow : ProperlyBelow cut.zone q.name) :
    ∃ cuts, T.Route q Name.root (cuts ++ [cut]) cut.zone := by
  obtain ⟨q', cuts, zone, hroute, href⟩ := h
  have hthere : T.Route q Name.root cuts zone :=
    hroute.transfer (ProperlyBelow.trans (Refers.below href).1 hbelow)
  exact ⟨cuts, hthere.snoc (T.uniform q' q zone cut href hbelow)⟩

theorem Route.hasCut (h : T.Route q Name.root cuts b) (hcut : cut ∈ cuts) : T.HasCut cut := by
  obtain ⟨front, zone, hroute, href⟩ := Path.to_edge h hcut
  exact ⟨q, front, zone, hroute, href⟩

theorem Route.rest (h : T.Route q Name.root cuts a) (h' : T.Route q Name.root cuts' b)
    (hstuck : ∀ cut, ¬ T.Refers q b cut) :
    ∃ rest, cuts' = cuts ++ rest ∧ T.Route q a rest b := by
  rcases Nat.le_total a.labels.length b.labels.length with hle | hle
  · exact Path.split Refers.unique Refers.climbs h h' hle
  · -- The other way round nothing remains.
    obtain ⟨rest, rfl, hrest⟩ := Path.split Refers.unique Refers.climbs h' h hle
    obtain ⟨rfl, rfl⟩ := Path.eq_nil_of_stuck hrest hstuck
    exact ⟨[], by simp, .nil _⟩

theorem not_refers_of_terminal (h : (classify (T.answer zone q) q.name q.queryType).terminal = true)
    (cut : Cut) : ¬ T.Refers q zone cut := by
  rintro ⟨⟨ns, glue, hcls⟩, _⟩
  unfold answer at h
  rw [hcls] at h
  nomatch h

theorem not_refers_of_cname {target : Name}
    (h : classify (T.answer zone q) q.name q.queryType = .cname target) (cut : Cut) :
    ¬ T.Refers q zone cut := by
  rintro ⟨⟨ns, glue, hcls⟩, _⟩
  unfold answer at h
  rw [hcls] at h
  nomatch h

theorem Route.ends_alike (h : T.Route q Name.root cuts a) (h' : T.Route q Name.root cuts' b)
    (ha : ∀ cut, ¬ T.Refers q a cut) (hb : ∀ cut, ¬ T.Refers q b cut) : cuts = cuts' ∧ a = b := by
  obtain ⟨rest, rfl, hrest⟩ := h.rest h' hb
  obtain ⟨rfl, rfl⟩ := Path.eq_nil_of_stuck hrest ha
  exact ⟨by simp, rfl⟩

/-- **A question has one answer**, under one sequence of delegations. -/
theorem Finds.unique {msg msg' : Message} (h : T.Finds q cuts msg) (h' : T.Finds q cuts' msg') :
    cuts = cuts' ∧ msg = msg' := by
  induction h generalizing cuts' msg' with
  | done hroute hterm =>
    cases h' with
    | done hroute' hterm' =>
      obtain ⟨rfl, rfl⟩ := hroute.ends_alike hroute' (not_refers_of_terminal hterm)
        (not_refers_of_terminal hterm')
      exact ⟨rfl, rfl⟩
    | chased hroute' hcls' _ =>
      obtain ⟨_, rfl⟩ := hroute.ends_alike hroute' (not_refers_of_terminal hterm)
        (not_refers_of_cname hcls')
      rw [hcls'] at hterm
      nomatch hterm
  | chased hroute hcls _ ih =>
    cases h' with
    | done hroute' hterm' =>
      obtain ⟨_, rfl⟩ := hroute.ends_alike hroute' (not_refers_of_cname hcls)
        (not_refers_of_terminal hterm')
      rw [hcls] at hterm'
      nomatch hterm'
    | chased hroute' hcls' hsub' =>
      obtain ⟨rfl, rfl⟩ := hroute.ends_alike hroute' (not_refers_of_cname hcls) (not_refers_of_cname hcls')
      rw [hcls] at hcls'
      cases hcls'
      obtain ⟨_, rfl⟩ := ih hsub'
      exact ⟨rfl, rfl⟩

/-! ## Cached delegations -/

theorem ancestorZones_of_run {labels : List Label} {zones : List Name}
    (h : zones <+: (ancestorZones labels).reverse) :
    ∃ ls, ls <:+ labels ∧ zones = (ancestorZones ls).reverse := by
  induction labels with
  | nil => exact ⟨[], suffix_rfl, prefix_nil.mp h⟩
  | cons l labels ih =>
    have hshort : zones <+: (ancestorZones labels).reverse →
        ∃ ls, ls <:+ l :: labels ∧ zones = (ancestorZones ls).reverse := by
      intro hrun
      obtain ⟨ls, hls, heq⟩ := ih hrun
      exact ⟨ls, hls.trans (suffix_cons ..), heq⟩
    by_cases hcount : 1 ≤ (Name.mk (l :: labels)).numLabels
    · have hcons : ancestorZones (l :: labels) = ⟨l :: labels⟩ :: ancestorZones labels := by
        rw [ancestorZones, if_pos hcount]
      rw [hcons, reverse_cons, prefix_concat_iff] at h
      rcases h with h | h
      · exact ⟨l :: labels, suffix_rfl, by rw [hcons, reverse_cons, h]⟩
      · exact hshort h
    · rw [ancestorZones, if_neg hcount] at h
      have hnil : zones = [] := prefix_nil.mp h
      exact hshort (hnil ▸ nil_prefix)

theorem numLabels_eq_zero_of_ancestorZones (h : ancestorZones ls = []) : (Name.mk ls).numLabels = 0 := by
  cases ls with
  | nil => rfl
  | cons l ls =>
    unfold ancestorZones at h
    split at h
    · cases h
    · omega

theorem Refers.numLabels_pos (h : T.Refers q Name.root cut) : 0 < cut.zone.numLabels := by
  obtain ⟨hroot, _, _⟩ := T.proper _ _ _ h
  have hne : cut.zone.same Name.root = false :=
    Bool.eq_false_iff.mpr fun hs => hroot (Name.same_root_iff.mp hs)
  have hguard := h.2.2
  rw [nonProgressive, hne] at hguard
  simp at hguard
  exact hguard

theorem no_cut_between (href : T.Refers q zone cut) (habove : cut.zone.zoneOf ⟨l :: ls⟩ = true)
    (hzone : ancestorZones ls = [] ∧ zone = Name.root ∨ zone.same ⟨ls⟩ = true) :
    ls.length < cut.zone.labels.length := by
  have hclimb := Refers.climbs zone cut href
  rcases hzone with ⟨hnone, rfl⟩ | hsame
  · -- The one label may be `*`, which is not counted.
    have hzero := numLabels_eq_zero_of_ancestorZones hnone
    have hshort : ls.length ≤ (Name.mk ls).numLabels + 1 := Name.length_le_numLabels ⟨ls⟩
    by_contra hle
    have hlen : cut.zone.labels.length = ls.length := by omega
    have hlast : (Name.mk ls).zoneOf ⟨l :: ls⟩ = true := zoneOf_of_labels_suffix (suffix_cons ..)
    have hsame : cut.zone.same ⟨ls⟩ = true := by
      rcases Name.zoneOf_total habove hlast with h | h
      · exact Name.same_of_zoneOf_of_length h (Nat.le_of_eq hlen.symm)
      · exact Name.same_symm (Name.same_of_zoneOf_of_length h (Nat.le_of_eq hlen))
    have hpos := Refers.numLabels_pos href
    rw [Name.numLabels_congr hsame] at hpos
    omega
  · have hlen := Name.same_length hsame
    dsimp only at hlen
    omega

theorem length_baseName (n : Name) : n.baseName.labels.length = n.labels.length - 1 := by
  unfold Name.baseName Name.trimTo
  split
  · split
    · omega
    · rw [length_drop]
      omega
  · omega

theorem properlyBelow_of_suffix {z : Name} (hsuffix : l :: ls <:+ q.name.baseName.labels)
    (hsame : z.same ⟨l :: ls⟩ = true) : ProperlyBelow z q.name := by
  have hlen : z.labels.length = ls.length + 1 := Name.same_length hsame
  have hshort := hsuffix.length_le
  rw [length_baseName, length_cons] at hshort
  refine ⟨?_, Bool.eq_false_iff.mpr fun hup => ?_⟩
  · rw [Name.zoneOf_congr_left hsame]
    exact zoneOf_of_labels_suffix (hsuffix.trans (baseName_labels_suffix q.name))
  · have hback := Name.zoneOf_length hup
    omega

theorem route_next (hsuffix : l :: ls <:+ q.name.baseName.labels)
    (hsame : cut.zone.same ⟨l :: ls⟩ = true) (hcut : T.HasCut cut)
    (hroute : T.Route q Name.root cuts zone)
    (hzone : ancestorZones ls = [] ∧ zone = Name.root ∨ zone.same ⟨ls⟩ = true) :
    T.Route q Name.root (cuts ++ [cut]) cut.zone := by
  have hlen : cut.zone.labels.length = ls.length + 1 := Name.same_length hsame
  have hreached : zone.labels.length ≤ ls.length := by
    rcases hzone with ⟨_, rfl⟩ | hsame
    · exact Nat.zero_le _
    · exact Nat.le_of_eq (Name.same_length hsame)
  obtain ⟨front, hthere⟩ := hcut.route (properlyBelow_of_suffix hsuffix hsame)
  obtain ⟨tail, htail, hgap⟩ := Path.split Refers.unique Refers.climbs hroute hthere (by omega)
  cases hgap with
  | nil => omega
  | @cons _ _ c tail hs hend =>
    have habove : c.zone.zoneOf ⟨l :: ls⟩ = true := by
      rw [← Name.zoneOf_congr_right hsame]
      exact (Route.above hend).1
    have hdeep := no_cut_between hs habove hzone
    have hcount := Path.length_le Refers.climbs hend
    have hnil : tail = [] := length_eq_zero_iff.mp (by omega)
    subst hnil
    obtain ⟨rfl, _⟩ := append_inj' htail rfl
    exact hthere

/-- **Cached delegations are where the route begins.**  If delegations of the tree are known for all the
zones above some labels of the base name, they are the route of the question that far. -/
theorem route_of_cached (hsuffix : ls <:+ q.name.baseName.labels)
    (hall : List.Forall₂ (fun z cut => cut.zone.same z = true ∧ T.HasCut cut) (ancestorZones ls) cuts) :
    ∃ zone, T.Route q Name.root cuts.reverse zone ∧
      (ancestorZones ls = [] ∧ zone = Name.root ∨ zone.same ⟨ls⟩ = true) := by
  induction ls generalizing cuts with
  | nil =>
    cases hall
    exact ⟨Name.root, .nil _, Or.inl ⟨rfl, rfl⟩⟩
  | cons l ls ih =>
    by_cases hcount : 1 ≤ (Name.mk (l :: ls)).numLabels
    · rw [ancestorZones, if_pos hcount] at hall
      cases hall with
      | @cons _ cut _ rest hcut hrest =>
        obtain ⟨zone, hroute, hzone⟩ := ih ((suffix_cons ..).trans hsuffix) hrest
        refine ⟨cut.zone, ?_, Or.inr hcut.1⟩
        rw [reverse_cons]
        exact route_next hsuffix hcut.1 hcut.2 hroute hzone
    · rw [ancestorZones, if_neg hcount] at hall
      cases hall
      refine ⟨Name.root, .nil _, Or.inl ⟨?_, rfl⟩⟩
      rw [ancestorZones, if_neg hcount]

end Tree

end Dnsd.Recursor
