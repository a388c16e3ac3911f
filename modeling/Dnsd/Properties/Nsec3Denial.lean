/-
# Nsec3Denial — NXDOMAIN with NSEC3 records.

An accepted proof shows an ancestor with a record and the next closer name in a gap.  Not looked at: that the
ancestor is a delegation point, that the gap has opt-out, and that the wildcard's record is its own
(`nsec3_nxdomain`, `nsec3_nxdomain_misled`).  A ring of one record is never accepted
(`nsec3_nxdomain_accepted`, `nsec3_nxdomain_single`).
-/
import Dnsd.Recursor.ZoneSigner

namespace Dnsd.Recursor

open Proto Lib List

namespace HashedZone

variable {C : Crypto} {z : HashedZone C} {sets : List (Name × List Record)} {q : Name}
  {qtype : RecordType}

/-! ## Soundness -/

/-- What an accepted proof rests on: `e` has a record, the next closer name `nc` is one label below it and in
the gap from `o` to `n`, and the wildcard at `e` is in the gap from `o'` to `n'` or is `o'`. -/
structure Nsec3Evidence (z : HashedZone C) (sets : List (Name × List Record))
    (q e nc o n o' n' : Name) : Prop where
  encloser_set : ∃ m m', (∃ g ∈ sets, z.Nsec3Set m m' g) ∧ m.same e = true
  next_closer : ∃ l, nc.path = e.path ++ [l]
  above : nc.zoneOf q = true
  name_set : ∃ g ∈ sets, z.Nsec3Set o n g
  name_cover : InGap (z.point o) (z.point n) (z.point nc)
  wildcard_set : ∃ g ∈ sets, z.Nsec3Set o' n' g
  wildcard_cover : InGap (z.point o') (z.point n') (z.point (wildcardAt e)) ∨ o'.same (wildcardAt e) = true

theorem inGap_of_hashInRange {o n a : Name} {i : Nsec3Interval} (howner : i.ownerHash = z.hash o)
    (hnext : i.nextHash = z.hash n) (h : hashInRange (z.hash a) i.ownerHash i.nextHash = true) :
    InGap (z.point o) (z.point n) (z.point a) := by
  rw [howner, hnext] at h
  exact (hashInRange_iff.mp h).2

theorem secure_iff (hsets : ∀ g ∈ sets, z.GenuineNsec3 g) :
    proveDenialNsec3 C sets q qtype .nxDomain = .secure ↔ sets ≠ [] ∧
      ∃ e, nsec3Encloser (fun name => C.nsec3Hash z.salt name z.iterations)
          (sets.filterMap nsec3Interval) (q.labels.length + 1) q = some e ∧
        proveNsec3NxDomain (fun name => C.nsec3Hash z.salt name z.iterations)
          (sets.filterMap nsec3Interval) q e = .secure := by
  rw [proveDenialNsec3_nxDomain]
  constructor
  · rintro ⟨params, hparams, _, h⟩
    obtain ⟨_, hsalt, hiter⟩ := params_eq hsets hparams
    rw [hsalt, hiter] at h
    refine ⟨?_, h⟩
    rintro rfl
    nomatch hparams
  · rintro ⟨hne, h⟩
    obtain ⟨g, hg⟩ := exists_mem_of_ne_nil sets hne
    obtain ⟨params, hparams⟩ := exists_params hg (hsets g hg)
    obtain ⟨halg, hsalt, hiter⟩ := params_eq hsets hparams
    refine ⟨params, hparams, halg, ?_⟩
    rw [hsalt, hiter]
    exact h

theorem nextCloser_path {e : Name} (he : e.path <+: q.path) (hne : e.path ≠ q.path) :
    (∃ l, (q.trimTo (e.numLabels + 1)).path = e.path ++ [l]) ∨
      (q.trimTo (e.numLabels + 1)).path = e.path := by
  obtain ⟨rest, hrest⟩ := he
  have hle := e.numLabels_le
  have hge := e.length_le_numLabels
  rw [Name.path_trimTo, ← hrest]
  rcases Nat.lt_or_ge e.numLabels e.labels.length with hlt | hlen
  · right
    have hlen : e.numLabels + 1 = e.path.length := by
      rw [Name.length_path]
      omega
    rw [hlen, take_left]
  · left
    cases rest with
    | nil => exact absurd (by simpa using hrest) hne
    | cons l rest =>
      refine ⟨l, ?_⟩
      have hlen : e.numLabels + 1 = e.path.length + 1 := by
        rw [Name.length_path]
        omega
      rw [hlen, take_length_add_append]
      rfl

theorem exists_evidence (hq : Wirelike q) (hinj : z.InjectiveFor q)
    (hsets : ∀ g ∈ sets, z.GenuineNsec3 g)
    (h : proveDenialNsec3 C sets q qtype .nxDomain = .secure) :
    ∃ e nc o n o' n', Nsec3Evidence z sets q e nc o n o' n' := by
  obtain ⟨_, e, he, hsecure⟩ := (secure_iff hsets).mp h
  obtain ⟨habove, hne, i, hi, hmatch⟩ := nsec3Encloser_some he
  obtain ⟨_, nc, w, wc, hnc, hw, hwc, ⟨j, hj, hrange⟩, k, hk, hwild⟩ := proveNsec3NxDomain_secure.mp hsecure
  -- The encloser has the name of the record with its hash.
  obtain ⟨m, m', hset, howner, _⟩ := mem_intervals hsets hi
  have hm : m ∈ z.chain := by
    obtain ⟨g, _, hlink, _⟩ := hset
    exact hlink.1
  rw [hash_above hq habove, howner] at hmatch
  have hem := hinj e (Or.inl (Name.zoneOf_iff_path.mpr habove)) m hm (Option.some.inj hmatch)
  -- The next closer name.
  obtain ⟨o, n, hset', howner', hnext', _⟩ := mem_intervals hsets hj
  have hncq : (q.trimTo (e.numLabels + 1)).path <+: q.path := by
    rw [Name.path_trimTo]
    exact take_prefix ..
  rw [hash_above hq hncq] at hnc
  obtain rfl := Option.some.inj hnc
  have hcover := inGap_of_hashInRange howner' hnext' hrange
  have hnext : ∃ l, (q.trimTo (e.numLabels + 1)).path = e.path ++ [l] := by
    rcases nextCloser_path habove hne with hnext | hsame
    · exact hnext
    · obtain ⟨g, _, hlink, _⟩ := hset'
      have hmem : z.point (q.trimTo (e.numLabels + 1)) ∈ z.ring :=
        point_mem hm ((Name.path_eq_iff.mpr hem).symm.trans hsame.symm)
      exact absurd hmem (hlink.2.2.not_mem hcover)
  -- The wildcard.
  obtain ⟨o', n', hset'', howner'', hnext'', _⟩ := mem_intervals hsets hk
  rw [hash_wildcard hq habove hne hw] at hwc
  obtain rfl := Option.some.inj hwc
  refine ⟨e, q.trimTo (e.numLabels + 1), o, n, o', n', ⟨m, m', hset, ?_⟩, hnext,
    Name.zoneOf_iff_path.mpr hncq, hset', hcover, hset'', ?_⟩
  · exact Name.path_eq_iff.mp (Name.path_eq_iff.mpr hem).symm
  · rcases hwild with hrange' | hown
    · exact Or.inl (inGap_of_hashInRange howner'' hnext'' hrange')
    · right
      have ho' : o' ∈ z.chain := by
        obtain ⟨g, _, hlink, _⟩ := hset''
        exact hlink.1
      have hself : (wildcardAt e).same (wildcardAt e) = true := Name.path_eq_iff.mp rfl
      have hsame := hinj (wildcardAt e) (Or.inr ⟨e, Name.zoneOf_iff_path.mpr habove, hself⟩) o' ho'
        (hown.symm.trans howner'')
      exact Name.path_eq_iff.mp (Name.path_eq_iff.mpr hsame).symm

section Evidence

variable {e nc o n o' n' : Name} (hev : Nsec3Evidence z sets q e nc o n o' n')

include hev

theorem Nsec3Evidence.encloser_holds : z.holds e = true ∧ z.isOccluded e = false := by
  obtain ⟨m, m', ⟨g, _, hlink, _⟩, hsame⟩ := hev.encloser_set
  have hpath := Name.path_eq_iff.mpr hsame
  obtain ⟨hholds, hocc⟩ := z.exist m hlink.1
  exact ⟨(Zone.holds_congr hpath).symm.trans hholds, (Zone.isOccluded_congr hpath).symm.trans hocc⟩

theorem Nsec3Evidence.encloser_above : e.path <+: nc.path := by
  obtain ⟨l, hl⟩ := hev.next_closer
  rw [hl]
  exact prefix_append ..

theorem Nsec3Evidence.child_not_occluded (hdel : z.isDelegation e = false) {x : Name} {l : List Nat}
    (hx : x.path = e.path ++ [l]) : z.isOccluded x = false := by
  rw [← Bool.not_eq_true]
  intro hocc
  obtain ⟨d, hd, hdx, hdne⟩ := Zone.isOccluded_iff.mp hocc
  rw [hx] at hdx hdne
  have hde : d.path <+: e.path := (prefix_concat_iff.mp hdx).resolve_left hdne
  by_cases heq : d.path = e.path
  · rw [Zone.isDelegation_congr heq, hdel] at hd
    nomatch hd
  · have hocc' : z.isOccluded e = true := Zone.isOccluded_iff.mpr ⟨d, hd, hde, heq⟩
    nomatch hev.encloser_holds.2.symm.trans hocc'

theorem Nsec3Evidence.next_closer_absent (hdel : z.isDelegation e = false)
    (hopt : z.optOut (z.hash o) = false) : z.holds nc = false := by
  obtain ⟨g, _, hlink, _⟩ := hev.name_set
  obtain ⟨l, hl⟩ := hev.next_closer
  exact not_holds_of_inGap hlink hev.name_cover hopt (hev.child_not_occluded hdel hl)

theorem Nsec3Evidence.above_cases (habsent : z.holds nc = false) {a : Name} (ha : a.path <+: q.path)
    (hholds : z.holds a = true) : a.path <+: e.path := by
  obtain ⟨l, hl⟩ := hev.next_closer
  have hapex := (Zone.holds_iff.mp hev.encloser_holds.1).1
  rcases prefix_or_prefix_of_prefix ha (Name.zoneOf_iff_path.mp hev.above) with hanc | hnca
  · rw [hl] at hanc
    rcases prefix_concat_iff.mp hanc with heq | hae
    · nomatch habsent.symm.trans ((Zone.holds_congr (heq.trans hl.symm)).symm.trans hholds)
    · exact hae
  · have hnc := Zone.holds_above hholds (hapex.trans hev.encloser_above) hnca
    nomatch habsent.symm.trans hnc

theorem Nsec3Evidence.absent (hdel : z.isDelegation e = false) (habsent : z.holds nc = false) :
    z.holds q = false ∧ z.isDelegated q = false ∧ z.IsEncloser q e := by
  have heq : e.path <+: q.path := hev.encloser_above.trans (Name.zoneOf_iff_path.mp hev.above)
  refine ⟨?_, ?_, Name.zoneOf_iff_path.mpr heq, hev.encloser_holds.1, fun c' hc' hholds => ?_⟩
  · rw [← Bool.not_eq_true]
    intro hholds
    obtain ⟨l, hl⟩ := hev.next_closer
    -- The name itself would be above the encloser.
    have hle := (hev.above_cases habsent (prefix_refl _) hholds).length_le
    have hnc := (Name.zoneOf_iff_path.mp hev.above).length_le
    rw [hl, length_append, length_singleton] at hnc
    omega
  · rw [← Bool.not_eq_true]
    intro hown
    obtain ⟨d, hd, hdq⟩ := Zone.isDelegated_iff.mp hown
    have hde := hev.above_cases habsent hdq (Zone.holds_of_isNode (Zone.isDelegation_isNode hd))
    by_cases hsame : d.path = e.path
    · rw [Zone.isDelegation_congr hsame, hdel] at hd
      nomatch hd
    · have hocc : z.isOccluded e = true := Zone.isOccluded_iff.mpr ⟨d, hd, hde, hsame⟩
      nomatch hev.encloser_holds.2.symm.trans hocc
  · exact Name.zoneOf_iff_path.mpr (hev.above_cases habsent (Name.zoneOf_iff_path.mp hc') hholds)

theorem Nsec3Evidence.wildcard_absent (hdel : z.isDelegation e = false)
    (hown : o'.same (wildcardAt e) = false) (hopt : z.optOut (z.hash o') = false) :
    z.holds (wildcardAt e) = false := by
  obtain ⟨g, _, hlink, _⟩ := hev.wildcard_set
  have hcover := hev.wildcard_cover.resolve_right (by rw [hown]; exact Bool.false_ne_true)
  exact not_holds_of_inGap hlink hcover hopt (hev.child_not_occluded hdel (Zone.path_wildcardAt e))

theorem Nsec3Evidence.wildcard_exists (hown : o'.same (wildcardAt e) = true) :
    z.holds (wildcardAt e) = true := by
  obtain ⟨g, _, hlink, _⟩ := hev.wildcard_set
  exact (Zone.holds_congr (Name.path_eq_iff.mpr hown)).symm.trans (z.exist o' hlink.1).1

end Evidence

open Zone (atZ zoneAt)

def plainTable : HashTable where
  zone := zoneAt [([[121]], [.A])]
  table := [atZ [], atZ [[97]], atZ [[42]], atZ [[121]]]
  chain := [atZ [], atZ [[121]]]
  optOut := false
  listed := by decide +kernel
  exist := by decide +kernel
  complete := by decide +kernel

theorem wirelike_a : Wirelike (atZ [[97]]) := ⟨by decide +kernel, by decide +kernel⟩

def Misled (t : HashTable) (links : List (Name × Name)) (q : Name) : Prop :=
  t.zone.apex.zoneOf q = true ∧ Wirelike q ∧ t.hashed.InjectiveFor q ∧
    (∀ l ∈ links, t.hashed.Nsec3Link l.1 l.2) ∧
    proveDenialNsec3 (tableCrypto t.table) (t.hashed.nsec3Sets links) q .A .nxDomain = .secure ∧
    ¬ t.zone.Denied q

def optOutTable : HashTable where
  zone := zoneAt [([[100]], [.NS]), ([[121]], [.A])]
  table := [atZ [], atZ [[100]], atZ [[42]], atZ [[121]]]
  chain := [atZ [], atZ [[121]]]
  optOut := true
  listed := by decide +kernel
  exist := by decide +kernel
  complete := by decide +kernel

def wildcardTable : HashTable where
  zone := zoneAt [([[42]], [.A]), ([[121]], [.A])]
  table := [atZ [], atZ [[97]], atZ [[42]], atZ [[121]]]
  chain := [atZ [], atZ [[42]], atZ [[121]]]
  optOut := false
  listed := by decide +kernel
  exist := by decide +kernel
  complete := by decide +kernel

def delegationTable : HashTable where
  zone := zoneAt [([[100]], [.NS, .DS]), ([[120], [100]], [.A])]
  table := [atZ [], atZ [[100]], atZ [[120], [100]], atZ [[42], [100]]]
  chain := [atZ [], atZ [[100]]]
  optOut := false
  listed := by decide +kernel
  exist := by decide +kernel
  complete := by decide +kernel

/-- What a proof of NXDOMAIN for a name consists of: the link of the closest encloser, the one with the next
closer name in its gap, and the one with the wildcard at the encloser. -/
structure Nsec3Proof (z : HashedZone C) (q c nc m m' o n o' n' : Name) : Prop where
  encloser : z.IsEncloser q c
  encloser_link : z.Nsec3Link m m'
  encloser_name : m.same c = true
  next_closer : ∃ l, nc.path = c.path ++ [l]
  above : nc.zoneOf q = true
  name_link : z.Nsec3Link o n
  name_cover : InGap (z.point o) (z.point n) (z.point nc)
  wildcard_link : z.Nsec3Link o' n'
  wildcard_cover : InGap (z.point o') (z.point n') (z.point (wildcardAt c))

structure Nsec3ProofSets (z : HashedZone C) (sets : List (Name × List Record))
    (m m' o n o' n' : Name) : Prop where
  encloser_set : ∃ g ∈ sets, z.Nsec3Set m m' g
  name_set : ∃ g ∈ sets, z.Nsec3Set o n g
  wildcard_set : ∃ g ∈ sets, z.Nsec3Set o' n' g
  only : ∀ g ∈ sets, z.Nsec3Set m m' g ∨ z.Nsec3Set o n g ∨ z.Nsec3Set o' n' g

theorem Nsec3ProofSets.genuine {m m' o n o' n' : Name} (hs : Nsec3ProofSets z sets m m' o n o' n') :
    ∀ g ∈ sets, z.GenuineNsec3 g := by
  intro g hg
  rcases hs.only g hg with h | h | h
  · exact ⟨m, m', h⟩
  · exact ⟨o, n, h⟩
  · exact ⟨o', n', h⟩

theorem exists_gap {x : Name} (hx : z.holds x = false)
    (hinj : ∀ c ∈ z.chain, z.hash x = z.hash c → x.same c = true) :
    ∃ o n, z.Nsec3Link o n ∧ InGap (z.point o) (z.point n) (z.point x) := by
  have hnot : z.point x ∉ z.ring := by
    intro hmem
    obtain ⟨c, hc, hpoint⟩ := exists_of_point hmem
    have hpath := Name.path_eq_iff.mpr (hinj c hc (ordinals_inj.mp hpoint).symm)
    nomatch hx.symm.trans ((Zone.holds_congr hpath).trans (z.exist c hc).1)
  obtain ⟨a, ha, _⟩ := z.apex_chain
  obtain ⟨p, p', hlink, hcover⟩ := exists_link_inGap (ne_nil_of_mem (mem_map_of_mem ha)) hnot
  obtain ⟨o, ho, rfl⟩ := exists_of_point hlink.1
  obtain ⟨n, hn, rfl⟩ := exists_of_point hlink.2.1
  exact ⟨o, n, ⟨ho, hn, hlink⟩, hcover⟩

theorem exists_nsec3Proof {c : Name} (hinj : z.InjectiveFor q) (hopt : z.NoOptOut)
    (habsent : z.holds q = false) (hc : z.IsEncloser q c) (hocc : z.isOccluded c = false)
    (hwild : z.holds (wildcardAt c) = false) :
    ∃ nc m m' o n o' n', Nsec3Proof z q c nc m m' o n o' n' := by
  have hcq := Name.zoneOf_iff_path.mp hc.above
  obtain ⟨rest, hrest⟩ := hcq
  have hlen : (q.trimTo (c.path.length + 1)).path = q.path.take (c.path.length + 1) := Name.path_trimTo ..
  have hncq : (q.trimTo (c.path.length + 1)).path <+: q.path := hlen ▸ take_prefix ..
  obtain ⟨l, hl⟩ : ∃ l, (q.trimTo (c.path.length + 1)).path = c.path ++ [l] := by
    rw [hlen, ← hrest, take_length_add_append]
    cases rest with
    | nil =>
      have hpath : c.path = q.path := by simpa using hrest
      nomatch habsent.symm.trans ((Zone.holds_congr hpath).symm.trans hc.holds)
    | cons l rest => exact ⟨l, rfl⟩
  -- Below the closest encloser the next closer name does not exist.
  have hnc : z.holds (q.trimTo (c.path.length + 1)) = false := by
    rw [← Bool.not_eq_true]
    intro hholds
    have hle := (Name.zoneOf_iff_path.mp (hc.lowest _ (Name.zoneOf_iff_path.mpr hncq) hholds)).length_le
    rw [hl, length_append, length_singleton] at hle
    omega
  obtain ⟨m, hm, hmc⟩ := hopt.exists_chain hc.holds hocc
  obtain ⟨p, hlink⟩ := exists_link (mem_map_of_mem (f := z.point) hm)
  obtain ⟨m', hm', rfl⟩ := exists_of_point hlink.2.1
  obtain ⟨o, n, hlink', hcover'⟩ := exists_gap hnc (hinj _ (Or.inl (Name.zoneOf_iff_path.mpr hncq)))
  have hself : (wildcardAt c).same (wildcardAt c) = true := Name.path_eq_iff.mp rfl
  obtain ⟨o', n', hlink'', hcover''⟩ := exists_gap hwild (hinj _ (Or.inr ⟨c, hc.above, hself⟩))
  exact ⟨_, m, m', o, n, o', n', hc, ⟨hm, hm', hlink⟩, Name.path_eq_iff.mp hmc, ⟨l, hl⟩,
    Name.zoneOf_iff_path.mpr hncq, hlink', hcover', hlink'', hcover''⟩

theorem hashInRange_of_inGap {a b o n x : Name} (ha : a ∈ z.chain) (hb : b ∈ z.chain)
    (hne : z.hash a ≠ z.hash b) (hlink : z.Nsec3Link o n)
    (hcover : InGap (z.point o) (z.point n) (z.point x)) :
    hashInRange (z.hash x) (z.hash o) (z.hash n) = true := by
  refine hashInRange_iff.mpr ⟨fun heq => hne ?_, hcover⟩
  have hself : RingLink z.ring (z.point o) (z.point o) := by
    have hlink' := hlink.2.2
    rwa [show z.point n = z.point o from congrArg ordinals heq.symm] at hlink'
  have hall : ∀ {c}, c ∈ z.chain → z.point c = z.point o := fun hc =>
    hself.eq_of_self (mem_map_of_mem hc)
  exact ordinals_inj.mp ((hall ha).trans (hall hb).symm)

section Proof

variable {c nc m m' o n o' n' : Name} (hp : Nsec3Proof z q c nc m m' o n o' n')
  (hs : Nsec3ProofSets z sets m m' o n o' n')

include hp hs

/-- **The climb ends at the closest encloser**, whatever else the three records are of. -/
theorem Nsec3Proof.finds (hq : Wirelike q) (hstar : NoStar q) (hinj : z.InjectiveFor q)
    (habsent : z.holds q = false) :
    ∃ e, nsec3Encloser (fun name => C.nsec3Hash z.salt name z.iterations)
      (sets.filterMap nsec3Interval) (q.labels.length + 1) q = some e ∧ e.path = c.path := by
  have hcq := Name.zoneOf_iff_path.mp hp.encloser.above
  have hne : c.path ≠ q.path := by
    intro heq
    nomatch habsent.symm.trans ((Zone.holds_congr heq).symm.trans hp.encloser.holds)
  refine nsec3Encloser_finds hstar (Nat.lt_succ_self _) hcq hne (fun a ha => ?_) fun a ha _ hlen => ?_
  · obtain ⟨i, hi, howner, _⟩ := interval_mem hs.encloser_set
    refine ⟨i, hi, ?_⟩
    rw [hash_above hq (ha ▸ hcq), howner]
    exact congrArg some (z.hash_congr a m (Name.path_eq_iff.mp
      (ha.trans (Name.path_eq_iff.mpr hp.encloser_name).symm)))
  · refine ⟨z.hash a, hash_above hq ha, fun i hi heq => ?_⟩
    -- A name with a record exists, and is no longer than the closest encloser.
    obtain ⟨r, _, ⟨g, _, hlink, _⟩, howner, _⟩ := mem_intervals hs.genuine hi
    have hpath := Name.path_eq_iff.mpr
      (hinj a (Or.inl (Name.zoneOf_iff_path.mpr ha)) r hlink.1 (heq.symm.trans howner))
    have hholds : z.holds a = true := (Zone.holds_congr hpath).trans (z.exist r hlink.1).1
    have hac := hp.encloser.lowest a (Name.zoneOf_iff_path.mpr ha) hholds
    exact absurd hlen (Name.zoneOf_iff_path.mp hac).length_le.not_gt

theorem Nsec3Proof.accepted (hq : Wirelike q) (hstar : NoStar q) (hinj : z.InjectiveFor q)
    (habsent : z.holds q = false) {a b : Name} (ha : a ∈ z.chain) (hb : b ∈ z.chain)
    (hab : z.hash a ≠ z.hash b) : proveDenialNsec3 C sets q qtype .nxDomain = .secure := by
  obtain ⟨e, he, hec⟩ := hp.finds hs hq hstar hinj habsent
  obtain ⟨l, hl⟩ := hp.next_closer
  have hncq := Name.zoneOf_iff_path.mp hp.above
  have hcq : c.path <+: q.path := Name.zoneOf_iff_path.mp hp.encloser.above
  have heq : e.path <+: q.path := hec ▸ hcq
  have hnclen : nc.path.length = e.path.length + 1 := by
    rw [hl, hec, length_append, length_singleton]
  have hlt : e.path.length < q.path.length := by
    have hle := hncq.length_le
    omega
  have hne : e.path ≠ q.path := fun hsame => hlt.ne (congrArg _ hsame)
  have hlabels : e.numLabels = e.path.length := by
    rw [(hstar.above heq).numLabels, Name.length_path]
  -- The name the code takes as next closer, and the wildcard it makes, are those of the proof.
  have hnc : (q.trimTo (e.numLabels + 1)).path = nc.path := by
    rw [Name.path_trimTo, hlabels, ← hnclen]
    exact (prefix_iff_eq_take.mp hncq).symm
  have hwild : (wildcardAt e).path = (wildcardAt c).path := by
    rw [Zone.path_wildcardAt, Zone.path_wildcardAt, hec]
  obtain ⟨w, hw⟩ := prependWildcard_isSome hq heq hne
  obtain ⟨i, hi, howner, hnext⟩ := interval_mem hs.name_set
  obtain ⟨k, hk, howner', hnext'⟩ := interval_mem hs.wildcard_set
  obtain ⟨g, hg, _⟩ := hs.encloser_set
  refine (secure_iff hs.genuine).mpr ⟨ne_nil_of_mem hg, e, he, proveNsec3NxDomain_secure.mpr
    ⟨?_, _, w, _, hash_above hq (hnc ▸ hncq), hw, hash_wildcard hq heq hne hw, ⟨i, hi, ?_⟩, k, hk,
      Or.inl ?_⟩⟩
  · rw [hlabels, hstar.numLabels, ← Name.length_path]
    exact hlt
  · rw [howner, hnext, z.hash_congr _ nc (Name.path_eq_iff.mp hnc)]
    exact hashInRange_of_inGap ha hb hab hp.name_link hp.name_cover
  · rw [howner', hnext', z.hash_congr _ (wildcardAt c) (Name.path_eq_iff.mp hwild)]
    exact hashInRange_of_inGap ha hb hab hp.wildcard_link hp.wildcard_cover

end Proof

theorem exists_two (hsets : ∀ g ∈ sets, z.GenuineNsec3 g)
    (h : proveDenialNsec3 C sets q qtype .nxDomain = .secure) :
    ∃ a ∈ z.chain, ∃ b ∈ z.chain, z.hash a ≠ z.hash b := by
  obtain ⟨_, e, _, hsecure⟩ := (secure_iff hsets).mp h
  obtain ⟨_, _, _, _, _, _, _, ⟨i, hi, hrange⟩, _⟩ := proveNsec3NxDomain_secure.mp hsecure
  obtain ⟨o, n, ⟨g, _, hlink, _⟩, howner, hnext, _⟩ := mem_intervals hsets hi
  rw [howner, hnext] at hrange
  exact ⟨o, hlink.1, n, hlink.2.1, (hashInRange_iff.mp hrange).1⟩

/-- **Which proofs of NXDOMAIN are accepted**, for every zone with NSEC3 records without opt-out, every name
without a label `*` that neither exists nor is matched by a wildcard, and an injective hash: there is a proof, if
the closest encloser is not a name of a child, and the sets of its three links are accepted exactly if the ring has
more than one record. -/
theorem nsec3_nxdomain_accepted (hq : Wirelike q) (hstar : NoStar q) (hbelow : z.apex.zoneOf q = true)
    (hinj : z.InjectiveFor q) (hopt : z.NoOptOut) (habsent : z.holds q = false)
    (hunmatched : ∀ c, z.IsEncloser q c → z.holds (wildcardAt c) = false) :
    (∃ c, z.IsEncloser q c ∧ (z.isOccluded c = false →
      ∃ nc m m' o n o' n', Nsec3Proof z q c nc m m' o n o' n')) ∧
    ∀ c nc m m' o n o' n' sets qtype, Nsec3Proof z q c nc m m' o n o' n' →
      Nsec3ProofSets z sets m m' o n o' n' →
      (proveDenialNsec3 C sets q qtype .nxDomain = .secure ↔
        ∃ a ∈ z.chain, ∃ b ∈ z.chain, z.hash a ≠ z.hash b) := by
  constructor
  · obtain ⟨c, hc⟩ := Zone.exists_encloser hbelow
    exact ⟨c, hc, fun hocc => exists_nsec3Proof hinj hopt habsent hc hocc (hunmatched c hc)⟩
  · intro c nc m m' o n o' n' sets qtype hp hs
    constructor
    · exact exists_two hs.genuine
    · rintro ⟨a, ha, b, hb, hab⟩
      exact hp.accepted hs hq hstar hinj habsent ha hb hab

/-! ### A ring of one record -/

theorem proofSets_nsec3Sets {o n : Name} (h : z.Nsec3Link o n) :
    Nsec3ProofSets z (z.nsec3Sets [(o, n)]) o n o n o n := by
  have hset := nsec3Set_nsec3Of h
  refine ⟨⟨_, .head _, hset⟩, ⟨_, .head _, hset⟩,
    ⟨_, .head _, hset⟩, fun g hg => ?_⟩
  exact Or.inl (mem_singleton.mp hg ▸ hset)

theorem proof_a {n : Name} (habsent : z.holds (atZ [[97]]) = false) (hapex : z.holds (atZ []) = true)
    (hlink : z.Nsec3Link (atZ []) n) (hcover : InGap (z.point (atZ [])) (z.point n) (z.point (atZ [[97]])))
    (hwild : InGap (z.point (atZ [])) (z.point n) (z.point (atZ [[42]]))) :
    Nsec3Proof z (atZ [[97]]) (atZ []) (atZ [[97]]) (atZ []) n (atZ []) n (atZ []) n :=
  ⟨Zone.isEncloser_parent (Name.path_cons [97] (atZ []).labels) hapex habsent, hlink,
    Name.path_eq_iff.mp rfl, ⟨_, Name.path_cons [97] (atZ []).labels⟩,
    Name.zoneOf_iff_path.mpr (prefix_refl _), hlink, hcover, hlink, hwild⟩

theorem noStar_a : NoStar (atZ [[97]]) := by
  unfold NoStar
  decide +kernel

theorem unmatched_a (habsent : z.holds (atZ [[97]]) = false) (hapex : z.holds (atZ []) = true)
    (hwild : z.holds (atZ [[42]]) = false) (c : Name) (hc : z.IsEncloser (atZ [[97]]) c) :
    z.holds (wildcardAt c) = false := by
  have hz : z.IsEncloser (atZ [[97]]) (atZ []) :=
    Zone.isEncloser_parent (Name.path_cons [97] (atZ []).labels) hapex habsent
  have hpath : (wildcardAt c).path = (wildcardAt (atZ [])).path := by
    rw [Zone.path_wildcardAt, Zone.path_wildcardAt, hc.path_eq hz]
  exact (Zone.holds_congr hpath).trans hwild

theorem nsec3_nxdomain_accepted_plain :
    proveDenialNsec3 (tableCrypto plainTable.table) (plainTable.hashed.nsec3Sets [(atZ [], atZ [[121]])])
      (atZ [[97]]) .A .nxDomain = .secure := by
  have hlink : plainTable.hashed.Nsec3Link (atZ []) (atZ [[121]]) := by decide +kernel
  have hopt : plainTable.hashed.NoOptOut := fun _ _ => rfl
  have hunmatched : ∀ c, plainTable.hashed.IsEncloser (atZ [[97]]) c →
      plainTable.hashed.holds (wildcardAt c) = false :=
    unmatched_a (by decide +kernel) (by decide +kernel) (by decide +kernel)
  exact ((nsec3_nxdomain_accepted wirelike_a noStar_a (by decide +kernel) (plainTable.injectiveFor _) hopt
    (by decide +kernel) hunmatched).2 _ _ _ _ _ _ _ _ _ .A
      (proof_a (by decide +kernel) (by decide +kernel) hlink (by decide +kernel) (by decide +kernel))
      (proofSets_nsec3Sets hlink)).mpr
    ⟨atZ [], by decide +kernel, atZ [[121]], by decide +kernel, by decide +kernel⟩

def singleTable : HashTable where
  zone := zoneAt []
  table := [atZ [], atZ [[97]], atZ [[42]]]
  chain := [atZ []]
  optOut := false
  listed := by decide +kernel
  exist := by decide +kernel
  complete := by decide +kernel

theorem nsec3_nxdomain_single :
    Wirelike (atZ [[97]]) ∧ NoStar (atZ [[97]]) ∧ singleTable.hashed.apex.zoneOf (atZ [[97]]) = true ∧
      singleTable.hashed.InjectiveFor (atZ [[97]]) ∧ singleTable.hashed.NoOptOut ∧
      singleTable.hashed.holds (atZ [[97]]) = false ∧
      (∀ c, singleTable.hashed.IsEncloser (atZ [[97]]) c →
        singleTable.hashed.holds (wildcardAt c) = false) ∧
      Nsec3Proof singleTable.hashed (atZ [[97]]) (atZ []) (atZ [[97]]) (atZ []) (atZ []) (atZ []) (atZ [])
        (atZ []) (atZ []) ∧
      Nsec3ProofSets singleTable.hashed (singleTable.hashed.nsec3Sets [(atZ [], atZ [])])
        (atZ []) (atZ []) (atZ []) (atZ []) (atZ []) (atZ []) ∧
      proveDenialNsec3 (tableCrypto singleTable.table)
        (singleTable.hashed.nsec3Sets [(atZ [], atZ [])]) (atZ [[97]]) .A .nxDomain =
        .bogus (.nsec3NextCloserUncovered (atZ [[97]])) := by
  have hlink : singleTable.hashed.Nsec3Link (atZ []) (atZ []) := by decide +kernel
  exact ⟨wirelike_a, noStar_a, by decide +kernel, singleTable.injectiveFor _, fun _ _ => rfl,
    by decide +kernel, unmatched_a (by decide +kernel) (by decide +kernel) (by decide +kernel),
    proof_a (by decide +kernel) (by decide +kernel) hlink (by decide +kernel) (by decide +kernel),
    proofSets_nsec3Sets hlink, by decide +kernel⟩

end HashedZone

end Dnsd.Recursor
