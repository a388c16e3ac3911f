/-
# NodataDenial — NODATA with NSEC or NSEC3 records.

An accepted NODATA shows the record of the name itself without the type.  That is NODATA only if the name is not
an alias and not a delegation point; the code looks at neither bit (`nodata`, `nodata_misled`).
-/
import Dnsd.Recursor.ZoneSigner

namespace Dnsd.Recursor

open Proto Lib List

namespace Zone

variable {z : Zone} {q : Name} {qtype : RecordType}

/-- What a proof of NODATA is for: the name exists with data of the zone itself, which at a delegation point
is the DS set only, and has neither the type nor a CNAME. -/
structure NoData (z : Zone) (q : Name) (qtype : RecordType) : Prop where
  exist : z.holds q = true
  visible : z.isOccluded q = false
  authoritative : z.isDelegation q = true → qtype = .DS
  absent : z.has q qtype = false
  unaliased : z.has q .CNAME = false

structure Unlisted (z : Zone) (q : Name) (qtype : RecordType) : Prop where
  exist : z.holds q = true
  visible : z.isOccluded q = false
  absent : (z.isDelegation q = true → qtype = .DS) → z.has q qtype = false

theorem Unlisted.noData_iff (h : z.Unlisted q qtype) :
    z.NoData q qtype ↔ z.has q .CNAME = false ∧ (z.isDelegation q = true → qtype = .DS) :=
  ⟨fun hn => ⟨hn.unaliased, hn.authoritative⟩,
    fun ⟨hcname, hds⟩ => ⟨h.exist, h.visible, hds, h.absent hds, hcname⟩⟩

/-! ## NSEC -/

theorem nsecBit_absent (h : z.nsecBit q qtype = false) (hds : z.isDelegation q = true → qtype = .DS) :
    z.has q qtype = false := by
  unfold nsecBit at h
  split at h
  · rename_i hdel
    obtain rfl := hds hdel
    simp only [Bool.or_eq_false_iff, beq_self_eq_true, Bool.true_and] at h
    exact h.2.2
  · simp only [Bool.or_eq_false_iff] at h
    exact h.2

theorem nsecBit_congr {a b : Name} (h : a.path = b.path) (t : RecordType) :
    z.nsecBit a t = z.nsecBit b t := by
  simp only [nsecBit, isDelegation_congr h, has_congr h]

theorem unlisted_of_nsec {sets : List (Name × List Record)} (hsets : ∀ g ∈ sets, z.GenuineNsec g)
    (h : proveDenialNsec sets q qtype .noError = .secure) : z.Unlisted q qtype := by
  obtain ⟨g, hg, hsame, nsec, hnsec, hnot⟩ := proveDenialNsec_noError h
  obtain ⟨o, n, hlink, hown, nsec', hnsec', _, hbits⟩ := hsets g hg
  rw [hnsec] at hnsec'
  obtain rfl := Option.some.inj hnsec'
  have hpath : o.path = q.path := (Name.path_eq_iff.mpr hown).symm.trans (Name.path_eq_iff.mpr hsame)
  have hmem : q.path ∈ z.names.map Name.path := hpath ▸ hlink.1
  obtain ⟨hnode, hocc⟩ := mem_names.mp hmem
  refine ⟨holds_of_isNode hnode, hocc, nsecBit_absent ?_⟩
  rw [← nsecBit_congr hpath, ← Bool.not_eq_true, ← hbits]
  exact hnot

end Zone

/-! ## NSEC3 -/

namespace HashedZone

variable {C : Crypto} {z : HashedZone C} {q : Name} {qtype : RecordType}

theorem nsec3Bit_absent (h : z.nsec3Bit q qtype = false) (hds : z.isDelegation q = true → qtype = .DS) :
    z.has q qtype = false := by
  unfold nsec3Bit at h
  split at h
  · rename_i hdel
    obtain rfl := hds hdel
    simp only [Bool.or_eq_false_iff, beq_self_eq_true, Bool.true_or, Bool.and_true] at h
    exact h.2
  · simp only [Bool.or_eq_false_iff] at h
    exact h.1

theorem nsec3Bit_congr {a b : Name} (h : a.path = b.path) (t : RecordType) :
    z.nsec3Bit a t = z.nsec3Bit b t := by
  have hnode : z.isNode a = z.isNode b := by
    rw [Bool.eq_iff_iff, Zone.isNode_iff, Zone.isNode_iff, h]
  simp only [nsec3Bit, Zone.isDelegation_congr h, Zone.has_congr h, hnode]

theorem unlisted_of_nsec3 {sets : List (Name × List Record)} (hq : Wirelike q) (hinj : z.InjectiveFor q)
    (hsets : ∀ g ∈ sets, z.GenuineNsec3 g) (h : proveDenialNsec3 C sets q qtype .noError = .secure) :
    z.Unlisted q qtype := by
  obtain ⟨params, hparams, i, hi, hhash, hnot⟩ := proveDenialNsec3_noError h
  obtain ⟨_, hsalt, hiter⟩ := params_eq hsets hparams
  obtain ⟨o, n, ⟨g, _, hlink, _⟩, howner, _, hbits⟩ := mem_intervals hsets hi
  rw [hsalt, hiter, hash_above hq (prefix_refl _), howner] at hhash
  -- The record is that of the name, not of another with its hash.
  have hself : q.zoneOf q = true := Name.zoneOf_iff_path.mpr (prefix_refl _)
  have hpath : q.path = o.path :=
    Name.path_eq_iff.mpr (hinj q (Or.inl hself) o hlink.1 (Option.some.inj hhash))
  obtain ⟨hholds, hocc⟩ := z.exist o hlink.1
  refine ⟨(Zone.holds_congr hpath).trans hholds, (Zone.isOccluded_congr hpath).trans hocc, nsec3Bit_absent ?_⟩
  rw [nsec3Bit_congr hpath, ← Bool.not_eq_true, ← hbits]
  exact hnot

end HashedZone

/-! ## The denial check -/

section Check

variable {C : Crypto} {z : Zone} {q : Name} {qtype : RecordType} {now : UInt32} {resp : Message}
  {chain : ChainKeys}

theorem headNsec_cons (r : Record) (rs : List Record) : headNsec (r :: rs) = headNsec [r] := by
  obtain ⟨_, _, _, data⟩ := r
  cases data <;> rfl

theorem headNsec3_cons (r : Record) (rs : List Record) : headNsec3 (r :: rs) = headNsec3 [r] := by
  obtain ⟨_, _, _, data⟩ := r
  cases data <;> rfl

theorem authoritySets_head {kind : Record → Bool} {rs : List Record} {g : Name × List Record}
    (h : g ∈ authoritySets kind rs) :
    ∃ r ∈ rs, kind r = true ∧ g.1 = r.name ∧ ∃ rest, g.2 = r :: rest := by
  have hgroup := mem_collect (fun _ => Std.ReflCmp.compare_self) h
  obtain ⟨r, rest, hrest, hname⟩ := hgroup.opened
  obtain ⟨hr, hkind⟩ := mem_filter.mp (hgroup.mem r (hrest ▸ .head _)).1
  exact ⟨r, hr, hkind, hname.symm, rest, hrest⟩

/-- The NSEC records, or the NSEC3 records, of the section are records of the zone. -/
def GenuineDenial (C : Crypto) (z : Zone) (q : Name) (rs : List Record) : Prop :=
  ((∀ r ∈ rs, isNsec3 r = false) ∧ ∀ r ∈ rs, isNsec r = true → z.GenuineNsec (r.name, [r])) ∨
    ∃ hz : HashedZone C, hz.toZone = z ∧ hz.InjectiveFor q ∧ (∃ r ∈ rs, isNsec3 r = true) ∧
      ∀ r ∈ rs, isNsec3 r = true → hz.GenuineNsec3 (r.name, [r])

theorem genuineNsec_sets (h : ∀ r ∈ resp.authorities, isNsec r = true → z.GenuineNsec (r.name, [r])) :
    ∀ g ∈ authoritySets isNsec resp.authorities, z.GenuineNsec g := by
  intro g hg
  obtain ⟨r, hr, hkind, hname, rest, hrest⟩ := authoritySets_head hg
  obtain ⟨o, n, hlink, hown, hnsec⟩ := h r hr hkind
  refine ⟨o, n, hlink, hname ▸ hown, ?_⟩
  rw [hrest, headNsec_cons]
  exact hnsec

theorem genuineNsec3_sets {hz : HashedZone C}
    (h : ∀ r ∈ resp.authorities, isNsec3 r = true → hz.GenuineNsec3 (r.name, [r])) :
    ∀ g ∈ authoritySets isNsec3 resp.authorities, hz.GenuineNsec3 g := by
  intro g hg
  obtain ⟨r, hr, hkind, hname, rest, hrest⟩ := authoritySets_head hg
  obtain ⟨o, n, hlink, hown, hnsec3⟩ := h r hr hkind
  refine ⟨o, n, hlink, hname ▸ hown, ?_⟩
  rw [hrest, headNsec3_cons]
  exact hnsec3

theorem validateDenial_proof (h : validateDenial C now resp chain q qtype = .secure) :
    (authoritySets isNsec3 resp.authorities = [] ∧
      proveDenialNsec (authoritySets isNsec resp.authorities) q qtype resp.responseCode = .secure) ∨
    (authoritySets isNsec3 resp.authorities ≠ [] ∧
      proveDenialNsec3 C (authoritySets isNsec3 resp.authorities) q qtype resp.responseCode = .secure) := by
  unfold validateDenial at h
  dsimp only at h
  split at h
  · nomatch h
  split at h
  · nomatch h
  · split at h
    · nomatch h
    · split at h
      · rename_i hnil
        exact Or.inl ⟨isEmpty_iff.mp hnil, h⟩
      · rename_i hnil
        exact Or.inr ⟨fun heq => hnil (isEmpty_iff.mpr heq), h⟩

theorem authoritySets_eq_nil {kind : Record → Bool} {rs : List Record} :
    authoritySets kind rs = [] ↔ ∀ r ∈ rs, kind r = false := by
  rw [authoritySets, collect_eq_nil_iff, filter_eq_nil_iff]
  simp

/-- **What NODATA is worth**, for every zone with NSEC or NSEC3 records and any of them in the authority section:
if the denial check ends with Secure without an error code, the name exists and is not below a delegation point;
and it is NODATA exactly if it has no CNAME and, at a delegation point, the type is DS. -/
theorem nodata (hq : Wirelike q) (hgenuine : GenuineDenial C z q resp.authorities)
    (hcode : resp.responseCode = .noError) (h : validateDenial C now resp chain q qtype = .secure) :
    z.holds q = true ∧ z.isOccluded q = false ∧
      (z.NoData q qtype ↔ z.has q .CNAME = false ∧ (z.isDelegation q = true → qtype = .DS)) := by
  suffices hu : z.Unlisted q qtype from ⟨hu.exist, hu.visible, hu.noData_iff⟩
  have hproof := validateDenial_proof h
  rw [hcode] at hproof
  rcases hgenuine with ⟨hnone, hrecords⟩ | ⟨hz, rfl, hinj, ⟨r, hr, hkind⟩, hrecords⟩
  · rcases hproof with ⟨_, hproof⟩ | ⟨hne, _⟩
    · exact Zone.unlisted_of_nsec (genuineNsec_sets hrecords) hproof
    · exact absurd (authoritySets_eq_nil.mpr hnone) hne
  · rcases hproof with ⟨hnil, _⟩ | ⟨_, hproof⟩
    · nomatch (authoritySets_eq_nil.mp hnil r hr).symm.trans hkind
    · exact HashedZone.unlisted_of_nsec3 hq hinj (genuineNsec3_sets hrecords) hproof

/-! ### Replies -/

open Zone (atZ zoneAt)

def nodataReply (z : Zone) (o n : Name) : Message where
  authorities := (z.nsecOf o n).2 ++ [sampleRecord o (.rrsig (sampleSig childZone .NSEC))]

def zoneKeys : ChainKeys := [(childZone, [sampleKey 2])]

theorem genuine_nodataReply {o n : Name} (h : z.NsecLink o n) :
    GenuineDenial C z q (nodataReply z o n).authorities := by
  refine Or.inl ⟨?_, ?_⟩
  · intro r hr
    rcases mem_cons.mp hr with rfl | hr
    · rfl
    · rw [mem_singleton.mp hr]
      rfl
  · intro r hr hkind
    rcases mem_cons.mp hr with rfl | hr
    · exact ⟨o, n, Zone.nsecSet_nsecOf h⟩
    · rw [mem_singleton.mp hr] at hkind
      nomatch hkind

def addressZone : Zone := zoneAt [([[97]], [.A])]

theorem nodata_address : addressZone.NoData (atZ [[97]]) .AAAA := by
  have hsecure : validateDenial (listCrypto [sampleKey 2]) 0 (nodataReply addressZone (atZ [[97]]) (atZ []))
      zoneKeys (atZ [[97]]) .AAAA = .secure := by decide +kernel
  obtain ⟨_, _, hiff⟩ :=
    nodata ⟨by decide +kernel, by decide +kernel⟩ (genuine_nodataReply (by decide +kernel)) rfl hsecure
  exact hiff.mpr ⟨by decide +kernel, by decide +kernel⟩

def aliasZone : Zone := zoneAt [([[97]], [.CNAME])]

def cutZone : Zone := zoneAt [([[97]], [.NS, .DS])]

theorem nodata_misled :
    (GenuineDenial (listCrypto [sampleKey 2]) aliasZone (atZ [[97]])
        (nodataReply aliasZone (atZ [[97]]) (atZ [])).authorities ∧
      validateDenial (listCrypto [sampleKey 2]) 0 (nodataReply aliasZone (atZ [[97]]) (atZ []))
        zoneKeys (atZ [[97]]) .A = .secure ∧
      aliasZone.has (atZ [[97]]) .CNAME = true ∧ ¬ aliasZone.NoData (atZ [[97]]) .A) ∧
    (GenuineDenial (listCrypto [sampleKey 2]) cutZone (atZ [[97]])
        (nodataReply cutZone (atZ [[97]]) (atZ [])).authorities ∧
      validateDenial (listCrypto [sampleKey 2]) 0 (nodataReply cutZone (atZ [[97]]) (atZ []))
        zoneKeys (atZ [[97]]) .A = .secure ∧
      cutZone.isDelegation (atZ [[97]]) = true ∧ ¬ cutZone.NoData (atZ [[97]]) .A) := by
  refine ⟨⟨genuine_nodataReply (by decide +kernel), by decide +kernel, by decide +kernel, fun h => ?_⟩,
    ⟨genuine_nodataReply (by decide +kernel), by decide +kernel, by decide +kernel, fun h => ?_⟩⟩
  · exact absurd h.unaliased (by decide +kernel)
  · exact absurd (h.authoritative (by decide +kernel)) (by decide +kernel)

end Check

end Dnsd.Recursor
