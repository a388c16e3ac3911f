/-
# HashedZone — a zone with a chain of NSEC3 records.

The names that exist and are not occluded have a record, and the links go by the order of their hashes.  With
opt-out the chain may leave out unsigned delegations and what leads to nothing else.  What a denial needs of the
hash is that none of the names it looks at has the hash of another name with a record (`InjectiveFor`).
-/
import Dnsd.Recursor.Base32
import Dnsd.Recursor.DenialSpec
import Dnsd.Recursor.SignedZone

namespace Dnsd.Recursor

open Proto Lib List

namespace Zone

variable (z : Zone)

def isUnsigned (n : Name) : Bool := z.isDelegation n && !z.has n .DS

/-- At and below the name, down to what is occluded, there are unsigned delegations only. -/
def onlyUnsigned (n : Name) : Bool :=
  z.nodes.all fun node => !n.zoneOf node.1 || z.isOccluded node.1 || z.isUnsigned node.1

end Zone

/-- A zone and its NSEC3 records: the names that have one, and the opt-out flag of each by its hash. -/
structure HashedZone (C : Crypto) extends Zone where
  salt : List UInt8
  iterations : UInt16
  hash : Name → List UInt8
  chain : List Name
  optOut : List UInt8 → Bool
  hash_eq : ∀ n, Wirelike n → C.nsec3Hash salt n iterations = some (hash n)
  hash_congr : ∀ a b : Name, a.same b = true → hash a = hash b
  exist : ∀ c ∈ chain, toZone.holds c = true ∧ toZone.isOccluded c = false
  complete : ∀ n, toZone.holds n = true → toZone.isOccluded n = false →
    (∃ c ∈ chain, c.same n = true) ∨
      (toZone.onlyUnsigned n = true ∧ ∃ o ∈ chain, ∃ o' ∈ chain,
        RingLink (chain.map fun c => ordinals (hash c)) (ordinals (hash o)) (ordinals (hash o')) ∧
          InGap (ordinals (hash o)) (ordinals (hash o')) (ordinals (hash n)) ∧ optOut (hash o) = true)

namespace HashedZone

variable {C : Crypto} (z : HashedZone C)

def point (n : Name) : List Nat := ordinals (z.hash n)

def ring : List (List Nat) := z.chain.map z.point

def Nsec3Link (o n : Name) : Prop := o ∈ z.chain ∧ n ∈ z.chain ∧ RingLink z.ring (z.point o) (z.point n)

instance (o n : Name) : Decidable (z.Nsec3Link o n) := inferInstanceAs (Decidable (_ ∧ _ ∧ _))

/-- The types that an NSEC3 record lists: at a delegation point only what the parent has, and signatures
where something is signed. -/
def nsec3Bit (o : Name) (t : RecordType) : Bool :=
  if z.isDelegation o then t == .NS || (z.has o .DS && (t == .DS || t == .RRSIG))
  else z.has o t || (t == .RRSIG && z.isNode o)

def Nsec3Set (o n : Name) (g : Name × List Record) : Prop :=
  z.Nsec3Link o n ∧
    (∃ label rest, g.1.labels = label :: rest ∧
      label.map lowerByte = (base32HexEncode (z.hash o)).map lowerByte ∧ Name.same ⟨rest⟩ z.apex = true) ∧
    ∃ nsec3, headNsec3 g.2 = some nsec3 ∧ nsec3.hashAlgorithm = 1 ∧ nsec3.salt = z.salt ∧
      nsec3.iterations = z.iterations ∧ nsec3.nextHashedOwnerName = z.hash n ∧
      nsec3.optOut = z.optOut (z.hash o) ∧ ∀ t, t ∈ nsec3.typeBitMaps ↔ z.nsec3Bit o t = true

def GenuineNsec3 (g : Name × List Record) : Prop := ∃ o n, z.Nsec3Set o n g

/-- The names above a name, and the wildcards at them, have the hash of a name with a record only if they
are that name. -/
def InjectiveFor (q : Name) : Prop :=
  ∀ a, (a.zoneOf q = true ∨ ∃ e, e.zoneOf q = true ∧ a.same (wildcardAt e) = true) →
    ∀ c ∈ z.chain, z.hash a = z.hash c → a.same c = true

def NoOptOut : Prop := ∀ c ∈ z.chain, z.optOut (z.hash c) = false

variable {z}

/-! ## The ring -/

theorem point_congr {a b : Name} (h : a.path = b.path) : z.point a = z.point b :=
  congrArg ordinals (z.hash_congr a b (Name.path_eq_iff.mp h))

theorem point_mem {a c : Name} (hc : c ∈ z.chain) (h : c.path = a.path) : z.point a ∈ z.ring := by
  rw [← point_congr h]
  exact mem_map_of_mem hc

theorem exists_of_point {p : List Nat} (h : p ∈ z.ring) : ∃ c ∈ z.chain, z.point c = p := mem_map.mp h

theorem not_holds_of_inGap {o n x : Name} (hlink : z.Nsec3Link o n)
    (hcover : InGap (z.point o) (z.point n) (z.point x)) (hopt : z.optOut (z.hash o) = false)
    (hocc : z.isOccluded x = false) : z.holds x = false := by
  rw [← Bool.not_eq_true]
  intro hx
  rcases z.complete x hx hocc with ⟨c, hc, hsame⟩ | ⟨_, m, hm, m', _, hlink', hcover', hopt'⟩
  · exact hlink.2.2.not_mem hcover (point_mem hc (Name.path_eq_iff.mpr hsame))
  · -- The record that hides the name is the one with the name in its gap.
    have heq := (hlink.2.2.eq_of_inGap hlink' hcover hcover').1
    have hhash : z.hash o = z.hash m := ordinals_inj.mp heq
    rw [hhash, hopt'] at hopt
    nomatch hopt

theorem NoOptOut.exists_chain (h : z.NoOptOut) {n : Name} (hn : z.holds n = true)
    (hocc : z.isOccluded n = false) : ∃ c ∈ z.chain, c.path = n.path := by
  rcases z.complete n hn hocc with ⟨c, hc, hsame⟩ | ⟨_, o, ho, _, _, _, _, hopt⟩
  · exact ⟨c, hc, Name.path_eq_iff.mpr hsame⟩
  · nomatch (h o ho).symm.trans hopt

theorem apex_chain : ∃ c ∈ z.chain, c.path = z.apex.path := by
  have hown : z.isDelegated z.apex = false := Zone.not_isDelegated_apex
  have hocc : z.isOccluded z.apex = false := by
    rw [← Bool.not_eq_true] at hown ⊢
    exact fun h => hown (Zone.isDelegated_of_isOccluded h)
  have hnode : ∃ node ∈ z.nodes, node.1.path = z.apex.path := by
    obtain ⟨node, hnode, hsame⟩ := z.has_apex
    exact ⟨node, hnode, Name.path_eq_iff.mpr hsame⟩
  rcases z.complete z.apex (Zone.holds_of_isNode (Zone.isNode_iff.mpr hnode)) hocc with
    ⟨c, hc, hsame⟩ | ⟨honly, _⟩
  · exact ⟨c, hc, Name.path_eq_iff.mpr hsame⟩
  · -- The apex is not a delegation.
    obtain ⟨node, hmem, hpath⟩ := hnode
    have hall := all_eq_true.mp honly node hmem
    have hdel : z.isDelegation node.1 = false :=
      (Zone.isDelegation_congr hpath).trans Zone.not_isDelegation_apex
    have hnocc : z.isOccluded node.1 = false := (Zone.isOccluded_congr hpath).trans hocc
    have hzone : z.apex.zoneOf node.1 = true := z.within node hmem
    simp [hzone, hnocc, Zone.isUnsigned, hdel] at hall

/-! ## Intervals -/

theorem Nsec3Set.interval {o n : Name} {g : Name × List Record} (h : z.Nsec3Set o n g) :
    ∃ i, nsec3Interval g = some i ∧ i.ownerHash = z.hash o ∧ i.nextHash = z.hash n ∧
      ∀ t, t ∈ i.types ↔ z.nsec3Bit o t = true := by
  obtain ⟨_, ⟨label, rest, hlabels, hlabel, _⟩, nsec3, hnsec3, _, _, _, hnext, _, htypes⟩ := h
  refine ⟨⟨z.hash o, nsec3.nextHashedOwnerName, nsec3.typeBitMaps, nsec3.optOut⟩, ?_, rfl, hnext, htypes⟩
  unfold nsec3Interval
  rw [hnsec3, hlabels]
  dsimp only
  rw [base32HexDecode_encode hlabel]
  rfl

section Sets

variable {sets : List (Name × List Record)}

theorem mem_intervals (hsets : ∀ g ∈ sets, z.GenuineNsec3 g) {i : Nsec3Interval}
    (hi : i ∈ sets.filterMap nsec3Interval) :
    ∃ o n, (∃ g ∈ sets, z.Nsec3Set o n g) ∧ i.ownerHash = z.hash o ∧ i.nextHash = z.hash n ∧
      ∀ t, t ∈ i.types ↔ z.nsec3Bit o t = true := by
  obtain ⟨g, hg, hgi⟩ := mem_filterMap.mp hi
  obtain ⟨o, n, hset⟩ := hsets g hg
  obtain ⟨i', hi', hspec⟩ := hset.interval
  rw [hgi] at hi'
  obtain rfl := Option.some.inj hi'
  exact ⟨o, n, ⟨g, hg, hset⟩, hspec⟩

theorem interval_mem {o n : Name} (h : ∃ g ∈ sets, z.Nsec3Set o n g) :
    ∃ i ∈ sets.filterMap nsec3Interval, i.ownerHash = z.hash o ∧ i.nextHash = z.hash n := by
  obtain ⟨g, hg, hset⟩ := h
  obtain ⟨i, hi, howner, hnext, _⟩ := hset.interval
  exact ⟨i, mem_filterMap.mpr ⟨g, hg, hi⟩, howner, hnext⟩

theorem params_eq (hsets : ∀ g ∈ sets, z.GenuineNsec3 g) {params : NSEC3}
    (h : sets.findSome? (fun g => headNsec3 g.2) = some params) :
    params.hashAlgorithm = 1 ∧ params.salt = z.salt ∧ params.iterations = z.iterations := by
  obtain ⟨g, hg, hhead⟩ := exists_of_findSome?_eq_some h
  obtain ⟨o, n, _, _, nsec3, hnsec3, halg, hsalt, hiter, _⟩ := hsets g hg
  rw [hhead] at hnsec3
  obtain rfl := Option.some.inj hnsec3
  exact ⟨halg, hsalt, hiter⟩

theorem exists_params {g : Name × List Record} (hg : g ∈ sets) (h : z.GenuineNsec3 g) :
    ∃ params, sets.findSome? (fun g => headNsec3 g.2) = some params := by
  obtain ⟨o, n, _, _, nsec3, hnsec3, _⟩ := h
  rw [← Option.isSome_iff_exists, List.findSome?_isSome_iff]
  exact ⟨g, hg, by rw [hnsec3]; rfl⟩

end Sets

theorem hash_above {q a : Name} (hq : Wirelike q) (ha : a.path <+: q.path) :
    C.nsec3Hash z.salt a z.iterations = some (z.hash a) :=
  z.hash_eq a (hq.above ha)

theorem hash_wildcard {q e w : Name} (hq : Wirelike q) (he : e.path <+: q.path) (hne : e.path ≠ q.path)
    (hw : prependWildcard e = some w) : C.nsec3Hash z.salt w z.iterations = some (z.hash (wildcardAt e)) := by
  have hpath : w.path = (wildcardAt e).path := by
    rw [prependWildcard_some hw, Zone.path_wildcardAt]
  have hwire : Wirelike w := (hq.wildcard he hne).above (hpath ▸ prefix_refl _)
  rw [z.hash_eq w hwire, z.hash_congr w _ (Name.path_eq_iff.mp hpath)]

end HashedZone

end Dnsd.Recursor
