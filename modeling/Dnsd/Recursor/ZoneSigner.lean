/-
# ZoneSigner — zones and their records, made.

For every link of a chain the NSEC or NSEC3 set that a signer makes of it, and that it is genuine.  `HashTable` is a
zone with NSEC3 records over a hash that is given by a table of names (`exists_existing`).
-/
import Dnsd.Recursor.HashedZone
import Dnsd.Recursor.Script

namespace Dnsd.Recursor

open Proto Lib List

namespace Zone

variable (z : Zone)

def typesAt (o : Name) : List RecordType :=
  z.nodes.flatMap fun node => if node.1.same o then node.2 else []

def nsecTypes (o : Name) : List RecordType :=
  [.RRSIG, .NSEC] ++ if z.isDelegation o then .NS :: (if z.has o .DS then [.DS] else []) else z.typesAt o

def nsecOf (o n : Name) : Name × List Record :=
  (o, [{ name := o, ttl := 3600, data := .nsec ⟨n, z.nsecTypes o⟩ }])

def nsecSets (links : List (Name × Name)) : List (Name × List Record) :=
  links.map fun l => z.nsecOf l.1 l.2

variable {z}

theorem mem_typesAt {o : Name} {t : RecordType} : t ∈ z.typesAt o ↔ z.has o t = true := by
  simp only [typesAt, has, mem_flatMap, any_eq_true, Bool.and_eq_true, contains_iff_mem]
  refine exists_congr fun node => and_congr_right fun _ => ?_
  split <;> rename_i hsame <;> simp [hsame]

theorem mem_nsecTypes {o : Name} {t : RecordType} : t ∈ z.nsecTypes o ↔ z.nsecBit o t = true := by
  unfold nsecTypes nsecBit
  split
  · split <;> rename_i hds <;> simp [hds, or_assoc]
  · simp [mem_typesAt, or_assoc]

theorem nsecSet_nsecOf {o n : Name} (h : z.NsecLink o n) : z.NsecSet o n (z.nsecOf o n) :=
  ⟨h, Name.path_eq_iff.mp rfl, _, rfl, Name.path_eq_iff.mp rfl, fun _ => mem_nsecTypes⟩

theorem genuine_nsecSets {links : List (Name × Name)} (h : ∀ l ∈ links, z.NsecLink l.1 l.2) :
    ∀ g ∈ z.nsecSets links, z.GenuineNsec g := by
  intro g hg
  obtain ⟨l, hl, rfl⟩ := mem_map.mp hg
  exact ⟨l.1, l.2, nsecSet_nsecOf (h l hl)⟩

/-! ## Zones by their names -/

def below (apex : Name) (types : List RecordType) (rest : List (List Label × List RecordType)) : Zone where
  apex := apex
  nodes := (apex, types) :: rest.map fun node => (⟨node.1 ++ apex.labels⟩, node.2)
  has_apex := ⟨_, .head _, Name.path_eq_iff.mp rfl⟩
  within := by
    intro node hnode
    rw [Name.zoneOf_iff_path]
    rcases mem_cons.mp hnode with rfl | hnode
    · exact prefix_refl _
    · obtain ⟨rel, _, rfl⟩ := mem_map.mp hnode
      simp only [Name.path, Name.toLowercase, map_append, reverse_append]
      exact prefix_append ..

def atZ (labels : List Label) : Name := ⟨labels ++ childZone.labels⟩

def zoneAt (rest : List (List Label × List RecordType)) : Zone := below childZone [.SOA, .NS] rest

def existing (z : Zone) : List Name :=
  z.nodes.flatMap fun node => (List.range (node.1.labels.length + 1)).map node.1.trimTo

theorem exists_existing {n : Name} (h : z.holds n = true) : ∃ m ∈ z.existing, m.path = n.path := by
  obtain ⟨_, node, hnode, hpath⟩ := holds_iff.mp h
  refine ⟨node.1.trimTo n.path.length, ?_, ?_⟩
  · refine mem_flatMap.mpr ⟨node, hnode, mem_map_of_mem (mem_range.mpr ?_)⟩
    have hle := hpath.length_le
    rw [Name.length_path node.1] at hle
    omega
  · rw [Name.path_trimTo]
    exact (prefix_iff_eq_take.mp hpath).symm

theorem onlyUnsigned_congr {a b : Name} (h : a.path = b.path) : z.onlyUnsigned a = z.onlyUnsigned b := by
  have hzone : ∀ m : Name, a.zoneOf m = b.zoneOf m := by
    intro m
    rw [Bool.eq_iff_iff, Name.zoneOf_iff_path, Name.zoneOf_iff_path, h]
  simp only [onlyUnsigned, hzone]

end Zone

namespace HashedZone

/-! ## NSEC3 sets -/

section

variable {C : Crypto} (z : HashedZone C)

def nsec3Types (o : Name) : List RecordType :=
  if z.isDelegation o then .NS :: (if z.has o .DS then [.DS, .RRSIG] else [])
  else z.typesAt o ++ if z.isNode o then [.RRSIG] else []

def nsec3Of (o n : Name) : Name × List Record :=
  (⟨base32HexEncode (z.hash o) :: z.apex.labels⟩,
    [{ name := ⟨base32HexEncode (z.hash o) :: z.apex.labels⟩, ttl := 3600,
       data := .nsec3 ⟨1, z.optOut (z.hash o), z.iterations, z.salt, z.hash n, z.nsec3Types o⟩ }])

def nsec3Sets (links : List (Name × Name)) : List (Name × List Record) :=
  links.map fun l => z.nsec3Of l.1 l.2

variable {z}

theorem mem_nsec3Types {o : Name} {t : RecordType} : t ∈ z.nsec3Types o ↔ z.nsec3Bit o t = true := by
  unfold nsec3Types nsec3Bit
  split
  · split <;> rename_i hds <;> simp [hds]
  · split <;> rename_i hnode <;> simp [Zone.mem_typesAt, hnode]

theorem nsec3Set_nsec3Of {o n : Name} (h : z.Nsec3Link o n) : z.Nsec3Set o n (z.nsec3Of o n) :=
  ⟨h, ⟨_, _, rfl, rfl, Name.path_eq_iff.mp rfl⟩, _, rfl, rfl, rfl, rfl, rfl, rfl, fun _ => mem_nsec3Types⟩

theorem genuine_nsec3Sets {links : List (Name × Name)} (h : ∀ l ∈ links, z.Nsec3Link l.1 l.2) :
    ∀ g ∈ z.nsec3Sets links, z.GenuineNsec3 g := by
  intro g hg
  obtain ⟨l, hl, rfl⟩ := mem_map.mp hg
  exact ⟨l.1, l.2, nsec3Set_nsec3Of (h l hl)⟩

end

/-! ## Hashes from a table -/

def tableHash (table : List Name) (n : Name) : List UInt8 :=
  List.replicate ((table.findIdx fun t => t.same n) + 1) 0

def tableCrypto (table : List Name) : Crypto where
  verifyRrsig _ _ _ _ _ := true
  covers _ _ _ := true
  nsec3Hash _ n _ := some (tableHash table n)

theorem tableHash_congr (table : List Name) {a b : Name} (h : a.same b = true) :
    tableHash table a = tableHash table b := by
  have hsame : (fun t : Name => t.same a) = fun t => t.same b := by
    funext t
    rw [Bool.eq_iff_iff, ← Name.path_eq_iff, ← Name.path_eq_iff, Name.path_eq_iff.mpr h]
  rw [tableHash, tableHash, hsame]

theorem tableHash_inj {table : List Name} {a c : Name} (hc : c ∈ table)
    (h : tableHash table a = tableHash table c) : a.same c = true := by
  have hidx : (table.findIdx fun t => t.same a) = table.findIdx fun t => t.same c := by
    have hlen := congrArg List.length h
    simpa [tableHash] using hlen
  have hlt : (table.findIdx fun t => t.same c) < table.length :=
    findIdx_lt_length_of_exists ⟨c, hc, Name.path_eq_iff.mp rfl⟩
  have hfound : ∀ b : Name, (hb : (table.findIdx fun t => t.same b) < table.length) →
      (table.get ⟨_, hb⟩).same b = true := fun b hb => findIdx_getElem (w := hb)
  have hsame := hfound c hlt
  have hsame' := hfound a (hidx ▸ hlt)
  rw [← Name.path_eq_iff] at hsame hsame' ⊢
  simp only [hidx] at hsame'
  exact hsame'.symm.trans hsame

end HashedZone

structure HashTable where
  zone : Zone
  table : List Name
  chain : List Name
  optOut : Bool
  listed : ∀ c ∈ chain, c ∈ table
  exist : ∀ c ∈ chain, zone.holds c = true ∧ zone.isOccluded c = false
  complete : ∀ n ∈ zone.existing, zone.holds n = true → zone.isOccluded n = false →
    (∃ c ∈ chain, c.same n = true) ∨
      (zone.onlyUnsigned n = true ∧ ∃ o ∈ chain, ∃ o' ∈ chain,
        RingLink (chain.map fun c => ordinals (HashedZone.tableHash table c))
          (ordinals (HashedZone.tableHash table o)) (ordinals (HashedZone.tableHash table o')) ∧
        InGap (ordinals (HashedZone.tableHash table o)) (ordinals (HashedZone.tableHash table o'))
          (ordinals (HashedZone.tableHash table n)) ∧ optOut = true)

namespace HashTable

open HashedZone

def hashed (t : HashTable) : HashedZone (tableCrypto t.table) where
  toZone := t.zone
  salt := []
  iterations := 0
  hash := tableHash t.table
  chain := t.chain
  optOut := fun _ => t.optOut
  hash_eq := fun _ _ => rfl
  hash_congr := fun _ _ h => tableHash_congr t.table h
  exist := t.exist
  complete := by
    intro n hn hocc
    obtain ⟨m, hm, hpath⟩ := Zone.exists_existing hn
    have hhash := tableHash_congr t.table (Name.path_eq_iff.mp hpath)
    have hcase := t.complete m hm ((Zone.holds_congr hpath).trans hn)
      ((Zone.isOccluded_congr hpath).trans hocc)
    rw [hhash, Zone.onlyUnsigned_congr hpath] at hcase
    simp only [← Name.path_eq_iff, hpath] at hcase ⊢
    exact hcase

theorem injectiveFor (t : HashTable) (q : Name) : t.hashed.InjectiveFor q :=
  fun _ _ c hc heq => tableHash_inj (t.listed c hc) heq

end HashTable

end Dnsd.Recursor
