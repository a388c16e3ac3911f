/-
# CacheBounds — three maps that never outgrow their caps.

`DnskeyCache` and `NegResolveCache` make room before they insert a new key: the expired entries go, or one
arbitrary entry.  A history is the list of operations so far, the newest first.  The clock is read twice in an
insertion, and no reading is related to any other.  A key is a name in lower case.
-/
import Dnsd.Recursor.Cache

namespace Dnsd.Recursor

open Proto List

namespace Table

variable {κ ν : Type} [DecidableEq κ] {cap now : Nat} {expiryOf : ν → Nat} {k k' victim : κ}
  {m : Table κ ν} {v : ν}

/-- The keys that `evict` collects. -/
def stale (now : Nat) (expiryOf : ν → Nat) (m : Table κ ν) : List κ :=
  m.keys.filter fun k => (m.lookup k).any fun v => expiryOf v ≤ now

theorem mem_stale : k ∈ stale now expiryOf m ↔ ∃ v, m.lookup k = some v ∧ expiryOf v ≤ now := by
  simp only [stale, mem_filter, Option.any_eq_true, decide_eq_true_eq, and_iff_right_iff_imp]
  rintro ⟨v, hv, -⟩
  exact AList.lookup_isSome.mp (by rw [hv]; rfl)

theorem lookup_eraseAll_eq {ks : List κ} :
    (eraseAll m ks).lookup k = if k ∈ ks then none else m.lookup k := by
  induction ks generalizing m with
  | nil => rfl
  | cons k' ks ih =>
    show (eraseAll (m.erase k') ks).lookup k = _
    rw [ih]
    by_cases heq : k = k'
    · subst heq
      simp
    · simp [heq]

theorem length_erase_lt (h : k ∈ m) : (m.erase k).keys.length < m.keys.length := by
  have hpos : 0 < m.keys.length := length_pos_of_mem h
  rw [AList.keys_erase, length_erase_of_mem h]
  omega

theorem length_eraseAll_le {ks : List κ} : (eraseAll m ks).keys.length ≤ m.keys.length := by
  induction ks generalizing m with
  | nil => exact le_rfl
  | cons k ks ih =>
    refine le_trans ih ?_
    rw [AList.keys_erase]
    exact length_erase_le

theorem length_evict_lt (h : victim ∈ m) :
    (evict victim now expiryOf m).keys.length < m.keys.length := by
  show (if (stale now expiryOf m).isEmpty then _ else eraseAll m (stale now expiryOf m)).keys.length < _
  cases hs : stale now expiryOf m with
  | nil => exact length_erase_lt h
  | cons k ks =>
    obtain ⟨v, hv, -⟩ := mem_stale.mp (hs ▸ mem_cons_self : k ∈ stale now expiryOf m)
    have hk : k ∈ m := AList.lookup_isSome.mp (by rw [hv]; rfl)
    calc (eraseAll (m.erase k) ks).keys.length ≤ (m.erase k).keys.length := length_eraseAll_le
      _ < m.keys.length := length_erase_lt hk

theorem length_insert_le : (AList.insert k v m).keys.length ≤ m.keys.length + 1 := by
  rw [AList.keys_insert]
  exact Nat.succ_le_succ length_erase_le

theorem length_insertCapped_le (hcap : 0 < cap) (hv : m.keys ≠ [] → victim ∈ m)
    (hm : m.keys.length ≤ cap) : (insertCapped cap victim now expiryOf k v m).keys.length ≤ cap := by
  unfold insertCapped
  split
  · rename_i h
    have hne : m.keys ≠ [] := fun h0 => by simp [h0] at h; omega
    have : (evict victim now expiryOf m).keys.length < m.keys.length := length_evict_lt (hv hne)
    have := length_insert_le (k := k) (v := v) (m := evict victim now expiryOf m)
    omega
  · rename_i h
    by_cases hk : k ∈ m
    · have hpos : 0 < m.keys.length := length_pos_of_mem hk
      rw [AList.keys_insert, length_cons, length_erase_of_mem hk]
      omega
    · have := length_insert_le (k := k) (v := v) (m := m)
      have : ¬ cap ≤ m.keys.length := fun hc => h ⟨hc, hk⟩
      omega

end Table

/-! ## Histories of one map -/

/-- `victim` is the entry to go if the map is full and `evictAt` finds no entry expired. -/
inductive TableOp (κ ν : Type) where
  | insert (victim : κ) (evictAt : Nat) (k : κ) (v : ν)
  | remove (k : κ)

namespace TableOp

variable {κ ν : Type} [DecidableEq κ] (cap : Nat) (expiryOf : ν → Nat)

def apply : TableOp κ ν → Table κ ν → Table κ ν
  | .insert victim evictAt k v, m => m.insertCapped cap victim evictAt expiryOf k v
  | .remove k, m => m.erase k

def after (ops : List (TableOp κ ν)) : Table κ ν := ops.foldr (apply cap expiryOf) ∅

/-- `map.keys().next()` is a key of the map, if the map has one. -/
def Possible : List (TableOp κ ν) → Prop
  | [] => True
  | .remove _ :: ops => Possible ops
  | .insert victim _ _ _ :: ops =>
    Possible ops ∧ ((after cap expiryOf ops).keys ≠ [] → victim ∈ after cap expiryOf ops)

/-- What takes the entry of `k` out of the map `m`: it is invalidated, or evicted by the insertion of
a new key into a full map, as expired or as the arbitrary choice. -/
inductive Drops (m : Table κ ν) (k : κ) : TableOp κ ν → Prop
  | invalidated : Drops m k (.remove k)
  | expired {victim : κ} {evictAt : Nat} {k' : κ} {v' : ν} : cap ≤ m.keys.length → k' ∉ m →
      k ∈ m.stale evictAt expiryOf → Drops m k (.insert victim evictAt k' v')
  | chosen {evictAt : Nat} {k' : κ} {v' : ν} : cap ≤ m.keys.length → k' ∉ m →
      m.stale evictAt expiryOf = [] → Drops m k (.insert k evictAt k' v')

/-- The last insertion of `k` was of `v`, and no operation since has dropped it. -/
inductive Held (k : κ) (v : ν) : List (TableOp κ ν) → Prop
  | inserted {victim : κ} {evictAt : Nat} {ops : List (TableOp κ ν)} :
      Held k v (.insert victim evictAt k v :: ops)
  | kept {op : TableOp κ ν} {ops : List (TableOp κ ν)} : Held k v ops →
      (∀ victim evictAt v', op ≠ .insert victim evictAt k v') → ¬ Drops cap expiryOf (after cap expiryOf ops) k op →
      Held k v (op :: ops)

variable {cap : Nat} {expiryOf : ν → Nat} {k : κ} {v : ν}

open Classical in
theorem lookup_apply {op : TableOp κ ν} {m : Table κ ν}
    (hne : ∀ victim evictAt v', op ≠ .insert victim evictAt k v') :
    (op.apply cap expiryOf m).lookup k = if Drops cap expiryOf m k op then none else m.lookup k := by
  cases op with
  | remove k' =>
    by_cases heq : k = k'
    · subst heq
      rw [if_pos .invalidated]
      exact AList.lookup_erase k m
    · rw [if_neg (by rintro ⟨⟩; exact heq rfl)]
      exact AList.lookup_erase_ne heq
  | insert victim evictAt k' v' =>
    have heq : k ≠ k' := fun h => hne victim evictAt v' (by rw [h])
    show (Table.insertCapped cap victim evictAt expiryOf k' v' m).lookup k = _
    unfold Table.insertCapped
    split
    · rename_i hfull
      rw [AList.lookup_insert_ne heq]
      show (if (Table.stale evictAt expiryOf m).isEmpty then m.erase victim
        else Table.eraseAll m (Table.stale evictAt expiryOf m)).lookup k = _
      by_cases hs : Table.stale evictAt expiryOf m = []
      · rw [if_pos (by rw [hs]; rfl)]
        by_cases hv : k = victim
        · subst hv
          rw [if_pos (.chosen hfull.1 hfull.2 hs)]
          exact AList.lookup_erase k m
        · rw [if_neg, AList.lookup_erase_ne hv]
          rintro (- | ⟨-, -, h⟩ | -)
          · simp [hs] at h
          · exact hv rfl
      · rw [if_neg (by simpa using hs), Table.lookup_eraseAll_eq]
        congr 1
        refine propext ⟨.expired hfull.1 hfull.2, ?_⟩
        rintro (- | ⟨-, -, h⟩ | ⟨-, -, h⟩)
        · exact h
        · exact absurd h hs
    · rename_i hfull
      rw [AList.lookup_insert_ne heq, if_neg]
      rintro (- | ⟨hc, hk, -⟩ | ⟨hc, hk, -⟩) <;> exact hfull ⟨hc, hk⟩

theorem lookup_after_iff {ops : List (TableOp κ ν)} :
    (after cap expiryOf ops).lookup k = some v ↔ Held cap expiryOf k v ops := by
  induction ops with
  | nil => exact ⟨nofun, nofun⟩
  | cons op ops ih =>
    by_cases hop : ∃ victim evictAt v', op = .insert victim evictAt k v'
    · obtain ⟨victim, evictAt, v', rfl⟩ := hop
      have hl : (after cap expiryOf (.insert victim evictAt k v' :: ops)).lookup k = some v' := by
        show (Table.insertCapped cap victim evictAt expiryOf k v' (after cap expiryOf ops)).lookup k = _
        unfold Table.insertCapped
        split <;> exact AList.lookup_insert _
      rw [hl]
      constructor
      · rintro ⟨⟩
        exact .inserted
      · rintro (- | ⟨-, hne, -⟩)
        · rfl
        · exact absurd rfl (hne victim evictAt v')
    · have hne : ∀ victim evictAt v', op ≠ .insert victim evictAt k v' := fun _ _ _ h => hop ⟨_, _, _, h⟩
      show (op.apply cap expiryOf (after cap expiryOf ops)).lookup k = some v ↔ _
      rw [lookup_apply hne]
      constructor
      · intro h
        split at h
        · nomatch h
        · exact .kept (ih.mp h) hne ‹_›
      · rintro (- | ⟨hheld, -, hkeep⟩)
        · exact absurd rfl (hne _ _ _)
        · rw [if_neg hkeep]
          exact ih.mpr hheld

theorem length_after_le (hcap : 0 < cap) {ops : List (TableOp κ ν)} (h : Possible cap expiryOf ops) :
    (after cap expiryOf ops).keys.length ≤ cap := by
  induction ops with
  | nil => exact Nat.zero_le cap
  | cons op ops ih =>
    cases op with
    | remove k =>
      show ((after cap expiryOf ops).erase k).keys.length ≤ cap
      rw [AList.keys_erase]
      exact le_trans length_erase_le (ih h)
    | insert victim evictAt k v => exact Table.length_insertCapped_le hcap h.2 (ih h.1)

end TableOp

/-- A map with a cap after a history: its size, what an insertion may take out, and what it holds. -/
structure IsCapped {κ ν : Type} [DecidableEq κ] (cap : Nat) (expiryOf : ν → Nat)
    (ops : List (TableOp κ ν)) (m : Table κ ν) : Prop where
  size : m.keys.length ≤ cap
  insert_present : ∀ victim evictAt k v k', k ∈ m → k' ≠ k →
    (m.insertCapped cap victim evictAt expiryOf k v).lookup k' = m.lookup k'
  insert_expired : ∀ victim evictAt k v, cap ≤ m.keys.length →
    (∃ k₀ v₀, m.lookup k₀ = some v₀ ∧ expiryOf v₀ ≤ evictAt) →
    ∀ k' v', k' ≠ k → m.lookup k' = some v' →
      (m.insertCapped cap victim evictAt expiryOf k v).lookup k' ≠ some v' → expiryOf v' ≤ evictAt
  held : ∀ k v, m.lookup k = some v ↔ TableOp.Held cap expiryOf k v ops

namespace TableOp

variable {κ ν : Type}

theorem inserts_only {victim k k' : κ} {evictAt : Nat} {v : ν} (hne : k' ≠ k) :
    ∀ victim' evictAt' v', TableOp.insert victim evictAt k v ≠ .insert victim' evictAt' k' v' := by
  rintro _ _ _ ⟨⟩
  exact hne rfl

variable [DecidableEq κ] {cap : Nat} {expiryOf : ν → Nat}

theorem isCapped_after (hcap : 0 < cap) {ops : List (TableOp κ ν)} (h : Possible cap expiryOf ops) :
    IsCapped cap expiryOf ops (after cap expiryOf ops) where
  size := length_after_le hcap h
  insert_present victim evictAt k v k' hk hne := by
    refine (lookup_apply (inserts_only hne)).trans (if_neg ?_)
    rintro (- | ⟨-, hk', -⟩ | ⟨-, hk', -⟩) <;> exact hk' hk
  insert_expired victim evictAt k v hfull := by
    rintro ⟨k₀, v₀, h₀, he₀⟩ k' v' hne hv' hgone
    have hd : Drops cap expiryOf (after cap expiryOf ops) k' (.insert victim evictAt k v) := by
      by_contra hd
      exact hgone ((lookup_apply (inserts_only hne)).trans ((if_neg hd).trans hv'))
    obtain - | ⟨-, -, hs⟩ | ⟨-, -, hs⟩ := hd
    · obtain ⟨w, hw, he⟩ := Table.mem_stale.mp hs
      rw [hv'] at hw
      exact Option.some.inj hw ▸ he
    · -- the arbitrary choice is made only if nothing has expired
      exact absurd (Table.mem_stale.mpr ⟨v₀, h₀, he₀⟩) (by simp [hs])
  held _ _ := lookup_after_iff

end TableOp

/-! ## The caches -/

namespace DnskeyCache

/-- `put_positive` with its two readings of the clock. -/
def putPositiveAt (c : DnskeyCache) (victim : Name) (now evictAt : Nat) (zone : Name)
    (keys : List DNSKEY) (ttl : Nat) : DnskeyCache :=
  let entry : PositiveEntry := ⟨keys, now + secs (max minPositiveTtl (min ttl maxPositiveTtl))⟩
  { c with positive := c.positive.insertCapped positiveCacheCap victim evictAt PositiveEntry.expiry zone entry }

theorem putPositiveAt_self (c : DnskeyCache) (victim : Name) (now : Nat) (zone : Name)
    (keys : List DNSKEY) (ttl : Nat) :
    c.putPositiveAt victim now now zone keys ttl = c.putPositive victim now zone keys ttl := rfl

/-- `put_negative` with its two readings of the clock. -/
def putNegativeAt (c : DnskeyCache) (victim : Name) (now evictAt : Nat) (zone : Name) : DnskeyCache :=
  { c with
    negative := c.negative.insertCapped negativeCacheCap victim evictAt id zone (now + secs negativeTtl) }

theorem putNegativeAt_self (c : DnskeyCache) (victim : Name) (now : Nat) (zone : Name) :
    c.putNegativeAt victim now now zone = c.putNegative victim now zone := rfl

end DnskeyCache

inductive DnskeyOp where
  | putPositive (victim : Name) (now evictAt : Nat) (zone : Name) (keys : List DNSKEY) (ttl : Nat)
  | invalidatePositive (zone : Name)
  | putNegative (victim : Name) (now evictAt : Nat) (zone : Name)

namespace DnskeyOp

def apply : DnskeyOp → DnskeyCache → DnskeyCache
  | .putPositive victim now evictAt zone keys ttl, c =>
    c.putPositiveAt victim now evictAt zone.toLowercase keys ttl
  | .invalidatePositive zone, c => c.invalidatePositive zone.toLowercase
  | .putNegative victim now evictAt zone, c => c.putNegativeAt victim now evictAt zone.toLowercase

def after (ops : List DnskeyOp) : DnskeyCache := ops.foldr apply .empty

def positive? : DnskeyOp → Option (TableOp Name PositiveEntry)
  | .putPositive victim now evictAt zone keys ttl =>
    some (.insert victim evictAt zone.toLowercase
      ⟨keys, now + secs (max minPositiveTtl (min ttl maxPositiveTtl))⟩)
  | .invalidatePositive zone => some (.remove zone.toLowercase)
  | .putNegative .. => none

def negative? : DnskeyOp → Option (TableOp Name Nat)
  | .putNegative victim now evictAt zone =>
    some (.insert victim evictAt zone.toLowercase (now + secs negativeTtl))
  | _ => none

def Possible (ops : List DnskeyOp) : Prop :=
  TableOp.Possible positiveCacheCap PositiveEntry.expiry (ops.filterMap positive?) ∧
    TableOp.Possible negativeCacheCap id (ops.filterMap negative?)

theorem after_positive (ops : List DnskeyOp) : (after ops).positive =
    TableOp.after positiveCacheCap PositiveEntry.expiry (ops.filterMap positive?) := by
  induction ops with
  | nil => rfl
  | cons op ops ih =>
    cases op with
    | putPositive victim now evictAt zone keys ttl =>
      exact congrArg (Table.insertCapped positiveCacheCap victim evictAt PositiveEntry.expiry _ _) ih
    | invalidatePositive zone => exact congrArg (AList.erase zone.toLowercase) ih
    | putNegative victim now evictAt zone => exact ih

theorem after_negative (ops : List DnskeyOp) :
    (after ops).negative = TableOp.after negativeCacheCap id (ops.filterMap negative?) := by
  induction ops with
  | nil => rfl
  | cons op ops ih =>
    cases op with
    | putPositive victim now evictAt zone keys ttl => exact ih
    | invalidatePositive zone => exact ih
    | putNegative victim now evictAt zone =>
      exact congrArg (Table.insertCapped negativeCacheCap victim evictAt id _ _) ih

end DnskeyOp

namespace NegResolveCache

/-- An `insert_with_ttl`, in seconds, with the two readings of the clock. -/
structure Insertion where
  victim : Name × RecordType
  now : Nat
  evictAt : Nat
  name : Name
  rtype : RecordType
  ttl : Nat

def insertWithTtl (c : NegResolveCache) (i : Insertion) : NegResolveCache :=
  Table.insertCapped negResolveCap i.victim i.evictAt id (i.name.toLowercase, i.rtype)
    (i.now + secs i.ttl) c

theorem insertWithTtl_default (c : NegResolveCache) (victim : Name × RecordType) (now : Nat)
    (name : Name) (rtype : RecordType) :
    c.insertWithTtl ⟨victim, now, now, name, rtype, negResolveTtl⟩ = c.insert victim now name rtype := rfl

def after (is : List Insertion) : NegResolveCache := is.foldr (fun i c => insertWithTtl c i) ∅

def Insertion.op (i : Insertion) : TableOp (Name × RecordType) Nat :=
  .insert i.victim i.evictAt (i.name.toLowercase, i.rtype) (i.now + secs i.ttl)

theorem after_eq (is : List Insertion) :
    after is = TableOp.after negResolveCap id (is.map Insertion.op) := by
  induction is with
  | nil => rfl
  | cons i is ih => exact congrArg (insertWithTtl · i) ih

end NegResolveCache

end Dnsd.Recursor
