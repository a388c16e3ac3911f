/-
# Cache — the caches as values.

The response cache (`cache.rs`), the DNSKEY cache with its negative half (`dnssec.rs`), the cache of validated
delegation steps (`iterative.rs`) and that of failed resolves (`mod.rs`).  The reading of the clock is an
argument, in nanoseconds.  Keys are lower-cased by every caller.  Which live entry a full table drops, and what
the response cache forgets, is left to the transition relation.
-/
import Mathlib.Data.List.AList
import Dnsd.Recursor.Dnssec

namespace Dnsd.Recursor

open Proto

abbrev Table (κ ν : Type) [DecidableEq κ] := AList (fun _ : κ => ν)

def secs (n : Nat) : Nat := n * 1000000000

namespace Table

variable {κ ν : Type} [DecidableEq κ] {expiryOf : ν → Nat} {k victim : κ} {m : Table κ ν} {v : ν}

def eraseAll (m : Table κ ν) (ks : List κ) : Table κ ν := ks.foldl (fun m k => m.erase k) m

theorem lookup_eraseAll {ks : List κ} (h : (eraseAll m ks).lookup k = some v) : m.lookup k = some v := by
  induction ks generalizing m with
  | nil => exact h
  | cons k' ks ih =>
    have hk := ih h
    by_cases heq : k = k'
    · subst heq
      rw [AList.lookup_erase] at hk
      nomatch hk
    · rwa [AList.lookup_erase_ne heq] at hk

theorem lookup_insert_cases {k' : κ} {v' : ν} (h : AList.lookup k' (m.insert k v) = some v') :
    (k' = k ∧ v' = v) ∨ m.lookup k' = some v' := by
  by_cases heq : k' = k
  · subst heq
    rw [AList.lookup_insert] at h
    exact Or.inl ⟨rfl, (Option.some.inj h).symm⟩
  · rw [AList.lookup_insert_ne heq] at h
    exact Or.inr h

def evict (victim : κ) (now : Nat) (expiryOf : ν → Nat) (m : Table κ ν) : Table κ ν :=
  let stale := m.keys.filter fun k => (m.lookup k).any fun v => expiryOf v ≤ now
  if stale.isEmpty then m.erase victim else eraseAll m stale

def insertCapped (cap : Nat) (victim : κ) (now : Nat) (expiryOf : ν → Nat) (k : κ) (v : ν)
    (m : Table κ ν) : Table κ ν :=
  if cap ≤ m.keys.length ∧ k ∉ m then (evict victim now expiryOf m).insert k v
  else m.insert k v

theorem lookup_evict {now : Nat} (h : (evict victim now expiryOf m).lookup k = some v) :
    m.lookup k = some v := by
  unfold evict at h
  dsimp only at h
  split at h
  · by_cases heq : k = victim
    · subst heq
      rw [AList.lookup_erase] at h
      nomatch h
    · rwa [AList.lookup_erase_ne heq] at h
  · exact lookup_eraseAll h

theorem lookup_insertCapped {cap : Nat} {now : Nat} {k' : κ} {v' : ν}
    (h : (insertCapped cap victim now expiryOf k v m).lookup k' = some v') :
    (k' = k ∧ v' = v) ∨ m.lookup k' = some v' := by
  unfold insertCapped at h
  split at h
  · rcases lookup_insert_cases h with h | h
    · exact Or.inl h
    · exact Or.inr (lookup_evict h)
  · exact lookup_insert_cases h

end Table

/-! ## The DNSKEY cache -/

def positiveCacheCap : Nat := 256
def negativeCacheCap : Nat := 256
/-- `NEGATIVE_TTL`, in seconds; likewise the bounds of a positive entry's lifetime. -/
def negativeTtl : Nat := 300
def minPositiveTtl : Nat := 60
def maxPositiveTtl : Nat := 86400

structure PositiveEntry where
  keys : List DNSKEY
  expiry : Nat
  deriving DecidableEq, Repr

structure DnskeyCache where
  positive : Table Name PositiveEntry
  negative : Table Name Nat

namespace DnskeyCache

def empty : DnskeyCache := ⟨∅, ∅⟩

def getPositive (c : DnskeyCache) (now : Nat) (zone : Name) : Option (List DNSKEY) :=
  match c.positive.lookup zone with
  | some e => if now < e.expiry then some e.keys else none
  | none => none

theorem getPositive_eq_some {c : DnskeyCache} {now : Nat} {zone : Name} {keys : List DNSKEY}
    (h : c.getPositive now zone = some keys) : ∃ e, c.positive.lookup zone = some e ∧ e.keys = keys := by
  unfold getPositive at h
  split at h
  · rename_i e he
    split at h
    · exact ⟨e, he, Option.some.inj h⟩
    · nomatch h
  · nomatch h

def putPositive (c : DnskeyCache) (victim : Name) (now : Nat) (zone : Name) (keys : List DNSKEY)
    (ttl : Nat) : DnskeyCache :=
  let entry : PositiveEntry := ⟨keys, now + secs (max minPositiveTtl (min ttl maxPositiveTtl))⟩
  { c with
    positive := Table.insertCapped positiveCacheCap victim now PositiveEntry.expiry zone entry c.positive }

def invalidatePositive (c : DnskeyCache) (zone : Name) : DnskeyCache :=
  { c with positive := c.positive.erase zone }

def hasNegative (c : DnskeyCache) (now : Nat) (zone : Name) : Bool :=
  (c.negative.lookup zone).any fun e => now < e

def putNegative (c : DnskeyCache) (victim : Name) (now : Nat) (zone : Name) : DnskeyCache :=
  { c with
    negative := Table.insertCapped negativeCacheCap victim now id zone (now + secs negativeTtl) c.negative }

end DnskeyCache

/-! ## The cache of validated delegations -/

/-- `DELEGATION_CACHE_TTL_CAP`, in seconds. -/
def delegationCacheTtlCap : Nat := 3600

structure CachedDelegation where
  step : ChainStep
  expiry : Nat
  deriving DecidableEq, Repr

abbrev DelegationCache := Table Name CachedDelegation

namespace DelegationCache

variable {c : DelegationCache} {step : ChainStep} {zone : Name}

def get (c : DelegationCache) (now : Nat) (zone : Name) : Option ChainStep :=
  match c.lookup zone.toLowercase with
  | some e => if now < e.expiry then some e.step else none
  | none => none

theorem get_eq_some {now : Nat} (h : c.get now zone = some step) :
    ∃ e, c.lookup zone.toLowercase = some e ∧ e.step = step := by
  unfold get at h
  split at h
  · rename_i e he
    split at h
    · exact ⟨e, he, Option.some.inj h⟩
    · nomatch h
  · nomatch h

def minTtl (rs : List Record) : Nat :=
  match rs.map Record.ttl with
  | [] => 0
  | t :: ts => ts.foldl min t

def insert (c : DelegationCache) (now : Nat) (step : ChainStep) : DelegationCache :=
  let minDsTtl := minTtl step.ds
  if minDsTtl = 0 then c
  else
    AList.insert step.zone.toLowercase ⟨step, now + secs (min minDsTtl delegationCacheTtlCap)⟩ c

theorem lookup_insert {now : Nat} {e : CachedDelegation}
    (h : AList.lookup zone (c.insert now step) = some e) :
    (zone = step.zone.toLowercase ∧ e.step = step) ∨ c.lookup zone = some e := by
  unfold insert at h
  dsimp only at h
  split at h
  · exact Or.inr h
  · rcases Table.lookup_insert_cases h with ⟨hz, he⟩ | h
    · exact Or.inl ⟨hz, by rw [he]⟩
    · exact Or.inr h

end DelegationCache

/-! ## The response cache -/

structure CacheKey where
  name : Name
  rtype : RecordType
  dnsClass : DNSClass
  deriving DecidableEq, Repr

/-- `CacheKey::new` lower-cases the name. -/
def CacheKey.of (name : Name) (rtype : RecordType) (dnsClass : DNSClass) : CacheKey :=
  ⟨name.toLowercase, rtype, dnsClass⟩

structure TtlLimits where
  minTtl : Nat
  maxTtl : Nat
  negativeTtl : Nat
  maxNegativeTtl : Nat
  deriving DecidableEq, Repr

def soaMinimum? (r : Record) : Option Nat :=
  match r.data with
  | .soa minimum _ => some minimum
  | _ => none

/-- The lifetime of a response in the cache; 0 means that it is not kept. -/
def TtlLimits.computeTtl (l : TtlLimits) (msg : Message) : Nat :=
  let negative :=
    max (min ((msg.authorities.findSome? soaMinimum?).getD l.negativeTtl) l.maxNegativeTtl) l.minTtl
  match msg.responseCode, msg.answers with
  | .nxDomain, [] => negative
  | .noError, [] => negative
  | .noError, r :: rs => max (min ((rs.map Record.ttl).foldl min r.ttl) l.maxTtl) l.minTtl
  | _, _ => 0

/-! ## The cache of failed resolves -/

def negResolveCap : Nat := 256
/-- `NEG_RESOLVE_TTL`, in seconds. -/
def negResolveTtl : Nat := 300

abbrev NegResolveCache := Table (Name × RecordType) Nat

namespace NegResolveCache

def hit (c : NegResolveCache) (now : Nat) (name : Name) (rtype : RecordType) : Bool :=
  (c.lookup (name.toLowercase, rtype)).any fun e => now < e

def insert (c : NegResolveCache) (victim : Name × RecordType) (now : Nat) (name : Name)
    (rtype : RecordType) : NegResolveCache :=
  Table.insertCapped negResolveCap victim now id (name.toLowercase, rtype) (now + secs negResolveTtl) c

end NegResolveCache

end Dnsd.Recursor
