/-
# World — the shared state, and everything a query may do to it.

A process runs several handlers over its life, named by `ι`; the response cache is shared by all of them, and the
rest belongs to one handler.  `Op` is every effect in the code under `recursor/`; what the code does in between is
pure.  Ghosts that the code does not have: the zone whose servers a query is sent to, where a cache entry comes
from, the step on whose account a DNSKEY cache entry changes, and `note`, which adds to the history.
-/
import Dnsd.Lib.Contract
import Dnsd.Recursor.Cache

namespace Dnsd.Recursor

open Proto Lib

inductive Reply where
  | failed
  | unparsed
  | parsed (msg : Message)
  deriving DecidableEq, Repr

inductive Origin where
  /-- `cache_glue`, for a response of the servers of `asked`. -/
  | glue (asked : Name)
  /-- `cache_zone_ns`, for a response of the servers of `asked`. -/
  | zoneNs (asked : Name)
  /-- The raw response of root priming. -/
  | primed
  /-- An RFC 6303 local zone. -/
  | localZone
  /-- `resolve_with_chain` without validation. -/
  | walked
  /-- `resolve_validate_cache`. -/
  | resolved
  /-- The forwarder path of `handle_bytes`. -/
  | forwarded
  /-- `resolve_forwarded`, the DNS64 PTR path. -/
  | ptrForwarded
  deriving DecidableEq, Repr

/-- What the history records. -/
inductive Event where
  /-- A walk added keys for a zone to the keys it trusts. -/
  | admitted (zone : Name) (keys : List DNSKEY)
  /-- A positive DNSKEY entry was dropped on account of a step. -/
  | invalidated (zone : Name) (step : ChainStep)
  /-- A zone was marked negative on account of a step. -/
  | negative (zone : Name) (step : ChainStep)
  /-- `validate_walk` returned. -/
  | verdict (walk : WalkChain) (answer : Message) (status : ValidationStatus) (zones : List Name)
  /-- A client's answer was built from a cache entry. -/
  | served (key : CacheKey) (msg : Message)
  /-- A response was handed to the client. -/
  | sent (resp : Message)
  deriving DecidableEq, Repr

/-- The effects. -/
inductive Op where
  /-- Seconds since the epoch, as the validity check reads them. -/
  | unixNow
  /-- Whether a deadline has passed. -/
  | struck
  /-- Whose turn it is among futures polled together. -/
  | turn
  /-- Which of `n` futures in flight completes first. -/
  | pick (n : Nat)
  | shuffle (ips : List IpAddr)
  | isReady
  | rrlCheck (peer : IpAddr)
  | query (asked : Name) (ip : IpAddr) (q : Query)
  | forward (domain : Name) (query : Message)
  | loadAnchors
  | readRoots
  | writeRoots (ips : List IpAddr)
  | keyGet (zone : Name)
  | keyPut (zone : Name) (keys : List DNSKEY) (ttl : Nat)
  | keyInvalidate (zone : Name) (step : ChainStep)
  | keyHasNegative (zone : Name)
  | keyPutNegative (zone : Name) (step : ChainStep)
  | delegationGet (zone : Name)
  | delegationInsert (step : ChainStep)
  | cacheGet (key : CacheKey)
  | cachePut (origin : Origin) (key : CacheKey) (msg : Message)
  | negHit (name : Name) (rtype : RecordType)
  | negInsert (name : Name) (rtype : RecordType)
  | note (e : Event)

/-- The answers of the effects. -/
@[reducible] def Op.Res : Op → Type
  | .unixNow => UInt32
  | .struck => Bool
  | .turn => Bool
  | .pick _ => Nat
  | .shuffle _ => List IpAddr
  | .isReady => Bool
  | .rrlCheck _ => Bool
  | .query _ _ _ => Reply
  | .forward _ _ => Reply
  | .loadAnchors => TrustAnchors
  | .readRoots => List IpAddr
  | .writeRoots _ => Unit
  | .keyGet _ => Option (List DNSKEY)
  | .keyPut _ _ _ => Unit
  | .keyInvalidate _ _ => Unit
  | .keyHasNegative _ => Bool
  | .keyPutNegative _ _ => Unit
  | .delegationGet _ => Option ChainStep
  | .delegationInsert _ => Unit
  | .cacheGet _ => Option Message
  | .cachePut _ _ _ => Unit
  | .negHit _ _ => Bool
  | .negInsert _ _ => Unit
  | .note _ => Unit

abbrev RProg (α : Type) := Prog Op Op.Res α

abbrev call (o : Op) : RProg o.Res := Prog.perform o

def joinAll {α : Type} (ps : List (RProg α)) : RProg (List α) := Prog.parAll .turn (fun b => b) ps

def timeout {α : Type} (p : RProg α) : RProg (Option α) := Prog.cancellable .struck (fun b => b) p

section

open Contract

variable {pre : Op → Prop} {post : (o : Op) → o.Res → Prop} {α δ : Type}

theorem timeout_safe (hstruck : pre .struck) {p : RProg α} {Q : α → Prop}
    (h : (Contract.plain pre post).Safe () p fun _ a => Q a) :
    (Contract.plain pre post).Safe () (timeout p) fun _ o =>
      (∀ a, o = some a → Q a) ∧ (o = none → post .struck true) := by
  refine Safe.cancellable (plain_monotone _ _) (fun _ => hstruck) ?_ (fun _ _ _ _ hq => hq) h
  intro _ t ht hstruck
  exact hstruck ▸ ht

theorem joinAll_safe (hturn : pre .turn) {f : δ → RProg α} {Q : δ → α → Prop} {ds : List δ}
    (h : ∀ d ∈ ds, (Contract.plain pre post).Safe () (f d) fun _ a => Q d a) :
    (Contract.plain pre post).Safe () (joinAll (ds.map f)) fun _ as => List.Forall₂ Q ds as :=
  Safe.parAll (plain_monotone _ _) (fun _ => hturn) (fun _ _ _ _ _ hq => hq) h

end

/-! ## The state -/

structure Instance where
  roots : List IpAddr
  anchors : TrustAnchors
  keys : DnskeyCache
  delegations : DelegationCache
  negResolve : NegResolveCache

structure CacheEntry where
  msg : Message
  expires : Nat
  /-- Ghost: who stored the entry. -/
  origin : Origin
  deriving DecidableEq, Repr

structure World (ι : Type) where
  now : Nat
  limits : TtlLimits
  cache : Table CacheKey CacheEntry
  inst : ι → Instance
  log : List (ι × Event)

/-- A handler just built: no cached keys, delegations or failures. -/
def Instance.fresh (roots : List IpAddr) (anchors : TrustAnchors) : Instance :=
  ⟨roots, anchors, .empty, ∅, ∅⟩

namespace World

variable {ι : Type} [DecidableEq ι]

def updInst (w : World ι) (i : ι) (f : Instance → Instance) : World ι :=
  { w with inst := fun j => if j = i then f (w.inst j) else w.inst j }

def record (w : World ι) (i : ι) (e : Event) : World ι := { w with log := (i, e) :: w.log }

def cacheLookup (w : World ι) (key : CacheKey) : Option Message :=
  match w.cache.lookup key with
  | some e => if e.expires ≤ w.now then none else some e.msg
  | none => none

/-- `DnsCache::put`: a computed lifetime of 0 stores nothing. -/
def cacheStore (w : World ι) (origin : Origin) (key : CacheKey) (msg : Message) : World ι :=
  let ttl := w.limits.computeTtl msg
  if ttl = 0 then w
  else { w with cache := w.cache.insert key ⟨msg, w.now + secs ttl, origin⟩ }

/-- The effect of an operation of handler `i`.  `victim` is the live entry a full table drops. -/
def apply (w : World ι) (i : ι) (victim : Name × RecordType) : Op → World ι
  | .writeRoots ips => w.updInst i fun s => { s with roots := ips }
  | .keyPut zone keys ttl =>
      w.updInst i fun s => { s with keys := s.keys.putPositive victim.1 w.now zone keys ttl }
  | .keyInvalidate zone step =>
      (w.updInst i fun s => { s with keys := s.keys.invalidatePositive zone }).record i
        (.invalidated zone step)
  | .keyPutNegative zone step =>
      (w.updInst i fun s => { s with keys := s.keys.putNegative victim.1 w.now zone }).record i
        (.negative zone step)
  | .delegationInsert step =>
      w.updInst i fun s => { s with delegations := s.delegations.insert w.now step }
  | .cacheGet key => if (w.cacheLookup key).isNone then { w with cache := w.cache.erase key } else w
  | .cachePut origin key msg => w.cacheStore origin key msg
  | .negInsert name rtype =>
      w.updInst i fun s => { s with negResolve := s.negResolve.insert victim w.now name rtype }
  | .note e => w.record i e
  | _ => w

end World

/-! ## What an operation can change -/

def Op.event? : Op → Option Event
  | .keyInvalidate zone step => some (.invalidated zone step)
  | .keyPutNegative zone step => some (.negative zone step)
  | .note e => some e
  | _ => none

namespace World

variable {ι : Type} [DecidableEq ι] {w : World ι} {i j : ι} {victim : Name × RecordType} {o : Op}
  {f : Instance → Instance} {key : CacheKey} {zone : Name}

@[simp] theorem inst_updInst_self : (w.updInst i f).inst i = f (w.inst i) := by
  simp [updInst]

theorem inst_updInst_ne (h : j ≠ i) : (w.updInst i f).inst j = w.inst j := by
  simp [updInst, h]

omit [DecidableEq ι] in
@[simp] theorem inst_record {e : Event} : (w.record i e).inst = w.inst := rfl

theorem log_apply : (w.apply i victim o).log = (o.event?.map fun e => (i, e)).toList ++ w.log := by
  cases o with
  | cacheGet key => simp only [apply]; split <;> rfl
  | cachePut origin key msg => simp only [apply, cacheStore]; split <;> rfl
  | _ => rfl

theorem mem_log_apply {e : ι × Event} :
    e ∈ (w.apply i victim o).log ↔ (∃ ev, o.event? = some ev ∧ e = (i, ev)) ∨ e ∈ w.log := by
  rw [log_apply, List.mem_append]
  cases o.event? <;> simp

theorem inst_apply_ne (h : j ≠ i) : (w.apply i victim o).inst j = w.inst j := by
  cases o with
  | cacheGet key => simp only [apply]; split <;> rfl
  | cachePut origin key msg => simp only [apply, cacheStore]; split <;> rfl
  | writeRoots _ | keyPut _ _ _ | keyInvalidate _ _ | keyPutNegative _ _ | delegationInsert _
  | negInsert _ _ =>
    simp [apply, inst_updInst_ne h]
  | _ => rfl

theorem anchors_apply : ((w.apply i victim o).inst j).anchors = (w.inst j).anchors := by
  by_cases hj : j = i
  · subst hj
    cases o with
    | cacheGet key => simp only [apply]; split <;> rfl
    | cachePut origin key msg => simp only [apply, cacheStore]; split <;> rfl
    | writeRoots _ | keyPut _ _ _ | keyInvalidate _ _ | keyPutNegative _ _ | delegationInsert _
    | negInsert _ _ =>
      simp [apply]
    | _ => rfl
  · rw [inst_apply_ne hj]

theorem roots_apply (h : ∀ ips, o ≠ .writeRoots ips) :
    ((w.apply i victim o).inst j).roots = (w.inst j).roots := by
  by_cases hj : j = i
  · subst hj
    cases o with
    | cacheGet key => simp only [apply]; split <;> rfl
    | cachePut origin key msg => simp only [apply, cacheStore]; split <;> rfl
    | writeRoots ips => exact absurd rfl (h ips)
    | keyPut _ _ _ | keyInvalidate _ _ | keyPutNegative _ _ | delegationInsert _ | negInsert _ _ =>
      simp [apply]
    | _ => rfl
  · rw [inst_apply_ne hj]

theorem lookup_positive_apply {e : PositiveEntry}
    (h : ((w.apply i victim o).inst j).keys.positive.lookup zone = some e) :
    (w.inst j).keys.positive.lookup zone = some e ∨ ∃ ttl, j = i ∧ o = .keyPut zone e.keys ttl := by
  by_cases hj : j = i
  · subst hj
    cases o with
    | cacheGet key => left; simp only [apply] at h; split at h <;> exact h
    | cachePut origin key msg => left; simp only [apply, cacheStore] at h; split at h <;> exact h
    | keyPut z keys ttl =>
      simp only [apply, inst_updInst_self, DnskeyCache.putPositive] at h
      rcases Table.lookup_insertCapped h with ⟨rfl, rfl⟩ | h
      · exact Or.inr ⟨ttl, rfl, rfl⟩
      · exact Or.inl h
    | keyInvalidate z step =>
      simp only [apply, inst_record, inst_updInst_self, DnskeyCache.invalidatePositive] at h
      by_cases hz : zone = z
      · subst hz
        rw [AList.lookup_erase] at h
        nomatch h
      · rw [AList.lookup_erase_ne hz] at h
        exact Or.inl h
    | writeRoots _ | keyPutNegative _ _ | delegationInsert _ | negInsert _ _ =>
      left
      simpa [apply, DnskeyCache.putNegative] using h
    | _ => exact Or.inl h
  · rw [inst_apply_ne hj] at h
    exact Or.inl h

theorem lookup_negative_apply {e : Nat}
    (h : ((w.apply i victim o).inst j).keys.negative.lookup zone = some e) :
    (w.inst j).keys.negative.lookup zone = some e ∨ ∃ step, j = i ∧ o = .keyPutNegative zone step := by
  by_cases hj : j = i
  · subst hj
    cases o with
    | cacheGet key => left; simp only [apply] at h; split at h <;> exact h
    | cachePut origin key msg => left; simp only [apply, cacheStore] at h; split at h <;> exact h
    | keyPutNegative z step =>
      simp only [apply, inst_record, inst_updInst_self, DnskeyCache.putNegative] at h
      rcases Table.lookup_insertCapped h with ⟨rfl, rfl⟩ | h
      · exact Or.inr ⟨step, rfl, rfl⟩
      · exact Or.inl h
    | writeRoots _ | keyPut _ _ _ | keyInvalidate _ _ | delegationInsert _ | negInsert _ _ =>
      left
      simpa [apply, DnskeyCache.putPositive, DnskeyCache.invalidatePositive] using h
    | _ => exact Or.inl h
  · rw [inst_apply_ne hj] at h
    exact Or.inl h

theorem lookup_delegations_apply {e : CachedDelegation}
    (h : AList.lookup zone ((w.apply i victim o).inst j).delegations = some e) :
    AList.lookup zone (w.inst j).delegations = some e ∨
      j = i ∧ o = .delegationInsert e.step ∧ zone = e.step.zone.toLowercase := by
  by_cases hj : j = i
  · subst hj
    cases o with
    | cacheGet key => left; simp only [apply] at h; split at h <;> exact h
    | cachePut origin key msg => left; simp only [apply, cacheStore] at h; split at h <;> exact h
    | delegationInsert step =>
      simp only [apply, inst_updInst_self] at h
      rcases DelegationCache.lookup_insert h with ⟨hz, hs⟩ | h
      · subst hs
        exact Or.inr ⟨rfl, rfl, hz⟩
      · exact Or.inl h
    | writeRoots _ | keyPut _ _ _ | keyInvalidate _ _ | keyPutNegative _ _ | negInsert _ _ =>
      left
      simpa [apply] using h
    | _ => exact Or.inl h
  · rw [inst_apply_ne hj] at h
    exact Or.inl h

theorem lookup_cache_apply {e : CacheEntry} (h : (w.apply i victim o).cache.lookup key = some e) :
    w.cache.lookup key = some e ∨
      o = .cachePut e.origin key e.msg ∧ w.limits.computeTtl e.msg ≠ 0 ∧
        e.expires = w.now + secs (w.limits.computeTtl e.msg) := by
  cases o with
  | cacheGet k =>
    left
    simp only [apply] at h
    split at h
    · by_cases hk : key = k
      · subst hk
        rw [AList.lookup_erase] at h
        nomatch h
      · rwa [AList.lookup_erase_ne hk] at h
    · exact h
  | cachePut origin k msg =>
    simp only [apply, cacheStore] at h
    split at h
    · exact Or.inl h
    rename_i hkept
    rcases Table.lookup_insert_cases h with ⟨rfl, rfl⟩ | h
    · exact Or.inr ⟨rfl, hkept, rfl⟩
    · exact Or.inl h
  | _ => exact Or.inl h

@[simp] theorem now_apply : (w.apply i victim o).now = w.now := by
  cases o with
  | cacheGet key => simp only [apply]; split <;> rfl
  | cachePut origin key msg => simp only [apply, cacheStore]; split <;> rfl
  | _ => rfl

@[simp] theorem limits_apply : (w.apply i victim o).limits = w.limits := by
  cases o with
  | cacheGet key => simp only [apply]; split <;> rfl
  | cachePut origin key msg => simp only [apply, cacheStore]; split <;> rfl
  | _ => rfl

omit [DecidableEq ι] in
theorem cacheLookup_eq_some {msg : Message} (h : w.cacheLookup key = some msg) :
    ∃ e, w.cache.lookup key = some e ∧ e.msg = msg := by
  unfold cacheLookup at h
  split at h
  · rename_i e he
    split at h
    · nomatch h
    · exact ⟨e, he, Option.some.inj h⟩
  · nomatch h

end World

/-! ## The outside world and the transitions -/

/-- What is asked of the outside world: which replies, clock readings and anchors can occur, and whether
a deadline can pass. -/
structure Net (ι : Type) where
  reply : Name → IpAddr → Query → Reply → Prop
  forward : ι → Name → Message → Reply → Prop
  clock : UInt32 → Prop
  anchors : ι → TrustAnchors → Prop
  deadlines : Prop

/-- The answers a task can get when nothing is said of the rest of the process: replies and clock readings
of the network, anything else. -/
def anyProcess {ι : Type} (N : Net ι) : (o : Op) → o.Res → Prop
  | .unixNow, t => N.clock t
  | .query asked ip q, r => N.reply asked ip q r
  | _, _ => True

section

variable {ι : Type} [DecidableEq ι]

/-- The answers an operation of handler `i` can get. -/
def Answers (N : Net ι) (i : ι) (w : World ι) : (o : Op) → o.Res → Prop
  | .unixNow, t => N.clock t
  | .struck, b => b = true → N.deadlines
  | .shuffle ips, r => r.Perm ips
  | .query asked ip q, r => N.reply asked ip q r
  | .forward domain m, r => N.forward i domain m r
  | .loadAnchors, a => a = (w.inst i).anchors
  | .readRoots, ips => ips = (w.inst i).roots
  | .keyGet zone, r => r = (w.inst i).keys.getPositive w.now zone
  | .keyHasNegative zone, b => b = (w.inst i).keys.hasNegative w.now zone
  | .delegationGet zone, r => r = (w.inst i).delegations.get w.now zone
  | .cacheGet key, r => r = w.cacheLookup key
  | .negHit name rtype, b => b = (w.inst i).negResolve.hit w.now name rtype
  | _, _ => True

def Step (N : Net ι) (i : ι) (w : World ι) (o : Op) (r : o.Res) (w' : World ι) : Prop :=
  Answers N i w o r ∧ ∃ victim, w' = w.apply i victim o

/-- What happens besides the queries: time passes, the response cache forgets (or is flushed), a new
set of trust anchors is published. -/
inductive Env (N : Net ι) : World ι → World ι → Prop
  | tick {w : World ι} (t : Nat) : w.now ≤ t → Env N w { w with now := t }
  | forget {w : World ι} (ks : List CacheKey) : Env N w { w with cache := Table.eraseAll w.cache ks }
  | anchors {w : World ι} (i : ι) (a : TrustAnchors) :
      N.anchors i a → Env N w (w.updInst i fun s => { s with anchors := a })

structure Env.Frame (N : Net ι) (w w' : World ι) : Prop where
  log : w'.log = w.log
  roots : ∀ i, (w'.inst i).roots = (w.inst i).roots
  keys : ∀ i, (w'.inst i).keys = (w.inst i).keys
  delegations : ∀ i, (w'.inst i).delegations = (w.inst i).delegations
  anchors : ∀ i, N.anchors i (w.inst i).anchors → N.anchors i (w'.inst i).anchors
  cache : ∀ key e, w'.cache.lookup key = some e → w.cache.lookup key = some e

theorem Env.frame {N : Net ι} {w w' : World ι} (h : Env N w w') : Env.Frame N w w' := by
  cases h with
  | tick t _ =>
    exact ⟨rfl, fun _ => rfl, fun _ => rfl, fun _ => rfl, fun _ h => h, fun _ _ h => h⟩
  | forget ks =>
    exact ⟨rfl, fun _ => rfl, fun _ => rfl, fun _ => rfl, fun _ h => h,
      fun _ _ h => Table.lookup_eraseAll h⟩
  | anchors i a ha =>
    have hinst : ∀ j, (w.updInst i fun s => { s with anchors := a }).inst j =
        if j = i then { w.inst j with anchors := a } else w.inst j := fun _ => rfl
    refine ⟨rfl, fun j => ?_, fun j => ?_, fun j => ?_, fun j hj => ?_, fun _ _ h => h⟩
    · rw [hinst]; split <;> rfl
    · rw [hinst]; split <;> rfl
    · rw [hinst]; split <;> rfl
    · rw [hinst]
      split
      · rename_i h
        exact h ▸ ha
      · exact hj

structure Init (N : Net ι) (w : World ι) : Prop where
  cache : w.cache = ∅
  log : w.log = []
  fresh : ∀ i, ∃ roots anchors, N.anchors i anchors ∧ w.inst i = Instance.fresh roots anchors

/-- The process: `start` says which programs its handlers run. -/
def system (N : Net ι) (start : ι → RProg Unit → Prop) : System ι Op Op.Res (World ι) where
  init := Init N
  env := Env N
  step := Step N
  start := start

end

end Dnsd.Recursor
