/-
# DotPool — reusable DoT connections (`dot_pool.rs`).

A worker's pool keeps idle connections in buckets, one per upstream endpoint (`DotConnKey`); its mutex makes
`take`, `release` and `sweep` one step each.
-/
import Dnsd.Daemon.Config
import Dnsd.Lib.Spending

namespace Dnsd.Upstream

open Proto Lib List
open Daemon (Via)

abbrev Instant := Nat

def seconds (n : Nat) : Nat := n * 1000000000

def idleCap : Nat := seconds 30

def maxLifetime : Nat := seconds 300

def maxPerKey : Nat := 4

abbrev SocketAddr := IpAddr × UInt16

structure DotConnKey where
  resolver : SocketAddr
  tlsName : String
  via : Via
  torSocks : Option SocketAddr
  isoUser : Option String
  deriving DecidableEq, Repr

structure DotConn (S : Type) where
  stream : S
  createdAt : Instant
  lastUsed : Instant
  deriving DecidableEq, Repr

variable {S : Type}

namespace DotConn

def new (stream : S) (now : Instant) : DotConn S := ⟨stream, now, now⟩

def isStale (c : DotConn S) (now : Instant) : Bool :=
  now - c.lastUsed ≥ idleCap || now - c.createdAt ≥ maxLifetime

end DotConn

/-- The idle connections of each key, the one put back last first.  No operation tells a key without a
bucket from a key with an empty one. -/
structure DotPool (S : Type) where
  idle : DotConnKey → List (DotConn S)

namespace DotPool

def new : DotPool S := ⟨fun _ => []⟩

def set (p : DotPool S) (key : DotConnKey) (bucket : List (DotConn S)) : DotPool S :=
  ⟨fun k => if k = key then bucket else p.idle k⟩

/-- The loop of `take`: pop until a connection is not stale. -/
def pop (now : Instant) : List (DotConn S) → Option (DotConn S) × List (DotConn S)
  | [] => (none, [])
  | c :: cs => if c.isStale now then pop now cs else (some c, cs)

def take (p : DotPool S) (now : Instant) (key : DotConnKey) : Option (DotConn S) × DotPool S :=
  let popped := pop now (p.idle key)
  (popped.1, p.set key popped.2)

def release (p : DotPool S) (now : Instant) (key : DotConnKey) (conn : DotConn S) : DotPool S :=
  let conn := { conn with lastUsed := now }
  if conn.isStale now then p
  else if (p.idle key).length ≥ maxPerKey then p
  else p.set key (conn :: p.idle key)

def sweep (p : DotPool S) (now : Instant) : DotPool S :=
  ⟨fun k => (p.idle k).filter fun c => !c.isStale now⟩

/-! ## What the operations do to a bucket -/

@[simp] theorem idle_new (k : DotConnKey) : (new : DotPool S).idle k = [] := rfl

@[simp] theorem idle_set_self (p : DotPool S) (key : DotConnKey) (bucket : List (DotConn S)) :
    (p.set key bucket).idle key = bucket := if_pos rfl

theorem idle_set_ne {p : DotPool S} {key k : DotConnKey} {bucket : List (DotConn S)} (h : k ≠ key) :
    (p.set key bucket).idle k = p.idle k := if_neg h

theorem pop_suffix (now : Instant) (cs : List (DotConn S)) :
    ((pop now cs).1.toList ++ (pop now cs).2) <:+ cs := by
  induction cs with
  | nil => exact suffix_refl []
  | cons c cs ih =>
    unfold pop
    split
    · exact ih.trans (suffix_cons c cs)
    · exact suffix_refl (c :: cs)

theorem pop_some {now : Instant} {cs : List (DotConn S)} {c : DotConn S} (h : (pop now cs).1 = some c) :
    c ∈ cs ∧ c.isStale now = false := by
  induction cs with
  | nil => cases h
  | cons c' cs ih =>
    unfold pop at h
    split at h
    · exact ⟨.tail _ (ih h).1, (ih h).2⟩
    · rename_i hfresh
      cases h
      exact ⟨mem_cons_self, Bool.eq_false_iff.mpr hfresh⟩

theorem take_bucket (p : DotPool S) (now : Instant) (key k : DotConnKey) :
    ((if k = key then (p.take now key).1.toList else []) ++ (p.take now key).2.idle k) <:+ p.idle k := by
  by_cases hk : k = key
  · subst hk
    rw [if_pos rfl]
    show _ ++ (p.set k _).idle k <:+ _
    rw [idle_set_self]
    exact pop_suffix now (p.idle k)
  · rw [if_neg hk]
    show [] ++ (p.set key _).idle k <:+ _
    rw [idle_set_ne hk]
    exact suffix_refl _

theorem release_bucket (p : DotPool S) (now : Instant) (key k : DotConnKey) (conn : DotConn S) :
    (p.release now key conn).idle k = p.idle k ∨
      k = key ∧ (p.idle k).length < maxPerKey ∧
        (p.release now key conn).idle k = { conn with lastUsed := now } :: p.idle k := by
  unfold release
  dsimp only
  split
  · exact .inl rfl
  split
  · exact .inl rfl
  rename_i hroom
  by_cases hk : k = key
  · subst hk
    exact .inr ⟨rfl, Nat.lt_of_not_le hroom, idle_set_self ..⟩
  · exact .inl (idle_set_ne hk)

theorem mem_release_idle {p : DotPool S} {now : Instant} {key k : DotConnKey} {conn c : DotConn S}
    (hc : c ∈ (p.release now key conn).idle k) :
    c ∈ p.idle k ∨ k = key ∧ c.stream = conn.stream := by
  rcases p.release_bucket now key k conn with hsame | ⟨hk, _, hpush⟩
  · exact .inl (hsame ▸ hc)
  · rw [hpush] at hc
    rcases mem_cons.mp hc with rfl | hc
    · exact .inr ⟨hk, rfl⟩
    · exact .inl hc

theorem sweep_bucket (p : DotPool S) (now : Instant) (k : DotConnKey) :
    ((p.sweep now).idle k).Sublist (p.idle k) :=
  filter_sublist

end DotPool

/-! ## One exchange over a pooled connection -/

inductive PoolError (E : Type) where
  | fresh (e : E)
  | rebuild (e : E)
  | rebuilt (e : E)
  deriving DecidableEq, Repr

variable {Op : Type} {Res : Op → Type} {E R : Type}

section Pooled

variable (take : Prog Op Res (Option (DotConn S))) (now : Prog Op Res Instant)
  (release : DotConn S → Prog Op Res Unit) (build : Prog Op Res (Except E S))
  (exchange : S → Prog Op Res (Except E R))

/-- One exchange with a stream: a healthy stream goes to the pool, any other is dropped.  The exchange
hands back the stream it was given. -/
def exchangeWith (stream : S) (failed : E → Prog Op Res (Except (PoolError E) R)) :
    Prog Op Res (Except (PoolError E) R) := do
  match ← exchange stream with
  | .ok resp =>
      release (.new stream (← now))
      return .ok resp
  | .error e => failed e

/-- `exchange_pooled`.  The pool's operations for the key, the clock, the connection factory and the
exchange are arguments. -/
def exchangePooled : Prog Op Res (Except (PoolError E) R) := do
  match ← take with
  | some conn =>
      exchangeWith now release exchange conn.stream fun _ => do
        -- The reused connection was stale: rebuild, once.
        match ← build with
        | .error e => return .error (.rebuild e)
        | .ok stream => exchangeWith now release exchange stream fun e => return .error (.rebuilt e)
  | none =>
      match ← build with
      | .error e => return .error (.fresh e)
      | .ok stream => exchangeWith now release exchange stream fun e => return .error (.fresh e)

end Pooled

section Rules

variable {take : Prog Op Res (Option (DotConn S))} {now : Prog Op Res Instant}
  {release : DotConn S → Prog Op Res Unit} {build : Prog Op Res (Except E S)}
  {exchange : S → Prog Op Res (Except E R)}

/-- **The rule for calls.**  `K g s` is what a call needs to know of a stream before it may use it or put
it back: `take` and the factory give it, and an exchange keeps it unless it fails. -/
theorem exchangePooled_safe {γ : Type} {C : Contract γ Op Res} {K : γ → S → Prop}
    (htake : ∀ g, C.Safe g take fun h hit => ∀ c, hit = some c → K h c.stream)
    (hnow : ∀ g s, K g s → C.Safe g now fun h _ => K h s)
    (hrelease : ∀ g c, K g c.stream → C.Safe g (release c) fun _ _ => True)
    (hbuild : ∀ g, C.Safe g build fun h r => ∀ s, r = .ok s → K h s)
    (hexchange : ∀ g s, K g s → C.Safe g (exchange s) fun h r => ∀ resp, r = .ok resp → K h s)
    (g : γ) : C.Safe g (exchangePooled take now release build exchange) fun _ _ => True := by
  have hwith : ∀ g s failed, K g s → (∀ h e, C.Safe h (failed e) fun _ _ => True) →
      C.Safe g (exchangeWith now release exchange s failed) fun _ _ => True := by
    intro g s failed hs hfailed
    refine (hexchange g s hs).bind fun h r hr => ?_
    cases r with
    | ok resp =>
      refine (hnow h s (hr resp rfl)).bind fun h t hs => ?_
      exact (hrelease h (.new s t) hs).bind fun _ _ _ => trivial
    | error e => exact hfailed h e
  refine (htake g).bind fun h hit hhit => ?_
  cases hit with
  | some conn =>
    refine hwith h conn.stream _ (hhit conn rfl) fun h _ => (hbuild h).bind fun h fresh hfresh => ?_
    cases fresh with
    | error e => trivial
    | ok s => exact hwith h s _ (hfresh s rfl) fun _ _ => trivial
  | none =>
    refine (hbuild h).bind fun h fresh hfresh => ?_
    cases fresh with
    | error e => trivial
    | ok s => exact hwith h s _ (hfresh s rfl) fun _ _ => trivial

theorem exchangePooled_ok {ok : (o : Op) → Res o → Prop} {t : Prog.Trace Res} {resp : R}
    (h : (exchangePooled take now release build exchange).Runs ok t (some (.ok resp))) :
    ∃ t₁ t₂ t₃ s, t = t₁ ++ t₂ ++ t₃ ∧ (exchange s).Runs ok t₂ (some (.ok resp)) := by
  have hwith : ∀ s failed t, (exchangeWith now release exchange s failed).Runs ok t (some (.ok resp)) →
      (∃ t₂ t₃, t = t₂ ++ t₃ ∧ (exchange s).Runs ok t₂ (some (.ok resp))) ∨
        ∃ t₂ t₃ e, t = t₂ ++ t₃ ∧ (failed e).Runs ok t₃ (some (.ok resp)) := by
    intro s failed t h
    obtain ⟨t₂, t₃, r, rfl, hexchange, h⟩ := Prog.runs_bind.mp h
    cases r with
    | error e => exact .inr ⟨t₂, t₃, e, rfl, h⟩
    | ok r =>
      obtain ⟨_, _, i, rfl, _, h⟩ := Prog.runs_bind.mp h
      obtain ⟨_, _, _, rfl, _, h⟩ := Prog.runs_bind.mp h
      obtain ⟨rfl, hres⟩ := Prog.runs_ret.mp h
      obtain rfl := Except.ok.inj hres
      exact .inl ⟨t₂, _, rfl, hexchange⟩
  -- A connection that is built and whose failure is final.
  have hfresh : ∀ (wrap wrap' : E → PoolError E) t,
      (build >>= fun
        | .error e => Prog.ret (.error (wrap e))
        | .ok s => exchangeWith now release exchange s fun e => .ret (.error (wrap' e))).Runs ok t
          (some (.ok resp)) →
      ∃ t₁ t₂ t₃ s, t = t₁ ++ t₂ ++ t₃ ∧ (exchange s).Runs ok t₂ (some (.ok resp)) := by
    intro wrap wrap' t h
    obtain ⟨t₁, _, fresh, rfl, _, h⟩ := Prog.runs_bind.mp h
    cases fresh with
    | error e => nomatch (Prog.runs_ret.mp h).2
    | ok s =>
      rcases hwith s _ _ h with ⟨t₂, t₃, rfl, hx⟩ | ⟨_, _, e, rfl, hx⟩
      · exact ⟨t₁, t₂, t₃, s, by rw [append_assoc], hx⟩
      · nomatch (Prog.runs_ret.mp hx).2
  obtain ⟨t₀, _, hit, rfl, _, h⟩ := Prog.runs_bind.mp h
  cases hit with
  | none =>
    obtain ⟨t₁, t₂, t₃, s, rfl, hx⟩ := hfresh .fresh .fresh _ h
    exact ⟨t₀ ++ t₁, t₂, t₃, s, by simp only [append_assoc], hx⟩
  | some conn =>
    rcases hwith conn.stream _ _ h with ⟨t₂, t₃, rfl, hx⟩ | ⟨t', _, _, rfl, hx⟩
    · exact ⟨t₀, t₂, t₃, conn.stream, by rw [append_assoc], hx⟩
    · obtain ⟨t₁, t₂, t₃, s, rfl, hlast⟩ := hfresh .rebuild .rebuilt _ hx
      exact ⟨t₀ ++ t' ++ t₁, t₂, t₃, s, by simp only [append_assoc], hlast⟩

/-- **A call builds at most one connection and makes at most two exchanges**: where the pool's operations
and the clock are free, it needs what one build and two exchanges need. -/
theorem exchangePooled_affords {price : Op → Nat} {post : (o : Op) → Res o → Prop} {b x : Nat}
    (htake : Contract.Affords price post 0 take) (hnow : Contract.Affords price post 0 now)
    (hrelease : ∀ c, Contract.Affords price post 0 (release c))
    (hbuild : Contract.Affords price post b build)
    (hexchange : ∀ s, Contract.Affords price post x (exchange s)) :
    Contract.Affords price post (b + 2 * x) (exchangePooled take now release build exchange) := by
  have hdone : ∀ r : Except (PoolError E) R, Contract.Affords price post 0 (Prog.ret r : Prog Op Res _) :=
    fun _ => trivial
  have hwith : ∀ s failed n, (∀ e, Contract.Affords price post n (failed e)) →
      Contract.Affords price post (x + n) (exchangeWith now release exchange s failed) := by
    intro s failed n hfailed
    refine (hexchange s).seq fun r => ?_
    cases r with
    | ok resp =>
      refine Contract.Affords.mono ?_ (Nat.zero_le n)
      exact hnow.seq fun t => (hrelease _).seq fun _ => hdone _
    | error e => exact hfailed e
  have hfresh : ∀ wrap wrap' : E → PoolError E, Contract.Affords price post (b + (x + 0))
      (build >>= fun
        | .error e => Prog.ret (.error (wrap e))
        | .ok s => exchangeWith now release exchange s fun e => .ret (.error (wrap' e))) := by
    intro wrap wrap'
    refine hbuild.seq fun fresh => ?_
    cases fresh with
    | error e => exact (hdone _).mono (Nat.zero_le _)
    | ok s => exact hwith s _ 0 fun e => hdone _
  have hsum : b + 2 * x = 0 + (x + (b + (x + 0))) := by omega
  rw [hsum]
  refine htake.seq fun hit => ?_
  cases hit with
  | some conn => exact hwith _ _ _ fun _ => hfresh .rebuild .rebuilt
  | none => exact (hfresh .fresh .fresh).mono (Nat.le_add_left _ _)

end Rules

end Dnsd.Upstream
