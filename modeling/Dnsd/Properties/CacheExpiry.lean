/-
# CacheExpiry — for how long the response cache returns what was put into it.

An entry should be returned only while it is younger than every TTL that speaks about it (`Expiry`).
`compute_ttl` does not look at the TTL of the SOA record, and raises the lifetime to `min_ttl` after capping it.
-/
import Dnsd.Lib.Machine
import Dnsd.Recursor.World

namespace Dnsd.Recursor

open Proto Lib List

/-! ## The law -/

structure Expiry (l : TtlLimits) (msg : Message) (age : Nat) : Prop where
  known : msg.responseCode = .noError ∨ msg.responseCode = .nxDomain
  positive : msg.responseCode = .noError → msg.answers ≠ [] →
    age < secs l.maxTtl ∧ (l.minTtl = 0 → ∀ r ∈ msg.answers, age < secs r.ttl)
  negative : msg.responseCode = .nxDomain ∨ msg.answers = [] →
    age < secs l.maxNegativeTtl ∧ (l.minTtl = 0 → ∀ r ∈ msg.authorities, ∀ m, soaMinimum? r = some m →
      age < secs r.ttl ∧ age < secs m)

/-- The lifetime of a negative response before it is raised to `min_ttl`. -/
def TtlLimits.negativeLifetime (l : TtlLimits) (msg : Message) : Nat :=
  min ((msg.authorities.findSome? soaMinimum?).getD l.negativeTtl) l.maxNegativeTtl

/-- `min_ttl` is not above the cap, and a SOA record does not end before the lifetime that its MINIMUM and
the cap allow. -/
structure TtlLimits.Bounded (l : TtlLimits) (msg : Message) : Prop where
  positive : msg.answers ≠ [] → l.minTtl ≤ l.maxTtl
  negative : msg.answers = [] → l.minTtl ≤ l.maxNegativeTtl
  soa : msg.answers = [] → l.minTtl = 0 → ∀ r ∈ msg.authorities, ∀ m, soaMinimum? r = some m →
    l.negativeLifetime msg ≤ r.ttl ∧ l.negativeLifetime msg ≤ m

/-! ## Lifetimes -/

theorem secs_lt_secs {a b : Nat} : secs a < secs b ↔ a < b := by
  unfold secs
  omega

theorem forall_lt_secs {a b : Nat} : (∀ t < secs a, t < secs b) ↔ a ≤ b := by
  constructor
  · intro h
    refine Nat.le_of_not_lt fun hlt => ?_
    exact Nat.lt_irrefl _ (h (secs b) (secs_lt_secs.mpr hlt))
  · intro h t ht
    exact Nat.lt_of_lt_of_le ht (Nat.mul_le_mul_right _ h)

theorem foldl_min_le {ts : List Nat} {t : Nat} : ts.foldl min t ≤ t ∧ ∀ x ∈ ts, ts.foldl min t ≤ x := by
  induction ts generalizing t with
  | nil => exact ⟨Nat.le_refl t, fun _ h => nomatch h⟩
  | cons y ts ih =>
    obtain ⟨hstart, hrest⟩ := ih (t := min t y)
    refine ⟨hstart.trans (Nat.min_le_left ..), fun x hx => ?_⟩
    rcases mem_cons.mp hx with rfl | hx
    · exact hstart.trans (Nat.min_le_right ..)
    · exact hrest x hx

/-- **What is kept, and for how long**: a positive response for no longer than its records say, a negative one
for what the SOA and the cap allow; both are capped first and then raised to `min_ttl`. -/
theorem computeTtl_cases {l : TtlLimits} {msg : Message} (h : l.computeTtl msg ≠ 0) :
    (msg.responseCode = .noError ∧ msg.answers ≠ [] ∧
      ∃ t, (∀ r ∈ msg.answers, t ≤ r.ttl) ∧ l.computeTtl msg = max (min t l.maxTtl) l.minTtl) ∨
    ((msg.responseCode = .noError ∨ msg.responseCode = .nxDomain) ∧ msg.answers = [] ∧
      l.computeTtl msg = max (l.negativeLifetime msg) l.minTtl) := by
  unfold TtlLimits.computeTtl at h ⊢
  split at h
  · rename_i hrc hans
    exact .inr ⟨.inr hrc, hans, rfl⟩
  · rename_i hrc hans
    exact .inr ⟨.inl hrc, hans, rfl⟩
  · rename_i r rs hrc hans
    refine .inl ⟨hrc, hans ▸ cons_ne_nil r rs, (rs.map Record.ttl).foldl min r.ttl, ?_, rfl⟩
    intro x hx
    rw [hans] at hx
    rcases mem_cons.mp hx with rfl | hx
    · exact foldl_min_le.1
    · exact foldl_min_le.2 _ (mem_map_of_mem hx)
  · exact absurd rfl h

/-- **The lifetime is right exactly under these bounds.** -/
theorem expiry_iff_bounded {l : TtlLimits} {msg : Message} (hkept : l.computeTtl msg ≠ 0) :
    (∀ age < secs (l.computeTtl msg), Expiry l msg age) ↔ l.Bounded msg := by
  rcases computeTtl_cases hkept with ⟨hrc, hans, t, ht, httl⟩ | ⟨hrc, hans, httl⟩
  · constructor
    · intro h
      have hcap : l.computeTtl msg ≤ l.maxTtl :=
        forall_lt_secs.mp fun age hage => ((h age hage).positive hrc hans).1
      exact ⟨fun _ => by omega, fun hnil => absurd hnil hans, fun hnil => absurd hnil hans⟩
    · intro h age hage
      have hbound := h.positive hans
      refine ⟨.inl hrc, fun _ _ => ⟨forall_lt_secs.mpr (by omega) age hage, fun hmin r hr => ?_⟩, ?_⟩
      · have hr' := ht r hr
        exact forall_lt_secs.mpr (by omega) age hage
      · rintro (hnx | hnil)
        · nomatch hrc.symm.trans hnx
        · exact absurd hnil hans
  · have hneg : msg.responseCode = .nxDomain ∨ msg.answers = [] := .inr hans
    have hle : l.negativeLifetime msg ≤ l.maxNegativeTtl := Nat.min_le_right ..
    constructor
    · intro h
      have hcap : l.computeTtl msg ≤ l.maxNegativeTtl :=
        forall_lt_secs.mp fun age hage => ((h age hage).negative hneg).1
      refine ⟨fun hne => absurd hans hne, fun _ => by omega, fun _ hmin r hr m hm => ?_⟩
      have hsoa := fun age hage => ((h age hage).negative hneg).2 hmin r hr m hm
      have httlBound : l.computeTtl msg ≤ r.ttl := forall_lt_secs.mp fun age hage => (hsoa age hage).1
      have hminBound : l.computeTtl msg ≤ m := forall_lt_secs.mp fun age hage => (hsoa age hage).2
      exact ⟨by omega, by omega⟩
    · intro h age hage
      have hbound := h.negative hans
      refine ⟨hrc, fun _ hne => absurd hans hne, fun _ => ⟨?_, fun hmin r hr m hm => ?_⟩⟩
      · exact forall_lt_secs.mpr (by omega) age hage
      · obtain ⟨httlBound, hminBound⟩ := h.soa hans hmin r hr m hm
        exact ⟨forall_lt_secs.mpr (by omega) age hage, forall_lt_secs.mpr (by omega) age hage⟩

/-! ## Runs -/

inductive CacheEvent where
  | tick (d : Nat)
  | forget (keys : List CacheKey)
  | put (origin : Origin) (key : CacheKey) (msg : Message)
  | get (key : CacheKey)

def onCache (w : World Unit) (o : Op) : World Unit := w.apply () (Name.root, .A) o

/-- `DnsCache`, one event at a time; a lookup drops an entry that has ended. -/
def cacheStep : Machine (World Unit) CacheEvent
  | w, .tick d => some { w with now := w.now + d }
  | w, .forget keys => some { w with cache := Table.eraseAll w.cache keys }
  | w, .put origin key msg => some (onCache w (.cachePut origin key msg))
  | w, .get key => some (onCache w (.cacheGet key))

def PutBy (w : World Unit) (run : List CacheEvent) (now : Nat) (key : CacheKey) (e : CacheEntry) : Prop :=
  ∃ before after w₀, run = before ++ .put e.origin key e.msg :: after ∧
    cacheStep.run w before = some w₀ ∧ w₀.now ≤ now ∧
    w.limits.computeTtl e.msg ≠ 0 ∧ e.expires = w₀.now + secs (w.limits.computeTtl e.msg)

section

variable {w w' : World Unit} {run : List CacheEvent} {key : CacheKey} {e : CacheEntry} {now now' : Nat}

theorem PutBy.later (h : PutBy w run now key e) (ev : CacheEvent) (hle : now ≤ now') :
    PutBy w (run ++ [ev]) now' key e := by
  obtain ⟨before, after, w₀, rfl, hbefore, hnow, hkept, hexpires⟩ := h
  refine ⟨before, after ++ [ev], w₀, ?_, hbefore, hnow.trans hle, hkept, hexpires⟩
  rw [append_assoc, cons_append]

theorem lookup_cacheStep {ev : CacheEvent} (hstep : cacheStep w ev = some w')
    (he : w'.cache.lookup key = some e) :
    w.cache.lookup key = some e ∨
      ev = .put e.origin key e.msg ∧ w.limits.computeTtl e.msg ≠ 0 ∧
        e.expires = w.now + secs (w.limits.computeTtl e.msg) := by
  have hcall : ∀ o, (onCache w o).cache.lookup key = some e → w.cache.lookup key = some e ∨
      o = .cachePut e.origin key e.msg ∧ w.limits.computeTtl e.msg ≠ 0 ∧
        e.expires = w.now + secs (w.limits.computeTtl e.msg) := fun o h => World.lookup_cache_apply h
  cases ev with
  | tick d =>
    cases hstep
    exact .inl he
  | forget keys =>
    cases hstep
    exact .inl (Table.lookup_eraseAll he)
  | put origin k msg =>
    cases hstep
    rcases hcall _ he with h | ⟨hop, hrest⟩
    · exact .inl h
    · cases hop
      exact .inr ⟨rfl, hrest⟩
  | get k =>
    cases hstep
    rcases hcall _ he with h | ⟨hop, _⟩
    · exact .inl h
    · nomatch hop

theorem cacheStep_clock {ev : CacheEvent} (hstep : cacheStep w ev = some w') :
    w.now ≤ w'.now ∧ w'.limits = w.limits := by
  have hcall : ∀ o, w.now ≤ (onCache w o).now ∧ (onCache w o).limits = w.limits :=
    fun o => ⟨Nat.le_of_eq World.now_apply.symm, World.limits_apply⟩
  cases ev with
  | tick d =>
    cases hstep
    exact ⟨Nat.le_add_right .., rfl⟩
  | forget keys =>
    cases hstep
    exact ⟨Nat.le_refl _, rfl⟩
  | put origin k msg =>
    cases hstep
    exact hcall _
  | get k =>
    cases hstep
    exact hcall _

/-- **Every entry comes from a `put` of the run.** -/
theorem run_dated (hempty : w.cache = ∅) (hrun : cacheStep.run w run = some w')
    (he : w'.cache.lookup key = some e) : PutBy w run w'.now key e := by
  have hall : Machine.Along cacheStep (fun _ _ => True) w run :=
    Machine.along_iff.mpr fun _ _ _ _ _ _ => trivial
  -- The run so far is carried along, for the `put` that is still to come.
  have hinv : cacheStep.run w run = some w' ∧ w'.limits = w.limits ∧
      ∀ key e, w'.cache.lookup key = some e → PutBy w run w'.now key e := by
    refine Machine.run_induction
      (I := fun h s => cacheStep.run w h = some s ∧ s.limits = w.limits ∧
        ∀ key e, s.cache.lookup key = some e → PutBy w h s.now key e) ?_ ?_ hall hrun
    · refine ⟨rfl, rfl, fun key e he => ?_⟩
      rw [hempty] at he
      nomatch he
    · rintro h s ev s' ⟨hh, hlimits, hentries⟩ _ hstep
      obtain ⟨hnow, hlimits'⟩ := cacheStep_clock hstep
      refine ⟨Machine.run_concat hh hstep, hlimits'.trans hlimits, fun key e he => ?_⟩
      rcases lookup_cacheStep hstep he with hold | ⟨rfl, hkept, hexpires⟩
      · exact (hentries key e hold).later ev hnow
      · rw [hlimits] at hkept hexpires
        exact ⟨h, [], s, rfl, hh, hnow, hkept, hexpires⟩
  exact hinv.2.2 key e he

theorem cacheLookup_eq_some {msg : Message} (h : w.cacheLookup key = some msg) :
    ∃ e, w.cache.lookup key = some e ∧ e.msg = msg ∧ w.now < e.expires := by
  unfold World.cacheLookup at h
  split at h
  · rename_i e he
    obtain ⟨hlive, hmsg⟩ := Option.ite_none_left_eq_some.mp h
    exact ⟨e, he, Option.some.inj hmsg, Nat.lt_of_not_le hlive⟩
  · nomatch h

end

/-- **The age of what the cache returns.**  From an empty cache, a response that a lookup returns was put under the
key in the run and is younger than the lifetime computed for it; its age is within every bound at every age at
which it is returned exactly if the limits and the response are as they should be. -/
theorem cache_expiry (w w' : World Unit) (hempty : w.cache = ∅) (run : List CacheEvent)
    (hrun : cacheStep.run w run = some w') (key : CacheKey) (msg : Message)
    (hget : w'.cacheLookup key = some msg) :
    ∃ before origin after w₀, run = before ++ .put origin key msg :: after ∧
      cacheStep.run w before = some w₀ ∧ w₀.now ≤ w'.now ∧
      w'.now - w₀.now < secs (w.limits.computeTtl msg) ∧
      (w.limits.Bounded msg → Expiry w.limits msg (w'.now - w₀.now)) ∧
      ((∀ age < secs (w.limits.computeTtl msg), Expiry w.limits msg age) ↔ w.limits.Bounded msg) := by
  obtain ⟨e, he, rfl, hlive⟩ := cacheLookup_eq_some hget
  obtain ⟨before, after, w₀, hsplit, hbefore, hnow, hkept, hexpires⟩ := run_dated hempty hrun he
  have hage : w'.now - w₀.now < secs (w.limits.computeTtl e.msg) := by omega
  have hiff := expiry_iff_bounded hkept
  exact ⟨before, e.origin, after, w₀, hsplit, hbefore, hnow, hage, fun hb => hiff.mpr hb _ hage, hiff⟩

/-! ## Samples -/

def emptyCache (l : TtlLimits) : World Unit := ⟨0, l, ∅, fun _ => .fresh [] ⟨[]⟩, []⟩

def expiryKey : CacheKey := CacheKey.of Name.root .A .IN

def lookedUp (l : TtlLimits) (msg : Message) (age : Nat) : Option Message :=
  (cacheStep.run (emptyCache l) [.put .forwarded expiryKey msg, .tick (secs age)]).bind
    (·.cacheLookup expiryKey)

def minuteReply : Message := { answers := [{ name := Name.root, ttl := 60, data := .a 7 }] }

def goneReply : Message :=
  { responseCode := .nxDomain, authorities := [{ name := Name.root, ttl := 5, data := .soa 3600 [] }] }

def plainLimits : TtlLimits := ⟨0, 86400, 300, 3600⟩

def highFloor : TtlLimits := ⟨100, 10, 300, 10⟩

theorem cache_expiry_minute : ∃ w w' : World Unit, w'.cacheLookup expiryKey = some minuteReply ∧
    w.now ≤ w'.now ∧ Expiry plainLimits minuteReply (w'.now - w.now) := by
  have hreturned : lookedUp plainLimits minuteReply 30 = some minuteReply := by decide +kernel
  obtain ⟨w', hrun, hget⟩ := Option.bind_eq_some_iff.mp hreturned
  obtain ⟨_, _, _, w₀, _, _, hnow, _, hexpiry, _⟩ :=
    cache_expiry (emptyCache plainLimits) w' rfl _ hrun expiryKey minuteReply hget
  refine ⟨w₀, w', hget, hnow, hexpiry ⟨fun _ => by decide, fun h => ?_, fun h => ?_⟩⟩
  · exact absurd h (cons_ne_nil _ _)
  · exact absurd h (cons_ne_nil _ _)

/-- The negative response is returned for an hour although its SOA record ended after five seconds.  With the
high floor both kinds are returned after their caps. -/
theorem cache_expiry_late :
    (lookedUp plainLimits goneReply 3599 = some goneReply ∧ ¬Expiry plainLimits goneReply (secs 3599)) ∧
    (lookedUp highFloor minuteReply 99 = some minuteReply ∧ ¬Expiry highFloor minuteReply (secs 99)) ∧
    (lookedUp highFloor goneReply 99 = some goneReply ∧ ¬Expiry highFloor goneReply (secs 99)) := by
  refine ⟨⟨by decide +kernel, fun h => ?_⟩, ⟨by decide +kernel, fun h => ?_⟩, by decide +kernel, fun h => ?_⟩
  · have hsoa := ((h.negative (.inl rfl)).2 rfl _ (.head _) 3600 rfl).1
    exact absurd (secs_lt_secs.mp hsoa) (by decide)
  · have hcap := (h.positive rfl (cons_ne_nil _ _)).1
    exact absurd (secs_lt_secs.mp hcap) (by decide)
  · have hcap := (h.negative (.inl rfl)).1
    exact absurd (secs_lt_secs.mp hcap) (by decide)

end Dnsd.Recursor
