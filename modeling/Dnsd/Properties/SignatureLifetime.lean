/-
# SignatureLifetime — how long an answer with AD=1 stays in the cache.

The window of a signature is looked at once, when the answer comes in; the cache gives the answer the smallest TTL
of its records, which no signature covers.  Whether an entry outlives its signatures is decided when it is stored
(`Outlived`, `resolved_inTime_iff`).
-/
import Dnsd.Properties.AdLaw
import Dnsd.Properties.SignerBinding

namespace Dnsd.Recursor

open Proto Lib

variable {ι : Type} {C : Crypto} {cfg : ι → Config} {N : Net ι}

/-! ## What the signatures promise -/

/-- The wall clock, in seconds, of a machine that was started `epoch` seconds after 1970. -/
def wallClock (epoch now : Nat) : Nat := epoch + now / secs 1

def coveringSigs (msg : Message) : List RRSIG := (checkedSets msg).filterMap fun s => s.2.2

/-- What is served at `now` and was stored at `stored` is covered: no signature has expired, up to the
clock skew, and none is used for longer than its Original TTL. -/
def InTime (epoch : Nat) (msg : Message) (stored now : Nat) : Prop :=
  ∀ sig ∈ coveringSigs msg,
    wallClock epoch now ≤ sig.sigExpiration.toNat + clockSkew.toNat ∧
      now ≤ stored + secs sig.originalTtl.toNat

instance (epoch : Nat) (msg : Message) (stored now : Nat) : Decidable (InTime epoch msg stored now) :=
  inferInstanceAs (Decidable (∀ sig ∈ coveringSigs msg, _))

/-- The lifetime that the cache gives the message ends no later than its signatures allow. -/
def Outlived (limits : TtlLimits) (epoch : Nat) (msg : Message) (stored : Nat) : Prop :=
  ∀ sig ∈ coveringSigs msg,
    limits.computeTtl msg ≤ sig.originalTtl.toNat ∧
      wallClock epoch (stored + secs (limits.computeTtl msg) - 1) ≤
        sig.sigExpiration.toNat + clockSkew.toNat

instance (limits : TtlLimits) (epoch : Nat) (msg : Message) (stored : Nat) :
    Decidable (Outlived limits epoch msg stored) :=
  inferInstanceAs (Decidable (∀ sig ∈ coveringSigs msg, _))

theorem wallClock_mono {epoch t t' : Nat} (h : t ≤ t') : wallClock epoch t ≤ wallClock epoch t' :=
  Nat.add_le_add_left (Nat.div_le_div_right h) _

theorem inTime_iff_outlived {limits : TtlLimits} {epoch stored : Nat} {msg : Message}
    (hlive : limits.computeTtl msg ≠ 0) :
    (∀ t, stored ≤ t → t < stored + secs (limits.computeTtl msg) → InTime epoch msg stored t) ↔
      Outlived limits epoch msg stored := by
  have hpos : stored < stored + secs (limits.computeTtl msg) := by
    simp only [secs]
    omega
  constructor
  · intro h sig hsig
    obtain ⟨hexp, horig⟩ := h (stored + secs (limits.computeTtl msg) - 1) (by omega) (by omega) sig hsig
    refine ⟨?_, hexp⟩
    -- Lifetimes are whole seconds: less than a second above the Original TTL is not above it.
    simp only [secs] at horig hpos
    omega
  · intro h t _ hend sig hsig
    obtain ⟨horig, hexp⟩ := h sig hsig
    refine ⟨(wallClock_mono (by omega)).trans hexp, ?_⟩
    have : secs (limits.computeTtl msg) ≤ secs sig.originalTtl.toNat := Nat.mul_le_mul_right _ horig
    omega

/-! ## Entries of the cache -/

def secureLaw : Law ι where
  entry l origin _ msg := origin = .resolved → msg.authenticData = true → Vouched l msg
  link _ _ _ := True
  response _ _ _ := True
  hop _ := True
  entry_mono hle h hres had := (h hres had).mono hle
  link_mono _ _ := trivial
  response_mono _ _ := trivial

theorem secureLaw_holds : (secureLaw (ι := ι)).Holds C cfg N where
  hop _ := ⟨fun _ _ => trivial, fun _ _ _ _ _ _ _ _ _ _ => trivial⟩
  glue _ _ _ _ _ _ _ _ _ _ _ hres := nomatch hres
  zoneNs _ _ _ _ _ _ _ _ hres := nomatch hres
  localZone _ _ _ _ hres := nomatch hres
  walked _ _ _ _ _ hres := nomatch hres
  primed _ _ _ hres := nomatch hres
  primedGlue _ _ _ _ _ _ _ _ hres := nomatch hres
  secure _ _ _ _ _ _ _ hlog _ _ := vouched_secure hlog
  insecure _ _ _ _ _ _ _ _ _ had := nomatch had
  plain _ _ _ _ hclear _ had := nomatch hclear.symm.trans had
  link _ _ _ _ _ _ _ _ _ _ _ _ := trivial
  forwarded _ _ _ _ _ _ _ hres := nomatch hres
  ptrForwarded _ _ _ _ _ _ _ _ hres := nomatch hres
  clear _ _ _ _ := trivial
  pass _ _ _ _ := trivial
  verified _ _ _ _ _ _ _ := trivial
  hit _ _ _ _ _ _ _ _ := trivial

/-- The entry was stored at `stored`, for the lifetime that the cache computes. -/
structure StoredAt (limits : TtlLimits) (e : CacheEntry) (stored : Nat) : Prop where
  kept : limits.computeTtl e.msg ≠ 0
  expires : e.expires = stored + secs (limits.computeTtl e.msg)

section

variable [DecidableEq ι] {w : World ι} {ts : List (ι × RProg Unit)}

theorem Env.clock {w' : World ι} (h : Env N w w') : w.now ≤ w'.now ∧ w'.limits = w.limits := by
  cases h with
  | tick t ht => exact ⟨ht, rfl⟩
  | forget ks => exact ⟨Nat.le_refl _, rfl⟩
  | anchors i a ha => exact ⟨Nat.le_refl _, rfl⟩

def Dated (w : World ι) : Prop :=
  ∀ key e, w.cache.lookup key = some e → ∃ stored ≤ w.now, StoredAt w.limits e stored

theorem dated_reach {start : ι → RProg Unit → Prop} (h : (system N start).Reach w ts) : Dated w := by
  refine h.invariant ?init ?env ?step
  case init =>
    intro w hw key e he
    rw [hw.cache] at he
    nomatch he
  case env =>
    intro w w' ih henv key e he
    obtain ⟨hnow, hlimits⟩ := Env.clock henv
    obtain ⟨stored, hle, hs⟩ := ih key e (henv.frame.cache key e he)
    exact ⟨stored, hle.trans hnow, hlimits ▸ hs⟩
  case step =>
    rintro i w o r w' ih ⟨-, victim, rfl⟩ key e he
    rw [World.now_apply, World.limits_apply]
    rcases World.lookup_cache_apply he with he' | ⟨rfl, hkept, hexp⟩
    · exact ih key e he'
    · exact ⟨w.now, Nat.le_refl _, hkept, hexp⟩

omit [DecidableEq ι] in
theorem cacheLookup_at {key : CacheKey} {e : CacheEntry} (he : w.cache.lookup key = some e) (t : Nat) :
    { w with now := t }.cacheLookup key = some e.msg ↔ t < e.expires := by
  simp only [World.cacheLookup, he, Option.ite_none_left_eq_some, Nat.not_le, and_true]

/-- **An answer with AD=1 is served in time exactly when it was in time as it was stored**: `validate_walk` found
it Secure, and at every lookup that can return it its signatures are unexpired and used for no longer than their
Original TTLs, if and only if the lifetime that the cache gave it ends before theirs. -/
theorem resolved_inTime_iff (epoch : Nat) (h : (process C cfg N).Reach w ts) {key : CacheKey}
    {e : CacheEntry} (he : w.cache.lookup key = some e) (hres : e.origin = .resolved)
    (had : e.msg.authenticData = true) :
    Vouched w.log e.msg ∧ ∃ stored ≤ w.now, StoredAt w.limits e stored ∧
      ((∀ t, stored ≤ t → { w with now := t }.cacheLookup key = some e.msg →
          InTime epoch e.msg stored t) ↔
        Outlived w.limits epoch e.msg stored) := by
  refine ⟨(secureLaw_holds.reach h).entries key e he hres had, ?_⟩
  obtain ⟨stored, hle, hs⟩ := dated_reach h key e he
  refine ⟨stored, hle, hs, ?_⟩
  rw [← inTime_iff_outlived hs.kept]
  simp only [cacheLookup_at he, hs.expires]

end

/-! ## An hour, and a week -/

def lastingServer (ttl : Nat) (ip : IpAddr) : Message :=
  if ip = .v4 1 then signedReferral 2
  else
    let answer := signedAnswer insideName childZone
    { answer with answers := answer.answers.map fun r => { r with ttl := ttl } }

def lastingAnswer (ttl : Nat) : Message :=
  { stitchResponse insideQuery (lastingServer ttl (.v4 2)) with authenticData := true }

def lastingEntry (ttl : Nat) : CacheEntry := ⟨lastingAnswer ttl, secs ttl, .resolved⟩

def insideKey : CacheKey := CacheKey.of insideName .A .IN

theorem resolved_inTime_hour :
    (clientRun (lastingServer 3600)).cache.lookup insideKey = some (lastingEntry 3600) ∧
      ∀ t, { clientRun (lastingServer 3600) with now := t }.cacheLookup insideKey =
          some (lastingAnswer 3600) →
        InTime 1000 (lastingAnswer 3600) 0 t := by
  have hentry : (clientRun (lastingServer 3600)).cache.lookup insideKey =
      some (lastingEntry 3600) := by decide
  obtain ⟨-, stored, -, hs, hiff⟩ :=
    resolved_inTime_iff 1000 (clientRun_reach (lastingServer 3600)) hentry rfl rfl
  obtain rfl : stored = 0 := by
    have hexp : secs 3600 = stored + secs 3600 := hs.expires
    omega
  exact ⟨hentry, fun t => hiff.mpr (by decide) t (Nat.zero_le t)⟩

def lateRun : World Unit :=
  (serverScript (lastingServer 604800)).run () (serve (listCrypto [sampleKey 1, sampleKey 2])
    (sampleConfig .validate) 2 (.v4 9) false insideQuery)
    { clientRun (lastingServer 604800) with now := secs 200000 }

theorem lateRun_reach :
    (process (listCrypto [sampleKey 1, sampleKey 2]) (fun _ => sampleConfig .validate)
      ((serverScript (lastingServer 604800)).net rootAnchors)).Reach lateRun
        [((), .ret ()), ((), .ret ())] := by
  refine Script.reach (Script.fits_net _ _ _) (.serve ..) ?_
  exact .env (clientRun_reach (lastingServer 604800)) (.tick (secs 200000) (by decide))

/-- The upstream claims a week for records whose signature has an Original TTL of an hour and expires
after a day.  200000 seconds after the answer was found Secure and stored, it is still served from the
cache and sent with AD=1. -/
theorem resolved_out_of_time :
    (process (listCrypto [sampleKey 1, sampleKey 2]) (fun _ => sampleConfig .validate)
        ((serverScript (lastingServer 604800)).net rootAnchors)).Reach lateRun
          [((), .ret ()), ((), .ret ())] ∧
      lateRun.limits.minTtl = 0 ∧ lateRun.now = secs 200000 ∧
      lateRun.log.take 2 = [((), .sent (lastingAnswer 604800)),
        ((), .served insideKey (lastingAnswer 604800))] ∧
      lateRun.cache.lookup insideKey = some (lastingEntry 604800) ∧
      StoredAt lateRun.limits (lastingEntry 604800) 0 ∧
      coveringSigs (lastingAnswer 604800) = [sampleSig childZone .A] ∧
      (sampleSig childZone .A).sigExpiration.toNat + clockSkew.toNat < wallClock 1000 lateRun.now ∧
      secs (sampleSig childZone .A).originalTtl.toNat < lateRun.now ∧
      ¬ InTime 1000 (lastingAnswer 604800) 0 lateRun.now :=
  ⟨lateRun_reach, by decide, by decide, by decide, by decide, ⟨by decide, by decide⟩, by decide,
    by decide, by decide, by decide⟩

end Dnsd.Recursor
