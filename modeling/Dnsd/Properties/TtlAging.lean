/-
# TtlAging — the TTLs of a reply that comes from the cache.

`DnsCache` keeps the octets of a response and a hit replays them, so the TTLs of a reply are those of the entry,
whatever its age (`Turned.ttl`): as they should be only within the first second, or if all of them are zero.
-/
import Dnsd.Properties.SignatureLifetime
import Dnsd.Recursor.Replies

namespace Dnsd.Recursor

open Proto Lib List

def allRecords (m : Message) : List Record := m.answers ++ m.authorities ++ m.additionals

/-! ## `max-age` -/

def minTtlFromResponse (resp : Message) : Option Nat := (resp.answers.map Record.ttl).min?

/-- The `max-age` of the HTTP response; there is none for a TTL of zero. -/
def dohMaxAge (resp : Message) : Option Nat :=
  let ttl := (minTtlFromResponse resp).getD 0
  if 0 < ttl then some ttl else none

theorem dohMaxAge_eq_some {resp : Message} {age : Nat} (h : dohMaxAge resp = some age) :
    0 < age ∧ (∃ r ∈ resp.answers, r.ttl = age) ∧ ∀ r ∈ resp.answers, age ≤ r.ttl := by
  unfold dohMaxAge at h
  obtain ⟨hpos, hage⟩ := Option.ite_none_right_eq_some.mp h
  obtain rfl := Option.some.inj hage
  cases hmin : minTtlFromResponse resp with
  | none =>
    rw [hmin] at hpos
    exact absurd hpos (Nat.lt_irrefl 0)
  | some age =>
    rw [hmin] at hpos
    obtain ⟨hmem, hle⟩ := List.min?_eq_some_iff.mp hmin
    obtain ⟨r, hr, httl⟩ := mem_map.mp hmem
    exact ⟨hpos, ⟨r, hr, httl⟩, fun r' hr' => hle _ (mem_map_of_mem hr')⟩

/-! ## Records sent and records stored -/

/-- A record of a cached response, and what a reply makes of it. -/
inductive Turned : Record → Record → Prop
  | same (r : Record) : Turned r r
  | synthesised {p : Dns64Policy} {r r' : Record} : synthesiseRecord p r = some r' → Turned r r'
  | rewrapped {qname : Name} {r r' : Record} : rewrapRecord qname r = some r' → Turned r r'

theorem Turned.ttl {r r' : Record} (h : Turned r r') : r'.ttl = r.ttl := by
  cases h with
  | same => rfl
  | synthesised h =>
    unfold synthesiseRecord at h
    split at h
    · cases h
      rfl
    · cases h
      rfl
    · obtain ⟨_, hr⟩ := Option.ite_none_right_eq_some.mp h
      cases hr
      rfl
    · nomatch h
  | rewrapped h =>
    unfold rewrapRecord at h
    split at h
    · cases h
      rfl
    · nomatch h

theorem mem_allRecords {m : Message} {r : Record} :
    r ∈ allRecords m ↔ r ∈ m.answers ∨ r ∈ m.authorities ++ m.additionals := by
  rw [allRecords, append_assoc, mem_append]

theorem FromCache.turned {cfg : Config} {dns64Enabled : Bool} {msg m resp : Message} {key : CacheKey}
    (h : FromCache cfg dns64Enabled msg key m resp) :
    ∀ r' ∈ allRecords resp, ∃ r ∈ allRecords m, Turned r r' := by
  intro r' hr'
  cases h with
  | replayed _ => exact ⟨r', hr', .same r'⟩
  | @synthesised q _ p _ _ _ =>
    have hanswer : r' ∈ m.answers.filterMap (synthesiseRecord p) := by
      simpa [allRecords, synthesiseFromA, localResponse, Message.response] using hr'
    obtain ⟨r, hr, hsynth⟩ := mem_filterMap.mp hanswer
    exact ⟨r, mem_allRecords.mpr (.inl hr), .synthesised hsynth⟩
  | @rewrapped q _ _ _ hq _ =>
    have hanswer : r' ∈ m.answers.filterMap (rewrapRecord q.name) := by
      simpa [allRecords, rewrapPtrResponse, hq, localResponse, Message.response] using hr'
    obtain ⟨r, hr, hrewrap⟩ := mem_filterMap.mp hanswer
    exact ⟨r, mem_allRecords.mpr (.inl hr), .rewrapped hrewrap⟩

/-! ## The law -/

/-- The TTLs sent `elapsed` seconds after the response was stored are no longer than what is left, and
neither is `max-age`. -/
structure Aged (stored sent : Message) (elapsed : Nat) : Prop where
  records : ∀ r ∈ allRecords stored, ∀ r' ∈ allRecords sent, Turned r r' → r'.ttl ≤ r.ttl - elapsed
  maxAge : ∀ age, dohMaxAge sent = some age →
    ∀ r ∈ allRecords stored, ∀ r' ∈ allRecords sent, Turned r r' → age ≤ r.ttl - elapsed

/-- There is nothing to count down, and the answer section has the smallest TTL. -/
def Ageless (sent : Message) (elapsed : Nat) : Prop :=
  (∀ r ∈ allRecords sent, r.ttl = 0) ∨
    elapsed = 0 ∧ ∀ age, dohMaxAge sent = some age → ∀ r ∈ sent.authorities ++ sent.additionals, age ≤ r.ttl

/-- **TTLs that are taken over are right exactly if nothing had to be counted down.** -/
theorem aged_iff {stored sent : Message} {elapsed : Nat}
    (hturned : ∀ r' ∈ allRecords sent, ∃ r ∈ allRecords stored, Turned r r') :
    Aged stored sent elapsed ↔ Ageless sent elapsed := by
  constructor
  · intro h
    by_cases hzero : ∀ r ∈ allRecords sent, r.ttl = 0
    · exact .inl hzero
    push Not at hzero
    obtain ⟨r', hr', hpos⟩ := hzero
    obtain ⟨r, hr, hfrom⟩ := hturned r' hr'
    have hle := h.records r hr r' hr' hfrom
    have hsame := hfrom.ttl
    have helapsed : elapsed = 0 := by omega
    refine .inr ⟨helapsed, fun age hage x' hx' => ?_⟩
    have hx' := mem_allRecords.mpr (.inr hx')
    obtain ⟨x, hx, hfrom⟩ := hturned x' hx'
    have hmax := h.maxAge age hage x hx x' hx' hfrom
    rw [← hfrom.ttl] at hmax
    omega
  · rintro (hzero | ⟨rfl, hrest⟩)
    · constructor
      · intro r _ r' hr' _
        rw [hzero r' hr']
        exact Nat.zero_le _
      · -- Without a positive TTL there is no `max-age`.
        intro age hage
        obtain ⟨hpos, ⟨r, hr, rfl⟩, _⟩ := dohMaxAge_eq_some hage
        rw [hzero r (mem_allRecords.mpr (.inl hr))] at hpos
        exact absurd hpos (Nat.lt_irrefl 0)
    · constructor
      · intro r _ r' _ hfrom
        exact Nat.le_of_eq hfrom.ttl
      · intro age hage r _ r' hr' hfrom
        rw [Nat.sub_zero, ← hfrom.ttl]
        rcases mem_allRecords.mp hr' with hanswer | hrest'
        · exact (dohMaxAge_eq_some hage).2.2 r' hanswer
        · exact hrest age hage r' hrest'

section

variable {ι : Type} [DecidableEq ι] {C : Crypto} {cfg : ι → Config} {N : Net ι} {w : World ι}
  {ts : List (Visit ι × RProg Unit)} {v : Visit ι} {resp : Message} {k : Unit → RProg Unit}

/-- **Every reply, and every entry it may come from.**  A reply on its way out is built for its query; if it is
built from a cache entry, then, whenever the entry was looked up, the TTLs and `max-age` are no longer than
what was left of the stored TTLs exactly if there was nothing to count down. -/
theorem replies_aged_iff (h : (clients C cfg N).Reach w ts)
    (hsent : (v, .op (.note (.sent resp)) k) ∈ ts) :
    Built (heard (fun _ _ => True) N v.handler) (cfg v.handler) v.dns64 v.query resp ∧
      ∀ key e draft b, FromCache (cfg v.handler) v.dns64 v.query key e.msg draft →
        resp = { draft with authenticData := b } →
        ∀ w₁ ts₁, (clients C cfg N).Reach w₁ ts₁ → w₁.cache.lookup key = some e → w₁.now < e.expires →
          ∃ stored ≤ w₁.now, StoredAt w₁.limits e stored ∧
            (Aged e.msg resp ((w₁.now - stored) / secs 1) ↔ Ageless resp ((w₁.now - stored) / secs 1)) := by
  refine ⟨(replies_reach (fun _ _ _ _ _ => trivial) h).2 v resp k hsent, ?_⟩
  rintro key e draft b hfrom rfl w₁ ts₁ hreach he _
  obtain ⟨stored, hle, hstored⟩ := dated_reach (clients_process hreach) key e he
  exact ⟨stored, hle, hstored, aged_iff hfrom.turned⟩

end

/-! ## A second visit -/

def relayed : Message := { queries := insideQuery.queries, answers := [sampleRecord insideName (.a 7)] }

def visitedOnce : World Unit := (relayVisit none relayed ⟨(), false, insideQuery⟩ (freshWorld rootAnchors)).2

def relayedEntry : CacheEntry := ⟨relayed, secs 3600, .forwarded⟩

theorem visitedOnce_reach : (relayClients none relayed).Reach visitedOnce
    [(⟨(), false, insideQuery⟩, .op (.note (.sent relayed)) .ret)] :=
  relayVisit_reach (relay_init none relayed) (by decide)

theorem visitedTwice_reach {t : Nat} (hresp : (relayVisit none relayed ⟨(), false, insideQuery⟩
      { visitedOnce with now := secs t }).1 = some relayed) :
    (relayClients none relayed).Reach
      (relayVisit none relayed ⟨(), false, insideQuery⟩ { visitedOnce with now := secs t }).2
      [(⟨(), false, insideQuery⟩, .op (.note (.sent relayed)) .ret),
        (⟨(), false, insideQuery⟩, .op (.note (.sent relayed)) .ret)] := by
  refine relayVisit_reach (.env visitedOnce_reach (.tick (secs t) ?_)) hresp
  exact Nat.zero_le _

theorem relayed_fromCache :
    FromCache (relayConfig none) false insideQuery insideKey relayedEntry.msg relayed :=
  FromCache.replayed (q := ⟨insideName, .A, .IN⟩) (m := relayed) rfl

theorem replies_aged_at_once : ∃ w ts,
    (relayClients none relayed).Reach w
      ((⟨(), false, insideQuery⟩, .op (.note (.sent relayed)) .ret) :: ts) ∧
    w.cache.lookup insideKey = some relayedEntry ∧ StoredAt w.limits relayedEntry 0 ∧
    Aged relayed relayed 0 := by
  have hreach := visitedTwice_reach (t := 0) (by decide)
  have hentry : visitedOnce.cache.lookup insideKey = some relayedEntry := by decide
  obtain ⟨_, haged⟩ := replies_aged_iff hreach (.head _)
  obtain ⟨stored, hle, _, hiff⟩ := haged insideKey relayedEntry relayed false relayed_fromCache rfl
    _ _ visitedOnce_reach hentry (by decide)
  obtain rfl : stored = 0 := Nat.le_zero.mp hle
  refine ⟨_, _, hreach, by decide, ⟨by decide, by decide⟩, hiff.mpr (.inr ⟨by decide, ?_⟩)⟩
  exact fun _ _ _ hr => nomatch hr

/-- A thousand seconds later the whole hour is sent again, and with it a `max-age` of an hour. -/
theorem replies_not_aged : ∃ w ts,
    (relayClients none relayed).Reach w
      ((⟨(), false, insideQuery⟩, .op (.note (.sent relayed)) .ret) :: ts) ∧
    w.cache.lookup insideKey = some relayedEntry ∧ w.now = secs 1000 ∧
    StoredAt w.limits relayedEntry 0 ∧
    FromCache (relayConfig none) false insideQuery insideKey relayedEntry.msg relayed ∧
    dohMaxAge relayed = some 3600 ∧ ¬Aged relayed relayed 1000 := by
  refine ⟨_, _, visitedTwice_reach (t := 1000) (by decide), by decide, by decide,
    ⟨by decide, by decide⟩, relayed_fromCache, by decide, fun h => ?_⟩
  have hle := h.records (sampleRecord insideName (.a 7)) (by decide) _ (by decide) (.same _)
  exact absurd hle (by decide)

end Dnsd.Recursor
