/-
# Bailiwick — for which names a server can place cache entries.

The NS set and the addresses of a referral go into the response cache.  The test that the new zone is below the
current one has an empty body, and the owners of the glue are not looked at.
-/
import Dnsd.Recursor.HandlerSpec
import Dnsd.Recursor.Script

namespace Dnsd.Recursor

open Proto Lib

variable {ι : Type} {C : Crypto} {cfg : ι → Config} {N : Net ι}

/-! ## The law -/

def bailiwickLaw : Law ι where
  entry _ origin key _ :=
    match origin with
    | .glue asked | .zoneNs asked => asked.zoneOf key.name = true
    | _ => True
  link _ _ _ := True
  response _ _ _ := True
  hop _ := True
  entry_mono _ h := h
  link_mono _ _ := trivial
  response_mono _ _ := trivial

/-- Servers refer only to names at or below the zone they are asked as, and give addresses only for
such names. -/
def InBailiwick (N : Net ι) : Prop :=
  ∀ asked ip q m zone nsRecords glue, N.reply asked ip q (.parsed m) →
    classify m.lowercaseResponseNames q.name q.queryType = .referral zone nsRecords glue →
    asked.zoneOf zone = true ∧ ∀ g ∈ glue, asked.zoneOf g.1 = true

theorem zoneOf_key {asked name : Name} {rtype : RecordType} {dnsClass : DNSClass}
    (h : asked.zoneOf name = true) : asked.zoneOf (CacheKey.of name rtype dnsClass).name = true := by
  unfold CacheKey.of
  rw [Name.zoneOf_toLowercase_right]
  exact h

theorem bailiwickLaw_holds (hN : InBailiwick N) : (bailiwickLaw (ι := ι)).Holds C cfg N where
  hop _ := ⟨fun _ _ => trivial, fun _ _ _ _ _ _ _ _ _ _ => trivial⟩
  glue _ asked zone nsRecords glue href g hg _ _ _ := by
    obtain ⟨ip, q, m, hm, hcls⟩ := href
    exact zoneOf_key ((hN asked ip q m zone nsRecords glue hm.1 hcls).2 g hg)
  zoneNs _ asked zone nsRecords glue href _ _ := by
    obtain ⟨ip, q, m, hm, hcls⟩ := href
    exact zoneOf_key (hN asked ip q m zone nsRecords glue hm.1 hcls).1
  -- Every name is below the root, whose servers answer priming.
  primedGlue _ _ _ _ _ _ _ _ := zoneOf_key (Name.root_zoneOf _)
  localZone _ _ _ _ := trivial
  walked _ _ _ _ _ := trivial
  primed _ _ _ := trivial
  secure _ _ _ _ _ _ _ _ := trivial
  insecure _ _ _ _ _ _ _ _ := trivial
  plain _ _ _ _ _ := trivial
  link _ _ _ _ _ _ _ _ _ _ _ _ := trivial
  forwarded _ _ _ _ _ _ _ := trivial
  ptrForwarded _ _ _ _ _ _ _ _ := trivial
  clear _ _ _ _ := trivial
  pass _ _ _ _ := trivial
  verified _ _ _ _ _ _ _ := trivial
  hit _ _ _ _ _ _ _ _ := trivial

/-- **Bailiwick.**  In every run of the process, if servers keep to their bailiwick: a cache entry that
was written for a response of the servers of a zone is for a name at or below the zone. -/
theorem cached_in_bailiwick [DecidableEq ι] (hN : InBailiwick N) {w : World ι}
    {ts : List (ι × RProg Unit)} (h : (process C cfg N).Reach w ts) {key : CacheKey}
    {e : CacheEntry} (he : w.cache.lookup key = some e) {asked : Name}
    (horigin : e.origin = .glue asked ∨ e.origin = .zoneNs asked) :
    asked.zoneOf key.name = true := by
  have hentry := ((bailiwickLaw_holds (C := C) hN).reach h).entries key e he
  rcases horigin with horigin | horigin
  · rw [horigin] at hentry
    exact hentry
  · rw [horigin] at hentry
    exact hentry

/-! ## Two runs -/

def insideRun (s : Script) : World Unit :=
  s.run () (serve (listCrypto []) (sampleConfig .strip) 2 (.v4 9) false insideQuery)
    (freshWorld rootAnchors)

theorem insideRun_reach (s : Script) :
    (process (listCrypto []) (fun _ => sampleConfig .strip) (s.net rootAnchors)).Reach (insideRun s)
      [((), .ret ())] :=
  Script.reach (Script.fits_net _ _ _) (.serve ..) (.init (freshWorld_init fun _ => rfl))

def modestScript : Script where
  reply asked _ _ :=
    .parsed (if asked = Name.root then signedReferral 2 else signedAnswer insideName childZone)

theorem modestScript_inBailiwick : InBailiwick (ι := Unit) (modestScript.net rootAnchors) := by
  intro asked ip q m zone nsRecords glue hm hcls
  cases hm
  by_cases hroot : asked = Name.root
  · subst hroot
    exact ⟨Name.root_zoneOf _, fun g _ => Name.root_zoneOf _⟩
  -- An answer is no referral.
  rw [if_neg hroot] at hcls
  obtain ⟨⟨r, hr, _⟩, _⟩ := classify_eq_referral hcls
  nomatch hr

theorem cached_in_bailiwick_childZone :
    ∃ e, (insideRun modestScript).cache.lookup (CacheKey.of childZone .NS .IN) = some e ∧
      e.origin = .zoneNs Name.root ∧ Name.root.zoneOf childZone = true := by
  have hcached : ((insideRun modestScript).cache.lookup (CacheKey.of childZone .NS .IN)).map
      CacheEntry.origin = some (.zoneNs Name.root) := by decide
  obtain ⟨e, he, horigin⟩ := Option.map_eq_some_iff.mp hcached
  exact ⟨e, he, horigin, cached_in_bailiwick modestScript_inBailiwick (insideRun_reach modestScript)
    he (Or.inr horigin)⟩

def sidewaysServer (ip : IpAddr) : Message :=
  if ip = .v4 1 then signedReferral 2
  else if ip = .v4 2 then referralTo sidewaysZone 3 []
  else signedAnswer insideName childZone

/-- Asked as a server of `z.`, a server places an NS set for `b.v.` and an address for `n.`. -/
theorem cached_outside_bailiwick :
    ∃ w ts e e', (process (listCrypto []) (fun _ : Unit => sampleConfig .strip)
        ((serverScript sidewaysServer).net rootAnchors)).Reach w ts ∧
      w.cache.lookup (CacheKey.of sidewaysZone .NS .IN) = some e ∧ e.origin = .zoneNs childZone ∧
      childZone.zoneOf sidewaysZone = false ∧
      w.cache.lookup (CacheKey.of serverName .A .IN) = some e' ∧ e'.origin = .glue childZone ∧
      childZone.zoneOf serverName = false := by
  have hns : ((insideRun (serverScript sidewaysServer)).cache.lookup
      (CacheKey.of sidewaysZone .NS .IN)).map CacheEntry.origin = some (.zoneNs childZone) := by
    decide
  have hglue : ((insideRun (serverScript sidewaysServer)).cache.lookup
      (CacheKey.of serverName .A .IN)).map CacheEntry.origin = some (.glue childZone) := by decide
  obtain ⟨e, he, horigin⟩ := Option.map_eq_some_iff.mp hns
  obtain ⟨e', he', horigin'⟩ := Option.map_eq_some_iff.mp hglue
  exact ⟨_, _, e, e', insideRun_reach _, he, horigin, rfl, he', horigin', rfl⟩

end Dnsd.Recursor
