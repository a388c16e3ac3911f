/-
# RefreshAgreement — two checks of the root's key set.

A refresh does not look at the signature's window and tries every anchor, whatever its zone
(`refresh_accepts_alone`).
-/
import Dnsd.Recursor.Anchor
import Dnsd.Properties.AnchorCurrency

namespace Dnsd.Recursor

open Proto Lib List

/-- What both checks are given: no cached key set, the servers' reply, the clock. -/
def GivenReply (m : Message) (clock : Nat) : (o : Op) → Op.Res o → Prop
  | .keyGet _, cached => cached = none
  | .query _ _ _, reply => reply = .parsed m
  | .unixNow, now => now = UInt32.ofNat clock
  | _, _ => True

/-- A validation under these anchors accepts the reply as the root's key set. -/
def SpliceAccepts (C : Crypto) (anchors : TrustAnchors) (ips : List IpAddr) (m : Message)
    (clock : Nat) : Prop :=
  ∃ chain, (spliceInZoneDnskey C (seedChain anchors) Name.root ips).Yields (GivenReply m clock) (.ok chain)

/-- The reply's signature is in its window and verifies under an anchor of the root. -/
def Authentic (C : Crypto) (anchors : TrustAnchors) (m : Message) (clock : Nat) : Prop :=
  ∃ sig, (extractDnskeyResponse m).sig = some sig ∧ InWindow (UInt32.ofNat clock) sig ∧
    ∃ a ∈ anchors.keys, a.1 = Name.root ∧ verifyRrset C (extractDnskeyResponse m).records sig a.2 = true

section

variable {C : Crypto} {anchors : TrustAnchors} {ips : List IpAddr} {m : Message} {clock : Nat}

theorem fetchDnskeyRrset_given {asked zone : Name} (hips : ips ≠ [])
    {r : Except FetchError DnskeySet} :
    (fetchDnskeyRrset asked zone ips).Yields (GivenReply m clock) r ↔
      r = .ok (dnskeySetOf zone m.lowercaseResponseNames.answers) := by
  obtain ⟨ip, ips, rfl⟩ := exists_cons_of_ne_nil hips
  show (fetchDnskeyFrom asked zone (ip :: ips)).Yields (GivenReply m clock) r ↔ _
  constructor
  · intro h
    obtain ⟨reply, hreply, h⟩ := Prog.yields_bind.mp h
    obtain ⟨raw, hraw, hreply⟩ := Prog.yields_perform_bind.mp hreply
    obtain rfl : raw = .parsed m := hraw
    obtain rfl := Prog.yields_ret.mp hreply
    exact Prog.yields_ret.mp h
  · rintro rfl
    refine Prog.yields_bind.mpr ⟨.parsed m.lowercaseResponseNames, ?_, .ret _⟩
    exact Prog.yields_perform_bind.mpr ⟨.parsed m, rfl, .ret _⟩

theorem spliceAccepts_iff (hips : ips ≠ []) :
    SpliceAccepts C anchors ips m clock ↔ Authentic C anchors m.lowercaseResponseNames clock := by
  constructor
  · rintro ⟨chain, h⟩
    obtain ⟨cached, hcached, h⟩ := Prog.yields_perform_bind.mp h
    obtain rfl : cached = none := hcached
    obtain ⟨fetched, hfetched, h⟩ := Prog.yields_bind.mp h
    obtain rfl := (fetchDnskeyRrset_given hips).mp hfetched
    dsimp only at h
    split at h
    · nomatch Prog.yields_ret.mp h
    rename_i sig hsig
    obtain ⟨now, hnow, h⟩ := Prog.yields_perform_bind.mp h
    obtain rfl : now = UInt32.ofNat clock := hnow
    split at h
    · nomatch Prog.yields_ret.mp h
    rename_i hwin
    split at h
    · rename_i hver
      obtain ⟨k, hk, hv⟩ := any_eq_true.mp hver
      obtain ⟨⟨n, k⟩, hmem, hn, rfl⟩ := mem_entryKeys_seedChain_iff.mp hk
      exact ⟨sig, hsig, hwin, (n, k), hmem, Name.same_root_iff.mp hn, hv⟩
    · nomatch Prog.yields_ret.mp h
  · rintro ⟨sig, hsig, hwin, ⟨n, k⟩, hmem, rfl, hv⟩
    replace hsig : (dnskeySetOf Name.root m.lowercaseResponseNames.answers).sig = some sig := hsig
    replace hwin : checkRrsigValidity (UInt32.ofNat clock) sig = .ok () := hwin
    have hany : (entryKeys (seedChain anchors) Name.root).any (fun k => verifyRrset C
        (dnskeySetOf Name.root m.lowercaseResponseNames.answers).records sig k) = true :=
      any_eq_true.mpr ⟨k, mem_entryKeys_seedChain hmem, hv⟩
    refine ⟨putEntry (seedChain anchors) Name.root
      (dnskeySetOf Name.root m.lowercaseResponseNames.answers).keys, ?_⟩
    refine Prog.yields_perform_bind.mpr ⟨none, rfl, ?_⟩
    refine Prog.yields_bind.mpr ⟨_, (fetchDnskeyRrset_given hips).mpr rfl, ?_⟩
    dsimp only
    rw [hsig]
    refine Prog.yields_perform_bind.mpr ⟨UInt32.ofNat clock, rfl, ?_⟩
    rw [hwin]
    dsimp only
    rw [if_pos hany]
    refine Prog.yields_perform_bind.mpr ⟨(), trivial, ?_⟩
    exact Prog.yields_perform_bind.mpr ⟨(), trivial, .ret _⟩

/-- **A validation agrees with a refresh exactly on authentic replies.**  Where a tick has had any effect, a
validation with the same anchors, reply and clock and nothing cached accepts the root's key set if and only if the
signature is in its window and verifies under an anchor of the root. -/
theorem refresh_agrees_iff {K : Codec} {holdDown : Nat} {roots : List IpAddr} {disk : Disk}
    {s s' : AnchorStore} {result : Except RefreshError RefreshDiff}
    (htick : tick K C holdDown roots (.parsed m.lowercaseResponseNames) clock disk s = (s', result))
    (hrolled : s' ≠ s ∨ ∃ diff, result = .ok diff) :
    SpliceAccepts C s.live roots m clock ↔ Authentic C s.live m.lowercaseResponseNames clock := by
  refine spliceAccepts_iff ?_
  -- Without root servers a tick fails and changes nothing.
  rintro rfl
  obtain ⟨rfl, rfl⟩ := Prod.mk.inj (htick : (s, .error .noRoots) = (s', result))
  rcases hrolled with hne | ⟨diff, hdiff⟩
  · exact hne rfl
  · nomatch hdiff

end

/-! ## Replies that only a refresh accepts -/

def heldStore (anchors : List (Name × DNSKEY)) (n : UInt8) : AnchorStore :=
  ⟨⟨anchors⟩, .found 1 [activeEntry n], []⟩

def keyOneSigns : Crypto := listCrypto [(rootKey 1 false).2]

def rootReply : Message := keyAnswer Name.root [(rootKey 1 false).2]

def rootTick (clock : Nat) (s : AnchorStore) : AnchorStore × Except RefreshError RefreshDiff :=
  tick plainCodec keyOneSigns 10 [.v4 1] (.parsed rootReply.lowercaseResponseNames) clock {} s

theorem refresh_agrees_in_window :
    SpliceAccepts keyOneSigns ⟨[(Name.root, (rootKey 1 false).2)]⟩ [.v4 1] rootReply 100 := by
  have htick : rootTick 100 (heldStore [(Name.root, (rootKey 1 false).2)] 1) = (_, .ok {}) := rfl
  refine (refresh_agrees_iff htick (Or.inr ⟨_, rfl⟩)).mpr ?_
  exact ⟨_, rfl, by decide, (Name.root, (rootKey 1 false).2), by decide, rfl, by decide⟩

theorem refresh_accepts_alone :
    ((∃ diff, (rootTick 100000 (heldStore [(Name.root, (rootKey 1 false).2)] 1)).2 = .ok diff) ∧
      ¬ SpliceAccepts keyOneSigns ⟨[(Name.root, (rootKey 1 false).2)]⟩ [.v4 1] rootReply 100000) ∧
    ((∃ diff, (rootTick 100 (heldStore
        [(Name.root, (rootKey 2 false).2), (childZone, (rootKey 1 false).2)] 2)).2 = .ok diff) ∧
      ¬ SpliceAccepts keyOneSigns
        ⟨[(Name.root, (rootKey 2 false).2), (childZone, (rootKey 1 false).2)]⟩ [.v4 1] rootReply
        100) := by
  refine ⟨⟨⟨_, rfl⟩, ?_⟩, ⟨_, rfl⟩, ?_⟩
  · rw [spliceAccepts_iff (by decide)]
    rintro ⟨sig, hsig, hwin, -⟩
    cases hsig
    exact absurd hwin (by decide)
  · rw [spliceAccepts_iff (by decide)]
    rintro ⟨sig, hsig, -, a, ha, hroot, hv⟩
    cases hsig
    simp only [mem_cons, not_mem_nil, or_false] at ha
    rcases ha with rfl | rfl
    · exact absurd hv (by decide)
    · exact absurd hroot (by decide)

end Dnsd.Recursor
