/-
# ChainOfTrust — which keys become trusted.

The key that signs a zone's key set should be the key the parent's DS record vouches for.  `validate_walk` asks
for one of each, and takes any two; so the property holds where a DS set that covers some key covers one that
signs (`SignedByCovered`).  The parent is properly above if the zone is not trusted already (`Known`).
-/
import Dnsd.Recursor.ValidatorSpec
import Dnsd.Recursor.Script

namespace Dnsd.Recursor

open Proto Lib Contract List

variable {ι : Type} {C : Crypto} {N : Net ι} {ds ds' : List Record} {set : DnskeySet} {zone : Name}

/-! ## The rules and the conditions -/

/-- One key signs the set and is covered by the DS set; the parent of a zone is properly above it. -/
def oneKey (C : Crypto) : TrustRules where
  above p z := p.zoneOf z = true ∧ (z.isRoot = false → p.same z = false)
  accepts ds zone set sig :=
    ∃ k ∈ set.keys, verifyRrset C set.records sig k = true ∧ dsCovers C ds zone k = true

/-- If the DS set covers a key of the set, it covers one that signs the set. -/
def SignedByCovered (C : Crypto) (ds : List Record) (zone : Name) (set : DnskeySet) : Prop :=
  ∀ sig, set.sig = some sig → selfSigned C set sig = true → dsMatch C ds zone set.keys = true →
    ∃ k ∈ set.keys, verifyRrset C set.records sig k = true ∧ dsCovers C ds zone k = true

def RepliesAgree (C : Crypto) (N : Net ι) : Prop :=
  ∀ asked ip zone m set, N.reply asked ip ⟨zone, .DS, .IN⟩ (.parsed m) → Received N zone set →
    SignedByCovered C (dsRecordsOf zone m.lowercaseResponseNames) zone set

/-- The DS sets of a walk agree with every DNSKEY reply, and no step is for a zone trusted by then. -/
structure WalkAgrees (C : Crypto) (N : Net ι) (i : ι) (walk : WalkChain) : Prop where
  keys : ∀ step ∈ walk.steps, ∀ set, Received N step.zone set → SignedByCovered C step.ds step.zone set
  fresh : ∀ a done step rest p, N.anchors i a → walk.steps = done ++ step :: rest →
    step.zone.isRoot = false → Known a done (done ++ [step]) p → p.same step.zone = false

/-! ## The conditions are enough -/

theorem dsCovers_append {k : DNSKEY} :
    dsCovers C (ds ++ ds') zone k = (dsCovers C ds zone k || dsCovers C ds' zone k) := by
  simp [dsCovers]

theorem signedByCovered_append (h : SignedByCovered C ds zone set) (h' : SignedByCovered C ds' zone set) :
    SignedByCovered C (ds ++ ds') zone set := by
  intro sig hsig hself hmatch
  obtain ⟨k, hk, hc⟩ := any_eq_true.mp hmatch
  rw [dsCovers_append, Bool.or_eq_true_iff] at hc
  rcases hc with hc | hc
  · obtain ⟨k, hk, hv, hc⟩ := h sig hsig hself (any_eq_true.mpr ⟨k, hk, hc⟩)
    exact ⟨k, hk, hv, by rw [dsCovers_append, hc, Bool.true_or]⟩
  · obtain ⟨k, hk, hv, hc⟩ := h' sig hsig hself (any_eq_true.mpr ⟨k, hk, hc⟩)
    exact ⟨k, hk, hv, by rw [dsCovers_append, hc, Bool.or_true]⟩

theorem signedByCovered_seen (hN : RepliesAgree C N) (hds : SeenDs N zone ds)
    (hset : Received N zone set) : SignedByCovered C ds zone set := by
  obtain ⟨ms, hms, rfl⟩ := hds
  induction ms with
  | nil =>
    intro sig _ _ hmatch
    obtain ⟨k, _, hc⟩ := any_eq_true.mp hmatch
    nomatch hc
  | cons m ms ih =>
    obtain ⟨asked, ip, hm⟩ := hms m (.head _)
    rw [flatMap_cons]
    exact signedByCovered_append (hN asked ip zone m set hm hset)
      (ih fun x hx => hms x (.tail _ hx))

theorem oneKey_bootAllowed (hN : RepliesAgree C N) : BootAllowed (oneKey C) C N where
  above _ _ hz hne := ⟨hz, fun _ => hne⟩
  accepts _ _ _ sig hds hset hsig hself hmatch := signedByCovered_seen hN hds hset sig hsig hself hmatch

theorem oneKey_walkAllowed {i : ι} {walk : WalkChain} (hw : WalkAgrees C N i walk) :
    WalkAllowed (oneKey C) C N i walk where
  walked _ _ := trivial
  above a done step rest p ha hsplit hk hz :=
    ⟨hz, fun hroot => hw.fresh a done step rest p ha hsplit hroot hk⟩
  accepts step hs set sig hset hsig hself hmatch := hw.keys step hs set hset sig hsig hself hmatch

/-- **Chain of trust.**  Where DS and DNSKEY data agree, keys that a validation admits for a zone below the root,
or that the DNSKEY cache holds for one, come from a set with a signature in its window that verifies under a key
covered by a DS record of a DS set verified with keys trusted for a zone properly above. -/
theorem admitted_keys_delegated [DecidableEq ι] {C : Crypto} {N : Net ι} (hN : RepliesAgree C N)
    {w : World ι} {ts : List (ι × RProg Unit)}
    (h : (system N fun i p => ∃ walk answer, WalkAgrees C N i walk ∧
      p = validateTask C walk answer).Reach w ts)
    {i : ι} {zone : Name} {keys : List DNSKEY} (hz : zone.isRoot = false)
    (hk : (i, Event.admitted zone keys) ∈ w.log ∨
      ∃ e, (w.inst i).keys.positive.lookup zone = some e ∧ e.keys = keys) :
    Delegated (oneKey C) C N i zone keys := by
  have hkept : TrustKept (oneKey C) C N w := by
    refine trustKept_reach ?_ h
    rintro i p ⟨walk, answer, hw, rfl⟩
    exact (validateWalk_safe (oneKey_bootAllowed hN) (oneKey_walkAllowed hw)).bind
      fun _ _ _ => trivial
  rcases hk with hm | ⟨e, he, rfl⟩
  · exact (show Admissible (oneKey C) C N i zone keys from hkept.history i _ hm).delegated hz
  · exact (hkept.positive i zone e he).delegated hz

/-! ## Two runs

One zone below the root, its DS set signed by the root.  In the first run the zone's key set holds the
key the DS record covers, and that key signs it.  In the second run the set also holds a stray key, and
the stray key signs it. -/

theorem childWalk_fresh {N : Net Unit} (hN : ∀ a, N.anchors () a → a = rootAnchors)
    {a : TrustAnchors} {done rest : List ChainStep} {step : ChainStep} {p : Name}
    (ha : N.anchors () a) (hsplit : childWalk.steps = done ++ step :: rest)
    (hk : Known a done (done ++ [step]) p) : p.same step.zone = false := by
  cases hN a ha
  have hlen := congrArg List.length hsplit
  simp only [childWalk, length_append, length_cons, length_nil] at hlen
  obtain rfl : done = [] := eq_nil_of_length_eq_zero (by omega)
  obtain rfl : rest = [] := eq_nil_of_length_eq_zero (by omega)
  obtain rfl : sampleStep childZone = step := (List.cons.inj hsplit).1
  rcases hk with ⟨k, hk⟩ | rfl | ⟨s, hs, _⟩ | ⟨s, hs, sig, hsig, hz⟩
  · cases mem_singleton.mp hk
    rfl
  · rfl
  · nomatch hs
  · obtain rfl := mem_singleton.mp hs
    obtain rfl : sampleSig Name.root .DS = sig := Option.some.inj hsig
    have hp : p.labels = [] := eq_nil_of_length_eq_zero (Nat.le_zero.mp (Name.zoneOf_length hz))
    obtain rfl : p = Name.root := by
      cases p
      cases hp
      rfl
    rfl

theorem childSet_received {keys : List DNSKEY}
    (h : Received (ι := Unit) ((zoneScript keys).net rootAnchors) childZone set) :
    set = dnskeySetOf childZone (keyAnswer childZone keys).lowercaseResponseNames.answers := by
  obtain ⟨asked, ip, m, hm, rfl⟩ := h
  cases hm
  rfl

theorem admitted_keys_delegated_childRun :
    ((), Event.admitted childZone [sampleKey 2]) ∈
        (childRun [sampleKey 1, sampleKey 2] [sampleKey 2] {}).log ∧
      Delegated (oneKey (listCrypto [sampleKey 1, sampleKey 2]))
        (listCrypto [sampleKey 1, sampleKey 2]) ((zoneScript [sampleKey 2]).net rootAnchors) ()
        childZone [sampleKey 2] := by
  have hmem : ((), Event.admitted childZone [sampleKey 2]) ∈
      (childRun [sampleKey 1, sampleKey 2] [sampleKey 2] {}).log := by decide
  refine ⟨hmem, admitted_keys_delegated ?_ (childRun_reach ⟨childWalk, {}, ⟨?_, ?_⟩, rfl⟩) rfl
    (Or.inl hmem)⟩
  · intro asked ip zone m set hm _ sig _ _ hmatch
    -- The network has no DS record to offer.
    obtain rfl : m = {} := Reply.parsed.inj hm
    obtain ⟨k, _, hc⟩ := any_eq_true.mp hmatch
    nomatch hc
  · intro step hs set hset
    obtain rfl := mem_singleton.mp hs
    obtain rfl := childSet_received hset
    intro sig _ _ _
    exact ⟨sampleKey 2, by decide, rfl, rfl⟩
  · exact fun a done step rest p ha hsplit _ hk => childWalk_fresh (fun _ h => h) ha hsplit hk

/-- A key that no DS record covers signs the key set of a zone; the set is admitted and cached, stray
key included, and no key of it both signs it and is covered. -/
theorem admitted_keys_stray :
    (system ((zoneScript [sampleKey 2, sampleKey 3]).net rootAnchors) fun _ p =>
        ∃ walk answer, p = validateTask (listCrypto [sampleKey 1, sampleKey 3]) walk answer).Reach
        (childRun [sampleKey 1, sampleKey 3] [sampleKey 2, sampleKey 3] {}) [((), .ret ())] ∧
      childZone.isRoot = false ∧
      ((), Event.admitted childZone [sampleKey 2, sampleKey 3]) ∈
        (childRun [sampleKey 1, sampleKey 3] [sampleKey 2, sampleKey 3] {}).log ∧
      (((childRun [sampleKey 1, sampleKey 3] [sampleKey 2, sampleKey 3] {}).inst
        ()).keys.positive.lookup childZone).map PositiveEntry.keys =
          some [sampleKey 2, sampleKey 3] ∧
      ¬ Delegated (oneKey (listCrypto [sampleKey 1, sampleKey 3]))
        (listCrypto [sampleKey 1, sampleKey 3])
        ((zoneScript [sampleKey 2, sampleKey 3]).net rootAnchors) () childZone
        [sampleKey 2, sampleKey 3] := by
  refine ⟨childRun_reach ⟨childWalk, {}, rfl⟩, rfl, by decide, by decide, ?_⟩
  rintro ⟨_, _, _, child, ds, _, _, _, set, sig, _, _, _, _, _, _, k, _, hv, hc⟩
  -- A covered key is key 2, and key 2 verifies nothing.
  obtain ⟨d, _, hd⟩ := any_eq_true.mp hc
  obtain rfl : k = sampleKey 2 := beq_iff_eq.mp hd
  revert hv
  cases set.records with
  | nil => nofun
  | cons r rs => exact fun h => nomatch (show false = true from h)

end Dnsd.Recursor
