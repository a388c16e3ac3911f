/-
# AddressFamily — a handler without IPv6 upstreams asks no IPv6 address.

The root set is filtered when a handler is built and when it is primed, glue and cached addresses where a walk
uses them, and walks for a server's name contribute A records only.
-/
import Dnsd.Recursor.Custody
import Dnsd.Recursor.Script

namespace Dnsd.Recursor

open Proto Lib List

variable {ι : Type} [DecidableEq ι] {C : Crypto} {cfg : ι → Config} {N : Net ι}

def startup (C : Crypto) (cfg : ι → Config) (N : Net ι) : System ι Op Op.Res (World ι) :=
  { process C cfg N with
    init := fun w => Init N w ∧ ∀ i, ∃ file, (w.inst i).roots = initialRoots (cfg i).iter file }

def addresses (cfg : IterConfig) : Custody where
  reply _ _ _ _ := True
  usable := Usable cfg
  keep step := ∀ ip ∈ step.nsIps, Usable cfg ip

theorem initialRoots_usable (cfg : IterConfig) (file : Option (List (Option IpAddr))) :
    (addresses cfg).AllUsable (initialRoots cfg file) := by
  intro ip hip
  unfold initialRoots at hip
  dsimp only at hip
  split at hip
  · rename_i hsix
    exact Or.inl hsix
  · exact Or.inr (mem_filter.mp hip).2

theorem tour_addresses (cfg : IterConfig) :
    Tour (addresses cfg).pre (addresses cfg).post cfg fun _ hop =>
      (addresses cfg).AllUsable hop.nsIps ∧ (addresses cfg).ChainUsable hop.chain where
  free o ho := by cases o <;> trivial
  ask _ hop ip := by
    rintro ⟨hips, _⟩ ⟨order, hperm, hip⟩
    have hmem : ip ∈ hop.nsIps := List.Perm.mem_iff hperm |>.mp hip
    exact hips ip hmem
  start q hop h := by
    have hsteps : (addresses cfg).ChainUsable hop.chain := by
      rw [← Custody.conduct_post] at h
      exact h.keep
    refine ⟨?_, hsteps⟩
    cases h with
    | root hips => exact hips
    | closest _ _ hips => exact hips
    | @cached zones steps last _ _ _ hlast => exact hsteps last (mem_of_getLast? hlast)
  next _ hop next := by
    rintro ⟨_, hchain⟩ hfollows
    obtain ⟨_, _, _, _, _, _, hsteps⟩ := hfollows.referred
    refine ⟨hfollows.usable, ?_⟩
    unfold Custody.ChainUsable
    rw [hsteps]
    intro step hstep
    rcases mem_append.mp hstep with hstep | hstep
    · exact hchain step hstep
    · rw [mem_singleton.mp hstep]
      exact hfollows.usable
  glue _ _ _ _ _ _ _ _ _ _ := trivial
  zoneNs _ _ _ _ _ _ _ := trivial

theorem toured_addresses (cfg : IterConfig) : (addresses cfg).Toured cfg fun _ hop =>
    (addresses cfg).AllUsable hop.nsIps ∧ (addresses cfg).ChainUsable hop.chain where
  tour := tour_addresses cfg
  usable _ _ h := h.2
  keep _ _ _ h := h.2
  primed _ h := h

theorem startup_keeps : (startup C cfg N).Keeps (fun i => (addresses (cfg i).iter).contract)
    (InCustody fun i => addresses (cfg i).iter) (fun _ _ => True) () := by
  refine custody_keeps (fun _ _ _ _ _ _ => trivial) (fun w hw => ⟨hw.1, fun i => ?_⟩)
    fun i => toured_addresses (cfg i).iter
  obtain ⟨file, hfile⟩ := hw.2 i
  rw [hfile]
  exact initialRoots_usable _ _

/-- **IPv4-only handlers ask IPv4 addresses only.**  In every run of the process, whatever the hints files,
the replies and the other handlers do: a query that a handler without IPv6 upstreams is about to send goes
to an IPv4 address. -/
theorem asks_ipv4_only {w : World ι} {ts : List (ι × RProg Unit)} (h : (startup C cfg N).Reach w ts)
    {i : ι} {asked : Name} {ip : IpAddr} {q : Query} {k : Reply → RProg Unit}
    (hpending : (i, .op (.query asked ip q) k) ∈ ts) (hfour : (cfg i).ipv6Upstream = false) :
    ip.isIpv4 = true := by
  obtain ⟨_, _, hpre⟩ := startup_keeps.reach_pre h hpending
  have husable : Usable (cfg i).iter ip := hpre
  rcases husable with hsix | hfour'
  · have hsix : (cfg i).ipv6Upstream = true := hsix
    rw [hfour] at hsix
    nomatch hsix
  · exact hfour'

/-! ## A handler that primes its roots -/

def fourConfig : Config := { sampleConfig .strip with ipv6Upstream := false }

def mixedHints : List (Option IpAddr) := [some (.v6 1), none, some (.v4 1)]

def fourProcess : System Unit Op Op.Res (World Unit) :=
  startup (listCrypto []) (fun _ => fourConfig) ((zoneScript []).net rootAnchors)

theorem asks_ipv4_only_primed : ∃ k,
    fourProcess.Reach (freshWorld rootAnchors)
        [((), .op (.query Name.root (.v4 1) ⟨Name.root, .NS, .IN⟩) k)] ∧
      (IpAddr.v4 1).isIpv4 = true := by
  have hinit : fourProcess.init (freshWorld rootAnchors) :=
    ⟨freshWorld_init fun _ => rfl, fun _ => ⟨some mixedHints, rfl⟩⟩
  have hspawned : fourProcess.Reach (freshWorld rootAnchors) [((), prime fourConfig.iter)] :=
    .spawn (.init hinit) (Task.prime rfl)
  -- The root set is read, and the deadline has not passed.
  have hroots : Step ((zoneScript []).net rootAnchors) () (freshWorld rootAnchors) .readRoots
      [IpAddr.v4 1] (freshWorld rootAnchors) := ⟨rfl, (Name.root, .A), rfl⟩
  have hcalm : Step ((zoneScript []).net rootAnchors) () (freshWorld rootAnchors) .struck
      false (freshWorld rootAnchors) := ⟨nofun, (Name.root, .A), rfl⟩
  have hpending := (hspawned.step_head hroots).step_head hcalm
  exact ⟨_, hpending, asks_ipv4_only hpending (mem_singleton_self _) rfl⟩

end Dnsd.Recursor
