/-
# ListenerPolicy — whose policy a listener uses after a reload.

Listeners bound for one entry share their cells for life, and a reload stores the new values one after the other.
If two of them get different policies, both end up with the one stored last (`split_entry_mixed`); that is the
only way to go wrong.
-/
import Dnsd.Daemon.Reload

namespace Dnsd.Daemon

open Proto Recursor Lib

/-! ## Policies -/

structure Policy where
  acl : List IpNet
  dns64 : Bool
  token : Option String
  deriving DecidableEq, Repr

def Swaps.policy (s : Swaps) : Policy := ⟨s.acl, s.ctx.dns64, s.ctx.dohAuthToken⟩

def Listener.policy (lc : Listener) : Policy := ⟨lc.allowFrom, lc.dns64, lc.authToken⟩

theorem Listener.policy_swaps (lc : Listener) : lc.swaps.policy = lc.policy := rfl

def Distinct (lcs : List Listener) : Prop :=
  ∀ k, ∀ lc ∈ lcs, ∀ lc' ∈ lcs, lc.declares k = true → lc'.declares k = true → lc = lc'

def OwnPolicy (lcs : List Listener) (b : LiveListeners) : Prop :=
  ∀ k l, b.get k = some l → ∃ lc ∈ lcs, lc.declares k = true ∧ (b.swaps k).map Swaps.policy = some lc.policy

/-- Live listeners that share their cells are declared with the same policy. -/
def SharedAlike (lcs : List Listener) (b : LiveListeners) : Prop :=
  ∀ k k' l l', b.get k = some l → b.get k' = some l' → l.cell = l'.cell →
    ∀ lc ∈ lcs, ∀ lc' ∈ lcs, lc.declares k = true → lc'.declares k' = true → lc.policy = lc'.policy

/-! ## The diff -/

section

variable {tls : Bool} {lcs : List Listener} {b : LiveListeners} {k : ListenerKey}

theorem Distinct.desired_eq {lc : Listener} (hd : Distinct lcs) (hlc : lc ∈ lcs)
    (hdecl : lc.declares k = true) : desired lcs k = some lc := by
  obtain ⟨lc', hlc'⟩ := Option.isSome_iff_exists.mp (desired_isSome hlc hdecl)
  obtain ⟨hmem, hdecl'⟩ := desired_eq_some hlc'
  rw [hlc', hd k lc hlc lc' hmem hdecl hdecl']

theorem ownPolicy_of_sharedAlike {env : BindEnv} {walk : HashOrder} (hshare : SharedAlike lcs b) :
    OwnPolicy lcs (reloadListeners env walk tls lcs b) := by
  intro k l hl
  cases hkept : (retain (desired lcs) b).get k with
  | none =>
    obtain ⟨-, -, lc, hlc, hdecl, hswaps⟩ := reload_of_new hkept hl
    exact ⟨lc, hlc, hdecl, by rw [hswaps, Option.map_some, Listener.policy_swaps]⟩
  | some l₀ =>
    obtain ⟨hwant, hl₀⟩ := retain_get.mp hkept
    obtain ⟨lc, hlc⟩ := Option.isSome_iff_exists.mp hwant
    obtain ⟨hmem, hdecl⟩ := desired_eq_some hlc
    refine ⟨lc, hmem, hdecl, ?_⟩
    rw [(reload_of_kept hl₀ hlc).2, ← Listener.policy_swaps]
    refine (Cells.reads_own_iff fun k _ c s hw => writes_lt hw).mpr ?_ _ (walk.perm _) k
      (mem_desiredKeys.mpr hwant) l₀.cell lc.swaps (writes_iff.mpr ⟨l₀, lc, hl₀, hlc, rfl, rfl⟩)
    intro k₁ _ k₂ _ c s₁ s₂ hw₁ hw₂
    obtain ⟨l₁, lc₁, hl₁, hlc₁, rfl, rfl⟩ := writes_iff.mp hw₁
    obtain ⟨l₂, lc₂, hl₂, hlc₂, hcell, rfl⟩ := writes_iff.mp hw₂
    exact hshare k₁ k₂ l₁ l₂ hl₁ hl₂ hcell.symm lc₁ (desired_eq_some hlc₁).1 lc₂
      (desired_eq_some hlc₂).1 (desired_eq_some hlc₁).2 (desired_eq_some hlc₂).2

theorem sharedAlike_of_ownPolicy {env : BindEnv} (hd : Distinct lcs)
    (hown : ∀ walk, OwnPolicy lcs (reloadListeners env walk tls lcs b)) : SharedAlike lcs b := by
  intro k k' l l' hl hl' hcell lc hlc lc' hlc' hdecl hdecl'
  have hwant := hd.desired_eq hlc hdecl
  have hwant' := hd.desired_eq hlc' hdecl'
  -- Whatever the order, each key reads its own policy: so keys that share a cell have the same one.
  have hread : ∀ keys', keys'.Perm (desiredKeys lcs) → ∀ k ∈ desiredKeys lcs, ∀ c s,
      Cells.Writes (keptCell lcs b) (newSwaps lcs) k c s →
      (storedCells lcs b keys')[c]?.map Swaps.policy = some s.policy := by
    intro keys' hperm k _ c s hw
    obtain ⟨l, lc, hl, hlc, rfl, rfl⟩ := writes_iff.mp hw
    obtain ⟨hmem, hdecl⟩ := desired_eq_some hlc
    have hswaps : (reloadListeners env (.only hperm) tls lcs b).swaps k =
        (storedCells lcs b keys')[l.cell]? := by
      rw [(reload_of_kept hl hlc).2]
      simp only [HashOrder.only, if_pos]
    obtain ⟨lc₁, hmem₁, hdecl₁, hpolicy⟩ := hown (.only hperm) k _ (reload_of_kept hl hlc).1
    obtain rfl := hd k lc hmem lc₁ hmem₁ hdecl hdecl₁
    rw [← hswaps, hpolicy, Listener.policy_swaps]
  exact (Cells.reads_own_iff fun k _ c s hw => writes_lt hw).mp hread k
    (mem_desiredKeys.mpr (hwant ▸ rfl)) k' (mem_desiredKeys.mpr (hwant' ▸ rfl)) l.cell lc.swaps
    lc'.swaps (writes_iff.mpr ⟨l, lc, hl, hwant, rfl, rfl⟩)
    (writes_iff.mpr ⟨l', lc', hl', hwant', hcell.symm, rfl⟩)

end

/-! ## The reload -/

/-- **Each listener has its own policy after a reload exactly if listeners that share their cells are declared
alike**, for every running daemon and every new configuration in which no two entries claim the same address, port
and protocol, however the reload completes. -/
theorem reload_ownPolicy_iff (L : Library) (args : Args) (d : Running) {file : Option RouterYaml}
    {cfg : DnsConfig} {table : ForwarderTable} (hload : DnsConfig.load file = .ok cfg)
    (htable : ForwarderTable.new L cfg.forwarders = .ok table) (hd : Distinct cfg.listeners) :
    (∀ out d', out.file = file → reload L args out d = (.completed, d') →
        OwnPolicy cfg.listeners d'.listeners) ↔
      SharedAlike cfg.listeners d.listeners := by
  constructor
  · intro hown
    -- Reloads in which the sockets and nothing else can be bound, one for each order of the hash map.
    refine @sharedAlike_of_ownPolicy d.tlsConfig _ _ ⟨fun _ _ => false, 0⟩ hd ?_
    intro walk
    let out : Outside := ⟨file, fun _ => true, fun _ => none, walk, ⟨fun _ _ => false, 0⟩, false⟩
    have hout : DnsConfig.load out.file = .ok cfg := hload
    have hinstalled := hown out _ rfl (reload_completed L args hout htable rfl)
    have htls : cfg.tls.bind out.tls = none := by
      cases cfg.tls <;> rfl
    simpa only [Running.install, Running.publish, htls, Option.isSome_none, Bool.false_or] using hinstalled
  · intro hshare out d' hfile hr
    have hspec := reload_spec L args out d
    rw [hr] at hspec
    cases hspec with
    | completed hload' htable' _ =>
      rw [hfile] at hload'
      cases hload.symm.trans hload'
      exact ownPolicy_of_sharedAlike hshare

def splitEntries : List Listener :=
  [sampleListener "lan-udp" ["udp"] [insideNet], sampleListener "lan-tcp" ["tcp"] []]

theorem reload_ownPolicy_merged :
    ∃ d, startUp sampleLibrary {} (.calm (sampleDns splitEntries)) = some d ∧
      (reload sampleLibrary {} (.calm (sampleDns [lanEntry])) d).1 = .completed ∧
      ∀ out d', out.file = some { dns := some (sampleDns [lanEntry]) } →
        reload sampleLibrary {} out d = (.completed, d') → OwnPolicy [lanEntry] d'.listeners := by
  have hdone : (startUp sampleLibrary {} (.calm (sampleDns splitEntries))).map (fun d =>
      (reload sampleLibrary {} (.calm (sampleDns [lanEntry])) d).1) = some .completed := by decide
  obtain ⟨d, hd, hcompleted⟩ := Option.map_eq_some_iff.mp hdone
  have hone : ∀ lc ∈ [lanEntry], ∀ lc' ∈ [lanEntry], lc = lc' := by
    intro lc hlc lc' hlc'
    rw [List.mem_singleton.mp hlc, List.mem_singleton.mp hlc']
  have hload : DnsConfig.load (some { dns := some (sampleDns [lanEntry]) }) =
      .ok (sampleDns [lanEntry]) := rfl
  have htable : ForwarderTable.new sampleLibrary (sampleDns [lanEntry]).forwarders = .ok ⟨[], .nil⟩ := rfl
  refine ⟨d, hd, hcompleted, (reload_ownPolicy_iff sampleLibrary {} d hload htable ?_).mpr ?_⟩
  · exact fun k lc hlc lc' hlc' _ _ => hone lc hlc lc' hlc'
  · exact fun k k' l l' _ _ _ lc hlc lc' hlc' _ _ => congrArg Listener.policy (hone lc hlc lc' hlc')

def policiesAfterSplit (walk : HashOrder) : Option (Outcome × Option Policy × Option Policy) :=
  (startUp sampleLibrary {} (.calm (sampleDns [lanEntry]))).map fun d =>
    let r := reload sampleLibrary {} { Outside.calm (sampleDns splitEntries) with walk := walk } d
    (r.1, (r.2.listeners.swaps (lanKey .udp)).map Swaps.policy,
      (r.2.listeners.swaps (lanKey .tcp)).map Swaps.policy)

theorem split_entry_mixed :
    Listener.policy <$> splitEntries = [⟨[insideNet], false, none⟩, ⟨[], false, none⟩] ∧
      policiesAfterSplit .same = some (.completed, some ⟨[], false, none⟩, some ⟨[], false, none⟩) ∧
      policiesAfterSplit .backwards =
        some (.completed, some ⟨[insideNet], false, none⟩, some ⟨[insideNet], false, none⟩) := by
  decide

end Dnsd.Daemon
