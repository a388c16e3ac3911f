/-
# ReloadNoop — a reload of an unchanged file.

A process started with `--vrf` loads the entry of its VRF, a reload the top level; where two entries claim one
socket, start-up binds the first, and a reload stores the values of the last (`unchanged_file_moves`).  `Settled`
is the exact condition.
-/
import Dnsd.Daemon.Reload

namespace Dnsd.Daemon

open Proto Recursor Lib List

/-! ## What is compared -/

/-- What each listener uses (nothing where none is bound), and the forwarder table, as it is shown and as
queries are routed. -/
def Running.view (d : Running) : (ListenerKey → Option Swaps) × ForwarderTable × ForwarderTable :=
  (d.listeners.swaps, d.shown, d.live.table)

/-- A declared listener that is not live and cannot be bound: it lacks TLS materials, or a live listener
has its socket. -/
def Stuck (cfg : DnsConfig) (d : Running) (k : ListenerKey) : Prop :=
  (k.proto.overTls = true ∧ cfg.tls = none ∧ d.tlsConfig = false) ∨ occupied d.listeners.get k = true

/-- The configuration that a reload loads says what is the case already. -/
structure Agrees (cfg : DnsConfig) (table : ForwarderTable) (d : Running) : Prop where
  shown : table = d.shown
  routed : table = d.live.table
  live : ∀ k s, d.listeners.swaps k = some s → ∃ lc, desired cfg.listeners k = some lc ∧ lc.swaps = s
  rest : ∀ k, (desired cfg.listeners k).isSome = true → d.listeners.get k = none → Stuck cfg d k

/-- A reload of this file fails before anything is changed, or finds what is the case already. -/
def Settled (L : Library) (file : Option RouterYaml) (d : Running) : Prop :=
  ∀ cfg table, DnsConfig.load file = .ok cfg → ForwarderTable.new L cfg.forwarders = .ok table →
    Agrees cfg table d

namespace LiveListeners

variable {b : LiveListeners} {k : ListenerKey}

theorem exists_swaps {l : LiveListener} (hl : b.get k = some l) : ∃ s, b.swaps k = some s := by
  refine ⟨b.cells.get ⟨l.cell, b.inRange k l hl⟩, swaps_eq_some.mpr ⟨l, hl, ?_⟩⟩
  exact List.getElem?_eq_getElem _

theorem swaps_eq_none : b.swaps k = none ↔ b.get k = none := by
  constructor
  · intro h
    by_contra hget
    obtain ⟨l, hl⟩ := Option.ne_none_iff_exists'.mp hget
    obtain ⟨s, hs⟩ := exists_swaps hl
    nomatch h.symm.trans hs
  · intro h
    rw [swaps, h]
    rfl

end LiveListeners

/-! ## The condition suffices -/

section

variable {L : Library} {args : Args} {cfg : DnsConfig} {table : ForwarderTable} {d : Running}
  {out : Outside} {k : ListenerKey}

theorem retain_get_of_declared {lcs : List Listener} {b : LiveListeners}
    (h : ∀ k s, b.swaps k = some s → ∃ lc, desired lcs k = some lc ∧ lc.swaps = s) :
    (retain (desired lcs) b).get = b.get := by
  refine retain_get_eq fun k l hl => ?_
  obtain ⟨s, hs⟩ := LiveListeners.exists_swaps hl
  obtain ⟨lc, hlc, -⟩ := h k s hs
  exact hlc ▸ rfl

theorem Agrees.swaps_kept (h : Agrees cfg table d) {env : BindEnv} {walk : HashOrder} {tls : Bool}
    {l : LiveListener} (hl : d.listeners.get k = some l) :
    (reloadListeners env walk tls cfg.listeners d.listeners).swaps k = d.listeners.swaps k := by
  obtain ⟨s, hs⟩ := LiveListeners.exists_swaps hl
  obtain ⟨lc, hlc, rfl⟩ := h.live k s hs
  have hcell : d.listeners.cells[l.cell]? = some lc.swaps := by
    obtain ⟨l', hl', hread⟩ := LiveListeners.swaps_eq_some.mp hs
    obtain rfl := Option.some.inj (hl.symm.trans hl')
    exact hread
  have hmem : k ∈ walk.order (desiredKeys cfg.listeners) :=
    (walk.perm _).mem_iff.mpr (mem_desiredKeys.mpr (hlc ▸ rfl))
  obtain ⟨k', -, s', hw, hread⟩ := Cells.getElem?_storeAll_of_mem hmem
    (writes_iff.mpr ⟨l, lc, hl, hlc, rfl, rfl⟩) (d.listeners.inRange k l hl)
  obtain ⟨l', lc', hl', hlc', hshare, rfl⟩ := writes_iff.mp hw
  -- The other key is live too, and what it writes is what the shared cell holds.
  have hsame : d.listeners.swaps k' = some lc.swaps :=
    LiveListeners.swaps_eq_some.mpr ⟨l', hl', hshare ▸ hcell⟩
  obtain ⟨lc'', hlc'', heq⟩ := h.live k' lc.swaps hsame
  obtain rfl := Option.some.inj (hlc'.symm.trans hlc'')
  rw [(reload_of_kept hl hlc).2, hs, ← heq]
  exact hread

theorem Agrees.get_free (h : Agrees cfg table d) {env : BindEnv} {walk : HashOrder} {tls : Bool}
    (htls : cfg.tls = none → d.tlsConfig = false → tls = false) (hfree : d.listeners.get k = none) :
    (reloadListeners env walk tls cfg.listeners d.listeners).get k = none := by
  by_contra hget
  obtain ⟨l, hl⟩ := Option.ne_none_iff_exists'.mp hget
  have hnone : (retain (desired cfg.listeners) d.listeners).get k = none := by
    rw [retain_get_of_declared h.live, hfree]
  obtain ⟨hsock, hover, lc, hlc, hdecl, -⟩ := reload_of_new hnone hl
  rw [retain_get_of_declared h.live] at hsock
  rcases h.rest k (desired_isSome hlc hdecl) hfree with ⟨hstream, hno, hnever⟩ | hocc
  · rw [hstream, htls hno hnever] at hover
    nomatch hover
  · rw [hsock] at hocc
    nomatch hocc

theorem view_of_settled (h : Settled L out.file d) : (reload L args out d).2.view = d.view := by
  generalize hr : reload L args out d = r
  have hspec := reload_spec L args out d
  rw [hr] at hspec
  cases hspec with
  | configReadFailed _ | forwarderConfigInvalid _ _ => rfl
  | recursorInitFailed hload htable _ =>
    simp only [Running.view, Running.publish, (h _ _ hload htable).shown]
  | completed hload htable _ =>
    have hagrees := h _ _ hload htable
    simp only [Running.view, Running.install, Running.publish]
    rw [hagrees.shown.symm, hagrees.routed.symm]
    refine congrArg (·, _, _) (funext fun k => ?_)
    cases hk : d.listeners.get k with
    | some l => exact hagrees.swaps_kept hk
    | none =>
      rw [LiveListeners.swaps_eq_none.mpr hk]
      refine LiveListeners.swaps_eq_none.mpr (hagrees.get_free ?_ hk)
      intro hno hnever
      simp [hno, hnever]

/-! ## The condition is necessary -/

/-- Reloads of the file leave the view alone, in whatever circumstances. -/
def Unmoved (L : Library) (args : Args) (file : Option RouterYaml) (d : Running) : Prop :=
  ∀ out, out.file = file → (reload L args out d).2.view = d.view

def onlyBinds (file : Option RouterYaml) (walk : HashOrder) (k : Option ListenerKey) : Outside where
  file := file
  sockets _ := true
  tls _ := some {}
  walk := walk
  bind := ⟨fun _ k' => decide (some k' = k), 0⟩
  warm := false

section

variable {file : Option RouterYaml} (hload : DnsConfig.load file = .ok cfg)
  (htable : ForwarderTable.new L cfg.forwarders = .ok table) (h : Unmoved L args file d)

include hload htable h

theorem Unmoved.installed (walk : HashOrder) (only : Option ListenerKey) :
    (reloadListeners (onlyBinds file walk only).bind walk (cfg.tls.isSome || d.tlsConfig) cfg.listeners
        d.listeners).swaps = d.listeners.swaps ∧ table = d.shown ∧ table = d.live.table := by
  have hout : DnsConfig.load (onlyBinds file walk only).file = .ok cfg := hload
  have hview := h (onlyBinds file walk only) rfl
  rw [reload_completed L args hout htable rfl] at hview
  simp only [Running.view, Running.install, Running.publish, Prod.mk.injEq] at hview
  have htls : (cfg.tls.bind (onlyBinds file walk only).tls).isSome = cfg.tls.isSome := by
    cases cfg.tls <;> rfl
  rw [htls] at hview
  exact hview

theorem Unmoved.live {s : Swaps} (hs : d.listeners.swaps k = some s) :
    ∃ lc, desired cfg.listeners k = some lc ∧ lc.swaps = s := by
  obtain ⟨l, hl, -⟩ := LiveListeners.swaps_eq_some.mp hs
  have hwant : (desired cfg.listeners k).isSome = true := by
    by_contra hwant
    have hswaps := congrFun (h.installed hload htable .same none).1 k
    rw [hs] at hswaps
    obtain ⟨l', hl', -⟩ := LiveListeners.swaps_eq_some.mp hswaps
    have hnone : (retain (desired cfg.listeners) d.listeners).get k = none := if_neg hwant
    obtain ⟨-, -, lc, hlc, hdecl, -⟩ := reload_of_new hnone hl'
    exact hwant (desired_isSome hlc hdecl)
  obtain ⟨lc, hlc⟩ := Option.isSome_iff_exists.mp hwant
  refine ⟨lc, hlc, ?_⟩
  obtain ⟨as, bs, hkeys⟩ := append_of_mem (mem_desiredKeys.mpr hwant)
  have hperm : (as ++ bs ++ [k]).Perm (desiredKeys cfg.listeners) := by
    rw [hkeys, append_assoc]
    exact (perm_append_singleton k bs).append_left as
  have hswaps := congrFun (h.installed hload htable (.only hperm) none).1 k
  rw [(reload_of_kept hl hlc).2, hs] at hswaps
  simp only [HashOrder.only, if_pos, storedCells, Cells.storeAll_concat] at hswaps
  rw [Cells.getElem?_store_self (writes_iff.mpr ⟨l, lc, hl, hlc, rfl, rfl⟩)
    (by simpa using d.listeners.inRange k l hl)] at hswaps
  exact Option.some.inj hswaps

theorem Unmoved.rest (hwant : (desired cfg.listeners k).isSome = true)
    (hfree : d.listeners.get k = none) : Stuck cfg d k := by
  by_contra hstuck
  obtain ⟨htls, hsock⟩ := not_or.mp hstuck
  have hkept := retain_get_of_declared fun _ _ hs => h.live hload htable hs
  obtain ⟨lc, hlc⟩ := Option.isSome_iff_exists.mp hwant
  obtain ⟨hmem, hdecl⟩ := desired_eq_some hlc
  have honly : ∀ attempt k', (onlyBinds file .same (some k)).bind.succeeds attempt k' =
      decide (k' = k) := fun _ k' => by simp [onlyBinds]
  have hover : (k.proto.overTls && !(cfg.tls.isSome || d.tlsConfig)) = false := by
    cases hstream : k.proto.overTls with
    | false => rfl
    | true =>
      cases hblock : cfg.tls with
      | some _ => rfl
      | none =>
        cases hnever : d.tlsConfig with
        | true => rfl
        | false => exact absurd ⟨hstream, hblock, hnever⟩ htls
  obtain ⟨l, hl⟩ := reload_binds honly hmem hdecl (hkept ▸ hfree) (hkept ▸ Bool.not_eq_true _ ▸ hsock) hover
  obtain ⟨s, hs⟩ := LiveListeners.exists_swaps hl
  rw [(h.installed hload htable .same (some k)).1, LiveListeners.swaps_eq_none.mpr hfree] at hs
  nomatch hs

theorem Unmoved.agrees : Agrees cfg table d where
  shown := (h.installed hload htable .same none).2.1
  routed := (h.installed hload htable .same none).2.2
  live _ _ hs := h.live hload htable hs
  rest _ hwant hfree := h.rest hload htable hwant hfree

end

/-! ## After start-up -/

/-- Entries that claim the same address, port and protocol say the same. -/
def Consistent (lcs : List Listener) : Prop :=
  ∀ k, ∀ lc ∈ lcs, ∀ lc' ∈ lcs, lc.declares k = true → lc'.declares k = true → lc.swaps = lc'.swaps

def FullyBound (cfg : DnsConfig) (d : Running) : Prop :=
  ∀ k, (desired cfg.listeners k).isSome = true → d.listeners.get k = none → Stuck cfg d k

theorem settled_of_default (hstart : startUp L args out = some d) (hvrf : args.vrf = none)
    (hload : DnsConfig.load out.file = .ok cfg) (hcons : Consistent cfg.listeners)
    (hfull : FullyBound cfg d) : Settled L out.file d := by
  obtain ⟨cfg₀, table₀, tls, hload₀, htable₀, -, rfl⟩ := startUp_eq_some L args hstart
  rw [hvrf] at hload₀
  cases hload.symm.trans hload₀
  intro cfg' table' hload' htable'
  cases hload.symm.trans hload'
  cases htable₀.symm.trans htable'
  refine ⟨rfl, rfl, fun k s hs => ?_, hfull⟩
  obtain ⟨l, hl, -⟩ := LiveListeners.swaps_eq_some.mp hs
  obtain ⟨-, -, lc, hlc, hdecl, hswaps⟩ := bind_of_new rfl hl
  obtain ⟨lc', hlc'⟩ := Option.isSome_iff_exists.mp (desired_isSome hlc hdecl)
  obtain ⟨hmem, hdecl'⟩ := desired_eq_some hlc'
  refine ⟨lc', hlc', ?_⟩
  rw [hcons k lc' hmem lc hlc hdecl' hdecl]
  exact Option.some.inj (hswaps.symm.trans hs)

/-- **A reload of the unchanged file does nothing exactly if the daemon is settled**: what it loads has the table
in use, declares each live listener with what it uses, and nothing else that could be bound.  Without `--vrf` it is
settled after start-up if entries for one socket say the same and nothing that could be bound is left. -/
theorem reload_noop_iff (hstart : startUp L args out = some d) :
    (Unmoved L args out.file d ↔ Settled L out.file d) ∧
      (args.vrf = none → ∀ cfg, DnsConfig.load out.file = .ok cfg → Consistent cfg.listeners →
        FullyBound cfg d → Settled L out.file d) := by
  refine ⟨⟨fun h cfg table hload htable => h.agrees hload htable, fun h out' hfile => ?_⟩, ?_⟩
  · exact view_of_settled (hfile ▸ h)
  · exact fun hvrf cfg hload hcons hfull => settled_of_default hstart hvrf hload hcons hfull

end

theorem reload_noop_lan :
    ∃ d, startUp sampleLibrary {} (.calm (sampleDns [lanEntry])) = some d ∧
      Unmoved sampleLibrary {} (some { dns := some (sampleDns [lanEntry]) }) d := by
  have hbound : (startUp sampleLibrary {} (.calm (sampleDns [lanEntry]))).map (fun d =>
      ((d.listeners.get (lanKey .udp)).isSome, (d.listeners.get (lanKey .tcp)).isSome)) =
      some (true, true) := by decide
  obtain ⟨d, hd, hboth⟩ := Option.map_eq_some_iff.mp hbound
  obtain ⟨hudp, htcp⟩ := Prod.mk.inj hboth
  refine ⟨d, hd, ?_⟩
  have hiff := reload_noop_iff hd
  refine hiff.1.mpr (hiff.2 rfl (sampleDns [lanEntry]) rfl ?_ ?_)
  · intro k lc hlc lc' hlc' _ _
    rw [mem_singleton.mp hlc, mem_singleton.mp hlc']
  · intro k hwant hfree
    obtain ⟨lc, hlc⟩ := Option.isSome_iff_exists.mp hwant
    obtain ⟨hmem, hdecl⟩ := desired_eq_some hlc
    obtain rfl := mem_singleton.mp hmem
    obtain ⟨hhas, hkey⟩ := Listener.declares_iff.mp hdecl
    rw [← hkey] at hfree
    cases hproto : k.proto with
    | udp =>
      rw [hproto] at hfree
      nomatch (congrArg Option.isSome hfree).symm.trans hudp
    | tcp =>
      rw [hproto] at hfree
      nomatch (congrArg Option.isSome hfree).symm.trans htcp
    | dot | doh =>
      rw [hproto] at hhas
      exact absurd hhas (by decide)

/-! ## Two ways to move -/

def vrfFile : RouterYaml where
  vrfs := ["blue"]
  dns := some
    { sampleDns [lanEntry] with
      forwarders := [⟨"z", [.bare (.v4 7)]⟩]
      vrfs := [{ enabled := true, name := "blue",
                 listeners := [{ name := "blue", address := .v4 8, protocols := ["udp"] }] }] }

def vrfOutside : Outside := { Outside.calm {} with file := some vrfFile }

def blueKey : ListenerKey := ⟨.v4 8, 53, .udp⟩

def Running.sketch (d : Running) (k k' : ListenerKey) : Option String × Option String × List Name :=
  ((d.listeners.get k).map LiveListener.name, (d.listeners.get k').map LiveListener.name,
    d.shown.entries.map ForwarderEntry.domain)

def doubledEntries : List Listener :=
  [sampleListener "first" ["udp"] [insideNet], sampleListener "second" ["udp"] []]

theorem unchanged_file_moves :
    (startUp sampleLibrary { vrf := some "blue" } vrfOutside).map (fun d =>
        (d.sketch blueKey (lanKey .udp),
          (reload sampleLibrary { vrf := some "blue" } vrfOutside d).2.sketch blueKey
            (lanKey .udp))) =
      some ((some "blue", none, []), (none, some "lan", [⟨[[122]]⟩])) ∧
    (startUp sampleLibrary {} (.calm (sampleDns doubledEntries))).map (fun d =>
        (d.listeners.swaps (lanKey .udp),
          (reload sampleLibrary {} (.calm (sampleDns doubledEntries)) d).2.listeners.swaps
            (lanKey .udp))) =
      some (some ⟨[insideNet], ⟨"first", false, none⟩⟩, some ⟨[], ⟨"second", false, none⟩⟩) := by
  decide

end Dnsd.Daemon
