/-
# Reload — start-up and the reload on SIGHUP.

`start_up` is `main` down to the first bind, `reload` the function of that name, with every point at which it
gives up.  A handler brings cells of its own, named by its number.  What is left to the outside world is one
record per call (`Outside`).
-/
import Dnsd.Lib.Machine
import Dnsd.Daemon.Listeners

namespace Dnsd.Daemon

open Proto Recursor Lib

/-! ## The state -/

structure TlsInfo where
  present : Bool := false
  certSource : String := ""
  subject : Option String := none
  issuer : Option String := none
  notAfter : Option String := none
  sans : List String := []
  alpn : List String := []
  deriving DecidableEq, Repr

/-- A handler: its number, its settings and the table that it routes with. -/
structure Handler where
  id : Nat
  cfg : Config
  table : ForwarderTable
  routes : cfg.forwarders = table.domains

def Handler.prewarms (h : Handler) : Bool := h.cfg.iterative && h.cfg.validates

structure Stores where
  negResolve : NegResolveCache
  /-- The locks per name and type. -/
  inFlight : Table (Name × RecordType) Nat

def Stores.fresh : Stores := ⟨∅, ∅⟩

/-- The daemon while it runs. -/
structure Running where
  /-- How many handlers have been built. -/
  built : Nat
  live : Handler
  ready : Nat → Bool
  stores : Nat → Stores
  /-- `forwarders_swap`. -/
  shown : ForwarderTable
  /-- `tls_swap`. -/
  tlsInfo : TlsInfo
  /-- There were TLS materials at start-up. -/
  tlsConfig : Bool
  listeners : LiveListeners
  unbuilt : ∀ id, built ≤ id → ready id = false ∧ stores id = .fresh

namespace Running

/-- `LiveHandler::is_ready`. -/
def isReady (d : Running) : Bool := d.ready d.live.id

def consulted (d : Running) : Stores := d.stores d.live.id

end Running

/-! ## The outside world -/

structure Outside where
  /-- `router.yaml`; `none` when it cannot be read or parsed. -/
  file : Option RouterYaml
  /-- Upstream sockets can be bound to these sources. -/
  sockets : Sources → Bool
  /-- `build_tls` at a `tls:` block; `none` is an error. -/
  tls : Tls → Option TlsInfo
  walk : HashOrder
  bind : BindEnv
  /-- The prewarm task is done before the new handler goes live. -/
  warm : Bool

/-- What a process is started with, and the source addresses it has found. -/
structure Args where
  vrf : Option String := none
  found : Sources := ⟨none, none⟩
  deriving DecidableEq, Repr

section

variable (L : Library) (args : Args) {cfg : DnsConfig} {d : Running} {h : Handler} {out : Outside}
  {ready : Nat → Bool} {table : ForwarderTable} {warm : Bool}

/-- `RecursorHandler::from_parts`: it fails when an upstream socket cannot be bound. -/
def fromParts (out : Outside) (id : Nat) (cfg : DnsConfig) (table : ForwarderTable) :
    Option Handler :=
  if out.sockets (upstreamSources cfg args.found) then some ⟨id, handlerConfig L cfg table, table, rfl⟩
  else none

def spawnDnssecPrewarm (ready : Nat → Bool) (h : Handler) (warm : Bool) : Nat → Bool :=
  if h.prewarms && !warm then ready else Function.update ready h.id true

def initialTls (out : Outside) (cfg : DnsConfig) : Option (TlsInfo × Bool) :=
  match cfg.tls with
  | none => some ({}, false)
  | some tls => (out.tls tls).map fun info => (info, true)

theorem spawnDnssecPrewarm_of_lt {id : Nat} (hid : h.id < id) :
    spawnDnssecPrewarm ready h warm id = ready id := by
  unfold spawnDnssecPrewarm
  split
  · rfl
  · exact Function.update_of_ne (Nat.ne_of_gt hid) ..

theorem spawnDnssecPrewarm_self (hwarms : h.prewarms = true) (hready : ready h.id = false) :
    spawnDnssecPrewarm ready h warm h.id = warm := by
  unfold spawnDnssecPrewarm
  rw [hwarms]
  cases warm with
  | false => exact hready
  | true => exact Function.update_self ..

def firstRunning (out : Outside) (cfg : DnsConfig) (table : ForwarderTable) (settings : Config)
    (routes : settings.forwarders = table.domains) (tls : TlsInfo × Bool) : Running where
  built := 1
  live := ⟨0, settings, table, routes⟩
  ready := spawnDnssecPrewarm (fun _ => false) ⟨0, settings, table, routes⟩ out.warm
  stores _ := .fresh
  shown := table
  tlsInfo := tls.1
  tlsConfig := tls.2
  listeners := bindListenerSetWithRetry out.bind tls.2 cfg.listeners .empty
  unbuilt _ hid := ⟨spawnDnssecPrewarm_of_lt hid, rfl⟩

/-- `main` and `async_main` up to the first bind; `none` when the process exits, or when `dns.enabled` is
false and it serves the control socket only. -/
def startUp (out : Outside) : Option Running := do
  let cfg ← (DnsConfig.loadFor out.file args.vrf).toOption
  if cfg.enabled then
    let table ← (ForwarderTable.new L cfg.forwarders).toOption
    let h ← fromParts L args out 0 cfg table
    let tls ← initialTls out cfg
    return firstRunning out cfg h.table h.cfg h.routes tls
  else none

theorem ok_of_toOption {ε α : Type} {x : Except ε α} {a : α} (h : x.toOption = some a) : x = .ok a := by
  cases x with
  | error e => nomatch h
  | ok b => exact congrArg _ (Option.some.inj h)

theorem startUp_eq_some (h : startUp L args out = some d) :
    ∃ cfg table tls, DnsConfig.loadFor out.file args.vrf = .ok cfg ∧
      ForwarderTable.new L cfg.forwarders = .ok table ∧ initialTls out cfg = some tls ∧
      d = firstRunning out cfg table (handlerConfig L cfg table) rfl tls := by
  obtain ⟨cfg, hcfg, h⟩ := Option.bind_eq_some_iff.mp h
  obtain ⟨-, h⟩ := Option.ite_none_right_eq_some.mp h
  obtain ⟨table, htable, h⟩ := Option.bind_eq_some_iff.mp h
  obtain ⟨handler, hparts, h⟩ := Option.bind_eq_some_iff.mp h
  obtain ⟨tls, htls, h⟩ := Option.bind_eq_some_iff.mp h
  obtain ⟨-, hhandler⟩ := Option.ite_none_right_eq_some.mp hparts
  obtain rfl := Option.some.inj hhandler
  exact ⟨cfg, table, tls, ok_of_toOption hcfg, ok_of_toOption htable, htls, (Option.some.inj h).symm⟩

/-! ## Reload -/

inductive Outcome where
  | configReadFailed (e : ConfigError)
  | forwarderConfigInvalid (e : ConfigError)
  | recursorInitFailed
  | completed
  deriving DecidableEq, Repr

def Outcome.aborted : Outcome → Bool
  | .completed => false
  | _ => true

namespace Running

def publish (d : Running) (table : ForwarderTable) : Running := { d with shown := table }

def install (d : Running) (out : Outside) (cfg : DnsConfig) (h : Handler) (hid : h.id = d.built) :
    Running :=
  let tls := cfg.tls.bind out.tls
  { d with
    built := d.built + 1
    live := h
    ready := spawnDnssecPrewarm d.ready h out.warm
    tlsInfo := tls.getD {}
    listeners := reloadListeners out.bind out.walk (tls.isSome || d.tlsConfig) cfg.listeners d.listeners
    unbuilt := by
      intro id hlt
      obtain ⟨hready, hstores⟩ := d.unbuilt id (Nat.le_of_succ_le hlt)
      exact ⟨(spawnDnssecPrewarm_of_lt (by omega)).trans hready, hstores⟩ }

end Running

theorem fromParts_id {id : Nat} (hh : fromParts L args out id cfg table = some h) : h.id = id := by
  unfold fromParts at hh
  split at hh
  · obtain rfl := Option.some.inj hh
    rfl
  · nomatch hh

def reload (out : Outside) (d : Running) : Outcome × Running :=
  match DnsConfig.load out.file with
  | .error e => (.configReadFailed e, d)
  | .ok cfg =>
      match ForwarderTable.new L cfg.forwarders with
      | .error e => (.forwarderConfigInvalid e, d)
      | .ok table =>
          match h : fromParts L args out d.built cfg table with
          | none => (.recursorInitFailed, d.publish table)
          | some handler =>
              (.completed, (d.publish table).install out cfg handler (fromParts_id L args h))

inductive Reloads (out : Outside) (d : Running) : Outcome × Running → Prop
  | configReadFailed {e : ConfigError} (hload : DnsConfig.load out.file = .error e) :
      Reloads out d (.configReadFailed e, d)
  | forwarderConfigInvalid {cfg : DnsConfig} {e : ConfigError}
      (hload : DnsConfig.load out.file = .ok cfg)
      (htable : ForwarderTable.new L cfg.forwarders = .error e) :
      Reloads out d (.forwarderConfigInvalid e, d)
  | recursorInitFailed {cfg : DnsConfig} {table : ForwarderTable}
      (hload : DnsConfig.load out.file = .ok cfg)
      (htable : ForwarderTable.new L cfg.forwarders = .ok table)
      (hsockets : out.sockets (upstreamSources cfg args.found) = false) :
      Reloads out d (.recursorInitFailed, d.publish table)
  | completed {cfg : DnsConfig} {table : ForwarderTable} (hload : DnsConfig.load out.file = .ok cfg)
      (htable : ForwarderTable.new L cfg.forwarders = .ok table)
      (hsockets : out.sockets (upstreamSources cfg args.found) = true) :
      Reloads out d (.completed,
        (d.publish table).install out cfg ⟨d.built, handlerConfig L cfg table, table, rfl⟩ rfl)

theorem reload_spec (out : Outside) (d : Running) : Reloads L args out d (reload L args out d) := by
  unfold reload
  split
  · rename_i e hload
    exact .configReadFailed hload
  rename_i cfg hload
  split
  · rename_i e htable
    exact .forwarderConfigInvalid hload htable
  rename_i table htable
  split
  · rename_i hparts
    refine .recursorInitFailed hload htable ?_
    simpa [fromParts] using hparts
  · rename_i handler hparts
    have hsockets : out.sockets (upstreamSources cfg args.found) = true := by
      by_contra hsockets
      simp [fromParts, hsockets] at hparts
    have hhandler : handler = ⟨d.built, handlerConfig L cfg table, table, rfl⟩ := by
      simpa [fromParts, hsockets] using hparts.symm
    subst hhandler
    exact .completed hload htable hsockets

theorem reload_completed (hload : DnsConfig.load out.file = .ok cfg)
    (htable : ForwarderTable.new L cfg.forwarders = .ok table)
    (hsockets : out.sockets (upstreamSources cfg args.found) = true) :
    reload L args out d = (.completed,
      (d.publish table).install out cfg ⟨d.built, handlerConfig L cfg table, table, rfl⟩ rfl) := by
  generalize hr : reload L args out d = r
  have hspec := reload_spec L args out d
  rw [hr] at hspec
  cases hspec with
  | configReadFailed hload' => nomatch hload.symm.trans hload'
  | forwarderConfigInvalid hload' htable' =>
    cases hload.symm.trans hload'
    nomatch htable.symm.trans htable'
  | recursorInitFailed hload' htable' hsockets' =>
    cases hload.symm.trans hload'
    nomatch hsockets.symm.trans hsockets'
  | completed hload' htable' _ =>
    cases hload.symm.trans hload'
    cases htable.symm.trans htable'
    rfl

theorem reload_recursorInitFailed (hload : DnsConfig.load out.file = .ok cfg)
    (htable : ForwarderTable.new L cfg.forwarders = .ok table)
    (hsockets : out.sockets (upstreamSources cfg args.found) = false) :
    reload L args out d = (.recursorInitFailed, d.publish table) := by
  unfold reload
  rw [hload]
  dsimp only
  rw [htable]
  dsimp only
  split
  · rfl
  · rename_i hparts
    simp [fromParts, hsockets] at hparts

namespace Running

/-- `tls_swap.store`; an error of `build_tls` is logged and the summary emptied. -/
def summarise (d : Running) (out : Outside) (cfg : DnsConfig) : Running :=
  { d with tlsInfo := (cfg.tls.bind out.tls).getD {} }

def swap (d : Running) (out : Outside) (h : Handler) (hid : h.id = d.built) : Running :=
  { d with
    built := d.built + 1
    live := h
    ready := spawnDnssecPrewarm d.ready h out.warm
    unbuilt := by
      intro id hlt
      obtain ⟨hready, hstores⟩ := d.unbuilt id (Nat.le_of_succ_le hlt)
      exact ⟨(spawnDnssecPrewarm_of_lt (by omega)).trans hready, hstores⟩ }

end Running

/-- What can be seen of a reload that gets as far as a new table, store by store. -/
inductive Stored (out : Outside) (d : Running) : Running → Prop
  | published {cfg : DnsConfig} {table : ForwarderTable} (hload : DnsConfig.load out.file = .ok cfg)
      (htable : ForwarderTable.new L cfg.forwarders = .ok table) :
      Stored out d (d.publish table)
  | summarised {cfg : DnsConfig} {table : ForwarderTable} (hload : DnsConfig.load out.file = .ok cfg)
      (htable : ForwarderTable.new L cfg.forwarders = .ok table)
      (hsockets : out.sockets (upstreamSources cfg args.found) = true) :
      Stored out d ((d.publish table).summarise out cfg)
  | swapped {cfg : DnsConfig} {table : ForwarderTable} (hload : DnsConfig.load out.file = .ok cfg)
      (htable : ForwarderTable.new L cfg.forwarders = .ok table)
      (hsockets : out.sockets (upstreamSources cfg args.found) = true) :
      Stored out d (((d.publish table).summarise out cfg).swap out
        ⟨d.built, handlerConfig L cfg table, table, rfl⟩ rfl)
  | rebound {cfg : DnsConfig} {table : ForwarderTable} (hload : DnsConfig.load out.file = .ok cfg)
      (htable : ForwarderTable.new L cfg.forwarders = .ok table)
      (hsockets : out.sockets (upstreamSources cfg args.found) = true) :
      Stored out d ((d.publish table).install out cfg ⟨d.built, handlerConfig L cfg table, table, rfl⟩ rfl)

/-- What happens to a running daemon: a reload, the end of a prewarm, and whatever the queries of a
handler do to its own caches. -/
inductive DaemonEvent where
  | reload (out : Outside)
  | warmed (id : Nat)
  | worked (id : Nat) (stores : Stores)

namespace Running

def setReady (d : Running) (id : Nat) (hid : id < d.built) : Running :=
  { d with
    ready := Function.update d.ready id true
    unbuilt := by
      intro j hj
      obtain ⟨hready, hstores⟩ := d.unbuilt j hj
      exact ⟨(Function.update_of_ne (by omega) ..).trans hready, hstores⟩ }

def setStores (d : Running) (id : Nat) (s : Stores) (hid : id < d.built) : Running :=
  { d with
    stores := Function.update d.stores id s
    unbuilt := by
      intro j hj
      obtain ⟨hready, hstores⟩ := d.unbuilt j hj
      exact ⟨hready, (Function.update_of_ne (by omega) ..).trans hstores⟩ }

end Running

def daemon : Machine Running DaemonEvent := fun d e =>
  match e with
  | .reload out => some (reload L args out d).2
  | .warmed id => if h : id < d.built then some (d.setReady id h) else none
  | .worked id s => if h : id < d.built then some (d.setStores id s h) else none

end

/-! ## Sample data -/

def sampleLibrary : Library where
  name s := if s = "z" then some ⟨[[122]]⟩ else none
  dns64 _ := none
  wellKnown := ⟨⟨0, 96⟩, [], validPrefixLength_96⟩
  ddrRecords _ _ _ := []

def HashOrder.same : HashOrder := ⟨id, List.Perm.refl⟩

def HashOrder.backwards : HashOrder := ⟨List.reverse, List.reverse_perm⟩

def Outside.calm (dns : DnsConfig) : Outside where
  file := some { dns := some dns }
  sockets _ := true
  tls _ := some { present := true }
  walk := .same
  bind := ⟨fun _ _ => true, 0⟩
  warm := false

def insideNet : IpNet := ⟨.v4 0x0a000000, 8⟩

def sampleListener (name : String) (protocols : List String) (allowFrom : List IpNet) : Listener where
  name := name
  address := .v4 0x0a000001
  protocols := protocols
  allowFrom := allowFrom

def lanEntry : Listener := sampleListener "lan" ["udp", "tcp"] [insideNet]

def lanKey (p : Protocol) : ListenerKey := ⟨.v4 0x0a000001, 53, p⟩

def sampleDns (listeners : List Listener) : DnsConfig := { enabled := true, listeners := listeners }

end Dnsd.Daemon
