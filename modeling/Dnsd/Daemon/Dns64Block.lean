/-
# Dns64Block — from the `dns64:` block to a policy.

`Dns64Policy::from_config` refuses a block with a malformed prefix or exclusion; its parsers are parameters.
`from_parts` goes on with the well-known prefix and without exclusions instead (`handlerPolicy_eq`).
-/
import Dnsd.Daemon.Config

namespace Dnsd.Daemon

open Proto Recursor

/-! ## The block -/

def defaultPrefix : String := "64:ff9b::/96"

/-- What can be wrong with a `dns64:` block. -/
inductive Dns64Error where
  | invalidNet (text : String)
  | invalidLength (len : Nat)
  | badExclusion (text : String)
  deriving DecidableEq, Repr

section

variable (net : String → Option Ipv6Net) (name : String → Option Name)

def exclusionNames : List String → Except Dns64Error (List Name)
  | [] => .ok []
  | e :: es =>
      match name e with
      | none => .error (.badExclusion e)
      | some n => (exclusionNames es).map (n.toLowercase :: ·)

/-- `Dns64Policy::from_config`; `DEFAULT_EXCLUSIONS` is empty. -/
def fromConfig (block : Dns64) : Except Dns64Error Dns64Policy :=
  let text := block.net.getD defaultPrefix
  match net text with
  | none => .error (.invalidNet text)
  | some n =>
      if h : validPrefixLength n.prefixLen = true then
        (exclusionNames name block.exclusions).map fun exclusions => ⟨n, exclusions, h⟩
      else .error (.invalidLength n.prefixLen)

end

section

variable {net : String → Option Ipv6Net} {name : String → Option Name}

theorem mem_exclusionNames {texts : List String} {names : List Name}
    (h : exclusionNames name texts = .ok names) {ex : Name} :
    ex ∈ names ↔ ∃ e ∈ texts, ∃ n, name e = some n ∧ ex = n.toLowercase := by
  induction texts generalizing names with
  | nil =>
    cases h
    simp
  | cons e es ih =>
    unfold exclusionNames at h
    cases hname : name e with
    | none =>
      rw [hname] at h
      nomatch h
    | some n =>
      cases hrest : exclusionNames name es with
      | error err =>
        rw [hname, hrest] at h
        nomatch h
      | ok rest =>
        rw [hname, hrest] at h
        obtain rfl := Except.ok.inj h
        rw [List.mem_cons, ih hrest]
        simp [hname]

/-- **An accepted block**: its prefix is parsed and has a length of RFC 6052, and so are its exclusions. -/
theorem fromConfig_ok {block : Dns64} {p : Dns64Policy} (h : fromConfig net name block = .ok p) :
    net (block.net.getD defaultPrefix) = some p.net ∧
      ∀ ex, ex ∈ p.exclusions ↔ ∃ e ∈ block.exclusions, ∃ n, name e = some n ∧ ex = n.toLowercase := by
  unfold fromConfig at h
  dsimp only at h
  split at h
  · nomatch h
  rename_i n hnet
  split at h
  · rename_i hvalid
    cases hnames : exclusionNames name block.exclusions with
    | error e =>
      rw [hnames] at h
      nomatch h
    | ok names =>
      rw [hnames] at h
      obtain rfl := Except.ok.inj h
      exact ⟨hnet, fun ex => mem_exclusionNames hnames⟩
  · nomatch h

end

/-! ## The policy of a handler -/

/-- The DNS64 part of the library is made of a parser for networks and the one for names. -/
structure Library.Reads (L : Library) (net : String → Option Ipv6Net) : Prop where
  dns64 : ∀ block, L.dns64 block = (fromConfig net L.name block).toOption
  wellKnown : L.wellKnown = .defaultWkp

/-- **A refused block is no obstacle**: the handler has the well-known prefix then. -/
theorem handlerPolicy_eq {L : Library} {net : String → Option Ipv6Net} (hL : L.Reads net)
    {cfg : DnsConfig} {table : ForwarderTable} {p : Dns64Policy}
    (h : (handlerConfig L cfg table).dns64 = some p) :
    match fromConfig net L.name (cfg.dns64.getD {}) with
    | .ok p' => p = p'
    | .error _ => p = .defaultWkp := by
  obtain ⟨_, hp⟩ := Option.ite_none_right_eq_some.mp h
  have hsome := Option.some.inj hp
  rw [hL.dns64, hL.wellKnown] at hsome
  cases hblock : fromConfig net L.name (cfg.dns64.getD {}) with
  | ok p' =>
    rw [hblock] at hsome
    exact hsome.symm
  | error e =>
    rw [hblock] at hsome
    exact hsome.symm

end Dnsd.Daemon
