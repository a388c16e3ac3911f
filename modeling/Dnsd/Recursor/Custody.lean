/-
# Custody — what the recursor takes in, keeps and uses.

A `Custody` says which addresses may be asked and which delegations may be kept, given what the servers reply.  It
is the conduct in which an address may be asked anything.
-/
import Dnsd.Recursor.Conduct

namespace Dnsd.Recursor

open Proto Lib Contract

structure Custody where
  reply : Name → IpAddr → Query → Reply → Prop
  usable : IpAddr → Prop
  keep : ChainStep → Prop

namespace Custody

variable (K : Custody)

def AllUsable (ips : List IpAddr) : Prop := ∀ ip ∈ ips, K.usable ip

def ChainUsable (chain : WalkChain) : Prop := ∀ step ∈ chain.steps, K.AllUsable step.nsIps

def pre : Op → Prop
  | .query _ ip _ => K.usable ip
  | .writeRoots ips => K.AllUsable ips
  | .delegationInsert step => K.keep step
  | _ => True

def post : (o : Op) → o.Res → Prop
  | .query asked ip q, r => K.reply asked ip q r
  | .shuffle ips, order => order.Perm ips
  | .readRoots, ips => K.AllUsable ips
  | .delegationGet zone, r => ∀ step, r = some step → step.zone.same zone = true ∧ K.keep step
  | _, _ => True

abbrev contract : Contract Unit Op Op.Res := Contract.plain K.pre K.post

structure Toured (cfg : IterConfig) (Inv : Query → Hop → Prop) : Prop where
  tour : Tour K.pre K.post cfg Inv
  usable : ∀ q hop, Inv q hop → K.ChainUsable hop.chain
  keep : cfg.dnssecOk = true → ∀ q hop, Inv q hop → ∀ step ∈ hop.chain.steps, K.keep step
  primed : ∀ ip, Usable cfg ip → K.usable ip

def conduct : Conduct where
  reply := K.reply
  ask _ ip _ := K.usable ip
  roots := K.AllUsable
  keep := K.keep
  forward _ _ := True

theorem conduct_pre : K.conduct.pre = K.pre := by
  funext o
  cases o <;> rfl

theorem conduct_post : K.conduct.post = K.post := by
  funext o r
  cases o <;> rfl

theorem conduct_contract : K.conduct.contract = K.contract := by
  rw [Conduct.contract, conduct_pre, conduct_post]

end Custody

/-! ## The tasks -/

section

variable {K : Custody} {C : Crypto} {Inv : Query → Hop → Prop}

theorem Custody.Toured.conduct {cfg : IterConfig} (hK : K.Toured cfg Inv) :
    K.conduct.Toured cfg (fun _ => True) Inv where
  tour := by
    rw [K.conduct_pre, K.conduct_post]
    exact hK.tour.any
  rooted _ _ hips := hips
  checked := by
    intro _ q msg chain htraced
    obtain ⟨hop, hinv, rfl⟩ := htraced.chain_inv
    have hboots : ∀ signer, K.conduct.BootsUp signer := fun _ _ hips _ _ => ⟨hips, hips⟩
    exact ⟨hK.usable q hop hinv, fun _ _ _ _ => hboots _, fun _ _ _ _ => hboots _⟩
  keep := hK.keep

/-- **Every task of a handler keeps to a custody that its walks keep to.** -/
theorem Task.custody {cfg : Config} (hK : K.Toured cfg.iter Inv) {p : RProg Unit}
    (h : Task C cfg p) : K.contract.Safe () p fun _ _ => True := by
  rw [← K.conduct_contract]
  cases h with
  | serve nest peer dns64Enabled msg =>
    refine serve_conduct hK.conduct fun q qs _ => ?_
    exact ⟨fun _ => trivial, fun _ _ => ⟨trivial, trivial⟩, fun _ _ _ _ _ => trivial⟩
  | prime _ =>
    exact prime_conduct (fun _ hips => hips) fun _ husable ip hip => hK.primed ip (husable ip hip)
  | prewarm nest name _ hon => exact prewarm_conduct hK.conduct hon trivial

end

/-! ## The state of a process -/

section

variable {ι : Type} [DecidableEq ι] {K : ι → Custody} {N : Net ι}

structure InCustody (K : ι → Custody) (w : World ι) : Prop where
  roots : ∀ i, (K i).AllUsable (w.inst i).roots
  keyed : ∀ i zone e, AList.lookup zone (w.inst i).delegations = some e → zone = e.step.zone.toLowercase
  delegations : ∀ i zone e, AList.lookup zone (w.inst i).delegations = some e → (K i).keep e.step

omit [DecidableEq ι] in
theorem held_iff {w : World ι} : Held (fun i => (K i).conduct) w ↔ InCustody K w :=
  ⟨fun h => ⟨h.roots, h.keyed, h.delegations⟩, fun h => ⟨h.roots, h.keyed, h.delegations⟩⟩

theorem custody_keeps {C : Crypto} {cfg : ι → Config} {init : World ι → Prop}
    {Inv : ι → Query → Hop → Prop}
    (hN : ∀ i asked ip q r, N.reply asked ip q r → (K i).reply asked ip q r)
    (hinit : ∀ w, init w → Init N w ∧ ∀ i, (K i).AllUsable (w.inst i).roots)
    (hK : ∀ i, (K i).Toured (cfg i).iter (Inv i)) :
    ({ process C cfg N with init := init } : System ι Op Op.Res (World ι)).Keeps
      (fun i => (K i).contract) (InCustody K) (fun _ _ => True) () := by
  have hstart : ∀ i p, Task C (cfg i) p → (K i).conduct.contract.Safe () p fun _ _ => True := by
    intro i p htask
    rw [(K i).conduct_contract]
    exact Task.custody (hK i) htask
  have hkeeps := conduct_keeps (D := fun i => (K i).conduct) hN hinit hstart
  rw [← show Held (fun i => (K i).conduct) = InCustody K from funext fun _ => propext held_iff,
    ← show (fun i => (K i).conduct.contract) = fun i => (K i).contract from
      funext fun i => (K i).conduct_contract]
  exact hkeeps

end

end Dnsd.Recursor
