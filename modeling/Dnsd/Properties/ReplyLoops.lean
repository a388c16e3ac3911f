/-
# ReplyLoops — replies to replies.

No reply path looks at the QR bit: `reply_regardless` says which messages stay without a reply, and responses are
not among them.  A refusal is its own refusal (`buildRefused_idem`), so two servers that refuse go on for ever
(`volley_of_refusing`, `reply_loops`).
-/
import Dnsd.Io.Listener
import Dnsd.Recursor.Replies

namespace Dnsd.Io

open Proto Lib Recursor
open Daemon (Protocol)
open Upstream (Bytes WireMessage)

/-! ## Which messages stay without a reply -/

/-- The readiness flag and the rate limiter answer as given, everything else in any way. -/
def Conditions (ready through : Bool) : (o : Op) → o.Res → Prop
  | .isReady, b => b = ready
  | .rrlCheck _, b => b = through
  | _, _ => True

variable {codec : Codec} {datagram reply : Bytes} {m : Request}

/-- A recursor that is ready drops what has no question or comes too often. -/
def Dropped (m : Message) (ready through : Bool) : Handler codec → Prop
  | .refused => False
  | .recursor _ cfg _ => ready = true ∧ (m.queries = [] ∨ cfg.rrl = true ∧ through = false)

def Ignored (h : Handler codec) (a : Arrival) (m : Message) (ready through : Bool) : Protocol → Prop
  | .udp => a.allowed = false ∨ a.permit = true ∧ Dropped m ready through h
  | _ => a.admitted = false ∨ h.isReady a.ready = false ∨ a.allowed = false ∨ Dropped m ready through h

def refusal (codec : Codec) (m : Message) : Option Bytes := codec.toVec ⟨Recursor.buildRefused m, true⟩

def Replies (a : Arrival) (m : Message) (ready through : Bool) (reply : Option Bytes) : Handler codec → Prop
  | .refused => reply = refusal codec m
  | .recursor C cfg encoder => ∃ r, reply = encoder.encode m r ∧
      (Recursor.handleBytes C cfg a.nest a.peer a.dns64 m).Yields (Conditions ready through) (some r)

/-- The reply that is due: a refusal if UDP has no permit, otherwise the handler's. -/
def Due (h : Handler codec) (a : Arrival) (m : Message) (ready through : Bool) (reply : Option Bytes)
    (p : Protocol) : Prop :=
  if p = .udp ∧ a.permit = false then reply = refusal codec m else Replies a m ready through reply h

def replyLimit : Protocol → Option Nat
  | .tcp => some maxTcpMessage
  | .dot => some maxTcpMessage
  | _ => none

def sent (p : Protocol) (reply : Option Bytes) : Option Bytes :=
  reply.filter fun b => (replyLimit p).all fun n => b.length ≤ n

def taken (p : Protocol) (query : Bytes) : Bytes :=
  match p with
  | .udp => query.take udpBufSize
  | _ => query

section

variable {h : Handler codec} {a : Arrival} {p : Protocol} {ready through : Bool} {m : Request}
  {query : Bytes} {r : Option Bytes}

theorem handleBytes_none_iff {C : Crypto} {cfg : Config} {nest : Nat} {peer : IpAddr} {dns64 : Bool}
    {m : Message} {r : Option Message}
    (hr : (Recursor.handleBytes C cfg nest peer dns64 m).Yields (Conditions ready through) r) :
    r = none ↔ ready = true ∧ (m.queries = [] ∨ cfg.rrl = true ∧ through = false) := by
  obtain ⟨b, hb, hr⟩ := Prog.yields_perform_bind.mp hr
  obtain rfl : b = ready := hb
  cases b with
  | false =>
    obtain rfl := Prog.yields_ret.mp hr
    simp
  | true =>
    cases hq : m.queries with
    | nil =>
      simp only [Bool.not_true, Bool.false_eq_true, if_false, hq] at hr
      obtain rfl := Prog.yields_ret.mp hr
      simp
    | cons q qs =>
      simp only [Bool.not_true, Bool.false_eq_true, if_false, hq] at hr
      obtain ⟨allowed, hallowed, hr⟩ := Prog.yields_bind.mp hr
      -- The limiter lets everything through when it is off.
      have hrrl : allowed = false ↔ cfg.rrl = true ∧ through = false := by
        unfold rrlAllows at hallowed
        split at hallowed
        · rename_i hon
          obtain ⟨b, hb, hret⟩ := Prog.yields_op.mp hallowed
          obtain rfl := Prog.yields_ret.mp hret
          obtain rfl : allowed = through := hb
          simp [hon]
        · rename_i hoff
          obtain rfl := Prog.yields_ret.mp hallowed
          simp [hoff]
      cases allowed with
      | false =>
        obtain rfl := Prog.yields_ret.mp hr
        simp [hrrl.mp rfl]
      | true =>
        have hoff : ¬ (cfg.rrl = true ∧ through = false) := fun h => nomatch hrrl.mpr h
        simp only [Bool.not_true, Bool.false_eq_true, if_false] at hr
        have hsome : r ≠ none := by
          split at hr
          · obtain rfl := Prog.yields_ret.mp hr
            nofun
          split at hr
          · obtain rfl := Prog.yields_ret.mp hr
            nofun
          · split at hr
            · obtain ⟨resp, _, hr⟩ := Prog.yields_bind.mp hr
              obtain rfl := Prog.yields_ret.mp hr
              nofun
            · obtain ⟨resp, _, hr⟩ := Prog.yields_bind.mp hr
              obtain rfl := Prog.yields_ret.mp hr
              nofun
        simp [hsome, hoff]

theorem handleBytes_cases (hm : codec.fromBytes query = some m)
    (hr : (h.handleBytes a.nest a.peer a.dns64 query).Yields (Conditions ready through) r) :
    (Dropped m.toMessage ready through h ∧ r = none) ∨
      (¬ Dropped m.toMessage ready through h ∧ Replies a m.toMessage ready through r h) := by
  cases h with
  | refused =>
    obtain rfl := Prog.yields_ret.mp hr
    refine Or.inr ⟨fun hd => hd, ?_⟩
    show buildRefused codec query = refusal codec m.toMessage
    unfold buildRefused refusal
    rw [hm]
  | recursor C cfg encoder =>
    unfold Handler.handleBytes at hr
    rw [hm] at hr
    obtain ⟨reply, hreply, hr⟩ := Prog.yields_bind.mp hr
    obtain rfl := Prog.yields_ret.mp hr
    have hiff := handleBytes_none_iff hreply
    cases reply with
    | none => exact Or.inl ⟨hiff.mp rfl, rfl⟩
    | some reply =>
      refine Or.inr ⟨fun hd => ?_, reply, rfl, hreply⟩
      nomatch hiff.mpr hd

theorem sent_udp (reply : Option Bytes) : sent .udp reply = reply := by
  cases reply <;> rfl

theorem serveStream_cases {limit : Option Nat} (hlimit : replyLimit p = limit) (hp : p ≠ .udp)
    (hm : codec.fromBytes query = some m)
    (hr : (serveStream h a limit query).Yields (Conditions ready through) r) :
    (Ignored h a m.toMessage ready through p ∧ r = none) ∨
      (¬ Ignored h a m.toMessage ready through p ∧
        ∃ reply, Due h a m.toMessage ready through reply p ∧ r = sent p reply) := by
  have hignored : Ignored h a m.toMessage ready through p ↔ a.admitted = false ∨
      h.isReady a.ready = false ∨ a.allowed = false ∨ Dropped m.toMessage ready through h := by
    cases p with
    | udp => exact absurd rfl hp
    | tcp | dot | doh => exact Iff.rfl
  rw [hignored]
  unfold serveStream at hr
  cases hadm : a.admitted with
  | false =>
    rw [hadm] at hr
    exact Or.inl ⟨Or.inl rfl, Prog.yields_ret.mp hr⟩
  | true =>
    cases hready : h.isReady a.ready with
    | false =>
      rw [hadm, hready] at hr
      exact Or.inl ⟨Or.inr (Or.inl rfl), Prog.yields_ret.mp hr⟩
    | true =>
      cases hallowed : a.allowed with
      | false =>
        rw [hadm, hready, hallowed] at hr
        exact Or.inl ⟨Or.inr (Or.inr (Or.inl rfl)), Prog.yields_ret.mp hr⟩
      | true =>
        rw [hadm, hready, hallowed] at hr
        obtain ⟨response, hresponse, hr⟩ := Prog.yields_bind.mp hr
        obtain rfl := Prog.yields_ret.mp hr
        rcases handleBytes_cases hm hresponse with ⟨hd, rfl⟩ | ⟨hd, hreply⟩
        · exact Or.inl ⟨Or.inr (Or.inr (Or.inr hd)), rfl⟩
        · refine Or.inr ⟨by simpa using hd, response, ?_, ?_⟩
          · unfold Due
            rwa [if_neg fun h => hp h.1]
          · unfold sent
            rw [hlimit]

/-- **Who gets a reply.**  On every listener and in every state of the handler, a message is ignored, or the reply
that is due is sent, if it can be.  Whether it is a query or a response makes no difference. -/
theorem reply_regardless {query : Bytes} {m : Request} (hm : codec.fromBytes (taken p query) = some m)
    {r : Option Bytes} (hr : (serve h a p query).Yields (Conditions ready through) r) :
    (Ignored h a m.toMessage ready through p ∧ r = none) ∨
      (¬ Ignored h a m.toMessage ready through p ∧
        ∃ reply, Due h a m.toMessage ready through reply p ∧ r = sent p reply) := by
  cases p with
  | tcp => exact serveStream_cases (p := .tcp) rfl nofun hm hr
  | dot => exact serveStream_cases (p := .dot) rfl nofun hm hr
  | doh => exact serveStream_cases (p := .doh) rfl nofun hm hr
  | udp =>
    have hr' : (Udp.serveLoop h a query).Yields (Conditions ready through) r := hr
    have hm' : codec.fromBytes (query.take udpBufSize) = some m := hm
    unfold Udp.serveLoop at hr'
    cases hallowed : a.allowed with
    | false =>
      rw [hallowed] at hr'
      exact Or.inl ⟨Or.inl hallowed, Prog.yields_ret.mp hr'⟩
    | true =>
      cases hpermit : a.permit with
      | false =>
        rw [hallowed, hpermit] at hr'
        obtain rfl := Prog.yields_ret.mp hr'
        refine Or.inr ⟨by simp [Ignored, hallowed, hpermit], refusal codec m.toMessage, ?_, ?_⟩
        · unfold Due
          rw [if_pos ⟨rfl, hpermit⟩]
        · rw [sent_udp]
          unfold buildRefused
          rw [hm']
          rfl
      | true =>
        rw [hallowed, hpermit] at hr'
        rcases handleBytes_cases hm' hr' with ⟨hd, rfl⟩ | ⟨hd, hreply⟩
        · exact Or.inl ⟨Or.inr ⟨hpermit, hd⟩, rfl⟩
        · refine Or.inr ⟨by simp [Ignored, hallowed, hpermit, hd], r, ?_, (sent_udp r).symm⟩
          unfold Due
          rwa [if_neg (by simp [hpermit])]

def bareResponse : Bytes := [0x12, 0x34, 0x80, 0, 0, 0, 0, 0, 0, 0, 0, 0]

theorem reply_regardless_bare :
    wireCodec.fromBytes (taken .doh bareResponse) = some (bareRequest 0x12 0x34 0x80 0 []) ∧
      ((Ignored (.refused : Handler wireCodec) { peer := .v4 9, allowed := true, dns64 := false }
          (bareRequest 0x12 0x34 0x80 0 []).toMessage true true .doh ∧
        buildRefused wireCodec bareResponse = none) ∨
        (¬ Ignored (.refused : Handler wireCodec) { peer := .v4 9, allowed := true, dns64 := false }
            (bareRequest 0x12 0x34 0x80 0 []).toMessage true true .doh ∧
          ∃ reply, Due (.refused : Handler wireCodec) { peer := .v4 9, allowed := true, dns64 := false }
              (bareRequest 0x12 0x34 0x80 0 []).toMessage true true reply .doh ∧
            buildRefused wireCodec bareResponse = sent .doh reply)) := by
  have hm : wireCodec.fromBytes (taken .doh bareResponse) = some (bareRequest 0x12 0x34 0x80 0 []) := by
    decide +kernel
  refine ⟨hm, reply_regardless hm ?_⟩
  have hall : (buildRefused wireCodec bareResponse).filter (fun _ => true) =
      buildRefused wireCodec bareResponse := by decide +kernel
  exact .ret _

end

/-! ## Two servers -/

structure Server (codec : Codec) where
  handler : Handler codec
  allowed : Bool := true
  permit : Bool := true
  ready : Bool := true
  through : Bool := true

def Server.Sends (x : Server codec) (datagram reply : Bytes) : Prop :=
  ∃ nest peer dns64, (serve x.handler { nest, peer, dns64, allowed := x.allowed, permit := x.permit }
    .udp datagram).Yields (Conditions x.ready x.through) (some reply)

def Volley (x y : Server codec) : Nat → Bytes → Prop
  | 0, _ => True
  | n + 1, datagram => ∃ reply, x.Sends datagram reply ∧ Volley y x n reply

def Server.Refusing (x : Server codec) : Prop :=
  x.allowed = true ∧ (x.handler = .refused ∨ x.permit = false ∨ x.ready = false)

theorem Server.sends_handled {x : Server codec} (hallowed : x.allowed = true)
    (hpermit : x.permit = true) (nest : Nat) (peer : IpAddr) (dns64 : Bool)
    (h : (x.handler.handleBytes nest peer dns64 (datagram.take udpBufSize)).Yields (Conditions x.ready x.through) (some reply)) :
    x.Sends datagram reply := by
  refine ⟨nest, peer, dns64, ?_⟩
  show (Udp.serveLoop ..).Yields _ _
  rw [hallowed, hpermit]
  exact h

theorem Server.Refusing.sends {x : Server codec} (hx : x.Refusing)
    (hm : codec.fromBytes (datagram.take udpBufSize) = some m)
    (hreply : refusal codec m.toMessage = some reply) : x.Sends datagram reply := by
  have hrefused : buildRefused codec (datagram.take udpBufSize) = some reply := by
    unfold buildRefused
    rw [hm]
    exact hreply
  cases hpermit : x.permit with
  | false =>
    refine ⟨0, .v4 0, false, ?_⟩
    show (Udp.serveLoop ..).Yields _ _
    rw [hx.1, hpermit, ← hrefused]
    exact .ret _
  | true =>
    refine Server.sends_handled hx.1 hpermit 0 (.v4 0) false ?_
    cases hh : x.handler with
    | refused =>
      rw [← hrefused]
      exact .ret _
    | recursor C cfg encoder =>
      -- What is left is the recursor that is not ready.
      have hready : x.ready = false := by
        rcases hx.2 with h | h | h
        · rw [hh] at h
          nomatch h
        · rw [hpermit] at h
          nomatch h
        · exact h
      unfold Handler.handleBytes
      rw [hm]
      refine Prog.yields_bind.mpr ⟨some (Recursor.buildRefused m.toMessage), ?_, ?_⟩
      · exact Prog.yields_perform_bind.mpr ⟨false, hready.symm, .ret _⟩
      · unfold refusal at hreply
        rw [← hreply, ← encoder.refusal m.toMessage]
        exact .ret _

theorem volley {x y : Server codec} {P : Bytes → Prop}
    (hx : ∀ datagram, P datagram → ∃ reply, x.Sends datagram reply ∧ P reply)
    (hy : ∀ datagram, P datagram → ∃ reply, y.Sends datagram reply ∧ P reply) (n : Nat) (h : P datagram) :
    Volley x y n datagram := by
  induction n generalizing x y datagram with
  | zero => trivial
  | succ n ih =>
    obtain ⟨reply, hsends, hreply⟩ := hx datagram h
    exact ⟨reply, hsends, ih hy hx hreply⟩

/-! ## One spoofed datagram -/

def spoofed (code : UInt8) : Bytes := [0x12, 0x34, 0x80, code, 0, 1, 0, 0, 0, 0, 0, 0, 0, 0, 1, 0, 1]

def spoofedMessage (code : UInt8) : Request := bareRequest 0x12 0x34 0x80 code [⟨.root, .A, .IN⟩]

abbrev exchanged : List UInt8 := [0, 2, 5]

theorem spoofed_read : ∀ code ∈ exchanged,
    wireCodec.fromBytes ((spoofed code).take udpBufSize) = some (spoofedMessage code) := by
  decide +kernel

theorem spoofed_refusal : ∀ code ∈ exchanged,
    refusal wireCodec (spoofedMessage code).toMessage = some (spoofed 5) := by
  decide +kernel

theorem spoofed_servfail : ∀ code ∈ exchanged,
    wireCodec.toVec ⟨servfail (spoofedMessage code).toMessage, true⟩ = some (spoofed 2) := by
  decide +kernel

def relayHandler : Handler wireCodec := .recursor (listCrypto []) (relayConfig none) (.plain wireCodec)

def disabled : Server wireCodec := { handler := .refused }

def shedding : Server wireCodec := { handler := relayHandler, permit := false }

def starting : Server wireCodec := { handler := relayHandler, ready := false }

def failing : Server wireCodec := { handler := relayHandler }

theorem failing_yields (code : UInt8) :
    (Recursor.handleBytes (listCrypto []) (relayConfig none) 0 (.v4 0) false
      (spoofedMessage code).toMessage).Yields (Conditions true true)
      (some (servfail (spoofedMessage code).toMessage)) := by
  have hrun : (Recursor.handleBytes (listCrypto []) (relayConfig none) 0 (.v4 0) false
      (spoofedMessage code).toMessage).Yields (Script.Answered {})
      (some (servfail (spoofedMessage code).toMessage)) :=
    Script.yields_of_result (w := freshWorld rootAnchors) rfl
  refine hrun.mono ?_
  rintro o r ⟨w, rfl⟩
  cases o <;> trivial

theorem failing_sends {code : UInt8} (hcode : code ∈ exchanged) :
    failing.Sends (spoofed code) (spoofed 2) := by
  refine Server.sends_handled rfl rfl 0 (.v4 0) false ?_
  unfold failing relayHandler Handler.handleBytes
  rw [spoofed_read code hcode, ← spoofed_servfail code hcode]
  exact Prog.yields_bind.mpr ⟨_, failing_yields code, .ret _⟩

theorem reply_loops :
    wireCodec.fromBytes (spoofed 0) = some (spoofedMessage 0) ∧ (spoofedMessage 0).isResponse = true ∧
      ∀ x ∈ [disabled, shedding, starting, failing], ∀ y ∈ [disabled, shedding, starting, failing],
        ∀ n, Volley x y n (spoofed 0) := by
  have hsends : ∀ x ∈ [disabled, shedding, starting, failing], ∀ d, (∃ code ∈ exchanged, d = spoofed code) →
      ∃ reply, x.Sends d reply ∧ ∃ code ∈ exchanged, reply = spoofed code := by
    rintro x hx _ ⟨code, hcode, rfl⟩
    have hrefusing : x.Refusing →
        ∃ reply, x.Sends (spoofed code) reply ∧ ∃ code ∈ exchanged, reply = spoofed code := fun hx =>
      ⟨_, hx.sends (spoofed_read code hcode) (spoofed_refusal code hcode), 5, by decide, rfl⟩
    simp only [List.mem_cons, List.not_mem_nil, or_false] at hx
    rcases hx with rfl | rfl | rfl | rfl
    · exact hrefusing ⟨rfl, Or.inl rfl⟩
    · exact hrefusing ⟨rfl, Or.inr (Or.inl rfl)⟩
    · exact hrefusing ⟨rfl, Or.inr (Or.inr rfl)⟩
    · exact ⟨_, failing_sends hcode, 2, by decide, rfl⟩
  refine ⟨by decide +kernel, by decide, fun x hx y hy n => ?_⟩
  exact volley (hsends x hx) (hsends y hy) n ⟨0, by decide, rfl⟩

end Dnsd.Io
