/-
# AnswerAcceptance — which replies of an upstream are taken for the answer.

A path looks at the TXID and the name of a reply, over UDP also at where it comes from, and at nothing else: not
the QR bit, the number of questions, or the four octets after the name.
-/
import Dnsd.Upstream.Client

namespace Dnsd.Upstream

open Proto Lib Prog List
open Daemon (ForwarderServer)

inductive UpstreamPath where
  | classic (peer : SocketAddr)
  | dot (srv : ForwarderServer) (forwarderDomain : String)

def UpstreamPath.run (codec : Codec) (c : UpstreamClient) (orig : Bytes) : UpstreamPath → Attempt Bytes
  | .classic peer => queryOne codec c peer orig
  | .dot srv domain => queryOneDot codec c srv domain orig

/-- How a reply arrives: as a datagram from the address that was asked, over a TCP connection to it, or over
the stream to which the query was written. -/
inductive Received (p : Prepared) (resp : Bytes) : UpstreamPath → Trace Op.Res → Prop
  | udp {peer src : SocketAddr} {t : Trace Op.Res} : src.1 = peer.1 →
      ⟨.udp peer p.wire p.upstreamTxid, some (resp, src)⟩ ∈ t → Received p resp (.classic peer) t
  | tcp {peer : SocketAddr} {source : Option IpAddr} {t : Trace Op.Res} :
      ⟨.tcp peer source p.wire, some resp⟩ ∈ t → Received p resp (.classic peer) t
  | dot {srv : ForwarderServer} {domain : String} {s : Stream} {t : Trace Op.Res} :
      ⟨.writeMessage s p.wire, true⟩ ∈ t → ⟨.readMessage s, some resp⟩ ∈ t →
      Received p resp (.dot srv domain) t

def delivered : (Σ o : Op, o.Res) → List Bytes
  | ⟨.udp _ _ _, some (resp, _)⟩ => [resp]
  | ⟨.tcp _ _ _, some resp⟩ => [resp]
  | ⟨.readMessage _, some resp⟩ => [resp]
  | _ => []

theorem Received.delivered {p : Prepared} {resp : Bytes} {path : UpstreamPath} {t : Trace Op.Res}
    (h : Received p resp path t) : resp ∈ t.flatMap delivered := by
  cases h with
  | udp _ hmem => exact mem_flatMap.mpr ⟨_, hmem, mem_singleton_self _⟩
  | tcp hmem => exact mem_flatMap.mpr ⟨_, hmem, mem_singleton_self _⟩
  | dot _ hmem => exact mem_flatMap.mpr ⟨_, hmem, mem_singleton_self _⟩

/-- The reply `resp` to the hop `p` of a query was taken for the answer in the run `t`. -/
structure Accepted (codec : Codec) (path : UpstreamPath) (orig : Bytes) (t : Trace Op.Res)
    (p : Prepared) (resp : Bytes) : Prop where
  drawn : ⟨.txid, p.upstreamTxid⟩ ∈ t
  prepared : ∃ coins, Prepared.build codec orig p.upstreamTxid coins = .ok p
  received : Received p resp path t
  checked : verifyResponse resp p.upstreamTxid p.qnameMask = .ok ()

def Answers (q : Question) (resp : Bytes) : Prop :=
  isResponse resp = true ∧ ∃ r, question? resp = some r ∧ q.Same r

section

variable {codec : Codec} {c : UpstreamClient} {ok : (o : Op) → o.Res → Prop} {t : Trace Op.Res}
  {orig resp out : Bytes} {p : Prepared} {q : Question} {path : UpstreamPath}

theorem runs_queryOne {peer : SocketAddr} (h : (queryOne codec c peer orig).run.Runs ok t (some (.ok out))) :
    ∃ p resp, Accepted codec (.classic peer) orig t p resp ∧
      finalize codec resp p.clientTxid = .ok out := by
  obtain ⟨t₁, _, p, rfl, hprepare, h⟩ := runs_ok_bind.mp h
  obtain ⟨hdrawn, hbuild⟩ := runs_prepare hprepare
  obtain ⟨t₂, t₃, udpResp, rfl, hudp, h⟩ := runs_ok_bind.mp h
  obtain ⟨hcheck, src, hsrc, hmem⟩ := runs_queryOneUdp hudp
  split at h
  · exact absurd h not_runs_ok_throw
  split at h
  · -- Truncated: the reply is the one over TCP, for a hop of its own.
    obtain ⟨t₄, _, tcp, rfl, hprepare', h⟩ := runs_ok_bind.mp h
    obtain ⟨hdrawn', hbuild'⟩ := runs_prepare hprepare'
    obtain ⟨t₅, t₆, tcpResp, rfl, htcp, h⟩ := runs_ok_bind.mp h
    obtain ⟨hcheck', hmem'⟩ := runs_queryOneTcp htcp
    obtain ⟨_, hfinal⟩ := runs_ofHop h
    have hclient : p.clientTxid = tcp.clientTxid := by
      obtain ⟨_, hp⟩ := hbuild
      obtain ⟨_, htcp⟩ := hbuild'
      have horig := (Prepared.build_ok hp).2.2.1
      exact Option.some.inj (horig.symm.trans (Prepared.build_ok htcp).2.2.1)
    refine ⟨tcp, tcpResp, ⟨?_, hbuild', .tcp (mem_append_right _ (mem_append_right _
      (mem_append_right _ (mem_append_left _ hmem')))), hcheck'⟩, hclient ▸ hfinal⟩
    exact mem_append_right _ (mem_append_right _ (mem_append_left _ hdrawn'))
  · obtain ⟨_, hfinal⟩ := runs_ofHop h
    refine ⟨p, udpResp, ⟨mem_append_left _ hdrawn, hbuild, .udp hsrc ?_, hcheck⟩, hfinal⟩
    exact mem_append_right _ (mem_append_left _ hmem)

theorem runs_dotExchange {target : SocketAddr} {source : Option IpAddr} {key : DotConnKey}
    (h : (dotExchange codec target source key p).run.Runs ok t (some (.ok out))) :
    ∃ resp s, verifyResponse resp p.upstreamTxid p.qnameMask = .ok () ∧
      ⟨.writeMessage s p.wire, true⟩ ∈ t ∧ ⟨.readMessage s, some resp⟩ ∈ t ∧
      finalize codec resp p.clientTxid = .ok out := by
  obtain ⟨t₁, t₂, resp, rfl, hpooled, h⟩ := runs_ok_bind.mp h
  obtain ⟨_, hfinal⟩ := runs_ofHop h
  obtain ⟨_, t₄, r, rfl, hexchange, h⟩ := runs_bind.mp hpooled
  obtain ⟨rfl, hres⟩ := runs_ret.mp h
  cases r with
  | error e => nomatch hres
  | ok resp' =>
    obtain rfl := Except.ok.inj hres
    obtain ⟨t₅, t₆, t₇, s, rfl, hon⟩ := exchangePooled_ok hexchange
    obtain ⟨hcheck, hwrite, hread⟩ := runs_dotExchangeOn hon
    have hpart : ∀ x ∈ t₆, x ∈ t₅ ++ t₆ ++ t₇ ++ [] ++ t₂ := by
      intro x hx
      simp only [mem_append]
      exact .inl (.inl (.inl (.inr hx)))
    exact ⟨_, s, hcheck, hpart _ hwrite, hpart _ hread, hfinal⟩

theorem runs_queryOneDot {srv : ForwarderServer} {domain : String}
    (h : (queryOneDot codec c srv domain orig).run.Runs ok t (some (.ok out))) :
    ∃ p resp, Accepted codec (.dot srv domain) orig t p resp ∧
      finalize codec resp p.clientTxid = .ok out := by
  unfold queryOneDot at h
  split at h
  · exact absurd h not_runs_ok_throw
  split at h
  · exact absurd h not_runs_ok_throw
  obtain ⟨t₁, t₂, p, rfl, hprepare, h⟩ := runs_ok_bind.mp h
  obtain ⟨hdrawn, hbuild⟩ := runs_prepare hprepare
  obtain ⟨resp, s, hcheck, hwrite, hread, hfinal⟩ := runs_dotExchange h
  refine ⟨p, resp, ⟨mem_append_left _ hdrawn, hbuild, ?_, hcheck⟩, hfinal⟩
  exact .dot (mem_append_right _ hwrite) (mem_append_right _ hread)

theorem UpstreamPath.runs (h : (path.run codec c orig).run.Runs ok t (some (.ok out))) :
    ∃ p resp, Accepted codec path orig t p resp ∧ finalize codec resp p.clientTxid = .ok out := by
  cases path with
  | classic peer => exact runs_queryOne h
  | dot srv domain => exact runs_queryOneDot h

theorem Accepted.name (h : Accepted codec path orig t p resp) (hq : question? orig = some q) :
    ∃ n, qnameByteRange resp = .ok n ∧ (qnameBytes resp n).map lowerByte = q.name.map lowerByte := by
  obtain ⟨coins, hbuild⟩ := h.prepared
  obtain ⟨_, _, _, ⟨m, hm, hmask⟩, hquestion⟩ := Prepared.build_ok hbuild
  obtain ⟨q', hq', hsame⟩ := hquestion q hq
  obtain ⟨n, hn, hname⟩ := verify_ok_iff.mp (verifyResponse_ok h.checked).2
  refine ⟨n, hn, hname.trans ?_⟩
  -- The expected name is the name of the query as it was sent.
  obtain ⟨_, m', hm', hname', _⟩ := question?_eq_some.mp hq'
  obtain rfl := Except.ok.inj (hm.symm.trans hm')
  rw [← hmask, ← hname', hsame.1]

theorem answers_iff {n : Nat} (hn : qnameByteRange resp = .ok n)
    (hname : (qnameBytes resp n).map lowerByte = q.name.map lowerByte) :
    Answers q resp ↔ isResponse resp = true ∧ qdcount resp ≠ 0 ∧
      typeAndClass? (resp.drop (headerLen + n)) = some (q.queryType, q.queryClass) := by
  refine and_congr_right fun _ => ⟨?_, ?_⟩
  · rintro ⟨r, hr, _, htype, hclass⟩
    obtain ⟨hcount, m, hm, _, htc⟩ := question?_eq_some.mp hr
    obtain rfl := Except.ok.inj (hn.symm.trans hm)
    exact ⟨hcount, by rw [htc, htype, hclass]⟩
  · rintro ⟨hcount, htc⟩
    exact ⟨⟨qnameBytes resp n, q.queryType, q.queryClass⟩,
      question?_eq_some.mpr ⟨hcount, n, hn, rfl, htc⟩, hname, rfl, rfl⟩

end

def replyTo (flags : UInt8) : Bytes :=
  [0x12, 0x34, flags, 0, 0, 1, 0, 0, 0, 0, 0, 0, 7, 69, 120, 97, 109, 112, 108, 101, 0]

def somePeer : SocketAddr := (.v4 0xc0000201, 53)

def firstDatagram (resp : Bytes) : Trace Op.Res :=
  [⟨.txid, 0x1234⟩, ⟨.coins, fun _ => false⟩,
    ⟨.udp somePeer (0x12 :: 0x34 :: exampleQuery.drop 2) 0x1234, some (resp, somePeer)⟩]

theorem Received.firstDatagram {p : Prepared} {resp r : Bytes}
    (h : Received p resp (.classic somePeer) (firstDatagram r)) : resp = r :=
  mem_singleton.mp h.delivered

end Dnsd.Upstream
