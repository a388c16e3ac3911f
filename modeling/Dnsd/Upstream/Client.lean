/-
# Client — querying upstreams (`UpstreamClient` in `forwarder.rs`, `dot_client.rs`).

The client as programs over sockets.  Any operation may fail, a datagram or a stream may deliver any octets, and the
pool may have any connection to reuse.  `queryOne` is UDP, then TCP if the reply is truncated; `queryOneDot` is DoT,
direct or through tord.  The per-worker dispatch of the VCL backend is left out, and the SOCKS5 and TLS handshakes
are one operation each.
-/
import Dnsd.Upstream.DotPool
import Dnsd.Upstream.Wire

namespace Dnsd.Upstream

open Proto Lib Prog
open Daemon (Transport Via ForwarderServer)

abbrev Stream := Nat

/-! ## What the client does -/

inductive Op where
  /-- A random TXID. -/
  | txid
  /-- The coins of the 0x20 encoding. -/
  | coins
  | now
  /-- `AsyncUdpUpstream::query`: send a datagram and wait for one with this TXID. -/
  | udp (peer : SocketAddr) (query : Bytes) (txid : UInt16)
  /-- `query_tcp_dns_async`: connect, write the query, read one message. -/
  | tcp (peer : SocketAddr) (source : Option IpAddr) (query : Bytes)
  | take (key : DotConnKey)
  | release (key : DotConnKey) (conn : DotConn Stream)
  /-- `connect_stream`. -/
  | connect (target : SocketAddr) (source : Option IpAddr)
  /-- `socks::connect` on a stream to the proxy. -/
  | socks (stream : Stream) (target : SocketAddr) (username : Option String)
  | tlsHandshake (stream : Stream) (tlsName : String)
  | writeMessage (stream : Stream) (msg : Bytes)
  /-- Read a length and that many octets. -/
  | readMessage (stream : Stream)

@[reducible] def Op.Res : Op → Type
  | .txid => UInt16
  | .coins => Nat → Bool
  | .now => Instant
  | .udp _ _ _ => Option (Bytes × SocketAddr)
  | .tcp _ _ _ => Option Bytes
  | .take _ => Option (DotConn Stream)
  | .release _ _ => Unit
  | .connect _ _ => Option Stream
  | .socks _ _ _ => Bool
  | .tlsHandshake _ _ => Bool
  | .writeMessage _ _ => Bool
  | .readMessage _ => Option Bytes

inductive ReplyError where
  | short (n : Nat)
  | oversized (n : Nat)
  | unexpectedAddress (src : SocketAddr)
  | txidMismatch
  | nameMismatch (e : WireError)
  deriving DecidableEq, Repr

inductive UpstreamError where
  | noServers
  | noResponse
  | unsupported (server : ForwarderServer)
  | noTlsName
  /-- A tor server, and no SOCKS endpoint: the query fails. -/
  | noTorSocks
  | hop (e : HopError)
  | udp (peer : SocketAddr)
  | tcp (peer : SocketAddr)
  | reply (e : ReplyError)
  | connect (target : SocketAddr)
  | socks (target : SocketAddr)
  | tls (tlsName : String)
  | tooLarge
  | send
  | receive
  | pool (e : PoolError UpstreamError)

/-- A program that may fail. -/
abbrev Attempt (α : Type) := ExceptT UpstreamError (Prog Op Op.Res) α

def ask (o : Op) : Attempt o.Res := ExceptT.lift (perform o)

section Ask

variable {α : Type} {o : Op} {f : o.Res → Attempt α}

theorem safe_ask_bind {γ : Type} {C : Contract γ Op Op.Res} {g : γ}
    {Q : γ → Except UpstreamError α → Prop} :
    C.Safe g (ask o >>= f).run Q ↔
      C.pre g o ∧ ∀ r, C.post g o r → C.Safe (C.upd g o r) (f r).run Q := Iff.rfl

theorem runs_ask_bind {ok : (o : Op) → o.Res → Prop} {t : Trace Op.Res} {a : α} :
    (ask o >>= f).run.Runs ok t (some (.ok a)) ↔
      ∃ r t', t = ⟨o, r⟩ :: t' ∧ ok o r ∧ (f r).run.Runs ok t' (some (.ok a)) :=
  runs_op (k := fun r => (f r).run)

end Ask

structure UpstreamClient where
  sourceV4 : Option (BitVec 32)
  sourceV6 : Option (BitVec 128)
  torSocks : Option SocketAddr
  deriving DecidableEq, Repr

def UpstreamClient.sourceFor (c : UpstreamClient) (peer : SocketAddr) : Option IpAddr :=
  match peer.1 with
  | .v4 _ => c.sourceV4.map .v4
  | .v6 _ => c.sourceV6.map .v6

def dotPort : UInt16 := 853

def maxTcpMessage : Nat := 65535

/-! ## One server -/

def ofHop {α : Type} : Except HopError α → Attempt α
  | .ok a => pure a
  | .error e => throw (.hop e)

/-- `Prepared::build` with its random choices. -/
def prepare (codec : Codec) (origQuery : Bytes) : Attempt Prepared := do
  let txid ← ask .txid
  let coins ← ask .coins
  ofHop (Prepared.build codec origQuery txid coins)

/-- What every transport checks of a reply (`verify_dot_response`): its length, the TXID, the name. -/
def verifyResponse (resp : Bytes) (expectedTxid : UInt16) (expectedQname : Bytes) :
    Except ReplyError Unit :=
  if resp.length < headerLen then .error (.short resp.length)
  else if txid? resp ≠ some expectedTxid then .error .txidMismatch
  else
    match verify resp expectedQname with
    | .error e => .error (.nameMismatch e)
    | .ok () => .ok ()

def accept (resp : Bytes) (p : Prepared) : Attempt Bytes :=
  match verifyResponse resp p.upstreamTxid p.qnameMask with
  | .error e => throw (.reply e)
  | .ok () => return resp

def queryOneUdp (peer : SocketAddr) (p : Prepared) : Attempt Bytes := do
  match ← ask (.udp peer p.wire p.upstreamTxid) with
  | none => throw (.udp peer)
  | some (resp, src) =>
      if src.1 ≠ peer.1 then throw (.reply (.unexpectedAddress src)) else accept resp p

def queryOneTcp (c : UpstreamClient) (peer : SocketAddr) (p : Prepared) : Attempt Bytes := do
  match ← ask (.tcp peer (c.sourceFor peer) p.wire) with
  | none => throw (.tcp peer)
  | some resp =>
      if resp.length > maxTcpMessage then throw (.reply (.oversized resp.length)) else accept resp p

/-- `query_one`: over UDP, and over TCP with a new TXID and new coins if the reply is truncated. -/
def queryOne (codec : Codec) (c : UpstreamClient) (peer : SocketAddr) (origQuery : Bytes) :
    Attempt Bytes := do
  let p ← prepare codec origQuery
  let udpResp ← queryOneUdp peer p
  match codec.fromBytes udpResp with
  | none => throw (.hop .parseResponse)
  | some parsed =>
      if parsed.truncation then
        let tcp ← prepare codec origQuery
        let tcpResp ← queryOneTcp c peer tcp
        ofHop (finalize codec tcpResp p.clientTxid)
      else ofHop (finalize codec udpResp p.clientTxid)

/-- For a tor key, SOCKS5 `CONNECT` to the resolver with the forwarder's name as the user. -/
def tunnel (key : DotConnKey) (stream : Stream) : Attempt Unit :=
  if key.via = .tor then do
    if ← ask (.socks stream key.resolver key.isoUser) then return () else throw (.socks key.resolver)
  else return ()

/-- The connection factory of `dot_exchange`: connect, tunnel, TLS. -/
def dotBuild (connectTarget : SocketAddr) (source : Option IpAddr) (key : DotConnKey) :
    Attempt Stream := do
  match ← ask (.connect connectTarget source) with
  | none => throw (.connect connectTarget)
  | some stream =>
      tunnel key stream
      if ← ask (.tlsHandshake stream key.tlsName) then return stream else throw (.tls key.tlsName)

/-- `exchange_dot` and the checks on the reply. -/
def dotExchangeOn (p : Prepared) (stream : Stream) : Attempt Bytes :=
  if p.wire.length > maxTcpMessage then throw .tooLarge
  else do
    if ← ask (.writeMessage stream p.wire) then
      match ← ask (.readMessage stream) with
      | none => throw .receive
      | some resp => accept resp p
    else throw .send

def ofPool {α : Type} : Except (PoolError UpstreamError) α → Except UpstreamError α
  | .ok a => .ok a
  | .error e => .error (.pool e)

def dotExchange (codec : Codec) (connectTarget : SocketAddr) (source : Option IpAddr)
    (key : DotConnKey) (p : Prepared) : Attempt Bytes := do
  let resp ← ExceptT.mk <| ofPool <$>
    exchangePooled (perform (Op.take key)) (perform Op.now) (fun c => perform (Op.release key c))
      (dotBuild connectTarget source key).run fun s => (dotExchangeOn p s).run
  ofHop (finalize codec resp p.clientTxid)

def torSocksFor (c : UpstreamClient) (srv : ForwarderServer) : Except UpstreamError (Option SocketAddr) :=
  match srv.via with
  | .direct => .ok none
  | .tor =>
      match c.torSocks with
      | none => .error .noTorSocks
      | some socks => .ok (some socks)

def queryOneDot (codec : Codec) (c : UpstreamClient) (srv : ForwarderServer) (forwarderDomain : String)
    (origQuery : Bytes) : Attempt Bytes :=
  match srv.tlsName with
  | none => throw .noTlsName
  | some tlsName =>
      match torSocksFor c srv with
      | .error e => throw e
      | .ok torSocks => do
          let isoUser := if srv.via = .tor then some forwarderDomain else none
          let resolver : SocketAddr := (srv.address, dotPort)
          let p ← prepare codec origQuery
          let connectTarget := torSocks.getD resolver
          dotExchange codec connectTarget (c.sourceFor connectTarget)
            ⟨resolver, tlsName, srv.via, torSocks, isoUser⟩ p

/-! ## A list of servers -/

def firstOk {δ α : Type} (attempt : δ → Attempt α) : Option UpstreamError → List δ → Attempt α
  | last, [] => throw (last.getD .noResponse)
  | _, d :: ds => ExceptT.mk do
      match ← (attempt d).run with
      | .ok a => return .ok a
      | .error e => (firstOk attempt (some e) ds).run

theorem firstOk_ok {δ α : Type} {attempt : δ → Attempt α} {ok : (o : Op) → o.Res → Prop}
    {last : Option UpstreamError} {ds : List δ} {t : Trace Op.Res} {a : α}
    (h : (firstOk attempt last ds).run.Runs ok t (some (.ok a))) :
    ∃ d ∈ ds, ∃ t₁ t₂, t = t₁ ++ t₂ ∧ (attempt d).run.Runs ok t₂ (some (.ok a)) := by
  induction ds generalizing last t with
  | nil => exact absurd h not_runs_ok_throw
  | cons d ds ih =>
    obtain ⟨t₁, t₂, r, rfl, hd, hrest⟩ := runs_bind.mp h
    cases r with
    | ok b =>
      obtain ⟨rfl, hres⟩ := runs_ret.mp hrest
      cases hres
      exact ⟨d, .head _, [], t₁, List.append_nil t₁, hd⟩
    | error e =>
      obtain ⟨d', hd', t₃, t₄, rfl, hok⟩ := ih hrest
      exact ⟨d', .tail _ hd', t₁ ++ t₃, t₄, (List.append_assoc ..).symm, hok⟩

def query (codec : Codec) (c : UpstreamClient) (servers : List IpAddr) (origQuery : Bytes) :
    Attempt Bytes :=
  if servers.isEmpty then throw .noServers
  else firstOk (fun ip => queryOne codec c (ip, 53) origQuery) none servers

def queryServer (codec : Codec) (c : UpstreamClient) (forwarderDomain : String) (origQuery : Bytes)
    (srv : ForwarderServer) : Attempt Bytes :=
  match srv.transport, srv.via with
  | .udp, .direct => queryOne codec c (srv.address, 53) origQuery
  | .dot, _ => queryOneDot codec c srv forwarderDomain origQuery
  | _, _ => throw (.unsupported srv)

def queryForwarder (codec : Codec) (c : UpstreamClient) (servers : List ForwarderServer)
    (forwarderDomain : String) (origQuery : Bytes) : Attempt Bytes :=
  if servers.isEmpty then throw .noServers
  else firstOk (queryServer codec c forwarderDomain origQuery) none servers

/-! ## What a success has gone through -/

section Success

variable {codec : Codec} {c : UpstreamClient} {ok : (o : Op) → o.Res → Prop} {t : Trace Op.Res}
  {orig resp out : Bytes} {p : Prepared}

theorem verifyResponse_ok {txid : UInt16} {qname : Bytes} (h : verifyResponse resp txid qname = .ok ()) :
    txid? resp = some txid ∧ verify resp qname = .ok () := by
  unfold verifyResponse at h
  split at h
  · nomatch h
  split at h
  · nomatch h
  rename_i htxid
  split at h
  · nomatch h
  · rename_i hverify
    exact ⟨not_not.mp htxid, hverify⟩

theorem runs_ofHop {α : Type} {x : Except HopError α} {a : α}
    (h : (ofHop x).run.Runs ok t (some (.ok a))) : t = [] ∧ x = .ok a := by
  cases x with
  | ok b =>
    obtain ⟨rfl, rfl⟩ := runs_ok_pure.mp h
    exact ⟨rfl, rfl⟩
  | error e => exact absurd h not_runs_ok_throw

theorem runs_prepare (h : (prepare codec orig).run.Runs ok t (some (.ok p))) :
    ⟨.txid, p.upstreamTxid⟩ ∈ t ∧ ∃ coins, Prepared.build codec orig p.upstreamTxid coins = .ok p := by
  obtain ⟨txid, _, rfl, _, h⟩ := runs_ask_bind.mp h
  obtain ⟨coins, _, rfl, _, h⟩ := runs_ask_bind.mp h
  obtain ⟨rfl, hbuild⟩ := runs_ofHop h
  obtain rfl := (Prepared.build_ok hbuild).1
  exact ⟨.head _, coins, hbuild⟩

theorem runs_accept (h : (accept resp p).run.Runs ok t (some (.ok out))) :
    out = resp ∧ verifyResponse resp p.upstreamTxid p.qnameMask = .ok () := by
  unfold accept at h
  split at h
  · exact absurd h not_runs_ok_throw
  · rename_i hverify
    exact ⟨(runs_ok_pure.mp h).2, hverify⟩

theorem runs_queryOneUdp {peer : SocketAddr} (h : (queryOneUdp peer p).run.Runs ok t (some (.ok resp))) :
    verifyResponse resp p.upstreamTxid p.qnameMask = .ok () ∧
      ∃ src : SocketAddr, src.1 = peer.1 ∧ ⟨.udp peer p.wire p.upstreamTxid, some (resp, src)⟩ ∈ t := by
  obtain ⟨r, _, rfl, _, h⟩ := runs_ask_bind.mp h
  cases r with
  | none => exact absurd h not_runs_ok_throw
  | some r =>
    obtain ⟨reply, src⟩ := r
    dsimp only at h
    split at h
    · exact absurd h not_runs_ok_throw
    · rename_i hsrc
      obtain ⟨rfl, hverify⟩ := runs_accept h
      exact ⟨hverify, src, not_not.mp hsrc, .head _⟩

theorem runs_queryOneTcp {peer : SocketAddr} (h : (queryOneTcp c peer p).run.Runs ok t (some (.ok resp))) :
    verifyResponse resp p.upstreamTxid p.qnameMask = .ok () ∧
      ⟨.tcp peer (c.sourceFor peer) p.wire, some resp⟩ ∈ t := by
  obtain ⟨r, _, rfl, _, h⟩ := runs_ask_bind.mp h
  cases r with
  | none => exact absurd h not_runs_ok_throw
  | some reply =>
    dsimp only at h
    split at h
    · exact absurd h not_runs_ok_throw
    · obtain ⟨rfl, hverify⟩ := runs_accept h
      exact ⟨hverify, .head _⟩

theorem runs_dotExchangeOn {s : Stream} (h : (dotExchangeOn p s).run.Runs ok t (some (.ok resp))) :
    verifyResponse resp p.upstreamTxid p.qnameMask = .ok () ∧
      ⟨.writeMessage s p.wire, true⟩ ∈ t ∧ ⟨.readMessage s, some resp⟩ ∈ t := by
  unfold dotExchangeOn at h
  split at h
  · exact absurd h not_runs_ok_throw
  obtain ⟨sent, _, rfl, _, h⟩ := runs_ask_bind.mp h
  cases sent with
  | false => exact absurd h not_runs_ok_throw
  | true =>
    obtain ⟨r, _, rfl, _, h⟩ := runs_ask_bind.mp h
    cases r with
    | none => exact absurd h not_runs_ok_throw
    | some reply =>
      obtain ⟨rfl, hverify⟩ := runs_accept h
      exact ⟨hverify, .head _, .tail _ (.head _)⟩

end Success

end Dnsd.Upstream
