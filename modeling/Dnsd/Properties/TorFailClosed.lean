/-
# TorFailClosed — what a tor forwarder sends goes to tord, or nowhere.

A call knows to which address a stream was opened: it has opened it, or it comes from a bucket of such streams
(`Filed`).  A call for a tor forwarder has tor keys only, and the address of a tor key is the SOCKS endpoint.
-/
import Dnsd.Upstream.Client

namespace Dnsd.Upstream

open Proto Lib Lib.Contract Prog List
open Daemon (Library Forwarder ForwarderServer ForwarderEntry ForwarderTable Via)

/-! ## The sockets -/

structure Sockets where
  now : Instant
  pool : DotPool Stream
  /-- The streams that were opened, each with its address. -/
  opened : List (Stream × SocketAddr)

namespace Sockets

def empty : Sockets := ⟨0, .new, []⟩

/-- What an operation does; where nothing is said of the answer, any answer will do. -/
inductive Step : Sockets → (o : Op) → o.Res → Sockets → Prop
  | txid (w : Sockets) (r : UInt16) : Step w .txid r w
  | coins (w : Sockets) (r : Nat → Bool) : Step w .coins r w
  | now (w : Sockets) : Step w .now w.now w
  | udp (w : Sockets) (peer : SocketAddr) (query : Bytes) (txid : UInt16)
      (r : Option (Bytes × SocketAddr)) : Step w (.udp peer query txid) r w
  | tcp (w : Sockets) (peer : SocketAddr) (source : Option IpAddr) (query : Bytes) (r : Option Bytes) :
      Step w (.tcp peer source query) r w
  | take (w : Sockets) (key : DotConnKey) :
      Step w (.take key) (w.pool.take w.now key).1 { w with pool := (w.pool.take w.now key).2 }
  | release (w : Sockets) (key : DotConnKey) (conn : DotConn Stream) :
      Step w (.release key conn) () { w with pool := w.pool.release w.now key conn }
  | refused (w : Sockets) (target : SocketAddr) (source : Option IpAddr) :
      Step w (.connect target source) none w
  | connected (w : Sockets) (target : SocketAddr) (source : Option IpAddr) (s : Stream) :
      s ∉ w.opened.map Prod.fst →
      Step w (.connect target source) (some s) { w with opened := (s, target) :: w.opened }
  | socks (w : Sockets) (s : Stream) (target : SocketAddr) (username : Option String) (r : Bool) :
      Step w (.socks s target username) r w
  | tlsHandshake (w : Sockets) (s : Stream) (tlsName : String) (r : Bool) :
      Step w (.tlsHandshake s tlsName) r w
  | writeMessage (w : Sockets) (s : Stream) (msg : Bytes) (r : Bool) : Step w (.writeMessage s msg) r w
  | readMessage (w : Sockets) (s : Stream) (r : Option Bytes) : Step w (.readMessage s) r w

inductive Env : Sockets → Sockets → Prop
  | later (w : Sockets) (t : Instant) : w.now ≤ t → Env w { w with now := t }
  | sweep (w : Sockets) : Env w { w with pool := w.pool.sweep w.now }

end Sockets

/-- A call of `query_forwarder`. -/
structure Call where
  servers : List ForwarderServer
  domain : String
  query : Bytes

/-- The call is for a forwarder that the loader has accepted and that has a tor server. -/
def Call.Tor (i : Call) : Prop :=
  ∃ (L : Library) (configs : List Forwarder) (table : ForwarderTable) (e : ForwarderEntry),
    ForwarderTable.new L configs = .ok table ∧ e ∈ table.entries ∧ i.servers = e.servers ∧
      ∃ s ∈ e.servers, s.via = .tor

def calls (codec : Codec) (c : UpstreamClient) : System Call Op Op.Res Sockets where
  init w := w = .empty
  env := Sockets.Env
  step _ := Sockets.Step
  start i p := p = (queryForwarder codec c i.servers i.domain i.query).run >>= fun _ => .ret ()

/-! ## What a call knows of its streams -/

def DotConnKey.target (key : DotConnKey) : SocketAddr := key.torSocks.getD key.resolver

def Op.stream? : Op → Option Stream
  | .socks s _ _ => some s
  | .tlsHandshake s _ => some s
  | .writeMessage s _ => some s
  | .readMessage s => some s
  | _ => none

def Op.direct? : Op → Option SocketAddr
  | .udp peer _ _ => some peer
  | .tcp peer _ _ => some peer
  | _ => none

structure ToTord (c : UpstreamClient) (known : List (Stream × SocketAddr)) (o : Op) : Prop where
  indirect : o.direct? = none
  connects : ∀ target source, o = .connect target source → c.torSocks = some target
  streams : ∀ s, o.stream? = some s → ∃ socks, c.torSocks = some socks ∧ (s, socks) ∈ known

def mayDo (c : UpstreamClient) (tor : Prop) (known : List (Stream × SocketAddr)) (o : Op) : Prop :=
  (∀ key conn, o = .release key conn → (conn.stream, key.target) ∈ known) ∧ (tor → ToTord c known o)

def learn : (o : Op) → o.Res → List (Stream × SocketAddr)
  | .take key, some conn => [(conn.stream, key.target)]
  | .connect target _, some s => [(s, target)]
  | _, _ => []

abbrev routing (c : UpstreamClient) (tor : Prop) : Contract (List (Stream × SocketAddr)) Op Op.Res :=
  learning (mayDo c tor) (fun _ _ => True) learn

def Sockets.Opened (w : Sockets) (x : Stream × SocketAddr) : Prop := x ∈ w.opened

structure Filed (w : Sockets) : Prop where
  idle : ∀ k, ∀ c ∈ w.pool.idle k, (c.stream, k.target) ∈ w.opened
  once : (w.opened.map Prod.fst).Nodup

section Calls

variable {codec : Codec} {c : UpstreamClient} {tor : Prop} {g : List (Stream × SocketAddr)}

/-! ## One server -/

theorem prepare_safe (orig : Bytes) :
    (routing c tor).Safe g (prepare codec orig).run fun _ _ => True := by
  refine safe_ask_bind.mpr ⟨⟨nofun, fun _ => ⟨rfl, nofun, nofun⟩⟩, fun txid _ => ?_⟩
  refine safe_ask_bind.mpr ⟨⟨nofun, fun _ => ⟨rfl, nofun, nofun⟩⟩, fun coins _ => ?_⟩
  cases Prepared.build codec orig txid coins <;> trivial

theorem accept_safe {Q : List (Stream × SocketAddr) → Except UpstreamError Bytes → Prop} (resp : Bytes)
    (p : Prepared) (hQ : ∀ r, Q g r) : (routing c tor).Safe g (accept resp p).run Q := by
  unfold accept
  split
  · exact hQ _
  · exact hQ _

theorem queryOneUdp_safe (hdirect : ¬tor) (peer : SocketAddr) (p : Prepared) :
    (routing c tor).Safe g (queryOneUdp peer p).run fun _ _ => True := by
  refine safe_ask_bind.mpr ⟨⟨nofun, fun ht => absurd ht hdirect⟩, fun r _ => ?_⟩
  cases r with
  | none => trivial
  | some r =>
    dsimp only
    split
    · trivial
    · exact accept_safe _ p fun _ => trivial

theorem queryOneTcp_safe (hdirect : ¬tor) (peer : SocketAddr) (p : Prepared) :
    (routing c tor).Safe g (queryOneTcp c peer p).run fun _ _ => True := by
  refine safe_ask_bind.mpr ⟨⟨nofun, fun ht => absurd ht hdirect⟩, fun r _ => ?_⟩
  cases r with
  | none => trivial
  | some resp =>
    dsimp only
    split
    · trivial
    · exact accept_safe resp p fun _ => trivial

theorem queryOne_safe (hdirect : ¬tor) (peer : SocketAddr) (orig : Bytes) :
    (routing c tor).Safe g (queryOne codec c peer orig).run fun _ _ => True := by
  have hop : ∀ x : Except HopError Bytes, ∀ g,
      (routing c tor).Safe g (ofHop x).run fun _ _ => True := by
    intro x g
    cases x <;> trivial
  refine (prepare_safe orig).seq (fun g p _ => ?_) fun _ _ _ => trivial
  refine (queryOneUdp_safe hdirect peer p).seq (fun g resp _ => ?_) fun _ _ _ => trivial
  split
  · trivial
  split
  · refine (prepare_safe orig).seq (fun g tcp _ => ?_) fun _ _ _ => trivial
    exact (queryOneTcp_safe hdirect peer tcp).seq (fun g resp _ => hop _ g) fun _ _ _ => trivial
  · exact hop _ g

theorem mayDo_stream {key : DotConnKey} {s : Stream} {o : Op} (hkey : tor → c.torSocks = some key.target)
    (hs : (s, key.target) ∈ g) (ho : o.stream? = some s) : mayDo c tor g o := by
  refine ⟨?_, fun ht => ⟨?_, ?_, ?_⟩⟩
  · rintro k conn rfl
    nomatch ho
  · cases o <;> first | rfl | nomatch ho
  · rintro target source rfl
    nomatch ho
  · intro s' hs'
    obtain rfl := Option.some.inj (ho.symm.trans hs')
    exact ⟨key.target, hkey ht, hs⟩

theorem dotBuild_safe {key : DotConnKey} (hkey : tor → c.torSocks = some key.target)
    (source : Option IpAddr) :
    (routing c tor).Safe g (dotBuild key.target source key).run fun h r =>
      ∀ s, r = .ok s → (s, key.target) ∈ h := by
  refine safe_ask_bind.mpr ⟨⟨nofun, fun ht => ⟨rfl, ?_, nofun⟩⟩, fun r _ => ?_⟩
  · rintro target source ⟨rfl⟩
    exact hkey ht
  cases r with
  | none => nofun
  | some s =>
    have hs : (s, key.target) ∈ learn (.connect key.target source) (some s) ++ g :=
      mem_append_left g (mem_singleton_self _)
    have htunnel : (routing c tor).Safe (learn (.connect key.target source) (some s) ++ g)
        (tunnel key s).run fun h _ => (s, key.target) ∈ h := by
      unfold tunnel
      split
      · refine safe_ask_bind.mpr ⟨mayDo_stream hkey hs rfl, fun r _ => ?_⟩
        cases r <;> exact hs
      · exact hs
    refine htunnel.seq (fun h _ hs => ?_) fun _ _ _ => nofun
    refine safe_ask_bind.mpr ⟨mayDo_stream hkey hs rfl, fun r _ => ?_⟩
    cases r with
    | false => nofun
    | true =>
      rintro s' ⟨rfl⟩
      exact hs

theorem dotExchangeOn_safe {key : DotConnKey} (hkey : tor → c.torSocks = some key.target)
    (p : Prepared) {s : Stream} (hs : (s, key.target) ∈ g) :
    (routing c tor).Safe g (dotExchangeOn p s).run fun h _ => (s, key.target) ∈ h := by
  unfold dotExchangeOn
  split
  · exact hs
  refine safe_ask_bind.mpr ⟨mayDo_stream hkey hs rfl, fun sent _ => ?_⟩
  cases sent with
  | false => exact hs
  | true =>
    refine safe_ask_bind.mpr ⟨mayDo_stream hkey hs rfl, fun r _ => ?_⟩
    cases r with
    | none => exact hs
    | some resp => exact accept_safe resp p fun _ => hs

theorem dotExchange_safe {key : DotConnKey} (hkey : tor → c.torSocks = some key.target)
    (source : Option IpAddr) (p : Prepared) :
    (routing c tor).Safe g (dotExchange codec key.target source key p).run fun _ _ => True := by
  refine Contract.Safe.seq (P := fun _ _ => True) ?_ (fun h resp _ => ?_) fun _ _ _ => trivial
  · refine Contract.Safe.bind (P := fun _ _ => True) ?_ fun _ _ _ => trivial
    refine exchangePooled_safe (K := fun g s => (s, key.target) ∈ g) (fun g => ?_) (fun g s hs => ?_)
      (fun g conn hconn => ?_) (fun g => dotBuild_safe hkey source) (fun g s hs => ?_) g
    · refine ⟨⟨nofun, fun _ => ⟨rfl, nofun, nofun⟩⟩, fun hit _ => ?_⟩
      rintro conn rfl
      exact mem_append_left g (mem_singleton_self _)
    · exact ⟨⟨nofun, fun _ => ⟨rfl, nofun, nofun⟩⟩, fun _ _ => hs⟩
    · refine ⟨⟨?_, fun _ => ⟨rfl, nofun, nofun⟩⟩, fun _ _ => trivial⟩
      rintro k conn' ⟨rfl, rfl⟩
      exact hconn
    · exact (dotExchangeOn_safe hkey p hs).mono fun _ _ hs _ _ => hs
  · cases finalize codec resp p.clientTxid <;> trivial

theorem queryOneDot_safe {srv : ForwarderServer} (hvia : tor → srv.via = .tor) (domain : String)
    (orig : Bytes) : (routing c tor).Safe g (queryOneDot codec c srv domain orig).run fun _ _ => True := by
  unfold queryOneDot
  split
  · trivial
  split
  · trivial
  rename_i tlsName _ _ torSocks htor
  refine (prepare_safe orig).seq (fun g p _ => ?_) fun _ _ _ => trivial
  refine dotExchange_safe (fun ht => ?_) _ p
  -- A tor server gets this far only with a SOCKS endpoint, and that is then the target.
  rw [torSocksFor, hvia ht] at htor
  dsimp only at htor
  split at htor
  · nomatch htor
  · rename_i socks hsocks
    obtain rfl := Except.ok.inj htor
    exact hsocks

/-! ## A list of servers -/

theorem firstOk_safe {δ α : Type} {attempt : δ → Attempt α} {ds : List δ}
    (h : ∀ d ∈ ds, ∀ g, (routing c tor).Safe g (attempt d).run fun _ _ => True)
    (last : Option UpstreamError) :
    (routing c tor).Safe g (firstOk attempt last ds).run fun _ _ => True := by
  induction ds generalizing g last with
  | nil => trivial
  | cons d ds ih =>
    refine (h d (.head _) g).bind fun g r _ => ?_
    cases r with
    | ok a => trivial
    | error e => exact ih (fun d hd => h d (.tail _ hd)) (some e)

theorem queryForwarder_safe {servers : List ForwarderServer}
    (htor : tor → ∀ srv ∈ servers, srv.via = .tor ∧ srv.transport = .dot) (domain : String)
    (orig : Bytes) :
    (routing c tor).Safe g (queryForwarder codec c servers domain orig).run fun _ _ => True := by
  unfold queryForwarder
  split
  · trivial
  refine firstOk_safe (fun srv hsrv g => ?_) none
  unfold queryServer
  split
  · rename_i htransport _
    refine queryOne_safe (fun ht => ?_) _ orig
    rw [(htor ht srv hsrv).2] at htransport
    nomatch htransport
  · exact queryOneDot_safe (fun ht => (htor ht srv hsrv).1) domain orig
  · trivial

end Calls

/-! ## All calls together -/

theorem Call.Tor.servers {i : Call} (h : i.Tor) :
    ∀ srv ∈ i.servers, srv.via = .tor ∧ srv.transport = .dot := by
  obtain ⟨L, configs, table, e, _, _, hservers, s, hs, hvia⟩ := h
  rw [hservers]
  intro srv hsrv
  have htor : srv.via = .tor := by
    rcases e.unmixed with hall | hall
    · exact hall srv hsrv
    · nomatch hvia.symm.trans (hall s hs)
  exact ⟨htor, (e.usable srv hsrv).encrypted htor⟩

namespace Filed

variable {w : Sockets}

theorem shrink (hw : Filed w) {pool : DotPool Stream} (now : Instant)
    (hsub : ∀ k, (pool.idle k).Sublist (w.pool.idle k)) : Filed { w with now := now, pool := pool } :=
  ⟨fun k c hc => hw.idle k c ((hsub k).subset hc), hw.once⟩

theorem released (hw : Filed w) {key : DotConnKey} {conn : DotConn Stream}
    (hconn : (conn.stream, key.target) ∈ w.opened) :
    Filed { w with pool := w.pool.release w.now key conn } := by
  refine ⟨fun k c hc => ?_, hw.once⟩
  rcases w.pool.release_bucket w.now key k conn with hsame | ⟨rfl, _, hpush⟩
  · exact hw.idle k c (hsame ▸ hc)
  · have hmem : c ∈ { conn with lastUsed := w.now } :: w.pool.idle k := hpush ▸ hc
    rcases mem_cons.mp hmem with rfl | hc
    · exact hconn
    · exact hw.idle k c hc

theorem opened (hw : Filed w) {s : Stream} {target : SocketAddr} (hs : s ∉ w.opened.map Prod.fst) :
    Filed { w with opened := (s, target) :: w.opened } :=
  ⟨fun k c hc => .tail _ (hw.idle k c hc), nodup_cons.mpr ⟨hs, hw.once⟩⟩

theorem address_iff (hw : Filed w) {s : Stream} {a b : SocketAddr} (ha : (s, a) ∈ w.opened) :
    (s, b) ∈ w.opened ↔ b = a := by
  constructor
  · intro hb
    exact congrArg Prod.snd (inj_on_of_nodup_map hw.once hb ha rfl)
  · rintro rfl
    exact ha

end Filed

theorem calls_keep (codec : Codec) (c : UpstreamClient) :
    (calls codec c).Keeps (fun i => routing c i.Tor) Filed (fun w g => ∀ x ∈ g, w.Opened x) [] := by
  refine System.keeps_learning ?_ ?_ ?_ ?_ ?_
  · rintro w rfl
    exact ⟨fun k c hc => (nomatch hc), nodup_nil⟩
  · intro w w' hw henv
    cases henv with
    | later t _ => exact ⟨hw.shrink t fun k => List.Sublist.refl _, fun _ hx => hx⟩
    | sweep => exact ⟨hw.shrink w.now fun k => w.pool.sweep_bucket w.now k, fun _ hx => hx⟩
  · intro i w o r w' g hw hg hpre hstep
    cases hstep with
    | take key =>
      have hbucket := fun k => (w.pool.take_bucket w.now key k).sublist
      refine ⟨trivial, hw.shrink w.now fun k => (sublist_append_right _ _).trans (hbucket k), ?_⟩
      intro x hx
      cases hhit : (w.pool.take w.now key).1 with
      | none =>
        rw [hhit] at hx
        nomatch hx
      | some conn =>
        rw [hhit] at hx
        obtain rfl := mem_singleton.mp hx
        have hkey := hbucket key
        rw [if_pos rfl, hhit] at hkey
        exact hw.idle key conn (hkey.subset (.head _))
    | release key conn =>
      exact ⟨trivial, hw.released (hg _ (hpre.1 key conn rfl)), fun x hx => nomatch hx⟩
    | connected target source s hs =>
      refine ⟨trivial, hw.opened hs, fun x hx => ?_⟩
      obtain rfl := mem_singleton.mp hx
      exact .head _
    | _ => exact ⟨trivial, hw, fun x hx => nomatch hx⟩
  · intro i w o r w' x hstep hx
    cases hstep with
    | connected target source s hs => exact .tail _ hx
    | _ => exact hx
  · rintro i p rfl
    exact (queryForwarder_safe Call.Tor.servers i.domain i.query).bind fun _ _ _ => trivial

/-- **Tor fails closed.**  Whatever fails and whatever the pool has to reuse: a call for a forwarder with a tor
server sends no datagram, connects to the SOCKS endpoint only, and reads and writes only streams that were opened
to it; it succeeds only if one of its attempts does. -/
theorem queryForwarder_tor (codec : Codec) (c : UpstreamClient) {i : Call} (htor : i.Tor) :
    (∀ w ts o k, (calls codec c).Reach w ts → (i, .op o k) ∈ ts →
      o.direct? = none ∧ (∀ target source, o = .connect target source → c.torSocks = some target) ∧
        ∀ s, o.stream? = some s →
          ∃ socks, c.torSocks = some socks ∧ ∀ a, (s, a) ∈ w.opened ↔ a = socks) ∧
      ∀ t b, (queryForwarder codec c i.servers i.domain i.query).run.Runs (fun _ _ => True) t
          (some (.ok b)) →
        ∃ srv ∈ i.servers, ∃ t₁ t₂, t = t₁ ++ t₂ ∧
          (queryOneDot codec c srv i.domain i.query).run.Runs (fun _ _ => True) t₂ (some (.ok b)) := by
  constructor
  · intro w ts o k hreach hmem
    obtain ⟨g, hg, hpre⟩ := (calls_keep codec c).reach_pre hreach hmem
    have hto := hpre.2 htor
    refine ⟨hto.indirect, hto.connects, fun s hs => ?_⟩
    obtain ⟨socks, hsocks, hknown⟩ := hto.streams s hs
    exact ⟨socks, hsocks, fun a => ((calls_keep codec c).reach_inv hreach).address_iff (hg _ hknown)⟩
  · intro t b hrun
    unfold queryForwarder at hrun
    split at hrun
    · exact absurd hrun not_runs_ok_throw
    obtain ⟨srv, hsrv, t₁, t₂, ht, hok⟩ := firstOk_ok hrun
    refine ⟨srv, hsrv, t₁, t₂, ht, ?_⟩
    obtain ⟨hvia, hdot⟩ := htor.servers srv hsrv
    rwa [queryServer, hvia, hdot] at hok

def rootLibrary : Library where
  name s := if s = "." then some ⟨[]⟩ else none
  dns64 _ := none
  wellKnown := ⟨⟨0, 96⟩, [], Recursor.validPrefixLength_96⟩
  ddrRecords _ _ _ := []

def torForwarder : Forwarder where
  domain := "."
  servers := [.full ⟨.v4 0x09090909, .dot, some "dns.quad9.net", .tor⟩]

def torClient : UpstreamClient := ⟨none, none, some (.v4 0x7f000001, 9050)⟩

def tordOnly (w : Sockets) : (o : Op) → o.Res × Sockets
  | .txid => (0x1234, w)
  | .coins => (fun _ => false, w)
  | .now => (w.now, w)
  | .udp _ _ _ => (none, w)
  | .tcp _ _ _ => (none, w)
  | .take key => ((w.pool.take w.now key).1, { w with pool := (w.pool.take w.now key).2 })
  | .release key conn => ((), { w with pool := w.pool.release w.now key conn })
  | .connect target _ =>
      if 0 ∈ w.opened.map Prod.fst then (none, w)
      else (some 0, { w with opened := (0, target) :: w.opened })
  | .socks _ _ _ => (false, w)
  | .tlsHandshake _ _ => (false, w)
  | .writeMessage _ _ => (false, w)
  | .readMessage _ => (none, w)

theorem tordOnly_step (w : Sockets) (o : Op) : w.Step o (tordOnly w o).1 (tordOnly w o).2 := by
  cases o with
  | connect target source =>
    unfold tordOnly
    split
    · exact .refused w target source
    · rename_i hnew
      exact .connected w target source 0 hnew
  | _ => constructor

def torCall : Call := ⟨[⟨.v4 0x09090909, .dot, some "dns.quad9.net", .tor⟩], ".", exampleQuery⟩

theorem torCall_tor : torCall.Tor := by
  have hnew : ∃ table e, ForwarderTable.new rootLibrary [torForwarder] = .ok table ∧ e ∈ table.entries ∧
      e.servers = torCall.servers :=
    ⟨_, _, rfl, mem_singleton_self _, rfl⟩
  obtain ⟨table, e, htable, he, hservers⟩ := hnew
  refine ⟨rootLibrary, [torForwarder], table, e, htable, he, hservers.symm, ?_⟩
  rw [hservers]
  exact ⟨_, mem_singleton_self _, rfl⟩

theorem queryForwarder_tor_quad9 : ∃ (i : Call) (w : Sockets) (ts : List (Call × Prog Op Op.Res Unit))
    (o : Op) (k : o.Res → Prog Op Op.Res Unit), i.Tor ∧ (calls questionCodec torClient).Reach w ts ∧
      (i, .op o k) ∈ ts ∧ o = .socks 0 (.v4 0x09090909, dotPort) (some ".") ∧
      ∀ a, (0, a) ∈ w.opened ↔ a = (.v4 0x7f000001, 9050) := by
  have hempty : (calls questionCodec torClient).Reach .empty [] := .init rfl
  have hreach := (hempty.spawn (i := torCall) rfl).execFor tordOnly_step 4
  obtain ⟨_, _, hstreams⟩ := (queryForwarder_tor questionCodec torClient torCall_tor).1 _ _ _ _ hreach
    (mem_singleton_self _)
  obtain ⟨socks, hsocks, ha⟩ := hstreams 0 rfl
  obtain rfl := Option.some.inj hsocks
  exact ⟨_, _, _, _, _, torCall_tor, hreach, mem_singleton_self _, rfl, ha⟩

end Dnsd.Upstream
