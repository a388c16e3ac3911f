/-
# SocksHandshake — what a successful SOCKS5 handshake has said and heard.

If the proxy chooses "no authentication" the username is never sent, and connections for two forwarder domains are
set up with the same octets (`isolation_lost`).
-/
import Dnsd.Io.Http
import Dnsd.Upstream.Client
import Dnsd.Upstream.Socks

namespace Dnsd.Upstream.Socks

open Proto Lib Prog Dialogue List
open Io (text)

variable {auth method user : Bytes} {username : Option Bytes} {target : SocketAddr} {s s' : Talk UInt8}

/-! ## The replies -/

/-- The replies to the greeting, and to the username if the proxy asks for it; and what is said in between. -/
inductive Accepting : Option Bytes → Bytes → Bytes → Prop
  | noAuth (username : Option Bytes) : Accepting username [0x05, 0x00] []
  | userpass {user : Bytes} : user.length ≤ 255 →
      Accepting (some user) [0x05, 0x02, 0x01, 0x00] (0x01 :: UInt8.ofNat user.length :: (user ++ [0x00]))

inductive AddrLength : UInt8 → Bytes → Nat → Prop
  | v4 : AddrLength 0x01 [] 4
  | v6 : AddrLength 0x04 [] 16
  | domain (len : UInt8) : AddrLength 0x03 [len] len.toNat

inductive Success : Bytes → Prop
  | mk (rsv : UInt8) {atyp : UInt8} {len addr port : Bytes} {n : Nat} : AddrLength atyp len n → addr.length = n →
      port.length = 2 → Success ([0x05, 0x00, rsv, atyp] ++ (len ++ (addr ++ port)))

theorem gives_userpassAuth : Gives (userpassAuth user) s () s' ↔
    user.length ≤ 255 ∧ s.unread = [0x01, 0x00] ++ s'.unread ∧ s'.written = s.written ++ authMessage user := by
  unfold userpassAuth
  rw [gives_guard, Nat.not_lt, gives_send_bind, gives_receive_bind]
  refine and_congr_right fun _ => ⟨?_, ?_⟩
  · rintro ⟨reply, rest, hlen, hread, h⟩
    obtain ⟨version, status, rfl⟩ := length_eq_two.mp hlen
    obtain ⟨hversion, h⟩ := gives_guard.mp h
    obtain ⟨hstatus, h⟩ := gives_guard.mp h
    obtain ⟨_, rfl⟩ := gives_pure.mp h
    obtain rfl : version = 0x01 := not_not.mp hversion
    obtain rfl : status = 0x00 := not_not.mp hstatus
    exact ⟨hread, rfl⟩
  · rintro ⟨hread, hwritten⟩
    exact ⟨_, _, rfl, hread, gives_pure.mpr ⟨rfl, by rw [← hwritten]⟩⟩

theorem gives_negotiate : Gives (negotiate username) s () s' ↔ ∃ method auth, Accepting username method auth ∧
    s.unread = method ++ s'.unread ∧ s'.written = s.written ++ greeting username ++ auth := by
  unfold negotiate
  rw [gives_send_bind, gives_receive_bind]
  constructor
  · rintro ⟨sel, rest, hlen, hread, h⟩
    obtain ⟨version, method, rfl⟩ := length_eq_two.mp hlen
    cases username with
    | none =>
      obtain ⟨hsel, h⟩ := gives_guard.mp h
      obtain ⟨_, rfl⟩ := gives_pure.mp h
      obtain ⟨hversion, hmethod⟩ := not_or.mp hsel
      obtain rfl : version = ver := not_not.mp hversion
      obtain rfl : method = mNoauth := not_not.mp hmethod
      exact ⟨_, _, .noAuth none, hread, (append_nil _).symm⟩
    | some user =>
      obtain ⟨hversion, h⟩ := gives_guard.mp h
      obtain rfl : version = ver := not_not.mp hversion
      simp only [getD_cons_succ, getD_cons_zero] at h
      by_cases hnoauth : method = mNoauth
      · rw [if_pos hnoauth] at h
        obtain ⟨_, rfl⟩ := gives_pure.mp h
        subst hnoauth
        exact ⟨_, _, .noAuth (some user), hread, (append_nil _).symm⟩
      rw [if_neg hnoauth] at h
      by_cases huserpass : method = mUserpass
      · rw [if_pos huserpass] at h
        obtain ⟨hshort, rfl, hwritten⟩ := gives_userpassAuth.mp h
        subst huserpass
        exact ⟨_, _, .userpass hshort, hread, hwritten⟩
      · rw [if_neg huserpass] at h
        exact absurd (gives_guard.mp h).2 not_gives_throw
  · rintro ⟨_, _, haccept, hread, hwritten⟩
    cases haccept with
    | noAuth =>
      refine ⟨_, _, rfl, hread, ?_⟩
      rw [append_nil] at hwritten
      cases username <;> exact gives_pure.mpr ⟨rfl, by rw [← hwritten]⟩
    | userpass hshort =>
      exact ⟨[ver, mUserpass], _, rfl, hread, gives_userpassAuth.mpr ⟨hshort, rfl, hwritten⟩⟩

theorem gives_boundLength {atyp : UInt8} {n : Nat} : Gives (boundLength atyp) s n s' ↔
    ∃ len, AddrLength atyp len n ∧ s.unread = len ++ s'.unread ∧ s'.written = s.written := by
  constructor
  · intro h
    unfold boundLength at h
    split at h
    · rename_i hatyp
      subst hatyp
      obtain ⟨rfl, rfl⟩ := gives_pure.mp h
      exact ⟨_, .v4, rfl, rfl⟩
    split at h
    · rename_i hatyp
      subst hatyp
      obtain ⟨rfl, rfl⟩ := gives_pure.mp h
      exact ⟨_, .v6, rfl, rfl⟩
    split at h
    · rename_i hatyp
      subst hatyp
      obtain ⟨l, rest, hl, hread, h⟩ := gives_receive_bind.mp h
      obtain ⟨len, rfl⟩ := length_eq_one_iff.mp hl
      obtain ⟨rfl, rfl⟩ := gives_pure.mp h
      exact ⟨_, .domain len, hread, rfl⟩
    · exact absurd h not_gives_throw
  · rintro ⟨_, haddr, hread, hwritten⟩
    cases haddr with
    | v4 => exact gives_pure.mpr ⟨rfl, Talk.ext hread.symm hwritten⟩
    | v6 => exact gives_pure.mpr ⟨rfl, Talk.ext hread.symm hwritten⟩
    | domain len =>
      exact gives_receive_bind.mpr ⟨[len], _, rfl, hread, gives_pure.mpr ⟨rfl, by rw [← hwritten]⟩⟩

theorem gives_connectReply : Gives (connectReply target) s () s' ↔ ∃ reply, Success reply ∧
    s.unread = reply ++ s'.unread ∧ s'.written = s.written := by
  unfold connectReply
  rw [gives_receive_bind]
  constructor
  · rintro ⟨head, rest, hlen, hread, h⟩
    obtain ⟨version, reply, rsv, atyp, rfl⟩ := length_eq_four.mp hlen
    obtain ⟨hversion, h⟩ := gives_guard.mp h
    obtain ⟨hreply, h⟩ := gives_guard.mp h
    obtain rfl : version = ver := not_not.mp hversion
    obtain rfl : reply = 0x00 := not_not.mp hreply
    obtain ⟨n, s₁, hn, h⟩ := gives_bind.mp h
    obtain ⟨bound, rest', hbound, hread', h⟩ := gives_receive_bind.mp h
    obtain ⟨_, rfl⟩ := gives_pure.mp h
    obtain ⟨len, haddr, rfl, hwritten⟩ := gives_boundLength.mp hn
    have hsuccess := Success.mk rsv haddr (length_take_of_le (by omega : n ≤ bound.length))
      (by rw [length_drop, hbound, Nat.add_sub_cancel_left] : (bound.drop n).length = 2)
    refine ⟨_, hsuccess, ?_, hwritten⟩
    rw [take_append_drop, hread, hread', append_assoc, append_assoc]
    rfl
  · rintro ⟨_, ⟨rsv, haddr, haddrLen, hport⟩, hread, hwritten⟩
    rename_i atyp len addr port n
    refine ⟨[ver, 0x00, rsv, atyp], len ++ (addr ++ port) ++ s'.unread, rfl, by rw [hread, append_assoc]; rfl, ?_⟩
    refine gives_bind.mpr ⟨n, ⟨addr ++ port ++ s'.unread, s'.written⟩,
      gives_boundLength.mpr ⟨len, haddr, append_assoc .., hwritten⟩, ?_⟩
    exact gives_receive_bind.mpr ⟨addr ++ port, s'.unread, by rw [length_append, haddrLen, hport], rfl,
      gives_pure.mpr ⟨rfl, rfl⟩⟩

theorem gives_connect : Gives (connect target username) s () s' ↔ ∃ method auth reply,
    Accepting username method auth ∧ Success reply ∧ s.unread = method ++ (reply ++ s'.unread) ∧
      s'.written = s.written ++ (greeting username ++ (auth ++ connectRequest target)) := by
  refine gives_bind.trans ⟨?_, ?_⟩
  · rintro ⟨_, s₁, hneg, hreply⟩
    obtain ⟨method, auth, haccept, hread, hwritten⟩ := gives_negotiate.mp hneg
    obtain ⟨reply, hsuccess, hread', hwritten'⟩ := gives_connectReply.mp (gives_send_bind.mp hreply)
    refine ⟨method, auth, reply, haccept, hsuccess, by rw [hread, ← hread'], ?_⟩
    rw [hwritten', hwritten, append_assoc, append_assoc]
  · rintro ⟨method, auth, reply, haccept, hsuccess, hread, hwritten⟩
    refine ⟨(), ⟨reply ++ s'.unread, _⟩, gives_negotiate.mpr ⟨method, auth, haccept, hread, rfl⟩,
      gives_send_bind.mpr (gives_connectReply.mpr ⟨reply, hsuccess, rfl, ?_⟩)⟩
    simp only [hwritten, append_assoc]

/-! ## Exactness -/

def SelectsUserpass (heard : Bytes) : Prop := [0x05, 0x02] <+: heard

def Authenticated (user heard said : Bytes) : Prop :=
  [0x05, 0x02, 0x01, 0x00] <+: heard ∧ greeting (some user) ++ authMessage user <+: said

theorem authenticated_iff {heard rest said : Bytes}
    (h : Gives (connect target (some user)) ⟨heard, []⟩ () ⟨rest, said⟩) :
    Authenticated user heard said ↔ SelectsUserpass heard := by
  obtain ⟨_, _, reply, haccept, _, hheard, hsaid⟩ := gives_connect.mp h
  dsimp only [nil_append] at hheard hsaid
  subst hheard hsaid
  cases haccept with
  | noAuth =>
    refine ⟨fun hauth => ?_, fun hsel => ?_⟩
    · cases (cons_prefix_cons.mp (cons_prefix_cons.mp hauth.1).2).1
    · cases (cons_prefix_cons.mp (cons_prefix_cons.mp hsel).2).1
  | userpass =>
    refine ⟨fun _ => ⟨_, rfl⟩, fun _ => ⟨prefix_append .., connectRequest target, append_assoc ..⟩⟩

/-- Each success of `socks::connect` is one of the dialogue on its stream: this was heard on it, and this said. -/
def Backed (heard said : Stream → Bytes) : (o : Op) → o.Res → Prop
  | .socks s target username, r =>
      r = true → ∃ rest, Gives (connect target (username.map text)) ⟨heard s, []⟩ () ⟨rest, said s⟩
  | _, _ => True

theorem runs_dotBuild_tor {connectTarget : SocketAddr} {key : DotConnKey} {ok : (o : Op) → o.Res → Prop}
    {source : Option IpAddr} {stream : Stream} {t : Trace Op.Res} (htor : key.via = .tor)
    (h : (dotBuild connectTarget source key).run.Runs ok t (some (.ok stream))) :
    ok (.socks stream key.resolver key.isoUser) true := by
  obtain ⟨opened, _, rfl, _, hopened⟩ := runs_ask_bind.mp h
  cases opened with
  | none => exact absurd hopened not_runs_ok_throw
  | some s =>
    obtain ⟨_, _, _, rfl, htunnel, htls⟩ := runs_ok_bind.mp hopened
    obtain ⟨tls, _, rfl, _, htls⟩ := runs_ask_bind.mp htls
    unfold tunnel at htunnel
    rw [if_pos htor] at htunnel
    obtain ⟨connected, _, rfl, hok, htunnel⟩ := runs_ask_bind.mp htunnel
    cases tls with
    | false => exact absurd htls not_runs_ok_throw
    | true =>
      cases connected with
      | false => exact absurd htunnel not_runs_ok_throw
      | true =>
        obtain ⟨_, rfl⟩ := runs_ok_pure.mp htls
        exact hok

/-- **The username was sent and accepted exactly if the proxy chose the method for it**, in a handshake that
succeeds and on a stream that the builder of a tor connection returns. -/
theorem isolation_username (heard said : Stream → Bytes) :
    (∀ (target : SocketAddr) (user heard rest said : Bytes),
      Gives (connect target (some user)) ⟨heard, []⟩ () ⟨rest, said⟩ →
        (Authenticated user heard said ↔ SelectsUserpass heard)) ∧
    ∀ (connectTarget : SocketAddr) (source : Option IpAddr) (key : DotConnKey) (domain : String) (stream : Stream)
      (t : Trace Op.Res), key.via = .tor → key.isoUser = some domain →
        (dotBuild connectTarget source key).run.Runs (Backed heard said) t (some (.ok stream)) →
          (Authenticated (text domain) (heard stream) (said stream) ↔ SelectsUserpass (heard stream)) := by
  refine ⟨fun _ _ _ _ _ h => authenticated_iff h, fun _ _ key domain stream t htor hiso h => ?_⟩
  obtain ⟨rest, hsocks⟩ := runs_dotBuild_tor htor h rfl
  rw [hiso] at hsocks
  exact authenticated_iff hsocks

def reached : Bytes := [0x05, 0x00, 0x00, 0x01, 0, 0, 0, 0, 0, 0]

theorem reached_success : Success reached := @Success.mk 0x00 _ _ [0, 0, 0, 0] [0, 0] _ .v4 rfl rfl

def tord : SocketAddr := (.v4 0x7F000001, 9050)

def torKey (domain : String) : DotConnKey :=
  ⟨(.v4 0x09090909, dotPort), "dns.quad9.net", .tor, some tord, some domain⟩

def unasked : Bytes := [0x05, 0x02, 0x00, 0x02] ++ connectRequest (torKey "").resolver

theorem runs_torKey {heard said : Stream → Bytes} (domain : String) (s : Stream)
    (h : ∃ method auth, Accepting (some (text domain)) method auth ∧ heard s = method ++ reached ∧
      said s = [0x05, 0x02, 0x00, 0x02] ++ (auth ++ connectRequest (torKey domain).resolver)) :
    (dotBuild tord none (torKey domain)).run.Runs (Backed heard said)
      [⟨.connect tord none, some s⟩, ⟨.socks s (torKey domain).resolver (some domain), true⟩,
        ⟨.tlsHandshake s "dns.quad9.net", true⟩] (some (.ok s)) := by
  obtain ⟨method, auth, haccept, hheard, hsaid⟩ := h
  refine .op _ trivial (.op _ (fun _ => ⟨[], gives_connect.mpr ?_⟩) (.op _ trivial (.ret _)))
  exact ⟨method, auth, reached, haccept, reached_success, hheard, hsaid⟩

theorem isolation_username_asked : Authenticated (text "corp.") ([0x05, 0x02, 0x01, 0x00] ++ reached)
    ([0x05, 0x02, 0x00, 0x02] ++ (authMessage (text "corp.") ++ connectRequest (torKey "corp.").resolver)) :=
  ((isolation_username (fun _ => _) fun _ => _).2 tord none (torKey "corp.") "corp." 0 _ rfl rfl
    (runs_torKey "corp." 0 ⟨_, _, .userpass (by decide), rfl, rfl⟩)).mpr ⟨_, rfl⟩

theorem isolation_lost : ∃ (heard said : Stream → Bytes) (t t' : Trace Op.Res),
    (dotBuild tord none (torKey "corp.")).run.Runs (Backed heard said) t (some (.ok 0)) ∧
    (dotBuild tord none (torKey "lab.")).run.Runs (Backed heard said) t' (some (.ok 1)) ∧
    said 0 = unasked ∧ said 1 = unasked ∧ ¬ Authenticated (text "corp.") (heard 0) (said 0) ∧
    ¬ Authenticated (text "lab.") (heard 1) (said 1) :=
  ⟨fun _ => [0x05, 0x00] ++ reached, fun _ => unasked, _, _, runs_torKey "corp." 0 ⟨_, _, .noAuth _, rfl, rfl⟩,
    runs_torKey "lab." 1 ⟨_, _, .noAuth _, rfl, rfl⟩, rfl, rfl, by unfold Authenticated; decide,
    by unfold Authenticated; decide⟩

end Dnsd.Upstream.Socks
