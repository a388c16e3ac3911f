/-
# Socks — the SOCKS5 handshake with tord (`socks.rs`).

`connect` is a dialogue on a stream to the proxy: a greeting and the choice of a method, the username if the proxy
asks for it, and the CONNECT request.  `read_exact` and `write_all` are its operations; a username is the octets of
its text.
-/
import Dnsd.Lib.Feed
import Dnsd.Upstream.DotPool
import Dnsd.Upstream.Wire

namespace Dnsd.Upstream.Socks

open Proto Lib Dialogue

def ver : UInt8 := 0x05
def mNoauth : UInt8 := 0x00
def mUserpass : UInt8 := 0x02
def mNone : UInt8 := 0xff
def cmdConnect : UInt8 := 0x01
def atypV4 : UInt8 := 0x01
def atypDomain : UInt8 := 0x03
def atypV6 : UInt8 := 0x04

/-- Why `connect` fails. -/
inductive SocksError where
  | sendGreeting
  | readSelection
  | badVersion (version : UInt8)
  | rejectedAll
  | unknownMethod (method : UInt8)
  | noAuthRefused (version method : UInt8)
  | usernameTooLong (n : Nat)
  | sendAuth
  | readAuth
  | badAuthVersion (version : UInt8)
  | authRejected
  | sendConnect
  | readReply
  | badReplyVersion (version : UInt8)
  | connectFailed (target : SocketAddr) (reason : String)
  | readAddrLength
  | unknownAtyp (atyp : UInt8)
  | drain
  deriving DecidableEq, Repr

abbrev Handshake (α : Type) := Dialogue SocksError UInt8 α

def replyError : UInt8 → String
  | 0x01 => "general SOCKS server failure"
  | 0x02 => "connection not allowed by ruleset"
  | 0x03 => "network unreachable"
  | 0x04 => "host unreachable"
  | 0x05 => "connection refused"
  | 0x06 => "TTL expired"
  | 0x07 => "command not supported"
  | 0x08 => "address type not supported"
  | _ => "unknown SOCKS error code"

/-! ## The dialogue -/

def authMessage (user : Bytes) : Bytes := 0x01 :: UInt8.ofNat user.length :: (user ++ [0])

def userpassAuth (user : Bytes) : Handshake Unit :=
  if user.length > 255 then throw (.usernameTooLong user.length)
  else do
    send .sendAuth (authMessage user)
    let reply ← receive .readAuth 2
    if reply.getD 0 0 ≠ 0x01 then throw (.badAuthVersion (reply.getD 0 0))
    else if reply.getD 1 0 ≠ 0x00 then throw .authRejected
    else return ()

def greeting : Option Bytes → Bytes
  | some _ => [ver, 2, mNoauth, mUserpass]
  | none => [ver, 1, mNoauth]

def negotiate (username : Option Bytes) : Handshake Unit := do
  send .sendGreeting (greeting username)
  let sel ← receive .readSelection 2
  let version := sel.getD 0 0
  let method := sel.getD 1 0
  match username with
  | some user =>
      if version ≠ ver then throw (.badVersion version)
      else if method = mNoauth then return ()
      else if method = mUserpass then userpassAuth user
      else if method = mNone then throw .rejectedAll
      else throw (.unknownMethod method)
  | none =>
      if version ≠ ver ∨ method ≠ mNoauth then throw (.noAuthRefused version method) else return ()

def addrOctets : IpAddr → Bytes
  | .v4 a => (List.range 4).map fun i => UInt8.ofNat (a.toNat / 256 ^ (3 - i))
  | .v6 a => (List.range 16).map fun i => UInt8.ofNat (a.toNat / 256 ^ (15 - i))

def connectRequest (target : SocketAddr) : Bytes :=
  [ver, cmdConnect, 0x00, if target.1.isIpv4 then atypV4 else atypV6] ++ addrOctets target.1 ++ toBe target.2

def boundLength (atyp : UInt8) : Handshake Nat :=
  if atyp = atypV4 then return 4
  else if atyp = atypV6 then return 16
  else if atyp = atypDomain then do
    let l ← receive .readAddrLength 1
    return (l.getD 0 0).toNat
  else throw (.unknownAtyp atyp)

def connectReply (target : SocketAddr) : Handshake Unit := do
  let head ← receive .readReply 4
  if head.getD 0 0 ≠ ver then throw (.badReplyVersion (head.getD 0 0))
  else if head.getD 1 0 ≠ 0x00 then throw (.connectFailed target (replyError (head.getD 1 0)))
  else
    let bndLen ← boundLength (head.getD 3 0)
    let _ ← receive .drain (bndLen + 2)
    return ()

def connect (target : SocketAddr) (username : Option Bytes) : Handshake Unit := do
  negotiate username
  send .sendConnect (connectRequest target)
  connectReply target

end Dnsd.Upstream.Socks
