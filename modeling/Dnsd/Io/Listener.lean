/-
# Listener — from the octets of a query to the octets of a reply.

The four listeners ask the ACL and hand the octets of a query to the handler: the recursor, or in disabled
mode a sink that refuses everything.  What the outside decides about a query is an `Arrival`; the message
library is a parameter, and `Request` adds the payload size of the client's OPT record.
-/
import Dnsd.Daemon.Config
import Dnsd.Upstream.Wire

namespace Dnsd.Io

open Proto Lib Recursor List
open Daemon (Protocol)
open Upstream (Bytes WireMessage)

/-! ## The message library -/

structure Request extends WireMessage where
  /-- The payload size in the OPT record, if there is one. -/
  maxPayload : Option UInt16
  deriving DecidableEq, Repr

def recordCount (m : Message) : Nat := m.answers.length + m.authorities.length + m.additionals.length

/-- The octets of a question section without compression. -/
def questionSize (queries : List Query) : Nat := (queries.map fun q => q.name.wireLen + 4).sum

/-- The message library.  A header has 12 octets and a record at least 11, also with compression; a
message without records is at most its header and its questions. -/
structure Codec where
  fromBytes : Bytes → Option Request
  toVec : WireMessage → Option Bytes
  toVec_length : ∀ {m b}, toVec m = some b → 12 + 11 * recordCount m.toMessage ≤ b.length
  toVec_bare : ∀ {m b}, toVec m = some b → recordCount m.toMessage = 0 → m.ede = none →
    b.length ≤ 12 + questionSize m.queries

/-! ## The handler -/

def buildRefused (codec : Codec) (query : Bytes) : Option Bytes :=
  match codec.fromBytes query with
  | none => none
  | some m => codec.toVec ⟨Recursor.buildRefused m.toMessage, true⟩

/-- How a recursor puts its replies into octets.  A reply that is relayed keeps the message type it came
with, and where a reply has no encoding some paths send SERVFAIL and others nothing. -/
structure Encoder (codec : Codec) where
  encode : (query reply : Message) → Option Bytes
  own : ∀ {query reply b}, encode query reply = some b →
    (∃ isResponse, codec.toVec ⟨reply, isResponse⟩ = some b) ∨
      (codec.toVec ⟨servfail query, true⟩ = some b ∧ ∀ isResponse, codec.toVec ⟨reply, isResponse⟩ = none)
  refusal : ∀ query, encode query (Recursor.buildRefused query) =
    codec.toVec ⟨Recursor.buildRefused query, true⟩

def Encoder.plain (codec : Codec) : Encoder codec where
  encode _ reply := codec.toVec ⟨reply, true⟩
  own h := Or.inl ⟨true, h⟩
  refusal _ := rfl

/-- What a listener holds: the sink of disabled mode, or a recursor. -/
inductive Handler (codec : Codec) where
  | refused
  | recursor (C : Crypto) (cfg : Config) (encoder : Encoder codec)

namespace Handler

variable {codec : Codec}

def isReady (ready : Bool) : Handler codec → Bool
  | .refused => true
  | .recursor _ _ _ => ready

def handleBytes (nest : Nat) (peer : IpAddr) (dns64 : Bool) (query : Bytes) :
    Handler codec → RProg (Option Bytes)
  | .refused => return buildRefused codec query
  | .recursor C cfg encoder =>
      match codec.fromBytes query with
      | none => do
          -- Ready or not, nothing is sent for what does not parse.
          let _ : Bool ← call .isReady
          return none
      | some m => do
          let reply ← Recursor.handleBytes C cfg nest peer dns64 m.toMessage
          return reply.bind fun r => encoder.encode m.toMessage r

end Handler

/-! ## The listeners -/

structure Arrival where
  peer : IpAddr
  /-- What the ACL says when the query is looked at. -/
  allowed : Bool
  /-- The DNS64 flag of the listener's context. -/
  dns64 : Bool
  /-- UDP: whether there is room under the cap on queries in flight. -/
  permit : Bool := true
  /-- Streams: what the ACL said when the connection was accepted. -/
  admitted : Bool := true
  /-- Streams: the readiness flag when the connection was accepted. -/
  ready : Bool := true
  nest : Nat := 0
  deriving DecidableEq, Repr

/-- `UDP_BUF_SIZE`. -/
def udpBufSize : Nat := 4096

def maxTcpMessage : Nat := 65535

section

variable {codec : Codec} (h : Handler codec) (a : Arrival)

/-- One turn of the UDP `serve_loop`: what is sent back for a datagram. -/
def Udp.serveLoop (datagram : Bytes) : RProg (Option Bytes) :=
  let query := datagram.take udpBufSize
  if !a.allowed then return none
  else if !a.permit then return buildRefused codec query
  else h.handleBytes a.nest a.peer a.dns64 query

/-- One query of a stream, from the accepting of its connection on.  `limit` is the longest reply that
is sent. -/
def serveStream (limit : Option Nat) (query : Bytes) : RProg (Option Bytes) :=
  if !a.admitted then return none
  else if !h.isReady a.ready then return none
  else if !a.allowed then return none
  else do
    let response ← h.handleBytes a.nest a.peer a.dns64 query
    return response.filter fun b => limit.all fun n => b.length ≤ n

def Tcp.serveConnection (query : Bytes) : RProg (Option Bytes) := serveStream h a (some maxTcpMessage) query

def Dot.serveTls (query : Bytes) : RProg (Option Bytes) := serveStream h a (some maxTcpMessage) query

/-- `handle_request` of `doh.rs`, once it has the query of a request. -/
def Doh.serveQuery (query : Bytes) : RProg (Option Bytes) := serveStream h a none query

def serve : Protocol → Bytes → RProg (Option Bytes)
  | .udp => Udp.serveLoop h a
  | .tcp => Tcp.serveConnection h a
  | .dot => Dot.serveTls h a
  | .doh => Doh.serveQuery h a

end

/-! ## A message library without compression -/

open Upstream (toBe fromBe bit nameOctets labelsOf question?)

def opCodeOf (flags : UInt8) : OpCode :=
  let code := (flags >>> 3) &&& 0x0f
  if code = 0 then .query else .other code

def opCodeBits : OpCode → UInt8
  | .query => 0
  | .other code => code <<< 3

def responseCodeOf (flags : UInt8) : ResponseCode :=
  match (flags &&& 0x0f).toNat with
  | 0 => .noError
  | 1 => .formErr
  | 2 => .servFail
  | 3 => .nxDomain
  | 4 => .notImp
  | 5 => .refused
  | code => .other (UInt16.ofNat code)

def responseCodeBits : ResponseCode → UInt8
  | .noError => 0
  | .formErr => 1
  | .servFail => 2
  | .nxDomain => 3
  | .notImp => 4
  | .refused => 5
  | .other code => UInt8.ofNat code.toNat

def bareRequest (i₁ i₂ f₁ f₂ : UInt8) (queries : List Query) : Request where
  id := fromBe i₁ i₂
  isResponse := f₁ &&& 0x80 ≠ 0
  opCode := opCodeOf f₁
  authoritative := f₁ &&& 0x04 ≠ 0
  truncation := f₁ &&& 0x02 ≠ 0
  recursionDesired := f₁ &&& 0x01 ≠ 0
  recursionAvailable := f₂ &&& 0x80 ≠ 0
  authenticData := f₂ &&& 0x20 ≠ 0
  responseCode := responseCodeOf f₂
  queries := queries
  maxPayload := none

def octets (count value : Nat) : Bytes :=
  (List.range count).map fun i => UInt8.ofNat (value / 256 ^ (count - 1 - i))

def rdataOctets? : RData → Option Bytes
  | .a addr => some (octets 4 addr.toNat)
  | .aaaa addr => some (octets 16 addr.toNat)
  | .ns target => some (nameOctets target)
  | .cname target => some (nameOctets target)
  | .ptr target => some (nameOctets target)
  | _ => none

def recordOctets? (r : Record) : Option Bytes :=
  (rdataOctets? r.data).map fun data =>
    nameOctets r.name ++ (toBe r.recordType.code ++ (toBe r.dnsClass.code ++ (octets 4 r.ttl ++
      (toBe (UInt16.ofNat data.length) ++ data))))

def sectionOctets? : List Record → Option Bytes
  | [] => some []
  | r :: rs =>
      match recordOctets? r, sectionOctets? rs with
      | some b, some bs => some (b ++ bs)
      | _, _ => none

def questionOctets (q : Query) : Bytes :=
  nameOctets q.name ++ (toBe q.queryType.code ++ toBe q.queryClass.code)

def headerOctets (m : WireMessage) : Bytes :=
  toBe m.id ++
    [bit m.isResponse 0x80 ||| opCodeBits m.opCode ||| bit m.authoritative 0x04 |||
        bit m.truncation 0x02 ||| bit m.recursionDesired 0x01,
      bit m.recursionAvailable 0x80 ||| bit m.authenticData 0x20 ||| responseCodeBits m.responseCode] ++
    toBe (UInt16.ofNat m.queries.length) ++ toBe (UInt16.ofNat m.answers.length) ++
    toBe (UInt16.ofNat m.authorities.length) ++ toBe (UInt16.ofNat m.additionals.length)

@[simp] theorem length_headerOctets (m : WireMessage) : (headerOctets m).length = 12 := by
  simp [headerOctets, toBe]

theorem length_nameOctets (n : Name) : (nameOctets n).length = n.wireLen := by
  simp [nameOctets, Name.wireLen, length_flatMap]

theorem length_questionOctets (queries : List Query) :
    (queries.flatMap questionOctets).length = questionSize queries := by
  simp [questionSize, questionOctets, length_flatMap, length_nameOctets, toBe]

theorem length_sectionOctets {rs : List Record} {b : Bytes} (h : sectionOctets? rs = some b) :
    11 * rs.length ≤ b.length := by
  induction rs generalizing b with
  | nil => exact Nat.zero_le _
  | cons r rs ih =>
    unfold sectionOctets? at h
    split at h
    · rename_i d ds hr hrs
      obtain rfl := Option.some.inj h
      obtain ⟨data, _, rfl⟩ := Option.map_eq_some_iff.mp hr
      have hrest := ih hrs
      simp only [length_append, length_cons, toBe, octets, length_map,
        length_range, length_nil, nameOctets]
      omega
    · cases h

def wireCodec : Codec where
  fromBytes b :=
    match b with
    | [i₁, i₂, f₁, f₂, 0, 0, 0, 0, 0, 0, 0, 0] => some (bareRequest i₁ i₂ f₁ f₂ [])
    | i₁ :: i₂ :: f₁ :: f₂ :: 0 :: 1 :: 0 :: 0 :: 0 :: 0 :: 0 :: 0 :: _ =>
        (question? b).map fun q => bareRequest i₁ i₂ f₁ f₂
          [⟨⟨labelsOf q.name.length q.name⟩, ⟨q.queryType⟩, ⟨q.queryClass⟩⟩]
    | _ => none
  toVec m :=
    match m.ede, sectionOctets? m.answers, sectionOctets? m.authorities, sectionOctets? m.additionals with
    | none, some an, some ns, some ar =>
        some (headerOctets m ++ (m.queries.flatMap questionOctets ++ (an ++ (ns ++ ar))))
    | _, _, _, _ => none
  toVec_length := by
    intro m b h
    split at h
    · rename_i an ns ar _ han hns har
      obtain rfl := Option.some.inj h
      have := length_sectionOctets han
      have := length_sectionOctets hns
      have := length_sectionOctets har
      simp only [length_append, length_headerOctets, recordCount]
      omega
    · nomatch h
  toVec_bare := by
    intro m b h hnone _
    unfold recordCount at hnone
    have han : m.answers = [] := eq_nil_of_length_eq_zero (by omega)
    have hns : m.authorities = [] := eq_nil_of_length_eq_zero (by omega)
    have har : m.additionals = [] := eq_nil_of_length_eq_zero (by omega)
    rw [han, hns, har] at h
    split at h
    · rename_i an ns ar _ han hns har
      obtain rfl := Option.some.inj h
      obtain rfl := Option.some.inj han
      obtain rfl := Option.some.inj hns
      obtain rfl := Option.some.inj har
      simp only [length_append, length_headerOctets, length_questionOctets, length_nil]
      omega
    · nomatch h

end Dnsd.Io
