/-
# Message — records and messages, as parsed from the wire.

Here a message stands for its encodings too.  Fields that no modelled function reads are left out.  Type and class
codes are 16-bit numbers; `update0` is what an empty RDATA field parses to, and RDATA the resolver does not look
into is opaque octets.
-/
import Dnsd.Proto.Name

namespace Dnsd.Proto

/-! ## Codes -/

structure RecordType where
  code : UInt16
  deriving DecidableEq, Repr

namespace RecordType

def A : RecordType := ⟨1⟩
def NS : RecordType := ⟨2⟩
def CNAME : RecordType := ⟨5⟩
def SOA : RecordType := ⟨6⟩
def PTR : RecordType := ⟨12⟩
def AAAA : RecordType := ⟨28⟩
def DS : RecordType := ⟨43⟩
def RRSIG : RecordType := ⟨46⟩
def NSEC : RecordType := ⟨47⟩
def DNSKEY : RecordType := ⟨48⟩
def NSEC3 : RecordType := ⟨50⟩
def SVCB : RecordType := ⟨64⟩

def cmp (a b : RecordType) : Ordering := compare a.code b.code

instance : Std.TransCmp cmp := Name.transCmp_on inferInstance code

theorem cmp_eq_iff {a b : RecordType} : a.cmp b = .eq ↔ a = b := by
  rw [cmp, Std.LawfulEqCmp.compare_eq_iff_eq]
  cases a
  cases b
  simp

end RecordType

structure DNSClass where
  code : UInt16
  deriving DecidableEq, Repr

namespace DNSClass

def IN : DNSClass := ⟨1⟩

def cmp (a b : DNSClass) : Ordering := compare a.code b.code

instance : Std.TransCmp cmp := Name.transCmp_on inferInstance code

theorem cmp_eq_iff {a b : DNSClass} : a.cmp b = .eq ↔ a = b := by
  rw [cmp, Std.LawfulEqCmp.compare_eq_iff_eq]
  cases a
  cases b
  simp

end DNSClass

inductive ResponseCode where
  | noError
  | formErr
  | servFail
  | nxDomain
  | notImp
  | refused
  | other (code : UInt16)
  deriving DecidableEq, Repr

inductive OpCode where
  | query
  | other (code : UInt8)
  deriving DecidableEq, Repr

inductive IpAddr where
  | v4 (addr : BitVec 32)
  | v6 (addr : BitVec 128)
  deriving DecidableEq, Repr

namespace IpAddr

def isIpv4 : IpAddr → Bool
  | .v4 _ => true
  | .v6 _ => false

def le : IpAddr → IpAddr → Bool
  | .v4 a, .v4 b => a.toNat ≤ b.toNat
  | .v4 _, .v6 _ => true
  | .v6 _, .v4 _ => false
  | .v6 a, .v6 b => a.toNat ≤ b.toNat

end IpAddr

/-! ## DNSSEC record data -/

structure DNSKEY where
  flags : UInt16
  algorithm : UInt8
  publicKey : List UInt8
  deriving DecidableEq, Repr

structure DS where
  keyTag : UInt16
  algorithm : UInt8
  digestType : UInt8
  digest : List UInt8
  deriving DecidableEq, Repr

/-- A signature record.  Inception and expiration are 32-bit seconds since the epoch. -/
structure RRSIG where
  typeCovered : RecordType
  algorithm : UInt8
  numLabels : UInt8
  originalTtl : UInt32
  sigExpiration : UInt32
  sigInception : UInt32
  keyTag : UInt16
  signerName : Name
  sig : List UInt8
  deriving DecidableEq, Repr

structure NSEC where
  nextDomainName : Name
  typeBitMaps : List RecordType
  deriving DecidableEq, Repr

structure NSEC3 where
  hashAlgorithm : UInt8
  optOut : Bool
  iterations : UInt16
  salt : List UInt8
  nextHashedOwnerName : List UInt8
  typeBitMaps : List RecordType
  deriving DecidableEq, Repr

/-! ## Records -/

inductive RData where
  | a (addr : BitVec 32)
  | aaaa (addr : BitVec 128)
  | ns (target : Name)
  | cname (target : Name)
  | ptr (target : Name)
  | soa (minimum : Nat) (rest : List UInt8)
  | dnskey (key : DNSKEY)
  | ds (ds : DS)
  | rrsig (sig : RRSIG)
  | nsec (nsec : NSEC)
  | nsec3 (nsec3 : NSEC3)
  | update0 (rtype : RecordType)
  | other (rtype : RecordType) (octets : List UInt8)
  deriving DecidableEq, Repr

def RData.recordType : RData → RecordType
  | .a _ => .A
  | .aaaa _ => .AAAA
  | .ns _ => .NS
  | .cname _ => .CNAME
  | .ptr _ => .PTR
  | .soa _ _ => .SOA
  | .dnskey _ => .DNSKEY
  | .ds _ => .DS
  | .rrsig _ => .RRSIG
  | .nsec _ => .NSEC
  | .nsec3 _ => .NSEC3
  | .update0 t => t
  | .other t _ => t

structure Record where
  name : Name
  dnsClass : DNSClass := .IN
  ttl : Nat
  data : RData
  deriving DecidableEq, Repr

namespace Record

def recordType (r : Record) : RecordType := r.data.recordType

def rrsig? (r : Record) : Option RRSIG :=
  match r.data with
  | .rrsig s => some s
  | _ => none

def ds? (r : Record) : Option DS :=
  match r.data with
  | .ds d => some d
  | _ => none

def dnskey? (r : Record) : Option DNSKEY :=
  match r.data with
  | .dnskey k => some k
  | _ => none

def addr? (r : Record) : Option IpAddr :=
  match r.data with
  | .a v4 => some (.v4 v4)
  | .aaaa v6 => some (.v6 v6)
  | _ => none

theorem rrsig?_eq_some {r : Record} {s : RRSIG} : r.rrsig? = some s ↔ r.data = .rrsig s := by
  unfold rrsig?
  split <;> simp_all

theorem addr?_eq_some {r : Record} {ip : IpAddr} : r.addr? = some ip ↔
    r.data = match ip with
      | .v4 v4 => .a v4
      | .v6 v6 => .aaaa v6 := by
  unfold addr?
  cases ip <;> split <;> simp_all

end Record

/-! ## Messages -/

structure Query where
  name : Name
  queryType : RecordType
  queryClass : DNSClass := .IN
  deriving DecidableEq, Repr

structure Message where
  id : UInt16 := 0
  opCode : OpCode := .query
  authoritative : Bool := false
  truncation : Bool := false
  recursionDesired : Bool := false
  recursionAvailable : Bool := false
  authenticData : Bool := false
  responseCode : ResponseCode := .noError
  queries : List Query := []
  answers : List Record := []
  authorities : List Record := []
  additionals : List Record := []
  /-- The info-code of an extended DNS error option. -/
  ede : Option UInt16 := none
  deriving DecidableEq, Repr

namespace Record

def lowercaseName (r : Record) : Record := { r with name := r.name.toLowercase }

@[simp] theorem lowercaseName_data (r : Record) : r.lowercaseName.data = r.data := rfl

@[simp] theorem lowercaseName_name (r : Record) : r.lowercaseName.name = r.name.toLowercase := rfl

end Record

/-- Names in record data in lower case; opaque data is left as it is. -/
def RData.toLowercase : RData → RData
  | .ns target => .ns target.toLowercase
  | .cname target => .cname target.toLowercase
  | .ptr target => .ptr target.toLowercase
  | .rrsig s => .rrsig { s with signerName := s.signerName.toLowercase }
  | .nsec n => .nsec { n with nextDomainName := n.nextDomainName.toLowercase }
  | data => data

namespace Record

/-- Equality of records: names count up to case, and the time to live does not count. -/
def same (a b : Record) : Bool :=
  a.name.same b.name && a.dnsClass == b.dnsClass && a.data.toLowercase == b.data.toLowercase

@[simp] theorem same_lowercaseName (a b : Record) : a.lowercaseName.same b.lowercaseName = a.same b := by
  simp [same, lowercaseName]

end Record

namespace Message

def response (id : UInt16) (op : OpCode) : Message := { id := id, opCode := op }

/-- `lowercase_response_names`: owner names of all four sections; RDATA is left alone. -/
def lowercaseResponseNames (m : Message) : Message :=
  { m with
    queries := m.queries.map fun q => { q with name := q.name.toLowercase }
    answers := m.answers.map Record.lowercaseName
    authorities := m.authorities.map Record.lowercaseName
    additionals := m.additionals.map Record.lowercaseName }

end Message

end Dnsd.Proto
