/-
# LocalZones — names that are answered without asking anybody.

`local_zones.rs` compares the presentation form of a name with a list of suffixes and accepts a match that starts
after a dot.  A dot inside a label is written `\.`, so `toAscii` is spelled out.
-/
import Dnsd.Proto.Message

namespace Dnsd.Recursor

open Proto

def isSafeAscii (isFirst : Bool) (b : UInt8) : Bool :=
  (48 ≤ b && b ≤ 57) || (65 ≤ b && b ≤ 90) || (97 ≤ b && b ≤ 122)
    || (b == 45 && !isFirst) || b == 95 || (b == 42 && isFirst)

def escapeOctet (isFirst : Bool) (b : UInt8) : List UInt8 :=
  if isSafeAscii isFirst b then [b]
  else if 32 < b ∧ b < 127 then [92, b]
  else [92, 48 + b / 64, 48 + b / 8 % 8, 48 + b % 8]

def labelAscii : Label → List UInt8
  | [] => []
  | b :: bs => escapeOctet true b ++ bs.flatMap (escapeOctet false)

def toAscii (n : Name) : List UInt8 :=
  if n.labels.isEmpty then [46] else n.labels.flatMap fun l => labelAscii l ++ [46]

def arpa : Label := [97, 114, 112, 97]
def inAddr : Label := [105, 110, 45, 97, 100, 100, 114]
def ip6 : Label := [105, 112, 54]
def home : Label := [104, 111, 109, 101]

def decimal (n : Nat) : Label :=
  if n < 10 then [48 + UInt8.ofNat n]
  else if n < 100 then [48 + UInt8.ofNat (n / 10), 48 + UInt8.ofNat (n % 10)]
  else [48 + UInt8.ofNat (n / 100), 48 + UInt8.ofNat (n / 10 % 10), 48 + UInt8.ofNat (n % 10)]

def inAddrArpa (octets : List Nat) : Name := ⟨octets.map decimal ++ [inAddr, arpa]⟩

def ip6Arpa (nibbles : List UInt8) : Name := ⟨nibbles.map (fun b => [b]) ++ [ip6, arpa]⟩

def privateIpv4Arpa : List Name :=
  [inAddrArpa [10]] ++ ((List.range' 16 16).map fun n => inAddrArpa [n, 172]) ++
    [inAddrArpa [168, 192], inAddrArpa [254, 169], inAddrArpa [0], inAddrArpa [127],
      inAddrArpa [2, 0, 192], inAddrArpa [100, 51, 198], inAddrArpa [113, 0, 203],
      inAddrArpa [255, 255, 255, 255]]

/-- `PRIVATE_IPV6_ARPA`: `d.f`, `c.f`, `8.e.f`, `9.e.f`, `a.e.f`, `b.e.f` and `8.b.d.0.1.0.0.2`. -/
def privateIpv6Arpa : List Name :=
  [ip6Arpa [100, 102], ip6Arpa [99, 102], ip6Arpa [56, 101, 102], ip6Arpa [57, 101, 102],
    ip6Arpa [97, 101, 102], ip6Arpa [98, 101, 102],
    ip6Arpa [56, 98, 100, 48, 49, 48, 48, 50]]

def specialUseTlds : List Name := [⟨[home, arpa]⟩]

/-- `s` is `z` or ends in `.z`. -/
def endsAtDot (s z : List UInt8) : Bool :=
  s == z || (decide (z.length < s.length) && z.isSuffixOf s
    && (s.take (s.length - z.length)).getLast? == some 46)

def isPrivateReverse (qname : Name) : Bool :=
  let s := toAscii qname.toLowercase
  (privateIpv4Arpa ++ privateIpv6Arpa ++ specialUseTlds).any fun z => endsAtDot s (toAscii z)

example : isPrivateReverse (inAddrArpa [1, 2, 10]) = true ∧
    isPrivateReverse (inAddrArpa [1, 32, 172]) = false := by decide

end Dnsd.Recursor
