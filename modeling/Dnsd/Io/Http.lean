/-
# Http — the HTTP/1.1 subset of the DoH listener (`doh.rs`).

`parse_request_head` and `validate_framing` as functions of octets: the separators are ASCII, so splitting
text that is valid UTF-8 at them is splitting its octets.  `findSubsequence` looks for the end of a head.
-/
import Dnsd.Upstream.Wire

namespace Dnsd.Io

open List

open Upstream (Bytes)

variable {hay needle : Bytes} {i : Nat}

def text (s : String) : Bytes := s.toUTF8.data.toList

/-! ## Octets -/

/-- `str::from_utf8`: `need` octets of a character are still to come, the first of them within `lo` and
`hi`. -/
def utf8From (need : Nat) (lo hi : UInt8) : Bytes → Bool
  | [] => need == 0
  | b :: bs =>
      if need ≠ 0 then lo ≤ b && b ≤ hi && utf8From (need - 1) 0x80 0xBF bs
      else if b < 0x80 then utf8From 0 0x80 0xBF bs
      else if b < 0xC2 then false
      else if b < 0xE0 then utf8From 1 0x80 0xBF bs
      -- Neither overlong forms nor surrogates nor anything above U+10FFFF.
      else if b < 0xF0 then utf8From 2 (if b = 0xE0 then 0xA0 else 0x80) (if b = 0xED then 0x9F else 0xBF) bs
      else if b < 0xF5 then utf8From 3 (if b = 0xF0 then 0x90 else 0x80) (if b = 0xF4 then 0x8F else 0xBF) bs
      else false

def isUtf8 (bytes : Bytes) : Bool := utf8From 0 0x80 0xBF bytes

/-- `split("\r\n")`. -/
def splitCrlf : Bytes → List Bytes
  | [] => [[]]
  | 13 :: 10 :: bs => [] :: splitCrlf bs
  | b :: bs =>
      match splitCrlf bs with
      | [] => [[b]]
      | l :: ls => (b :: l) :: ls

def splitOnce (sep : UInt8) (bytes : Bytes) : Option (Bytes × Bytes) :=
  match bytes.span (· ≠ sep) with
  | (_, []) => none
  | (before, _ :: after) => some (before, after)

def stripPrefix (before bytes : Bytes) : Option Bytes :=
  if before.isPrefixOf bytes then some (bytes.drop before.length) else none

def isOws (b : UInt8) : Bool := b = 0x20 || b = 0x09

def trimOws (bytes : Bytes) : Bytes := ((bytes.dropWhile isOws).reverse.dropWhile isOws).reverse

def toAsciiLowercase (bytes : Bytes) : Bytes :=
  bytes.map fun b => if 0x41 ≤ b ∧ b ≤ 0x5A then b + 0x20 else b

def eqIgnoreAsciiCase (a b : Bytes) : Bool := toAsciiLowercase a = toAsciiLowercase b

def findSubsequence (needle : Bytes) : Bytes → Option Nat
  | [] => if needle = [] then some 0 else none
  | b :: bs =>
      if needle.isPrefixOf (b :: bs) then some 0 else (findSubsequence needle bs).map (· + 1)

def OccursAt (needle hay : Bytes) (i : Nat) : Prop := needle <+: hay.drop i

theorem findSubsequence_eq_some_iff :
    findSubsequence needle hay = some i ↔ OccursAt needle hay i ∧ i ≤ hay.length ∧
      ∀ j < i, ¬ OccursAt needle hay j := by
  induction hay generalizing i with
  | nil =>
    unfold findSubsequence OccursAt
    by_cases h : needle = []
    · rw [if_pos h]
      constructor
      · rintro ⟨⟩
        exact ⟨by simp [h], Nat.le_refl 0, fun j hj => absurd hj (Nat.not_lt_zero j)⟩
      · rintro ⟨_, hi, _⟩
        rw [Nat.le_zero.mp hi]
    · rw [if_neg h]
      constructor
      · nofun
      · rintro ⟨hocc, _⟩
        exact absurd (by simpa using hocc) h
  | cons b bs ih =>
    unfold findSubsequence
    by_cases h : needle.isPrefixOf (b :: bs)
    · rw [if_pos h]
      have hzero : OccursAt needle (b :: bs) 0 := isPrefixOf_iff_prefix.mp h
      constructor
      · rintro ⟨⟩
        exact ⟨hzero, Nat.zero_le _, fun j hj => absurd hj (Nat.not_lt_zero j)⟩
      · rintro ⟨_, _, hfirst⟩
        rcases Nat.eq_zero_or_pos i with rfl | hpos
        · rfl
        · exact absurd hzero (hfirst 0 hpos)
    · rw [if_neg h]
      have hzero : ¬ OccursAt needle (b :: bs) 0 := fun hocc =>
        h ( isPrefixOf_iff_prefix.mpr hocc)
      constructor
      · intro hfind
        obtain ⟨k, hk, rfl⟩ := Option.map_eq_some_iff.mp hfind
        obtain ⟨hocc, hle, hfirst⟩ := ih.mp hk
        refine ⟨hocc, Nat.succ_le_succ hle, fun j hj => ?_⟩
        cases j with
        | zero => exact hzero
        | succ j => exact hfirst j (Nat.lt_of_succ_lt_succ hj)
      · rintro ⟨hocc, hle, hfirst⟩
        cases i with
        | zero => exact absurd hocc hzero
        | succ i =>
          refine Option.map_eq_some_iff.mpr ⟨i, ih.mpr ⟨hocc, Nat.le_of_succ_le_succ hle, ?_⟩, rfl⟩
          exact fun j hj => hfirst (j + 1) (Nat.succ_lt_succ hj)

theorem findSubsequence_eq_none (h : findSubsequence needle hay = none) (hi : i ≤ hay.length) :
    ¬ OccursAt needle hay i := by
  induction hay generalizing i with
  | nil =>
    unfold findSubsequence at h
    unfold OccursAt
    intro hocc
    rw [drop_nil, prefix_nil] at hocc
    rw [if_pos hocc] at h
    nomatch h
  | cons b bs ih =>
    unfold findSubsequence at h
    split at h
    · nomatch h
    rename_i hzero
    cases i with
    | zero => exact fun hocc => hzero ( isPrefixOf_iff_prefix.mpr hocc)
    | succ i => exact ih (Option.map_eq_none_iff.mp h) (Nat.le_of_succ_le_succ hi)

theorem OccursAt.of_append {more : Bytes} (h : OccursAt needle (hay ++ more) i)
    (hi : i + needle.length ≤ hay.length) : OccursAt needle hay i := by
  unfold OccursAt at h ⊢
  rw [drop_append_of_le_length (by omega)] at h
  exact prefix_of_prefix_length_le h (prefix_append ..) (by rw [length_drop]; omega)

theorem OccursAt.append (h : OccursAt needle hay i) (hi : i ≤ hay.length) (more : Bytes) :
    OccursAt needle (hay ++ more) i := by
  unfold OccursAt at h ⊢
  rw [drop_append_of_le_length hi]
  exact h.trans (prefix_append ..)

theorem findSubsequence_drop {start : Nat} (hnone : ∀ j < start, ¬ OccursAt needle hay j)
    (hstart : start ≤ hay.length) (h : findSubsequence needle (hay.drop start) = some i) :
    findSubsequence needle hay = some (start + i) := by
  obtain ⟨hocc, hle, hfirst⟩ := findSubsequence_eq_some_iff.mp h
  rw [length_drop] at hle
  unfold OccursAt at hocc hfirst
  simp only [drop_drop] at hocc hfirst
  refine findSubsequence_eq_some_iff.mpr ⟨hocc, by omega, fun j hj => ?_⟩
  by_cases hj' : j < start
  · exact hnone j hj'
  · have := hfirst (j - start) (by omega)
    rwa [Nat.add_sub_cancel' (by omega)] at this

theorem findSubsequence_take (h : findSubsequence needle hay = some i) :
    findSubsequence needle (hay.take (i + needle.length)) = some i := by
  obtain ⟨hocc, hle, hfirst⟩ := findSubsequence_eq_some_iff.mp h
  have hlen : i + needle.length ≤ hay.length := by
    have := hocc.length_le
    rw [length_drop] at this
    omega
  have hsplit : hay.take (i + needle.length) ++ hay.drop (i + needle.length) = hay :=
    take_append_drop ..
  have htake : (hay.take (i + needle.length)).length = i + needle.length := by
    rw [length_take]
    omega
  refine findSubsequence_eq_some_iff.mpr ⟨?_, by omega, fun j hj hocc' => ?_⟩
  · rw [← hsplit] at hocc
    exact hocc.of_append (by omega)
  · exact hfirst j hj (hsplit ▸ hocc'.append (by omega) _)

/-! ## The request head -/

abbrev Headers := List (Bytes × Bytes)

structure RequestHead where
  method : Bytes
  path : Bytes
  headers : Headers
  deriving DecidableEq, Repr

/-- Why `parse_request_head` turns a head away. -/
inductive HeadError where
  | notUtf8
  | emptyHead
  | noMethod
  | noPath
  | noVersion
  | extraTokens
  | unsupportedVersion (version : Bytes)
  | invalidMethod (method : Bytes)
  | invalidPath
  | emptyLine
  | lineFolded
  | missingColon (line : Bytes)
  | invalidHeaderName (name : Bytes)
  | ctlInValue
  deriving DecidableEq, Repr

def isTokenChar (b : UInt8) : Bool :=
  (text "!#$%&'*+-.^_`|~").contains b || (0x30 ≤ b && b ≤ 0x39) || (0x41 ≤ b && b ≤ 0x5A) ||
    (0x61 ≤ b && b ≤ 0x7A)

def isToken (bytes : Bytes) : Bool := !bytes.isEmpty && bytes.all isTokenChar

def parseHeaderLine (line : Bytes) : Except HeadError (Bytes × Bytes) :=
  if line.isEmpty then .error .emptyLine
  else if line.head?.any isOws then .error .lineFolded
  else
    match splitOnce 0x3A line with
    | none => .error (.missingColon line)
    | some (name, value) =>
        if !isToken name then .error (.invalidHeaderName name)
        else if (trimOws value).any fun b => b = 0 || b = 0x0D || b = 0x0A then .error .ctlInValue
        else .ok (toAsciiLowercase name, trimOws value)

/-- `METHOD SP PATH SP HTTP/1.1`. -/
def parseRequestLine (line : Bytes) : Except HeadError (Bytes × Bytes) :=
  match line.splitOn 0x20 with
  | [] => .error .noMethod
  | [_] => .error .noPath
  | [_, _] => .error .noVersion
  | [method, path, version] =>
      if version ≠ text "HTTP/1.1" then .error (.unsupportedVersion version)
      else if !isToken method then .error (.invalidMethod method)
      else if path.isEmpty || path.any fun b => b < 0x20 || b = 0x7F then .error .invalidPath
      else .ok (method, path)
  | _ => .error .extraTokens

def parseRequestHead (bytes : Bytes) : Except HeadError RequestHead :=
  if !isUtf8 bytes then .error .notUtf8
  else
    match splitCrlf bytes with
    | [] => .error .emptyHead
    | first :: lines => do
        let (method, path) ← parseRequestLine first
        let headers ← lines.mapM parseHeaderLine
        return { method, path, headers }

/-! ## Headers -/

inductive FramingError where
  | transferEncoding
  | trailer
  | multipleContentLength
  deriving DecidableEq, Repr

def validateFraming (headers : Headers) : Except FramingError Unit :=
  if headers.any fun h => h.1 = text "transfer-encoding" then .error .transferEncoding
  else if headers.any fun h => h.1 = text "trailer" then .error .trailer
  else if (headers.filter fun h => h.1 = text "content-length").length > 1 then
    .error .multipleContentLength
  else .ok ()

/-- `str::parse` for digits, as a `usize`. -/
def parseUsize (digits : Bytes) : Option Nat :=
  let n := digits.foldl (fun n b => 10 * n + (b.toNat - 0x30)) 0
  if n < 2 ^ 64 then some n else none

def contentLength (headers : Headers) : Option Nat :=
  match headers.find? fun h => h.1 = text "content-length" with
  | none => none
  | some (_, v) =>
      if v.isEmpty || v.any fun b => !(0x30 ≤ b && b ≤ 0x39) then none else parseUsize v

def contentTypeIsDnsMessage (headers : Headers) : Bool :=
  headers.any fun h => h.1 = text "content-type" && h.2 = text "application/dns-message"

def clientCloses (headers : Headers) : Bool :=
  headers.any fun h => h.1 = text "connection" && eqIgnoreAsciiCase h.2 (text "close")

/-! ## The request target -/

def sextet? (b : UInt8) : Option Nat :=
  if 0x41 ≤ b && b ≤ 0x5A then some (b.toNat - 0x41)
  else if 0x61 ≤ b && b ≤ 0x7A then some (b.toNat - 0x61 + 26)
  else if 0x30 ≤ b && b ≤ 0x39 then some (b.toNat - 0x30 + 52)
  else if b = 0x2D then some 62
  else if b = 0x5F then some 63
  else none

/-- `BASE64_URL_SAFE_NO_PAD.decode`: no padding, and no stray bits in the last character. -/
def decodeBase64Url : Bytes → Option Bytes
  | [] => some []
  | [_] => none
  | [a, b] =>
      match sextet? a, sextet? b with
      | some a, some b => if b % 16 = 0 then some [UInt8.ofNat (a * 4 + b / 16)] else none
      | _, _ => none
  | [a, b, c] =>
      match sextet? a, sextet? b, sextet? c with
      | some a, some b, some c =>
          if c % 4 = 0 then some [UInt8.ofNat (a * 4 + b / 16), UInt8.ofNat (b * 16 + c / 4)] else none
      | _, _, _ => none
  | a :: b :: c :: d :: rest =>
      match sextet? a, sextet? b, sextet? c, sextet? d, decodeBase64Url rest with
      | some a, some b, some c, some d, some bytes =>
          some (UInt8.ofNat (a * 4 + b / 16) :: UInt8.ofNat (b * 16 + c / 4) ::
            UInt8.ofNat (c * 64 + d) :: bytes)
      | _, _, _, _, _ => none

/-- `dns_param_from_query`: the first `dns` parameter counts. -/
def dnsParamFromQuery (query : Bytes) : Option Bytes :=
  ((query.splitOn 0x26).findSome? (stripPrefix (text "dns="))).bind decodeBase64Url

def parseGetDnsParam (path : Bytes) : Option Bytes :=
  (splitOnce 0x3F path).bind fun p => dnsParamFromQuery p.2

def constantTimeEq (a b : Bytes) : Bool :=
  a.length = b.length && (a.zip b).foldl (fun diff p => diff ||| (p.1 ^^^ p.2)) 0 = 0

def dohPathAuthorized (path : Bytes) : Option String → Bool
  | none => path = text "/dns-query"
  | some token =>
      match stripPrefix (text "/dns-query/") path with
      | some got => constantTimeEq got (text token)
      | none => false

/-! ## Responses -/

def connectionLine (close : Bool) : Bytes :=
  text "connection: " ++ text (if close then "close" else "keep-alive") ++ text "\r\n"

def contentLengthLine (body : Bytes) : Bytes :=
  text "content-length: " ++ text (toString body.length) ++ text "\r\n"

/-- The octets that `send_simple` writes. -/
def simpleResponse (status : Nat) (reason : String) (body : String) (close : Bool) : Bytes :=
  text "HTTP/1.1 " ++ text (toString status) ++ text " " ++ text reason ++ text "\r\n" ++
    text "content-type: text/plain\r\n" ++ contentLengthLine (text body) ++ connectionLine close ++
    text "\r\n" ++ text body

/-- The octets that `send_dns_response` writes. -/
def dnsResponse (body : Bytes) (ttl : Nat) (close : Bool) : Bytes :=
  text "HTTP/1.1 200 OK\r\n" ++ text "content-type: application/dns-message\r\n" ++
    contentLengthLine body ++
    (if ttl > 0 then text "cache-control: max-age=" ++ text (toString ttl) ++ text "\r\n" else []) ++
    connectionLine close ++ text "\r\n" ++ body

end Dnsd.Io
