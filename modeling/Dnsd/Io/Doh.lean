/-
# Doh — a DoH connection over HTTP/1.1 (`serve_one` of `doh.rs`).

The loop reads a request head, hands the query to the handler and writes the response, up to
`MAX_REQS_PER_CONN` times; what has been read past a request stays in `pending`.  Every error closes the
connection.  `parsing` is a ghost operation: it marks the octets that `parse_request_head` is called on.
-/
import Dnsd.Io.Http
import Dnsd.Io.Listener

namespace Dnsd.Io.Doh

open Lib List
open Upstream (Bytes)

def maxHeaderBytes : Nat := 8192

def maxBodyBytes : Nat := 65535

/-- `REQUEST_READ_TIMEOUT`, in seconds. -/
def requestReadTimeout : Nat := 8

/-- `KEEP_ALIVE_IDLE_TIMEOUT`, in seconds. -/
def keepAliveIdleTimeout : Nat := 30

def maxReqsPerConn : Nat := 1000

/-! ## Operations -/

inductive Op where
  /-- Whether the deadline has passed. -/
  | struck (seconds : Nat)
  | read (max : Nat)
  | write (octets : Bytes)
  | allows
  | authToken
  | handle (query : Bytes)
  | parsing (head : Bytes)
  deriving DecidableEq, Repr

/-- The answers.  A read gives what arrived, nothing at the end of the stream, and `none` if it fails; a
write says whether it worked. -/
def Op.Res : Op → Type
  | .struck _ => Bool
  | .read _ => Option Bytes
  | .write _ => Bool
  | .allows => Bool
  | .authToken => Option String
  | .handle _ => Option Bytes
  | .parsing _ => Unit

def Possible : (o : Op) → o.Res → Prop
  | .read max, some b => b.length ≤ max
  | _, _ => True

abbrev DohProg := Prog Op Op.Res

def call (o : Op) : DohProg o.Res := Prog.perform o

inductive ConnError where
  | headerTimeout
  | headersExceeded
  | readingHeaders
  | eofBeforeHeaders
  | head (e : HeadError)
  | framing (e : FramingError)
  | aclDenied
  | unauthorizedPath
  | badGet
  | badContentType
  | badContentLength
  | bodyTooLarge
  | readingBody
  | eofMidBody
  | badMethod
  | malformedDns
  | errorWrite
  | responseWrite
  deriving DecidableEq, Repr

/-! ## Reading -/

def doubleCrlf : Bytes := [13, 10, 13, 10]

def readUntilDoubleCrlf (fuel : Nat) (buf : Bytes) (searchFrom : Nat) :
    DohProg (Except ConnError (Bytes × Nat)) :=
  match findSubsequence doubleCrlf (buf.drop searchFrom) with
  | some pos => return .ok (buf, searchFrom + pos + doubleCrlf.length)
  | none =>
      if buf.length ≥ maxHeaderBytes then return .error .headersExceeded
      else
        match fuel with
        | 0 => return .error .headersExceeded
        | fuel + 1 => do
            let chunk : Option Bytes ← call (.read 1024)
            match chunk with
            | none => return .error .readingHeaders
            | some [] => return .error .eofBeforeHeaders
            | some (b :: bs) => readUntilDoubleCrlf fuel (buf ++ b :: bs) (buf.length - 3)

theorem readUntilDoubleCrlf_fuel {fuel : Nat} {buf : Bytes} {searchFrom : Nat}
    (h : maxHeaderBytes ≤ fuel + buf.length) :
    readUntilDoubleCrlf (fuel + 1) buf searchFrom = readUntilDoubleCrlf fuel buf searchFrom := by
  induction fuel generalizing buf searchFrom with
  | zero =>
    unfold readUntilDoubleCrlf
    split
    · rfl
    · rw [if_pos (by omega), if_pos (by omega)]
  | succ fuel ih =>
    unfold readUntilDoubleCrlf
    split
    · rfl
    split
    · rfl
    · refine congrArg (Prog.op (Op.read 1024)) (funext fun chunk => ?_)
      match chunk with
      | none => rfl
      | some [] => rfl
      | some (b :: bs) => exact ih (by simp only [length_append, length_cons]; omega)

def readBody (fuel : Nat) (length : Nat) (body : Bytes) : DohProg (Except ConnError Bytes) :=
  if body.length ≥ length then return .ok body
  else
    match fuel with
    | 0 => return .error .eofMidBody
    | fuel + 1 => do
        let chunk : Option Bytes ← call (.read (length - body.length))
        match chunk with
        | none => return .error .readingBody
        | some [] => return .error .eofMidBody
        | some (b :: bs) => readBody fuel length (body ++ b :: bs)

theorem readBody_fuel {fuel length : Nat} {body : Bytes} (h : length ≤ fuel + body.length) :
    readBody (fuel + 1) length body = readBody fuel length body := by
  induction fuel generalizing body with
  | zero =>
    unfold readBody
    rw [if_pos (by omega), if_pos (by omega)]
  | succ fuel ih =>
    unfold readBody
    split
    · rfl
    refine congrArg (Prog.op (Op.read (length - body.length))) (funext fun chunk => ?_)
    match chunk with
    | none => rfl
    | some [] => rfl
    | some (b :: bs) => exact ih (by simp only [length_append, length_cons]; omega)

/-! ## One request -/

/-- `send_simple`, and then the connection is closed. -/
def reject {α : Type} (status : Nat) (reason body : String) (e : ConnError) :
    DohProg (Except ConnError α) := do
  let written : Bool ← call (.write (simpleResponse status reason body true))
  return .error (if written then e else .errorWrite)

def takeQuery (req : RequestHead) (bodySeed : Bytes) : DohProg (Except ConnError (Bytes × Bytes)) :=
  if req.method = text "GET" then
    match parseGetDnsParam req.path with
    | some query => return .ok (query, bodySeed)
    | none => reject 400 "Bad Request" "missing or malformed dns= parameter\n" .badGet
  else if req.method = text "POST" then
    if !contentTypeIsDnsMessage req.headers then
      reject 415 "Unsupported Media Type" "expected application/dns-message\n" .badContentType
    else
      match contentLength req.headers with
      | none => return .error .badContentLength
      | some length =>
          if length > maxBodyBytes then reject 413 "Payload Too Large" "DoH body cap\n" .bodyTooLarge
          else if bodySeed.length ≥ length then
            return .ok (bodySeed.take length, bodySeed.drop length)
          else do
            let body ← readBody length length bodySeed
            return body.map fun body => (body, [])
  else reject 405 "Method Not Allowed" "GET or POST\n" .badMethod

def minTtlFromResponse (codec : Codec) (bytes : Bytes) : Option Nat :=
  (codec.fromBytes bytes).bind fun m => (m.answers.map fun r => r.ttl).min?

def handleRequest (codec : Codec) (req : RequestHead) (bodySeed : Bytes) (close : Bool) :
    DohProg (Except ConnError Bytes) := do
  let allowed : Bool ← call .allows
  if !allowed then reject 403 "Forbidden" "ACL\n" .aclDenied
  else
    let token : Option String ← call .authToken
    if !dohPathAuthorized (req.path.takeWhile (· ≠ 0x3F)) token then
      reject 404 "Not Found" "\n" .unauthorizedPath
    else
      let taken ← takeQuery req bodySeed
      match taken with
      | .error e => return .error e
      | .ok (query, pending) =>
          let response : Option Bytes ← call (.handle query)
          match response with
          | none => reject 400 "Bad Request" "malformed DNS query\n" .malformedDns
          | some response =>
              let ttl := (minTtlFromResponse codec response).getD 0
              let written : Bool ← call (.write (dnsResponse response ttl close))
              return if written then .ok pending else .error .responseWrite

/-! ## The connection -/

/-- The loop of `serve_one`, with `n` requests to go. -/
def serveRequests (codec : Codec) : Nat → Bytes → DohProg (Except ConnError Unit)
  | 0, _ => return .ok ()
  | n + 1, pending => do
      let first : Bool := n + 1 = maxReqsPerConn
      let timeout := if first then requestReadTimeout else keepAliveIdleTimeout
      let result ← (readUntilDoubleCrlf maxHeaderBytes pending 0).cancellable (.struck timeout) id
      match result with
      | none => return if first then .error .headerTimeout else .ok ()
      | some (.error e) =>
          -- The end of the stream between two requests is how a client closes.
          return if !first && e = .eofBeforeHeaders then .ok () else .error e
      | some (.ok (buf, headEnd)) =>
          call (.parsing (buf.take headEnd))
          match parseRequestHead (buf.take (headEnd - 4)) with
          | .error e => return .error (.head e)
          | .ok req =>
              match validateFraming req.headers with
              | .error e => return .error (.framing e)
              | .ok () =>
                  let close := clientCloses req.headers || n = 0
                  let handled ← handleRequest codec req (buf.drop headEnd) close
                  match handled with
                  | .error e => return .error e
                  | .ok pending => if close then return .ok () else serveRequests codec n pending

def serveOne (codec : Codec) : DohProg (Except ConnError Unit) := serveRequests codec maxReqsPerConn []

end Dnsd.Io.Doh
