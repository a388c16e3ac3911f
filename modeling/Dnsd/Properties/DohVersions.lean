/-
# DohVersions — one DoH request over HTTP/1.1 and over HTTP/2.

`handle_h2_request` of `doh.rs` up to the dispatch, beside `handle_request`.  The two differ for a POST only: a
repeated Content-Type counts over HTTP/1.1 if any of its values is right, over HTTP/2 if the first one is; and a
body over `MAX_BODY_BYTES` gets 413 over HTTP/1.1, and no response over HTTP/2.
-/
import Dnsd.Properties.DohSplits
import Dnsd.Properties.HeadGrammar

namespace Dnsd.Io.Doh

open Lib List
open Upstream (Bytes)

inductive Outcome where
  | dispatched (query : Bytes)
  | rejected (status : Bytes)
  | dropped
  deriving DecidableEq, Repr

def Outcome.withStatus (status : Nat) : Outcome := .rejected (text (toString status))

def outcome : List Op → Outcome
  | [] => .dropped
  | .handle query :: _ => .dispatched query
  | .write octets :: _ => .rejected ((octets.drop (text "HTTP/1.1 ").length).take 3)
  | _ :: log => outcome log

structure H2Request where
  method : Bytes
  path : Bytes
  query : Option Bytes
  headers : Headers
  frames : List Bytes

def H2Request.head (req : H2Request) : RequestHead :=
  ⟨req.method, req.path ++ req.query.elim [] (0x3F :: ·), req.headers⟩

def readH2Body (buf : Bytes) : List Bytes → Option Bytes
  | [] => some buf
  | chunk :: frames =>
      if buf.length + chunk.length > maxBodyBytes then none else readH2Body (buf ++ chunk) frames

/-- `HeaderMap::get` finds the first value. -/
def firstContentType (headers : Headers) : Option Bytes :=
  (headers.find? fun h => h.1 = text "content-type").map Prod.snd

/-- `handle_h2_request`, to the dispatch. -/
def handleH2Request (allowed : Bool) (token : Option String) (req : H2Request) : Outcome :=
  if !allowed then .withStatus 403
  else if !dohPathAuthorized req.path token then .withStatus 404
  else if req.method = text "GET" then
    match req.query.bind dnsParamFromQuery with
    | some query => .dispatched query
    | none => .withStatus 400
  else if req.method = text "POST" then
    if firstContentType req.headers ≠ some (text "application/dns-message") then .withStatus 415
    else
      match readH2Body [] req.frames with
      | some body => .dispatched body
      | none => .dropped
  else .withStatus 405

theorem readH2Body_eq {buf : Bytes} {frames : List Bytes} (h : buf.length ≤ maxBodyBytes) :
    readH2Body buf frames =
      if (buf ++ frames.flatten).length ≤ maxBodyBytes then some (buf ++ frames.flatten) else none := by
  induction frames generalizing buf with
  | nil =>
    rw [flatten_nil, append_nil, if_pos h]
    rfl
  | cons chunk frames ih =>
    unfold readH2Body
    rw [flatten_cons, ← append_assoc]
    split
    · rw [if_neg (by simp only [length_append]; omega)]
    · exact ih (by rw [length_append]; omega)

theorem contentTypeIsDnsMessage_of_first {headers : Headers}
    (h : firstContentType headers = some (text "application/dns-message")) :
    contentTypeIsDnsMessage headers = true := by
  obtain ⟨x, hx, hvalue⟩ := Option.map_eq_some_iff.mp h
  refine any_eq_true.mpr ⟨x, mem_of_find?_eq_some hx, ?_⟩
  rw [hvalue, List.find?_some hx, decide_eq_true rfl, Bool.and_self]

theorem H2Request.takeWhile_head {req : H2Request} (h : 0x3F ∉ req.path) :
    req.head.path.takeWhile (· ≠ 0x3F) = req.path := by
  have hall : ∀ b ∈ req.path, decide (b ≠ 0x3F) = true := fun b hb => decide_eq_true fun heq => h (heq ▸ hb)
  rw [H2Request.head, takeWhile_append_of_pos hall]
  cases req.query <;> simp

theorem H2Request.parseGetDnsParam_head {req : H2Request} (h : 0x3F ∉ req.path) :
    parseGetDnsParam req.head.path = req.query.bind dnsParamFromQuery := by
  unfold parseGetDnsParam H2Request.head
  cases req.query with
  | some query =>
    rw [show splitOnce 0x3F (req.path ++ (some query).elim [] (0x3F :: ·)) = some (req.path, query) from
      splitOnce_eq_some_iff.mpr ⟨h, rfl⟩]
    rfl
  | none =>
    cases hsplit : splitOnce 0x3F (req.path ++ Option.elim none [] (0x3F :: ·)) with
    | none => rfl
    | some p =>
      obtain ⟨-, hp⟩ := splitOnce_eq_some_iff.mp hsplit
      refine absurd ?_ h
      rw [Option.elim_none, append_nil] at hp
      rw [hp]
      simp

variable {env : List Op → (o : Op) → o.Res} {c : Conn}

theorem exec_takeQuery {req : RequestHead} {seed body later : Bytes} (hpost : req.method = text "POST")
    (htype : contentTypeIsDnsMessage req.headers = true) (hlength : contentLength req.headers = some body.length)
    (hmax : body.length ≤ maxBodyBytes) (hstream : seed ++ c.feed.unread = body ++ later) :
    ∃ rest feed, (takeQuery req seed).exec (answer env) c = (.ok (body, rest), ⟨feed, c.log⟩) := by
  have hget : req.method ≠ text "GET" := by
    rw [hpost]
    decide
  unfold takeQuery
  rw [if_neg hget, if_pos hpost, htype, hlength]
  simp only [Bool.not_true, Bool.false_eq_true, if_false, if_neg (Nat.not_lt.mpr hmax)]
  by_cases hseed : seed.length ≥ body.length
  · rw [if_pos hseed]
    have htake := congrArg (List.take body.length) hstream
    rw [take_append_of_le_length hseed, take_left] at htake
    exact ⟨_, c.feed, congrArg (fun b => (Except.ok (b, _), c)) htake⟩
  · obtain ⟨feed, hexec, -⟩ := @exec_readBody env c body.length body.length seed (by omega) (by omega)
    rw [hstream, if_pos (by rw [length_append]; omega), take_left] at hexec
    rw [if_neg hseed, Prog.exec_bind, hexec]
    exact ⟨_, feed, rfl⟩

/-- The ACL and the path let a POST through, one of its Content-Types is right, and the first is not or the body is
too long. -/
def Diverges (allowed : Bool) (token : Option String) (req : H2Request) : Prop :=
  allowed = true ∧ dohPathAuthorized req.path token = true ∧ req.method = text "POST" ∧
    contentTypeIsDnsMessage req.headers = true ∧
      (firstContentType req.headers ≠ some (text "application/dns-message") ∨
        maxBodyBytes < req.frames.flatten.length)

theorem rejected_simpleResponse {status : Nat} (h : (text (toString status)).length = 3) (reason body : String) :
    Outcome.rejected (((simpleResponse status reason body true).drop (text "HTTP/1.1 ").length).take 3) =
      .withStatus status := by
  rw [simpleResponse, Outcome.withStatus]
  simp only [append_assoc, drop_left]
  rw [← h, take_left]

theorem outcome_respond (codec : Codec) (close : Bool) (query pending : Bytes) (feed : Feed UInt8)
    (response : Option Bytes) :
    outcome ((respond codec close pending response).exec (answer env)
      ⟨feed, [.allows, .authToken, .handle query]⟩).2.log = .dispatched query := by
  cases response <;> rfl

/-- Over HTTP/1.1, where the request is followed by `later`, and over HTTP/2 the same query is dispatched or the same
status is sent, except where they diverge. -/
theorem versions_agree_iff (codec : Codec) (close : Bool) (env : List Op → (o : Op) → o.Res) {req : H2Request}
    {seed later : Bytes} {feed : Feed UInt8} (hmethod : req.method = text "GET" ∨ req.method = text "POST")
    (hpath : 0x3F ∉ req.path)
    (hlength : req.method = text "POST" → contentLength req.headers = some req.frames.flatten.length)
    (hstream : seed ++ feed.unread = req.frames.flatten ++ later) :
    outcome ((handleRequest codec req.head seed close).exec (answer env) ⟨feed, []⟩).2.log =
      handleH2Request (env [] .allows) (env [.allows] .authToken) req ↔
        ¬ Diverges (env [] .allows) (env [.allows] .authToken) req := by
  show outcome (Prog.exec (answer env) (if !id (α := Bool) (env [] .allows) then _ else _) _).2.log = _ ↔ _
  unfold handleH2Request Diverges
  generalize env [] .allows = allowed
  cases allowed with
  | false => exact iff_of_true (rejected_simpleResponse (by decide +kernel) _ _) (by simp)
  | true =>
    show outcome (Prog.exec (answer env) (if !dohPathAuthorized (req.head.path.takeWhile (· ≠ 0x3F))
      (env [.allows] .authToken) then _ else _) _).2.log = _ ↔ _
    rw [H2Request.takeWhile_head hpath]
    cases dohPathAuthorized req.path (env [.allows] .authToken) with
    | false => exact iff_of_true (rejected_simpleResponse (by decide +kernel) _ _) (by simp)
    | true =>
      simp only [Bool.not_true, Bool.false_eq_true, if_false, true_and]
      rcases hmethod with hget | hpost
      · have hquery := H2Request.parseGetDnsParam_head hpath
        have hpost : req.method ≠ text "POST" := by
          rw [hget]
          decide
        refine iff_of_true ?_ fun h => hpost h.1
        have hhead : req.head.method = text "GET" := hget
        rw [if_pos hget, takeQuery, if_pos hhead, hquery]
        cases req.query.bind dnsParamFromQuery with
        | none => exact rejected_simpleResponse (by decide +kernel) _ _
        | some query => exact outcome_respond codec close query seed feed _
      · have hget : req.method ≠ text "GET" := by
          rw [hpost]
          decide
        have htaken : takeQuery req.head seed = _ := (if_neg hget).trans (if_pos hpost)
        rw [if_neg hget, if_pos hpost, readH2Body_eq (Nat.zero_le _), nil_append]
        cases htype : contentTypeIsDnsMessage req.headers with
        | false =>
          have hfirst : firstContentType req.headers ≠ some (text "application/dns-message") := by
            intro h
            rw [contentTypeIsDnsMessage_of_first h] at htype
            cases htype
          refine iff_of_true ?_ fun h => Bool.false_ne_true h.2.1
          rw [if_pos hfirst, htaken, show contentTypeIsDnsMessage req.head.headers = false from htype]
          exact rejected_simpleResponse (by decide +kernel) _ _
        | true =>
          by_cases hmax : req.frames.flatten.length ≤ maxBodyBytes
          · obtain ⟨rest, feed', hexec⟩ := @exec_takeQuery env (answer env (answer env ⟨feed, []⟩ .allows).2
              .authToken).2 req.head _ _ _ hpost htype (hlength hpost) hmax hstream
            refine (Eq.congr (?_ : _ = .dispatched req.frames.flatten) rfl).trans ?_
            · refine (congrArg (fun r : _ × Conn => outcome r.2.log) (Prog.exec_bind ..)).trans ?_
              rw [hexec]
              exact outcome_respond codec close _ rest feed' _
            · rw [if_pos hmax]
              split
              · exact iff_of_false nofun fun h => h ⟨hpost, rfl, .inl ‹_›⟩
              · exact iff_of_true rfl fun h => h.2.2.elim ‹_› (Nat.not_lt.mpr hmax)
          · refine (Eq.congr (?_ : _ = .withStatus 413) rfl).trans ?_
            · rw [htaken, show contentTypeIsDnsMessage req.head.headers = true from htype,
                show contentLength req.head.headers = _ from hlength hpost]
              simp only [Bool.not_true, Bool.false_eq_true, if_false, if_pos (Nat.lt_of_not_le hmax)]
              exact rejected_simpleResponse (by decide +kernel) _ _
            · refine iff_of_false ?_ fun h => h ⟨hpost, rfl, .inr (Nat.lt_of_not_le hmax)⟩
              rw [if_neg hmax]
              split
              · decide +kernel
              · nofun

def overHttp1 (req : H2Request) : Outcome :=
  outcome ((handleRequest wireCodec req.head req.frames.flatten true).exec (answer fun _ o => (arriving [] o).1)
    ⟨⟨[], fun _ => 0⟩, []⟩).2.log

def getOne : H2Request := ⟨text "GET", text "/dns-query", some (text "dns=AAAB"), [], []⟩

theorem versions_agree_iff_get : overHttp1 getOne = handleH2Request true none getOne :=
  (versions_agree_iff wireCodec true _ (.inl rfl) (by decide +kernel) (by decide +kernel) rfl).mpr
    fun h => absurd h.2.2.1 (by decide +kernel)

def postTwoTypes : H2Request :=
  ⟨text "POST", text "/dns-query", none, [(text "content-type", text "text/plain"),
    (text "content-type", text "application/dns-message"), (text "content-length", text "2")], [[0, 1]]⟩

theorem versions_disagree_twoTypes : validateFraming postTwoTypes.headers = .ok () ∧
    contentLength postTwoTypes.headers = some postTwoTypes.frames.flatten.length ∧
      overHttp1 postTwoTypes = .dispatched [0, 1] ∧ handleH2Request true none postTwoTypes = .withStatus 415 := by
  refine ⟨rfl, by decide +kernel, by decide +kernel, by decide +kernel⟩

end Dnsd.Io.Doh
