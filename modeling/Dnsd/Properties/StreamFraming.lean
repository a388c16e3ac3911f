/-
# StreamFraming — a connection of the TCP or the DoT listener, octet by octet.

The loop of `serve_connection` (`tcp.rs`) and `serve_tls` (`dot.rs`): a length, so many octets, the ACL, the handler,
and its response behind a length of its own.  `seen` is what the handler has got so far; the ACL and the handler may
depend on it in any way.  `serveAll` is what the connection is for: queries in, responses out.
-/
import Dnsd.Io.Listener
import Dnsd.Lib.Feed
import Dnsd.Lib.Layout

namespace Dnsd.Io.Stream

open Lib List
open Upstream (Bytes toBe fromBe txid?_toBe)

inductive StreamError where
  | invalidLength (len : Nat)
  | read
  | write
  deriving DecidableEq, Repr

/-- A message behind its length, which is cast to 16 bits. -/
def frame (message : Bytes) : Bytes := toBe (UInt16.ofNat message.length) ++ message

/-- `u16::from_be_bytes` of the first two octets. -/
def lengthOf (lenbuf : Bytes) : Nat := (fromBe (lenbuf.getD 0 0) (lenbuf.getD 1 0)).toNat

section

variable (allows : List Bytes → Bool) (handle : List Bytes → Bytes → Option Bytes)

abbrev Loop := Prog (ExactOp UInt8) ExactOp.Res (Option (Except StreamError Unit) × List Bytes)

/-- The rest of a turn, once the query is there; `next` is the next turn. -/
def answerQuery (next : List Bytes → Loop) (seen : List Bytes) (query : Bytes) : Loop :=
  -- The ACL is asked again for each query: a reload may have taken the peer off it.
  if !allows seen then return (some (.ok ()), seen)
  else
    match handle seen query with
    | none => next (seen ++ [query])
    | some response =>
        if response.length > maxTcpMessage then return (some (.ok ()), seen ++ [query])
        else .op (.write (frame response)) fun written : Bool =>
          if written then next (seen ++ [query]) else return (some (.error .write), seen ++ [query])

/-- The second read of a turn, once the length is there. -/
def readQuery (seen : List Bytes) (len : Nat) (next : Bytes → Loop) : Loop :=
  if len = 0 ∨ len > maxTcpMessage then return (some (.error (.invalidLength len)), seen)
  else .op (.readExact len) fun
    | none => return (some (.error .read), seen)
    | some query => next query

/-- `serve_connection`, for `fuel` turns of its loop; `none` if they do not suffice. -/
def serveConnection : Nat → List Bytes → Loop
  | 0, seen => return (none, seen)
  | fuel + 1, seen => .op (.readExact 2) fun
      | none => return (some (.ok ()), seen)
      | some lenbuf => readQuery seen (lengthOf lenbuf) (answerQuery allows handle (serveConnection fuel) seen)

/-- How a connection ends, what the handler has got, and what is sent. -/
structure Served where
  ending : Except StreamError Unit
  handled : List Bytes
  replies : List Bytes

/-- A connection as a service for whole messages; `last` is how it ends behind the last one. -/
def serveAll (last : Except StreamError Unit) : List Bytes → List Bytes → Served
  | [], seen => ⟨last, seen, []⟩
  | query :: queries, seen =>
      if !allows seen then ⟨.ok (), seen, []⟩
      else
        match handle seen query with
        | none => serveAll last queries (seen ++ [query])
        | some response =>
            if response.length > maxTcpMessage then ⟨.ok (), seen ++ [query], []⟩
            else
              let rest := serveAll last queries (seen ++ [query])
              { rest with replies := response :: rest.replies }

end

/-- A message whose length is one that a frame can have. -/
def Framable (message : Bytes) : Prop := 0 < message.length ∧ message.length ≤ maxTcpMessage

/-- What comes behind the last whole message ends the connection: nothing, a length of zero, or too little. -/
def ending (tail : Bytes) : Except StreamError Unit :=
  if tail.length < 2 then .ok () else if lengthOf tail = 0 then .error (.invalidLength 0) else .error .read

/-- What comes of a program, and what it sends, on a stream that arrives in pieces. -/
def runOn {β : Type} (p : Prog (ExactOp UInt8) ExactOp.Res β) (stream : Bytes) (cuts : Nat → Nat) : β × Bytes :=
  let run := (p.interp inPieces).exec pieceAnswer (⟨stream, cuts⟩, [])
  (run.1, run.2.2)

theorem runOn_eq {β : Type} {p : Prog (ExactOp UInt8) ExactOp.Res β} {stream written : Bytes} {b : β}
    (h : ∃ unread, p.exec Talk.answer ⟨stream, []⟩ = (b, ⟨unread, written⟩)) (cuts : Nat → Nat) :
    runOn p stream cuts = (b, written) := by
  obtain ⟨unread, hrun⟩ := h
  obtain ⟨cuts', hpieces⟩ := exec_inPieces p ⟨stream, []⟩ cuts
  rw [hrun] at hpieces
  exact congrArg (fun r => (r.1, r.2.2)) hpieces

/-! ## Frames -/

theorem lengthOf_append (x : UInt16) (rest : Bytes) : lengthOf (toBe x ++ rest) = x.toNat :=
  congrArg UInt16.toNat (Option.some.inj (txid?_toBe x rest))

theorem toBe_fromBe (hi lo : UInt8) : toBe (fromBe hi lo) = [hi, lo] := by
  have hhi : hi.toNat < 256 := hi.toNat_lt
  have hlo : lo.toNat < 256 := lo.toNat_lt
  have hmod : (fromBe hi lo).toNat = hi.toNat * 256 + lo.toNat := by
    simp only [fromBe, UInt16.toNat_ofNat']
    omega
  unfold toBe
  rw [hmod, show (hi.toNat * 256 + lo.toNat) / 256 = hi.toNat by omega,
    show (hi.toNat * 256 + lo.toNat) % 256 = lo.toNat by omega, UInt8.ofNat_toNat, UInt8.ofNat_toNat]

theorem frame_ne_nil (message : Bytes) : frame message ≠ [] := cons_ne_nil _ _

variable {query : Bytes}

theorem toNat_length (h : Framable query) : (UInt16.ofNat query.length).toNat = query.length := by
  have hle : query.length ≤ 65535 := h.2
  rw [UInt16.toNat_ofNat']
  omega

theorem lengthOf_frame (h : Framable query) (rest : Bytes) : lengthOf (frame query ++ rest) = query.length := by
  unfold frame
  rw [append_assoc, lengthOf_append, toNat_length h]

theorem frame_inj {query' whole : Bytes} (h : Framable query) (h' : Framable query') (hq : frame query <+: whole)
    (hq' : frame query' <+: whole) : query = query' := by
  obtain ⟨rest, rfl⟩ := hq
  obtain ⟨rest', heq⟩ := hq'
  have hlen : query.length = query'.length := by rw [← lengthOf_frame h rest, ← heq, lengthOf_frame h']
  unfold frame at heq
  rw [hlen, append_assoc, append_assoc] at heq
  exact (append_inj_left (append_cancel_left heq) hlen.symm).symm

/-- Enough octets behind a length other than zero are a frame. -/
theorem exists_frame {hi lo : UInt8} {rest : Bytes} (h0 : (fromBe hi lo).toNat ≠ 0)
    (hlen : (fromBe hi lo).toNat ≤ rest.length) : ∃ query, Framable query ∧ frame query <+: hi :: lo :: rest := by
  have hmax : (fromBe hi lo).toNat < maxTcpMessage + 1 := (fromBe hi lo).toNat_lt
  have htake := length_take_of_le hlen
  refine ⟨rest.take (fromBe hi lo).toNat, ⟨?_, ?_⟩, rest.drop (fromBe hi lo).toNat, ?_⟩
  · rw [htake]
    exact Nat.pos_of_ne_zero h0
  · rw [htake]
    exact Nat.le_of_lt_succ hmax
  · unfold frame
    rw [htake, UInt16.ofNat_toNat, toBe_fromBe, append_assoc, take_append_drop]
    rfl

/-! ## Runs -/

variable (allows : List Bytes → Bool) (handle : List Bytes → Bytes → Option Bytes) (fuel : Nat) (seen : List Bytes)
  (written : Bytes)

/-- A turn on a whole message takes exactly its frame off the stream. -/
theorem exec_frame (h : Framable query) (rest : Bytes) :
    (serveConnection allows handle (fuel + 1) seen).exec Talk.answer ⟨frame query ++ rest, written⟩ =
      (answerQuery allows handle (serveConnection allows handle fuel) seen query).exec Talk.answer
        ⟨rest, written⟩ := by
  have hlen : lengthOf (toBe (UInt16.ofNat query.length)) = query.length :=
    (lengthOf_append _ []).trans (toNat_length h)
  have hok : ¬(query.length = 0 ∨ query.length > maxTcpMessage) := by
    obtain ⟨h0, hle⟩ := h
    omega
  unfold frame
  rw [append_assoc]
  refine (exec_read_append _ written (toBe (UInt16.ofNat query.length)) (query ++ rest)).trans ?_
  dsimp only
  rw [hlen, readQuery, if_neg hok]
  exact exec_read_append ..

/-- A turn on what is no message ends the connection. -/
theorem exec_tail {tail : Bytes} (h : ∀ query, Framable query → ¬ frame query <+: tail) : ∃ unread,
    (serveConnection allows handle (fuel + 1) seen).exec Talk.answer ⟨tail, written⟩ =
      ((some (ending tail), seen), ⟨unread, written⟩) := by
  rcases tail with _ | ⟨hi, _ | ⟨lo, rest⟩⟩
  · exact ⟨[], exec_read_short _ written Nat.two_pos⟩
  · exact ⟨[], exec_read_short _ written Nat.one_lt_two⟩
  · suffices hbody : ∃ unread, (readQuery seen (fromBe hi lo).toNat (answerQuery allows handle
        (serveConnection allows handle fuel) seen)).exec Talk.answer ⟨rest, written⟩ =
          ((some (ending (hi :: lo :: rest)), seen), ⟨unread, written⟩) by
      obtain ⟨unread, hrun⟩ := hbody
      exact ⟨unread, (exec_read_append _ written [hi, lo] rest).trans hrun⟩
    have hmax : (fromBe hi lo).toNat < maxTcpMessage + 1 := (fromBe hi lo).toNat_lt
    have hend : ending (hi :: lo :: rest) =
        if (fromBe hi lo).toNat = 0 then .error (.invalidLength 0) else .error .read := if_neg (by simp)
    rw [hend, readQuery]
    by_cases h0 : (fromBe hi lo).toNat = 0
    · rw [if_pos (Or.inl h0), if_pos h0, h0]
      exact ⟨rest, rfl⟩
    · have hshort : rest.length < (fromBe hi lo).toNat := by
        by_contra hle
        obtain ⟨query, hquery, hframe⟩ := exists_frame h0 (Nat.not_lt.mp hle)
        exact h query hquery hframe
      rw [if_neg (by omega), if_neg h0]
      exact ⟨[], exec_read_short _ written hshort⟩

/-- The loop over whole messages is the service. -/
theorem exec_splits {queries : List Bytes} {tail stream : Bytes} (h : Splits frame Framable tail queries stream)
    (hfuel : queries.length < fuel) : ∃ unread,
    (serveConnection allows handle fuel seen).exec Talk.answer ⟨stream, written⟩ =
      ((some (serveAll allows handle (ending tail) queries seen).ending,
          (serveAll allows handle (ending tail) queries seen).handled),
        ⟨unread, written ++ (serveAll allows handle (ending tail) queries seen).replies.flatMap frame⟩) := by
  -- One turn of the loop for each message; the turn after the last one sees the rest.
  induction queries generalizing fuel seen written stream with
  | nil =>
    obtain ⟨rfl, hno⟩ := h
    obtain ⟨fuel, rfl⟩ := Nat.exists_eq_succ_of_ne_zero (Nat.ne_zero_of_lt hfuel)
    obtain ⟨unread, hrun⟩ := exec_tail allows handle fuel seen written hno
    exact ⟨unread, hrun.trans (by simp [serveAll])⟩
  | cons query queries ih =>
    obtain ⟨hquery, rest, rfl, hrest⟩ := h
    obtain ⟨fuel, rfl⟩ := Nat.exists_eq_succ_of_ne_zero (Nat.ne_zero_of_lt hfuel)
    have hfuel := Nat.lt_of_succ_lt_succ hfuel
    rw [exec_frame allows handle fuel seen written hquery]
    unfold answerQuery serveAll
    by_cases hallows : allows seen
    · rw [hallows]
      cases hhandle : handle seen query with
      | none => exact ih fuel _ written hrest hfuel
      | some response =>
        by_cases hlong : response.length > maxTcpMessage
        · simp [hlong, Prog.exec]
        · simp only [hlong]
          obtain ⟨unread, hrun⟩ := ih fuel (seen ++ [query]) (written ++ frame response) hrest hfuel
          refine ⟨unread, hrun.trans ?_⟩
          simp
    · simp [hallows, Prog.exec]

theorem length_replies_le (last : Except StreamError Unit) (queries : List Bytes) :
    ∀ reply ∈ (serveAll allows handle last queries seen).replies, reply.length ≤ maxTcpMessage := by
  induction queries generalizing seen with
  | nil => exact nofun
  | cons query queries ih =>
    unfold serveAll
    split
    · exact nofun
    · split
      · exact ih _
      · split
        · exact nofun
        · next hlong => exact forall_mem_cons.mpr ⟨Nat.not_lt.mp hlong, ih _⟩

theorem runOn_splits {queries : List Bytes} {tail stream : Bytes} (h : Splits frame Framable tail queries stream)
    (cuts : Nat → Nat) (more : Nat) :
    let served := serveAll allows handle (ending tail) queries []
    runOn (serveConnection allows handle (stream.length + 1 + more) []) stream cuts =
      ((some served.ending, served.handled), served.replies.flatMap frame) := by
  have hlen := h.length_le fun query _ => frame_ne_nil query
  exact runOn_eq (exec_splits allows handle _ [] [] h (by omega)) cuts

/-- **A connection serves the messages of its stream, however the octets arrive.**  A stream is whole messages and a
rest in one way only.  The handler gets those messages, one after the other, until the ACL denies one or a response
is too long; what is sent is the responses, each behind its own length; and the loop ends. -/
theorem connection_serves (stream : Bytes) : ∃ queries tail, Splits frame Framable tail queries stream ∧
    (∀ queries' tail', Splits frame Framable tail' queries' stream → queries' = queries ∧ tail' = tail) ∧
    let served := serveAll allows handle (ending tail) queries []
    (∀ reply ∈ served.replies, reply.length ≤ maxTcpMessage) ∧ ∀ (cuts : Nat → Nat) (more : Nat),
      runOn (serveConnection allows handle (stream.length + 1 + more) []) stream cuts =
        ((some served.ending, served.handled), served.replies.flatMap frame) := by
  obtain ⟨queries, tail, hsplit⟩ := exists_splits (fun query (_ : Framable query) => frame_ne_nil query) stream
  refine ⟨queries, tail, hsplit, fun _ _ h => hsplit.unique frame_inj h, ?_⟩
  exact ⟨length_replies_le allows handle [] _ _, runOn_splits allows handle hsplit⟩

/-! ## Sessions -/

inductive ExchangeError where
  | tooLarge (len : Nat)
  | tooShort (len : Nat)
  | io

open Dialogue in
/-- `exchange_dot` of `dot_client.rs`: a query behind its length, and then the response. -/
def exchangeDot (query : Bytes) : Dialogue ExchangeError UInt8 Bytes :=
  if query.length > maxTcpMessage then throw (.tooLarge query.length)
  else do
    send .io (toBe (UInt16.ofNat query.length))
    send .io query
    let lenbuf ← receive .io 2
    -- A header has twelve octets.
    if lengthOf lenbuf < 12 then throw (.tooShort (lengthOf lenbuf)) else receive .io (lengthOf lenbuf)

/-- What the handler says to the queries, one after the other. -/
def responses (respond : List Bytes → Bytes → Bytes) : List Bytes → List Bytes → List Bytes
  | [], _ => []
  | query :: queries, seen => respond seen query :: responses respond queries (seen ++ [query])

/-- Both ends of a session, each on the octets that the other has sent: the client gets the response to each of its
queries, the server those queries, however the octets arrive. -/
def SessionServed (respond : List Bytes → Bytes → Bytes) (queries : List Bytes) : Prop :=
  ∃ toServer toClient, ∀ (cuts : Nat → Nat) (more : Nat),
    runOn (queries.mapM exchangeDot).run toClient cuts = (.ok (responses respond queries []), toServer) ∧
    runOn (serveConnection (fun _ => true) (fun seen query => some (respond seen query))
      (toServer.length + 1 + more) []) toServer cuts = ((some (.ok ()), queries), toClient)

section

variable {response : Bytes} {respond : List Bytes → Bytes → Bytes} {queries : List Bytes}
  (hr : ∀ seen query, 12 ≤ (respond seen query).length ∧ (respond seen query).length ≤ maxTcpMessage)

theorem gives_exchangeDot (hq : Framable query) (hr : 12 ≤ response.length ∧ response.length ≤ maxTcpMessage)
    (rest written : Bytes) : Dialogue.Gives (exchangeDot query) ⟨frame response ++ rest, written⟩ response
      ⟨rest, written ++ frame query⟩ := by
  have hlen : lengthOf (toBe (UInt16.ofNat response.length)) = response.length :=
    (lengthOf_append _ []).trans (toNat_length ⟨by omega, hr.2⟩)
  refine Dialogue.gives_guard.mpr ⟨Nat.not_lt.mpr hq.2, Dialogue.gives_send_bind.mpr ?_⟩
  refine Dialogue.gives_send_bind.mpr (Dialogue.gives_receive_bind.mpr ⟨_, _, rfl, append_assoc .., ?_⟩)
  rw [hlen]
  refine Dialogue.gives_guard.mpr ⟨Nat.not_lt.mpr hr.1, ?_⟩
  rw [← bind_pure (Dialogue.receive _ _)]
  refine Dialogue.gives_receive_bind.mpr ⟨response, rest, rfl, rfl, Dialogue.gives_pure.mpr ⟨rfl, ?_⟩⟩
  simp [frame]

theorem splits_frames (hq : ∀ query ∈ queries, Framable query) :
    Splits frame Framable [] queries (queries.flatMap frame) := by
  induction queries with
  | nil => exact ⟨rfl, fun query _ h => frame_ne_nil query (prefix_nil.mp h)⟩
  | cons query queries ih =>
    obtain ⟨hquery, hq⟩ := forall_mem_cons.mp hq
    exact ⟨hquery, _, rfl, ih hq⟩

include hr

theorem gives_session (hq : ∀ query ∈ queries, Framable query) (seen : List Bytes) (written : Bytes) : Dialogue.Gives (queries.mapM exchangeDot)
      ⟨(responses respond queries seen).flatMap frame, written⟩ (responses respond queries seen)
        ⟨[], written ++ queries.flatMap frame⟩ := by
  induction queries generalizing seen written with
  | nil => exact Dialogue.gives_pure.mpr ⟨rfl, by simp [responses]⟩
  | cons query queries ih =>
    obtain ⟨hquery, hq⟩ := forall_mem_cons.mp hq
    rw [mapM_cons]
    refine Dialogue.gives_bind.mpr ⟨_, _, gives_exchangeDot hquery (hr seen query) _ written, ?_⟩
    refine Dialogue.gives_bind.mpr ⟨_, _, ih hq (seen ++ [query]) _, Dialogue.gives_pure.mpr ⟨rfl, ?_⟩⟩
    simp

theorem serveAll_responses (last : Except StreamError Unit) (seen : List Bytes) :
    serveAll (fun _ => true) (fun seen query => some (respond seen query)) last queries seen =
      ⟨last, seen ++ queries, responses respond queries seen⟩ := by
  induction queries generalizing seen with
  | nil => simp [serveAll, responses]
  | cons query queries ih =>
    simp [serveAll, responses, ih, Nat.not_lt.mpr (hr seen query).2]

/-- **The client and the server of a DoT session agree**, whatever the queries, if the handler answers with messages
that have a header and fit into a frame. -/
theorem session_served (hq : ∀ query ∈ queries, Framable query) : SessionServed respond queries := by
  refine ⟨queries.flatMap frame, (responses respond queries []).flatMap frame, fun cuts more => ⟨?_, ?_⟩⟩
  · exact runOn_eq ⟨_, gives_session hr hq [] []⟩ cuts
  · have hserver := runOn_splits (fun _ => true) (fun seen query => some (respond seen query)) (splits_frames hq)
      cuts more
    rwa [serveAll_responses hr] at hserver

end

theorem session_served_two : SessionServed (fun seen _ => replicate (12 + seen.length % 2) 0) [[1], [2, 3]] :=
  session_served (fun seen _ => by simp [maxTcpMessage]; omega) (by simp [Framable, maxTcpMessage])

end Dnsd.Io.Stream
