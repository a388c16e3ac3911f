/-
# DohSplits — the cuts between reads do not matter to a DoH connection.

A connection is run with no timer striking and with everything but the reads answered by the past.  It does
the same as one on which the whole stream is pending from the start, provided that the heads it comes to are
short: a longer one may be found or refused, depending on what the last read brings.
-/
import Dnsd.Lib.Feed
import Dnsd.Properties.DohFraming

namespace Dnsd.Io.Doh

open Lib List
open Upstream (Bytes)

structure Conn where
  feed : Feed UInt8
  log : List Op

def Conn.did (c : Conn) (o : Op) : Conn := { c with log := c.log ++ [o] }

/-- `env` is the ACL, the context, the handler and the way responses go. -/
def answer (env : List Op → (o : Op) → o.Res) (c : Conn) : (o : Op) → o.Res × Conn
  | .read max => (some (c.feed.read max).1, { c with feed := (c.feed.read max).2 })
  | .struck _ => (false, c)
  | o => (env c.log o, c.did o)

def bodyLength (req : RequestHead) : Nat :=
  if req.method = text "POST" then (contentLength req.headers).getD 0 else 0

/-- Each of the next `n` heads has its blank line within `MAX_HEADER_BYTES`. -/
def ShortHeads : Nat → Bytes → Prop
  | 0, _ => True
  | n + 1, stream => ∀ pos, findSubsequence doubleCrlf stream = some pos → pos + 4 ≤ maxHeaderBytes ∧
      ∀ req, parseRequestHead (stream.take pos) = .ok req →
        ShortHeads n (stream.drop (pos + 4 + bodyLength req))

variable {env : List Op → (o : Op) → o.Res} {c : Conn}

/-! ## Reading -/

theorem exec_cancellable {α : Type} (p : DohProg α) (c : Conn) (seconds : Nat) :
    (p.cancellable (.struck seconds) id).exec (answer env) c =
      (some (p.exec (answer env) c).1, (p.exec (answer env) c).2) := by
  induction p generalizing c with
  | ret a => rfl
  | op o k ih => exact ih _ _

theorem exec_read {α : Type} {max : Nat} {k : Option Bytes → DohProg α} {bs : Bytes} (h : (c.feed.read max).1 = bs) :
    Prog.exec (answer env) (.op (.read max) k) c =
      (k (some bs)).exec (answer env) ⟨(c.feed.read max).2, c.log⟩ := by
  rw [← h]
  rfl

theorem length_of_found {pos : Nat} {stream : Bytes} (h : findSubsequence doubleCrlf stream = some pos) :
    pos + 4 ≤ stream.length := by
  have hle := (findSubsequence_eq_some_iff.mp h).1.length_le
  rw [length_drop] at hle
  have : doubleCrlf.length = 4 := rfl
  omega

theorem findSubsequence_append {pos : Nat} {buf : Bytes} (h : findSubsequence doubleCrlf buf = some pos)
    (more : Bytes) : findSubsequence doubleCrlf (buf ++ more) = some pos := by
  have hlen := length_of_found h
  obtain ⟨hocc, hle, hfirst⟩ := findSubsequence_eq_some_iff.mp h
  refine findSubsequence_eq_some_iff.mpr ⟨hocc.append hle more, ?_, fun j hj hoc => hfirst j hj ?_⟩
  · rw [length_append]
    omega
  · refine hoc.of_append ?_
    show j + 4 ≤ buf.length
    omega

theorem window_lt {searchFrom pos : Nat} {buf more : Bytes} (hfrom : searchFrom ≤ buf.length)
    (hnone : ∀ j < searchFrom, ¬ OccursAt doubleCrlf buf j)
    (hfind : findSubsequence doubleCrlf (buf.drop searchFrom) = none)
    (h : findSubsequence doubleCrlf (buf ++ more) = some pos) : buf.length < pos + 4 := by
  by_contra hle
  exact not_occursAt_roll hfrom hnone hfind more pos (by omega) (findSubsequence_eq_some_iff.mp h).1

def HeadOf (stream : Bytes) (r : Except ConnError (Bytes × Nat)) (unread : Bytes) : Prop :=
  match findSubsequence doubleCrlf stream with
  | some pos => ∃ buf, r = .ok (buf, pos + 4) ∧ buf ++ unread = stream ∧ pos + 4 ≤ buf.length
  | none => r = .error (if maxHeaderBytes ≤ stream.length then .headersExceeded else .eofBeforeHeaders)

section

variable {searchFrom : Nat} {buf more : Bytes} (hfrom : searchFrom ≤ buf.length)
  (hnone : ∀ j < searchFrom, ¬ OccursAt doubleCrlf buf j)

include hfrom hnone

theorem headOf_found {pos : Nat} (hfind : findSubsequence doubleCrlf (buf.drop searchFrom) = some pos) :
    HeadOf (buf ++ more) (.ok (buf, searchFrom + pos + doubleCrlf.length)) more := by
  have h := findSubsequence_drop hnone hfrom hfind
  rw [HeadOf, findSubsequence_append h]
  exact ⟨buf, rfl, rfl, length_of_found h⟩

variable (hfind : findSubsequence doubleCrlf (buf.drop searchFrom) = none)

include hfind

theorem none_of_window : findSubsequence doubleCrlf buf = none := by
  cases h : findSubsequence doubleCrlf buf with
  | none => rfl
  | some pos =>
    have hlt := @window_lt _ pos buf [] hfrom hnone hfind (by rwa [append_nil])
    exact absurd (length_of_found h) (by omega)

theorem headOf_exceeded (hlen : maxHeaderBytes ≤ buf.length) {unread : Bytes}
    (hshort : ∀ pos, findSubsequence doubleCrlf (buf ++ more) = some pos → pos + 4 ≤ maxHeaderBytes) :
    HeadOf (buf ++ more) (.error .headersExceeded) unread := by
  unfold HeadOf
  cases h : findSubsequence doubleCrlf (buf ++ more) with
  | some pos => exact absurd (hshort pos h) (by have := window_lt hfrom hnone hfind h; omega)
  | none =>
    rw [if_pos (by rw [length_append]; omega)]

end

theorem exec_readUntilDoubleCrlf {fuel searchFrom : Nat} {buf : Bytes} (hfrom : searchFrom ≤ buf.length)
    (hnone : ∀ j < searchFrom, ¬ OccursAt doubleCrlf buf j) (hfuel : maxHeaderBytes ≤ fuel + buf.length)
    (hshort : ∀ pos, findSubsequence doubleCrlf (buf ++ c.feed.unread) = some pos → pos + 4 ≤ maxHeaderBytes) :
    ∃ r feed, (readUntilDoubleCrlf fuel buf searchFrom).exec (answer env) c = (r, ⟨feed, c.log⟩) ∧
      HeadOf (buf ++ c.feed.unread) r feed.unread := by
  induction fuel generalizing buf searchFrom c with
  | zero =>
    unfold readUntilDoubleCrlf
    cases hfind : findSubsequence doubleCrlf (buf.drop searchFrom) with
    | some pos => exact ⟨_, _, rfl, headOf_found hfrom hnone hfind⟩
    | none =>
      rw [Nat.zero_add] at hfuel
      rw [if_pos hfuel]
      exact ⟨_, _, rfl, headOf_exceeded hfrom hnone hfind hfuel hshort⟩
  | succ fuel ih =>
    unfold readUntilDoubleCrlf
    cases hfind : findSubsequence doubleCrlf (buf.drop searchFrom) with
    | some pos => exact ⟨_, _, rfl, headOf_found hfrom hnone hfind⟩
    | none =>
      dsimp only
      split
      · exact ⟨_, _, rfl, headOf_exceeded hfrom hnone hfind ‹_› hshort⟩
      · rename_i hlen
        have happ := c.feed.read_append 1024
        cases hread : (c.feed.read 1024).1 with
        | nil =>
          have hend : c.feed.unread = [] := (Feed.read_eq_nil_iff (by decide)).mp hread
          refine ⟨_, _, exec_read hread, ?_⟩
          rw [hend, append_nil, HeadOf, none_of_window hfrom hnone hfind]
          exact congrArg Except.error (if_neg hlen).symm
        | cons b bs =>
          rw [hread] at happ
          rw [← happ] at hshort ⊢
          rw [← append_assoc] at hshort ⊢
          obtain ⟨r, feed, hexec, hhead⟩ := ih (c := ⟨_, c.log⟩) (by rw [length_append]; omega)
            (not_occursAt_roll hfrom hnone hfind (b :: bs)) (by rw [length_append, length_cons]; omega) hshort
          exact ⟨r, feed, (exec_read hread).trans hexec, hhead⟩

theorem exec_readBody {fuel length : Nat} {body : Bytes} (hle : body.length ≤ length)
    (hfuel : length ≤ fuel + body.length) : ∃ feed,
    (readBody fuel length body).exec (answer env) c =
      (if length ≤ (body ++ c.feed.unread).length then .ok ((body ++ c.feed.unread).take length)
        else .error .eofMidBody, ⟨feed, c.log⟩) ∧
      feed.unread = (body ++ c.feed.unread).drop length := by
  induction fuel generalizing body c with
  | zero =>
    obtain rfl : body.length = length := by omega
    exact ⟨c.feed, by simp [readBody, Prog.exec], by simp⟩
  | succ fuel ih =>
    unfold readBody
    split
    · obtain rfl : body.length = length := by omega
      exact ⟨c.feed, by simp [Prog.exec], by simp⟩
    · rename_i hlt
      have happ := c.feed.read_append (length - body.length)
      have hmax := c.feed.length_read_le (length - body.length)
      cases hread : (c.feed.read (length - body.length)).1 with
      | nil =>
        have hend : c.feed.unread = [] := (Feed.read_eq_nil_iff (by omega)).mp hread
        rw [hread, nil_append] at happ
        refine ⟨_, (exec_read hread).trans ?_, happ.trans ?_⟩
        · rw [hend, append_nil, if_neg (by omega)]
          rfl
        · rw [hend, append_nil, drop_eq_nil_of_le (by omega)]
      | cons b bs =>
        rw [hread] at happ hmax
        rw [← happ, ← append_assoc]
        rw [length_cons] at hmax
        obtain ⟨feed, hexec, hunread⟩ := @ih ⟨_, c.log⟩ (body ++ b :: bs)
          (by rw [length_append, length_cons]; omega) (by rw [length_append, length_cons]; omega)
        exact ⟨feed, (exec_read hread).trans hexec, hunread⟩

/-! ## One request -/

def Settled {σ ρ α γ : Type} (env : List Op → (o : Op) → o.Res) (start : σ → Bytes → ρ) (s₀ : ρ) (log : List Op)
    (p : σ → DohProg α) (view : α → Bytes → γ) (P : γ → Prop) : Prop :=
  ∃ x log', P x ∧ ∀ s (c : Conn), start s c.feed.unread = s₀ → c.log = log →
    view ((p s).exec (answer env) c).1 ((p s).exec (answer env) c).2.feed.unread = x ∧
      ((p s).exec (answer env) c).2.log = log'

section

variable {σ ρ α β γ δ : Type} {start : σ → Bytes → ρ} {s₀ : ρ} {log : List Op} {view : α → Bytes → γ} {P : γ → Prop}

theorem Settled.bind {p : σ → DohProg α} {k : α → DohProg β} {view' : β → Bytes → δ} {Q : δ → Prop}
    (hp : Settled env start s₀ log p view P) (hk : ∀ x log', P x → Settled env view x log' k view' Q) :
    Settled env start s₀ log (fun s => p s >>= k) view' Q := by
  obtain ⟨x, log', hx, hrun⟩ := hp
  obtain ⟨y, log'', hy, hrun'⟩ := hk x log' hx
  refine ⟨y, log'', hy, fun s c hs hl => ?_⟩
  rw [Prog.exec_bind]
  exact hrun' _ _ (hrun s c hs hl).1 (hrun s c hs hl).2

theorem Settled.unhurried {p : σ → DohProg α} {k : Option α → DohProg β} {view' : β → Bytes → δ} {Q : δ → Prop}
    {seconds : Nat} (hp : Settled env start s₀ log p view P)
    (hk : ∀ x log', P x → Settled env view x log' (fun a => k (some a)) view' Q) :
    Settled env start s₀ log (fun s => (p s).cancellable (.struck seconds) id >>= k) view' Q := by
  obtain ⟨x, log', hx, hrun⟩ := hp
  obtain ⟨y, log'', hy, hrun'⟩ := hk x log' hx
  refine ⟨y, log'', hy, fun s c hs hl => ?_⟩
  rw [Prog.exec_bind, exec_cancellable]
  exact hrun' _ _ (hrun s c hs hl).1 (hrun s c hs hl).2

theorem Settled.call {o : Op} {k : o.Res → σ → DohProg α} (ho : ∀ c, answer env c o = (env c.log o, c.did o))
    (h : Settled env start s₀ (log ++ [o]) (k (env log o)) view P) :
    Settled env start s₀ log (fun s => Doh.call o >>= (k · s)) view P := by
  obtain ⟨x, log', hP, hx⟩ := h
  refine ⟨x, log', hP, ?_⟩
  rintro s c hs rfl
  have hstep : (Doh.call o >>= (k · s)).exec (answer env) c = (k (env c.log o) s).exec (answer env) (c.did o) := by
    show (k (answer env c o).1 s).exec (answer env) (answer env c o).2 = _
    rw [ho]
  rw [hstep]
  exact hx s (c.did o) hs rfl

theorem settled_ret {f : σ → α} {x : γ} (hP : P x) (hx : ∀ s unread, start s unread = s₀ → view (f s) unread = x) :
    Settled env start s₀ log (fun s => pure (f s)) view P :=
  ⟨x, log, hP, fun s _ hs hl => ⟨hx s _ hs, hl⟩⟩

theorem settled_reject {f : α → Bytes → γ} {P : Except ConnError γ → Prop} (hP : ∀ e, P (.error e))
    (status : Nat) (reason body : String) (e : ConnError) :
    Settled env start s₀ log (fun _ => reject status reason body e) (fun r u => r.map (f · u)) P :=
  .call (fun _ => rfl) (settled_ret (hP _) fun _ _ _ => rfl)

theorem settled_error {f : α → Bytes → γ} {k : Except ConnError α → DohProg β} {view : β → Bytes → δ} {Q : δ → Prop}
    {e : ConnError} {b : β} {y : δ} (hk : k (.error e) = pure b) (hy : ∀ u, view b u = y) (hQ : Q y) :
    Settled env (fun r u => r.map (f · u)) (.error e) log k view Q := by
  refine ⟨y, log, hQ, fun r c hr hl => ?_⟩
  cases r with
  | error e' =>
    cases hr
    rw [hk]
    exact ⟨hy _, hl⟩
  | ok a => cases hr

theorem settled_ok {f : α → Bytes → γ} {k : Except ConnError α → DohProg β} {view : β → Bytes → δ} {Q : δ → Prop}
    {y : γ} {p : σ → DohProg β} (g : α → σ) (h : Settled env start s₀ log p view Q)
    (hg : ∀ a u, f a u = y → start (g a) u = s₀ ∧ k (.ok a) = p (g a)) :
    Settled env (fun r u => r.map (f · u)) (.ok y) log k view Q := by
  obtain ⟨x, log', hx, hrun⟩ := h
  refine ⟨x, log', hx, fun r c hr hl => ?_⟩
  cases r with
  | error e => cases hr
  | ok a =>
    obtain ⟨hs, hk⟩ := hg a c.feed.unread (Except.ok.inj hr)
    rw [hk]
    exact hrun (g a) c hs hl

end

def viewQuery (r : Except ConnError (Bytes × Bytes)) (unread : Bytes) : Except ConnError (Bytes × Bytes) :=
  r.map fun x => (x.1, x.2 ++ unread)

theorem takeQuery_settled (req : RequestHead) (stream : Bytes) (log : List Op) :
    Settled env (· ++ ·) stream log (takeQuery req) viewQuery fun x =>
      ∀ query rest, x = .ok (query, rest) → rest = stream.drop (bodyLength req) := by
  unfold takeQuery
  by_cases hget : req.method = text "GET"
  · simp only [hget, if_true]
    cases parseGetDnsParam req.path with
    | none => exact settled_reject (fun _ => nofun) ..
    | some query =>
      have hpost : req.method ≠ text "POST" := by
        rw [hget]
        decide
      refine settled_ret (x := .ok (query, stream)) ?_ fun seed unread hs => hs ▸ rfl
      rintro _ _ ⟨⟩
      rw [bodyLength, if_neg hpost, drop_zero]
  simp only [if_neg hget]
  by_cases hpost : req.method = text "POST"
  · simp only [hpost, if_true]
    cases contentTypeIsDnsMessage req.headers with
    | false => exact settled_reject (fun _ => nofun) ..
    | true =>
      simp only [Bool.not_true, Bool.false_eq_true, if_false]
      cases hlength : contentLength req.headers with
      | none => exact settled_ret (x := .error .badContentLength) nofun fun _ _ _ => rfl
      | some length =>
        by_cases hmax : length > maxBodyBytes
        · simp only [if_pos hmax]
          exact settled_reject (fun _ => nofun) ..
        simp only [if_neg hmax]
        refine ⟨if length ≤ stream.length then .ok (stream.take length, stream.drop length)
          else .error .eofMidBody, log, ?_, ?_⟩
        · intro query rest h
          rw [bodyLength, if_pos hpost, hlength]
          split at h
          · cases h
            rfl
          · cases h
        · rintro seed c rfl rfl
          by_cases hseed : seed.length ≥ length
          · simp only [if_pos hseed]
            rw [if_pos (by rw [length_append]; omega), take_append_of_le_length hseed,
              drop_append_of_le_length hseed]
            exact ⟨rfl, rfl⟩
          · obtain ⟨feed, hexec, hunread⟩ := @exec_readBody env c length length seed (by omega) (by omega)
            simp only [if_neg hseed, Prog.exec_bind, hexec]
            refine ⟨?_, rfl⟩
            split
            · exact congrArg (fun u => Except.ok (_, [] ++ u)) hunread
            · rfl
  · simp only [if_neg hpost]
    exact settled_reject (fun _ => nofun) ..

def respond (codec : Codec) (close : Bool) (pending : Bytes) : Option Bytes → DohProg (Except ConnError Bytes)
  | none => reject 400 "Bad Request" "malformed DNS query\n" .malformedDns
  | some response => do
      let written : Bool ← call (.write (dnsResponse response ((minTtlFromResponse codec response).getD 0) close))
      return if written then .ok pending else .error .responseWrite

theorem respond_settled (codec : Codec) (close : Bool) (query rest : Bytes) (log : List Op) {P : Bytes → Prop}
    (hP : P rest) :
    Settled env (· ++ ·) rest log (fun pending => call (.handle query) >>= respond codec close pending)
      (fun r u => r.map (· ++ u)) fun x => ∀ rest, x = .ok rest → P rest := by
  refine .call (fun _ => rfl) ?_
  generalize env log (.handle query) = response
  cases response with
  | none => exact settled_reject (fun _ => nofun) ..
  | some response =>
    refine .call (fun _ => rfl) ?_
    generalize env _ (.write _) = written
    cases written with
    | false => exact settled_ret (x := .error .responseWrite) nofun fun _ _ _ => rfl
    | true =>
      refine settled_ret (x := .ok rest) ?_ fun pending u h => congrArg Except.ok h
      rintro _ ⟨⟩
      exact hP

theorem handleRequest_settled (codec : Codec) (req : RequestHead) (close : Bool) (stream : Bytes)
    (log : List Op) :
    Settled env (· ++ ·) stream log (handleRequest codec req · close) (fun r u => r.map (· ++ u)) fun x =>
      ∀ rest, x = .ok rest → rest = stream.drop (bodyLength req) := by
  refine .call (fun _ => rfl) ?_
  show Settled env _ stream _ (fun seed => if !id (α := Bool) (env log .allows) then _ else _) _ _
  cases id (α := Bool) (env log .allows) with
  | false => exact settled_reject (fun _ => nofun) ..
  | true =>
    refine .call (fun _ => rfl) ?_
    show Settled env _ stream _ (fun seed => if !dohPathAuthorized _ (env _ .authToken) then _ else _) _ _
    cases dohPathAuthorized (req.path.takeWhile (· ≠ 0x3F)) (env (log ++ [.allows]) .authToken) with
    | false => exact settled_reject (fun _ => nofun) ..
    | true =>
      refine (takeQuery_settled req stream _).bind fun x log' hx => ?_
      cases x with
      | error e => exact settled_error rfl (fun _ => rfl) nofun
      | ok x =>
        obtain ⟨query, rest⟩ := x
        refine settled_ok Prod.snd (respond_settled codec close query rest log' (hx query rest rfl)) ?_
        rintro ⟨query', pending⟩ u ⟨⟩
        refine ⟨rfl, congrArg (Prog.op (Op.handle query')) (funext fun response => ?_)⟩
        cases id (α := Option Bytes) response <;> rfl

/-! ## The connection -/

theorem readHead_settled {stream : Bytes} (log : List Op)
    (hshort : ∀ pos, findSubsequence doubleCrlf stream = some pos → pos + 4 ≤ maxHeaderBytes) :
    Settled env (· ++ ·) stream log (readUntilDoubleCrlf maxHeaderBytes · 0)
      (fun r u => r.map fun x => (x.1.take x.2, x.2, x.1.drop x.2 ++ u)) fun x => ∀ head,
        x = .ok head → ∃ pos, findSubsequence doubleCrlf stream = some pos ∧
          head = (stream.take (pos + 4), pos + 4, stream.drop (pos + 4)) := by
  have hrun : ∀ (pending : Bytes) (c : Conn), pending ++ c.feed.unread = stream → ∃ r feed,
      (readUntilDoubleCrlf maxHeaderBytes pending 0).exec (answer env) c = (r, ⟨feed, c.log⟩) ∧
        HeadOf stream r feed.unread := by
    rintro pending c rfl
    exact exec_readUntilDoubleCrlf (Nat.zero_le _) (fun j hj => absurd hj (Nat.not_lt_zero j)) (by omega) hshort
  cases hfind : findSubsequence doubleCrlf stream with
  | none =>
    refine ⟨.error (if maxHeaderBytes ≤ stream.length then .headersExceeded else .eofBeforeHeaders), log, nofun, ?_⟩
    rintro pending c hs rfl
    obtain ⟨r, feed, hexec, hhead⟩ := hrun pending c hs
    rw [HeadOf, hfind] at hhead
    rw [hexec, hhead]
    exact ⟨rfl, rfl⟩
  | some pos =>
    refine ⟨.ok (stream.take (pos + 4), pos + 4, stream.drop (pos + 4)), log, ?_, ?_⟩
    · rintro _ ⟨⟩
      exact ⟨pos, rfl, rfl⟩
    rintro pending c hs rfl
    obtain ⟨r, feed, hexec, hhead⟩ := hrun pending c hs
    rw [HeadOf, hfind] at hhead
    obtain ⟨buf, rfl, happ, hle⟩ := hhead
    rw [hexec, ← happ, take_append_of_le_length hle, drop_append_of_le_length hle]
    exact ⟨rfl, rfl⟩

def serveHead (codec : Codec) (n : Nat) (head : Bytes) (parsed : Except HeadError RequestHead) (seed : Bytes) :
    DohProg (Except ConnError Unit) := do
  call (.parsing head)
  match parsed with
  | .error e => return .error (.head e)
  | .ok req =>
      match validateFraming req.headers with
      | .error e => return .error (.framing e)
      | .ok () =>
          let close := clientCloses req.headers || n = 0
          let handled ← handleRequest codec req seed close
          match handled with
          | .error e => return .error e
          | .ok pending => if close then return .ok () else serveRequests codec n pending

theorem serveRequests_settled (codec : Codec) (n : Nat) {stream : Bytes} (log : List Op)
    (hshort : ShortHeads n stream) :
    Settled env (· ++ ·) stream log (serveRequests codec n) (fun r _ => r) fun _ => True := by
  induction n generalizing stream log with
  | zero => exact settled_ret trivial fun _ _ _ => rfl
  | succ n ih =>
    refine (readHead_settled log fun pos hpos => (hshort pos hpos).1).unhurried fun x log' hx => ?_
    cases x with
    | error e => exact settled_error rfl (fun _ => rfl) trivial
    | ok head =>
      obtain ⟨pos, hpos, rfl⟩ := hx head rfl
      refine settled_ok (fun x => x.1.drop x.2) (?_ : Settled env (· ++ ·) (stream.drop (pos + 4)) log'
        (serveHead codec n (stream.take (pos + 4)) (parseRequestHead (stream.take pos))) _ _) ?_
      · refine .call (fun _ => rfl) ?_
        cases hparse : parseRequestHead (stream.take pos) with
        | error e => exact settled_ret trivial fun _ _ _ => rfl
        | ok req =>
          dsimp only
          cases validateFraming req.headers with
          | error e => exact settled_ret trivial fun _ _ _ => rfl
          | ok _ =>
            refine (handleRequest_settled codec req _ _ _).bind fun y log'' hy => ?_
            cases y with
            | error e => exact settled_error rfl (fun _ => rfl) trivial
            | ok rest =>
              have hnext : ShortHeads n rest := by
                rw [hy rest rfl, drop_drop]
                exact (hshort pos hpos).2 req hparse
              refine settled_ok id (?_ : Settled env (· ++ ·) rest log'' (fun pending =>
                if clientCloses req.headers || n = 0 then pure (.ok ()) else serveRequests codec n pending) _ _)
                fun a u h => ⟨h, rfl⟩
              split
              · exact settled_ret trivial fun _ _ _ => rfl
              · exact ih log'' hnext
      · rintro ⟨buf, headEnd⟩ u h
        obtain ⟨htake, rfl, hdrop⟩ : buf.take headEnd = stream.take (pos + 4) ∧ headEnd = pos + 4 ∧
          buf.drop headEnd ++ u = stream.drop (pos + 4) := by simpa using h
        have hhead : stream.take pos = buf.take (pos + 4 - 4) := by
          simpa [take_take] using (congrArg (List.take pos) htake).symm
        refine ⟨hdrop, ?_⟩
        rw [← htake, hhead]
        rfl

/-- On one stream with short heads, however it is cut into reads, a connection has the same outcome, parses the
same heads, hands the same queries to the handler and writes the same octets, in the same order. -/
theorem read_split_independent (codec : Codec) (env : List Op → (o : Op) → o.Res) {f f' : Feed UInt8}
    (hstream : f.unread = f'.unread) (hshort : ShortHeads maxReqsPerConn f.unread) :
    ((serveOne codec).exec (answer env) ⟨f, []⟩).1 = ((serveOne codec).exec (answer env) ⟨f', []⟩).1 ∧
      ((serveOne codec).exec (answer env) ⟨f, []⟩).2.log = ((serveOne codec).exec (answer env) ⟨f', []⟩).2.log := by
  obtain ⟨x, log', -, h⟩ := @serveRequests_settled env codec maxReqsPerConn _ [] hshort
  obtain ⟨hr, hl⟩ := h [] ⟨f, []⟩ rfl rfl
  obtain ⟨hr', hl'⟩ := h [] ⟨f', []⟩ hstream.symm rfl
  exact ⟨hr.trans hr'.symm, hl.trans hl'.symm⟩

def oneGet : Bytes := text "GET /dns-query?dns=AAAB HTTP/1.1\r\n\r\n"

def servedGet (cut : Nat) : Except ConnError Unit × List Op :=
  let r := (serveOne wireCodec).exec (answer fun _ o => (arriving [] o).1) ⟨⟨oneGet, fun _ => cut⟩, []⟩
  (r.1, r.2.log)

theorem read_split_independent_get : servedGet 0 = servedGet 99 := by
  have hshort : ShortHeads maxReqsPerConn oneGet := by
    intro pos hpos
    obtain rfl : pos = 32 := Option.some.inj (hpos.symm.trans (by decide +kernel))
    refine ⟨by decide, fun req _ => ?_⟩
    rw [drop_eq_nil_of_le (le_trans (by decide +kernel : oneGet.length ≤ 32 + 4) (Nat.le_add_right ..))]
    nofun
  have h := read_split_independent wireCodec (fun _ o => (arriving [] o).1)
    (rfl : (⟨oneGet, fun _ => 0⟩ : Feed UInt8).unread = (⟨oneGet, fun _ => 99⟩ : Feed UInt8).unread) hshort
  exact Prod.ext h.1 h.2

end Dnsd.Io.Doh
