/-
# DohFraming — which octets of a DoH connection belong to which request.

The ledger of a connection keeps what has been received, the heads that were parsed with their queries, and the
queries the handler got.  `handle_request` looks at Content-Length for POST only, so the declared body of a GET is
parsed as the next request (`doh_framing_smuggled`).
-/
import Dnsd.Io.Doh
import Dnsd.Lib.History
import Dnsd.Lib.Layout

namespace Dnsd.Io.Doh

open Lib Lib.Contract List
open Upstream (Bytes)

variable {bodySeed buf head pending : Bytes} {codec : Codec} {n searchFrom : Nat} {req : RequestHead}

/-! ## The ledger of a connection -/

structure Exchange where
  head : Bytes
  query : Option Bytes
  deriving DecidableEq, Repr

namespace Exchange

def request? (x : Exchange) : Option RequestHead :=
  match parseRequestHead (x.head.take (x.head.length - 4)) with
  | .error _ => none
  | .ok req =>
      match validateFraming req.headers with
      | .error _ => none
      | .ok () => some req

def declared (x : Exchange) : Nat := (x.request?.bind fun req => contentLength req.headers).getD 0

def hasMethod (method : String) (x : Exchange) : Prop := ∃ req, x.request? = some req ∧ req.method = text method

instance (method : String) (x : Exchange) : Decidable (x.hasMethod method) :=
  decidable_of_iff (∃ req ∈ x.request?, req.method = text method) (by simp [hasMethod, Option.mem_def])

def body (x : Exchange) : Bytes := if x.hasMethod "POST" then x.query.getD [] else []

def octets (x : Exchange) : Bytes := x.head ++ x.body

end Exchange

def answerLast (query : Bytes) : List Exchange → List Exchange
  | [] => []
  | [x] => [{ x with query := some query }]
  | x :: y :: xs => x :: answerLast query (y :: xs)

@[simp] theorem answerLast_concat (query : Bytes) (xs : List Exchange) (x : Exchange) :
    answerLast query (xs ++ [x]) = xs ++ [{ x with query := some query }] := by
  induction xs with
  | nil => rfl
  | cons y ys ih =>
    cases ys with
    | nil => rfl
    | cons z zs => exact congrArg (y :: ·) ih

structure Ledger where
  received : Bytes := []
  exchanges : List Exchange := []
  dispatched : List Bytes := []
  deriving DecidableEq, Repr

namespace Ledger

def step (g : Ledger) : (o : Op) → o.Res → Ledger
  | .read _, some b => { g with received := g.received ++ b }
  | .parsing head, _ => { g with exchanges := g.exchanges ++ [⟨head, none⟩] }
  | .handle query, _ =>
      { g with exchanges := answerLast query g.exchanges, dispatched := g.dispatched ++ [query] }
  | _, _ => g

def receive (g : Ledger) (more : Bytes) : Ledger := { g with received := g.received ++ more }

@[simp] theorem receive_nil (g : Ledger) : g.receive [] = g := by
  simp [receive]

@[simp] theorem receive_receive (g : Ledger) (a b : Bytes) : (g.receive a).receive b = g.receive (a ++ b) := by
  simp [receive]

/-- Where request `i` starts in the stream. -/
def start (g : Ledger) (i : Nat) : Nat := offset Exchange.octets g.exchanges i

end Ledger

def ledger (t : Prog.Trace Op.Res) : Ledger := t.foldl (fun g x => g.step x.1 x.2) {}

/-! ## What every connection keeps -/

def Asks (req : RequestHead) (query : Bytes) : Prop :=
  (req.method = text "GET" ∧ parseGetDnsParam req.path = some query) ∨
    (req.method = text "POST" ∧ contentLength req.headers = some query.length)

structure Exchange.Sound (x : Exchange) : Prop where
  ends : findSubsequence doubleCrlf x.head = some (x.head.length - 4)
  asks : ∀ query, x.query = some query → ∃ req, x.request? = some req ∧ Asks req query

structure Framed (g : Ledger) : Prop where
  laid : g.exchanges.flatMap Exchange.octets <+: g.received
  sound : ∀ x ∈ g.exchanges, x.Sound
  answered : ∀ x ∈ g.exchanges.dropLast, x.query ≠ none
  dispatched : g.dispatched = g.exchanges.filterMap Exchange.query
  count : g.exchanges.length ≤ maxReqsPerConn

structure Between (n : Nat) (g : Ledger) (pending : Bytes) : Prop where
  received : g.received = g.exchanges.flatMap Exchange.octets ++ pending
  sound : ∀ x ∈ g.exchanges, x.Sound
  answered : ∀ x ∈ g.exchanges, x.query ≠ none
  dispatched : g.dispatched = g.exchanges.filterMap Exchange.query
  count : g.exchanges.length + n = maxReqsPerConn

theorem Between.framed {g : Ledger} (h : Between n g pending) : Framed g where
  laid := ⟨pending, h.received.symm⟩
  sound := h.sound
  answered x hx := h.answered x (mem_of_mem_dropLast hx)
  dispatched := h.dispatched
  count := by
    have := h.count
    omega

theorem Framed.receive {g : Ledger} (h : Framed g) (more : Bytes) : Framed (g.receive more) where
  laid := h.laid.trans (prefix_append ..)
  sound := h.sound
  answered := h.answered
  dispatched := h.dispatched
  count := h.count

theorem Between.receive {g : Ledger} (h : Between n g pending) (more : Bytes) :
    Between n (g.receive more) (pending ++ more) where
  received := by
    show g.received ++ more = _
    rw [h.received, append_assoc]
    rfl
  sound := h.sound
  answered := h.answered
  dispatched := h.dispatched
  count := h.count

abbrev watched : Contract Ledger Op Op.Res := monitoring Ledger.step Possible Framed

theorem safe_read (max : Nat) {α : Type} {k : Option Bytes → DohProg α} {g : Ledger} {Q : Ledger → α → Prop}
    (hg : Framed g) (hfailed : watched.Safe g (k none) Q)
    (hread : ∀ b, b.length ≤ max → watched.Safe (g.receive b) (k (some b)) Q) :
    watched.Safe g (.op (.read max) k) Q := by
  refine ⟨fun r _ => ?_, fun r hr => ?_⟩
  · cases r with
    | none => exact hg
    | some b => exact hg.receive b
  · cases r with
    | none => exact hfailed
    | some b => exact hread b hr

theorem safe_reject {α : Type} {status : Nat} {reason body : String} {e : ConnError} {g : Ledger}
    {Q : Ledger → Except ConnError α → Prop} (hg : Framed g) (hQ : ∀ e, Q g (.error e)) :
    watched.Safe g (reject status reason body e) Q :=
  ⟨fun _ _ => hg, fun _ _ => hQ _⟩

/-! ## Step by step -/

theorem not_occursAt_roll (hfrom : searchFrom ≤ buf.length)
    (hnone : ∀ j < searchFrom, ¬ OccursAt doubleCrlf buf j)
    (hfind : findSubsequence doubleCrlf (buf.drop searchFrom) = none) (more : Bytes) :
    ∀ j < buf.length - 3, ¬ OccursAt doubleCrlf (buf ++ more) j := by
  intro j hj hocc
  have hbuf : OccursAt doubleCrlf buf j := hocc.of_append (by
    show j + 4 ≤ buf.length
    omega)
  by_cases hlt : j < searchFrom
  · exact hnone j hlt hbuf
  · refine findSubsequence_eq_none hfind (i := j - searchFrom) (by rw [length_drop]; omega) ?_
    unfold OccursAt at hbuf ⊢
    rwa [drop_drop, Nat.add_sub_cancel' (by omega)]

def HeadRead (g : Ledger) (buf : Bytes) (g' : Ledger) (buf' : Bytes) (headEnd : Nat) : Prop :=
  ∃ more, buf' = buf ++ more ∧ g' = g.receive more ∧ 4 ≤ headEnd ∧ headEnd ≤ buf'.length ∧
    findSubsequence doubleCrlf buf' = some (headEnd - 4)

theorem headRead_found {g : Ledger} {pos : Nat} (hfrom : searchFrom ≤ buf.length)
    (hnone : ∀ j < searchFrom, ¬ OccursAt doubleCrlf buf j)
    (hfind : findSubsequence doubleCrlf (buf.drop searchFrom) = some pos) :
    HeadRead g buf g buf (searchFrom + pos + doubleCrlf.length) := by
  have hfirst := findSubsequence_drop hnone hfrom hfind
  have hlen := (findSubsequence_eq_some_iff.mp hfirst).1.length_le
  rw [length_drop] at hlen
  change 4 ≤ _ at hlen
  show HeadRead g buf g buf (searchFrom + pos + 4)
  refine ⟨[], (append_nil buf).symm, (Ledger.receive_nil g).symm, Nat.le_add_left 4 _, by omega, ?_⟩
  rw [hfirst, Nat.add_sub_cancel]

theorem HeadRead.of_receive {g g' : Ledger} {buf' chunk : Bytes} {headEnd : Nat}
    (h : HeadRead (g.receive chunk) (buf ++ chunk) g' buf' headEnd) : HeadRead g buf g' buf' headEnd := by
  obtain ⟨more, rfl, rfl, hrest⟩ := h
  exact ⟨chunk ++ more, append_assoc .., Ledger.receive_receive .., hrest⟩

theorem safe_readUntilDoubleCrlf {fuel : Nat} {g : Ledger} {seconds : Nat} (hg : Framed g)
    (hfrom : searchFrom ≤ buf.length) (hnone : ∀ j < searchFrom, ¬ OccursAt doubleCrlf buf j) :
    watched.Safe g ((readUntilDoubleCrlf fuel buf searchFrom).cancellable (.struck seconds) id)
      fun g' r => ∀ buf' headEnd, r = some (.ok (buf', headEnd)) → HeadRead g buf g' buf' headEnd := by
  induction fuel generalizing g buf searchFrom with
  | zero =>
    unfold readUntilDoubleCrlf
    split
    · rename_i pos hpos
      rintro _ _ ⟨⟩
      exact headRead_found hfrom hnone hpos
    · split
      · exact fun _ _ h => nomatch h
      · exact fun _ _ h => nomatch h
  | succ fuel ih =>
    unfold readUntilDoubleCrlf
    split
    · rename_i pos hpos
      rintro _ _ ⟨⟩
      exact headRead_found hfrom hnone hpos
    · rename_i hfind
      split
      · exact fun _ _ h => nomatch h
      -- The deadline strikes, or the read happens.
      refine ⟨fun _ _ => hg, fun struck _ => ?_⟩
      cases struck with
      | true => exact fun _ _ h => nomatch h
      | false =>
        refine safe_read 1024 hg (fun _ _ h => nomatch h) fun b _ => ?_
        cases b with
        | nil => exact fun _ _ h => nomatch h
        | cons b bs =>
          have hroll := not_occursAt_roll hfrom hnone hfind (b :: bs)
          have hwindow : buf.length - 3 ≤ (buf ++ b :: bs).length := by
            rw [length_append]
            omega
          refine (ih (hg.receive (b :: bs)) hwindow hroll).mono fun g' r hr buf' headEnd heq => ?_
          exact (hr buf' headEnd heq).of_receive

theorem safe_readBody {fuel length : Nat} {g : Ledger} {body : Bytes} (hg : Framed g)
    (hlen : body.length ≤ length) :
    watched.Safe g (readBody fuel length body) fun g' r => ∀ whole, r = .ok whole →
      ∃ more, whole = body ++ more ∧ g' = g.receive more ∧ whole.length = length := by
  induction fuel generalizing g body with
  | zero =>
    unfold readBody
    split
    · rintro _ ⟨⟩
      exact ⟨[], (append_nil body).symm, (Ledger.receive_nil g).symm, by omega⟩
    · rintro _ ⟨⟩
  | succ fuel ih =>
    unfold readBody
    split
    · rintro _ ⟨⟩
      exact ⟨[], (append_nil body).symm, (Ledger.receive_nil g).symm, by omega⟩
    refine safe_read _ hg (by rintro _ ⟨⟩) fun b hb => ?_
    cases b with
    | nil => rintro _ ⟨⟩
    | cons b bs =>
      have hlen' : (body ++ b :: bs).length ≤ length := by
        rw [length_append]
        omega
      refine (ih (hg.receive (b :: bs)) hlen').mono fun g' r hr whole heq => ?_
      obtain ⟨more, rfl, rfl, hwhole⟩ := hr whole heq
      exact ⟨b :: bs ++ more, append_assoc .., Ledger.receive_receive .., hwhole⟩

theorem safe_takeQuery {g : Ledger} (hg : Framed g) :
    watched.Safe g (takeQuery req bodySeed) fun g' r => ∀ query pending, r = .ok (query, pending) →
      ∃ more, g' = g.receive more ∧ Asks req query ∧
        bodySeed ++ more = (if req.method = text "POST" then query else []) ++ pending := by
  have hreject : ∀ {status reason body e}, watched.Safe g (reject status reason body e)
      fun g' r => ∀ query pending, r = .ok (query, pending) →
      ∃ more, g' = g.receive more ∧ Asks req query ∧
        bodySeed ++ more = (if req.method = text "POST" then query else []) ++ pending :=
    safe_reject hg fun _ _ _ h => nomatch h
  unfold takeQuery
  by_cases hget : req.method = text "GET"
  · rw [if_pos hget]
    have hpost : req.method ≠ text "POST" := by
      rw [hget]
      decide
    split
    · rename_i query hquery
      rintro _ _ ⟨⟩
      refine ⟨[], (Ledger.receive_nil g).symm, Or.inl ⟨hget, hquery⟩, ?_⟩
      rw [if_neg hpost, append_nil, nil_append]
    · exact hreject
  · rw [if_neg hget]
    by_cases hpost : req.method = text "POST"
    · simp only [if_pos hpost]
      split
      · simpa only [if_pos hpost] using hreject
      split
      · exact fun _ _ h => nomatch h
      · rename_i length hlength
        split
        · simpa only [if_pos hpost] using hreject
        split
        · rename_i hseed
          rintro _ _ ⟨⟩
          refine ⟨[], (Ledger.receive_nil g).symm, Or.inr ⟨hpost, ?_⟩, ?_⟩
          · rw [length_take, Nat.min_eq_left hseed, hlength]
          · rw [append_nil, take_append_drop]
        · rename_i hseed
          refine (safe_readBody hg (by omega)).bind fun g' r hr => ?_
          rintro query pending heq
          cases r with
          | error e => nomatch heq
          | ok whole =>
            obtain ⟨more, rfl, rfl, hwhole⟩ := hr whole rfl
            cases heq
            refine ⟨more, rfl, Or.inr ⟨hpost, ?_⟩, (append_nil _).symm⟩
            rw [hwhole, hlength]
    · rw [if_neg hpost]
      exact hreject

theorem Between.parsing {g : Ledger} {seed : Bytes} (h : Between (n + 1) g (head ++ seed))
    (hends : findSubsequence doubleCrlf head = some (head.length - 4)) :
    Framed (g.step (.parsing head) ()) where
  laid := by
    refine ⟨seed, ?_⟩
    show (g.exchanges ++ [({ head, query := none } : Exchange)]).flatMap Exchange.octets ++ seed = g.received
    rw [h.received]
    simp [Exchange.octets, Exchange.body]
  sound := by
    intro x hx
    rcases mem_append.mp hx with hx | hx
    · exact h.sound x hx
    · rw [mem_singleton.mp hx]
      exact ⟨hends, fun _ hq => nomatch hq⟩
  answered := by
    show ∀ x ∈ (g.exchanges ++ [({ head, query := none } : Exchange)]).dropLast, x.query ≠ none
    rw [dropLast_concat]
    exact h.answered
  dispatched := by
    show g.dispatched = (g.exchanges ++ [({ head, query := none } : Exchange)]).filterMap Exchange.query
    rw [h.dispatched]
    simp
  count := by
    show (g.exchanges ++ [({ head, query := none } : Exchange)]).length ≤ maxReqsPerConn
    have := h.count
    rw [length_append, length_singleton]
    omega

theorem Between.handled {g : Ledger} {query : Bytes}
    (h : Between (n + 1) g (head ++ ((if req.method = text "POST" then query else []) ++ pending)))
    (hends : findSubsequence doubleCrlf head = some (head.length - 4))
    (hreq : (⟨head, none⟩ : Exchange).request? = some req) (hasks : Asks req query) (r : Option Bytes) :
    Between n ((g.step (.parsing head) ()).step (.handle query) r) pending := by
  have hexchanges : ((g.step (.parsing head) ()).step (.handle query) r).exchanges =
      g.exchanges ++ [⟨head, some query⟩] := answerLast_concat ..
  have hreq' : (⟨head, some query⟩ : Exchange).request? = some req := hreq
  have hbody : (⟨head, some query⟩ : Exchange).body = if req.method = text "POST" then query else [] := by
    unfold Exchange.body Exchange.hasMethod
    simp [hreq']
  constructor
  case received =>
    rw [hexchanges]
    show g.received = _
    rw [h.received]
    simp [Exchange.octets, hbody]
  case sound =>
    rw [hexchanges]
    intro x hx
    rcases mem_append.mp hx with hx | hx
    · exact h.sound x hx
    · rw [mem_singleton.mp hx]
      refine ⟨hends, ?_⟩
      rintro _ ⟨⟩
      exact ⟨req, hreq', hasks⟩
  case answered =>
    rw [hexchanges]
    intro x hx
    rcases mem_append.mp hx with hx | hx
    · exact h.answered x hx
    · rw [mem_singleton.mp hx]
      nofun
  case dispatched =>
    rw [hexchanges]
    show g.dispatched ++ [query] = _
    rw [h.dispatched]
    simp
  case count =>
    rw [hexchanges, length_append, length_singleton]
    have := h.count
    omega

theorem safe_handleRequest {g : Ledger} {close : Bool} (h : Between (n + 1) g (head ++ bodySeed))
    (hends : findSubsequence doubleCrlf head = some (head.length - 4))
    (hreq : (⟨head, none⟩ : Exchange).request? = some req) :
    watched.Safe (g.step (.parsing head) ()) (handleRequest codec req bodySeed close)
      fun g' r => ∀ pending, r = .ok pending → Between n g' pending := by
  have hg := h.parsing hends
  refine ⟨fun _ _ => hg, fun allowed _ => ?_⟩
  cases allowed with
  | false => exact safe_reject hg fun _ _ h => nomatch h
  | true =>
    refine ⟨fun _ _ => hg, fun token _ => ?_⟩
    show watched.Safe _ (if !dohPathAuthorized _ token then _ else _) _
    split
    · exact safe_reject hg fun _ _ h => nomatch h
    refine (safe_takeQuery hg).bind fun g' r hr => ?_
    cases r with
    | error e => exact fun _ h => nomatch h
    | ok taken =>
      obtain ⟨query, pending⟩ := taken
      obtain ⟨more, rfl, hasks, hrest⟩ := hr query pending rfl
      -- What has arrived meanwhile arrived behind the head.
      have hmore : Between (n + 1) (g.receive more)
          (head ++ ((if req.method = text "POST" then query else []) ++ pending)) := by
        rw [← hrest, ← append_assoc]
        exact h.receive more
      have hhandled : ∀ r, Between n
          (((g.step (.parsing head) ()).receive more).step (.handle query) r) pending := fun r =>
        hmore.handled hends hreq hasks r
      refine ⟨fun r _ => (hhandled r).framed, fun response _ => ?_⟩
      cases response with
      | none => exact safe_reject (hhandled none).framed fun _ _ h => nomatch h
      | some response =>
        refine ⟨fun _ _ => (hhandled (some response)).framed, fun written _ => ?_⟩
        cases written with
        | false => exact fun _ h => nomatch h
        | true =>
          rintro _ ⟨⟩
          exact hhandled (some response)

theorem safe_serveRequests {g : Ledger} (h : Between n g pending) :
    watched.Safe g (serveRequests codec n pending) fun _ _ => True := by
  induction n generalizing g pending with
  | zero => trivial
  | succ n ih =>
    refine (safe_readUntilDoubleCrlf h.framed (Nat.zero_le _) fun j hj =>
      absurd hj (Nat.not_lt_zero j)).bind fun g' r hr => ?_
    rcases r with _ | _ | ⟨buf, headEnd⟩
    · trivial
    · trivial
    · obtain ⟨more, rfl, rfl, hfour, hle, hfind⟩ := hr buf headEnd rfl
      have hmore := h.receive more
      have hhead : ((pending ++ more).take headEnd).length = headEnd := by
        rw [length_take, Nat.min_eq_left hle]
      have hends : findSubsequence doubleCrlf ((pending ++ more).take headEnd) =
          some (((pending ++ more).take headEnd).length - 4) := by
        have htake := findSubsequence_take hfind
        rw [show headEnd - 4 + doubleCrlf.length = headEnd from Nat.sub_add_cancel hfour] at htake
        rw [htake, hhead]
      rw [← take_append_drop headEnd (pending ++ more)] at hmore
      refine ⟨fun _ _ => hmore.parsing hends, fun _ _ => ?_⟩
      cases hparse : parseRequestHead ((pending ++ more).take (headEnd - 4)) with
      | error e => trivial
      | ok req =>
        dsimp only [Prog.bind]
        cases hvalid : validateFraming req.headers with
        | error e => trivial
        | ok _ =>
          have hreq : ({ head := (pending ++ more).take headEnd, query := none } : Exchange).request? =
              some req := by
            unfold Exchange.request?
            rw [hhead, take_take, Nat.min_eq_left (Nat.sub_le ..), hparse]
            dsimp only
            rw [hvalid]
          refine (safe_handleRequest hmore hends hreq).bind fun g' r hr => ?_
          cases r with
          | error e => trivial
          | ok pending' =>
            dsimp only
            split
            · trivial
            · exact ih (hr pending' rfl)

/-! ## Declared bodies -/

theorem Exchange.Sound.four_le {x : Exchange} (h : x.Sound) : 4 ≤ x.head.length := by
  have hocc := (findSubsequence_eq_some_iff.mp h.ends).1.length_le
  rw [length_drop] at hocc
  change 4 ≤ _ at hocc
  omega

theorem Exchange.body_get {x : Exchange} (h : x.hasMethod "GET") : x.body = [] := by
  obtain ⟨req, hreq, hmethod⟩ := h
  refine if_neg ?_
  rintro ⟨req', hreq', hmethod'⟩
  rw [hreq] at hreq'
  obtain rfl := Option.some.inj hreq'
  rw [hmethod] at hmethod'
  exact absurd hmethod' (by decide)

theorem Exchange.Sound.declared_le {x : Exchange} (h : x.Sound) (hquery : x.query ≠ none) :
    x.hasMethod "GET" ∨ x.declared = x.body.length := by
  obtain ⟨query, hq⟩ := Option.ne_none_iff_exists'.mp hquery
  obtain ⟨req, hreq, ⟨hmethod, _⟩ | ⟨hmethod, hlength⟩⟩ := h.asks query hq
  · exact Or.inl ⟨req, hreq, hmethod⟩
  · right
    unfold Exchange.declared Exchange.body
    rw [if_pos ⟨req, hreq, hmethod⟩, hreq, hq, Option.bind_some, hlength]
    rfl

namespace Ledger

/-- The octet at `p` belongs to the body that request `i` declares. -/
def InBody (g : Ledger) (i : Nat) (x : Exchange) (p : Nat) : Prop :=
  g.start i + x.head.length ≤ p ∧ p < g.start i + x.head.length + x.declared

/-- The octet at `p` was parsed as part of the head of request `i`, or dispatched as part of its query. -/
def Uses (g : Ledger) (i : Nat) (x : Exchange) (p : Nat) : Prop :=
  g.start i ≤ p ∧ p < g.start i + x.octets.length

def Undisturbed (g : Ledger) : Prop :=
  ∀ i j x y, i ≠ j → g.exchanges[i]? = some x → g.exchanges[j]? = some y →
    ∀ p, g.InBody i x p → ¬ g.Uses j y p

def BodilessGets (g : Ledger) : Prop := ∀ x ∈ g.exchanges.dropLast, x.hasMethod "GET" → x.declared = 0

instance (g : Ledger) : Decidable g.BodilessGets := List.decidableBAll _ _

end Ledger

theorem Framed.bodilessGets {g : Ledger} (h : Framed g) (hu : g.Undisturbed) : g.BodilessGets := by
  intro x hx hget
  obtain ⟨i, hi, rfl⟩ := getElem_of_mem hx
  rw [length_dropLast] at hi
  rw [getElem_dropLast] at hget ⊢
  have hi₀ : i < g.exchanges.length := by omega
  have hi₁ : i + 1 < g.exchanges.length := by omega
  have hx : g.exchanges[i]? = some g.exchanges[i] := List.getElem?_eq_getElem hi₀
  have hy : g.exchanges[i + 1]? = some g.exchanges[i + 1] := List.getElem?_eq_getElem hi₁
  -- The next request starts right behind the head.
  have hnext : g.start (i + 1) = g.start i + g.exchanges[i].head.length := by
    unfold Ledger.start
    rw [offset_succ hx, Exchange.octets, Exchange.body_get hget, append_nil]
  have hlong : 0 < g.exchanges[i + 1].octets.length := by
    have := (h.sound _ (getElem_mem hi₁)).four_le
    rw [Exchange.octets, length_append]
    omega
  by_contra hne
  refine hu i (i + 1) _ _ (by omega) hx hy (g.start (i + 1)) ⟨by omega, by omega⟩ ⟨le_refl _, by omega⟩

theorem Framed.undisturbed {g : Ledger} (h : Framed g) (hget : g.BodilessGets) : g.Undisturbed := by
  rintro i j x y hij hx hy p ⟨hlow, hhigh⟩ ⟨hlow', hhigh'⟩
  rcases Nat.lt_or_gt_of_ne hij with hlt | hgt
  · -- A request that is not the last one has used what it declared.
    obtain ⟨hj, _⟩ := List.getElem?_eq_some_iff.mp hy
    have hlast : x ∈ g.exchanges.dropLast := by
      obtain ⟨hi, rfl⟩ := List.getElem?_eq_some_iff.mp hx
      have hi' : i < g.exchanges.dropLast.length := by
        rw [length_dropLast]
        omega
      rw [← getElem_dropLast hi']
      exact getElem_mem hi'
    have hdeclared : x.declared ≤ x.body.length := by
      rcases (h.sound x (mem_of_mem_dropLast hlast)).declared_le (h.answered x hlast) with hm | heq
      · rw [hget x hlast hm]
        exact Nat.zero_le _
      · exact heq.le
    have hoffset := offset_add_le (f := Exchange.octets) hx hlt
    rw [Exchange.octets, length_append] at hoffset
    unfold Ledger.start at hlow hhigh hlow'
    omega
  · have hoffset := offset_add_le (f := Exchange.octets) hy hgt
    unfold Ledger.start at hlow hhigh'
    omega

/-! ## Every connection -/

structure Accounted (g : Ledger) : Prop where
  /-- Each head lies at its place, and ends with its first empty line. -/
  head : ∀ {i x}, g.exchanges[i]? = some x → x.head <+: g.received.drop (g.start i) ∧
    findSubsequence doubleCrlf x.head = some (x.head.length - 4)
  /-- Each query is the parameter of a GET, or exactly the declared body of a POST. -/
  query : ∀ {i x query}, g.exchanges[i]? = some x → x.query = some query → ∃ req, x.request? = some req ∧
    ((req.method = text "GET" ∧ parseGetDnsParam req.path = some query) ∨
      (req.method = text "POST" ∧ contentLength req.headers = some query.length ∧
        query <+: g.received.drop (g.start i + x.head.length)))
  /-- Requests use the stream in order. -/
  ordered : ∀ {i j x}, i < j → g.exchanges[i]? = some x → g.start i + x.octets.length ≤ g.start j
  dispatched : g.dispatched = g.exchanges.filterMap Exchange.query

theorem Framed.accounted {g : Ledger} (h : Framed g) : Accounted g where
  head hx := ⟨(prefix_append ..).trans (drop_offset hx h.laid), (h.sound _ (mem_of_getElem? hx)).ends⟩
  query {i x query} hx hq := by
    obtain ⟨req, hreq, ⟨hmethod, hparam⟩ | ⟨hmethod, hlength⟩⟩ :=
      (h.sound x (mem_of_getElem? hx)).asks query hq
    · exact ⟨req, hreq, Or.inl ⟨hmethod, hparam⟩⟩
    · refine ⟨req, hreq, Or.inr ⟨hmethod, hlength, ?_⟩⟩
      have hoctets : x.octets = x.head ++ query := by
        unfold Exchange.octets Exchange.body
        rw [if_pos ⟨req, hreq, hmethod⟩, hq]
        rfl
      have hlaid := drop_offset hx h.laid
      rw [hoctets] at hlaid
      obtain ⟨rest, hrest⟩ := hlaid
      unfold Ledger.start
      rw [← drop_drop, ← hrest, append_assoc, drop_left]
      exact prefix_append ..
  ordered hij hx := offset_add_le hx hij
  dispatched := h.dispatched

theorem framed_of_runs {t : Prog.Trace Op.Res} {res : Option (Except ConnError Unit)}
    (h : (serveOne codec).Runs Possible t res) : Framed (ledger t) := by
  have hstart : Between maxReqsPerConn {} [] :=
    ⟨rfl, fun _ hx => (nomatch hx), fun _ hx => (nomatch hx), rfl, Nat.zero_add _⟩
  exact (safe_serveRequests hstart).monitored hstart.framed h

/-- **The framing of a connection.**  At every point of every run: heads and POST bodies lie in the stream
in the order of their requests, the handler has got the queries in that order and at most
`MAX_REQS_PER_CONN` of them, each the one its request asks for; and no octet of a declared body is used by
another request exactly if no GET that declares a body is followed by another request. -/
theorem doh_framing (codec : Codec) {t : Prog.Trace Op.Res} {res : Option (Except ConnError Unit)}
    (h : (serveOne codec).Runs Possible t res) :
    Accounted (ledger t) ∧ (ledger t).dispatched.length ≤ maxReqsPerConn ∧
      ((ledger t).Undisturbed ↔ (ledger t).BodilessGets) := by
  have hframed := framed_of_runs h
  refine ⟨hframed.accounted, ?_, hframed.bodilessGets, hframed.undisturbed⟩
  rw [hframed.dispatched]
  exact le_trans (length_filterMap_le ..) hframed.count

/-! ## A smuggled request -/

def arriving (stream : Bytes) : (o : Op) → o.Res × Bytes
  | .struck _ => (false, stream)
  | .read max => (some (stream.take max), stream.drop max)
  | .write _ => (true, stream)
  | .allows => (true, stream)
  | .authToken => (none, stream)
  | .handle _ => (some [], stream)
  | .parsing _ => ((), stream)

theorem arriving_possible (stream : Bytes) (o : Op) : Possible o (arriving stream o).1 := by
  cases o with
  | read max => exact length_take_le ..
  | _ => trivial

def connection (stream : Bytes) : Prog.Trace Op.Res := (serveOne wireCodec).trace arriving stream

theorem connection_runs (stream : Bytes) :
    (serveOne wireCodec).Runs Possible (connection stream)
      (some ((serveOne wireCodec).exec arriving stream).1) :=
  Prog.runs_trace arriving_possible ..

def pipelined : Bytes :=
  text "POST /dns-query HTTP/1.1\r\ncontent-type: application/dns-message\r\ncontent-length: 3\r\n\r\n" ++
    [0, 0, 0] ++ text "GET /dns-query?dns=AAAB HTTP/1.1\r\n\r\n"

theorem doh_framing_pipelined :
    (ledger (connection pipelined)).dispatched = [[0, 0, 0], [0, 0, 1]] ∧
      Accounted (ledger (connection pipelined)) ∧
      (ledger (connection pipelined)).dispatched.length ≤ maxReqsPerConn ∧
      ((ledger (connection pipelined)).Undisturbed ↔ (ledger (connection pipelined)).BodilessGets) :=
  ⟨by decide +kernel, doh_framing wireCodec (connection_runs pipelined)⟩

def smuggling : Bytes :=
  text "GET /dns-query?dns=AAAA HTTP/1.1\r\ncontent-length: 36\r\n\r\n" ++
    text "GET /dns-query?dns=AAAB HTTP/1.1\r\n\r\n"

theorem doh_framing_smuggled :
    (serveOne wireCodec).Runs Possible (connection smuggling) (some (.ok ())) ∧
      (ledger (connection smuggling)).received = smuggling ∧
      (ledger (connection smuggling)).exchanges.map Exchange.declared = [36, 0] ∧
      (ledger (connection smuggling)).dispatched = [[0, 0, 0], [0, 0, 1]] ∧
      ¬ (ledger (connection smuggling)).Undisturbed := by
  have hruns := connection_runs smuggling
  have hok : ((serveOne wireCodec).exec arriving smuggling).1 = .ok () := by decide +kernel
  refine ⟨hruns, by decide +kernel, by decide +kernel, by decide +kernel, fun hu => ?_⟩
  have hgets : ¬ (ledger (connection smuggling)).BodilessGets := by decide +kernel
  exact hgets ((framed_of_runs hruns).bodilessGets hu)

end Dnsd.Io.Doh
