/-
# ReverseLookup — two ways to the name of an address.

On a DNS64 listener the PTR question for an embedded address is looked up in the cache and with a forwarder only;
the question for the IPv4 address goes the whole way through the handler.  Both are followed from one state.
-/
import Dnsd.Lib.Solo
import Dnsd.Recursor.Embedding
import Dnsd.Recursor.Replies

namespace Dnsd.Recursor

open Proto Lib List

variable {msg : Message}

/-! ## What a reverse lookup brings -/

def ptrTarget? (r : Record) : Option Name :=
  match r.data with
  | .ptr target => some target
  | _ => none

def ptrTargets (m : Message) : List Name := m.answers.filterMap ptrTarget?

def reading (m : Message) : ResponseCode × List Name := (m.responseCode, ptrTargets m)

def failure : ResponseCode × List Name := (.servFail, [])

def replyReading : Reply → ResponseCode × List Name
  | .parsed m => reading m
  | _ => failure

@[simp] theorem reading_id (m : Message) (id : UInt16) : reading { m with id := id } = reading m := rfl

@[simp] theorem reading_applyToResponse (policy : DnssecPolicy) (m : Message) :
    reading (policy.applyToResponse m) = reading m := by
  cases policy <;> rfl

@[simp] theorem reading_lowercaseResponseNames (m : Message) :
    reading m.lowercaseResponseNames = reading m := by
  refine congrArg (Prod.mk m.responseCode) ?_
  show (m.answers.map Record.lowercaseName).filterMap ptrTarget? = m.answers.filterMap ptrTarget?
  rw [filterMap_map]
  rfl

theorem reading_rewrapPtrResponse {m : Message} {q : Query} {qs : List Query}
    (hq : msg.queries = q :: qs) : reading (rewrapPtrResponse msg m) = reading m := by
  rw [rewrapPtrResponse, hq]
  refine congrArg (Prod.mk m.responseCode) ?_
  show (m.answers.filterMap (rewrapRecord q.name)).filterMap ptrTarget? = m.answers.filterMap ptrTarget?
  rw [filterMap_filterMap]
  refine filterMap_congr fun r _ => ?_
  cases hdata : r.data <;> simp [rewrapRecord, ptrTarget?, hdata]

/-! ## One state, two queries -/

section

variable {ι : Type} [DecidableEq ι]

/-- An operation of a handler that is ready or not and whose rate limiter lets the client through or not. -/
def StepAs (N : Net ι) (i : ι) (ready allowed : Bool) (w : World ι) (o : Op) (r : o.Res) (w' : World ι) :
    Prop :=
  Step N i w o r w' ∧
    match o, r with
    | .isReady, b => b = ready
    | .rrlCheck _, b => b = allowed
    | _, _ => True

def Gets (C : Crypto) (cfg : Config) (N : Net ι) (i : ι) (ready allowed : Bool) (w : World ι)
    (msg : Message) (r : Option Message) : Prop :=
  ∃ nest peer w', (handleBytes C cfg nest peer true msg).RunsOn (StepAs N i ready allowed) w r w'

def PtrQuery (name : Name) (msg : Message) : Prop :=
  msg.opCode = .query ∧ ∃ qs, msg.queries = ⟨name, .PTR, .IN⟩ :: qs

def Stateless (N : Net ι) (i : ι) (f : Name → Query → Reply) : Prop :=
  ∀ domain query q qs r, query.queries = q :: qs → (N.forward i domain query r ↔ r = f domain q)

def knownReading (cfg : Config) (f : Name → Query → Reply) (w : World ι) (name : Name) :
    ResponseCode × List Name :=
  match w.cacheLookup (CacheKey.of name .PTR .IN) with
  | some m => reading m
  | none =>
      match cfg.forwarders.lookupWithDomain name with
      | some domain => replyReading (f domain ⟨name, .PTR, .IN⟩)
      | none => failure

variable {C : Crypto} {cfg : Config} {N : Net ι} {i : ι} {ready allowed : Bool} {w : World ι}
  {f : Name → Query → Reply} {name : Name} {msg : Message} {nest : Nat} {peer : IpAddr} {β : Type}
  {Q : β → World ι → Prop} {domain : Name} {k : Bool → RProg β} {key : CacheKey} {q : Query}
  {qs : List Query} {query resp : Message}

/-! ### Operations -/

theorem lands_isReady (h : (k ready).Lands (StepAs N i ready allowed) w Q) :
    (call .isReady >>= k).Lands (StepAs N i ready allowed) w Q := by
  refine Prog.lands_perform_bind ⟨ready, w, ⟨trivial, (Name.root, .A), rfl⟩, rfl⟩ ?_
  rintro r w' ⟨⟨_, _, rfl⟩, rfl⟩
  exact h

theorem lands_rrlAllows
    (h : ∀ b, (cfg.rrl = true → b = allowed) → (cfg.rrl = false → b = true) → (k b).Lands (StepAs N i ready allowed) w Q) :
    (rrlAllows cfg peer >>= k).Lands (StepAs N i ready allowed) w Q := by
  unfold rrlAllows
  split
  · rename_i hrrl
    refine Prog.lands_perform_bind ⟨allowed, w, ⟨trivial, (Name.root, .A), rfl⟩, rfl⟩ ?_
    rintro r w' ⟨⟨_, _, rfl⟩, rfl⟩
    exact h r (fun _ => rfl) fun hoff => absurd hrrl (by rw [hoff]; decide)
  · rename_i hrrl
    exact h true (fun hon => absurd hon hrrl) fun _ => rfl

theorem lands_note {e : Event} {k : Unit → RProg β}
    (h : ∀ w', (k ()).Lands (StepAs N i ready allowed) w' Q) :
    (call (.note e) >>= k).Lands (StepAs N i ready allowed) w Q := by
  refine Prog.lands_perform_bind ⟨(), _, ⟨trivial, (Name.root, .A), rfl⟩, trivial⟩ ?_
  exact fun r w' _ => h w'

theorem lands_cachePut {origin : Origin} {m : Message} {k : Unit → RProg β}
    (h : ∀ w', (k ()).Lands (StepAs N i ready allowed) w' Q) :
    (call (.cachePut origin key m) >>= k).Lands (StepAs N i ready allowed) w Q := by
  refine Prog.lands_perform_bind ⟨(), _, ⟨trivial, (Name.root, .A), rfl⟩, trivial⟩ ?_
  exact fun r w' _ => h w'

theorem lands_negHit {rtype : RecordType}
    (h : (k ((w.inst i).negResolve.hit w.now name rtype)).Lands (StepAs N i ready allowed) w Q) :
    (call (.negHit name rtype) >>= k).Lands (StepAs N i ready allowed) w Q := by
  refine Prog.lands_perform_bind ⟨_, w, ⟨rfl, (Name.root, .A), rfl⟩, trivial⟩ ?_
  rintro r w' ⟨⟨rfl, _, rfl⟩, _⟩
  exact h

theorem lands_cacheGet {k : Option Message → RProg β}
    (h : ∀ w', w'.cacheLookup key = w.cacheLookup key → w'.inst = w.inst → w'.now = w.now → (k (w.cacheLookup key)).Lands (StepAs N i ready allowed) w' Q) :
    (call (.cacheGet key) >>= k).Lands (StepAs N i ready allowed) w Q := by
  refine Prog.lands_perform_bind ⟨_, _, ⟨rfl, (Name.root, .A), rfl⟩, trivial⟩ ?_
  rintro r w' ⟨⟨rfl, victim, rfl⟩, _⟩
  cases hlook : w.cacheLookup key with
  | some m =>
    have hsame : w.apply i victim (.cacheGet key) = w := by simp [World.apply, hlook]
    have hnext := h w rfl rfl rfl
    rw [hlook] at hnext
    rwa [hsame]
  | none =>
    have herase : w.apply i victim (.cacheGet key) = { w with cache := w.cache.erase key } := by
      simp [World.apply, hlook]
    have hgone : ({ w with cache := w.cache.erase key } : World ι).cacheLookup key = none := by
      simp [World.cacheLookup]
    have hnext := h { w with cache := w.cache.erase key } (hgone.trans hlook.symm) rfl rfl
    rw [hlook] at hnext
    rwa [herase]

theorem lands_queryForwarder (hN : Stateless N i f) {k : Reply → RProg β} (hq : query.queries = q :: qs)
    (hparsed : ∀ m, f domain q = .parsed m → (k (.parsed { m.lowercaseResponseNames with id := query.id })).Lands (StepAs N i ready allowed) w Q)
    (hfailed : f domain q = .failed → (k .failed).Lands (StepAs N i ready allowed) w Q)
    (hunparsed : f domain q = .unparsed → (k .unparsed).Lands (StepAs N i ready allowed) w Q) :
    (queryForwarder domain query >>= k).Lands (StepAs N i ready allowed) w Q := by
  refine Prog.lands_perform_bind
    ⟨f domain q, w, ⟨(hN domain query q qs _ hq).mpr rfl, (Name.root, .A), rfl⟩, trivial⟩ ?_
  rintro r w' ⟨⟨hr, _, rfl⟩, _⟩
  obtain rfl := (hN domain query q qs r hq).mp hr
  cases hreply : f domain q with
  | parsed m => exact hparsed m hreply
  | failed => exact hfailed hreply
  | unparsed => exact hunparsed hreply

/-! ### The rewritten question -/

theorem resolveForwarded_lands (hN : Stateless N i f) (hq : query.queries = ⟨name, .PTR, .IN⟩ :: qs) :
    (resolveForwarded cfg query name).Lands (StepAs N i ready allowed) w fun r _ =>
      (r.map reading).getD failure = knownReading cfg f w name := by
  refine lands_cacheGet fun w' _ _ _ => ?_
  unfold knownReading
  cases w.cacheLookup (CacheKey.of name .PTR .IN) with
  | some m => exact lands_note fun _ => rfl
  | none =>
    cases cfg.forwarders.lookupWithDomain name with
    | none => rfl
    | some domain =>
      dsimp only
      refine lands_queryForwarder hN hq (fun m hreply => ?_) (fun hreply => ?_) fun hreply => ?_
      · refine lands_cachePut fun _ => ?_
        rw [hreply]
        exact reading_lowercaseResponseNames m
      · rw [hreply]
        rfl
      · rw [hreply]
        rfl

/-- **The DNS64 path brings what the cache or a forwarder has.** -/
theorem answerPtr_lands (hN : Stateless N i f) (hq : msg.queries = q :: qs) :
    (answerPtr cfg msg name).Lands (StepAs N i ready allowed) w fun resp _ =>
      reading resp = knownReading cfg f w name := by
  have hquestion : (rewriteQueryName msg name).queries = ⟨name, .PTR, .IN⟩ :: [] := rfl
  refine (resolveForwarded_lands hN hquestion).bind fun r _ hr => ?_
  cases r with
  | some m =>
    show reading (cfg.policy.applyToResponse (rewrapPtrResponse msg m)) = _
    rw [reading_applyToResponse, reading_rewrapPtrResponse hq]
    exact hr
  | none => exact hr

/-! ### The question itself -/

theorem shouldSynthesise_ptr {policy : Option Dns64Policy} {enabled : Bool} :
    shouldSynthesise policy enabled name .PTR resp = false := by
  unfold shouldSynthesise
  split
  · rfl
  · cases policy <;> rfl

theorem tryCache_lands {k : Option Message → RProg β}
    (hhit : ∀ m resp w', w.cacheLookup (CacheKey.of name .PTR .IN) = some m → reading resp = reading m →
      (k (some resp)).Lands (StepAs N i ready allowed) w' Q)
    (hmiss : ∀ w', w.cacheLookup (CacheKey.of name .PTR .IN) = none →
      w'.cacheLookup (CacheKey.of name .PTR .IN) = none → w'.inst = w.inst → w'.now = w.now →
      (k none).Lands (StepAs N i ready allowed) w' Q) :
    (tryCache cfg true msg ⟨name, .PTR, .IN⟩ >>= k).Lands (StepAs N i ready allowed) w Q := by
  rw [Prog.lands_bind]
  refine lands_cacheGet fun w' hsame hinst hnow => ?_
  cases hlook : w.cacheLookup (CacheKey.of name .PTR .IN) with
  | some m =>
    show (buildFromCacheValue cfg true msg ⟨name, .PTR, .IN⟩ m).Lands _ _ _
    rw [buildFromCacheValue, if_neg (by rw [shouldSynthesise_ptr]; decide)]
    refine lands_note fun w'' => hhit m _ w'' hlook ?_
    split
    · rfl
    · rw [reading_applyToResponse, reading_id]
  | none => exact hmiss w' hlook (hsame.trans hlook) hinst hnow

theorem storeForwarded_lands :
    (storeForwarded cfg q resp).Lands (StepAs N i ready allowed) w fun out _ =>
      reading out = reading resp :=
  lands_cachePut fun _ => reading_applyToResponse cfg.policy resp

theorem answerForwarded_lands (hN : Stateless N i f) (hq : msg.queries = ⟨name, .PTR, .IN⟩ :: qs) :
    (answerForwarded cfg domain true msg ⟨name, .PTR, .IN⟩).Lands (StepAs N i ready allowed) w
      fun resp _ => reading resp = replyReading (f domain ⟨name, .PTR, .IN⟩) := by
  refine lands_queryForwarder hN hq (fun m hreply => ?_) (fun hreply => ?_) fun hreply => ?_
  · rw [hreply]
    have hstored : (storeForwarded cfg ⟨name, .PTR, .IN⟩
        { m.lowercaseResponseNames with id := msg.id }).Lands (StepAs N i ready allowed) w
        fun resp _ => reading resp = reading m :=
      storeForwarded_lands.mono fun resp _ hresp => by
        rw [hresp, reading_id, reading_lowercaseResponseNames]
    dsimp only
    split
    · exact hstored
    · rwa [if_neg (by rw [shouldSynthesise_ptr]; decide)]
  · rw [hreply]
    rfl
  · rw [hreply]
    rfl

/-- **A remembered failure comes first.** -/
theorem answerQuestion_failed (hneg : (w.inst i).negResolve.hit w.now name .PTR = true) :
    (answerQuestion C cfg nest true msg ⟨name, .PTR, .IN⟩).Lands (StepAs N i ready allowed) w
      fun resp _ => reading resp = failure := by
  refine lands_negHit ?_
  rw [hneg]
  rfl

/-- **Where the cache or a forwarder is in charge, or nobody is, the question brings the same.** -/
theorem answerQuestion_lands (hN : Stateless N i f) (hq : msg.queries = ⟨name, .PTR, .IN⟩ :: qs)
    (hneg : (w.inst i).negResolve.hit w.now name .PTR = false)
    (hcovered : w.cacheLookup (CacheKey.of name .PTR .IN) = none → cfg.forwarders.lookupWithDomain name = none → cfg.iterative = false) :
    (answerQuestion C cfg nest true msg ⟨name, .PTR, .IN⟩).Lands (StepAs N i ready allowed) w
      fun resp _ => reading resp = knownReading cfg f w name := by
  have hknown : w.cacheLookup (CacheKey.of name .PTR .IN) = none → knownReading cfg f w name =
      match cfg.forwarders.lookupWithDomain name with
      | some domain => replyReading (f domain ⟨name, .PTR, .IN⟩)
      | none => failure := by
    intro hlook
    rw [knownReading, hlook]
  refine lands_negHit ?_
  rw [hneg]
  refine tryCache_lands (fun m resp _ hlook hresp => ?_) fun w₁ hlook hlook₁ hinst₁ hnow₁ => ?_
  · show reading resp = _
    rw [hresp, knownReading, hlook]
  -- The second look finds nothing either, and the failures are as they were.
  refine tryCache_lands (fun m _ _ hsome _ => absurd (hlook₁.symm.trans hsome) (by simp))
    fun w₂ _ _ hinst₂ hnow₂ => ?_
  have hneg₂ : (w₂.inst i).negResolve.hit w₂.now name .PTR = false := by
    rw [hinst₂, hinst₁, hnow₂, hnow₁, hneg]
  refine lands_negHit ?_
  rw [hneg₂, hknown hlook]
  cases hdomain : cfg.forwarders.lookupWithDomain name with
  | some domain => exact answerForwarded_lands hN hq
  | none =>
    rw [hcovered hlook hdomain]
    rfl

/-! ### The handler -/

theorem handleBytes_unserved (hop : msg.opCode = .query) (hq : msg.queries = q :: qs)
    (hserved : ¬(ready = true ∧ (cfg.rrl = true → allowed = true))) :
    (handleBytes C cfg nest peer true msg).Lands (StepAs N i ready allowed) w fun r _ =>
      r.map reading = if ready then none else some (.refused, []) := by
  refine lands_isReady ?_
  cases ready with
  | false =>
    show some (reading (buildRefused msg)) = _
    rw [reading, buildRefused, if_pos hop]
    rfl
  | true =>
    have hrrl : cfg.rrl = true ∧ allowed = false := by simpa using hserved
    rw [if_neg (by decide), hq]
    refine lands_rrlAllows fun b hb _ => ?_
    rw [hb hrrl.1, hrrl.2]
    rfl

theorem ptrName?_ptr :
    ptrName? cfg true ⟨name, .PTR, .IN⟩ = cfg.dns64.bind fun p => rewritePtrQuestion p name := rfl

variable {x : ResponseCode × List Name}

theorem handleBytes_served (hq : msg.queries = q :: qs) (hready : ready = true)
    (hallowed : cfg.rrl = true → allowed = true) (hddr : isDdrQuestion q.name = false)
    (hlocal : isLocalQuestion q.name q.queryType = true → reading (ipv4onlyResponse msg q cfg.dns64 true) = x)
    (hptr : isLocalQuestion q.name q.queryType = false → ∀ name, ptrName? cfg true q = some name → (answerPtr cfg msg name).Lands (StepAs N i ready allowed) w fun resp _ => reading resp = x)
    (hplain : isLocalQuestion q.name q.queryType = false → ptrName? cfg true q = none → (answerQuestion C cfg nest true msg q).Lands (StepAs N i ready allowed) w fun resp _ => reading resp = x) :
    (handleBytes C cfg nest peer true msg).Lands (StepAs N i ready allowed) w fun r _ =>
      r.map reading = some x := by
  refine lands_isReady ?_
  rw [hready] at hptr hplain ⊢
  rw [if_neg (by decide), hq]
  refine lands_rrlAllows fun b hon hoff => ?_
  have hb : b = true := by
    cases hrrl : cfg.rrl with
    | true => exact (hon hrrl).trans (hallowed hrrl)
    | false => exact hoff hrrl
  rw [hb, if_neg (by decide)]
  cases hname : isLocalQuestion q.name q.queryType with
  | true => exact congrArg some (hlocal hname)
  | false =>
    rw [if_neg (by decide), hddr, Bool.and_false, if_neg (by decide)]
    cases hrewrite : ptrName? cfg true q with
    | some name => exact (hptr hname name hrewrite).bind fun resp _ hresp => congrArg some hresp
    | none => exact (hplain hname hrewrite).bind fun resp _ hresp => congrArg some hresp

variable {p : Dns64Policy} {v4 : BitVec 32} {msg6 msg4 : Message}

theorem handleBytes_embedded (hp : cfg.dns64 = some p) (hN : Stateless N i f)
    (hmsg : PtrQuery (reverse6 (embedV4 p.net v4)) msg) (hready : ready = true)
    (hallowed : cfg.rrl = true → allowed = true) :
    (handleBytes C cfg nest peer true msg).Lands (StepAs N i ready allowed) w fun r _ =>
      r.map reading = some (knownReading cfg f w (reverse4 v4)) := by
  obtain ⟨_, qs, hq⟩ := hmsg
  have hrewrite : ptrName? cfg true ⟨reverse6 (embedV4 p.net v4), .PTR, .IN⟩ = some (reverse4 v4) := by
    rw [ptrName?_ptr, hp, Option.bind_some, rewritePtrQuestion_embedV4]
  have hlocal := isLocalQuestion_reverse6 (embedV4 p.net v4)
  refine handleBytes_served hq hready hallowed (isDdrQuestion_reverse6 _) ?_ ?_ ?_
  · exact fun h => absurd (hlocal.symm.trans h) (by decide)
  · intro _ name hname
    obtain rfl := Option.some.inj (hrewrite.symm.trans hname)
    exact answerPtr_lands hN hq
  · exact fun _ h => absurd (hrewrite.symm.trans h) (by simp)

theorem handleBytes_plain (hmsg : PtrQuery (reverse4 v4) msg)
    (hready : ready = true) (hallowed : cfg.rrl = true → allowed = true)
    (hlocal : isLocalQuestion (reverse4 v4) .PTR = true → (.noError, [ipv4onlyArpa]) = x)
    (hplain : isLocalQuestion (reverse4 v4) .PTR = false →
      (answerQuestion C cfg nest true msg ⟨reverse4 v4, .PTR, .IN⟩).Lands (StepAs N i ready allowed) w
        fun resp _ => reading resp = x) :
    (handleBytes C cfg nest peer true msg).Lands (StepAs N i ready allowed) w fun r _ =>
      r.map reading = some x := by
  obtain ⟨_, qs, hq⟩ := hmsg
  refine handleBytes_served hq hready hallowed (isDdrQuestion_reverse4 v4) hlocal ?_
    (fun hname _ => hplain hname)
  intro _ name hname
  have hrewrite : ptrName? cfg true ⟨reverse4 v4, .PTR, .IN⟩ = none := by
    rw [ptrName?_ptr]
    cases cfg.dns64 with
    | none => rfl
    | some p => exact rewritePtrQuestion_reverse4 p v4
  exact absurd (hrewrite.symm.trans hname) (by simp)

theorem gets_of_lands {y : Option (ResponseCode × List Name)}
    (h : ∀ nest peer, (handleBytes C cfg nest peer true msg).Lands (StepAs N i ready allowed) w
      fun r _ => r.map reading = y) :
    (∃ r, Gets C cfg N i ready allowed w msg r) ∧
      ∀ r, Gets C cfg N i ready allowed w msg r → r.map reading = y := by
  obtain ⟨r, w', hrun⟩ := (h 0 (.v4 0)).exists_runsOn
  refine ⟨⟨r, 0, .v4 0, w', hrun⟩, ?_⟩
  rintro r ⟨nest, peer, w', hrun⟩
  exact (h nest peer).of_runsOn hrun

/-! ## The law -/

/-- When the two lookups agree: a name that is answered locally is known with the same answer, a remembered
failure is no better known, and where neither the cache nor a forwarder is in charge, recursion fails. -/
structure Straight (C : Crypto) (cfg : Config) (N : Net ι) (i : ι) (f : Name → Query → Reply)
    (ready allowed : Bool) (w : World ι) (v4 : BitVec 32) (msg4 : Message) : Prop where
  localAnswer : isLocalQuestion (reverse4 v4) .PTR = true →
    knownReading cfg f w (reverse4 v4) = (.noError, [ipv4onlyArpa])
  failed : isLocalQuestion (reverse4 v4) .PTR = false →
    (w.inst i).negResolve.hit w.now (reverse4 v4) .PTR = true →
    knownReading cfg f w (reverse4 v4) = failure
  recursion : isLocalQuestion (reverse4 v4) .PTR = false →
    (w.inst i).negResolve.hit w.now (reverse4 v4) .PTR = false →
    w.cacheLookup (CacheKey.of (reverse4 v4) .PTR .IN) = none →
    cfg.forwarders.lookupWithDomain (reverse4 v4) = none → cfg.iterative = true →
    ∀ r, Gets C cfg N i ready allowed w msg4 r → r.map reading = some failure

theorem gets_local (h4 : PtrQuery (reverse4 v4) msg4) (hready : ready = true)
    (hallowed : cfg.rrl = true → allowed = true) (hlocal : isLocalQuestion (reverse4 v4) .PTR = true) :
    (∃ r, Gets C cfg N i ready allowed w msg4 r) ∧
      ∀ r, Gets C cfg N i ready allowed w msg4 r → r.map reading = some (.noError, [ipv4onlyArpa]) := by
  refine gets_of_lands fun _ _ => handleBytes_plain h4 hready hallowed (fun _ => rfl) fun hname => ?_
  exact absurd (hlocal.symm.trans hname) (by decide)

theorem gets_question (h4 : PtrQuery (reverse4 v4) msg4) (hready : ready = true)
    (hallowed : cfg.rrl = true → allowed = true) (hlocal : isLocalQuestion (reverse4 v4) .PTR = false)
    (h : ∀ nest, (answerQuestion C cfg nest true msg4 ⟨reverse4 v4, .PTR, .IN⟩).Lands
      (StepAs N i ready allowed) w fun resp _ => reading resp = x) :
    (∃ r, Gets C cfg N i ready allowed w msg4 r) ∧
      ∀ r, Gets C cfg N i ready allowed w msg4 r → r.map reading = some x := by
  refine gets_of_lands fun nest _ => handleBytes_plain h4 hready hallowed (fun hname => ?_) fun _ => h nest
  exact absurd (hlocal.symm.trans hname) (by decide)

theorem reads_known_iff (hN : Stateless N i f) (h4 : PtrQuery (reverse4 v4) msg4) (hready : ready = true)
    (hallowed : cfg.rrl = true → allowed = true) :
    (∀ r, Gets C cfg N i ready allowed w msg4 r →
        r.map reading = some (knownReading cfg f w (reverse4 v4))) ↔
      Straight C cfg N i f ready allowed w v4 msg4 := by
  constructor
  · intro hknown
    constructor
    · intro hlocal
      obtain ⟨⟨r, hr⟩, hread⟩ := gets_local (C := C) (N := N) (i := i) (w := w) h4 hready hallowed hlocal
      exact Option.some.inj ((hknown r hr).symm.trans (hread r hr))
    · intro hlocal hneg
      have hfailed := gets_question (C := C) (N := N) (i := i) (w := w) h4 hready hallowed hlocal
        fun _ => answerQuestion_failed hneg
      obtain ⟨⟨r, hr⟩, hread⟩ := hfailed
      exact Option.some.inj ((hknown r hr).symm.trans (hread r hr))
    · intro _ _ hmiss hdomain _ r hr
      rw [hknown r hr, knownReading, hmiss, hdomain]
  · intro hstraight r hr
    cases hlocal : isLocalQuestion (reverse4 v4) .PTR with
    | true => rw [(gets_local h4 hready hallowed hlocal).2 r hr, hstraight.localAnswer hlocal]
    | false =>
      cases hneg : (w.inst i).negResolve.hit w.now (reverse4 v4) .PTR with
      | true =>
        rw [hstraight.failed hlocal hneg]
        exact (gets_question h4 hready hallowed hlocal fun _ => answerQuestion_failed hneg).2 r hr
      | false =>
        by_cases hcovered : w.cacheLookup (CacheKey.of (reverse4 v4) .PTR .IN) = none →
            cfg.forwarders.lookupWithDomain (reverse4 v4) = none → cfg.iterative = false
        · obtain ⟨qs, hq⟩ := h4.2
          refine (gets_question h4 hready hallowed hlocal fun _ => ?_).2 r hr
          exact answerQuestion_lands hN hq hneg hcovered
        · push Not at hcovered
          obtain ⟨hmiss, hdomain, hiter⟩ := hcovered
          have hon : cfg.iterative = true := by simpa using hiter
          rw [hstraight.recursion hlocal hneg hmiss hdomain hon r hr, knownReading, hmiss, hdomain]

end

/-! ## Lookups -/

def ptrQuery (name : Name) : Message := { queries := [⟨name, .PTR, .IN⟩] }

theorem ptrQuery_ptrQuery (name : Name) : PtrQuery name (ptrQuery name) := ⟨rfl, [], rfl⟩

def embeddedQuery (v4 : BitVec 32) : Message := ptrQuery (reverse6 (embedV4 Dns64Policy.defaultWkp.net v4))
def plainQuery (v4 : BitVec 32) : Message := ptrQuery (reverse4 v4)

def scriptedLookup (s : Script) (cfg : Config) (msg : Message) : Option Message :=
  s.result (handleBytes (listCrypto []) cfg 8 (.v4 9) true msg) (freshWorld rootAnchors)

theorem scriptedLookup_gets (s : Script) (cfg : Config) (msg : Message) :
    Gets (listCrypto []) cfg (s.net rootAnchors) () true true (freshWorld rootAnchors) msg
      (scriptedLookup s cfg msg) := by
  refine ⟨8, .v4 9, _, Prog.exec_runsOn (h := s.handle ()) (fun w o => ?_) _ _⟩
  refine ⟨Script.handle_step (s.fits_net rootAnchors ()) w o, ?_⟩
  cases o <;> first | rfl | trivial

def publicAddr : BitVec 32 := 0x01020304

def privateAddr : BitVec 32 := 0x0a000001

def namingReply : Message := { answers := [sampleRecord (reverse4 publicAddr) (.ptr insideName)] }

def namingScript : Script where
  reply _ _ _ := .parsed namingReply
  forward _ _ := .parsed namingReply

def recursiveConfig : Config := { sampleConfig .strip with dns64 := some .defaultWkp }

def RecursiveReads (msg : Message) (x : ResponseCode × List Name) : Prop :=
  ∃ r, Gets (listCrypto []) recursiveConfig (namingScript.net rootAnchors) () true true
    (freshWorld rootAnchors) msg r ∧ r.map reading = some x

theorem recursiveReads_of {x : ResponseCode × List Name}
    (h : (scriptedLookup namingScript recursiveConfig msg).map reading = some x) : RecursiveReads msg x :=
  ⟨_, scriptedLookup_gets _ _ _, h⟩

end Dnsd.Recursor
