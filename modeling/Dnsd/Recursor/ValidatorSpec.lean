/-
# ValidatorSpec — the validator keeps to its contract.

One lemma per function of `Validator`.  The contract (`trustPre`, `trustPost`) says that keys are stored or admitted
only with a chain of trust behind them, and that cached keys are dropped and zones marked negative only on account
of a step (`trustKept_reach`).
-/
import Dnsd.Recursor.ValidatorPaths

namespace Dnsd.Recursor

open Proto Lib Contract

variable {ι : Type} {C : Crypto} {N : Net ι} {sig : RRSIG}

/-! ## The contract -/

def DsProven (R : TrustRules) (C : Crypto) (N : Net ι) (i : ι) (step : ChainStep) : Prop :=
  ∃ parent parentKeys, Trusted R C N i parent parentKeys ∧ R.above parent step.zone ∧
    ∃ sig now, dsSigOf step = some sig ∧ N.clock now ∧ InWindow now sig ∧
      ∃ k ∈ parentKeys, verifyRrset C step.ds sig k = true

/-- Moreover the DS set covers a key of a key set that is trusted for its zone. -/
def StepProven (R : TrustRules) (C : Crypto) (N : Net ι) (i : ι) (step : ChainStep) : Prop :=
  DsProven R C N i step ∧
    ∃ keys, Admissible R C N i step.zone keys ∧ dsMatch C step.ds step.zone keys = true

def trustPost (R : TrustRules) (C : Crypto) (N : Net ι) (i : ι) : (o : Op) → o.Res → Prop
  | .unixNow, t => N.clock t
  | .struck, b => b = true → N.deadlines
  | .query asked ip q, r => N.reply asked ip q r
  | .loadAnchors, a => N.anchors i a
  | .keyGet zone, r => ∀ keys, r = some keys → Admissible R C N i zone keys
  | _, _ => True

def Judged (R : TrustRules) (C : Crypto) (N : Net ι) (i : ι) (walk : WalkChain) (answer : Message)
    (status : ValidationStatus) (zones : List Name) : Prop :=
  (validateWalkBody C walk answer).Yields (trustPost R C N i) (status, zones)

/-- Asking the servers for a zone's keys can fail: there is none, or one of them sends nothing that
parses. -/
def Unanswered (N : Net ι) (asked zone : Name) (ips : List IpAddr) : Prop :=
  ips = [] ∨ ∃ ip ∈ ips, ∃ r, N.reply asked ip ⟨zone, .DNSKEY, .IN⟩ r ∧ ∀ m, r ≠ .parsed m

/-- What lets a step drop the cached keys of its zone: its DS set covers none of them. -/
def Outdated (R : TrustRules) (C : Crypto) (N : Net ι) (i : ι) (zone : Name) (step : ChainStep) :
    Prop :=
  R.walked step ∧ zone = step.zone.toLowercase ∧
    ∃ keys, Admissible R C N i zone keys ∧ dsMatch C step.ds step.zone keys = false

/-- What lets a step mark its zone negative: its own servers did not answer, or not in time. -/
def Unreachable (R : TrustRules) (N : Net ι) (zone : Name) (step : ChainStep) : Prop :=
  R.walked step ∧ zone = step.zone.toLowercase ∧ (N.deadlines ∨ Unanswered N step.zone step.zone step.nsIps)

def EventOk (R : TrustRules) (C : Crypto) (N : Net ι) (i : ι) : Event → Prop
  | .admitted zone keys => Admissible R C N i zone keys
  | .verdict walk answer status zones => Judged R C N i walk answer status zones
  | .invalidated zone step => Outdated R C N i zone step
  | .negative zone step => Unreachable R N zone step
  | .served _ _ | .sent _ => True

def trustAsk (R : TrustRules) (C : Crypto) (N : Net ι) (i : ι) : Op → Prop
  | .keyPut zone keys _ => Admissible R C N i zone keys
  | .keyInvalidate zone step => Outdated R C N i zone step
  | .keyPutNegative zone step => Unreachable R N zone step
  | .note e => EventOk R C N i e
  | _ => True

def trustPre (R : TrustRules) (C : Crypto) (N : Net ι) (i : ι) : Op → Prop
  | .keyPut zone keys _ => Admissible R C N i zone keys
  | .keyInvalidate zone step => Outdated R C N i zone step
  | .keyPutNegative zone step => Unreachable R N zone step
  | .note (.served _ _) | .note (.sent _) => False
  | .note e => EventOk R C N i e
  | .unixNow | .struck | .turn | .query _ _ _ | .loadAnchors | .readRoots | .keyGet _
  | .keyHasNegative _ => True
  | _ => False

theorem trustAsk_of_pre {R : TrustRules} {i : ι} {o : Op} (h : trustPre R C N i o) :
    trustAsk R C N i o := by
  cases o with
  | keyPut _ _ _ | keyInvalidate _ _ | keyPutNegative _ _ => exact h
  | note e => cases e <;> first | exact h | trivial
  | _ => trivial

abbrev trustContract (R : TrustRules) (C : Crypto) (N : Net ι) (i : ι) :
    Contract Unit Op Op.Res :=
  Contract.plain (trustPre R C N i) (trustPost R C N i)

def SeenDs (N : Net ι) (zone : Name) (ds : List Record) : Prop :=
  ∃ ms : List Message, (∀ m ∈ ms, ∃ asked ip, N.reply asked ip ⟨zone, .DS, .IN⟩ (.parsed m)) ∧
    ds = ms.flatMap fun m => dsRecordsOf zone m.lowercaseResponseNames

structure BootAllowed (R : TrustRules) (C : Crypto) (N : Net ι) : Prop where
  above : ∀ p z : Name, p.zoneOf z = true → p.same z = false → R.above p z
  accepts : ∀ zone ds set sig, SeenDs N zone ds → Received N zone set → set.sig = some sig →
    selfSigned C set sig = true → dsMatch C ds zone set.keys = true → R.accepts ds zone set sig

/-- The names that can be trusted when the steps `done` are validated and the DS signers of `signed`
are bootstrapped. -/
def Known (a : TrustAnchors) (done signed : List ChainStep) (p : Name) : Prop :=
  (∃ k, (p, k) ∈ a.keys) ∨ p = Name.root ∨ (∃ s ∈ done, p = s.zone) ∨
    ∃ s ∈ signed, ∃ sig, dsSigOf s = some sig ∧ p.zoneOf sig.signerName = true

structure WalkAllowed (R : TrustRules) (C : Crypto) (N : Net ι) (i : ι) (walk : WalkChain) : Prop where
  walked : ∀ step ∈ walk.steps, R.walked step
  above : ∀ a done step rest p, N.anchors i a → walk.steps = done ++ step :: rest →
    Known a done (done ++ [step]) p → p.zoneOf step.zone = true → R.above p step.zone
  accepts : ∀ step ∈ walk.steps, ∀ set sig, Received N step.zone set → set.sig = some sig →
    selfSigned C set sig = true → dsMatch C step.ds step.zone set.keys = true →
    R.accepts step.ds step.zone set sig

/-- The rules as the code has them: the parent is anywhere at or above, and the key that signs the set
need not be the one that is covered. -/
def asCoded (C : Crypto) : TrustRules where
  above p z := p.zoneOf z = true
  accepts ds zone set sig := selfSigned C set sig = true ∧ dsMatch C ds zone set.keys = true

theorem asCoded_bootAllowed : BootAllowed (asCoded C) C N where
  above _ _ hz _ := hz
  accepts _ _ _ _ _ _ _ hself hmatch := ⟨hself, hmatch⟩

theorem asCoded_walkAllowed {i : ι} {walk : WalkChain} : WalkAllowed (asCoded C) C N i walk where
  walked _ _ := trivial
  above _ _ _ _ _ _ _ _ hz := hz
  accepts _ _ _ _ _ _ hself hmatch := ⟨hself, hmatch⟩

structure ChainOk (R : TrustRules) (C : Crypto) (N : Net ι) (i : ι) (known : Name → Prop)
    (chain : ChainKeys) : Prop where
  trusted : ChainTrusted R C N i chain
  known : ∀ e ∈ chain, known e.1

section

variable {R : TrustRules} {C : Crypto} {N : Net ι} {i : ι} {known : Name → Prop} {chain : ChainKeys}
  {keys : List DNSKEY} {zone : Name}

theorem ChainOk.mono {known' : Name → Prop} (h : ChainOk R C N i known chain)
    (hk : ∀ p, known p → known' p) : ChainOk R C N i known' chain :=
  ⟨h.trusted, fun e he => hk _ (h.known e he)⟩

theorem ChainOk.putEntry (h : ChainOk R C N i known chain) (hz : known zone)
    (ht : Trusted R C N i zone keys) : ChainOk R C N i known (putEntry chain zone keys) := by
  constructor
  · intro e he
    rcases mem_putEntry he with he | rfl
    · exact h.trusted e he
    · exact ht
  · intro e he
    rcases mem_putEntry he with he | rfl
    · exact h.known e he
    · exact hz

theorem ChainOk.append (h : ChainOk R C N i known chain) (hz : known zone)
    (ht : Trusted R C N i zone keys) : ChainOk R C N i known (chain ++ [(zone, keys)]) := by
  constructor
  · intro e he
    rcases List.mem_append.mp he with he | he
    · exact h.trusted e he
    · rw [List.mem_singleton.mp he]
      exact ht
  · intro e he
    rcases List.mem_append.mp he with he | he
    · exact h.known e he
    · rw [List.mem_singleton.mp he]
      exact hz

theorem chainOk_seedChain {a : TrustAnchors} (ha : N.anchors i a)
    (hk : ∀ p k, (p, k) ∈ a.keys → known p) : ChainOk R C N i known (seedChain a) := by
  constructor
  · intro e he
    exact .anchor ha (mem_seedChain he).filled (mem_seedChain he).keys
  · intro e he
    obtain ⟨k, hk'⟩ := (mem_seedChain he).name
    exact hk _ k hk'

end

/-! ## Fetching -/

theorem lastSigOver_typeCovered {rtype : RecordType} {rs : List Record}
    (h : lastSigOver rtype rs = some sig) : sig.typeCovered = rtype := by
  have hmem := List.mem_of_getLast? h
  exact beq_iff_eq.mp (List.mem_filter.mp hmem).2

theorem dsSigOf_typeCovered {step : ChainStep} (h : dsSigOf step = some sig) : sig.typeCovered = .DS := by
  have hs := List.find?_some (p := fun s : RRSIG => s.typeCovered == .DS) h
  exact beq_iff_eq.mp hs

section

variable {R : TrustRules} {C : Crypto} {N : Net ι} {i : ι} {answer : Message} {asked parent zone : Name}
  {ds : List Record} {ips : List IpAddr} {keys parentKeys : List DNSKEY} {state : Option StepDnskeyState}
  {zones : List Name}

theorem upstreamQuery_safe {ip : IpAddr} {q : Query} :
    (trustContract R C N i).Safe () (upstreamQuery asked ip q) fun _ r =>
      ∀ m, r = .parsed m → ∃ m', N.reply asked ip q (.parsed m') ∧ m = m'.lowercaseResponseNames := by
  refine ⟨trivial, fun r hr => ?_⟩
  cases r with
  | parsed m' =>
    intro m hm
    cases hm
    exact ⟨m', hr, rfl⟩
  | failed => exact fun m hm => nomatch hm
  | unparsed => exact fun m hm => nomatch hm

def Fetched (N : Net ι) (asked zone : Name) (ips : List IpAddr) : Except FetchError DnskeySet → Prop
  | .ok set => Received N zone set
  | .error _ => Unanswered N asked zone ips

theorem fetchDnskeyFrom_safe :
    (trustContract R C N i).Safe () (fetchDnskeyFrom asked zone ips) fun _ r =>
      Fetched N asked zone ips r := by
  induction ips with
  | nil => exact Or.inl rfl
  | cons ip ips ih =>
    refine safe_bind.mpr ⟨trivial, fun r hr => ?_⟩
    cases r with
    | parsed m => exact ⟨asked, ip, m, hr, rfl⟩
    | unparsed => exact Or.inr ⟨ip, .head _, _, hr, fun m hm => nomatch hm⟩
    | failed =>
      refine ih.mono fun _ result hresult => ?_
      cases result with
      | ok set => exact hresult
      | error e => exact Or.inr ⟨ip, .head _, _, hr, fun m hm => nomatch hm⟩

theorem fetchDnskeyRrset_safe :
    (trustContract R C N i).Safe () (fetchDnskeyRrset asked zone ips) fun _ r =>
      Fetched N asked zone ips r := by
  unfold fetchDnskeyRrset
  split
  · rename_i hempty
    exact Or.inl (List.isEmpty_iff.mp hempty)
  · exact fetchDnskeyFrom_safe

theorem collectDs_safe {sig : Option RRSIG} (hds : SeenDs N zone ds)
    (hsig : ∀ s, sig = some s → s.typeCovered = .DS) :
    (trustContract R C N i).Safe () (collectDs zone ips ds sig) fun _ r =>
      SeenDs N zone r.1 ∧ ∀ s, r.2 = some s → s.typeCovered = .DS := by
  induction ips generalizing ds sig with
  | nil => exact ⟨hds, hsig⟩
  | cons ip ips ih =>
    refine upstreamQuery_safe.bind fun _ r hr => ?_
    cases r with
    | parsed m =>
      obtain ⟨m', hm', rfl⟩ := hr m rfl
      have hds' : SeenDs N zone (ds ++ dsRecordsOf zone m'.lowercaseResponseNames) := by
        obtain ⟨ms, hms, rfl⟩ := hds
        refine ⟨ms ++ [m'], ?_, by simp⟩
        intro x hx
        rcases List.mem_append.mp hx with hx | hx
        · exact hms x hx
        · rw [List.mem_singleton.mp hx]
          exact ⟨_, ip, hm'⟩
      have hsig' : ∀ s, ((lastSigOver .DS (ownRecords zone m'.lowercaseResponseNames)).or sig) =
          some s → s.typeCovered = .DS := by
        intro s hs
        rcases Option.or_eq_some_iff.mp hs with hs | ⟨_, hs⟩
        · exact lastSigOver_typeCovered hs
        · exact hsig s hs
      dsimp only
      split
      · exact ⟨hds', hsig'⟩
      · exact ih hds' hsig'
    | unparsed => exact ih hds hsig
    | failed => exact ih hds hsig

/-! ## The root and skipped zones -/

variable {known : Name → Prop} {chain : ChainKeys}

theorem trust_reads : Reads (trustContract R C N i) := ⟨fun _ _ => trivial, fun _ => trivial⟩

theorem admitCached_safe {α : Type} {a : α} {Q : Unit → α → Prop} (hadm : Admissible R C N i zone keys)
    (hQ : Q () a) : (trustContract R C N i).Safe () (admitCached zone keys a) Q :=
  ⟨hadm, fun _ _ => hQ⟩

theorem admitFetched_safe {set : DnskeySet} {α : Type} {a : α} {Q : Unit → α → Prop}
    (hadm : Admissible R C N i zone set.keys) (hQ : Q () a) :
    (trustContract R C N i).Safe () (admitFetched zone set a) Q :=
  ⟨hadm.congr (by simp), fun _ _ => ⟨hadm, fun _ _ => hQ⟩⟩

def Booted {ε : Type} (R : TrustRules) (C : Crypto) (N : Net ι) (i : ι) (known : Name → Prop)
    (r : Except ε ChainKeys) : Prop :=
  ∀ c, r = .ok c → ChainOk R C N i known c

theorem booted_error {ε : Type} {e : ε} : Booted R C N i known (.error e) := fun _ h => nomatch h

theorem booted_putEntry {ε : Type} (h : ChainOk R C N i known chain) (hz : known zone)
    (hadm : Admissible R C N i zone keys) :
    Booted (ε := ε) R C N i known (.ok (putEntry chain zone keys)) := by
  rintro c ⟨⟩
  exact h.putEntry hz hadm.trusted

theorem spliceInZoneDnskey_safe (h : ChainOk R C N i known chain) (hroot : known Name.root) :
    (trustContract R C N i).Safe () (spliceInZoneDnskey C chain Name.root ips) fun _ r =>
      Booted R C N i known r := by
  refine spliceInZoneDnskey_paths trust_reads (fun _ _ => booted_error) (fun keys hkeys => ?_)
    fetchDnskeyRrset_safe fun _ set sig now hset hsig hnow hwin ⟨k, hk, hv⟩ => ?_
  · have hadm : Admissible R C N i Name.root keys := hkeys keys rfl
    exact admitCached_safe hadm (booted_putEntry h hroot hadm)
  · -- The verifying key is one of the root entry, so it is trusted.
    obtain ⟨e, he, hs, hkeys⟩ := mem_entryKeys hk
    have htr : Trusted R C N i Name.root (entryKeys chain Name.root) :=
      hkeys ▸ Name.same_root_iff.mp hs ▸ h.trusted e he
    have hadm : Admissible R C N i Name.root set.keys :=
      Or.inr ⟨rfl, _, set, sig, now, htr, hset, rfl, hsig, hnow, hwin, k, hk, hv⟩
    exact admitFetched_safe hadm (booted_putEntry h hroot hadm)

theorem bootstrapDnskey_safe (hboot : BootAllowed R C N) (h : ChainOk R C N i known chain)
    (hz : known zone) (hseen : SeenDs N zone ds) (hp : Trusted R C N i parent parentKeys)
    (habove : R.above parent zone) (hds : DsVerified C N parentKeys ds) :
    (trustContract R C N i).Safe () (bootstrapDnskey C chain zone ds ips) fun _ r =>
      Booted R C N i known r := by
  refine bootstrapDnskey_paths trust_reads (fun _ _ => booted_error) fetchDnskeyRrset_safe
    fun _ set sig now hset hsig hnow hwin hself hmatch => ?_
  have hacc := hboot.accepts zone ds set sig hseen hset hsig hself hmatch
  have hadm : Admissible R C N i zone set.keys :=
    Or.inl ⟨parent, parentKeys, hp, zone, ds, Name.same_refl _, habove, hds,
      set, sig, now, hset, rfl, hsig, hnow, hwin, hacc⟩
  exact admitFetched_safe hadm (booted_putEntry h hz hadm)

theorem bootable_chainOk {target : Name} (hboot : BootAllowed R C N)
    (hk : ∀ p, p.zoneOf target = true → known p) :
    Bootable (trustContract R C N i) C ips (fun _ => ChainOk R C N i known) target := by
  intro _ chain zone h hnew hsuffix
  have hzone : zone.zoneOf target.toLowercase = true := Name.zoneOf_iff.mpr (hsuffix.map _)
  have hz : known zone := hk zone (by simpa using hzone)
  refine bootstrapZone_paths trust_reads (fun _ _ => booted_error) (fun keys hkeys => ?_)
    (collectDs_safe ⟨[], by simp, rfl⟩ (by simp)) fun _ r sig now hr hsig hnow hwin ⟨k, hk, hv⟩ => ?_
  · have hadm : Admissible R C N i zone keys := (hkeys keys rfl).congr (by simp)
    exact admitCached_safe hadm (booted_putEntry h hz hadm)
  · obtain ⟨e, he, hzone, hkeys⟩ := mem_closestTrustedKeys hk
    -- The parent is not the zone itself: the zone has no entry yet.
    have hne : e.1.same zone = false := by
      refine Bool.eq_false_iff.mpr fun hs => ?_
      exact Bool.eq_false_iff.mp hnew (hasZone_iff.mpr ⟨e, he, hs⟩)
    exact bootstrapDnskey_safe hboot h hz hr.1 (h.trusted e he) (hboot.above _ _ hzone hne)
      ⟨sig, now, hr.2 sig hsig, hnow, hwin, k, hkeys ▸ hk, hv⟩

/-! ## The steps -/

def PrefetchOk (R : TrustRules) (C : Crypto) (N : Net ι) (i : ι) (step : ChainStep) : StepDnskeyState → Prop
  | .cached keys => Admissible R C N i step.zone keys ∧ dsMatch C step.ds step.zone keys = true
  | .insecure => True
  | .fetched r => ∀ set, r = .ok set → Received N step.zone set

theorem prefetchFetch_safe {step : ChainStep} (hwalked : R.walked step) :
    (trustContract R C N i).Safe () (prefetchFetch step) fun _ s => PrefetchOk R C N i step s := by
  refine (timeout_safe trivial fetchDnskeyRrset_safe).bind fun _ r hr => ?_
  match r with
  | some (.ok set) =>
    rintro s ⟨⟩
    exact hr.1 _ rfl
  | some (.error e) =>
    exact ⟨⟨hwalked, rfl, Or.inr (hr.1 _ rfl)⟩, fun _ _ s hs => nomatch hs⟩
  | none => exact ⟨⟨hwalked, rfl, Or.inl (hr.2 rfl rfl)⟩, fun _ _ s hs => nomatch hs⟩

theorem prefetchUncached_safe {step : ChainStep} (hwalked : R.walked step) :
    (trustContract R C N i).Safe () (prefetchUncached step) fun _ s =>
      PrefetchOk R C N i step s := by
  refine safe_perform_bind.mpr ⟨trivial, fun negative _ => ?_⟩
  split
  · trivial
  · exact prefetchFetch_safe hwalked

theorem prefetchStep_safe {step : ChainStep} (hwalked : R.walked step) :
    (trustContract R C N i).Safe () (prefetchStep C step) fun _ s => PrefetchOk R C N i step s := by
  refine safe_perform_bind.mpr ⟨trivial, fun cached hcached => ?_⟩
  cases cached with
  | none => exact prefetchUncached_safe hwalked
  | some keys =>
    have hadm := hcached keys rfl
    dsimp only
    split
    · rename_i hmatch
      exact ⟨hadm.congr (by simp), hmatch⟩
    · rename_i hmatch
      refine ⟨⟨hwalked, rfl, keys, hadm, Bool.eq_false_iff.mpr hmatch⟩, fun _ _ => ?_⟩
      exact prefetchUncached_safe hwalked

theorem prefetchStepDnskeys_safe {walk : WalkChain} (hwalked : ∀ s ∈ walk.steps, R.walked s) :
    (trustContract R C N i).Safe () (prefetchStepDnskeys C walk) fun _ states =>
      List.Forall₂ (PrefetchOk R C N i) walk.steps states :=
  joinAll_safe trivial fun s hs => prefetchStep_safe (hwalked s hs)

variable {a : TrustAnchors} {walk : WalkChain} {done rest : List ChainStep} {step : ChainStep}

def StepDone (R : TrustRules) (C : Crypto) (N : Net ι) (i : ι) (a : TrustAnchors)
    (done : List ChainStep) (step : ChainStep) : Except ValidationStatus ChainKeys → Prop
  | .ok c => StepProven R C N i step ∧ ChainOk R C N i (Known a (done ++ [step]) (done ++ [step])) c
  | .error status => status ≠ .secure

theorem Known.mono {done' signed signed' : List ChainStep} {p : Name}
    (h : Known a done signed p) (hd : done ⊆ done') (hs : signed ⊆ signed') :
    Known a done' signed' p := by
  rcases h with h | h | ⟨s, hs', h⟩ | ⟨s, hs', h⟩
  · exact Or.inl h
  · exact Or.inr (Or.inl h)
  · exact Or.inr (Or.inr (Or.inl ⟨s, hd hs', h⟩))
  · exact Or.inr (Or.inr (Or.inr ⟨s, hs hs', h⟩))

theorem stepDone_append (h : ChainOk R C N i (Known a done (done ++ [step])) chain)
    (hp : Trusted R C N i parent parentKeys) (habove : R.above parent step.zone)
    (hds : ∃ sig now, dsSigOf step = some sig ∧ N.clock now ∧ InWindow now sig ∧ ∃ k ∈ parentKeys, verifyRrset C step.ds sig k = true)
    (hadm : Admissible R C N i step.zone keys) (hmatch : dsMatch C step.ds step.zone keys = true) :
    StepDone R C N i a done step (.ok (chain ++ [(step.zone, keys)])) := by
  refine ⟨⟨⟨parent, parentKeys, hp, habove, hds⟩, keys, hadm, hmatch⟩, ?_⟩
  have hmono : ∀ p, Known a done (done ++ [step]) p →
      Known a (done ++ [step]) (done ++ [step]) p :=
    fun p hk => hk.mono (List.subset_append_left ..) (List.Subset.refl _)
  refine (h.mono hmono).append ?_ hadm.trusted
  exact Or.inr (Or.inr (Or.inl ⟨step, by simp, rfl⟩))

theorem acceptStepKeys_safe (hwalk : WalkAllowed R C N i walk)
    (hsplit : walk.steps = done ++ step :: rest)
    (hstate : ∀ s, state = some s → PrefetchOk R C N i step s)
    (h : ChainOk R C N i (Known a done (done ++ [step])) chain) (hp : Trusted R C N i parent parentKeys)
    (habove : R.above parent step.zone)
    (hds : ∃ sig now, dsSigOf step = some sig ∧ N.clock now ∧ InWindow now sig ∧ ∃ k ∈ parentKeys, verifyRrset C step.ds sig k = true) :
    (trustContract R C N i).Safe () (acceptStepKeys C step state chain) fun _ r =>
      StepDone R C N i a done step r := by
  refine acceptStepKeys_paths trust_reads (fun _ _ h => h) (fun keys hkeys => ?_)
    fun set sig now hfetched hsig hnow hwin hself hmatch => ?_
  · obtain ⟨hadm, hmatch⟩ := hstate _ hkeys
    exact admitCached_safe hadm (stepDone_append h hp habove hds hadm hmatch)
  · have hset : Received N step.zone set := hstate _ hfetched set rfl
    have hacc := hwalk.accepts step (by simp [hsplit]) set sig hset hsig hself hmatch
    obtain ⟨dsSig, t, hfind, ht, hdwin, hver⟩ := hds
    have hadm : Admissible R C N i step.zone set.keys :=
      Or.inl ⟨parent, parentKeys, hp, step.zone, step.ds, Name.same_refl _, habove,
        ⟨dsSig, t, dsSigOf_typeCovered hfind, ht, hdwin, hver⟩,
        set, sig, now, hset, rfl, hsig, hnow, hwin, hacc⟩
    exact admitFetched_safe hadm
      (stepDone_append h hp habove ⟨dsSig, t, hfind, ht, hdwin, hver⟩ hadm hmatch)

theorem validateStep_safe (hboot : BootAllowed R C N) (hwalk : WalkAllowed R C N i walk)
    (ha : N.anchors i a) (hsplit : walk.steps = done ++ step :: rest)
    (hstate : ∀ s, state = some s → PrefetchOk R C N i step s)
    (h : ChainOk R C N i (Known a done done) chain) :
    (trustContract R C N i).Safe () (validateStep C ips step state chain) fun _ r =>
      StepDone R C N i a done step r := by
  have h' : ChainOk R C N i (Known a done (done ++ [step])) chain :=
    h.mono fun p hk => hk.mono (List.Subset.refl _) (List.subset_append_left ..)
  refine validateStep_paths (P := fun _ => ChainOk R C N i (Known a done (done ++ [step])))
    (fun _ _ h => h) (fun _ => h') (fun dsSig hsig => ?_) fun _ c hc => ?_
  · refine bootstrapSigner_paths (bootable_chainOk hboot fun p hp => ?_) h'
    exact Or.inr (Or.inr (Or.inr ⟨step, by simp, dsSig, hsig, hp⟩))
  · refine verifyStepDs_paths trust_reads (fun _ _ h => h)
      fun dsSig now _ hsig hnow hwin ⟨k, hk, hv⟩ => ?_
    obtain ⟨e, he, hzone, hkeys⟩ := mem_closestTrustedKeys hk
    refine acceptStepKeys_safe hwalk hsplit hstate hc (hc.trusted e he) ?_
      ⟨dsSig, now, hsig, hnow, hwin, k, hkeys ▸ hk, hv⟩
    exact hwalk.above a done step rest e.1 ha hsplit (hc.known e he) hzone

def ReportOk (R : TrustRules) (C : Crypto) (N : Net ι) (i : ι) (walk : WalkChain)
    (zones : List Name) : Prop :=
  ∃ done rest, walk.steps = done ++ rest ∧ zones = done.map ChainStep.zone ∧
    ∀ s ∈ done, StepProven R C N i s

theorem validateSteps_safe {states : List StepDnskeyState} (hboot : BootAllowed R C N)
    (hwalk : WalkAllowed R C N i walk) (ha : N.anchors i a)
    (hstates : List.Forall₂ (PrefetchOk R C N i) walk.steps states)
    (h : ChainOk R C N i (Known a [] []) chain) :
    (trustContract R C N i).Safe () (validateSteps C ips walk.steps states chain []) fun _ r =>
      ReportOk R C N i walk r.2 ∧ ∀ c, r.1 = .ok c → ChainOk R C N i (fun _ => True) c := by
  -- The steps done are proven, and the chain is accounted for by them.
  have hloop : (trustContract R C N i).Safe () (validateSteps C ips walk.steps states chain [])
      (StepsDone (fun _ done c => (∀ s ∈ done, StepProven R C N i s) ∧
          ChainOk R C N i (Known a done done) c)
        (fun _ done => ∀ s ∈ done, StepProven R C N i s) walk.steps []) := by
    refine validateSteps_paths (fun _ => PrefetchOk R C N i) (fun _ _ _ _ _ h => h)
      (fun _ done step rest chain s hsplit hinv hs => ?_) hstates ⟨List.forall_mem_nil _, h⟩
    refine (validateStep_safe hboot hwalk ha hsplit (fun s' hs' => ?_) hinv.2).mono fun _ r hr => ?_
    · cases hs'
      exact hs
    · cases r with
      | error status => exact ⟨hr, hinv.1⟩
      | ok c =>
        exact ⟨List.forall_mem_append.mpr ⟨hinv.1, List.forall_mem_singleton.mpr hr.1⟩, hr.2⟩
  refine hloop.mono fun _ r hr => ?_
  obtain ⟨keys, zones⟩ := r
  obtain ⟨done, rest, hsplit, rfl, hr⟩ := hr
  cases keys with
  | error status => exact ⟨⟨done, rest, hsplit, rfl, hr.2.2⟩, fun c hc => nomatch hc⟩
  | ok c =>
    refine ⟨⟨done, rest, hsplit, rfl, hr.2.1⟩, ?_⟩
    rintro c ⟨⟩
    exact hr.2.2.mono fun _ _ => trivial

theorem validateAnswer_safe (hboot : BootAllowed R C N) (h : ChainOk R C N i (fun _ => True) chain) :
    (trustContract R C N i).Safe () (validateAnswer C ips answer chain) fun _ _ => True := by
  refine (bootstrapSigners_paths (fun _ _ => bootable_chainOk hboot fun _ _ => trivial) h).bind
    fun _ r _ => ?_
  cases r with
  | error e => trivial
  | ok c => exact ⟨trivial, fun _ _ => trivial⟩

theorem reportOk_nil : ReportOk R C N i walk [] := ⟨[], walk.steps, rfl, rfl, fun _ h => nomatch h⟩

theorem trustRoot_safe (h : ChainOk R C N i known (seedChain a)) (hroot : known Name.root) :
    (trustContract R C N i).Safe () (trustRoot C a ips) fun _ r =>
      ∀ c, r = .ok c → ChainOk R C N i known c := by
  refine (spliceInZoneDnskey_safe h hroot).bind fun _ r hr => ?_
  cases r with
  | error e => exact fun c hc => nomatch hc
  | ok c =>
    rintro c' ⟨⟩
    exact hr c rfl

theorem walkKeys_safe (hboot : BootAllowed R C N) (hwalk : WalkAllowed R C N i walk) :
    (trustContract R C N i).Safe () (walkKeys C walk) fun _ r =>
      ReportOk R C N i walk r.2.2 ∧
        ∀ c, r.2.1 = .ok c → ChainOk R C N i (fun _ => True) c := by
  refine safe_perform_bind.mpr ⟨trivial, fun a ha => ?_⟩
  split
  · exact ⟨reportOk_nil, fun c hc => nomatch hc⟩
  refine safe_perform_bind.mpr ⟨trivial, fun ips _ => ?_⟩
  have hseed : ChainOk R C N i (Known a [] []) (seedChain a) :=
    chainOk_seedChain ha fun p k hk => Or.inl ⟨k, hk⟩
  refine (trustRoot_safe hseed (Or.inr (Or.inl rfl))).bind fun _ r hr => ?_
  cases r with
  | error status => exact ⟨reportOk_nil, fun c hc => nomatch hc⟩
  | ok chain =>
    refine (prefetchStepDnskeys_safe hwalk.walked).bind fun _ states hstates => ?_
    exact (validateSteps_safe hboot hwalk ha hstates (hr chain rfl)).bind fun _ r hr => hr

theorem validateWalkBody_safe (hboot : BootAllowed R C N) (hwalk : WalkAllowed R C N i walk) :
    (trustContract R C N i).Safe () (validateWalkBody C walk answer) fun _ r =>
      ReportOk R C N i walk r.2 := by
  refine (walkKeys_safe hboot hwalk).bind fun _ r hr => ?_
  match r with
  | (_, .error status, zones) => exact hr.1
  | (_, .ok c, zones) =>
    exact (validateAnswer_safe hboot (hr.2 c rfl)).bind fun _ _ _ => hr.1

/-- **The validator keeps to its contract**, and the zones it reports are those of proven steps. -/
theorem validateWalk_safe (hboot : BootAllowed R C N) (hwalk : WalkAllowed R C N i walk) :
    (trustContract R C N i).Safe () (validateWalk C walk answer) fun _ r =>
      ReportOk R C N i walk r.2 :=
  (validateWalkBody_safe hboot hwalk).and_yields.bind fun _ _ hr => ⟨hr.2, fun _ _ => hr.1⟩

end

/-! ## Every run -/

structure TrustKept (R : TrustRules) (C : Crypto) (N : Net ι) (w : World ι) : Prop where
  anchors : ∀ i, N.anchors i (w.inst i).anchors
  positive : ∀ i zone e, (w.inst i).keys.positive.lookup zone = some e → Admissible R C N i zone e.keys
  negative : ∀ i zone e, (w.inst i).keys.negative.lookup zone = some e → ∃ step, Unreachable R N zone step
  history : ∀ i e, (i, e) ∈ w.log → EventOk R C N i e

section

variable {R : TrustRules} {C : Crypto} {N : Net ι} [DecidableEq ι] {i : ι} {o : Op}
  {ts : List (ι × RProg Unit)} {w w' : World ι}

omit [DecidableEq ι] in
theorem trustKept_init (h : Init N w) : TrustKept R C N w := by
  have hinst : ∀ i, ∃ roots a, N.anchors i a ∧ w.inst i = Instance.fresh roots a := h.fresh
  constructor
  · intro i
    obtain ⟨roots, a, ha, hi⟩ := hinst i
    rw [hi]
    exact ha
  · intro i zone e he
    obtain ⟨roots, a, _, hi⟩ := hinst i
    rw [hi] at he
    nomatch he
  · intro i zone e he
    obtain ⟨roots, a, _, hi⟩ := hinst i
    rw [hi] at he
    nomatch he
  · intro i e hm
    rw [h.log] at hm
    nomatch hm

theorem trustKept_env (hw : TrustKept R C N w) (he : Env N w w') : TrustKept R C N w' := by
  have hf := he.frame
  refine ⟨fun i => hf.anchors i (hw.anchors i), ?_, ?_, ?_⟩
  · intro i zone e h
    rw [hf.keys i] at h
    exact hw.positive i zone e h
  · intro i zone e h
    rw [hf.keys i] at h
    exact hw.negative i zone e h
  · intro i e h
    rw [hf.log] at h
    exact hw.history i e h

omit [DecidableEq ι] in
theorem trustPost_of_answers {r : o.Res} (hw : TrustKept R C N w) (h : Answers N i w o r) :
    trustPost R C N i o r := by
  cases o with
  | unixNow => exact h
  | struck => exact h
  | query asked ip q => exact h
  | loadAnchors =>
    cases h
    exact hw.anchors i
  | keyGet zone =>
    intro keys hk
    obtain rfl : r = (w.inst i).keys.getPositive w.now zone := h
    obtain ⟨e, he, rfl⟩ := DnskeyCache.getPositive_eq_some hk
    exact hw.positive i zone e he
  | _ => trivial

omit [DecidableEq ι] in
theorem eventOk_of_ask {e : Event} (hpre : trustAsk R C N i o) (he : o.event? = some e) :
    EventOk R C N i e := by
  cases o with
  | keyInvalidate zone step =>
    cases he
    exact hpre
  | keyPutNegative zone step =>
    cases he
    exact hpre
  | note ev =>
    cases he
    exact hpre
  | _ => nomatch he

theorem trustKept_step {r : o.Res} (hw : TrustKept R C N w) (hask : trustAsk R C N i o)
    (hs : Step N i w o r w') : TrustKept R C N w' := by
  obtain ⟨_, victim, rfl⟩ := hs
  constructor
  · intro j
    rw [World.anchors_apply]
    exact hw.anchors j
  · intro j zone e he
    rcases World.lookup_positive_apply he with he | ⟨ttl, rfl, rfl⟩
    · exact hw.positive j zone e he
    · exact hask
  · intro j zone e he
    rcases World.lookup_negative_apply he with he | ⟨step, rfl, rfl⟩
    · exact hw.negative j zone e he
    · exact ⟨step, hask⟩
  · intro j e hm
    rcases World.mem_log_apply.mp hm with ⟨ev, hev, heq⟩ | hm
    · cases heq
      exact eventOk_of_ask hask hev
    · exact hw.history j e hm

theorem trustKept_reach {start : ι → RProg Unit → Prop}
    (hstart : ∀ i p, start i p → (trustContract R C N i).Safe () p fun _ _ => True)
    (h : (system N start).Reach w ts) : TrustKept R C N w := by
  have hkeeps : (system N start).Keeps (fun i => trustContract R C N i) (TrustKept R C N)
      (fun _ _ => True) () := by
    refine System.keeps_plain ?_ ?_ ?_ hstart
    · exact fun w hw => trustKept_init hw
    · exact fun w w' hw he => trustKept_env hw he
    · exact fun i w o r w' hw hpre hs => 
        ⟨trustPost_of_answers hw hs.1, trustKept_step hw (trustAsk_of_pre hpre) hs⟩
  exact hkeeps.reach_inv h

def validations (C : Crypto) (N : Net ι) : System ι Op Op.Res (World ι) :=
  system N fun _ p => ∃ walk answer, p = validateTask C walk answer

theorem validations_kept (h : (validations C N).Reach w ts) : TrustKept (asCoded C) C N w := by
  refine trustKept_reach ?_ h
  rintro i p ⟨walk, answer, rfl⟩
  exact (validateWalk_safe asCoded_bootAllowed asCoded_walkAllowed).bind fun _ _ _ => trivial

end

end Dnsd.Recursor
