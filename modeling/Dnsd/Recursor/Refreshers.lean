/-
# Refreshers — the refresh tasks of a process, one access at a time.

`AnchorRefresh::tick`, cut at each access to what it shares: the reply of a root server, the check, the reading of
the state file, the two writes, the publication.  In between another task may move, a write may fail, or the
process may stop.  The tick of `Dnsd.Recursor.Anchor` is what the steps amount to alone (`tickSteps_run`).
-/
import Mathlib.Logic.Function.Basic
import Dnsd.Lib.Machine
import Dnsd.Recursor.Anchor

namespace Dnsd.Recursor

open Proto Lib

/-! ## Loading the anchors -/

structure AnchorFiles where
  state : StateFile
  anchor : Option (List AnchorLine)
  deriving DecidableEq, Repr

def ascii (s : String) : Text := s.toList.map fun c => UInt8.ofNat c.toNat

def embeddedRootKsks : List AnchorLine :=
  [ ⟨toAscii Name.root, 0, 257, 8, ascii (
        "AwEAAaz/tAm8yTn4Mfeh5eyI96WSVexTBAvkMgJzkKTOiW1vkIbzxeF3+/4RgWOq7HrxRixHlFlExOLAJr5e" ++
        "mLvN7SWXgnLh4+B5xQlNVz8Og8kvArMtNROxVQuCaSnIDdD5LKyWbRd2n9WGe2R8PzgCmr3EgVLrjyBxWezF" ++
        "0jLHwVN8efS3rCj/EWgvIWgb9tarpVUDK/b58Da+sqqls3eNbuv7pr+eoZG+SrDK6nWeL3c6H5Apxz7LjVc1" ++
        "uTIdsIXxuOLYA4/ilBmSVIzuDWfdRUfhHdY6+cn8HFRm+2hM8AnXGXws9555KrUB5qihylGa8subX2Nn6UwN" ++
        "R1AkUTV74bU=")⟩,
    ⟨toAscii Name.root, 0, 257, 8, ascii (
        "AwEAAa96jeuknZlaeSrvyAJj6ZHv28hhOKkx3rLGXVaC6rXTsDc449/cidltpkyGwCJNnOAlFNKF2jBosZBU" ++
        "5eeHspaQWOmOElZsjICMQMC3aeHbGiShvZsx4wMYSjH8e7Vrhbu6irwCzVBApESjbUdpWWmEnhathWu1jo+s" ++
        "iFUiRAAxm9qyJNg/wOZqqzL/dL/q8PkcRU5oUKEpUge71M3ej2/7CPqpdVwuMoTvoB+ZOT4YeGyxMvHmbrxl" ++
        "FzGOHOijtzN+u1TQNatX2XBuzZNQ1K+s2CXkPIZo7s6JgZyvaBevYtxPvYLw4z9mR7K2vaF18UYH9Z9GNUUe" ++
        "ayffKC73PYc=")⟩ ]

section

variable (K : Codec)

/-- `load_from_file` at the start of a handler: a file that cannot be read gives no anchors. -/
def loadAnchorFile (lines : List AnchorLine) : TrustAnchors :=
  match lines.mapM (AnchorLine.anchor? K) with
  | some keys => ⟨keys⟩
  | none => ⟨[]⟩

/-- `bootstrap_self_managed`: the embedded keys go to the anchor file and then, all active, to the state
file.  A failure leaves what is written and gives no anchors. -/
def bootstrapSelfManaged (disk : Disk) (f : AnchorFiles) : AnchorFiles × TrustAnchors :=
  match embeddedRootKsks.mapM (AnchorLine.anchor? K) with
  | none => (f, ⟨[]⟩)
  | some keys =>
      let managed := keys.map fun a => ManagedKey.fromObserved K (toAscii a.1) a.2 .active
      if !disk.anchorWrites then (f, ⟨[]⟩)
      else
        let f := { f with anchor := some (renderAnchorFile managed defaultAnchorTtl) }
        if !disk.stateWrites then (f, ⟨[]⟩)
        else ({ f with state := .found 1 managed }, ⟨keys⟩)

def startAnchors (disk : Disk) (f : AnchorFiles) : AnchorFiles × TrustAnchors :=
  match f.anchor with
  | some lines => (f, loadAnchorFile K lines)
  | none => bootstrapSelfManaged K disk f

end

/-! ## The steps of a tick -/

inductive Phase where
  | idle
  | fetched (resp : Message) (sig : RRSIG)
  | verified (resp : Message) (snapshot : TrustAnchors)
  | loaded (resp : Message) (snapshot : TrustAnchors) (stored : Option (List ManagedKey))
  | saved (resp : Message) (next : List ManagedKey)
  | written (resp : Message) (next : List ManagedKey)
  deriving DecidableEq, Repr

structure Refresher where
  live : TrustAnchors
  phase : Phase
  deriving DecidableEq, Repr

inductive TickStep where
  | fetch (roots : List IpAddr) (reply : Reply)
  | verify
  | loadState
  | saveState (now : Nat) (ok : Bool)
  | saveAnchorFile (ok : Bool)
  | publish
  deriving DecidableEq, Repr

def fetchPhase (roots : List IpAddr) (reply : Reply) : Phase :=
  if roots.isEmpty then .idle
  else
    match reply with
    | .parsed resp =>
        match (extractDnskeyResponse resp).sig with
        | some sig => .fetched resp sig
        | none => .idle
    | _ => .idle

section

variable (K : Codec) (C : Crypto) (holdDown : Nat)

def tickStep : Machine (AnchorFiles × Refresher) TickStep := fun s step =>
  match s.2.phase, step with
  | .idle, .fetch roots reply => some (s.1, { s.2 with phase := fetchPhase roots reply })
  | .fetched resp sig, .verify =>
      if refreshVerified C s.2.live (extractDnskeyResponse resp) sig then
        some (s.1, { s.2 with phase := .verified resp s.2.live })
      else some (s.1, { s.2 with phase := .idle })
  | .verified resp snapshot, .loadState =>
      match loadState s.1.state with
      | .ok stored => some (s.1, { s.2 with phase := .loaded resp snapshot stored })
      | .error _ => some (s.1, { s.2 with phase := .idle })
  | .loaded resp snapshot stored, .saveState now ok =>
      if ok then
        let next := nextKeys K holdDown now snapshot stored resp
        some ({ s.1 with state := .found 1 next }, { s.2 with phase := .saved resp next })
      else some (s.1, { s.2 with phase := .idle })
  | .saved resp next, .saveAnchorFile ok =>
      if ok then
        some ({ s.1 with anchor := some (renderAnchorFile next defaultAnchorTtl) },
          { s.2 with phase := .written resp next })
      else some (s.1, { s.2 with phase := .idle })
  | .written _ next, .publish =>
      match fromManagedKeys K next with
      | .ok anchors => some (s.1, ⟨anchors, .idle⟩)
      | .error _ => some (s.1, { s.2 with phase := .idle })
  | _, _ => none

/-! ## The process -/

structure Refreshers (ι : Type) where
  files : AnchorFiles
  task : ι → Option Refresher

inductive RefreshEvent (ι : Type) where
  /-- A handler is built, at the start or by a reload. -/
  | start (i : ι) (disk : Disk)
  | step (i : ι) (s : TickStep)
  /-- The process stops. -/
  | stop

/-- What happens to the files and the tasks. -/
def refreshStep {ι : Type} [DecidableEq ι] : Machine (Refreshers ι) (RefreshEvent ι) := fun w e =>
  match e with
  | .start i disk =>
      match w.task i with
      | some _ => none
      | none =>
          let started := startAnchors K disk w.files
          some ⟨started.1, Function.update w.task i (some ⟨started.2, .idle⟩)⟩
  | .step i step =>
      match w.task i with
      | none => none
      | some r =>
          (tickStep K C holdDown (w.files, r) step).map fun s =>
            ⟨s.1, Function.update w.task i (some s.2)⟩
  | .stop => some ⟨w.files, fun _ => none⟩

end

/-! ## What a step does -/

section

variable {K : Codec} {C : Crypto} {holdDown : Nat}

inductive TickMove (K : Codec) (C : Crypto) (holdDown : Nat) :
    AnchorFiles × Refresher → TickStep → AnchorFiles × Refresher → Prop
  | fetched {f : AnchorFiles} {live : TrustAnchors} {roots : List IpAddr} {reply : Reply} :
      TickMove K C holdDown (f, ⟨live, .idle⟩) (.fetch roots reply) (f, ⟨live, fetchPhase roots reply⟩)
  | refused {f : AnchorFiles} {live : TrustAnchors} {resp : Message} {sig : RRSIG} :
      refreshVerified C live (extractDnskeyResponse resp) sig = false →
      TickMove K C holdDown (f, ⟨live, .fetched resp sig⟩) .verify (f, ⟨live, .idle⟩)
  | verified {f : AnchorFiles} {live : TrustAnchors} {resp : Message} {sig : RRSIG} :
      refreshVerified C live (extractDnskeyResponse resp) sig = true →
      TickMove K C holdDown (f, ⟨live, .fetched resp sig⟩) .verify (f, ⟨live, .verified resp live⟩)
  | unreadable {f : AnchorFiles} {live snapshot : TrustAnchors} {resp : Message}
      {e : RefreshError} : loadState f.state = .error e →
      TickMove K C holdDown (f, ⟨live, .verified resp snapshot⟩) .loadState (f, ⟨live, .idle⟩)
  | loaded {f : AnchorFiles} {live snapshot : TrustAnchors} {resp : Message}
      {stored : Option (List ManagedKey)} : loadState f.state = .ok stored →
      TickMove K C holdDown (f, ⟨live, .verified resp snapshot⟩) .loadState
        (f, ⟨live, .loaded resp snapshot stored⟩)
  | unsaved {f : AnchorFiles} {live snapshot : TrustAnchors} {resp : Message}
      {stored : Option (List ManagedKey)} {now : Nat} :
      TickMove K C holdDown (f, ⟨live, .loaded resp snapshot stored⟩) (.saveState now false)
        (f, ⟨live, .idle⟩)
  | saved {f : AnchorFiles} {live snapshot : TrustAnchors} {resp : Message}
      {stored : Option (List ManagedKey)} {now : Nat} :
      TickMove K C holdDown (f, ⟨live, .loaded resp snapshot stored⟩) (.saveState now true)
        ({ f with state := .found 1 (nextKeys K holdDown now snapshot stored resp) },
          ⟨live, .saved resp (nextKeys K holdDown now snapshot stored resp)⟩)
  | unwritten {f : AnchorFiles} {live : TrustAnchors} {resp : Message} {next : List ManagedKey} :
      TickMove K C holdDown (f, ⟨live, .saved resp next⟩) (.saveAnchorFile false) (f, ⟨live, .idle⟩)
  | written {f : AnchorFiles} {live : TrustAnchors} {resp : Message} {next : List ManagedKey} :
      TickMove K C holdDown (f, ⟨live, .saved resp next⟩) (.saveAnchorFile true)
        ({ f with anchor := some (renderAnchorFile next defaultAnchorTtl) },
          ⟨live, .written resp next⟩)
  | unpublished {f : AnchorFiles} {live : TrustAnchors} {resp : Message} {next : List ManagedKey}
      {e : RefreshError} : fromManagedKeys K next = .error e →
      TickMove K C holdDown (f, ⟨live, .written resp next⟩) .publish (f, ⟨live, .idle⟩)
  | published {f : AnchorFiles} {live anchors : TrustAnchors} {resp : Message}
      {next : List ManagedKey} : fromManagedKeys K next = .ok anchors →
      TickMove K C holdDown (f, ⟨live, .written resp next⟩) .publish (f, ⟨anchors, .idle⟩)

theorem fetchPhase_cases (roots : List IpAddr) (reply : Reply) :
    fetchPhase roots reply = .idle ∨ ∃ resp sig, fetchPhase roots reply = .fetched resp sig := by
  unfold fetchPhase
  split
  · exact Or.inl rfl
  split
  · split
    · exact Or.inr ⟨_, _, rfl⟩
    · exact Or.inl rfl
  · exact Or.inl rfl

theorem tickStep_eq_some {s s' : AnchorFiles × Refresher} {step : TickStep} :
    tickStep K C holdDown s step = some s' ↔ TickMove K C holdDown s step s' := by
  obtain ⟨f, live, phase⟩ := s
  constructor
  · intro h
    unfold tickStep at h
    dsimp only at h
    split at h
    · cases h
      exact .fetched
    · split at h
      · rename_i hv
        cases h
        exact .verified hv
      · rename_i hv
        cases h
        exact .refused (Bool.eq_false_iff.mpr hv)
    · split at h
      · rename_i hload
        cases h
        exact .loaded hload
      · rename_i hload
        cases h
        exact .unreadable hload
    · split at h
      · rename_i hok
        cases h
        subst hok
        exact .saved
      · rename_i hok
        cases h
        rw [Bool.eq_false_iff.mpr hok]
        exact .unsaved
    · split at h
      · rename_i hok
        cases h
        subst hok
        exact .written
      · rename_i hok
        cases h
        rw [Bool.eq_false_iff.mpr hok]
        exact .unwritten
    · split at h
      · rename_i hpub
        cases h
        exact .published hpub
      · rename_i hpub
        cases h
        exact .unpublished hpub
    · nomatch h
  · intro h
    cases h with
    | fetched => rfl
    | refused hv => simp [tickStep, hv]
    | verified hv => simp [tickStep, hv]
    | unreadable hl => simp [tickStep, hl]
    | loaded hl => simp [tickStep, hl]
    | unsaved => rfl
    | saved => rfl
    | unwritten => rfl
    | written => rfl
    | unpublished hp => simp [tickStep, hp]
    | published hp => simp [tickStep, hp]

inductive RefreshMove {ι : Type} [DecidableEq ι] (K : Codec) (C : Crypto) (holdDown : Nat)
    (w : Refreshers ι) : RefreshEvent ι → Refreshers ι → Prop
  | started {i : ι} {disk : Disk} : w.task i = none →
      RefreshMove K C holdDown w (.start i disk) ⟨(startAnchors K disk w.files).1,
        Function.update w.task i (some ⟨(startAnchors K disk w.files).2, .idle⟩)⟩
  | moved {i : ι} {step : TickStep} {r r' : Refresher} {f' : AnchorFiles} : w.task i = some r →
      TickMove K C holdDown (w.files, r) step (f', r') →
      RefreshMove K C holdDown w (.step i step) ⟨f', Function.update w.task i (some r')⟩
  | stopped : RefreshMove K C holdDown w .stop ⟨w.files, fun _ => none⟩

theorem refreshStep_eq_some {ι : Type} [DecidableEq ι] {w w' : Refreshers ι} {e : RefreshEvent ι} :
    refreshStep K C holdDown w e = some w' ↔ RefreshMove K C holdDown w e w' := by
  constructor
  · intro h
    unfold refreshStep at h
    split at h
    · split at h
      · nomatch h
      · rename_i htask
        cases h
        exact .started htask
    · split at h
      · nomatch h
      · rename_i htask
        obtain ⟨s, hs, hw⟩ := Option.map_eq_some_iff.mp h
        subst hw
        exact .moved htask (tickStep_eq_some.mp hs)
    · cases h
      exact .stopped
  · intro h
    cases h with
    | started htask => simp [refreshStep, htask]
    | moved htask hmove => simp [refreshStep, htask, tickStep_eq_some.mpr hmove]
    | stopped => rfl

/-! ## A tick that nobody interferes with -/

def tickSteps (roots : List IpAddr) (reply : Reply) (now : Nat) (disk : Disk) : List TickStep :=
  [.fetch roots reply, .verify, .loadState, .saveState now disk.stateWrites,
    .saveAnchorFile disk.anchorWrites, .publish]

variable (K C holdDown) in
theorem rollSteps_run (state : StateFile) (lines : List AnchorLine) (live : TrustAnchors) (now : Nat)
    (disk : Disk) (stored : Option (List ManagedKey)) (resp : Message) :
    let s := (rollState K holdDown now disk ⟨live, state, lines⟩ stored resp).1
    ∃ n, (tickStep K C holdDown).run (⟨state, some lines⟩, ⟨live, .loaded resp live stored⟩)
        ([.saveState now disk.stateWrites, .saveAnchorFile disk.anchorWrites, .publish].take n) =
      some (⟨s.stateFile, some s.anchorFile⟩, ⟨s.live, .idle⟩) := by
  obtain ⟨stateWrites, anchorWrites⟩ := disk
  cases stateWrites with
  | false => exact ⟨1, rfl⟩
  | true =>
    cases anchorWrites with
    | false => exact ⟨2, rfl⟩
    | true =>
      refine ⟨3, Machine.run_cons.mpr ⟨_, rfl, Machine.run_cons.mpr ⟨_, rfl, ?_⟩⟩⟩
      refine Machine.run_cons.mpr ⟨_, ?_, rfl⟩
      rw [tickStep_eq_some]
      unfold rollState
      simp only [Bool.not_true, Bool.false_eq_true, if_false]
      split
      · rename_i hpub
        exact .unpublished hpub
      · rename_i hpub
        exact .published hpub

/-- **The steps of one task amount to a tick**: taken without interference, up to the one that ends the
tick, they leave the files and the published anchors as `tick` does. -/
theorem tickSteps_run (state : StateFile) (lines : List AnchorLine) (live : TrustAnchors) (roots : List IpAddr)
    (reply : Reply) (now : Nat) (disk : Disk) :
    let s := (tick K C holdDown roots reply now disk ⟨live, state, lines⟩).1
    ∃ n, (tickStep K C holdDown).run (⟨state, some lines⟩, ⟨live, .idle⟩)
        ((tickSteps roots reply now disk).take (n + 1)) =
      some (⟨s.stateFile, some s.anchorFile⟩, ⟨s.live, .idle⟩) := by
  -- The first step is always taken; it ends the tick unless there is a signed reply.
  have hfirst : ∀ phase, fetchPhase roots reply = phase →
      tickStep K C holdDown (⟨state, some lines⟩, ⟨live, .idle⟩) (.fetch roots reply) =
        some (⟨state, some lines⟩, ⟨live, phase⟩) := by
    rintro phase rfl
    rfl
  have hover : fetchPhase roots reply = .idle → ∃ n, (tickStep K C holdDown).run
      (⟨state, some lines⟩, ⟨live, .idle⟩) ((tickSteps roots reply now disk).take (n + 1)) =
        some (⟨state, some lines⟩, ⟨live, .idle⟩) :=
    fun h => ⟨0, Machine.run_cons.mpr ⟨_, hfirst .idle h, rfl⟩⟩
  unfold tick
  split
  · rename_i hroots
    exact hover (by simp [fetchPhase, hroots])
  rename_i hroots
  split
  · exact hover (by simp [fetchPhase, hroots])
  · exact hover (by simp [fetchPhase, hroots])
  · rename_i resp
    split
    · rename_i hsig
      exact hover (by simp [fetchPhase, hroots, hsig])
    rename_i sig hsig
    have hfetch := hfirst (.fetched resp sig) (by simp [fetchPhase, hroots, hsig])
    split
    · rename_i hverified
      have hverify : tickStep K C holdDown (⟨state, some lines⟩, ⟨live, .fetched resp sig⟩)
          .verify = some (⟨state, some lines⟩, ⟨live, .verified resp live⟩) :=
        tickStep_eq_some.mpr (.verified hverified)
      split
      · rename_i e hload
        refine ⟨2, Machine.run_cons.mpr ⟨_, hfetch, Machine.run_cons.mpr ⟨_, hverify, ?_⟩⟩⟩
        exact Machine.run_cons.mpr ⟨_, tickStep_eq_some.mpr (.unreadable hload), rfl⟩
      · rename_i stored hload
        obtain ⟨n, hroll⟩ := rollSteps_run K C holdDown state lines live now disk stored resp
        refine ⟨n + 2, Machine.run_cons.mpr ⟨_, hfetch, Machine.run_cons.mpr ⟨_, hverify, ?_⟩⟩⟩
        exact Machine.run_cons.mpr ⟨_, tickStep_eq_some.mpr (.loaded hload), hroll⟩
    · rename_i hverified
      refine ⟨1, Machine.run_cons.mpr ⟨_, hfetch, Machine.run_cons.mpr ⟨_, ?_, rfl⟩⟩⟩
      exact tickStep_eq_some.mpr (.refused (Bool.eq_false_iff.mpr hverified))

end

end Dnsd.Recursor
