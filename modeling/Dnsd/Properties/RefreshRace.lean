/-
# RefreshRace — refresh tasks that share their files.

A tick that read the state file before another tick wrote it writes over what the other one recorded
(`revocation_lost`).  If the ticks exclude each other (`Exclusive`), every interleaving ends as some serial run
does; `Tracks` relates the process to it.
-/
import Dnsd.Properties.RefreshFailure

namespace Dnsd.Recursor

open Proto Lib List

section

variable {ι : Type} [DecidableEq ι] {es' : List (RefreshEvent ι)} {i : ι}

/-! ## Serial runs -/

def RefreshEvent.task? : RefreshEvent ι → Option ι
  | .start i _ => some i
  | .step i _ => some i
  | .stop => none

def eventsOf (i : ι) (es : List (RefreshEvent ι)) : List (RefreshEvent ι) :=
  es.filter fun e => e.task? = some i

def stepsOf (i : ι) (steps : List TickStep) : List (RefreshEvent ι) := steps.map (.step i)

omit [DecidableEq ι] in
theorem stepsOf_concat (i : ι) (steps : List TickStep) (step : TickStep) :
    stepsOf i (steps ++ [step]) = stepsOf i steps ++ [.step i step] :=
  map_append

theorem eventsOf_append_self (h : ∀ e ∈ es', e.task? = some i) (es : List (RefreshEvent ι)) :
    eventsOf i (es ++ es') = eventsOf i es ++ es' := by
  unfold eventsOf
  rw [filter_append]
  congr 1
  exact filter_eq_self.mpr fun e he => decide_eq_true (h e he)

theorem eventsOf_append_other {j : ι} (h : ∀ e ∈ es', e.task? = some i) (hne : j ≠ i)
    (es : List (RefreshEvent ι)) : eventsOf j (es ++ es') = eventsOf j es := by
  have hnone : eventsOf j es' = [] := by
    refine filter_eq_nil_iff.mpr fun e he => ?_
    rw [h e he, decide_eq_true_iff]
    exact fun hij => hne (Option.some.inj hij).symm
  show (es ++ es').filter _ = _
  rw [filter_append, show es'.filter _ = [] from hnone, append_nil]
  rfl

omit [DecidableEq ι] in
theorem task_of_mem_stepsOf {steps : List TickStep} {e : RefreshEvent ι} (h : e ∈ stepsOf i steps) :
    e.task? = some i := by
  obtain ⟨step, -, rfl⟩ := mem_map.mp h
  rfl

variable (K : Codec) (C : Crypto) (holdDown : Nat)

/-- The serial runs: tasks are started, and tasks that rest take all the steps of their ticks, one task
after the other. -/
inductive Serial (w : Refreshers ι) : List (RefreshEvent ι) → Refreshers ι → Prop
  | nil : Serial w [] w
  | start {es : List (RefreshEvent ι)} {v v' : Refreshers ι} {i : ι} {disk : Disk} :
      Serial w es v → refreshStep K C holdDown v (.start i disk) = some v' →
      Serial w (es ++ [.start i disk]) v'
  | ticks {es : List (RefreshEvent ι)} {v : Refreshers ι} {i : ι} {steps : List TickStep}
      {live live' : TrustAnchors} {g' : AnchorFiles} :
      Serial w es v → v.task i = some ⟨live, .idle⟩ →
      (tickStep K C holdDown).run (v.files, ⟨live, .idle⟩) steps = some (g', ⟨live', .idle⟩) →
      Serial w (es ++ stepsOf i steps) ⟨g', Function.update v.task i (some ⟨live', .idle⟩)⟩

def Phase.early : Phase → Bool
  | .fetched _ _ | .verified _ _ => true
  | _ => false

def Phase.inside : Phase → Bool
  | .loaded _ _ _ | .saved _ _ => true
  | _ => false

/-- No tick reads the state file while another one is between its reading and its writing.  The anchor
file is there, so that a start only reads, and the process goes on. -/
def Exclusive (w : Refreshers ι) : RefreshEvent ι → Prop
  | .start _ _ => w.files.anchor.isSome = true
  | .step i .loadState => ∀ j r, j ≠ i → w.task j = some r → r.phase.inside = false
  | .step _ _ => True
  | .stop => False

structure InTurn (w : Refreshers ι) : Prop where
  one : ∀ i j r s, w.task i = some r → w.task j = some s → r.phase.inside = true →
    s.phase.inside = true → i = j
  current : ∀ i live resp snapshot stored, w.task i = some ⟨live, .loaded resp snapshot stored⟩ →
    loadState w.files.state = .ok stored

inductive TaskSim (f g : AnchorFiles) (i : ι) (h hs : List (RefreshEvent ι)) :
    Option Refresher → Option Refresher → Prop
  | absent : eventsOf i h = eventsOf i hs → TaskSim f g i h hs none none
  | resting {live : TrustAnchors} : eventsOf i h = eventsOf i hs →
      TaskSim f g i h hs (some ⟨live, .idle⟩) (some ⟨live, .idle⟩)
  /-- The tick has not touched the files. -/
  | before {live : TrustAnchors} {phase : Phase} {pend : List TickStep} : phase.early = true →
      (∀ x, (tickStep K C holdDown).run (x, ⟨live, .idle⟩) pend = some (x, ⟨live, phase⟩)) →
      eventsOf i h = eventsOf i hs ++ stepsOf i pend →
      TaskSim f g i h hs (some ⟨live, phase⟩) (some ⟨live, .idle⟩)
  /-- The tick has read the state file, and has perhaps written it. -/
  | inside {live : TrustAnchors} {phase : Phase} {pend : List TickStep} : phase.inside = true →
      (tickStep K C holdDown).run (g, ⟨live, .idle⟩) pend =
        some (⟨f.state, g.anchor⟩, ⟨live, phase⟩) →
      eventsOf i h = eventsOf i hs ++ stepsOf i pend →
      TaskSim f g i h hs (some ⟨live, phase⟩) (some ⟨live, .idle⟩)
  /-- Only the publication is left, and the serial run has made it. -/
  | ahead {live live' : TrustAnchors} {resp : Message} {next : List ManagedKey} :
      (∀ x, tickStep K C holdDown (x, ⟨live, .written resp next⟩) .publish =
        some (x, ⟨live', .idle⟩)) →
      eventsOf i hs = eventsOf i h ++ [.step i .publish] →
      TaskSim f g i h hs (some ⟨live, .written resp next⟩) (some ⟨live', .idle⟩)

/-- How the process stands to the serial run. -/
structure Tracks (h : List (RefreshEvent ι)) (w : Refreshers ι) (hs : List (RefreshEvent ι))
    (v : Refreshers ι) : Prop where
  anchor : v.files.anchor = w.files.anchor
  task : ∀ i, TaskSim K C holdDown w.files v.files i h hs (w.task i) (v.task i)
  files : (∀ i r, w.task i = some r → r.phase.inside = false) → v.files = w.files

def Simulated (w₀ : Refreshers ι) (h : List (RefreshEvent ι)) (w : Refreshers ι) : Prop :=
  ∃ hs v, Serial K C holdDown w₀ hs v ∧ Tracks K C holdDown h w hs v

end

section

variable {ι : Type} [DecidableEq ι] {K : Codec} {C : Crypto} {holdDown : Nat} {e : RefreshEvent ι}
  {es : List (RefreshEvent ι)} {f f' : AnchorFiles} {r' : Refresher} {w w' : Refreshers ι}

theorem startAnchors_found {lines : List AnchorLine} {disk : Disk} (h : f.anchor = some lines) :
    startAnchors K disk f = (f, loadAnchorFile K lines) := by
  simp only [startAnchors, h]

theorem run_stepsOf {i : ι} {r : Refresher} {steps : List TickStep} (hr : w.task i = some r)
    (hrun : (tickStep K C holdDown).run (w.files, r) steps = some (f', r')) :
    (refreshStep K C holdDown).run w (stepsOf i steps) = some ⟨f', Function.update w.task i (some r')⟩ := by
  induction steps generalizing w r with
  | nil =>
    cases hrun
    show some w = some ⟨w.files, Function.update w.task i _⟩
    rw [← hr, Function.update_eq_self]
  | cons step steps ih =>
    obtain ⟨s₁, hstep, hrest⟩ := Machine.run_cons.mp hrun
    refine Machine.run_cons.mpr ⟨⟨s₁.1, Function.update w.task i (some s₁.2)⟩, ?_, ?_⟩
    · exact refreshStep_eq_some.mpr (.moved hr (tickStep_eq_some.mp hstep))
    · show (refreshStep K C holdDown).run ⟨s₁.1, Function.update w.task i (some s₁.2)⟩
        (stepsOf i steps) = some _
      have htask : Function.update w.task i (some s₁.2) i = some s₁.2 := Function.update_self ..
      rw [@ih ⟨s₁.1, Function.update w.task i (some s₁.2)⟩ s₁.2 htask hrest, Function.update_idem]

theorem Serial.run {v : Refreshers ι} (h : Serial K C holdDown w es v) :
    (refreshStep K C holdDown).run w es = some v := by
  induction h with
  | nil => rfl
  | start _ hstep ih =>
    exact Machine.run_concat ih hstep
  | ticks _ htask hrun ih => exact Machine.run_append.mpr ⟨_, ih, run_stepsOf htask hrun⟩

theorem TaskSim.frame {g g' : AnchorFiles} {i : ι} {h h' hs hs' : List (RefreshEvent ι)}
    {r s : Option Refresher} (hsim : TaskSim K C holdDown f g i h hs r s)
    (hh : eventsOf i h' = eventsOf i h) (hhs : eventsOf i hs' = eventsOf i hs)
    (hfiles : ∀ r₀, r = some r₀ → r₀.phase.inside = true → f'.state = f.state ∧ g' = g) :
    TaskSim K C holdDown f' g' i h' hs' r s := by
  cases hsim with
  | absent hev => exact .absent (by rw [hh, hhs, hev])
  | resting hev => exact .resting (by rw [hh, hhs, hev])
  | before hearly hrun hev => exact .before hearly hrun (by rw [hh, hhs, hev])
  | inside hin hrun hev =>
    obtain ⟨hstate, hg⟩ := hfiles _ rfl hin
    refine .inside hin ?_ (by rw [hh, hhs, hev])
    rw [hstate, hg]
    exact hrun
  | ahead hpub hev => exact .ahead hpub (by rw [hh, hhs, hev])

section

variable {w₀ w v : Refreshers ι} {h hs block : List (RefreshEvent ι)} {i : ι} {e : RefreshEvent ι}
  {r' s' : Refresher} {f' g' : AnchorFiles} {f g : AnchorFiles} {live live' : TrustAnchors}
  {next : List ManagedKey} {pend steps : List TickStep} {phase : Phase} {r : Refresher} {resp : Message}
  {s : Option Refresher}

theorem Tracks.advance (ht : Tracks K C holdDown h w hs v) (he : e.task? = some i)
    (hblock : ∀ e ∈ block, e.task? = some i)
    (hsim : TaskSim K C holdDown f' g' i (h ++ [e]) (hs ++ block) (some r') (some s'))
    (hanchor : g'.anchor = f'.anchor)
    (hquiet : ∀ j r, j ≠ i → w.task j = some r → r.phase.inside = true →
      f'.state = w.files.state ∧ g' = v.files)
    (hfiles : (∀ j r, j ≠ i → w.task j = some r → r.phase.inside = false) →
      r'.phase.inside = false → g' = f') :
    Tracks K C holdDown (h ++ [e]) ⟨f', Function.update w.task i (some r')⟩ (hs ++ block)
      ⟨g', Function.update v.task i (some s')⟩ where
  anchor := hanchor
  task j := by
    rcases eq_or_ne j i with rfl | hne
    · simpa only [Function.update_self] using hsim
    · simp only [Function.update_of_ne hne]
      refine (ht.task j).frame ?_ ?_ fun r hr hin => hquiet j r hne hr hin
      · exact eventsOf_append_other (forall_mem_singleton.mpr he) hne h
      · exact eventsOf_append_other hblock hne hs
  files hall := by
    refine hfiles (fun j r hne hr => ?_) ?_
    · exact hall j r (by simpa only [Function.update_of_ne hne] using hr)
    · exact hall i r' (by simp only [Function.update_self])

theorem Tracks.calm {step : TickStep} (ht : Tracks K C holdDown h w hs v)
    (hser : Serial K C holdDown w₀ hs v) (hr : w.task i = some r) (hv : v.task i = some ⟨live, .idle⟩)
    (hout : r.phase.inside = false)
    (hrun : (tickStep K C holdDown).run (v.files, ⟨live, .idle⟩) steps = some (v.files, ⟨live', .idle⟩))
    (hsim : TaskSim K C holdDown w.files v.files i (h ++ [.step i step]) (hs ++ stepsOf i steps) (some r') (some ⟨live', .idle⟩)) :
    Simulated K C holdDown w₀ (h ++ [.step i step]) ⟨w.files, Function.update w.task i (some r')⟩ := by
  refine ⟨_, _, hser.ticks hv hrun, ht.advance rfl (fun _ => task_of_mem_stepsOf) hsim ht.anchor
    (fun _ _ _ _ _ => ⟨rfl, rfl⟩) (fun hothers _ => ?_)⟩
  refine ht.files fun j s hs => ?_
  rcases eq_or_ne j i with rfl | hne
  · cases hr.symm.trans hs
    exact hout
  · exact hothers j s hne hs

theorem Tracks.critical {step : TickStep} (hord : InTurn w) (ht : Tracks K C holdDown h w hs v)
    (hser : Serial K C holdDown w₀ hs v) (hr : w.task i = some r) (hv : v.task i = some ⟨live, .idle⟩)
    (hin : r.phase.inside = true) (hanchor : g'.anchor = f'.anchor)
    (hfiles : r'.phase.inside = false → g' = f')
    (hrun : (tickStep K C holdDown).run (v.files, ⟨live, .idle⟩) steps = some (g', ⟨live', .idle⟩))
    (hsim : TaskSim K C holdDown f' g' i (h ++ [.step i step]) (hs ++ stepsOf i steps) (some r') (some ⟨live', .idle⟩)) :
    Simulated K C holdDown w₀ (h ++ [.step i step]) ⟨f', Function.update w.task i (some r')⟩ := by
  have halone : ∀ j s, j ≠ i → w.task j = some s → s.phase.inside = false := by
    intro j s hne hs
    refine Bool.eq_false_iff.mpr fun hin' => hne ?_
    exact hord.one j i s r hs hr hin' hin
  refine ⟨_, _, hser.ticks hv hrun, ht.advance rfl (fun _ => task_of_mem_stepsOf) hsim hanchor
    (fun j s hne hs hin' => ?_) (fun _ => hfiles)⟩
  nomatch hin'.symm.trans (halone j s hne hs)

theorem eventsOf_catch_up {step : TickStep} (hev : eventsOf i h = eventsOf i hs ++ stepsOf i pend) :
    eventsOf i (h ++ [.step i step]) = eventsOf i (hs ++ stepsOf i (pend ++ [step])) := by
  rw [eventsOf_append_self (by simp [RefreshEvent.task?]),
    eventsOf_append_self (fun _ => task_of_mem_stepsOf), hev, stepsOf_concat, append_assoc]

theorem eventsOf_wait {step : TickStep} (hev : eventsOf i h = eventsOf i hs ++ stepsOf i pend) :
    eventsOf i (h ++ [.step i step]) = eventsOf i (hs ++ stepsOf i []) ++ stepsOf i (pend ++ [step]) := by
  rw [eventsOf_append_self (by simp [RefreshEvent.task?]), hev, stepsOf_concat, append_assoc]
  simp [stepsOf]

theorem TaskSim.of_light (hsim : TaskSim K C holdDown f g i h hs (some ⟨live, phase⟩) s)
    (hlight : phase = .idle ∨ phase.early = true) :
    s = some ⟨live, .idle⟩ ∧ ∃ pend,
      (∀ x, (tickStep K C holdDown).run (x, ⟨live, .idle⟩) pend = some (x, ⟨live, phase⟩)) ∧
      eventsOf i h = eventsOf i hs ++ stepsOf i pend := by
  cases hsim with
  | resting hev => exact ⟨rfl, [], fun x => rfl, hev.trans (append_nil _).symm⟩
  | before _ hrun hev => exact ⟨rfl, _, hrun, hev⟩
  | inside hin =>
    rcases hlight with rfl | hearly
    · nomatch hin
    · cases phase with
      | loaded => nomatch hearly
      | saved => nomatch hearly
      | _ => nomatch hin
  | ahead =>
    rcases hlight with hidle | hearly
    · nomatch hidle
    · nomatch hearly

theorem TaskSim.of_inside (hsim : TaskSim K C holdDown f g i h hs (some ⟨live, phase⟩) s)
    (hin : phase.inside = true) :
    s = some ⟨live, .idle⟩ ∧ ∃ pend,
      (tickStep K C holdDown).run (g, ⟨live, .idle⟩) pend =
        some (⟨f.state, g.anchor⟩, ⟨live, phase⟩) ∧
      eventsOf i h = eventsOf i hs ++ stepsOf i pend := by
  cases hsim with
  | resting => nomatch hin
  | before hearly =>
    cases phase with
    | loaded => nomatch hearly
    | saved => nomatch hearly
    | _ => nomatch hin
  | inside _ hrun hev => exact ⟨rfl, _, hrun, hev⟩
  | ahead => nomatch hin

theorem TaskSim.of_written (hsim : TaskSim K C holdDown f g i h hs (some ⟨live, .written resp next⟩) s) :
    ∃ live', s = some ⟨live', .idle⟩ ∧
      (∀ x, tickStep K C holdDown (x, ⟨live, .written resp next⟩) .publish =
        some (x, ⟨live', .idle⟩)) ∧
      eventsOf i hs = eventsOf i h ++ [.step i .publish] := by
  cases hsim with
  | before hearly => nomatch hearly
  | inside hin => nomatch hin
  | ahead hpub hev => exact ⟨_, rfl, hpub, hev⟩

theorem Phase.inside_of_light (h : phase = .idle ∨ phase.early = true) : phase.inside = false := by
  rcases h with rfl | hearly
  · rfl
  · cases phase with
    | loaded => nomatch hearly
    | saved => nomatch hearly
    | _ => rfl

theorem Tracks.goes_on {phase' : Phase} {step : TickStep} (ht : Tracks K C holdDown h w hs v)
    (hser : Serial K C holdDown w₀ hs v) (hr : w.task i = some ⟨live, phase⟩)
    (hlight : phase = .idle ∨ phase.early = true) (hearly : phase'.early = true)
    (hstep : ∀ x, tickStep K C holdDown (x, ⟨live, phase⟩) step = some (x, ⟨live, phase'⟩)) :
    Simulated K C holdDown w₀ (h ++ [.step i step])
      ⟨w.files, Function.update w.task i (some ⟨live, phase'⟩)⟩ := by
  have htask := ht.task i
  rw [hr] at htask
  obtain ⟨hv, pend, hrun, hev⟩ := htask.of_light hlight
  refine ht.calm hser hr hv (Phase.inside_of_light hlight) Machine.run_nil ?_
  exact .before hearly (fun x => Machine.run_concat (hrun x) (hstep x)) (eventsOf_wait hev)

theorem Tracks.ends {step : TickStep} (ht : Tracks K C holdDown h w hs v)
    (hser : Serial K C holdDown w₀ hs v) (hr : w.task i = some ⟨live, phase⟩)
    (hlight : phase = .idle ∨ phase.early = true)
    (hstep : tickStep K C holdDown (v.files, ⟨live, phase⟩) step = some (v.files, ⟨live, .idle⟩)) :
    Simulated K C holdDown w₀ (h ++ [.step i step])
      ⟨w.files, Function.update w.task i (some ⟨live, .idle⟩)⟩ := by
  have htask := ht.task i
  rw [hr] at htask
  obtain ⟨hv, pend, hrun, hev⟩ := htask.of_light hlight
  refine ht.calm hser hr hv (Phase.inside_of_light hlight) (Machine.run_concat (hrun v.files) hstep) ?_
  exact .resting (eventsOf_catch_up hev)

theorem Tracks.pending (ht : Tracks K C holdDown h w hs v) (hr : w.task i = some ⟨live, phase⟩)
    (hin : phase.inside = true) :
    v.task i = some ⟨live, .idle⟩ ∧ ∃ pend,
      (tickStep K C holdDown).run (v.files, ⟨live, .idle⟩) pend = some (w.files, ⟨live, phase⟩) ∧
      eventsOf i h = eventsOf i hs ++ stepsOf i pend := by
  have htask := ht.task i
  rw [hr] at htask
  obtain ⟨hv, pend, hrun, hev⟩ := htask.of_inside hin
  rw [ht.anchor] at hrun
  exact ⟨hv, pend, hrun, hev⟩

theorem Tracks.fails {step : TickStep} (hord : InTurn w) (ht : Tracks K C holdDown h w hs v)
    (hser : Serial K C holdDown w₀ hs v) (hr : w.task i = some ⟨live, phase⟩)
    (hin : phase.inside = true)
    (hstep : tickStep K C holdDown (w.files, ⟨live, phase⟩) step = some (w.files, ⟨live, .idle⟩)) :
    Simulated K C holdDown w₀ (h ++ [.step i step])
      ⟨w.files, Function.update w.task i (some ⟨live, .idle⟩)⟩ := by
  obtain ⟨hv, pend, hrun, hev⟩ := ht.pending hr hin
  exact ht.critical hord hser hr hv hin rfl (fun _ => rfl) (Machine.run_concat hrun hstep)
    (.resting (eventsOf_catch_up hev))

theorem publish_total (live : TrustAnchors) (resp : Message) (next : List ManagedKey) :
    ∃ live', ∀ x, tickStep K C holdDown (x, ⟨live, .written resp next⟩) .publish =
      some (x, ⟨live', .idle⟩) := by
  cases hpub : fromManagedKeys K next with
  | ok anchors => exact ⟨anchors, fun x => tickStep_eq_some.mpr (.published hpub)⟩
  | error e => exact ⟨live, fun x => tickStep_eq_some.mpr (.unpublished hpub)⟩

theorem Tracks.catches_up (ht : Tracks K C holdDown h w hs v) (hser : Serial K C holdDown w₀ hs v)
    (hr : w.task i = some ⟨live, .written resp next⟩)
    (hstep : tickStep K C holdDown (w.files, ⟨live, .written resp next⟩) .publish = some (w.files, ⟨live', .idle⟩)) :
    Simulated K C holdDown w₀ (h ++ [.step i .publish])
      ⟨w.files, Function.update w.task i (some ⟨live', .idle⟩)⟩ := by
  have htask := ht.task i
  rw [hr] at htask
  obtain ⟨live₁, hv, hpub, hev⟩ := htask.of_written
  obtain rfl : live₁ = live' := by
    have heq := (hpub w.files).symm.trans hstep
    simpa using heq
  refine ht.calm hser hr hv rfl Machine.run_nil (.resting ?_)
  rw [eventsOf_append_self (by simp [RefreshEvent.task?]), ← hev]
  simp [stepsOf]

/-- **One step of a task**, in the process and in the serial run. -/
theorem Simulated.step {step : TickStep} (hord : InTurn w) (hsim : Simulated K C holdDown w₀ h w)
    (hr : w.task i = some r) (hok : Exclusive w (.step i step))
    (hmove : TickMove K C holdDown (w.files, r) step (f', r')) :
    Simulated K C holdDown w₀ (h ++ [.step i step]) ⟨f', Function.update w.task i (some r')⟩ := by
  obtain ⟨hs, v, hser, ht⟩ := hsim
  have hstep := tickStep_eq_some.mpr hmove
  -- A tick that is about to read the state file finds the files of the serial run.
  have hsame : r.phase.inside = false → step = .loadState → v.files = w.files := by
    rintro hout rfl
    refine ht.files fun j s hs => ?_
    rcases eq_or_ne j i with rfl | hne
    · cases hr.symm.trans hs
      exact hout
    · exact hok j s hne hs
  cases hmove with
  | @fetched _ live roots reply =>
    have hfetch : ∀ x, tickStep K C holdDown (x, ⟨live, .idle⟩) (.fetch roots reply) =
        some (x, ⟨live, fetchPhase roots reply⟩) := fun _ => rfl
    rcases fetchPhase_cases roots reply with hp | ⟨resp, sig, hp⟩
    · rw [hp] at hfetch ⊢
      exact ht.ends hser hr (Or.inl rfl) (hfetch v.files)
    · rw [hp] at hfetch ⊢
      exact ht.goes_on hser hr (Or.inl rfl) rfl hfetch
  | refused hv => exact ht.ends hser hr (Or.inr rfl) (tickStep_eq_some.mpr (.refused hv))
  | verified hv =>
    exact ht.goes_on hser hr (Or.inr rfl) rfl fun x => tickStep_eq_some.mpr (.verified hv)
  | unreadable hload =>
    rw [← hsame rfl rfl] at hload
    exact ht.ends hser hr (Or.inr rfl) (tickStep_eq_some.mpr (.unreadable hload))
  | @loaded _ live snapshot resp stored hload =>
    have htask := ht.task i
    rw [hr] at htask
    obtain ⟨hv, pend, hrun, hev⟩ := htask.of_light (Or.inr rfl)
    have hfiles : v.files = w.files := hsame rfl rfl
    refine ⟨_, _, hser.ticks hv Machine.run_nil, ht.advance rfl (fun _ => task_of_mem_stepsOf)
      (.inside rfl ?_ (eventsOf_wait hev)) ht.anchor (fun _ _ _ _ _ => ⟨rfl, rfl⟩)
      (fun _ hout => nomatch hout)⟩
    rw [hfiles]
    exact Machine.run_concat (hrun w.files) hstep
  | unsaved => exact ht.fails hord hser hr rfl hstep
  | @saved _ live snapshot resp stored now =>
    obtain ⟨hv, pend, hrun, hev⟩ := ht.pending hr rfl
    refine ht.critical hord hser hr hv rfl ht.anchor nofun Machine.run_nil
      (.inside rfl ?_ (eventsOf_wait hev))
    rw [ht.anchor]
    exact Machine.run_concat hrun hstep
  | unwritten => exact ht.fails hord hser hr rfl hstep
  | @written _ live resp next =>
    obtain ⟨hv, pend, hrun, hev⟩ := ht.pending hr rfl
    obtain ⟨live', hpub⟩ := publish_total live resp next
    have hall := Machine.run_concat (Machine.run_concat hrun hstep) (hpub _)
    refine ht.critical hord hser hr hv rfl rfl (fun _ => rfl) hall (.ahead hpub ?_)
    rw [eventsOf_catch_up hev, stepsOf_concat i (pend ++ [TickStep.saveAnchorFile true]),
      ← append_assoc]
    exact eventsOf_append_self (by simp [RefreshEvent.task?]) _
  | unpublished _ => exact ht.catches_up hser hr hstep
  | published _ => exact ht.catches_up hser hr hstep

theorem Simulated.start {disk : Disk} (hsim : Simulated K C holdDown w₀ h w)
    (hr : w.task i = none) (hanchor : w.files.anchor.isSome = true) :
    Simulated K C holdDown w₀ (h ++ [.start i disk]) ⟨(startAnchors K disk w.files).1,
      Function.update w.task i (some ⟨(startAnchors K disk w.files).2, .idle⟩)⟩ := by
  obtain ⟨hs, v, hser, ht⟩ := hsim
  obtain ⟨lines, hlines⟩ := Option.isSome_iff_exists.mp hanchor
  rw [startAnchors_found hlines]
  have htask := ht.task i
  rw [hr] at htask
  generalize hv : v.task i = s at htask
  cases htask with
  | absent hev =>
    have hstart : refreshStep K C holdDown v (.start i disk) = some ⟨v.files,
        Function.update v.task i (some ⟨loadAnchorFile K lines, .idle⟩)⟩ := by
      have hmove : RefreshMove K C holdDown v (.start i disk)
          ⟨(startAnchors K disk v.files).1,
            Function.update v.task i (some ⟨(startAnchors K disk v.files).2, .idle⟩)⟩ :=
        .started hv
      rw [startAnchors_found (ht.anchor.trans hlines)] at hmove
      exact refreshStep_eq_some.mpr hmove
    have hmine : ∀ e ∈ [RefreshEvent.start i disk], e.task? = some i := by
      simp [RefreshEvent.task?]
    refine ⟨_, _, hser.start hstart, ht.advance rfl hmine (.resting ?_) ht.anchor
      (fun _ _ _ _ _ => ⟨rfl, rfl⟩) (fun hothers _ => ht.files fun j s hs => ?_)⟩
    · rw [eventsOf_append_self hmine, eventsOf_append_self hmine, hev]
    · refine hothers j s ?_ hs
      rintro rfl
      nomatch hr.symm.trans hs

end

/-! ## What exclusion keeps -/

theorem TickMove.section {r : Refresher} {step : TickStep}
    (h : TickMove K C holdDown (f, r) step (f', r')) :
    (r'.phase.inside = true → r.phase.inside = true ∨ step = .loadState) ∧
      (r.phase.inside = false → f' = f) ∧
      ∀ live resp snapshot stored, r' = ⟨live, .loaded resp snapshot stored⟩ →
        loadState f'.state = .ok stored := by
  cases h with
  | @fetched _ live roots reply =>
    rcases fetchPhase_cases roots reply with hp | ⟨resp, sig, hp⟩ <;> rw [hp] <;>
      simp [Phase.inside]
  | loaded hload =>
    refine ⟨fun _ => Or.inr rfl, fun _ => rfl, ?_⟩
    rintro live resp snapshot stored ⟨⟩
    exact hload
  | _ => simp [Phase.inside]

theorem InTurn.rest (h : InTurn w) (i : ι) (live : TrustAnchors) :
    InTurn ⟨w.files, Function.update w.task i (some ⟨live, .idle⟩)⟩ := by
  have hother : ∀ j r, Function.update w.task i (some ⟨live, .idle⟩) j = some r →
      r.phase ≠ .idle → w.task j = some r := by
    intro j r hr hphase
    rcases eq_or_ne j i with rfl | hne
    · rw [Function.update_self] at hr
      cases hr
      exact absurd rfl hphase
    · rwa [Function.update_of_ne hne] at hr
  constructor
  · intro j k r s hr hs hin hin'
    refine h.one j k r s (hother j r hr ?_) (hother k s hs ?_) hin hin'
    · rintro hp
      rw [hp] at hin
      nomatch hin
    · rintro hp
      rw [hp] at hin'
      nomatch hin'
  · intro j live' resp snapshot stored hr
    exact h.current j live' resp snapshot stored (hother j _ hr nofun)

/-- **Exclusion keeps the ticks in turn.** -/
theorem InTurn.step (h : InTurn w) (hok : Exclusive w e) (hmove : RefreshMove K C holdDown w e w') :
    InTurn w' := by
  cases hmove with
  | @started i disk htask =>
    obtain ⟨lines, hlines⟩ := Option.isSome_iff_exists.mp hok
    rw [startAnchors_found hlines]
    exact h.rest i _
  | @moved i step r r' f' htask hmove =>
    obtain ⟨henter, hwrite, hread⟩ := hmove.section
    -- The others are outside whenever this task is inside afterwards or writes now.
    have halone : r'.phase.inside = true → ∀ j s, j ≠ i → w.task j = some s → s.phase.inside = false := by
      intro hin' j s hne hs
      rcases henter hin' with hin | rfl
      · exact Bool.eq_false_iff.mpr fun hs' => hne (h.one j i s r hs htask hs' hin)
      · exact hok j s hne hs
    constructor
    · intro j k s t hs ht hin hin'
      rcases eq_or_ne j i with rfl | hj
      · rcases eq_or_ne k j with rfl | hk
        · rfl
        · simp only [Function.update_self, Option.some.injEq] at hs
          simp only [Function.update_of_ne hk] at ht
          subst hs
          nomatch hin'.symm.trans (halone hin k t hk ht)
      · simp only [Function.update_of_ne hj] at hs
        rcases eq_or_ne k i with rfl | hk
        · simp only [Function.update_self, Option.some.injEq] at ht
          subst ht
          nomatch hin.symm.trans (halone hin' j s hj hs)
        · simp only [Function.update_of_ne hk] at ht
          exact h.one j k s t hs ht hin hin'
    · intro j live resp snapshot stored hs
      rcases eq_or_ne j i with rfl | hj
      · simp only [Function.update_self, Option.some.injEq] at hs
        exact hread live resp snapshot stored hs
      · simp only [Function.update_of_ne hj] at hs
        have hout : r.phase.inside = false :=
          Bool.eq_false_iff.mpr fun hin => hj (h.one j i _ r hs htask rfl hin)
        rw [hwrite hout]
        exact h.current j live resp snapshot stored hs
  | stopped => exact hok.elim

/-! ## A revocation that was recorded -/

/-- The state file has the key as revoked: it has entries of the key, and they are all revoked. -/
def RevokedAt (K : Codec) (id : KeyId) (state : StateFile) : Prop :=
  ∃ keys, state = .found 1 keys ∧ Remembered K id keys ∧ Barred K id keys

/-- A tick that is about to save has seen the key once, in whatever form. -/
def SeesOnce (id : KeyId) (w : Refreshers ι) : RefreshEvent ι → Prop
  | .step i (.saveState now _) => ∀ live resp snapshot stored,
      w.task i = some ⟨live, .loaded resp snapshot stored⟩ → SeenOnce id ⟨now, observedKeys resp⟩
  | _ => True

theorem RevokedAt.step {id : KeyId} (h : RevokedAt K id w.files.state) (hord : InTurn w)
    (hok : Exclusive w e) (hsees : SeesOnce id w e) (hmove : RefreshMove K C holdDown w e w') :
    RevokedAt K id w'.files.state := by
  cases hmove with
  | @started i disk htask =>
    obtain ⟨lines, hlines⟩ := Option.isSome_iff_exists.mp hok
    rw [startAnchors_found hlines]
    exact h
  | @moved i step r r' f' htask hmove =>
    cases hmove with
    | @saved _ live snapshot resp stored now =>
      obtain ⟨keys, hkeys, hrem, hbar⟩ := h
      have hseen := hsees live resp snapshot stored htask
      have hload := hord.current i live resp snapshot stored htask
      rw [hkeys] at hload
      obtain rfl : some keys = stored := Except.ok.inj hload
      refine ⟨_, rfl, hrem.step hbar hseen.seen, ?_⟩
      exact hbar.step fun o hs => hseen.not_seeded hrem hs
    | _ => exact h
  | stopped => exact h

/-! ## Every interleaving -/

def Refreshers.AllRest (w : Refreshers ι) : Prop := ∀ i r, w.task i = some r → r.phase = .idle

omit [DecidableEq ι] in
theorem InTurn.of_rest (h : w.AllRest) : InTurn w := by
  constructor
  · intro i j r s hr hs hin
    rw [h i r hr] at hin
    nomatch hin
  · intro i live resp snapshot stored hr
    nomatch h i _ hr

theorem Simulated.refl (h : w.AllRest) : Simulated K C holdDown w [] w := by
  refine ⟨[], w, .nil, rfl, fun i => ?_, fun _ => rfl⟩
  cases hr : w.task i with
  | none => exact .absent rfl
  | some r =>
    obtain ⟨live, phase⟩ := r
    obtain rfl : phase = .idle := h i _ hr
    exact .resting rfl

theorem Simulated.serial (h : Simulated K C holdDown w es w') (hrest : w'.AllRest) :
    ∃ es', (∀ i, eventsOf i es' = eventsOf i es) ∧ Serial K C holdDown w es' w' := by
  obtain ⟨hs, v, hser, ht⟩ := h
  have hfiles : v.files = w'.files := by
    refine ht.files fun i r hr => ?_
    rw [hrest i r hr]
    rfl
  have htask : ∀ i, v.task i = w'.task i ∧ eventsOf i hs = eventsOf i es := by
    intro i
    have hsim := ht.task i
    generalize hw : w'.task i = r at hsim ⊢
    generalize hv : v.task i = s at hsim ⊢
    cases hsim with
    | absent hev => exact ⟨rfl, hev.symm⟩
    | resting hev => exact ⟨rfl, hev.symm⟩
    | before hearly =>
      cases hrest i _ hw
      nomatch hearly
    | inside hin =>
      cases hrest i _ hw
      nomatch hin
    | ahead => nomatch hrest i _ hw
  have hsame : v = w' := by
    obtain ⟨vf, vt⟩ := v
    obtain ⟨wf, wt⟩ := w'
    obtain rfl : vf = wf := hfiles
    obtain rfl : vt = wt := funext fun i => (htask i).1
    rfl
  exact ⟨hs, fun i => (htask i).2, hsame ▸ hser⟩

/-- **Ticks that exclude each other are serial, and keep revocations.**  In every interleaving in which no tick
reads the state file while another one is between its reading and its writing: once all tasks rest, the files and
the published anchors are those of a serial run; and a recorded revocation stays recorded as long as the ticks that
save in between see the key once. -/
theorem refresh_serial_of_exclusive {w w' : Refreshers ι} {es : List (RefreshEvent ι)}
    (hrest : w.AllRest) (hok : (refreshStep K C holdDown).Along Exclusive w es)
    (hrun : (refreshStep K C holdDown).run w es = some w') :
    (w'.AllRest →
      ∃ es', (∀ i, eventsOf i es' = eventsOf i es) ∧ Serial K C holdDown w es' w' ∧
        (refreshStep K C holdDown).run w es' = some w') ∧
      ∀ id es₁ es₂ w₁, es = es₁ ++ es₂ → (refreshStep K C holdDown).run w es₁ = some w₁ →
        RevokedAt K id w₁.files.state → (refreshStep K C holdDown).Along (SeesOnce id) w₁ es₂ →
        RevokedAt K id w'.files.state := by
  have hinv : ∀ {es : List (RefreshEvent ι)} {w₁ : Refreshers ι},
      (refreshStep K C holdDown).Along Exclusive w es →
      (refreshStep K C holdDown).run w es = some w₁ →
      InTurn w₁ ∧ Simulated K C holdDown w es w₁ := by
    intro es w₁ hok hrun
    refine Machine.run_induction (I := fun h w₁ => InTurn w₁ ∧ Simulated K C holdDown w h w₁)
      ⟨.of_rest hrest, .refl hrest⟩ ?_ hok hrun
    rintro h w₂ e w₃ ⟨hord, hsim⟩ hok hstep
    have hmove := refreshStep_eq_some.mp hstep
    refine ⟨hord.step hok hmove, ?_⟩
    cases hmove with
    | started htask => exact hsim.start htask hok
    | moved htask hmove => exact hsim.step hord htask hok hmove
    | stopped => exact hok.elim
  constructor
  · intro hrest'
    obtain ⟨es', hev, hser⟩ := (hinv hok hrun).2.serial hrest'
    exact ⟨es', hev, hser, hser.run⟩
  · rintro id es₁ es₂ w₁ rfl hrun₁ hrev hsees
    obtain ⟨hok₁, hok₂⟩ := Machine.along_append.mp hok
    obtain ⟨w₂, hw₂, hrun₂⟩ := Machine.run_append.mp hrun
    cases hrun₁.symm.trans hw₂
    have hstart : InTurn w₁ ∧ RevokedAt K id w₁.files.state := ⟨(hinv hok₁ hrun₁).1, hrev⟩
    have hboth := (hok₂ w₁ hrun₁).and hsees
    refine (Machine.run_induction
      (I := fun _ w₁ => InTurn w₁ ∧ RevokedAt K id w₁.files.state) hstart ?_ hboth hrun₂).2
    rintro h w₂ e w₃ ⟨hord, hrev⟩ ⟨hok, hsees⟩ hstep
    have hmove := refreshStep_eq_some.mp hstep
    exact ⟨hord.step hok hmove, hrev.step hord hok hsees hmove⟩

end

/-! ## Two tasks -/

def twoTasks : Refreshers Bool where
  files := stoppedPair.files
  task _ := some ⟨twoAnchors.live, .idle⟩

def firstTick : List TickStep := tickSteps [.v4 1] (.parsed bothKeys) 100 {}

def secondTick : List TickStep := tickSteps [.v4 1] (.parsed revokingResponse) 100 {}

def runTwo (es : List (RefreshEvent Bool)) : Option (Refreshers Bool) :=
  (refreshStep plainCodec firstKeySigns 10).run twoTasks es

def politeRun : List (RefreshEvent Bool) :=
  stepsOf false (firstTick.take 2) ++ stepsOf true (secondTick.take 5) ++
    stepsOf false (firstTick.drop 2) ++ stepsOf true (secondTick.drop 5)

theorem exclusive_politeRun :
    (refreshStep plainCodec firstKeySigns 10).Along Exclusive twoTasks politeRun := by
  refine .cons rfl trivial (.cons rfl trivial (.cons rfl trivial (.cons rfl trivial ?_)))
  refine .cons rfl ?_ (.cons rfl trivial (.cons rfl trivial (.cons rfl ?_ ?_)))
  · -- The first task has verified its response.
    rintro (_ | _) r hne hr
    · obtain rfl := Option.some.inj hr
      rfl
    · exact absurd rfl hne
  · -- The second task has only its publication left.
    rintro (_ | _) r hne hr
    · exact absurd rfl hne
    · obtain rfl := Option.some.inj hr
      rfl
  · exact .cons rfl trivial (.cons rfl trivial (.cons rfl trivial (.cons rfl trivial trivial)))

theorem refresh_serial_polite :
    ∃ w', runTwo politeRun = some w' ∧ w'.files.state = .found 1 [activeEntry 1, revokedSecond] ∧
      ∃ es', (∀ i, eventsOf i es' = eventsOf i politeRun) ∧
        Serial plainCodec firstKeySigns 10 twoTasks es' w' := by
  have hrest : twoTasks.AllRest := by
    rintro i r hr
    obtain rfl := Option.some.inj hr
    rfl
  have hview : (runTwo politeRun).map (fun w =>
      (w.files.state, (w.task false).map (·.phase), (w.task true).map (·.phase))) =
      some (.found 1 [activeEntry 1, revokedSecond], some .idle, some .idle) := by
    decide
  obtain ⟨w', hrun, hw'⟩ := Option.map_eq_some_iff.mp hview
  simp only [Prod.mk.injEq] at hw'
  obtain ⟨hstate, hfirst, hsecond⟩ := hw'
  have hrest' : w'.AllRest := by
    rintro (_ | _) r hr
    · rw [hr] at hfirst
      exact Option.some.inj hfirst
    · rw [hr] at hsecond
      exact Option.some.inj hsecond
  obtain ⟨es', hev, hser, -⟩ := (refresh_serial_of_exclusive hrest exclusive_politeRun hrun).1 hrest'
  exact ⟨w', hrun, hstate, es', hev, hser⟩

theorem revocation_lost :
    ((runTwo (stepsOf false (firstTick.take 3) ++ stepsOf true secondTick)).map
        fun w => w.files.state) = some (.found 1 [activeEntry 1, revokedSecond]) ∧
      ((runTwo (stepsOf false (firstTick.take 3) ++ stepsOf true secondTick ++
        stepsOf false (firstTick.drop 3))).map fun w => w.files.state) =
          some (.found 1 [activeEntry 1, activeEntry 2]) ∧
      ((runTwo (stepsOf false firstTick ++ stepsOf true secondTick)).map fun w => w.files.state) =
        some (.found 1 [activeEntry 1, revokedSecond]) ∧
      ((runTwo (stepsOf true secondTick ++ stepsOf false firstTick)).map fun w => w.files.state) =
        some (.found 1 [activeEntry 1, revokedSecond]) := by
  decide

end Dnsd.Recursor
