/-
# ReloadService — what clients notice of a reload.

The new handler of a reload is not ready, remembers no failed resolves and has no locks, and it goes live before
its prewarm is done (`reload_refuses`).  `service_uninterrupted_iff`: service goes on exactly if each reload
happens before the daemon is ready, or its prewarm wins the race, with nothing to carry over.
-/
import Dnsd.Daemon.Reload
import Dnsd.Recursor.Script

namespace Dnsd.Daemon

open Proto Recursor Lib

variable {L : Library} {args : Args} {d : Running} {es : List DaemonEvent}

/-! ## Service over a run -/

/-- A daemon that is ready at some time of the run is ready at every later time. -/
def StaysReady (L : Library) (args : Args) (d : Running) (es : List DaemonEvent) : Prop :=
  ∀ before after rest d₁ d₂, es = before ++ (after ++ rest) →
    (daemon L args).run d before = some d₁ → (daemon L args).run d₁ after = some d₂ →
    d₁.isReady = true → d₂.isReady = true

/-- Every reload of the run leaves the failed resolves and the locks that queries consult. -/
def CarriesOver (L : Library) (args : Args) (d : Running) (es : List DaemonEvent) : Prop :=
  ∀ before out rest d₁, es = before ++ .reload out :: rest →
    (daemon L args).run d before = some d₁ →
    (reload L args out d₁).2.consulted = d₁.consulted

/-- The reload goes through and the new handler recurses and validates. -/
def KeepsValidation (L : Library) (args : Args) (d : Running) : DaemonEvent → Prop
  | .reload out => ∃ d', reload L args out d = (.completed, d') ∧ d'.live.prewarms = true
  | _ => True

/-- Nobody is ready yet or the prewarm wins the race, and there is nothing to carry over. -/
def Smooth (d : Running) : DaemonEvent → Prop
  | .reload out => (d.isReady = true → out.warm = true) ∧ d.consulted = .fresh
  | _ => True

/-! ## One event -/

theorem reload_service {out : Outside} (h : KeepsValidation L args d (.reload out)) :
    (reload L args out d).2.isReady = out.warm ∧ (reload L args out d).2.consulted = .fresh := by
  obtain ⟨d', hr, hwarms⟩ := h
  have hspec := reload_spec L args out d
  rw [hr] at hspec ⊢
  cases hspec with
  | completed hload htable _ =>
    obtain ⟨hready, hstores⟩ := d.unbuilt d.built (Nat.le_refl _)
    exact ⟨spawnDnssecPrewarm_self hwarms hready, hstores⟩

theorem ready_of_not_reload {e : DaemonEvent} {d' : Running} (he : ∀ out, e ≠ .reload out)
    (hs : daemon L args d e = some d') (hready : d.isReady = true) : d'.isReady = true := by
  cases e with
  | reload out => exact absurd rfl (he out)
  | warmed id =>
    simp only [daemon, Option.dite_none_right_eq_some, Option.some.injEq] at hs
    obtain ⟨hid, rfl⟩ := hs
    show Function.update d.ready id true d.live.id = true
    by_cases hlive : d.live.id = id
    · rw [hlive, Function.update_self]
    · rw [Function.update_of_ne hlive]
      exact hready
  | worked id s =>
    simp only [daemon, Option.dite_none_right_eq_some, Option.some.injEq] at hs
    obtain ⟨hid, rfl⟩ := hs
    exact hready

/-! ## Whole runs -/

theorem staysReady_iff : StaysReady L args d es ↔
    (daemon L args).Along (fun d e => ∀ out, e = .reload out → d.isReady = true →
      (reload L args out d).2.isReady = true) d es := by
  constructor
  · intro h
    refine Machine.along_iff.mpr ?_
    rintro before e after d₁ rfl hrun out rfl hready
    exact h before [.reload out] after d₁ _ rfl hrun rfl hready
  · rintro h before after rest d₁ d₂ rfl hrun hrun' hready
    have hafter := (Machine.along_append.mp ((Machine.along_append.mp h).2 d₁ hrun)).1
    refine Machine.run_induction (I := fun _ d => d.isReady = true) hready ?_ hafter hrun'
    intro _ d e d' hready hok hs
    by_cases he : ∃ out, e = .reload out
    · obtain ⟨out, rfl⟩ := he
      obtain rfl := Option.some.inj hs
      exact hok out rfl hready
    · exact ready_of_not_reload (fun out heq => he ⟨out, heq⟩) hs hready

theorem carriesOver_iff : CarriesOver L args d es ↔
    (daemon L args).Along (fun d e => ∀ out, e = .reload out →
      (reload L args out d).2.consulted = d.consulted) d es := by
  rw [Machine.along_iff]
  constructor
  · rintro h before e after d₁ rfl hrun out rfl
    exact h before out after d₁ rfl hrun
  · rintro h before out rest d₁ rfl hrun
    exact h before (.reload out) rest d₁ rfl hrun out rfl

/-- **Service is not interrupted exactly if every reload is smooth**, in every run of a daemon in which
the reloads go through and keep iterative validation on, whatever the handlers do in between. -/
theorem service_uninterrupted_iff
    (hval : (daemon L args).Along (KeepsValidation L args) d es) :
    StaysReady L args d es ∧ CarriesOver L args d es ↔ (daemon L args).Along Smooth d es := by
  rw [staysReady_iff, carriesOver_iff, Machine.along_iff, Machine.along_iff, Machine.along_iff]
  constructor
  · rintro ⟨hready, hcarry⟩ before e after d₁ hes hrun
    cases e with
    | reload out =>
      obtain ⟨hnew, hfresh⟩ := reload_service (Machine.along_iff.mp hval before _ after d₁ hes hrun)
      refine ⟨fun h => ?_, ?_⟩
      · rw [← hnew]
        exact hready before _ after d₁ hes hrun out rfl h
      · rw [← hcarry before _ after d₁ hes hrun out rfl, hfresh]
    | warmed _ | worked _ _ => trivial
  · intro hsmooth
    refine ⟨?_, ?_⟩
    · rintro before e after d₁ hes hrun out rfl h
      obtain ⟨hnew, -⟩ := reload_service (Machine.along_iff.mp hval before _ after d₁ hes hrun)
      rw [hnew]
      exact (hsmooth before _ after d₁ hes hrun).1 h
    · rintro before e after d₁ hes hrun out rfl
      obtain ⟨-, hfresh⟩ := reload_service (Machine.along_iff.mp hval before _ after d₁ hes hrun)
      rw [hfresh]
      exact (hsmooth before _ after d₁ hes hrun).2.symm

/-! ## An early reload, and a late one -/

def validatingDns : DnsConfig := { sampleDns [lanEntry] with recursion := some { dnssec := .validate } }

theorem service_uninterrupted_early :
    ∃ d, startUp sampleLibrary {} (.calm validatingDns) = some d ∧
      StaysReady sampleLibrary {} d [.reload (.calm validatingDns), .warmed 1] ∧
      CarriesOver sampleLibrary {} d [.reload (.calm validatingDns), .warmed 1] := by
  have hearly : (startUp sampleLibrary {} (.calm validatingDns)).map Running.isReady = some false := by
    decide
  obtain ⟨d, hd, hready⟩ := Option.map_eq_some_iff.mp hearly
  have hfresh : d.consulted = .fresh := by
    obtain ⟨_, _, _, _, _, _, rfl⟩ := startUp_eq_some _ _ hd
    rfl
  refine ⟨d, hd, (service_uninterrupted_iff ?_).mpr ?_⟩
  · have hload : DnsConfig.load (Outside.calm validatingDns).file = .ok validatingDns := rfl
    have htable : ForwarderTable.new sampleLibrary validatingDns.forwarders = .ok ⟨[], .nil⟩ := rfl
    exact ⟨⟨_, reload_completed _ _ hload htable rfl, rfl⟩, fun _ _ => ⟨trivial, fun _ _ => trivial⟩⟩
  · refine ⟨⟨fun h => ?_, hfresh⟩, fun _ _ => ⟨trivial, fun _ _ => trivial⟩⟩
    nomatch hready.symm.trans h

def busyStores : Stores where
  negResolve := NegResolveCache.insert ∅ (Name.root, .A) 0 insideName .A
  inFlight := (∅ : Table (Name × RecordType) Nat).insert (insideName, .A) 0

def Running.meets (d : Running) : Bool × Bool × Option Nat :=
  (d.isReady, d.consulted.negResolve.hit 0 insideName .A, d.consulted.inFlight.lookup (insideName, .A))

def metAfter (es : List DaemonEvent) : Option (Bool × Bool × Option Nat) :=
  (startUp sampleLibrary {} (.calm validatingDns)).bind fun d =>
    ((daemon sampleLibrary {}).run d es).map Running.meets

theorem reload_refuses :
    metAfter [.warmed 0, .worked 0 busyStores] = some (true, true, some 0) ∧
      metAfter [.warmed 0, .worked 0 busyStores, .reload (.calm validatingDns)] =
        some (false, false, none) := by
  decide

end Dnsd.Daemon
