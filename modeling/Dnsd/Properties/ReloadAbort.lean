/-
# ReloadAbort — what an aborted reload leaves behind.

`reload` publishes the new forwarder table before it builds the new handler; when that fails the daemon shows
forwarders that it does not use (`failed_reload_shows`).
-/
import Dnsd.Daemon.Reload

namespace Dnsd.Daemon

open Proto Recursor Lib

variable {L : Library} {args : Args} {d : Running} {es : List DaemonEvent}

/-! ## What is published -/

/-- What others see of the daemon: the live handler, the table and the TLS summary that the control
socket shows, and the listeners. -/
def Running.published (d : Running) : Handler × ForwarderTable × TlsInfo × LiveListeners :=
  (d.live, d.shown, d.tlsInfo, d.listeners)

def Running.ShowsRoutes (d : Running) : Prop := d.shown = d.live.table

def AbortsUnchanged (L : Library) (args : Args) (d : Running) (es : List DaemonEvent) : Prop :=
  ∀ before out after d₁, es = before ++ .reload out :: after →
    (daemon L args).run d before = some d₁ → (reload L args out d₁).1.aborted = true →
    (reload L args out d₁).2.published = d₁.published

/-- Before and after every event of the run the table shown is the one routed with. -/
def ShowsBetween (L : Library) (args : Args) (d : Running) (es : List DaemonEvent) : Prop :=
  ∀ before after d₁, es = before ++ after → (daemon L args).run d before = some d₁ → d₁.ShowsRoutes

def ShowsWithin (L : Library) (args : Args) (d : Running) (es : List DaemonEvent) : Prop :=
  ∀ before out after d₁ d₂, es = before ++ .reload out :: after →
    (daemon L args).run d before = some d₁ → Stored L args out d₁ d₂ → d₂.ShowsRoutes

/-- If the reload builds a table and no handler, it is the table in use. -/
def FailsAlike (L : Library) (args : Args) (d : Running) : DaemonEvent → Prop
  | .reload out => ∀ cfg table, DnsConfig.load out.file = .ok cfg →
      ForwarderTable.new L cfg.forwarders = .ok table →
      out.sockets (upstreamSources cfg args.found) = false → table = d.live.table
  | _ => True

def ReloadsAlike (L : Library) (d : Running) : DaemonEvent → Prop
  | .reload out => ∀ cfg table, DnsConfig.load out.file = .ok cfg →
      ForwarderTable.new L cfg.forwarders = .ok table → table = d.live.table
  | _ => True

/-! ## One event -/

theorem startUp_showsRoutes {out : Outside} (h : startUp L args out = some d) : d.ShowsRoutes := by
  obtain ⟨_, _, _, _, _, _, rfl⟩ := startUp_eq_some _ _ h
  rfl

theorem step_showsRoutes {e : DaemonEvent} {d' : Running} (hd : d.ShowsRoutes)
    (hok : FailsAlike L args d e) (hs : daemon L args d e = some d') : d'.ShowsRoutes := by
  cases e with
  | reload out =>
    obtain rfl := Option.some.inj hs
    generalize hr : reload L args out d = r
    have hspec := reload_spec L args out d
    rw [hr] at hspec
    cases hspec with
    | configReadFailed _ => exact hd
    | forwarderConfigInvalid _ _ => exact hd
    | recursorInitFailed hload htable hsockets => exact hok _ _ hload htable hsockets
    | completed _ _ _ => rfl
  | warmed id =>
    simp only [daemon, Option.dite_none_right_eq_some, Option.some.injEq] at hs
    obtain ⟨hid, rfl⟩ := hs
    exact hd
  | worked id s =>
    simp only [daemon, Option.dite_none_right_eq_some, Option.some.injEq] at hs
    obtain ⟨hid, rfl⟩ := hs
    exact hd

theorem aborted_published {out : Outside} (hd : d.ShowsRoutes) (hok : FailsAlike L args d (.reload out))
    (habort : (reload L args out d).1.aborted = true) :
    (reload L args out d).2.published = d.published := by
  generalize hr : reload L args out d = r at habort ⊢
  have hspec := reload_spec L args out d
  rw [hr] at hspec
  cases hspec with
  | configReadFailed _ => rfl
  | forwarderConfigInvalid _ _ => rfl
  | recursorInitFailed hload htable hsockets =>
    have htable : d.publish _ = d.publish d.shown :=
      congrArg d.publish ((hok _ _ hload htable hsockets).trans hd.symm)
    rw [htable]
    rfl
  | completed _ _ _ => nomatch habort

/-! ## Whole runs -/

theorem showsBetween_of_along (hd : d.ShowsRoutes)
    (h : (daemon L args).Along (FailsAlike L args) d es) : ShowsBetween L args d es := by
  rintro before after d₁ rfl hrun
  refine Machine.run_induction (I := fun _ d => d.ShowsRoutes) hd ?_ (Machine.along_append.mp h).1 hrun
  intro _ d e d' hd hok hs
  exact step_showsRoutes hd hok hs

/-- **An aborted reload changes nothing, and the table shown is the one routed with, exactly if a reload
that fails after it has published a table has published the one in use**; and no store of any reload
makes the two differ exactly if no reload changes the table. -/
theorem aborted_reload_iff {out : Outside} (hstart : startUp L args out = some d) :
    (AbortsUnchanged L args d es ∧ ShowsBetween L args d es ↔
      (daemon L args).Along (FailsAlike L args) d es) ∧
    (ShowsWithin L args d es ↔ (daemon L args).Along (ReloadsAlike L) d es) := by
  have hd := startUp_showsRoutes hstart
  refine ⟨⟨?_, fun h => ⟨?_, showsBetween_of_along hd h⟩⟩, ?_, ?_⟩
  · rintro ⟨hunchanged, hshows⟩
    refine Machine.along_iff.mpr fun before e after d₁ hes hrun => ?_
    cases e with
    | reload out =>
      intro cfg table hload htable hsockets
      have hr := reload_recursorInitFailed L args (d := d₁) hload htable hsockets
      have hsame := hunchanged before out after d₁ hes hrun (by rw [hr]; rfl)
      rw [hr] at hsame
      have hshown : table = d₁.shown := congrArg (fun p => p.2.1) hsame
      exact hshown.trans (hshows before _ d₁ hes hrun)
    | warmed id => trivial
    | worked id s => trivial
  · intro before out after d₁ hes hrun habort
    refine aborted_published (showsBetween_of_along hd h before _ d₁ hes hrun) ?_ habort
    exact Machine.along_iff.mp h before _ after d₁ hes hrun
  · intro hshows
    refine Machine.along_iff.mpr fun before e after d₁ hes hrun => ?_
    cases e with
    | reload out =>
      intro cfg table hload htable
      exact hshows before out after d₁ _ hes hrun (.published hload htable)
    | warmed id => trivial
    | worked id s => trivial
  · intro h before out after d₁ d₂ hes hrun hstored
    have halike : ReloadsAlike L d₁ (.reload out) := Machine.along_iff.mp h before _ after d₁ hes hrun
    cases hstored with
    | published hload htable => exact halike _ _ hload htable
    | summarised hload htable _ => exact halike _ _ hload htable
    | swapped _ _ _ => rfl
    | rebound _ _ _ => rfl

/-! ## A reload without an upstream socket -/

def forwardingDns : DnsConfig :=
  { sampleDns [lanEntry] with
    forwarders := [{ domain := "z", servers := [.bare (.v4 0x0a000035)] }] }

def Outside.offline (dns : DnsConfig) : Outside := { Outside.calm dns with sockets := fun _ => false }

theorem aborted_reload_same :
    ∃ d, startUp sampleLibrary {} (.calm forwardingDns) = some d ∧
      AbortsUnchanged sampleLibrary {} d [.reload (.offline forwardingDns)] ∧
      ShowsBetween sampleLibrary {} d [.reload (.offline forwardingDns)] := by
  have hsome : (startUp sampleLibrary {} (.calm forwardingDns)).isSome = true := by decide
  obtain ⟨d, hd⟩ := Option.isSome_iff_exists.mp hsome
  refine ⟨d, hd, (aborted_reload_iff hd).1.mpr ⟨?_, fun _ _ => trivial⟩⟩
  intro cfg table hload htable _
  obtain ⟨cfg', table', _, hload', htable', _, rfl⟩ := startUp_eq_some _ _ hd
  cases hload.symm.trans hload'
  cases htable.symm.trans htable'
  rfl

def afterReload (out : Outside) : Option (Outcome × List Name × List Name) :=
  (startUp sampleLibrary {} (.calm (sampleDns [lanEntry]))).map fun d =>
    match reload sampleLibrary {} out d with
    | (outcome, d') =>
        (outcome, d'.shown.entries.map (·.domain), d'.live.table.entries.map (·.domain))

theorem failed_reload_shows :
    afterReload (.offline forwardingDns) = some (.recursorInitFailed, [⟨[[122]]⟩], []) := by
  decide

end Dnsd.Daemon
