/-
# RefreshFailure — what a refresh that is cut short leaves behind.

A tick saves the state file, then the anchor file, and then publishes.  Cut short in between after a revocation,
it leaves the key published and in the anchor file (`revoked_key_reloaded`).  `Harmless` rules that out; `Sound`
says for each phase which anchors the state file backs already.
-/
import Dnsd.Recursor.Refreshers
import Dnsd.Properties.AnchorsKept
import Dnsd.Properties.Revocation

namespace Dnsd.Recursor

open Proto Lib List

def ActiveIn (K : Codec) (state : StateFile) (a : Name × DNSKEY) : Prop :=
  ∃ keys, state = .found 1 keys ∧ ∃ e ∈ keys, e.status = .active ∧ Denotes K e a

/-- The state file has the anchor as revoked: it has entries about it, and they are all revoked. -/
def RecordedRevoked (K : Codec) (state : StateFile) (a : Name × DNSKEY) : Prop :=
  ∃ keys, state = .found 1 keys ∧ (∃ e ∈ keys, Denotes K e a) ∧
    ∀ e ∈ keys, Denotes K e a → ∃ t, e.status = .revoked t

def Backed (K : Codec) (state : StateFile) (anchors : TrustAnchors) : Prop :=
  ∀ a ∈ anchors.keys, ActiveIn K state a

def BackedBut (K : Codec) (resp : Message) (state : StateFile) (anchors : TrustAnchors) : Prop :=
  ∀ a ∈ anchors.keys, ¬ RevokedIn resp a → ActiveIn K state a

def Spares (resp : Message) (anchors : TrustAnchors) : Prop := ∀ a ∈ anchors.keys, ¬ RevokedIn resp a

def AnchorFiles.anchors (K : Codec) (f : AnchorFiles) : TrustAnchors :=
  match f.anchor with
  | some lines => loadAnchorFile K lines
  | none => ⟨[]⟩

section

variable {K : Codec} {state : StateFile} {anchors : TrustAnchors} {a : Name × DNSKEY}
  {resp : Message}

theorem BackedBut.of_spares (h : BackedBut K resp state anchors) (hs : Spares resp anchors) :
    Backed K state anchors :=
  fun a ha => h a ha (hs a ha)

theorem Backed.not_mem (h : Backed K state anchors) (hrev : RecordedRevoked K state a) :
    a ∉ anchors.keys := by
  intro ha
  obtain ⟨keys, hkeys, -, hall⟩ := hrev
  obtain ⟨keys', hkeys', e, he, hact, hden⟩ := h a ha
  obtain rfl : keys = keys' := by
    rw [hkeys] at hkeys'
    exact (StateFile.found.inj hkeys').2
  obtain ⟨t, ht⟩ := hall e he hden
  nomatch ht.symm.trans hact

theorem mapM_anchor_mem {lines : List AnchorLine} {keys : List (Name × DNSKEY)}
    (h : lines.mapM (AnchorLine.anchor? K) = some keys) (ha : a ∈ keys) :
    ∃ line ∈ lines, line.anchor? K = some a := by
  induction lines generalizing keys with
  | nil =>
    cases h
    nomatch ha
  | cons line lines ih =>
    rw [mapM_cons] at h
    obtain ⟨b, hb, h⟩ := Option.bind_eq_some_iff.mp h
    obtain ⟨rest, hrest, h⟩ := Option.bind_eq_some_iff.mp h
    cases h
    rcases mem_cons.mp ha with rfl | ha
    · exact ⟨line, mem_cons_self, hb⟩
    · obtain ⟨line', hline', hl⟩ := ih hrest ha
      exact ⟨line', .tail _ hline', hl⟩

theorem fileHas_of_loaded {lines : List AnchorLine} (h : a ∈ (loadAnchorFile K lines).keys) :
    FileHas K lines a := by
  unfold loadAnchorFile at h
  split at h
  · rename_i keys hkeys
    obtain ⟨line, hline, ha⟩ := mapM_anchor_mem hkeys h
    exact ⟨line, hline, a, ha, rfl, rfl, rfl⟩
  · nomatch h

theorem backed_rendered (next : List ManagedKey) (ttl : Nat) :
    Backed K (.found 1 next) (loadAnchorFile K (renderAnchorFile next ttl)) :=
  fun _ ha => ⟨next, rfl, renderAnchorFile_has.mp (fileHas_of_loaded ha)⟩

theorem backed_published {next : List ManagedKey} (h : fromManagedKeys K next = .ok anchors) :
    Backed K (.found 1 next) anchors :=
  fun a ha => ⟨next, rfl, (fromManagedKeys_has h).mp ⟨a, ha, rfl, rfl, rfl⟩⟩

theorem Backed.next {keys : List ManagedKey} (h : Backed K (.found 1 keys) anchors)
    (holdDown now : Nat) (snapshot : TrustAnchors) (resp : Message) :
    BackedBut K resp (.found 1 (nextKeys K holdDown now snapshot (some keys) resp)) anchors := by
  intro a ha hnot
  obtain ⟨keys', hkeys', e, he, hact, hden⟩ := h a ha
  cases hkeys'
  exact ⟨_, rfl, (active_next_iff hnot).mpr ⟨e, he, hden, Or.inl hact⟩⟩

/-! ## The start of a process -/

theorem backed_bootstrap {keys : List (Name × DNSKEY)}
    (h : embeddedRootKsks.mapM (AnchorLine.anchor? K) = some keys) :
    Backed K
      (.found 1 (keys.map fun a => ManagedKey.fromObserved K (toAscii a.1) a.2 .active)) ⟨keys⟩ := by
  intro a ha
  obtain ⟨line, hline, hl⟩ := mapM_anchor_mem h ha
  -- The embedded keys are the root's, whose name is read back as it is printed.
  have howner : line.owner = toAscii Name.root := by
    simp only [embeddedRootKsks, mem_cons, not_mem_nil, or_false] at hline
    rcases hline with rfl | rfl <;> rfl
  have hroot : a.1 = Name.root := by
    obtain ⟨key, -, hl⟩ := Option.bind_eq_some_iff.mp hl
    obtain ⟨name, hname, hl⟩ := Option.bind_eq_some_iff.mp hl
    cases hl
    rw [howner, K.fromAscii_root] at hname
    exact (Option.some.inj hname).symm
  refine ⟨_, rfl, _, mem_map_of_mem ha, rfl, ?_, rfl, K.decode_encode _⟩
  show K.fromAscii (toAscii a.1) = some a.1
  rw [hroot, K.fromAscii_root]

theorem startAnchors_backed {f : AnchorFiles} {disk : Disk} (h : Backed K f.state (f.anchors K))
    (hdisk : f.anchor = none → disk.anchorWrites = true → disk.stateWrites = true) :
    Backed K (startAnchors K disk f).1.state (startAnchors K disk f).2 ∧
      Backed K (startAnchors K disk f).1.state ((startAnchors K disk f).1.anchors K) := by
  obtain ⟨state, anchor⟩ := f
  cases anchor with
  | some lines => exact ⟨h, h⟩
  | none =>
    have hempty : ∀ state, Backed K state ⟨[]⟩ := fun _ _ ha => nomatch ha
    show Backed K (bootstrapSelfManaged K disk _).1.state (bootstrapSelfManaged K disk _).2 ∧
      Backed K (bootstrapSelfManaged K disk _).1.state ((bootstrapSelfManaged K disk _).1.anchors K)
    unfold bootstrapSelfManaged
    split
    · exact ⟨hempty _, h⟩
    rename_i keys hkeys
    split
    · exact ⟨hempty _, h⟩
    rename_i hanchor
    have hstate : disk.stateWrites = true := hdisk rfl (by simpa using hanchor)
    rw [hstate]
    exact ⟨backed_bootstrap hkeys, backed_rendered _ _⟩

end

/-! ## One step -/

def CutHarmless (K : Codec) (f : AnchorFiles) (r : Refresher) : Prop :=
  match r.phase with
  | .saved resp _ => Spares resp r.live ∧ Spares resp (f.anchors K)
  | .written resp _ => Spares resp r.live
  | _ => True

def StepHarmless (K : Codec) (f : AnchorFiles) (r : Refresher) : TickStep → Prop
  | .saveAnchorFile ok => ok = false → CutHarmless K f r
  | .publish => ∀ resp next e, r.phase = .written resp next →
      fromManagedKeys K next = .error e → CutHarmless K f r
  | _ => True

/-- No event ends a tick that has saved the revocation of an anchor and not yet published it, and no
first start writes the anchor file alone. -/
def Harmless (K : Codec) (w : Refreshers Unit) : RefreshEvent Unit → Prop
  | .start _ disk => w.files.anchor = none → disk.anchorWrites = true → disk.stateWrites = true
  | .step _ step => ∀ r, w.task () = some r → StepHarmless K w.files r step
  | .stop => ∀ r, w.task () = some r → CutHarmless K w.files r

def Sound (K : Codec) (f : AnchorFiles) (r : Refresher) : Prop :=
  match r.phase with
  | .idle | .fetched _ _ => Backed K f.state r.live ∧ Backed K f.state (f.anchors K)
  | .verified _ _ =>
      (Backed K f.state r.live ∧ Backed K f.state (f.anchors K)) ∧ ∃ keys, f.state = .found 1 keys
  | .loaded _ _ stored =>
      (Backed K f.state r.live ∧ Backed K f.state (f.anchors K)) ∧
        ∃ keys, f.state = .found 1 keys ∧ stored = some keys
  | .saved resp next => f.state = .found 1 next ∧
      BackedBut K resp f.state r.live ∧ BackedBut K resp f.state (f.anchors K)
  | .written resp next => f.state = .found 1 next ∧
      BackedBut K resp f.state r.live ∧ Backed K f.state (f.anchors K)

section

variable {K : Codec} {C : Crypto} {holdDown : Nat}

theorem Sound.cut {f : AnchorFiles} {r : Refresher} (h : Sound K f r) (hc : CutHarmless K f r) :
    Backed K f.state r.live ∧ Backed K f.state (f.anchors K) := by
  obtain ⟨live, phase⟩ := r
  cases phase with
  | idle => exact h
  | fetched resp sig => exact h
  | verified resp snapshot => exact h.1
  | loaded resp snapshot stored => exact h.1
  | saved resp next => exact ⟨h.2.1.of_spares hc.1, h.2.2.of_spares hc.2⟩
  | written resp next => exact ⟨h.2.1.of_spares hc, h.2.2⟩

/-- **One step of a tick keeps what its phase promises.** -/
theorem Sound.step {s s' : AnchorFiles × Refresher} {step : TickStep} (h : Sound K s.1 s.2)
    (hok : StepHarmless K s.1 s.2 step) (hmove : TickMove K C holdDown s step s') :
    Sound K s'.1 s'.2 := by
  cases hmove with
  | @fetched f live roots reply =>
    show Sound K f ⟨live, fetchPhase roots reply⟩
    rcases fetchPhase_cases roots reply with hp | ⟨resp, sig, hp⟩
    · rw [hp]
      exact h
    · rw [hp]
      exact h
  | refused _ => exact h
  | verified hv =>
    -- A response is accepted under some anchor, and an active entry backs it.
    obtain ⟨a, ha, -⟩ := any_eq_true.mp hv
    obtain ⟨keys, hkeys, -⟩ := h.1 a ha
    exact ⟨h, keys, hkeys⟩
  | unreadable _ => exact h.1
  | loaded hload =>
    obtain ⟨hback, keys, hkeys⟩ := h
    refine ⟨hback, keys, hkeys, ?_⟩
    rw [show _ = StateFile.found 1 keys from hkeys] at hload
    exact (Except.ok.inj hload).symm
  | unsaved => exact h.1
  | @saved f live snapshot resp stored now =>
    obtain ⟨⟨hlive, hfile⟩, keys, hkeys, rfl⟩ := h
    rw [hkeys] at hlive hfile
    exact ⟨rfl, hlive.next holdDown now snapshot resp, hfile.next holdDown now snapshot resp⟩
  | unwritten => exact h.cut (hok rfl)
  | @written f live resp next =>
    obtain ⟨hstate, hlive, -⟩ := h
    refine ⟨hstate, hlive, ?_⟩
    show Backed K f.state (loadAnchorFile K (renderAnchorFile next defaultAnchorTtl))
    rw [hstate]
    exact backed_rendered next defaultAnchorTtl
  | unpublished hpub => exact h.cut (hok _ _ _ rfl hpub)
  | @published f live anchors resp next hpub =>
    obtain ⟨hstate, -, hfile⟩ := h
    refine ⟨?_, hfile⟩
    show Backed K f.state anchors
    rw [hstate]
    exact backed_published hpub

/-! ## Every run -/

/-- The anchors that the validator holds; none while the process is stopped. -/
def Refreshers.held (w : Refreshers Unit) : TrustAnchors :=
  match w.task () with
  | some r => r.live
  | none => ⟨[]⟩

def Refreshers.AtRest (w : Refreshers Unit) : Prop := ∀ r, w.task () = some r → r.phase = .idle

def Steady (K : Codec) (w : Refreshers Unit) : Prop :=
  (∀ r, w.task () = some r → Sound K w.files r) ∧
    (w.task () = none → Backed K w.files.state (w.files.anchors K))

theorem Steady.step {w w' : Refreshers Unit} {e : RefreshEvent Unit} (h : Steady K w)
    (hok : Harmless K w e) (hstep : refreshStep K C holdDown w e = some w') : Steady K w' := by
  -- There is one task, so the task of the event is the one that is looked at.
  have hself : ∀ (i : Unit) (r : Refresher), Function.update w.task i (some r) () = some r :=
    fun i r => Function.update_self i (some r) w.task
  cases refreshStep_eq_some.mp hstep with
  | @started i disk htask =>
    refine ⟨fun r hr => ?_, fun hr => nomatch (hself i _).symm.trans hr⟩
    cases (hself i _).symm.trans hr
    exact startAnchors_backed (h.2 htask) hok
  | @moved i step r r' f' htask hmove =>
    refine ⟨fun r₁ hr₁ => ?_, fun hr₁ => nomatch (hself i _).symm.trans hr₁⟩
    cases (hself i _).symm.trans hr₁
    exact Sound.step (h.1 r htask) (hok r htask) hmove
  | stopped =>
    refine ⟨fun r hr => ?_, fun _ => ?_⟩
    · nomatch hr
    · show Backed K w.files.state (w.files.anchors K)
      cases htask : w.task () with
      | none => exact h.2 htask
      | some r => exact ((h.1 r htask).cut (hok r htask)).2

/-- **Every anchor stays backed by an active entry** along every run of one refresh task in which each tick that is
cut short is cut where that is harmless: whenever no tick is going on, what the validator holds and what a start
would load is active in the state file, and not recorded as revoked. -/
theorem anchors_backed_of_harmless {w w' : Refreshers Unit} {es : List (RefreshEvent Unit)}
    (hstopped : w.task () = none) (hfiles : Backed K w.files.state (w.files.anchors K))
    (hok : (refreshStep K C holdDown).Along (Harmless K) w es)
    (hrun : (refreshStep K C holdDown).run w es = some w') (hrest : w'.AtRest) :
    Backed K w'.files.state w'.held ∧ Backed K w'.files.state (w'.files.anchors K) ∧
      ∀ a, RecordedRevoked K w'.files.state a → a ∉ w'.held.keys ∧ a ∉ (w'.files.anchors K).keys := by
  have hstart : Steady K w := by
    refine ⟨fun r hr => ?_, fun _ => hfiles⟩
    nomatch hstopped.symm.trans hr
  have hend : Steady K w' :=
    Machine.run_induction (I := fun _ w => Steady K w) hstart
      (fun _ _ _ _ hI hok hstep => hI.step hok hstep) hok hrun
  have hback : Backed K w'.files.state w'.held ∧ Backed K w'.files.state (w'.files.anchors K) := by
    unfold Refreshers.held
    cases htask : w'.task () with
    | none =>
      refine ⟨fun a ha => ?_, hend.2 htask⟩
      nomatch ha
    | some r =>
      have hsound := hend.1 r htask
      refine hsound.cut ?_
      unfold CutHarmless
      rw [hrest r htask]
      trivial
  exact ⟨hback.1, hback.2, fun a ha => ⟨hback.1.not_mem ha, hback.2.not_mem ha⟩⟩

end

/-! ## A revocation that is cut short -/

def stoppedPair : Refreshers Unit where
  files := ⟨.found 1 [activeEntry 1, activeEntry 2],
    some (renderAnchorFile [activeEntry 1, activeEntry 2] defaultAnchorTtl)⟩
  task _ := none

def revokingRun : List (RefreshEvent Unit) :=
  [.start () {}, .step () (.fetch [.v4 1] (.parsed revokingResponse)), .step () .verify,
    .step () .loadState, .step () (.saveState 100 true)]

def refreshPair (es : List (RefreshEvent Unit)) : Option (Refreshers Unit) :=
  (refreshStep plainCodec firstKeySigns 10).run stoppedPair (revokingRun ++ es)

def secondAnchor : Name × DNSKEY := (Name.root, (rootKey 2 false).2)

def revokedSecond : ManagedKey :=
  { activeEntry 2 with status := .revoked 100, flags := (activeEntry 2).flags ||| 0x0080 }

theorem recordedRevoked_second {state : StateFile}
    (h : state = .found 1 [activeEntry 1, revokedSecond]) :
    RecordedRevoked plainCodec state secondAnchor := by
  refine ⟨_, h, ⟨revokedSecond, by simp, rfl, rfl, rfl⟩, fun e he hden => ?_⟩
  simp only [mem_cons, not_mem_nil, or_false] at he
  rcases he with rfl | rfl
  · exact absurd hden.2.2 (by decide)
  · exact ⟨100, rfl⟩

theorem stoppedPair_backed :
    Backed plainCodec stoppedPair.files.state (stoppedPair.files.anchors plainCodec) :=
  backed_rendered _ _

theorem harmless_whole_tick : (refreshStep plainCodec firstKeySigns 10).Along (Harmless plainCodec)
    stoppedPair (revokingRun ++
      [.step () (.saveAnchorFile true), .step () .publish, .stop, .start () {}]) := by
  refine .cons rfl nofun ?_
  refine .cons rfl (fun _ _ => trivial) (.cons rfl (fun _ _ => trivial) ?_)
  refine .cons rfl (fun _ _ => trivial) (.cons rfl (fun _ _ => trivial) ?_)
  refine .cons rfl (fun _ _ h => nomatch h) (.cons rfl ?_ (.cons rfl ?_ ?_))
  · intro r hr resp next e hphase herr
    obtain rfl := Option.some.inj hr
    obtain ⟨rfl, rfl⟩ := Phase.written.inj hphase
    nomatch (show Except.ok _ = Except.error e from herr)
  · intro r hr
    obtain rfl := Option.some.inj hr
    trivial
  · exact .cons rfl nofun trivial

theorem anchors_backed_whole_tick :
    ∃ w, refreshPair [.step () (.saveAnchorFile true), .step () .publish, .stop, .start () {}] =
        some w ∧
      RecordedRevoked plainCodec w.files.state secondAnchor ∧ secondAnchor ∉ w.held.keys := by
  refine ⟨_, rfl, recordedRevoked_second rfl, ?_⟩
  refine ((anchors_backed_of_harmless rfl stoppedPair_backed harmless_whole_tick rfl ?_).2.2 _
    (recordedRevoked_second rfl)).1
  intro r hr
  obtain rfl := Option.some.inj hr
  rfl

theorem revoked_key_reloaded :
    Backed plainCodec stoppedPair.files.state (stoppedPair.files.anchors plainCodec) ∧
      (∃ w, refreshPair [.step () (.saveAnchorFile false)] = some w ∧
        RecordedRevoked plainCodec w.files.state secondAnchor ∧ secondAnchor ∈ w.held.keys) ∧
      ∃ w, refreshPair [.step () (.saveAnchorFile false), .stop, .start () {}] = some w ∧
        RecordedRevoked plainCodec w.files.state secondAnchor ∧ secondAnchor ∈ w.held.keys := by
  refine ⟨stoppedPair_backed, ⟨_, rfl, recordedRevoked_second rfl, ?_⟩,
    _, rfl, recordedRevoked_second rfl, ?_⟩
  · exact .tail _ mem_cons_self
  · exact .tail _ mem_cons_self

end Dnsd.Recursor
