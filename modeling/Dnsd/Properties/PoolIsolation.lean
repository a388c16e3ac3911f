/-
# PoolIsolation — a pooled stream belongs to its key and to one exchange at a time.

A call holds a stream from the moment it takes or builds it until it puts it back; what is held and what is idle
is disjoint (`Sound`).
-/
import Dnsd.Lib.Holding
import Dnsd.Upstream.DotPool

namespace Dnsd.Upstream.Pooled

open Lib Lib.Contract Prog List

variable {S E R : Type}

/-! ## The pool in use -/

/-- What a call does.  An exchange has a beginning and an end; in between the stream is in use. -/
inductive Op (S : Type) where
  | now
  | take (key : DotConnKey)
  | release (key : DotConnKey) (conn : DotConn S)
  | build (key : DotConnKey)
  | begin (key : DotConnKey) (stream : S)
  | finish (key : DotConnKey) (stream : S)

@[reducible] def Op.Res (S E R : Type) : Op S → Type
  | .now => Instant
  | .take _ => Option (DotConn S)
  | .release _ _ => Unit
  | .build _ => Except E S
  | .begin _ _ => Unit
  | .finish _ _ => Except E R

abbrev Task (S E R α : Type) := Prog (Op S) (Op.Res S E R) α

structure World (S : Type) where
  now : Instant
  pool : DotPool S
  /-- What the builders have produced, each with the key of the call. -/
  built : List (DotConnKey × S)
  /-- Streams that were taken or built and not put back. -/
  out : List S
  /-- The exchanges that run, each with its key. -/
  running : List (DotConnKey × S)
  /-- Streams whose last exchange failed. -/
  failed : List S

def World.empty : World S := ⟨0, .new, [], [], [], []⟩

/-- What an operation does and answers.  A builder fails, or produces a stream that was not there
before; an exchange ends as it likes. -/
inductive Step [DecidableEq S] : World S → (o : Op S) → Op.Res S E R o → World S → Prop
  | now (w : World S) : Step w .now w.now w
  | take (w : World S) (key : DotConnKey) :
      Step w (.take key) (w.pool.take w.now key).1
        { w with
          pool := (w.pool.take w.now key).2
          out := (w.pool.take w.now key).1.toList.map DotConn.stream ++ w.out }
  | release (w : World S) (key : DotConnKey) (conn : DotConn S) :
      Step w (.release key conn) ()
        { w with pool := w.pool.release w.now key conn, out := w.out.filter (· ≠ conn.stream) }
  | unbuilt (w : World S) (key : DotConnKey) (e : E) : Step w (.build key) (.error e) w
  | build (w : World S) (key : DotConnKey) (s : S) : s ∉ w.built.map Prod.snd →
      Step w (.build key) (.ok s) { w with built := (key, s) :: w.built, out := s :: w.out }
  | begin (w : World S) (key : DotConnKey) (s : S) :
      Step w (.begin key s) () { w with running := (key, s) :: w.running }
  | success (w : World S) (key : DotConnKey) (s : S) (resp : R) :
      Step w (.finish key s) (.ok resp)
        { w with running := w.running.erase (key, s), failed := w.failed.filter (· ≠ s) }
  | failure (w : World S) (key : DotConnKey) (s : S) (e : E) :
      Step w (.finish key s) (.error e)
        { w with running := w.running.erase (key, s), failed := s :: w.failed }

inductive Env : World S → World S → Prop
  | later (w : World S) (t : Instant) : w.now ≤ t → Env w { w with now := t }
  | sweep (w : World S) : Env w { w with pool := w.pool.sweep w.now }

/-- A call of `exchange_pooled` for a key. -/
def exchange (key : DotConnKey) : Task S E R (Except (PoolError E) R) :=
  exchangePooled (perform (Op.take key)) (perform Op.now) (fun c => perform (Op.release key c))
    (perform (Op.build key)) fun s => do
      perform (Op.begin key s)
      perform (Op.finish key s)

def lease (key : DotConnKey) : Task S E R Unit :=
  (perform (Op.take key) : Task S E R (Option (DotConn S))) >>= fun
    | none => return ()
    | some conn => perform (Op.release key conn)

inductive Start : Task S E R Unit → Prop
  | exchange (key : DotConnKey) : Start (exchange key >>= fun _ => return ())
  | lease (key : DotConnKey) : Start (lease key)

def system (S E R : Type) [DecidableEq S] : System Unit (Op S) (Op.Res S E R) (World S) where
  init w := w = .empty
  env := Env
  step _ := Step
  start _ := Start

/-! ## What a call holds -/

structure Held (S : Type) where
  key : DotConnKey
  stream : S
  busy : Bool
  deriving DecidableEq

def holding [DecidableEq S] : Contract (List (Held S)) (Op S) (Op.Res S E R) where
  pre h
    | .release key conn => ⟨key, conn.stream, false⟩ ∈ h
    | .begin key s => ⟨key, s, false⟩ ∈ h
    | .finish key s => ⟨key, s, true⟩ ∈ h
    | _ => True
  post _ _ _ := True
  upd h
    | .take key, some conn => ⟨key, conn.stream, false⟩ :: h
    | .release key conn, _ => h.erase ⟨key, conn.stream, false⟩
    | .build key, .ok s => ⟨key, s, false⟩ :: h
    | .begin key s, _ => ⟨key, s, true⟩ :: h.erase ⟨key, s, false⟩
    | .finish key s, .ok _ => ⟨key, s, false⟩ :: h.erase ⟨key, s, true⟩
    | .finish key s, .error _ => h.erase ⟨key, s, true⟩
    | _, _ => h

structure Sound (w : World S) (h : List (Held S)) : Prop where
  /-- No stream is produced twice. -/
  built : (w.built.map Prod.snd).Nodup
  idle_built : ∀ k, ∀ c ∈ w.pool.idle k, (k, c.stream) ∈ w.built
  held_built : ∀ t ∈ h, (t.key, t.stream) ∈ w.built
  bucket : ∀ k, ((w.pool.idle k).map DotConn.stream).Nodup
  held : (h.map Held.stream).Nodup
  held_out : ∀ t ∈ h, t.stream ∈ w.out
  idle_in : ∀ k, ∀ c ∈ w.pool.idle k, c.stream ∉ w.out
  cap : ∀ k, (w.pool.idle k).length ≤ maxPerKey
  idle_well : ∀ k, ∀ c ∈ w.pool.idle k, c.stream ∉ w.failed
  held_well : ∀ t ∈ h, t.stream ∉ w.failed
  running_built : ∀ x ∈ w.running, x ∈ w.built
  running : (w.running.map Prod.snd).Nodup
  running_out : ∀ x ∈ w.running, x.2 ∈ w.out
  held_free : ∀ t ∈ h, t.busy = false → t.stream ∉ w.running.map Prod.snd
  failed_built : ∀ s ∈ w.failed, s ∈ w.built.map Prod.snd

namespace Sound

variable {w : World S} {h rest : List (Held S)} {t : Held S} {key : DotConnKey} {s : S} {conn : DotConn S}
  {f h' : List (Held S)} {pool : DotPool S}

/-- A stream was produced for one key. -/
theorem key_eq (hw : Sound w h) {k k' : DotConnKey} (hk : (k, s) ∈ w.built) (hk' : (k', s) ∈ w.built) :
    k = k' :=
  congrArg Prod.fst (inj_on_of_nodup_map hw.built hk hk' rfl)

theorem mono (hw : Sound w h) (hsub : h' ⊆ h) (hnodup : (h'.map Held.stream).Nodup) : Sound w h' :=
  { hw with
    held_built := fun t ht => hw.held_built t (hsub ht)
    held := hnodup
    held_out := fun t ht => hw.held_out t (hsub ht)
    held_well := fun t ht => hw.held_well t (hsub ht)
    held_free := fun t ht => hw.held_free t (hsub ht) }

theorem perm (hperm : h.Perm h') (hw : Sound w h) : Sound w h' :=
  hw.mono hperm.symm.subset ((hperm.map Held.stream).nodup_iff.mp hw.held)

theorem drop (hw : Sound w (h ++ f)) : Sound w f :=
  hw.mono (subset_append_right h f) (hw.held.sublist ((sublist_append_right h f).map Held.stream))

theorem tail (hw : Sound w (t :: rest)) : Sound w rest := drop (h := [t]) hw

theorem apart (hw : Sound w (t :: rest)) : ∀ u ∈ rest, u.stream ≠ t.stream := by
  intro u hu heq
  have hnodup : (t.stream :: rest.map Held.stream).Nodup := hw.held
  exact (nodup_cons.mp hnodup).1 (mem_map.mpr ⟨u, hu, heq⟩)

theorem shrink (now : Instant) (hw : Sound w h) (hsub : ∀ k, (pool.idle k).Sublist (w.pool.idle k)) :
    Sound { w with now := now, pool := pool } h :=
  { hw with
    idle_built := fun k c hc => hw.idle_built k c ((hsub k).subset hc)
    bucket := fun k => (hw.bucket k).sublist ((hsub k).map DotConn.stream)
    idle_in := fun k c hc => hw.idle_in k c ((hsub k).subset hc)
    cap := fun k => Nat.le_trans (hsub k).length_le (hw.cap k)
    idle_well := fun k c hc => hw.idle_well k c ((hsub k).subset hc) }

theorem marked_out (hw : Sound w h) (hidle : ∀ k, ∀ c ∈ w.pool.idle k, c.stream ≠ s) :
    Sound { w with out := s :: w.out } h := by
  refine { hw with
    held_out := fun t ht => .tail _ (hw.held_out t ht)
    idle_in := ?_
    running_out := fun x hx => .tail _ (hw.running_out x hx) }
  intro k c hc hout
  rcases mem_cons.mp hout with heq | hout
  · exact hidle k c hc heq
  · exact hw.idle_in k c hc hout

theorem hold {b : Bool} (hw : Sound w h) (hbuilt : (key, s) ∈ w.built) (hout : s ∈ w.out)
    (hapart : ∀ u ∈ h, u.stream ≠ s) (hwell : s ∉ w.failed)
    (hfree : b = false → s ∉ w.running.map Prod.snd) : Sound w (⟨key, s, b⟩ :: h) := by
  refine { hw with held_built := ?_, held := ?_, held_out := ?_, held_well := ?_, held_free := ?_ }
  · rintro u (_ | ⟨_, hu⟩)
    · exact hbuilt
    · exact hw.held_built u hu
  · refine nodup_cons.mpr ⟨?_, hw.held⟩
    intro hmem
    obtain ⟨u, hu, heq⟩ := mem_map.mp hmem
    exact hapart u hu heq
  · rintro u (_ | ⟨_, hu⟩)
    · exact hout
    · exact hw.held_out u hu
  · rintro u (_ | ⟨_, hu⟩)
    · exact hwell
    · exact hw.held_well u hu
  · rintro u (_ | ⟨_, hu⟩)
    · exact hfree
    · exact hw.held_free u hu

theorem taken (hw : Sound w h)
    (hsub : ∀ k, ((if k = key then [conn] else []) ++ pool.idle k).Sublist (w.pool.idle k)) :
    Sound { w with pool := pool, out := conn.stream :: w.out } (⟨key, conn.stream, false⟩ :: h) := by
  have hbucket : (conn :: pool.idle key).Sublist (w.pool.idle key) := by
    simpa using hsub key
  have hconn : conn ∈ w.pool.idle key := hbucket.subset (.head _)
  have hless : ∀ k, (pool.idle k).Sublist (w.pool.idle k) :=
    fun k => (sublist_append_right _ _).trans (hsub k)
  have hin : conn.stream ∉ w.out := hw.idle_in key conn hconn
  have hgone : ∀ k, ∀ c ∈ pool.idle k, c.stream ≠ conn.stream := by
    -- The same stream, still idle: under the same key it would lie twice in one bucket.
    intro k c hc heq
    have hkey : k = key :=
      hw.key_eq (hw.idle_built k c ((hless k).subset hc)) (heq ▸ hw.idle_built key conn hconn)
    subst hkey
    have hnodup := (hw.bucket k).sublist (hbucket.map DotConn.stream)
    exact (nodup_cons.mp hnodup).1 (mem_map.mpr ⟨c, hc, heq⟩)
  refine ((hw.shrink w.now hless).marked_out hgone).hold ?_ ?_ ?_ ?_ ?_
  · exact hw.idle_built key conn hconn
  · exact .head _
  · exact fun u hu heq => hin (heq ▸ hw.held_out u hu)
  · exact hw.idle_well key conn hconn
  · intro _ hrun
    obtain ⟨x, hx, heq⟩ := mem_map.mp hrun
    exact hin (heq ▸ hw.running_out x hx)

theorem produced (hw : Sound w h) (hnew : s ∉ w.built.map Prod.snd) :
    Sound { w with built := (key, s) :: w.built, out := s :: w.out } (⟨key, s, false⟩ :: h) := by
  have hold : ∀ {k : DotConnKey} {s' : S}, (k, s') ∈ w.built → s' ≠ s := by
    rintro k s' hmem rfl
    exact hnew (mem_map.mpr ⟨_, hmem, rfl⟩)
  have hout : Sound { w with out := s :: w.out } h :=
    hw.marked_out fun k c hc => hold (hw.idle_built k c hc)
  have hbuilt : Sound { w with built := (key, s) :: w.built, out := s :: w.out } h :=
    { hout with
      built := nodup_cons.mpr ⟨hnew, hw.built⟩
      idle_built := fun k c hc => .tail _ (hw.idle_built k c hc)
      held_built := fun t ht => .tail _ (hw.held_built t ht)
      running_built := fun x hx => .tail _ (hw.running_built x hx)
      failed_built := fun s' hs' => .tail _ (hw.failed_built s' hs') }
  refine hbuilt.hold (.head _) (.head _) ?_ ?_ ?_
  · exact fun u hu => hold (hw.held_built u hu)
  · exact fun hfailed => hnew (hw.failed_built s hfailed)
  · intro _ hrun
    obtain ⟨x, hx, heq⟩ := mem_map.mp hrun
    exact hold (hw.running_built x hx) heq

theorem turn {b c : Bool} (hw : Sound w (⟨key, s, b⟩ :: rest))
    (hfree : c = false → s ∉ w.running.map Prod.snd) : Sound w (⟨key, s, c⟩ :: rest) := by
  have hheld : ⟨key, s, b⟩ ∈ (⟨key, s, b⟩ :: rest : List (Held S)) := .head _
  refine hw.tail.hold ?_ ?_ ?_ ?_ hfree
  · exact hw.held_built _ hheld
  · exact hw.held_out _ hheld
  · exact hw.apart
  · exact hw.held_well _ hheld

theorem begun (hw : Sound w (⟨key, s, false⟩ :: rest)) :
    Sound { w with running := (key, s) :: w.running } (⟨key, s, true⟩ :: rest) := by
  have hheld : ⟨key, s, false⟩ ∈ (⟨key, s, false⟩ :: rest : List (Held S)) := .head _
  refine { hw.turn (c := true) nofun with
    running_built := ?_
    running := nodup_cons.mpr ⟨hw.held_free _ hheld rfl, hw.running⟩
    running_out := ?_, held_free := ?_ }
  · rintro x (_ | ⟨_, hx⟩)
    · exact hw.held_built _ hheld
    · exact hw.running_built x hx
  · rintro x (_ | ⟨_, hx⟩)
    · exact hw.held_out _ hheld
    · exact hw.running_out x hx
  · rintro t (_ | ⟨_, ht⟩) hbusy
    · nomatch hbusy
    · intro hmem
      rcases mem_cons.mp hmem with heq | hmem
      · exact hw.apart t ht heq
      · exact hw.tail.held_free t ht hbusy hmem

variable [DecidableEq S]

theorem released (hw : Sound w (⟨key, conn.stream, false⟩ :: rest)) :
    Sound { w with
      pool := w.pool.release w.now key conn, out := w.out.filter (· ≠ conn.stream) } rest := by
  have hheld : ⟨key, conn.stream, false⟩ ∈ (⟨key, conn.stream, false⟩ :: rest : List (Held S)) :=
    .head _
  have hout := hw.held_out _ hheld
  refine { hw.tail with
    idle_built := ?_, bucket := ?_, held_out := ?_, idle_in := ?_, cap := ?_, idle_well := ?_,
    running_out := ?_ }
  · intro k c hc
    rcases DotPool.mem_release_idle hc with hc | ⟨rfl, heq⟩
    · exact hw.idle_built k c hc
    · exact heq ▸ hw.held_built _ hheld
  · intro k
    show (((w.pool.release w.now key conn).idle k).map DotConn.stream).Nodup
    rcases w.pool.release_bucket w.now key k conn with hsame | ⟨_, _, hpush⟩
    · exact hsame ▸ hw.bucket k
    · rw [hpush]
      refine nodup_cons.mpr ⟨?_, hw.bucket k⟩
      intro hmem
      obtain ⟨c, hc, heq⟩ := mem_map.mp hmem
      exact hw.idle_in k c hc (heq ▸ hout)
  · intro t ht
    exact mem_filter.mpr ⟨hw.tail.held_out t ht, decide_eq_true (hw.apart t ht)⟩
  · intro k c hc hmem
    obtain ⟨hmem, hne⟩ := mem_filter.mp hmem
    rcases DotPool.mem_release_idle hc with hc | ⟨_, heq⟩
    · exact hw.idle_in k c hc hmem
    · exact of_decide_eq_true hne heq
  · intro k
    show ((w.pool.release w.now key conn).idle k).length ≤ maxPerKey
    rcases w.pool.release_bucket w.now key k conn with hsame | ⟨_, hroom, hpush⟩
    · exact hsame ▸ hw.cap k
    · rw [hpush, length_cons]
      exact hroom
  · intro k c hc
    rcases DotPool.mem_release_idle hc with hc | ⟨_, heq⟩
    · exact hw.idle_well k c hc
    · exact heq ▸ hw.held_well _ hheld
  · intro x hx
    refine mem_filter.mpr ⟨hw.running_out x hx, decide_eq_true ?_⟩
    intro heq
    exact hw.held_free _ hheld rfl (mem_map.mpr ⟨x, hx, heq⟩)

theorem not_running_erase (hw : Sound w h) (hbuilt : (key, s) ∈ w.built) :
    s ∉ (w.running.erase (key, s)).map Prod.snd := by
  intro hmem
  obtain ⟨⟨k, s'⟩, hx, rfl⟩ := mem_map.mp hmem
  have hrun : (k, s') ∈ w.running := mem_of_mem_erase hx
  have hk : k = key := hw.key_eq (hw.running_built _ hrun) hbuilt
  subst hk
  exact (List.Nodup.mem_erase_iff hw.running.of_map).mp hx |>.1 rfl

theorem ended (hw : Sound w h) (x : DotConnKey × S) : Sound { w with running := w.running.erase x } h :=
  have hsub : (w.running.erase x).Sublist w.running := erase_sublist
  { hw with
    running_built := fun y hy => hw.running_built y (hsub.subset hy)
    running := hw.running.sublist (hsub.map Prod.snd)
    running_out := fun y hy => hw.running_out y (hsub.subset hy)
    held_free := fun t ht hb hmem => hw.held_free t ht hb ((hsub.map Prod.snd).subset hmem) }

theorem succeeded (hw : Sound w (⟨key, s, true⟩ :: rest)) :
    Sound { w with running := w.running.erase (key, s), failed := w.failed.filter (· ≠ s) }
      (⟨key, s, false⟩ :: rest) := by
  have hbuilt : (key, s) ∈ w.built := hw.held_built ⟨key, s, true⟩ (.head _)
  have hfewer : ∀ {s' : S}, s' ∈ w.failed.filter (· ≠ s) → s' ∈ w.failed :=
    fun hmem => (mem_filter.mp hmem).1
  have hended := (hw.ended (key, s)).turn (c := false) fun _ => hw.not_running_erase hbuilt
  exact { hended with
    idle_well := fun k c hc hmem => hw.idle_well k c hc (hfewer hmem)
    held_well := fun t ht hmem => hended.held_well t ht (hfewer hmem)
    failed_built := fun s' hs' => hw.failed_built s' (hfewer hs') }

theorem given_up (hw : Sound w (⟨key, s, true⟩ :: rest)) :
    Sound { w with running := w.running.erase (key, s), failed := s :: w.failed } rest := by
  have hheld : ⟨key, s, true⟩ ∈ (⟨key, s, true⟩ :: rest : List (Held S)) := .head _
  refine { (hw.ended (key, s)).tail with idle_well := ?_, held_well := ?_, failed_built := ?_ }
  · intro k c hc hmem
    rcases mem_cons.mp hmem with heq | hmem
    · exact hw.idle_in k c hc (heq ▸ hw.held_out _ hheld)
    · exact hw.idle_well k c hc hmem
  · intro t ht hmem
    rcases mem_cons.mp hmem with heq | hmem
    · exact hw.apart t ht heq
    · exact hw.tail.held_well t ht hmem
  · rintro s' (_ | ⟨_, hs'⟩)
    · exact mem_map.mpr ⟨_, hw.held_built _ hheld, rfl⟩
    · exact hw.failed_built s' hs'

theorem front (hw : Sound w (h ++ f)) (ht : t ∈ h) : Sound w (t :: (h.erase t ++ f)) :=
  hw.perm ((perm_cons_erase ht).append_right f)

end Sound

/-! ## Every step keeps it -/

theorem env_sound {w w' : World S} {h : List (Held S)} (hw : Sound w h) (henv : Env w w') : Sound w' h := by
  cases henv with
  | later t _ => exact hw.shrink t fun k => List.Sublist.refl _
  | sweep => exact hw.shrink w.now fun k => w.pool.sweep_bucket w.now k

theorem sound_empty : Sound (World.empty : World S) [] := by
  constructor <;> simp [World.empty]

variable [DecidableEq S]

/-- **The step lemma.**  A permitted operation keeps the state sound, whatever the other calls hold. -/
theorem step_sound {w w' : World S} {o : Op S} {r : Op.Res S E R o} {h f : List (Held S)}
    (hw : Sound w (h ++ f)) (hpre : (holding : Contract _ _ (Op.Res S E R)).pre h o)
    (hstep : Step w o r w') : Sound w' (holding.upd h o r ++ f) := by
  cases hstep with
  | now => exact hw
  | take key =>
    have hbucket := fun k => (w.pool.take_bucket w.now key k).sublist
    cases hhit : (w.pool.take w.now key).1 with
    | none =>
      refine hw.shrink w.now fun k => ?_
      exact (sublist_append_right _ _).trans (hbucket k)
    | some conn =>
      rw [hhit] at hbucket
      exact hw.taken hbucket
  | release key conn => exact (hw.front hpre).released
  | unbuilt key e => exact hw
  | build key s hnew => exact hw.produced hnew
  | begin key s => exact (hw.front hpre).begun
  | success key s resp => exact (hw.front hpre).succeeded
  | failure key s e => exact (hw.front hpre).given_up

/-! ## The calls keep to the contract -/

theorem exchange_safe (h : List (Held S)) (key : DotConnKey) :
    holding.Safe h (exchange key : Task S E R _) fun _ _ => True := by
  refine exchangePooled_safe (K := fun h s => ⟨key, s, false⟩ ∈ h) (fun h => ?_) (fun h s hs => ?_)
    (fun h c hc => ?_) (fun h => ?_) (fun h s hs => ?_) h
  · refine ⟨trivial, fun hit _ => ?_⟩
    rintro c rfl
    exact .head _
  · exact ⟨trivial, fun _ _ => hs⟩
  · exact ⟨hc, fun _ _ => trivial⟩
  · refine ⟨trivial, fun r _ => ?_⟩
    rintro s rfl
    exact .head _
  · refine ⟨hs, fun _ _ => ⟨.head _, fun r _ => ?_⟩⟩
    rintro resp rfl
    exact .head _

theorem lease_safe (h : List (Held S)) (key : DotConnKey) :
    holding.Safe h (lease key : Task S E R Unit) fun _ _ => True := by
  refine ⟨trivial, fun hit _ => ?_⟩
  cases hit with
  | none => trivial
  | some conn => exact ⟨.head _, fun _ _ => trivial⟩

theorem shares : (system S E R).Shares (fun _ => holding) Sound where
  init := by
    rintro w rfl
    exact sound_empty
  env _ _ _ hw henv := env_sound hw henv
  step _ _ _ _ _ _ _ hw hpre hstep := ⟨trivial, step_sound hw hpre hstep⟩
  perm _ _ _ hperm hw := hw.perm hperm
  drop _ _ _ hw := hw.drop
  start := by
    rintro _ p (key | key)
    · exact (exchange_safe [] key).bind fun _ _ _ => trivial
    · exact lease_safe [] key

/-! ## What a call costs -/

def builds : Op S → Nat
  | .build _ => 1
  | _ => 0

def exchanges : Op S → Nat
  | .begin _ _ => 1
  | _ => 0

omit [DecidableEq S] in
theorem exchange_builds (key : DotConnKey) :
    Affords builds (fun _ _ => True) 1 (exchange key : Task S E R _) := by
  have hfree : ∀ o : Op S, builds o = 0 →
      Affords builds (fun _ _ => True) 0 (perform o : Task S E R _) :=
    fun o ho => ⟨Nat.le_of_eq ho, fun _ _ => trivial⟩
  refine exchangePooled_affords (b := 1) (x := 0) (hfree _ rfl) (hfree _ rfl)
    (fun _ => hfree _ rfl) ⟨Nat.le_refl _, fun _ _ => trivial⟩ fun s => ?_
  exact (hfree (.begin key s) rfl).seq fun _ => hfree (.finish key s) rfl

omit [DecidableEq S] in
theorem exchange_exchanges (key : DotConnKey) :
    Affords exchanges (fun _ _ => True) 2 (exchange key : Task S E R _) := by
  have hfree : ∀ o : Op S, exchanges o = 0 →
      Affords exchanges (fun _ _ => True) 0 (perform o : Task S E R _) :=
    fun o ho => ⟨Nat.le_of_eq ho, fun _ _ => trivial⟩
  refine exchangePooled_affords (b := 0) (x := 1) (hfree _ rfl) (hfree _ rfl)
    (fun _ => hfree _ rfl) (hfree _ rfl) fun s => ?_
  exact ⟨Nat.le_refl _, fun _ _ => hfree (.finish key s) rfl⟩

/-! ## Isolation -/

/-- **A stream serves its own key, one exchange at a time.**  In every reachable state, whatever fails: an exchange
runs only with a stream that a builder produced for its key, and no two with the same one; an idle stream is in
nobody's hands and its last exchange did not fail; a bucket keeps to its bound; and a call builds once and
exchanges twice at most. -/
theorem exchange_isolated {w : World S} {ts : List (Unit × Task S E R Unit)}
    (h : (system S E R).Reach w ts) :
    (∀ x ∈ w.running, x ∈ w.built ∧ x.2 ∈ w.out) ∧
      (∀ key s k, ((), .op (.begin key s) k) ∈ ts →
        (key, s) ∈ w.built ∧ s ∈ w.out ∧ s ∉ w.running.map Prod.snd) ∧
      (w.running.map Prod.snd).Nodup ∧
      (∀ k, ∀ c ∈ w.pool.idle k, (k, c.stream) ∈ w.built ∧ c.stream ∉ w.out ∧ c.stream ∉ w.failed) ∧
      (∀ k, (w.pool.idle k).length ≤ maxPerKey) ∧
      ∀ key t r, (exchange key : Task S E R _).Runs (fun _ _ => True) t r →
        t.cost builds ≤ 1 ∧ t.cost exchanges ≤ 2 := by
  have hw : Sound w [] := shares.reach_inv h
  refine ⟨?_, ?_, hw.running, ?_, hw.cap, ?_⟩
  · exact fun x hx => ⟨hw.running_built x hx, hw.running_out x hx⟩
  · intro key s k hmem
    obtain ⟨g, f, hpre, hheld⟩ := shares.reach_pre h hmem
    have hs : ⟨key, s, false⟩ ∈ g ++ f := mem_append_left f hpre
    exact ⟨hheld.held_built _ hs, hheld.held_out _ hs, hheld.held_free _ hs rfl⟩
  · exact fun k c hc => ⟨hw.idle_built k c hc, hw.idle_in k c hc, hw.idle_well k c hc⟩
  · exact fun key t r hrun => ⟨(exchange_builds key).cost_le hrun, (exchange_exchanges key).cost_le hrun⟩

def smooth (w : World Nat) : (o : Op Nat) → Op.Res Nat Unit Unit o × World Nat
  | .now => (w.now, w)
  | .take key =>
      ((w.pool.take w.now key).1,
        { w with
          pool := (w.pool.take w.now key).2
          out := (w.pool.take w.now key).1.toList.map DotConn.stream ++ w.out })
  | .release key conn =>
      ((), { w with pool := w.pool.release w.now key conn, out := w.out.filter (· ≠ conn.stream) })
  | .build key =>
      let s := w.built.length + 1
      if s ∈ w.built.map Prod.snd then (.error (), w)
      else (.ok s, { w with built := (key, s) :: w.built, out := s :: w.out })
  | .begin key s => ((), { w with running := (key, s) :: w.running })
  | .finish key s =>
      (.ok (), { w with running := w.running.erase (key, s), failed := w.failed.filter (· ≠ s) })

theorem smooth_step (w : World Nat) (o : Op Nat) : Step w o (smooth w o).1 (smooth w o).2 := by
  cases o with
  | now => exact .now w
  | take key => exact .take w key
  | release key conn => exact .release w key conn
  | build key =>
    unfold smooth
    dsimp only
    split
    · exact .unbuilt w key ()
    · rename_i hnew
      exact .build w key _ hnew
  | begin key s => exact .begin w key s
  | finish key s => exact .success w key s ()

def torKey : DotConnKey :=
  ⟨(.v4 0x09090909, 853), "dns.quad9.net", .tor, some (.v4 0x7f000001, 9050), some "example.com."⟩

theorem exchange_isolated_reuse : ∃ (w : World Nat) (ts : List (Unit × Task Nat Unit Unit Unit)),
    (system Nat Unit Unit).Reach w ts ∧ w.built = [(torKey, 1)] ∧ w.running = [(torKey, 1)] ∧
      (w.running.map Prod.snd).Nodup ∧ ∀ k, (w.pool.idle k).length ≤ maxPerKey := by
  have hempty : (system Nat Unit Unit).Reach .empty [] := .init rfl
  have hfirst := (hempty.spawn (i := ()) (Start.exchange torKey)).exec smooth_step
  have hsecond := (hfirst.spawn (i := ()) (Start.exchange torKey)).execFor smooth_step 2
  obtain ⟨_, _, hnodup, _, hcap, _⟩ := exchange_isolated hsecond
  exact ⟨_, _, hsecond, by rfl, by rfl, hnodup, hcap⟩

end Dnsd.Upstream.Pooled
