/-
# Coalescing — one walk per question.

Equal questions share a lock as long as its entry stays in the map while a task waits for it or has it
(`Registered`).  The sweep keeps every entry in use; the eviction that follows it, when all `inFlightCap`
entries are in use, does not.
-/
import Mathlib.Data.List.Nodup
import Mathlib.Data.Fintype.EquivFin
import Dnsd.Recursor.InFlight

namespace Dnsd.Recursor

open Proto Lib List

/-! ## The law, and what breaks it -/

def OneWalkEach (s : InFlight) : Prop :=
  ∀ f ∈ s.tasks, ∀ g ∈ s.tasks, f.stage = .walking → g.stage = .walking → f.key = g.key → f = g

/-- If all entries are in use, the one that is evicted is not that of a task that waits or walks. -/
def Calm (s : InFlight) : InFlightEvent → Prop
  | .lockFor _ _ _ first => inFlightCap ≤ s.retained.length →
      ∀ f ∈ s.tasks, f.stage ≠ .leaving → (f.key, f.lock) ∈ s.map → f.key ≠ first
  | _ => True

/-! ## What every run keeps -/

structure Consistent (keyOf : LockId → InFlightKey) (s : InFlight) : Prop where
  keys : (s.map.map Prod.fst).Nodup
  entries : ∀ x ∈ s.map, x.1 = keyOf x.2 ∧ x.2 < s.next
  ids : (s.tasks.map Coalesced.id).Nodup
  tasks : ∀ f ∈ s.tasks, f.key = keyOf f.lock ∧ f.lock < s.next
  lower : ∀ f ∈ s.tasks, f.key.1.toLowercase = f.key.1
  /-- A lock has one holder. -/
  single : ∀ f ∈ s.tasks, ∀ g ∈ s.tasks, f.stage = .walking → g.stage = .walking → f.lock = g.lock → f = g
  cap : s.map.length ≤ inFlightCap

/-- The entries of the tasks that wait or walk are in the map. -/
def Registered (s : InFlight) : Prop := ∀ f ∈ s.tasks, f.stage ≠ .leaving → (f.key, f.lock) ∈ s.map

variable {s s' : InFlight} {e : InFlightEvent} {keyOf : LockId → InFlightKey} {f : Coalesced} {i n : Nat}

namespace Room

variable {first : InFlightKey} {map : List (InFlightKey × LockId)} {f : Coalesced}

theorem sublist (h : Room s first map) : map.Sublist s.map := by
  cases h with
  | free _ => exact List.Sublist.refl _
  | swept _ => exact filter_sublist
  | evicted _ _ => exact filter_sublist.trans filter_sublist

theorem length_lt (h : Room s first map) (hcap : s.map.length ≤ inFlightCap) : map.length < inFlightCap := by
  cases h with
  | free hlt => exact hlt
  | swept hlt => exact hlt
  | evicted hfull hfirst =>
    have hlt : (s.retained.filter fun x => x.1 ≠ first).length < s.retained.length := by
      obtain ⟨x, hx, hxfirst⟩ := mem_map.mp hfirst
      refine length_filter_lt_length_iff_exists.mpr ⟨x, hx, ?_⟩
      simpa using hxfirst
    have hle : s.retained.length ≤ s.map.length := length_filter_le _ _
    omega

theorem mem_retained (hf : f ∈ s.tasks) (hmem : (f.key, f.lock) ∈ s.map) :
    (f.key, f.lock) ∈ s.retained := by
  have hpos : 0 < s.tasks.countP fun t => t.lock = f.lock := countP_pos_iff.mpr ⟨f, hf, by simp⟩
  exact mem_filter.mpr ⟨hmem, decide_eq_true (Nat.lt_add_of_pos_right hpos)⟩

theorem mem (h : Room s first map) (hf : f ∈ s.tasks) (hmem : (f.key, f.lock) ∈ s.map)
    (hcalm : inFlightCap ≤ s.retained.length → f.key ≠ first) : (f.key, f.lock) ∈ map := by
  cases h with
  | free _ => exact hmem
  | swept _ => exact mem_retained hf hmem
  | evicted hfull _ => exact mem_filter.mpr ⟨mem_retained hf hmem, decide_eq_true (hcalm hfull)⟩

end Room

namespace Consistent

variable {f : Coalesced}

theorem empty : Consistent (fun _ => (.root, .A)) .empty := by
  constructor <;> simp [InFlight.empty]

theorem entry_eq (hs : Consistent keyOf s) {x y : InFlightKey × LockId} (hx : x ∈ s.map) (hy : y ∈ s.map)
    (h : x.1 = y.1) : x = y :=
  inj_on_of_nodup_map hs.keys hx hy h

theorem task_eq (hs : Consistent keyOf s) {g : Coalesced} (hf : f ∈ s.tasks) (hg : g ∈ s.tasks)
    (h : f.id = g.id) : f = g :=
  inj_on_of_nodup_map hs.ids hf hg h

theorem shrink (hs : Consistent keyOf s) {map : List (InFlightKey × LockId)} (hsub : map.Sublist s.map) :
    Consistent keyOf { s with map := map } :=
  { hs with
    keys := hs.keys.sublist (hsub.map Prod.fst)
    entries := fun x hx => hs.entries x (hsub.subset hx)
    cap := hsub.length_le.trans hs.cap }

theorem join (hs : Consistent keyOf s) {t : TaskId} {name : Name} {rtype : RecordType} {lock : LockId}
    (hfresh : t ∉ s.tasks.map Coalesced.id) (hkey : (name.toLowercase, rtype) = keyOf lock)
    (hlt : lock < s.next) :
    Consistent keyOf
      { s with tasks := ⟨t, (name.toLowercase, rtype), lock, .waiting⟩ :: s.tasks } :=
  { hs with
    ids := nodup_cons.mpr ⟨hfresh, hs.ids⟩
    tasks := by
      rintro f (_ | ⟨_, hf⟩)
      · exact ⟨hkey, hlt⟩
      · exact hs.tasks f hf
    lower := by
      rintro f (_ | ⟨_, hf⟩)
      · exact Name.toLowercase_idem name
      · exact hs.lower f hf
    single := by
      rintro f (_ | ⟨_, hf⟩) g (_ | ⟨_, hg⟩) hfw hgw
      · exact fun _ => rfl
      · nomatch hfw
      · nomatch hgw
      · exact hs.single f hf g hg hfw hgw }

theorem allocate (hs : Consistent keyOf s) {key : InFlightKey} (hkey : key ∉ s.map.map Prod.fst)
    (hroom : s.map.length < inFlightCap) :
    Consistent (Function.update keyOf s.next key) ⟨(key, s.next) :: s.map, s.tasks, s.next + 1⟩ := by
  have hold : ∀ lock < s.next, Function.update keyOf s.next key lock = keyOf lock := fun lock hlt =>
    Function.update_of_ne (Nat.ne_of_lt hlt) ..
  exact
    { hs with
      keys := nodup_cons.mpr ⟨hkey, hs.keys⟩
      entries := by
        rintro x (_ | ⟨_, hx⟩)
        · exact ⟨(Function.update_self s.next key keyOf).symm, Nat.lt_succ_self _⟩
        · obtain ⟨hk, hlt⟩ := hs.entries x hx
          exact ⟨hk.trans (hold _ hlt).symm, Nat.lt_succ_of_lt hlt⟩
      tasks := by
        intro f hf
        obtain ⟨hk, hlt⟩ := hs.tasks f hf
        exact ⟨hk.trans (hold _ hlt).symm, Nat.lt_succ_of_lt hlt⟩
      cap := hroom }

theorem without (hs : Consistent keyOf s) (t : TaskId) : Consistent keyOf (s.without t) := by
  have hsub : (s.without t).tasks.Sublist s.tasks := filter_sublist
  exact
    { hs with
      ids := hs.ids.sublist (hsub.map Coalesced.id)
      tasks := fun f hf => hs.tasks f (hsub.subset hf)
      lower := fun f hf => hs.lower f (hsub.subset hf)
      single := fun f hf g hg => hs.single f (hsub.subset hf) g (hsub.subset hg) }

theorem advance (hs : Consistent keyOf s) {stage : Stage} (hf : f ∈ s.tasks)
    (hfree : stage = .walking → ∀ g ∈ s.tasks, g.lock = f.lock → g.stage ≠ .walking) :
    Consistent keyOf (s.advance f stage) := by
  have hrest := hs.without f.id
  have hothers : ∀ g ∈ (s.without f.id).tasks, stage = .walking → g.stage = .walking → g.lock ≠ f.lock :=
    fun g hg hstage hwalk hlock => hfree hstage g (mem_filter.mp hg).1 hlock hwalk
  exact
    { hrest with
      ids := by
        refine nodup_cons.mpr ⟨fun hmem => ?_, hrest.ids⟩
        obtain ⟨g, hg, hid⟩ := mem_map.mp hmem
        exact of_decide_eq_true (mem_filter.mp hg).2 hid
      tasks := by
        rintro g (_ | ⟨_, hg⟩)
        · exact hs.tasks f hf
        · exact hrest.tasks g hg
      lower := by
        rintro g (_ | ⟨_, hg⟩)
        · exact hs.lower f hf
        · exact hrest.lower g hg
      single := by
        rintro g (_ | ⟨_, hg⟩) h (_ | ⟨_, hh⟩) hgw hhw hlock
        · rfl
        · exact absurd hlock.symm (hothers h hh hgw hhw)
        · exact absurd hlock (hothers g hg hhw hgw)
        · exact hrest.single g hg h hh hgw hhw hlock }

/-- **Every event keeps it.** -/
theorem step (hs : Consistent keyOf s) (h : Turns s e s') : ∃ keyOf', Consistent keyOf' s' := by
  cases h with
  | reuse hfresh hroom hmem =>
    have hshrunk := hs.shrink hroom.sublist
    obtain ⟨hkey, hlt⟩ := hshrunk.entries _ hmem
    exact ⟨keyOf, hshrunk.join hfresh hkey hlt⟩
  | insert hfresh hroom hkey =>
    have hnew := (hs.shrink hroom.sublist).allocate hkey (hroom.length_lt hs.cap)
    exact ⟨_, hnew.join hfresh (Function.update_self s.next _ keyOf).symm (Nat.lt_succ_self _)⟩
  | acquire hf _ hfree => exact ⟨keyOf, hs.advance hf fun _ => hfree⟩
  | unlock hf _ => exact ⟨keyOf, hs.advance hf nofun⟩
  | leave => exact ⟨keyOf, hs.without _⟩

theorem run {es : List InFlightEvent} (h : Machine.run inFlight .empty es = some s) :
    ∃ keyOf, Consistent keyOf s := by
  have hany : Machine.Along inFlight (fun _ _ => True) .empty es :=
    Machine.along_iff.mpr fun _ _ _ _ _ _ => trivial
  refine Machine.run_induction (I := fun _ s => ∃ keyOf, Consistent keyOf s) ⟨_, empty⟩ ?_ hany h
  rintro _ s e s' ⟨keyOf, hs⟩ _ hstep
  exact hs.step (inFlight_turns hstep)

theorem oneWalkEach (hs : Consistent keyOf s) (hreg : Registered s) : OneWalkEach s := by
  intro f hf g hg hfw hgw hkey
  have hfmem := hreg f hf (by rw [hfw]; decide)
  have hgmem := hreg g hg (by rw [hgw]; decide)
  have hlock : f.lock = g.lock := congrArg Prod.snd (hs.entry_eq hfmem hgmem hkey)
  exact hs.single f hf g hg hfw hgw hlock

end Consistent

/-! ## While no entry in use is evicted -/

namespace Registered

theorem advance (hreg : Registered s) {f : Coalesced} {stage : Stage} (hf : f ∈ s.tasks)
    (hstage : f.stage ≠ .leaving) : Registered (s.advance f stage) := by
  rintro g (_ | ⟨_, hg⟩) hne
  · exact hreg f hf hstage
  · exact hreg g (mem_filter.mp hg).1 hne

theorem step (hreg : Registered s) (hcalm : Calm s e) (h : Turns s e s') : Registered s' := by
  cases h with
  | reuse _ hroom hmem =>
    rintro f (_ | ⟨_, hf⟩) hne
    · exact hmem
    · have hentry := hreg f hf hne
      exact hroom.mem hf hentry fun hfull => hcalm hfull f hf hne hentry
  | insert _ hroom _ =>
    rintro f (_ | ⟨_, hf⟩) hne
    · exact .head _
    · have hentry := hreg f hf hne
      exact .tail _ (hroom.mem hf hentry fun hfull => hcalm hfull f hf hne hentry)
  | acquire hf hwait _ => exact hreg.advance hf (by rw [hwait]; decide)
  | unlock hf hwalk => exact hreg.advance hf (by rw [hwalk]; decide)
  | leave => exact fun g hg => hreg g (mem_filter.mp hg).1

theorem run {es : List InFlightEvent} (hcalm : Machine.Along inFlight Calm .empty es)
    (h : Machine.run inFlight .empty es = some s) : Registered s := by
  have hempty : Registered .empty := fun _ h => absurd h not_mem_nil
  refine Machine.run_induction (I := fun _ s => Registered s) hempty ?_ hcalm h
  intro _ s e s' hreg hcalm hstep
  exact hreg.step hcalm (inFlight_turns hstep)

end Registered

/-! ## After an entry in use has been evicted -/

theorem newcomer (hs : Consistent keyOf s) (hf : f ∈ s.tasks) (hnot : (f.key, f.lock) ∉ s.map) :
    ∃ e t lock s', inFlight s e = some s' ∧ s'.tasks = ⟨t, f.key, lock, .waiting⟩ :: s.tasks ∧
      lock ≠ f.lock ∧ t ∉ s.tasks.map Coalesced.id := by
  obtain ⟨t, hfresh⟩ := Infinite.exists_notMem_finset (s.tasks.map Coalesced.id).toFinset
  rw [mem_toFinset] at hfresh
  obtain ⟨first, map, hmap⟩ := exists_makeRoom s
  have hkey : (f.key.1.toLowercase, f.key.2) = f.key := by rw [hs.lower f hf]
  have hstep : inFlight s (.lockFor t f.key.1 f.key.2 first) = some (s.lockFor t f.key map) := by
    simp only [inFlight, if_neg hfresh, hmap, Option.map_some, hkey]
  have hlock : ∃ lock, (s.lockFor t f.key map).tasks = ⟨t, f.key, lock, .waiting⟩ :: s.tasks ∧
      lock ≠ f.lock := by
    generalize s.lockFor t f.key map = s' at hstep
    cases inFlight_turns hstep with
    | @reuse _ _ _ _ _ lock _ hroom hmem =>
      rw [hkey] at hmem ⊢
      refine ⟨lock, rfl, ?_⟩
      rintro rfl
      exact hnot (hroom.sublist.subset hmem)
    | insert _ _ _ =>
      rw [hkey]
      exact ⟨s.next, rfl, Nat.ne_of_gt (hs.tasks f hf).2⟩
  obtain ⟨lock, htasks, hne⟩ := hlock
  exact ⟨_, t, lock, _, hstep, htasks, hne, hfresh⟩

theorem Consistent.acquire (hs : Consistent keyOf s) (hf : f ∈ s.tasks) (hwait : f.stage = .waiting)
    (hfree : ∀ g ∈ s.tasks, g.lock = f.lock → g.stage ≠ .walking) :
    inFlight s (.acquire f.id) = some (s.advance f .walking) := by
  have hfind : s.task? f.id = some f := by
    cases h : s.task? f.id with
    | none => exact absurd (decide_eq_true rfl) (List.find?_eq_none.mp h f hf)
    | some g =>
      obtain ⟨hg, hid⟩ := task?_mem h
      rw [hs.task_eq hg hf hid]
  simp only [inFlight, hfind]
  exact if_pos ⟨hwait, not_held_iff.mpr hfree⟩

theorem doubled (hs : Consistent keyOf s) (hf : f ∈ s.tasks) (hwalk : f.stage = .walking)
    (hnot : (f.key, f.lock) ∉ s.map) :
    ∃ es s', Machine.run inFlight s es = some s' ∧ ¬OneWalkEach s' := by
  obtain ⟨e, t, lock, s₁, hstep, htasks, hne, hfresh⟩ := newcomer hs hf hnot
  obtain ⟨keyOf₁, hs₁⟩ := hs.step (inFlight_turns hstep)
  have hf₁ : f ∈ s₁.tasks := htasks ▸ .tail _ hf
  have hnew : ⟨t, f.key, lock, .waiting⟩ ∈ s₁.tasks := htasks ▸ .head _
  by_cases hheld : ∃ g ∈ s₁.tasks, g.lock = lock ∧ g.stage = .walking
  · -- Somebody walks with the newcomer's lock already.
    obtain ⟨g, hg, rfl, hgwalk⟩ := hheld
    have hkey : g.key = f.key := (hs₁.tasks g hg).1.trans (hs₁.tasks _ hnew).1.symm
    refine ⟨[e], s₁, Machine.run_cons.mpr ⟨s₁, hstep, rfl⟩, fun hexcl => hne ?_⟩
    exact congrArg Coalesced.lock (hexcl g hg f hf₁ hgwalk hwalk hkey)
  · have hfree : ∀ g ∈ s₁.tasks, g.lock = lock → g.stage ≠ .walking := fun g hg hlock hgwalk =>
      hheld ⟨g, hg, hlock, hgwalk⟩
    have hacquire := hs₁.acquire hnew rfl hfree
    refine ⟨[e, .acquire t], _, Machine.run_cons.mpr ⟨s₁, hstep, Machine.run_cons.mpr ⟨_, hacquire, rfl⟩⟩,
      fun hexcl => hne ?_⟩
    have hfid : f.id ≠ t := fun hid => hfresh (hid ▸ mem_map_of_mem hf)
    have hf₂ : f ∈ (s₁.advance ⟨t, f.key, lock, .waiting⟩ .walking).tasks :=
      .tail _ (mem_filter.mpr ⟨hf₁, decide_eq_true hfid⟩)
    exact congrArg Coalesced.lock (hexcl _ (.head _) f hf₂ rfl hwalk rfl)

theorem evicted_of_not_calm (hs : Consistent keyOf s) (hstep : inFlight s e = some s') (h : ¬Calm s e) :
    ∃ f ∈ s'.tasks, f.stage ≠ .leaving ∧ (f.key, f.lock) ∉ s'.map := by
  cases e with
  | lockFor t name rtype first =>
    simp only [Calm] at h
    push Not at h
    obtain ⟨hfull, f, hf, hstage, _, hfirst⟩ := h
    have hgone : ∀ {map}, Room s first map → (f.key, f.lock) ∉ map := by
      intro map hroom hmem
      have hle : s.retained.length ≤ s.map.length := length_filter_le _ _
      cases hroom with
      | free hlt => omega
      | swept hlt => omega
      | evicted _ _ => exact of_decide_eq_true (mem_filter.mp hmem).2 hfirst
    cases inFlight_turns hstep with
    | reuse _ hroom _ => exact ⟨f, .tail _ hf, hstage, hgone hroom⟩
    | insert _ hroom _ =>
      refine ⟨f, .tail _ hf, hstage, fun hmem => ?_⟩
      rcases mem_cons.mp hmem with heq | hmem
      · exact absurd (congrArg Prod.snd heq) (Nat.ne_of_lt (hs.tasks f hf).2)
      · exact hgone hroom hmem
  | _ => exact absurd trivial h

/-- **An evicted entry in use can always be followed by a second walk for its question.** -/
theorem doubled_of_not_calm (hs : Consistent keyOf s) (hstep : inFlight s e = some s') (h : ¬Calm s e) :
    ∃ es s'', Machine.run inFlight s' es = some s'' ∧ ¬OneWalkEach s'' := by
  obtain ⟨f, hf, hstage, hnot⟩ := evicted_of_not_calm hs hstep h
  obtain ⟨keyOf', hs'⟩ := hs.step (inFlight_turns hstep)
  by_cases hheld : ∃ g ∈ s'.tasks, g.lock = f.lock ∧ g.stage = .walking
  · obtain ⟨g, hg, hlock, hwalk⟩ := hheld
    have hkey : g.key = f.key := by rw [(hs'.tasks g hg).1, (hs'.tasks f hf).1, hlock]
    exact doubled hs' hg hwalk (by rwa [hkey, hlock])
  · have hfree : ∀ g ∈ s'.tasks, g.lock = f.lock → g.stage ≠ .walking := fun g hg hlock hwalk =>
      hheld ⟨g, hg, hlock, hwalk⟩
    have hwait : f.stage = .waiting := by
      cases hf' : f.stage with
      | waiting => rfl
      | walking => exact absurd hf' (hfree f hf rfl)
      | leaving => exact absurd hf' hstage
    have hacquire := hs'.acquire hf hwait hfree
    have hs₂ : Consistent keyOf' (s'.advance f .walking) := hs'.advance hf fun _ => hfree
    obtain ⟨es, s'', hrun, hdouble⟩ := doubled hs₂ (.head _) rfl hnot
    exact ⟨.acquire f.id :: es, s'', Machine.run_cons.mpr ⟨_, hacquire, hrun⟩, hdouble⟩

def flightName (i : Nat) : Name :=
  ⟨[[UInt8.ofNat (97 + i / 256), UInt8.ofNat (97 + i % 256 / 16), UInt8.ofNat (97 + i % 16)]]⟩

def flightKey (i : Nat) : InFlightKey := ((flightName i).toLowercase, .A)

def arrivals (n : Nat) : List InFlightEvent :=
  (List.range n).map fun i => .lockFor i (flightName i) .A (.root, .A)

def crowd (n : Nat) : InFlight :=
  ⟨(List.range n).reverse.map fun i => (flightKey i, i),
    (List.range n).reverse.map fun i => ⟨i, flightKey i, i, .waiting⟩, n⟩

theorem lowerByte_letter (h : i ≤ 16) : lowerByte (UInt8.ofNat (97 + i)) = UInt8.ofNat (97 + i) := by
  have hall : ∀ i : Fin 17, lowerByte (UInt8.ofNat (97 + i)) = UInt8.ofNat (97 + i) := by decide
  exact hall ⟨i, by omega⟩

theorem letter_inj {j : Nat} (hi : i ≤ 16) (hj : j ≤ 16)
    (h : UInt8.ofNat (97 + i) = UInt8.ofNat (97 + j)) : i = j := by
  have hnat := congrArg UInt8.toNat h
  rw [UInt8.toNat_ofNat', UInt8.toNat_ofNat'] at hnat
  omega

theorem flightKey_inj {j : Nat} (hi : i ≤ inFlightCap) (hj : j ≤ inFlightCap)
    (h : flightKey i = flightKey j) : i = j := by
  have hcap : inFlightCap = 4096 := rfl
  have hlower : ∀ {i}, i ≤ inFlightCap → (flightName i).toLowercase = flightName i := by
    intro i hi
    simp only [flightName, Name.toLowercase, map_cons, map_nil]
    rw [lowerByte_letter (by omega), lowerByte_letter (by omega), lowerByte_letter (by omega)]
  have hname : flightName i = flightName j := by
    rw [← hlower hi, ← hlower hj]
    exact congrArg Prod.fst h
  simp only [flightName, Name.mk.injEq, List.cons.injEq, and_true] at hname
  have h₁ := letter_inj (by omega) (by omega) hname.1
  have h₂ := letter_inj (by omega) (by omega) hname.2.1
  have h₃ := letter_inj (by omega) (by omega) hname.2.2
  omega

theorem mem_crowd_map {x : InFlightKey × LockId} : x ∈ (crowd n).map ↔ ∃ i < n, (flightKey i, i) = x := by
  simp [crowd]

theorem mem_crowd_tasks : f ∈ (crowd n).tasks ↔ ∃ i < n, ⟨i, flightKey i, i, .waiting⟩ = f := by
  simp [crowd]

theorem crowd_succ (n : Nat) : crowd (n + 1) =
    ⟨(flightKey n, n) :: (crowd n).map, ⟨n, flightKey n, n, .waiting⟩ :: (crowd n).tasks, n + 1⟩ := by
  simp [crowd, range_succ]

theorem crowd_fresh (n : Nat) : n ∉ (crowd n).tasks.map Coalesced.id := by
  intro hmem
  obtain ⟨f, hf, hid⟩ := mem_map.mp hmem
  obtain ⟨i, hi, rfl⟩ := mem_crowd_tasks.mp hf
  exact absurd hid (Nat.ne_of_lt hi)

theorem crowd_step (hn : n < inFlightCap) :
    inFlight (crowd n) (.lockFor n (flightName n) .A (.root, .A)) = some (crowd (n + 1)) := by
  have hroom : (crowd n).makeRoom (.root, .A) = some (crowd n).map := by
    have hlen : (crowd n).map.length = n := by simp [crowd]
    exact if_neg (by omega)
  have hfind : (crowd n).map.find? (fun x => x.1 = flightKey n) = none := by
    refine List.find?_eq_none.mpr fun x hx heq => ?_
    obtain ⟨i, hi, rfl⟩ := mem_crowd_map.mp hx
    have hin := flightKey_inj (by omega) (by omega) (of_decide_eq_true heq)
    omega
  have hlock : (crowd n).lockFor n (flightKey n) (crowd n).map = crowd (n + 1) := by
    rw [crowd_succ, InFlight.lockFor, hfind]
    rfl
  simp only [inFlight, if_neg (crowd_fresh n), hroom, Option.map_some]
  exact congrArg some hlock

theorem run_arrivals (hn : n ≤ inFlightCap) :
    Machine.run inFlight .empty (arrivals n) = some (crowd n) := by
  induction n with
  | zero => rfl
  | succ n ih =>
    rw [arrivals, range_succ, map_append]
    exact Machine.run_concat (ih (by omega)) (crowd_step hn)

theorem crowd_retained (n : Nat) : (crowd n).retained = (crowd n).map := by
  refine filter_eq_self.mpr fun x hx => ?_
  obtain ⟨i, hi, rfl⟩ := mem_crowd_map.mp hx
  have htask := mem_crowd_tasks.mpr ⟨i, hi, rfl⟩
  have hmem := Room.mem_retained htask hx
  exact (mem_filter.mp hmem).2

end Dnsd.Recursor
