/-
# InFlight — the map of locks behind the coalescing of equal queries (`InFlightMap`).

The map hands the same lock to all that ask for the same question as long as its entry stays.  When it is full it
drops the entries whose lock nobody but the map has, and if that frees nothing the entry that the hash map lists
first.  Locks are numbered; the count of an `Arc` in the map is one more than the number of tasks that have it.
-/
import Dnsd.Lib.Machine
import Dnsd.Proto.Message

namespace Dnsd.Recursor

open Proto Lib List

def inFlightCap : Nat := 4096

abbrev InFlightKey := Name × RecordType

abbrev LockId := Nat

abbrev TaskId := Nat

inductive Stage where
  /-- Has the lock object and waits for the lock. -/
  | waiting
  /-- Has the guard: from the acquisition to the end of the walk. -/
  | walking
  /-- Has dropped the guard and not yet the lock object. -/
  | leaving
  deriving DecidableEq, Repr

/-- A task from `lock_for` on. -/
structure Coalesced where
  id : TaskId
  key : InFlightKey
  lock : LockId
  stage : Stage
  deriving DecidableEq, Repr

structure InFlight where
  map : List (InFlightKey × LockId)
  tasks : List Coalesced
  next : LockId
  deriving DecidableEq, Repr

inductive InFlightEvent where
  /-- `lock_for`; the hash map lists `first` first. -/
  | lockFor (t : TaskId) (name : Name) (rtype : RecordType) (first : InFlightKey)
  /-- `lock().await` is done. -/
  | acquire (t : TaskId)
  /-- The guard is dropped. -/
  | unlock (t : TaskId)
  /-- The lock object is dropped. -/
  | leave (t : TaskId)
  deriving DecidableEq, Repr

namespace InFlight

def empty : InFlight := ⟨[], [], 0⟩

/-- `Arc::strong_count` of a lock of the map. -/
def strongCount (s : InFlight) (lock : LockId) : Nat := 1 + s.tasks.countP fun t => t.lock = lock

/-- `map.retain(|_, v| Arc::strong_count(v) > 1)` -/
def retained (s : InFlight) : List (InFlightKey × LockId) := s.map.filter fun x => 1 < s.strongCount x.2

/-- The map before the entry is looked up; `none` if `first` is not a key to be listed. -/
def makeRoom (s : InFlight) (first : InFlightKey) : Option (List (InFlightKey × LockId)) :=
  if inFlightCap ≤ s.map.length then
    if inFlightCap ≤ s.retained.length then
      if first ∈ s.retained.map Prod.fst then some (s.retained.filter fun x => x.1 ≠ first) else none
    else some s.retained
  else some s.map

/-- `map.entry(key).or_insert_with(..)` -/
def lockFor (s : InFlight) (t : TaskId) (key : InFlightKey) (map : List (InFlightKey × LockId)) : InFlight :=
  match map.find? fun x => x.1 = key with
  | some (_, lock) => ⟨map, ⟨t, key, lock, .waiting⟩ :: s.tasks, s.next⟩
  | none => ⟨(key, s.next) :: map, ⟨t, key, s.next, .waiting⟩ :: s.tasks, s.next + 1⟩

def task? (s : InFlight) (t : TaskId) : Option Coalesced := s.tasks.find? fun f => f.id = t

def held (s : InFlight) (lock : LockId) : Bool := s.tasks.any fun f => f.lock = lock && f.stage = .walking

def without (s : InFlight) (t : TaskId) : InFlight := { s with tasks := s.tasks.filter fun f => f.id ≠ t }

def advance (s : InFlight) (f : Coalesced) (stage : Stage) : InFlight :=
  { s with tasks := { f with stage } :: (s.without f.id).tasks }

end InFlight

def inFlight : Machine InFlight InFlightEvent := fun s e =>
  match e with
  | .lockFor t name rtype first =>
      if t ∈ s.tasks.map Coalesced.id then none
      else (s.makeRoom first).map (s.lockFor t (name.toLowercase, rtype))
  | .acquire t =>
      match s.task? t with
      | some f => if f.stage = .waiting ∧ s.held f.lock = false then some (s.advance f .walking) else none
      | none => none
  | .unlock t =>
      match s.task? t with
      | some f => if f.stage = .walking then some (s.advance f .leaving) else none
      | none => none
  | .leave t =>
      match s.task? t with
      | some f => if f.stage = .walking then none else some (s.without f.id)
      | none => none

/-! ## What an event does -/

inductive Room (s : InFlight) (first : InFlightKey) : List (InFlightKey × LockId) → Prop
  | free : s.map.length < inFlightCap → Room s first s.map
  | swept : s.retained.length < inFlightCap → Room s first s.retained
  | evicted : inFlightCap ≤ s.retained.length → first ∈ s.retained.map Prod.fst →
      Room s first (s.retained.filter fun x => x.1 ≠ first)

inductive Turns (s : InFlight) : InFlightEvent → InFlight → Prop
  | reuse {t : TaskId} {name : Name} {rtype : RecordType} {first : InFlightKey}
      {map : List (InFlightKey × LockId)} {lock : LockId} :
      t ∉ s.tasks.map Coalesced.id → Room s first map → ((name.toLowercase, rtype), lock) ∈ map →
      Turns s (.lockFor t name rtype first)
        ⟨map, ⟨t, (name.toLowercase, rtype), lock, .waiting⟩ :: s.tasks, s.next⟩
  | insert {t : TaskId} {name : Name} {rtype : RecordType} {first : InFlightKey}
      {map : List (InFlightKey × LockId)} :
      t ∉ s.tasks.map Coalesced.id → Room s first map →
      (name.toLowercase, rtype) ∉ map.map Prod.fst →
      Turns s (.lockFor t name rtype first)
        ⟨((name.toLowercase, rtype), s.next) :: map,
          ⟨t, (name.toLowercase, rtype), s.next, .waiting⟩ :: s.tasks, s.next + 1⟩
  | acquire {f : Coalesced} : f ∈ s.tasks → f.stage = .waiting →
      (∀ g ∈ s.tasks, g.lock = f.lock → g.stage ≠ .walking) →
      Turns s (.acquire f.id) (s.advance f .walking)
  | unlock {f : Coalesced} : f ∈ s.tasks → f.stage = .walking →
      Turns s (.unlock f.id) (s.advance f .leaving)
  | leave {f : Coalesced} : f ∈ s.tasks → f.stage ≠ .walking → Turns s (.leave f.id) (s.without f.id)

variable {s s' : InFlight} {e : InFlightEvent}

theorem makeRoom_room {first : InFlightKey} {map : List (InFlightKey × LockId)}
    (h : s.makeRoom first = some map) : Room s first map := by
  unfold InFlight.makeRoom at h
  split at h
  · split at h
    · split at h
      · obtain rfl := Option.some.inj h
        exact .evicted ‹_› ‹_›
      · nomatch h
    · obtain rfl := Option.some.inj h
      exact .swept (by omega)
  · obtain rfl := Option.some.inj h
    exact .free (by omega)

theorem exists_makeRoom (s : InFlight) : ∃ first map, s.makeRoom first = some map := by
  unfold InFlight.makeRoom
  by_cases hfull : inFlightCap ≤ s.map.length
  · by_cases hused : inFlightCap ≤ s.retained.length
    · have hne : s.retained ≠ [] := by
        rintro hnil
        rw [hnil] at hused
        exact absurd hused (by decide)
      obtain ⟨x, hx⟩ := exists_mem_of_ne_nil _ hne
      refine ⟨x.1, s.retained.filter fun y => y.1 ≠ x.1, ?_⟩
      rw [if_pos hfull, if_pos hused, if_pos (mem_map_of_mem hx)]
    · exact ⟨(.root, .A), _, by rw [if_pos hfull, if_neg hused]⟩
  · exact ⟨(.root, .A), _, by rw [if_neg hfull]⟩

theorem task?_mem {t : TaskId} {f : Coalesced} (h : s.task? t = some f) : f ∈ s.tasks ∧ f.id = t :=
  ⟨mem_of_find?_eq_some h, by simpa using List.find?_some h⟩

theorem not_held_iff {lock : LockId} :
    s.held lock = false ↔ ∀ g ∈ s.tasks, g.lock = lock → g.stage ≠ .walking := by
  simp [InFlight.held]

/-- **What an event can do.** -/
theorem inFlight_turns (h : inFlight s e = some s') : Turns s e s' := by
  cases e with
  | lockFor t name rtype first =>
    simp only [inFlight] at h
    split at h
    · nomatch h
    rename_i hfresh
    obtain ⟨map, hmap, rfl⟩ := Option.map_eq_some_iff.mp h
    have hroom := makeRoom_room hmap
    unfold InFlight.lockFor
    split
    · rename_i key lock hfind
      have hkey : key = (name.toLowercase, rtype) := by simpa using List.find?_some hfind
      exact .reuse hfresh hroom (hkey ▸ mem_of_find?_eq_some hfind)
    · rename_i hfind
      refine .insert hfresh hroom fun hmem => ?_
      obtain ⟨x, hx, hkey⟩ := mem_map.mp hmem
      exact List.find?_eq_none.mp hfind x hx (decide_eq_true hkey)
  | acquire t =>
    simp only [inFlight] at h
    split at h
    · rename_i f hf
      obtain ⟨hmem, rfl⟩ := task?_mem hf
      split at h
      · rename_i hwait
        obtain rfl := Option.some.inj h
        exact .acquire hmem hwait.1 (not_held_iff.mp hwait.2)
      · nomatch h
    · nomatch h
  | unlock t =>
    simp only [inFlight] at h
    split at h
    · rename_i f hf
      obtain ⟨hmem, rfl⟩ := task?_mem hf
      split at h
      · obtain rfl := Option.some.inj h
        exact .unlock hmem ‹_›
      · nomatch h
    · nomatch h
  | leave t =>
    simp only [inFlight] at h
    split at h
    · rename_i f hf
      obtain ⟨hmem, rfl⟩ := task?_mem hf
      split at h
      · nomatch h
      · obtain rfl := Option.some.inj h
        exact .leave hmem ‹_›
    · nomatch h

end Dnsd.Recursor
