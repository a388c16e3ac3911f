/-
# UdpChannel — one upstream UDP channel (`UpstreamUdpChannel`, `recv_demux_loop`).

A query puts an entry for `(peer, txid)` into the pending map, sends, and waits for the demux loop; a guard removes
the entry, by key, when the query ends in any other way.  The demux loop takes the entry out of the map under the
lock and hands the datagram over afterwards: two events.  Datagrams too short for a header are left out.
-/
import Dnsd.Lib.Machine
import Dnsd.Proto.Message

namespace Dnsd.Upstream

open Proto Lib List

abbrev SlotKey := IpAddr × UInt16

abbrev QueryId := Nat

inductive Phase where
  | sending
  | waiting
  deriving DecidableEq, Repr

structure Flight where
  id : QueryId
  key : SlotKey
  phase : Phase
  deriving DecidableEq, Repr

structure Channel where
  pending : List (SlotKey × QueryId)
  flights : List Flight
  /-- Taken out of the map by the demux loop, and not handed over yet. -/
  taken : List QueryId
  /-- Handed a datagram. -/
  delivered : List QueryId
  next : QueryId
  deriving DecidableEq, Repr

namespace Channel

def empty : Channel := ⟨[], [], [], [], 0⟩

/-- The map without a key. -/
def remove (pending : List (SlotKey × QueryId)) (key : SlotKey) : List (SlotKey × QueryId) :=
  pending.filter fun x => x.1 ≠ key

def land (s : Channel) (f : Flight) : Channel :=
  { s with flights := s.flights.filter fun g => g.id ≠ f.id }

def cleanup (s : Channel) (f : Flight) : Channel := { s.land f with pending := remove s.pending f.key }

def flight? (s : Channel) (q : QueryId) : Option Flight := s.flights.find? fun f => f.id = q

end Channel

inductive ChannelEvent where
  /-- A query starts: it inserts its entry, or fails because the key is taken. -/
  | start (key : SlotKey)
  /-- `send_to` is done. -/
  | sent (q : QueryId)
  | sendError (q : QueryId)
  /-- A datagram arrives; its entry, if there is one, is taken out of the map. -/
  | datagram (key : SlotKey)
  /-- The datagram is handed over. -/
  | handOver (q : QueryId)
  /-- The query gets its datagram and disarms the guard. -/
  | receive (q : QueryId)
  | timeout (q : QueryId)
  /-- The sending half is gone and nothing was handed over. -/
  | closed (q : QueryId)
  /-- The future is dropped. -/
  | cancel (q : QueryId)
  deriving DecidableEq, Repr

/-- The query whose guard the event fires. -/
def ChannelEvent.fires : ChannelEvent → Option QueryId
  | .sendError q => some q
  | .timeout q => some q
  | .closed q => some q
  | .cancel q => some q
  | _ => none

def Channel.mayFire (s : Channel) (f : Flight) : ChannelEvent → Bool
  | .sendError _ => f.phase = .sending
  | .timeout _ => f.phase = .waiting && f.id ∉ s.delivered
  | .closed _ =>
      f.phase = .waiting && f.id ∉ s.delivered && f.id ∉ s.taken && f.id ∉ s.pending.map Prod.snd
  | _ => true

def channel : Machine Channel ChannelEvent := fun s e =>
  match e with
  | .start key =>
      if key ∈ s.pending.map Prod.fst then some { s with next := s.next + 1 }
      else some { s with
        pending := (key, s.next) :: s.pending
        flights := ⟨s.next, key, .sending⟩ :: s.flights
        next := s.next + 1 }
  | .sent q =>
      match s.flight? q with
      | some ⟨_, key, .sending⟩ => some { s.land ⟨q, key, .sending⟩ with
          flights := ⟨q, key, .waiting⟩ :: (s.land ⟨q, key, .sending⟩).flights }
      | _ => none
  | .datagram key =>
      match s.pending.find? fun x => x.1 = key with
      | none => some s
      | some (_, q) => some { s with
          pending := Channel.remove s.pending key
          taken := q :: s.taken }
  | .handOver q =>
      if q ∈ s.taken then some { s with taken := s.taken.erase q, delivered := q :: s.delivered }
      else none
  | .receive q =>
      match s.flight? q with
      | some f => if f.phase = .waiting ∧ q ∈ s.delivered then some (s.land f) else none
      | none => none
  | e =>
      match e.fires.bind s.flight? with
      | some f => if s.mayFire f e then some (s.cleanup f) else none
      | none => none

/-! ## What an event does -/

inductive Moves (s : Channel) : ChannelEvent → Channel → Prop
  | collision {key : SlotKey} : key ∈ s.pending.map Prod.fst →
      Moves s (.start key) { s with next := s.next + 1 }
  | insert {key : SlotKey} : key ∉ s.pending.map Prod.fst →
      Moves s (.start key) { s with
        pending := (key, s.next) :: s.pending
        flights := ⟨s.next, key, .sending⟩ :: s.flights
        next := s.next + 1 }
  | sent {f : Flight} : f ∈ s.flights →
      Moves s (.sent f.id) { s.land f with
        flights := { f with phase := .waiting } :: (s.land f).flights }
  | unmatched {key : SlotKey} : key ∉ s.pending.map Prod.fst → Moves s (.datagram key) s
  | matched {key : SlotKey} {q : QueryId} : (key, q) ∈ s.pending →
      Moves s (.datagram key) { s with
        pending := Channel.remove s.pending key
        taken := q :: s.taken }
  | handOver {q : QueryId} : q ∈ s.taken →
      Moves s (.handOver q) { s with taken := s.taken.erase q, delivered := q :: s.delivered }
  | receive {f : Flight} : f ∈ s.flights → f.id ∈ s.delivered → Moves s (.receive f.id) (s.land f)
  | fire {f : Flight} {e : ChannelEvent} : f ∈ s.flights → e.fires = some f.id → Moves s e (s.cleanup f)

theorem Channel.flight?_some {s : Channel} {q : QueryId} {f : Flight} (h : s.flight? q = some f) :
    f ∈ s.flights ∧ f.id = q :=
  ⟨mem_of_find?_eq_some h, by simpa using List.find?_some h⟩

theorem fire_moves {s s' : Channel} {e : ChannelEvent}
    (h : (match e.fires.bind s.flight? with
      | some f => if s.mayFire f e then some (s.cleanup f) else none
      | none => none) = some s') : Moves s e s' := by
  split at h
  · rename_i f hf
    obtain ⟨q, hq, hflight⟩ := Option.bind_eq_some_iff.mp hf
    obtain ⟨hmem, rfl⟩ := Channel.flight?_some hflight
    split at h
    · obtain rfl := Option.some.inj h
      exact .fire hmem hq
    · nomatch h
  · nomatch h

theorem channel_moves {s s' : Channel} {e : ChannelEvent} (h : channel s e = some s') : Moves s e s' := by
  cases e with
  | start key =>
    simp only [channel] at h
    split at h
    · rename_i hkey
      obtain rfl := Option.some.inj h
      exact .collision hkey
    · rename_i hkey
      obtain rfl := Option.some.inj h
      exact .insert hkey
  | sent q =>
    simp only [channel] at h
    split at h
    · rename_i id key hf
      obtain ⟨hmem, rfl⟩ := Channel.flight?_some hf
      obtain rfl := Option.some.inj h
      exact .sent hmem
    · nomatch h
  | datagram key =>
    simp only [channel] at h
    split at h
    · rename_i hnone
      obtain rfl := Option.some.inj h
      refine .unmatched fun hkey => ?_
      obtain ⟨x, hx, rfl⟩ := mem_map.mp hkey
      exact List.find?_eq_none.mp hnone x hx (decide_eq_true rfl)
    · rename_i key' q hf
      obtain rfl := Option.some.inj h
      obtain rfl : key' = key := by simpa using List.find?_some hf
      exact .matched (mem_of_find?_eq_some hf)
  | handOver q =>
    simp only [channel] at h
    split at h
    · rename_i hq
      obtain rfl := Option.some.inj h
      exact .handOver hq
    · nomatch h
  | receive q =>
    simp only [channel] at h
    split at h
    · rename_i f hf
      obtain ⟨hmem, rfl⟩ := Channel.flight?_some hf
      split at h
      · rename_i hready
        obtain rfl := Option.some.inj h
        exact .receive hmem hready.2
      · nomatch h
    · nomatch h
  | sendError q => exact fire_moves (e := .sendError q) h
  | timeout q => exact fire_moves (e := .timeout q) h
  | closed q => exact fire_moves (e := .closed q) h
  | cancel q => exact fire_moves (e := .cancel q) h

end Dnsd.Upstream
