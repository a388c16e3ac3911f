/-
# PendingSlots — who removes a pending entry.

The guard of a query removes by key, and the demux loop frees the key as soon as a datagram matches: from then on
a later query may hold it while the guard of the earlier one is still armed.  `Tidy` is what every run keeps; a
foreign entry is removed exactly when the guard of a served query fires.
-/
import Mathlib.Data.List.Nodup
import Dnsd.Upstream.UdpChannel

namespace Dnsd.Upstream

open Lib List

/-! ## The law, and what breaks it -/

/-- An entry that the event removes is removed by a datagram for its key or by the end of its own query. -/
def Owned (s : Channel) (e : ChannelEvent) : Prop :=
  ∀ s', channel s e = some s' → ∀ x ∈ s.pending, x ∉ s'.pending → e = .datagram x.1 ∨ e.fires = some x.2

def Channel.Served (s : Channel) (f : Flight) : Prop := f.id ∈ s.taken ∨ f.id ∈ s.delivered

/-- The guard of a query that has been served fires while a later query has the key. -/
structure LateCleanup (s : Channel) (e : ChannelEvent) (f : Flight) (later : QueryId) : Prop where
  flying : f ∈ s.flights
  fires : e.fires = some f.id
  served : s.Served f
  after : f.id < later
  slot : (f.key, later) ∈ s.pending

def Punctual (s : Channel) (e : ChannelEvent) : Prop :=
  ∀ s', channel s e = some s' → ∀ f later, ¬LateCleanup s e f later

/-! ## What every run keeps -/

structure Tidy (s : Channel) : Prop where
  keys : (s.pending.map Prod.fst).Nodup
  ids : (s.flights.map Flight.id).Nodup
  flying : ∀ x ∈ s.pending, ∃ f ∈ s.flights, f.id = x.2 ∧ f.key = x.1
  below : ∀ f ∈ s.flights, f.id < s.next
  served : ∀ q, q ∈ s.taken ∨ q ∈ s.delivered → q < s.next ∧ q ∉ s.pending.map Prod.snd
  /-- The query that holds a key is the last one that had it. -/
  newest : ∀ f ∈ s.flights, ∀ x ∈ s.pending, x.1 = f.key → f.id ≤ x.2

theorem tidy_empty : Tidy .empty := by
  constructor <;> simp [Channel.empty]

/-- Every query in flight has its entry or has been served. -/
def Own (s : Channel) : Prop := ∀ f ∈ s.flights, (f.key, f.id) ∈ s.pending ∨ s.Served f

namespace Tidy

variable {s s' : Channel} {e : ChannelEvent} {f : Flight} {key : SlotKey} {q : QueryId}
  {x : SlotKey × QueryId}

theorem entry_eq (hs : Tidy s) {y : SlotKey × QueryId} (hx : x ∈ s.pending) (hy : y ∈ s.pending)
    (h : x.1 = y.1) : x = y :=
  inj_on_of_nodup_map hs.keys hx hy h

theorem flight_eq (hs : Tidy s) {g : Flight} (hf : f ∈ s.flights) (hg : g ∈ s.flights) (h : f.id = g.id) :
    f = g :=
  inj_on_of_nodup_map hs.ids hf hg h

theorem key_eq (hs : Tidy s) (hx : x ∈ s.pending) (hf : f ∈ s.flights) (h : x.2 = f.id) : f.key = x.1 := by
  obtain ⟨g, hg, hid, hkey⟩ := hs.flying x hx
  obtain rfl := hs.flight_eq hg hf (hid.trans h)
  exact hkey

theorem flying_land (hs : Tidy s) (hx : x ∈ s.pending) (hne : x.2 ≠ f.id) :
    ∃ g ∈ (s.land f).flights, g.id = x.2 ∧ g.key = x.1 := by
  obtain ⟨g, hg, hid, hkey⟩ := hs.flying x hx
  exact ⟨g, mem_filter.mpr ⟨hg, decide_eq_true (hid ▸ hne)⟩, hid, hkey⟩

theorem inserted (hs : Tidy s) (hkey : key ∉ s.pending.map Prod.fst) :
    Tidy { s with
      pending := (key, s.next) :: s.pending
      flights := ⟨s.next, key, .sending⟩ :: s.flights
      next := s.next + 1 } := by
  constructor
  · exact nodup_cons.mpr ⟨hkey, hs.keys⟩
  · refine nodup_cons.mpr ⟨fun hmem => ?_, hs.ids⟩
    obtain ⟨f, hf, hid⟩ := mem_map.mp hmem
    exact absurd hid (Nat.ne_of_lt (hs.below f hf))
  · rintro x (_ | ⟨_, hx⟩)
    · exact ⟨_, .head _, rfl, rfl⟩
    · obtain ⟨f, hf, hid⟩ := hs.flying x hx
      exact ⟨f, .tail _ hf, hid⟩
  · rintro f (_ | ⟨_, hf⟩)
    · exact Nat.lt_succ_self _
    · exact Nat.lt_succ_of_lt (hs.below f hf)
  · intro q hq
    obtain ⟨hlt, hnot⟩ := hs.served q hq
    refine ⟨Nat.lt_succ_of_lt hlt, fun hmem => ?_⟩
    rcases mem_cons.mp hmem with heq | hmem
    · exact Nat.ne_of_lt hlt heq
    · exact hnot hmem
  · rintro f (_ | ⟨_, hf⟩) x (_ | ⟨_, hx⟩) heq
    · exact Nat.le_refl _
    · exact absurd (mem_map.mpr ⟨x, hx, heq⟩) hkey
    · exact Nat.le_of_lt (hs.below f hf)
    · exact hs.newest f hf x hx heq

theorem advanced (hs : Tidy s) (hf : f ∈ s.flights) (phase : Phase) :
    Tidy { s.land f with flights := { f with phase := phase } :: (s.land f).flights } := by
  have hflights : (s.land f).flights.Sublist s.flights := filter_sublist
  constructor
  · exact hs.keys
  · refine nodup_cons.mpr ⟨fun hmem => ?_, hs.ids.sublist (hflights.map Flight.id)⟩
    obtain ⟨g, hg, hid⟩ := mem_map.mp hmem
    exact of_decide_eq_true (mem_filter.mp hg).2 hid
  · intro x hx
    by_cases hown : x.2 = f.id
    · have hkey : f.key = x.1 := hs.key_eq hx hf hown
      exact ⟨_, .head _, hown.symm, hkey⟩
    · obtain ⟨g, hg, hid⟩ := hs.flying_land hx hown
      exact ⟨g, .tail _ hg, hid⟩
  · rintro g (_ | ⟨_, hg⟩)
    · exact hs.below f hf
    · exact hs.below g (hflights.subset hg)
  · exact hs.served
  · rintro g (_ | ⟨_, hg⟩) x hx heq
    · exact hs.newest f hf x hx heq
    · exact hs.newest g (hflights.subset hg) x hx heq

theorem matched (hs : Tidy s) (hslot : (key, q) ∈ s.pending) :
    Tidy { s with pending := Channel.remove s.pending key, taken := q :: s.taken } := by
  have hsub : (Channel.remove s.pending key).Sublist s.pending := filter_sublist
  refine { hs with
    keys := hs.keys.sublist (hsub.map Prod.fst)
    flying := fun x hx => hs.flying x (hsub.subset hx)
    served := ?_
    newest := fun f hf x hx => hs.newest f hf x (hsub.subset hx) }
  intro q' hq'
  by_cases heq : q' = q
  · subst heq
    obtain ⟨f, hf, hid, hkey⟩ := hs.flying _ hslot
    have hlt : q' < s.next := lt_of_eq_of_lt hid.symm (hs.below f hf)
    refine ⟨hlt, fun hmem => ?_⟩
    -- An entry of the same query would be under the same key.
    obtain ⟨x, hx, hx₂⟩ := mem_map.mp hmem
    have hxkey := hs.key_eq (hsub.subset hx) hf (hx₂.trans hid.symm)
    exact of_decide_eq_true (mem_filter.mp hx).2 (hxkey.symm.trans hkey)
  · have hold : q' ∈ s.taken ∨ q' ∈ s.delivered :=
      hq'.imp_left fun hmem => (mem_cons.mp hmem).resolve_left heq
    exact ⟨(hs.served q' hold).1, fun hmem => (hs.served q' hold).2 ((hsub.map Prod.snd).subset hmem)⟩

theorem handedOver (hs : Tidy s) (hq : q ∈ s.taken) :
    Tidy { s with taken := s.taken.erase q, delivered := q :: s.delivered } := by
  refine { hs with served := fun q' hq' => hs.served q' ?_ }
  rcases hq' with hq' | hq'
  · exact .inl (mem_of_mem_erase hq')
  · rcases mem_cons.mp hq' with rfl | hq'
    · exact .inl hq
    · exact .inr hq'

theorem ended (hs : Tidy s) {pending : List (SlotKey × QueryId)} (hsub : pending.Sublist s.pending)
    (hnot : ∀ x ∈ pending, x.2 ≠ f.id) : Tidy { s.land f with pending := pending } := by
  have hflights : (s.land f).flights.Sublist s.flights := filter_sublist
  exact
    { keys := hs.keys.sublist (hsub.map Prod.fst)
      ids := hs.ids.sublist (hflights.map Flight.id)
      flying := fun x hx => hs.flying_land (hsub.subset hx) (hnot x hx)
      below := fun g hg => hs.below g (hflights.subset hg)
      served := fun q hq => ⟨(hs.served q hq).1,
        fun hmem => (hs.served q hq).2 ((hsub.map Prod.snd).subset hmem)⟩
      newest := fun g hg x hx => hs.newest g (hflights.subset hg) x (hsub.subset hx) }

/-- **Every event keeps it.** -/
theorem step (hs : Tidy s) (h : Moves s e s') : Tidy s' := by
  cases h with
  | collision hkey =>
    exact { hs with
      below := fun f hf => Nat.lt_succ_of_lt (hs.below f hf)
      served := fun q hq => ⟨Nat.lt_succ_of_lt (hs.served q hq).1, (hs.served q hq).2⟩ }
  | insert hkey => exact hs.inserted hkey
  | sent hf => exact hs.advanced hf .waiting
  | unmatched => exact hs
  | matched hslot => exact hs.matched hslot
  | handOver hq => exact hs.handedOver hq
  | @receive f hf hdelivered =>
    refine hs.ended (List.Sublist.refl _) fun x hx heq => ?_
    exact (hs.served f.id (.inr hdelivered)).2 (mem_map.mpr ⟨x, hx, heq⟩)
  | @fire f _ hf _ =>
    refine hs.ended filter_sublist fun x hx heq => ?_
    obtain ⟨hmem, hkey⟩ := mem_filter.mp hx
    exact of_decide_eq_true hkey (hs.key_eq hmem hf heq).symm

end Tidy

/-! ## A foreign entry is removed exactly by a late guard -/

section

variable {s s' : Channel} {e : ChannelEvent}

theorem mem_cleanup {f : Flight} {x : SlotKey × QueryId} :
    x ∈ (s.cleanup f).pending ↔ x ∈ s.pending ∧ x.1 ≠ f.key := by
  simp [Channel.cleanup, Channel.remove]

theorem owned_iff (hs : Tidy s) (hown : Own s) : Owned s e ↔ Punctual s e := by
  refine forall_congr' fun s' => imp_congr_right fun hstep => ?_
  constructor
  · intro h f later hlate
    have hmoves := channel_moves hstep
    -- Only the guard itself can be behind the event.
    have hcleanup : s' = s.cleanup f := by
      have hfires := hlate.fires
      cases hmoves with
      | @fire g _ hg hgfires =>
        obtain rfl := hs.flight_eq hg hlate.flying (Option.some.inj (hgfires.symm.trans hfires))
        rfl
      | _ => nomatch hfires
    have hgone : (f.key, later) ∉ s'.pending := by
      rw [hcleanup, mem_cleanup]
      exact fun hmem => hmem.2 rfl
    rcases h _ hlate.slot hgone with hdatagram | hfires
    · rw [hdatagram] at hlate
      nomatch hlate.fires
    · exact absurd (Option.some.inj (hlate.fires.symm.trans hfires)) (Nat.ne_of_lt hlate.after)
  · intro h x hx hgone
    cases channel_moves hstep with
    | @matched key q hslot =>
      have hkey : x.1 = key := not_not.mp fun hne =>
        hgone (mem_filter.mpr ⟨hx, decide_eq_true hne⟩)
      exact .inl (hkey ▸ rfl)
    | @fire f _ hf hfires =>
      have hkey : x.1 = f.key := not_not.mp fun hne => hgone (mem_cleanup.mpr ⟨hx, hne⟩)
      by_cases hid : x.2 = f.id
      · exact .inr (hid ▸ hfires)
      -- The entry is not the query's, so the query has none left: it has been served.
      refine absurd ⟨hf, hfires, ?_, ?_, ?_⟩ (h f x.2)
      · refine (hown f hf).resolve_left fun hmem => hid ?_
        exact congrArg Prod.snd (hs.entry_eq hx hmem hkey)
      · exact Nat.lt_of_le_of_ne (hs.newest f hf x hx hkey) (Ne.symm hid)
      · exact hkey ▸ hx
    | insert => exact absurd (.tail _ hx) hgone
    | _ => exact absurd hx hgone

theorem Own.step (hs : Tidy s) (hown : Own s) (howned : Owned s e) (hstep : channel s e = some s') :
    Own s' := by
  -- A query that goes on loses its entry to a datagram only.
  have hkept : ∀ f ∈ s.flights, e.fires ≠ some f.id → (f.key, f.id) ∈ s.pending →
      (f.key, f.id) ∈ s'.pending ∨ e = .datagram f.key := by
    intro f _ hfires hmem
    by_cases hstay : (f.key, f.id) ∈ s'.pending
    · exact .inl hstay
    · exact .inr ((howned s' hstep _ hmem hstay).resolve_right hfires)
  have hmoves := channel_moves hstep
  cases hmoves with
  | collision => exact hown
  | unmatched => exact hown
  | insert hkey =>
    rintro f (_ | ⟨_, hf⟩)
    · exact .inl (.head _)
    · exact (hown f hf).imp_left (mem_cons_of_mem _)
  | @sent f hf =>
    rintro g (_ | ⟨_, hg⟩)
    · exact hown f hf
    · exact hown g (mem_filter.mp hg).1
  | @matched key q hslot =>
    intro f hf
    rcases hown f hf with hmem | hserved
    · by_cases hkey : f.key = key
      · have heq : (f.key, f.id) = (key, q) := hs.entry_eq hmem hslot hkey
        exact .inr (.inl (mem_cons.mpr (.inl (congrArg Prod.snd heq))))
      · exact .inl (mem_filter.mpr ⟨hmem, decide_eq_true hkey⟩)
    · exact .inr (hserved.imp_left (mem_cons_of_mem _))
  | @handOver q hq =>
    intro f hf
    refine (hown f hf).imp_right fun hserved => ?_
    by_cases heq : f.id = q
    · exact .inr (mem_cons.mpr (.inl heq))
    · refine hserved.imp (fun hmem => ?_) (mem_cons_of_mem _)
      exact (mem_erase_of_ne heq).mpr hmem
  | receive => exact fun g hg => hown g (mem_filter.mp hg).1
  | @fire f _ hf hfires =>
    intro g hg
    obtain ⟨hg, hne⟩ := mem_filter.mp hg
    have hgfires : e.fires ≠ some g.id := by
      intro h
      exact of_decide_eq_true hne (Option.some.inj (h.symm.trans hfires))
    refine (hown g hg).imp_left fun hmem => ?_
    refine (hkept g hg hgfires hmem).resolve_right ?_
    rintro rfl
    nomatch hfires

/-- **Entries are removed by their owners exactly as long as no guard fires late.** -/
theorem pending_owned_iff (es : List ChannelEvent) :
    Machine.Along channel Owned .empty es ↔ Machine.Along channel Punctual .empty es := by
  have hstart : Tidy .empty ∧ Own .empty := ⟨tidy_empty, fun _ h => nomatch h⟩
  refine Machine.along_congr (I := fun s => Tidy s ∧ Own s) hstart (fun s e hs => owned_iff hs.1 hs.2) ?_
  intro s e s' hs howned hstep
  exact ⟨hs.1.step (channel_moves hstep), hs.2.step hs.1 howned hstep⟩

def sampleSlot : SlotKey := (.v4 0x09090909, 7)

def reused : Channel :=
  ⟨[(sampleSlot, 1)], [⟨1, sampleSlot, .sending⟩, ⟨0, sampleSlot, .waiting⟩], [0], [], 2⟩

/-- Two queries to one server draw the same TXID.  The second starts once a datagram has taken the entry of
the first, and the first is cancelled before it reads its datagram. -/
theorem pending_removed_by_earlier :
    Machine.run channel .empty
        [.start sampleSlot, .sent 0, .datagram sampleSlot, .start sampleSlot] = some reused ∧
      (∃ s', channel reused (.cancel 0) = some s' ∧ (sampleSlot, 1) ∈ reused.pending ∧ s'.pending = []) ∧
      ¬Machine.Along channel Owned .empty
        [.start sampleSlot, .sent 0, .datagram sampleSlot, .start sampleSlot, .cancel 0] := by
  have hrun : Machine.run channel .empty
      [.start sampleSlot, .sent 0, .datagram sampleSlot, .start sampleSlot] = some reused := by decide
  have hcancel : channel reused (.cancel 0) = some ⟨[], [⟨1, sampleSlot, .sending⟩], [0], [], 2⟩ := by
    decide
  refine ⟨hrun, ⟨_, hcancel, by decide, rfl⟩, fun h => ?_⟩
  have howned : Owned reused (.cancel 0) := Machine.along_iff.mp h _ _ [] _ rfl hrun
  rcases howned _ hcancel (sampleSlot, 1) (by decide) (not_mem_nil) with hdatagram | hfires
  · nomatch hdatagram
  · exact absurd hfires (by decide)

end

end Dnsd.Upstream
