/-
# Gaps — the elements of a finite set in a ring, and the gaps between them.

Each element of a finite part of a linear order is linked to the next one, the last to the first (`RingLink`);
`InGap` says that an element lies behind a link, around the end if need be.  A set of one element has one link,
whose gap is everything else.
-/
import Mathlib.Data.Finset.Max

namespace Dnsd.Lib

open List

variable {α : Type} [LinearOrder α] {l : List α} {o n o' n' x : α}

/-- `n` is the next one after `o`, or `o` is the last and `n` the first. -/
def RingLink (l : List α) (o n : α) : Prop :=
  o ∈ l ∧ n ∈ l ∧ ((o < n ∧ ∀ s ∈ l, ¬ (o < s ∧ s < n)) ∨ ((∀ s ∈ l, s ≤ o) ∧ ∀ s ∈ l, n ≤ s))

instance (l : List α) (o n : α) : Decidable (RingLink l o n) := inferInstanceAs (Decidable (_ ∧ _ ∧ _))

/-- The element lies in the gap from `o` to `n`. -/
def InGap (o n x : α) : Prop := (o < x ∧ x < n) ∨ (n ≤ o ∧ (o < x ∨ x < n))

instance (o n x : α) : Decidable (InGap o n x) := inferInstanceAs (Decidable (_ ∨ _))

theorem RingLink.last (h : RingLink l o n) (hle : n ≤ o) : (∀ s ∈ l, s ≤ o) ∧ ∀ s ∈ l, n ≤ s := by
  rcases h.2.2 with ⟨hlt, _⟩ | hlast
  · exact absurd hlt hle.not_gt
  · exact hlast

theorem RingLink.not_mem (h : RingLink l o n) (hx : InGap o n x) : x ∉ l := by
  intro hmem
  rcases hx with ⟨hox, hxn⟩ | ⟨hle, hx⟩
  · rcases h.2.2 with ⟨_, hgap⟩ | ⟨hmax, _⟩
    · exact hgap x hmem ⟨hox, hxn⟩
    · exact absurd hox (hmax x hmem).not_gt
  · obtain ⟨hmax, hmin⟩ := h.last hle
    rcases hx with hox | hxn
    · exact absurd hox (hmax x hmem).not_gt
    · exact absurd hxn (hmin x hmem).not_gt

theorem RingLink.le_of_lt (h : RingLink l o n) {s : α} (hs : s ∈ l) (hos : o < s) : n ≤ s := by
  rcases h.2.2 with ⟨_, hgap⟩ | ⟨hmax, _⟩
  · exact not_lt.mp fun hsn => hgap s hs ⟨hos, hsn⟩
  · exact absurd hos (hmax s hs).not_gt

theorem RingLink.le_start (h : RingLink l o n) {s : α} (hs : s ∈ l) (hxn : x < n) (hsx : s ≤ x) : s ≤ o := by
  by_contra hos
  exact absurd (lt_of_le_of_lt hsx hxn) (h.le_of_lt hs (not_le.mp hos)).not_gt

theorem RingLink.eq_of_inGap (h : RingLink l o n) (h' : RingLink l o' n') (hx : InGap o n x)
    (hx' : InGap o' n' x) : o = o' ∧ n = n' := by
  rcases hx with ⟨hox, hxn⟩ | ⟨hle, hx⟩
  · rcases hx' with ⟨hox', hxn'⟩ | ⟨hle', hx'⟩
    · have hn : n ≤ n' := h.le_of_lt h'.2.1 (hox.trans hxn')
      have hn' : n' ≤ n := h'.le_of_lt h.2.1 (hox'.trans hxn)
      have ho : o ≤ o' := h'.le_start h.1 hxn' hox.le
      have ho' : o' ≤ o := h.le_start h'.1 hxn hox'.le
      exact ⟨le_antisymm ho ho', le_antisymm hn hn'⟩
    · obtain ⟨hmax, hmin⟩ := h'.last hle'
      rcases hx' with hox' | hxn'
      · exact absurd (hox'.trans hxn) (hmax n h.2.1).not_gt
      · exact absurd (hox.trans hxn') (hmin o h.1).not_gt
  · obtain ⟨hmax, hmin⟩ := h.last hle
    rcases hx' with ⟨hox', hxn'⟩ | ⟨hle', hx'⟩
    · rcases hx with hox | hxn
      · exact absurd (hox.trans hxn') (hmax n' h'.2.1).not_gt
      · exact absurd (hox'.trans hxn) (hmin o' h'.1).not_gt
    · obtain ⟨hmax', hmin'⟩ := h'.last hle'
      exact ⟨le_antisymm (hmax' o h.1) (hmax o' h'.1), le_antisymm (hmin n' h'.2.1) (hmin' n h.2.1)⟩

theorem RingLink.eq_of_self (h : RingLink l o o) {s : α} (hs : s ∈ l) : s = o := by
  obtain ⟨hmax, hmin⟩ := h.last le_rfl
  exact le_antisymm (hmax s hs) (hmin s hs)

theorem exists_link (ho : o ∈ l) : ∃ n, RingLink l o n := by
  by_cases hbehind : (l.toFinset.filter (o < ·)).Nonempty
  · obtain ⟨n, hn, hmin⟩ := Finset.exists_min_image _ id hbehind
    simp only [Finset.mem_filter, mem_toFinset, id] at hn hmin
    refine ⟨n, ho, hn.1, Or.inl ⟨hn.2, ?_⟩⟩
    rintro s hs ⟨hos, hsn⟩
    exact absurd hsn (hmin s ⟨hs, hos⟩).not_gt
  · -- It is the last one.
    obtain ⟨n, hn, hmin⟩ := l.toFinset.exists_min_image id ⟨o, mem_toFinset.mpr ho⟩
    simp only [mem_toFinset, id] at hn hmin
    refine ⟨n, ho, hn, Or.inr ⟨fun s hs => ?_, hmin⟩⟩
    by_contra hlt
    exact hbehind ⟨s, by simpa using ⟨hs, not_le.mp hlt⟩⟩

/-- **Every element outside the set lies in a gap.** -/
theorem exists_link_inGap (hl : l ≠ []) (hx : x ∉ l) : ∃ o n, RingLink l o n ∧ InGap o n x := by
  obtain ⟨e, he⟩ := exists_mem_of_ne_nil l hl
  -- The largest element before it, and the smallest behind it, where there are any.
  obtain ⟨top, htop, hmax⟩ := l.toFinset.exists_max_image id ⟨e, mem_toFinset.mpr he⟩
  obtain ⟨bottom, hbottom, hmin⟩ := l.toFinset.exists_min_image id ⟨e, mem_toFinset.mpr he⟩
  simp only [mem_toFinset, id] at htop hmax hbottom hmin
  have hlast : RingLink l top bottom := ⟨htop, hbottom, Or.inr ⟨hmax, hmin⟩⟩
  by_cases hbefore : (l.toFinset.filter (· < x)).Nonempty
  · by_cases hbehind : (l.toFinset.filter (x < ·)).Nonempty
    · obtain ⟨o, ho, homax⟩ := Finset.exists_max_image _ id hbefore
      obtain ⟨n, hn, hnmin⟩ := Finset.exists_min_image _ id hbehind
      simp only [Finset.mem_filter, mem_toFinset, id] at ho homax hn hnmin
      refine ⟨o, n, ⟨ho.1, hn.1, Or.inl ⟨ho.2.trans hn.2, ?_⟩⟩, Or.inl ⟨ho.2, hn.2⟩⟩
      rintro s hs ⟨hos, hsn⟩
      rcases lt_trichotomy s x with hsx | rfl | hxs
      · exact absurd hos (homax s ⟨hs, hsx⟩).not_gt
      · exact hx hs
      · exact absurd hsn (hnmin s ⟨hs, hxs⟩).not_gt
    · -- Nothing is behind it.
      have hxtop : top < x := by
        rcases lt_trichotomy top x with h | rfl | h
        · exact h
        · exact absurd htop hx
        · exact absurd ⟨top, by simpa using ⟨htop, h⟩⟩ hbehind
      exact ⟨top, bottom, hlast, Or.inr ⟨hmin top htop, Or.inl hxtop⟩⟩
  · have hxbottom : x < bottom := by
      rcases lt_trichotomy bottom x with h | rfl | h
      · exact absurd ⟨bottom, by simpa using ⟨hbottom, h⟩⟩ hbefore
      · exact absurd hbottom hx
      · exact h
    exact ⟨top, bottom, hlast, Or.inr ⟨hmin top htop, Or.inr hxbottom⟩⟩

end Dnsd.Lib
