/-
# Cells — shared cells, written through their keys.

Several keys may point to one cell.  `storeAll` writes the value of each key to its cell, key by key.
-/
import Mathlib.Data.List.Induction

namespace Dnsd.Lib.Cells

open List

variable {κ ν π : Type}

def Writes (cellOf : κ → Option Nat) (val : κ → Option ν) (k : κ) (c : Nat) (v : ν) : Prop :=
  cellOf k = some c ∧ val k = some v

def store (cellOf : κ → Option Nat) (val : κ → Option ν) (h : List ν) (k : κ) : List ν :=
  match cellOf k, val k with
  | some c, some v => h.set c v
  | _, _ => h

def storeAll (cellOf : κ → Option Nat) (val : κ → Option ν) (h : List ν) (keys : List κ) : List ν :=
  keys.foldl (store cellOf val) h

variable {cellOf : κ → Option Nat} {val : κ → Option ν} {h : List ν} {keys : List κ} {k : κ} {c : Nat}
  {v : ν}

@[simp] theorem length_store : (store cellOf val h k).length = h.length := by
  unfold store
  split
  · exact length_set
  · rfl

@[simp] theorem length_storeAll : (storeAll cellOf val h keys).length = h.length := by
  induction keys generalizing h with
  | nil => rfl
  | cons k keys ih => exact ih.trans length_store

theorem getElem?_store_self (hw : Writes cellOf val k c v) (hlt : c < h.length) :
    (store cellOf val h k)[c]? = some v := by
  simp only [store, hw.1, hw.2]
  exact List.getElem?_set_self hlt

theorem getElem?_store_ne (hw : ∀ v, ¬ Writes cellOf val k c v) : (store cellOf val h k)[c]? = h[c]? := by
  unfold store
  split
  · rename_i c' v' hc hv
    have hne : c' ≠ c := fun heq => hw v' ⟨heq ▸ hc, hv⟩
    exact List.getElem?_set_ne hne
  · rfl

theorem storeAll_concat :
    storeAll cellOf val h (keys ++ [k]) = store cellOf val (storeAll cellOf val h keys) k := by
  simp [storeAll]

theorem getElem?_storeAll_of_mem (hk : k ∈ keys) (hw : Writes cellOf val k c v) (hlt : c < h.length) :
    ∃ k' ∈ keys, ∃ v', Writes cellOf val k' c v' ∧ (storeAll cellOf val h keys)[c]? = some v' := by
  -- From the end: the last key that writes the cell decides.
  induction keys using List.reverseRecOn with
  | nil => nomatch hk
  | append_singleton keys last ih =>
    rw [storeAll_concat]
    by_cases hlast : ∃ v', Writes cellOf val last c v'
    · obtain ⟨v', hv'⟩ := hlast
      exact ⟨last, by simp, v', hv', getElem?_store_self hv' (by simpa using hlt)⟩
    have hk' : k ∈ keys := by
      rcases mem_append.mp hk with hk | hk
      · exact hk
      · exact absurd ⟨v, mem_singleton.mp hk ▸ hw⟩ hlast
    obtain ⟨k', hmem, v', hv', hread⟩ := ih hk'
    exact ⟨k', mem_append_left _ hmem, v', hv', (getElem?_store_ne (not_exists.mp hlast)).trans hread⟩

/-- **The rule for shared cells.**  In every order of the writes each key reads its own value, as far as
`f` can see, exactly if keys that share a cell have the same value. -/
theorem reads_own_iff {f : ν → π}
    (hlt : ∀ k ∈ keys, ∀ c v, Writes cellOf val k c v → c < h.length) :
    (∀ keys', keys'.Perm keys → ∀ k ∈ keys, ∀ c v, Writes cellOf val k c v →
        (storeAll cellOf val h keys')[c]?.map f = some (f v)) ↔
      ∀ k ∈ keys, ∀ k' ∈ keys, ∀ c v v', Writes cellOf val k c v → Writes cellOf val k' c v' →
        f v = f v' := by
  constructor
  · intro hread k hk k' hk' c v v' hw hw'
    -- An order in which `k'` comes last.
    obtain ⟨as, bs, rfl⟩ := append_of_mem hk'
    have hperm : (as ++ bs ++ [k']).Perm (as ++ k' :: bs) := by
      rw [append_assoc]
      exact (perm_append_singleton k' bs).append_left as
    have hown := hread _ hperm k hk c v hw
    rw [storeAll_concat, getElem?_store_self hw' (by simpa using hlt k' hk' c v' hw')] at hown
    exact (Option.some.inj hown).symm
  · intro hagree keys' hperm k hk c v hw
    obtain ⟨k', hk', v', hw', hread⟩ := getElem?_storeAll_of_mem (hperm.mem_iff.mpr hk) hw (hlt k hk c v hw)
    rw [hread, Option.map_some, hagree k hk k' (hperm.mem_iff.mp hk') c v v' hw hw']

end Dnsd.Lib.Cells
