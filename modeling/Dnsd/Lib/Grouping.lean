/-
# Grouping — collecting values under ordered keys.

The pattern `map.entry(key).or_default().push(value)` as a list of groups in key order.  A group keeps the key
it was opened with.  Under a total order up to its own equality the groups are the classes of the list
(`collect_eq_filter`, `groupAt_collect`).
-/
import Mathlib.Data.List.Basic

namespace Dnsd.Lib

open List

variable {κ ν : Type} {P : ν → Prop} {cmp : κ → κ → Ordering} {key : ν → κ} {m : List (κ × List ν)}
  {xs : List ν}

/-- Push `v` onto the group of `k`, opening it in order when there is none. -/
def pushAt (cmp : κ → κ → Ordering) (k : κ) (v : ν) : List (κ × List ν) → List (κ × List ν)
  | [] => [(k, [v])]
  | (k', vs) :: m =>
      match cmp k k' with
      | .lt => (k, [v]) :: (k', vs) :: m
      | .eq => (k', vs ++ [v]) :: m
      | .gt => (k', vs) :: pushAt cmp k v m

/-- The groups of `xs` under `key`, in key order. -/
def collect (cmp : κ → κ → Ordering) (key : ν → κ) (xs : List ν) : List (κ × List ν) :=
  xs.foldl (fun m x => pushAt cmp (key x) x m) []

/-- The first group whose key compares equal to `k`. -/
def groupAt (cmp : κ → κ → Ordering) (k : κ) (m : List (κ × List ν)) : List ν :=
  match m.find? (fun g => cmp k g.1 == .eq) with
  | some g => g.2
  | none => []

structure GroupOk (cmp : κ → κ → Ordering) (key : ν → κ) (P : ν → Prop) (g : κ × List ν) : Prop where
  opened : ∃ v vs, g.2 = v :: vs ∧ key v = g.1
  mem : ∀ v ∈ g.2, P v ∧ cmp (key v) g.1 = .eq

theorem pushAt_ok (hrefl : ∀ k, cmp k k = .eq) {x : ν} (hx : P x) (hm : ∀ g ∈ m, GroupOk cmp key P g) :
    ∀ g ∈ pushAt cmp (key x) x m, GroupOk cmp key P g := by
  have hnew : GroupOk cmp key P (key x, [x]) := by
    refine ⟨⟨x, [], rfl, rfl⟩, ?_⟩
    intro v hv
    rw [mem_singleton.mp hv]
    exact ⟨hx, hrefl _⟩
  induction m with
  | nil =>
    intro g hg
    rw [mem_singleton.mp hg]
    exact hnew
  | cons e m ih =>
    obtain ⟨k', vs⟩ := e
    have he := hm (k', vs) (.head _)
    have htail := fun g hg => hm g (.tail _ hg)
    intro g hg
    unfold pushAt at hg
    split at hg
    · rcases mem_cons.mp hg with rfl | hg
      · exact hnew
      · exact hm g hg
    · rename_i heq
      rcases mem_cons.mp hg with rfl | hg
      · obtain ⟨v, vs', hvs, hv⟩ := he.opened
        refine ⟨⟨v, vs' ++ [x], by simp [show vs = v :: vs' from hvs], hv⟩, ?_⟩
        intro w hw
        rcases mem_append.mp hw with hw | hw
        · exact he.mem w hw
        · rw [mem_singleton.mp hw]
          exact ⟨hx, heq⟩
      · exact htail g hg
    · rcases mem_cons.mp hg with rfl | hg
      · exact he
      · exact ih htail g hg

theorem foldl_pushAt_ok (hrefl : ∀ k, cmp k k = .eq) (xs : List ν) (hxs : ∀ x ∈ xs, P x)
    (m : List (κ × List ν)) (hm : ∀ g ∈ m, GroupOk cmp key P g) :
    ∀ g ∈ xs.foldl (fun m x => pushAt cmp (key x) x m) m, GroupOk cmp key P g := by
  induction xs generalizing m with
  | nil => exact hm
  | cons x xs ih =>
    exact ih (fun y hy => hxs y (.tail _ hy)) _
      (pushAt_ok hrefl (hxs x (.head _)) hm)

theorem mem_collect (hrefl : ∀ k, cmp k k = .eq) {g : κ × List ν} (h : g ∈ collect cmp key xs) :
    GroupOk cmp key (· ∈ xs) g :=
  foldl_pushAt_ok hrefl xs (fun _ hx => hx) [] (fun _ hg => nomatch hg) g h

theorem mem_groupAt {k : κ} {v : ν} (h : v ∈ groupAt cmp k m) : ∃ g ∈ m, v ∈ g.2 := by
  unfold groupAt at h
  split at h
  · rename_i g hg
    exact ⟨g, mem_of_find?_eq_some hg, h⟩
  · nomatch h

theorem pushAt_mem (cmp : κ → κ → Ordering) (k : κ) (v : ν) (m : List (κ × List ν)) :
    (∃ g ∈ pushAt cmp k v m, v ∈ g.2) ∧ ∀ w, (∃ g ∈ m, w ∈ g.2) → ∃ g ∈ pushAt cmp k v m, w ∈ g.2 := by
  induction m with
  | nil => exact ⟨⟨(k, [v]), by simp [pushAt], by simp⟩, fun w ⟨g, hg, _⟩ => nomatch hg⟩
  | cons e m ih =>
    obtain ⟨k', vs⟩ := e
    unfold pushAt
    split
    · refine ⟨⟨(k, [v]), by simp, by simp⟩, ?_⟩
      rintro w ⟨g, hg, hw⟩
      exact ⟨g, .tail _ hg, hw⟩
    · refine ⟨⟨(k', vs ++ [v]), by simp, by simp⟩, ?_⟩
      rintro w ⟨g, hg, hw⟩
      rcases mem_cons.mp hg with rfl | hg
      · exact ⟨(k', vs ++ [v]), by simp, mem_append_left _ hw⟩
      · exact ⟨g, .tail _ hg, hw⟩
    · obtain ⟨⟨g, hg, hv⟩, hrest⟩ := ih
      refine ⟨⟨g, .tail _ hg, hv⟩, ?_⟩
      rintro w ⟨g', hg', hw⟩
      rcases mem_cons.mp hg' with rfl | hg'
      · exact ⟨(k', vs), by simp, hw⟩
      · obtain ⟨g'', hg'', hw'⟩ := hrest w ⟨g', hg', hw⟩
        exact ⟨g'', .tail _ hg'', hw'⟩

theorem foldl_pushAt_mem (cmp : κ → κ → Ordering) (key : ν → κ) (xs : List ν)
    (m : List (κ × List ν)) {w : ν} (hw : w ∈ xs ∨ ∃ g ∈ m, w ∈ g.2) :
    ∃ g ∈ xs.foldl (fun m x => pushAt cmp (key x) x m) m, w ∈ g.2 := by
  induction xs generalizing m with
  | nil => exact hw.resolve_left nofun
  | cons x xs ih =>
    apply ih
    rcases hw with hw | hw
    · rcases mem_cons.mp hw with rfl | hw
      · exact Or.inr (pushAt_mem cmp (key w) w m).1
      · exact Or.inl hw
    · exact Or.inr ((pushAt_mem cmp (key x) x m).2 w hw)

theorem collect_covers (cmp : κ → κ → Ordering) (key : ν → κ) {x : ν} (h : x ∈ xs) :
    ∃ g ∈ collect cmp key xs, x ∈ g.2 :=
  foldl_pushAt_mem cmp key xs [] (Or.inl h)

theorem collect_eq_nil_iff (cmp : κ → κ → Ordering) (key : ν → κ) (xs : List ν) :
    collect cmp key xs = [] ↔ xs = [] := by
  constructor
  · intro h
    by_contra hne
    obtain ⟨x, hx⟩ := exists_mem_of_ne_nil xs hne
    obtain ⟨g, hg, -⟩ := collect_covers cmp key hx
    rw [h] at hg
    nomatch hg
  · rintro rfl
    rfl

/-! ## Groups under a total order -/

section

variable {cmp : κ → κ → Ordering} {key : ν → κ} {xs ys : List ν} {m : List (κ × List ν)} {g : κ × List ν}
  {k : κ}

def Ascending (cmp : κ → κ → Ordering) (m : List (κ × List ν)) : Prop :=
  m.Pairwise fun a b => cmp a.1 b.1 = .lt

structure Classes (cmp : κ → κ → Ordering) (key : ν → κ) (xs : List ν) (m : List (κ × List ν)) : Prop where
  ascending : Ascending cmp m
  members : ∀ g ∈ m, g.2 = xs.filter fun x => cmp (key x) g.1 == .eq
  covers : ∀ x ∈ xs, ∃ g ∈ m, x ∈ g.2

theorem Classes.key_eq {x : ν} (h : Classes cmp key xs m) (hg : g ∈ m) (hx : x ∈ g.2) :
    cmp (key x) g.1 = .eq := by
  rw [h.members g hg] at hx
  exact beq_iff_eq.mp (mem_filter.mp hx).2

variable [Std.TransCmp cmp]

theorem mem_pushAt {v : ν} (hm : Ascending cmp m) (hg : g ∈ pushAt cmp k v m) :
    (g = (k, [v]) ∧ ∀ e ∈ m, cmp k e.1 ≠ .eq) ∨
      (∃ e ∈ m, cmp k e.1 = .eq ∧ g = (e.1, e.2 ++ [v])) ∨ (g ∈ m ∧ cmp k g.1 ≠ .eq) := by
  induction m with
  | nil => exact Or.inl ⟨mem_singleton.mp hg, fun _ h => nomatch h⟩
  | cons e m ih =>
    obtain ⟨k', vs⟩ := e
    obtain ⟨hlt, hm⟩ := pairwise_cons.mp hm
    unfold pushAt at hg
    split at hg
    · rename_i hk
      have hall : ∀ e ∈ (k', vs) :: m, cmp k e.1 ≠ .eq := by
        intro e he
        have hke : cmp k e.1 = .lt := by
          rcases mem_cons.mp he with rfl | he
          · exact hk
          · exact Std.TransCmp.lt_trans hk (hlt e he)
        rw [hke]
        nofun
      rcases mem_cons.mp hg with rfl | hg
      · exact Or.inl ⟨rfl, hall⟩
      · exact Or.inr (Or.inr ⟨hg, hall g hg⟩)
    · rename_i hk
      rcases mem_cons.mp hg with rfl | hg
      · exact Or.inr (Or.inl ⟨(k', vs), .head _, hk, rfl⟩)
      · refine Or.inr (Or.inr ⟨.tail _ hg, ?_⟩)
        rw [Std.TransCmp.lt_of_eq_of_lt hk (hlt g hg)]
        nofun
    · rename_i hk
      have hne : cmp k k' ≠ .eq := by
        rw [hk]
        nofun
      rcases mem_cons.mp hg with rfl | hg
      · exact Or.inr (Or.inr ⟨.head _, hne⟩)
      · rcases ih hm hg with ⟨rfl, hall⟩ | ⟨e, he, heq, rfl⟩ | ⟨hg, hne'⟩
        · exact Or.inl ⟨rfl, forall_mem_cons.mpr ⟨hne, hall⟩⟩
        · exact Or.inr (Or.inl ⟨e, .tail _ he, heq, rfl⟩)
        · exact Or.inr (Or.inr ⟨.tail _ hg, hne'⟩)

theorem pushAt_ascending {v : ν} (hm : Ascending cmp m) : Ascending cmp (pushAt cmp k v m) := by
  induction m with
  | nil => exact pairwise_singleton ..
  | cons e m ih =>
    obtain ⟨k', vs⟩ := e
    obtain ⟨hlt, hm'⟩ := pairwise_cons.mp hm
    unfold pushAt
    split
    · rename_i hk
      refine pairwise_cons.mpr ⟨?_, hm⟩
      intro g hg
      rcases mem_cons.mp hg with rfl | hg
      · exact hk
      · exact Std.TransCmp.lt_trans hk (hlt g hg)
    · exact pairwise_cons.mpr ⟨hlt, hm'⟩
    · rename_i hk
      refine pairwise_cons.mpr ⟨?_, ih hm'⟩
      intro g hg
      rcases mem_pushAt hm' hg with ⟨rfl, _⟩ | ⟨e, he, _, rfl⟩ | ⟨hg, _⟩
      · exact Std.OrientedCmp.gt_iff_lt.mp hk
      · exact hlt e he
      · exact hlt g hg

theorem Classes.pushAt (h : Classes cmp key xs m) (x : ν) :
    Classes cmp key (xs ++ [x]) (pushAt cmp (key x) x m) := by
  refine ⟨pushAt_ascending h.ascending, ?_, ?_⟩
  · intro g hg
    rw [filter_append]
    rcases mem_pushAt h.ascending hg with ⟨rfl, hnew⟩ | ⟨e, he, heq, rfl⟩ | ⟨hg, hne⟩
    · -- Nothing before `x` had its key, for it would have a group.
      have hnil : xs.filter (fun y => cmp (key y) (key x) == .eq) = [] := by
        rw [filter_eq_nil_iff]
        intro y hy hyx
        obtain ⟨e, he, hye⟩ := h.covers y hy
        refine hnew e he ?_
        exact Std.TransCmp.eq_trans (Std.OrientedCmp.eq_comm.mp (beq_iff_eq.mp hyx)) (h.key_eq he hye)
      have hself : cmp (key x) (key x) = .eq := Std.ReflCmp.compare_self
      simp [hnil, hself]
    · rw [h.members e he]
      simp [heq]
    · rw [h.members g hg]
      simp [hne]
  · intro y hy
    rcases mem_append.mp hy with hy | hy
    · exact (pushAt_mem cmp (key x) x m).2 y (h.covers y hy)
    · rw [mem_singleton.mp hy]
      exact (pushAt_mem cmp (key x) x m).1

theorem collect_classes (key : ν → κ) (xs : List ν) : Classes cmp key xs (collect cmp key xs) := by
  suffices ∀ (zs ys : List ν) (m : List (κ × List ν)), Classes cmp key ys m →
      Classes cmp key (ys ++ zs) (zs.foldl (fun m x => pushAt cmp (key x) x m) m) from
    this xs [] [] ⟨List.Pairwise.nil, (fun _ h => nomatch h), (fun _ h => nomatch h)⟩
  intro zs
  induction zs with
  | nil =>
    intro ys m h
    rwa [append_nil]
  | cons z zs ih =>
    intro ys m h
    have hcons := ih _ _ (h.pushAt z)
    rwa [append_assoc] at hcons

theorem collect_eq_filter (hg : g ∈ collect cmp key xs) :
    g.2 = xs.filter fun x => cmp (key x) g.1 == .eq :=
  (collect_classes key xs).members g hg

theorem filter_key_congr {k' : κ} (h : cmp k k' = .eq) (xs : List ν) :
    xs.filter (fun x => cmp (key x) k == .eq) = xs.filter fun x => cmp (key x) k' == .eq := by
  refine filter_congr fun x _ => ?_
  rw [Std.TransCmp.congr_right h]

theorem groupAt_collect (k : κ) (xs : List ν) :
    groupAt cmp k (collect cmp key xs) = xs.filter fun x => cmp (key x) k == .eq := by
  have hc : Classes cmp key xs (collect cmp key xs) := collect_classes key xs
  unfold groupAt
  split
  · rename_i g hg
    have hk : cmp k g.1 = .eq := by simpa using List.find?_some hg
    rw [hc.members g (mem_of_find?_eq_some hg), filter_key_congr hk]
  · rename_i hnone
    symm
    rw [filter_eq_nil_iff]
    intro x hx hxk
    obtain ⟨g, hg, hxg⟩ := hc.covers x hx
    have hk : cmp k g.1 = .eq :=
      Std.TransCmp.eq_trans (Std.OrientedCmp.eq_comm.mp (beq_iff_eq.mp hxk)) (hc.key_eq hg hxg)
    have := List.find?_eq_none.mp hnone g hg
    simp [hk] at this

/-! ## The groups of two lists -/

theorem collect_perm (h : xs.Perm ys) (hg : g ∈ collect cmp key xs) :
    ∃ g' ∈ collect cmp key ys, cmp g.1 g'.1 = .eq ∧ g.2.Perm g'.2 := by
  have hx : Classes cmp key xs (collect cmp key xs) := collect_classes key xs
  have hy : Classes cmp key ys (collect cmp key ys) := collect_classes key ys
  obtain ⟨v, vs, hv, _⟩ := (mem_collect (fun _ => Std.ReflCmp.compare_self) hg).opened
  have hmem : v ∈ g.2 := by simp [hv]
  have hvx : v ∈ xs := by
    rw [hx.members g hg] at hmem
    exact (mem_filter.mp hmem).1
  obtain ⟨g', hg', hvg'⟩ := hy.covers v (h.mem_iff.mp hvx)
  have hk : cmp g.1 g'.1 = .eq :=
    Std.TransCmp.eq_trans (Std.OrientedCmp.eq_comm.mp (hx.key_eq hg hmem)) (hy.key_eq hg' hvg')
  refine ⟨g', hg', hk, ?_⟩
  rw [hx.members g hg, hy.members g' hg', filter_key_congr hk]
  exact h.filter _

def heads (m : List (κ × List ν)) : List (κ × Option ν) := m.map fun g => (g.1, g.2.head?)

theorem mem_heads_collect {v : Option ν} :
    (k, v) ∈ heads (collect cmp key xs) ↔
      ∃ x, v = some x ∧ key x = k ∧ xs.find? (fun y => cmp (key y) k == .eq) = some x := by
  have hhead : ∀ g ∈ collect cmp key xs, ∃ x, key x = g.1 ∧ g.2.head? = some x ∧
      xs.find? (fun y => cmp (key y) g.1 == .eq) = some x := by
    intro g hg
    obtain ⟨x, rest, hx, hk⟩ := (mem_collect (fun _ => Std.ReflCmp.compare_self) hg).opened
    refine ⟨x, hk, by simp [hx], ?_⟩
    rw [← List.head?_filter, ← collect_eq_filter hg, hx, List.head?_cons]
  constructor
  · intro h
    obtain ⟨g, hg, heq⟩ := mem_map.mp h
    cases heq
    obtain ⟨x, hk, hx, hfind⟩ := hhead g hg
    exact ⟨x, hx, hk, hfind⟩
  · rintro ⟨x, rfl, rfl, hfind⟩
    -- The group of `x` is opened by the first value of its class, which is `x`.
    obtain ⟨g, hg, hxg⟩ := collect_covers cmp key (mem_of_find?_eq_some hfind)
    have hkey : cmp (key x) g.1 = .eq := (collect_classes key xs).key_eq hg hxg
    obtain ⟨x', hk', hx', hfind'⟩ := hhead g hg
    rw [← List.head?_filter, ← filter_key_congr hkey, List.head?_filter, hfind] at hfind'
    cases hfind'
    exact mem_map.mpr ⟨g, hg, by rw [hk', hx']⟩

theorem heads_ascending (key : ν → κ) (xs : List ν) :
    (heads (collect cmp key xs)).Pairwise fun a b => cmp a.1 b.1 = .lt :=
  pairwise_map.mpr (collect_classes key xs).ascending

theorem heads_collect_congr
    (h : ∀ k, xs.find? (fun y => cmp (key y) k == .eq) = ys.find? fun y => cmp (key y) k == .eq) :
    heads (collect cmp key xs) = heads (collect cmp key ys) := by
  have hirrefl : ∀ a : κ × Option ν, ¬ cmp a.1 a.1 = .lt := by
    intro a ha
    have hself : cmp a.1 a.1 = .eq := Std.ReflCmp.compare_self
    rw [hself] at ha
    nomatch ha
  have hnodup : ∀ xs : List ν, (heads (collect cmp key xs)).Nodup := by
    intro xs
    refine (heads_ascending key xs).imp ?_
    rintro a b hab rfl
    exact hirrefl a hab
  have hperm : (heads (collect cmp key xs)).Perm (heads (collect cmp key ys)) := by
    rw [perm_ext_iff_of_nodup (hnodup xs) (hnodup ys)]
    rintro ⟨k, v⟩
    rw [mem_heads_collect, mem_heads_collect, h]
  refine hperm.eq_of_pairwise ?_ (heads_ascending key xs) (heads_ascending key ys)
  intro a b _ _ hab hba
  exact absurd (Std.TransCmp.lt_trans hab hba) (hirrefl a)

end

end Dnsd.Lib
