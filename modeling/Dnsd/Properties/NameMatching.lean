/-
# NameMatching — which name wins: enclosers, forwarders, local zones.

`closest_encloser` and `lookup_with_domain` find what they should.  `is_private_reverse` compares presentation
forms and takes a dot inside a label, written `\.`, for the end of a label (`private_reverse_hidden`);
`private_reverse_iff` says which names go wrong in this way, and that no others do.
-/
import Dnsd.Daemon.Config
import Dnsd.Recursor.DenialSpec
import Dnsd.Recursor.LocalZones

namespace Dnsd.Recursor

open Proto Daemon List

/-! ## The closest encloser -/

section

variable {a anc cand e e' q : Name} {cands cands' : List Name}

theorem trimTo_suffix (n : Name) (k : Nat) : (n.trimTo k).labels <:+ n.labels := by
  unfold Name.trimTo
  split
  · exact suffix_rfl
  · exact drop_suffix ..

/-- The `while` loop of `closest_encloser`, run to its end. -/
inductive Climbs (cand : Name) : Name → Option Name → Prop
  | top {anc : Name} : anc.numLabels = 0 → Climbs cand anc none
  | found {anc : Name} : anc.numLabels ≠ 0 → (anc.zoneOf cand || anc.same cand) = true → Climbs cand anc (some anc)
  | up {anc : Name} {r : Option Name} : anc.numLabels ≠ 0 → (anc.zoneOf cand || anc.same cand) ≠ true →
      Climbs cand (anc.trimTo (anc.numLabels - 1)) r → Climbs cand anc r

theorem climbs_enclosingAncestor {fuel : Nat} (h : anc.labels.length < fuel) :
    Climbs cand anc (enclosingAncestor cand fuel anc) := by
  induction fuel generalizing anc with
  | zero => exact absurd h (Nat.not_lt_zero _)
  | succ fuel ih =>
    unfold enclosingAncestor
    split
    · rename_i htop
      exact .top htop
    rename_i hlabels
    split
    · rename_i hfound
      exact .found hlabels hfound
    · rename_i hnot
      refine .up hlabels hnot (ih ?_)
      have hle := anc.numLabels_le
      rw [← Name.length_path, Name.path_trimTo, length_take]
      omega

theorem Climbs.suffix {r : Option Name} (h : Climbs cand anc r) (hr : r = some a) : a.labels <:+ anc.labels := by
  induction h with
  | top _ => cases hr
  | found _ _ =>
    cases hr
    exact suffix_rfl
  | up _ _ _ ih => exact (ih hr).trans (trimTo_suffix ..)

theorem closestEncloser_suffix (q : Name) (cands : List Name) : (closestEncloser q cands).labels <:+ q.labels := by
  suffices ∀ best : Name, best.labels <:+ q.labels → (cands.foldl (encloserStep q) best).labels <:+ q.labels from
    this Name.root nil_suffix
  induction cands with
  | nil => exact fun _ hbest => hbest
  | cons cand cands ih =>
    intro best hbest
    refine ih _ ?_
    unfold encloserStep
    split
    · rename_i anc hanc
      split
      · exact (climbs_enclosingAncestor (Nat.lt_succ_self _)).suffix hanc
      · exact hbest
    · exact hbest

/-- An ancestor of `q` or `q` itself, and of a candidate as well unless it is the root, and no other one like that
has more labels. -/
structure IsClosest (q : Name) (cands : List Name) (e : Name) : Prop where
  above : e.labels <:+ q.labels
  common : e = Name.root ∨ ∃ cand ∈ cands, e.zoneOf cand = true
  most : ∀ a : Name, a.zoneOf q = true → (∃ cand ∈ cands, a.zoneOf cand = true) →
    a.labels.length ≤ e.labels.length

theorem IsClosest.length_le (h : IsClosest q cands e) (h' : IsClosest q cands e') :
    e.labels.length ≤ e'.labels.length := by
  rcases h.common with rfl | hcommon
  · exact Nat.zero_le _
  · refine h'.most e (Name.zoneOf_iff.mpr ?_) hcommon
    exact h.above.map _

theorem IsClosest.unique (h : IsClosest q cands e) (h' : IsClosest q cands e') : e = e' := by
  have hsuf := suffix_of_suffix_length_le h.above h'.above (h.length_le h')
  exact congrArg Name.mk (hsuf.eq_of_length_le (h'.length_le h))

theorem isClosest_closestEncloser (hq : NoStar q) : IsClosest q cands (closestEncloser q cands) where
  above := closestEncloser_suffix q cands
  common := by
    rcases closestEncloser_common q cands with hroot | ⟨cand, hcand, hpath⟩
    · exact Or.inl hroot
    · exact Or.inr ⟨cand, hcand, Name.zoneOf_iff_path.mpr hpath⟩
  most a ha := by
    rintro ⟨cand, hcand, hcommon⟩
    have hpath := Name.zoneOf_iff_path.mp ha
    refine closestEncloser_longest hq hcand (Name.zoneOf_length ha) ?_
    rw [← Name.length_path, ← prefix_iff_eq_take.mp hpath]
    exact Name.zoneOf_iff_path.mp hcommon

/-- **The closest encloser.**  For every name without a label `*` and every list of candidates each climb ends, the
result is the longest ancestor that the name shares with a candidate, and the order of the candidates does not
matter. -/
theorem closest_encloser_found (q : Name) (cands : List Name) (hq : NoStar q) :
    (∀ cand ∈ cands, Climbs cand.toLowercase q (enclosingAncestor cand.toLowercase (q.labels.length + 1) q)) ∧
      IsClosest q cands (closestEncloser q cands) ∧
      ∀ cands', cands'.Perm cands → closestEncloser q cands' = closestEncloser q cands := by
  refine ⟨fun _ _ => climbs_enclosingAncestor (Nat.lt_succ_self _), isClosest_closestEncloser hq, ?_⟩
  intro cands' hperm
  have h' : IsClosest q cands' (closestEncloser q cands') := isClosest_closestEncloser hq
  have h : IsClosest q cands (closestEncloser q cands') :=
    ⟨h'.above, by simpa only [hperm.mem_iff] using h'.common, by simpa only [hperm.mem_iff] using h'.most⟩
  exact h.unique (isClosest_closestEncloser hq)

theorem closest_encloser_found_sibling :
    NoStar ⟨[[97], [98], [99]]⟩ ∧ closestEncloser ⟨[[97], [98], [99]]⟩ [⟨[[120], [99]]⟩, ⟨[[100], [66], [99]]⟩] =
      closestEncloser ⟨[[97], [98], [99]]⟩ [⟨[[100], [66], [99]]⟩, ⟨[[120], [99]]⟩] :=
  have hq : NoStar ⟨[[97], [98], [99]]⟩ := by simp [NoStar, Name.star]
  ⟨hq, ((closest_encloser_found _ _ hq).2.2 _ (List.Perm.swap ..)).symm⟩

end

/-! ## Forwarders -/

section

variable {L : Library} {configs : List Forwarder} {d n : Name} {e : ForwarderEntry} {es : List ForwarderEntry}
  {table : ForwarderTable}

theorem isSuffix_iff (hd : NoStar d) : isSuffix n d = true ↔ d.zoneOf n = true := by
  unfold isSuffix
  split
  · rename_i hlt
    refine ⟨nofun, fun hzone => ?_⟩
    have hcount := n.length_le_numLabels
    rw [hd.numLabels] at hlt
    have heq := Name.numLabels_congr (Name.same_of_zoneOf_of_length hzone (by omega))
    rw [hd.numLabels] at heq
    omega
  · rfl

theorem find?_insertionSort (d : Name) :
    ((es.insertionSort Longer).find? fun e => e.domain = d) = es.find? fun e => e.domain = d := by
  have hsub : (es.filter fun e => e.domain = d).Sublist (es.insertionSort Longer) := by
    refine sublist_insertionSort ?_ filter_sublist
    refine pairwise_of_forall_mem_list fun a ha b hb => ?_
    simp only [mem_filter, decide_eq_true_eq] at ha hb
    rw [Longer, ha.2, hb.2]
  have hlen := ((perm_insertionSort Longer es).filter fun e => e.domain = d).length_eq
  have hfilter := (hsub.filter fun e => e.domain = d).eq_of_length (by simpa using hlen.symm)
  simp only [filter_filter, Bool.and_self] at hfilter
  rw [← List.head?_filter, ← List.head?_filter, hfilter]

theorem newEntries_ok (h : ForwarderTable.newEntries L configs = .ok es) :
    List.Forall₂ (fun c e => ForwarderEntry.new L c = .ok e) configs es := by
  induction configs generalizing es with
  | nil =>
    cases h
    exact .nil
  | cons c cs ih =>
    unfold ForwarderTable.newEntries at h
    cases he : ForwarderEntry.new L c with
    | error err =>
      rw [he] at h
      cases h
    | ok e =>
      rw [he] at h
      cases hes : ForwarderTable.newEntries L cs with
      | error err =>
        rw [hes] at h
        cases h
      | ok es' =>
        rw [hes] at h
        cases h
        exact .cons he (ih hes)

/-- No configured domain has a label `*`. -/
def Unstarred (L : Library) (configs : List Forwarder) : Prop :=
  ∀ c ∈ configs, ∀ d, L.name c.domain = some d → NoStar d

theorem noStar_entries (hstar : Unstarred L configs)
    (h : List.Forall₂ (fun c e => ForwarderEntry.new L c = .ok e) configs es) : ∀ e ∈ es, NoStar e.domain := by
  induction h with
  | nil => exact fun _ he => absurd he not_mem_nil
  | @cons c e cs es hnew _ ih =>
    obtain ⟨hc, hcs⟩ := forall_mem_cons.mp hstar
    refine forall_mem_cons.mpr ⟨?_, ih hcs⟩
    unfold ForwarderEntry.new at hnew
    split at hnew
    · cases hnew
    rename_i d hd
    split at hnew
    · cases hnew
    · cases hnew
      exact (hc d hd).toLowercase

/-- **The forwarder of a name**, for every accepted configuration without a label `*` in its domains: there is none
exactly if no domain is a suffix of the name, and otherwise it is the first one in the configuration whose domain
has the most labels among the suffixes. -/
theorem forwarder_selected (L : Library) (configs : List Forwarder) (table : ForwarderTable) (q : Name)
    (h : ForwarderTable.new L configs = .ok table) (hstar : Unstarred L configs) :
    ∃ es, List.Forall₂ (fun c e => ForwarderEntry.new L c = .ok e) configs es ∧
      (table.lookupWithDomain q = none ↔ ∀ e ∈ es, e.domain.zoneOf q = false) ∧
      ∀ e, table.lookupWithDomain q = some e →
        e.domain.zoneOf q = true ∧ (es.find? fun e' => e'.domain = e.domain) = some e ∧
          ∀ e' ∈ es, e'.domain.zoneOf q = true → e'.domain.labels.length ≤ e.domain.labels.length := by
  unfold ForwarderTable.new at h
  cases hes : ForwarderTable.newEntries L configs with
  | error err =>
    rw [hes] at h
    cases h
  | ok es =>
    rw [hes] at h
    cases h
    have hnew := newEntries_ok hes
    have hnostar := noStar_entries hstar hnew
    have hmatch : ∀ e ∈ es, isSuffix q.toLowercase e.domain = e.domain.zoneOf q := fun e he => by
      rw [Bool.eq_iff_iff, isSuffix_iff (hnostar e he), Name.zoneOf_toLowercase_right]
    refine ⟨es, hnew, ?_, fun e he => ?_⟩
    · unfold ForwarderTable.lookupWithDomain
      rw [List.find?_eq_none]
      simp only [mem_insertionSort, Bool.not_eq_true]
      exact forall₂_congr fun e he => by rw [hmatch e he]
    have hfirst := ForwarderTable.find?_domain he
    rw [find?_insertionSort] at hfirst
    have hmem := mem_of_find?_eq_some hfirst
    obtain ⟨hfound, before, after, hsplit, hbefore⟩ := List.find?_eq_some_iff_append.mp he
    rw [hmatch e hmem] at hfound
    refine ⟨hfound, hfirst, fun e' he' hzone => ?_⟩
    -- An entry that comes first in the table does not match, and one that comes later is not longer.
    have hsorted := pairwise_insertionSort Longer es
    have hin : e' ∈ es.insertionSort Longer := (mem_insertionSort Longer).mpr he'
    change es.insertionSort Longer = _ at hsplit
    rw [hsplit] at hsorted hin
    rcases mem_append.mp hin with hlow | hhigh
    · have hno := hbefore e' hlow
      rw [hmatch e' he', hzone] at hno
      cases hno
    · rcases mem_cons.mp hhigh with rfl | hlater
      · exact Nat.le_refl _
      · have hlonger := rel_of_pairwise_cons (pairwise_append.mp hsorted).2.1 hlater
        rwa [Longer, (hnostar e hmem).numLabels, (hnostar e' he').numLabels] at hlonger

def twoNames : Library where
  name s := if s = "z" then some ⟨[[122]]⟩ else some ⟨[[65], [122]]⟩
  dns64 _ := none
  wellKnown := ⟨⟨0, 96⟩, [], validPrefixLength_96⟩
  ddrRecords _ _ _ := []

theorem forwarder_selected_longer : ∃ table e,
    ForwarderTable.new twoNames [⟨"z", []⟩, ⟨"A.z.", []⟩] = .ok table ∧
      Unstarred twoNames [⟨"z", []⟩, ⟨"A.z.", []⟩] ∧
      table.lookupWithDomain ⟨[[120], [97], [122]]⟩ = some e ∧ e.domain = ⟨[[97], [122]]⟩ ∧
      e.domain.zoneOf ⟨[[120], [97], [122]]⟩ = true := by
  obtain ⟨table, e, htable, he, hdomain⟩ : ∃ table e,
      ForwarderTable.new twoNames [⟨"z", []⟩, ⟨"A.z.", []⟩] = .ok table ∧
        table.lookupWithDomain ⟨[[120], [97], [122]]⟩ = some e ∧ e.domain = ⟨[[97], [122]]⟩ :=
    ⟨_, _, rfl, rfl, rfl⟩
  have hstar : Unstarred twoNames [⟨"z", []⟩, ⟨"A.z.", []⟩] := by
    simp [Unstarred, twoNames, NoStar, Name.star]
  obtain ⟨es, -, -, hselected⟩ := forwarder_selected twoNames _ table ⟨[[120], [97], [122]]⟩ htable hstar
  exact ⟨table, e, htable, hstar, he, hdomain, (hselected e he).1⟩

end

/-! ## Local zones -/

section

variable {f : Bool} {l z : Label} {qs zs : List Label} {s t w : List UInt8}

def escaped (f : Bool) : Label → List UInt8
  | [] => []
  | b :: bs => escapeOctet f b ++ escaped false bs

theorem escaped_false (l : Label) : escaped false l = l.flatMap (escapeOctet false) := by
  induction l with
  | nil => rfl
  | cons b bs ih => rw [flatMap_cons, ← ih, escaped]

theorem labelAscii_eq (l : Label) : labelAscii l = escaped true l := by
  cases l with
  | nil => rfl
  | cons b bs => rw [labelAscii, escaped, escaped_false]

theorem escapeOctet_bare : ∀ (b : UInt8) (f : Bool), 92 ∉ escapeOctet f b → escapeOctet f b = [b] :=
  forall_octet (by decide +kernel)

theorem escapeOctet_dot : ∀ (b : UInt8) (f : Bool), 46 ∈ escapeOctet f b → b = 46 :=
  forall_octet (by decide +kernel)

theorem escaped_bare (h : 92 ∉ escaped f l) : escaped f l = l := by
  induction l generalizing f with
  | nil => rfl
  | cons b bs ih =>
    rw [escaped, mem_append, not_or] at h
    rw [escaped, escapeOctet_bare b f h.1, ih h.2]
    rfl

theorem escaped_dot (h : escaped f l = w ++ 46 :: z) (hz : 92 ∉ z) :
    (∃ x, l = x ++ 46 :: z) ∧ ∃ w', w = w' ++ [92] := by
  induction l generalizing f w with
  | nil => exact absurd h.symm (by simp [escaped])
  | cons b bs ih =>
    rcases append_eq_append_iff.mp h with ⟨more, rfl, hrest⟩ | ⟨more, hfirst, hrest⟩
    · obtain ⟨⟨x, rfl⟩, w', rfl⟩ := ih hrest
      exact ⟨⟨b :: x, rfl⟩, escapeOctet f b ++ w', (append_assoc ..).symm⟩
    cases more with
    | nil =>
      obtain ⟨-, w', hw'⟩ := ih (w := []) hrest.symm
      exact absurd hw' (by simp)
    | cons c more =>
      obtain ⟨rfl, rfl⟩ : c = 46 ∧ z = more ++ escaped false bs := by simpa [eq_comm] using hrest
      obtain rfl := escapeOctet_dot b f (by rw [hfirst]; simp)
      -- The form of a dot has two octets, so `w` is the first of them and `more` is empty.
      have hdot : escapeOctet f 46 = [92, 46] := by cases f <;> rfl
      rcases w with _ | ⟨x, w⟩
      · exact absurd (List.cons.inj hfirst).1 (by decide)
      obtain rfl := (List.cons.inj hfirst).1
      have htail : [46] = w ++ 46 :: more := (List.cons.inj hfirst).2
      have hlen := congrArg List.length htail
      simp only [length_append, length_cons, length_nil] at hlen
      obtain rfl : w = [] := length_eq_zero_iff.mp (by omega)
      obtain rfl : more = [] := length_eq_zero_iff.mp (by omega)
      exact ⟨⟨[], by rw [nil_append, escaped_bare hz]; rfl⟩, [], rfl⟩

structure Bare (l : Label) : Prop where
  ne_nil : l ≠ []
  noDot : 46 ∉ l
  noBackslash : 92 ∉ l
  first : escaped true l = l
  later : escaped false l = l

def dotted (labels : List Label) : List UInt8 := labels.flatMap fun l => escaped true l ++ [46]

theorem dotted_append (ls ls' : List Label) : dotted (ls ++ ls') = dotted ls ++ dotted ls' := flatMap_append

theorem dotted_concat (ls : List Label) (l : Label) : dotted (ls ++ [l]) = dotted ls ++ escaped true l ++ [46] := by
  simp [dotted]

def EndsAtDot (s : List UInt8) : Prop := s = [] ∨ ∃ s', s = s' ++ [46]

theorem EndsAtDot.dotted (ht : EndsAtDot t) (ls : List Label) : EndsAtDot (t ++ dotted ls) := by
  rcases eq_nil_or_concat' ls with rfl | ⟨ls, l, rfl⟩
  · rwa [show Recursor.dotted [] = [] from rfl, append_nil]
  · refine Or.inr ⟨t ++ (Recursor.dotted ls ++ escaped true l), ?_⟩
    simp only [dotted_concat, append_assoc]

theorem EndsAtDot.tail (h : EndsAtDot (s ++ t)) : EndsAtDot t := by
  rcases eq_nil_or_concat' t with rfl | ⟨t, b, rfl⟩
  · exact Or.inl rfl
  rcases h with h | ⟨s', h⟩
  · exact absurd h (by simp)
  · rw [← append_assoc] at h
    obtain rfl := singleton_inj.mp (append_inj_right' h rfl)
    exact Or.inr ⟨t, rfl⟩

/-- The first label of the zone is the end of a label of the name, behind a dot. -/
def Hidden (zs qs : List Label) : Prop :=
  ∃ before x z rest, zs = z :: rest ∧ qs = before ++ (x ++ 46 :: z) :: rest

theorem last_label {q : Label} (hz : Bare z) (hs : EndsAtDot s) (h : dotted qs ++ escaped true q = s ++ z) :
    (q = z ∧ dotted qs = s) ∨ ∃ x w, q = x ++ 46 :: z ∧ s = dotted qs ++ w ++ [92, 46] := by
  rcases append_eq_append_iff.mp h with ⟨more, rfl, hlabel⟩ | ⟨more, heq, rfl⟩
  · rcases hs.tail with rfl | ⟨more, rfl⟩
    · rw [nil_append] at hlabel
      refine Or.inl ⟨?_, (append_nil _).symm⟩
      rw [← hlabel]
      exact (escaped_bare (hlabel ▸ hz.noBackslash)).symm
    · rw [append_assoc] at hlabel
      obtain ⟨⟨x, hx⟩, w, rfl⟩ := escaped_dot hlabel hz.noBackslash
      exact Or.inr ⟨x, w, hx, by simp⟩
  · -- The zone's label would have a dot.
    have hdots : EndsAtDot (s ++ more) := heq ▸ EndsAtDot.dotted (Or.inl rfl) qs
    rcases hdots.tail with rfl | ⟨more, rfl⟩
    · rw [append_nil] at heq
      exact Or.inl ⟨(escaped_bare hz.noBackslash).symm, heq⟩
    · exact absurd (by simp) hz.noDot

theorem suffix_or_hidden (hz : ∀ l ∈ zs, Bare l) (h : dotted qs = t ++ dotted zs) (ht : EndsAtDot t) :
    zs <:+ qs ∨ Hidden zs qs := by
  induction zs using List.reverseRecOn generalizing qs with
  | nil => exact Or.inl nil_suffix
  | append_singleton zs z ih =>
    obtain ⟨hzs, hlast⟩ := forall_mem_append.mp hz
    have hbare := hlast z (mem_singleton_self z)
    rcases eq_nil_or_concat' qs with rfl | ⟨qs, q, rfl⟩
    · exact absurd (congrArg List.length h) (by simp [dotted])
    rw [dotted_concat, dotted_concat, hbare.first, ← append_assoc, ← append_assoc] at h
    rcases last_label hbare (ht.dotted zs) (append_cancel_right h) with ⟨rfl, hrest⟩ | ⟨x, w, rfl, hrest⟩
    · rcases ih hzs hrest with ⟨before, rfl⟩ | ⟨before, x, z', rest, rfl, rfl⟩
      · exact Or.inl ⟨before, (append_assoc ..).symm⟩
      · exact Or.inr ⟨before, x, z', rest ++ [q], rfl, by simp⟩
    rcases eq_nil_or_concat' zs with rfl | ⟨zs, z', rfl⟩
    · exact Or.inr ⟨qs, x, z, [], rfl, rfl⟩
    -- Before its last label the zone has the end of a label and a dot, the name a backslash and a dot.
    have hbare' := hzs z' (by simp)
    obtain ⟨z', b, rfl⟩ := (eq_nil_or_concat' z').resolve_left hbare'.ne_nil
    rw [dotted_concat, hbare'.first] at hrest
    have hsame : (t ++ dotted zs ++ z' ++ [b]) ++ [46] = (dotted qs ++ w ++ [92]) ++ [46] := by simpa using hrest
    obtain rfl := singleton_inj.mp (append_inj_right' (append_cancel_right hsame) rfl)
    exact absurd (by simp) hbare'.noBackslash

theorem escaped_append (f : Bool) (x y : Label) (b : UInt8) :
    ∃ w, escaped f (x ++ b :: y) = w ++ (escapeOctet (f && x.isEmpty) b ++ escaped false y) := by
  induction x generalizing f with
  | nil => exact ⟨[], by simp [escaped]⟩
  | cons c x ih =>
    obtain ⟨w, hw⟩ := ih false
    refine ⟨escapeOctet f c ++ w, ?_⟩
    simp [escaped, hw]

theorem endsAtDot_iff : endsAtDot s w = true ↔ ∃ t, s = t ++ w ∧ EndsAtDot t := by
  unfold endsAtDot EndsAtDot
  simp only [Bool.or_eq_true, beq_iff_eq, Bool.and_eq_true, decide_eq_true_eq, isSuffixOf_iff_suffix]
  constructor
  · rintro (rfl | ⟨⟨-, t, rfl⟩, hlast⟩)
    · exact ⟨[], rfl, Or.inl rfl⟩
    · rw [length_append, Nat.add_sub_cancel, take_left] at hlast
      exact ⟨t, rfl, Or.inr (List.getLast?_eq_some_iff.mp hlast)⟩
  · rintro ⟨t, rfl, rfl | ⟨t, rfl⟩⟩
    · exact Or.inl rfl
    · refine Or.inr ⟨⟨by simp; omega, suffix_append ..⟩, ?_⟩
      rw [length_append, Nat.add_sub_cancel, take_left]
      simp

theorem endsAtDot_dotted (hz : ∀ l ∈ zs, Bare l) :
    endsAtDot (dotted qs) (dotted zs) = true ↔ zs <:+ qs ∨ Hidden zs qs := by
  rw [endsAtDot_iff]
  constructor
  · rintro ⟨t, h, ht⟩
    exact suffix_or_hidden hz h ht
  · rintro (⟨before, rfl⟩ | ⟨before, x, z, rest, rfl, rfl⟩)
    · exact ⟨dotted before, dotted_append .., EndsAtDot.dotted (Or.inl rfl) before⟩
    · obtain ⟨w, hw⟩ := escaped_append true x z 46
      have hdot : escapeOctet (true && x.isEmpty) 46 = [92, 46] := by cases x <;> rfl
      obtain ⟨hbare, -⟩ := forall_mem_cons.mp hz
      refine ⟨dotted before ++ w ++ [92, 46], ?_, Or.inr ⟨dotted before ++ w ++ [92], by simp⟩⟩
      rw [hdot, hbare.later] at hw
      simp [dotted, hw, hbare.first]

end

/-- The zones that `is_private_reverse` knows. -/
def localZones : List Name := privateIpv4Arpa ++ privateIpv6Arpa ++ specialUseTlds

theorem localZones_bare : ∀ z ∈ localZones, z.labels ≠ [] ∧ z.toLowercase = z ∧ ∀ l ∈ z.labels, Bare l := by
  have hall : ∀ z ∈ localZones, z.labels ≠ [] ∧ z.toLowercase = z ∧ ∀ l ∈ z.labels,
      l ≠ [] ∧ 46 ∉ l ∧ 92 ∉ l ∧ escaped true l = l ∧ escaped false l = l := by decide +kernel
  intro z hz
  obtain ⟨hne, hlower, hlabels⟩ := hall z hz
  refine ⟨hne, hlower, fun l hl => ?_⟩
  obtain ⟨hnil, hdot, hback, hfirst, hlater⟩ := hlabels l hl
  exact ⟨hnil, hdot, hback, hfirst, hlater⟩

theorem toAscii_eq {n : Name} (h : n.labels ≠ []) : toAscii n = dotted n.labels := by
  unfold toAscii dotted
  rw [if_neg (by simpa using h)]
  simp only [labelAscii_eq]

theorem isPrivateReverse_iff (q : Name) : isPrivateReverse q = true ↔
    ∃ z ∈ localZones, z.zoneOf q = true ∨ Hidden z.labels q.toLowercase.labels := by
  unfold isPrivateReverse
  rw [any_eq_true]
  refine exists_congr fun z => and_congr_right fun hz => ?_
  obtain ⟨hne, hlower, hbare⟩ := localZones_bare z hz
  rw [toAscii_eq hne, Name.zoneOf_iff, hlower]
  by_cases hq : q.toLowercase.labels = []
  · -- The root is written as a single dot, and no zone is that short.
    have hroot : toAscii q.toLowercase = [46] := if_pos (by rw [hq]; rfl)
    obtain ⟨zs, l, hzs⟩ := (eq_nil_or_concat' z.labels).resolve_left hne
    have hpos := length_pos_of_ne_nil (hbare l (by rw [hzs]; simp)).ne_nil
    have hfirst := (hbare l (by rw [hzs]; simp)).first
    rw [hroot, hq, suffix_nil, endsAtDot_iff, hzs, dotted_concat, hfirst]
    refine iff_of_false ?_ (by simp [Hidden])
    rintro ⟨t, ht, -⟩
    have hlen := congrArg List.length ht
    simp only [length_append, length_singleton] at hlen
    omega
  · rw [toAscii_eq hq, endsAtDot_dotted hbare]

def IsLocal (q : Name) : Prop := ∃ z ∈ localZones, z.zoneOf q = true

/-- **Names below a local zone.**  For every name, with any octets in its labels: `is_private_reverse` says whether
it is at or below one of the zones, exactly if it is so or no label of it ends in a dot and the first label of a
zone, with the rest of that zone behind it. -/
theorem private_reverse_iff (q : Name) : (isPrivateReverse q = true ↔ IsLocal q) ↔
    IsLocal q ∨ ∀ z ∈ localZones, ¬ Hidden z.labels q.toLowercase.labels := by
  rw [isPrivateReverse_iff, IsLocal]
  constructor
  · intro h
    by_cases hq : ∃ z ∈ localZones, z.zoneOf q = true
    · exact Or.inl hq
    · exact Or.inr fun z hz hhidden => hq (h.mp ⟨z, hz, Or.inr hhidden⟩)
  · rintro (⟨z, hz, hzone⟩ | hnone)
    · exact iff_of_true ⟨z, hz, Or.inl hzone⟩ ⟨z, hz, hzone⟩
    · refine exists_congr fun z => and_congr_right fun hz => or_iff_left (hnone z hz)

theorem private_reverse_hidden :
    isPrivateReverse ⟨[[49, 46, 49, 48], inAddr, arpa]⟩ = true ∧
      ∀ z ∈ localZones, z.zoneOf ⟨[[49, 46, 49, 48], inAddr, arpa]⟩ = false := by
  decide +kernel

end Dnsd.Recursor
