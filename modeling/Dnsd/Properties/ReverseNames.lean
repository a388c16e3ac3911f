/-
# ReverseNames — from the reverse name of an embedded address to that of the IPv4 address.

An address is read off a name if and only if the name is its reverse name, up to letter case
(`ip6ArpaToAddr_eq_some`).
-/
import Dnsd.Recursor.Embedding

namespace Dnsd.Recursor

open Proto Lib List

variable {ls : List Label} {n : BitVec 4} {name : Name} {ns : List (BitVec 4)}

/-! ## Reading nibbles -/

theorem hexDigit_eq_some {b : UInt8} (hlow : lowerByte b = b) (h : hexDigit b = some n) :
    b = hexOctet n := by
  have hall : ∀ k < 256, lowerByte (UInt8.ofNat k) = UInt8.ofNat k → ∀ n,
      hexDigit (UInt8.ofNat k) = some n → UInt8.ofNat k = hexOctet n := by decide +kernel
  have hb := hall b.toNat b.toNat_lt
  rw [UInt8.ofNat_toNat] at hb
  exact hb hlow n h

theorem nibble_eq_some {l : Label} (hlow : l.map lowerByte = l) (h : nibble l = some n) :
    l = [hexOctet n] := by
  unfold nibble at h
  split at h
  · rename_i b
    rw [hexDigit_eq_some (List.cons.inj hlow).1 h]
  · nomatch h

theorem mapM_nibble_eq_some (hlow : ∀ l ∈ ls, l.map lowerByte = l) (h : ls.mapM nibble = some ns) :
    ls = ns.map fun n => [hexOctet n] := by
  induction ls generalizing ns with
  | nil =>
    cases h
    rfl
  | cons l ls ih =>
    rw [mapM_cons] at h
    obtain ⟨n, hn, h⟩ := Option.bind_eq_some_iff.mp h
    obtain ⟨ns', hns, h⟩ := Option.bind_eq_some_iff.mp h
    cases h
    have hl := nibble_eq_some (hlow l (.head _)) hn
    have hls := ih (fun l' hl' => hlow l' (.tail _ hl')) hns
    rw [map_cons, ← hl, ← hls]

theorem digits_ofDigits (hlen : ns.length = 32) :
    (List.range 32).map (digit 4 (ofDigits 128 ns.reverse)) = ns := by
  refine ext_getElem (by simp [hlen]) fun j hj hj' => ?_
  rw [getElem_map, getElem_range]
  refine digit_ofDigits (by decide) ?_ (by omega)
  rw [reverse_reverse, List.getElem?_eq_getElem hj']

/-! ## Reading names -/

theorem map_lowerByte_of_mem_toLowercase {l : Label} (h : l ∈ name.toLowercase.labels) :
    l.map lowerByte = l := by
  obtain ⟨l', _, rfl⟩ := mem_map.mp h
  simp [Name.lowerByte_idem]

theorem labels_eq_of_last (hlen : ls.length = 34) {x y : Label} (h32 : ls[32]? = some x)
    (h33 : ls[33]? = some y) : ls = ls.take 32 ++ [x, y] := by
  refine ext_getElem? fun i => ?_
  rcases Nat.lt_or_ge i 32 with hi | hi
  · rw [List.getElem?_append_left (by simp [hlen, hi]), List.getElem?_take_of_lt hi]
  · rw [List.getElem?_append_right (by simp [hlen, hi])]
    have hcut : (ls.take 32).length = 32 := by simp [hlen]
    rw [hcut]
    rcases Nat.lt_or_ge i 34 with hi' | hi'
    · have hcases : i = 32 ∨ i = 33 := by omega
      rcases hcases with rfl | rfl
      · exact h32
      · exact h33
    · rw [List.getElem?_eq_none (by omega), List.getElem?_eq_none (by simp; omega)]

theorem not_isWildcard_of_nibbles (h : name.labels.take 32 = ns.map fun n => [hexOctet n]) :
    name.isWildcard = false := by
  have hstar : ∀ n, [hexOctet n] ≠ Name.star := by decide
  refine beq_eq_false_iff_ne.mpr fun hhead => ?_
  have htake : (name.labels.take 32).head? = some Name.star := by
    rw [List.head?_take, if_neg (by decide), hhead]
  rw [h, List.head?_map] at htake
  obtain ⟨n, _, hn⟩ := Option.map_eq_some_iff.mp htake
  exact hstar n hn

/-- **An address is read off a name exactly if the name is its reverse name**, in whatever case. -/
theorem ip6ArpaToAddr_eq_some {a : BitVec 128} :
    ip6ArpaToAddr name = some a ↔ name.same (reverse6 a) = true := by
  constructor
  · intro h
    unfold ip6ArpaToAddr at h
    dsimp only at h
    obtain ⟨hnum, h⟩ := Option.ite_none_left_eq_some.mp h
    obtain ⟨hlast, h⟩ := Option.ite_none_left_eq_some.mp h
    obtain ⟨ns, hns, ha⟩ := Option.map_eq_some_iff.mp h
    obtain ⟨hnum, hlen⟩ := not_or.mp hnum
    obtain ⟨h32, h33⟩ := not_or.mp hlast
    rw [not_not] at hnum h32 h33
    have hnibbles := mapM_nibble_eq_some
      (fun l hl => map_lowerByte_of_mem_toLowercase (mem_of_mem_take hl)) hns
    have hcount : ns.length = 32 := by
      have := congrArg List.length hnibbles
      rw [length_take, length_map] at this
      omega
    -- The first label is a nibble, so the count of the labels leaves none out.
    have hexact : name.toLowercase.labels.length = 34 := by
      rw [← hnum]
      exact (Name.numLabels_of_not_isWildcard (not_isWildcard_of_nibbles hnibbles)).symm
    have hlabels := labels_eq_of_last hexact h32 h33
    have hdigits : (List.range 32).map (digit 4 a) = ns := by
      rw [← ha]
      exact digits_ofDigits hcount
    have heq : name.toLowercase.labels = (reverse6 a).labels := by
      rw [hlabels, hnibbles, ← hdigits, map_map]
      exact (reverse6_labels a).symm
    rw [Name.same_iff, reverse6_toLowercase]
    exact congrArg Name.mk heq
  · intro h
    have hlow := Name.same_iff.mp h
    rw [← ip6ArpaToAddr_reverse6 a]
    unfold ip6ArpaToAddr
    rw [hlow]

/-! ## Writing names -/

def decimalValue (l : Label) : Nat := l.foldl (fun acc b => 10 * acc + (b.toNat - 48)) 0

theorem decimalValue_decimal (o : BitVec 8) : decimalValue ((decimal o.toNat).map lowerByte) = o.toNat := by
  revert o
  decide +kernel

theorem reverse4_injective {v v' : BitVec 32} (h : (reverse4 v).same (reverse4 v') = true) : v = v' := by
  have hlabels : (reverse4 v).toLowercase.labels = (reverse4 v').toLowercase.labels :=
    congrArg Name.labels (Name.same_iff.mp h)
  have hvalue : ∀ i < 4, octet4 v (3 - i) = octet4 v' (3 - i) := by
    intro i hi
    have hlabel : (decimal (octet4 v (3 - i)).toNat).map lowerByte =
        (decimal (octet4 v' (3 - i)).toNat).map lowerByte := by
      have hget := congrArg (fun ls => ls[i]?) hlabels
      have hcases : i = 0 ∨ i = 1 ∨ i = 2 ∨ i = 3 := by omega
      rcases hcases with rfl | rfl | rfl | rfl <;> exact Option.some.inj hget
    have hnat := congrArg decimalValue hlabel
    rw [decimalValue_decimal, decimalValue_decimal] at hnat
    exact BitVec.eq_of_toNat_eq hnat
  rw [← fromOctets_octet4 v, ← fromOctets_octet4 v', hvalue 3 (by decide), hvalue 2 (by decide),
    hvalue 1 (by decide), hvalue 0 (by decide)]

/-! ## The rewriting -/

theorem rewritePtrQuestion_eq_some {p : Dns64Policy} {qname out : Name} :
    rewritePtrQuestion p qname = some out ↔
      ∃ a v4, qname.same (reverse6 a) = true ∧ extractV4 p.net a = some v4 ∧ out = reverse4 v4 := by
  unfold rewritePtrQuestion
  rw [Option.bind_eq_some_iff]
  constructor
  · rintro ⟨a, ha, h⟩
    obtain ⟨v4, hv4, hout⟩ := Option.map_eq_some_iff.mp h
    exact ⟨a, v4, ip6ArpaToAddr_eq_some.mp ha, hv4, hout.symm⟩
  · rintro ⟨a, v4, hname, hv4, rfl⟩
    refine ⟨a, ip6ArpaToAddr_eq_some.mpr hname, ?_⟩
    rw [hv4]
    rfl

/-- **The round trip of reverse names.**  The reverse name of an embedded address, in whatever case, is rewritten
to the reverse name of the IPv4 address; a name that is rewritten is the reverse name of an address inside the
prefix; different addresses have different names. -/
theorem reverse_names_round_trip (p : Dns64Policy) :
    (∀ v4 qname, qname.same (reverse6 (embedV4 p.net v4)) = true →
      rewritePtrQuestion p qname = some (reverse4 v4)) ∧
    (∀ qname out, rewritePtrQuestion p qname = some out →
      ∃ a, qname.same (reverse6 a) = true ∧ p.net.contains a = true) ∧
    ∀ v4 v4', v4 ≠ v4' → (reverse4 v4).same (reverse4 v4') = false := by
  refine ⟨fun v4 qname hname => ?_, fun qname out h => ?_, fun v4 v4' hne => ?_⟩
  · exact rewritePtrQuestion_eq_some.mpr ⟨_, v4, hname, extractV4_embedV4 p.valid, rfl⟩
  · obtain ⟨a, v4, hname, hv4, _⟩ := rewritePtrQuestion_eq_some.mp h
    exact ⟨a, hname, (Option.ite_none_right_eq_some.mp hv4).1⟩
  · exact Bool.eq_false_iff.mpr fun hsame => hne (reverse4_injective hsame)

def shoutedName : Name :=
  ⟨(reverse6 (embedV4 Dns64Policy.defaultWkp.net 0xc0000221)).labels.take 32 ++
    [[73, 80, 54], [65, 82, 80, 65]]⟩

theorem reverse_names_shouted :
    rewritePtrQuestion .defaultWkp shoutedName = some (inAddrArpa [33, 2, 0, 192]) :=
  (reverse_names_round_trip .defaultWkp).1 0xc0000221 shoutedName (by decide)

end Dnsd.Recursor
