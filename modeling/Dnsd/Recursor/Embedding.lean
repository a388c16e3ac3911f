/-
# Embedding — IPv4 addresses inside a NAT64 prefix, and their reverse names.

`embed_v4` writes the octets of an IPv4 address into an IPv6 address, `extract_v4` reads them back.  The address
comes back for every accepted length (`extractV4_embedV4`).
-/
import Dnsd.Lib.BitDigits
import Dnsd.Recursor.Dns64

namespace Dnsd.Recursor

open Proto Lib List

variable {a : BitVec 128} {i : Nat} {n : Ipv6Net} {v4 : BitVec 32}

/-! ## Octets -/

theorem octet6_eq_digit (hi : i < 16) : octet6 a i = digit 8 a (15 - i) := by
  have hpos : 120 - 8 * i = 8 * (15 - i) := by omega
  rw [octet6, digit, hpos]

theorem octet6_fromOctets {os : List (BitVec 8)} {o : BitVec 8} (hlen : os.length = 16)
    (ho : os[i]? = some o) : octet6 (fromOctets os) i = o := by
  have hi : i < 16 := by
    rw [← hlen]
    exact (List.getElem?_eq_some_iff.mp ho).1
  rw [octet6_eq_digit hi]
  refine digit_ofDigits (by decide) ?_ (by omega)
  rw [List.getElem?_reverse (by omega), hlen]
  have hindex : 16 - 1 - (15 - i) = i := by omega
  rw [hindex, ho]

theorem getLsbD_octet6 {k : Nat} (hk : k < 128) :
    a.getLsbD k = (octet6 a (15 - k / 8)).getLsbD (k % 8) := by
  have hindex : 15 - (15 - k / 8) = k / 8 := by omega
  rw [octet6_eq_digit (by omega), getLsbD_digit (Nat.mod_lt k (by decide)), hindex, Nat.div_add_mod]

theorem fromOctets_octet4 (v4 : BitVec 32) :
    fromOctets [octet4 v4 0, octet4 v4 1, octet4 v4 2, octet4 v4 3] = v4 :=
  ofDigits_digits (n := 4) (by decide) (by decide)

/-! ## The embedding -/

theorem octet6_embedV4 (hi : i < 16) : octet6 (embedV4 n v4) i = embedOctet n v4 i := by
  refine octet6_fromOctets (by simp) ?_
  rw [List.getElem?_map, List.getElem?_range hi, Option.map_some]

theorem validPrefixLength_iff {len : Nat} : validPrefixLength len = true ↔
    len = 32 ∨ len = 40 ∨ len = 48 ∨ len = 56 ∨ len = 64 ∨ len = 96 := by
  simp [validPrefixLength, or_assoc]

theorem embedOctet_of_lt (hvalid : validPrefixLength n.prefixLen = true) (hi : i < n.prefixLen / 8) :
    embedOctet n v4 i = octet6 n.addr i := by
  have hcases := validPrefixLength_iff.mp hvalid
  unfold embedOctet
  by_cases hwhole : n.prefixLen = 32 ∨ n.prefixLen = 96
  · rw [if_pos hwhole, if_neg (by omega)]
  · rw [if_neg hwhole, if_neg (by omega), if_pos hi]

theorem contains_of_octets (hlen : n.prefixLen ≤ 128) (hdvd : n.prefixLen % 8 = 0)
    (h : ∀ i < n.prefixLen / 8, octet6 a i = octet6 n.addr i) : n.contains a = true := by
  refine beq_iff_eq.mpr (BitVec.eq_of_getLsbD_eq fun k _ => ?_)
  rw [BitVec.getLsbD_ushiftRight, BitVec.getLsbD_ushiftRight]
  by_cases hk : 128 - n.prefixLen + k < 128
  · rw [getLsbD_octet6 hk, getLsbD_octet6 hk, h _ (by omega)]
  · rw [BitVec.getLsbD_of_ge _ _ (Nat.le_of_not_lt hk), BitVec.getLsbD_of_ge _ _ (Nat.le_of_not_lt hk)]

/-- **The embedding lies inside the prefix.** -/
theorem contains_embedV4 (hvalid : validPrefixLength n.prefixLen = true) :
    n.contains (embedV4 n v4) = true := by
  have hcases := validPrefixLength_iff.mp hvalid
  refine contains_of_octets (by omega) (by omega) fun i hi => ?_
  rw [octet6_embedV4 (by omega), embedOctet_of_lt hvalid hi]

theorem embedded_octets (v4 : BitVec 32) (hvalid : validPrefixLength n.prefixLen = true) :
    ∃ ps, embeddedAt n.prefixLen = some ps ∧
      ps.map (octet6 (embedV4 n v4)) = [octet4 v4 0, octet4 v4 1, octet4 v4 2, octet4 v4 3] := by
  rcases validPrefixLength_iff.mp hvalid with h | h | h | h | h | h
  all_goals
    rw [h]
    refine ⟨_, rfl, ?_⟩
    simp [octet6_embedV4, embedOctet, h]

/-- **The address comes back.** -/
theorem extractV4_embedV4 (hvalid : validPrefixLength n.prefixLen = true) :
    extractV4 n (embedV4 n v4) = some v4 := by
  obtain ⟨ps, hps, hoctets⟩ := embedded_octets v4 hvalid
  rw [extractV4, if_pos (contains_embedV4 hvalid), hps, Option.map_some, hoctets, fromOctets_octet4]

/-! ## Reverse names -/

def hexOctet (n : BitVec 4) : UInt8 := if n.toNat < 10 then 48 + n.toNat.toUInt8 else 87 + n.toNat.toUInt8

/-- The name of an IPv6 address in `ip6.arpa`. -/
def reverse6 (a : BitVec 128) : Name := ip6Arpa ((List.range 32).map fun j => hexOctet (digit 4 a j))

/-- The name of an IPv4 address in `in-addr.arpa`. -/
def reverse4 (v4 : BitVec 32) : Name :=
  inAddrArpa [(octet4 v4 3).toNat, (octet4 v4 2).toNat, (octet4 v4 1).toNat, (octet4 v4 0).toNat]

theorem hexDigit_hexOctet (n : BitVec 4) : hexDigit (hexOctet n) = some n := by
  revert n
  decide

theorem lowerByte_hexOctet (n : BitVec 4) : lowerByte (hexOctet n) = hexOctet n := by
  revert n
  decide

theorem reverse6_labels (a : BitVec 128) : (reverse6 a).labels =
    ((List.range 32).map fun j => [hexOctet (digit 4 a j)]) ++ [ip6, arpa] := by
  simp [reverse6, ip6Arpa, map_map, Function.comp_def]

theorem reverse6_toLowercase (a : BitVec 128) : (reverse6 a).toLowercase = reverse6 a := by
  have hlabels : (reverse6 a).labels.map (·.map lowerByte) = (reverse6 a).labels := by
    rw [reverse6_labels, map_append, map_map]
    refine congrArg₂ (· ++ ·) (map_congr_left fun j _ => ?_) (by decide)
    simp [lowerByte_hexOctet]
  exact congrArg Name.mk hlabels

theorem reverse6_cons (a : BitVec 128) :
    ∃ ls, (reverse6 a).labels = [hexOctet (digit 4 a 0)] :: ls ∧ ls.length = 33 := by
  rw [reverse6_labels, range_succ_eq_map]
  exact ⟨_, rfl, by simp⟩

theorem ip6ArpaToAddr_reverse6 (a : BitVec 128) : ip6ArpaToAddr (reverse6 a) = some a := by
  have hlen : (reverse6 a).labels.length = 34 := by simp [reverse6_labels]
  have hnum : (reverse6 a).numLabels = 34 := by
    obtain ⟨ls, hls, hlen⟩ := reverse6_cons a
    have hstar : [hexOctet (digit 4 a 0)] ≠ Name.star := by
      generalize digit 4 a 0 = n
      revert n
      decide
    rw [Name.numLabels, hls]
    show (if [hexOctet (digit 4 a 0)] = Name.star then ls.length else ls.length + 1) = 34
    rw [if_neg hstar, hlen]
  have hnibbles : ((reverse6 a).labels.take 32).mapM nibble = some ((List.range 32).map (digit 4 a)) := by
    rw [reverse6_labels, take_left' (by simp), mapM_map]
    have hread : (nibble ∘ fun j => [hexOctet (digit 4 a j)]) = fun j => pure (digit 4 a j) := by
      funext j
      exact hexDigit_hexOctet _
    rw [hread, mapM_pure]
    rfl
  have h32 : (reverse6 a).labels[32]? = some ip6 := by simp [reverse6_labels]
  have h33 : (reverse6 a).labels[33]? = some arpa := by simp [reverse6_labels]
  unfold ip6ArpaToAddr
  rw [reverse6_toLowercase, if_neg (by omega), h32, h33, if_neg (by simp), hnibbles, Option.map_some]
  exact congrArg some (ofDigits_digits (n := 32) (by decide) (by decide))

/-- **The reverse name of an embedded address leads to the one of the IPv4 address.** -/
theorem rewritePtrQuestion_embedV4 (p : Dns64Policy) (v4 : BitVec 32) :
    rewritePtrQuestion p (reverse6 (embedV4 p.net v4)) = some (reverse4 v4) := by
  rw [rewritePtrQuestion, ip6ArpaToAddr_reverse6, Option.bind_some, extractV4_embedV4 p.valid]
  rfl

theorem rewritePtrQuestion_reverse4 (p : Dns64Policy) (v4 : BitVec 32) :
    rewritePtrQuestion p (reverse4 v4) = none := by
  have hlen : (reverse4 v4).toLowercase.labels.length < 34 := by simp [reverse4, inAddrArpa]
  rw [rewritePtrQuestion, ip6ArpaToAddr, if_pos (.inr hlen), Option.bind_none]

/-! ### None of them is answered locally by mistake -/

theorem toAscii_cons {n : Name} {l : Label} {ls : List Label} (h : n.labels = l :: ls) :
    ∃ rest, toAscii n = labelAscii l ++ 46 :: rest := by
  refine ⟨ls.flatMap fun l => labelAscii l ++ [46], ?_⟩
  simp [toAscii, h]

theorem toAscii_reverse6 (a : BitVec 128) :
    ∃ n rest, toAscii (reverse6 a).toLowercase = hexOctet n :: 46 :: rest := by
  obtain ⟨ls, hls, _⟩ := reverse6_cons a
  obtain ⟨rest, hrest⟩ := toAscii_cons hls
  have hsafe : ∀ n, labelAscii [hexOctet n] = [hexOctet n] := by decide
  rw [hsafe] at hrest
  exact ⟨_, rest, by rw [reverse6_toLowercase, hrest]; rfl⟩

theorem isLocalQuestion_reverse6 (a : BitVec 128) : isLocalQuestion (reverse6 a) .PTR = false := by
  obtain ⟨n, rest, hascii⟩ := toAscii_reverse6 a
  have hlong : ∀ n ∈ ptrNames, (toAscii n)[1]? = some 55 := by decide
  refine Bool.eq_false_iff.mpr fun hlocal => ?_
  have hany : (ptrNames.any fun n => toAscii (reverse6 a).toLowercase == toAscii n) = true := hlocal
  obtain ⟨m, hm, heq⟩ := any_eq_true.mp hany
  have hsecond := hlong m hm
  rw [← eq_of_beq heq, hascii] at hsecond
  exact absurd hsecond (by simp)

theorem isDdrQuestion_reverse6 (a : BitVec 128) : isDdrQuestion (reverse6 a) = false := by
  obtain ⟨n, rest, hascii⟩ := toAscii_reverse6 a
  refine beq_eq_false_iff_ne.mpr fun heq => ?_
  rw [hascii] at heq
  have hhead : ∀ n, hexOctet n ≠ 95 := by decide
  exact hhead n (List.cons.inj heq).1

theorem isDdrQuestion_reverse4 (v4 : BitVec 32) : isDdrQuestion (reverse4 v4) = false := by
  have hlabels : (reverse4 v4).toLowercase.labels =
      ((decimal (octet4 v4 3).toNat).map lowerByte) :: (reverse4 v4).toLowercase.labels.tail := rfl
  obtain ⟨rest, hascii⟩ := toAscii_cons hlabels
  refine beq_eq_false_iff_ne.mpr fun heq => ?_
  have hhead : ∀ o : BitVec 8,
      (labelAscii ((decimal o.toNat).map lowerByte)).head?.any (· ≠ 95) = true := by decide
  have hdigit := hhead (octet4 v4 3)
  rw [hascii] at heq
  cases hlabel : labelAscii ((decimal (octet4 v4 3).toNat).map lowerByte) with
  | nil =>
    rw [hlabel] at hdigit
    nomatch hdigit
  | cons b bs =>
    rw [hlabel] at hdigit heq
    have hb : b = 95 := (List.cons.inj heq).1
    rw [hb] at hdigit
    nomatch hdigit

end Dnsd.Recursor
