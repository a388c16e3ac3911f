/-
# EmbeddingLayout — the bits of an embedded address.

`embed_v4` starts from the address that the operator wrote, host bits and all, and overwrites only some octets.
The layout of RFC 6052 comes out exactly for a prefix without bits behind the place of the IPv4 address and, for
a /96, in the reserved octet (`Ipv6Net.Clean`).
-/
import Dnsd.Daemon.Dns64Block
import Dnsd.Recursor.Embedding

namespace Dnsd.Recursor

open Proto Lib

/-! ## Bits of octets -/

theorem getMsbD_octet6 {a : BitVec 128} {k : Nat} (hk : k < 128) :
    a.getMsbD k = (octet6 a (k / 8)).getMsbD (k % 8) := by
  have hmod : k % 8 < 8 := Nat.mod_lt k (by decide)
  have hoctet : 15 - (127 - k) / 8 = k / 8 := by omega
  have hbit : (127 - k) % 8 = 7 - k % 8 := by omega
  rw [BitVec.getMsbD_eq_getLsbD, BitVec.getMsbD_eq_getLsbD, decide_eq_true hk, decide_eq_true hmod,
    Bool.true_and, Bool.true_and]
  show a.getLsbD (127 - k) = (octet6 a (k / 8)).getLsbD (7 - k % 8)
  rw [getLsbD_octet6 (by omega), hoctet, hbit]

theorem eq_of_octet6 {a b : BitVec 128} (h : ∀ i < 16, octet6 a i = octet6 b i) : a = b := by
  refine BitVec.eq_of_getMsbD_eq fun k hk => ?_
  rw [getMsbD_octet6 hk, getMsbD_octet6 hk, h _ (by omega)]

theorem octet6_eq_of_getMsbD {a b : BitVec 128} {i : Nat} (hi : i < 16)
    (h : ∀ j < 8, a.getMsbD (8 * i + j) = b.getMsbD (8 * i + j)) : octet6 a i = octet6 b i := by
  refine BitVec.eq_of_getMsbD_eq fun j hj => ?_
  have hbits := h j hj
  have hdiv : (8 * i + j) / 8 = i := by omega
  have hmod : (8 * i + j) % 8 = j := by omega
  rwa [getMsbD_octet6 (by omega), getMsbD_octet6 (by omega), hdiv, hmod] at hbits

/-! ## The layout -/

/-- The first bit behind the IPv4 address: the reserved octet is skipped where the address reaches it. -/
def embeddedEnd (len : Nat) : Nat := if len = 32 ∨ len = 96 then len + 32 else len + 40

/-- `Ipv6Net::trunc`: the host bits are cleared. -/
def Ipv6Net.trunc (n : Ipv6Net) : Ipv6Net :=
  { n with addr := n.addr >>> (128 - n.prefixLen) <<< (128 - n.prefixLen) }

/-- The embedding of an address is laid out as in RFC 6052, section 2.2.  Bits are counted from the most
significant one. -/
structure Rfc6052 (n : Ipv6Net) (v4 : BitVec 32) : Prop where
  network : ∀ k < n.prefixLen, (embedV4 n v4).getMsbD k = n.addr.getMsbD k
  reserved : ∀ k, 64 ≤ k → k < 72 → (embedV4 n v4).getMsbD k = false
  suffix : ∀ k, embeddedEnd n.prefixLen ≤ k → k < 128 → (embedV4 n v4).getMsbD k = false
  networkOnly : embedV4 n v4 = embedV4 n.trunc v4

/-- No bit is set behind the IPv4 address, nor in the reserved octet of a /96. -/
def Ipv6Net.Clean (n : Ipv6Net) : Prop :=
  ∀ k < 128, embeddedEnd n.prefixLen ≤ k ∨ n.prefixLen = 96 ∧ 64 ≤ k ∧ k < 72 → n.addr.getMsbD k = false

instance (n : Ipv6Net) : Decidable n.Clean := inferInstanceAs (Decidable (∀ k < 128, _ → _))

section

variable {n : Ipv6Net} {v4 : BitVec 32} {i k : Nat}

theorem getMsbD_embedV4 (hk : k < 128) :
    (embedV4 n v4).getMsbD k = (embedOctet n v4 (k / 8)).getMsbD (k % 8) := by
  rw [getMsbD_octet6 hk, octet6_embedV4 (by omega)]

theorem embedOctet_left (hvalid : validPrefixLength n.prefixLen = true)
    (hi : embeddedEnd n.prefixLen / 8 ≤ i ∨ n.prefixLen = 96 ∧ i = 8) :
    embedOctet n v4 i = octet6 n.addr i := by
  have hcases := validPrefixLength_iff.mp hvalid
  unfold embeddedEnd at hi
  unfold embedOctet
  by_cases hwhole : n.prefixLen = 32 ∨ n.prefixLen = 96
  · rw [if_pos hwhole] at hi
    rw [if_pos hwhole, if_neg (by omega)]
  · rw [if_neg hwhole] at hi
    rw [if_neg hwhole, if_neg (by omega), if_neg (by omega), if_neg (by omega), if_neg (by omega)]

theorem getMsbD_embedV4_left (v4 : BitVec 32) (hvalid : validPrefixLength n.prefixLen = true)
    (hk : k < 128) (hleft : embeddedEnd n.prefixLen ≤ k ∨ n.prefixLen = 96 ∧ 64 ≤ k ∧ k < 72) :
    (embedV4 n v4).getMsbD k = n.addr.getMsbD k := by
  have hoctet : embeddedEnd n.prefixLen / 8 ≤ k / 8 ∨ n.prefixLen = 96 ∧ k / 8 = 8 := by omega
  rw [getMsbD_embedV4 hk, embedOctet_left hvalid hoctet, ← getMsbD_octet6 hk]

theorem getMsbD_embedV4_network (hvalid : validPrefixLength n.prefixLen = true)
    (hk : k < n.prefixLen) : (embedV4 n v4).getMsbD k = n.addr.getMsbD k := by
  have hcases := validPrefixLength_iff.mp hvalid
  rw [getMsbD_embedV4 (by omega), embedOctet_of_lt hvalid (by omega), ← getMsbD_octet6 (by omega)]

theorem embedOctet_reserved (hwhole : ¬(n.prefixLen = 32 ∨ n.prefixLen = 96)) : embedOctet n v4 8 = 0 := by
  rw [embedOctet, if_neg hwhole, if_pos rfl]

theorem getMsbD_trunc (hlen : n.prefixLen ≤ 128) :
    n.trunc.addr.getMsbD k = (decide (k < n.prefixLen) && n.addr.getMsbD k) := by
  show (n.addr >>> (128 - n.prefixLen) <<< (128 - n.prefixLen)).getMsbD k = _
  rw [BitVec.getMsbD_shiftLeft, BitVec.getMsbD_ushiftRight]
  by_cases hk : k < n.prefixLen
  · have hback : k + (128 - n.prefixLen) - (128 - n.prefixLen) = k := by omega
    rw [hback, decide_eq_true hk]
    simp only [Bool.true_and]
    rw [decide_eq_true (by omega), decide_eq_false (by omega)]
    simp
  · rw [decide_eq_false hk, decide_eq_false (by omega)]
    simp

/-- **What is not overwritten does not matter in a clean prefix.** -/
theorem embedV4_trunc (hvalid : validPrefixLength n.prefixLen = true) (hclean : n.Clean) :
    embedV4 n v4 = embedV4 n.trunc v4 := by
  have hcases := validPrefixLength_iff.mp hvalid
  -- An octet of the address is used in two places: in the network, and where nothing is written.
  have hnetwork : ∀ i < n.prefixLen / 8, octet6 n.trunc.addr i = octet6 n.addr i := by
    intro i hi
    refine octet6_eq_of_getMsbD (by omega) fun j hj => ?_
    rw [getMsbD_trunc (by omega), decide_eq_true (by omega), Bool.true_and]
  have hleft : ∀ i < 16, embeddedEnd n.prefixLen / 8 ≤ i → octet6 n.trunc.addr i = octet6 n.addr i := by
    intro i hi hend
    have hlen : n.prefixLen ≤ embeddedEnd n.prefixLen := by
      unfold embeddedEnd
      split <;> omega
    have hoctets : embeddedEnd n.prefixLen % 8 = 0 := by
      unfold embeddedEnd
      split <;> omega
    refine octet6_eq_of_getMsbD hi fun j hj => ?_
    rw [getMsbD_trunc (by omega), decide_eq_false (by omega), Bool.false_and,
      hclean _ (by omega) (.inl (by omega))]
  refine eq_of_octet6 fun i hi => ?_
  rw [octet6_embedV4 hi, octet6_embedV4 hi]
  by_cases hi1 : i < n.prefixLen / 8
  · rw [embedOctet_of_lt hvalid hi1, embedOctet_of_lt (n := n.trunc) hvalid hi1, hnetwork i hi1]
  by_cases hi2 : embeddedEnd n.prefixLen / 8 ≤ i
  · rw [embedOctet_left hvalid (.inl hi2), embedOctet_left (n := n.trunc) hvalid (.inl hi2), hleft i hi hi2]
  · have hlen : n.trunc.prefixLen = n.prefixLen := rfl
    unfold embeddedEnd at hi2
    unfold embedOctet
    rw [hlen]
    by_cases hwhole : n.prefixLen = 32 ∨ n.prefixLen = 96
    · rw [if_pos hwhole] at hi2
      have hin : n.prefixLen / 8 ≤ i ∧ i < n.prefixLen / 8 + 4 := by omega
      simp only [if_pos hwhole, if_pos hin]
    · rw [if_neg hwhole] at hi2
      have hbefore : i - 1 - n.prefixLen / 8 < 4 := by omega
      simp only [if_neg hwhole, if_neg hi1, if_pos hbefore]

/-- **The layout is right exactly for a clean prefix.** -/
theorem rfc6052_iff_clean (hvalid : validPrefixLength n.prefixLen = true) :
    (∀ v4, Rfc6052 n v4) ↔ n.Clean := by
  constructor
  · intro h k hk hleft
    rw [← getMsbD_embedV4_left 0 hvalid hk hleft]
    rcases hleft with hend | ⟨_, hlow, hhigh⟩
    · exact (h 0).suffix k hend hk
    · exact (h 0).reserved k hlow hhigh
  · intro hclean v4
    refine ⟨fun k hk => getMsbD_embedV4_network hvalid hk, fun k hlow hhigh => ?_, fun k hend hk => ?_,
      embedV4_trunc hvalid hclean⟩
    · by_cases hwhole : n.prefixLen = 32 ∨ n.prefixLen = 96
      · have hleft : embeddedEnd n.prefixLen ≤ k ∨ n.prefixLen = 96 ∧ 64 ≤ k ∧ k < 72 := by
          rw [embeddedEnd, if_pos hwhole]
          omega
        rw [getMsbD_embedV4_left v4 hvalid (by omega) hleft, hclean k (by omega) hleft]
      · have hoctet : k / 8 = 8 := by omega
        rw [getMsbD_embedV4 (by omega), hoctet, embedOctet_reserved hwhole]
        exact BitVec.getMsbD_zero
    · rw [getMsbD_embedV4_left v4 hvalid hk (.inl hend), hclean k hk (.inl hend)]

end

end Dnsd.Recursor

namespace Dnsd.Daemon

open Proto Recursor

def layoutNet (text : String) : Option Ipv6Net :=
  if text = defaultPrefix then some Dns64Policy.defaultWkp.net
  else if text = "2001:db8::1/32" then some ⟨0x20010db8000000000000000000000001, 32⟩
  else if text = "2001:db8:0:0:ff00::/96" then some ⟨0x20010db800000000ff00000000000000, 96⟩
  else none

end Dnsd.Daemon
