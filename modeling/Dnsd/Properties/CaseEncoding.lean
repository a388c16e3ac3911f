/-
# CaseEncoding — 0x20, label by label.

`encode` flips letters in the octet range of the name, and `verify` compares octet ranges; a length octet, being
below 64, is no letter.  The walk of `qname_byte_range` succeeds on exactly the messages with a name without
compression (`Carries`, `walkName_ok`).
-/
import Dnsd.Upstream.Wire

namespace Dnsd.Upstream

open Proto List

variable {k skip : Nat} {bs msg : Bytes} {m n : Name}

def Labelled (n : Name) : Prop := ∀ l ∈ n.labels, 0 < l.length ∧ l.length < 64

theorem length_octet : ∀ b : UInt8, b ≠ 0 → b &&& 0xc0 = 0 → 0 < b.toNat ∧ b.toNat < 64 :=
  forall_octet (by decide +kernel)

theorem octet_length (h : 0 < k ∧ k < 64) : UInt8.ofNat k ≠ 0 ∧ UInt8.ofNat k &&& 0xc0 = 0 ∧
    (UInt8.ofNat k).toNat = k ∧ lowerByte (UInt8.ofNat k) = UInt8.ofNat k := by
  have hall : ∀ k : Fin 64, 0 < k.val → UInt8.ofNat k ≠ 0 ∧ UInt8.ofNat k &&& 0xc0 = 0 ∧
      (UInt8.ofNat k).toNat = k ∧ lowerByte (UInt8.ofNat k) = UInt8.ofNat k := by decide +kernel
  exact hall ⟨k, h.2⟩ h.1

theorem nameOctets_cons (l : Label) (ls : List Label) :
    nameOctets ⟨l :: ls⟩ = UInt8.ofNat l.length :: (l ++ nameOctets ⟨ls⟩) := by
  simp [nameOctets]

theorem walkName_append (l bs : Bytes) : walkName l.length (l ++ bs) = (walkName 0 bs).map (· + l.length) := by
  induction l with
  | nil =>
    show walkName 0 bs = _
    cases walkName 0 bs <;> rfl
  | cons b l ih =>
    show (walkName l.length (l ++ bs)).map (· + 1) = _
    rw [ih]
    cases walkName 0 bs <;> rfl

theorem walkName_nameOctets (hn : Labelled n) (rest : Bytes) :
    walkName 0 (nameOctets n ++ rest) = .ok (nameOctets n).length := by
  obtain ⟨ls⟩ := n
  induction ls with
  | nil => rfl
  | cons l ls ih =>
    obtain ⟨hl, hls⟩ := forall_mem_cons.mp hn
    obtain ⟨hzero, hplain, hlength, -⟩ := octet_length hl
    rw [nameOctets_cons, cons_append, append_assoc, walkName, if_neg hzero, if_neg (by simpa using hplain),
      hlength, if_neg (by simp), walkName_append, ih hls]
    simp [Except.map, Nat.add_comm]

theorem walkName_ok (h : walkName skip bs = .ok k) :
    ∃ l n rest, l.length = skip ∧ Labelled n ∧ bs = l ++ (nameOctets n ++ rest) ∧
      k = skip + (nameOctets n).length := by
  induction bs generalizing skip k with
  | nil => cases skip <;> cases h
  | cons b bs ih =>
    cases skip with
    | succ skip =>
      cases hw : walkName skip bs with
      | error e =>
        rw [walkName, hw] at h
        cases h
      | ok m =>
        rw [walkName, hw] at h
        cases h
        obtain ⟨l, n, rest, hl, hn, rfl, rfl⟩ := ih hw
        exact ⟨b :: l, n, rest, congrArg (· + 1) hl, hn, rfl, Nat.add_right_comm ..⟩
    | zero =>
      unfold walkName at h
      split at h
      · rename_i hzero
        cases h
        exact ⟨[], Name.root, bs, rfl, fun _ hl => absurd hl not_mem_nil, by rw [hzero]; rfl, rfl⟩
      split at h
      · cases h
      split at h
      · cases h
      rename_i hzero hplain hlong
      cases hw : walkName b.toNat bs with
      | error e =>
        rw [hw] at h
        cases h
      | ok m =>
        rw [hw] at h
        cases h
        obtain ⟨l, ⟨ls⟩, rest, hl, hn, rfl, rfl⟩ := ih hw
        have hoctet := length_octet b hzero (by simpa using hplain)
        have hcons : b :: (l ++ (nameOctets ⟨ls⟩ ++ rest)) = nameOctets ⟨l :: ls⟩ ++ rest := by
          rw [nameOctets_cons, hl, UInt8.ofNat_toNat]
          simp
        refine ⟨[], ⟨l :: ls⟩, rest, rfl, forall_mem_cons.mpr ⟨hl ▸ hoctet, hn⟩, hcons, ?_⟩
        simp only [nameOctets_cons, length_cons, length_append]
        omega

theorem nameOctets_lowercase (hn : Labelled n) : (nameOctets n).map lowerByte = nameOctets n.toLowercase := by
  obtain ⟨ls⟩ := n
  induction ls with
  | nil => rfl
  | cons l ls ih =>
    obtain ⟨hl, hls⟩ := forall_mem_cons.mp hn
    show _ = nameOctets ⟨l.map lowerByte :: (Name.toLowercase ⟨ls⟩).labels⟩
    rw [nameOctets_cons, nameOctets_cons, map_cons, map_append, (octet_length hl).2.2.2, ih hls,
      length_map]

theorem nameOctets_inj (hm : Labelled m) (hn : Labelled n) (h : nameOctets m = nameOctets n) : m = n := by
  obtain ⟨ms⟩ := m
  obtain ⟨ns⟩ := n
  induction ms generalizing ns with
  | nil =>
    cases ns with
    | nil => rfl
    | cons l ns =>
      rw [nameOctets_cons] at h
      exact absurd (List.cons.inj h).1.symm (octet_length (hn l mem_cons_self)).1
  | cons l ms ih =>
    obtain ⟨hl, hms⟩ := forall_mem_cons.mp hm
    cases ns with
    | nil =>
      rw [nameOctets_cons] at h
      exact absurd (List.cons.inj h).1 (octet_length hl).1
    | cons l' ns =>
      obtain ⟨hl', hns⟩ := forall_mem_cons.mp hn
      simp only [nameOctets_cons, List.cons.injEq] at h
      have hlen : l.length = l'.length := by
        rw [← (octet_length hl).2.2.1, h.1, (octet_length hl').2.2.1]
      obtain ⟨rfl, hrest⟩ := append_inj h.2 hlen
      obtain ⟨⟩ := ih hms ns hns hrest
      rfl

theorem same_iff_octets (hm : Labelled m) (hn : Labelled n) :
    (nameOctets m).map lowerByte = (nameOctets n).map lowerByte ↔ m.same n = true := by
  have hlower : ∀ {n}, Labelled n → Labelled n.toLowercase := by
    intro n hn l hl
    obtain ⟨l', hl', rfl⟩ := mem_map.mp hl
    simpa using hn l' hl'
  rw [nameOctets_lowercase hm, nameOctets_lowercase hn, Name.same_iff]
  exact ⟨nameOctets_inj (hlower hm) (hlower hn), congrArg nameOctets⟩

/-- After its header the message has the name, without compression and with its terminator. -/
def Carries (msg : Bytes) (n : Name) : Prop :=
  headerLen ≤ msg.length ∧ Labelled n ∧ ∃ rest, msg.drop headerLen = nameOctets n ++ rest

theorem Carries.range (h : Carries msg n) : qnameByteRange msg = .ok (nameOctets n).length ∧
    qnameBytes msg (nameOctets n).length = nameOctets n := by
  obtain ⟨hlong, hn, rest, hrest⟩ := h
  rw [qnameByteRange_eq_ok, qnameBytes, hrest]
  exact ⟨⟨hlong, walkName_nameOctets hn rest⟩, take_left' rfl⟩

theorem exists_carries (h : qnameByteRange msg = .ok k) :
    ∃ n, Carries msg n ∧ k = (nameOctets n).length := by
  obtain ⟨hlong, hwalk⟩ := qnameByteRange_eq_ok.mp h
  obtain ⟨l, n, rest, hl, hn, hrest, hk⟩ := walkName_ok hwalk
  obtain rfl := length_eq_zero_iff.mp hl
  exact ⟨n, ⟨hlong, hn, rest, hrest⟩, by omega⟩

/-- **0x20 encoding and verification.**  For every query with a name after its header and every choice of coins,
`encode` succeeds and changes nothing but the case of letters in labels; `verify` with what it has returned
succeeds exactly on the messages with the same name, label by label and up to case. -/
theorem case_encoding (query : Bytes) (coins : Nat → Bool) (n : Name) (h : Carries query n) :
    ∃ wire mask, encode query coins = .ok (wire, mask) ∧
      (∃ n', Carries wire n' ∧ n'.same n = true) ∧ wire.length = query.length ∧
      wire.take headerLen = query.take headerLen ∧
      wire.drop (headerLen + (nameOctets n).length) = query.drop (headerLen + (nameOctets n).length) ∧
      ∀ r, verify r mask = .ok () ↔ ∃ n', Carries r n' ∧ n'.same n = true := by
  obtain ⟨hrange, hbytes⟩ := h.range
  obtain ⟨wire, mask, hencode⟩ : ∃ wire mask, encode query coins = .ok (wire, mask) := by
    rw [encode, hrange]
    exact ⟨_, _, rfl⟩
  obtain ⟨k, hk, hwire, hmask, hlower, htake, hdrop⟩ := encode_ok hencode
  obtain rfl : (nameOctets n).length = k := Except.ok.inj (hrange.symm.trans hk)
  rw [hbytes] at hlower
  obtain ⟨n', hn', hlen⟩ := exists_carries hwire
  have hsame : n'.same n = true := by
    rw [← same_iff_octets hn'.2.1 h.2.1, ← hlower, ← hmask, hlen, hn'.range.2]
  refine ⟨wire, mask, hencode, ⟨n', hn', hsame⟩, ?_, htake, hdrop, fun r => ?_⟩
  · obtain ⟨hlong, -, rest, hrest⟩ := h
    obtain ⟨hlong', -, rest', hrest'⟩ := hn'
    have hquery := congrArg List.length hrest
    have hwire := congrArg List.length hrest'
    have htail := congrArg List.length hdrop
    simp only [length_drop, length_append] at hquery hwire htail
    omega
  · rw [verify_ok_iff, hlower]
    constructor
    · rintro ⟨m, hm, hecho⟩
      obtain ⟨n'', hn'', rfl⟩ := exists_carries hm
      rw [hn''.range.2] at hecho
      exact ⟨n'', hn'', (same_iff_octets hn''.2.1 h.2.1).mp hecho⟩
    · rintro ⟨n'', hn'', hsame⟩
      refine ⟨_, hn''.range.1, ?_⟩
      rw [hn''.range.2]
      exact (same_iff_octets hn''.2.1 h.2.1).mpr hsame

theorem case_encoding_example : Carries exampleQuery ⟨[[101, 120, 97, 109, 112, 108, 101]]⟩ ∧ ∃ wire mask,
    encode exampleQuery (fun _ => true) = .ok (wire, mask) ∧ wire.length = exampleQuery.length ∧
      verify exampleQuery mask = .ok () := by
  have h : Carries exampleQuery ⟨[[101, 120, 97, 109, 112, 108, 101]]⟩ :=
    ⟨by decide, by simp [Labelled], [0, 1, 0, 1], rfl⟩
  obtain ⟨wire, mask, hencode, -, hlen, -, -, hverify⟩ := case_encoding exampleQuery (fun _ => true) _ h
  exact ⟨h, wire, mask, hencode, hlen, (hverify exampleQuery).mpr ⟨_, h, Name.same_refl _⟩⟩

end Dnsd.Upstream
