/-
# Wire — what goes over the wire to an upstream, and what is checked of the reply.

The header fields that are read, the name at the start of the question section and its 0x20 encoding
(`zeroxtwenty.rs`), `Prepared::build` and `finalize`.  The message library is a parameter (`Codec`): the first two
octets of a message are its TXID.  The random choices are arguments.
-/
import Dnsd.Proto.Message

namespace Dnsd.Upstream

open Proto List

abbrev Bytes := List UInt8

/-! ## Octets and header fields -/

def fromBe (hi lo : UInt8) : UInt16 := UInt16.ofNat (hi.toNat * 256 + lo.toNat)

def toBe (x : UInt16) : Bytes := [UInt8.ofNat (x.toNat / 256), UInt8.ofNat (x.toNat % 256)]

def txid? : Bytes → Option UInt16
  | hi :: lo :: _ => some (fromBe hi lo)
  | _ => none

theorem txid?_toBe (x : UInt16) (rest : Bytes) : txid? (toBe x ++ rest) = some x := by
  have hx : x.toNat < 65536 := x.toNat_lt
  refine congrArg some (UInt16.toNat_inj.mp ?_)
  simp only [fromBe, UInt16.toNat_ofNat', UInt8.toNat_ofNat']
  omega

def isResponse (msg : Bytes) : Bool := (msg.getD 2 0) &&& 0x80 ≠ 0

def qdcount (msg : Bytes) : UInt16 := fromBe (msg.getD 4 0) (msg.getD 5 0)

def headerLen : Nat := 12

theorem txid?_header (msg : Bytes) : txid? (msg.take headerLen) = txid? msg := by
  match msg with
  | [] => rfl
  | [_] => rfl
  | _ :: _ :: _ => rfl

theorem qdcount_header (msg : Bytes) : qdcount (msg.take headerLen) = qdcount msg := by
  simp [qdcount, headerLen]

/-! ## The question name -/

inductive WireError where
  | tooShort
  | unterminated
  | pointer
  | overrun
  | lengthMismatch
  | mismatch
  deriving DecidableEq, Repr

/-- The walk over the labels: how many octets up to the end of the terminator.  Within a label, `skip`
octets are still to be passed. -/
def walkName : Nat → Bytes → Except WireError Nat
  | skip + 1, _ :: bs => (walkName skip bs).map (· + 1)
  | _ + 1, [] => .error .overrun
  | 0, [] => .error .unterminated
  | 0, len :: bs =>
      if len = 0 then .ok 1
      else if len &&& 0xc0 ≠ 0 then .error .pointer
      else if bs.length < len.toNat then .error .overrun
      else (walkName len.toNat bs).map (· + 1)

def qnameByteRange (msg : Bytes) : Except WireError Nat :=
  if msg.length < headerLen then .error .tooShort else walkName 0 (msg.drop headerLen)

def qnameBytes (msg : Bytes) (n : Nat) : Bytes := (msg.drop headerLen).take n

def isAsciiAlphabetic (b : UInt8) : Bool := (65 ≤ b && b ≤ 90) || (97 ≤ b && b ≤ 122)

def recase (coin : Bool) (b : UInt8) : UInt8 := if isAsciiAlphabetic b && coin then b ^^^ 0x20 else b

def encode (query : Bytes) (coins : Nat → Bool) : Except WireError (Bytes × Bytes) := do
  let n ← qnameByteRange query
  let name := (qnameBytes query n).mapIdx fun i b => recase (coins i) b
  return (query.take headerLen ++ name ++ query.drop (headerLen + n), name)

def echoes (got expected : UInt8) : Bool :=
  if isAsciiAlphabetic expected then lowerByte got == lowerByte expected else got == expected

def verify (response expected : Bytes) : Except WireError Unit := do
  let n ← qnameByteRange response
  let got := qnameBytes response n
  if got.length ≠ expected.length then throw .lengthMismatch
  if (got.zip expected).all fun x => echoes x.1 x.2 then return () else throw .mismatch

/-! ## Case does not move the labels -/

theorem lowerByte_recase (coin : Bool) : ∀ b : UInt8, lowerByte (recase coin b) = lowerByte b := by
  cases coin with
  | false => simp [recase]
  | true => exact forall_octet (by decide +kernel)

theorem lowerByte_short : ∀ b : UInt8, lowerByte b &&& 0xc0 = 0 → lowerByte b = b :=
  forall_octet (by decide +kernel)

theorem lowerByte_short_iff : ∀ b : UInt8, lowerByte b &&& 0xc0 = 0 ↔ b &&& 0xc0 = 0 :=
  forall_octet (by decide +kernel)

theorem lowerByte_of_not_letter : ∀ b : UInt8, isAsciiAlphabetic b = false → lowerByte b = b :=
  forall_octet (by decide +kernel)

theorem isAsciiAlphabetic_lowerByte : ∀ b : UInt8, isAsciiAlphabetic (lowerByte b) = isAsciiAlphabetic b :=
  forall_octet (by decide +kernel)

theorem echoes_iff {got expected : UInt8} :
    echoes got expected = true ↔ lowerByte got = lowerByte expected := by
  unfold echoes
  split
  · exact beq_iff_eq
  rename_i hletter
  rw [Bool.not_eq_true] at hletter
  rw [beq_iff_eq, lowerByte_of_not_letter expected hletter]
  constructor
  · rintro rfl
    exact lowerByte_of_not_letter got hletter
  · intro heq
    have hgot : isAsciiAlphabetic got = false := by
      rw [← isAsciiAlphabetic_lowerByte, heq, hletter]
    rwa [lowerByte_of_not_letter got hgot] at heq

theorem walkName_congr {bs bs' : Bytes} (h : bs.map lowerByte = bs'.map lowerByte) (skip : Nat) :
    walkName skip bs = walkName skip bs' := by
  induction bs generalizing bs' skip with
  | nil =>
    obtain rfl : bs' = [] := by simpa using h.symm
    rfl
  | cons b bs ih =>
    cases bs' with
    | nil => nomatch h
    | cons b' bs' =>
      obtain ⟨hb, hbs⟩ := List.cons.inj h
      have hlength : bs.length = bs'.length := by simpa using congrArg List.length hbs
      cases skip with
      | succ skip =>
        show (walkName skip bs).map _ = (walkName skip bs').map _
        rw [ih hbs]
      | zero =>
        by_cases hshort : b &&& 0xc0 = 0
        · -- A length octet: recasing cannot have changed it.
          have hlow := (lowerByte_short_iff b).mpr hshort
          obtain rfl : b = b' := by
            rw [← lowerByte_short b hlow, hb, lowerByte_short b' (hb ▸ hlow)]
          simp only [walkName, hlength, ih hbs]
        · have hshort' : ¬b' &&& 0xc0 = 0 := by
            rwa [← lowerByte_short_iff, ← hb, lowerByte_short_iff]
          have hne : ∀ {c : UInt8}, ¬c &&& 0xc0 = 0 → c ≠ 0 := by
            rintro c hc rfl
            exact hc rfl
          simp only [walkName, hne hshort, hne hshort', hshort, hshort', if_false, ne_eq,
            not_false_eq_true, if_true]

theorem walkName_le {skip n : Nat} {bs : Bytes} (h : walkName skip bs = .ok n) : n ≤ bs.length := by
  induction bs generalizing skip n with
  | nil => cases skip <;> nomatch h
  | cons b bs ih =>
    have hnext : ∀ k, (walkName k bs).map (· + 1) = .ok n → n ≤ bs.length + 1 := by
      intro k hk
      cases hw : walkName k bs with
      | error e =>
        rw [hw] at hk
        nomatch hk
      | ok m =>
        rw [hw] at hk
        obtain rfl := Except.ok.inj hk
        exact Nat.succ_le_succ (ih hw)
    cases skip with
    | succ skip => exact hnext skip h
    | zero =>
      unfold walkName at h
      split at h
      · obtain rfl := Except.ok.inj h
        exact Nat.succ_le_succ (Nat.zero_le _)
      split at h
      · nomatch h
      split at h
      · nomatch h
      · exact hnext _ h

theorem zip_echoes_iff {got expected : Bytes} (h : got.length = expected.length) :
    (got.zip expected).all (fun x => echoes x.1 x.2) = true ↔
      got.map lowerByte = expected.map lowerByte := by
  induction got generalizing expected with
  | nil =>
    obtain rfl : expected = [] := length_eq_zero_iff.mp h.symm
    simp
  | cons g got ih =>
    cases expected with
    | nil => nomatch h
    | cons e expected =>
      simp only [zip_cons_cons, all_cons, Bool.and_eq_true, echoes_iff, map_cons,
        List.cons.injEq, ih (Nat.succ.inj h)]

theorem qnameByteRange_eq_ok {msg : Bytes} {n : Nat} :
    qnameByteRange msg = .ok n ↔ headerLen ≤ msg.length ∧ walkName 0 (msg.drop headerLen) = .ok n := by
  unfold qnameByteRange
  split
  · rename_i hshort
    exact iff_of_false nofun fun h => absurd h.1 (Nat.not_le_of_lt hshort)
  · rename_i hlong
    exact (and_iff_right (Nat.le_of_not_lt hlong)).symm

theorem length_qnameBytes {msg : Bytes} {n : Nat} (h : qnameByteRange msg = .ok n) :
    (qnameBytes msg n).length = n := by
  have hle := walkName_le (qnameByteRange_eq_ok.mp h).2
  rw [length_drop] at hle
  simp only [qnameBytes, length_take, length_drop]
  omega

/-- **What `verify` checks**: the name that starts after the header, up to case, and nothing else. -/
theorem verify_ok_iff {response expected : Bytes} :
    verify response expected = .ok () ↔
      ∃ n, qnameByteRange response = .ok n ∧
        (qnameBytes response n).map lowerByte = expected.map lowerByte := by
  unfold verify
  cases hn : qnameByteRange response with
  | error e => simp [bind, Except.bind]
  | ok n =>
    simp only [bind, Except.bind, Except.ok.injEq, exists_eq_left']
    by_cases hlength : (qnameBytes response n).length = expected.length
    · simp only [hlength, ne_eq, not_true_eq_false, if_false, pure, Except.pure]
      rw [← zip_echoes_iff hlength]
      split
      · rename_i hall
        exact iff_of_true rfl hall
      · rename_i hall
        exact iff_of_false nofun hall
    · simp only [hlength, ne_eq, not_false_eq_true, if_true]
      refine iff_of_false nofun fun h => hlength ?_
      simpa using congrArg List.length h

theorem encode_ok {query wire mask : Bytes} {coins : Nat → Bool}
    (h : encode query coins = .ok (wire, mask)) :
    ∃ n, qnameByteRange query = .ok n ∧ qnameByteRange wire = .ok n ∧ qnameBytes wire n = mask ∧
      mask.map lowerByte = (qnameBytes query n).map lowerByte ∧
      wire.take headerLen = query.take headerLen ∧
      wire.drop (headerLen + n) = query.drop (headerLen + n) := by
  unfold encode at h
  cases hn : qnameByteRange query with
  | error e =>
    rw [hn] at h
    nomatch h
  | ok n =>
    rw [hn] at h
    obtain ⟨hwire, hmask⟩ := Prod.mk.inj (Except.ok.inj h)
    have hlower : mask.map lowerByte = (qnameBytes query n).map lowerByte := by
      rw [← hmask]
      apply ext_getElem?
      intro i
      simp only [List.getElem?_map, List.getElem?_mapIdx, Option.map_map, Function.comp_def,
        lowerByte_recase]
    obtain ⟨hlong, hwalk⟩ := qnameByteRange_eq_ok.mp hn
    have hmasklen : mask.length = n := by
      simpa [length_qnameBytes hn] using congrArg List.length hlower
    have htake : (query.take headerLen).length = headerLen := by
      simp only [length_take]
      omega
    have hrest : wire.drop headerLen = mask ++ query.drop (headerLen + n) := by
      rw [← hwire, hmask, append_assoc]
      exact drop_left' htake
    refine ⟨n, rfl, ?_, ?_, hlower, ?_, ?_⟩
    · have hwirelen : headerLen ≤ wire.length := by
        rw [← hwire]
        simp only [length_append, htake]
        omega
      refine qnameByteRange_eq_ok.mpr ⟨hwirelen, ?_⟩
      rw [hrest, ← hwalk]
      apply walkName_congr
      rw [map_append, hlower, ← map_append, qnameBytes, ← drop_drop, take_append_drop]
    · rw [qnameBytes, hrest]
      exact take_left' hmasklen
    · rw [← hwire, append_assoc]
      exact take_left' htake
    · rw [← drop_drop, hrest]
      exact drop_left' hmasklen

/-! ## The question -/

structure Question where
  name : Bytes
  queryType : UInt16
  queryClass : UInt16
  deriving DecidableEq, Repr

def typeAndClass? : Bytes → Option (UInt16 × UInt16)
  | t₁ :: t₂ :: c₁ :: c₂ :: _ => some (fromBe t₁ t₂, fromBe c₁ c₂)
  | _ => none

def question? (msg : Bytes) : Option Question :=
  if qdcount msg = 0 then none
  else
    match qnameByteRange msg with
    | .error _ => none
    | .ok n => (typeAndClass? (msg.drop (headerLen + n))).map fun tc =>
        ⟨qnameBytes msg n, tc.1, tc.2⟩

def Question.Same (q r : Question) : Prop :=
  r.name.map lowerByte = q.name.map lowerByte ∧ r.queryType = q.queryType ∧ r.queryClass = q.queryClass

theorem question?_eq_some {msg : Bytes} {q : Question} :
    question? msg = some q ↔ qdcount msg ≠ 0 ∧ ∃ n, qnameByteRange msg = .ok n ∧
      q.name = qnameBytes msg n ∧
      typeAndClass? (msg.drop (headerLen + n)) = some (q.queryType, q.queryClass) := by
  unfold question?
  by_cases hq : qdcount msg = 0
  · simp [hq]
  rw [if_neg hq]
  cases hn : qnameByteRange msg with
  | error e => simp
  | ok n =>
    obtain ⟨name, qt, qc⟩ := q
    simp only [Option.map_eq_some_iff, Question.mk.injEq, ne_eq, hq, not_false_eq_true, true_and,
      Except.ok.injEq, exists_eq_left', Prod.exists]
    constructor
    · rintro ⟨t, c, htc, rfl, rfl, rfl⟩
      exact ⟨rfl, htc⟩
    · rintro ⟨rfl, htc⟩
      exact ⟨qt, qc, htc, rfl, rfl, rfl⟩

/-! ## One hop -/

structure WireMessage extends Message where
  isResponse : Bool
  deriving DecidableEq, Repr

/-- The message library.  The first two octets of a message are its TXID. -/
structure Codec where
  fromBytes : Bytes → Option WireMessage
  toVec : WireMessage → Option Bytes
  fromBytes_id : ∀ {b m}, fromBytes b = some m → txid? b = some m.id
  toVec_id : ∀ {m b}, toVec m = some b → txid? b = some m.id

inductive HopError where
  | parseQuery
  | encodeQuery (e : WireError)
  | parseResponse
  | encodeResponse
  deriving DecidableEq, Repr

structure Prepared where
  wire : Bytes
  upstreamTxid : UInt16
  qnameMask : Bytes
  clientTxid : UInt16
  deriving DecidableEq, Repr

def Prepared.build (codec : Codec) (origQuery : Bytes) (upstreamTxid : UInt16) (coins : Nat → Bool) :
    Except HopError Prepared :=
  match codec.fromBytes origQuery with
  | none => .error .parseQuery
  | some orig =>
      match encode (toBe upstreamTxid ++ origQuery.drop 2) coins with
      | .error e => .error (.encodeQuery e)
      | .ok (wire, qnameMask) => .ok ⟨wire, upstreamTxid, qnameMask, orig.id⟩

def finalize (codec : Codec) (resp : Bytes) (clientTxid : UInt16) : Except HopError Bytes :=
  match codec.fromBytes resp with
  | none => .error .parseResponse
  | some parsed =>
      match codec.toVec { parsed with
          toMessage := { parsed.toMessage.lowercaseResponseNames with id := clientTxid } } with
      | none => .error .encodeResponse
      | some b => .ok b

variable {codec : Codec} {orig resp b : Bytes} {txid : UInt16} {coins : Nat → Bool} {p : Prepared}

theorem finalize_txid (h : finalize codec resp txid = .ok b) : txid? b = some txid := by
  unfold finalize at h
  split at h
  · nomatch h
  split at h
  · nomatch h
  · rename_i hvec
    obtain rfl := Except.ok.inj h
    exact codec.toVec_id hvec

/-- **What one hop sends.**  The query as it came, with a TXID of its own and the name recased. -/
theorem Prepared.build_ok (h : Prepared.build codec orig txid coins = .ok p) :
    p.upstreamTxid = txid ∧ txid? p.wire = some txid ∧ txid? orig = some p.clientTxid ∧
      (∃ n, qnameByteRange p.wire = .ok n ∧ qnameBytes p.wire n = p.qnameMask) ∧
      ∀ q, question? orig = some q → ∃ q', question? p.wire = some q' ∧ q.Same q' := by
  unfold Prepared.build at h
  split at h
  · nomatch h
  rename_i parsed hparsed
  split at h
  · nomatch h
  rename_i wire mask hencode
  obtain rfl := Except.ok.inj h
  have horig := codec.fromBytes_id hparsed
  obtain ⟨n, hquery, hwire, hmask, hlower, hhead, hrest⟩ := encode_ok hencode
  -- A query with a TXID is two octets and the rest; the rest is what both messages share.
  obtain ⟨hi, lo, tail, rfl⟩ : ∃ hi lo tail, orig = hi :: lo :: tail := by
    match orig, horig with
    | hi :: lo :: tail, _ => exact ⟨hi, lo, tail, rfl⟩
  have hsent : toBe txid ++ (hi :: lo :: tail).drop 2 = toBe txid ++ tail := rfl
  refine ⟨rfl, ?_, horig, ⟨n, hwire, hmask⟩, ?_⟩
  · rw [← txid?_header, hhead, txid?_header, txid?_toBe]
  · intro q hq
    obtain ⟨hcount, m, hm, hname, htc⟩ := question?_eq_some.mp hq
    -- The octets from the third on are the same in the original and in what is encoded.
    have hm' : qnameByteRange (toBe txid ++ tail) = qnameByteRange (hi :: lo :: tail) := rfl
    obtain rfl : n = m := Except.ok.inj (hquery.symm.trans (hm'.trans hm))
    have hcount' : qdcount wire = qdcount (hi :: lo :: tail) := by
      rw [← qdcount_header, hhead, qdcount_header]
      rfl
    refine ⟨⟨mask, q.queryType, q.queryClass⟩, question?_eq_some.mpr ⟨?_, n, hwire, hmask.symm, ?_⟩,
      ?_, rfl, rfl⟩
    · rwa [hcount']
    · rw [hrest, ← htc, ← drop_drop, ← drop_drop]
      rfl
    · rw [hname]
      exact hlower

/-! ## A message library for messages of one question -/

def labelsOf : Nat → Bytes → List Label
  | fuel + 1, len :: bs =>
      if len = 0 then [] else bs.take len.toNat :: labelsOf fuel (bs.drop len.toNat)
  | _, _ => []

def nameOctets (n : Name) : Bytes := (n.labels.flatMap fun l => UInt8.ofNat l.length :: l) ++ [0]

def bit (b : Bool) (value : UInt8) : UInt8 := if b then value else 0

def questionCodec : Codec where
  fromBytes b :=
    match b with
    | i₁ :: i₂ :: f₁ :: f₂ :: _ :: _ :: 0 :: 0 :: 0 :: 0 :: 0 :: 0 :: _ =>
        (question? b).map fun q =>
          { id := fromBe i₁ i₂
            authoritative := f₁ &&& 0x04 ≠ 0
            truncation := f₁ &&& 0x02 ≠ 0
            recursionDesired := f₁ &&& 0x01 ≠ 0
            recursionAvailable := f₂ &&& 0x80 ≠ 0
            queries := [⟨⟨labelsOf q.name.length q.name⟩, ⟨q.queryType⟩, ⟨q.queryClass⟩⟩]
            isResponse := f₁ &&& 0x80 ≠ 0 }
    | _ => none
  toVec m :=
    match m.queries with
    | [q] => some (toBe m.id ++ [bit m.isResponse 0x80 ||| bit m.authoritative 0x04 |||
        bit m.truncation 0x02 ||| bit m.recursionDesired 0x01, bit m.recursionAvailable 0x80] ++
        [0, 1, 0, 0, 0, 0, 0, 0] ++ nameOctets q.name ++ toBe q.queryType.code ++
        toBe q.queryClass.code)
    | _ => none
  fromBytes_id := by
    intro b m h
    split at h
    · obtain ⟨q, _, rfl⟩ := Option.map_eq_some_iff.mp h
      rfl
    · nomatch h
  toVec_id := by
    intro m b h
    split at h
    · obtain rfl := Option.some.inj h
      simp only [append_assoc, txid?_toBe]
    · nomatch h

def exampleQuery : Bytes :=
  [0xab, 0xcd, 1, 0, 0, 1, 0, 0, 0, 0, 0, 0, 7, 101, 120, 97, 109, 112, 108, 101, 0, 0, 1, 0, 1]

end Dnsd.Upstream
