/-
# AnchorText — the anchor file as text.

`parse_presentation_format` (`dnssec.rs`) reads an anchor file in three passes: parentheses are taken away and the
line ends between them become blanks, then the comment of each line goes, then the line is cut at white space.
`render_anchor_file` (`anchor.rs`) writes such a text; `parse_anchorFileText` says when it is read back.  A file is
a list of characters; the texts of the records are octets.
-/
import Dnsd.Lib.Lines
import Dnsd.Recursor.Anchor

namespace Dnsd.Recursor

open Proto Lib List

/-! ## Reading -/

/-- `char::is_whitespace`: the White_Space property of Unicode. -/
def isWhitespace (c : Char) : Bool :=
  let n := c.toNat
  (9 ≤ n && n ≤ 13) || n == 0x20 || n == 0x85 || n == 0xA0 || n == 0x1680 || (0x2000 ≤ n && n ≤ 0x200A) ||
    n == 0x2028 || n == 0x2029 || n == 0x202F || n == 0x205F || n == 0x3000

def utf8 (s : List Char) : Text := s.flatMap String.utf8EncodeChar

def nesting (depth : Nat) (c : Char) : Nat :=
  if c = '(' then depth + 1 else if c = ')' then depth - 1 else depth

def depthAfter (depth : Nat) (s : List Char) : Nat := s.foldl nesting depth

def flatten (depth : Nat) : List Char → List Char
  | [] => []
  | c :: s =>
      if c = '(' ∨ c = ')' then flatten (nesting depth c) s
      else if c = '\n' ∧ 0 < depth then ' ' :: flatten depth s
      else c :: flatten depth s

inductive AnchorFileError where
  | badFlags (field : Text)
  | badProtocol (field : Text)
  | badAlgorithm (field : Text)
  | badBase64
  | badOwnerName (name : Text)
  deriving DecidableEq, Repr

/-- `str::parse` for an unsigned integer below `bound`. -/
def parseUnsigned (bound : Nat) (field : List Char) : Option Nat :=
  let digits := if field.head? = some '+' then field.tail else field
  let n := Nat.ofDigitChars 10 digits 0
  if digits ≠ [] ∧ digits.all Char.isDigit = true ∧ n < bound then some n else none

def parseField (bound : Nat) (bad : Text → AnchorFileError) (field : List Char) : Except AnchorFileError Nat :=
  match parseUnsigned bound field with
  | some n => .ok n
  | none => .error (bad (utf8 field))

/-- The fields after `DNSKEY`; what stands before it is not looked at. -/
def rdataFields (rest : List (List Char)) : List (List Char) :=
  (rest.dropWhile fun t => t.map Char.toLower ≠ "dnskey".toList).tail

section

variable (K : Codec)

def recordAnchor (owner : Text) (flags : UInt16) (algorithm : UInt8) (key : Text) :
    Except AnchorFileError (Name × DNSKEY) :=
  match dnskeyOf K flags algorithm key with
  | none => .error .badBase64
  | some dnskey =>
      match K.fromAscii owner with
      | none => .error (.badOwnerName owner)
      | some name => .ok (name, dnskey)

/-- One line.  A line with fewer than four fields after `DNSKEY` is no record. -/
def parseRecord : List (List Char) → Except AnchorFileError (Option (Name × DNSKEY))
  | [] => .ok none
  | name :: rest =>
      match rdataFields rest with
      | flags :: protocol :: algorithm :: key :: more => do
          let flags ← parseField (2 ^ 16) .badFlags flags
          let _ ← parseField (2 ^ 8) .badProtocol protocol
          let algorithm ← parseField (2 ^ 8) .badAlgorithm algorithm
          -- `base64_decode` drops white space once more.
          let b64 := (key :: more).flatten.filter fun c => !isWhitespace c
          let anchor ← recordAnchor K (utf8 name) (UInt16.ofNat flags) (UInt8.ofNat algorithm) (utf8 b64)
          return some anchor
      | _ => .ok none

/-- The fields of each line.  Trimming a line and the `\r` of a line end make no difference to them. -/
def lineFields (raw : List Char) : List (List (List Char)) :=
  (bareLines '\n' ';' (flatten 0 raw)).map (fields isWhitespace)

def parsePresentationFormat (raw : List Char) : Except AnchorFileError TrustAnchors := do
  let keys ← (lineFields raw).mapM (parseRecord K)
  return ⟨keys.filterMap id⟩

end

/-! ## Writing -/

def chars (t : Text) : List Char := t.map fun b => Char.ofNat b.toNat

def anchorCells (line : AnchorLine) : List (List Char × Char) :=
  [ (chars line.owner, '\t'), (Nat.toDigits 10 line.ttl, '\t'), ("IN".toList, '\t'), ("DNSKEY".toList, '\t'),
    (Nat.toDigits 10 line.flags.toNat, ' '), ("3".toList, ' '), (Nat.toDigits 10 line.algorithm.toNat, ' ') ]

def anchorLineText (line : AnchorLine) : List Char := spaced (anchorCells line) (chars line.key)

def anchorFileHeader : List (List Char) :=
  [ "; automated trust-anchor file managed by dnsd".toList,
    "; format: presentation; consume with `dig +trust-anchor` or any RFC 1035 parser".toList ]

def anchorFileText (lines : List AnchorLine) : List Char :=
  (anchorFileHeader ++ lines.map anchorLineText).flatMap (· ++ ['\n'])

/-- The text that `render_anchor_file` returns. -/
def renderAnchorText (keys : List ManagedKey) (ttl : Nat) : List Char :=
  anchorFileText (renderAnchorFile keys ttl)

/-! ## The passes -/

section

variable {K : Codec} {depth : Nat} {s : List Char} {c : Char}

theorem flatten_append (depth : Nat) (s t : List Char) :
    flatten depth (s ++ t) = flatten depth s ++ flatten (depthAfter depth s) t := by
  induction s generalizing depth with
  | nil => rfl
  | cons c s ih =>
    show flatten depth (c :: (s ++ t)) = flatten depth (c :: s) ++ flatten (depthAfter (nesting depth c) s) t
    rw [flatten, flatten]
    by_cases hpar : c = '(' ∨ c = ')'
    · rw [if_pos hpar, if_pos hpar, ih]
    have hdepth : nesting depth c = depth := by
      rw [nesting, if_neg fun h => hpar (Or.inl h), if_neg fun h => hpar (Or.inr h)]
    rw [if_neg hpar, if_neg hpar, hdepth, ih]
    split <;> rfl

theorem mem_flatten (h : c ∈ flatten depth s) : c ∈ s ∨ c = ' ' := by
  induction s generalizing depth with
  | nil => nomatch h
  | cons d s ih =>
    unfold flatten at h
    split at h
    · exact (ih h).imp_left (mem_cons_of_mem _)
    split at h
    · rcases mem_cons.mp h with rfl | h
      · exact Or.inr rfl
      · exact (ih h).imp_left (mem_cons_of_mem _)
    · rcases mem_cons.mp h with rfl | h
      · exact Or.inl mem_cons_self
      · exact (ih h).imp_left (mem_cons_of_mem _)

theorem flatten_zero (h : ∀ c ∈ s, c ≠ '(' ∧ c ≠ ')') : flatten 0 s = s := by
  induction s with
  | nil => rfl
  | cons c s ih =>
    obtain ⟨hopen, hclose⟩ := h c mem_cons_self
    rw [flatten, if_neg (not_or.mpr ⟨hopen, hclose⟩), if_neg fun h => Nat.lt_irrefl 0 h.2,
      ih fun d hd => h d (.tail _ hd)]

/-! ## Plain texts -/

def isPlain (b : UInt8) : Bool := 33 ≤ b && b ≤ 126 && b != 40 && b != 41 && b != 59

structure PlainText (t : Text) : Prop where
  ne_nil : t ≠ []
  plain : ∀ b ∈ t, isPlain b = true

def PlainChar (c : Char) : Prop := c ≠ '(' ∧ c ≠ ')' ∧ c ≠ ';' ∧ isWhitespace c = false

instance : DecidablePred PlainChar := fun _ => inferInstanceAs (Decidable (_ ∧ _))

theorem isPlain_char : ∀ b : UInt8, isPlain b = true →
    PlainChar (Char.ofNat b.toNat) ∧ String.utf8EncodeChar (Char.ofNat b.toNat) = [b] :=
  forall_octet (by decide +kernel)

theorem utf8_chars {t : Text} (h : ∀ b ∈ t, isPlain b = true) : utf8 (chars t) = t := by
  induction t with
  | nil => rfl
  | cons b t ih =>
    have hb := (isPlain_char b (h b mem_cons_self)).2
    show String.utf8EncodeChar (Char.ofNat b.toNat) ++ utf8 (chars t) = b :: t
    rw [hb, ih fun d hd => h d (.tail _ hd)]
    rfl

theorem toNat_of_isDigit (h : c.isDigit = true) : 48 ≤ c.toNat ∧ c.toNat ≤ 57 := by
  obtain ⟨hlow, hhigh⟩ := Bool.and_eq_true_iff.mp h
  exact ⟨of_decide_eq_true hlow, of_decide_eq_true hhigh⟩

theorem PlainChar.of_isDigit (h : c.isDigit = true) : PlainChar c := by
  obtain ⟨hlow, hhigh⟩ := toNat_of_isDigit h
  refine ⟨?_, ?_, ?_, ?_⟩
  · rintro rfl
    exact absurd h (by decide)
  · rintro rfl
    exact absurd h (by decide)
  · rintro rfl
    exact absurd h (by decide)
  · unfold isWhitespace
    simp only [Bool.or_eq_false_iff, Bool.and_eq_false_iff, beq_eq_false_iff_ne, decide_eq_false_iff_not]
    omega

structure PlainField (s : List Char) : Prop where
  ne_nil : s ≠ []
  plain : ∀ c ∈ s, PlainChar c

theorem plain_of_all (h : s.all (PlainChar ·) = true) : ∀ c ∈ s, PlainChar c := fun c hc =>
  of_decide_eq_true (all_eq_true.mp h c hc)

theorem PlainField.isField (h : PlainField s) : IsField isWhitespace s :=
  ⟨h.ne_nil, fun c hc => (h.plain c hc).2.2.2⟩

theorem PlainText.field {t : Text} (h : PlainText t) : PlainField (chars t) := by
  refine ⟨mt map_eq_nil_iff.mp h.ne_nil, fun c hc => ?_⟩
  obtain ⟨b, hb, rfl⟩ := mem_map.mp hc
  exact (isPlain_char b (h.plain b hb)).1

theorem isDigit_toDigits {n : Nat} (h : c ∈ Nat.toDigits 10 n) : c.isDigit = true :=
  Nat.isDigit_of_mem_toDigits (by decide) (by decide) h

theorem toDigits_field (n : Nat) : PlainField (Nat.toDigits 10 n) :=
  ⟨Nat.toDigits_ne_nil, fun _ hc => PlainChar.of_isDigit (isDigit_toDigits hc)⟩

theorem parseUnsigned_toDigits {bound n : Nat} (h : n < bound) :
    parseUnsigned bound (Nat.toDigits 10 n) = some n := by
  have hsign : ¬(Nat.toDigits 10 n).head? = some '+' := fun hhead =>
    absurd (isDigit_toDigits (mem_of_mem_head? hhead)) (by decide)
  unfold parseUnsigned
  rw [if_neg hsign]
  dsimp only
  rw [Nat.ofDigitChars_ten_toDigits,
    if_pos ⟨Nat.toDigits_ne_nil, all_eq_true.mpr fun _ => isDigit_toDigits, h⟩]

theorem toDigits_ne_dnskey (n : Nat) : (Nat.toDigits 10 n).map Char.toLower ≠ "dnskey".toList := by
  intro h
  have hd : 'd' ∈ (Nat.toDigits 10 n).map Char.toLower := by
    rw [h]
    decide
  obtain ⟨c, hc, hcd⟩ := mem_map.mp hd
  have hhigh := (toNat_of_isDigit (isDigit_toDigits hc)).2
  have hlower : c.toLower = c := by
    unfold Char.toLower
    rw [dif_neg]
    rintro ⟨hupper, -⟩
    exact absurd (Nat.le_trans (UInt32.le_iff_toNat_le.mp hupper) hhigh) (by decide)
  obtain rfl : c = 'd' := hlower.symm.trans hcd
  exact absurd hhigh (by decide)

theorem rdataFields_cons {t : List Char} (h : t.map Char.toLower ≠ "dnskey".toList) (rest : List (List Char)) :
    rdataFields (t :: rest) = rdataFields rest := by
  unfold rdataFields
  rw [dropWhile_cons, if_pos (decide_eq_true h)]

theorem toOption_bind {ε α β : Type} (x : Except ε α) (f : α → Except ε β) :
    (x >>= f).toOption = x.toOption.bind fun a => (f a).toOption := by
  cases x <;> rfl

theorem toOption_mapM {ε α β : Type} (f : α → Except ε β) (l : List α) :
    (l.mapM f).toOption = l.mapM fun a => (f a).toOption := by
  induction l with
  | nil => rfl
  | cons a l ih =>
    rw [mapM_cons, mapM_cons, toOption_bind, ← ih]
    cases f a with
    | error e => rfl
    | ok b => cases l.mapM f <;> rfl

/-! ## What is written is read -/

variable {line : AnchorLine} {lines : List AnchorLine}

structure PlainLine (line : AnchorLine) : Prop where
  owner : PlainText line.owner
  key : PlainText line.key

theorem anchorCells_plain (h : PlainLine line) : ∀ cell ∈ anchorCells line,
    PlainField cell.1 ∧ (cell.2 = '\t' ∨ cell.2 = ' ') := by
  have hword : ∀ w ∈ ["IN".toList, "DNSKEY".toList, "3".toList], PlainField w := fun w hw =>
    ⟨by revert w; decide, plain_of_all (by revert w; decide)⟩
  simp only [anchorCells, forall_mem_cons, not_mem_nil, false_imp_iff, implies_true, and_true,
    h.owner.field, toDigits_field, true_or, or_true, true_and]
  exact ⟨hword _ (by simp), hword _ (by simp), hword _ (by simp)⟩

def lineCells (line : AnchorLine) : List (List Char) := (anchorCells line).map Prod.fst ++ [chars line.key]

theorem fields_anchorLineText (h : PlainLine line) :
    fields isWhitespace (anchorLineText line) = lineCells line := by
  refine fields_spaced (fun cell hcell => ?_) h.key.field.isField
  obtain ⟨hfield, htab | hblank⟩ := anchorCells_plain h cell hcell
  · exact ⟨hfield.isField, by rw [htab]; rfl⟩
  · exact ⟨hfield.isField, by rw [hblank]; rfl⟩

theorem mem_anchorLineText (h : PlainLine line) (hc : c ∈ anchorLineText line) :
    c ≠ '(' ∧ c ≠ ')' ∧ c ≠ ';' ∧ c ≠ '\n' := by
  have hplain : PlainChar c ∨ c = '\t' ∨ c = ' ' := by
    rcases mem_spaced hc with ⟨cell, hcell, hc | rfl⟩ | hc
    · exact Or.inl ((anchorCells_plain h cell hcell).1.plain c hc)
    · exact Or.inr (anchorCells_plain h cell hcell).2
    · exact Or.inl (h.key.field.plain c hc)
  rcases hplain with ⟨hopen, hclose, hmark, hspace⟩ | rfl | rfl
  · refine ⟨hopen, hclose, hmark, ?_⟩
    rintro rfl
    exact absurd hspace (by decide)
  · decide
  · decide

theorem parseRecord_lineCells (h : PlainLine line) :
    (parseRecord K (lineCells line)).toOption = (line.anchor? K).map some := by
  have hflags : parseField (2 ^ 16) .badFlags (Nat.toDigits 10 line.flags.toNat) = .ok line.flags.toNat := by
    rw [parseField, parseUnsigned_toDigits line.flags.toNat_lt]
  have halgorithm : parseField (2 ^ 8) .badAlgorithm (Nat.toDigits 10 line.algorithm.toNat) =
      .ok line.algorithm.toNat := by
    rw [parseField, parseUnsigned_toDigits line.algorithm.toNat_lt]
  have hprotocol : parseField (2 ^ 8) .badProtocol "3".toList = .ok 3 := by decide
  have hrdata : rdataFields (lineCells line).tail =
      [Nat.toDigits 10 line.flags.toNat, "3".toList, Nat.toDigits 10 line.algorithm.toNat, chars line.key] := by
    exact (rdataFields_cons (toDigits_ne_dnskey line.ttl) _).trans rfl
  have hkey : ([chars line.key].flatten.filter fun c => !isWhitespace c) = chars line.key := by
    rw [flatten_singleton, filter_eq_self]
    intro c hc
    rw [(h.key.field.plain c hc).2.2.2]
    rfl
  show (parseRecord K (chars line.owner :: (lineCells line).tail)).toOption = _
  rw [parseRecord, hrdata]
  dsimp only
  rw [hflags, hprotocol, halgorithm, hkey, utf8_chars h.key.plain, utf8_chars h.owner.plain]
  show ((recordAnchor K line.owner (.ofNat line.flags.toNat) (.ofNat line.algorithm.toNat) line.key).map
    some).toOption = _
  rw [UInt16.ofNat_toNat, UInt8.ofNat_toNat, recordAnchor, AnchorLine.anchor?]
  cases dnskeyOf K line.flags line.algorithm line.key with
  | none => rfl
  | some dnskey => cases K.fromAscii line.owner <;> rfl

theorem lineFields_anchorFileText (h : ∀ line ∈ lines, PlainLine line) :
    lineFields (anchorFileText lines) = [] :: [] :: (lines.map lineCells ++ [[]]) := by
  have hheader : ∀ row ∈ anchorFileHeader, ∀ c ∈ row, c ≠ '(' ∧ c ≠ ')' ∧ c ≠ '\n' := by
    have hall : ∀ row ∈ anchorFileHeader, row.all fun c => c ≠ '(' ∧ c ≠ ')' ∧ c ≠ '\n' := by decide
    exact fun row hrow c hc => of_decide_eq_true (all_eq_true.mp (hall row hrow) c hc)
  have hrow : ∀ row ∈ anchorFileHeader ++ lines.map anchorLineText,
      ∀ c ∈ row, c ≠ '(' ∧ c ≠ ')' ∧ c ≠ '\n' := by
    intro row hmem c hc
    rcases mem_append.mp hmem with hmem | hmem
    · exact hheader row hmem c hc
    · obtain ⟨line, hline, rfl⟩ := mem_map.mp hmem
      obtain ⟨hopen, hclose, -, hend⟩ := mem_anchorLineText (h line hline) hc
      exact ⟨hopen, hclose, hend⟩
  have hflat : flatten 0 (anchorFileText lines) = anchorFileText lines := by
    refine flatten_zero fun c hc => ?_
    obtain ⟨row, hmem, hc⟩ := mem_flatMap.mp hc
    rcases mem_append.mp hc with hc | hc
    · exact ⟨(hrow row hmem c hc).1, (hrow row hmem c hc).2.1⟩
    · obtain rfl := mem_singleton.mp hc
      decide
  have hlines : (lines.map anchorLineText).map (fields isWhitespace ∘ bare ';') = lines.map lineCells := by
    rw [map_map]
    refine map_congr_left fun line hmem => ?_
    have hbare := bare_of_not_mem fun hc => (mem_anchorLineText (h line hmem) hc).2.2.1 rfl
    show fields isWhitespace (bare ';' (anchorLineText line)) = lineCells line
    rw [hbare, fields_anchorLineText (h line hmem)]
  unfold lineFields
  rw [hflat, anchorFileText, bareLines_lines fun row hmem hc => (hrow row hmem _ hc).2.2 rfl, map_append,
    map_map, map_append, hlines]
  rfl

/-- **What is written is read.**  For plain texts, reading the text of a file is reading its records. -/
theorem parse_anchorFileText (h : ∀ line ∈ lines, PlainLine line) :
    (parsePresentationFormat K (anchorFileText lines)).toOption =
      (lines.mapM (AnchorLine.anchor? K)).map TrustAnchors.mk := by
  have hrecords : ∀ ls : List AnchorLine, (∀ line ∈ ls, PlainLine line) →
      (ls.map lineCells ++ [[]]).mapM (fun cells => (parseRecord K cells).toOption) =
        (ls.mapM (AnchorLine.anchor? K)).map fun keys => keys.map some ++ [none] := by
    intro ls hls
    induction ls with
    | nil => rfl
    | cons line ls ih =>
      rw [map_cons, cons_append, mapM_cons, mapM_cons,
        parseRecord_lineCells (hls line mem_cons_self), ih fun l hl => hls l (.tail _ hl)]
      cases line.anchor? K with
      | none => rfl
      | some key => cases ls.mapM (AnchorLine.anchor? K) <;> rfl
  unfold parsePresentationFormat
  rw [toOption_bind, toOption_mapM, lineFields_anchorFileText h, mapM_cons, mapM_cons,
    hrecords lines h]
  cases lines.mapM (AnchorLine.anchor? K) with
  | none => rfl
  | some keys =>
    show some (TrustAnchors.mk ((none :: none :: (keys.map some ++ [none])).filterMap id)) = some ⟨keys⟩
    simp

end

end Dnsd.Recursor
