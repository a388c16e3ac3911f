/-
# HeadGrammar — the heads that the DoH listener accepts.

A head that `parse_request_head` accepts is the rendering of a method, a path and header lines.  Every line end in
it is one between two lines: there is no second reading of it.
-/
import Dnsd.Io.Http
import Mathlib.Data.List.DropRight

namespace Dnsd.Io

open List

open Upstream (Bytes)

/-! ## Renderings -/

structure RawHeader where
  name : Bytes
  before : Bytes
  value : Bytes
  after : Bytes

def RawHeader.line (h : RawHeader) : Bytes := h.name ++ 0x3A :: (h.before ++ h.value ++ h.after)

def RawHeader.field (h : RawHeader) : Bytes × Bytes := (toAsciiLowercase h.name, h.value)

structure RawHeader.Valid (h : RawHeader) : Prop where
  name : isToken h.name = true
  before : ∀ b ∈ h.before, isOws b = true
  after : ∀ b ∈ h.after, isOws b = true
  first : ∀ b ∈ h.value.head?, isOws b ≠ true
  last : ∀ b ∈ h.value.getLast?, isOws b ≠ true
  value : ∀ b ∈ h.value, b ≠ 0 ∧ b ≠ 0x0D ∧ b ≠ 0x0A

def IsPath (path : Bytes) : Prop := path ≠ [] ∧ ∀ b ∈ path, ¬ b < 0x20 ∧ b ≠ 0x7F ∧ b ≠ 0x20

def requestLine (method path : Bytes) : Bytes := method ++ 0x20 :: (path ++ 0x20 :: text "HTTP/1.1")

def renderHead (method path : Bytes) (raws : List RawHeader) : Bytes :=
  requestLine method path ++ raws.flatMap fun h => 0x0D :: 0x0A :: h.line

/-! ## Cutting -/

variable {bytes line name path raw value : Bytes}

theorem splitCrlf_join (bytes : Bytes) : ∃ line lines, splitCrlf bytes = line :: lines ∧
    bytes = line ++ lines.flatMap fun l => 0x0D :: 0x0A :: l := by
  induction bytes using splitCrlf.induct with
  | case1 => exact ⟨[], [], rfl, rfl⟩
  | case2 bs ih =>
    obtain ⟨line, lines, hsplit, rfl⟩ := ih
    exact ⟨[], line :: lines, by rw [splitCrlf, hsplit], rfl⟩
  | case3 b bs hcrlf hnil ih =>
    obtain ⟨line, lines, hsplit, _⟩ := ih
    rw [hsplit] at hnil
    cases hnil
  | case4 b bs hcrlf l ls hcons ih =>
    obtain ⟨line, lines, hsplit, rfl⟩ := ih
    refine ⟨b :: line, lines, ?_, rfl⟩
    rw [splitCrlf.eq_3 _ _ hcrlf, hsplit]

theorem splitCrlf_line (h : 0x0D ∉ line) (rest : Bytes) :
    splitCrlf (line ++ 0x0D :: 0x0A :: rest) = line :: splitCrlf rest ∧ splitCrlf line = [line] := by
  induction line with
  | nil => exact ⟨rfl, rfl⟩
  | cons b line ih =>
    obtain ⟨ih, ih'⟩ := ih (not_mem_of_not_mem_cons h)
    have hcrlf : ∀ bs bs' : Bytes, b = 0x0D → bs = 0x0A :: bs' → False :=
      fun _ _ hcr _ => ne_of_not_mem_cons h hcr.symm
    rw [cons_append, splitCrlf.eq_3 _ _ (hcrlf _), splitCrlf.eq_3 _ _ (hcrlf _), ih, ih']
    exact ⟨rfl, rfl⟩

theorem splitCrlf_lines {lines : List Bytes} (hline : 0x0D ∉ line) (hlines : ∀ l ∈ lines, 0x0D ∉ l) :
    splitCrlf (line ++ lines.flatMap fun l => 0x0D :: 0x0A :: l) = line :: lines := by
  induction lines generalizing line with
  | nil => rw [flatMap_nil, append_nil, (splitCrlf_line hline []).2]
  | cons l lines ih =>
    rw [forall_mem_cons] at hlines
    rw [flatMap_cons]
    show splitCrlf (line ++ 0x0D :: 0x0A :: (l ++ _)) = _
    rw [(splitCrlf_line hline _).1, ih hlines.1 hlines.2]

theorem not_mem_of_mem_splitOn {sep : UInt8} (h : line ∈ bytes.splitOn sep) : sep ∉ line := by
  induction bytes generalizing line with
  | nil =>
    rw [splitOn_nil, mem_singleton] at h
    exact h ▸ not_mem_nil
  | cons b bytes ih =>
    rw [splitOn_cons_eq_if_modifyHead] at h
    split at h
    · rcases mem_cons.mp h with rfl | h
      · exact not_mem_nil
      · exact ih h
    · rename_i hb
      obtain ⟨l, ls, hsplit⟩ := exists_cons_of_ne_nil (splitOn_ne_nil sep bytes)
      rw [hsplit] at h ih
      rcases mem_cons.mp h with rfl | h
      · exact not_mem_cons_of_ne_of_not_mem (fun heq => hb (beq_iff_eq.mpr heq.symm))
          (ih (.head _))
      · exact ih (.tail _ h)

theorem splitOnce_eq_some_iff {sep : UInt8} :
    splitOnce sep line = some (name, raw) ↔ sep ∉ name ∧ line = name ++ sep :: raw := by
  unfold splitOnce
  rw [span_eq_takeWhile_dropWhile]
  constructor
  · intro h
    cases hdrop : line.dropWhile (· ≠ sep) with
    | nil => rw [hdrop] at h; cases h
    | cons c after =>
      rw [hdrop] at h
      cases h
      have hc := List.head?_dropWhile_not (· ≠ sep) line
      rw [hdrop] at hc
      have hsep : sep :: raw = line.dropWhile (· ≠ sep) := by
        rw [hdrop, show c = sep by simpa using hc]
      refine ⟨fun hmem => by simpa using mem_takeWhile_imp hmem, ?_⟩
      rw [hsep, takeWhile_append_dropWhile]
  · rintro ⟨hname, rfl⟩
    have hall : ∀ b ∈ name, decide (b ≠ sep) = true := fun b hb => decide_eq_true fun h => hname (h ▸ hb)
    rw [takeWhile_append_of_pos hall, dropWhile_append_of_pos hall]
    simp

/-! ## Blanks around a value -/

theorem trimOws_eq (bytes : Bytes) : trimOws bytes = (bytes.dropWhile isOws).rdropWhile isOws := rfl

theorem trimOws_parts (bytes : Bytes) : ∃ before after, (∀ b ∈ before, isOws b = true) ∧
    (∀ b ∈ after, isOws b = true) ∧ bytes = before ++ trimOws bytes ++ after :=
  ⟨bytes.takeWhile isOws, (bytes.dropWhile isOws).rtakeWhile isOws, fun _ => mem_takeWhile_imp,
    fun _ => mem_rtakeWhile_imp, by
      rw [trimOws_eq, append_assoc, rdropWhile_append_rtakeWhile, takeWhile_append_dropWhile]⟩

theorem trimOws_ends (bytes : Bytes) : (∀ b ∈ (trimOws bytes).head?, isOws b ≠ true) ∧
    ∀ b ∈ (trimOws bytes).getLast?, isOws b ≠ true := by
  rw [trimOws_eq]
  constructor
  · intro b hb
    obtain ⟨rest, hrest⟩ := rdropWhile_prefix isOws (bytes.dropWhile isOws)
    have hhead := List.head?_dropWhile_not isOws bytes
    rw [← hrest, List.head?_append, Option.mem_def.mp hb] at hhead
    exact Bool.eq_false_iff.mp hhead
  · intro b hb
    obtain ⟨hne, rfl⟩ := mem_getLast?_eq_getLast hb
    exact rdropWhile_last_not isOws _ hne

theorem trimOws_blanks {before after : Bytes} (hbefore : ∀ b ∈ before, isOws b = true)
    (hafter : ∀ b ∈ after, isOws b = true) (hfirst : ∀ b ∈ value.head?, isOws b ≠ true)
    (hlast : ∀ b ∈ value.getLast?, isOws b ≠ true) : trimOws (before ++ value ++ after) = value := by
  have hback : (after.reverse ++ value.reverse).dropWhile isOws = value.reverse := by
    rw [dropWhile_append_of_pos fun b hb => hafter b (mem_reverse.mp hb)]
    cases hvalue : value.reverse with
    | nil => rfl
    | cons b rest =>
      rw [← List.head?_reverse, hvalue] at hlast
      exact dropWhile_cons_of_neg (hlast b rfl)
  have hfront : (value ++ after).dropWhile isOws = value ++ after ∨ value = [] := by
    cases value with
    | nil => exact .inr rfl
    | cons b rest => exact .inl (dropWhile_cons_of_neg (hfirst b rfl))
  rw [trimOws, append_assoc, dropWhile_append_of_pos hbefore]
  rcases hfront with hfront | rfl
  · rw [hfront, reverse_append, hback, reverse_reverse]
  · rw [nil_append, dropWhile_eq_nil_iff.mpr hafter]
    rfl

/-! ## The two kinds of lines -/

theorem isTokenChar_ne : ∀ b : UInt8, isTokenChar b = true →
    b ≠ 0x0D ∧ b ≠ 0x20 ∧ b ≠ 0x3A ∧ isOws b ≠ true :=
  Dnsd.Proto.forall_octet (by decide +kernel)

theorem isToken_cons (h : isToken name = true) : ∃ b rest, name = b :: rest ∧ ∀ b ∈ name, isTokenChar b = true := by
  cases name with
  | nil => cases h
  | cons b rest => exact ⟨b, rest, rfl, all_eq_true.mp (Bool.and_eq_true_iff.mp h).2⟩

theorem isOws_ne_cr : ∀ b : UInt8, isOws b = true → b ≠ 0x0D := Dnsd.Proto.forall_octet (by decide +kernel)

theorem parseRequestLine_eq_ok_iff {method : Bytes} : parseRequestLine line = .ok (method, path) ↔
    isToken method = true ∧ IsPath path ∧ line = requestLine method path := by
  constructor
  · intro h
    unfold parseRequestLine at h
    split at h
    · cases h
    · cases h
    · cases h
    · rename_i method' path' version hsplit
      split at h
      · cases h
      split at h
      · cases h
      split at h
      · cases h
      rename_i hversion hmethod hpath
      cases h
      have hblank : 0x20 ∉ path := not_mem_of_mem_splitOn (by rw [hsplit]; simp)
      have hline : line = [0x20].intercalate [method, path, version] := by
        rw [← hsplit, intercalate_splitOn]
      rw [not_not.mp hversion] at hline
      simp only [Bool.or_eq_true, any_eq_true, not_or, not_exists, not_and, decide_eq_true_eq] at hpath
      refine ⟨by simpa using hmethod, ⟨fun hnil => hpath.1 (by rw [hnil]; rfl), fun b hb => ?_⟩, hline⟩
      exact ⟨(hpath.2 b hb).1, (hpath.2 b hb).2, fun heq => hblank (heq ▸ hb)⟩
    · cases h
  · rintro ⟨hmethod, ⟨hne, hpath⟩, rfl⟩
    obtain ⟨_, _, _, htoken⟩ := isToken_cons hmethod
    have hsplit : (requestLine method path).splitOn 0x20 = [method, path, text "HTTP/1.1"] := by
      unfold requestLine
      rw [splitOn_append_cons_self_of_not_mem fun hmem => (isTokenChar_ne _ (htoken _ hmem)).2.1 rfl,
        splitOn_append_cons_self_of_not_mem fun hmem => (hpath _ hmem).2.2 rfl]
      rfl
    have hok : (path.isEmpty || path.any fun b => b < 0x20 || b = 0x7F) = false := by
      rw [isEmpty_eq_false_iff.mpr hne, Bool.false_or, any_eq_false]
      intro b hb
      simp [hpath b hb]
    simp [parseRequestLine, hsplit, hmethod, hok]

theorem parseHeaderLine_eq_ok_iff {h : Bytes × Bytes} : parseHeaderLine line = .ok h ↔
    ∃ raw : RawHeader, raw.Valid ∧ line = raw.line ∧ h = raw.field := by
  constructor
  · intro hok
    unfold parseHeaderLine at hok
    split at hok
    · cases hok
    split at hok
    · cases hok
    split at hok
    · cases hok
    rename_i name value hsplit
    split at hok
    · cases hok
    split at hok
    · cases hok
    rename_i hname hvalue
    cases hok
    obtain ⟨_, hline⟩ := splitOnce_eq_some_iff.mp hsplit
    obtain ⟨before, after, hbefore, hafter, hparts⟩ := trimOws_parts value
    obtain ⟨hfirst, hlast⟩ := trimOws_ends value
    refine ⟨⟨name, before, trimOws value, after⟩, ⟨by simpa using hname, hbefore, hafter, hfirst, hlast, ?_⟩,
      ?_, rfl⟩
    · simpa [and_assoc] using hvalue
    · rw [hline, RawHeader.line, ← hparts]
  · rintro ⟨raw, hraw, rfl, rfl⟩
    obtain ⟨b, rest, hname, htoken⟩ := isToken_cons hraw.name
    have hsplit : splitOnce 0x3A raw.line = some (raw.name, raw.before ++ raw.value ++ raw.after) :=
      splitOnce_eq_some_iff.mpr ⟨fun hmem => (isTokenChar_ne _ (htoken _ hmem)).2.2.1 rfl, rfl⟩
    have hhead : raw.line = b :: (rest ++ 0x3A :: (raw.before ++ raw.value ++ raw.after)) := by
      rw [RawHeader.line, hname, cons_append]
    have hfolded : isOws b = false :=
      Bool.eq_false_iff.mpr (isTokenChar_ne b (htoken b (hname ▸ .head _))).2.2.2
    have hvalue : (raw.value.any fun b => b = 0 || b = 0x0D || b = 0x0A) = false := by
      rw [any_eq_false]
      intro b hb
      simp [hraw.value b hb]
    unfold parseHeaderLine
    rw [hsplit]
    simp only [hhead, isEmpty_cons, List.head?_cons, Option.any_some, hfolded, hraw.name, Bool.not_true,
      trimOws_blanks hraw.before hraw.after hraw.first hraw.last, hvalue]
    rfl

theorem parseHeaderLines_eq_ok_iff {lines : List Bytes} {headers : Headers} :
    lines.mapM parseHeaderLine = .ok headers ↔ ∃ raws : List RawHeader, (∀ h ∈ raws, h.Valid) ∧
      lines = raws.map RawHeader.line ∧ headers = raws.map RawHeader.field := by
  induction lines generalizing headers with
  | nil =>
    constructor
    · rintro ⟨⟩
      exact ⟨[], forall_mem_nil _, rfl, rfl⟩
    · rintro ⟨raws, _, hlines, rfl⟩
      rw [map_eq_nil_iff.mp hlines.symm]
      rfl
  | cons line lines ih =>
    rw [mapM_cons]
    constructor
    · intro h
      cases hline : parseHeaderLine line with
      | error e => rw [hline] at h; cases h
      | ok field =>
        cases hlines : lines.mapM parseHeaderLine with
        | error e => rw [hline, hlines] at h; cases h
        | ok fields =>
          rw [hline, hlines] at h
          cases h
          obtain ⟨raw, hraw, rfl, rfl⟩ := parseHeaderLine_eq_ok_iff.mp hline
          obtain ⟨raws, hraws, rfl, rfl⟩ := ih.mp hlines
          exact ⟨raw :: raws, forall_mem_cons.mpr ⟨hraw, hraws⟩, rfl, rfl⟩
    · rintro ⟨raws, hraws, hlines, rfl⟩
      cases raws with
      | nil => cases hlines
      | cons raw raws =>
        cases hlines
        rw [forall_mem_cons] at hraws
        rw [parseHeaderLine_eq_ok_iff.mpr ⟨raw, hraws.1, rfl, rfl⟩, ih.mpr ⟨raws, hraws.2, rfl, rfl⟩]
        rfl

theorem requestLine_no_cr {method : Bytes} (hmethod : isToken method = true) (hpath : IsPath path) :
    0x0D ∉ requestLine method path := by
  obtain ⟨_, _, _, htoken⟩ := isToken_cons hmethod
  have hversion : 0x0D ∉ 0x20 :: text "HTTP/1.1" := by decide
  unfold requestLine
  rw [mem_append, mem_cons, mem_append, not_or, not_or, not_or]
  exact ⟨fun h => (isTokenChar_ne _ (htoken _ h)).1 rfl, by decide, fun h => (hpath.2 _ h).1 (by decide), hversion⟩

theorem RawHeader.Valid.no_cr {h : RawHeader} (hvalid : h.Valid) : 0x0D ∉ h.line := by
  obtain ⟨_, _, _, htoken⟩ := isToken_cons hvalid.name
  unfold RawHeader.line
  rw [mem_append, mem_cons, mem_append, mem_append, not_or, not_or, not_or, not_or]
  exact ⟨fun h => (isTokenChar_ne _ (htoken _ h)).1 rfl, by decide,
    ⟨fun h => isOws_ne_cr _ (hvalid.before _ h) rfl, fun h => (hvalid.value _ h).2.1 rfl⟩,
    fun h => isOws_ne_cr _ (hvalid.after _ h) rfl⟩

/-! ## The head -/

/-- **The grammar of request heads.**  A head is accepted exactly if it is valid UTF-8 and the rendering of a
method, a path and header lines; and these are what the parser returns. -/
theorem request_head_grammar (bytes : Bytes) (req : RequestHead) : parseRequestHead bytes = .ok req ↔
    isUtf8 bytes = true ∧ isToken req.method = true ∧ IsPath req.path ∧
      ∃ raws : List RawHeader, (∀ h ∈ raws, h.Valid) ∧ bytes = renderHead req.method req.path raws ∧
        req.headers = raws.map RawHeader.field := by
  have hrender : ∀ raws : List RawHeader, renderHead req.method req.path raws =
      requestLine req.method req.path ++ (raws.map RawHeader.line).flatMap fun l => 0x0D :: 0x0A :: l := by
    intro raws
    rw [renderHead, flatMap_map]
  constructor
  · intro h
    unfold parseRequestHead at h
    split at h
    · cases h
    rename_i hutf
    obtain ⟨line, lines, hsplit, hjoin⟩ := splitCrlf_join bytes
    rw [hsplit] at h
    cases hline : parseRequestLine line with
    | error e => simp only [hline] at h; cases h
    | ok target =>
      cases hlines : lines.mapM parseHeaderLine with
      | error e => simp only [hline, hlines] at h; cases h
      | ok headers =>
        simp only [hline, hlines] at h
        cases h
        obtain ⟨hmethod, hpath, rfl⟩ := parseRequestLine_eq_ok_iff.mp hline
        obtain ⟨raws, hraws, rfl, rfl⟩ := parseHeaderLines_eq_ok_iff.mp hlines
        exact ⟨by simpa using hutf, hmethod, hpath, raws, hraws, hjoin.trans (hrender raws).symm, rfl⟩
  · rintro ⟨hutf, hmethod, hpath, raws, hraws, hbytes, hheaders⟩
    have hsplit : splitCrlf bytes = requestLine req.method req.path :: raws.map RawHeader.line := by
      rw [hbytes, hrender]
      refine splitCrlf_lines (requestLine_no_cr hmethod hpath) fun l hl => ?_
      obtain ⟨raw, hraw, rfl⟩ := mem_map.mp hl
      exact (hraws raw hraw).no_cr
    unfold parseRequestHead
    rw [hsplit, hutf]
    simp only [parseRequestLine_eq_ok_iff.mpr ⟨hmethod, hpath, rfl⟩,
      parseHeaderLines_eq_ok_iff.mpr ⟨raws, hraws, rfl, rfl⟩]
    rw [← hheaders]
    rfl

end Dnsd.Io
