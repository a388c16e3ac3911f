/-
# AnchorFile — what the text of the anchor file means.

Comments should say nothing, and a process that starts from the file should trust what the writer trusted.
Neither holds of every file: parentheses are counted in comments, a REVOKE flag is not written, and an owner name
may need an escape that the reader does not know.
-/
import Dnsd.Recursor.AnchorText

namespace Dnsd.Recursor

open Proto Lib List

/-! ## Comments -/

section

variable {pre comment comment' post : List Char}

theorem flatten_comment (pre comment post : List Char) :
    flatten 0 (pre ++ ';' :: (comment ++ post)) = flatten 0 pre ++ ';' ::
      (flatten (depthAfter 0 pre) comment ++ flatten (depthAfter (depthAfter 0 pre) comment) post) := by
  rw [flatten_append, flatten, if_neg (by decide), if_neg fun h => absurd h.1 (by decide), flatten_append]

theorem eol_not_mem_flatten {depth : Nat} (h : '\n' ∉ comment) : '\n' ∉ flatten depth comment := by
  intro hmem
  rcases mem_flatten hmem with hmem | heq
  · exact h hmem
  · exact absurd heq (by decide)

theorem lineFields_replace (h : '\n' ∉ comment) (h' : '\n' ∉ comment')
    (hdepth : depthAfter (depthAfter 0 pre) comment = depthAfter (depthAfter 0 pre) comment') :
    lineFields (pre ++ ';' :: (comment ++ post)) = lineFields (pre ++ ';' :: (comment' ++ post)) := by
  unfold lineFields
  rw [flatten_comment, flatten_comment, hdepth]
  refine congrArg (List.map _) (bareLines_append_congr _ ?_)
  rw [bareLines_comment (by decide) (eol_not_mem_flatten h),
    bareLines_comment (by decide) (eol_not_mem_flatten h')]

theorem lineFields_delete (h : '\n' ∉ comment) (hpost : ∀ c ∈ post.head?, c = '\n')
    (houtside : depthAfter 0 pre = 0) (hclosed : depthAfter 0 comment = 0) :
    lineFields (pre ++ ';' :: (comment ++ post)) = lineFields (pre ++ post) := by
  have hended : ∀ c ∈ (flatten 0 post).head?, c = '\n' := by
    cases post with
    | nil => exact fun c hc => nomatch hc
    | cons d post =>
      obtain rfl : d = '\n' := hpost d rfl
      intro c hc
      exact (Option.some.inj hc).symm
  unfold lineFields
  rw [flatten_comment, flatten_append, houtside, hclosed]
  refine congrArg (List.map _) (bareLines_append_congr _ ?_)
  rw [bareLines_comment (by decide) (eol_not_mem_flatten h), bareLines_ended hended]

end

def letterDecode : Text → Option (List UInt8)
  | [] => some []
  | [_] => none
  | high :: low :: t => (letterDecode t).map fun bs => (16 * (high - 97) + (low - 97)) :: bs

def letterEncode (bs : List UInt8) : Text := bs.flatMap fun b => [97 + b / 16, 97 + b % 16]

theorem letter_octet : ∀ b : UInt8, 16 * (97 + b / 16 - 97) + (97 + b % 16 - 97) = b ∧
    isPlain (97 + b / 16) = true ∧ isPlain (97 + b % 16) = true :=
  forall_octet (by decide +kernel)

theorem letterDecode_encode (bs : List UInt8) : letterDecode (letterEncode bs) = some bs := by
  induction bs with
  | nil => rfl
  | cons b bs ih =>
    show (letterDecode (letterEncode bs)).map _ = _
    rw [ih, Option.map_some, (letter_octet b).1]

def semicolonName : Name := ⟨[[59]]⟩

def letterCodec : Codec where
  encode := letterEncode
  decode := letterDecode
  decode_encode := letterDecode_encode
  fromAscii t :=
    if t = [46] then some Name.root
    else if t = [92, 48, 55, 51, 46] ∨ t = toAscii semicolonName then some semicolonName else none
  fromAscii_root := rfl
  keyTag _ := none

def keysOf (file : List Char) : Option (List (Name × DNSKEY)) :=
  ((parsePresentationFormat letterCodec file).toOption).map TrustAnchors.keys

def plainAnchor (key : List UInt8) : Name × DNSKEY := (Name.root, ⟨DNSKEY.flagsOf true true false, 8, key⟩)

def recordText : List Char := "\n. IN DNSKEY 257 3 8 bc\n".toList

/-- The name can be written without a backslash before a semicolon or a parenthesis. -/
def Unmarked (n : Name) : Prop := ∀ l ∈ n.labels, ∀ b ∈ l, b ≠ 40 ∧ b ≠ 41 ∧ b ≠ 59

theorem escapeOctet_plain : ∀ b : UInt8, b ≠ 40 ∧ b ≠ 41 ∧ b ≠ 59 →
    ∀ isFirst, (escapeOctet isFirst b).all isPlain = true :=
  forall_octet (by decide +kernel)

theorem labelAscii_plain {l : Label} (h : ∀ b ∈ l, b ≠ 40 ∧ b ≠ 41 ∧ b ≠ 59) :
    ∀ c ∈ labelAscii l, isPlain c = true := by
  cases l with
  | nil => exact fun c hc => nomatch hc
  | cons b bs =>
    intro c hc
    rcases mem_append.mp hc with hc | hc
    · exact all_eq_true.mp (escapeOctet_plain b (h b mem_cons_self) true) c hc
    · obtain ⟨d, hd, hc⟩ := mem_flatMap.mp hc
      exact all_eq_true.mp (escapeOctet_plain d (h d (.tail _ hd)) false) c hc

theorem toAscii_plain {n : Name} (h : Unmarked n) : PlainText (toAscii n) := by
  have hdot : isPlain 46 = true := rfl
  unfold toAscii
  split
  · exact ⟨cons_ne_nil _ _, fun c hc => mem_singleton.mp hc ▸ hdot⟩
  rename_i hlabels
  constructor
  · intro hnil
    obtain ⟨l, hl⟩ := exists_mem_of_ne_nil n.labels fun h => hlabels (isEmpty_iff.mpr h)
    exact append_ne_nil_of_right_ne_nil _ (cons_ne_nil _ _) (flatMap_eq_nil_iff.mp hnil l hl)
  · intro c hc
    obtain ⟨l, hl, hc⟩ := mem_flatMap.mp hc
    rcases mem_append.mp hc with hc | hc
    · exact labelAscii_plain (h l hl) c hc
    · exact mem_singleton.mp hc ▸ hdot

section

variable {K : Codec} {now holdDown : Nat} {observed : List Observed} {e e' : ManagedKey}
  {keys : List ManagedKey} {run : List Refresh}

def PlainKeys (K : Codec) : Prop := ∀ bs, bs ≠ [] → PlainText (K.encode bs)

structure Printable (e : ManagedKey) : Prop where
  zone : PlainText e.zone
  key : PlainText e.publicKey
  flags : (∃ t, e.status = .revoked t) ∨ ∃ zoneKey sep, e.flags = DNSKEY.flagsOf zoneKey sep false

theorem printable_fromObserved (hK : PlainKeys K) {zone : Text} {key : DNSKEY} (status : KeyStatus)
    (hzone : PlainText zone) (hkey : key.publicKey ≠ []) (hrev : key.revoke = false) :
    Printable (ManagedKey.fromObserved K zone key status) :=
  ⟨hzone, hK _ hkey, Or.inr ⟨key.zoneKey, key.secureEntryPoint, by rw [← hrev]; rfl⟩⟩

theorem Fate.printable (h : Fate K now holdDown observed e e') (he : Printable e) : Printable e' := by
  cases h with
  | promoted hst =>
    refine ⟨he.zone, he.key, Or.inr (he.flags.resolve_left ?_)⟩
    rintro ⟨t, ht⟩
    cases hst.symm.trans ht
  | waiting => exact he
  | kept => exact he
  | revoked => exact ⟨he.zone, he.key, Or.inl ⟨now, rfl⟩⟩
  | remembered => exact he

theorem printable_refreshAll (hK : PlainKeys K)
    (hrun : ∀ r ∈ run, ∀ o ∈ r.observed, PlainText o.1 ∧ o.2.publicKey ≠ []) (hkeys : ∀ e ∈ keys, Printable e) :
    ∀ e ∈ refreshAll K holdDown keys run, Printable e := by
  induction run generalizing keys with
  | nil => exact hkeys
  | cons r run ih =>
    refine ih (fun r' hr' => hrun r' (.tail _ hr')) fun e' he' => ?_
    rcases mem_applyRefresh.mp he' with ⟨e, he, hfate⟩ | ⟨o, hseeds, rfl⟩
    · exact hfate.printable (hkeys e he)
    · obtain ⟨hzone, hkey⟩ := hrun r mem_cons_self o hseeds.mem
      exact printable_fromObserved hK _ hzone hkey hseeds.live

theorem Printable.unrevoked (he : Printable e) (hactive : e.isActive = true) :
    e.flags &&& ~~~0x0080 = e.flags := by
  have hstatus : e.status = .active := eq_of_beq hactive
  rcases he.flags with ⟨t, ht⟩ | ⟨zoneKey, sep, hflags⟩
  · cases hstatus.symm.trans ht
  · rw [hflags]
    cases zoneKey <;> cases sep <;> rfl

theorem mapM_renderAnchorFile (hkeys : ∀ e ∈ keys, Printable e) (ttl : Nat) :
    ((renderAnchorFile keys ttl).mapM (AnchorLine.anchor? K)).map TrustAnchors.mk =
      (fromManagedKeys K keys).toOption := by
  induction keys with
  | nil => rfl
  | cons e keys ih =>
    have hrest := ih fun e' he' => hkeys e' (.tail _ he')
    unfold renderAnchorFile at hrest ⊢
    rw [fromManagedKeys]
    by_cases hactive : e.isActive = true
    · have hflags := (hkeys e mem_cons_self).unrevoked hactive
      rw [filter_cons_of_pos hactive, map_cons, mapM_cons, if_pos hactive, toOption_bind, hflags,
        AnchorLine.anchor?, ManagedKey.toDnskey]
      cases dnskeyOf K e.flags e.algorithm e.publicKey with
      | none => rfl
      | some key =>
        cases K.fromAscii e.zone with
        | none => rfl
        | some name =>
          show Option.map _ (Option.bind (List.mapM _ _) _) = Except.toOption (fromManagedKeys K keys >>= _)
          rw [toOption_bind, ← hrest]
          cases ((keys.filter (·.isActive)).map _).mapM (AnchorLine.anchor? K) <;> rfl
    · rw [filter_cons_of_neg hactive, if_neg hactive]
      exact hrest

end

theorem letter_plainKeys : PlainKeys letterCodec := by
  intro bs hbs
  obtain ⟨b, hb⟩ := exists_mem_of_ne_nil bs hbs
  refine ⟨fun hnil => cons_ne_nil _ _ (flatMap_eq_nil_iff.mp hnil b hb), fun c hc => ?_⟩
  obtain ⟨d, -, hc⟩ := mem_flatMap.mp hc
  obtain ⟨-, hhigh, hlow⟩ := letter_octet d
  rcases mem_cons.mp hc with rfl | hc
  · exact hhigh
  · exact mem_singleton.mp hc ▸ hlow

def rollRun : List Refresh := [⟨0, [rootKey 0x56 false]⟩, ⟨30, [rootKey 0x56 false]⟩]

def refreshedKeys (file : List Char) : List ManagedKey :=
  refreshAll letterCodec 20 (priorKeys letterCodec ⟨(keysOf file).getD []⟩ none) [⟨0, []⟩]

def publishedKeys (file : List Char) : Option (List (Name × DNSKEY)) :=
  (fromManagedKeys letterCodec (refreshedKeys file)).toOption.map TrustAnchors.keys

def restartedKeys (file : List Char) : Option (List (Name × DNSKEY)) :=
  keysOf (renderAnchorText (refreshedKeys file) defaultAnchorTtl)

def revokedFile : List Char := ". IN DNSKEY 385 3 8 bc\n".toList

def semicolonFile : List Char := "\\073. IN DNSKEY 257 3 8 bc\n".toList

end Dnsd.Recursor
