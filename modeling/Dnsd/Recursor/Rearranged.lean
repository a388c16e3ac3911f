/-
# Rearranged — messages that differ in the order of their records.

Every collection point of the validator picks one signature for an RRset by its position.  Here are the relations
between two messages under which the picks agree.  Verification sorts the records and ignores the case of the
owner (`Crypto.Canonical`).
-/
import Mathlib.Data.List.Perm.Basic
import Dnsd.Recursor.AnswerCheck

namespace Dnsd.Recursor

open Proto Lib Prog

variable {as as' bs bs' rs rs' : List Record} {kind : Record → Bool} {m m' : Message} {name : Name}

/-- `verify_rrsig` puts the records in canonical order and compares owner names without case. -/
def Crypto.Canonical (C : Crypto) : Prop :=
  ∀ (key : DNSKEY) (name name' : Name) (cls : DNSClass) (sig : RRSIG) (rs rs' : List Record),
    name.same name' = true → rs.Perm rs' →
    C.verifyRrsig key name cls sig rs = C.verifyRrsig key name' cls sig rs'

/-! ## Sets and their signatures -/

/-- One RRset in two orders.  Its owner and class are read off its first record. -/
structure SameSet (rs rs' : List Record) : Prop where
  perm : rs.Perm rs'
  owner : rs.head?.map (fun r => (r.name.toLowercase, r.dnsClass)) =
    rs'.head?.map fun r => (r.name.toLowercase, r.dnsClass)

theorem SameSet.symm (h : SameSet rs rs') : SameSet rs' rs := ⟨h.perm.symm, h.owner.symm⟩

theorem SameSet.verifyRrset {C : Crypto} (hC : C.Canonical) (h : SameSet rs rs') (sig : RRSIG)
    (key : DNSKEY) : verifyRrset C rs sig key = verifyRrset C rs' sig key := by
  obtain ⟨hperm, howner⟩ := h
  cases rs with
  | nil => rw [List.nil_perm.mp hperm]
  | cons r rs =>
    cases rs' with
    | nil => exact absurd hperm.symm.length_eq (by simp)
    | cons r' rs' =>
      simp only [List.head?_cons, Option.map_some, Option.some.injEq, Prod.mk.injEq] at howner
      show C.verifyRrsig key r.name r.dnsClass sig _ = C.verifyRrsig key r'.name r'.dnsClass sig _
      rw [howner.2]
      exact hC key _ _ _ sig _ _ (Name.same_iff.mpr howner.1) hperm

def sigsOver (name : Name) (rtype : RecordType) (rs : List Record) : List RRSIG :=
  rs.filterMap fun r => r.rrsig?.bind fun s =>
    if s.typeCovered == rtype && r.name.same name then some s else none

theorem mem_sigsOver {rtype : RecordType} {sig : RRSIG} :
    sig ∈ sigsOver name rtype rs ↔
      ∃ r ∈ rs, r.rrsig? = some sig ∧ sig.typeCovered = rtype ∧ r.name.same name = true := by
  unfold sigsOver
  rw [List.mem_filterMap]
  constructor
  · rintro ⟨r, hr, hbind⟩
    obtain ⟨s, hs, hif⟩ := Option.bind_eq_some_iff.mp hbind
    split at hif
    · rename_i hc
      cases hif
      simp only [Bool.and_eq_true, beq_iff_eq] at hc
      exact ⟨r, hr, hs, hc.1, hc.2⟩
    · nomatch hif
  · rintro ⟨r, hr, hs, htype, hname⟩
    exact ⟨r, hr, by simp [hs, htype, hname]⟩

theorem sigsOver_append {rtype : RecordType} :
    sigsOver name rtype (rs ++ rs') = sigsOver name rtype rs ++ sigsOver name rtype rs' :=
  List.filterMap_append

theorem sigsOver_congr {name' : Name} {rtype : RecordType} (h : name.same name' = true) :
    sigsOver name rtype rs = sigsOver name' rtype rs := by
  unfold sigsOver
  have hs : ∀ n : Name, n.same name = n.same name' := by
    intro n
    rw [Name.same, Name.same, Name.same_iff.mp h]
  simp only [hs]

@[simp] theorem sigsOver_lowercase {rtype : RecordType} :
    sigsOver name rtype (rs.map Record.lowercaseName) = sigsOver name rtype rs := by
  unfold sigsOver
  rw [List.filterMap_map]
  have hs : ∀ r : Record, r.lowercaseName.rrsig? = r.rrsig? := fun _ => rfl
  simp only [Function.comp_def, hs, Record.lowercaseName_name, Name.same_toLowercase_left]

theorem coveringSig_eq {rtype : RecordType} :
    coveringSig (answerSigs rs) name rtype = (sigsOver name rtype rs).head? := by
  unfold coveringSig answerSigs sigsOver
  induction rs with
  | nil => rfl
  | cons r rs ih =>
    simp only [List.filterMap_cons]
    cases r.rrsig? with
    | none => exact ih
    | some s =>
      simp only [Option.map_some, List.find?_cons, Option.bind_some]
      cases s.typeCovered == rtype && r.name.same name with
      | true => rfl
      | false => exact ih

theorem authoritySig_eq {rtype : RecordType} {g : Name × List Record}
    (h : ∃ r rest, g.2 = r :: rest ∧ r.recordType = rtype) :
    authoritySig (authoritySigs rtype rs) g = (sigsOver g.1 rtype rs).head? := by
  obtain ⟨r, rest, hg, rfl⟩ := h
  unfold authoritySig authoritySigs
  simp only [hg, groupAt_collect]
  have hcmp : ∀ n : Name, (n.cmp g.1 == .eq) = n.same g.1 := by
    intro n
    rw [Bool.eq_iff_iff, beq_iff_eq, Name.cmp_eq_iff]
  simp only [hcmp]
  unfold sigsOver
  induction rs with
  | nil => rfl
  | cons r' rs ih =>
    cases hs : r'.rrsig? with
    | none => simpa [hs] using ih
    | some s =>
      by_cases htype : s.typeCovered = r.recordType
      · by_cases hname : r'.name.same g.1 = true
        · simp [hs, htype, hname]
        · simpa [hs, htype, hname] using ih
      · simpa [hs, htype] using ih

theorem lastSigOver_eq {rtype : RecordType} :
    lastSigOver rtype (rs.filter fun r => r.name.same name) = (sigsOver name rtype rs).getLast? := by
  unfold lastSigOver sigsOver
  congr 1
  induction rs with
  | nil => rfl
  | cons r rs ih =>
    by_cases hname : r.name.same name = true
    · cases hs : r.rrsig? with
      | none => simpa [hs, hname] using ih
      | some s =>
        by_cases htype : s.typeCovered = rtype
        · simpa [hs, htype, hname] using ih
        · simpa [hs, htype, hname] using ih
    · cases hs : r.rrsig? with
      | none => simpa [hname] using ih
      | some s => simpa [hname] using ih

/-! ## Sections -/

def unsigned (rs : List Record) : List Record := rs.filter fun r => r.rrsig?.isNone

def firstOf (kind : Record → Bool) (name : Name) (rs : List Record) : Option Record :=
  rs.find? fun r => kind r && r.name.same name

/-- Two orders of a section of a validated answer: other than RRSIGs the same records, and the first
RRSIG of every RRset is the same. -/
structure SameFirst (rs rs' : List Record) : Prop where
  perm : (unsigned rs).Perm (unsigned rs')
  firstSig : ∀ r ∈ unsigned rs,
    (sigsOver r.name r.recordType rs).head? = (sigsOver r.name r.recordType rs').head?

theorem SameFirst.symm (h : SameFirst rs rs') : SameFirst rs' rs :=
  ⟨h.perm.symm, fun r hr => (h.firstSig r (h.perm.mem_iff.mpr hr)).symm⟩

def isDnskey (r : Record) : Bool := r.dnskey?.isSome

def isDs (r : Record) : Bool := r.ds?.isSome

/-- Two orders of a section of a reply: other than RRSIGs the same records, the last RRSIG over every
type at every owner is the same, and the DNSKEY and DS sets start with a record of the same class. -/
structure SameLast (rs rs' : List Record) : Prop where
  perm : (unsigned rs).Perm (unsigned rs')
  lastSig : ∀ name rtype, (sigsOver name rtype rs).getLast? = (sigsOver name rtype rs').getLast?
  keyClass : ∀ name, (firstOf isDnskey name rs).map Record.dnsClass =
    (firstOf isDnskey name rs').map Record.dnsClass
  dsClass : ∀ name, (firstOf isDs name rs).map Record.dnsClass = (firstOf isDs name rs').map Record.dnsClass

theorem SameLast.symm (h : SameLast rs rs') : SameLast rs' rs :=
  ⟨h.perm.symm, fun n t => (h.lastSig n t).symm, fun n => (h.keyClass n).symm,
    fun n => (h.dsClass n).symm⟩

theorem unsigned_append : unsigned (rs ++ rs') = unsigned rs ++ unsigned rs' := List.filter_append ..

theorem unsigned_lowercase :
    unsigned (rs.map Record.lowercaseName) = (unsigned rs).map Record.lowercaseName := by
  unfold unsigned
  rw [List.filter_map]
  rfl

theorem firstOf_append :
    firstOf kind name (rs ++ rs') = (firstOf kind name rs).or (firstOf kind name rs') :=
  List.find?_append

theorem map_firstOf_lowercase (hkind : ∀ r, kind r.lowercaseName = kind r) :
    (firstOf kind name (rs.map Record.lowercaseName)).map Record.dnsClass =
      (firstOf kind name rs).map Record.dnsClass := by
  unfold firstOf
  rw [List.find?_map, Option.map_map]
  simp only [Function.comp_def, hkind, Record.lowercaseName_name, Name.same_toLowercase_left]
  rfl

theorem SameLast.append (ha : SameLast as as') (hb : SameLast bs bs') :
    SameLast (as ++ bs) (as' ++ bs') := by
  refine ⟨?_, fun name rtype => ?_, fun name => ?_, fun name => ?_⟩
  · rw [unsigned_append, unsigned_append]
    exact ha.perm.append hb.perm
  · simp only [sigsOver_append, List.getLast?_append, ha.lastSig, hb.lastSig]
  · simp only [firstOf_append, Option.map_or, ha.keyClass, hb.keyClass]
  · simp only [firstOf_append, Option.map_or, ha.dsClass, hb.dsClass]

theorem SameLast.lowercase (h : SameLast rs rs') :
    SameLast (rs.map Record.lowercaseName) (rs'.map Record.lowercaseName) := by
  refine ⟨?_, fun name rtype => ?_, fun name => ?_, fun name => ?_⟩
  · rw [unsigned_lowercase, unsigned_lowercase]
    exact h.perm.map _
  · rw [sigsOver_lowercase, sigsOver_lowercase]
    exact h.lastSig name rtype
  · rw [map_firstOf_lowercase fun _ => rfl, map_firstOf_lowercase fun _ => rfl]
    exact h.keyClass name
  · rw [map_firstOf_lowercase fun _ => rfl, map_firstOf_lowercase fun _ => rfl]
    exact h.dsClass name

structure SameReply (m m' : Message) : Prop where
  answers : SameLast m.answers m'.answers
  authorities : SameLast m.authorities m'.authorities

theorem SameReply.lowercase (h : SameReply m m') :
    SameReply m.lowercaseResponseNames m'.lowercaseResponseNames :=
  ⟨h.answers.lowercase, h.authorities.lowercase⟩

theorem filter_kind (hkind : ∀ r, kind r = true → r.rrsig? = none) (name : Name) (rs : List Record) :
    (rs.filter fun r => r.name.same name).filter kind =
      (unsigned rs).filter fun r => kind r && r.name.same name := by
  rw [unsigned, List.filter_filter, List.filter_filter]
  refine List.filter_congr fun r _ => ?_
  cases hr : kind r with
  | true => simp [hkind r hr]
  | false => rfl

theorem sameSet_of_first (hkind : ∀ r, kind r = true → r.rrsig? = none)
    (hperm : (unsigned rs).Perm (unsigned rs'))
    (hclass : (firstOf kind name rs).map Record.dnsClass = (firstOf kind name rs').map Record.dnsClass) :
    SameSet ((rs.filter fun r => r.name.same name).filter kind)
      ((rs'.filter fun r => r.name.same name).filter kind) := by
  have hhead : ∀ l : List Record, ((l.filter fun r => r.name.same name).filter kind).head?.map
      (fun r => (r.name.toLowercase, r.dnsClass)) =
      ((firstOf kind name l).map Record.dnsClass).map fun c => (name.toLowercase, c) := by
    intro l
    rw [List.filter_filter, List.head?_filter, Option.map_map]
    refine Option.map_congr fun r hr => ?_
    have hname : r.name.same name = true := by
      have hp := List.find?_some hr
      simp only [Bool.and_eq_true] at hp
      exact hp.2
    simp [Name.same_iff.mp hname]
  constructor
  · rw [filter_kind hkind, filter_kind hkind]
    exact hperm.filter _
  · rw [hhead, hhead, hclass]

theorem rrsig?_of_isDnskey (r : Record) (h : isDnskey r = true) : r.rrsig? = none := by
  unfold isDnskey Record.dnskey? at h
  unfold Record.rrsig?
  split at h
  · rename_i hdata
    rw [hdata]
  · nomatch h

theorem rrsig?_of_isDs (r : Record) (h : isDs r = true) : r.rrsig? = none := by
  unfold isDs Record.ds? at h
  unfold Record.rrsig?
  split at h
  · rename_i hdata
    rw [hdata]
  · nomatch h

structure SameKeys (set set' : DnskeySet) : Prop where
  records : SameSet set.records set'.records
  keys : set.keys.Perm set'.keys
  sig : set.sig = set'.sig

theorem SameLast.dnskeySetOf (h : SameLast rs rs') (zone : Name) :
    SameKeys (dnskeySetOf zone rs) (dnskeySetOf zone rs') := by
  have hset := sameSet_of_first rrsig?_of_isDnskey h.perm (h.keyClass zone)
  refine ⟨hset, hset.perm.filterMap _, ?_⟩
  show lastSigOver .DNSKEY _ = lastSigOver .DNSKEY _
  rw [lastSigOver_eq, lastSigOver_eq, h.lastSig]

theorem SameReply.dsRecordsOf (h : SameReply m m') (zone : Name) :
    SameSet (dsRecordsOf zone m) (dsRecordsOf zone m') :=
  have hboth := h.answers.append h.authorities
  sameSet_of_first rrsig?_of_isDs hboth.perm (hboth.dsClass zone)

theorem SameReply.lastDsSig (h : SameReply m m') (zone : Name) :
    lastSigOver .DS (ownRecords zone m) = lastSigOver .DS (ownRecords zone m') := by
  unfold ownRecords
  rw [lastSigOver_eq, lastSigOver_eq, (h.answers.append h.authorities).lastSig]

theorem SameSet.append (ha : SameSet as as') (hb : SameSet bs bs') : SameSet (as ++ bs) (as' ++ bs') := by
  refine ⟨ha.perm.append hb.perm, ?_⟩
  simp only [List.head?_append, Option.map_or, ha.owner, hb.owner]

/-! ## Chains of trusted keys -/

def SameEntry (e e' : Name × List DNSKEY) : Prop := e.1 = e'.1 ∧ e.2.Perm e'.2

def SameChain : ChainKeys → ChainKeys → Prop := List.Forall₂ SameEntry

section

variable {chain chain' : ChainKeys} {keys keys' : List DNSKEY} {zone : Name}

theorem SameChain.refl (chain : ChainKeys) : SameChain chain chain :=
  List.forall₂_same.mpr fun _ _ => ⟨rfl, .refl _⟩

theorem SameChain.hasZone (h : SameChain chain chain') (zone : Name) :
    hasZone chain zone = hasZone chain' zone := by
  unfold Recursor.hasZone
  induction h with
  | nil => rfl
  | cons he _ ih => rw [List.any_cons, List.any_cons, he.1, ih]

theorem SameChain.closestEntry (h : SameChain chain chain') (zone : Name) :
    Option.Rel SameEntry (closestEntry chain zone) (closestEntry chain' zone) := by
  suffices ∀ best best', Option.Rel SameEntry best best' →
      Option.Rel SameEntry (chain.foldl (closer zone) best) (chain'.foldl (closer zone) best') from
    this none none .none
  induction h with
  | nil => exact fun _ _ hbest => hbest
  | @cons e e' _ _ he _ ih =>
    intro best best' hbest
    refine ih _ _ ?_
    unfold closer
    rw [he.1]
    split
    · cases hbest with
      | none => exact .some he
      | some hb =>
        dsimp only
        rw [hb.1]
        split
        · exact .some he
        · exact .some hb
    · exact hbest

theorem SameChain.closestTrustedKeys (h : SameChain chain chain') (zone : Name) :
    (closestTrustedKeys chain zone).Perm (closestTrustedKeys chain' zone) := by
  unfold Recursor.closestTrustedKeys
  have hrel := h.closestEntry zone
  generalize Recursor.closestEntry chain zone = e, Recursor.closestEntry chain' zone = e' at hrel ⊢
  cases hrel with
  | none => exact .refl _
  | some he => exact he.2

theorem SameChain.append (h : SameChain chain chain') (hk : keys.Perm keys') :
    SameChain (chain ++ [(zone, keys)]) (chain' ++ [(zone, keys')]) :=
  List.rel_append h (.cons ⟨rfl, hk⟩ .nil)

theorem SameChain.putEntry (h : SameChain chain chain') (hk : keys.Perm keys') :
    SameChain (putEntry chain zone keys) (putEntry chain' zone keys') := by
  refine SameChain.append ?_ hk
  refine List.rel_filter ?_ h
  intro e e' he
  simp [he.1]

theorem SameChain.missingAncestors (h : SameChain chain chain') (labels : List Label) :
    missingAncestors chain labels = missingAncestors chain' labels := by
  induction labels with
  | nil => simp only [Recursor.missingAncestors, h.hasZone]
  | cons l ls ih => simp only [Recursor.missingAncestors, h.hasZone, ih]

end

/-! ## The checks at the end of a validation -/

def SameChoice (chain chain' : ChainKeys) : Prop :=
  ∀ zone, (closestTrustedKeys chain zone).Perm (closestTrustedKeys chain' zone)

section

variable {C : Crypto} {now : UInt32} {chain chain' : ChainKeys} {kind : Record → Bool} {m m' : Message}
  {qname : Name} {rs rs' : List Record} {sets sets' : List (Name × List Record)}

theorem VerifiedBy.rearranged (hC : C.Canonical) {sig : RRSIG} (h : VerifiedBy C now chain rs sig)
    (hset : SameSet rs rs') (hk : SameChoice chain chain') : VerifiedBy C now chain' rs' sig := by
  obtain ⟨hwin, k, hmem, hver⟩ := h
  refine ⟨hwin, k, (hk _).mem_iff.mp hmem, ?_⟩
  rw [← hset.verifyRrset hC]
  exact hver

theorem SameFirst.checkAnswerRrsets (hC : C.Canonical) (h : SameFirst rs rs')
    (hk : SameChoice chain chain')
    (hsec : checkAnswerRrsets C now chain (answerSigs rs) (answerGroups rs) = .secure) :
    checkAnswerRrsets C now chain' (answerSigs rs') (answerGroups rs') = .secure := by
  rw [checkAnswerRrsets_eq_secure_iff] at hsec ⊢
  intro g' hg'
  obtain ⟨g, hg, hcmp, hperm⟩ := collect_perm h.perm.symm hg'
  obtain ⟨hname, htype, hclass⟩ := RrsetKey.cmp_eq_iff.mp hcmp
  obtain ⟨sig, hsig, hver⟩ := hsec g hg
  obtain ⟨r, rest, hr, hkey⟩ := (mem_collect (fun _ => Std.ReflCmp.compare_self) hg).opened
  obtain ⟨r', rest', hr', hkey'⟩ := (mem_collect (fun _ => Std.ReflCmp.compare_self) hg').opened
  have hmem : r' ∈ unsigned rs' :=
    ((mem_collect (fun _ => Std.ReflCmp.compare_self) hg').mem r' (by simp [hr'])).1
  have hfirst := h.symm.firstSig r' hmem
  have hset : SameSet g.2 g'.2 := by
    refine ⟨hperm.symm, ?_⟩
    have hn : r.name.toLowercase = r'.name.toLowercase := by
      rw [← hkey, ← hkey'] at hname
      exact (Name.same_iff.mp hname).symm
    have hc : r.dnsClass = r'.dnsClass := by
      rw [← hkey, ← hkey'] at hclass
      exact hclass.symm
    simp [hr, hr', hn, hc]
  refine ⟨sig, ?_, hver.rearranged hC hset hk⟩
  rw [coveringSig_eq] at hsig ⊢
  rw [← hsig, ← hkey', ← htype, ← hkey', ← sigsOver_congr hname, ← hkey']
  exact hfirst

def headSet (g : Name × List Record) : Name × List Record := (g.1, g.2.head?.toList)

theorem map_headSet (h : heads sets = heads sets') : sets.map headSet = sets'.map headSet := by
  have hmap : ∀ l : List (Name × List Record),
      l.map headSet = (heads l).map fun e => (e.1, e.2.toList) := by
    intro l
    rw [heads, List.map_map]
    rfl
  rw [hmap, hmap, h]

theorem headNsec_headSet (g : Name × List Record) : headNsec (headSet g).2 = headNsec g.2 := by
  obtain ⟨name, rs⟩ := g
  cases rs with
  | nil => rfl
  | cons r rs =>
    obtain ⟨owner, cls, ttl, data⟩ := r
    cases data <;> rfl

theorem headNsec3_headSet (g : Name × List Record) : headNsec3 (headSet g).2 = headNsec3 g.2 := by
  obtain ⟨name, rs⟩ := g
  cases rs with
  | nil => rfl
  | cons r rs =>
    obtain ⟨owner, cls, ttl, data⟩ := r
    cases data <;> rfl

theorem proveDenialNsec_heads (h : heads sets = heads sets') (qname : Name) (qtype : RecordType)
    (rcode : ResponseCode) :
    proveDenialNsec sets qname qtype rcode = proveDenialNsec sets' qname qtype rcode := by
  have hcut : ∀ l : List (Name × List Record),
      proveDenialNsec (l.map headSet) qname qtype rcode = proveDenialNsec l qname qtype rcode := by
    intro l
    have hcovers : ∀ seen g, nsecCovers qname.toLowercase qtype seen (headSet g) =
        nsecCovers qname.toLowercase qtype seen g := by
      intro seen g
      unfold nsecCovers
      rw [headNsec_headSet]
      rfl
    unfold proveDenialNsec
    simp only [List.filter_map, List.findSome?_map, List.foldl_map, Function.comp_def,
      headNsec_headSet, hcovers]
    rfl
  rw [← hcut sets, ← hcut sets', map_headSet h]

theorem proveDenialNsec3_heads (h : heads sets = heads sets') (qname : Name) (qtype : RecordType)
    (rcode : ResponseCode) :
    proveDenialNsec3 C sets qname qtype rcode = proveDenialNsec3 C sets' qname qtype rcode := by
  have hcut : ∀ l : List (Name × List Record),
      proveDenialNsec3 C (l.map headSet) qname qtype rcode = proveDenialNsec3 C l qname qtype rcode := by
    intro l
    have hinterval : ∀ g, nsec3Interval (headSet g) = nsec3Interval g := by
      intro g
      unfold nsec3Interval
      rw [headNsec3_headSet]
      rfl
    unfold proveDenialNsec3
    simp only [List.findSome?_map, List.filterMap_map, Function.comp_def, headNsec3_headSet, hinterval]
  rw [← hcut sets, ← hcut sets', map_headSet h]

/-- Two orders of an answer to validate: the first RRSIG of every RRset is the same, and so is the first
NSEC and the first NSEC3 record of every owner. -/
structure SameAnswer (m m' : Message) : Prop where
  queries : m.queries = m'.queries
  responseCode : m.responseCode = m'.responseCode
  answers : SameFirst m.answers m'.answers
  authorities : SameFirst m.authorities m'.authorities
  nsec : ∀ name, firstOf isNsec name m.authorities = firstOf isNsec name m'.authorities
  nsec3 : ∀ name, firstOf isNsec3 name m.authorities = firstOf isNsec3 name m'.authorities

theorem SameAnswer.symm (h : SameAnswer m m') : SameAnswer m' m :=
  ⟨h.queries.symm, h.responseCode.symm, h.answers.symm, h.authorities.symm,
    fun n => (h.nsec n).symm, fun n => (h.nsec3 n).symm⟩

theorem find?_kind_eq_firstOf {name : Name} :
    (rs.filter kind).find? (fun r => r.name.cmp name == .eq) = firstOf kind name rs := by
  rw [List.find?_filter]
  refine congrArg (fun p => rs.find? p) (funext fun r => ?_)
  simp [Name.cmp_eq_iff]

theorem heads_authoritySets (h : ∀ name, firstOf kind name rs = firstOf kind name rs') :
    heads (authoritySets kind rs) = heads (authoritySets kind rs') := by
  refine heads_collect_congr fun name => ?_
  rw [find?_kind_eq_firstOf, find?_kind_eq_firstOf, h]

theorem SameFirst.verifyAuthorityRrsets (hC : C.Canonical) {rtype : RecordType}
    (hkind : ∀ r, kind r = true → r.rrsig? = none ∧ r.recordType = rtype) (h : SameFirst rs rs')
    (hfirst : ∀ name, firstOf kind name rs = firstOf kind name rs') (hk : SameChoice chain chain')
    (hok : verifyAuthorityRrsets C now chain (authoritySigs rtype rs) (authoritySets kind rs) = .ok ()) :
    verifyAuthorityRrsets C now chain' (authoritySigs rtype rs') (authoritySets kind rs') = .ok () := by
  rw [verifyAuthorityRrsets_eq_ok_iff] at hok ⊢
  have hsigned : ∀ l : List Record, (unsigned l).filter kind = l.filter kind := by
    intro l
    rw [unsigned, List.filter_filter]
    refine List.filter_congr fun r _ => ?_
    cases hr : kind r with
    | true => simp [(hkind r hr).1]
    | false => rfl
  have hperm : (rs'.filter kind).Perm (rs.filter kind) := by
    rw [← hsigned rs, ← hsigned rs']
    exact h.perm.symm.filter _
  intro g' hg'
  obtain ⟨g, hg, hcmp, hmembers⟩ := collect_perm hperm hg'
  have hname : g'.1.same g.1 = true := Name.cmp_eq_iff.mp hcmp
  obtain ⟨sig, hsig, hver⟩ := hok g hg
  have hopen : ∀ {l : List Record} {e : Name × List Record}, e ∈ authoritySets kind l →
      ∃ r rest, e.2 = r :: rest ∧ r.name = e.1 ∧ r ∈ l.filter kind ∧ firstOf kind e.1 l = some r := by
    intro l e he
    have hgroup := mem_collect (fun _ => Std.ReflCmp.compare_self) he
    obtain ⟨r, rest, hr, hkey⟩ := hgroup.opened
    refine ⟨r, rest, hr, hkey, (hgroup.mem r (by simp [hr])).1, ?_⟩
    rw [← find?_kind_eq_firstOf, ← List.head?_filter, ← collect_eq_filter he, hr, List.head?_cons]
  obtain ⟨r, rest, hr, hkey, hmem, hfst⟩ := hopen hg
  obtain ⟨r', rest', hr', hkey', hmem', hfst'⟩ := hopen hg'
  -- The set starts with the same record on both sides.
  have hrr : r = r' := by
    have hsame : firstOf kind g'.1 rs' = firstOf kind g.1 rs' := by
      unfold firstOf
      have hn : ∀ n : Name, n.same g'.1 = n.same g.1 := by
        intro n
        rw [Name.same, Name.same, Name.same_iff.mp hname]
      simp only [hn]
    rw [hsame, ← hfirst, hfst] at hfst'
    exact Option.some.inj hfst'
  subst hrr
  have hrtype := (hkind r (List.mem_filter.mp hmem).2).2
  have hset : SameSet g.2 g'.2 := ⟨hmembers.symm, by rw [hr, hr']; rfl⟩
  refine ⟨sig, ?_, hver.rearranged hC hset hk⟩
  rw [authoritySig_eq ⟨r, rest, hr, hrtype⟩] at hsig
  rw [authoritySig_eq ⟨r, rest', hr', hrtype⟩, ← hsig, ← hkey, ← hkey', ← hrtype]
  refine (h.firstSig r ?_).symm
  rw [unsigned, List.mem_filter]
  exact ⟨(List.mem_filter.mp hmem).1, by simp [(hkind r (List.mem_filter.mp hmem).2).1]⟩

theorem isNsec_spec (r : Record) (h : isNsec r = true) : r.rrsig? = none ∧ r.recordType = .NSEC := by
  unfold isNsec at h
  unfold Record.rrsig? Record.recordType
  split at h
  · rename_i hdata
    rw [hdata]
    exact ⟨rfl, rfl⟩
  · nomatch h

theorem isNsec3_spec (r : Record) (h : isNsec3 r = true) : r.rrsig? = none ∧ r.recordType = .NSEC3 := by
  unfold isNsec3 at h
  unfold Record.rrsig? Record.recordType
  split at h
  · rename_i hdata
    rw [hdata]
    exact ⟨rfl, rfl⟩
  · nomatch h

theorem isEmpty_of_heads (h : heads sets = heads sets') : sets.isEmpty = sets'.isEmpty := by
  have hlen := congrArg List.isEmpty h
  simpa [heads] using hlen

theorem SameAnswer.validateDenial (hC : C.Canonical) (h : SameAnswer m m')
    (hk : SameChoice chain chain') {qtype : RecordType}
    (hsec : validateDenial C now m chain qname qtype = .secure) :
    validateDenial C now m' chain' qname qtype = .secure := by
  have hnsec := heads_authoritySets h.nsec
  have hnsec3 := heads_authoritySets h.nsec3
  obtain ⟨hv, hv3⟩ := validateDenial_eq_secure hsec
  have hv' := h.authorities.verifyAuthorityRrsets hC isNsec_spec h.nsec hk
    (verifyAuthorityRrsets_eq_ok_iff.mpr hv)
  have hv3' := h.authorities.verifyAuthorityRrsets hC isNsec3_spec h.nsec3 hk
    (verifyAuthorityRrsets_eq_ok_iff.mpr hv3)
  unfold Recursor.validateDenial at hsec ⊢
  simp only [verifyAuthorityRrsets_eq_ok_iff.mpr hv, verifyAuthorityRrsets_eq_ok_iff.mpr hv3] at hsec
  simp only [hv', hv3', ← isEmpty_of_heads hnsec, ← isEmpty_of_heads hnsec3, ← h.responseCode,
    ← proveDenialNsec_heads hnsec, ← proveDenialNsec3_heads hnsec3]
  exact hsec

theorem SameAnswer.secure (hC : C.Canonical) (h : SameAnswer m m') (hk : SameChoice chain chain')
    {qtype : RecordType} (hsec : validateAnswerAgainstChain C now m chain qname qtype = .secure) :
    validateAnswerAgainstChain C now m' chain' qname qtype = .secure := by
  have hempty : (answerGroups m.answers).isEmpty = (answerGroups m'.answers).isEmpty := by
    rw [Bool.eq_iff_iff, List.isEmpty_iff, List.isEmpty_iff]
    unfold answerGroups
    rw [collect_eq_nil_iff, collect_eq_nil_iff]
    constructor
    · intro hnil
      have hperm := h.answers.perm
      rw [unsigned, hnil] at hperm
      exact List.nil_perm.mp hperm
    · intro hnil
      have hperm := h.answers.perm.symm
      rw [unsigned, hnil] at hperm
      exact List.nil_perm.mp hperm
  unfold validateAnswerAgainstChain at hsec ⊢
  simp only [← hempty] at hsec ⊢
  split at hsec
  · have hden : Recursor.validateDenial C now m chain qname qtype = .secure := by
      cases hd : Recursor.validateDenial C now m chain qname qtype with
      | secure => rfl
      | insecure => rw [hd] at hsec; nomatch hsec
      | bogus reason => rw [hd] at hsec; nomatch hsec
    rename_i hnil
    rw [if_pos hnil, h.validateDenial hC hk hden]
    rfl
  · rename_i hnil
    rw [if_neg hnil]
    exact h.answers.checkAnswerRrsets hC hk hsec

end

end Dnsd.Recursor
