/-
# WalkSpec — what a walk does and what it returns.

One lemma per function of `Iterative`.  A walk is a tour: it stands at a hop, asks servers drawn from the hop's
addresses, and moves on with a referral (`Follows`).  A `Tour` is a contract together with what is kept on the
way; a `TourOf` is a tour for names of a kind.
-/
import Dnsd.Recursor.Iterative

namespace Dnsd.Recursor

open Proto Lib Contract List

variable {last name qname target zone : Name} {msg resp : Message} {nsRecords : List Record}
  {post : (o : Op) → o.Res → Prop} {qclass : DNSClass}

/-! ## Names below names -/

/-- `b` is a proper subdomain of `a`. -/
def ProperlyBelow (a b : Name) : Prop := a.zoneOf b = true ∧ b.zoneOf a = false

theorem ProperlyBelow.length_lt {a b : Name} (h : ProperlyBelow a b) :
    a.labels.length < b.labels.length := by
  refine Nat.lt_of_le_of_ne (Name.zoneOf_length h.1) fun heq => ?_
  have hsame := Name.same_of_zoneOf_of_length h.1 (Nat.le_of_eq heq.symm)
  have hback : b.zoneOf a = true := Name.zoneOf_of_same (Name.same_symm hsame)
  rw [h.2] at hback
  nomatch hback

theorem ProperlyBelow.trans {a b c : Name} (hab : a.zoneOf b = true) (hbc : ProperlyBelow b c) :
    ProperlyBelow a c := by
  refine ⟨Name.zoneOf_trans hab hbc.1, Bool.eq_false_iff.mpr fun hca => ?_⟩
  have hcb : c.zoneOf b = true := Name.zoneOf_trans hca hab
  rw [hbc.2] at hcb
  nomatch hcb

theorem properlyBelow_of_progressive {newZone : Name} (hroot : newZone ≠ Name.root)
    (hdown : zone.zoneOf newZone = true) (hguard : nonProgressive newZone zone = false) :
    ProperlyBelow zone newZone := by
  refine ⟨hdown, Bool.eq_false_iff.mpr fun hup => ?_⟩
  have hsame := Name.zoneOf_antisymm hdown hup
  have hne : newZone.same Name.root = false :=
    Bool.eq_false_iff.mpr fun hs => hroot (Name.same_root_iff.mp hs)
  rw [nonProgressive, hne, Name.numLabels_congr hsame] at hguard
  simp at hguard

/-! ## What a walk may do -/

def Op.readOnly : Op → Bool
  | .struck | .turn | .pick _ | .shuffle _ | .query _ _ _ | .readRoots | .delegationGet _
  | .cacheGet _ => true
  | _ => false

def Op.localRead : Op → Bool
  | .struck | .turn | .pick _ | .shuffle _ | .readRoots | .delegationGet _ | .cacheGet _ => true
  | _ => false

theorem Op.readOnly_of_localRead {o : Op} (h : o.localRead = true) : o.readOnly = true := by
  cases o <;> first | rfl | nomatch h

def Referral (post : (o : Op) → o.Res → Prop) (asked zone : Name) (nsRecords : List Record)
    (glue : Glue) : Prop :=
  ∃ ip q m, post (.query asked ip q) (.parsed m) ∧
    classify m.lowercaseResponseNames q.name q.queryType = .referral zone nsRecords glue

structure WalkRules (pre : Op → Prop) (post : (o : Op) → o.Res → Prop) : Prop where
  free : ∀ o, o.readOnly = true → pre o
  glue : ∀ asked zone nsRecords glue, Referral post asked zone nsRecords glue →
    ∀ g ∈ glue, ∀ rtype msg, buildSyntheticAnswer g.1 rtype g.2 = some msg →
      pre (.cachePut (.glue asked) (CacheKey.of g.1 rtype .IN) msg)
  zoneNs : ∀ asked zone nsRecords glue, Referral post asked zone nsRecords glue →
    ∀ msg, zoneNsMessage zone nsRecords = some msg →
      pre (.cachePut (.zoneNs asked) (CacheKey.of zone .NS .IN) msg)

/-! ## What a walk returns -/

/-- CNAME records lead from the first name to the second. -/
inductive CnamePath (records : List Record) : Name → Name → Prop
  | nil (name : Name) : CnamePath records name name
  | cons {name target last : Name} {r : Record} : r ∈ records → r.name.same name = true →
      r.data = .cname target → CnamePath records target.toLowercase last →
      CnamePath records name last

theorem CnamePath.mono {records records' : List Record} (h : CnamePath records name last)
    (hsub : ∀ r ∈ records, r ∈ records') : CnamePath records' name last := by
  induction h with
  | nil name => exact .nil name
  | cons hr hs hd _ ih => exact .cons (hsub _ hr) hs hd ih

def Classification.terminal : Classification → Bool
  | .answer | .nxDomain | .empty => true
  | _ => false

/-- The message follows CNAMEs to a name whose own response ends the chase, and closes with the answers
of that response and its response code. -/
structure Resolved (post : (o : Op) → o.Res → Prop) (qname : Name) (qtype : RecordType)
    (qclass : DNSClass) (msg : Message) (last : Name) (final : Message) : Prop where
  path : CnamePath msg.answers qname last
  received : ∃ asked ip m, post (.query asked ip ⟨last, qtype, qclass⟩) (.parsed m) ∧
    final = m.lowercaseResponseNames
  terminal : (classify final last qtype).terminal = true
  answers : final.answers <:+ msg.answers
  responseCode : msg.responseCode = final.responseCode

theorem resolved_self {qtype : RecordType}
    (hrec : ∃ asked ip m, post (.query asked ip ⟨qname, qtype, qclass⟩) (.parsed m) ∧ resp = m.lowercaseResponseNames)
    (hterm : (classify resp qname qtype).terminal = true) :
    Resolved post qname qtype qclass resp qname resp :=
  ⟨.nil qname, hrec, hterm, suffix_rfl, rfl⟩

theorem classify_eq_cname {qtype : RecordType} (h : classify resp qname qtype = .cname target) :
    ∃ r ∈ resp.answers, r.name.same qname = true ∧ ∃ t, r.data = .cname t ∧ target = t.toLowercase := by
  unfold classify at h
  split at h
  · nomatch h
  · nomatch h
  · nomatch h
  · split at h
    · rename_i hfind
      cases h
      split at hfind
      · nomatch hfind
      obtain ⟨r, hr, hc⟩ := exists_of_findSome?_eq_some hfind
      unfold cnameAt at hc
      split at hc
      · rename_i t ht
        split at hc
        · rename_i hs
          exact ⟨r, hr, hs, t, ht, (Option.some.inj hc).symm⟩
        · nomatch hc
      · nomatch hc
    · split at h
      · split at h <;> nomatch h
      · nomatch h

theorem classify_eq_referral {qtype : RecordType} {glue : Glue}
    (h : classify resp qname qtype = .referral zone nsRecords glue) :
    (∃ r ∈ resp.authorities, r.recordType = .NS ∧ zone = r.name.toLowercase) ∧
      glue = glueOf resp.additionals ∧
      nsRecords = resp.authorities.filter fun r => r.recordType == .NS := by
  unfold classify at h
  split at h
  · nomatch h
  · nomatch h
  · nomatch h
  · split at h
    · nomatch h
    · split at h
      · split at h
        · nomatch h
        · rename_i r rs hfilter
          cases h
          have hr : r ∈ resp.authorities.filter fun r => r.recordType == .NS := by
            rw [hfilter]
            exact .head _
          obtain ⟨hmem, htype⟩ := mem_filter.mp hr
          exact ⟨⟨r, hmem, eq_of_beq htype, rfl⟩, rfl, hfilter.symm⟩
      · nomatch h

theorem buildSyntheticAnswer_eq_some {rtype : RecordType} {ips : List IpAddr}
    (h : buildSyntheticAnswer name rtype ips = some msg) :
    ∃ answers, msg = { queries := [⟨name, rtype, .IN⟩], answers := answers } ∧
      ∀ r ∈ answers, r.name = name ∧ ∃ ip ∈ ips, r.addr? = some ip := by
  obtain ⟨_, hmsg⟩ := Option.ite_none_left_eq_some.mp h
  refine ⟨_, (Option.some.inj hmsg).symm, fun r hr => ?_⟩
  obtain ⟨ip, hip, hmade⟩ := mem_filterMap.mp hr
  cases ip with
  | v4 a =>
    obtain ⟨_, hr⟩ := Option.ite_none_right_eq_some.mp hmade
    cases hr
    exact ⟨rfl, _, hip, rfl⟩
  | v6 a =>
    obtain ⟨_, hr⟩ := Option.ite_none_right_eq_some.mp hmade
    cases hr
    exact ⟨rfl, _, hip, rfl⟩

theorem zoneNsMessage_eq_some (h : zoneNsMessage zone nsRecords = some msg) :
    msg = { queries := [⟨zone, .NS, .IN⟩],
            answers := nsRecords.filter fun r => r.recordType == .NS && r.name.same zone } := by
  unfold zoneNsMessage at h
  split at h
  · nomatch h
  · exact (Option.some.inj h).symm

theorem Resolved.stitch {qtype : RecordType} {sub final : Message}
    (hc : classify resp qname qtype = .cname target)
    (h : Resolved post target qtype qclass sub last final) :
    Resolved post qname qtype qclass (stitch resp sub) last final := by
  obtain ⟨r, hr, hs, t, ht, rfl⟩ := classify_eq_cname hc
  refine ⟨?_, h.received, h.terminal, ?_, h.responseCode⟩
  · refine .cons (mem_append_left _ hr) hs ht ?_
    exact h.path.mono fun r hr => mem_append_right _ hr
  · exact h.answers.trans (suffix_append ..)

section

variable {pre : Op → Prop} {post : (o : Op) → o.Res → Prop} {asked name zone : Name} {budget : Budget}
  {chain : WalkChain} {e : WalkError} {glue : Glue} {ip : IpAddr} {ips : List IpAddr} {labels : List Label}
  {msg query : Message} {nsRecords : List Record} {q : Query} {targets : List Name}

/-! ## Questions -/

theorem upstreamQuery_asked (hask : pre (.query asked ip q)) :
    (Contract.plain pre post).Safe () (upstreamQuery asked ip q) fun _ r =>
      ∀ m, r = .parsed m → ∃ m', post (.query asked ip q) (.parsed m') ∧ m = m'.lowercaseResponseNames := by
  refine ⟨hask, fun r hr => ?_⟩
  cases r with
  | parsed m' =>
    rintro m ⟨⟩
    exact ⟨m', hr, rfl⟩
  | failed => exact fun m hm => nomatch hm
  | unparsed => exact fun m hm => nomatch hm

def Asked (post : (o : Op) → o.Res → Prop) (asked : Name) (q : Query)
    (r : Except WalkError (Message × Budget)) : Prop :=
  ∀ resp b, r = .ok (resp, b) → ∃ ip m, post (.query asked ip q) (.parsed m) ∧
    resp = m.lowercaseResponseNames

theorem asked_error : Asked post asked q (.error e) :=
  fun _ _ h => nomatch h

theorem raceNs_safe (hfree : ∀ o, o.localRead = true → pre o) {n : Nat} {inFlight waiting : List IpAddr}
    (hask : ∀ ip, ip ∈ inFlight ∨ ip ∈ waiting → pre (.query asked ip q)) :
    (Contract.plain pre post).Safe () (raceNs asked q n inFlight waiting budget) fun _ r =>
      Asked post asked q r := by
  induction n generalizing inFlight waiting budget with
  | zero => exact asked_error
  | succ n ih =>
    refine safe_perform_bind.mpr ⟨hfree _ rfl, fun choice _ => ?_⟩
    split
    · exact asked_error
    rename_i ip hip
    have hdrawn := mem_of_getElem? hip
    refine (upstreamQuery_asked (hask ip (Or.inl hdrawn))).bind fun _ reply hreply => ?_
    cases reply with
    | parsed m =>
      rintro resp b ⟨⟩
      obtain ⟨m', hm', rfl⟩ := hreply m rfl
      exact ⟨ip, m', hm', rfl⟩
    | _ =>
      -- Without a parsed reply the next server joins, if there is one.
      cases waiting with
      | nil =>
        refine ih fun ip hip => ?_
        rcases hip with hip | hip
        · exact hask ip (Or.inl (mem_of_mem_eraseIdx hip))
        · exact absurd hip not_mem_nil
      | cons next waiting =>
        cases budget.query with
        | error e => exact asked_error
        | ok b =>
          refine ih fun ip hip => ?_
          rcases hip with hip | hip
          · rcases mem_append.mp hip with hip | hip
            · exact hask ip (Or.inl (mem_of_mem_eraseIdx hip))
            · rw [mem_singleton.mp hip]
              exact hask next (Or.inr (.head _))
          · exact hask ip (Or.inr (.tail _ hip))

def Drawn (post : (o : Op) → o.Res → Prop) (ips : List IpAddr) (ip : IpAddr) : Prop :=
  ∃ order, post (.shuffle ips) order ∧ ip ∈ order

theorem queryNsSet_safe (hfree : ∀ o, o.localRead = true → pre o)
    (hask : ∀ ip, Drawn post ips ip → pre (.query asked ip q)) :
    (Contract.plain pre post).Safe () (queryNsSet asked ips q budget) fun _ r =>
      Asked post asked q r := by
  refine safe_perform_bind.mpr ⟨hfree _ rfl, fun shuffled hshuffled => ?_⟩
  dsimp only
  cases startQueries ((shuffled.take maxNsAttempts).take nsParallel) budget with
  | error e => exact asked_error
  | ok b =>
    refine raceNs_safe hfree fun ip hip => hask ip ⟨shuffled, hshuffled, ?_⟩
    rcases hip with hip | hip
    · exact mem_of_mem_take (mem_of_mem_take hip)
    · exact mem_of_mem_take (mem_of_mem_drop hip)

/-! ## Addresses -/

def Usable (cfg : IterConfig) (ip : IpAddr) : Prop := cfg.ipv6Upstream = true ∨ ip.isIpv4 = true

theorem mem_of_mem_sortDedup (h : ip ∈ sortDedup ips) : ip ∈ ips := by
  exact (mem_insertionSort _).mp ((destutter_sublist _ _).subset h)

theorem isIpv4_of_mem_v4Answers (h : ip ∈ v4Answers msg) : ip.isIpv4 = true := by
  obtain ⟨r, _, hr⟩ := mem_filterMap.mp h
  split at hr
  · cases hr
    rfl
  · nomatch hr

def glueless (nsRecords : List Record) (glue : Glue) : List Name :=
  ((nsRecords.filterMap nsTarget?).map Name.toLowercase).filter fun target =>
    (glue.find? fun g => g.1.same target).isNone

theorem cachedAddrs_safe (hfree : ∀ o, o.localRead = true → pre o) {rtype : RecordType}
    {addrs : Message → List IpAddr} :
    (Contract.plain pre post).Safe () (cachedAddrs name rtype addrs) fun _ r =>
      ∀ ip ∈ r, ∃ msg, ip ∈ addrs msg := by
  refine safe_perform_bind.mpr ⟨hfree _ rfl, fun cached _ => ?_⟩
  cases cached with
  | none => exact fun _ h => nomatch h
  | some msg => exact fun ip hip => ⟨msg, hip⟩

variable {cfg : IterConfig}

theorem cachedNsIps_safe (hfree : ∀ o, o.localRead = true → pre o) :
    (Contract.plain pre post).Safe () (cachedNsIps cfg name) fun _ r =>
      ∀ ip ∈ r, Usable cfg ip := by
  refine (cachedAddrs_safe hfree).bind fun _ v4 hv4 => ?_
  have hfour : ∀ ip ∈ v4, Usable cfg ip := by
    intro ip hip
    obtain ⟨msg, hmsg⟩ := hv4 ip hip
    exact Or.inr (isIpv4_of_mem_v4Answers hmsg)
  split
  · rename_i hsix
    exact (cachedAddrs_safe hfree).bind fun _ _ _ => fun _ _ => Or.inl hsix
  · exact hfour

theorem gatherNsIps_safe (hfree : ∀ o, o.localRead = true → pre o) {canSubstep : Bool}
    {needs : List Name} (hips : ∀ ip ∈ ips, Usable cfg ip) :
    (Contract.plain pre post).Safe () (gatherNsIps cfg glue canSubstep targets ips needs)
      fun _ r => (∀ ip ∈ r.1, Usable cfg ip) ∧
        r.2.Sublist (needs ++ targets.filter fun t => (glue.find? fun g => g.1.same t).isNone) := by
  induction targets generalizing ips needs with
  | nil => exact ⟨hips, by simp⟩
  | cons target targets ih =>
    have hmore : ∀ more : List IpAddr, (∀ ip ∈ more, Usable cfg ip) →
        ∀ ip ∈ ips ++ more, Usable cfg ip := by
      intro more hall ip hip
      rcases mem_append.mp hip with hip | hip
      · exact hips ip hip
      · exact hall ip hip
    unfold gatherNsIps
    cases hglue : glue.find? fun g => g.1.same target with
    | some g =>
      rw [filter_cons_of_neg (by simp [hglue])]
      refine ih (hmore _ fun ip hip => ?_)
      have hkeep := (mem_filter.mp hip).2
      rwa [Bool.or_eq_true] at hkeep
    | none =>
      rw [filter_cons_of_pos (by simp [hglue])]
      refine (cachedNsIps_safe hfree).bind fun _ cached hcached => ?_
      -- A server that is not put off leaves the list of those to come as it was.
      have hskip : ∀ r rest : List Name, r.Sublist (needs ++ rest) →
          r.Sublist (needs ++ target :: rest) :=
        fun r rest hr => hr.trans ((List.Sublist.refl needs).append (sublist_cons_self ..))
      split
      · exact (ih (hmore _ hcached)).mono fun _ r hr => ⟨hr.1, hskip _ _ hr.2⟩
      split
      · refine (ih hips).mono fun _ r hr => ⟨hr.1, ?_⟩
        rw [append_assoc] at hr
        exact hr.2
      · exact (ih hips).mono fun _ r hr => ⟨hr.1, hskip _ _ hr.2⟩

theorem cachedIpsOf_safe (hfree : ∀ o, o.localRead = true → pre o) :
    (Contract.plain pre post).Safe () (cachedIpsOf cfg targets) fun _ r =>
      ∀ ip ∈ r, Usable cfg ip := by
  induction targets with
  | nil => exact fun _ h => nomatch h
  | cons target targets ih =>
    refine (cachedNsIps_safe hfree).bind fun _ ips hips => ?_
    refine ih.bind fun _ rest hrest => ?_
    intro ip hip
    rcases mem_append.mp hip with hip | hip
    · exact hips ip hip
    · exact hrest ip hip

theorem cachedZoneIps_safe (hfree : ∀ o, o.localRead = true → pre o) {qclass : DNSClass} :
    (Contract.plain pre post).Safe () (cachedZoneIps cfg qclass zone) fun _ r =>
      ∀ ip ∈ r, Usable cfg ip := by
  refine safe_perform_bind.mpr ⟨hfree _ rfl, fun cached _ => ?_⟩
  cases cached with
  | none => exact fun _ h => nomatch h
  | some msg =>
    refine (cachedIpsOf_safe hfree).bind fun _ ips hips => ?_
    exact fun ip hip => hips ip (mem_of_mem_sortDedup hip)

theorem closestCachedFrom_safe (hfree : ∀ o, o.localRead = true → pre o) {qclass : DNSClass} :
    (Contract.plain pre post).Safe () (closestCachedFrom cfg qclass labels) fun _ r =>
      ∀ zone ips, r = some (zone, ips) → zone.labels <:+ labels ∧ ∀ ip ∈ ips, Usable cfg ip := by
  induction labels with
  | nil =>
    refine (cachedZoneIps_safe hfree).bind fun _ ips hips => ?_
    intro zone ips' h
    split at h
    · nomatch h
    · cases h
      exact ⟨suffix_rfl, hips⟩
  | cons l labels ih =>
    refine (cachedZoneIps_safe hfree).bind fun _ ips hips => ?_
    split
    · refine ih.mono fun _ r hr zone ips h => ?_
      obtain ⟨hsuffix, hall⟩ := hr zone ips h
      exact ⟨hsuffix.trans (suffix_cons ..), hall⟩
    · rintro zone ips ⟨⟩
      exact ⟨suffix_rfl, hips⟩

/-! ## Cache writes -/

theorem cacheGlueFamily_safe {rtype : RecordType}
    (h : ∀ msg, buildSyntheticAnswer name rtype ips = some msg → pre (.cachePut (.glue asked) (CacheKey.of name rtype .IN) msg)) :
    (Contract.plain pre post).Safe () (cacheGlueFamily asked name rtype ips) fun _ _ => True := by
  unfold cacheGlueFamily
  split
  · rename_i msg hmsg
    exact ⟨h msg hmsg, fun _ _ => trivial⟩
  · trivial

theorem cacheGlue_safe
    (h : ∀ g ∈ glue, ∀ rtype msg, buildSyntheticAnswer g.1 rtype g.2 = some msg → pre (.cachePut (.glue asked) (CacheKey.of g.1 rtype .IN) msg)) :
    (Contract.plain pre post).Safe () (cacheGlue asked glue) fun _ _ => True := by
  induction glue with
  | nil => trivial
  | cons g glue ih =>
    have hg := h g (.head _)
    refine (cacheGlueFamily_safe (hg .A)).bind fun _ _ _ => ?_
    refine (cacheGlueFamily_safe (hg .AAAA)).bind fun _ _ _ => ?_
    exact ih fun g' hg' => h g' (.tail _ hg')

theorem cacheZoneNs_safe
    (h : ∀ msg, zoneNsMessage zone nsRecords = some msg → pre (.cachePut (.zoneNs asked) (CacheKey.of zone .NS .IN) msg)) :
    (Contract.plain pre post).Safe () (cacheZoneNs asked zone nsRecords) fun _ _ => True := by
  unfold cacheZoneNs
  split
  · rename_i msg hmsg
    exact ⟨h msg hmsg, fun _ _ => trivial⟩
  · trivial

theorem prime_paths (hfree : ∀ o, o.localRead = true → pre o)
    (hask : ∀ ips, post .readRoots ips → ∀ ip ∈ ips, pre (.query Name.root ip ⟨Name.root, .NS, .IN⟩))
    (hput : ∀ ip m, post (.query Name.root ip ⟨Name.root, .NS, .IN⟩) (.parsed m) →
      pre (.cachePut .primed (CacheKey.of Name.root .NS .IN) m.lowercaseResponseNames) ∧
        ∀ g ∈ glueOf m.lowercaseResponseNames.additionals, ∀ rtype msg,
          buildSyntheticAnswer g.1 rtype g.2 = some msg →
          pre (.cachePut (.glue Name.root) (CacheKey.of g.1 rtype .IN) msg))
    (hroots : ∀ ips, (∀ ip ∈ ips, Usable cfg ip) → pre (.writeRoots ips)) :
    (Contract.plain pre post).Safe () (prime cfg) fun _ _ => True := by
  refine safe_perform_bind.mpr ⟨hfree _ rfl, fun roots hfound => ?_⟩
  cases hseed : primingSeed roots with
  | none => trivial
  | some seed =>
    have hmem : seed ∈ roots := by
      unfold primingSeed at hseed
      cases hfind : roots.find? IpAddr.isIpv4 with
      | some ip =>
        rw [hfind] at hseed
        cases hseed
        exact mem_of_find?_eq_some hfind
      | none =>
        rw [hfind] at hseed
        exact mem_of_head? hseed
    refine (timeout_safe (hfree _ rfl) (upstreamQuery_asked (hask roots hfound seed hmem))).bind
      fun _ reply hreply => ?_
    match reply, hreply.1 with
    | some .failed, _ => trivial
    | some .unparsed, _ => trivial
    | none, _ => trivial
    | some (.parsed resp), hresp =>
      obtain ⟨m, hm, rfl⟩ := hresp _ rfl resp rfl
      obtain ⟨hprimed, hglue⟩ := hput seed m hm
      dsimp only
      split
      · trivial
      refine (cacheGlue_safe hglue).bind fun _ _ _ => safe_perform_bind.mpr ⟨hprimed, fun _ _ => ?_⟩
      split
      · trivial
      refine ⟨hroots _ fun ip hip => ?_, fun _ _ => trivial⟩
      -- The new roots are filtered as glue is.
      obtain ⟨target, _, hip⟩ := mem_flatMap.mp hip
      split at hip
      · have hkeep := (mem_filter.mp hip).2
        rwa [Bool.or_eq_true] at hkeep
      · nomatch hip

/-! ## Where a walk starts -/

def Started (post : (o : Op) → o.Res → Prop) (hop : Hop) : Prop :=
  hop.chain.steps = [] ∨
    ∃ labels zones last, zones <+: (ancestorZones labels).reverse ∧
      List.Forall₂ (fun z step => post (.delegationGet z) (some step)) zones hop.chain.steps ∧
      hop.chain.steps.getLast? = some last ∧ hop.zone = last.zone

/-- Where a walk for a question starts: at the root, in the closest zone the response cache knows
servers of, or at the end of a run of cached delegations. -/
inductive StartedAt (post : (o : Op) → o.Res → Prop) (cfg : IterConfig) (q : Query) : Hop → Prop
  | root {ips : List IpAddr} : post .readRoots ips → StartedAt post cfg q ⟨Name.root, ips, ⟨[]⟩⟩
  | closest {zone : Name} {ips : List IpAddr} : cfg.dnssecOk = false → zone.zoneOf q.name = true →
      (∀ ip ∈ ips, Usable cfg ip) → StartedAt post cfg q ⟨zone, ips, ⟨[]⟩⟩
  | cached {zones : List Name} {steps : List ChainStep} {last : ChainStep} : cfg.dnssecOk = true →
      zones <+: (ancestorZones q.name.baseName.labels).reverse →
      List.Forall₂ (fun z step => post (.delegationGet z) (some step)) zones steps →
      steps.getLast? = some last → StartedAt post cfg q ⟨last.zone, last.nsIps, ⟨steps⟩⟩

theorem mem_ancestorZones {z : Name} (h : z ∈ ancestorZones labels) : z.labels <:+ labels := by
  induction labels with
  | nil => nomatch h
  | cons l labels ih =>
    unfold ancestorZones at h
    split at h
    · rcases mem_cons.mp h with rfl | h
      · exact suffix_rfl
      · exact (ih h).trans (suffix_cons ..)
    · nomatch h

theorem StartedAt.started {hop : Hop} (h : StartedAt post cfg q hop) : Started post hop := by
  cases h with
  | root _ => exact Or.inl rfl
  | closest _ _ _ => exact Or.inl rfl
  | cached _ hzones hall hlast => exact Or.inr ⟨_, _, _, hzones, hall, hlast, rfl⟩

theorem cachedPrefix_safe (hfree : ∀ o, o.localRead = true → pre o) {zones : List Name} :
    (Contract.plain pre post).Safe () (cachedPrefix zones) fun _ steps =>
      ∃ zs, zs <+: zones ∧
        List.Forall₂ (fun z step => post (.delegationGet z) (some step)) zs steps := by
  induction zones with
  | nil => exact ⟨[], prefix_rfl, .nil⟩
  | cons zone zones ih =>
    refine safe_perform_bind.mpr ⟨hfree _ rfl, fun cached hcached => ?_⟩
    cases cached with
    | none => exact ⟨[], nil_prefix, .nil⟩
    | some step =>
      refine ih.bind fun _ steps hsteps => ?_
      obtain ⟨zs, hzs, hall⟩ := hsteps
      exact ⟨zone :: zs, cons_prefix_cons.mpr ⟨rfl, hzs⟩, .cons hcached hall⟩

theorem cachedDelegationStart_safe (hfree : ∀ o, o.localRead = true → pre o) (hon : cfg.dnssecOk = true) :
    (Contract.plain pre post).Safe () (cachedDelegationStart q.name) fun _ r =>
      ∀ hop, r = some hop → StartedAt post cfg q hop := by
  refine (cachedPrefix_safe hfree).bind fun _ steps hsteps => ?_
  obtain ⟨zs, hzs, hall⟩ := hsteps
  split
  · exact fun hop h => nomatch h
  rename_i last hlast
  split
  · exact fun hop h => nomatch h
  · rintro hop ⟨⟩
    exact .cached hon hzs hall hlast

theorem baseName_labels_suffix (n : Name) : n.baseName.labels <:+ n.labels := by
  unfold Name.baseName Name.trimTo
  split
  · split
    · exact suffix_rfl
    · exact drop_suffix ..
  · exact suffix_rfl

theorem zoneOf_of_labels_suffix {z n : Name} (h : z.labels <:+ n.labels) : z.zoneOf n = true :=
  Name.zoneOf_iff.mpr (h.map _)

theorem closestCachedZone_safe (hfree : ∀ o, o.localRead = true → pre o) :
    (Contract.plain pre post).Safe () (closestCachedZone cfg q.name q.queryClass) fun _ r =>
      ∀ zone ips, r = some (zone, ips) → zone.zoneOf q.name = true ∧ ∀ ip ∈ ips, Usable cfg ip := by
  refine (closestCachedFrom_safe hfree).mono fun _ r hr zone ips h => ?_
  obtain ⟨hsuffix, hall⟩ := hr zone ips h
  refine ⟨zoneOf_of_labels_suffix (hsuffix.trans ?_), hall⟩
  split
  · exact baseName_labels_suffix q.name
  · exact suffix_rfl

theorem cachedStart_safe (hfree : ∀ o, o.localRead = true → pre o) :
    (Contract.plain pre post).Safe () (cachedStart cfg q.name q.queryClass) fun _ r =>
      ∀ hop, r = some hop → StartedAt post cfg q hop := by
  unfold cachedStart
  split
  · rename_i hon
    exact cachedDelegationStart_safe hfree hon
  rename_i hoff
  refine (closestCachedZone_safe hfree).bind fun _ found hfound => ?_
  split
  · rintro hop ⟨⟩
    obtain ⟨hzone, hall⟩ := hfound _ _ rfl
    exact .closest (Bool.eq_false_iff.mpr hoff) hzone hall
  · exact fun hop h => nomatch h

theorem walkStart_safe (hfree : ∀ o, o.localRead = true → pre o) :
    (Contract.plain pre post).Safe () (walkStart cfg q.name q.queryClass) fun _ hop =>
      StartedAt post cfg q hop := by
  refine (cachedStart_safe hfree).bind fun _ cached hcached => ?_
  cases cached with
  | some hop => exact hcached hop rfl
  | none => exact ⟨hfree _ rfl, fun _ hips => .root hips⟩

/-! ## The walk -/

/-- A walk for a question moves from one hop to the next: a server of the zone it is in sent a referral
that passes the guard. -/
structure Follows (post : (o : Op) → o.Res → Prop) (cfg : IterConfig) (q : Query) (hop next : Hop) :
    Prop where
  referred : ∃ ip m nsRecords glue, post (.query hop.zone ip q) (.parsed m) ∧
    classify m.lowercaseResponseNames q.name q.queryType = .referral next.zone nsRecords glue ∧
    next.chain.steps = hop.chain.steps ++
      [⟨next.zone, (extractDsAndRrsig m.lowercaseResponseNames next.zone).1,
        (extractDsAndRrsig m.lowercaseResponseNames next.zone).2, next.nsIps⟩]
  progressive : nonProgressive next.zone hop.zone = false
  usable : ∀ ip ∈ next.nsIps, Usable cfg ip

structure Tour (pre : Op → Prop) (post : (o : Op) → o.Res → Prop) (cfg : IterConfig)
    (Inv : Query → Hop → Prop) : Prop where
  free : ∀ o, o.localRead = true → pre o
  ask : ∀ q hop ip, Inv q hop → Drawn post hop.nsIps ip → pre (.query hop.zone ip q)
  start : ∀ q hop, StartedAt post cfg q hop → Inv q hop
  next : ∀ q hop next, Inv q hop → Follows post cfg q hop next → Inv q next
  glue : ∀ asked zone nsRecords glue, Referral post asked zone nsRecords glue →
    ∀ g ∈ glue, ∀ rtype msg, buildSyntheticAnswer g.1 rtype g.2 = some msg →
      pre (.cachePut (.glue asked) (CacheKey.of g.1 rtype .IN) msg)
  zoneNs : ∀ asked zone nsRecords glue, Referral post asked zone nsRecords glue →
    ∀ msg, zoneNsMessage zone nsRecords = some msg →
      pre (.cachePut (.zoneNs asked) (CacheKey.of zone .NS .IN) msg)

structure TourOf (pre : Op → Prop) (post : (o : Op) → o.Res → Prop) (cfg : IterConfig)
    (X : Name → Prop) (Inv : Query → Hop → Prop) : Prop where
  free : ∀ o, o.localRead = true → pre o
  ask : ∀ q hop ip, Inv q hop → Drawn post hop.nsIps ip → pre (.query hop.zone ip q)
  start : ∀ q hop, X q.name → StartedAt post cfg q hop → Inv q hop
  next : ∀ q hop next, Inv q hop → Follows post cfg q hop next → Inv q next
  chase : ∀ q hop ip m target, Inv q hop → post (.query hop.zone ip q) (.parsed m) →
    classify m.lowercaseResponseNames q.name q.queryType = .cname target → X target
  servers : ∀ q hop ip m zone nsRecords glue, Inv q hop → post (.query hop.zone ip q) (.parsed m) →
    classify m.lowercaseResponseNames q.name q.queryType = .referral zone nsRecords glue →
    ∀ target ∈ glueless nsRecords glue, X target
  glue : ∀ asked zone nsRecords glue, Referral post asked zone nsRecords glue →
    ∀ g ∈ glue, ∀ rtype msg, buildSyntheticAnswer g.1 rtype g.2 = some msg →
      pre (.cachePut (.glue asked) (CacheKey.of g.1 rtype .IN) msg)
  zoneNs : ∀ asked zone nsRecords glue, Referral post asked zone nsRecords glue →
    ∀ msg, zoneNsMessage zone nsRecords = some msg →
      pre (.cachePut (.zoneNs asked) (CacheKey.of zone .NS .IN) msg)

theorem Tour.any {Inv : Query → Hop → Prop} (h : Tour pre post cfg Inv) :
    TourOf pre post cfg (fun _ => True) Inv where
  free := h.free
  ask := h.ask
  start q hop _ := h.start q hop
  next := h.next
  chase _ _ _ _ _ _ _ _ := trivial
  servers _ _ _ _ _ _ _ _ _ _ _ _ := trivial
  glue := h.glue
  zoneNs := h.zoneNs

structure HopRule (post : (o : Op) → o.Res → Prop) (Inv : Hop → Prop) : Prop where
  start : ∀ hop, Started post hop → Inv hop
  next : ∀ hop zone nsRecords glue ds dsRrsig nsIps, Inv hop →
    Referral post hop.zone zone nsRecords glue → nonProgressive zone hop.zone = false →
    Inv ⟨zone, nsIps, ⟨hop.chain.steps ++ [⟨zone, ds, dsRrsig, nsIps⟩]⟩⟩

theorem HopRule.tour {Inv : Hop → Prop} (hhop : HopRule post Inv) (hrules : WalkRules pre post) :
    Tour pre post cfg fun _ => Inv where
  free o ho := hrules.free o (Op.readOnly_of_localRead ho)
  ask _ _ _ _ _ := hrules.free _ rfl
  start _ hop h := hhop.start hop h.started
  next := by
    rintro q hop ⟨zone, nsIps, ⟨steps⟩⟩ hinv hfollows
    obtain ⟨ip, m, nsRecords, glue, hm, hcls, hsteps⟩ := hfollows.referred
    dsimp only at hsteps
    subst hsteps
    exact hhop.next _ _ _ _ _ _ _ hinv ⟨ip, q, m, hm, hcls⟩ hfollows.progressive
  glue := hrules.glue
  zoneNs := hrules.zoneNs

/-- How a walk came by its answer: the servers of the zone it ended in sent a response that ends the chase,
or a CNAME, and then the response is completed by the answer of a walk for the target. -/
inductive Traced (post : (o : Op) → o.Res → Prop) (Inv : Query → Hop → Prop) :
    Query → Message → WalkChain → Prop
  | done {q : Query} {hop : Hop} {ip : IpAddr} {m : Message} : Inv q hop →
      post (.query hop.zone ip q) (.parsed m) →
      (classify m.lowercaseResponseNames q.name q.queryType).terminal = true →
      Traced post Inv q m.lowercaseResponseNames hop.chain
  | chased {q : Query} {hop : Hop} {ip : IpAddr} {m sub : Message} {target : Name}
      {chain : WalkChain} : Inv q hop → post (.query hop.zone ip q) (.parsed m) →
      classify m.lowercaseResponseNames q.name q.queryType = .cname target →
      Traced post Inv ⟨target, q.queryType, q.queryClass⟩ sub chain →
      Traced post Inv q (stitch m.lowercaseResponseNames sub) hop.chain

theorem Traced.resolved {Inv : Query → Hop → Prop} (h : Traced post Inv q msg chain) :
    ∃ last final, Resolved post q.name q.queryType q.queryClass msg last final := by
  induction h with
  | done _ hm hterm => exact ⟨_, _, resolved_self ⟨_, _, _, hm, rfl⟩ hterm⟩
  | chased _ _ hcls _ ih =>
    obtain ⟨last, final, hfinal⟩ := ih
    exact ⟨last, final, hfinal.stitch hcls⟩

theorem Traced.chain_inv {Inv : Query → Hop → Prop} (h : Traced post Inv q msg chain) :
    ∃ hop, Inv q hop ∧ hop.chain = chain := by
  cases h with
  | done hinv _ _ => exact ⟨_, hinv, rfl⟩
  | chased hinv _ _ _ => exact ⟨_, hinv, rfl⟩

def Walked (post : (o : Op) → o.Res → Prop) (Inv : Query → Hop → Prop) (q : Query)
    (r : WalkResult) : Prop :=
  ∀ msg chain b, r = .ok (msg, chain, b) → Traced post Inv q msg chain

variable {Inv : Query → Hop → Prop} {qname : Name} {qtype : RecordType} {qclass : DNSClass}

theorem walked_error : Walked post Inv q (.error e) :=
  fun _ _ _ h => nomatch h

theorem resolveNsIps_safe {walk : Walker} (hfree : ∀ o, o.localRead = true → pre o)
    (hwalk : ∀ n ∈ glueless nsRecords glue, ∀ t c b, (Contract.plain pre post).Safe () (walk n t c b) fun _ r => Walked post Inv ⟨n, t, c⟩ r) :
    (Contract.plain pre post).Safe () (resolveNsIps cfg walk nsRecords glue qclass budget)
      fun _ ips => ∀ ip ∈ ips, Usable cfg ip := by
  refine (gatherNsIps_safe hfree (forall_mem_nil _)).bind fun _ r hr => ?_
  obtain ⟨ips, needs⟩ := r
  dsimp only
  split
  · exact fun ip hip => hr.1 ip (mem_of_mem_sortDedup hip)
  have hsub : ∀ target ∈ needs, (Contract.plain pre post).Safe ()
      (timeout (walk target .A qclass ⟨8, 24, 4⟩)) fun _ _ => True := by
    intro target htarget
    have hglueless : target ∈ glueless nsRecords glue := hr.2.subset htarget
    exact (timeout_safe (hfree _ rfl) (hwalk target hglueless .A qclass ⟨8, 24, 4⟩)).mono
      fun _ _ _ => trivial
  refine (joinAll_safe (Q := fun _ _ => True) (hfree _ rfl) hsub).bind fun _ results _ => ?_
  intro ip hip
  rcases mem_append.mp (mem_of_mem_sortDedup hip) with hip | hip
  · exact hr.1 ip hip
  · -- A sub-walk contributes A records only.
    obtain ⟨r, _, hip⟩ := mem_flatMap.mp hip
    unfold subWalkIps at hip
    split at hip
    · exact Or.inr (isIpv4_of_mem_v4Answers hip)
    · nomatch hip

variable {X : Name → Prop}

theorem walkHops_safe {walk : Walker} (htour : TourOf pre post cfg X Inv)
    (hwalk : ∀ n t c b, X n → (Contract.plain pre post).Safe () (walk n t c b) fun _ r => Walked post Inv ⟨n, t, c⟩ r)
    {hops : Nat} {hop : Hop} (hinv : Inv ⟨qname, qtype, qclass⟩ hop) :
    (Contract.plain pre post).Safe () (walkHops cfg walk qname qtype qclass hops hop budget)
      fun _ r => Walked post Inv ⟨qname, qtype, qclass⟩ r := by
  induction hops generalizing hop budget with
  | zero => exact walked_error
  | succ hops ih =>
    refine (queryNsSet_safe htour.free fun ip hip => htour.ask _ hop ip hinv hip).bind
      fun _ result hres => ?_
    match result, hres with
    | .error e, _ => exact walked_error
    | .ok (resp, budget), hres =>
      obtain ⟨ip, m, hm, rfl⟩ := hres resp budget rfl
      -- A response that ends the chase is returned with the chain recorded so far.
      have hdone : (classify m.lowercaseResponseNames qname qtype).terminal = true →
          Walked post Inv ⟨qname, qtype, qclass⟩ (.ok (m.lowercaseResponseNames, hop.chain, budget)) := by
        rintro hterm msg chain b ⟨⟩
        exact .done hinv hm hterm
      dsimp only
      cases hcls : classify m.lowercaseResponseNames qname qtype with
      | answer => exact hdone (by rw [hcls]; rfl)
      | nxDomain => exact hdone (by rw [hcls]; rfl)
      | empty => exact hdone (by rw [hcls]; rfl)
      | servFail => exact walked_error
      | cname target =>
        cases budget.cname with
        | error e => exact walked_error
        | ok budget =>
          have htarget : X target := htour.chase _ hop ip m target hinv hm hcls
          refine (hwalk target qtype qclass budget htarget).bind fun _ chased hsub => ?_
          match chased, hsub with
          | .error e, _ => exact walked_error
          | .ok (sub, chain', b'), hsub =>
            rintro msg chain b ⟨⟩
            exact .chased hinv hm hcls (hsub sub chain' _ rfl)
      | referral zone nsRecords glue =>
        have href : Referral post hop.zone zone nsRecords glue := ⟨ip, _, m, hm, hcls⟩
        have hservers := htour.servers _ hop ip m zone nsRecords glue hinv hm hcls
        dsimp only
        split
        · exact walked_error
        rename_i hprog
        refine (cacheGlue_safe (htour.glue _ _ _ _ href)).bind fun _ _ _ => ?_
        refine (cacheZoneNs_safe (htour.zoneNs _ _ _ _ href)).bind fun _ _ _ => ?_
        refine (resolveNsIps_safe htour.free fun n hn t c b =>
          hwalk n t c b (hservers n hn)).bind fun _ nsIps husable => ?_
        split
        · exact walked_error
        · refine ih (htour.next _ hop _ hinv ⟨?_, Bool.eq_false_iff.mpr hprog, husable⟩)
          exact ⟨ip, m, nsRecords, glue, hm, hcls, rfl⟩

theorem walk_safe_of (htour : TourOf pre post cfg X Inv) (nest : Nat) (budget : Budget)
    (hname : X qname) :
    (Contract.plain pre post).Safe () (walk cfg nest qname qtype qclass budget) fun _ r =>
      Walked post Inv ⟨qname, qtype, qclass⟩ r := by
  induction nest generalizing qname qtype qclass budget with
  | zero => exact walked_error
  | succ nest ih =>
    unfold walk
    cases budget.referral with
    | error e => exact walked_error
    | ok budget =>
      refine (walkStart_safe (q := ⟨qname, qtype, qclass⟩) htour.free).bind
        fun _ hop hop_started => ?_
      exact walkHops_safe htour (fun n t c b hn => ih b hn) (htour.start _ hop hname hop_started)

/-- **A walk keeps to its contract**, at any depth of nesting. -/
theorem walk_safe (htour : Tour pre post cfg Inv) (nest : Nat) (budget : Budget) :
    (Contract.plain pre post).Safe () (walk cfg nest qname qtype qclass budget) fun _ r =>
      Walked post Inv ⟨qname, qtype, qclass⟩ r :=
  walk_safe_of htour.any nest budget trivial

/-! ## Resolution -/

def ResolvedBy (post : (o : Op) → o.Res → Prop) (Inv : Hop → Prop) (query : Message)
    (r : Except WalkError (Message × WalkChain)) : Prop :=
  ∀ resp chain, r = .ok (resp, chain) → ∃ q qs, query.queries = q :: qs ∧
    (isPrivateReverse q.name = true ∧ resp = localNxdomain query ∧ chain = ⟨[]⟩ ∨
      ∃ answer last final, resp = stitchResponse query answer ∧
        Resolved post q.name q.queryType q.queryClass answer last final ∧
        ∃ hop, Inv hop ∧ hop.chain = chain)

def ResolvedFrom (post : (o : Op) → o.Res → Prop) (Inv : Query → Hop → Prop) (query : Message)
    (r : Except WalkError (Message × WalkChain)) : Prop :=
  ∀ resp chain, r = .ok (resp, chain) → ∃ q qs, query.queries = q :: qs ∧
    (isPrivateReverse q.name = true ∧ resp = localNxdomain query ∧ chain = ⟨[]⟩ ∨
      ∃ answer, resp = stitchResponse query answer ∧ Traced post Inv q answer chain)

theorem resolveWithChain_safe_of (htour : TourOf pre post cfg X Inv) {nest : Nat}
    (hname : ∀ q qs, query.queries = q :: qs → X q.name)
    (hlocal : ∀ q qs, query.queries = q :: qs → isPrivateReverse q.name = true → pre (.cachePut .localZone (CacheKey.of q.name q.queryType q.queryClass) (localNxdomain query)))
    (hwalked : cfg.dnssecOk = false → ∀ q qs answer chain, query.queries = q :: qs → Traced post Inv q answer chain → pre (.cachePut .walked (CacheKey.of q.name q.queryType q.queryClass) (stitchResponse query answer))) :
    (Contract.plain pre post).Safe () (resolveWithChain cfg nest query) fun _ r =>
      ResolvedFrom post Inv query r := by
  unfold resolveWithChain
  split
  · exact fun _ _ h => nomatch h
  rename_i q qs hq
  split
  · rename_i hprivate
    refine safe_perform_bind.mpr ⟨hlocal q qs hq hprivate, fun _ _ => ?_⟩
    rintro resp chain ⟨⟩
    exact ⟨q, qs, hq, Or.inl ⟨hprivate, rfl, rfl⟩⟩
  · refine (walk_safe_of htour nest _ (hname q qs hq)).bind fun _ result hres => ?_
    match result, hres with
    | .error e, _ => exact fun _ _ h => nomatch h
    | .ok (answer, chain, b), hres =>
      have hdone : ResolvedFrom post Inv query (.ok (stitchResponse query answer, chain)) := by
        rintro resp chain' ⟨⟩
        exact ⟨q, qs, hq, Or.inr ⟨answer, rfl, hres answer chain b rfl⟩⟩
      dsimp only
      split
      · rename_i hoff
        have htraced := hres answer chain b rfl
        exact ⟨hwalked (by simpa using hoff) q qs answer chain hq htraced, fun _ _ => hdone⟩
      · exact hdone

theorem resolveWithChain_safe (htour : Tour pre post cfg Inv) {nest : Nat}
    (hlocal : ∀ q qs, query.queries = q :: qs → isPrivateReverse q.name = true → pre (.cachePut .localZone (CacheKey.of q.name q.queryType q.queryClass) (localNxdomain query)))
    (hwalked : cfg.dnssecOk = false → ∀ q qs answer chain, query.queries = q :: qs → Traced post Inv q answer chain → pre (.cachePut .walked (CacheKey.of q.name q.queryType q.queryClass) (stitchResponse query answer))) :
    (Contract.plain pre post).Safe () (resolveWithChain cfg nest query) fun _ r =>
      ResolvedBy post (fun hop => ∃ q, Inv q hop) query r := by
  refine (resolveWithChain_safe_of htour.any (fun _ _ _ => trivial) hlocal hwalked).mono
    fun _ r hr resp chain hok => ?_
  obtain ⟨q, qs, hq, hlocal | ⟨answer, rfl, htraced⟩⟩ := hr resp chain hok
  · exact ⟨q, qs, hq, Or.inl hlocal⟩
  · obtain ⟨last, final, hfinal⟩ := htraced.resolved
    obtain ⟨hop, hinv, hchain⟩ := htraced.chain_inv
    exact ⟨q, qs, hq, Or.inr ⟨answer, last, final, rfl, hfinal, hop, ⟨_, hinv⟩, hchain⟩⟩

end

end Dnsd.Recursor
