/-
# TorLeak — which names leave in the clear.

The recursor looks at the forwarder table once, for the name that the client asks for.  CNAME targets, server
names, zones and signers are asked for directly, whatever the table says (`chased_name_leaks`).  There are no
other ways (`Discreet`).
-/
import Dnsd.Daemon.Reload
import Dnsd.Recursor.Conduct
import Dnsd.Recursor.Refreshers
import Dnsd.Recursor.Script

namespace Dnsd.Daemon

open Proto Recursor Lib List

/-! ## What is sent directly -/

namespace ForwarderTable

variable (t : ForwarderTable)

/-- The most specific forwarder that matches the name is reached through tor. -/
def torName (n : Name) : Bool := (t.lookupWithDomain n).any ForwarderEntry.tor

def cleartext : Op → List Name
  | .query _ _ q => [q.name]
  | .forward domain m =>
      if (t.entries.find? fun e => e.domain = domain).any ForwarderEntry.tor then []
      else m.queries.map Query.name
  | _ => []

def Clear (n : Name) : Prop := t.torName n = false

def ClearUp (n : Name) : Prop := ∀ z : Name, z.labels <:+ n.toLowercase.labels → t.Clear z

variable {t} {n : Name} {e : ForwarderEntry}

theorem clear_of_none (h : t.lookupWithDomain n = none) : t.Clear n := by
  rw [Clear, torName, h]
  rfl

theorem torName_eq (h : t.lookupWithDomain n = some e) : t.torName n = e.tor := by
  rw [torName, h]
  rfl

theorem clear_of_mem_cleartext (h : t.lookupWithDomain n = some e) {m : Message} {n' : Name}
    (hn' : n' ∈ t.cleartext (.forward e.domain m)) : t.Clear n ∧ n' ∈ m.queries.map Query.name := by
  simp only [cleartext] at hn'
  rw [find?_domain h, Option.any_some] at hn'
  split at hn'
  · nomatch hn'
  · rename_i hdirect
    exact ⟨(torName_eq h).trans (by simpa using hdirect), hn'⟩

end ForwarderTable

/-! ## The process -/

def prewarmNames : List Name :=
  [⟨[ascii "iana", ascii "org"]⟩, ⟨[ascii "cloudflare", ascii "com"]⟩,
    ⟨[ascii "internic", ascii "net"]⟩, ⟨[ascii "nominet", ascii "uk"]⟩,
    ⟨[ascii "denic", ascii "de"]⟩, ⟨[ascii "nic", ascii "io"]⟩, ⟨[ascii "google", ascii "dev"]⟩,
    ⟨[ascii "google", ascii "app"]⟩]

def refreshFetch : RProg Unit := do
  let roots : List IpAddr ← call .readRoots
  let _ ← fetchDnskeyRrset Name.root Name.root roots
  return ()

inductive Launched (C : Crypto) (clients : Message → Prop) (h : Handler) : RProg Unit → Prop
  | serve (nest : Nat) (peer : IpAddr) (dns64Enabled : Bool) (msg : Message) : clients msg →
      Launched C clients h (serve C h.cfg nest peer dns64Enabled msg)
  | prime : h.cfg.iterative = true → Launched C clients h (prime h.cfg.iter)
  | prewarm (nest : Nat) (name : Name) : name ∈ prewarmNames → h.cfg.iterative = true →
      h.cfg.validates = true → Launched C clients h (prewarm C h.cfg nest name)
  | refresh : h.cfg.validates = true → Launched C clients h refreshFetch

variable {ι : Type} [DecidableEq ι]

def launched (C : Crypto) (clients : Message → Prop) (handlers : ι → Handler) (N : Net ι) :
    System ι Op Op.Res (World ι) :=
  system N fun i p => Launched C clients (handlers i) p

/-! ## Names that others choose -/

/-- The reply to a question sends the handler after no name that belongs to tor. -/
structure Reticent (h : Handler) (q : Query) (m : Message) : Prop where
  chased : ∀ target, classify m.lowercaseResponseNames q.name q.queryType = .cname target →
    h.table.Clear target
  servers : ∀ zone nsRecords glue,
    classify m.lowercaseResponseNames q.name q.queryType = .referral zone nsRecords glue →
    ∀ target ∈ glueless nsRecords glue, h.table.Clear target
  zone : h.cfg.validates = true → ∀ zone nsRecords glue,
    classify m.lowercaseResponseNames q.name q.queryType = .referral zone nsRecords glue →
    h.table.Clear zone
  signers : h.cfg.validates = true → ∀ r ∈ m.answers ++ m.authorities, ∀ s, r.rrsig? = some s →
    h.table.ClearUp s.signerName

/-- Nobody sends the handler after a name that belongs to tor: not its own tasks, not a client with a
second question, not a server. -/
structure Discreet (clients : Message → Prop) (N : Net ι) (h : Handler) : Prop where
  root : h.cfg.iterative = true ∨ h.cfg.validates = true → h.table.Clear Name.root
  prewarmed : h.cfg.iterative = true → h.cfg.validates = true → ∀ n ∈ prewarmNames, h.table.Clear n
  asked : ∀ msg q qs, clients msg → msg.queries = q :: qs → h.table.Clear q.name →
    (h.table.lookupWithDomain q.name).isSome = true → ∀ q' ∈ qs, h.table.Clear q'.name
  replied : ∀ asked ip q m, N.reply asked ip q (.parsed m) → h.table.Clear q.name → Reticent h q m

/-! ## The conduct -/

section

variable {C : Crypto} {clients : Message → Prop} {N : Net ι} {h : Handler}

structure ClearStep (t : ForwarderTable) (step : ChainStep) : Prop where
  zone : t.Clear step.zone
  signers : ∀ s ∈ step.dsRrsig, t.ClearUp s.signerName

def discretion (N : Net ι) (h : Handler) : Conduct where
  reply := N.reply
  ask _ _ q := h.table.Clear q.name
  roots _ := True
  keep := ClearStep h.table
  forward domain m := ∀ n ∈ h.table.cleartext (.forward domain m), h.table.Clear n

omit [DecidableEq ι] in
theorem Reticent.dsRrsig {q : Query} {m : Message} (hm : Reticent h q m)
    (hon : h.cfg.validates = true) {zone : Name} :
    ∀ s ∈ (extractDsAndRrsig m.lowercaseResponseNames zone).2, h.table.ClearUp s.signerName := by
  intro s hs
  obtain ⟨r, hr, hsig⟩ := mem_filterMap.mp (mem_filter.mp hs).1
  obtain ⟨r', hr', rfl⟩ := mem_map.mp (mem_filter.mp hr).1
  exact hm.signers hon r' (mem_append_right _ hr') s hsig

def Quiet (h : Handler) (q : Query) (hop : Hop) : Prop :=
  h.table.Clear q.name ∧ (h.cfg.validates = true → ∀ step ∈ hop.chain.steps, ClearStep h.table step)

omit [DecidableEq ι] in
theorem tourOf_discretion (hdis : Discreet clients N h) :
    TourOf (discretion N h).pre (discretion N h).post h.cfg.iter h.table.Clear (Quiet h) where
  free o ho := by cases o <;> trivial
  ask _ _ _ hinv _ := hinv.1
  start _ _ hname hstart := ⟨hname, fun _ => hstart.keep⟩
  next := by
    rintro q hop next ⟨hname, hsteps⟩ hfollows
    obtain ⟨ip, m, nsRecords, glue, hm, hcls, hnext⟩ := hfollows.referred
    have hreply := hdis.replied _ ip q m hm hname
    refine ⟨hname, fun hon => ?_⟩
    rw [hnext]
    refine forall_mem_append.mpr ⟨hsteps hon, forall_mem_singleton.mpr ?_⟩
    exact ⟨hreply.zone hon _ _ _ hcls, hreply.dsRrsig hon⟩
  chase q _ ip m target hinv hm := (hdis.replied _ ip q m hm hinv.1).chased target
  servers q _ ip m zone nsRecords glue hinv hm :=
    (hdis.replied _ ip q m hm hinv.1).servers zone nsRecords glue
  glue _ _ _ _ _ _ _ _ _ _ := trivial
  zoneNs _ _ _ _ _ _ _ := trivial

omit [DecidableEq ι] in
theorem traced_signers (hdis : Discreet clients N h) (hon : h.cfg.validates = true) {q : Query}
    {msg : Message} {chain : WalkChain}
    (htraced : Traced (discretion N h).post (Quiet h) q msg chain) :
    ∀ r ∈ msg.answers ++ msg.authorities, ∀ s, r.rrsig? = some s → h.table.ClearUp s.signerName := by
  have hlower : ∀ {q : Query} {m : Message}, Reticent h q m →
      ∀ r ∈ m.lowercaseResponseNames.answers ++ m.lowercaseResponseNames.authorities,
        ∀ s, r.rrsig? = some s → h.table.ClearUp s.signerName := by
    intro q m hm r hr
    rw [show m.lowercaseResponseNames.answers ++ m.lowercaseResponseNames.authorities =
      (m.answers ++ m.authorities).map Record.lowercaseName from map_append.symm] at hr
    obtain ⟨r', hr', rfl⟩ := mem_map.mp hr
    exact hm.signers hon r' hr'
  induction htraced with
  | done hinv hm _ => exact hlower (hdis.replied _ _ _ _ hm hinv.1)
  | chased hinv hm _ _ ih =>
    obtain ⟨hanswers, hauthorities⟩ := forall_mem_append.mp (hlower (hdis.replied _ _ _ _ hm hinv.1))
    have hsub := (forall_mem_append.mp ih).1
    exact forall_mem_append.mpr ⟨forall_mem_append.mpr ⟨hanswers, hsub⟩, hauthorities⟩

omit [DecidableEq ι] in
theorem toured_discretion (hdis : Discreet clients N h) :
    (discretion N h).Toured h.cfg.iter h.table.Clear (Quiet h) where
  tour := tourOf_discretion hdis
  rooted hon _ _ _ _ := hdis.root (Or.inr hon)
  checked := by
    intro hon q msg chain htraced
    have hboots : ∀ signer, h.table.ClearUp signer → (discretion N h).BootsUp signer :=
      fun signer hclear _ _ zone hzone => ⟨fun _ _ => hclear zone hzone, fun _ _ => hclear zone hzone⟩
    obtain ⟨hop, ⟨_, hsteps⟩, rfl⟩ := htraced.chain_inv
    refine ⟨fun step hstep _ _ => (hsteps hon step hstep).zone, ?_, ?_⟩
    · exact fun step hstep s hs => hboots _ ((hsteps hon step hstep).signers s hs)
    · exact fun r hr s hs => hboots _ (traced_signers hdis hon htraced r hr s hs)
  keep hon _ _ hinv := hinv.2 hon

omit [DecidableEq ι] in
theorem serves_discretion (hdis : Discreet clients N h) {msg : Message} {q : Query} {qs : List Query}
    (hmsg : clients msg) (hq : msg.queries = q :: qs) :
    (discretion N h).Serves h.cfg h.table.Clear msg q := by
  have hlookup : ∀ n, h.cfg.forwarders.lookupWithDomain n =
      (h.table.lookupWithDomain n).map ForwarderEntry.domain := by
    intro n
    rw [h.routes, ForwarderTable.lookupWithDomain_domains]
  -- A query with one question is in the clear only where the name in question is.
  have hone : ∀ n domain m, h.cfg.forwarders.lookupWithDomain n = some domain →
      m.queries.map Query.name = [n] → (discretion N h).forward domain m := by
    intro n domain m hdomain hm n' hn'
    rw [hlookup] at hdomain
    obtain ⟨e, he, rfl⟩ := Option.map_eq_some_iff.mp hdomain
    obtain ⟨hclear, hmem⟩ := ForwarderTable.clear_of_mem_cleartext he hn'
    rw [hm, mem_singleton] at hmem
    exact hmem ▸ hclear
  refine ⟨fun hnone => ?_, fun domain hdomain => ⟨?_, hone q.name domain _ hdomain rfl⟩,
    fun _ name domain _ hdomain => hone name domain _ hdomain rfl⟩
  · rw [hlookup] at hnone
    exact ForwarderTable.clear_of_none (Option.map_eq_none_iff.mp hnone)
  · intro n hn
    rw [hlookup] at hdomain
    obtain ⟨e, he, rfl⟩ := Option.map_eq_some_iff.mp hdomain
    obtain ⟨hclear, hmem⟩ := ForwarderTable.clear_of_mem_cleartext he hn
    rw [hq, map_cons] at hmem
    rcases mem_cons.mp hmem with rfl | hmem
    · exact hclear
    · obtain ⟨q', hq', rfl⟩ := mem_map.mp hmem
      exact hdis.asked msg q qs hmsg hq hclear (he ▸ rfl) q' hq'

omit [DecidableEq ι] in
theorem Launched.discreet (hdis : Discreet clients N h) {p : RProg Unit}
    (hp : Launched C clients h p) : (discretion N h).contract.Safe () p fun _ _ => True := by
  cases hp with
  | serve nest peer dns64Enabled msg hmsg =>
    exact serve_conduct (toured_discretion hdis) fun q qs hq => serves_discretion hdis hmsg hq
  | prime hon => exact prime_conduct (fun _ _ _ _ => hdis.root (Or.inl hon)) fun _ _ => trivial
  | prewarm nest name hname hiter hon =>
    exact prewarm_conduct (toured_discretion hdis) hon (hdis.prewarmed hiter hon name hname)
  | refresh hon =>
    refine Contract.safe_perform_bind.mpr ⟨trivial, fun roots _ => ?_⟩
    exact (fetchDnskeyRrset_conduct fun _ _ => hdis.root (Or.inr hon)).bind fun _ _ _ => trivial

end

/-- **Names that belong to tor do not leave in the clear if nobody sends a handler after one**: in every run, with
any clients and reloads, what a task is about to send directly has no question for a name whose most specific
forwarder is reached through tor. -/
theorem cleartext_not_tor {C : Crypto} {clients : Message → Prop} {handlers : ι → Handler}
    {N : Net ι} (hdis : ∀ i, Discreet clients N (handlers i)) {w : World ι}
    {ts : List (ι × RProg Unit)} (hreach : (launched C clients handlers N).Reach w ts) {i : ι} {o : Op}
    {k : o.Res → RProg Unit} (hpending : (i, .op o k) ∈ ts) :
    ∀ n ∈ (handlers i).table.cleartext o, (handlers i).table.torName n = false := by
  have hkeeps : (launched C clients handlers N).Keeps
      (fun i => (discretion N (handlers i)).contract) (Held fun i => discretion N (handlers i))
      (fun _ _ => True) () :=
    conduct_keeps (fun _ _ _ _ _ hr => hr) (fun w hw => ⟨hw, fun _ => trivial⟩)
      fun i p hp => hp.discreet (hdis i)
  obtain ⟨_, _, hpre⟩ := hkeeps.reach_pre hreach hpending
  cases o with
  | query asked ip q =>
    intro n hn
    rw [mem_singleton.mp hn]
    exact hpre
  | forward domain m => exact hpre
  | _ => exact fun n hn => nomatch hn

/-! ## A handler with one forwarder, reached through tor -/

def torDns : DnsConfig :=
  { sampleDns [lanEntry] with
    forwarders :=
      [⟨"z", [.full { address := .v4 9, transport := .dot, tlsName := some "z", via := .tor }]⟩] }

def torEntry : ForwarderEntry where
  domain := childZone
  servers := [⟨.v4 9, .dot, some "z", .tor⟩]
  usable := by
    rintro s hs
    rw [mem_singleton.mp hs]
    exact ⟨fun _ h => (nomatch h), fun h => (nomatch h), fun _ => rfl⟩
  unmixed := Or.inl fun s hs => (mem_singleton.mp hs).symm ▸ rfl

def torTable : ForwarderTable := ⟨[torEntry], pairwise_singleton ..⟩

def torHandler : Handler := ⟨0, handlerConfig sampleLibrary torDns torTable, torTable, rfl⟩

def outsideTask : RProg Unit :=
  serve (listCrypto []) torHandler.cfg 2 (.v4 9) false (questionFor outsideName .A)

def rootScript (m : Message) : Script where
  reply _ _ q := if q.name = outsideName then .parsed m else .failed

def torProcess (m : Message) : System Unit Op Op.Res (World Unit) :=
  launched (listCrypto []) (fun _ => True) (fun _ => torHandler) ((rootScript m).net rootAnchors)

def outsideStopped (m : Message) (n : Nat) : RProg Unit × World Unit :=
  outsideTask.execFor ((rootScript m).handle ()) n (freshWorld rootAnchors)

theorem outsideStopped_reach (m : Message) (n : Nat) :
    (torProcess m).Reach (outsideStopped m n).2 [((), (outsideStopped m n).1)] := by
  refine System.Reach.execFor (Script.handle_step (Script.fits_net _ _ _)) n ?_
  exact .spawn (.init (freshWorld_init fun _ => rfl)) (.serve _ _ _ _ trivial)

theorem torTable_not_clear {n : Name} (h : (torTable.lookupWithDomain n).isSome = true) :
    ¬ torTable.Clear n := by
  obtain ⟨e, he⟩ := Option.isSome_iff_exists.mp h
  have hentry : e = torEntry := mem_singleton.mp (mem_of_find?_eq_some he)
  subst hentry
  intro hclear
  nomatch (ForwarderTable.torName_eq he).symm.trans hclear

theorem discreet_empty :
    Discreet (fun _ => True) ((rootScript {}).net rootAnchors : Net Unit) torHandler where
  root _ := by
    show torTable.torName Name.root = false
    decide
  prewarmed _ hon := nomatch hon
  asked _ q _ _ _ hclear hsome := absurd hclear (torTable_not_clear hsome)
  replied := by
    intro asked ip q m hm _
    have hm : Reply.parsed m = if q.name = outsideName then .parsed {} else .failed := hm
    split at hm
    · cases hm
      have hempty : classify ({} : Message).lowercaseResponseNames q.name q.queryType = .empty := by
        simp [classify, Message.lowercaseResponseNames]
      refine ⟨?_, ?_, fun hon => (nomatch hon), fun hon => (nomatch hon)⟩
      · exact fun target hcls => nomatch hempty.symm.trans hcls
      · exact fun zone nsRecords glue hcls => nomatch hempty.symm.trans hcls
    · nomatch hm

theorem cleartext_not_tor_asked : ∃ o k, (torProcess {}).Reach (outsideStopped {} 9).2 [((), .op o k)] ∧
    torTable.cleartext o = [outsideName] ∧ ∀ n ∈ torTable.cleartext o, torTable.torName n = false := by
  have hnext : (outsideStopped {} 9).1.next?.map torTable.cleartext = some [outsideName] := by decide
  obtain ⟨o, ho, hnames⟩ := Option.map_eq_some_iff.mp hnext
  obtain ⟨k, hk⟩ := Prog.next?_eq_some ho
  have hreach := outsideStopped_reach {} 9
  rw [hk] at hreach
  exact ⟨o, k, hreach, hnames,
    cleartext_not_tor (fun _ => discreet_empty) hreach (mem_singleton_self _)⟩

def Leaks (m : Message) : Prop :=
  ∃ w o k, (torProcess m).Reach w [((), .op o k)] ∧ ∃ n ∈ torTable.cleartext o, torTable.torName n = true

theorem leaks_of_next {m : Message} (n : Nat)
    (h : (outsideStopped m n).1.next?.map (fun o => (torTable.cleartext o).any torTable.torName) =
      some true) : Leaks m := by
  obtain ⟨o, ho, hany⟩ := Option.map_eq_some_iff.mp h
  obtain ⟨k, hk⟩ := Prog.next?_eq_some ho
  have hreach := outsideStopped_reach m n
  rw [hk] at hreach
  exact ⟨_, o, k, hreach, any_eq_true.mp hany⟩

theorem chased_name_leaks :
    ForwarderTable.new sampleLibrary torDns.forwarders = .ok torTable ∧
      Leaks { answers := [sampleRecord outsideName (.cname insideName)] } ∧
      Leaks { authorities := [sampleRecord outsideName (.ns insideName)] } :=
  ⟨rfl, leaks_of_next 15 (by decide), leaks_of_next 24 (by decide)⟩

end Dnsd.Daemon
