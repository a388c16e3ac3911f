/-
# Trust — what stands behind a trusted key, and that the validator adds no others.

A key set is trusted because its keys are configured anchors, because it is the root's own set signed by a trusted
root key, or because of a link from a trusted set above it (`Trusted`).  What a link asks is a parameter
(`TrustRules`); what the rules need beyond the code's own checks is asked of the inputs (`BootAllowed`,
`WalkAllowed`).
-/
import Dnsd.Recursor.Validator

namespace Dnsd.Recursor

open Proto Lib Contract List

variable {ι : Type} {a : TrustAnchors} {chain : ChainKeys} {e : Name × List DNSKEY} {k key : DNSKEY}
  {zone : Name}

/-! ## Links and trusted key sets -/

def Received (N : Net ι) (zone : Name) (set : DnskeySet) : Prop :=
  ∃ asked ip m, N.reply asked ip ⟨zone, .DNSKEY, .IN⟩ (.parsed m) ∧
    set = dnskeySetOf zone m.lowercaseResponseNames.answers

theorem Received.keys_ne_nil {C : Crypto} {N : Net ι} {set : DnskeySet} {sig : RRSIG}
    (h : Received N zone set) (hv : verifyRrset C set.records sig k = true) : set.keys ≠ [] := by
  obtain ⟨_, _, m, _, rfl⟩ := h
  cases hrs : (dnskeySetOf zone m.lowercaseResponseNames.answers).records with
  | nil =>
    rw [hrs] at hv
    nomatch hv
  | cons r rs =>
    have hr : r ∈ (dnskeySetOf zone m.lowercaseResponseNames.answers).records := by simp [hrs]
    obtain ⟨key, hkey⟩ := Option.isSome_iff_exists.mp (mem_filter.mp hr).2
    exact ne_nil_of_mem (mem_filterMap.mpr ⟨r, hr, hkey⟩)

/-- What a link asks: which zones are above which, and when a key set is accepted for a DS set.
`walked` says which steps walks hand to the validator. -/
structure TrustRules where
  above : Name → Name → Prop
  accepts : List Record → Name → DnskeySet → RRSIG → Prop
  walked : ChainStep → Prop := fun _ => True

/-- A DS set with a signature in its window that verifies under one of the keys. -/
def DsVerified (C : Crypto) (N : Net ι) (keys : List DNSKEY) (ds : List Record) : Prop :=
  ∃ sig now, sig.typeCovered = .DS ∧ N.clock now ∧ InWindow now sig ∧
    ∃ k ∈ keys, verifyRrset C ds sig k = true

/-- The keys are those of a DNSKEY set of the zone that arrived, is signed within its window and is
accepted for the DS set. -/
def KeysOf (R : TrustRules) (N : Net ι) (ds : List Record) (zone : Name) (keys : List DNSKEY) :
    Prop :=
  ∃ set sig now, Received N zone set ∧ set.keys = keys ∧ set.sig = some sig ∧ N.clock now ∧
    InWindow now sig ∧ R.accepts ds zone set sig

/-- A link of the chain: a DS set verified under the parent's keys, and the child's key set accepted
for it.  The child's name is taken up to case. -/
def Link (R : TrustRules) (C : Crypto) (N : Net ι) (parent : Name) (parentKeys : List DNSKEY)
    (zone : Name) (keys : List DNSKEY) : Prop :=
  ∃ child ds, child.same zone = true ∧ R.above parent child ∧ DsVerified C N parentKeys ds ∧
    KeysOf R N ds child keys

/-- The key sets with a chain of trust behind them, for the anchors of handler `i`. -/
inductive Trusted (R : TrustRules) (C : Crypto) (N : Net ι) (i : ι) : Name → List DNSKEY → Prop
  | anchor {zone : Name} {keys : List DNSKEY} {a : TrustAnchors} : N.anchors i a → keys ≠ [] →
      (∀ k ∈ keys, ∃ n, n.same zone = true ∧ (n, k) ∈ a.keys) → Trusted R C N i zone keys
  | rootSet {keys : List DNSKEY} {set : DnskeySet} {sig : RRSIG} {now : UInt32} :
      Trusted R C N i Name.root keys → Received N Name.root set → set.sig = some sig →
      N.clock now → InWindow now sig → (∃ k ∈ keys, verifyRrset C set.records sig k = true) →
      Trusted R C N i Name.root set.keys
  | link {parent zone : Name} {parentKeys keys : List DNSKEY} :
      Trusted R C N i parent parentKeys → Link R C N parent parentKeys zone keys →
      Trusted R C N i zone keys

def Delegated (R : TrustRules) (C : Crypto) (N : Net ι) (i : ι) (zone : Name)
    (keys : List DNSKEY) : Prop :=
  ∃ parent parentKeys, Trusted R C N i parent parentKeys ∧ Link R C N parent parentKeys zone keys

def RootSigned (R : TrustRules) (C : Crypto) (N : Net ι) (i : ι) (keys : List DNSKEY) : Prop :=
  ∃ trusted set sig now, Trusted R C N i Name.root trusted ∧ Received N Name.root set ∧
    set.keys = keys ∧ set.sig = some sig ∧ N.clock now ∧ InWindow now sig ∧
    ∃ k ∈ trusted, verifyRrset C set.records sig k = true

/-- What may join the trusted keys: a delegated set, and for the root its own signed set. -/
def Admissible (R : TrustRules) (C : Crypto) (N : Net ι) (i : ι) (zone : Name)
    (keys : List DNSKEY) : Prop :=
  Delegated R C N i zone keys ∨ zone = Name.root ∧ RootSigned R C N i keys

section

variable {R : TrustRules} {C : Crypto} {N : Net ι} {i : ι} {zone zone' : Name} {keys : List DNSKEY}

theorem Admissible.trusted (h : Admissible R C N i zone keys) : Trusted R C N i zone keys := by
  rcases h with ⟨p, pkeys, hp, hl⟩ | ⟨rfl, t, set, sig, now, ht, hset, rfl, hsig, hnow, hwin, hv⟩
  · exact .link hp hl
  · exact .rootSet ht hset hsig hnow hwin hv

theorem Admissible.delegated (h : Admissible R C N i zone keys) (hz : zone.isRoot = false) :
    Delegated R C N i zone keys := by
  rcases h with h | ⟨rfl, _⟩
  · exact h
  · nomatch hz

theorem Admissible.congr (h : Admissible R C N i zone keys) (hs : zone.same zone' = true) :
    Admissible R C N i zone' keys := by
  rcases h with ⟨p, pkeys, hp, child, ds, hc, hl⟩ | ⟨rfl, h⟩
  · exact Or.inl ⟨p, pkeys, hp, child, ds, Name.same_trans hc hs, hl⟩
  · exact Or.inr ⟨Name.same_root_iff.mp (Name.same_symm hs), h⟩

end

/-! ## The keys trusted so far -/

def ChainTrusted (R : TrustRules) (C : Crypto) (N : Net ι) (i : ι) (chain : ChainKeys) : Prop :=
  ∀ e ∈ chain, Trusted R C N i e.1 e.2

theorem mem_addAnchor {name : Name} (h : e ∈ addAnchor name key chain) :
    e ∈ chain ∨ e = (name, [key]) ∨ ∃ e' ∈ chain, e'.1.same name = true ∧ e = (e'.1, e'.2 ++ [key]) := by
  induction chain with
  | nil => exact Or.inr (Or.inl (mem_singleton.mp h))
  | cons e' chain ih =>
    unfold addAnchor at h
    split at h
    · rename_i hs
      rcases mem_cons.mp h with rfl | h
      · exact Or.inr (Or.inr ⟨e', .head _, hs, rfl⟩)
      · exact Or.inl (.tail _ h)
    · rcases mem_cons.mp h with rfl | h
      · exact Or.inl (.head _)
      · rcases ih h with h | h | ⟨e'', hm, hs, he⟩
        · exact Or.inl (.tail _ h)
        · exact Or.inr (Or.inl h)
        · exact Or.inr (Or.inr ⟨e'', .tail _ hm, hs, he⟩)

structure Seeded (a : TrustAnchors) (e : Name × List DNSKEY) : Prop where
  filled : e.2 ≠ []
  keys : ∀ k ∈ e.2, ∃ n, n.same e.1 = true ∧ (n, k) ∈ a.keys
  name : ∃ k, (e.1, k) ∈ a.keys

theorem mem_seedChain (h : e ∈ seedChain a) : Seeded a e := by
  suffices ∀ (ks : List (Name × DNSKEY)) (chain : ChainKeys), (∀ x ∈ ks, x ∈ a.keys) →
      (∀ e ∈ chain, Seeded a e) →
      ∀ e ∈ ks.foldl (fun chain a => addAnchor a.1 a.2 chain) chain, Seeded a e from
    this a.keys [] (fun _ h => h) (fun _ h => nomatch h) e h
  intro ks
  induction ks with
  | nil => exact fun chain _ hchain => hchain
  | cons x ks ih =>
    intro chain hks hchain
    have hx : (x.1, x.2) ∈ a.keys := hks x (.head _)
    refine ih _ (fun y hy => hks y (.tail _ hy)) ?_
    intro e he
    rcases mem_addAnchor he with he | rfl | ⟨e', he', hs, rfl⟩
    · exact hchain e he
    · refine ⟨cons_ne_nil _ _, ?_, x.2, hx⟩
      intro k hk
      exact ⟨x.1, Name.same_refl _, mem_singleton.mp hk ▸ hx⟩
    · refine ⟨by simp, ?_, (hchain e' he').name⟩
      intro k hk
      rcases mem_append.mp hk with hk | hk
      · exact (hchain e' he').keys k hk
      · exact ⟨x.1, Name.same_symm hs, mem_singleton.mp hk ▸ hx⟩

theorem seedChain_ne_nil (h : a.keys ≠ []) : seedChain a ≠ [] := by
  have hput : ∀ (name : Name) (key : DNSKEY) (chain : ChainKeys), addAnchor name key chain ≠ [] := by
    intro name key chain
    cases chain with
    | nil => nofun
    | cons e chain =>
      unfold addAnchor
      split <;> nofun
  obtain ⟨keys⟩ := a
  rcases eq_nil_or_concat keys with rfl | ⟨keys, x, rfl⟩
  · exact absurd rfl h
  · unfold seedChain
    rw [concat_eq_append, foldl_append]
    exact hput _ _ _

theorem mem_putEntry {keys : List DNSKEY} (h : e ∈ putEntry chain zone keys) :
    e ∈ chain ∨ e = (zone, keys) := by
  rcases mem_append.mp h with h | h
  · exact Or.inl (mem_of_mem_filter h)
  · exact Or.inr (mem_singleton.mp h)

theorem closer_eq_some {best : Option (Name × List DNSKEY)} {x : Name × List DNSKEY}
    (h : closer zone best x = some e) : best = some e ∨ (e = x ∧ e.1.zoneOf zone = true) := by
  unfold closer at h
  split at h
  · rename_i hcond
    have hz : x.1.zoneOf zone = true := by
      rcases Bool.or_eq_true_iff.mp hcond with hs | hz
      · exact Name.zoneOf_of_same hs
      · exact hz
    split at h
    · cases h
      exact Or.inr ⟨rfl, hz⟩
    split at h
    · cases h
      exact Or.inr ⟨rfl, hz⟩
    · exact Or.inl h
  · exact Or.inl h

theorem closestEntry_mem (h : closestEntry chain zone = some e) : e ∈ chain ∧ e.1.zoneOf zone = true := by
  suffices ∀ (chain : ChainKeys) (best : Option (Name × List DNSKEY)),
      chain.foldl (closer zone) best = some e →
      best = some e ∨ (e ∈ chain ∧ e.1.zoneOf zone = true) from
    (this chain none h).resolve_left nofun
  intro chain
  induction chain with
  | nil => exact fun best h => Or.inl h
  | cons x chain ih =>
    intro best h
    rcases ih _ h with h | ⟨hm, hz⟩
    · rcases closer_eq_some h with h | ⟨rfl, hz⟩
      · exact Or.inl h
      · exact Or.inr ⟨.head _, hz⟩
    · exact Or.inr ⟨.tail _ hm, hz⟩

theorem mem_closestTrustedKeys (h : k ∈ closestTrustedKeys chain zone) :
    ∃ e ∈ chain, e.1.zoneOf zone = true ∧ e.2 = closestTrustedKeys chain zone := by
  unfold closestTrustedKeys at h ⊢
  cases he : closestEntry chain zone with
  | none =>
    rw [he] at h
    nomatch h
  | some e =>
    obtain ⟨hm, hz⟩ := closestEntry_mem he
    exact ⟨e, hm, hz, rfl⟩

theorem mem_entryKeys (h : k ∈ entryKeys chain zone) :
    ∃ e ∈ chain, e.1.same zone = true ∧ e.2 = entryKeys chain zone := by
  unfold entryKeys at h ⊢
  split at h
  · rename_i e he
    have hs := List.find?_some (p := fun e : Name × List DNSKEY => e.1.same zone) he
    exact ⟨e, mem_of_find?_eq_some he, hs, rfl⟩
  · nomatch h

theorem hasZone_iff : hasZone chain zone = true ↔ ∃ e ∈ chain, e.1.same zone = true := any_eq_true

theorem same_congr_right {a b n : Name} (h : a.same b = true) : n.same a = n.same b := by
  rw [Bool.eq_iff_iff]
  exact ⟨fun hn => Name.same_trans hn h, fun hn => Name.same_trans hn (Name.same_symm h)⟩

theorem entryKeys_congr {z : Name} (h : z.same zone = true) : entryKeys chain z = entryKeys chain zone := by
  simp only [entryKeys, same_congr_right h]

/-! ## The seeded entry of a zone -/

theorem mem_entryKeys_addAnchor (n : Name) (k : DNSKEY) (chain : ChainKeys) :
    k ∈ entryKeys (addAnchor n k chain) n := by
  induction chain with
  | nil => simp [addAnchor, entryKeys]
  | cons e chain ih =>
    unfold addAnchor
    split
    · rename_i hs
      simp [entryKeys, hs]
    · rename_i hs
      simpa [entryKeys, hs] using ih

theorem mem_entryKeys_addAnchor_of_mem {n : Name} (h : k ∈ entryKeys chain zone) :
    k ∈ entryKeys (addAnchor n key chain) zone := by
  induction chain with
  | nil => nomatch h
  | cons e chain ih =>
    unfold addAnchor
    by_cases he : e.1.same zone = true
    · have hk : k ∈ e.2 := by simpa [entryKeys, he] using h
      split
      · simp [entryKeys, he, hk]
      · simpa [entryKeys, he] using hk
    · have hk : k ∈ entryKeys chain zone := by simpa [entryKeys, he] using h
      split
      · simpa [entryKeys, he] using hk
      · simpa [entryKeys, he] using ih hk

theorem mem_entryKeys_seedChain {x : Name × DNSKEY} (h : x ∈ a.keys) :
    x.2 ∈ entryKeys (seedChain a) x.1 := by
  suffices ∀ (ks : List (Name × DNSKEY)) (chain : ChainKeys),
      (x ∈ ks ∨ x.2 ∈ entryKeys chain x.1) →
      x.2 ∈ entryKeys (ks.foldl (fun chain a => addAnchor a.1 a.2 chain) chain) x.1 from
    this a.keys [] (Or.inl h)
  intro ks
  induction ks with
  | nil => exact fun chain h => h.resolve_left nofun
  | cons y ks ih =>
    intro chain h
    refine ih _ ?_
    rcases h with h | h
    · rcases mem_cons.mp h with rfl | h
      · exact Or.inr (mem_entryKeys_addAnchor x.1 x.2 chain)
      · exact Or.inl h
    · exact Or.inr (mem_entryKeys_addAnchor_of_mem h)

theorem mem_entryKeys_seedChain_iff :
    k ∈ entryKeys (seedChain a) zone ↔ ∃ x ∈ a.keys, x.1.same zone = true ∧ x.2 = k := by
  constructor
  · intro h
    obtain ⟨e, he, hs, hkeys⟩ := mem_entryKeys h
    obtain ⟨n, hn, hmem⟩ := (mem_seedChain he).keys k (hkeys ▸ h)
    exact ⟨(n, k), hmem, Name.same_trans hn hs, rfl⟩
  · rintro ⟨x, hx, hs, rfl⟩
    rw [← entryKeys_congr hs]
    exact mem_entryKeys_seedChain hx

end Dnsd.Recursor
