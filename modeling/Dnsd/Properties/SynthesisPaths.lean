/-
# SynthesisPaths — DNS64 on the three ways to an answer.

By recursion and through a forwarder any answers of the A response are enough; the cache asks for an address.  The
ways agree where an A response with answers has addresses (`Addressed`).
-/
import Dnsd.Recursor.Replies

namespace Dnsd.Recursor

open Proto Lib Prog List

/-! ## What a reply should be -/

def HasAddress (a : Message) : Prop := ∃ r ∈ a.answers, r.recordType = .A

/-- DNS64 applies to the AAAA response, and the A response has addresses. -/
def ShouldMake (cfg : Config) (dns64Enabled : Bool) (q : Query) (aaaa a : Message) : Prop :=
  shouldSynthesise cfg.dns64 dns64Enabled q.name q.queryType aaaa = true ∧
    a.responseCode = .noError ∧ HasAddress a

/-- The reply is made from the A response exactly if it should be; otherwise it has the response code and the
answers of the AAAA response. -/
structure Rightly (cfg : Config) (dns64Enabled : Bool) (msg : Message) (q : Query) (aaaa a reply : Message) :
    Prop where
  made : ShouldMake cfg dns64Enabled q aaaa a →
    ∃ p, cfg.dns64 = some p ∧ reply = cfg.policy.applyToResponse (synthesiseFromA p msg a)
  original : ¬ShouldMake cfg dns64Enabled q aaaa a →
    reply.responseCode = aaaa.responseCode ∧ reply.answers = aaaa.answers

def Addressed (a : Message) : Prop := a.answers ≠ [] → a.responseCode = .noError ∧ HasAddress a

def Gives {α : Type} (ok : (o : Op) → o.Res → Prop) (p : RProg α) (a : α) : Prop := ∀ b, p.Yields ok b → b = a

theorem Gives.bind {α β : Type} {ok : (o : Op) → o.Res → Prop} {p : RProg α} {f : α → RProg β} {a : α} {b : β}
    (hp : Gives ok p a) (h : (p >>= f).Yields ok b) : (f a).Yields ok b := by
  obtain ⟨a', ha', hb⟩ := yields_bind.mp h
  rwa [hp a' ha'] at hb

/-! ## The three ways -/

section

variable {C : Crypto} {cfg : Config} {nest : Nat} {dns64Enabled : Bool} {msg : Message} {q : Query}
  {aaaa a reply : Message} {ok : (o : Op) → o.Res → Prop}

theorem applyToResponse_keeps (p : DnssecPolicy) (m : Message) :
    (p.applyToResponse m).responseCode = m.responseCode ∧ (p.applyToResponse m).answers = m.answers := by
  obtain ⟨b, hb⟩ := applyToResponse_eq p m
  rw [hb]
  exact ⟨rfl, rfl⟩

theorem not_shouldSynthesise_none (hp : cfg.dns64 = none) :
    ¬shouldSynthesise cfg.dns64 dns64Enabled q.name q.queryType aaaa = true := by
  rw [hp, shouldSynthesise]
  split <;> exact Bool.false_ne_true

theorem rightly_unasked (hno : ¬shouldSynthesise cfg.dns64 dns64Enabled q.name q.queryType aaaa = true)
    (hreply : reply.responseCode = aaaa.responseCode ∧ reply.answers = aaaa.answers) :
    Rightly cfg dns64Enabled msg q aaaa a reply :=
  ⟨fun h => absurd h.1 hno, fun _ => hreply⟩

theorem rightly_empty (hempty : a.answers.isEmpty = true)
    (hreply : reply.responseCode = aaaa.responseCode ∧ reply.answers = aaaa.answers) :
    Rightly cfg dns64Enabled msg q aaaa a reply := by
  refine ⟨fun ⟨_, _, r, hr, _⟩ => ?_, fun _ => hreply⟩
  rw [isEmpty_iff.mp hempty] at hr
  cases hr

theorem rightly_made {p : Dns64Policy} (hp : cfg.dns64 = some p)
    (h : ShouldMake cfg dns64Enabled q aaaa a) :
    Rightly cfg dns64Enabled msg q aaaa a (cfg.policy.applyToResponse (synthesiseFromA p msg a)) :=
  ⟨fun _ => ⟨p, hp, rfl⟩, fun hnot => absurd h hnot⟩

theorem answerIterative_rightly (ha : Addressed a)
    (hsix : Gives ok (resolveValidateCache C cfg nest msg) (.ok aaaa))
    (hfour : Gives ok (resolveValidateCache C cfg nest (aQuery msg q)) (.ok a))
    (h : (answerIterative C cfg nest dns64Enabled msg q).Yields ok reply) :
    Rightly cfg dns64Enabled msg q aaaa a reply := by
  have hrest := hsix.bind h
  cases hp : cfg.dns64 with
  | none =>
    rw [hp] at hrest
    obtain rfl := yields_ret.mp hrest
    exact rightly_unasked (not_shouldSynthesise_none hp) ⟨rfl, rfl⟩
  | some p =>
    rw [hp] at hrest
    dsimp only at hrest
    rw [← hp] at hrest
    split at hrest
    · rename_i hasked
      have hrest := hfour.bind hrest
      dsimp only at hrest
      split at hrest
      · rename_i hempty
        obtain rfl := yields_ret.mp hrest
        exact rightly_empty hempty ⟨rfl, rfl⟩
      · rename_i hanswers
        obtain rfl := yields_ret.mp hrest
        exact rightly_made hp ⟨hasked, ha fun hnil => hanswers (isEmpty_iff.mpr hnil)⟩
    · rename_i hasked
      obtain rfl := yields_ret.mp hrest
      exact rightly_unasked hasked ⟨rfl, rfl⟩

theorem storeForwarded_keeps (h : (storeForwarded cfg q aaaa).Yields ok reply) :
    reply.responseCode = aaaa.responseCode ∧ reply.answers = aaaa.answers := by
  obtain ⟨_, _, hret⟩ := yields_perform_bind.mp h
  obtain rfl := yields_ret.mp hret
  exact applyToResponse_keeps cfg.policy aaaa

theorem answerForwarded_rightly {domain : Name} (ha : Addressed a)
    (hsix : Gives ok (queryForwarder domain msg) (.parsed aaaa))
    (hfour : Gives ok (queryForwarder domain (aQuery msg q)) (.parsed a))
    (h : (answerForwarded cfg domain dns64Enabled msg q).Yields ok reply) :
    Rightly cfg dns64Enabled msg q aaaa a reply := by
  have hrest := hsix.bind h
  cases hp : cfg.dns64 with
  | none =>
    rw [hp] at hrest
    exact rightly_unasked (not_shouldSynthesise_none hp) (storeForwarded_keeps hrest)
  | some p =>
    rw [hp] at hrest
    dsimp only at hrest
    rw [← hp] at hrest
    split at hrest
    · rename_i hasked
      have hrest := hfour.bind hrest
      dsimp only at hrest
      split at hrest
      · exact rightly_empty ‹_› (storeForwarded_keeps hrest)
      · rename_i hanswers
        obtain rfl := yields_ret.mp hrest
        exact rightly_made hp ⟨hasked, ha fun hnil => hanswers (isEmpty_iff.mpr hnil)⟩
    · exact rightly_unasked ‹_› (storeForwarded_keeps hrest)

theorem cachedAAnswer_hasAddress {b : Message}
    (hfour : Gives ok (call (.cacheGet (CacheKey.of q.name .A .IN))) (some a))
    (h : (cachedAAnswer q.name).Yields ok (some b)) : b = a ∧ HasAddress a := by
  have hrest := hfour.bind h
  dsimp only at hrest
  split at hrest
  · rename_i hany
    obtain ⟨_, _, hret⟩ := yields_perform_bind.mp hrest
    obtain ⟨r, hr, htype⟩ := any_eq_true.mp hany
    exact ⟨Option.some.inj (yields_ret.mp hret), r, hr, beq_iff_eq.mp htype⟩
  · cases yields_ret.mp hrest

theorem tryCache_rightly (ha : Addressed a)
    (hsix : Gives ok (call (.cacheGet (CacheKey.of q.name q.queryType q.queryClass))) (some aaaa))
    (hfour : Gives ok (call (.cacheGet (CacheKey.of q.name .A .IN))) (some a))
    (h : (tryCache cfg dns64Enabled msg q).Yields ok (some reply)) :
    Rightly cfg dns64Enabled msg q aaaa a reply := by
  have hrest := hsix.bind h
  unfold buildFromCacheValue at hrest
  dsimp only at hrest
  split at hrest
  · rename_i hasked
    cases hp : cfg.dns64 with
    | none => exact absurd hasked (not_shouldSynthesise_none hp)
    | some p =>
      rw [hp] at hrest
      obtain ⟨found, hfound, hret⟩ := yields_bind.mp hrest
      cases found with
      | none => cases yields_ret.mp hret
      | some b =>
        obtain ⟨rfl, haddress⟩ := cachedAAnswer_hasAddress hfour hfound
        obtain rfl := Option.some.inj (yields_ret.mp hret)
        obtain ⟨r, hr, _⟩ := haddress
        exact rightly_made hp ⟨hasked, ha (ne_nil_of_mem hr)⟩
  · rename_i hasked
    obtain ⟨_, _, hret⟩ := yields_perform_bind.mp hrest
    obtain rfl := Option.some.inj (yields_ret.mp hret)
    refine rightly_unasked hasked ?_
    split
    · exact ⟨rfl, rfl⟩
    · exact applyToResponse_keeps cfg.policy _

end

def sixMessage : Message := { queries := [⟨insideName, .AAAA, .IN⟩] }

def goneResponse : Message := { responseCode := .nxDomain }

def goneScript (a : Message) : Script where
  forward _ query := .parsed (if query.queries.any fun q => q.queryType == .A then a else goneResponse)

abbrev sixConfig : Config := relayConfig (some .defaultWkp)

def forwardedSix (a : Message) : Message :=
  (goneScript a).result (answerForwarded sixConfig Name.root true sixMessage ⟨insideName, .AAAA, .IN⟩)
    (freshWorld rootAnchors)

def cachedSix (a : Message) : Option Message :=
  (goneScript a).result
    (do
      call (.cachePut .forwarded (CacheKey.of insideName .AAAA .IN) goneResponse)
      call (.cachePut .forwarded (CacheKey.of insideName .A .IN) a)
      tryCache sixConfig true sixMessage ⟨insideName, .AAAA, .IN⟩)
    (freshWorld rootAnchors)

theorem queryForwarder_gives {a query m : Message} (h : (goneScript a).result (queryForwarder Name.root query)
      (freshWorld rootAnchors) = .parsed m) :
    Gives (goneScript a).Answered (queryForwarder Name.root query) (.parsed m) := by
  intro b hb
  obtain ⟨r, ⟨w, rfl⟩, hret⟩ := yields_perform_bind.mp hb
  exact (yields_ret.mp hret).trans h

def fourResponse : Message := { answers := [sampleRecord insideName (.a 7)] }

def danglingResponse : Message :=
  { responseCode := .nxDomain, answers := [sampleRecord insideName (.cname outsideName)] }

def bareSignature : Message := { answers := [sampleRecord insideName (.rrsig (sampleSig Name.root .A))] }

end Dnsd.Recursor
