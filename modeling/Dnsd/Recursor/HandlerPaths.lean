/-
# HandlerPaths — the ways of a query through the handler, once.

A query is answered on the spot, from the cache, by a forwarder or by a resolution, and a DNS64 listener asks once
more on the last three.  These ways are followed once, under any contract; `Paths` lists what has to be known where
something is sent, stored or asked.
-/
import Dnsd.Recursor.Handler

namespace Dnsd.Recursor

open Proto Lib Contract

variable {γ : Type}

/-- The listener makes AAAA records for the question, with the policy. -/
structure Synthesises (cfg : Config) (dns64Enabled : Bool) (q : Query) (p : Dns64Policy) : Prop where
  policy : cfg.dns64 = some p
  enabled : dns64Enabled = true
  aaaa : q.queryType = .AAAA
  included : p.isExcluded q.name = false

theorem synthesises_of {cfg : Config} {dns64Enabled : Bool} {q : Query} {p : Dns64Policy} {resp : Message}
    (hp : cfg.dns64 = some p)
    (h : shouldSynthesise cfg.dns64 dns64Enabled q.name q.queryType resp = true) :
    Synthesises cfg dns64Enabled q p := by
  unfold shouldSynthesise at h
  rw [hp] at h
  dsimp only at h
  split at h
  · nomatch h
  rename_i henabled
  split at h
  · nomatch h
  rename_i htype
  split at h
  · nomatch h
  · rename_i hexcluded
    exact ⟨hp, by simpa using henabled, not_not.mp htype, Bool.eq_false_iff.mpr hexcluded⟩

def Op.passing : Op → Bool
  | .isReady | .rrlCheck _ | .negHit _ _ | .negInsert _ _ | .cacheGet _ => true
  | _ => false

def Settled (Found Sent : γ → Message → Prop) (g : γ) : ResolveOutcome → Prop
  | .ok resp => Found g resp
  | .bogus resp => Sent g resp
  | .walkFailed => True

structure Paths (K : Contract γ Op Op.Res) (C : Crypto) (cfg : Config) (dns64Enabled : Bool) (msg : Message)
    (q : Query) (Sent : γ → Message → Prop) (Read : γ → CacheKey → Message → Prop)
    (Told : γ → Name → Message → Prop) (Found : γ → Message → Prop) : Prop where
  passing : ∀ g o, o.passing = true → K.pre g o
  told_kept : ∀ g o r domain m, Told g domain m → Told (K.upd g o r) domain m
  found_kept : ∀ g o r m, Found g m → Found (K.upd g o r) m
  servfail : ∀ g, Sent g (servfail msg)
  ipv4only : ∀ g, isLocalQuestion q.name q.queryType = true →
    Sent g (ipv4onlyResponse msg q cfg.dns64 dns64Enabled)
  ddr : ∀ g, isDdrQuestion q.name = true → Sent g (ddrResponse msg q cfg.ddrSvcb)
  -- The cache.
  read : ∀ g key m, K.post g (.cacheGet key) (some m) → Read (K.upd g (.cacheGet key) (some m)) key m
  replayed : ∀ g m, Read g (CacheKey.of q.name q.queryType q.queryClass) m →
    K.Safe g (call (.note (.served (CacheKey.of q.name q.queryType q.queryClass) m))) fun g _ =>
      Sent g (if cfg.validates then { m with id := msg.id }
        else cfg.policy.applyToResponse { m with id := msg.id })
  made : ∀ g p a, Synthesises cfg dns64Enabled q p → Read g (CacheKey.of q.name .A .IN) a →
    K.Safe g (call (.note (.served (CacheKey.of q.name .A .IN) a))) fun g _ =>
      Sent g (cfg.policy.applyToResponse (synthesiseFromA p msg a))
  -- The reverse names of DNS64.
  reread : ∀ g name m, ptrName? cfg dns64Enabled q = some name → Read g (CacheKey.of name .PTR .IN) m →
    K.Safe g (call (.note (.served (CacheKey.of name .PTR .IN) m))) fun g _ =>
      Sent g (cfg.policy.applyToResponse (rewrapPtrResponse msg m))
  reversed : ∀ g name domain, ptrName? cfg dns64Enabled q = some name →
    cfg.forwarders.lookupWithDomain name = some domain →
    K.Safe g (queryForwarder domain (rewriteQueryName msg name)) fun g r => ∀ m, r = .parsed m →
      K.Safe g (call (.cachePut .ptrForwarded (CacheKey.of name .PTR .IN) m)) fun g _ =>
        Sent g (cfg.policy.applyToResponse (rewrapPtrResponse msg m))
  -- Forwarders.
  forwarded : ∀ g domain, cfg.forwarders.lookupWithDomain q.name = some domain →
    K.Safe g (queryForwarder domain msg) fun g r => ∀ m, r = .parsed m → Told g domain m
  stored : ∀ g domain m, cfg.forwarders.lookupWithDomain q.name = some domain → Told g domain m →
    K.Safe g (storeForwarded cfg q m) Sent
  followed : ∀ g domain p, cfg.forwarders.lookupWithDomain q.name = some domain →
    Synthesises cfg dns64Enabled q p →
    K.Safe g (queryForwarder domain (aQuery msg q)) fun g r => ∀ a, r = .parsed a →
      Sent g (cfg.policy.applyToResponse (synthesiseFromA p msg a))
  -- Resolutions.
  resolved : ∀ g nest, cfg.forwarders.lookupWithDomain q.name = none →
    K.Safe g (resolveValidateCache C cfg nest msg) (Settled Found Sent)
  found : ∀ g resp, Found g resp → Sent g resp
  again : ∀ g nest p, cfg.forwarders.lookupWithDomain q.name = none → Synthesises cfg dns64Enabled q p →
    K.Safe g (resolveValidateCache C cfg nest (aQuery msg q)) fun g r => ∀ a, r = .ok a →
      Sent g (cfg.policy.applyToResponse (synthesiseFromA p msg a))

section

variable {K : Contract γ Op Op.Res} {C : Crypto} {cfg : Config} {dns64Enabled : Bool} {msg : Message}
  {q : Query} {Sent : γ → Message → Prop} {Read : γ → CacheKey → Message → Prop}
  {Told : γ → Name → Message → Prop} {Found : γ → Message → Prop} {g : γ} {nest : Nat} {domain name : Name}

namespace Paths

variable (h : Paths K C cfg dns64Enabled msg q Sent Read Told Found)

include h

theorem cachedAAnswer {p : Dns64Policy}
    (hp : Synthesises cfg dns64Enabled q p) :
    K.Safe g (cachedAAnswer q.name) fun g r =>
      ∀ a, r = some a → Sent g (cfg.policy.applyToResponse (synthesiseFromA p msg a)) := by
  refine safe_perform_bind.mpr ⟨h.passing _ _ rfl, fun cached hcached => ?_⟩
  cases cached with
  | none => exact fun _ h => nomatch h
  | some a =>
    dsimp only
    split
    · refine (h.made _ p a hp (h.read _ _ a hcached)).bind fun _ _ hsent => ?_
      rintro a' ⟨⟩
      exact hsent
    · exact fun _ h => nomatch h

theorem tryCache :
    K.Safe g (tryCache cfg dns64Enabled msg q) fun g r => ∀ resp, r = some resp → Sent g resp := by
  refine safe_perform_bind.mpr ⟨h.passing _ _ rfl, fun cached hcached => ?_⟩
  cases cached with
  | none => exact fun _ h => nomatch h
  | some m =>
    unfold buildFromCacheValue
    dsimp only
    split
    · rename_i hsynth
      cases hp : cfg.dns64 with
      | none => exact fun _ h => nomatch h
      | some p =>
        refine (h.cachedAAnswer (synthesises_of hp hsynth)).bind fun _ made hmade => ?_
        cases made with
        | none => exact fun _ h => nomatch h
        | some a =>
          rintro resp ⟨⟩
          exact hmade a rfl
    · refine (h.replayed _ m (h.read _ _ m hcached)).bind fun _ _ hsent => ?_
      rintro resp ⟨⟩
      exact hsent

theorem answerPtr
    (hname : ptrName? cfg dns64Enabled q = some name) : K.Safe g (answerPtr cfg msg name) Sent := by
  suffices hresolved : K.Safe g (resolveForwarded cfg (rewriteQueryName msg name) name) fun g r =>
      ∀ m, r = some m → Sent g (cfg.policy.applyToResponse (rewrapPtrResponse msg m)) by
    refine hresolved.bind fun _ resolved hr => ?_
    cases resolved with
    | some m => exact hr m rfl
    | none => exact h.servfail _
  refine safe_perform_bind.mpr ⟨h.passing _ _ rfl, fun cached hcached => ?_⟩
  cases cached with
  | some m =>
    refine (h.reread _ name m hname (h.read _ _ m hcached)).bind fun _ _ hsent => ?_
    rintro m' ⟨⟩
    exact hsent
  | none =>
    cases hdomain : cfg.forwarders.lookupWithDomain name with
    | none => exact fun _ h => nomatch h
    | some domain =>
      refine (h.reversed _ name domain hname hdomain).bind fun _ reply hreply => ?_
      cases reply with
      | parsed m =>
        refine (hreply m rfl).bind fun _ _ hsent => ?_
        rintro m' ⟨⟩
        exact hsent
      | failed => exact fun _ h => nomatch h
      | unparsed => exact fun _ h => nomatch h

theorem answerForwarded
    (hdomain : cfg.forwarders.lookupWithDomain q.name = some domain) :
    K.Safe g (answerForwarded cfg domain dns64Enabled msg q) Sent := by
  refine (h.forwarded _ domain hdomain).bind fun g reply hreply => ?_
  cases reply with
  | failed => exact h.servfail _
  | unparsed => exact h.servfail _
  | parsed m =>
    have htold := hreply m rfl
    have hstore : ∀ g, Told g domain m → K.Safe g (storeForwarded cfg q m) Sent :=
      fun g => h.stored g domain m hdomain
    cases hp : cfg.dns64 with
    | none => exact hstore g htold
    | some p =>
      dsimp only
      split
      · rename_i hsynth
        have hs := synthesises_of hp (hp ▸ hsynth)
        -- What the forwarder has told is still known after the second question.
        have hfollow := (h.followed g domain p hdomain hs).keeps (fun g o r => h.told_kept g o r domain m) htold
        refine hfollow.bind fun g follow ⟨htold, hsent⟩ => ?_
        cases follow with
        | parsed a =>
          dsimp only
          split
          · exact hstore g htold
          · exact hsent a rfl
        | failed => exact hstore g htold
        | unparsed => exact hstore g htold
      · exact hstore g htold

theorem answerIterative
    (hnone : cfg.forwarders.lookupWithDomain q.name = none) :
    K.Safe g (answerIterative C cfg nest dns64Enabled msg q) Sent := by
  refine (h.resolved _ nest hnone).bind fun g outcome hout => ?_
  cases outcome with
  | bogus resp => exact hout
  | walkFailed => exact safe_perform_bind.mpr ⟨h.passing _ _ rfl, fun _ _ => h.servfail _⟩
  | ok parsed =>
    cases hp : cfg.dns64 with
    | none => exact h.found g parsed hout
    | some p =>
      dsimp only
      split
      · rename_i hsynth
        have hs := synthesises_of hp (hp ▸ hsynth)
        have hagain := (h.again g nest p hnone hs).keeps (fun g o r => h.found_kept g o r parsed) hout
        refine hagain.bind fun g follow ⟨hfound, hsent⟩ => ?_
        cases follow with
        | ok a =>
          dsimp only
          split
          · exact h.found g parsed hfound
          · exact hsent a rfl
        | bogus resp => exact h.found g parsed hfound
        | walkFailed => exact h.found g parsed hfound
      · exact h.found g parsed hout

theorem answerQuestion : K.Safe g (answerQuestion C cfg nest dns64Enabled msg q) Sent := by
  have hmiss : ∀ g, K.Safe g (answerMiss C cfg nest dns64Enabled msg q) Sent := by
    intro g
    refine safe_perform_bind.mpr ⟨h.passing _ _ rfl, fun failed _ => ?_⟩
    split
    · exact h.servfail _
    cases hdomain : cfg.forwarders.lookupWithDomain q.name with
    | some domain => exact h.answerForwarded hdomain
    | none =>
      dsimp only
      split
      · exact h.answerIterative hdomain
      · exact h.servfail _
  refine safe_perform_bind.mpr ⟨h.passing _ _ rfl, fun failed _ => ?_⟩
  split
  · exact h.servfail _
  refine h.tryCache.bind fun _ hit hhit => ?_
  cases hit with
  | some resp => exact hhit resp rfl
  | none =>
    refine h.tryCache.bind fun g again hagain => ?_
    cases again with
    | some resp => exact hagain resp rfl
    | none => exact hmiss g

end Paths

/-- **Every reply of `handle_bytes` is one that may be sent.** -/
theorem handleBytes_paths {peer : IpAddr} (hready : ∀ g, K.pre g .isReady)
    (hrefused : ∀ g, Sent g (buildRefused msg))
    (h : ∀ q qs, msg.queries = q :: qs → Paths K C cfg dns64Enabled msg q Sent Read Told Found) :
    K.Safe g (handleBytes C cfg nest peer dns64Enabled msg) fun g r => ∀ resp, r = some resp → Sent g resp := by
  refine safe_perform_bind.mpr ⟨hready g, fun ready _ => ?_⟩
  split
  · rintro resp ⟨⟩
    exact hrefused _
  split
  · exact fun _ h => nomatch h
  · rename_i q qs hq
    have hpaths := h q qs hq
    have hallows : ∀ g, K.Safe g (rrlAllows cfg peer) fun _ _ => True := by
      intro g
      unfold rrlAllows
      split
      · exact ⟨hpaths.passing _ _ rfl, fun _ _ => trivial⟩
      · trivial
    refine (hallows _).bind fun _ allowed _ => ?_
    split
    · exact fun _ h => nomatch h
    split
    · rename_i hlocal
      rintro resp ⟨⟩
      exact hpaths.ipv4only _ hlocal
    · split
      · rename_i hddr
        rintro resp ⟨⟩
        exact hpaths.ddr _ (Bool.and_eq_true_iff.mp hddr).2
      · cases hname : ptrName? cfg dns64Enabled q with
        | some name =>
          refine (hpaths.answerPtr hname).bind fun _ resp hresp => ?_
          rintro resp ⟨⟩
          exact hresp
        | none =>
          refine hpaths.answerQuestion.bind fun _ resp hresp => ?_
          rintro resp ⟨⟩
          exact hresp

end

end Dnsd.Recursor
