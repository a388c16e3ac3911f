/-
# AnchorCurrency — whether a verdict rests on the anchors of its time.

A validation verifies the root's key set under an anchor it has loaded, but on a hit in the DNSKEY cache it
takes the cached set as it is, accepted perhaps under an anchor that is gone.  The theorem is about one
validation, for arbitrary answers to everything but the network and the clock.
-/
import Dnsd.Recursor.Script
import Dnsd.Recursor.ValidatorSpec

namespace Dnsd.Recursor

open Proto Lib Contract List

variable {ι : Type}

/-! ## What a run of a validation has seen -/

def snapshotOf (t : Prog.Trace Op.Res) : Option TrustAnchors :=
  t.findSome? fun x =>
    match x with
    | ⟨.loadAnchors, a⟩ => some a
    | _ => none

def rootLookup (t : Prog.Trace Op.Res) : Option (Option (List DNSKEY)) :=
  t.findSome? fun x =>
    match x with
    | ⟨.keyGet zone, cached⟩ => if zone = Name.root then some cached else none
    | _ => none

/-- The root's key set that the validation went on with: the first one it admits. -/
def reliedRoot (t : Prog.Trace Op.Res) : Option (List DNSKEY) :=
  t.findSome? fun x =>
    match x with
    | ⟨.note (.admitted zone keys), _⟩ => if zone = Name.root then some keys else none
    | _ => none

/-- The keys are those of a root DNSKEY set that was sent and is signed, in its window, by a root key of
the anchors. -/
def SignedUnder (C : Crypto) (N : Net ι) (a : TrustAnchors) (keys : List DNSKEY) : Prop :=
  ∃ set sig now, Received N Name.root set ∧ set.keys = keys ∧ set.sig = some sig ∧ N.clock now ∧
    InWindow now sig ∧ ∃ n k, n.same Name.root = true ∧ (n, k) ∈ a.keys ∧
      verifyRrset C set.records sig k = true

section

variable {C : Crypto} {N : Net ι} {t : Prog.Trace Op.Res}

theorem fetchDnskeyRrset_asks {asked zone : Name} {ips : List IpAddr} :
    (Contract.plain (fun o => ∃ asked ip q, o = .query asked ip q) (anyProcess N)).Safe ()
      (fetchDnskeyRrset asked zone ips) fun _ r => ∀ set, r = .ok set → Received N zone set := by
  unfold fetchDnskeyRrset
  split
  · exact fun _ h => nomatch h
  induction ips with
  | nil => exact fun _ h => nomatch h
  | cons ip ips ih =>
    refine safe_bind.mpr ⟨⟨_, _, _, rfl⟩, fun r hr => ?_⟩
    cases r with
    | parsed m =>
      rintro set ⟨⟩
      exact ⟨asked, ip, m, hr, rfl⟩
    | unparsed => exact fun _ h => nomatch h
    | failed =>
      cases ips with
      | nil => exact fun _ h => nomatch h
      | cons ip' ips => exact ih (by simp)

theorem spliceRoot_runs {a : TrustAnchors} {ips : List IpAddr} {chain : ChainKeys}
    (h : (spliceInZoneDnskey C (seedChain a) Name.root ips).Runs (anyProcess N) t (some (.ok chain))) :
    ∃ cached t' keys, t = ⟨.keyGet Name.root, cached⟩ :: t' ∧ reliedRoot t' = some keys ∧
      (cached = some keys ∨ cached = none ∧ SignedUnder C N a keys) := by
  obtain ⟨cached, t', rfl, -, h⟩ := Prog.runs_perform_bind.mp h
  cases cached with
  | some keys =>
    obtain ⟨_, t'', rfl, -, -⟩ := Prog.runs_perform_bind.mp h
    exact ⟨some keys, _, keys, rfl, rfl, Or.inl rfl⟩
  | none =>
    refine ⟨none, t', ?_⟩
    obtain ⟨t₁, t₂, fetched, rfl, hfetch, h⟩ := Prog.runs_bind.mp h
    -- The fetch leaves no note behind.
    have hquiet : reliedRoot t₁ = none := by
      refine List.findSome?_eq_none_iff.mpr fun x hx => ?_
      obtain ⟨asked, ip, q, hq⟩ := (hfetch.permitted fetchDnskeyRrset_asks x hx).1
      obtain ⟨o, r⟩ := x
      cases hq
      rfl
    cases fetched with
    | error e => nomatch (Prog.runs_ret.mp h).2
    | ok set =>
      have hset : Received N Name.root set := Safe.yields fetchDnskeyRrset_asks hfetch.yields set rfl
      dsimp only at h
      cases hsig : set.sig with
      | none =>
        rw [hsig] at h
        nomatch (Prog.runs_ret.mp h).2
      | some sig =>
        rw [hsig] at h
        obtain ⟨now, t₃, rfl, hnow, h⟩ := Prog.runs_perform_bind.mp h
        cases hwin : checkRrsigValidity now sig with
        | error e =>
          rw [hwin] at h
          nomatch (Prog.runs_ret.mp h).2
        | ok _ =>
          rw [hwin] at h
          dsimp only at h
          split at h
          · rename_i hver
            obtain ⟨_, t₄, rfl, -, h⟩ := Prog.runs_perform_bind.mp h
            obtain ⟨_, t₅, rfl, -, -⟩ := Prog.runs_perform_bind.mp h
            obtain ⟨k, hk, hv⟩ := any_eq_true.mp hver
            obtain ⟨⟨n, k⟩, hmem, hn, rfl⟩ := mem_entryKeys_seedChain_iff.mp hk
            refine ⟨set.keys, rfl, ?_, Or.inr ⟨rfl, set, sig, now, hset, rfl, hsig, hnow,
              hwin, n, k, hn, hmem, hv⟩⟩
            rw [reliedRoot, List.findSome?_append]
            exact Option.or_of_isNone (Option.isNone_iff_eq_none.mpr hquiet)
          · nomatch (Prog.runs_ret.mp h).2

end

def rolledAnchors : TrustAnchors := ⟨[(Name.root, sampleKey 3)]⟩

def rolloverNet : Net Unit :=
  { (zoneScript [sampleKey 2]).net rootAnchors with
    anchors := fun _ a => a = rootAnchors ∨ a = rolledAnchors }

def rolledWorld : World Unit :=
  (childRun [sampleKey 1, sampleKey 2] [sampleKey 2] (signedAnswer insideName childZone)).updInst ()
    fun s => { s with anchors := rolledAnchors }

end Dnsd.Recursor
