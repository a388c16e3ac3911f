/-
# AnswerRelevance — what a Secure answer says about the question.

Whether the RRsets of a Secure answer answer the question is not looked at.  What does hold is that its CNAMEs
lead to the name the last response was asked for.
-/
import Dnsd.Recursor.AnswerCheck
import Dnsd.Recursor.Script
import Dnsd.Recursor.WalkSpec

namespace Dnsd.Recursor

open Proto Lib Prog List

variable {C : Crypto} {now : UInt32} {keys : ChainKeys} {resp : Message}

/-! ## Verified records -/

def RecordVerified (C : Crypto) (now : UInt32) (keys : ChainKeys) (resp : Message) (r : Record) :
    Prop :=
  ∃ g ∈ answerGroups resp.answers, r ∈ g.2 ∧
    ∃ sig, coveringSig (answerSigs resp.answers) g.1.name g.1.rtype = some sig ∧
      VerifiedBy C now keys g.2 sig

theorem answer_recordVerified {qname : Name} {qtype : RecordType} {r : Record}
    (h : validateAnswerAgainstChain C now resp keys qname qtype = .secure) (hr : r ∈ resp.answers)
    (hs : r.rrsig? = none) : RecordVerified C now keys resp r := by
  have hmem : r ∈ resp.answers.filter fun r => r.rrsig?.isNone := mem_filter.mpr ⟨hr, by rw [hs]; rfl⟩
  obtain ⟨g, hg, hrg⟩ := collect_covers RrsetKey.cmp rrsetKey hmem
  have hne : ¬ (answerGroups resp.answers).isEmpty = true := by
    intro hempty
    have hnil : answerGroups resp.answers = [] := isEmpty_iff.mp hempty
    unfold answerGroups at hnil
    rw [hnil] at hg
    nomatch hg
  unfold validateAnswerAgainstChain at h
  dsimp only at h
  rw [if_neg hne] at h
  obtain ⟨sig, hsig, hver⟩ := checkAnswerRrsets_eq_secure_iff.mp h g hg
  exact ⟨g, hg, hrg, sig, hsig, hver⟩

/-! ## The stitched response -/

theorem CnamePath.lowercase {records : List Record} {name last : Name}
    (h : CnamePath records name last) : CnamePath (records.map Record.lowercaseName) name last := by
  induction h with
  | nil name => exact .nil name
  | cons hr hs hd _ ih => exact .cons (mem_map_of_mem hr) (by simpa using hs) (by simpa using hd) ih

theorem lowercaseName_idem (r : Record) : r.lowercaseName.lowercaseName = r.lowercaseName := by
  simp [Record.lowercaseName]

theorem Resolved.stitchResponse {post : (o : Op) → o.Res → Prop} {qname last : Name}
    {qtype : RecordType} {qclass : DNSClass} {query answer final : Message}
    (h : Resolved post qname qtype qclass answer last final) :
    Resolved post qname qtype qclass (stitchResponse query answer) last final := by
  refine ⟨h.path.lowercase, h.received, h.terminal, ?_, h.responseCode⟩
  -- Owner names of a response are lower-cased already when it arrives.
  have hfinal : final.answers.map Record.lowercaseName = final.answers := by
    obtain ⟨_, _, m, _, rfl⟩ := h.received
    simp only [Message.lowercaseResponseNames, map_map]
    exact map_congr_left fun r _ => lowercaseName_idem r
  have hsuffix := h.answers.map Record.lowercaseName
  rwa [hfinal] at hsuffix

def rootScript (answer : Name → Message) : Script where
  reply _ _ q :=
    .parsed (if q.queryType = .DNSKEY then keyAnswer Name.root [sampleKey 1] else answer q.name)

def validating : IterConfig := { dnssecOk := true }

/-- The question is answered: verified CNAMEs lead to a name that owns a verified RRset of the type
asked for, or that is denied in keeping with the response code. -/
def QuestionAnswered (C : Crypto) (now : UInt32) (keys : ChainKeys) (q : Query) (resp : Message) :
    Prop :=
  ∃ last, CnamePath resp.answers q.name last ∧
    (resp.responseCode = .noError ∧
        (∃ r ∈ resp.answers, r.name.same last = true ∧ r.recordType = q.queryType ∧
          RecordVerified C now keys resp r) ∨
      validateDenial C now resp keys last q.queryType = .secure)

def SecureUnanswered (answer : Name → Message) : Prop :=
  ∃ resp chain,
    (resolveWithChain validating 2 insideQuery).Yields (rootScript answer).Answered
        (.ok (resp, chain)) ∧
      (validateWalk (listCrypto [sampleKey 1]) chain resp).Yields (rootScript answer).Answered
        (.secure, []) ∧
      resp.answers ≠ [] ∧
      ∀ now keys, ¬ QuestionAnswered (listCrypto [sampleKey 1]) now keys ⟨insideName, .A, .IN⟩ resp

def strayAnswer (_ : Name) : Message := signedAnswer outsideName Name.root

def danglingAnswer (name : Name) : Message :=
  if name = insideName then
    { answers := [sampleRecord insideName (.cname outsideName),
        sampleRecord insideName (.rrsig (sampleSig Name.root .CNAME))] }
  else { responseCode := .nxDomain }

theorem secureUnanswered_stray : SecureUnanswered strayAnswer := by
  refine ⟨stitchResponse insideQuery (signedAnswer outsideName Name.root), ⟨[]⟩,
    Script.yields_of_result (w := freshWorld rootAnchors) (by decide),
    Script.yields_of_result (w := freshWorld rootAnchors) (by decide), by decide, ?_⟩
  -- Nothing in the answer section is about `a.z.`.
  have hnone : ∀ r ∈ (stitchResponse insideQuery (signedAnswer outsideName Name.root)).answers,
      r.name.same insideName = false := by decide
  rintro now keys ⟨last, hpath, ⟨_, r, hr, hs, _⟩ | hden⟩
  · cases hpath with
    | nil => exact Bool.eq_false_iff.mp (hnone r hr) hs
    | cons hr' hs' _ _ => exact Bool.eq_false_iff.mp (hnone _ hr') hs'
  · nomatch (show DenialOutcome.insecure = .secure from hden)

theorem secureUnanswered_dangling : SecureUnanswered danglingAnswer := by
  refine ⟨stitchResponse insideQuery (stitch (danglingAnswer insideName) (danglingAnswer outsideName)),
    ⟨[]⟩, Script.yields_of_result (w := freshWorld rootAnchors) (by decide),
    Script.yields_of_result (w := freshWorld rootAnchors) (by decide), by decide, ?_⟩
  rintro now keys ⟨last, _, ⟨hrcode, _⟩ | hden⟩
  · nomatch (show ResponseCode.nxDomain = .noError from hrcode)
  · nomatch (show DenialOutcome.insecure = .secure from hden)

end Dnsd.Recursor
