/-
# Script — one task, run to its end against a scripted network.

A script fixes what the network replies; everything else is answered in the plainest way: no deadline strikes,
futures finish in order, nothing is shuffled.  `Script.reach` puts such a run into the process.
-/
import Dnsd.Lib.Runs
import Dnsd.Recursor.Handler

namespace Dnsd.Recursor

open Proto Lib

structure Script where
  reply : Name → IpAddr → Query → Reply := fun _ _ _ => .failed
  forward : Name → Message → Reply := fun _ _ => .failed
  clock : UInt32 := 1000

namespace Script

variable {ι : Type} [DecidableEq ι]

def answer (s : Script) (i : ι) (w : World ι) : (o : Op) → o.Res
  | .unixNow => s.clock
  | .struck => false
  | .turn => true
  | .pick _ => (0 : Nat)
  | .shuffle ips => ips
  | .isReady => true
  | .rrlCheck _ => true
  | .query asked ip q => s.reply asked ip q
  | .forward domain m => s.forward domain m
  | .loadAnchors => (w.inst i).anchors
  | .readRoots => (w.inst i).roots
  | .keyGet zone => (w.inst i).keys.getPositive w.now zone
  | .keyHasNegative zone => (w.inst i).keys.hasNegative w.now zone
  | .delegationGet zone => (w.inst i).delegations.get w.now zone
  | .cacheGet key => w.cacheLookup key
  | .negHit name rtype => (w.inst i).negResolve.hit w.now name rtype
  | .writeRoots _ | .keyPut _ _ _ | .keyInvalidate _ _ | .keyPutNegative _ _
  | .delegationInsert _ | .cachePut _ _ _ | .negInsert _ _ | .note _ => ()

def handle (s : Script) (i : ι) (w : World ι) (o : Op) : o.Res × World ι :=
  (s.answer i w o, w.apply i (Name.root, .A) o)

def run (s : Script) (i : ι) (p : RProg Unit) (w : World ι) : World ι := (p.exec (s.handle i) w).2

def result {α : Type} (s : Script) (p : RProg α) (w : World Unit) : α := (p.exec (s.handle ()) w).1

def Answered (s : Script) (o : Op) (r : o.Res) : Prop := ∃ w : World Unit, r = s.answer () w o

omit [DecidableEq ι] in
theorem yields_of_result {α : Type} {s : Script} {p : RProg α} {w : World Unit} {a : α}
    (h : s.result p w = a) : p.Yields s.Answered a :=
  h ▸ Prog.exec_yields (fun w _ => ⟨w, rfl⟩) p w

structure Fits (s : Script) (N : Net ι) (i : ι) : Prop where
  reply : ∀ asked ip q, N.reply asked ip q (s.reply asked ip q)
  forward : ∀ domain m, N.forward i domain m (s.forward domain m)
  clock : N.clock s.clock

theorem handle_step {s : Script} {N : Net ι} {i : ι} (h : s.Fits N i) (w : World ι) (o : Op) :
    Step N i w o (s.handle i w o).1 (s.handle i w o).2 := by
  refine ⟨?_, _, rfl⟩
  cases o with
  | unixNow => exact h.clock
  | struck => nofun
  | shuffle ips => exact List.Perm.refl _
  | query asked ip q => exact h.reply asked ip q
  | forward domain m => exact h.forward domain m
  | loadAnchors | readRoots | keyGet _ | keyHasNegative _ | delegationGet _ | cacheGet _
  | negHit _ _ => rfl
  | _ => trivial

theorem reach {s : Script} {N : Net ι} {start : ι → RProg Unit → Prop} {i : ι} {p : RProg Unit}
    {w : World ι} {ts : List (ι × RProg Unit)} (h : s.Fits N i) (hp : start i p)
    (hw : (system N start).Reach w ts) :
    (system N start).Reach (s.run i p w) ((i, .ret ()) :: ts) :=
  System.Reach.exec (handle_step h) (.spawn hw hp)

def net (s : Script) (anchors : TrustAnchors) : Net ι where
  reply asked ip q r := r = s.reply asked ip q
  forward _ domain m r := r = s.forward domain m
  clock t := t = s.clock
  anchors _ a := a = anchors
  deadlines := False

omit [DecidableEq ι] in
theorem fits_net (s : Script) (anchors : TrustAnchors) (i : ι) : s.Fits (s.net anchors) i :=
  ⟨fun _ _ _ => rfl, fun _ _ => rfl, rfl⟩

omit [DecidableEq ι] in
theorem runs_of_result {α : Type} (s : Script) (anchors : TrustAnchors) (p : RProg α) (w : World Unit) :
    ∃ t, p.Runs (anyProcess (s.net anchors : Net Unit)) t (some (s.result p w)) := by
  refine Prog.exec_runs (fun w o => ?_) p w
  cases o <;> first | rfl | trivial

end Script

def freshWorld {ι : Type} (anchors : TrustAnchors) : World ι where
  now := 0
  limits := ⟨0, 604800, 3600, 600⟩
  cache := ∅
  inst := fun _ => Instance.fresh [.v4 1] anchors
  log := []

theorem freshWorld_init {ι : Type} {N : Net ι} {anchors : TrustAnchors}
    (h : ∀ i, N.anchors i anchors) : Init N (freshWorld anchors) :=
  ⟨rfl, rfl, fun i => ⟨_, _, h i, rfl⟩⟩

/-! ## Sample data -/

def rootForwarders : Forwarders := ⟨[Name.root], List.pairwise_singleton ..⟩

def sampleConfig (policy : DnssecPolicy) : Config where
  policy := policy
  forwarders := ⟨[], .nil⟩
  iterative := true
  maxCname := 8
  ipv6Upstream := true
  dns64 := none
  rrl := false
  ddrSvcb := []

def sampleSig (signer : Name) (covered : RecordType) : RRSIG where
  typeCovered := covered
  algorithm := 13
  numLabels := 0
  originalTtl := 3600
  sigExpiration := 86400
  sigInception := 0
  keyTag := 0
  signerName := signer
  sig := []

def sampleKey (n : UInt8) : DNSKEY := ⟨257, 13, [n]⟩

def sampleDs : DS := ⟨0, 13, 2, []⟩

def sampleRecord (name : Name) (data : RData) : Record := { name := name, ttl := 3600, data := data }

def keyAnswer (zone : Name) (keys : List DNSKEY) : Message where
  answers := keys.map (fun k => sampleRecord zone (.dnskey k)) ++
    [sampleRecord zone (.rrsig (sampleSig zone .DNSKEY))]

def sampleStep (zone : Name) : ChainStep :=
  ⟨zone, [sampleRecord zone (.ds sampleDs)], [sampleSig Name.root .DS], [.v4 2]⟩

/-! ### One zone below the root -/

def childZone : Name := ⟨[[122]]⟩

def insideName : Name := ⟨[97] :: childZone.labels⟩

def outsideName : Name := ⟨[[118]]⟩

def sidewaysZone : Name := ⟨[98] :: outsideName.labels⟩

def insideQuery : Message := { queries := [⟨insideName, .A, .IN⟩] }

def zoneScript (keys : List DNSKEY) : Script where
  reply _ _ q :=
    if q.queryType = .DNSKEY then
      .parsed (if q.name = Name.root then keyAnswer Name.root [sampleKey 1]
        else keyAnswer childZone keys)
    else .parsed {}

def serverName : Name := ⟨[[110]]⟩

def referralTo (zone : Name) (addr : BitVec 32) (data : List RData) : Message where
  authorities := sampleRecord zone (.ns serverName) :: data.map (sampleRecord zone)
  additionals := [sampleRecord serverName (.a addr)]

def listCrypto (signing : List DNSKEY) : Crypto where
  verifyRrsig k _ _ _ _ := signing.contains k
  covers _ _ k := k == sampleKey 2
  nsec3Hash _ _ _ := none

def rootAnchors : TrustAnchors := ⟨[(Name.root, sampleKey 1)]⟩

def childWalk : WalkChain := ⟨[sampleStep childZone]⟩

def childRun (signing keys : List DNSKEY) (answer : Message) : World Unit :=
  (zoneScript keys).run () (validateTask (listCrypto signing) childWalk answer) (freshWorld rootAnchors)

theorem childRun_reach {start : Unit → RProg Unit → Prop} {signing keys : List DNSKEY}
    {answer : Message} (h : start () (validateTask (listCrypto signing) childWalk answer)) :
    (system ((zoneScript keys).net rootAnchors) start).Reach (childRun signing keys answer)
      [((), .ret ())] :=
  Script.reach (Script.fits_net _ _ _) h (.init (freshWorld_init fun _ => rfl))

def addressAnswer (owner : Name) (sig : RRSIG) : Message where
  queries := [⟨owner, .A, .IN⟩]
  answers := [sampleRecord owner (.a 7), sampleRecord owner (.rrsig sig)]

def signedAnswer (owner signer : Name) : Message := addressAnswer owner (sampleSig signer .A)

/-! ### A client's query -/

def serverScript (server : IpAddr → Message) : Script where
  reply _ ip q :=
    .parsed (if q.queryType = .DNSKEY then
      if q.name = Name.root then keyAnswer Name.root [sampleKey 1] else keyAnswer childZone [sampleKey 2]
    else server ip)

def signedReferral (addr : BitVec 32) : Message :=
  referralTo childZone addr [.ds sampleDs, .rrsig (sampleSig Name.root .DS)]

def clientRun (server : IpAddr → Message) : World Unit :=
  (serverScript server).run () (serve (listCrypto [sampleKey 1, sampleKey 2])
    (sampleConfig .validate) 2 (.v4 9) false insideQuery) (freshWorld rootAnchors)

theorem clientRun_reach (server : IpAddr → Message) :
    (process (listCrypto [sampleKey 1, sampleKey 2]) (fun _ => sampleConfig .validate)
      ((serverScript server).net rootAnchors)).Reach (clientRun server) [((), .ret ())] :=
  Script.reach (Script.fits_net _ _ _) (.serve ..) (.init (freshWorld_init fun _ => rfl))

def honestServer (ip : IpAddr) : Message :=
  if ip = .v4 1 then signedReferral 2 else signedAnswer insideName childZone

def questionFor (name : Name) (rtype : RecordType) : Message := { queries := [⟨name, rtype, .IN⟩] }

def twoRuns (s : Script) {ι : Type} [DecidableEq ι] (i j : ι) (p q : RProg Unit) : World ι :=
  s.run j q (s.run i p (freshWorld rootAnchors))

theorem twoRuns_reach {s : Script} {ι : Type} [DecidableEq ι] {i j : ι} {p q : RProg Unit}
    {C : Crypto} {cfg : ι → Config} (hp : Task C (cfg i) p) (hq : Task C (cfg j) q) :
    (process C cfg (s.net rootAnchors)).Reach (twoRuns s i j p q) [(j, .ret ()), (i, .ret ())] := by
  refine Script.reach (Script.fits_net _ _ _) hq ?_
  exact Script.reach (Script.fits_net _ _ _) hp (.init (freshWorld_init fun _ => rfl))

end Dnsd.Recursor
