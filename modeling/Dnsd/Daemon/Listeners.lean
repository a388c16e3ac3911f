/-
# Listeners — the listener set: binding, and the diff of a reload.

A listener loads its ACL and its context from two cells before every query (`Swaps`); the listeners of one
configuration entry share them.  A reload aborts what is no longer declared, stores the new values of the
others, in the order of a hash map, and binds what is new.  The outside world decides about orders, binds and
passes (`BindEnv`), but a socket in use cannot be bound again (`occupied`).
-/
import Dnsd.Lib.Cells
import Dnsd.Daemon.Config

namespace Dnsd.Daemon

open Proto Recursor Lib

variable {lcs : List Listener}

/-! ## Keys, cells and live listeners -/

structure ListenerKey where
  addr : IpAddr
  port : UInt16
  proto : Protocol
  deriving DecidableEq, Repr

structure ListenerContext where
  name : String
  dns64 : Bool
  dohAuthToken : Option String
  deriving DecidableEq, Repr

/-- The contents of a listener's `AclSwap` and `CtxSwap`. -/
structure Swaps where
  acl : List IpNet
  ctx : ListenerContext
  deriving DecidableEq, Repr

namespace Listener

variable {lc : Listener}

def key (lc : Listener) (p : Protocol) : ListenerKey := ⟨lc.address, lc.port, p⟩

/-- `make_acl_swap` and `make_ctx_swap`. -/
def swaps (lc : Listener) : Swaps := ⟨lc.allowFrom, ⟨lc.name, lc.dns64, lc.authToken⟩⟩

def declares (lc : Listener) (k : ListenerKey) : Bool :=
  lc.hasProtocol k.proto && decide (lc.key k.proto = k)

theorem declares_iff {k : ListenerKey} :
    lc.declares k = true ↔ lc.hasProtocol k.proto = true ∧ lc.key k.proto = k := by
  simp [declares]

theorem declares_key {p : Protocol} : lc.declares (lc.key p) = true ↔ lc.hasProtocol p = true := by
  simp [declares, key]

end Listener

structure LiveListener where
  name : String
  /-- Which pair of cells the task loads from. -/
  cell : Nat
  deriving DecidableEq, Repr

/-- The live listeners, and the cells that have been allocated; every listener has one of them. -/
structure LiveListeners where
  get : ListenerKey → Option LiveListener
  cells : List Swaps
  inRange : ∀ k l, get k = some l → l.cell < cells.length

namespace LiveListeners

def empty : LiveListeners := ⟨fun _ => none, [], fun _ _ h => nomatch h⟩

def swaps (b : LiveListeners) (k : ListenerKey) : Option Swaps :=
  (b.get k).bind fun l => b.cells[l.cell]?

theorem swaps_eq_some {b : LiveListeners} {k : ListenerKey} {s : Swaps} :
    b.swaps k = some s ↔ ∃ l, b.get k = some l ∧ b.cells[l.cell]? = some s :=
  Option.bind_eq_some_iff

end LiveListeners

/-! ## Binding -/

/-- The outside world of a bind: which attempts succeed, and how many passes follow the first one before
the deadline. -/
structure BindEnv where
  succeeds : Nat → ListenerKey → Bool
  passes : Nat

structure Pending where
  lc : Listener
  proto : Protocol
  cell : Nat
  deriving DecidableEq, Repr

namespace Pending

def key (p : Pending) : ListenerKey := p.lc.key p.proto

def live (p : Pending) : LiveListener := ⟨p.lc.name, p.cell⟩

end Pending

namespace Protocol

def stream : Protocol → Bool
  | .udp => false
  | _ => true

def overTls : Protocol → Bool
  | .dot | .doh => true
  | _ => false

end Protocol

def pendingOf (get : ListenerKey → Option LiveListener) :
    List Listener → List Swaps → List Pending × List Swaps
  | [], cells => ([], cells)
  | lc :: lcs, cells =>
      let here := Protocol.all.filter fun p => lc.hasProtocol p && (get (lc.key p)).isNone
      let rest := pendingOf get lcs (cells ++ [lc.swaps])
      (here.map (fun p => ⟨lc, p, cells.length⟩) ++ rest.1, rest.2)

def occupied (get : ListenerKey → Option LiveListener) (k : ListenerKey) : Bool :=
  Protocol.all.any fun p => p.stream == k.proto.stream && (get ⟨k.addr, k.port, p⟩).isSome

inductive BindOutcome where
  | bound
  | skipped
  | failed
  deriving DecidableEq, Repr

def tryBindOne (env : BindEnv) (tls : Bool) (attempt : Nat) (get : ListenerKey → Option LiveListener)
    (p : Pending) : BindOutcome :=
  if p.proto.overTls && !tls then .skipped
  else if occupied get p.key then .failed
  else if env.succeeds attempt p.key then .bound
  else .failed

def bindPass (env : BindEnv) (tls : Bool) (attempt : Nat) :
    List Pending → (ListenerKey → Option LiveListener) → List Pending × (ListenerKey → Option LiveListener)
  | [], get => ([], get)
  | p :: ps, get =>
      match tryBindOne env tls attempt get p with
      | .bound => bindPass env tls attempt ps (Function.update get p.key (some p.live))
      | .skipped => bindPass env tls attempt ps get
      | .failed =>
          let rest := bindPass env tls attempt ps get
          (p :: rest.1, rest.2)

def bindPasses (env : BindEnv) (tls : Bool) :
    Nat → Nat → List Pending → (ListenerKey → Option LiveListener) → ListenerKey → Option LiveListener
  | 0, _, _, get => get
  | n + 1, attempt, pending, get =>
      if pending.isEmpty then get
      else
        let pass := bindPass env tls attempt pending get
        bindPasses env tls n (attempt + 1) pass.1 pass.2

section

variable {env : BindEnv} {tls : Bool} {attempt : Nat} {get get' : ListenerKey → Option LiveListener}
  {ps : List Pending} {p : Pending} {k : ListenerKey}

theorem occupied_of_isSome {k' : ListenerKey} (h : (get k').isSome = true) (haddr : k'.addr = k.addr)
    (hport : k'.port = k.port) (hstream : k'.proto.stream = k.proto.stream) :
    occupied get k = true := by
  refine List.any_eq_true.mpr ⟨k'.proto, Protocol.mem_all _, ?_⟩
  obtain ⟨addr, port, proto⟩ := k'
  subst haddr hport
  simp only [Bool.and_eq_true, beq_iff_eq]
  exact ⟨hstream, h⟩

theorem get_eq_none_of_not_occupied (h : occupied get k = false) : get k = none := by
  by_contra hsome
  have := occupied_of_isSome (Option.isSome_iff_ne_none.mpr hsome) rfl rfl rfl
  rw [h] at this
  nomatch this

def BindsTo (tls : Bool) (ps : List Pending) (get get' : ListenerKey → Option LiveListener) : Prop :=
  ∀ k, get' k = get k ∨
    occupied get k = false ∧ ∃ p ∈ ps, p.key = k ∧ (p.proto.overTls && !tls) = false ∧ get' k = some p.live

theorem BindsTo.refl : BindsTo tls ps get get := fun _ => Or.inl rfl

theorem BindsTo.get_eq {l : LiveListener} (h : BindsTo tls ps get get') (hl : get k = some l) :
    get' k = some l := by
  rcases h k with hk | ⟨hfree, -⟩
  · exact hk.trans hl
  · rw [get_eq_none_of_not_occupied hfree] at hl
    nomatch hl

theorem BindsTo.occupied (h : BindsTo tls ps get get') (ho : occupied get k = true) :
    Daemon.occupied get' k = true := by
  obtain ⟨p, hp, hpk⟩ := List.any_eq_true.mp ho
  obtain ⟨hstream, hsome⟩ := Bool.and_eq_true_iff.mp hpk
  obtain ⟨l, hl⟩ := Option.isSome_iff_exists.mp hsome
  refine List.any_eq_true.mpr ⟨p, hp, Bool.and_eq_true_iff.mpr ⟨hstream, ?_⟩⟩
  rw [h.get_eq hl]
  rfl

theorem BindsTo.trans {get'' : ListenerKey → Option LiveListener} {ps' : List Pending}
    (h : BindsTo tls ps get get') (h' : BindsTo tls ps' get' get'') (hsub : ps' ⊆ ps) :
    BindsTo tls ps get get'' := by
  intro k
  rcases h' k with hk | ⟨hfree, p, hp, hrest⟩
  · rw [hk]
    exact h k
  · right
    refine ⟨?_, p, hsub hp, hrest⟩
    by_contra ho
    have := h.occupied (Bool.not_eq_false _ ▸ ho)
    rw [hfree] at this
    nomatch this

theorem bindsTo_update (h : tryBindOne env tls attempt get p = .bound) (hp : p ∈ ps) :
    BindsTo tls ps get (Function.update get p.key (some p.live)) := by
  unfold tryBindOne at h
  split at h
  · nomatch h
  rename_i htls
  split at h
  · nomatch h
  rename_i hfree
  intro k
  by_cases hk : k = p.key
  · subst hk
    exact Or.inr ⟨Bool.not_eq_true _ ▸ hfree, p, hp, rfl, Bool.not_eq_true _ ▸ htls,
      Function.update_self ..⟩
  · exact Or.inl (Function.update_of_ne hk ..)

theorem bindPass_bindsTo :
    BindsTo tls ps get (bindPass env tls attempt ps get).2 ∧ (bindPass env tls attempt ps get).1 ⊆ ps := by
  induction ps generalizing get with
  | nil => exact ⟨.refl, List.Subset.refl _⟩
  | cons p ps ih =>
    unfold bindPass
    split
    · rename_i h
      have hfirst := bindsTo_update h (List.mem_cons_self (l := ps))
      exact ⟨hfirst.trans ih.1 (List.subset_cons_self ..), List.subset_cons_of_subset _ ih.2⟩
    · have hstay : BindsTo tls (p :: ps) get get := .refl
      exact ⟨hstay.trans ih.1 (List.subset_cons_self ..), List.subset_cons_of_subset _ ih.2⟩
    · have hstay : BindsTo tls (p :: ps) get get := .refl
      exact ⟨hstay.trans ih.1 (List.subset_cons_self ..), List.cons_subset_cons _ ih.2⟩

theorem bindPasses_bindsTo {n : Nat} : BindsTo tls ps get (bindPasses env tls n attempt ps get) := by
  induction n generalizing attempt ps get with
  | zero => exact .refl
  | succ n ih =>
    unfold bindPasses
    split
    · exact .refl
    · exact bindPass_bindsTo.1.trans ih bindPass_bindsTo.2

theorem bindPass_binds (honly : ∀ attempt k', env.succeeds attempt k' = decide (k' = k)) (hp : p ∈ ps)
    (hkey : p.key = k) (hfree : occupied get k = false) (htls : (k.proto.overTls && !tls) = false) :
    ∃ l, (bindPass env tls attempt ps get).2 k = some l := by
  induction ps generalizing get with
  | nil => nomatch hp
  | cons q ps ih =>
    unfold bindPass
    by_cases hq : q.key = k
    · subst hq
      have hbound : tryBindOne env tls attempt get q = .bound := by
        have htls' : (q.proto.overTls && !tls) = false := htls
        simp [tryBindOne, htls', hfree, honly]
      rw [hbound]
      exact ⟨q.live, bindPass_bindsTo.1.get_eq (Function.update_self ..)⟩
    · have hrest : p ∈ ps := (List.mem_cons.mp hp).resolve_left fun h => hq (h ▸ hkey)
      have hfails : tryBindOne env tls attempt get q ≠ .bound := by
        unfold tryBindOne
        rw [honly, decide_eq_false hq]
        split
        · nofun
        · split <;> nofun
      split
      · rename_i h
        exact absurd h hfails
      · exact ih hrest hfree
      · exact ih hrest hfree

theorem bindPasses_binds {n : Nat} (honly : ∀ attempt k', env.succeeds attempt k' = decide (k' = k))
    (hp : p ∈ ps) (hkey : p.key = k) (hfree : occupied get k = false)
    (htls : (k.proto.overTls && !tls) = false) :
    ∃ l, bindPasses env tls (n + 1) attempt ps get k = some l := by
  obtain ⟨l, hl⟩ := bindPass_binds honly hp hkey hfree htls
  unfold bindPasses
  rw [if_neg (by simpa using List.ne_nil_of_mem hp)]
  exact ⟨l, bindPasses_bindsTo.get_eq hl⟩

end

structure FromEntry (get : ListenerKey → Option LiveListener) (lcs : List Listener)
    (cells cells' : List Swaps) (p : Pending) : Prop where
  entry : p.lc ∈ lcs
  declared : p.lc.hasProtocol p.proto = true
  free : get p.key = none
  fresh : cells.length ≤ p.cell
  content : cells'[p.cell]? = some p.lc.swaps

theorem pendingOf_cells {get : ListenerKey → Option LiveListener} {cells : List Swaps} :
    cells <+: (pendingOf get lcs cells).2 := by
  induction lcs generalizing cells with
  | nil => exact List.prefix_refl _
  | cons lc lcs ih => exact (List.prefix_append ..).trans ih

theorem pendingOf_fromEntry {get : ListenerKey → Option LiveListener} {cells : List Swaps} :
    ∀ p ∈ (pendingOf get lcs cells).1, FromEntry get lcs cells (pendingOf get lcs cells).2 p := by
  induction lcs generalizing cells with
  | nil => exact fun p hp => nomatch hp
  | cons lc lcs ih =>
    intro p hp
    rcases List.mem_append.mp hp with hp | hp
    · obtain ⟨proto, hproto, rfl⟩ := List.mem_map.mp hp
      obtain ⟨hhas, hfree⟩ := Bool.and_eq_true_iff.mp (List.mem_filter.mp hproto).2
      refine ⟨.head _, hhas, Option.isNone_iff_eq_none.mp hfree, Nat.le_refl _, ?_⟩
      have hcells : cells ++ [lc.swaps] <+: (pendingOf get lcs (cells ++ [lc.swaps])).2 := pendingOf_cells
      obtain ⟨more, hmore⟩ := hcells
      show (pendingOf get lcs (cells ++ [lc.swaps])).2[cells.length]? = some lc.swaps
      rw [← hmore]
      simp
    · obtain ⟨hentry, hhas, hfree, hfresh, hcontent⟩ := ih p hp
      refine ⟨.tail _ hentry, hhas, hfree, ?_, hcontent⟩
      rw [List.length_append] at hfresh
      omega

theorem exists_pending {get : ListenerKey → Option LiveListener} {cells : List Swaps} {lc : Listener}
    {k : ListenerKey} (hlc : lc ∈ lcs) (hdecl : lc.declares k = true) (hfree : get k = none) :
    ∃ p ∈ (pendingOf get lcs cells).1, p.key = k := by
  obtain ⟨hhas, hkey⟩ := Listener.declares_iff.mp hdecl
  induction lcs generalizing cells with
  | nil => nomatch hlc
  | cons lc' lcs ih =>
    rcases List.mem_cons.mp hlc with rfl | hlc
    · refine ⟨⟨lc, k.proto, cells.length⟩, List.mem_append_left _ ?_, hkey⟩
      refine List.mem_map.mpr ⟨k.proto, List.mem_filter.mpr ⟨Protocol.mem_all _, ?_⟩, rfl⟩
      rw [hhas, hkey, hfree]
      rfl
    · have hrest : ∃ p ∈ (pendingOf get lcs (cells ++ [lc'.swaps])).1, p.key = k := ih hlc
      obtain ⟨p, hp, hpk⟩ := hrest
      exact ⟨p, List.mem_append_right _ hp, hpk⟩

def bindListenerSetWithRetry (env : BindEnv) (tls : Bool) (lcs : List Listener) (b : LiveListeners) :
    LiveListeners where
  get := bindPasses env tls (env.passes + 1) 1 (pendingOf b.get lcs b.cells).1 b.get
  cells := (pendingOf b.get lcs b.cells).2
  inRange := by
    intro k l hl
    have hto : BindsTo tls (pendingOf b.get lcs b.cells).1 b.get
        (bindPasses env tls (env.passes + 1) 1 (pendingOf b.get lcs b.cells).1 b.get) :=
      bindPasses_bindsTo
    rcases hto k with hk | ⟨-, p, hp, -, -, hk⟩
    · exact (b.inRange k l (hk.symm.trans hl)).trans_le pendingOf_cells.length_le
    · obtain rfl := Option.some.inj (hk.symm.trans hl)
      exact (List.getElem?_eq_some_iff.mp (pendingOf_fromEntry p hp).content).1

/-! ## The diff of a reload -/

def declared (lcs : List Listener) : List (ListenerKey × Listener) :=
  lcs.flatMap fun lc => (Protocol.all.filter lc.hasProtocol).map fun p => (lc.key p, lc)

def insertAll (want : ListenerKey → Option Listener) :
    List (ListenerKey × Listener) → ListenerKey → Option Listener
  | [] => want
  | kv :: kvs => insertAll (Function.update want kv.1 (some kv.2)) kvs

def desired (lcs : List Listener) : ListenerKey → Option Listener :=
  insertAll (fun _ => none) (declared lcs)

def desiredKeys (lcs : List Listener) : List ListenerKey := ((declared lcs).map Prod.fst).dedup

/-- `listeners.retain`: a listener that is not desired is aborted. -/
def retain (want : ListenerKey → Option Listener) (b : LiveListeners) : LiveListeners where
  get k := if (want k).isSome then b.get k else none
  cells := b.cells
  inRange k l hl := by
    rw [Option.ite_none_right_eq_some] at hl
    exact b.inRange k l hl.2

def hotSwap (want : ListenerKey → Option Listener) (keys : List ListenerKey) (b : LiveListeners) :
    LiveListeners where
  get k := (b.get k).map fun l => { l with name := ((want k).map Listener.name).getD l.name }
  cells := Cells.storeAll (fun k => (b.get k).map LiveListener.cell)
    (fun k => (want k).map Listener.swaps) b.cells keys
  inRange k l hl := by
    obtain ⟨l', hl', rfl⟩ := Option.map_eq_some_iff.mp hl
    rw [Cells.length_storeAll]
    exact b.inRange k l' hl'

structure HashOrder where
  order : List ListenerKey → List ListenerKey
  perm : ∀ keys, (order keys).Perm keys

def HashOrder.only {keys keys' : List ListenerKey} (h : keys'.Perm keys) : HashOrder where
  order ks := if ks = keys then keys' else ks
  perm ks := by
    split
    · rename_i heq
      exact heq ▸ h
    · exact List.Perm.refl _

/-- The listener part of `reload`. -/
def reloadListeners (env : BindEnv) (walk : HashOrder) (tls : Bool) (lcs : List Listener)
    (b : LiveListeners) : LiveListeners :=
  let want := desired lcs
  bindListenerSetWithRetry env tls lcs (hotSwap want (walk.order (desiredKeys lcs)) (retain want b))

/-! ## What each key reads -/

section

variable {lcs : List Listener} {k : ListenerKey} {lc : Listener} {kvs : List (ListenerKey × Listener)}
  {want : ListenerKey → Option Listener}

theorem mem_declared : (k, lc) ∈ declared lcs ↔ lc ∈ lcs ∧ lc.declares k = true := by
  simp only [declared, List.mem_flatMap, List.mem_map, List.mem_filter, Prod.mk.injEq,
    Listener.declares_iff]
  constructor
  · rintro ⟨lc', hlc, p, ⟨-, hp⟩, rfl, rfl⟩
    exact ⟨hlc, hp, rfl⟩
  · rintro ⟨hlc, hp, hk⟩
    exact ⟨lc, hlc, k.proto, ⟨Protocol.mem_all _, hp⟩, hk, rfl⟩

theorem insertAll_eq_some (h : insertAll want kvs k = some lc) : (k, lc) ∈ kvs ∨ want k = some lc := by
  induction kvs generalizing want with
  | nil => exact Or.inr h
  | cons kv kvs ih =>
    rcases ih h with hm | hm
    · exact Or.inl (.tail _ hm)
    · by_cases hk : k = kv.1
      · subst hk
        rw [Function.update_self] at hm
        obtain rfl := Option.some.inj hm
        exact Or.inl (.head _)
      · rw [Function.update_of_ne hk] at hm
        exact Or.inr hm

theorem insertAll_isSome (h : (k, lc) ∈ kvs ∨ (want k).isSome = true) :
    (insertAll want kvs k).isSome = true := by
  induction kvs generalizing want with
  | nil => exact h.resolve_left nofun
  | cons kv kvs ih =>
    refine ih ?_
    by_cases hk : k = kv.1
    · subst hk
      rw [Function.update_self]
      exact Or.inr rfl
    · rw [Function.update_of_ne hk]
      refine h.imp_left fun hm => ?_
      rcases List.mem_cons.mp hm with rfl | hm
      · exact absurd rfl hk
      · exact hm

theorem desired_eq_some (h : desired lcs k = some lc) : lc ∈ lcs ∧ lc.declares k = true := by
  rcases insertAll_eq_some h with hm | hm
  · exact mem_declared.mp hm
  · nomatch hm

theorem desired_isSome (hlc : lc ∈ lcs) (hdecl : lc.declares k = true) : (desired lcs k).isSome :=
  insertAll_isSome (Or.inl (mem_declared.mpr ⟨hlc, hdecl⟩))

theorem mem_desiredKeys : k ∈ desiredKeys lcs ↔ (desired lcs k).isSome = true := by
  simp only [desiredKeys, List.mem_dedup, List.mem_map]
  constructor
  · rintro ⟨⟨k', lc⟩, hm, rfl⟩
    obtain ⟨hlc, hdecl⟩ := mem_declared.mp hm
    exact desired_isSome hlc hdecl
  · intro h
    obtain ⟨lc, hlc⟩ := Option.isSome_iff_exists.mp h
    exact ⟨(k, lc), mem_declared.mpr (desired_eq_some hlc), rfl⟩

end

section

variable {env : BindEnv} {tls : Bool} {lcs : List Listener} {b : LiveListeners} {k : ListenerKey}
  {keys : List ListenerKey} {l : LiveListener} {lc : Listener} {walk : HashOrder}
  {want : ListenerKey → Option Listener}

theorem bind_of_live (hl : b.get k = some l) :
    (bindListenerSetWithRetry env tls lcs b).get k = some l ∧
      (bindListenerSetWithRetry env tls lcs b).swaps k = b.swaps k := by
  have hto : BindsTo tls (pendingOf b.get lcs b.cells).1 b.get
      (bindListenerSetWithRetry env tls lcs b).get := bindPasses_bindsTo
  have hget := hto.get_eq hl
  refine ⟨hget, ?_⟩
  obtain ⟨more, hmore⟩ : b.cells <+: (bindListenerSetWithRetry env tls lcs b).cells := pendingOf_cells
  simp only [LiveListeners.swaps, hget, hl, Option.bind_some]
  rw [← hmore, List.getElem?_append_left (b.inRange k l hl)]

theorem bind_of_new (hfree : b.get k = none)
    (hl : (bindListenerSetWithRetry env tls lcs b).get k = some l) :
    occupied b.get k = false ∧ (k.proto.overTls && !tls) = false ∧
      ∃ lc ∈ lcs, lc.declares k = true ∧
        (bindListenerSetWithRetry env tls lcs b).swaps k = some lc.swaps := by
  have hto : BindsTo tls (pendingOf b.get lcs b.cells).1 b.get
      (bindListenerSetWithRetry env tls lcs b).get := bindPasses_bindsTo
  rcases hto k with hk | ⟨hsock, p, hp, rfl, htls, hk⟩
  · rw [hk, hfree] at hl
    nomatch hl
  · have hfrom := pendingOf_fromEntry p hp
    refine ⟨hsock, htls, p.lc, hfrom.entry, Listener.declares_key.mpr hfrom.declared, ?_⟩
    exact LiveListeners.swaps_eq_some.mpr ⟨p.live, hk, hfrom.content⟩

theorem retain_get : (retain want b).get k = some l ↔ (want k).isSome = true ∧ b.get k = some l :=
  Option.ite_none_right_eq_some

theorem retain_get_eq (h : ∀ k l, b.get k = some l → (desired lcs k).isSome = true) :
    (retain (desired lcs) b).get = b.get := by
  funext k
  show (if (desired lcs k).isSome then b.get k else none) = b.get k
  split
  · rfl
  rename_i hwant
  cases hl : b.get k with
  | none => rfl
  | some l => exact absurd (h k l hl) hwant

theorem occupied_hotSwap : occupied (hotSwap want keys b).get k = occupied b.get k := by
  simp [occupied, hotSwap]

def keptCell (lcs : List Listener) (b : LiveListeners) (k : ListenerKey) : Option Nat :=
  ((retain (desired lcs) b).get k).map LiveListener.cell

def newSwaps (lcs : List Listener) (k : ListenerKey) : Option Swaps := (desired lcs k).map Listener.swaps

def storedCells (lcs : List Listener) (b : LiveListeners) (keys : List ListenerKey) : List Swaps :=
  Cells.storeAll (keptCell lcs b) (newSwaps lcs) b.cells keys

theorem writes_iff {c : Nat} {s : Swaps} :
    Cells.Writes (keptCell lcs b) (newSwaps lcs) k c s ↔
      ∃ l lc, b.get k = some l ∧ desired lcs k = some lc ∧ l.cell = c ∧ lc.swaps = s := by
  simp only [Cells.Writes, keptCell, newSwaps, Option.map_eq_some_iff, retain_get]
  constructor
  · rintro ⟨⟨l, ⟨-, hl⟩, hc⟩, lc, hlc, hs⟩
    exact ⟨l, lc, hl, hlc, hc, hs⟩
  · rintro ⟨l, lc, hl, hlc, hc, hs⟩
    exact ⟨⟨l, ⟨hlc ▸ rfl, hl⟩, hc⟩, lc, hlc, hs⟩

theorem writes_lt {c : Nat} {s : Swaps} (h : Cells.Writes (keptCell lcs b) (newSwaps lcs) k c s) :
    c < b.cells.length := by
  obtain ⟨l, lc, hl, -, rfl, -⟩ := writes_iff.mp h
  exact b.inRange k l hl

theorem reload_of_kept (hl : b.get k = some l) (hlc : desired lcs k = some lc) :
    (reloadListeners env walk tls lcs b).get k = some { l with name := lc.name } ∧
      (reloadListeners env walk tls lcs b).swaps k =
        (storedCells lcs b (walk.order (desiredKeys lcs)))[l.cell]? := by
  have hkept : (retain (desired lcs) b).get k = some l := retain_get.mpr ⟨hlc ▸ rfl, hl⟩
  have hnamed : (hotSwap (desired lcs) (walk.order (desiredKeys lcs)) (retain (desired lcs) b)).get k =
      some { l with name := lc.name } := by
    show Option.map _ ((retain (desired lcs) b).get k) = _
    rw [hkept, Option.map_some, hlc]
    rfl
  obtain ⟨hget, hswaps⟩ := bind_of_live hnamed
  refine ⟨hget, hswaps.trans ?_⟩
  simp only [LiveListeners.swaps, hnamed, Option.bind_some]
  rfl

theorem hotSwap_get_none (hfree : b.get k = none) : (hotSwap want keys b).get k = none := by
  show Option.map _ (b.get k) = _
  rw [hfree]
  rfl

theorem reload_of_new (hfree : (retain (desired lcs) b).get k = none)
    (hl : (reloadListeners env walk tls lcs b).get k = some l) :
    occupied (retain (desired lcs) b).get k = false ∧ (k.proto.overTls && !tls) = false ∧
      ∃ lc ∈ lcs, lc.declares k = true ∧ (reloadListeners env walk tls lcs b).swaps k = some lc.swaps := by
  obtain ⟨hsock, hrest⟩ := bind_of_new (hotSwap_get_none hfree) hl
  exact ⟨occupied_hotSwap.symm.trans hsock, hrest⟩

theorem reload_binds (honly : ∀ attempt k', env.succeeds attempt k' = decide (k' = k)) (hlc : lc ∈ lcs)
    (hdecl : lc.declares k = true) (hfree : (retain (desired lcs) b).get k = none)
    (hsock : occupied (retain (desired lcs) b).get k = false) (htls : (k.proto.overTls && !tls) = false) :
    ∃ l, (reloadListeners env walk tls lcs b).get k = some l := by
  obtain ⟨p, hp, hkey⟩ := exists_pending hlc hdecl (hotSwap_get_none hfree)
  exact bindPasses_binds honly hp hkey (occupied_hotSwap.trans hsock) htls

end

end Dnsd.Daemon
