import Mathlib.Data.List.Induction
import Substrate.OverlayedChanges
import Substrate.OverlayedMapLevels

/-!
# Top, child and offchain overlays move in lockstep

The overlays of one `OverlayedChanges` are always in the same phase: the same transaction depth,
number of client transactions and execution mode. A call that closes transactions or changes the
mode depends on the phase only, so it succeeds on all overlays or on none, and moves the levels of
all of them alike (`Moves`). What is seen at a level is what was seen when the transaction above it
was started, and a rollback returns to it.
-/

namespace Substrate

open OverlayedMap List FinMap Option

/-! ## Phases -/

structure Phase where
  depth : Nat
  numClientTransactions : Nat
  executionMode : ExecutionMode
deriving Repr, DecidableEq

def Phase.CanClose (ph : Phase) : Prop :=
  0 < ph.depth ∧ (ph.executionMode = .runtime → ph.numClientTransactions < ph.depth)

namespace OverlayedMap

variable {K V : Type} {m : OverlayedMap K V}

def phase (m : OverlayedMap K V) : Phase :=
  ⟨m.transactionDepth, m.numClientTransactions, m.executionMode⟩

theorem canClose_iff (m : OverlayedMap K V) : m.CanClose ↔ m.phase.CanClose := by
  rw [CanClose, Phase.CanClose, hasOpenRuntimeTransactions]
  simp [phase, transactionDepth, length_pos_iff]

variable [DecidableEq K]

/-- Beyond the outermost level nothing is known. -/
def levelAt (m : OverlayedMap K V) (i : Nat) : K → Option V := m.levels[i]?.getD fun _ => none

theorem levelAt_zero (m : OverlayedMap K V) : m.levelAt 0 = m.view := by
  rw [levelAt, levels_eq]
  rfl

/-- A call took the overlay to a new phase, and level `i` is now what level `σ i`
was. -/
structure Moves (m m' : OverlayedMap K V) (σ : Nat → Nat) (ph : Phase) : Prop where
  wf : m'.Wf
  phase_eq : m'.phase = ph
  levelAt_eq : ∀ i, m'.levelAt i = m.levelAt (σ i)

theorem rollback_moves {ph} (h : ph.CanClose) (hwf : m.Wf) (hph : m.phase = ph) :
    ∃ m', m.rollbackTransaction = (.ok (), m')
      ∧ Moves m m' (· + 1) { ph with depth := ph.depth - 1 } := by
  subst hph
  obtain ⟨m', heq, hwf', hlevels, hnum, hmode⟩ := rollback_spec hwf ((canClose_iff m).mpr h)
  have hdepth : m'.transactionDepth = m.transactionDepth - 1 := by
    have hlen := congrArg length hlevels
    simp only [length_levels, length_tail] at hlen
    omega
  refine ⟨m', heq, hwf', ?_, fun i => ?_⟩
  · simp [phase, hnum, hmode, hdepth]
  · rw [levelAt, levelAt, hlevels, getElem?_tail]

theorem commit_moves {ph} (h : ph.CanClose) (hwf : m.Wf) (hph : m.phase = ph) :
    ∃ m', m.commitTransaction = (.ok (), m')
      ∧ Moves m m' (fun i => if i = 0 then 0 else i + 1) { ph with depth := ph.depth - 1 } := by
  subst hph
  obtain ⟨m', heq, hwf', hlevels, hnum, hmode⟩ := commit_spec hwf ((canClose_iff m).mpr h)
  have hdepth : m'.transactionDepth = m.transactionDepth - 1 := by
    have hlen := congrArg length hlevels
    simp only [length_levels, length_cons, length_tail] at hlen
    omega
  refine ⟨m', heq, hwf', ?_, fun i => ?_⟩
  · simp [phase, hnum, hmode, hdepth]
  · cases i with
    | zero =>
      rw [if_pos rfl, levelAt_zero, levelAt_zero, view_of_levels hlevels]
    | succ i =>
      rw [if_neg (Nat.succ_ne_zero i), levelAt, levelAt, hlevels, getElem?_cons_succ,
        getElem?_tail, getElem?_tail]

theorem enterRuntime_moves {ph} (h : ph.executionMode = .client) (hwf : m.Wf) (hph : m.phase = ph) :
    ∃ m', m.enterRuntime = (.ok (), m') ∧ Moves m m' id ⟨ph.depth, ph.depth, .runtime⟩ := by
  subst hph
  have hmode : m.executionMode = .client := h
  refine ⟨{ m with executionMode := .runtime, numClientTransactions := m.transactionDepth },
    by rw [enterRuntime, hmode], ⟨hwf.nonempty, hwf.nested⟩, rfl, fun _ => rfl⟩

theorem exitRuntime_moves {ph} (h : ph.executionMode = .runtime) (hwf : m.Wf) (hph : m.phase = ph) :
    ∃ m', m.exitRuntime = (.ok (), m')
      ∧ Moves m m' (ph.depth - ph.numClientTransactions + ·)
          ⟨ph.depth - (ph.depth - ph.numClientTransactions), ph.numClientTransactions, .client⟩ := by
  subst hph
  obtain ⟨m', heq, hwf', hlevels, hnum, hmode⟩ := exitRuntime_spec hwf h
  have hdepth : m'.transactionDepth =
      m.transactionDepth - (m.transactionDepth - m.numClientTransactions) := by
    have hlen := congrArg length hlevels
    simp only [length_levels, length_drop] at hlen
    omega
  refine ⟨m', heq, hwf', ?_, fun i => ?_⟩
  · simp [phase, hnum, hmode, hdepth]
  · rw [levelAt, hlevels, getElem?_drop]
    rfl

/-- A write moves no level but the current one. -/
structure Writes (m m' : OverlayedMap K V) : Prop where
  wf : m'.Wf
  phase_eq : m'.phase = m.phase
  levelAt_eq : ∀ i, m'.levelAt (i + 1) = m.levelAt (i + 1)

theorem writes_of_levels {m'} (hwf : m'.Wf) {l : K → Option V}
    (hlevels : m'.levels = l :: m.levels.tail)
    (hnum : m'.numClientTransactions = m.numClientTransactions)
    (hmode : m'.executionMode = m.executionMode) : Writes m m' := by
  have hdepth : m'.transactionDepth = m.transactionDepth := by
    have hlen := congrArg length hlevels
    simp only [length_levels, length_cons, length_tail] at hlen
    omega
  refine ⟨hwf, by simp only [phase, hnum, hmode, hdepth], fun i => ?_⟩
  rw [levelAt, levelAt, hlevels, getElem?_cons_succ, getElem?_tail]

theorem set_writes (hwf : m.Wf) (key : K) (value : V) (atExtrinsic : Option Nat) :
    Writes m (m.set key value atExtrinsic) := by
  obtain ⟨hwf', hlevels⟩ := set_spec hwf key value atExtrinsic
  exact writes_of_levels hwf' hlevels rfl rfl

theorem modify_writes {S : Type} {m} (hwf : m.Wf) (key : K) (init : S) (atExtrinsic : Option Nat)
    (f : Option S → Option S) : Writes m (m.modify key init atExtrinsic f) := by
  obtain ⟨hwf', hlevels⟩ := modify_spec hwf key init atExtrinsic f
  exact writes_of_levels hwf' hlevels rfl rfl

theorem clearWhere_writes {S : Type} {m} (hwf : m.Wf)
    (predicate : K → OverlayedEntry (Option S) → Bool) (atExtrinsic : Option Nat) :
    Writes m (m.clearWhere predicate atExtrinsic) := by
  obtain ⟨hwf', hlevels, hnum, hmode⟩ := clearWhere_spec hwf predicate atExtrinsic
  exact writes_of_levels hwf' hlevels hnum hmode

theorem start_levelAt (hwf : m.Wf) (i : Nat) :
    m.startTransaction.levelAt (i + 1) = m.levelAt i := by
  rw [levelAt, levelAt, (start_spec hwf).2, getElem?_cons_succ]

theorem levelAt_eq_none (h : ∀ l ∈ m.levels, ∀ k, l k = none) (i : Nat) :
    m.levelAt i = fun _ => none := by
  funext k
  rw [levelAt]
  cases hl : m.levels[i]? with
  | none => rfl
  | some l => exact h l (mem_of_getElem? hl) k

theorem levelAt_of_isEmpty (h : m.isEmpty = true) (i : Nat) : m.levelAt i = fun _ => none := by
  have hversions : m.versions = fun _ => [] := by
    funext k
    rw [versions, versionsOf, isEmpty_iff.mp h k]
    rfl
  refine levelAt_eq_none ?_ i
  rw [levels, hversions]
  exact Versions.levels_nil

end OverlayedMap

/-! ## Observations -/

/-- All that can be read from an `OverlayedChanges`. -/
structure Observation where
  storage : StorageKey → Option (Option StorageValue)
  childStorage : StorageKey → StorageKey → Option (Option StorageValue)
  offchain : StorageKey × StorageKey → Option OffchainOverlayedChange

namespace OverlayedChanges

variable {c : OverlayedChanges} {ph : Phase}

def observe (c : OverlayedChanges) : Observation := ⟨c.storage, c.childStorage, c.offchainChange⟩

def observeAt (c : OverlayedChanges) (i : Nat) : Observation where
  storage := c.top.levelAt i
  childStorage childKey := (c.children.get? childKey).elim (fun _ => none) fun p => p.1.levelAt i
  offchain := c.offchain.levelAt i

theorem observeAt_zero (c : OverlayedChanges) : c.observeAt 0 = c.observe := by
  have hchild : (fun childKey => (c.children.get? childKey).elim (fun _ => none)
      fun p => p.1.levelAt 0) = c.childStorage := by
    funext childKey key
    rw [childStorage]
    cases c.children.get? childKey with
    | none => rfl
    | some p => exact congrFun (levelAt_zero p.1) key
  rw [observeAt, hchild, levelAt_zero, levelAt_zero]
  rfl

/-- All overlays are well formed and in the given phase. -/
structure Lockstep (c : OverlayedChanges) (ph : Phase) : Prop where
  top : c.top.Wf ∧ c.top.phase = ph
  child : ∀ childKey p, c.children.get? childKey = some p → p.1.Wf ∧ p.1.phase = ph
  offchain : c.offchain.Wf ∧ c.offchain.phase = ph

theorem lockstep_default : Lockstep default ⟨0, 0, .client⟩ :=
  ⟨⟨wf_default, rfl⟩, fun _ _ h => (by cases h), ⟨wf_default, rfl⟩⟩

/-! ## Calls on all overlays -/

variable {fOffchain : OffchainOverlay → Outcome OverlayError Unit × OffchainOverlay}
  {f : OverlayedChangeSet → Outcome OverlayError Unit × OverlayedChangeSet}
  (keep : OverlayedChangeSet → Bool) in
/-- A call that succeeds on every overlay in the phase and moves their levels
alike keeps the lockstep; a child may only be dropped when it is empty. -/
theorem inLockstep_ok (h : c.Lockstep ph) {σ : Nat → Nat} {ph' : Phase}
    (hf : ∀ m, m.Wf → m.phase = ph → ∃ m', f m = (.ok (), m') ∧ OverlayedMap.Moves m m' σ ph')
    (hoff : ∀ m, m.Wf → m.phase = ph →
      ∃ m', fOffchain m = (.ok (), m') ∧ OverlayedMap.Moves m m' σ ph')
    (hkeep : ∀ m, keep m = false → m.isEmpty = true) :
    ∃ c', c.inLockstep f fOffchain keep = (.ok (), c') ∧ c'.Lockstep ph'
      ∧ ∀ i, c'.observeAt i = c.observeAt (σ i) := by
  obtain ⟨top, htop, hmtop⟩ := hf c.top h.top.1 h.top.2
  obtain ⟨offchain, hoffchain, hmoff⟩ := hoff c.offchain h.offchain.1 h.offchain.2
  have hall : c.children.all (fun p => decide ((f p.1).1 = .ok ())) = true := by
    refine all_iff.mpr fun childKey p hp => ?_
    obtain ⟨hwf, hph⟩ := h.child childKey p hp
    obtain ⟨m', heq, -⟩ := hf p.1 hwf hph
    simp [heq]
  have hchild : ∀ childKey p, c.children.get? childKey = some p →
      OverlayedMap.Moves p.1 (f p.1).2 σ ph' := fun childKey p hp => by
    obtain ⟨hwf, hph⟩ := h.child childKey p hp
    obtain ⟨m', heq, hm⟩ := hf p.1 hwf hph
    rw [heq]
    exact hm
  let children := (c.children.map fun p => ((f p.1).2, p.2)).filterMap fun _ p =>
    if keep p.1 then some p else none
  refine ⟨{ c with top := top, children := children, offchain := offchain },
    by simp only [inLockstep, htop, forEachChild, hall, if_true, hoffchain, children], ?_,
    fun i => ?_⟩
  · refine ⟨⟨hmtop.wf, hmtop.phase_eq⟩, fun childKey p hp => ?_, ⟨hmoff.wf, hmoff.phase_eq⟩⟩
    obtain ⟨q, hq, hkept⟩ := bind_eq_some_iff.mp hp
    obtain ⟨r, hr, rfl⟩ := map_eq_some_iff.mp hq
    dsimp only at hkept
    split at hkept
    · cases hkept
      exact ⟨(hchild childKey r hr).wf, (hchild childKey r hr).phase_eq⟩
    · cases hkept
  · have hchildren : (fun childKey =>
        (children.get? childKey).elim (fun _ => none) (fun p => p.1.levelAt i)) =
        fun childKey => (c.children.get? childKey).elim (fun _ => none)
          fun p => p.1.levelAt (σ i) := by
      funext childKey
      simp only [children, get?_filterMap, get?_map]
      cases hp : c.children.get? childKey with
      | none => rfl
      | some p =>
        have hlevel := (hchild childKey p hp).levelAt_eq i
        cases hk : keep (f p.1).2 with
        | true => simpa [hk] using hlevel
        | false =>
          -- a dropped child showed nothing at the levels that are left
          have hnone := levelAt_of_isEmpty (hkeep _ hk) i
          simpa [hk, hnone] using hlevel
    rw [observeAt, observeAt, hmtop.levelAt_eq, hmoff.levelAt_eq, hchildren]

theorem inLockstep_err {e} (hf : f c.top = (.err e, c.top)) :
    c.inLockstep f fOffchain keep = (.err e, c) := by
  simp [inLockstep, hf]

section

variable (h : c.Lockstep ph)
include h

theorem rollbackTransaction_ok (hclose : ph.CanClose) : ∃ c', c.rollbackTransaction = (.ok (), c')
      ∧ c'.Lockstep { ph with depth := ph.depth - 1 }
      ∧ ∀ i, c'.observeAt i = c.observeAt (i + 1) := by
  refine inLockstep_ok _ h (fun m => rollback_moves hclose) (fun m => rollback_moves hclose) ?_
  intro m hk
  simpa using hk

theorem refused_of_not_canClose (hclose : ¬ph.CanClose) :
    c.rollbackTransaction = (.err .noOpenTransaction, c)
    ∧ c.commitTransaction = (.err .noOpenTransaction, c) := by
  have htop : ∀ rollback, c.top.closeTransaction rollback = (.err .noOpenTransaction, c.top) := by
    refine closeTransaction_refused ?_
    rw [canClose_iff, h.top.2]
    exact hclose
  exact ⟨inLockstep_err (htop true), inLockstep_err (htop false)⟩

theorem commitTransaction_cases : c.commitTransaction = (.err .noOpenTransaction, c) ∨
    ∃ c', c.commitTransaction = (.ok (), c') ∧ c'.Lockstep { ph with depth := ph.depth - 1 }
      ∧ ∀ i, c'.observeAt i = c.observeAt (if i = 0 then 0 else i + 1) := by
  by_cases hclose : ph.CanClose
  · exact .inr (inLockstep_ok _ h (fun m => commit_moves hclose) (fun m => commit_moves hclose)
      fun _ hk => by cases hk)
  · exact .inl (refused_of_not_canClose h hclose).2

theorem exitRuntime_cases : c.exitRuntime = (.err .notInRuntime, c) ∨
    ∃ c', c.exitRuntime = (.ok (), c')
      ∧ c'.Lockstep ⟨ph.depth - (ph.depth - ph.numClientTransactions), ph.numClientTransactions,
          .client⟩
      ∧ ∀ i, c'.observeAt i = c.observeAt (ph.depth - ph.numClientTransactions + i) := by
  cases hmode : ph.executionMode with
  | client =>
    have htop : c.top.executionMode = .client :=
      (congrArg Phase.executionMode h.top.2).trans hmode
    exact .inl (inLockstep_err (by rw [OverlayedMap.exitRuntime, htop]))
  | runtime =>
    exact .inr (inLockstep_ok _ h (fun m => exitRuntime_moves hmode)
      (fun m => exitRuntime_moves hmode) fun _ hk => by cases hk)

theorem startTransaction_ok : c.startTransaction.Lockstep { ph with depth := ph.depth + 1 }
    ∧ ∀ i, c.startTransaction.observeAt (i + 1) = c.observeAt i := by
  have hphase : ∀ {K V : Type} (m : OverlayedMap K V), m.phase = ph →
      m.startTransaction.phase = { ph with depth := ph.depth + 1 } := by
    rintro K V m rfl
    rfl
  refine ⟨⟨⟨(start_spec h.top.1).1, hphase _ h.top.2⟩, fun childKey p hp => ?_,
    ⟨(start_spec h.offchain.1).1, hphase _ h.offchain.2⟩⟩, fun i => ?_⟩
  · obtain ⟨q, hq, rfl⟩ := map_eq_some_iff.mp hp
    have hchild := h.child childKey q hq
    exact ⟨(start_spec hchild.1).1, hphase _ hchild.2⟩
  · have hchildren : (fun childKey =>
        ((c.children.map fun p => (p.1.startTransaction, p.2)).get? childKey).elim
          (fun _ => none) (fun p => p.1.levelAt (i + 1))) =
        fun childKey => (c.children.get? childKey).elim (fun _ => none) fun p => p.1.levelAt i := by
      funext childKey
      rw [get?_map]
      cases hp : c.children.get? childKey with
      | none => rfl
      | some p => exact start_levelAt (h.child childKey p hp).1 i
    rw [observeAt, observeAt, ← hchildren, ← start_levelAt h.top.1]
    rfl

end

/-! ## Writes -/

structure WritesTo (c c' : OverlayedChanges) (ph : Phase) : Prop where
  lockstep : c'.Lockstep ph
  observeAt_eq : ∀ i, c'.observeAt (i + 1) = c.observeAt (i + 1)

theorem writesTo_top (h : c.Lockstep ph) {top} (hw : OverlayedMap.Writes c.top top) :
    WritesTo c { c with top := top } ph := by
  refine ⟨⟨⟨hw.wf, hw.phase_eq.trans h.top.2⟩, h.child, h.offchain⟩, fun i => ?_⟩
  simp [observeAt, hw.levelAt_eq]

theorem writesTo_offchain (h : c.Lockstep ph) {offchain}
    (hw : OverlayedMap.Writes c.offchain offchain) :
    WritesTo c { c with offchain := offchain } ph := by
  refine ⟨⟨h.top, h.child, ⟨hw.wf, hw.phase_eq.trans h.offchain.2⟩⟩, fun i => ?_⟩
  simp [observeAt, hw.levelAt_eq]

/-- A child written for the first time shows nothing at the outer levels, as before. -/
theorem writesTo_child (h : c.Lockstep ph) (childInfo : ChildInfo)
    {f : OverlayedChangeSet → OverlayedChangeSet}
    (hf : ∀ m, m.Wf → OverlayedMap.Writes m (f m)) :
    WritesTo c (c.updateChild childInfo f) ph := by
  obtain ⟨p, hp, hwf, hph, hlevel⟩ : ∃ p : OverlayedChangeSet × ChildInfo,
      (c.children.get? childInfo.storageKey).getD (c.top.spawnChild, childInfo) = p
      ∧ p.1.Wf ∧ p.1.phase = ph
      ∧ ∀ i, (c.children.get? childInfo.storageKey).elim (fun _ => none)
          (fun p => p.1.levelAt i) = p.1.levelAt i := by
    cases hget : c.children.get? childInfo.storageKey with
    | some p => exact ⟨p, rfl, (h.child _ p hget).1, (h.child _ p hget).2, fun _ => rfl⟩
    | none =>
      obtain ⟨hwf, hdepth, hlevels⟩ := spawnChild_spec c.top
      refine ⟨(c.top.spawnChild, childInfo), rfl, hwf, ?_,
        fun i => (levelAt_eq_none hlevels i).symm⟩
      rw [← h.top.2, phase, hdepth]
      rfl
  have hw := hf p.1 hwf
  simp only [updateChild, hp]
  refine ⟨⟨h.top, fun childKey q hq => ?_, h.offchain⟩, fun i => ?_⟩
  · by_cases hk : childKey = childInfo.storageKey
    · subst hk
      obtain rfl := by simpa using hq
      exact ⟨hw.wf, hw.phase_eq.trans hph⟩
    · exact h.child childKey q (by simpa [hk] using hq)
  · have hchildren : (fun childKey =>
        ((c.children.insert childInfo.storageKey (f p.1, p.2)).get? childKey).elim
          (fun _ => none) (fun p => p.1.levelAt (i + 1))) =
        fun childKey => (c.children.get? childKey).elim (fun _ => none)
          fun p => p.1.levelAt (i + 1) := by
      funext childKey
      by_cases hk : childKey = childInfo.storageKey
      · subst hk
        rw [get?_insert, Function.update_self, hlevel (i + 1)]
        exact hw.levelAt_eq i
      · rw [get?_insert, Function.update_of_ne hk]
    rw [observeAt, observeAt, hchildren]

/-! ## Runs -/

inductive Op where
  | setStorage (key : StorageKey) (val : Option StorageValue)
  | setChildStorage (childInfo : ChildInfo) (key : StorageKey) (val : Option StorageValue)
  | clearChildStorage (childInfo : ChildInfo)
  | clearPrefix (pre : StorageKey)
  | clearChildPrefix (childInfo : ChildInfo) (pre : StorageKey)
  | setOffchainStorage (key : StorageKey) (value : Option StorageValue)
  | valueMutOrInsertWith (key : StorageKey) (init : StorageValue)
      (assign : StorageValue → StorageValue)
  | setCollectExtrinsics (collectExtrinsics : Bool)
  | startTransaction
  | commitTransaction
  | rollbackTransaction
  | enterRuntime
  | exitRuntime

def step (c : OverlayedChanges) : Op → Outcome OverlayError Unit × OverlayedChanges
  | .setStorage key val => (.ok (), c.setStorage key val)
  | .setChildStorage childInfo key val => (.ok (), c.setChildStorage childInfo key val)
  | .clearChildStorage childInfo => (.ok (), c.clearChildStorage childInfo)
  | .clearPrefix pre => (.ok (), c.clearPrefix pre)
  | .clearChildPrefix childInfo pre => (.ok (), c.clearChildPrefix childInfo pre)
  | .setOffchainStorage key value => (.ok (), c.setOffchainStorage key value)
  | .valueMutOrInsertWith key init assign => (.ok (), c.valueMutOrInsertWith key init assign)
  | .setCollectExtrinsics collectExtrinsics => (.ok (), c.setCollectExtrinsics collectExtrinsics)
  | .startTransaction => (.ok (), c.startTransaction)
  | .commitTransaction => c.commitTransaction
  | .rollbackTransaction => c.rollbackTransaction
  | .enterRuntime => c.enterRuntime
  | .exitRuntime => c.exitRuntime

def Op.isWrite : Op → Bool
  | .startTransaction | .commitTransaction | .rollbackTransaction | .enterRuntime
  | .exitRuntime => false
  | _ => true

theorem step_write (h : c.Lockstep ph) {op : Op} (hop : op.isWrite = true) :
    ∃ c', c.step op = (.ok (), c') ∧ WritesTo c c' ph := by
  cases op with
  | setStorage key val =>
    exact ⟨_, rfl, writesTo_top h (set_writes h.top.1 ..)⟩
  | setChildStorage childInfo key val =>
    exact ⟨_, rfl, writesTo_child h childInfo fun m hwf => set_writes hwf ..⟩
  | clearChildStorage childInfo =>
    exact ⟨_, rfl, writesTo_child h childInfo fun m hwf => clearWhere_writes hwf ..⟩
  | clearPrefix pre =>
    exact ⟨_, rfl, writesTo_top h (clearWhere_writes h.top.1 ..)⟩
  | clearChildPrefix childInfo pre =>
    exact ⟨_, rfl, writesTo_child h childInfo fun m hwf => clearWhere_writes hwf ..⟩
  | setOffchainStorage key value =>
    exact ⟨_, rfl, writesTo_offchain h (set_writes h.offchain.1 ..)⟩
  | valueMutOrInsertWith key init assign =>
    exact ⟨_, rfl, writesTo_top h (modify_writes h.top.1 ..)⟩
  | setCollectExtrinsics collectExtrinsics =>
    exact ⟨_, rfl, ⟨h.top, h.child, h.offchain⟩, fun _ => rfl⟩
  | startTransaction | commitTransaction | rollbackTransaction | enterRuntime | exitRuntime =>
    cases hop

/-- With the observations made just before each open transaction was started, innermost first, and
the number of them when the runtime was entered. -/
structure Traced where
  changes : OverlayedChanges
  started : List Observation
  clientDepth : Nat

namespace Traced

/-- Closing a transaction takes the observation made at its start off the record. -/
def advance (t : Traced) (op : Op) : Traced :=
  let r := t.changes.step op
  match op, r.1 with
  | .startTransaction, .ok _ => ⟨r.2, t.changes.observe :: t.started, t.clientDepth⟩
  | .commitTransaction, .ok _ => ⟨r.2, t.started.tail, t.clientDepth⟩
  | .rollbackTransaction, .ok _ => ⟨r.2, t.started.tail, t.clientDepth⟩
  | .enterRuntime, .ok _ => ⟨r.2, t.started, t.started.length⟩
  | .exitRuntime, .ok _ =>
    ⟨r.2, t.started.drop (t.started.length - t.clientDepth), t.clientDepth⟩
  | _, _ => ⟨r.2, t.started, t.clientDepth⟩

/-- The overlays are in lockstep, and each level shows what was observed when the
transaction above it was started. -/
structure Inv (t : Traced) (ph : Phase) : Prop where
  lockstep : t.changes.Lockstep ph
  length_started : t.started.length = ph.depth
  clientDepth_eq : t.clientDepth = ph.numClientTransactions
  started_eq : ∀ i < ph.depth, t.started[i]? = some (t.changes.observeAt (i + 1))

/-- It does not panic, and the invariant is kept. -/
def StepOk (t : Traced) (op : Op) : Prop :=
  (t.changes.step op).1.Returns ∧ ∃ ph', (t.advance op).Inv ph'

variable {t : Traced}

section

variable (h : t.Inv ph)
include h

theorem Inv.write {c'} (hw : WritesTo t.changes c' ph) : Inv ⟨c', t.started, t.clientDepth⟩ ph :=
  ⟨hw.lockstep, h.length_started, h.clientDepth_eq, fun i hi => by
    rw [hw.observeAt_eq]
    exact h.started_eq i hi⟩

theorem Inv.start : t.StepOk .startTransaction := by
  obtain ⟨hlock, hobserve⟩ := startTransaction_ok h.lockstep
  refine ⟨trivial, { ph with depth := ph.depth + 1 }, hlock, ?_, h.clientDepth_eq, fun i hi => ?_⟩
  · simpa [advance, step] using h.length_started
  · change (t.changes.observe :: t.started)[i]? = some (t.changes.startTransaction.observeAt (i + 1))
    rw [hobserve]
    cases i with
    | zero => rw [observeAt_zero]; rfl
    | succ i =>
      rw [getElem?_cons_succ]
      exact h.started_eq i (by simp only at hi; omega)

theorem Inv.same : Inv ⟨t.changes, t.started, t.clientDepth⟩ ph :=
  ⟨h.lockstep, h.length_started, h.clientDepth_eq, h.started_eq⟩

theorem Inv.close {c'} {ph' : Phase} {k : Nat} (hlock : c'.Lockstep ph')
    (hdepth : ph'.depth = ph.depth - k)
    (hclient : ph'.numClientTransactions = ph.numClientTransactions)
    (hobs : ∀ i, c'.observeAt (i + 1) = t.changes.observeAt (k + i + 1)) :
    Inv ⟨c', t.started.drop k, t.clientDepth⟩ ph' := by
  refine ⟨hlock, by simp only [length_drop, h.length_started, hdepth],
    h.clientDepth_eq.trans hclient.symm, fun i hi => ?_⟩
  rw [getElem?_drop, hobs]
  exact h.started_eq _ (by omega)

theorem Inv.rollback : t.StepOk .rollbackTransaction := by
  by_cases hclose : ph.CanClose
  · obtain ⟨c', heq, hlock, hobs⟩ := rollbackTransaction_ok h.lockstep hclose
    simp only [StepOk, advance, step, heq, ← drop_one]
    refine ⟨trivial, _, h.close hlock rfl rfl fun i => ?_⟩
    rw [hobs, Nat.add_comm 1]
  · simp only [StepOk, advance, step, (refused_of_not_canClose h.lockstep hclose).1]
    exact ⟨trivial, ph, h.same⟩

theorem Inv.commit : t.StepOk .commitTransaction := by
  rcases commitTransaction_cases h.lockstep with heq | ⟨c', heq, hlock, hobs⟩
  · simp only [StepOk, advance, step, heq]
    exact ⟨trivial, ph, h.same⟩
  · simp only [StepOk, advance, step, heq, ← drop_one]
    refine ⟨trivial, _, h.close hlock rfl rfl fun i => ?_⟩
    rw [hobs, if_neg (Nat.succ_ne_zero i), Nat.add_comm 1]

theorem Inv.enter : t.StepOk .enterRuntime := by
  cases hmode : ph.executionMode with
  | client =>
    obtain ⟨c', heq, hlock, hobs⟩ := inLockstep_ok (fun _ => true) h.lockstep
      (fun m => enterRuntime_moves hmode) (fun m => enterRuntime_moves hmode)
      fun _ hk => by cases hk
    simp only [StepOk, advance, step, enterRuntime, heq]
    refine ⟨trivial, _, hlock, h.length_started, h.length_started, fun i hi => ?_⟩
    rw [hobs]
    exact h.started_eq i hi
  | runtime =>
    have htop : t.changes.top.executionMode = .runtime :=
      (congrArg Phase.executionMode h.lockstep.top.2).trans hmode
    have heq : t.changes.enterRuntime = (.err .alreadyInRuntime, t.changes) :=
      inLockstep_err (by rw [OverlayedMap.enterRuntime, htop])
    simp only [StepOk, advance, step, heq]
    exact ⟨trivial, ph, h.same⟩

theorem Inv.exit : t.StepOk .exitRuntime := by
  rcases exitRuntime_cases h.lockstep with heq | ⟨c', heq, hlock, hobs⟩
  · simp only [StepOk, advance, step, heq]
    exact ⟨trivial, ph, h.same⟩
  · rw [← h.length_started, ← h.clientDepth_eq] at hobs
    simp only [StepOk, advance, step, heq]
    refine ⟨trivial, _, h.close hlock ?_ rfl fun i => hobs (i + 1)⟩
    rw [h.length_started, h.clientDepth_eq]

/-- **One operation keeps the lockstep and panics nowhere.** -/
theorem Inv.step (op : Op) : t.StepOk op := by
  by_cases hop : op.isWrite = true
  · obtain ⟨c', heq, hw⟩ := step_write h.lockstep hop
    have hadvance : t.advance op = ⟨c', t.started, t.clientDepth⟩ := by
      simp only [advance, heq]
      cases op <;> first | rfl | cases hop
    rw [StepOk, hadvance, heq]
    exact ⟨trivial, ph, h.write hw⟩
  cases op with
  | startTransaction => exact h.start
  | commitTransaction => exact h.commit
  | rollbackTransaction => exact h.rollback
  | enterRuntime => exact h.enter
  | exitRuntime => exact h.exit
  | _ => exact absurd rfl hop

end

end Traced

def trace (ops : List Op) : Traced := ops.foldl Traced.advance ⟨default, [], 0⟩

theorem trace_inv (ops : List Op) : ∃ ph, (trace ops).Inv ph := by
  induction ops using reverseRecOn with
  | nil =>
    exact ⟨_, lockstep_default, rfl, rfl, fun i hi => absurd hi (Nat.not_lt_zero i)⟩
  | append_singleton ops op ih =>
    obtain ⟨ph, h⟩ := ih
    rw [trace, foldl_append]
    exact (h.step op).2

/-- **A commit keeps what can be read, and leaving the runtime undoes what it left open**: all is
then as just before the first of the open transactions of the runtime, the last of the record. -/
theorem commit_keeps_exit_undoes (ops : List Op) :
    ((trace ops).changes.commitTransaction.1 = .ok () →
      (trace ops).changes.commitTransaction.2.observe = (trace ops).changes.observe) ∧
    ((trace ops).changes.exitRuntime.1 = .ok () →
      ((trace ops).changes.observe :: (trace ops).started)[
          (trace ops).started.length - (trace ops).clientDepth]? =
        some (trace ops).changes.exitRuntime.2.observe) := by
  obtain ⟨ph, h⟩ := trace_inv ops
  refine ⟨fun hok => ?_, fun hok => ?_⟩
  · rcases commitTransaction_cases h.lockstep with heq | ⟨c', heq, -, hobs⟩
    · rw [heq] at hok
      cases hok
    · rw [heq, ← observeAt_zero, ← observeAt_zero, hobs]
      rfl
  · rcases exitRuntime_cases h.lockstep with heq | ⟨c', heq, -, hobs⟩
    · rw [heq] at hok
      cases hok
    · rw [heq, ← observeAt_zero, ← observeAt_zero, hobs, h.length_started, h.clientDepth_eq,
        Nat.add_zero]
      cases hopen : ph.depth - ph.numClientTransactions with
      | zero => rfl
      | succ i => exact h.started_eq i (by omega)

end OverlayedChanges

end Substrate
