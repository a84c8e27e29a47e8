import Mathlib.Data.List.Induction
import Substrate.OverlayedMapLevels

/-!
# The overlay map refines a stack of full copies

`Snapshots` is what nested transactions mean: one full copy of the map for each open transaction.
Starting one copies, a rollback drops the top copy, a commit puts it in the place of the one below.
`levels` abstracts an overlay map to such a stack, and every operation commutes with the abstraction
(`step_refines`), outcome included.
-/

namespace Substrate

/-- One full copy for each open transaction and one below, innermost first. -/
structure Snapshots (K V : Type) where
  copies : List (K → Option V)
  clientDepth : Nat
  mode : ExecutionMode

namespace Snapshots

variable {K S : Type} [DecidableEq K]

inductive Op (K S : Type) where
  | set (key : K) (value : Option S)
  | modify (key : K) (init : S) (f : Option S → Option S)
  | clear (keys : K → Bool)
  | startTransaction
  | commitTransaction
  | rollbackTransaction
  | enterRuntime
  | exitRuntime

def default : Snapshots K (Option S) := ⟨[fun _ => none], 0, .client⟩

variable (s : Snapshots K (Option S))

def current (k : K) : Option (Option S) :=
  s.copies.head?.bind (· k)

def depth : Nat := s.copies.length - 1

def write (f : (K → Option (Option S)) → K → Option (Option S)) : Snapshots K (Option S) :=
  { s with copies := s.copies.modifyHead f }

/-- The runtime may only close what it started. -/
def mayClose : Bool :=
  decide (0 < s.depth) && (s.mode == .client || decide (s.clientDepth < s.depth))

def step : Op K S → Outcome OverlayError Unit × Snapshots K (Option S)
  | .set key value => (.ok (), s.write fun c => Function.update c key (some value))
  | .modify key init f =>
    (.ok (), s.write fun c => Function.update c key (some (f ((c key).getD (some init)))))
  | .clear keys => (.ok (), s.write fun c k => if keys k then some none else c k)
  | .startTransaction =>
    (.ok (), match s.copies with
      | top :: below => { s with copies := top :: top :: below }
      | [] => s)
  | .commitTransaction =>
    if s.mayClose then
      (.ok (), match s.copies with
        | top :: _ :: below => { s with copies := top :: below }
        | _ => s)
    else (.err .noOpenTransaction, s)
  | .rollbackTransaction =>
    if s.mayClose then (.ok (), { s with copies := s.copies.tail })
    else (.err .noOpenTransaction, s)
  | .enterRuntime =>
    match s.mode with
    | .runtime => (.err .alreadyInRuntime, s)
    | .client => (.ok (), { s with mode := .runtime, clientDepth := s.depth })
  | .exitRuntime =>
    match s.mode with
    | .client => (.err .notInRuntime, s)
    | .runtime =>
      (.ok (), { s with mode := .client, copies := s.copies.drop (s.depth - s.clientDepth) })

end Snapshots

namespace OverlayedMap

variable {K S : Type} [DecidableEq K]

inductive Op (K S : Type) where
  | set (key : K) (value : Option S) (atExtrinsic : Option Nat)
  | modify (key : K) (init : S) (atExtrinsic : Option Nat) (f : Option S → Option S)
  | clearWhere (predicate : K → OverlayedEntry (Option S) → Bool) (atExtrinsic : Option Nat)
  | startTransaction
  | commitTransaction
  | rollbackTransaction
  | enterRuntime
  | exitRuntime

variable (m : OverlayedMap K (Option S))

def step : Op K S → Outcome OverlayError Unit × OverlayedMap K (Option S)
  | .set key value atExtrinsic => (.ok (), m.set key value atExtrinsic)
  | .modify key init atExtrinsic f => (.ok (), m.modify key init atExtrinsic f)
  | .clearWhere predicate atExtrinsic => (.ok (), m.clearWhere predicate atExtrinsic)
  | .startTransaction => (.ok (), m.startTransaction)
  | .commitTransaction => m.commitTransaction
  | .rollbackTransaction => m.rollbackTransaction
  | .enterRuntime => m.enterRuntime
  | .exitRuntime => m.exitRuntime

/-- The predicate of `clear_where` sees entries, not only values, so the keys it matches are looked
up in the overlay. -/
def Op.resolve : Op K S → Snapshots.Op K S
  | .set key value _ => .set key value
  | .modify key init _ f => .modify key init f
  | .clearWhere predicate _ => .clear (m.matching predicate)
  | .startTransaction => .startTransaction
  | .commitTransaction => .commitTransaction
  | .rollbackTransaction => .rollbackTransaction
  | .enterRuntime => .enterRuntime
  | .exitRuntime => .exitRuntime

def snapshots : Snapshots K (Option S) :=
  ⟨m.levels, m.numClientTransactions, m.executionMode⟩

theorem snapshots_depth : m.snapshots.depth = m.transactionDepth := by
  simp [Snapshots.depth, snapshots]

theorem snapshots_mayClose : m.snapshots.mayClose = true ↔ m.CanClose := by
  rw [Snapshots.mayClose, snapshots_depth, CanClose, hasOpenRuntimeTransactions]
  cases hmode : m.executionMode <;>
    simp [snapshots, hmode, transactionDepth, List.length_pos_iff]

theorem snapshots_current : m.snapshots.current = m.view := by
  funext k
  rw [snapshots, levels_eq]
  rfl

variable {m}

theorem snapshots_write {m' : OverlayedMap K (Option S)}
    {f : (K → Option (Option S)) → K → Option (Option S)}
    (hlevels : m'.levels = f m.view :: m.levels.tail)
    (hnum : m'.numClientTransactions = m.numClientTransactions)
    (hmode : m'.executionMode = m.executionMode) : m'.snapshots = m.snapshots.write f := by
  have hm : m.levels.modifyHead f = f m.view :: m.levels.tail := by
    rw [levels_eq m]
    rfl
  simp [snapshots, Snapshots.write, hlevels, hnum, hmode, hm]

/-- What one operation has in common with the operation on the copies. -/
structure Refines (m : OverlayedMap K (Option S)) (op : Op K S) : Prop where
  outcome : (m.step op).1 = (m.snapshots.step (op.resolve m)).1
  snapshots : (m.step op).2.snapshots = (m.snapshots.step (op.resolve m)).2
  wf : (m.step op).2.Wf
  returns : (m.step op).1.Returns
  unchanged : (m.step op).1.IsErr → (m.step op).2 = m

theorem close_refines (hwf : m.Wf) :
    Refines m .commitTransaction ∧ Refines m .rollbackTransaction := by
  by_cases hclose : m.CanClose
  · have hmay : m.snapshots.mayClose = true := (snapshots_mayClose m).mpr hclose
    obtain ⟨m1, heq1, hwf1, hlevels1, hnum1, hmode1⟩ := commit_spec hwf hclose
    obtain ⟨m2, heq2, hwf2, hlevels2, hnum2, hmode2⟩ := rollback_spec hwf hclose
    constructor
    · refine ⟨?_, ?_, ?_, ?_, ?_⟩
      all_goals simp only [step, Op.resolve, Snapshots.step, hmay, if_true, heq1]
      · have hdepth : 1 < m.levels.length := by
          rw [length_levels]
          have := List.length_pos_iff.mpr hclose.1
          simp only [transactionDepth]
          omega
        rcases hl : m.levels with _ | ⟨c, _ | ⟨d, below⟩⟩
        · simp [hl] at hdepth
        · simp [hl] at hdepth
        · have hview : m.view = c := by
            have := levels_eq m
            rw [hl] at this
            exact (List.cons.inj this).1.symm
          simp [snapshots, hl, hlevels1, hnum1, hmode1, hview]
      · exact hwf1
      · trivial
      · exact fun h => absurd h (Outcome.not_isErr_ok _)
    · refine ⟨?_, ?_, ?_, ?_, ?_⟩
      all_goals simp only [step, Op.resolve, Snapshots.step, hmay, if_true, heq2]
      · simp [snapshots, hlevels2, hnum2, hmode2]
      · exact hwf2
      · trivial
      · exact fun h => absurd h (Outcome.not_isErr_ok _)
  · have hmay : m.snapshots.mayClose = false :=
      Bool.eq_false_iff.mpr fun h => hclose ((snapshots_mayClose m).mp h)
    have hrefused := closeTransaction_refused hclose
    constructor
    · refine ⟨?_, ?_, ?_, ?_, fun _ => ?_⟩ <;>
        simp only [step, Op.resolve, Snapshots.step, hmay, commitTransaction, hrefused,
          Bool.false_eq_true, if_false]
      · exact hwf
      · trivial
    · refine ⟨?_, ?_, ?_, ?_, fun _ => ?_⟩ <;>
        simp only [step, Op.resolve, Snapshots.step, hmay, rollbackTransaction, hrefused,
          Bool.false_eq_true, if_false]
      · exact hwf
      · trivial

/-- **Every operation commutes with the abstraction.** -/
theorem step_refines (hwf : m.Wf) (op : Op K S) : Refines m op := by
  cases op with
  | set key value atExtrinsic =>
    obtain ⟨hwf', hlevels⟩ := set_spec hwf key value atExtrinsic
    exact ⟨rfl, snapshots_write hlevels rfl rfl, hwf', trivial,
      fun h => absurd h (Outcome.not_isErr_ok _)⟩
  | modify key init atExtrinsic f =>
    obtain ⟨hwf', hlevels⟩ := modify_spec hwf key init atExtrinsic f
    exact ⟨rfl, snapshots_write hlevels rfl rfl, hwf', trivial,
      fun h => absurd h (Outcome.not_isErr_ok _)⟩
  | clearWhere predicate atExtrinsic =>
    obtain ⟨hwf', hlevels, hnum, hmode⟩ := clearWhere_spec hwf predicate atExtrinsic
    exact ⟨rfl, snapshots_write hlevels hnum hmode, hwf', trivial,
      fun h => absurd h (Outcome.not_isErr_ok _)⟩
  | startTransaction =>
    obtain ⟨hwf', hlevels⟩ := start_spec hwf
    refine ⟨rfl, ?_, hwf', trivial, fun h => absurd h (Outcome.not_isErr_ok _)⟩
    simp only [step, Op.resolve, Snapshots.step, snapshots, hlevels]
    rw [levels_eq m]
    rfl
  | commitTransaction => exact (close_refines hwf).1
  | rollbackTransaction => exact (close_refines hwf).2
  | enterRuntime =>
    cases hmode : m.executionMode with
    | client =>
      refine ⟨?_, ?_, ?_, ?_, ?_⟩ <;>
        simp only [step, Op.resolve, enterRuntime, Snapshots.step, snapshots, hmode]
      · rw [← snapshots_depth]
        simp only [snapshots, hmode]
        rfl
      · exact ⟨hwf.nonempty, hwf.nested⟩
      · trivial
      · exact fun h => absurd h (Outcome.not_isErr_ok _)
    | runtime =>
      refine ⟨?_, ?_, ?_, ?_, fun _ => ?_⟩ <;>
        simp only [step, Op.resolve, enterRuntime, Snapshots.step, snapshots, hmode]
      · exact hwf
      · trivial
  | exitRuntime =>
    cases hmode : m.executionMode with
    | client =>
      refine ⟨?_, ?_, ?_, ?_, fun _ => ?_⟩ <;>
        simp only [step, Op.resolve, exitRuntime, Snapshots.step, snapshots, hmode]
      · exact hwf
      · trivial
    | runtime =>
      obtain ⟨m', heq, hwf', hlevels, hnum, hmode'⟩ := exitRuntime_spec hwf hmode
      have hdepth := snapshots_depth m
      refine ⟨?_, ?_, ?_, ?_, ?_⟩ <;> simp only [step, Op.resolve, heq]
      · simp [Snapshots.step, snapshots, hmode]
      · simp only [Snapshots.step, hdepth]
        simp [snapshots, hmode, hlevels, hnum, hmode']
      · exact hwf'
      · trivial
      · exact fun h => absurd h (Outcome.not_isErr_ok _)

/-! ## Runs -/

def lockstep (ops : List (Op K S)) : OverlayedMap K (Option S) × Snapshots K (Option S) :=
  ops.foldl (fun p op => ((p.1.step op).2, (p.2.step (op.resolve p.1)).2))
    (OverlayedMap.default, Snapshots.default)

theorem lockstep_inv (ops : List (Op K S)) :
    (lockstep ops).1.Wf ∧ (lockstep ops).1.snapshots = (lockstep ops).2 := by
  induction ops using List.reverseRecOn with
  | nil => exact ⟨wf_default, rfl⟩
  | append_singleton ops op ih =>
    have hstep := step_refines ih.1 op
    have hlast : lockstep (ops ++ [op]) = (((lockstep ops).1.step op).2,
        ((lockstep ops).2.step (op.resolve (lockstep ops).1)).2) := by
      rw [lockstep, List.foldl_append]
      rfl
    rw [hlast]
    exact ⟨hstep.wf, hstep.snapshots.trans (by rw [ih.2])⟩

/-- **The overlay map refines a stack of snapshots.** After every sequence of
operations no entry is empty, the current values are those of the top copy, and
every further operation has the same outcome on both, never reaches an `expect`,
and changes nothing if it fails. -/
theorem overlay_refines_snapshots (ops : List (Op K S)) :
    (∀ k e, (lockstep ops).1.changes.get? k = some e →
      ∃ v, e.valueRef = some v ∧ (lockstep ops).2.current k = some v)
    ∧ (∀ k, (lockstep ops).1.changes.get? k = none → (lockstep ops).2.current k = none)
    ∧ ∀ op, ((lockstep ops).1.step op).1 = ((lockstep ops).2.step (op.resolve (lockstep ops).1)).1
      ∧ ((lockstep ops).1.step op).1 ≠ .panic
      ∧ (((lockstep ops).1.step op).1.IsErr → ((lockstep ops).1.step op).2 = (lockstep ops).1
        ∧ ((lockstep ops).2.step (op.resolve (lockstep ops).1)).2 = (lockstep ops).2) := by
  obtain ⟨hwf, heq⟩ := lockstep_inv ops
  rw [← heq, snapshots_current]
  refine ⟨fun k e hget => ?_, fun k hget => by rw [view, hget]; rfl, fun op => ?_⟩
  · obtain ⟨v, rest, hts⟩ := List.exists_cons_of_ne_nil (hwf.nonempty k e hget)
    have hvalue : e.valueRef = some v.value := by rw [OverlayedEntry.valueRef, hts]; rfl
    exact ⟨v.value, hvalue, by rw [view, hget]; exact hvalue⟩
  · have hstep := step_refines hwf op
    refine ⟨hstep.outcome, fun hpanic => ?_, fun herr => ?_⟩
    · have := hstep.returns
      rw [hpanic] at this
      exact this
    · rw [← hstep.snapshots, hstep.unchanged herr]
      exact ⟨rfl, rfl⟩

end OverlayedMap

end Substrate
