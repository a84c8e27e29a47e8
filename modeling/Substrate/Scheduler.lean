import Mathlib.Algebra.Ring.Nat
import Mathlib.Data.List.Sort
import Substrate.Exec
import Substrate.FinMap

/-!
# The scheduler pallet

`frame/scheduler`: calls to be dispatched at a block, kept in the agenda of that block, with a
lookup from the names of tasks to their place. `on_initialize` takes the agenda of its block,
dispatches what the weight limit allows and postpones the rest to the next block.

What a dispatched call does to the scheduler is a parameter: a list of scheduler calls for each
task. Events are left out, as are the storage version and its migrations. Block numbers go up to the
largest one of their type, where a dispatch time saturates; adding a period beyond it panics.
-/

namespace Substrate.Scheduler

open Exec

/-! ## Data -/

structure Scheduled (Id Call Origin : Type) where
  maybeId : Option Id
  priority : Nat
  call : Call
  maybePeriodic : Option (Nat × Nat)
  origin : Origin

inductive DispatchTime where
  | atBlock (n : Nat)
  | afterBlocks (n : Nat)

inductive Error where
  | failedToSchedule
  | notFound
  | targetBlockNumberInPast
  | rescheduleNoChange
  | badOrigin
deriving DecidableEq

structure State (Id Call Origin : Type) where
  agenda : FinMap Nat (List (Option (Scheduled Id Call Origin)))
  /-- To the block number and index of the task. -/
  lookup : FinMap Id (Nat × Nat)
  blockNumber : Nat

section Calls

variable {Id Call Origin : Type} [DecidableEq Id] [DecidableEq Origin]

def State.agendaOf (s : State Id Call Origin) (when : Nat) :
    List (Option (Scheduled Id Call Origin)) :=
  (s.agenda.get? when).getD []

def State.append (s : State Id Call Origin) (when : Nat) (task : Scheduled Id Call Origin) :
    State Id Call Origin :=
  { s with agenda := s.agenda.insert when (s.agendaOf when ++ [some task]) }

def State.clear (s : State Id Call Origin) (address : Nat × Nat) : State Id Call Origin :=
  { s with agenda := s.agenda.insert address.1 ((s.agendaOf address.1).set address.2 none) }

variable (maxBlock : Nat) (id : Id) (when : DispatchTime) (maybePeriodic : Option (Nat × Nat))
  (priority : Nat) (origin : Origin)

def resolveTime : Exec (State Id Call Origin) Error Nat := do
  let now ← read State.blockNumber
  let when := match when with
    | .atBlock x => x
    -- the current block has already completed its scheduled tasks
    | .afterBlocks x => min (min (now + x) maxBlock + 1) maxBlock
  ensure (now < when) .targetBlockNumberInPast
  pure when

/-- A period of zero or a single execution is no period; one execution is scheduled now. -/
def sanitize : Option (Nat × Nat) :=
  (maybePeriodic.filter fun p => decide (1 < p.2 ∧ p.1 ≠ 0)).map fun p => (p.1, p.2 - 1)

/-- `Agenda::<T>::decode_len(when).unwrap_or(1) as u32 - 1`, after an item was appended. -/
def lastIndex (when : Nat) (s : State Id Call Origin) : Nat := (s.agendaOf when).length - 1

def doSchedule (call : Call) : Exec (State Id Call Origin) Error (Nat × Nat) := do
  let when ← resolveTime maxBlock when
  modify fun s => s.append when ⟨none, priority, call, sanitize maybePeriodic, origin⟩
  let index ← read (lastIndex when)
  pure (when, index)

/-- If there is one and the origin is the one that scheduled it. -/
def takeTask (origin : Option Origin) (address : Nat × Nat) :
    Exec (State Id Call Origin) Error (Option (Scheduled Id Call Origin)) := do
  let agenda ← read fun s => s.agendaOf address.1
  match (agenda[address.2]?).join with
  | none =>
    modify fun s => s.clear address
    pure none
  | some task =>
    ensure (∀ o ∈ origin, o = task.origin) .badOrigin
    modify fun s => s.clear address
    pure (some task)

def doCancel (origin : Option Origin) (address : Nat × Nat) :
    Exec (State Id Call Origin) Error Unit := do
  let scheduled ← takeTask origin address
  match scheduled with
  | none => throw .notFound
  | some task =>
    match task.maybeId with
    | some id => modify fun s => { s with lookup := s.lookup.erase id }
    | none => pure ()

def moveTask (address : Nat × Nat) (newTime : Nat) : Exec (State Id Call Origin) Error Unit := do
  let agenda ← read fun s => s.agendaOf address.1
  let task ← okOr (agenda[address.2]?).join .notFound
  modify fun s => (s.append newTime task).clear address

def doReschedule (address : Nat × Nat) (newTime : DispatchTime) :
    Exec (State Id Call Origin) Error (Nat × Nat) := do
  let newTime ← resolveTime maxBlock newTime
  ensure (newTime ≠ address.1) .rescheduleNoChange
  moveTask address newTime
  let newIndex ← read (lastIndex newTime)
  pure (newTime, newIndex)

def doScheduleNamed (call : Call) : Exec (State Id Call Origin) Error (Nat × Nat) := do
  -- ensure id it is unique
  let known ← read fun s => s.lookup.contains id
  ensure (known = false) .failedToSchedule
  let when ← resolveTime maxBlock when
  modify fun s => s.append when ⟨some id, priority, call, sanitize maybePeriodic, origin⟩
  let index ← read (lastIndex when)
  modify fun s => { s with lookup := s.lookup.insert id (when, index) }
  pure (when, index)

def doCancelNamed (origin : Option Origin) (id : Id) : Exec (State Id Call Origin) Error Unit := do
  let lookup ← read fun s => s.lookup.get? id
  let address ← okOr lookup .notFound
  let _ ← takeTask origin address
  modify fun s => { s with lookup := s.lookup.erase id }

def doRescheduleNamed (newTime : DispatchTime) : Exec (State Id Call Origin) Error (Nat × Nat) := do
  let newTime ← resolveTime maxBlock newTime
  let lookup ← read fun s => s.lookup.get? id
  let address ← okOr lookup .notFound
  ensure (newTime ≠ address.1) .rescheduleNoChange
  moveTask address newTime
  let newIndex ← read (lastIndex newTime)
  modify fun s => { s with lookup := s.lookup.insert id (newTime, newIndex) }
  pure (newTime, newIndex)

/-- With an origin they are dispatchables, without one they are calls of another pallet. -/
inductive Op (Id Call Origin : Type) where
  | schedule (when : DispatchTime) (maybePeriodic : Option (Nat × Nat)) (priority : Nat)
      (origin : Origin) (call : Call)
  | cancel (origin : Option Origin) (address : Nat × Nat)
  | reschedule (address : Nat × Nat) (newTime : DispatchTime)
  | scheduleNamed (id : Id) (when : DispatchTime) (maybePeriodic : Option (Nat × Nat))
      (priority : Nat) (origin : Origin) (call : Call)
  | cancelNamed (origin : Option Origin) (id : Id)
  | rescheduleNamed (id : Id) (newTime : DispatchTime)

/-- Of its result only whether there is an error is kept. -/
def Op.run : Op Id Call Origin → Exec (State Id Call Origin) Error Unit
  | schedule when maybePeriodic priority origin call =>
    (fun _ => ()) <$> doSchedule maxBlock when maybePeriodic priority origin call
  | cancel origin address => doCancel origin address
  | reschedule address newTime => (fun _ => ()) <$> doReschedule maxBlock address newTime
  | scheduleNamed id when maybePeriodic priority origin call =>
    (fun _ => ()) <$> doScheduleNamed maxBlock id when maybePeriodic priority origin call
  | cancelNamed origin id => doCancelNamed origin id
  | rescheduleNamed id newTime => (fun _ => ()) <$> doRescheduleNamed maxBlock id newTime

/-- None of them panics. -/
def Op.perform (op : Op Id Call Origin) (s : State Id Call Origin) : State Id Call Origin :=
  match op.run maxBlock s with
  | (.panic, _) => s
  | (_, s') => s'

end Calls

/-! ## The agenda of a block -/

structure Config (Call Origin : Type) where
  maxBlock : Nat
  /-- For any dispatchables of less priority than `HARD_DEADLINE`. -/
  maximumWeight : Nat
  dbRead : Nat
  dbWrite : Nat
  weight : Call → Nat
  isSigned : Origin → Bool

/-- Anything of this value or lower will definitely be scheduled on the block that they ask for. -/
def hardDeadline : Nat := 63

def satAdd (a b : Nat) : Nat := min (a + b) (2 ^ 64 - 1)

section Block

variable {Id Call Origin : Type} [DecidableEq Id] [DecidableEq Origin] (T : Config Call Origin)

def Config.readsWrites (r w : Nat) : Nat :=
  satAdd (min (T.dbRead * r) (2 ^ 64 - 1)) (min (T.dbWrite * w) (2 ^ 64 - 1))

def queued (agenda : List (Option (Scheduled Id Call Origin))) :
    List (Nat × Scheduled Id Call Origin) :=
  agenda.zipIdx.filterMap fun (task, index) => task.map fun task => (index, task)

/-- Those of one priority in the order of the agenda. -/
def sortByPriority (tasks : List (Nat × Scheduled Id Call Origin)) :
    List (Nat × Scheduled Id Call Origin) :=
  tasks.insertionSort fun a b => a.2.priority ≤ b.2.priority

/-- With its place in the order, its index and the weight up to it. -/
structure Item (Id Call Origin : Type) where
  order : Nat
  index : Nat
  cumulativeWeight : Nat
  task : Scheduled Id Call Origin

def addWeight (cumulativeWeight : Nat) (task : Scheduled Id Call Origin) : Nat :=
  let w := satAdd cumulativeWeight (T.weight task.call)
  -- account data for the inner call's origin
  let w := if T.isSigned task.origin then satAdd w (T.readsWrites 1 1) else w
  -- remove or modify the lookup
  let w := if task.maybeId.isSome then satAdd w (T.readsWrites 0 1) else w
  -- read and write the agenda of a future block
  if task.maybePeriodic.isSome then satAdd w (T.readsWrites 1 1) else w

def scan (order cumulativeWeight : Nat) :
    List (Nat × Scheduled Id Call Origin) → List (Item Id Call Origin)
  | [] => []
  | (index, task) :: rest =>
    let w := addWeight T cumulativeWeight task
    ⟨order, index, w, task⟩ :: scan (order + 1) w rest

variable (now : Nat) (calls : Nat → List (Op Id Call Origin)) (s : State Id Call Origin)
  (item : Item Id Call Origin)

/-- It has a hard deadline, it does not push the weight past the limit, or it is the first one. -/
def Item.Runs : Prop :=
  item.task.priority ≤ hardDeadline ∨ item.cumulativeWeight ≤ T.maximumWeight ∨ item.order = 0

instance (item : Item Id Call Origin) : Decidable (item.Runs T) := by
  unfold Item.Runs
  infer_instance

/-- A periodic task is scheduled again; a named one is found at its new place, or no longer. -/
def afterDispatch (now : Nat) (task : Scheduled Id Call Origin) (s : State Id Call Origin) :
    Option (State Id Call Origin) :=
  match task.maybePeriodic with
  | some (period, count) =>
    if now + period ≤ T.maxBlock then
      let again : Scheduled Id Call Origin :=
        { task with maybePeriodic := if 1 < count then some (period, count - 1) else none }
      let next := now + period
      let s := match task.maybeId with
        | some id => { s with lookup := s.lookup.insert id (next, (s.agendaOf next).length) }
        | none => s
      some (s.append next again)
    else none
  | none =>
    match task.maybeId with
    | some id => some { s with lookup := s.lookup.erase id }
    | none => some s

/-- It is dispatched, which makes the given scheduler calls, or postponed to the next block. -/
def processItem : Option (State Id Call Origin) :=
  if item.Runs T then
    afterDispatch T now item.task ((calls item.order).foldl (fun s op => op.perform T.maxBlock s) s)
  else if now + 1 ≤ T.maxBlock then some (s.append (now + 1) item.task)
  else none

def items (agenda : List (Option (Scheduled Id Call Origin))) : List (Item Id Call Origin) :=
  scan T 0 (T.readsWrites 1 2) (sortByPriority (queued agenda))

/-- The weight used and the state. The task with an order makes `calls order` when it is dispatched.
-/
def onInitialize : Option (Nat × State Id Call Origin) := do
  let todo := items T (s.agendaOf now)
  let s ← todo.foldlM (processItem T now calls) { s with agenda := s.agenda.erase now }
  return (((todo.filter fun item => decide (item.Runs T)).getLast?.map
    Item.cumulativeWeight).getD 0, s)

end Block

end Substrate.Scheduler
