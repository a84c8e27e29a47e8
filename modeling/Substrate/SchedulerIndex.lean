import Substrate.ReverseIndex
import Substrate.Scheduler

/-!
# The lookup as an index of the agenda

The lookup is a reverse index of the agenda. While a block is being processed, its agenda is already
taken, and the names of the tasks that are still to come are looked up at their old addresses; the
invariant counts them as being there.
-/

namespace Substrate.Scheduler

open Exec Function FinMap List Option

variable {Id Call Origin : Type}

/-! ## Tasks by address -/

section Tasks

variable (now : Nat) (queue : List (Nat × Scheduled Id Call Origin)) (s : State Id Call Origin)
  (address : Nat × Nat)

def taskAt : Option (Scheduled Id Call Origin) :=
  ((s.agendaOf address.1)[address.2]?).join

def pendingAt : Option (Scheduled Id Call Origin) :=
  if address.1 = now then queue.lookup address.2 else none

def nameAt : Option Id :=
  ((taskAt s address).or (pendingAt now queue address)).bind Scheduled.maybeId

variable (when : Nat) (task : Scheduled Id Call Origin)

theorem agendaOf_append (w : Nat) : (s.append when task).agendaOf w =
      if w = when then s.agendaOf when ++ [some task] else s.agendaOf w := by
  unfold State.append State.agendaOf
  by_cases hw : w = when
  · rw [if_pos hw, hw, get?_insert, update_self, getD_some]
  · rw [if_neg hw, get?_insert, update_of_ne hw]

theorem agendaOf_clear (w : Nat) : (s.clear address).agendaOf w =
      if w = address.1 then (s.agendaOf address.1).set address.2 none else s.agendaOf w := by
  unfold State.clear State.agendaOf
  by_cases hw : w = address.1
  · rw [if_pos hw, hw, get?_insert, update_self, getD_some]
  · rw [if_neg hw, get?_insert, update_of_ne hw]

theorem lastIndex_append :
    lastIndex when (s.append when task) = (s.agendaOf when).length := by
  rw [lastIndex, agendaOf_append, if_pos rfl, length_append]
  rfl

theorem taskAt_length :
    taskAt s (when, (s.agendaOf when).length) = none := by
  unfold taskAt
  rw [getElem?_eq_none (Nat.le_refl _)]
  rfl

theorem taskAt_append : taskAt (s.append when task) =
      update (taskAt s) (when, (s.agendaOf when).length) (some task) := by
  funext ⟨w, i⟩
  unfold taskAt
  rw [agendaOf_append]
  by_cases hw : w = when
  · subst hw
    rw [if_pos rfl]
    by_cases hi : i = (s.agendaOf w).length
    · subst hi
      rw [update_self, getElem?_concat_length]
      rfl
    rw [update_of_ne fun h => hi (congrArg Prod.snd h), getElem?_append]
    split
    · rfl
    · rw [getElem?_eq_none (by simp; omega), getElem?_eq_none (by simp; omega)]
  · rw [if_neg hw, update_of_ne fun h => hw (congrArg Prod.fst h)]

theorem taskAt_clear :
    taskAt (s.clear address) = update (taskAt s) address none := by
  funext ⟨w, i⟩
  unfold taskAt
  rw [agendaOf_clear]
  obtain ⟨when, index⟩ := address
  by_cases hw : w = when
  · subst hw
    rw [if_pos rfl]
    by_cases hi : i = index
    · subst hi
      rw [update_self, getElem?_set_self']
      cases (s.agendaOf w)[i]? <;> rfl
    · rw [update_of_ne fun h => hi (congrArg Prod.snd h), getElem?_set_ne (Ne.symm hi)]
  · rw [if_neg hw, update_of_ne fun h => hw (congrArg Prod.fst h)]

end Tasks

/-! ## The invariant -/

/-- The tasks of `queue` are being processed: they are out of the agenda of the block. No period is
zero, so no task comes back to that agenda. -/
structure Matches (now : Nat) (queue : List (Nat × Scheduled Id Call Origin))
    (s : State Id Call Origin) : Prop where
  block : s.blockNumber = now
  inverts : Inverts s.lookup.get? (nameAt now queue s)
  vacant : queue ≠ [] → ∀ i, taskAt s (now, i) = none
  nodup : (queue.map Prod.fst).Nodup
  period_pos : ∀ {a t p}, taskAt s a = some t → t.maybePeriodic = some p → p.1 ≠ 0
  queue_period_pos : ∀ {e p}, e ∈ queue → e.2.maybePeriodic = some p → p.1 ≠ 0

variable {address : Nat × Nat} {id : Id}

section Invariant

variable {now : Nat} {queue : List (Nat × Scheduled Id Call Origin)} {s : State Id Call Origin}
  {when : Nat} {t : Scheduled Id Call Origin} {a : Nat × Nat}

theorem pendingAt_of_ne (h : when ≠ now) (i : Nat) :
    pendingAt now queue (when, i) = none := if_neg h

theorem pendingAt_nil (address : Nat × Nat) :
    pendingAt now ([] : List (Nat × Scheduled Id Call Origin)) address = none := by
  unfold pendingAt
  split <;> rfl

variable {task : Scheduled Id Call Origin}

theorem Matches.pendingAt_eq_none (h : Matches now queue s) (htask : taskAt s address = some task) :
    pendingAt now queue address = none := by
  obtain ⟨when, index⟩ := address
  by_cases hq : queue = []
  · subst hq
    exact pendingAt_nil _
  · refine pendingAt_of_ne (fun hwhen => ?_) index
    rw [hwhen, h.vacant hq index] at htask
    cases htask

theorem mem_of_lookup {i : Nat} (h : queue.lookup i = some task) : (i, task) ∈ queue := by
  obtain ⟨before, after, rfl, -⟩ := lookup_eq_some_iff.mp h
  exact mem_append_right _ mem_cons_self

theorem lookup_eq_some_iff_mem (hnodup : (queue.map Prod.fst).Nodup) {i : Nat} :
    queue.lookup i = some task ↔ (i, task) ∈ queue := by
  refine ⟨mem_of_lookup, fun hmem => ?_⟩
  cases hlookup : queue.lookup i with
  | none => exact absurd rfl (bne_iff_ne.mp (lookup_eq_none_iff.mp hlookup _ hmem))
  | some t =>
    have heq := inj_on_of_nodup_map hnodup (mem_of_lookup hlookup) hmem rfl
    exact congrArg some (congrArg Prod.snd heq)

theorem nameAt_of_task (htask : taskAt s address = some task) :
    nameAt now queue s address = task.maybeId := by
  rw [nameAt, htask]
  rfl

theorem nameAt_length (hwhen : when ≠ now) :
    nameAt now queue s (when, (s.agendaOf when).length) = none := by
  rw [nameAt, taskAt_length, pendingAt_of_ne hwhen]
  rfl

theorem nameAt_append (when : Nat) (task : Scheduled Id Call Origin) :
    nameAt now queue (s.append when task) =
      update (nameAt now queue s) (when, (s.agendaOf when).length) task.maybeId := by
  funext a
  unfold nameAt
  rw [taskAt_append]
  by_cases ha : a = (when, (s.agendaOf when).length)
  · subst ha
    rw [update_self, update_self]
    rfl
  · rw [update_of_ne ha, update_of_ne ha]

theorem nameAt_clear (hpending : pendingAt now queue address = none) :
    nameAt now queue (s.clear address) = update (nameAt now queue s) address none := by
  funext a
  unfold nameAt
  rw [taskAt_clear]
  by_cases ha : a = address
  · subst ha
    rw [update_self, update_self, hpending]
    rfl
  · rw [update_of_ne ha, update_of_ne ha]

/-- Tasks that were not there before are in another block, with a period that is not zero. -/
theorem Matches.of_tasks (h : Matches now queue s) {s'} (hblock : s'.blockNumber = s.blockNumber)
    (hinverts : Inverts s'.lookup.get? (nameAt now queue s'))
    (htasks : ∀ a t, taskAt s' a = some t → taskAt s a = some t ∨
      (a.1 ≠ now ∧ ∀ p, t.maybePeriodic = some p → p.1 ≠ 0)) : Matches now queue s' where
  block := hblock.trans h.block
  inverts := hinverts
  vacant hq i := by
    cases htask : taskAt s' (now, i) with
    | none => rfl
    | some t =>
      rcases htasks _ t htask with hold | ⟨hne, -⟩
      · rw [h.vacant hq i] at hold
        cases hold
      · exact absurd rfl hne
  nodup := h.nodup
  period_pos htask hp := by
    rcases htasks _ _ htask with hold | ⟨-, hpos⟩
    · exact h.period_pos hold hp
    · exact hpos _ hp
  queue_period_pos := h.queue_period_pos

theorem taskAt_append_cases (h : taskAt (s.append when task) a = some t) :
    taskAt s a = some t ∨ (a.1 = when ∧ t = task) := by
  rw [taskAt_append] at h
  by_cases ha : a = (when, (s.agendaOf when).length)
  · rw [ha, update_self] at h
    exact .inr ⟨congrArg Prod.fst ha, (some.inj h).symm⟩
  · rw [update_of_ne ha] at h
    exact .inl h

theorem taskAt_clear_cases (h : taskAt (s.clear address) a = some t) : taskAt s a = some t := by
  rw [taskAt_clear] at h
  by_cases ha : a = address
  · rw [ha, update_self] at h
    cases h
  · rwa [update_of_ne ha] at h

variable (h : Matches now queue s)
include h

theorem Matches.append (hwhen : when ≠ now) (hid : task.maybeId = none)
    (hpos : ∀ p, task.maybePeriodic = some p → p.1 ≠ 0) :
    Matches now queue (s.append when task) := by
  refine h.of_tasks rfl ?_ fun a t ht => ?_
  · have hfree : nameAt now queue s (when, (s.agendaOf when).length) = none := nameAt_length hwhen
    rw [nameAt_append, hid, ← hfree, update_eq_self]
    exact h.inverts
  · rcases taskAt_append_cases ht with hold | ⟨ha, rfl⟩
    · exact .inl hold
    · exact .inr ⟨ha ▸ hwhen, hpos⟩

theorem Matches.clear (hfree : ∀ task, taskAt s address = some task → task.maybeId = none) :
    Matches now queue (s.clear address) := by
  refine h.of_tasks rfl ?_ fun a t ht => .inl (taskAt_clear_cases ht)
  cases htask : taskAt s address with
  | none =>
    have hsame : nameAt now queue (s.clear address) = nameAt now queue s := by
      funext a
      unfold nameAt
      rw [taskAt_clear, ← htask, update_eq_self]
    rw [hsame]
    exact h.inverts
  | some task =>
    have hname : nameAt now queue s address = none := by
      rw [nameAt_of_task htask, hfree task htask]
    rw [nameAt_clear (h.pendingAt_eq_none htask), ← hname, update_eq_self]
    exact h.inverts

variable [DecidableEq Id]

theorem Matches.appendNamed (hwhen : when ≠ now)
    (hid : task.maybeId = some id) (hnew : s.lookup.get? id = none)
    (hpos : ∀ p, task.maybePeriodic = some p → p.1 ≠ 0) :
    Matches now queue
      { s.append when task with lookup := s.lookup.insert id (when, (s.agendaOf when).length) } := by
  refine h.of_tasks rfl ?_ fun a t ht => ?_
  · change Inverts (s.lookup.insert id _).get? (nameAt now queue (s.append when task))
    rw [nameAt_append, hid]
    exact h.inverts.place hnew (nameAt_length hwhen)
  · rcases taskAt_append_cases ht with hold | ⟨ha, rfl⟩
    · exact .inl hold
    · exact .inr ⟨ha ▸ hwhen, hpos⟩

theorem Matches.remove (htask : taskAt s address = some task) (hid : task.maybeId = some id) :
    Matches now queue { s.clear address with lookup := s.lookup.erase id } := by
  refine h.of_tasks rfl ?_ fun a t ht => .inl (taskAt_clear_cases ht)
  change Inverts (s.lookup.erase id).get? (nameAt now queue (s.clear address))
  rw [nameAt_clear (h.pendingAt_eq_none htask)]
  exact h.inverts.remove ((nameAt_of_task htask).trans hid)

section Move

variable {address : Nat × Nat} {task : Scheduled Id Call Origin} {newTime : Nat}
  (htask : taskAt s address = some task)
include htask

section

omit [DecidableEq Id]

theorem Matches.nameAt_move (hne : newTime ≠ address.1) :
    nameAt now queue ((s.append newTime task).clear address) =
      update (update (nameAt now queue s) address none)
        (newTime, (s.agendaOf newTime).length) task.maybeId := by
  have hdiff : (newTime, (s.agendaOf newTime).length) ≠ address := fun heq =>
    hne (congrArg Prod.fst heq)
  rw [nameAt_clear (h.pendingAt_eq_none htask), nameAt_append, update_comm hdiff]

theorem Matches.move_tasks (hnew : newTime ≠ now)
    (ht : taskAt ((s.append newTime task).clear address) a = some t) :
    taskAt s a = some t ∨ (a.1 ≠ now ∧ ∀ p, t.maybePeriodic = some p → p.1 ≠ 0) := by
  rcases taskAt_append_cases (taskAt_clear_cases ht) with hold | ⟨ha, rfl⟩
  · exact .inl hold
  · exact .inr ⟨ha ▸ hnew, fun p hp => h.period_pos htask hp⟩

end

omit [DecidableEq Id] in
theorem Matches.move (hid : task.maybeId = none) (hne : newTime ≠ address.1)
    (hnew : newTime ≠ now) :
    Matches now queue ((s.append newTime task).clear address) := by
  refine h.of_tasks rfl ?_ fun a t => h.move_tasks htask hnew
  have hname : nameAt now queue s address = none := (nameAt_of_task htask).trans hid
  have hfree : nameAt now queue s (newTime, (s.agendaOf newTime).length) = none :=
    nameAt_length hnew
  rw [h.nameAt_move htask hne, hid, ← hname, update_eq_self, hname, ← hfree, update_eq_self]
  exact h.inverts

theorem Matches.moveNamed (hid : task.maybeId = some id) (hne : newTime ≠ address.1)
    (hnew : newTime ≠ now) :
    Matches now queue { (s.append newTime task).clear address with
        lookup := s.lookup.insert id (newTime, (s.agendaOf newTime).length) } := by
  refine h.of_tasks rfl ?_ fun a t => h.move_tasks htask hnew
  change Inverts (s.lookup.insert id _).get?
    (nameAt now queue ((s.append newTime task).clear address))
  rw [h.nameAt_move htask hne, hid]
  exact h.inverts.move ((nameAt_of_task htask).trans hid) (nameAt_length hnew)

end Move

end Invariant

/-! ## Calls -/

section Calls

variable [DecidableEq Id]
  {now : Nat} {queue : List (Nat × Scheduled Id Call Origin)} {s : State Id Call Origin}
  {maybePeriodic : Option (Nat × Nat)} {origin : Option Origin}
  {maxBlock : Nat} {when newTime : DispatchTime}

omit [DecidableEq Id] in
theorem post_resolveTime : Post (resolveTime maxBlock when) s (fun w s' => s' = s ∧ s.blockNumber < w)
      (fun _ s' => s' = s) := by
  unfold resolveTime
  simp only [post_bind, post_read, post_ensure, post_pure]
  exact ⟨fun hlt => ⟨trivial, hlt⟩, fun _ => trivial⟩

theorem sanitize_pos {p} (h : sanitize maybePeriodic = some p) : p.1 ≠ 0 := by
  obtain ⟨q, hq, rfl⟩ := map_eq_some_iff.mp h
  exact (of_decide_eq_true (filter_eq_some_iff.mp hq).2).2

variable [DecidableEq Origin]

omit [DecidableEq Id] in
theorem post_takeTask : Post (takeTask origin address) s
      (fun r s' => r = taskAt s address ∧ s' = s.clear address) (fun _ s' => s' = s) := by
  unfold takeTask
  rw [post_bind, post_read]
  split
  · next hnone => exact ⟨hnone.symm, rfl⟩
  · rename_i task htask
    rw [post_bind, post_ensure]
    exact ⟨fun _ => ⟨htask.symm, rfl⟩, fun _ => rfl⟩

omit [DecidableEq Id] [DecidableEq Origin] in
theorem post_moveTask {newTime : Nat} : Post (moveTask address newTime) s
      (fun _ s' => ∃ task, taskAt s address = some task ∧
        s' = (s.append newTime task).clear address)
      (fun _ s' => s' = s) := by
  unfold moveTask
  simp only [post_bind, post_read, post_okOr, post_modify]
  exact ⟨fun task htask => ⟨task, htask, rfl⟩, fun _ => trivial⟩

/-- It does not reschedule a named task by its address, and does not cancel the name of a task that
is being processed. -/
def Op.Keeps (queue : List (Nat × Scheduled Id Call Origin)) (s : State Id Call Origin) :
    Op Id Call Origin → Prop
  | reschedule address _ => ∀ task, taskAt s address = some task → task.maybeId = none
  | cancelNamed _ id => ∀ e ∈ queue, e.2.maybeId ≠ some id
  | _ => True

variable (h : Matches now queue s)
include h

section

omit [DecidableEq Id] [DecidableEq Origin]

theorem Matches.resolveTime {α : Type}
    {f : Nat → Exec (State Id Call Origin) Error α}
    (hf : ∀ w, now < w → Post (f w) s (fun _ => Matches now queue) (fun _ => Matches now queue)) :
    Post (resolveTime maxBlock when >>= f) s (fun _ => Matches now queue) (fun _ => Matches now queue) := by
  rw [post_bind]
  refine post_resolveTime.mono ?_ fun _ _ he => he ▸ h
  rintro w _ ⟨rfl, hlt⟩
  exact hf w (h.block ▸ hlt)

theorem matches_doSchedule {priority : Nat} {origin : Origin}
    {call : Call} : Post (doSchedule maxBlock when maybePeriodic priority origin call) s
      (fun _ => Matches now queue) (fun _ => Matches now queue) := by
  refine h.resolveTime fun w hlt => ?_
  exact h.append (Nat.ne_of_gt hlt) rfl fun p hp => sanitize_pos hp

end

omit [DecidableEq Origin] in
theorem matches_doScheduleNamed {priority : Nat} {origin : Origin}
    {call : Call} : Post (doScheduleNamed maxBlock id when maybePeriodic priority origin call) s
      (fun _ => Matches now queue) (fun _ => Matches now queue) := by
  unfold doScheduleNamed
  rw [post_bind, post_read, post_bind, post_ensure]
  refine ⟨fun hknown => h.resolveTime fun w hlt => ?_, fun _ => h⟩
  simp only [post_bind, post_modify, post_read, post_pure, lastIndex_append]
  exact h.appendNamed (Nat.ne_of_gt hlt) rfl (contains_eq_false.mp hknown)
    fun p hp => sanitize_pos hp

theorem matches_doCancel : Post (doCancel origin address) s
      (fun _ => Matches now queue) (fun _ => Matches now queue) := by
  unfold doCancel
  rw [post_bind]
  refine post_takeTask.mono ?_ fun _ _ he => he ▸ h
  rintro _ _ ⟨rfl, rfl⟩
  split
  · next hnone => exact h.clear fun task htask => nomatch hnone.symm.trans htask
  rename_i task htask
  split
  · next id hid => exact h.remove htask hid
  rename_i hid
  refine h.clear fun t ht => ?_
  rw [htask] at ht
  exact some.inj ht ▸ hid

theorem matches_doCancelNamed (hkeeps : ∀ e ∈ queue, e.2.maybeId ≠ some id) :
    Post (doCancelNamed origin id) s (fun _ => Matches now queue) (fun _ => Matches now queue) := by
  unfold doCancelNamed
  rw [post_bind, post_read, post_bind, post_okOr]
  refine ⟨fun address hlookup => ?_, fun _ => h⟩
  rw [post_bind]
  refine post_takeTask.mono ?_ fun _ _ he => he ▸ h
  rintro _ _ ⟨rfl, rfl⟩
  have hname := (h.inverts id address).mp hlookup
  cases htask : taskAt s address with
  | some task =>
    rw [nameAt_of_task htask] at hname
    exact h.remove htask hname
  | none =>
    -- the name would be of a task that is being processed
    rw [nameAt, htask] at hname
    obtain ⟨task, hpending, hid⟩ := bind_eq_some_iff.mp hname
    unfold pendingAt at hpending
    split at hpending
    · exact absurd hid (hkeeps _ (mem_of_lookup hpending))
    · cases hpending

omit [DecidableEq Id] [DecidableEq Origin] in
theorem matches_doReschedule (hkeeps : ∀ task, taskAt s address = some task → task.maybeId = none) :
    Post (doReschedule maxBlock address newTime) s (fun _ => Matches now queue)
      (fun _ => Matches now queue) := by
  refine h.resolveTime fun w hlt => ?_
  rw [post_bind, post_ensure]
  refine ⟨fun hne => ?_, fun _ => h⟩
  rw [post_bind]
  refine post_moveTask.mono ?_ fun _ _ he => he ▸ h
  rintro _ _ ⟨task, htask, rfl⟩
  exact h.move htask (hkeeps task htask) hne (Nat.ne_of_gt hlt)

omit [DecidableEq Origin] in
theorem matches_doRescheduleNamed : Post (doRescheduleNamed maxBlock id newTime) s
      (fun _ => Matches now queue) (fun _ => Matches now queue) := by
  refine h.resolveTime fun w hlt => ?_
  rw [post_bind, post_read, post_bind, post_okOr]
  refine ⟨fun address hlookup => ?_, fun _ => h⟩
  rw [post_bind, post_ensure]
  refine ⟨fun hne => ?_, fun _ => h⟩
  rw [post_bind]
  refine post_moveTask.mono ?_ fun _ _ he => he ▸ h
  rintro _ _ ⟨task, htask, rfl⟩
  have hname := (h.inverts id address).mp hlookup
  rw [nameAt_of_task htask] at hname
  have hindex : lastIndex w ((s.append w task).clear address) = (s.agendaOf w).length := by
    rw [← lastIndex_append s w task, lastIndex, agendaOf_clear, if_neg hne]
    rfl
  simp only [post_bind, post_read, post_modify, post_pure, hindex]
  exact h.moveNamed htask hname hne (Nat.ne_of_gt hlt)

theorem Matches.perform {op : Op Id Call Origin}
    (hkeeps : op.Keeps queue s) : Matches now queue (op.perform maxBlock s) := by
  have hpost : Post (op.run maxBlock) s (fun _ => Matches now queue) (fun _ => Matches now queue) := by
    cases op with
    | schedule when maybePeriodic priority origin call =>
      rw [Op.run, post_map]
      exact matches_doSchedule h
    | cancel origin address => exact matches_doCancel h
    | reschedule address newTime =>
      rw [Op.run, post_map]
      exact matches_doReschedule h hkeeps
    | scheduleNamed id when maybePeriodic priority origin call =>
      rw [Op.run, post_map]
      exact matches_doScheduleNamed h
    | cancelNamed origin id => exact matches_doCancelNamed h hkeeps
    | rescheduleNamed id newTime =>
      rw [Op.run, post_map]
      exact matches_doRescheduleNamed h
  unfold Op.perform
  unfold Post at hpost
  generalize op.run maxBlock s = res at hpost ⊢
  rcases res with ⟨_ | e | _, s'⟩
  · exact hpost
  · exact hpost
  · exact h

end Calls

end Substrate.Scheduler
