import Substrate.SchedulerIndex

/-!
# The lookup of the scheduler

Runs of calls and blocks. Every path that moves a task repairs the lookup, but two do not: a task
that is postponed because of its weight, and one that is rescheduled by its address. For named tasks
these break the index. A call that is dispatched can also cancel the name of a task of the same
block, which is no longer in the agenda.
-/

namespace Substrate.Scheduler

open Function List Option FinMap

variable {Id Call Origin : Type}

/-! ## The loop of a block -/

section Loop

variable [DecidableEq Id]
  {now i : Nat} {queue : List (Nat × Scheduled Id Call Origin)} {s : State Id Call Origin}
  {task : Scheduled Id Call Origin}

section

variable (h : Matches now ((i, task) :: queue) s)
include h

section

omit [DecidableEq Id]

theorem Matches.nameAt_head : nameAt now ((i, task) :: queue) s (now, i) = task.maybeId := by
  rw [nameAt, h.vacant (cons_ne_nil _ _), pendingAt, if_pos rfl, lookup_cons_self]
  rfl

theorem Matches.nameAt_tail :
    nameAt now queue s = update (nameAt now ((i, task) :: queue) s) (now, i) none := by
  funext ⟨w, j⟩
  by_cases hw : w = now
  · subst hw
    by_cases hj : j = i
    · subst hj
      have hnone : queue.lookup j = none := by
        refine lookup_eq_none_iff.mpr fun e he => bne_iff_ne.mpr fun heq => ?_
        exact (nodup_cons.mp h.nodup).1 (mem_map.mpr ⟨e, he, heq.symm⟩)
      rw [update_self, nameAt, h.vacant (cons_ne_nil _ _), pendingAt, if_pos rfl, hnone]
      rfl
    · rw [update_of_ne fun heq => hj (congrArg Prod.snd heq), nameAt, nameAt, pendingAt,
        pendingAt, if_pos rfl, if_pos rfl, lookup_cons, beq_eq_false_iff_ne.mpr hj]
  · rw [update_of_ne fun heq => hw (congrArg Prod.fst heq), nameAt, nameAt,
      pendingAt_of_ne hw, pendingAt_of_ne hw]

theorem Matches.tail_of_inverts {s'} (hblock : s'.blockNumber = s.blockNumber)
    (hagenda : s'.agenda = s.agenda)
    (hinverts : Inverts s'.lookup.get? (nameAt now queue s)) : Matches now queue s' := by
  have htasks : taskAt s' = taskAt s := by
    funext a
    unfold taskAt State.agendaOf
    rw [hagenda]
  have hnames : nameAt now queue s' = nameAt now queue s := by
    funext a
    unfold nameAt
    rw [htasks]
  exact {
    block := hblock.trans h.block
    inverts := hnames ▸ hinverts
    vacant := fun _ j => by rw [htasks]; exact h.vacant (cons_ne_nil _ _) j
    nodup := (nodup_cons.mp h.nodup).2
    period_pos := fun ht => h.period_pos (htasks ▸ ht)
    queue_period_pos := fun he => h.queue_period_pos (mem_cons_of_mem _ he) }

end

omit [DecidableEq Id] in
theorem Matches.tail (hid : task.maybeId = none) : Matches now queue s := by
  refine h.tail_of_inverts rfl rfl ?_
  rw [h.nameAt_tail, ← hid, ← h.nameAt_head, update_eq_self]
  exact h.inverts

theorem Matches.tail_erase {id : Id} (hid : task.maybeId = some id) :
    Matches now queue { s with lookup := s.lookup.erase id } := by
  refine h.tail_of_inverts rfl rfl ?_
  rw [h.nameAt_tail]
  exact h.inverts.remove (h.nameAt_head.trans hid)

end

theorem again_period {period count : Nat} {p}
    (h : (if 1 < count then some (period, count - 1) else none) = some p) : p.1 = period := by
  split at h
  · exact (congrArg Prod.fst (some.inj h)).symm
  · cases h

theorem Matches.afterDispatch {T : Config Call Origin} {s' : State Id Call Origin}
    (h : Matches now ((i, task) :: queue) s) (hafter : afterDispatch T now task s = some s') :
    Matches now queue s' := by
  unfold Scheduler.afterDispatch at hafter
  split at hafter
  · rename_i period count hperiodic
    obtain ⟨-, hafter⟩ := ite_none_right_eq_some.mp hafter
    obtain rfl := some.inj hafter
    have hperiod : period ≠ 0 := h.queue_period_pos mem_cons_self hperiodic
    have hnext : now + period ≠ now := by omega
    split
    · rename_i id hid
      -- the name leaves the queue and is placed in the agenda of the next block
      generalize hagain : { task with
          maybePeriodic := if 1 < count then some (period, count - 1) else none } = again
      have hid' : again.maybeId = some id := hagain ▸ hid
      have hpos : ∀ p, again.maybePeriodic = some p → p.1 ≠ 0 := by
        subst hagain
        exact fun p hp => again_period hp ▸ hperiod
      have hplaced := (h.tail_erase hid).appendNamed hnext hid'
        (by rw [get?_erase, update_self]) hpos
      refine hplaced.of_tasks rfl ?_ fun a t ht => .inl ht
      have hinverts := hplaced.inverts
      rw [get?_insert, get?_erase, update_idem] at hinverts
      change Inverts (s.lookup.insert id _).get? _
      rw [get?_insert]
      exact hinverts
    · next hid => exact (h.tail hid).append hnext hid fun p hp => again_period hp ▸ hperiod
  · split at hafter
    · next id hid => exact some.inj hafter ▸ h.tail_erase hid
    · next hid => exact some.inj hafter ▸ h.tail hid

end Loop

/-! ## Taking the agenda -/

section Taking

def queueOf (todo : List (Item Id Call Origin)) : List (Nat × Scheduled Id Call Origin) :=
  todo.map fun item => (item.index, item.task)

theorem queueOf_scan (T : Config Call Origin) (tasks : List (Nat × Scheduled Id Call Origin))
    (order weight : Nat) : queueOf (scan T order weight tasks) = tasks := by
  induction tasks generalizing order weight with
  | nil => rfl
  | cons e rest ih =>
    obtain ⟨index, task⟩ := e
    rw [scan]
    exact congrArg ((index, task) :: ·) (ih _ _)

theorem queueOf_items (T : Config Call Origin) (agenda : List (Option (Scheduled Id Call Origin))) :
    (queueOf (items T agenda)).Perm (queued agenda) := by
  rw [items, queueOf_scan]
  exact perm_insertionSort _ _

theorem mem_queued {agenda : List (Option (Scheduled Id Call Origin))} {i : Nat}
    {task : Scheduled Id Call Origin} :
    (i, task) ∈ queued agenda ↔ agenda[i]? = some (some task) := by
  unfold queued
  rw [mem_filterMap]
  constructor
  · rintro ⟨⟨t, j⟩, hmem, hsome⟩
    obtain ⟨t', rfl, heq⟩ := map_eq_some_iff.mp hsome
    obtain ⟨rfl, rfl⟩ := Prod.mk.inj heq
    exact mem_zipIdx_iff_getElem?.mp hmem
  · intro h
    exact ⟨(some task, i), mem_zipIdx_iff_getElem?.mpr h, rfl⟩

theorem indices_sublist (tasks : List (Option (Scheduled Id Call Origin) × Nat)) :
    ((tasks.filterMap fun (task, index) => task.map fun task => (index, task)).map
      Prod.fst).Sublist (tasks.map Prod.snd) := by
  induction tasks with
  | nil => exact .slnil
  | cons e rest ih =>
    obtain ⟨task, index⟩ := e
    cases task with
    | none => exact ih.cons index
    | some task => exact ih.cons_cons index

theorem nodup_queued (agenda : List (Option (Scheduled Id Call Origin))) :
    ((queued agenda).map Prod.fst).Nodup := by
  refine List.Nodup.sublist (indices_sublist agenda.zipIdx) ?_
  rw [zipIdx_map_snd]
  exact nodup_range'

variable {T : Config Call Origin} {s : State Id Call Origin}

theorem Matches.take {before : Nat} (h : Matches before [] s) (now : Nat) :
    Matches now (queueOf (items T (s.agendaOf now)))
      { s with blockNumber := now, agenda := s.agenda.erase now } := by
  have hperm := queueOf_items T (s.agendaOf now)
  have hnodup : ((queueOf (items T (s.agendaOf now))).map Prod.fst).Nodup :=
    (hperm.map Prod.fst).nodup_iff.mpr (nodup_queued _)
  have hlookup : ∀ i, (queueOf (items T (s.agendaOf now))).lookup i = taskAt s (now, i) := by
    intro i
    refine ext fun task => ?_
    rw [lookup_eq_some_iff_mem hnodup, hperm.mem_iff, mem_queued, taskAt, join_eq_some_iff]
  have htasks : ∀ w i, taskAt { s with blockNumber := now, agenda := s.agenda.erase now } (w, i) =
      if w = now then none else taskAt s (w, i) := by
    intro w i
    unfold taskAt State.agendaOf
    rw [get?_erase]
    by_cases hw : w = now
    · rw [if_pos hw, hw, update_self]
      rfl
    · rw [if_neg hw, update_of_ne hw]
  have hnames : nameAt now (queueOf (items T (s.agendaOf now)))
      { s with blockNumber := now, agenda := s.agenda.erase now } = nameAt before [] s := by
    funext ⟨w, i⟩
    unfold nameAt
    rw [htasks, pendingAt_nil, or_none]
    by_cases hw : w = now
    · subst hw
      rw [if_pos rfl, none_or, pendingAt, if_pos rfl, hlookup]
    · rw [if_neg hw, pendingAt_of_ne hw, or_none]
  refine ⟨rfl, ?_, fun _ i => ?_, hnodup, fun {a t p} ht hp => ?_, fun {e p} he hp => ?_⟩
  · rw [hnames]
    exact h.inverts
  · rw [htasks, if_pos rfl]
  · obtain ⟨w, i⟩ := a
    rw [htasks] at ht
    split at ht
    · cases ht
    · exact h.period_pos ht hp
  · have hmem := (lookup_eq_some_iff_mem hnodup).mpr he
    rw [hlookup] at hmem
    exact h.period_pos hmem hp

end Taking

/-! ## Runs -/

section Runs

variable [DecidableEq Id] [DecidableEq Origin] {T : Config Call Origin} {s : State Id Call Origin}

def OpsKeep (maxBlock : Nat) (queue : List (Nat × Scheduled Id Call Origin)) :
    List (Op Id Call Origin) → State Id Call Origin → Prop
  | [], _ => True
  | op :: ops, s => op.Keeps queue s ∧ OpsKeep maxBlock queue ops (op.perform maxBlock s)

/-- No named task is postponed, and the calls that are made leave the lookup right. -/
def ItemsKeep (T : Config Call Origin) (now : Nat) (calls : Nat → List (Op Id Call Origin)) :
    List (Item Id Call Origin) → State Id Call Origin → Prop
  | [], _ => True
  | item :: rest, s =>
    (if item.Runs T then OpsKeep T.maxBlock (queueOf (item :: rest)) (calls item.order) s
      else item.task.maybeId = none) ∧
    ∀ s', processItem T now calls s item = some s' → ItemsKeep T now calls rest s'

section

variable (T : Config Call Origin) (calls : Nat → List (Op Id Call Origin))
  (s : State Id Call Origin)

def BlockKeeps : Prop :=
  ItemsKeep T (s.blockNumber + 1) calls (items T (s.agendaOf (s.blockNumber + 1))) { s with
      blockNumber := s.blockNumber + 1
      agenda := s.agenda.erase (s.blockNumber + 1) }

def nextBlock : Option (State Id Call Origin) :=
  (onInitialize T (s.blockNumber + 1) calls { s with blockNumber := s.blockNumber + 1 }).map Prod.snd

end

variable (T : Config Call Origin) (OpCond : Op Id Call Origin → State Id Call Origin → Prop)
  (BlockCond : (Nat → List (Op Id Call Origin)) → State Id Call Origin → Prop) in
/-- From a state without tasks. -/
inductive Run : State Id Call Origin → Prop where
  | start {s : State Id Call Origin} (hagenda : ∀ when, s.agendaOf when = [])
      (hlookup : ∀ id, s.lookup.get? id = none) : Run s
  | op {s : State Id Call Origin} {op} (hrun : Run s) (hcond : OpCond op s) :
      Run (op.perform T.maxBlock s)
  | block {s s' : State Id Call Origin} {calls : Nat → List (Op Id Call Origin)}
      (hrun : Run s) (hcond : BlockCond calls s) (hnext : nextBlock T calls s = some s') : Run s'

variable {now : Nat}

theorem Matches.performOps {maxBlock queue ops} (h : Matches now queue s)
    (hkeep : OpsKeep maxBlock queue ops s) :
    Matches now queue (ops.foldl (fun s op => op.perform maxBlock s) s) := by
  induction ops generalizing s with
  | nil => exact h
  | cons op ops ih => exact ih (h.perform hkeep.1) hkeep.2

variable {calls : Nat → List (Op Id Call Origin)} {s' : State Id Call Origin}

theorem Matches.processItem {item rest} (h : Matches now (queueOf (item :: rest)) s)
    (hkeep : if item.Runs T then OpsKeep T.maxBlock (queueOf (item :: rest)) (calls item.order) s
      else item.task.maybeId = none) (hitem : processItem T now calls s item = some s') :
    Matches now (queueOf rest) s' := by
  unfold Scheduler.processItem at hitem
  split at hitem
  · rename_i hruns
    rw [if_pos hruns] at hkeep
    exact (h.performOps hkeep).afterDispatch hitem
  rename_i hpostponed
  rw [if_neg hpostponed] at hkeep
  obtain ⟨-, hitem⟩ := ite_none_right_eq_some.mp hitem
  obtain rfl := some.inj hitem
  have hpos : ∀ p, item.task.maybePeriodic = some p → p.1 ≠ 0 := fun p hp =>
    h.queue_period_pos mem_cons_self hp
  exact (h.tail hkeep).append (Nat.succ_ne_self now) hkeep hpos

theorem Matches.processItems {todo} (h : Matches now (queueOf todo) s)
    (hkeep : ItemsKeep T now calls todo s)
    (hitems : todo.foldlM (Scheduler.processItem T now calls) s = some s') : Matches now [] s' := by
  induction todo generalizing s with
  | nil => exact some.inj hitems ▸ h
  | cons item rest ih =>
    rw [foldlM_cons] at hitems
    obtain ⟨s1, hitem, hrest⟩ := bind_eq_some_iff.mp hitems
    exact ih (h.processItem hkeep.1 hitem) (hkeep.2 s1 hitem) hrest

theorem Matches.nextBlock {before : Nat} (h : Matches before [] s) (hkeep : BlockKeeps T calls s)
    (hnext : nextBlock T calls s = some s') : Matches (s.blockNumber + 1) [] s' := by
  obtain ⟨_, hblock, rfl⟩ := map_eq_some_iff.mp hnext
  obtain ⟨s1, hitems, hs1⟩ := bind_eq_some_iff.mp hblock
  obtain rfl := some.inj hs1
  exact (h.take (s.blockNumber + 1)).processItems hkeep hitems

/-- **The lookup matches the agenda** in every state of a run in which no named task is
rescheduled by its address or postponed, and no dispatched call cancels the name of a task of its
block: a name is looked up at an address exactly if the task there has it. -/
theorem lookup_matches_agenda (hrun : Run T (fun op s => op.Keeps [] s) (BlockKeeps T) s) :
    (∀ id when index, s.lookup.get? id = some (when, index) ↔
      ∃ task, (s.agendaOf when)[index]? = some (some task) ∧ task.maybeId = some id) ∧
    ∀ id (when index when' index' : Nat) (task task' : Scheduled Id Call Origin),
      (s.agendaOf when)[index]? = some (some task) → task.maybeId = some id →
      (s.agendaOf when')[index']? = some (some task') → task'.maybeId = some id →
      when = when' ∧ index = index' := by
  have hmatches : Matches s.blockNumber [] s := by
    induction hrun with
    | @start s hagenda hlookup =>
      have hnone : ∀ a, taskAt s a = none := by
        intro a
        rw [taskAt, hagenda]
        rfl
      refine ⟨rfl, fun id a => ?_, fun hne => absurd rfl hne, .nil, fun ht => ?_,
        fun he => by cases he⟩
      · rw [hlookup, nameAt, hnone, pendingAt_nil]
        exact iff_of_false (fun hno => by cases hno) fun hno => by cases hno
      · rw [hnone] at ht
        cases ht
    | op _ hcond ih => exact (ih.perform hcond).block ▸ ih.perform hcond
    | block _ hcond hnext ih =>
      exact (ih.nextBlock hcond hnext).block ▸ ih.nextBlock hcond hnext
  have hiff : ∀ id when index, s.lookup.get? id = some (when, index) ↔
      ∃ task, (s.agendaOf when)[index]? = some (some task) ∧ task.maybeId = some id := by
    intro id when index
    rw [hmatches.inverts id (when, index), nameAt, pendingAt_nil, bind_eq_some_iff]
    simp [taskAt, join_eq_some_iff]
  refine ⟨hiff, fun id when index when' index' task task' ht hid ht' hid' => ?_⟩
  have h := (hiff id when index).mpr ⟨task, ht, hid⟩
  rw [(hiff id when' index').mpr ⟨task', ht', hid'⟩] at h
  obtain ⟨rfl, rfl⟩ := Prod.mk.inj (some.inj h)
  exact ⟨rfl, rfl⟩

end Runs

/-! ## A named task that is postponed -/

/-- Calls that are their own weight, with a limit of 10. -/
def limitTen : Config Nat Unit := ⟨2 ^ 32 - 1, 10, 0, 0, id, fun _ => false⟩

def idle : State Nat Nat Unit := ⟨.empty, .empty, 0⟩

/-- A named call of weight 8 in the next block, three times with a period of two blocks. -/
def eightNamed (id : Nat) : Op Nat Nat Unit :=
  .scheduleNamed id (.atBlock 1) (some (2, 3)) 100 () 8

theorem idle_run {OpCond BlockCond} : Run limitTen OpCond BlockCond idle :=
  .start (fun _ => rfl) fun _ => rfl

/-- A named task that is executed is found at its next time. -/
theorem executed_task_found : ∃ s,
    nextBlock limitTen (fun _ => []) ((eightNamed 7).perform limitTen.maxBlock idle) = some s ∧
      ∃ task, (s.agendaOf 3)[0]? = some (some task) ∧ task.maybeId = some 7 := by
  have hcond : BlockKeeps limitTen (fun _ => []) ((eightNamed 7).perform limitTen.maxBlock idle) :=
    ⟨trivial, fun _ _ => trivial⟩
  have hnamed : Run limitTen (fun op s => op.Keeps [] s) (BlockKeeps limitTen)
      ((eightNamed 7).perform limitTen.maxBlock idle) := .op idle_run trivial
  exact ⟨_, rfl, ((lookup_matches_agenda (.block hnamed hcond rfl)).1 7 3 0).mp rfl⟩

def twoNamed : State Nat Nat Unit :=
  (eightNamed 8).perform limitTen.maxBlock ((eightNamed 7).perform limitTen.maxBlock idle)

/-- The state after a block with two named tasks, of which one is postponed. -/
def crowded : State Nat Nat Unit := (nextBlock limitTen (fun _ => []) twoNamed).getD idle

/-- The postponed task is in the agenda of the second block and looked up in that of the first;
cancelling its name succeeds and leaves it there. -/
theorem postponed_task_lost : Run limitTen (fun _ _ => True) (fun _ _ => True) crowded ∧
      crowded.lookup.get? 8 = some (1, 1) ∧ crowded.agendaOf 1 = [] ∧
      ((crowded.agendaOf 2)[0]?.join.map Scheduled.maybeId) = some (some 8) ∧
      (doCancelNamed none 8 crowded).1 = .ok () ∧
      (((doCancelNamed none 8 crowded).2.agendaOf 2)[0]?.join.map Scheduled.maybeId) =
        some (some 8) := by
  have hnamed : Run limitTen (fun _ _ => True) (fun _ _ => True) twoNamed :=
    .op (.op idle_run trivial) trivial
  have hnext : nextBlock limitTen (fun _ => []) twoNamed = some crowded := rfl
  exact ⟨.block hnamed trivial hnext, rfl, rfl, rfl, rfl, rfl⟩

end Substrate.Scheduler
