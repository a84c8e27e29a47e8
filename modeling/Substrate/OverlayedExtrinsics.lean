import Substrate.OverlayedMapRefines

/-!
# The extrinsic indices of the overlay

Each version of a value lists the extrinsic indices passed with the writes to it, and `extrinsics`
collects them over all versions. What it should collect is kept in a journal beside the overlay: a
list of writes for each open transaction and one for what is committed. Tracking holds level by
level (`Tracks`): the versions left when some transactions are undone have the indices of the lists
left in the journal.

The exception is `modify`. It passes the index on only if it writes a new version: an existing one
that belongs to the innermost transaction, or is committed with no transaction open, is handed out
as it is, and the index is lost.
-/

namespace Substrate

open Function OverlayedMap List OverlayedEntry

namespace Extrinsics

variable {es : Extrinsics} {i ext : Nat}

theorem mem_insert : i ∈ es.insert ext ↔ i ∈ es ∨ i = ext := by
  unfold insert
  split
  · simp
  · rename_i hlast
    have hmem : ext ∈ es := mem_of_getLast? (not_not.mp hlast).symm
    refine ⟨.inl, fun h => h.elim (fun h => h) fun h => h ▸ hmem⟩

theorem mem_copyExtrinsicsInto {dest} : i ∈ es.copyExtrinsicsInto dest ↔ i ∈ es ∨ i ∈ dest := by
  unfold copyExtrinsicsInto
  induction es generalizing dest with
  | nil => simp
  | cons ext es ih =>
    rw [foldl_cons, ih, KeySet.mem_insert, mem_cons, or_left_comm, or_assoc]

end Extrinsics

variable {atExtrinsic : Option Nat} {i : Nat}

namespace OverlayedEntry

variable {V : Type}

def Recorded (vs : List (InnerValue V)) (i : Nat) : Prop := ∃ v ∈ vs, i ∈ v.extrinsics

@[simp] theorem recorded_nil : ¬Recorded ([] : List (InnerValue V)) i := by
  rintro ⟨v, hv, -⟩
  exact not_mem_nil hv

variable {vs : List (InnerValue V)} {e : OverlayedEntry V}

@[simp] theorem recorded_cons {v} : Recorded (v :: vs) i ↔ i ∈ v.extrinsics ∨ Recorded vs i := by
  simp [Recorded]

theorem mem_extrinsics : i ∈ e.extrinsics ↔ Recorded e.transactions i := by
  have hfold : ∀ (vs : List (InnerValue V)) (dest : KeySet Nat),
      i ∈ vs.foldl (fun set t => t.extrinsics.copyExtrinsicsInto set) dest ↔
        Recorded vs i ∨ i ∈ dest := by
    intro vs
    induction vs with
    | nil => simp
    | cons v vs ih =>
      intro dest
      rw [foldl_cons, ih, Extrinsics.mem_copyExtrinsicsInto, recorded_cons, or_left_comm, or_assoc]
  rw [extrinsics, hfold]
  simp [Recorded]

theorem recorded_set {value : V} {first : Bool} :
    Recorded (e.set value first atExtrinsic).transactions i ↔
      Recorded e.transactions i ∨ atExtrinsic = some i := by
  obtain ⟨ts⟩ := e
  cases first <;> cases ts <;> cases atExtrinsic <;>
    simp [set, Extrinsics.mem_insert, eq_comm, or_comm, or_assoc]

theorem recorded_assign {f : V → V} :
    Recorded (e.assign f).transactions i ↔ Recorded e.transactions i := by
  obtain ⟨_ | ⟨t, ts⟩⟩ := e <;> simp [assign]

/-- **A commit keeps the indices** of both versions. -/
theorem recorded_mergeTop : Recorded (mergeTop vs) i ↔ Recorded vs i := by
  rcases vs with _ | ⟨v, _ | ⟨w, rest⟩⟩
  · rfl
  · rfl
  · simp [mergeTop, or_left_comm, or_assoc]

end OverlayedEntry

namespace OverlayedMap

variable {K S V : Type} [DecidableEq K] {m : OverlayedMap K V}

/-! ## The journal -/

/-- The writes with an index that have not been undone, as key and index: one list for each open
transaction, innermost first, and one for what is committed. -/
abbrev Journal (K : Type) := List (List (K × Nat))

variable {key : K}

namespace Journal

variable {j : Journal K} {keys : List K} {atExtrinsic : Option Nat}

def write (j : Journal K) (keys : List K) : (atExtrinsic : Option Nat) → Journal K
  | none => j
  | some i => j.modifyHead (· ++ keys.map (·, i))

def merge : Journal K → Journal K
  | inner :: outer :: rest => (outer ++ inner) :: rest
  | j => j

/-- Closing a transaction may be refused. -/
def step (m : OverlayedMap K (Option S)) (j : Journal K) (op : Op K S) : Journal K :=
  match op, (m.step op).1 with
  | .set key _ atExtrinsic, _ => j.write [key] atExtrinsic
  | .modify key _ atExtrinsic _, _ => j.write [key] atExtrinsic
  | .clearWhere predicate atExtrinsic, _ =>
    j.write (m.changes.keys.filter (m.matching predicate)) atExtrinsic
  | .startTransaction, _ => [] :: j
  | .commitTransaction, .ok _ => j.merge
  | .rollbackTransaction, .ok _ => j.tail
  | .exitRuntime, .ok _ => j.drop (m.transactionDepth - m.numClientTransactions)
  | _, _ => j

section

omit [DecidableEq K]

theorem mem_write (hj : j ≠ []) {k : K} : (k, i) ∈ (j.write keys atExtrinsic).flatten ↔
      (k, i) ∈ j.flatten ∨ k ∈ keys ∧ atExtrinsic = some i := by
  obtain ⟨log, logs, rfl⟩ := exists_cons_of_ne_nil hj
  cases atExtrinsic with
  | none => simp [write]
  | some n => simp [write, or_left_comm, or_comm]

theorem write_cons : j.write (key :: keys) atExtrinsic =
    (j.write [key] atExtrinsic).write keys atExtrinsic := by
  cases atExtrinsic with
  | none => rfl
  | some n =>
    cases j with
    | nil => rfl
    | cons log logs => simp [write]

theorem write_nil : j.write [] atExtrinsic = j := by
  cases atExtrinsic with
  | none => rfl
  | some n =>
    cases j with
    | nil => rfl
    | cons log logs => simp [write]

end

end Journal

/-! ## Tracking -/

/-- The versions have the indices of the journal. -/
def Agrees (vs : K → List (InnerValue V)) (j : Journal K) : Prop :=
  ∀ k i, Recorded (vs k) i ↔ (k, i) ∈ j.flatten

/-- They agree, and still do when transactions are undone. -/
def Tracks : (K → List (InnerValue V)) → List (KeySet K) → Journal K → Prop
  | vs, [], [log] => Agrees vs [log]
  | vs, s :: ss, log :: logs => Agrees vs (log :: logs) ∧ Tracks (Versions.undo s vs) ss logs
  | _, _, _ => False

variable {vs : K → List (InnerValue V)} {ss : List (KeySet K)} {j : Journal K}

section

variable (h : Tracks vs ss j)
include h

theorem Tracks.ne_nil : j ≠ [] := by
  rintro rfl
  cases ss <;> exact h

theorem Tracks.agrees : Agrees vs j := by
  cases ss with
  | nil =>
    rcases j with _ | ⟨log, _ | ⟨log', logs⟩⟩
    · exact h.elim
    · exact h
    · exact h.elim
  | cons s ss =>
    cases j with
    | nil => exact h.elim
    | cons log logs => exact h.1

theorem Tracks.write {e} (htail : e.tail = if (insertDirty ss key).1 then vs key else (vs key).tail)
    (hrecorded : ∀ i, Recorded e i ↔ Recorded (vs key) i ∨ atExtrinsic = some i) :
    Tracks (update vs key e) (insertDirty ss key).2 (j.write [key] atExtrinsic) := by
  have hagrees : Agrees (update vs key e) (j.write [key] atExtrinsic) := by
    intro k i
    rw [Journal.mem_write h.ne_nil, ← h.agrees k i]
    by_cases hk : k = key
    · subst hk
      rw [update_self, hrecorded]
      simp
    · simp [hk]
  cases ss with
  | nil =>
    rcases j with _ | ⟨log, _ | ⟨log', logs⟩⟩
    · exact h.elim
    · cases atExtrinsic <;> exact hagrees
    · exact h.elim
  | cons s ss =>
    cases j with
    | nil => exact h.elim
    | cons log logs =>
      have hundo := undo_insertDirty htail
      cases atExtrinsic <;> exact ⟨hagrees, hundo ▸ h.2⟩

theorem Tracks.start : Tracks vs (KeySet.empty :: ss) ([] :: j) := by
  refine ⟨h.agrees, ?_⟩
  rw [Versions.undo_empty]
  exact h

end

omit [DecidableEq K] in
theorem Agrees.merge {log log'} {p : K → Prop} [DecidablePred p] (h : Agrees vs (log :: log' :: j)) :
    Agrees (fun k => if p k then mergeTop (vs k) else vs k) ((log' ++ log) :: j) := by
  intro k i
  have hsame : (k, i) ∈ ((log' ++ log) :: j).flatten ↔ (k, i) ∈ (log :: log' :: j).flatten := by
    simp [or_left_comm]
  rw [hsame, ← h k i]
  dsimp only
  split
  · exact recorded_mergeTop
  · rfl

/-! ## Operations -/

def Tracked (m : OverlayedMap K V) (j : Journal K) : Prop := Tracks m.versions m.dirtyKeys j

theorem Tracked.set (h : m.Tracked j) (key : K) (value : V) (atExtrinsic : Option Nat) :
    (m.set key value atExtrinsic).Tracked (j.write [key] atExtrinsic) := by
  have hversions : (m.set key value atExtrinsic).versions =
      update m.versions key (((m.changes.get? key).getD .default).set value
        (insertDirty m.dirtyKeys key).1 atExtrinsic).transactions := versionsOf_insert ..
  rw [Tracked, hversions]
  refine Tracks.write h ?_ fun i => ?_
  · rw [tail_set, transactions_getD]
  · rw [recorded_set, transactions_getD]

theorem Tracked.foldl_set (value : V) (atExtrinsic : Option Nat) (keys : List K) (h : m.Tracked j) :
    (keys.foldl (fun m key => m.set key value atExtrinsic) m).Tracked (j.write keys atExtrinsic) := by
  induction keys generalizing m j with
  | nil =>
    rw [Journal.write_nil]
    exact h
  | cons key keys ih =>
    rw [Journal.write_cons]
    exact ih (h.set key value atExtrinsic)

/-- An index that `modify` is given is recorded: a new version is written, or an earlier write to
the key, not undone since, had it. -/
def Op.Recordable (m : OverlayedMap K (Option S)) (j : Journal K) : Op K S → Prop
  | .modify key _ atExtrinsic _ =>
    m.get key = none ∨ (insertDirty m.dirtyKeys key).1 = true ∨
      ∀ i, atExtrinsic = some i → (key, i) ∈ j.flatten
  | _ => True

theorem Tracked.modify {m} (h : m.Tracked j) {init : S} {f : Option S → Option S}
    (hop : (Op.modify key init atExtrinsic f).Recordable m j) :
    (m.modify key init atExtrinsic f).Tracked (j.write [key] atExtrinsic) := by
  rcases modify_cases m key init atExtrinsic f with ⟨hne, hfirst, heq⟩ | ⟨-, heq⟩
  all_goals
    rw [Tracked, versions, heq, versionsOf_insert]
    refine Tracks.write h ?_ fun i => ?_
  · rw [tail_assign, transactions_getD, hfirst, if_neg Bool.false_ne_true]
  · -- the version is handed out as it is
    rw [recorded_assign, transactions_getD]
    refine ⟨.inl, fun hi => hi.elim (fun hi => hi) fun hi => ?_⟩
    rcases hop with hnone | hfirst' | hold
    · exact absurd (by rw [versions, versionsOf, ← get, hnone]; rfl) hne
    · rw [hfirst] at hfirst'
      cases hfirst'
    · exact (Tracks.agrees h key i).mpr (hold i hi)
  · rw [tail_assign, tail_set, transactions_getD]
  · rw [recorded_assign, recorded_set, transactions_getD]

section

variable (hwf : m.Wf) (h : m.Tracked j)
include hwf h

theorem Tracked.rollback (hclose : m.CanClose) :
    ∃ m', m.rollbackTransaction = (.ok (), m') ∧ m'.Tracked j.tail := by
  obtain ⟨dirty, rest, hds⟩ := exists_cons_of_ne_nil hclose.1
  obtain ⟨changes, heq, -, hversions⟩ := rollback_versions hwf hclose hds
  refine ⟨_, heq, ?_⟩
  rw [Tracked, hds] at h
  cases j with
  | nil => exact h.elim
  | cons log logs =>
    rw [Tracked, versions, hversions]
    exact h.2

theorem Tracked.commit (hclose : m.CanClose) :
    ∃ m', m.commitTransaction = (.ok (), m') ∧ m'.Tracked j.merge := by
  obtain ⟨dirty, rest, hds⟩ := exists_cons_of_ne_nil hclose.1
  rw [Tracked, hds] at h
  rcases rest with _ | ⟨p, ds⟩
  · obtain ⟨changes, heq, -, hversions⟩ := commit_last_versions hwf hclose hds
    refine ⟨_, heq, ?_⟩
    rcases j with _ | ⟨log, _ | ⟨log', _ | ⟨log'', logs⟩⟩⟩
    · exact h.elim
    · exact h.2.elim
    · rw [Tracked, versions, hversions]
      exact h.1.merge
    · exact h.2.elim
  obtain ⟨changes, p', heq, -, -, hversions, hundo⟩ := commit_versions hwf hclose hds
  refine ⟨_, heq, ?_⟩
  rcases j with _ | ⟨log, _ | ⟨log', logs⟩⟩
  · exact h.elim
  · exact h.2.elim
  · refine ⟨?_, ?_⟩
    · rw [versions, hversions]
      exact h.1.merge
    · change Tracks (Versions.undo p' (versionsOf changes)) ds logs
      rw [hundo]
      exact h.2.2

theorem Tracked.rollbackRuntime {fuel : Nat} (hfuel : m.transactionDepth ≤ fuel) :
    (rollbackRuntime fuel m).2.Tracked (j.drop (m.transactionDepth - m.numClientTransactions)) := by
  induction fuel generalizing m j with
  | zero =>
    rw [Nat.le_zero.mp hfuel, Nat.zero_sub]
    exact h
  | succ fuel ih =>
    rw [rollbackRuntime]
    cases hopen : m.hasOpenRuntimeTransactions with
    | false =>
      have hle : m.transactionDepth ≤ m.numClientTransactions := by
        simpa [hasOpenRuntimeTransactions] using hopen
      rw [Nat.sub_eq_zero_of_le hle]
      exact h
    | true =>
      have hlt : m.numClientTransactions < m.transactionDepth := by
        simpa [hasOpenRuntimeTransactions] using hopen
      obtain ⟨m1, heq, hwf1, hlevels1, hnum1, -⟩ := rollback_spec hwf (canClose_of_open hopen)
      obtain ⟨m2, heq2, htracked⟩ := h.rollback hwf (canClose_of_open hopen)
      obtain rfl := (Prod.mk.inj (heq.symm.trans heq2)).2
      have hdepth : m1.transactionDepth + 1 = m.transactionDepth := by
        have := congrArg length hlevels1
        simp only [length_levels, length_tail] at this
        omega
      have hdrop := ih hwf1 htracked (by omega)
      rw [hnum1, drop_tail] at hdrop
      have hcount : m1.transactionDepth - m.numClientTransactions + 1 =
          m.transactionDepth - m.numClientTransactions := by omega
      rw [hcount] at hdrop
      simp only [if_true, heq]
      exact hdrop

end

/-- **Every operation keeps track**, if it is recordable. -/
theorem Tracked.step {m} (hwf : m.Wf) (h : m.Tracked j) {op : Op K S} (hop : op.Recordable m j) :
    (m.step op).2.Tracked (j.step m op) := by
  cases op with
  | set key value atExtrinsic => exact h.set key value atExtrinsic
  | modify key init atExtrinsic f => exact h.modify hop
  | clearWhere predicate atExtrinsic => exact h.foldl_set none atExtrinsic _
  | startTransaction => exact Tracks.start h
  | commitTransaction =>
    by_cases hclose : m.CanClose
    · obtain ⟨m', heq, htracked⟩ := h.commit hwf hclose
      simp only [Journal.step, OverlayedMap.step, heq]
      exact htracked
    · have hrefused := closeTransaction_refused hclose false
      simp only [Journal.step, OverlayedMap.step, commitTransaction, hrefused]
      exact h
  | rollbackTransaction =>
    by_cases hclose : m.CanClose
    · obtain ⟨m', heq, htracked⟩ := h.rollback hwf hclose
      simp only [Journal.step, OverlayedMap.step, heq]
      exact htracked
    · have hrefused := closeTransaction_refused hclose true
      simp only [Journal.step, OverlayedMap.step, rollbackTransaction, hrefused]
      exact h
  | enterRuntime =>
    cases hmode : m.executionMode <;>
      simp only [Journal.step, OverlayedMap.step, enterRuntime, hmode] <;> exact h
  | exitRuntime =>
    cases hmode : m.executionMode with
    | client =>
      simp only [Journal.step, OverlayedMap.step, exitRuntime, hmode]
      exact h
    | runtime =>
      obtain ⟨m', heq, -⟩ := exitRuntime_spec hwf hmode
      simp only [Journal.step, OverlayedMap.step, heq]
      have hdrop := rollbackRuntime (m := { m with executionMode := .client })
        ⟨hwf.nonempty, hwf.nested⟩ h (Nat.le_refl _)
      have hloop : OverlayedMap.rollbackRuntime m.transactionDepth
          { m with executionMode := .client } = (.ok (), m') := by
        rw [← heq, exitRuntime, hmode]
      rw [show m' = _ from (congrArg Prod.snd hloop).symm]
      exact hdrop

/-! ## Runs -/

inductive Run (Cond : OverlayedMap K (Option S) → Journal K → Op K S → Prop) :
    OverlayedMap K (Option S) → Journal K → Prop
  | start : Run Cond default [[]]
  | step {m : OverlayedMap K (Option S)} {j} (op : Op K S) (hrun : Run Cond m j)
      (hcond : Cond m j op) : Run Cond (m.step op).2 (j.step m op)

theorem Run.tracked {m : OverlayedMap K (Option S)}
    (h : Run (fun m j op => Op.Recordable m j op) m j) : m.Wf ∧ m.Tracked j := by
  induction h with
  | start => exact ⟨wf_default, fun k i => by simp [versions, versionsOf, default]⟩
  | step op _ hcond ih => exact ⟨(step_refines ih.1 op).wf, ih.2.step ih.1 hcond⟩

/-- **Extrinsic indices are recorded exactly**: after recordable operations the indices of a key
of the change set are those passed with the writes to it that were not undone. -/
theorem extrinsics_exact {m : OverlayedMap K (Option S)} {j : Journal K}
    (h : Run (fun m j op => Op.Recordable m j op) m j) :
    ∀ key e, m.get key = some e → ∀ i, i ∈ e.extrinsics ↔ (key, i) ∈ j.flatten := by
  intro key e hget i
  have hagrees := Tracks.agrees h.tracked.2 key i
  rw [versions, versionsOf, ← get, hget] at hagrees
  rw [mem_extrinsics]
  exact hagrees

section Concrete

private def firstWrite : Op Nat Nat := .set 7 (some 40) (some 0)

private def written : OverlayedMap Nat (Option Nat) := (default.step firstWrite).2

private def append (atExtrinsic : Option Nat) : Op Nat Nat :=
  .modify 7 0 atExtrinsic (Option.map (· + 1))

private theorem run_written (Cond : OverlayedMap Nat (Option Nat) → Journal Nat → Op Nat Nat → Prop)
    (hcond : Cond default [[]] firstWrite) : Run Cond written [[(7, 0)]] :=
  .step firstWrite .start hcond

/-- The value is modified in a transaction that is committed. -/
theorem extrinsics_exact_committed :
    ∃ (m : OverlayedMap Nat (Option Nat)) (j : Journal Nat) (e : OverlayedEntry (Option Nat)),
      Run (fun m j op => Op.Recordable m j op) m j ∧ m.get 7 = some e ∧ (7, 1) ∈ j.flatten ∧
      ∀ i, i ∈ e.extrinsics ↔ (7, i) ∈ j.flatten := by
  have hopen := Run.step .startTransaction
    (run_written (fun m j op => Op.Recordable m j op) trivial) trivial
  have hmodified := Run.step (append (some 1)) hopen (.inr (.inl (by decide)))
  have hrun := Run.step .commitTransaction hmodified trivial
  exact ⟨_, _, ⟨[⟨some 41, [0, 1]⟩]⟩, hrun, by decide, by decide,
    extrinsics_exact hrun 7 _ (by decide)⟩

/-- **A second write by `modify`** outside of a transaction loses its index. -/
theorem modify_loses_index :
    ∃ (m : OverlayedMap Nat (Option Nat)) (j : Journal Nat) (e : OverlayedEntry (Option Nat)),
      Run (fun _ _ _ => True) m j ∧ m.get 7 = some e ∧ (7, 1) ∈ j.flatten ∧ 1 ∉ e.extrinsics := by
  have hrun := Run.step (append (some 1)) (run_written (fun _ _ _ => True) trivial) trivial
  exact ⟨_, _, ⟨[⟨some 41, [0]⟩]⟩, hrun, by decide, by decide, by decide⟩

end Concrete

end OverlayedMap

end Substrate
