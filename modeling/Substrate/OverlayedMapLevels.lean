import Substrate.OverlayedMap
import Substrate.Versions

/-!
# The overlay map as a stack of snapshots

`levels m` lists the full maps that the sparse versions of an overlay stand for: the current one
and, for each open transaction, the one a rollback returns to. Under the invariant `Wf` a write
changes the first, `start_transaction` repeats it, a rollback drops it, and a commit drops the
second. No operation reaches an `expect`.
-/

namespace Substrate

open Function OverlayedEntry List Versions InnerValue KeySet

namespace OverlayedEntry

variable {V : Type}

section

variable (e : OverlayedEntry V)
include e

theorem tail_set (value : V) (first : Bool) (atExtrinsic : Option Nat) :
    (e.set value first atExtrinsic).transactions.tail =
      if first then e.transactions else e.transactions.tail := by
  obtain ⟨ts⟩ := e
  cases first <;> cases ts <;> cases atExtrinsic <;> rfl

@[simp] theorem valueRef_set (value : V) (first : Bool) (atExtrinsic : Option Nat) :
    (e.set value first atExtrinsic).valueRef = some value := by
  obtain ⟨ts⟩ := e
  cases first <;> cases ts <;> cases atExtrinsic <;> rfl

theorem valueRef_assign (f : V → V) : (e.assign f).valueRef = e.valueRef.map f := by
  obtain ⟨_ | ⟨t, ts⟩⟩ := e <;> rfl

theorem tail_assign (f : V → V) : (e.assign f).transactions.tail = e.transactions.tail := by
  obtain ⟨_ | ⟨t, ts⟩⟩ := e <;> rfl

end

theorem ne_nil_of_valueRef {e : OverlayedEntry V} {v : V} (h : e.valueRef = some v) :
    e.transactions ≠ [] := by
  intro hnil
  simp [valueRef, hnil] at h

end OverlayedEntry

namespace OverlayedMap

variable {K V S : Type}
  {m : OverlayedMap K V} {changes : FinMap K (OverlayedEntry V)} {v : InnerValue V}
  {keys : List K} {p dirty : KeySet K}

/-- Innermost first. -/
def versionsOf (changes : FinMap K (OverlayedEntry V)) (k : K) : List (InnerValue V) :=
  (changes.get? k).elim [] transactions

def versions (m : OverlayedMap K V) : K → List (InnerValue V) := versionsOf m.changes

def view (m : OverlayedMap K V) (k : K) : Option V := (m.changes.get? k).bind valueRef

theorem view_eq (m : OverlayedMap K V) : m.view = seen value m.versions := by
  funext k
  rw [view, seen, versions, versionsOf]
  cases m.changes.get? k <;> rfl

variable [DecidableEq K]

def levels (m : OverlayedMap K V) : List (K → Option V) :=
  Versions.levels value m.versions m.dirtyKeys

def NoEmptyEntry (changes : FinMap K (OverlayedEntry V)) : Prop :=
  ∀ k e, changes.get? k = some e → e.transactions ≠ []

/-- No entry is empty, and every dirty key has a version of its transaction. -/
structure Wf (m : OverlayedMap K V) : Prop where
  nonempty : NoEmptyEntry m.changes
  nested : Versions.Nested m.versions m.dirtyKeys

theorem levels_eq (m : OverlayedMap K V) : m.levels = m.view :: m.levels.tail := by
  rw [view_eq]
  exact Versions.levels_eq_cons

theorem view_of_levels {l : K → Option V} {ls : List (K → Option V)} (h : m.levels = l :: ls) :
    m.view = l := by
  rw [levels_eq] at h
  exact (List.cons.inj h).1

@[simp] theorem length_levels (m : OverlayedMap K V) :
    m.levels.length = m.transactionDepth + 1 := Versions.length_levels

theorem wf_default : (default : OverlayedMap K V).Wf :=
  ⟨fun _ _ h => Option.noConfusion rfl (heq_of_eq h), trivial⟩

theorem versionsOf_insert (changes : FinMap K (OverlayedEntry V)) (key : K) (e : OverlayedEntry V) :
    versionsOf (changes.insert key e) = update (versionsOf changes) key e.transactions := by
  funext k
  by_cases hk : k = key
  · subst hk
    simp [versionsOf]
  · simp [versionsOf, hk]

theorem versionsOf_erase (changes : FinMap K (OverlayedEntry V)) (key : K) :
    versionsOf (changes.erase key) = update (versionsOf changes) key [] := by
  funext k
  by_cases hk : k = key
  · subst hk
    simp [versionsOf]
  · simp [versionsOf, hk]

variable {e : OverlayedEntry V} {key : K} {rest vs : List (InnerValue V)} {ds : List (KeySet K)}

theorem NoEmptyEntry.insert (h : NoEmptyEntry changes) (he : e.transactions ≠ []) :
    NoEmptyEntry (changes.insert key e) := by
  intro k e' hget
  by_cases hk : k = key
  · subst hk
    obtain rfl := by simpa using hget
    exact he
  · exact h k e' (by simpa [hk] using hget)

theorem NoEmptyEntry.erase (h : NoEmptyEntry changes) (key : K) :
    NoEmptyEntry (changes.erase key) := by
  intro k e' hget
  by_cases hk : k = key
  · subst hk
    simp at hget
  · exact h k e' (by simpa [hk] using hget)

/-! ## Writes -/

/-- What a write does is undone with the transaction it belongs to. -/
theorem undo_insertDirty {A : Type} {vs : K → List A} {e : List A} {s ss}
    (htail : e.tail = if (insertDirty (s :: ss) key).1 then vs key else (vs key).tail) :
    undo (s.insert key).2 (update vs key e) = undo s vs := by
  refine undo_write (fun j => mem_insert) ?_
  rw [htail, undo]
  by_cases hmem : key ∈ s <;> simp [insertDirty]

/-- The entry of a key is replaced by one that keeps the versions of the outer transactions, and the
key is dirty. -/
theorem write_spec (hwf : m.Wf) (m' : OverlayedMap K V)
    (hchanges : m'.changes = m.changes.insert key e)
    (hdirty : m'.dirtyKeys = (insertDirty m.dirtyKeys key).2) (hne : e.transactions ≠ [])
    (htail : e.transactions.tail =
      if (insertDirty m.dirtyKeys key).1 then m.versions key else (m.versions key).tail) :
    m'.Wf ∧ m'.levels = update m.view key e.valueRef :: m.levels.tail := by
  have hversions : m'.versions = update m.versions key e.transactions := by
    rw [versions, hchanges, versionsOf_insert, versions]
  have hview : m'.view = update m.view key e.valueRef := by
    funext k
    rw [view, hchanges]
    by_cases hk : k = key
    · subst hk
      simp
    · simp [view, hk]
  have hnonempty : NoEmptyEntry m'.changes := by
    rw [hchanges]
    exact hwf.nonempty.insert hne
  rw [levels_eq m', hview]
  rcases hds : m.dirtyKeys with _ | ⟨s, ss⟩
  · rw [hds] at hdirty
    refine ⟨⟨hnonempty, by rw [hdirty]; trivial⟩, ?_⟩
    rw [levels, levels, hdirty, hds]
    rfl
  rw [hds] at hdirty htail
  have hundo : Versions.undo (s.insert key).2 m'.versions = Versions.undo s m.versions := by
    rw [hversions]
    exact undo_insertDirty htail
  have hnested := hwf.nested
  rw [hds] at hnested
  refine ⟨⟨hnonempty, ?_⟩, ?_⟩
  · rw [hdirty]
    refine ⟨fun k hk => ?_, by rw [hundo]; exact hnested.2⟩
    rw [hversions]
    by_cases hkey : k = key
    · subst hkey
      simpa using hne
    · rw [update_of_ne hkey]
      exact hnested.1 k ((mem_insert.mp hk).resolve_left hkey)
  · rw [levels, levels, hdirty, hds]
    simp [insertDirty, Versions.levels, hundo]

omit [DecidableEq K] in
theorem transactions_getD (m : OverlayedMap K V) (key : K) :
    ((m.changes.get? key).getD .default).transactions = m.versions key := by
  rw [versions, versionsOf]
  cases m.changes.get? key <;> rfl

theorem set_spec (hwf : m.Wf) (key : K) (value : V) (atExtrinsic : Option Nat) :
    (m.set key value atExtrinsic).Wf
    ∧ (m.set key value atExtrinsic).levels = update m.view key (some value) :: m.levels.tail := by
  have h := write_spec hwf (m.set key value atExtrinsic) rfl rfl
    (ne_nil_of_valueRef (valueRef_set ..))
    (by rw [tail_set, transactions_getD])
  rwa [valueRef_set] at h

/-- A new version only if there is none that belongs to the transaction. -/
theorem modify_cases (m : OverlayedMap K (Option S)) (key : K) (init : S)
    (atExtrinsic : Option Nat) (f : Option S → Option S) :
    (m.versions key ≠ [] ∧ (insertDirty m.dirtyKeys key).1 = false
      ∧ (m.modify key init atExtrinsic f).changes =
          m.changes.insert key (((m.changes.get? key).getD .default).assign f))
    ∨ ((m.versions key = [] ∨ (insertDirty m.dirtyKeys key).1 = true)
      ∧ (m.modify key init atExtrinsic f).changes =
          m.changes.insert key ((((m.changes.get? key).getD .default).set
            ((m.view key).getD (some init)) (insertDirty m.dirtyKeys key).1 atExtrinsic).assign f)) := by
  have hview : m.view key = (m.versions key).head?.map value := by rw [view_eq]; rfl
  have hts := transactions_getD m key
  rw [hview]
  simp only [modify]
  rcases hv : m.versions key with _ | ⟨tx, rest⟩
  · rw [hv] at hts
    simp only [hts]
    exact .inr ⟨.inl trivial, rfl⟩
  rw [hv] at hts
  simp only [hts]
  cases hfirst : (insertDirty m.dirtyKeys key).1 with
  | true => exact .inr ⟨.inr rfl, rfl⟩
  | false => exact .inl ⟨cons_ne_nil _ _, rfl, rfl⟩

/-- The value `modify` hands out: the current one, or the initial one if there is
no change. -/
theorem modify_spec {m : OverlayedMap K (Option S)} (hwf : m.Wf) (key : K) (init : S)
    (atExtrinsic : Option Nat) (f : Option S → Option S) :
    (m.modify key init atExtrinsic f).Wf
    ∧ (m.modify key init atExtrinsic f).levels =
        update m.view key (some (f ((m.view key).getD (some init)))) :: m.levels.tail := by
  have hview : m.view key = (m.versions key).head?.map value := by rw [view_eq]; rfl
  -- the entry before the caller writes through the reference
  obtain ⟨e, heq, hvalue, htail⟩ : ∃ e : OverlayedEntry (Option S),
      (m.modify key init atExtrinsic f).changes = m.changes.insert key (e.assign f)
      ∧ e.valueRef = some ((m.view key).getD (some init))
      ∧ e.transactions.tail = if (insertDirty m.dirtyKeys key).1 then m.versions key
          else (m.versions key).tail := by
    rcases modify_cases m key init atExtrinsic f with ⟨hne, hfirst, heq⟩ | ⟨-, heq⟩
    · obtain ⟨tx, rest, hv⟩ := exists_cons_of_ne_nil hne
      refine ⟨_, heq, ?_, ?_⟩
      · rw [valueRef, transactions_getD, hview, hv]
        rfl
      · rw [transactions_getD, hfirst, if_neg Bool.false_ne_true]
    · refine ⟨_, heq, valueRef_set .., ?_⟩
      rw [tail_set, transactions_getD]
  have hassigned : (e.assign f).valueRef = some (f ((m.view key).getD (some init))) := by
    rw [valueRef_assign, hvalue]
    rfl
  have h := write_spec hwf _ heq rfl (ne_nil_of_valueRef hassigned) (by rw [tail_assign, htail])
  rwa [hassigned] at h

theorem foldl_set_spec (hwf : m.Wf) (value : V) (atExtrinsic : Option Nat) (keys : List K) :
    ∃ m', keys.foldl (fun m key => m.set key value atExtrinsic) m = m' ∧ m'.Wf
    ∧ m'.levels = (fun k => if k ∈ keys then some value else m.view k) :: m.levels.tail
    ∧ m'.numClientTransactions = m.numClientTransactions ∧ m'.executionMode = m.executionMode := by
  induction keys generalizing m with
  | nil =>
    refine ⟨m, rfl, hwf, ?_, rfl, rfl⟩
    simp only [not_mem_nil, if_false]
    exact levels_eq m
  | cons key keys ih =>
    obtain ⟨hwf', hlevels⟩ := set_spec hwf key value atExtrinsic
    obtain ⟨m', hfold, hwf'', hrest, hphase⟩ := ih hwf'
    refine ⟨m', hfold, hwf'', ?_, hphase⟩
    rw [hrest, hlevels, view_of_levels hlevels]
    congr 1
    funext k
    by_cases hk : k = key
    · subst hk
      simp
    · simp [hk]

theorem clearWhere_spec {m : OverlayedMap K (Option S)} (hwf : m.Wf)
    (predicate : K → OverlayedEntry (Option S) → Bool) (atExtrinsic : Option Nat) :
    (m.clearWhere predicate atExtrinsic).Wf
    ∧ (m.clearWhere predicate atExtrinsic).levels =
        (fun k => if m.matching predicate k then some none else m.view k) :: m.levels.tail
    ∧ (m.clearWhere predicate atExtrinsic).numClientTransactions = m.numClientTransactions
    ∧ (m.clearWhere predicate atExtrinsic).executionMode = m.executionMode := by
  obtain ⟨m', hfold, hwf', hlevels, hphase⟩ := foldl_set_spec hwf none atExtrinsic
    (m.changes.keys.filter (m.matching predicate))
  rw [clearWhere, hfold]
  refine ⟨hwf', ?_, hphase⟩
  rw [hlevels]
  congr 1
  funext k
  have hmem : k ∈ m.changes.keys.filter (m.matching predicate) ↔ m.matching predicate k = true := by
    rw [mem_filter, m.changes.mem_keys, matching]
    cases m.changes.get? k <;> simp
  simp [hmem]

/-! ## Closing a transaction -/

omit [DecidableEq K] in
theorem get?_of_versionsOf (h : versionsOf changes key = v :: rest) :
    changes.get? key = some ⟨v :: rest⟩ := by
  rw [versionsOf] at h
  cases hget : changes.get? key with
  | none => simp [hget] at h
  | some e =>
    rw [hget] at h
    obtain ⟨ts⟩ := e
    exact congrArg (fun l => some (OverlayedEntry.mk l)) h

theorem closeKey_rollback (ds : List (KeySet K)) (hne : NoEmptyEntry changes)
    (h : versionsOf changes key ≠ []) :
    ∃ changes', closeKey true (changes, ds) key = some (changes', ds) ∧ NoEmptyEntry changes'
      ∧ versionsOf changes' = update (versionsOf changes) key (versionsOf changes key).tail := by
  obtain ⟨v, rest, hv⟩ := exists_cons_of_ne_nil h
  simp only [closeKey, get?_of_versionsOf hv, if_true]
  rw [hv]
  cases rest with
  | nil => exact ⟨_, rfl, hne.erase key, versionsOf_erase ..⟩
  | cons w rest =>
    exact ⟨_, rfl, hne.insert (cons_ne_nil _ _), versionsOf_insert ..⟩

/-- The loop does to the dirty keys what one round does to its key, if the rounds leave the outer
transactions alone. -/
theorem closeKeys_spec {rollback : Bool} {f : List (InnerValue V) → List (InnerValue V)}
    (hclose : ∀ {changes : FinMap K (OverlayedEntry V)} {key}, NoEmptyEntry changes →
      versionsOf changes key ≠ [] →
      ∃ changes', closeKey rollback (changes, ds) key = some (changes', ds) ∧ NoEmptyEntry changes'
        ∧ versionsOf changes' = update (versionsOf changes) key (f (versionsOf changes key)))
    (hnd : keys.Nodup) (hne : NoEmptyEntry changes)
    (hkeys : ∀ k ∈ keys, versionsOf changes k ≠ []) :
    ∃ changes', keys.foldlM (closeKey rollback) (changes, ds) = some (changes', ds)
      ∧ NoEmptyEntry changes'
      ∧ ∀ k, versionsOf changes' k =
          if k ∈ keys then f (versionsOf changes k) else versionsOf changes k := by
  induction keys generalizing changes with
  | nil => exact ⟨changes, rfl, hne, fun k => by simp⟩
  | cons key keys ih =>
    obtain ⟨hnot, hnd⟩ := nodup_cons.mp hnd
    obtain ⟨c, hround, hne', hversions⟩ := hclose hne (hkeys key (mem_cons_self ..))
    have hother : ∀ k, k ≠ key → versionsOf c k = versionsOf changes k := fun k hk => by
      rw [hversions, update_of_ne hk]
    obtain ⟨changes', hloop, hne'', hrest⟩ := ih hnd hne' fun k hk => by
      rw [hother k fun heq => hnot (heq ▸ hk)]
      exact hkeys k (mem_cons_of_mem _ hk)
    refine ⟨changes', ?_, hne'', fun k => ?_⟩
    · rw [foldlM_cons, hround]
      exact hloop
    · rw [hrest k]
      by_cases hk : k = key
      · subst hk
        simp [hnot, hversions]
      · simp [hk, hother k hk]

def mergeTop : List (InnerValue V) → List (InnerValue V)
  | v :: w :: rest => ⟨v.value, w.extrinsics ++ v.extrinsics⟩ :: rest
  | vs => vs

theorem head?_mergeTop (vs : List (InnerValue V)) :
    (mergeTop vs).head?.map value = vs.head?.map value := by
  rcases vs with _ | ⟨v, _ | ⟨w, rest⟩⟩ <;> rfl

theorem mergeTop_ne_nil (h : vs ≠ []) : mergeTop vs ≠ [] := by
  rcases vs with _ | ⟨v, _ | ⟨w, rest⟩⟩
  · exact h
  · exact h
  · exact cons_ne_nil _ _

theorem tail_mergeTop (h : vs.tail ≠ []) : (mergeTop vs).tail = vs.tail.tail := by
  rcases vs with _ | ⟨v, _ | ⟨w, rest⟩⟩
  · exact absurd rfl h
  · exact absurd rfl h
  · rfl

section

variable (hne : NoEmptyEntry changes)
include hne

theorem insert_mergeTop {w} (h : versionsOf changes key = v :: w :: rest) :
    NoEmptyEntry (changes.insert key ⟨⟨v.value, w.extrinsics ++ v.extrinsics⟩ :: rest⟩)
    ∧ versionsOf (changes.insert key ⟨⟨v.value, w.extrinsics ++ v.extrinsics⟩ :: rest⟩) =
        update (versionsOf changes) key (mergeTop (versionsOf changes key)) := by
  refine ⟨hne.insert (cons_ne_nil _ _), ?_⟩
  rw [versionsOf_insert, h]
  rfl

theorem closeKey_commit (h : versionsOf changes key ≠ [])
    (hp : key ∈ p → (versionsOf changes key).tail ≠ []) (ds : List (KeySet K)) :
    ∃ changes', closeKey false (changes, p :: ds) key = some (changes', (p.insert key).2 :: ds)
      ∧ NoEmptyEntry changes'
      ∧ versionsOf changes' = update (versionsOf changes) key
          (if key ∈ p then mergeTop (versionsOf changes key) else versionsOf changes key) := by
  obtain ⟨v, rest, hv⟩ := exists_cons_of_ne_nil h
  simp only [closeKey, get?_of_versionsOf hv, Bool.false_eq_true, if_false]
  by_cases hmem : key ∈ p
  · have hfst : (p.insert key).1 = false := Bool.eq_false_iff.mpr (by simpa using hmem)
    rw [hv] at hp
    obtain ⟨w, rest', rfl⟩ := exists_cons_of_ne_nil (hp hmem)
    simp only [hfst, Bool.not_false, if_true, if_pos hmem]
    obtain ⟨hne', hversions⟩ := insert_mergeTop hne hv
    exact ⟨_, rfl, hne', hversions⟩
  · have hfst : (p.insert key).1 = true := by simpa using hmem
    simp only [hfst, Bool.not_true, Bool.false_eq_true, if_false, if_neg hmem]
    exact ⟨changes, rfl, hne, (update_eq_self ..).symm⟩

theorem closeKey_commit_last (h : versionsOf changes key ≠ []) :
    ∃ changes', closeKey false (changes, []) key = some (changes', []) ∧ NoEmptyEntry changes'
      ∧ versionsOf changes' = update (versionsOf changes) key
          (mergeTop (versionsOf changes key)) := by
  obtain ⟨v, rest, hv⟩ := exists_cons_of_ne_nil h
  simp only [closeKey, get?_of_versionsOf hv, Bool.false_eq_true, if_false]
  cases rest with
  | nil =>
    have hmerge : mergeTop (versionsOf changes key) = versionsOf changes key := by rw [hv]; rfl
    rw [hmerge]
    exact ⟨changes, by simp, hne, (update_eq_self ..).symm⟩
  | cons w rest =>
    obtain ⟨hne', hversions⟩ := insert_mergeTop hne hv
    exact ⟨_, by simp, hne', hversions⟩

end

/-- It merges the keys the outer transaction wrote as well and hands it the others. -/
theorem commitKeys_spec (hnd : keys.Nodup) (hne : NoEmptyEntry changes)
    (hkeys : ∀ k ∈ keys, versionsOf changes k ≠ [])
    (hp : ∀ k ∈ keys, k ∈ p → (versionsOf changes k).tail ≠ []) (ds : List (KeySet K)) :
    ∃ changes' p', keys.foldlM (closeKey false) (changes, p :: ds) = some (changes', p' :: ds)
      ∧ NoEmptyEntry changes'
      ∧ (∀ k, k ∈ p' ↔ k ∈ keys ∨ k ∈ p)
      ∧ ∀ k, versionsOf changes' k =
          if k ∈ keys ∧ k ∈ p then mergeTop (versionsOf changes k) else versionsOf changes k := by
  induction keys generalizing changes p with
  | nil => exact ⟨changes, p, rfl, hne, fun k => by simp, fun k => by simp⟩
  | cons key keys ih =>
    obtain ⟨hnot, hnd⟩ := nodup_cons.mp hnd
    have hmem : ∀ k ∈ keys, k ∈ (p.insert key).2 ↔ k ∈ p := fun k hk => by
      have hne : k ≠ key := fun heq => hnot (heq ▸ hk)
      simp [hne]
    obtain ⟨c, hclose, hne', hversions⟩ := closeKey_commit hne
      (hkeys key (mem_cons_self ..)) (hp key (mem_cons_self ..)) ds
    have hother : ∀ k, k ≠ key → versionsOf c k = versionsOf changes k := fun k hk => by
      rw [hversions, update_of_ne hk]
    have hsame : ∀ k ∈ keys, versionsOf c k = versionsOf changes k := fun k hk =>
      hother k fun heq => hnot (heq ▸ hk)
    obtain ⟨changes', p', hloop, hne'', hp', hrest⟩ := ih hnd hne'
      (fun k hk => by rw [hsame k hk]; exact hkeys k (mem_cons_of_mem _ hk))
      (fun k hk hkp => by
        rw [hsame k hk]
        exact hp k (mem_cons_of_mem _ hk) ((hmem k hk).mp hkp))
    refine ⟨changes', p', ?_, hne'', fun k => ?_, fun k => ?_⟩
    · rw [foldlM_cons, hclose]
      exact hloop
    · rw [hp' k, mem_insert, mem_cons]
      tauto
    · rw [hrest k]
      by_cases hk : k = key
      · subst hk
        simp [hnot, hversions]
      · by_cases hkk : k ∈ keys
        · simp [hkk, hother k hk, hk]
        · simp [hk, hother k hk]

/-- One is open, and in the runtime one that the runtime started. -/
def CanClose (m : OverlayedMap K V) : Prop :=
  m.dirtyKeys ≠ [] ∧ (m.executionMode = .runtime → m.hasOpenRuntimeTransactions = true)

theorem closeTransaction_refused (h : ¬m.CanClose) (rollback : Bool) :
    m.closeTransaction rollback = (.err .noOpenTransaction, m) := by
  rw [closeTransaction]
  split
  · rfl
  rename_i hmode
  split
  · rfl
  · rename_i dirty rest hds
    refine absurd ⟨by simp [hds], fun hr => ?_⟩ h
    simpa [hr] using hmode

theorem closeTransaction_eq (h : m.CanClose) {rest} (hds : m.dirtyKeys = dirty :: rest)
    {rollback : Bool}
    (hloop : dirty.keys.foldlM (closeKey rollback) (m.changes, rest) = some (changes, ds)) :
    m.closeTransaction rollback = (.ok (), { m with changes := changes, dirtyKeys := ds }) := by
  have hmode : ¬(m.executionMode = .runtime ∧ m.hasOpenRuntimeTransactions = false) := by
    rintro ⟨hr, hopen⟩
    rw [h.2 hr] at hopen
    cases hopen
  rw [closeTransaction, if_neg hmode, hds]
  simp [hloop]

section

variable (hwf : m.Wf) (h : m.CanClose)
include hwf h

theorem rollback_versions {rest} (hds : m.dirtyKeys = dirty :: rest) :
    ∃ changes, m.rollbackTransaction = (.ok (), { m with changes := changes, dirtyKeys := rest })
      ∧ NoEmptyEntry changes ∧ versionsOf changes = undo dirty m.versions := by
  have hnested := hwf.nested
  rw [hds] at hnested
  obtain ⟨changes, hloop, hne, hversions⟩ :=
    closeKeys_spec (closeKey_rollback rest) dirty.nodup hwf.nonempty hnested.1
  exact ⟨changes, closeTransaction_eq h hds hloop, hne, funext hversions⟩

/-- **A rollback drops the current level.** -/
theorem rollback_spec : ∃ m', m.rollbackTransaction = (.ok (), m')
      ∧ m'.Wf ∧ m'.levels = m.levels.tail
      ∧ m'.numClientTransactions = m.numClientTransactions
      ∧ m'.executionMode = m.executionMode := by
  obtain ⟨dirty, rest, hds⟩ := exists_cons_of_ne_nil h.1
  have hnested := hwf.nested
  rw [hds] at hnested
  obtain ⟨changes, heq, hne, hundo⟩ := rollback_versions hwf h hds
  refine ⟨_, heq, ⟨hne, ?_⟩, ?_, rfl, rfl⟩
  · rw [versions, hundo]
    exact hnested.2
  · rw [levels, levels, hds, versions, hundo]
    rfl

theorem commit_last_versions (hds : m.dirtyKeys = [dirty]) :
    ∃ changes, m.commitTransaction = (.ok (), { m with changes := changes, dirtyKeys := [] })
      ∧ NoEmptyEntry changes
      ∧ versionsOf changes = fun k => if k ∈ dirty then mergeTop (m.versions k) else m.versions k := by
  have hnested := hwf.nested
  rw [hds] at hnested
  obtain ⟨changes, hloop, hne, hversions⟩ :=
    closeKeys_spec closeKey_commit_last dirty.nodup hwf.nonempty hnested.1
  exact ⟨changes, closeTransaction_eq h hds hloop, hne, funext hversions⟩

/-- Undoing the outer transaction `p` undoes both. -/
theorem commit_versions (hds : m.dirtyKeys = dirty :: p :: ds) : ∃ changes p', m.commitTransaction =
        (.ok (), { m with changes := changes, dirtyKeys := p' :: ds })
      ∧ NoEmptyEntry changes
      ∧ (∀ k, k ∈ p' ↔ k ∈ dirty ∨ k ∈ p)
      ∧ (versionsOf changes =
          fun k => if k ∈ dirty ∧ k ∈ p then mergeTop (m.versions k) else m.versions k)
      ∧ undo p' (versionsOf changes) = undo p (undo dirty m.versions) := by
  have hnested := hwf.nested
  rw [hds] at hnested
  -- a key of both transactions has two versions
  have htwo : ∀ k, k ∈ dirty → k ∈ p → (m.versions k).tail ≠ [] := fun k hk hkp => by
    have := hnested.2.1 k hkp
    rwa [undo, if_pos hk] at this
  obtain ⟨changes, p', hloop, hne, hp', hversions⟩ :=
    commitKeys_spec dirty.nodup hwf.nonempty hnested.1 htwo ds
  refine ⟨changes, p', closeTransaction_eq h hds hloop, hne, hp', funext hversions, ?_⟩
  refine undo_merge hp' (fun k hk hkp => ?_) fun k hk => ?_
  · rw [hversions k, if_pos ⟨hk, hkp⟩]
    exact tail_mergeTop (htwo k hk hkp)
  · rw [hversions k]
    exact if_neg hk

end

omit [DecidableEq K] in
theorem seen_merge {p : K → Prop} [DecidablePred p] {vs : K → List (InnerValue V)} :
    seen value (fun k => if p k then mergeTop (vs k) else vs k) = seen value vs := by
  funext k
  by_cases hk : p k
  · simp [seen, if_pos hk, head?_mergeTop]
  · simp [seen, if_neg hk]

/-- **A commit drops the level below the current one.** -/
theorem commit_spec (hwf : m.Wf) (h : m.CanClose) : ∃ m', m.commitTransaction = (.ok (), m')
      ∧ m'.Wf ∧ m'.levels = m.view :: m.levels.tail.tail
      ∧ m'.numClientTransactions = m.numClientTransactions
      ∧ m'.executionMode = m.executionMode := by
  obtain ⟨dirty, rest, hds⟩ := exists_cons_of_ne_nil h.1
  rcases rest with _ | ⟨p, ds⟩
  · obtain ⟨changes, heq, hne, hversions⟩ := commit_last_versions hwf h hds
    refine ⟨_, heq, ⟨hne, trivial⟩, ?_, rfl, rfl⟩
    rw [levels, levels, hds, versions, hversions, view_eq]
    exact congrArg (· :: []) seen_merge
  have hnested := hwf.nested
  rw [hds] at hnested
  obtain ⟨changes, p', heq, hne, hp', hversions, hundo⟩ := commit_versions hwf h hds
  refine ⟨_, heq, ⟨hne, ?_, ?_⟩, ?_, rfl, rfl⟩
  · intro k hk
    change versionsOf changes k ≠ []
    rw [hversions]
    have hnil : m.versions k ≠ [] := by
      rcases (hp' k).mp hk with hk | hk
      · exact hnested.1 k hk
      have := hnested.2.1 k hk
      rw [Versions.undo] at this
      split at this
      · exact fun h => this (by rw [h]; rfl)
      · exact this
    dsimp only
    split
    · exact mergeTop_ne_nil hnil
    · exact hnil
  · change Versions.Nested (Versions.undo p' (versionsOf changes)) ds
    rw [hundo]
    exact hnested.2.2
  · rw [levels, levels, hds, view_eq]
    change Versions.seen _ (versionsOf changes) ::
      Versions.levels _ (Versions.undo p' (versionsOf changes)) ds = _
    rw [hundo, hversions]
    exact congrArg (· :: _) seen_merge

/-! ## Starting transactions, entering and leaving the runtime -/

theorem start_spec (hwf : m.Wf) :
    m.startTransaction.Wf ∧ m.startTransaction.levels = m.view :: m.levels := by
  have hundo : undo empty m.versions = m.versions := undo_empty
  refine ⟨⟨hwf.nonempty, fun k hk => absurd hk (not_mem_empty k), ?_⟩, ?_⟩
  · change Versions.Nested (undo _ m.versions) _
    rw [hundo]
    exact hwf.nested
  · change Versions.seen _ m.versions :: Versions.levels _ (Versions.undo _ m.versions) _ = _
    rw [view_eq]
    rfl

omit [DecidableEq K] in
theorem canClose_of_open (h : m.hasOpenRuntimeTransactions = true) : m.CanClose := by
  refine ⟨fun hnil => ?_, fun _ => h⟩
  simp [hasOpenRuntimeTransactions, transactionDepth, hnil] at h

/-- It returns to the level recorded at `enter_runtime`. -/
theorem rollbackRuntime_spec (hwf : m.Wf) {fuel : Nat} (hfuel : m.transactionDepth ≤ fuel) :
    ∃ m', rollbackRuntime fuel m = (.ok (), m')
      ∧ m'.Wf ∧ m'.levels = m.levels.drop (m.transactionDepth - m.numClientTransactions)
      ∧ m'.numClientTransactions = m.numClientTransactions
      ∧ m'.executionMode = m.executionMode := by
  induction fuel generalizing m with
  | zero => exact ⟨m, rfl, hwf, by simp [Nat.le_zero.mp hfuel], rfl, rfl⟩
  | succ fuel ih =>
    rw [rollbackRuntime]
    cases hopen : m.hasOpenRuntimeTransactions with
    | false =>
      have hle : m.transactionDepth ≤ m.numClientTransactions := by
        simpa [hasOpenRuntimeTransactions] using hopen
      exact ⟨m, by simp, hwf, by simp [Nat.sub_eq_zero_of_le hle], rfl, rfl⟩
    | true =>
      have hlt : m.numClientTransactions < m.transactionDepth := by
        simpa [hasOpenRuntimeTransactions] using hopen
      obtain ⟨m1, heq, hwf1, hlevels1, hnum1, hmode1⟩ :=
        rollback_spec hwf (canClose_of_open hopen)
      have hdepth : m1.transactionDepth + 1 = m.transactionDepth := by
        have := congrArg List.length hlevels1
        simp only [length_levels, length_tail] at this
        omega
      obtain ⟨m2, heq2, hwf2, hlevels2, hnum2, hmode2⟩ := ih hwf1 (by omega)
      refine ⟨m2, ?_, hwf2, ?_, hnum2.trans hnum1, hmode2.trans hmode1⟩
      · simp [heq, heq2]
      · rw [hlevels2, hlevels1, drop_tail]
        congr 1
        omega

theorem exitRuntime_spec (hwf : m.Wf) (hmode : m.executionMode = .runtime) :
    ∃ m', m.exitRuntime = (.ok (), m')
      ∧ m'.Wf ∧ m'.levels = m.levels.drop (m.transactionDepth - m.numClientTransactions)
      ∧ m'.numClientTransactions = m.numClientTransactions
      ∧ m'.executionMode = .client := by
  rw [exitRuntime, hmode]
  exact rollbackRuntime_spec (m := { m with executionMode := .client })
    ⟨hwf.nonempty, hwf.nested⟩ (Nat.le_refl _)

theorem spawnChild_spec (m : OverlayedMap K V) :
    m.spawnChild.Wf ∧ m.spawnChild.transactionDepth = m.transactionDepth
    ∧ ∀ l ∈ m.spawnChild.levels, ∀ k, l k = none := by
  have hversions : m.spawnChild.versions = fun _ => [] := rfl
  have hnested : ∀ n, Versions.Nested (fun _ : K => ([] : List (InnerValue V)))
      (List.replicate n empty) := by
    intro n
    induction n with
    | zero => trivial
    | succ n ih =>
      refine ⟨fun k hk => absurd hk (not_mem_empty k), ?_⟩
      rw [Versions.undo_empty]
      exact ih
  refine ⟨⟨fun k e h => (by cases h), hversions ▸ hnested _⟩, by simp [spawnChild, transactionDepth], ?_⟩
  rw [levels]
  exact Versions.levels_nil

end OverlayedMap

end Substrate
