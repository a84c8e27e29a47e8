import Substrate.OverlayCore
import Substrate.PruningWindow

/-!
# States stay available until they are pruned

Runs of `insertBlock`, `canonicalizeBlock` and `applyPending` of a pruning state database whose
commit sets are written to the backing database as they are returned. The invariant puts together
the overlay (`Core`), the pruning window (`WindowInv`) and the list of the blocks canonicalized so
far.

A key is read back only as long as the blocks that pending canonicalizations put beside its block
are still in the window: `canonicalize` collects the hashes of the forks it discards and drops the
list, so until `applyPending` the blocks of such a fork do not count as pruned
(`discarded_fork_not_pruned`).
-/

namespace Substrate.StateDb

open NonCanonicalOverlay List Option Nat

variable {H K V : Type} [DecidableEq H] [DecidableEq K]

/-! ## What a call that returns has done -/

section Calls

open StateDbSync

variable {s s' : StateDbSync H K V} {h : H} {c : CommitSet H K V}

theorem canonicalizeBlock_err {err : Error}
    (hrun : s.canonicalizeBlock h = (.err err, s')) : s' = s := by
  unfold canonicalizeBlock at hrun
  split at hrun
  · cases hrun
  split at hrun
  · rename_i e o' hcan
    obtain rfl := canonicalize_err hcan
    exact (Prod.mk.inj hrun).2.symm
  · cases hrun
  dsimp only at hrun
  split at hrun
  · cases hrun
  · simp at hrun

/-- The overlay takes note of it, the block enters the window and rows are pruned. -/
theorem canonicalizeBlock_constrained {constraints win} (hmode : s.mode = .constrained constraints)
    (hwin : s.pruning = some win) (hrun : s.canonicalizeBlock h = (.ok c, s')) :
    ∃ c1 o' c2 win1 win2, s.nonCanonical.canonicalize h .empty = (.ok c1, o') ∧
      win.noteCanonical h c1 = some (c2, win1) ∧
      pruneRows constraints s.pinned win1.windowSize win1 c2 = (c, win2) ∧
      s' = { s with nonCanonical := o', pruning := some win2 } := by
  unfold canonicalizeBlock at hrun
  simp only [hmode, reduceCtorEq, if_false] at hrun
  split at hrun
  · cases hrun
  · cases hrun
  rename_i c1 o' hcan
  simp only [noteCanonical, hwin] at hrun
  cases hnote : win.noteCanonical h c1 with
  | none => simp [hnote] at hrun
  | some r =>
    obtain ⟨c2, win1⟩ := r
    simp only [hnote, prune] at hrun
    obtain ⟨hc, rfl⟩ := Prod.mk.inj hrun
    refine ⟨c1, o', c2, win1,
      (pruneRows constraints s.pinned win1.windowSize win1 c2).2, hcan, hnote, ?_,
      by rw [hmode]⟩
    rw [← Outcome.ok.inj hc]

theorem applyPending_some (hrun : s.applyPending = some s') :
    ∃ o', s.nonCanonical.applyPending = some o' ∧ s'.nonCanonical = o' ∧ s'.mode = s.mode ∧
      ∀ win, s.pruning = some win →
        ∃ win', win.applyPending = some win' ∧ s'.pruning = some win' := by
  unfold StateDbSync.applyPending at hrun
  split at hrun
  · cases hrun
  rename_i o' ho
  split at hrun
  · rename_i hnone
    obtain rfl := some.inj hrun
    refine ⟨o', ho, rfl, rfl, fun win hwin => ?_⟩
    rw [hnone] at hwin
    cases hwin
  rename_i win hwin
  split at hrun
  · cases hrun
  rename_i win' hwin'
  obtain rfl := some.inj hrun
  refine ⟨o', ho, rfl, rfl, fun win0 h0 => ?_⟩
  obtain rfl := some.inj (hwin.symm.trans h0)
  exact ⟨win', hwin', rfl⟩

omit [DecidableEq H] in
/-- The insertions stay, the deletions wait in the new row. -/
theorem noteCanonical_some {win win' c'} (hcount : win.countInsertions = true)
    (hrun : win.noteCanonical h c = some (c', win')) :
    c'.data = ⟨c.data.inserted, []⟩ ∧
      RefWindow.Imports win h (c.data.inserted.map Prod.fst) c.data.deleted win' := by
  unfold RefWindow.noteCanonical at hrun
  simp only [hcount, if_true] at hrun
  split at hrun
  · cases hrun
  rename_i win1 himport
  obtain ⟨rfl, rfl⟩ := Prod.mk.inj (some.inj hrun)
  have hi := RefWindow.imports_of_importBlock hcount himport
  exact ⟨rfl, hi.rows, hi.deathIndex, hi.pendingNumber, hi.pendingPrunings, hi.countInsertions⟩

end Calls

/-! ## Runs -/

structure World (H K V : Type) where
  stateDb : StateDbSync H K V
  db : Db H K V
  inserted : List H

inductive Call (H : Type) where
  | insertBlock (hash : H)
  | canonicalizeBlock (hash : H)
  | applyPending
deriving Repr, DecidableEq

/-- The commit set of a call that succeeds is written; a panic ends the run. -/
def World.after (w : World H K V) (inserted : List H) :
    Outcome Error (CommitSet H K V) × StateDbSync H K V → Option (World H K V)
  | (.ok commit, s) => some ⟨s, w.db.commit commit, inserted⟩
  | (.err _, s) => some { w with stateDb := s }
  | (.panic, _) => none

/-- Blocks are inserted over known parents only. -/
def World.call (B : Blocks H K) (val : K → V) (w : World H K V) : Call H → Option (World H K V)
  | .insertBlock h =>
    if h ≠ B.root ∧ (B.parent h = B.root ∨ B.parent h ∈ w.inserted) then
      w.after (h :: w.inserted)
        (w.stateDb.insertBlock h (B.number h) (B.parent h) (changeSet B val h))
    else none
  | .canonicalizeBlock h => w.after w.inserted (w.stateDb.canonicalizeBlock h)
  | .applyPending => (w.stateDb.applyPending).map fun s => { w with stateDb := s }

/-- None of the calls panics. -/
def World.run (B : Blocks H K) (val : K → V) (w : World H K V) (calls : List (Call H)) :
    Option (World H K V) :=
  calls.foldlM (World.call B val) w

/-- It holds the state `S` of `root`, the last canonical block. -/
structure HoldsState (B : Blocks H K) (S : K → Prop) (val : K → V) (db : Db H K V) : Prop where
  lastCanonical : db.lastCanonical = none ∨
    ∃ n, db.lastCanonical = some (B.root, n) ∧ n + 1 = B.first
  journal : ∀ key, db.journal.get? key = none
  pruningJournal : ∀ n, db.pruningJournal.get? n = none
  data : ∀ k v, db.data.get? k = some v ↔ S k ∧ v = val k

/-! ## The invariant -/

variable {B : Blocks H K} {S : K → Prop} {val : K → V} {C : List H} {A q : Nat} {w : World H K V}

/-- Over the list `C` of the blocks canonicalized so far. -/
structure Available (B : Blocks H K) (S : K → Prop) (val : K → V) (C : List H) (A q : Nat)
    (w : World H K V) : Prop where
  mode : ∃ n, w.stateDb.mode = .constrained ⟨n, none⟩
  window : ∃ win, w.stateDb.pruning = some win ∧ WindowInv B S val C A q win w.db.data.get?
  core : Core B val (prev B C A) w.stateDb.nonCanonical
  head : HeadAt B (prev B C A) w.stateDb.nonCanonical
  chain : Chain B C A
  pending : w.stateDb.nonCanonical.pendingCanonicalizations = C.drop A
  pending_in : ∀ (i : Nat) (h : H), C[A + i]? = some h →
    ∃ level, w.stateDb.nonCanonical.levels[i]? = some level ∧ ∃ e ∈ level.blocks, e.hash = h
  insertions_in : ∀ h ∈ w.stateDb.nonCanonical.pendingInsertions,
    InLevels w.stateDb.nonCanonical.levels h
  inserted_in : w.stateDb.nonCanonical.lastCanonicalized = none →
    ∀ h ∈ w.inserted, InLevels w.stateDb.nonCanonical.levels h

theorem Available.applied_le (hw : Available B S val C A q w) : A ≤ C.length := by
  obtain ⟨win, _, hwin⟩ := hw.window
  exact hwin.applied_le

variable {i m : Nat} {k : K} {c : CommitSet H K V} {w' : World H K V}

omit [DecidableEq K] in
theorem tree_number_prev (hc : Chain B C m) (hm : m ≤ C.length) (hi : i ≤ m) :
    B.tree.number (prev B C i) = B.first + i := by
  induction i with
  | zero => exact B.tree_number_root
  | succ i ih =>
    obtain ⟨h, hh⟩ : ∃ h, C[i]? = some h := ⟨_, getElem?_eq_getElem (by omega)⟩
    obtain ⟨hroot, hparent⟩ := hc i h (by omega) hh
    rw [prev_succ hh, B.tree_number_child hroot, hparent, ih (by omega), Nat.add_assoc]

section

variable (hw : Available B S val C A q w)
include hw

theorem Available.tree_number {h : H} (hi : C[i]? = some h) :
    B.tree.number h = B.first + i + 1 := by
  by_cases hA : i < A
  · have := tree_number_prev hw.chain hw.applied_le (i := i + 1) (by omega)
    rw [prev_succ hi] at this
    omega
  obtain ⟨level, hlevel, e, he, rfl⟩ :=
    hw.pending_in (i - A) h (by rw [show A + (i - A) = i by omega, hi])
  rw [hw.core.layered.number_eq (fun p hp => by rw [hp]) hlevel he,
    tree_number_prev hw.chain hw.applied_le (le_refl _)]
  omega

/-! ## Reading a key -/

theorem Available.get_eq (hk : 0 < insertions (entries w.stateDb.nonCanonical.levels) k ∨
      w.db.data.get? k = some (val k)) : w.stateDb.get k w.db = some (val k) := by
  have hc := hw.core.counts k
  unfold StateDbSync.get NonCanonicalOverlay.get
  by_cases hpos : insertions (entries w.stateDb.nonCanonical.levels) k = 0
  · rw [if_pos hpos] at hc
    rw [hc]
    exact hk.resolve_left (by omega)
  · rw [if_neg hpos] at hc
    rw [hc]
    rfl

theorem Available.get_of_inLevels {b : H} (hb : InLevels w.stateDb.nonCanonical.levels b) (hfork : ∀
      c ∈ w.stateDb.nonCanonical.pendingCanonicalizations, B.tree.ancEq c b ∨ (w.stateDb.pruning.any
      fun win => win.haveBlock c) = true) (hk : B.Live S b k) :
    w.stateDb.get k w.db = some (val k) := by
  obtain ⟨e, he, rfl⟩ := hb
  obtain ⟨win, hpruning, hwin⟩ := hw.window
  have hl := hw.core.layered
  have hbelow : ∀ {f : BlockOverlay H K}, f ∈ entries w.stateDb.nonCanonical.levels →
      B.tree.anc (prev B C A) f.hash := by
    intro f hf
    obtain ⟨p, rfl, hp⟩ := hl.exists_anc hf
    exact hp
  refine hw.get_eq ?_
  rcases Blocks.live_above (.inr (hbelow he)) hk with ⟨y, hy, hye, hins⟩ | ⟨hlive, hkept⟩
  · -- the key is inserted above the last applied block
    obtain ⟨f, hf, rfl⟩ := hl.inLevels_of_ancEq (fun p hp => by rw [hp]) he hye
      (BlockTree.anc_number_lt hy)
    exact .inl (insertions_pos hf (by rw [(hl.matches hf).inserted]; exact hins))
  rcases hwin.live A (le_refl _) hwin.applied_le hw.chain k hlive with
    hdata | ⟨j, g, hAj, hj, hg, hdel⟩
  · exact .inr hdata
  -- a pending canonicalization `g` has had the key pruned
  obtain ⟨level, hlevel, f, hf, rfl⟩ :=
    hw.pending_in (j - A) g (by rw [show A + (j - A) = j by omega, hg])
  have hmem : f.hash ∈ w.stateDb.nonCanonical.pendingCanonicalizations := by
    rw [hw.pending]
    refine mem_of_getElem? (i := j - A) ?_
    rw [getElem?_drop, show A + (j - A) = j by omega, hg]
  have hfin : f ∈ entries w.stateDb.nonCanonical.levels :=
    mem_entries.mpr ⟨level, mem_of_getElem? hlevel, hf⟩
  rcases hfork f.hash hmem with hanc | hhave
  · exact absurd hdel (hkept f.hash (hbelow hfin) hanc)
  -- a row of its own would be another block of the same number
  rw [hpruning] at hhave
  obtain ⟨i, hC⟩ := hwin.haveBlock hhave
  have h₁ := hw.tree_number hC
  have h2 := hw.tree_number hg
  omega

end

omit [DecidableEq H] in
theorem live_or_deleted {n : Nat} (hc : Chain B C m) (hm : m ≤ C.length) (hin : i ≤ n) (hnm : n ≤ m)
    (hk : B.Live S (prev B C i) k) :
    B.Live S (prev B C n) k ∨ ∃ j h, i ≤ j ∧ j < n ∧ C[j]? = some h ∧ k ∈ B.deleted h := by
  induction n with
  | zero =>
    obtain rfl : i = 0 := by omega
    exact .inl hk
  | succ n ih =>
    by_cases hi : i = n + 1
    · subst hi
      exact .inl hk
    rcases ih (by omega) (by omega) with hlive | ⟨j, h, hij, hjn, hh, hdel⟩
    · obtain ⟨h, hh⟩ : ∃ h, C[n]? = some h := ⟨_, getElem?_eq_getElem (by omega)⟩
      obtain ⟨hroot, hparent⟩ := hc n h (by omega) hh
      by_cases hdel : k ∈ B.deleted h
      · exact .inr ⟨n, h, by omega, by omega, hh, hdel⟩
      · refine .inl ?_
        rw [prev_succ hh]
        exact .kept hroot (hparent ▸ hlive) hdel
    · exact .inr ⟨j, h, hij, by omega, hh, hdel⟩

theorem Available.get_of_applied (hw : Available B S val C A q w) {win}
    (hpruning : w.stateDb.pruning = some win) {b : H} (hb : C[i]? = some b)
    (hi : q + win.pendingPrunings ≤ i) (hA : i < A) (hk : B.Live S b k) :
    w.stateDb.get k w.db = some (val k) := by
  obtain ⟨win', hpruning', hwin⟩ := hw.window
  obtain rfl := some.inj (hpruning.symm.trans hpruning')
  refine hw.get_eq (.inr ?_)
  rw [← prev_succ (B := B) hb] at hk
  rcases live_or_deleted hw.chain hwin.applied_le (by omega) (le_refl _) hk with
    hlive | ⟨j, h, hij, hjA, hh, hdel⟩
  · rcases hwin.live A (le_refl _) hwin.applied_le hw.chain k hlive with
      hdata | ⟨j, _, hAj, hj, _⟩
    · exact hdata
    · omega
  · exact hwin.doomed A (le_refl _) hwin.applied_le hw.chain j h k (by omega) hjA hh hdel

theorem Available.get_of_not_pruned (hw : Available B S val C A q w) {b : H} {number : Nat}
    (hpruned : w.stateDb.isPruned b number = false)
    (hfork : ∀ c ∈ w.stateDb.nonCanonical.pendingCanonicalizations, B.tree.ancEq c b ∨
      (w.stateDb.pruning.any fun win => win.haveBlock c) = true) (hk : B.Live S b k) :
    w.stateDb.get k w.db = some (val k) := by
  obtain ⟨n, hmode⟩ := hw.mode
  obtain ⟨win, hpruning, hwin⟩ := hw.window
  unfold StateDbSync.isPruned at hpruned
  simp only [hmode, hpruning] at hpruned
  split at hpruned
  · -- above the last canonical block: in the overlay
    have hhave : w.stateDb.nonCanonical.haveBlock b = true := by simpa using hpruned
    simp only [haveBlock, Bool.and_eq_true, Bool.or_eq_true] at hhave
    refine hw.get_of_inLevels ?_ hfork hk
    rcases hhave.1 with hin | hin
    · exact hw.core.parents_in b hin
    · exact hw.insertions_in b (by simpa using hin)
  -- canonical: in the window
  simp only [Bool.or_eq_false_iff, Bool.not_eq_false'] at hpruned
  obtain ⟨i, hC⟩ := hwin.haveBlock hpruned.2
  by_cases hA : q + (win.pendingPrunings + i) < A
  · exact hw.get_of_applied hpruning hC (by omega) hA hk
  obtain ⟨level, hlevel, f, hf, rfl⟩ := hw.pending_in (q + (win.pendingPrunings + i) - A) b
    (by rw [show A + (q + (win.pendingPrunings + i) - A) = q + (win.pendingPrunings + i) by
      omega, hC])
  exact hw.get_of_inLevels ⟨f, mem_entries.mpr ⟨level, mem_of_getElem? hlevel, hf⟩, rfl⟩ hfork hk

/-! ## Steps -/

variable {db : Db H K V}

theorem Available.insertBlock (hw : Available B S val C A q w) {h : H}
    (hrun : w.call B val (.insertBlock h) = some w') : Available B S val C A q w' := by
  simp only [World.call] at hrun
  split at hrun
  · rename_i hadm
    obtain ⟨n, hmode⟩ := hw.mode
    have hparent : w.stateDb.nonCanonical.lastCanonicalized = none →
        B.parent h = prev B C A ∨ InLevels w.stateDb.nonCanonical.levels (B.parent h) := by
      intro hlast
      rcases hw.head with ⟨n, hn, _⟩ | ⟨_, hbase, _⟩
      · rw [hlast] at hn
        cases hn
      · exact hadm.2.imp (fun hp => hp.trans hbase.symm) (hw.inserted_in hlast _)
    rw [StateDbSync.insertBlock, hmode] at hrun
    dsimp only at hrun
    rcases insert_cases w.stateDb.nonCanonical h (B.number h) (B.parent h) (changeSet B val h) with
      hpanic | ⟨err, herr⟩ | ⟨c, o', hok, hdata, i, level, hi⟩
    · rw [hpanic] at hrun
      cases hrun
    · -- rejected: nothing changes
      rw [herr] at hrun
      obtain rfl := some.inj hrun
      exact ⟨⟨n, rfl⟩, hw.window, hw.core, hw.head, hw.chain, hw.pending, hw.pending_in,
        hw.insertions_in, hw.inserted_in⟩
    · rw [hok] at hrun
      obtain rfl := some.inj hrun
      have hknown := hi.parent_in hw.head (hw.core.parents_in _) hparent
      refine
        { mode := ⟨n, rfl⟩
          window := ?_
          core := hw.core.insert hi (hi.layered hw.head hw.core.layered hadm.1 hknown)
          head := (hi.head hw.head hw.core.layered hadm.1 hknown).1
          chain := hw.chain
          pending := hi.pendingCanonicalizations.trans hw.pending
          pending_in := ?_
          insertions_in := ?_
          inserted_in := ?_ }
      · obtain ⟨win, hpruning, hwin⟩ := hw.window
        refine ⟨win, hpruning, ?_⟩
        rw [Db.data_commit, hdata]
        exact hwin
      · intro i g hg
        obtain ⟨level, hlevel, e, he, hhash⟩ := hw.pending_in i g hg
        obtain ⟨level', hlevel', hsub⟩ := hi.level_mono hlevel
        exact ⟨level', hlevel', e, hsub e he, hhash⟩
      · intro g hg
        rw [hi.pendingInsertions, mem_append, mem_singleton] at hg
        rw [hi.inLevels_iff]
        exact hg.symm.imp id (hw.insertions_in g)
      · intro hlast g hg
        have hold : w.stateDb.nonCanonical.lastCanonicalized = none := by
          have hlast' := hi.lastCanonicalized
          rw [hlast] at hlast'
          split at hlast'
          · cases hlast'
          · exact hlast'.symm
        rw [hi.inLevels_iff]
        exact (mem_cons.mp hg).imp id (hw.inserted_in hold g)
  · cases hrun

omit [DecidableEq H] in
/-- What is inserted is written, then the pruned rows are deleted. -/
theorem get?_commit_pruned {ins : List K} {rows : List (DeathRow H K)} {p : Nat}
    (hins : c.data.inserted = ins.map fun k => (k, val k))
    (hdel : c.data.deleted = ((rows.drop p).take m).flatMap fun row => row.deleted.keys)
    (hk : ∀ i (row : DeathRow H K), p ≤ i → i < p + m → rows[i]? = some row → k ∉ row.deleted) :
    (db.commit c).data.get? k = if k ∈ ins then some (val k) else db.data.get? k := by
  have hnot : k ∉ c.data.deleted := by
    rw [hdel, mem_flatMap]
    rintro ⟨row, hrow, hkrow⟩
    obtain ⟨i, hi⟩ := mem_iff_getElem?.mp hrow
    have him : i < m := by
      have := (List.getElem?_eq_some_iff.mp hi).1
      rw [length_take] at this
      omega
    rw [getElem?_take_of_lt him, getElem?_drop] at hi
    exact hk (p + i) row (by omega) (by omega) hi hkrow
  rw [Db.data_commit, FinMap.get?_foldl_erase, if_neg hnot, hins, FinMap.get?_foldl_insert_map]

theorem Available.canonicalizeBlock (hw : Available B S val C A q w) (hvalid : B.ValidChanges S)
    {h : H} (hrun : w.call B val (.canonicalizeBlock h) = some w') :
    Available B S val C A q w' ∨ Available B S val (C ++ [h]) A q w' := by
  obtain ⟨n, hmode⟩ := hw.mode
  obtain ⟨win, hpruning, hwin⟩ := hw.window
  simp only [World.call] at hrun
  cases hcall : w.stateDb.canonicalizeBlock h with
  | mk r s' =>
    rw [hcall] at hrun
    cases r with
    | panic => cases hrun
    | err e =>
      -- rejected: nothing changes
      obtain rfl := canonicalizeBlock_err hcall
      obtain rfl := some.inj hrun
      exact .inl ⟨⟨n, hmode⟩, hw.window, hw.core, hw.head, hw.chain, hw.pending,
        hw.pending_in, hw.insertions_in, hw.inserted_in⟩
    | ok c =>
      obtain rfl := some.inj hrun
      obtain ⟨c1, o', c2, win1, win2, hcan, hnote, hprune, rfl⟩ :=
        canonicalizeBlock_constrained hmode hpruning hcall
      obtain ⟨e, he⟩ := canonicalize_ok hcan
      obtain ⟨level, hlevel, hmem⟩ := he.block
      have hentry : e ∈ entries w.stateDb.nonCanonical.levels :=
        mem_entries.mpr ⟨level, mem_of_getElem? hlevel, hmem⟩
      have hmatch := hw.core.layered.matches hentry
      have hinserted : c1.data.inserted = (B.inserted h).map fun k => (k, val k) := by
        obtain ⟨kvs, hkvs, hc1⟩ := he.inserted
        rw [insertedValues_eq hw.core.counts fun k hk => insertions_pos hentry hk,
          some.injEq] at hkvs
        rw [hc1, ← hkvs, hmatch.inserted, he.hash]
        rfl
      have hdeleted : c1.data.deleted = B.deleted h := by
        rw [he.deleted, hmatch.deleted, he.hash]
        rfl
      obtain ⟨hc2, himport⟩ := noteCanonical_some hwin.countInsertions hnote
      have hkeys : c1.data.inserted.map Prod.fst = B.inserted h := by
        simp [hinserted, Function.comp_def]
      rw [hkeys, hdeleted] at himport
      have hwin1 := hwin.enter hvalid himport
      obtain ⟨m, rfl, hm, hins, hdel⟩ := RefWindow.pruneRows_spec _ _ hwin1.pending_le hprune
      rw [hc2] at hins hdel
      have hwin2 := hwin1.prune hvalid hm (w.db.commit c).data.get? fun k hk =>
        get?_commit_pruned (hins.trans hinserted) (hdel.trans (nil_append _)) hk
      have hA := hw.applied_le
      refine .inr
        { mode := ⟨n, hmode⟩
          window := ⟨_, rfl, hwin2⟩
          core := ?_
          head := ?_
          chain := (chain_concat hA h).mpr hw.chain
          pending := ?_
          pending_in := ?_
          insertions_in := ?_
          inserted_in := ?_ }
      · rw [prev_append hA, he.overlay]
        exact ⟨hw.core.layered, hw.core.parentsAgree, hw.core.parents_in, hw.core.counts,
          hw.core.unpinned⟩
      · rw [prev_append hA, he.overlay]
        exact hw.head
      · rw [he.overlay, drop_append_of_le_length hA, ← hw.pending]
      · intro i g hg
        rw [he.overlay]
        by_cases hi : A + i < C.length
        · rw [getElem?_concat_lt hi] at hg
          exact hw.pending_in i g hg
        have hlt := (List.getElem?_eq_some_iff.mp hg).1
        rw [length_append, length_singleton] at hlt
        have hi' : A + i = C.length := by omega
        rw [hi', getElem?_concat_length, some.injEq] at hg
        subst hg
        have hlen : w.stateDb.nonCanonical.pendingCanonicalizations.length = i := by
          rw [hw.pending, length_drop]
          omega
        rw [hlen] at hlevel
        exact ⟨level, hlevel, e, hmem, he.hash⟩
      · rw [he.overlay]
        exact hw.insertions_in
      · rw [he.overlay]
        exact hw.inserted_in

omit [DecidableEq H] [DecidableEq K] in
theorem chain_of_chainFrom {base : H} (hA : A ≤ C.length) (hc : Chain B C A)
    (hfrom : ChainFrom B (prev B C A) (C.drop A) base) :
    Chain B C C.length ∧ base = prev B C C.length := by
  induction hn : C.length - A generalizing A with
  | zero =>
    obtain rfl : A = C.length := by omega
    rw [drop_length] at hfrom
    exact ⟨hc, hfrom⟩
  | succ n ih =>
    have hlt : A < C.length := by omega
    rw [drop_eq_getElem_cons hlt] at hfrom
    obtain ⟨hroot, hparent, hmore⟩ := hfrom
    have hget := getElem?_eq_getElem hlt
    refine ih (A := A + 1) (by omega) (fun i h hi hh => ?_) ?_ (by omega)
    · by_cases hiA : i < A
      · exact hc i h hiA hh
      · obtain rfl : i = A := by omega
        obtain rfl := some.inj (hget.symm.trans hh)
        exact ⟨hroot, hparent⟩
    · rw [prev_succ hget]
      exact hmore

section

variable (hw : Available B S val C A q w)
include hw

theorem Available.canonicalHead (hc : Chain B C C.length) (hlt : A < C.length) :
    ∃ n, w.stateDb.nonCanonical.canonicalHead = some (prev B C C.length, n) ∧
      n + 1 = B.tree.number (prev B C C.length) := by
  have hbase := tree_number_prev hw.chain hw.applied_le (le_refl _)
  have hend := tree_number_prev hc (le_refl _) (le_refl _)
  have hlen : w.stateDb.nonCanonical.pendingCanonicalizations.length = C.length - A := by
    rw [hw.pending, length_drop]
  have hlast : w.stateDb.nonCanonical.pendingCanonicalizations.getLast? =
      some (prev B C C.length) := by
    rw [hw.pending, getLast?_eq_getElem?, length_drop, getElem?_drop,
      show A + (C.length - A - 1) = C.length - 1 by omega]
    have hget := getElem?_eq_getElem (show C.length - 1 < C.length by omega)
    rw [hget, ← prev_succ (B := B) hget, show C.length - 1 + 1 = C.length by omega]
  unfold NonCanonicalOverlay.canonicalHead
  rw [hlast]
  rcases hw.head with ⟨n, hn, hnum⟩ | ⟨hn, hroot, hfirst⟩
  · simp only [hn]
    exact ⟨_, rfl, by omega⟩
  simp only [hn]
  refine ⟨_, rfl, ?_⟩
  rw [hroot, B.tree_number_root] at hbase
  have hzero : B.first = 0 := by
    refine hfirst.resolve_right fun hnil => ?_
    obtain ⟨level, hlevel, _⟩ := hw.pending_in 0 _
      (getElem?_eq_getElem (show A + 0 < C.length by omega))
    simp [hnil] at hlevel
  omega

theorem Available.applyPending (hrun : w.call B val .applyPending = some w') :
    ∃ q', Available B S val C C.length q' w' := by
  obtain ⟨n, hmode⟩ := hw.mode
  obtain ⟨win, hpruning, hwin⟩ := hw.window
  simp only [World.call, map_eq_some_iff] at hrun
  obtain ⟨s', hs', rfl⟩ := hrun
  obtain ⟨o', ho', rfl, hmode', hwindow⟩ := applyPending_some hs'
  obtain ⟨win', hwin', hpruning'⟩ := hwindow win hpruning
  unfold NonCanonicalOverlay.applyPending at ho'
  split at ho'
  · cases ho'
  rename_i o1 hall
  rw [some.injEq] at ho'
  rw [hw.pending] at hall
  obtain ⟨base, hfrom, hcore, hlast⟩ := hw.core.applyAll hall
  obtain ⟨hchain, rfl⟩ := chain_of_chainFrom hw.applied_le hw.chain hfrom
  refine ⟨q + win.pendingPrunings,
    { mode := ⟨n, hmode'.trans hmode⟩
      window := ⟨win', hpruning', hwin.apply hchain hwin'⟩
      core := ?_
      head := ?_
      chain := hchain
      pending := ?_
      pending_in := ?_
      insertions_in := ?_
      inserted_in := ?_ }⟩
  · rw [← ho']
    exact ⟨hcore.layered, hcore.parentsAgree, hcore.parents_in, hcore.counts, hcore.unpinned⟩
  · rw [← ho']
    by_cases hlt : A < C.length
    · exact .inl (hw.canonicalHead hchain hlt)
    obtain rfl : A = C.length := by have := hw.applied_le; omega
    rw [drop_length] at hall
    obtain rfl := by simpa using hall
    have hhead := hw.head
    unfold NonCanonicalOverlay.canonicalHead at *
    rw [hw.pending, drop_length]
    exact hhead
  · rw [← ho', drop_length]
  · intro i h hi
    have := (List.getElem?_eq_some_iff.mp hi).1
    omega
  · rw [← ho']
    simp
  · intro hnone
    rw [← ho'] at hnone ⊢
    have hnil : ¬A < C.length := by
      intro hlt
      obtain ⟨n, hn, _⟩ := hw.canonicalHead hchain hlt
      exact absurd (hn.symm.trans hnone) (by simp)
    obtain rfl : A = C.length := by have := hw.applied_le; omega
    rw [drop_length] at hall
    obtain rfl := by simpa using hall
    refine hw.inserted_in ?_
    simp only [NonCanonicalOverlay.canonicalHead, hw.pending, drop_length, getLast?_nil] at hnone
    exact hnone

theorem Available.call (hvalid : B.ValidChanges S) {c : Call H} (hrun : w.call B val c = some w') :
    ∃ C' A' q', Available B S val C' A' q' w' := by
  cases c with
  | insertBlock h => exact ⟨C, A, q, hw.insertBlock hrun⟩
  | canonicalizeBlock h =>
    rcases hw.canonicalizeBlock hvalid hrun with hw' | hw'
    · exact ⟨C, A, q, hw'⟩
    · exact ⟨C ++ [h], A, q, hw'⟩
  | applyPending =>
    obtain ⟨q', hw'⟩ := hw.applyPending hrun
    exact ⟨C, C.length, q', hw'⟩

theorem Available.run (hvalid : B.ValidChanges S) {calls} (hrun : w.run B val calls = some w') :
    ∃ C' A' q', Available B S val C' A' q' w' := by
  refine Vec.foldlM_keeps (P := fun w => ∃ C A q, Available B S val C A q w) ?_ ⟨C, A, q, hw⟩ hrun
  rintro w c w' ⟨C, A, q, hw⟩ hround
  exact hw.call hvalid hround

end

/-! ## The start -/

section

variable {db : Db H K V} (hjournal : ∀ key, db.journal.get? key = none)
include hjournal

theorem readLevel_empty (block : Nat) (t : Tables H K V) : readLevel db block t = (.new, t) := by
  have hstep : ∀ (l : List Nat) s, l.foldl (readRecord db block) s = s := by
    intro l
    induction l with
    | nil => exact fun s => rfl
    | cons i l ih =>
      intro s
      rw [foldl_cons, ih, readRecord, hjournal]
  exact hstep _ _

theorem new_empty : new db =
      { parents := .empty
        values := .empty
        pinnedInsertions := .empty
        lastCanonicalized := db.lastCanonical
        levels := []
        pendingCanonicalizations := []
        pendingInsertions := []
        pinned := .empty } := by
  unfold new
  cases hlast : db.lastCanonical with
  | none => rfl
  | some last =>
    simp [readLevels, readLevel_empty hjournal, OverlayLevel.new, isEmpty_nil]

theorem core_new_empty (base : H) : Core B val base (new db) := by
  rw [new_empty hjournal]
  refine ⟨trivial, fun x p hx => ?_, fun x hx => ?_, fun k => rfl, fun x => rfl⟩
  · cases hx
  · cases hx

end

theorem Available.start {s n} (hdb : HoldsState B S val db)
    (hnew : StateDbSync.new (.constrained ⟨n, none⟩) true db = .ok s) :
    Available B S val [] 0 0 ⟨s, db, []⟩ := by
  unfold StateDbSync.new at hnew
  split at hnew
  · cases hnew
  simp only [RefWindow.new, RefWindow.readJournal, hdb.pruningJournal] at hnew
  obtain rfl := Outcome.ok.inj hnew
  refine
    { mode := ⟨n, rfl⟩
      window := ⟨_, rfl, ?_⟩
      core := core_new_empty hdb.journal _
      head := ?_
      chain := fun i h hi => by omega
      pending := by rw [new_empty hdb.journal]; rfl
      pending_in := fun i h hi => by simp at hi
      insertions_in := by rw [new_empty hdb.journal]; simp
      inserted_in := fun _ h hh => by simp at hh }
  · refine ⟨rfl, le_refl _, le_refl _, rfl, le_refl _, ?_, ?_, ?_, ?_, ?_, ?_⟩
    · intro i row hi
      simp at hi
    · intro i row k hi
      simp at hi
    · intro _ i row k hi
      simp at hi
    · intro m _ _ _ i row k hi
      simp at hi
    · intro m _ hm _ k hk
      obtain rfl := by simpa using hm
      refine .inl ((hdb.data k (val k)).mpr ⟨?_, rfl⟩)
      cases hk with
      | root hS => exact hS
      | inserted hne | kept hne => exact absurd rfl hne
    · intro m _ hm _ j h k _ hj
      simp only [length_nil] at hm
      omega
  · rw [new_empty hdb.journal]
    rcases hdb.lastCanonical with hnone | ⟨n, hn, hfirst⟩
    · exact .inr ⟨hnone, rfl, .inr rfl⟩
    · exact .inl ⟨n, hn, hfirst.trans B.tree_number_root.symm⟩

/-- **States stay available.** Start from a database that holds the state of the
last canonical block and make any calls. Whenever `isPruned` does not report a
block, every key of its state is read back with its value, provided each pending
canonicalization is the block itself or an ancestor of it, or is still in the
pruning window. -/
theorem state_available {db : Db H K V} {s : StateDbSync H K V} {n : Option Nat}
    (hvalid : B.ValidChanges S) (hdb : HoldsState B S val db)
    (hnew : StateDbSync.new (.constrained ⟨n, none⟩) true db = .ok s)
    {calls : List (Call H)} (hrun : World.run B val ⟨s, db, []⟩ calls = some w) {b : H}
    (hpruned : w.stateDb.isPruned b (B.number b) = false)
    (hfork : ∀ c ∈ w.stateDb.nonCanonical.pendingCanonicalizations, B.tree.ancEq c b ∨
      (w.stateDb.pruning.any fun win => win.haveBlock c) = true)
    {k : K} (hk : B.Live S b k) : w.stateDb.get k w.db = some (val k) := by
  obtain ⟨C, A, q, hw⟩ := (Available.start hdb hnew).run hvalid hrun
  exact hw.get_of_not_pruned hpruned hfork hk

/-! ## A fork of two blocks

Above block 0, whose state is the key 7: block 1, which deletes the key, and a
fork of the blocks 2 and 3 that keeps it. -/

def forkBlocks : Blocks Nat Nat where
  root := 0
  first := 1
  parent h := if h = 3 then 2 else 0
  number h := if h = 3 then 2 else 1
  inserted _ := []
  deleted h := if h = 1 then [7] else []
  number_first h _ hp := by
    by_cases h3 : h = 3
    · simp [h3] at hp
    · simp [h3]
  number_succ h _ hp := by
    by_cases h3 : h = 3
    · simp [h3]
    · simp [h3] at hp

theorem forkBlocks_validChanges : forkBlocks.ValidChanges (· = 7) where
  disjoint h _ k hk := by simp [forkBlocks] at hk
  deleted_live h _ k hk := by
    by_cases h1 : h = 1
    · subst h1
      obtain rfl := by simpa [forkBlocks] using hk
      exact .root rfl
    · simp [forkBlocks, h1] at hk

theorem forkBlocks_live : forkBlocks.Live (· = 7) 3 7 :=
  .kept (by decide) (.kept (by decide) (.root rfl) (by decide)) (by decide)

def forkDb : Db Nat Nat Nat where
  data := FinMap.empty.insert 7 7
  lastCanonical := some (0, 0)
  journal := .empty
  lastPruned := none
  pruningJournal := .empty
  pruningMode := none

theorem forkDb_holdsState : HoldsState forkBlocks (· = 7) id forkDb where
  lastCanonical := .inr ⟨0, rfl, rfl⟩
  journal _ := rfl
  pruningJournal _ := rfl
  data k v := by
    by_cases hk : k = 7
    · subst hk
      simp [forkDb, eq_comm]
    · simp [forkDb, hk]

/-- **A fork that is about to be discarded loses keys before it counts as pruned.**
With no blocks to keep, canonicalizing block 1 prunes it at once and deletes its
key, while block 3 of the other fork is not reported as pruned. -/
theorem discarded_fork_not_pruned :
    ∃ s w, StateDbSync.new (.constrained ⟨some 0, none⟩) true forkDb = .ok s ∧
      World.run forkBlocks id ⟨s, forkDb, []⟩ [.insertBlock 1, .insertBlock 2, .insertBlock 3,
        .applyPending, .canonicalizeBlock 1] = some w ∧
      3 ∈ w.inserted ∧ w.stateDb.isPruned 3 (forkBlocks.number 3) = false ∧
      forkBlocks.Live (· = 7) 3 7 ∧ w.stateDb.get 7 w.db = none := by
  refine ⟨_, _, rfl, rfl, ?_, ?_, forkBlocks_live, ?_⟩
  · decide
  · decide
  · decide

/-- The same run with the fork itself canonicalized: the key is read back. -/
theorem canonical_fork_available :
    ∃ s w, StateDbSync.new (.constrained ⟨some 0, none⟩) true forkDb = .ok s ∧
      World.run forkBlocks id ⟨s, forkDb, []⟩ [.insertBlock 1, .insertBlock 2, .insertBlock 3,
        .applyPending, .canonicalizeBlock 2] = some w ∧
      w.stateDb.isPruned 3 (forkBlocks.number 3) = false ∧ w.stateDb.get 7 w.db = some 7 := by
  obtain ⟨s, w, hnew, hrun, hpruned, hpending⟩ : ∃ s w,
      StateDbSync.new (.constrained ⟨some 0, none⟩) true forkDb = .ok s ∧
      World.run forkBlocks id ⟨s, forkDb, []⟩ [.insertBlock 1, .insertBlock 2, .insertBlock 3,
        .applyPending, .canonicalizeBlock 2] = some w ∧
      w.stateDb.isPruned 3 (forkBlocks.number 3) = false ∧
      w.stateDb.nonCanonical.pendingCanonicalizations = [2] :=
    ⟨_, _, rfl, rfl, by decide, rfl⟩
  refine ⟨s, w, hnew, hrun, hpruned, ?_⟩
  refine state_available forkBlocks_validChanges forkDb_holdsState hnew hrun hpruned ?_
    forkBlocks_live
  intro c hc
  obtain rfl := by simpa [hpending] using hc
  exact .inl (.inr (forkBlocks.anc_parent (h := 3) (by decide)))

end Substrate.StateDb
