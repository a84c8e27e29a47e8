import Substrate.OverlaySound

/-!
# Reverting what is pending

`revert_pending` takes the inserted blocks out again, the last one first. What it should give back
is the overlay before the first of them (`Same`), up to levels at the end that have no blocks: the
undo drops a level that becomes empty, whether or not the insertion has made it. One insertion is
undone exactly if the block is new, the levels below its own have blocks, which the search for it
asks of them, and its own level has one or else none above has. The block that an overlay without
blocks takes as canonicalized is not given back.
-/

namespace Substrate.StateDb

open NonCanonicalOverlay List OverlayLevel Option

variable {H K V : Type} [DecidableEq H] [DecidableEq K]

/-- Equal up to levels without blocks at the end. -/
def SameLevels (ls ls' : List (OverlayLevel H K)) : Prop :=
  ∃ common more more', ls = common ++ more ∧ ls' = common ++ more' ∧
    (∀ l ∈ more, l.blocks = []) ∧ ∀ l ∈ more', l.blocks = []

structure Same (o o' : NonCanonicalOverlay H K V) : Prop where
  lastCanonicalized : o.lastCanonicalized = o'.lastCanonicalized
  levels : SameLevels o.levels o'.levels
  parents : ∀ h, o.parents.get? h = o'.parents.get? h
  values : ∀ k, o.values.get? k = o'.values.get? k

/-- There is a block in each level below `i`, and in the level itself if there is one above. -/
def Tidy (levels : List (OverlayLevel H K)) (i : Nat) : Prop :=
  (∀ l ∈ levels.take i, l.blocks ≠ []) ∧
    ((∃ l, levels[i]? = some l ∧ l.blocks ≠ []) ∨ ∀ l ∈ levels.drop i, l.blocks = [])

structure Revertible (o : NonCanonicalOverlay H K V) (hash : H) (number : Nat) : Prop where
  fresh : o.parents.contains hash = false
  founded : ¬(o.levels = [] ∧ o.lastCanonicalized = none ∧ number > 0)
  tidy : Tidy o.levels (number - o.frontBlockNumber)

/-- Calls of `insert` and `canonicalize` that succeed, each meeting a condition. -/
inductive Batch (Cond : NonCanonicalOverlay H K V → H → Nat → Prop)
    (o : NonCanonicalOverlay H K V) : NonCanonicalOverlay H K V → Prop
  | refl : Batch Cond o o
  | insert {o₁ o₂} (hash : H) (number : Nat) (parentHash : H)
      (changeset : ChangeSet K V) {c} (hrun : Batch Cond o o₁) (hcond : Cond o₁ hash number)
      (hok : o₁.insert hash number parentHash changeset = (.ok c, o₂)) : Batch Cond o o₂
  | canonicalize {o₁ o₂} {hash : H} {commit c}
      (hrun : Batch Cond o o₁) (hok : o₁.canonicalize hash commit = (.ok c, o₂)) : Batch Cond o o₂

/-! ## One insertion -/

section Levels

variable {levels common more : List (OverlayLevel H K)} {i : Nat} {level : OverlayLevel H K}
  {hash : H} {e : BlockOverlay H K}

omit [DecidableEq K] in
theorem lastPosition_eq (hbelow : ∀ l ∈ levels.take i, l.blocks ≠ [])
    (hother : ∀ l ∈ levels.take i, ∀ f ∈ l.blocks, f.hash ≠ hash) (hi : levels[i]? = some level)
    (hlast : level.blocks.getLast? = some e) (he : e.hash = hash) :
    lastPosition hash levels = some (some i) := by
  induction levels generalizing i with
  | nil => simp at hi
  | cons first rest ih =>
    cases i with
    | zero =>
      obtain rfl := some.inj hi
      unfold lastPosition
      simp [hlast, he]
    | succ i =>
      rw [take_succ_cons] at hbelow hother
      obtain ⟨hfirst, hbelow⟩ := forall_mem_cons.mp hbelow
      obtain ⟨hfirst', hother⟩ := forall_mem_cons.mp hother
      unfold lastPosition
      rw [getLast?_eq_some_getLast hfirst]
      simp [if_neg (hfirst' _ (getLast_mem hfirst)),
        ih hbelow hother (by simpa using hi)]

section

omit [DecidableEq H] [DecidableEq K]

theorem take_grown (hi : i ≤ levels.length) : (grown levels i).take i = levels.take i := by
  unfold grown
  split
  · rw [take_append_of_le_length hi]
  · rfl

theorem mem_drop_grown {l} (h : l ∈ (grown levels i).drop (i + 1)) : l ∈ levels.drop i := by
  unfold grown at h
  split at h
  · rename_i hi
    rw [drop_eq_nil_of_le (by simp [hi])] at h
    cases h
  · rw [← drop_drop] at h
    exact mem_of_mem_drop h

end

section

omit [DecidableEq H] [DecidableEq K]

theorem getElem?_grown (h : (grown levels i)[i]? = some level)
    (hne : level.blocks ≠ []) : grown levels i = levels ∧ levels[i]? = some level := by
  have htop : i ≠ levels.length := fun htop => hne (by rw [getElem?_grown_length htop h]; rfl)
  rw [grown, if_neg htop] at h ⊢
  exact ⟨rfl, h⟩

theorem lt_common {more'} (hmore : ∀ l ∈ more', l.blocks = [])
    (hi : (common ++ more')[i]? = some level) (hne : level.blocks ≠ []) : i < common.length := by
  by_contra hge
  rw [getElem?_append_right (Nat.not_lt.mp hge)] at hi
  exact hne (hmore level (mem_of_getElem? hi))

theorem SameLevels.revert {xs} (hi : i ≤ levels.length) (hlevel : (grown levels i)[i]? = some level)
    (htidy : Tidy levels i) (h : SameLevels xs ((grown levels i).set i (level.push e))) :
    xs.take i = levels.take i ∧ xs[i]? = some (level.push e) ∧
      SameLevels (if level.blocks.isEmpty then (xs.set i level).dropLast else xs.set i level)
        levels := by
  obtain ⟨common, more, more', rfl, hnew, hmore, hmore'⟩ := h
  have hlt : i < (grown levels i).length := (List.getElem?_eq_some_iff.mp hlevel).1
  have hat : (common ++ more')[i]? = some (level.push e) := by
    rw [← hnew, getElem?_set_self hlt]
  have hcommon : i < common.length := lt_common hmore' hat (by simp [push])
  have hget : common[i]? = some (level.push e) := by
    rwa [getElem?_append_left hcommon] at hat
  have htake : common.take i = levels.take i := by
    have := congrArg (take i) hnew
    rwa [take_set_of_le (Nat.le_refl _), take_grown hi,
      take_append_of_le_length (Nat.le_of_lt hcommon), eq_comm] at this
  refine ⟨by rw [take_append_of_le_length (Nat.le_of_lt hcommon), htake],
    by rw [getElem?_append_left hcommon, hget], ?_⟩
  rw [set_append_left _ _ hcommon]
  split
  · -- all levels from this one on are without blocks
    rename_i hempty
    have hnil := isEmpty_iff.mp hempty
    have hdrop : ∀ l ∈ levels.drop i, l.blocks = [] := by
      rcases htidy.2 with ⟨l, hl, hne⟩ | hall
      · exfalso
        obtain rfl := some.inj (hlevel.symm.trans (getElem?_grown_of_some hl))
        exact hne hnil
      · exact hall
    have habove : ∀ l ∈ common.drop (i + 1), l.blocks = [] := by
      intro l hl
      have hmem : l ∈ (common ++ more').drop (i + 1) := by
        rw [drop_append_of_le_length hcommon]
        exact mem_append_left _ hl
      rw [← hnew, drop_set_of_lt (Nat.lt_succ_self i)] at hmem
      exact hdrop l (mem_drop_grown hmem)
    have hsplit : common.set i level ++ more =
        levels.take i ++ (level :: (common.drop (i + 1) ++ more)) := by
      rw [set_eq_take_append_cons_drop, if_pos hcommon, htake, append_assoc, cons_append]
    rw [hsplit, dropLast_append_of_ne_nil (cons_ne_nil _ _)]
    refine ⟨levels.take i, _, levels.drop i, rfl, (take_append_drop i levels).symm, ?_, hdrop⟩
    intro l hl
    rcases mem_cons.mp ((dropLast_sublist _).subset hl) with rfl | hl
    · exact hnil
    · rcases mem_append.mp hl with hl | hl
      · exact habove l hl
      · exact hmore l hl
  · rename_i hempty
    obtain ⟨hgrown, hold⟩ := getElem?_grown hlevel (by simpa using hempty)
    refine ⟨common.set i level, more, more', rfl, ?_, hmore, hmore'⟩
    rw [← set_append_left _ _ hcommon, ← hnew, hgrown, set_set]
    obtain ⟨hlt', rfl⟩ := List.getElem?_eq_some_iff.mp hold
    exact (set_getElem_self hlt').symm

end

end Levels

/-! ## All pending insertions -/

section Reverts

variable {o o0 o₁ x : NonCanonicalOverlay H K V} {hash parentHash : H} {number i : Nat}
  {changeset : ChangeSet K V} {level : OverlayLevel H K}

omit [DecidableEq H] [DecidableEq K] in
theorem remove_push (level : OverlayLevel H K) (e : BlockOverlay H K)
    (he : e.journalIndex = level.availableIndex) :
    (level.push e).remove level.blocks.length = some (e, level) := by
  have hsplit : (level.push e).blocks = level.blocks ++ e :: [] := rfl
  rw [remove_split hsplit]
  simp [push, he, availableIndex, BitMask.clearBit_setBit_trailingOnes]

theorem Same.tables (hx : Same x o₁) (hsound : Sound (entries o0.levels) o0.toTables)
    (hfresh : o0.parents.contains hash = false)
    (hin : Enters o0 hash number parentHash changeset i level o₁) :
    (∀ h, (x.parents.erase hash).get? h = o0.parents.get? h) ∧
      ∀ k, (discardValues x.values (changeset.inserted.map Prod.fst)).get? k = o0.values.get? k := by
  constructor
  · intro h
    rw [FinMap.get?_erase]
    by_cases hh : h = hash
    · rw [hh, Function.update_self, FinMap.contains_eq_false.mp hfresh]
    · rw [Function.update_of_ne hh, hx.parents, hin.parents, FinMap.get?_insert,
        Function.update_of_ne hh]
  · intro k
    have hsame : x.values.get? = (insertValues o0.values changeset.inserted).get? := by
      rw [← hin.values]
      exact funext hx.values
    exact congrFun (RefCount.releaseAll_retainAll hsound.counted changeset.inserted hsame) k

theorem Same.revert (hx : Same x o₁) (hsound : Sound (entries o0.levels) o0.toTables)
    (hr : Revertible o0 hash number)
    (hin : Enters o0 hash number parentHash changeset i level o₁) :
    ∃ x', revertInsertion x hash = some x' ∧ Same x' o0 := by
  have hlast : o₁.lastCanonicalized = o0.lastCanonicalized := by
    rw [hin.lastCanonicalized, if_neg hr.founded]
  have hindex : number - o0.frontBlockNumber = i := by
    have := hin.number_eq
    rw [frontBlockNumber_congr hlast] at this
    omega
  have htidy := hr.tidy
  rw [hindex] at htidy
  have hlevels := hx.levels
  rw [hin.levels] at hlevels
  obtain ⟨htake, hget, hback⟩ := SameLevels.revert hin.index_le hin.get?_level htidy hlevels
  obtain ⟨hparents, hvalues⟩ := hx.tables hsound hr.fresh hin
  -- the block is the last one of its level, and new
  have hposition : lastPosition hash x.levels = some (some i) := by
    refine lastPosition_eq ?_ ?_ hget getLast?_concat rfl
    · rw [htake]
      exact htidy.1
    · rw [htake]
      rintro l hl f hf rfl
      have hlisted := hsound.listed f (mem_entries.mpr ⟨l, mem_of_mem_take hl, hf⟩)
      rw [hr.fresh] at hlisted
      cases hlisted
  have hremove := remove_push level (overlayOf number level.availableIndex
    (⟨hash, parentHash, changeset.inserted, changeset.deleted⟩ : JournalRecord H K V)) rfl
  have hlen : (level.push (overlayOf number level.availableIndex
      (⟨hash, parentHash, changeset.inserted, changeset.deleted⟩ : JournalRecord H K V))).blocks.length
      - 1 = level.blocks.length := by
    simp [push]
  refine ⟨{ x with
    parents := x.parents.erase hash
    values := discardValues x.values (changeset.inserted.map Prod.fst)
    levels := if level.blocks.isEmpty then (x.levels.set i level).dropLast
      else x.levels.set i level }, ?_,
    ⟨hx.lastCanonicalized.trans hlast, hback, hparents, hvalues⟩⟩
  unfold revertInsertion
  simp only [hposition, hget, bind_some, hlen, hremove]
  rfl

omit [DecidableEq H] [DecidableEq K] in
theorem Same.refl (o : NonCanonicalOverlay H K V) : Same o o :=
  ⟨rfl, ⟨o.levels, [], [], by simp, by simp, by simp, by simp⟩, fun _ => rfl, fun _ => rfl⟩

section

variable (h : Batch Revertible o o₁) (hsound : Sound (entries o.levels) o.toTables)
include h hsound

theorem Batch.sound : Sound (entries o₁.levels) o₁.toTables := by
  induction h with
  | refl => exact hsound
  | insert hash number parentHash changeset _ hcond hok ih =>
    obtain ⟨i, level, hin⟩ := enters_of_insert hok
    exact ih.insert hcond.fresh hin
  | @canonicalize o₁ o₂ hash commit c _ hok ih =>
    have hrun : (OverlayOp.canonicalize hash commit).run o₁ = some o₂ := by
      rw [OverlayOp.run, hok]
      rfl
    exact ih.run (show (OverlayOp.canonicalize hash commit).Fresh o₁ from trivial) hrun

theorem Batch.revert (hnone : o.pendingInsertions = []) (hx : Same x o₁) :
    ∃ x', o₁.pendingInsertions.reverse.foldlM revertInsertion x = some x' ∧ Same x' o := by
  induction h generalizing x with
  | refl =>
    rw [hnone]
    exact ⟨x, rfl, hx⟩
  | insert hash number parentHash changeset hbatch hcond hok ih =>
    obtain ⟨i, level, hin⟩ := enters_of_insert hok
    obtain ⟨x1, hfirst, hsame⟩ := hx.revert (hbatch.sound hsound) hcond hin
    obtain ⟨x', hmore, hsame'⟩ := ih hsame
    refine ⟨x', ?_, hsame'⟩
    rw [hin.pendingInsertions, reverse_append, reverse_singleton, singleton_append,
      foldlM_cons, hfirst]
    exact hmore
  | @canonicalize o₁ o₂ hash commit c _ hok ih =>
    have hrun : (OverlayOp.canonicalize hash commit).run o₁ = some o₂ := by
      rw [OverlayOp.run, hok]
      rfl
    rcases canonicalize_run hrun with rfl | rfl
    · exact ih hx
    · exact ih ⟨hx.lastCanonicalized, hx.levels, hx.parents, hx.values⟩

end

end Reverts

/-- **`revert_pending` is an exact undo** of revertible insertions, from every overlay that calls lead
to, as long as the blocks are new. -/
theorem revertPending_exact {o o₁ : NonCanonicalOverlay H K V}
    (hrun : OverlayRun Distinct (fun o op => OverlayOp.Fresh o op) o)
    (hidle : o.pendingInsertions = [] ∧ o.pendingCanonicalizations = [])
    (hbatch : Batch Revertible o o₁) :
    ∃ o', o₁.revertPending = some o' ∧ Same o' o := by
  have hsound := hrun.sound (fun _ h => h) fun _ _ h => h
  obtain ⟨x, hfold, hsame⟩ := hbatch.revert hsound hidle.1
    (x := { o₁ with pendingCanonicalizations := [] })
    ⟨rfl, (Same.refl o₁).levels, fun _ => rfl, fun _ => rfl⟩
  refine ⟨{ x with pendingInsertions := [] }, ?_, ?_⟩
  · unfold NonCanonicalOverlay.revertPending
    rw [hfold]
  · exact ⟨hsame.lastCanonicalized, hsame.levels, hsame.parents, hsame.values⟩

section Concrete

private def blank : NonCanonicalOverlay Nat Nat Nat := new ⟨.empty, none, .empty, none, .empty, none⟩

private def oneBlock : NonCanonicalOverlay Nat Nat Nat := (blank.insert 1 0 0 ⟨[(5, 50)], []⟩).2

private def twoBlocks : NonCanonicalOverlay Nat Nat Nat := (oneBlock.insert 2 1 1 ⟨[(5, 50)], []⟩).2

/-- Two blocks with a common value, one on top of the other. -/
theorem revertPending_exact_two : ∃ o o₁ : NonCanonicalOverlay Nat Nat Nat,
      OverlayRun Distinct (fun o op => OverlayOp.Fresh o op) o ∧
      (o.pendingInsertions = [] ∧ o.pendingCanonicalizations = []) ∧ Batch Revertible o o₁ ∧
      o₁.pendingInsertions = [1, 2] ∧ ∃ o', o₁.revertPending = some o' ∧ Same o' o := by
  have hrun : OverlayRun Distinct (fun o op => OverlayOp.Fresh o op) blank :=
    .new _ (show (([] : List (BlockOverlay Nat Nat)).map BlockOverlay.hash).Nodup from .nil)
  have hone : Batch Revertible blank oneBlock := by
    refine .insert 1 0 0 ⟨[(5, 50)], []⟩ .refl ⟨rfl, ?_, ?_⟩ rfl
    · rintro ⟨-, -, hpos⟩
      exact absurd hpos (by decide)
    · exact ⟨by simp, .inr (by simp [blank, NonCanonicalOverlay.new])⟩
  have htwo : Batch Revertible blank twoBlocks := by
    refine .insert 2 1 1 ⟨[(5, 50)], []⟩ hone ⟨by decide, ?_, ?_⟩ rfl
    · rintro ⟨hnil, -, -⟩
      cases hnil
    · refine ⟨?_, .inr ?_⟩
      · intro l hl
        obtain rfl := mem_singleton.mp hl
        exact cons_ne_nil _ _
      · intro l hl
        cases hl
  exact ⟨blank, twoBlocks, hrun, ⟨rfl, rfl⟩, htwo, rfl, revertPending_exact hrun ⟨rfl, rfl⟩ htwo⟩

/-- A fresh overlay takes the parent of its first block as canonicalized, and still does after the
insertion was reverted. -/
theorem revertPending_keeps_assumed : ∃ o o₁ o' : NonCanonicalOverlay Nat Nat Nat,
      OverlayRun Distinct (fun o op => OverlayOp.Fresh o op) o ∧
      (o.pendingInsertions = [] ∧ o.pendingCanonicalizations = []) ∧
      Batch (fun _ _ _ => True) o o₁ ∧ o₁.revertPending = some o' ∧
      o.lastCanonicalized = none ∧ o'.lastCanonicalized = some (0, 0) := by
  have hrun : OverlayRun Distinct (fun o op => OverlayOp.Fresh o op) blank :=
    .new _ (show (([] : List (BlockOverlay Nat Nat)).map BlockOverlay.hash).Nodup from .nil)
  have hone : Batch (fun _ _ _ => True) blank (blank.insert 1 1 0 ⟨[], []⟩).2 :=
    .insert 1 1 0 ⟨[], []⟩ .refl trivial rfl
  exact ⟨blank, _, _, hrun, ⟨rfl, rfl⟩, hone, rfl, rfl, rfl⟩

end Concrete

end Substrate.StateDb
