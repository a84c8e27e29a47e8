import Substrate.OverlayCore

/-!
# Runs of the overlay

The calls of the non-canonical overlay in any order, from any database. Apart from an insertion,
every call only takes blocks out of the levels and levels off the end, or off the front when
canonicalizations are applied (`Shrinks`). So a block stays in the level that its number names
(`Numbered`).
-/

namespace Substrate.StateDb

open NonCanonicalOverlay List Option

variable {H K V : Type} [DecidableEq H] [DecidableEq K]

/-! ## Calls -/

inductive OverlayOp (H K V : Type) where
  | insert (hash : H) (number : Nat) (parentHash : H) (changeset : ChangeSet K V)
  | canonicalize (hash : H) (commit : CommitSet H K V)
  | applyPending
  | revertPending
  | revertOne
  | remove (hash : H)
  | pin (hash : H)
  | unpin (hash : H)

def returned {S ε α : Type} : Outcome ε α × S → Option S
  | (.panic, _) => none
  | (_, s) => some s

theorem returned_eq_some {S ε α : Type} {r : Outcome ε α × S} {s : S} (h : returned r = some s) :
    (∃ a, r = (.ok a, s)) ∨ ∃ e, r = (.err e, s) := by
  obtain ⟨out, s'⟩ := r
  cases out with
  | ok a => exact .inl ⟨a, by rw [← some.inj h]⟩
  | err e => exact .inr ⟨e, by rw [← some.inj h]⟩
  | panic => cases h

def OverlayOp.run (o : NonCanonicalOverlay H K V) :
    OverlayOp H K V → Option (NonCanonicalOverlay H K V)
  | .insert hash number parentHash changeset =>
    returned (o.insert hash number parentHash changeset)
  | .canonicalize hash commit => returned (o.canonicalize hash commit)
  | .applyPending => o.applyPending
  | .revertPending => o.revertPending
  | .revertOne => some o.revertOne.2
  | .remove hash => some (o.remove hash).2
  | .pin hash => some (o.pin hash)
  | .unpin hash => some (o.unpin hash)

variable {o' o : NonCanonicalOverlay H K V} {hash : H} {changeset : ChangeSet K V} {i : Nat}
  {e : BlockOverlay H K} {pre : List (BlockOverlay H K)} {op : OverlayOp H K V} {hashes : List H}

theorem insert_run {parentHash : H} {number : Nat}
    (h : (OverlayOp.insert hash number parentHash changeset).run o = some o') :
    o' = o ∨ ∃ i level, Enters o hash number parentHash changeset i level o' := by
  rcases returned_eq_some h with ⟨c, hok⟩ | ⟨e, herr⟩
  · exact .inr (enters_of_insert hok)
  · exact .inl (insert_unchanged herr)

theorem canonicalize_run {commit : CommitSet H K V}
    (h : (OverlayOp.canonicalize hash commit).run o = some o') :
    o' = o ∨ o' = { o with pendingCanonicalizations := o.pendingCanonicalizations ++ [hash] } := by
  rcases returned_eq_some h with ⟨c, hok⟩ | ⟨e, herr⟩
  · obtain ⟨e, he⟩ := canonicalize_ok hok
    exact .inr he.overlay
  · exact .inl (canonicalize_err herr)

/-! ## Levels that lose blocks -/

/-- Levels have lost blocks, and some at the end are gone. -/
inductive Shrinks : List (OverlayLevel H K) → List (OverlayLevel H K) → Prop
  | nil {ls} : Shrinks ls []
  | cons {l l' ls ls'} (hblocks : l'.blocks.Sublist l.blocks) (hrest : Shrinks ls ls') :
      Shrinks (l :: ls) (l' :: ls')

namespace Shrinks

variable {ls ls' ls'' : List (OverlayLevel H K)}

section

omit [DecidableEq H] [DecidableEq K]

theorem refl (ls : List (OverlayLevel H K)) : Shrinks ls ls := by
  induction ls with
  | nil => exact .nil
  | cons l ls ih => exact .cons (List.Sublist.refl _) ih

theorem trans (h : Shrinks ls ls') (h' : Shrinks ls' ls'') : Shrinks ls ls'' := by
  induction h generalizing ls'' with
  | nil =>
    cases h'
    exact .nil
  | cons hblocks _ ih =>
    cases h' with
    | nil => exact .nil
    | cons hblocks' hrest' => exact .cons (hblocks'.trans hblocks) (ih hrest')

end

variable {l' : OverlayLevel H K}

section

omit [DecidableEq H] [DecidableEq K]

theorem getElem? (h : Shrinks ls ls') (hi : ls'[i]? = some l') :
    ∃ l, ls[i]? = some l ∧ l'.blocks.Sublist l.blocks := by
  induction h generalizing i with
  | nil => simp at hi
  | @cons l _ ls _ hblocks _ ih =>
    cases i with
    | zero =>
      obtain rfl := some.inj hi
      exact ⟨l, rfl, hblocks⟩
    | succ i => exact ih (by simpa using hi)

theorem entries (h : Shrinks ls ls') : (entries ls').Sublist (entries ls) := by
  induction h with
  | nil => exact nil_sublist _
  | cons hblocks _ ih =>
    rw [entries_cons]
    exact hblocks.append ih

theorem dropLast (ls : List (OverlayLevel H K)) : Shrinks ls ls.dropLast := by
  induction ls with
  | nil => exact .nil
  | cons l ls ih =>
    cases ls with
    | nil => exact .nil
    | cons l' ls => exact .cons (List.Sublist.refl _) ih

theorem set {l} (hi : ls[i]? = some l) (hblocks : l'.blocks.Sublist l.blocks) :
    Shrinks ls (ls.set i l') := by
  induction ls generalizing i with
  | nil => exact .nil
  | cons first ls ih =>
    cases i with
    | zero =>
      obtain rfl := some.inj hi
      exact .cons hblocks (refl ls)
    | succ i => exact .cons (List.Sublist.refl _) (ih (by simpa using hi))

end

end Shrinks

section Calls

variable {o o' : NonCanonicalOverlay H K V} {hash : H}
  {pinned : FinMap H Nat} {t' : Tables H K V} {level : OverlayLevel H K}

theorem Discards.shrinks {levels levels' t} {h : H} {n : Nat}
    (hd : Discards pinned levels t h n levels' t') : Shrinks levels levels' := by
  induction hd with
  | nil => exact .nil
  | done _ => exact .refl _
  | @child level rest rest' levels' t t1 t' h n m e pre post hblocks _ _ _ ih ih' =>
    refine Shrinks.trans (.cons ?_ ih) ih'
    rw [hblocks]
    exact (sublist_cons_self _ _).append_left _

theorem Sweeps.shrinks {es rest rest' t} (hs : Sweeps pinned es rest t rest' t') :
    Shrinks rest rest' := by
  induction hs with
  | nil => exact .refl _
  | cons hfirst _ ih => exact hfirst.shrinks.trans ih

theorem Applies.shrinks (h : Applies o hash o') :
    ∃ level rest, o.levels = level :: rest ∧ (∃ e ∈ level.blocks, e.hash = hash) ∧
      Shrinks rest o'.levels := by
  obtain ⟨level, rest, rest1, pre, post, e, t1, hlevels, hblocks, he, hpre, hpost⟩ := h.split
  exact ⟨level, rest, hlevels, ⟨e, by simp [hblocks], he⟩, hpre.shrinks.trans hpost.shrinks⟩

section

omit [DecidableEq H] [DecidableEq K]

theorem dropEmptyLevel_shrinks (o : NonCanonicalOverlay H K V) :
    Shrinks o.levels o.dropEmptyLevel.levels := by
  unfold dropEmptyLevel
  split
  · exact .refl _
  · split
    · exact .dropLast _
    · exact .refl _

theorem remove_sublist {level'} {index : Nat} (h : level.remove index = some (e, level')) :
    level'.blocks.Sublist level.blocks := by
  unfold OverlayLevel.remove at h
  split at h
  · cases h
  · obtain ⟨-, rfl⟩ := Prod.mk.inj (some.inj h)
    exact eraseIdx_sublist _ _

end

theorem remove_shrinks (o : NonCanonicalOverlay H K V) (hash : H) :
    Shrinks o.levels (o.remove hash).2.levels := by
  unfold remove
  split
  · exact dropEmptyLevel_shrinks o
  rename_i levelIndex index _
  split
  · exact .refl _
  split
  · exact .refl _
  rename_i e level hremove
  obtain ⟨l, hl, hremove⟩ := bind_eq_some_iff.mp hremove
  exact Shrinks.trans (.set hl (remove_sublist hremove)) (dropEmptyLevel_shrinks
    { o with levels := o.levels.set levelIndex level, toTables := o.toTables.dispose e 0 })

structure Reverts (o : NonCanonicalOverlay H K V) (hash : H) (i : Nat) (level : OverlayLevel H K)
    (e : BlockOverlay H K) (pre : List (BlockOverlay H K)) (o' : NonCanonicalOverlay H K V) :
    Prop where
  position : lastPosition hash o.levels = some (some i)
  get?_level : o.levels[i]? = some level
  blocks : level.blocks = pre ++ [e]
  eq : o' = { o with
    parents := o.parents.erase hash
    values := discardValues o.values e.inserted
    levels :=
      if pre.isEmpty then
        (o.levels.set i ⟨pre, BitMask.clearBit level.usedIndicies e.journalIndex⟩).dropLast
      else o.levels.set i ⟨pre, BitMask.clearBit level.usedIndicies e.journalIndex⟩ }

theorem reverts_of_revertInsertion (h : revertInsertion o hash = some o') :
    ∃ i level e pre, Reverts o hash i level e pre o' := by
  unfold revertInsertion at h
  split at h
  · rename_i i hposition
    split at h
    · cases h
    rename_i e level' hremove
    obtain ⟨level, hlevel, hremove⟩ := bind_eq_some_iff.mp hremove
    have hne : level.blocks ≠ [] := by
      intro hnil
      simp [OverlayLevel.remove, hnil] at hremove
    obtain ⟨pre, last, hblocks⟩ : ∃ pre last, level.blocks = pre ++ [last] :=
      ⟨_, _, (dropLast_append_getLast hne).symm⟩
    have hlen : level.blocks.length - 1 = pre.length := by simp [hblocks]
    rw [hlen, remove_split hblocks, append_nil] at hremove
    obtain ⟨rfl, rfl⟩ := Prod.mk.inj (some.inj hremove)
    exact ⟨i, level, last, pre, hposition, hlevel, hblocks, (some.inj h).symm⟩
  · cases h

theorem Reverts.shrinks (h : Reverts o hash i level e pre o') : Shrinks o.levels o'.levels := by
  have hset : Shrinks o.levels
      (o.levels.set i ⟨pre, BitMask.clearBit level.usedIndicies e.journalIndex⟩) := by
    refine .set h.get?_level ?_
    rw [h.blocks]
    exact sublist_append_left _ _
  rw [h.eq]
  split
  · exact hset.trans (.dropLast _)
  · exact hset

end Calls

/-! ## Block numbers -/

/-- Each block is in the level that its number names. -/
def Numbered (front : Nat) (levels : List (OverlayLevel H K)) : Prop :=
  ∀ i level, levels[i]? = some level → ∀ e ∈ level.blocks, e.journalKey.1 = front + i

section Numbers

variable {front : Nat} {levels levels' rest : List (OverlayLevel H K)} {level : OverlayLevel H K}
  {o o' : NonCanonicalOverlay H K V}

omit [DecidableEq H] [DecidableEq K] in
theorem Numbered.shrinks (h : Numbered front levels) (hs : Shrinks levels levels') :
    Numbered front levels' := by
  intro i level' hi e he
  obtain ⟨level, hlevel, hsub⟩ := hs.getElem? hi
  exact h i level hlevel e (hsub.subset he)

section

omit [DecidableEq H] [DecidableEq K]

theorem Numbered.cons (hfirst : ∀ e ∈ level.blocks, e.journalKey.1 = front)
    (hrest : Numbered (front + 1) rest) : Numbered front (level :: rest) := by
  intro i l hi e he
  cases i with
  | zero =>
    obtain rfl := some.inj hi
    exact hfirst e he
  | succ i =>
    rw [hrest i l (by simpa using hi) e he]
    omega

theorem Numbered.tail (h : Numbered front (level :: rest)) : Numbered (front + 1) rest := by
  intro i l hi e he
  rw [h (i + 1) l (by simpa using hi) e he]
  omega

end

theorem numbered_readLevel (db : Db H K V) (block : Nat) (t : Tables H K V) :
    ∀ e ∈ (readLevel db block t).1.blocks, e.journalKey.1 = block := by
  have hfold : ∀ (is : List Nat) (s : OverlayLevel H K × Tables H K V),
      (∀ e ∈ s.1.blocks, e.journalKey.1 = block) →
      ∀ e ∈ (is.foldl (readRecord db block) s).1.blocks, e.journalKey.1 = block := by
    intro is
    induction is with
    | nil => exact fun s hs => hs
    | cons i is ih =>
      intro s hs
      refine ih _ fun e he => ?_
      unfold readRecord at he
      split at he
      · exact hs e he
      rcases mem_append.mp he with he | he
      · exact hs e he
      · obtain rfl := mem_singleton.mp he
        rfl
  exact hfold _ _ fun e he => absurd he not_mem_nil

theorem numbered_readLevels (db : Db H K V) (fuel block : Nat) (t : Tables H K V) :
    Numbered block (readLevels db fuel block t).1 := by
  induction fuel generalizing block t with
  | zero => exact fun i level hi => by simp [readLevels] at hi
  | succ fuel ih =>
    simp only [readLevels]
    split
    · exact fun i level hi => by simp at hi
    · exact .cons (numbered_readLevel db block t) (ih _ _)

theorem numbered_new (db : Db H K V) : Numbered (new db).frontBlockNumber (new db).levels := by
  unfold new
  cases hlast : db.lastCanonical with
  | none => exact fun i level hi => by simp at hi
  | some last => exact numbered_readLevels db _ _ _

theorem Numbered.enters (h : Numbered o.frontBlockNumber o.levels) {parentHash : H} {number : Nat}
    (hin : Enters o hash number parentHash changeset i level o') :
    Numbered o'.frontBlockNumber o'.levels := by
  -- the front only moves under an overlay without levels
  have hsame : ∀ (j : Nat) l, o.levels[j]? = some l → o'.frontBlockNumber = o.frontBlockNumber := by
    intro j l hj
    have hne : o.levels ≠ [] := by
      rintro hnil
      simp [hnil] at hj
    unfold frontBlockNumber
    rw [hin.lastCanonicalized, if_neg fun ha => hne ha.1]
  have hgrown : Numbered o'.frontBlockNumber (grown o.levels i) := by
    intro j l hj e he
    unfold grown at hj
    split at hj
    · rcases Nat.lt_or_ge j o.levels.length with hlt | hge
      · rw [getElem?_append_left hlt] at hj
        rw [hsame j l hj]
        exact h j l hj e he
      · rw [getElem?_append_right hge] at hj
        obtain rfl := mem_singleton.mp (mem_of_getElem? hj)
        cases he
    · rw [hsame j l hj]
      exact h j l hj e he
  intro j l hj e he
  rw [hin.levels, getElem?_set] at hj
  split at hj
  · rename_i hij
    subst hij
    split at hj
    · obtain rfl := some.inj hj
      rcases mem_append.mp he with he | he
      · exact hgrown i level hin.get?_level e he
      · obtain rfl := mem_singleton.mp he
        exact hin.number_eq
    · cases hj
  · exact hgrown j l hj e he

theorem Numbered.applyAll (h : Numbered front o.levels)
    (hrun : hashes.foldlM applyCanonicalization o = some o') :
    Numbered (front + hashes.length) o'.levels := by
  induction hashes generalizing o front with
  | nil =>
    obtain rfl := some.inj hrun
    exact h
  | cons hash hashes ih =>
    rw [foldlM_cons] at hrun
    obtain ⟨o1, hfirst, hmore⟩ := bind_eq_some_iff.mp hrun
    obtain ⟨level, rest, hlevels, -, hs⟩ := (applies_of_applyCanonicalization hfirst).shrinks
    rw [hlevels] at h
    rw [length_cons, Nat.add_comm hashes.length, ← Nat.add_assoc]
    exact ih (h.tail.shrinks hs) hmore

theorem frontBlockNumber_applied (hrun : o.applyPending = some o') :
    o'.frontBlockNumber = o.frontBlockNumber + o.pendingCanonicalizations.length := by
  unfold applyPending at hrun
  split at hrun
  · cases hrun
  obtain rfl := some.inj hrun
  unfold frontBlockNumber canonicalHead
  cases hpending : o.pendingCanonicalizations.getLast? with
  | none =>
    rw [getLast?_eq_none_iff.mp hpending]
    rfl
  | some hash =>
    have hpos := length_pos_of_mem (mem_of_getLast? hpending)
    cases o.lastCanonicalized with
    | none | some last =>
      simp only
      omega

theorem Reverts.lastCanonicalized (h : Reverts o hash i level e pre o') :
    o'.lastCanonicalized = o.lastCanonicalized := by
  rw [h.eq]

omit [DecidableEq H] [DecidableEq K] in
theorem frontBlockNumber_congr (h : o'.lastCanonicalized = o.lastCanonicalized) :
    o'.frontBlockNumber = o.frontBlockNumber := by
  unfold frontBlockNumber
  rw [h]

theorem revertPending_eq (hrun : o.revertPending = some o') :
    ∃ o1, o.pendingInsertions.reverse.foldlM revertInsertion
        { o with pendingCanonicalizations := [] } = some o1 ∧
      o' = { o1 with pendingInsertions := [] } := by
  unfold revertPending at hrun
  split at hrun
  · cases hrun
  · rename_i o1 hfold
    exact ⟨o1, hfold, (some.inj hrun).symm⟩

theorem applyPending_eq (hrun : o.applyPending = some o') :
    ∃ o1, o.pendingCanonicalizations.foldlM applyCanonicalization o = some o1 ∧ o' = { o1 with
        pendingCanonicalizations := []
        pendingInsertions := []
        lastCanonicalized := o.canonicalHead } := by
  unfold applyPending at hrun
  split at hrun
  · cases hrun
  · rename_i o1 hfold
    exact ⟨o1, hfold, (some.inj hrun).symm⟩

theorem lastCanonicalized_remove (o : NonCanonicalOverlay H K V) (hash : H) :
    (o.remove hash).2.lastCanonicalized = o.lastCanonicalized := by
  have hdrop : ∀ o : NonCanonicalOverlay H K V,
      o.dropEmptyLevel.lastCanonicalized = o.lastCanonicalized := by
    intro o
    unfold dropEmptyLevel
    split
    · rfl
    · split <;> rfl
  unfold remove
  split
  · exact hdrop o
  split
  · rfl
  · split
    · rfl
    · rw [hdrop]

omit [DecidableEq K] in
theorem pin_eq (o : NonCanonicalOverlay H K V) (hash : H) :
    (o.pin hash).levels = o.levels ∧ (o.pin hash).toTables = o.toTables ∧
      (o.pin hash).lastCanonicalized = o.lastCanonicalized := by
  unfold pin
  split <;> exact ⟨rfl, rfl, rfl⟩

theorem unpin_eq (o : NonCanonicalOverlay H K V) (hash : H) :
    (o.unpin hash).levels = o.levels ∧ (o.unpin hash).lastCanonicalized = o.lastCanonicalized ∧
      ((o.unpin hash).toTables = o.toTables ∨
        ∃ fuel, (o.unpin hash).toTables = unpinWalk fuel o.toTables (some hash)) := by
  unfold unpin
  split
  · exact ⟨rfl, rfl, .inl rfl⟩
  · split
    · exact ⟨rfl, rfl, .inr ⟨_, rfl⟩⟩
    · exact ⟨rfl, rfl, .inl rfl⟩

theorem run_cases (happly : op ≠ .applyPending) (hrun : op.run o = some o') :
    (∃ hash number parentHash changeset i level, op = .insert hash number parentHash changeset ∧
      Enters o hash number parentHash changeset i level o') ∨
    Shrinks o.levels o'.levels ∧ o'.lastCanonicalized = o.lastCanonicalized := by
  cases op with
  | insert hash number parentHash changeset =>
    rcases insert_run hrun with rfl | ⟨i, level, hin⟩
    · exact .inr ⟨.refl _, rfl⟩
    · exact .inl ⟨_, _, _, _, i, level, rfl, hin⟩
  | canonicalize hash commit =>
    rcases canonicalize_run hrun with rfl | rfl <;> exact .inr ⟨.refl _, rfl⟩
  | applyPending => exact absurd rfl happly
  | revertPending =>
    obtain ⟨o1, hfold, rfl⟩ := revertPending_eq hrun
    refine .inr <| Vec.foldlM_keeps (P := fun o₁ => Shrinks o.levels o₁.levels ∧
      o₁.lastCanonicalized = o.lastCanonicalized) (fun o₁ hash o₂ hs hround => ?_) ⟨.refl _, rfl⟩ hfold
    obtain ⟨i, level, e, pre, hreverts⟩ := reverts_of_revertInsertion hround
    exact ⟨hs.1.trans hreverts.shrinks, hreverts.lastCanonicalized.trans hs.2⟩
  | revertOne =>
    obtain rfl := some.inj hrun
    unfold revertOne
    split
    · exact .inr ⟨.refl _, rfl⟩
    · exact .inr ⟨.dropLast _, rfl⟩
  | remove hash =>
    obtain rfl := some.inj hrun
    exact .inr ⟨remove_shrinks o hash, lastCanonicalized_remove o hash⟩
  | pin hash =>
    obtain rfl := some.inj hrun
    obtain ⟨hlevels, -, hlast⟩ := pin_eq o hash
    exact .inr ⟨hlevels ▸ .refl _, hlast⟩
  | unpin hash =>
    obtain rfl := some.inj hrun
    obtain ⟨hlevels, hlast, -⟩ := unpin_eq o hash
    exact .inr ⟨hlevels ▸ .refl _, hlast⟩

theorem Numbered.run (h : Numbered o.frontBlockNumber o.levels) (hrun : op.run o = some o') :
    Numbered o'.frontBlockNumber o'.levels := by
  by_cases happly : op = .applyPending
  · subst happly
    rw [frontBlockNumber_applied hrun]
    obtain ⟨o1, hfold, rfl⟩ := applyPending_eq hrun
    have hnumbered := h.applyAll hfold
    exact hnumbered
  rcases run_cases happly hrun with ⟨_, _, _, _, _, _, rfl, hin⟩ | ⟨hs, hlast⟩
  · exact h.enters hin
  · rw [frontBlockNumber_congr hlast]
    exact h.shrinks hs

end Numbers

/-! ## The last canonicalized block -/

/-- The block that was canonicalized last, if that is pending. -/
def lastPending (o : NonCanonicalOverlay H K V) : Option (BlockOverlay H K) :=
  match o.pendingCanonicalizations.getLast? with
  | none => none
  | some hash =>
    (o.levels[o.pendingCanonicalizations.length - 1]?).bind
      fun level => level.blocks.find? fun overlay => overlay.hash = hash

/-- Given the last one that is not pending. A pending block has the number that it was inserted
with, which is a part of its journal key. -/
def lastBlock (o : NonCanonicalOverlay H K V) (applied : Option (H × Nat)) : Option (H × Nat) :=
  if o.pendingCanonicalizations.isEmpty then applied
  else (lastPending o).map fun overlay => (overlay.hash, overlay.journalKey.1)

/-- With the last canonicalized block that is not pending. An overlay without blocks takes the
parent of the first one as canonicalized. -/
inductive HeadRun : NonCanonicalOverlay H K V → Option (H × Nat) → Prop
  | new (db : Db H K V) : HeadRun (new db) db.lastCanonical
  | first {o o' applied} (hash : H) (number : Nat)
      (parentHash : H) (changeset : ChangeSet K V) (hrun : HeadRun o applied)
      (hempty : o.levels = [] ∧ o.lastCanonicalized = none ∧ number > 0)
      (hstep : (OverlayOp.insert hash number parentHash changeset).run o = some o') :
      HeadRun o' (some (parentHash, number - 1))
  | apply {o o' applied} (hrun : HeadRun o applied)
      (hstep : o.applyPending = some o') : HeadRun o' (lastBlock o applied)
  | call {o o' applied} (op : OverlayOp H K V)
      (hrun : HeadRun o applied) (happly : op ≠ .applyPending)
      (hfirst : ∀ hash number parentHash changeset, op = .insert hash number parentHash changeset →
          ¬(o.levels = [] ∧ o.lastCanonicalized = none ∧ number > 0))
      (hstep : op.run o = some o') : HeadRun o' applied

section Heads

variable {o o' : NonCanonicalOverlay H K V} {applied : Option (H × Nat)}

theorem exists_of_applyAll (hrun : (hashes ++ [hash]).foldlM applyCanonicalization o = some o') :
    ∃ level, o.levels[hashes.length]? = some level ∧ ∃ e ∈ level.blocks, e.hash = hash := by
  induction hashes generalizing o with
  | nil =>
    rw [nil_append] at hrun
    obtain ⟨o1, hfirst, -⟩ := bind_eq_some_iff.mp hrun
    obtain ⟨level, rest, hlevels, hin, -⟩ := (applies_of_applyCanonicalization hfirst).shrinks
    exact ⟨level, by rw [hlevels]; rfl, hin⟩
  | cons h hashes ih =>
    rw [cons_append] at hrun
    obtain ⟨o1, hfirst, hmore⟩ := bind_eq_some_iff.mp hrun
    obtain ⟨level, rest, hlevels, -, hs⟩ := (applies_of_applyCanonicalization hfirst).shrinks
    obtain ⟨level', hlevel', e, he, hhash⟩ := ih hmore
    obtain ⟨l, hl, hsub⟩ := hs.getElem? hlevel'
    exact ⟨l, by rw [hlevels]; simpa using hl, e, hsub.subset he, hhash⟩

section

variable (h : Numbered o.frontBlockNumber o.levels) (hrun : o.applyPending = some o')
include h hrun

theorem lastBlock_of_applied (hlast : o.pendingCanonicalizations.getLast? = some hash) :
    lastBlock o applied =
      some (hash, o.frontBlockNumber + (o.pendingCanonicalizations.length - 1)) := by
  obtain ⟨o1, hfold, -⟩ := applyPending_eq hrun
  obtain ⟨hashes, hpending⟩ := getLast?_eq_some_iff.mp hlast
  rw [hpending] at hfold
  obtain ⟨level, hlevel, e, he, hhash⟩ := exists_of_applyAll hfold
  have hlen : o.pendingCanonicalizations.length - 1 = hashes.length := by simp [hpending]
  have hfind : (level.blocks.find? fun overlay => overlay.hash = hash).isSome := by
    rw [find?_isSome]
    exact ⟨e, he, by simpa using hhash⟩
  obtain ⟨f, hf⟩ := isSome_iff_exists.mp hfind
  have hfhash : f.hash = hash := by simpa using find?_some hf
  have hne : o.pendingCanonicalizations.isEmpty = false := by simp [hpending]
  have hpend : lastPending o = some f := by
    unfold lastPending
    rw [hlast]
    simp [hlen, hlevel, hf]
  rw [lastBlock, hne, hpend, hlen, ← hfhash, ← h hashes.length level hlevel f (mem_of_find?_eq_some hf)]
  rfl

theorem canonicalHead_eq : lastBlock o o.lastCanonicalized = o.canonicalHead := by
  unfold canonicalHead
  cases hlast : o.pendingCanonicalizations.getLast? with
  | none =>
    rw [lastBlock, getLast?_eq_none_iff.mp hlast]
    rfl
  | some hash =>
    have hpos := length_pos_of_mem (mem_of_getLast? hlast)
    rw [lastBlock_of_applied h hrun hlast]
    unfold frontBlockNumber
    cases o.lastCanonicalized with
    | none => simp
    | some last =>
      simp only [some.injEq, Prod.mk.injEq, true_and]
      omega

end

theorem lastCanonicalized_run (happly : op ≠ .applyPending)
    (hfirst : ∀ hash number parentHash changeset, op = .insert hash number parentHash changeset →
      ¬(o.levels = [] ∧ o.lastCanonicalized = none ∧ number > 0)) (hrun : op.run o = some o') :
    o'.lastCanonicalized = o.lastCanonicalized := by
  rcases run_cases happly hrun with ⟨_, _, _, _, _, _, rfl, hin⟩ | ⟨-, hlast⟩
  · rw [hin.lastCanonicalized, if_neg (hfirst _ _ _ _ rfl)]
  · exact hlast

theorem HeadRun.recorded (h : HeadRun o applied) :
    Numbered o.frontBlockNumber o.levels ∧ applied = o.lastCanonicalized := by
  induction h with
  | new db => exact ⟨numbered_new db, rfl⟩
  | first hash number parentHash changeset _ hempty hstep ih =>
    refine ⟨ih.1.run hstep, ?_⟩
    rw [OverlayOp.run, insert_assumed hempty.1 hempty.2.1 hempty.2.2] at hstep
    obtain rfl := some.inj hstep
    rfl
  | apply _ hstep ih =>
    refine ⟨ih.1.run (show OverlayOp.run _ .applyPending = some _ from hstep), ?_⟩
    rw [ih.2, canonicalHead_eq ih.1 hstep]
    obtain ⟨o1, -, rfl⟩ := applyPending_eq hstep
    rfl
  | call op _ happly hfirst hstep ih =>
    exact ⟨ih.1.run hstep, ih.2.trans (lastCanonicalized_run happly hfirst hstep).symm⟩

/-- **The number of the last canonicalized block** does not change when the pending
canonicalizations are applied exactly if a block has been canonicalized before or nothing is
pending: otherwise the pending ones are counted from one. -/
theorem lastCanonicalizedBlockNumber_applied_iff (h : HeadRun o applied)
    (hrun : o.applyPending = some o') :
    (o.lastCanonicalizedBlockNumber = (lastBlock o applied).map Prod.snd ∧
      o'.lastCanonicalizedBlockNumber = (lastBlock o applied).map Prod.snd) ↔
      (o.lastCanonicalized.isSome = true ∨ o.pendingCanonicalizations = []) := by
  obtain ⟨hnumbered, rfl⟩ := h.recorded
  rw [canonicalHead_eq hnumbered hrun]
  obtain ⟨o1, -, rfl⟩ := applyPending_eq hrun
  unfold lastCanonicalizedBlockNumber canonicalHead
  cases hlast : o.pendingCanonicalizations.getLast? with
  | none =>
    rw [getLast?_eq_none_iff.mp hlast]
    cases o.lastCanonicalized <;> simp
  | some hash =>
    have hne : o.pendingCanonicalizations ≠ [] := by
      rintro hnil
      simp [hnil] at hlast
    have hpos := length_pos_iff.mpr hne
    cases o.lastCanonicalized with
    | none =>
      simp [hne]
      omega
    | some last => simp

end Heads

section Concrete

private def genesisOverlay : NonCanonicalOverlay Nat Nat Nat :=
  new ⟨.empty, none, .empty, none, .empty, none⟩

private theorem run_genesis : HeadRun genesisOverlay none := .new _

private def withBlock (number : Nat) : NonCanonicalOverlay Nat Nat Nat :=
  (genesisOverlay.insert 1 number 0 ⟨[], []⟩).2

private def withPending (number : Nat) : NonCanonicalOverlay Nat Nat Nat :=
  ((withBlock number).canonicalize 1 .empty).2

/-- A block with number seven on top of a canonical one. -/
theorem lastCanonicalizedBlockNumber_seven :
    ∃ (o o' : NonCanonicalOverlay Nat Nat Nat) (applied : Option (Nat × Nat)),
      HeadRun o applied ∧ o.applyPending = some o' ∧
      o.lastCanonicalizedBlockNumber = some 7 ∧
      ((o.lastCanonicalizedBlockNumber = (lastBlock o applied).map Prod.snd ∧
        o'.lastCanonicalizedBlockNumber = (lastBlock o applied).map Prod.snd) ↔
        (o.lastCanonicalized.isSome = true ∨ o.pendingCanonicalizations = [])) := by
  have hfirst : HeadRun (withBlock 7) (some (0, 6)) :=
    .first 1 7 0 ⟨[], []⟩ run_genesis ⟨rfl, rfl, by decide⟩ rfl
  have hrun : HeadRun (withPending 7) (some (0, 6)) :=
    .call (.canonicalize 1 .empty) hfirst (by simp) (by simp) rfl
  obtain ⟨o', ho'⟩ : ∃ o', (withPending 7).applyPending = some o' :=
    isSome_iff_exists.mp (by decide +kernel)
  exact ⟨_, o', _, hrun, ho', by decide +kernel, lastCanonicalizedBlockNumber_applied_iff hrun ho'⟩

/-- **The first block has number zero**: with its canonicalization pending the last canonicalized
number is said to be one, afterwards it is zero. -/
theorem lastCanonicalizedBlockNumber_zero : ∃ (o o' : NonCanonicalOverlay Nat Nat Nat),
      HeadRun o none ∧ o.applyPending = some o' ∧ (lastBlock o none).map Prod.snd = some 0 ∧
      o.lastCanonicalizedBlockNumber = some 1 ∧ o'.lastCanonicalizedBlockNumber = some 0 := by
  have hfirst : HeadRun (withBlock 0) none := by
    refine .call (.insert 1 0 0 ⟨[], []⟩) run_genesis (by simp) ?_ rfl
    rintro _ _ _ _ ⟨⟩ ⟨-, -, hpos⟩
    exact absurd hpos (by decide)
  have hrun : HeadRun (withPending 0) none :=
    .call (.canonicalize 1 .empty) hfirst (by simp) (by simp) rfl
  obtain ⟨o', ho', hnumber⟩ : ∃ o', (withPending 0).applyPending = some o' ∧
      o'.lastCanonicalizedBlockNumber = some 0 :=
    ⟨_, rfl, by decide +kernel⟩
  exact ⟨_, o', hrun, ho', by decide +kernel, by decide +kernel, hnumber⟩

end Concrete

end Substrate.StateDb
