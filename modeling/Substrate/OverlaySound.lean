import Substrate.OverlayRuns

/-!
# Blocks and tables of the overlay

As long as only new blocks are inserted, no block is in the levels twice, each has an entry in the
parent table, and what pins keep of discarded blocks is kept under hashes that are not in the levels
(`Sound`). The invariant is stated for a list of blocks and the tables, whatever levels the blocks
are in.
-/

namespace Substrate.StateDb

open NonCanonicalOverlay List Option

variable {H K V : Type}

def DistinctHashes (es : List (BlockOverlay H K)) : Prop := (es.map BlockOverlay.hash).Nodup

variable {es : List (BlockOverlay H K)}

theorem DistinctHashes.sublist {es'} (h : DistinctHashes es) (hsub : es'.Sublist es) :
    DistinctHashes es' :=
  List.Nodup.sublist (hsub.map _) h

variable {pre post : List (BlockOverlay H K)} {e : BlockOverlay H K}

theorem distinctHashes_split : DistinctHashes (pre ++ e :: post) ↔
      (∀ f ∈ pre ++ post, f.hash ≠ e.hash) ∧ DistinctHashes (pre ++ post) := by
  unfold DistinctHashes
  rw [map_append, map_cons, nodup_middle, nodup_cons, ← map_append]
  refine and_congr_left fun _ => ⟨fun h f hf heq => ?_, fun h hmem => ?_⟩
  · exact h (mem_map.mpr ⟨f, hf, heq⟩)
  · obtain ⟨f, hf, heq⟩ := mem_map.mp hmem
    exact h f hf heq

structure Sound (es : List (BlockOverlay H K)) (t : Tables H K V) : Prop where
  distinct : DistinctHashes es
  listed : ∀ e ∈ es, t.parents.contains e.hash = true
  kept : ∀ h, t.pinnedInsertions.contains h = true →
    t.parents.contains h = true ∧ ∀ e ∈ es, e.hash ≠ h
  counted : RefCount.Positive t.values

variable [DecidableEq H] [DecidableEq K]

section Blocks

variable {es es' pre post : List (BlockOverlay H K)} {e : BlockOverlay H K} {t : Tables H K V}

section

omit [DecidableEq H] [DecidableEq K]

theorem Sound.sublist (h : Sound es t) (hsub : es'.Sublist es) : Sound es' t where
  distinct := h.distinct.sublist hsub
  listed := fun e he => h.listed e (hsub.subset he)
  kept := fun x hx => ⟨(h.kept x hx).1, fun e he => (h.kept x hx).2 e (hsub.subset he)⟩
  counted := h.counted

theorem Sound.perm (h : Sound es t) (hperm : es'.Perm es) : Sound es' t where
  distinct := (hperm.map _).nodup_iff.mpr h.distinct
  listed := fun e he => h.listed e (hperm.subset he)
  kept := fun x hx => ⟨(h.kept x hx).1, fun e he => (h.kept x hx).2 e (hperm.subset he)⟩
  counted := h.counted

end

theorem contains_insert {A : Type} {m : FinMap H A} {h x : H} {a : A} :
    (m.insert h a).contains x = true ↔ x = h ∨ m.contains x = true := by
  by_cases hx : x = h <;> simp [FinMap.contains, hx]

theorem contains_erase {A : Type} {m : FinMap H A} {h x : H} :
    (m.erase h).contains x = true ↔ x ≠ h ∧ m.contains x = true := by
  by_cases hx : x = h <;> simp [FinMap.contains, hx]

theorem Sound.dispose (h : Sound (pre ++ e :: post) t) (n : Nat) :
    Sound (pre ++ post) (t.dispose e n) := by
  obtain ⟨hne, hdistinct⟩ := distinctHashes_split.mp h.distinct
  have hin : ∀ f, f ∈ pre ++ post → f ∈ pre ++ e :: post := by
    intro f hf
    simp only [mem_append, mem_cons] at hf ⊢
    tauto
  unfold Tables.dispose
  split
  · refine ⟨hdistinct, fun f hf => h.listed f (hin f hf), fun x hx => ?_, h.counted⟩
    rcases contains_insert.mp hx with rfl | hx
    · exact ⟨h.listed e (by simp), hne⟩
    · exact ⟨(h.kept x hx).1, fun f hf => (h.kept x hx).2 f (hin f hf)⟩
  refine ⟨hdistinct, fun f hf => ?_, fun x hx => ?_, h.counted.releaseAll _⟩
  · exact contains_erase.mpr ⟨hne f hf, h.listed f (hin f hf)⟩
  · obtain ⟨hlisted, hout⟩ := h.kept x hx
    refine ⟨contains_erase.mpr ⟨?_, hlisted⟩, fun f hf => hout f (hin f hf)⟩
    exact fun heq => hout e (by simp) heq.symm

theorem Sound.enter (h : Sound es t) {parentHash : H} {inserted : List (K × V)}
    (hnew : t.parents.contains e.hash = false) :
    Sound (e :: es) { t with
      parents := t.parents.insert e.hash parentHash
      values := insertValues t.values inserted } := by
  have hnot : ∀ x, t.parents.contains x = true → x ≠ e.hash := by
    rintro x hx rfl
    rw [hnew] at hx
    cases hx
  refine ⟨?_, fun f hf => ?_, fun x hx => ?_, h.counted.retainAll _⟩
  · have hsplit : DistinctHashes ([] ++ e :: es) :=
      distinctHashes_split.mpr ⟨fun f hf => hnot _ (h.listed f hf), h.distinct⟩
    exact hsplit
  · rcases mem_cons.mp hf with rfl | hf
    · exact contains_insert.mpr (.inl rfl)
    · exact contains_insert.mpr (.inr (h.listed f hf))
  · obtain ⟨hlisted, hout⟩ := h.kept x hx
    refine ⟨contains_insert.mpr (.inr hlisted), fun f hf => ?_⟩
    rcases mem_cons.mp hf with rfl | hf
    · exact (hnot x hlisted).symm
    · exact hout f hf

end Blocks

variable {o : NonCanonicalOverlay H K V}

/-! ## The calls -/

section Calls

variable {o o' : NonCanonicalOverlay H K V} {i : Nat} {level : OverlayLevel H K}
  {levels : List (OverlayLevel H K)} {hash : H}

omit [DecidableEq H] [DecidableEq K] in
theorem entries_set_remove (hi : levels[i]? = some level)
    (hblocks : level.blocks = pre ++ e :: post) (mask : BitVec 64) :
    ∃ front back, entries levels = front ++ e :: back ∧
      entries (levels.set i ⟨pre ++ post, mask⟩) = front ++ back := by
  induction levels generalizing i with
  | nil => simp at hi
  | cons first rest ih =>
    cases i with
    | zero =>
      obtain rfl := some.inj hi
      exact ⟨pre, post ++ entries rest, by simp [hblocks], by simp⟩
    | succ i =>
      obtain ⟨front, back, hold, hnew⟩ := ih (by simpa using hi)
      exact ⟨first.blocks ++ front, back, by simp [hold], by simp [hnew]⟩

theorem Sound.insert {parentHash : H} {number : Nat} {changeset}
    (h : Sound (entries o.levels) o.toTables) (hnew : o.parents.contains hash = false)
    (hin : Enters o hash number parentHash changeset i level o') :
    Sound (entries o'.levels) o'.toTables := by
  have htables : o'.toTables = ⟨o.parents.insert hash parentHash,
      insertValues o.values changeset.inserted, o.pinnedInsertions⟩ := by
    rw [← hin.parents, ← hin.values, ← hin.pinnedInsertions]
  rw [htables]
  exact (h.enter hnew).perm hin.entries_perm

section

omit [DecidableEq H] [DecidableEq K]

theorem Sound.dropEmptyLevel (h : Sound (entries o.levels) o.toTables) :
    Sound (entries o.dropEmptyLevel.levels) o.dropEmptyLevel.toTables := by
  have htables : o.dropEmptyLevel.toTables = o.toTables := by
    unfold NonCanonicalOverlay.dropEmptyLevel
    split
    · rfl
    · split <;> rfl
  rw [htables]
  exact h.sublist (dropEmptyLevel_shrinks o).entries

theorem remove_eq_split {level'} {index : Nat} (h : level.remove index = some (e, level')) :
    ∃ pre post, level.blocks = pre ++ e :: post ∧
      level' = ⟨pre ++ post, BitMask.clearBit level.usedIndicies e.journalIndex⟩ := by
  unfold OverlayLevel.remove at h
  split at h
  · cases h
  rename_i overlay hget
  obtain ⟨rfl, rfl⟩ := Prod.mk.inj (some.inj h)
  obtain ⟨hlt, rfl⟩ := List.getElem?_eq_some_iff.mp hget
  refine ⟨level.blocks.take index, level.blocks.drop (index + 1), ?_, ?_⟩
  · rw [getElem_cons_drop, take_append_drop]
  · rw [eraseIdx_eq_take_drop_succ]

end

theorem Sound.remove (h : Sound (entries o.levels) o.toTables) (hash : H) :
    Sound (entries (o.remove hash).2.levels) (o.remove hash).2.toTables := by
  unfold NonCanonicalOverlay.remove
  split
  · exact h.dropEmptyLevel
  split
  · exact h
  split
  · exact h
  rename_i e level' hremove
  obtain ⟨level, hlevel, hremove⟩ := bind_eq_some_iff.mp hremove
  obtain ⟨pre, post, hblocks, rfl⟩ := remove_eq_split hremove
  obtain ⟨front, back, hold, hnew⟩ := entries_set_remove hlevel hblocks
    (BitMask.clearBit level.usedIndicies e.journalIndex)
  rw [hold] at h
  refine Sound.dropEmptyLevel ?_
  rw [hnew]
  exact h.dispose 0

omit [DecidableEq K] in
theorem lastPosition_spec (h : lastPosition hash levels = some (some i)) :
    ∃ level e, levels[i]? = some level ∧ level.blocks.getLast? = some e ∧ e.hash = hash := by
  induction levels generalizing i with
  | nil => simp [lastPosition] at h
  | cons first rest ih =>
    unfold lastPosition at h
    split at h
    · cases h
    rename_i e hlast
    split at h
    · rename_i hhash
      obtain rfl := some.inj (some.inj h)
      exact ⟨first, e, rfl, hlast, hhash⟩
    obtain ⟨r, hrest, hr⟩ := map_eq_some_iff.mp h
    obtain ⟨j, rfl, rfl⟩ := map_eq_some_iff.mp hr
    simpa using ih hrest

theorem Reverts.hash_eq (h : Reverts o hash i level e pre o') : e.hash = hash := by
  obtain ⟨level', e', hlevel', hlast, hhash⟩ := lastPosition_spec h.position
  obtain rfl := some.inj (h.get?_level.symm.trans hlevel')
  rw [h.blocks, List.getLast?_append, List.getLast?_singleton, some_or, some.injEq] at hlast
  rw [hlast, hhash]

theorem Sound.reverts (h : Sound (entries o.levels) o.toTables)
    (hr : Reverts o hash i level e pre o') : Sound (entries o'.levels) o'.toTables := by
  obtain ⟨front, back, hold, hnew⟩ := entries_set_remove hr.get?_level hr.blocks
    (BitMask.clearBit level.usedIndicies e.journalIndex)
  rw [hold] at h
  have hdisposed := h.dispose 0
  rw [← hnew, append_nil] at hdisposed
  rw [hr.eq, ← hr.hash_eq]
  split
  · exact hdisposed.sublist (Shrinks.dropLast _).entries
  · exact hdisposed

theorem Sound.disposeAll {blocks : List (BlockOverlay H K)} {t : Tables H K V}
    (h : Sound (es ++ blocks) t) :
    Sound es (blocks.foldl (fun t overlay => t.dispose overlay 0) t) := by
  induction blocks generalizing t with
  | nil => simpa using h
  | cons e blocks ih => exact ih (h.dispose 0)

theorem Sound.revertOne (h : Sound (entries o.levels) o.toTables) :
    Sound (entries o.revertOne.2.levels) o.revertOne.2.toTables := by
  unfold NonCanonicalOverlay.revertOne
  split
  · exact h
  rename_i level hlast
  obtain ⟨front, hlevels⟩ := List.getLast?_eq_some_iff.mp hlast
  rw [hlevels] at h
  refine Sound.disposeAll ?_
  rw [hlevels]
  simpa using h

theorem Sound.unpinWalk {t : Tables H K V} (h : Sound es t) (fuel : Nat) (next : Option H) :
    Sound es (unpinWalk fuel t next) := by
  induction fuel generalizing t next with
  | zero => exact h
  | succ fuel ih =>
    cases next with
    | none => exact h
    | some hash =>
      unfold NonCanonicalOverlay.unpinWalk
      split
      · exact h
      rename_i inserted n hget
      have hkept := h.kept hash (by rw [FinMap.contains, hget]; rfl)
      split
      · -- the last pin is gone, and no block of the levels has the hash
        refine ih ⟨h.distinct, fun e he => ?_, fun x hx => ?_, h.counted.releaseAll _⟩ _
        · exact contains_erase.mpr ⟨hkept.2 e he, h.listed e he⟩
        · obtain ⟨hne, hx⟩ := contains_erase.mp hx
          exact ⟨contains_erase.mpr ⟨hne, (h.kept x hx).1⟩, (h.kept x hx).2⟩
      refine ih (t := { t with
        pinnedInsertions := t.pinnedInsertions.insert hash (inserted, n - 1) })
        ⟨h.distinct, h.listed, fun x hx => ?_, h.counted⟩ _
      rcases contains_insert.mp hx with rfl | hx
      · exact hkept
      · exact h.kept x hx

def OverlayOp.Fresh (o : NonCanonicalOverlay H K V) : OverlayOp H K V → Prop
  | .insert hash _ _ _ => o.parents.contains hash = false
  | _ => True

theorem Sound.run {op : OverlayOp H K V} (h : Sound (entries o.levels) o.toTables)
    (hop : op.Fresh o) (hrun : op.run o = some o') : Sound (entries o'.levels) o'.toTables := by
  cases op with
  | insert hash number parentHash changeset =>
    rcases insert_run hrun with rfl | ⟨i, level, hin⟩
    · exact h
    · exact h.insert hop hin
  | canonicalize hash commit =>
    rcases canonicalize_run hrun with rfl | rfl
    · exact h
    · exact h
  | applyPending =>
    obtain ⟨o1, hfold, rfl⟩ := applyPending_eq hrun
    refine Vec.foldlM_keeps (P := fun o => Sound (entries o.levels) o.toTables)
      (fun o hash o' hs hround => ?_) h hfold
    exact (applies_of_applyCanonicalization hround).keeps (fun _ _ _ _ n _ h => h.dispose n) hs
  | revertPending =>
    obtain ⟨o1, hfold, rfl⟩ := revertPending_eq hrun
    refine Vec.foldlM_keeps (P := fun o => Sound (entries o.levels) o.toTables)
      (fun o hash o' hs hround => ?_) h hfold
    obtain ⟨i, level, e, pre, hreverts⟩ := reverts_of_revertInsertion hround
    exact hs.reverts hreverts
  | revertOne =>
    obtain rfl := some.inj hrun
    exact h.revertOne
  | remove hash =>
    obtain rfl := some.inj hrun
    exact h.remove hash
  | pin hash =>
    obtain rfl := some.inj hrun
    obtain ⟨hlevels, htables, -⟩ := pin_eq o hash
    rwa [hlevels, htables]
  | unpin hash =>
    obtain rfl := some.inj hrun
    obtain ⟨hlevels, -, htables | ⟨fuel, htables⟩⟩ := unpin_eq o hash
    · rwa [hlevels, htables]
    · rw [hlevels, htables]
      exact h.unpinWalk _ _

end Calls

/-! ## Reading the journal -/

structure Entered (es : List (BlockOverlay H K)) (t : Tables H K V) : Prop where
  listed : ∀ e ∈ es, t.parents.contains e.hash = true
  unpinned : ∀ h, t.pinnedInsertions.contains h = false
  counted : RefCount.Positive t.values

section Reading

variable {db : Db H K V} {block : Nat} {es : List (BlockOverlay H K)} {t : Tables H K V}

theorem Entered.readRecord {s : OverlayLevel H K × Tables H K V}
    (h : Entered (es ++ s.1.blocks) s.2) (index : Nat) :
    Entered (es ++ (readRecord db block s index).1.blocks) (readRecord db block s index).2 := by
  unfold NonCanonicalOverlay.readRecord
  split
  · exact h
  refine ⟨fun e he => ?_, h.unpinned, h.counted.retainAll _⟩
  rw [OverlayLevel.push, ← append_assoc] at he
  rcases mem_append.mp he with he | he
  · exact contains_insert.mpr (.inr (h.listed e he))
  · obtain rfl := mem_singleton.mp he
    exact contains_insert.mpr (.inl rfl)

theorem Entered.readLevel (db : Db H K V) (block : Nat) (h : Entered es t) :
    Entered (es ++ (readLevel db block t).1.blocks) (readLevel db block t).2 := by
  have hfold : ∀ (is : List Nat) (s : OverlayLevel H K × Tables H K V),
      Entered (es ++ s.1.blocks) s.2 → Entered
        (es ++ (is.foldl (NonCanonicalOverlay.readRecord db block) s).1.blocks)
        (is.foldl (NonCanonicalOverlay.readRecord db block) s).2 := by
    intro is
    induction is with
    | nil => exact fun s hs => hs
    | cons i is ih => exact fun s hs => ih _ (hs.readRecord i)
  refine hfold _ (.new, t) ?_
  simpa [OverlayLevel.new] using h

theorem Entered.readLevels (fuel : Nat) (h : Entered es t) :
    Entered (es ++ entries (readLevels db fuel block t).1) (readLevels db fuel block t).2 := by
  induction fuel generalizing block es t with
  | zero => simpa [readLevels] using h
  | succ fuel ih =>
    have hlevel := h.readLevel db block
    simp only [readLevels]
    split
    · rename_i hempty
      rw [isEmpty_iff.mp hempty] at hlevel
      exact hlevel
    · have hrest : Entered (_ ++ entries (readLevels db fuel (block + 1)
          (NonCanonicalOverlay.readLevel db block t).2).1) _ := ih hlevel
      simpa using hrest

theorem sound_new (db : Db H K V) (hdistinct : DistinctHashes (entries (new db).levels)) :
    Sound (entries (new db).levels) (new db).toTables := by
  have hempty : Entered ([] : List (BlockOverlay H K)) (⟨.empty, .empty, .empty⟩ : Tables H K V) := by
    refine ⟨fun e he => absurd he not_mem_nil, fun h => rfl, fun k n v hk => ?_⟩
    cases hk
  have hread : Entered (entries (new db).levels) (new db).toTables := by
    unfold new
    cases db.lastCanonical with
    | none => exact hempty
    | some last => exact hempty.readLevels _
  refine ⟨hdistinct, hread.listed, fun h hh => ?_, hread.counted⟩
  rw [hread.unpinned h] at hh
  cases hh

end Reading

/-! ## Runs -/

/-- The overlays that calls lead to, each meeting a condition, from a journal that meets one. -/
inductive OverlayRun (Start : NonCanonicalOverlay H K V → Prop)
    (Cond : NonCanonicalOverlay H K V → OverlayOp H K V → Prop) : NonCanonicalOverlay H K V → Prop
  | new (db : Db H K V) (hstart : Start (new db)) : OverlayRun Start Cond (new db)
  | step {o o'} (op : OverlayOp H K V) (hrun : OverlayRun Start Cond o)
      (hcond : Cond o op) (hstep : op.run o = some o') : OverlayRun Start Cond o'

def Distinct (o : NonCanonicalOverlay H K V) : Prop := DistinctHashes (entries o.levels)

theorem OverlayRun.sound {Start : NonCanonicalOverlay H K V → Prop}
    {Cond : NonCanonicalOverlay H K V → OverlayOp H K V → Prop} (h : OverlayRun Start Cond o)
    (hstart : ∀ o, Start o → Distinct o) (hcond : ∀ o op, Cond o op → op.Fresh o) :
    Sound (entries o.levels) o.toTables := by
  induction h with
  | new db hnew => exact sound_new db (hstart _ hnew)
  | step op _ hop hstep ih => exact ih.run (hcond _ _ hop) hstep

end Substrate.StateDb
