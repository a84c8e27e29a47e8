import Substrate.OverlayLevels

/-!
# Inserting a block into the overlay

A rejected insertion leaves the overlay as it was; one that succeeds puts the block into the level
of its number (`Enters`). That is the level above its parent, so the levels stay layered.
-/

namespace Substrate.StateDb

open NonCanonicalOverlay List

variable {H K V : Type} {B : Blocks H K} {below : H → Prop} {levels : List (OverlayLevel H K)}

/-! ## Levels with a block more -/

theorem Layered.append_new (h : Layered B below levels) : Layered B below (levels ++ [.new]) := by
  induction levels generalizing below with
  | nil => exact ⟨by simp [OverlayLevel.new], trivial⟩
  | cons level rest ih => exact ⟨h.1, ih h.2⟩

variable {level : OverlayLevel H K} {i : Nat} {cs : ChangeSet K V} {p : H}
  [DecidableEq K]

section

omit [DecidableEq K]

theorem Layered.push {e : BlockOverlay H K} (h : Layered B below levels)
    (hi : levels[i]? = some level) (hm : Matches B e) (hfirst : i = 0 → below (B.parent e.hash))
    (hnext : ∀ j, i = j + 1 → ∃ lower, levels[j]? = some lower ∧
      ∃ f ∈ lower.blocks, f.hash = B.parent e.hash) :
    Layered B below (levels.set i (level.push e)) := by
  induction levels generalizing below i with
  | nil => simp at hi
  | cons first rest ih =>
    cases i with
    | zero =>
      obtain rfl := by simpa using hi
      refine ⟨fun f hf => ?_, h.2.mono ?_⟩
      · rcases mem_append.mp hf with hf | hf
        · exact h.1 f hf
        · obtain rfl := mem_singleton.mp hf
          exact ⟨hm, hfirst rfl⟩
      · rintro p ⟨f, hf, rfl⟩
        exact ⟨f, mem_append_left _ hf, rfl⟩
    | succ i =>
      refine ⟨h.1, ih h.2 (by simpa using hi) ?_ ?_⟩
      · rintro rfl
        obtain ⟨lower, hlower, hf⟩ := hnext 0 rfl
        obtain rfl := by simpa using hlower
        exact hf
      · rintro j rfl
        simpa using hnext (j + 1) rfl

theorem entries_set_push (hi : levels[i]? = some level) (e : BlockOverlay H K) :
    (entries (levels.set i (level.push e))).Perm (e :: entries levels) := by
  induction levels generalizing i with
  | nil => simp at hi
  | cons first rest ih =>
    cases i with
    | zero =>
      obtain rfl := by simpa using hi
      simp only [set_cons_zero, entries_cons, OverlayLevel.push, append_assoc]
      exact perm_middle
    | succ i =>
      simp only [set_cons_succ, entries_cons]
      exact ((ih (by simpa using hi)).append_left _).trans perm_middle

end

def grown (levels : List (OverlayLevel H K)) (i : Nat) : List (OverlayLevel H K) :=
  if i = levels.length then levels ++ [.new] else levels

section

omit [DecidableEq K]

theorem entries_grown (levels : List (OverlayLevel H K)) (i : Nat) :
    entries (grown levels i) = entries levels := by
  unfold grown
  split
  · simp [OverlayLevel.new]
  · rfl

theorem Layered.grown (h : Layered B below levels) (i : Nat) :
    Layered B below (grown levels i) := by
  unfold StateDb.grown
  split
  · exact h.append_new
  · exact h

end

section

omit [DecidableEq K]

theorem getElem?_grown_of_some {j : Nat} (hj : levels[j]? = some level) :
    (grown levels i)[j]? = some level := by
  unfold grown
  split
  · rw [List.getElem?_append_left (List.getElem?_eq_some_iff.mp hj).1, hj]
  · exact hj

theorem getElem?_grown_length (hi : i = levels.length) (h : (grown levels i)[i]? = some level) :
    level = .new := by
  rw [grown, if_pos hi, hi, getElem?_append_right (Nat.le_refl _), Nat.sub_self] at h
  exact (Option.some.inj h).symm

end

/-! ## The call -/

def changeSet (B : Blocks H K) (val : K → V) (h : H) : ChangeSet K V :=
  ⟨(B.inserted h).map fun k => (k, val k), B.deleted h⟩

def recordOf (B : Blocks H K) (val : K → V) (h : H) : JournalRecord H K V :=
  ⟨h, B.parent h, (changeSet B val h).inserted, (changeSet B val h).deleted⟩

variable {h : H}

omit [DecidableEq K] in
theorem matches_overlayOf (hh : h ≠ B.root) (val : K → V) (number index : Nat) :
    Matches B (overlayOf number index (recordOf B val h)) :=
  ⟨hh, by simp [overlayOf, recordOf, changeSet, Function.comp_def], rfl⟩

variable {o : NonCanonicalOverlay H K V}

variable [DecidableEq H]

theorem insert_assumed {number : Nat} (hlevels : o.levels = []) (hlast : o.lastCanonicalized = none)
    (hpos : number > 0) :
    o.insert h number p cs =
      insertAt { o with lastCanonicalized := some (p, number - 1), levels := [.new] } 0 h
        number p cs [.lastCanonical p (number - 1)] := by
  simp [NonCanonicalOverlay.insert, hlevels, hlast, hpos]

section

variable {o : NonCanonicalOverlay H K V} {number : Nat}
  (ha : ¬(o.levels = [] ∧ o.lastCanonicalized = none ∧ number > 0))
include ha

theorem insert_accepted (herr : o.insertError number p = none)
    (hnum : number = o.frontBlockNumber + i) (hi : i ≤ o.levels.length) :
    o.insert h number p cs =
      insertAt { o with levels := if i = o.levels.length then o.levels ++ [.new] else o.levels }
        i h number p cs [] := by
  have htop : (o.levels = [] ∨ number = o.frontBlockNumber + o.levels.length) ↔
      i = o.levels.length := by
    constructor
    · rintro (hnil | hn)
      · simpa [hnil] using hi
      · omega
    · intro hi
      exact .inr (by omega)
  by_cases hlen : i = o.levels.length
  · have htop' := htop.mpr hlen
    simp [NonCanonicalOverlay.insert, ha, herr, htop', hlen]
  · have htop' := mt htop.mp hlen
    have hsub : number - o.frontBlockNumber = i := by omega
    simp [NonCanonicalOverlay.insert, ha, herr, htop', hlen, hsub]

end

structure Enters (o : NonCanonicalOverlay H K V) (hash : H) (number : Nat) (parentHash : H)
    (changeset : ChangeSet K V) (i : Nat) (level : OverlayLevel H K)
    (o' : NonCanonicalOverlay H K V) : Prop where
  index_le : i ≤ o.levels.length
  get?_level : (grown o.levels i)[i]? = some level
  room : level.blocks.length < maxBlocksPerLevel
  checked : ¬(o.levels = [] ∧ o.lastCanonicalized = none ∧ number > 0) →
    o.insertError number parentHash = none
  number_eq : number = o'.frontBlockNumber + i
  levels : o'.levels = (grown o.levels i).set i (level.push (overlayOf number level.availableIndex
      (⟨hash, parentHash, changeset.inserted, changeset.deleted⟩ : JournalRecord H K V)))
  lastCanonicalized : o'.lastCanonicalized =
    if o.levels = [] ∧ o.lastCanonicalized = none ∧ number > 0 then some (parentHash, number - 1)
    else o.lastCanonicalized
  parents : o'.parents = o.parents.insert hash parentHash
  values : o'.values = insertValues o.values changeset.inserted
  pinnedInsertions : o'.pinnedInsertions = o.pinnedInsertions
  pinned : o'.pinned = o.pinned
  pendingCanonicalizations : o'.pendingCanonicalizations = o.pendingCanonicalizations
  pendingInsertions : o'.pendingInsertions = o.pendingInsertions ++ [hash]

section Call

variable {o o' : NonCanonicalOverlay H K V} {hash parentHash : H} {number i : Nat}
  {changeset : ChangeSet K V} {level : OverlayLevel H K} {c : CommitSet H K V} {e : Error}

theorem insertAt_cases (o : NonCanonicalOverlay H K V) (i : Nat) (hash : H) (number : Nat)
    (parentHash : H) (changeset : ChangeSet K V) (metaInserted : List (MetaEntry H K V)) :
    (insertAt o i hash number parentHash changeset metaInserted).1 = .panic ∨
    ∃ level, o.levels[i]? = some level ∧ (maxBlocksPerLevel ≤ level.blocks.length ∧
        insertAt o i hash number parentHash changeset metaInserted =
          (.err .tooManySiblingBlocks, o) ∨
      level.blocks.length < maxBlocksPerLevel ∧ ∃ c, c.data = ⟨[], []⟩ ∧
        insertAt o i hash number parentHash changeset metaInserted = (.ok c, { o with
          levels := o.levels.set i (level.push (overlayOf number level.availableIndex
            ⟨hash, parentHash, changeset.inserted, changeset.deleted⟩))
          parents := o.parents.insert hash parentHash
          values := insertValues o.values changeset.inserted
          pendingInsertions := o.pendingInsertions ++ [hash] })) := by
  unfold insertAt
  split
  · exact .inl rfl
  rename_i level hlevel
  refine .inr ⟨level, hlevel, ?_⟩
  split
  · rename_i hfull
    exact .inl ⟨hfull, rfl⟩
  · rename_i hroom
    exact .inr ⟨Nat.not_le.mp hroom, _, rfl, rfl⟩

theorem insert_eq (hash : H) (changeset : ChangeSet K V)
    (ha : ¬(o.levels = [] ∧ o.lastCanonicalized = none ∧ number > 0))
    (herr : o.insertError number parentHash = none) :
    (o.insert hash number parentHash changeset).1 = .panic ∨
      ∃ i ≤ o.levels.length, number = o.frontBlockNumber + i ∧
        o.insert hash number parentHash changeset =
          insertAt { o with levels := grown o.levels i } i hash number parentHash changeset [] := by
  by_cases hle : o.frontBlockNumber ≤ number ∧ number ≤ o.frontBlockNumber + o.levels.length
  · obtain ⟨i, rfl⟩ := Nat.exists_eq_add_of_le hle.1
    have hi : i ≤ o.levels.length := Nat.add_le_add_iff_left.mp hle.2
    exact .inr ⟨i, hi, rfl, insert_accepted ha herr rfl hi⟩
  refine .inl ?_
  cases hlast : o.lastCanonicalized with
  | some last =>
    -- the number has been checked
    obtain ⟨h, n⟩ := last
    unfold insertError at herr
    simp only [hlast] at herr
    split at herr
    · cases herr
    · omega
  | none =>
    have hfront : o.frontBlockNumber = 0 := by
      unfold frontBlockNumber
      rw [hlast]
    have hne : o.levels ≠ [] := fun hnil => ha ⟨hnil, hlast, by omega⟩
    have htop : ¬(o.levels = [] ∨ number = o.levels.length) := by
      rintro (hnil | heq)
      · exact hne hnil
      · omega
    have hnone : o.levels[number]? = none := getElem?_eq_none (by omega)
    simp [NonCanonicalOverlay.insert, herr, hfront, htop, insertAt, hnone]

theorem insert_cases (o : NonCanonicalOverlay H K V) (hash : H) (number : Nat) (parentHash : H)
    (changeset : ChangeSet K V) :
    (o.insert hash number parentHash changeset).1 = .panic ∨
    (∃ e, o.insert hash number parentHash changeset = (.err e, o)) ∨
    ∃ c o', o.insert hash number parentHash changeset = (.ok c, o') ∧ c.data = ⟨[], []⟩ ∧
      ∃ i level, Enters o hash number parentHash changeset i level o' := by
  -- a new level has room
  have hnew : ¬maxBlocksPerLevel ≤ (OverlayLevel.new : OverlayLevel H K).blocks.length := by
    simp [OverlayLevel.new, maxBlocksPerLevel]
  by_cases ha : o.levels = [] ∧ o.lastCanonicalized = none ∧ number > 0
  · have hgrown : grown o.levels 0 = [.new] := by
      rw [ha.1]
      rfl
    rw [insert_assumed ha.1 ha.2.1 ha.2.2]
    rcases insertAt_cases { o with
        lastCanonicalized := some (parentHash, number - 1), levels := [.new] } 0 hash number
        parentHash changeset [.lastCanonical parentHash (number - 1)] with
      hpanic | ⟨level, hlevel, ⟨hfull, -⟩ | ⟨hroom, c, hdata, heq⟩⟩
    · exact .inl hpanic
    · obtain rfl := Option.some.inj hlevel
      exact absurd hfull hnew
    · refine .inr (.inr ⟨c, _, heq, hdata, 0, level, Nat.zero_le _, by rw [hgrown]; exact hlevel,
        hroom, fun hno => absurd ha hno, ?_, by rw [hgrown], by rw [if_pos ha], rfl, rfl, rfl, rfl,
        rfl, rfl⟩)
      simp only [frontBlockNumber]
      omega
  · cases herr : o.insertError number parentHash with
    | some e => exact .inr (.inl ⟨e, by simp [NonCanonicalOverlay.insert, ha, herr]⟩)
    | none =>
      rcases insert_eq hash changeset ha herr with hpanic | ⟨i, hi, hnumber, heq⟩
      · exact .inl hpanic
      rw [heq]
      rcases insertAt_cases { o with levels := grown o.levels i } i hash number parentHash
          changeset [] with
        hpanic | ⟨level, hlevel, ⟨hfull, heq⟩ | ⟨hroom, c, hdata, heq⟩⟩
      · exact .inl hpanic
      · refine .inr (.inl ⟨.tooManySiblingBlocks, heq.trans ?_⟩)
        have htop : i ≠ o.levels.length := by
          intro htop
          rw [getElem?_grown_length htop hlevel] at hfull
          exact hnew hfull
        rw [grown, if_neg htop]
      · exact .inr (.inr ⟨c, _, heq, hdata, i, level, hi, hlevel, hroom, fun _ => herr, hnumber,
          rfl, by rw [if_neg ha], rfl, rfl, rfl, rfl, rfl, rfl⟩)

theorem enters_of_insert (h : o.insert hash number parentHash changeset = (.ok c, o')) :
    ∃ i level, Enters o hash number parentHash changeset i level o' := by
  rcases insert_cases o hash number parentHash changeset with
    hpanic | ⟨e, heq⟩ | ⟨c', o1, heq, -, hin⟩
  · rw [h] at hpanic
    cases hpanic
  all_goals cases h.symm.trans heq
  exact hin

theorem insert_unchanged (h : o.insert hash number parentHash changeset = (.err e, o')) :
    o' = o := by
  rcases insert_cases o hash number parentHash changeset with
    hpanic | ⟨e', heq⟩ | ⟨c, o1, heq, -⟩
  · rw [h] at hpanic
    cases hpanic
  all_goals cases h.symm.trans heq
  rfl

section

variable (hin : Enters o hash number parentHash changeset i level o')
include hin

theorem Enters.entries_perm : (entries o'.levels).Perm (overlayOf number level.availableIndex
      (⟨hash, parentHash, changeset.inserted, changeset.deleted⟩ : JournalRecord H K V) ::
        entries o.levels) := by
  rw [hin.levels]
  refine (entries_set_push hin.get?_level _).trans (List.Perm.cons _ ?_)
  rw [entries_grown]

theorem Enters.level_mono {j : Nat} {l : OverlayLevel H K} (hj : o.levels[j]? = some l) :
    ∃ l', o'.levels[j]? = some l' ∧ ∀ e ∈ l.blocks, e ∈ l'.blocks := by
  have hj' := getElem?_grown_of_some (i := i) hj
  rw [hin.levels]
  by_cases hij : i = j
  · subst hij
    obtain rfl := Option.some.inj (hin.get?_level.symm.trans hj')
    rw [List.getElem?_set_self (List.getElem?_eq_some_iff.mp hj').1]
    exact ⟨_, rfl, fun e he => mem_append_left _ he⟩
  · rw [getElem?_set_ne hij]
    exact ⟨l, hj', fun e he => he⟩

theorem Enters.inLevels_iff (x : H) : InLevels o'.levels x ↔ x = hash ∨ InLevels o.levels x := by
  have hmem := fun e => (hin.entries_perm.mem_iff (a := e)).trans mem_cons
  constructor
  · rintro ⟨f, hf, rfl⟩
    rcases (hmem f).mp hf with rfl | hf
    · exact .inl rfl
    · exact .inr ⟨f, hf, rfl⟩
  · rintro (rfl | ⟨f, hf, rfl⟩)
    · exact ⟨_, (hmem _).mpr (.inl rfl), rfl⟩
    · exact ⟨f, (hmem f).mpr (.inr hf), rfl⟩

end

end Call

/-! ## Over a known parent -/

/-- It is the last canonicalized block, or nothing has been canonicalized and it is `root`. -/
def HeadAt (B : Blocks H K) (base : H) (o : NonCanonicalOverlay H K V) : Prop :=
  (∃ n, o.lastCanonicalized = some (base, n) ∧ n + 1 = B.tree.number base) ∨
    (o.lastCanonicalized = none ∧ base = B.root ∧ (B.first = 0 ∨ o.levels = []))

section

omit [DecidableEq K]

theorem parent_of_insertError {base : H} {n number : Nat}
    (hlast : o.lastCanonicalized = some (base, n)) (hok : o.insertError number p = none) :
    p = base ∨ o.parents.contains p = true := by
  unfold insertError at hok
  simp only [hlast] at hok
  split at hok
  · cases hok
  split at hok
  · split at hok
    · rename_i hp
      exact .inl hp.1.symm
    · cases hok
  split at hok
  · rename_i hp
    exact .inr hp
  · cases hok

theorem level_of_parent {base : H} (hl : Layered B (· = base) levels) (hh : h ≠ B.root)
    (hparent : B.parent h = base ∨ InLevels levels (B.parent h)) :
    ∃ i ≤ levels.length, B.number h = B.tree.number base + i ∧ (i = 0 → B.parent h = base) ∧
      (∀ j, i = j + 1 → ∃ lower, levels[j]? = some lower ∧
        ∃ f ∈ lower.blocks, f.hash = B.parent h) := by
  have hnum : B.number h = B.tree.number (B.parent h) := by
    have := B.tree_number_child hh
    rw [B.tree_number hh] at this
    omega
  rcases hparent with hp | ⟨f, hf, hp⟩
  · exact ⟨0, Nat.zero_le _, by rw [hnum, hp, Nat.add_zero], fun _ => hp, fun j hj => by omega⟩
  obtain ⟨lower, hlower, hfl⟩ := mem_entries.mp hf
  obtain ⟨j, hj⟩ := mem_iff_getElem?.mp hlower
  have hjlt : j < levels.length := (List.getElem?_eq_some_iff.mp hj).1
  refine ⟨j + 1, hjlt, ?_, fun h0 => by omega, ?_⟩
  · rw [hnum, ← hp, hl.number_eq (fun p hp => by rw [hp]) hj hfl]
    omega
  · intro j' hj'
    obtain rfl : j = j' := by omega
    exact ⟨lower, hj, f, hfl, hp⟩

end

section Known

variable {o o' : NonCanonicalOverlay H K V} {base h : H} {val : K → V} {i : Nat}
  {level : OverlayLevel H K}

section

variable (hin : Enters o h (B.number h) (B.parent h) (changeSet B val h) i level o')
  (hhead : HeadAt B base o)
include hin hhead

theorem Enters.parent_in
    (hlisted : o.parents.contains (B.parent h) = true → InLevels o.levels (B.parent h))
    (hnone : o.lastCanonicalized = none → B.parent h = base ∨ InLevels o.levels (B.parent h)) :
    B.parent h = base ∨ InLevels o.levels (B.parent h) := by
  rcases hhead with ⟨n, hn, _⟩ | ⟨hn, _⟩
  · have herr := hin.checked fun ha => by
      rw [ha.2.1] at hn
      cases hn
    exact (parent_of_insertError hn herr).imp id hlisted
  · exact hnone hn

section

variable (hl : Layered B (· = base) o.levels) (hh : h ≠ B.root)
  (hparent : B.parent h = base ∨ InLevels o.levels (B.parent h))
include hl hh hparent

theorem Enters.head : HeadAt B base o' ∧ o'.frontBlockNumber = B.tree.number base := by
  -- over an overlay without levels, the block is a child of the base
  have hempty : o.levels = [] → B.parent h = base ∧ B.number h = B.tree.number base := by
    intro hnil
    obtain ⟨i, hile, hnum, hfirst, -⟩ := level_of_parent hl hh hparent
    obtain rfl := by simpa [hnil] using hile
    exact ⟨hfirst rfl, hnum⟩
  by_cases ha : o.levels = [] ∧ o.lastCanonicalized = none ∧ B.number h > 0
  · -- the parent is assumed to have been canonicalized
    obtain ⟨hp, hnum⟩ := hempty ha.1
    have hlast : o'.lastCanonicalized = some (base, B.number h - 1) := by
      rw [hin.lastCanonicalized, if_pos ha, hp]
    have hsucc : B.number h - 1 + 1 = B.tree.number base := by
      rw [Nat.sub_add_cancel ha.2.2, hnum]
    exact ⟨.inl ⟨_, hlast, hsucc⟩, by simp only [frontBlockNumber, hlast, hsucc]⟩
  have hlast : o'.lastCanonicalized = o.lastCanonicalized := by
    rw [hin.lastCanonicalized, if_neg ha]
  rcases hhead with ⟨n, hn, hb⟩ | ⟨hn, hb, hf⟩
  · exact ⟨.inl ⟨n, hlast.trans hn, hb⟩, by simp only [frontBlockNumber, hlast, hn, hb]⟩
  have hzero : B.first = 0 := by
    rcases hf with hf | hf
    · exact hf
    have hnum := (hempty hf).2
    rw [hb, B.tree_number_root] at hnum
    by_contra hne
    exact ha ⟨hf, hn, by omega⟩
  refine ⟨.inr ⟨hlast.trans hn, hb, .inl hzero⟩, ?_⟩
  simp [frontBlockNumber, hlast, hn, hb, B.tree_number_root, hzero]

theorem Enters.layered : Layered B (· = base) o'.levels := by
  obtain ⟨j, -, hnum, hfirst, hnext⟩ := level_of_parent hl hh hparent
  obtain rfl : i = j := by
    have := hin.number_eq
    rw [(hin.head hhead hl hh hparent).2] at this
    omega
  rw [hin.levels]
  refine (hl.grown i).push hin.get?_level (matches_overlayOf hh val _ _) hfirst fun j hj => ?_
  obtain ⟨lower, hlower, hf⟩ := hnext j hj
  exact ⟨lower, getElem?_grown_of_some hlower, hf⟩

end

end

end Known

end Substrate.StateDb
