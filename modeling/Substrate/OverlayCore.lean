import Substrate.OverlayDiscards
import Substrate.OverlayInsert

/-!
# The overlay without pins

`Core` is what holds of an overlay without pins at any time: the levels are layered above the last
canonical block, the parent table holds their blocks with their parents, and the values are counted
by the blocks that insert them. `Core.applyAll` also shows that the applied blocks extend the
canonical chain one by one.
-/

namespace Substrate.StateDb

open NonCanonicalOverlay Function List

variable {H K V : Type} [DecidableEq H] [DecidableEq K]
  {B : Blocks H K} {val : K → V} {base h : H} {o o' : NonCanonicalOverlay H K V}

structure Core (B : Blocks H K) (val : K → V) (base : H) (o : NonCanonicalOverlay H K V) :
    Prop where
  layered : Layered B (· = base) o.levels
  parentsAgree : ParentsAgree B o.parents
  parents_in : ∀ x, o.parents.contains x = true → InLevels o.levels x
  counts : RefCount.Counts val (fun k => insertions (entries o.levels) k) o.values
  unpinned : ∀ x, o.pinned.contains x = false

/-! ## Insertion -/

omit [DecidableEq K] in
theorem ParentsAgree.insert {parents} (hp : ParentsAgree B parents) (h : H) :
    ParentsAgree B (parents.insert h (B.parent h)) := by
  intro x p hx
  rw [FinMap.get?_insert] at hx
  by_cases hxh : x = h
  · rw [hxh, update_self, Option.some.injEq] at hx
    rw [hxh, hx]
  · rw [update_of_ne hxh] at hx
    exact hp x p hx

variable {level : OverlayLevel H K} {c₀ : CommitSet H K V}

theorem Enters.counts {number i : Nat}
    (hi : Enters o h number (B.parent h) (changeSet B val h) i level o')
    (hc : RefCount.Counts val (fun k => insertions (entries o.levels) k) o.values) :
    RefCount.Counts val (fun k => insertions (entries o'.levels) k) o'.values := by
  rw [hi.values]
  have hvals : ∀ p ∈ (changeSet B val h).inserted, p.2 = val p.1 := by
    intro p hp
    obtain ⟨k, _, rfl⟩ := mem_map.mp hp
    rfl
  refine (hc.retainAll hvals).congr fun k => ?_
  rw [insertions_perm hi.entries_perm, insertions_cons]
  exact Nat.add_comm _ _

theorem Core.insert {i : Nat} (hc : Core B val base o)
    (hi : Enters o h (B.number h) (B.parent h) (changeSet B val h) i level o')
    (hl : Layered B (· = base) o'.levels) : Core B val base o' where
  layered := hl
  parentsAgree := by
    rw [hi.parents]
    exact hc.parentsAgree.insert h
  parents_in x hx := by
    rw [hi.inLevels_iff]
    by_cases hxh : x = h
    · exact .inl hxh
    · refine .inr (hc.parents_in x ?_)
      rw [hi.parents] at hx
      simpa [FinMap.contains, update_of_ne hxh] using hx
  counts := hi.counts hc.counts
  unpinned := by
    rw [hi.pinned]
    exact hc.unpinned

/-! ## Canonicalization -/

structure Canonicalizes (o : NonCanonicalOverlay H K V) (h : H) (c₀ c : CommitSet H K V)
    (o' : NonCanonicalOverlay H K V) (e : BlockOverlay H K) : Prop where
  block : ∃ level, o.levels[o.pendingCanonicalizations.length]? = some level ∧ e ∈ level.blocks
  hash : e.hash = h
  overlay : o' = { o with pendingCanonicalizations := o.pendingCanonicalizations ++ [h] }
  inserted : ∃ kvs, insertedValues o.values e.inserted = some kvs ∧
    c.data.inserted = c₀.data.inserted ++ kvs
  deleted : c.data.deleted = c₀.data.deleted ++ e.deleted

section

omit [DecidableEq K]

theorem canonicalize_ok {c} (hrun : o.canonicalize h c₀ = (.ok c, o')) :
    ∃ e, Canonicalizes o h c₀ c o' e := by
  unfold canonicalize at hrun
  split at hrun
  · cases hrun
  rename_i level hlevel
  split at hrun
  · cases hrun
  rename_i index hindex
  split at hrun
  · rename_i e journals blocks he hjournals
    split at hrun
    · cases hrun
    rename_i kvs hkvs
    obtain ⟨hc, rfl⟩ := Prod.mk.inj hrun
    obtain rfl := Outcome.ok.inj hc
    have hhash : e.hash = h := by
      have := (findIdx?_eq_some_iff_getElem.mp hindex).2.1
      rw [(List.getElem?_eq_some_iff.mp he).2] at this
      simpa using this
    exact ⟨e, ⟨level, hlevel, mem_of_getElem? he⟩, hhash, rfl, ⟨kvs, hkvs, rfl⟩, rfl⟩
  · cases hrun

theorem canonicalize_err {err : Error} (hrun : o.canonicalize h c₀ = (.err err, o')) : o' = o := by
  unfold canonicalize at hrun
  split at hrun
  · exact (Prod.mk.inj hrun).2.symm
  split at hrun
  · exact (Prod.mk.inj hrun).2.symm
  · split at hrun
    · split at hrun <;> cases hrun
    · cases hrun

theorem insertedValues_eq {values} {c : K → Nat} {ks : List K} (hc : RefCount.Counts val c values)
    (hpos : ∀ k ∈ ks, 0 < c k) : insertedValues values ks = some (ks.map fun k => (k, val k)) := by
  unfold insertedValues
  induction ks with
  | nil => rfl
  | cons k ks ih =>
    obtain ⟨hk, hks⟩ := forall_mem_cons.mp hpos
    rw [mapM_cons, hc k, if_neg (by omega), ih hks]
    rfl

end

omit [DecidableEq H] in
theorem insertions_pos {es : List (BlockOverlay H K)} {e : BlockOverlay H K} (he : e ∈ es)
    {k : K} (hk : k ∈ e.inserted) : 0 < insertions es k :=
  count_pos_iff.mpr (mem_flatMap.mpr ⟨e, he, hk⟩)

/-! ## Applying canonicalizations -/

def ChainFrom (B : Blocks H K) : H → List H → H → Prop
  | b, [], b' => b' = b
  | b, c :: cs, b' => c ≠ B.root ∧ B.parent c = b ∧ ChainFrom B c cs b'

theorem disposable_tables (B : Blocks H K) (val : K → V) {pinned}
    (hnone : ∀ x, pinned.contains x = false) :
    Disposable pinned fun es (t : Tables H K V) => ParentsAgree B t.parents ∧
      (∀ x, t.parents.contains x = true → ∃ e ∈ es, e.hash = x) ∧
      RefCount.Counts val (fun k => insertions es k) t.values := by
  rintro pre post e t n hn ⟨hparents, hin, hcounts⟩
  rw [hn hnone]
  refine ⟨hparents.erase _, fun x hx => ?_, RefCount.Counts.releaseAll (hcounts.congr fun k => ?_)⟩
  · have hne : x ≠ e.hash := by
      rintro rfl
      simp [FinMap.contains] at hx
    obtain ⟨f, hf, rfl⟩ := hin x (by simpa [FinMap.contains, update_of_ne hne] using hx)
    rw [mem_append, mem_cons] at hf
    refine ⟨f, mem_append.mpr ?_, rfl⟩
    rcases hf with hf | rfl | hf
    · exact .inl hf
    · exact absurd rfl hne
    · exact .inr hf
  · simp only [insertions_append, insertions_cons]
    omega

theorem Core.apply (hc : Core B val base o) (ha : Applies o h o') :
    h ≠ B.root ∧ B.parent h = base ∧ Core B val h o' := by
  have hnone := hc.unpinned
  obtain ⟨hparents, hin, hcounts⟩ := ha.keeps (disposable_tables B val hnone)
    ⟨hc.parentsAgree, hc.parents_in, hc.counts⟩
  obtain ⟨level, rest, rest1, pre, post, e, t1, hlevels, hblocks, rfl, hpre, hpost⟩ := ha.split
  have hl := hc.layered
  rw [hlevels] at hl
  have he : e ∈ level.blocks := by simp [hblocks]
  refine ⟨(hl.1 e he).1.ne_root, (hl.1 e he).2, ?_, hparents, hin, hcounts, ?_⟩
  · refine (hpost.layered ((hpre.parentsAgree hc.parentsAgree).dispose _ _)
      (hpre.layered hc.parentsAgree hl.2)).mono ?_
    rintro p ⟨⟨⟨f, hf, rfl⟩, hnpre⟩, hnpost⟩
    rw [hblocks, mem_append, mem_cons] at hf
    rcases hf with hf | rfl | hf
    · exact absurd rfl (hnpre f hf)
    · rfl
    · exact absurd rfl (hnpost f hf)
  · rw [ha.pinned]
    exact hnone

/-- It succeeds only for a chain above the last canonical block. -/
theorem Core.applyAll {cs : List H} (hc : Core B val base o)
    (hrun : cs.foldlM applyCanonicalization o = some o') :
    ∃ base', ChainFrom B base cs base' ∧ Core B val base' o' ∧
      o'.lastCanonicalized = o.lastCanonicalized := by
  induction cs generalizing o base with
  | nil =>
    obtain rfl := by simpa using hrun
    exact ⟨base, rfl, hc, rfl⟩
  | cons c cs ih =>
    rw [foldlM_cons] at hrun
    obtain ⟨o1, hfirst, hmore⟩ := Option.bind_eq_some_iff.mp hrun
    have ha := applies_of_applyCanonicalization hfirst
    obtain ⟨hroot, hparent, hc1⟩ := hc.apply ha
    obtain ⟨base', hchain, hc', hlast⟩ := ih hc1 hmore
    exact ⟨base', ⟨hroot, hparent, hchain⟩, hc', hlast.trans ha.lastCanonicalized⟩

end Substrate.StateDb
