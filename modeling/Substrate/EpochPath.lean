import Substrate.EpochChanges

/-!
# The signalled epochs on a branch

Pruning looks for an epoch that is over by the slot of the finalized block, the lookup for one that
has started. What ties them together is `Path`: on the branch of a block, the deepest signalled
epoch is the one after the block's own, and the one before it is the block's own. So what pruning
re-roots at lies strictly above the node of the finalized block's own epoch.
-/

namespace Substrate.Epochs

open EpochChanges ForkTree BlockTree ForkTree.Node

variable {H Slot Ep D E : Type} [LinearOrder Slot]

/-! ## Headers -/

namespace PersistedEpochHeader

def first : PersistedEpochHeader Slot → EpochHeader Slot
  | genesis epoch0 _ => epoch0
  | regular epochN => epochN

def last : PersistedEpochHeader Slot → EpochHeader Slot
  | genesis _ epoch1 => epoch1
  | regular epochN => epochN

def Proper : PersistedEpochHeader Slot → Prop
  | genesis epoch0 epoch1 => epoch0.startSlot ≤ epoch0.endSlot ∧
      epoch0.endSlot ≤ epoch1.startSlot ∧ epoch1.startSlot ≤ epoch1.endSlot
  | regular epochN => epochN.startSlot ≤ epochN.endSlot

variable {h : PersistedEpochHeader Slot}

theorem Proper.first_le_last (hp : h.Proper) : h.first.startSlot ≤ h.last.startSlot := by
  cases h with
  | genesis epoch0 epoch1 => exact le_trans hp.1 hp.2.1
  | regular epochN => exact le_refl _

theorem Proper.last_start_le_end (hp : h.Proper) : h.last.startSlot ≤ h.last.endSlot := by
  cases h with
  | genesis epoch0 epoch1 => exact hp.2.2
  | regular epochN => exact hp

end PersistedEpochHeader

open PersistedEpochHeader

theorem startedBy_eq (slot : Slot) (h : PersistedEpochHeader Slot) :
    startedBy slot h = decide (h.first.startSlot ≤ slot) := by
  cases h <;> rfl

theorem endedBy_eq (slot : Slot) (h : PersistedEpochHeader Slot) :
    endedBy slot h = decide (h.last.endSlot ≤ slot) := by
  cases h <;> rfl

theorem selectEpoch_end_le (slot : Slot) {h} (hp : h.Proper) :
    (selectEpoch slot h).2.endSlot ≤ h.last.endSlot := by
  cases h with
  | genesis epoch0 epoch1 =>
    simp only [selectEpoch]
    split
    · exact le_refl _
    · exact hp.2.1.trans hp.2.2
  | regular epochN => exact le_refl _

theorem selectEpoch_of_last_started {slot : Slot} {h} (hstarted : h.last.startSlot ≤ slot) :
    (selectEpoch slot h).2 = h.last := by
  cases h with
  | genesis epoch0 epoch1 => exact congrArg Prod.snd (if_pos hstarted)
  | regular epochN => rfl

/-! ## The branch of a live block -/

section Path

variable {T : BlockTree H} {slotOf : H → Slot}
  {entries : List (H × Nat × PersistedEpochHeader Slot)} {b : H}

/-- It is right above the deepest entry on the branch of the block. -/
structure Own (T : BlockTree H) (slotOf : H → Slot)
    (entries : List (H × Nat × PersistedEpochHeader Slot)) (b : H)
    (c d : H × Nat × PersistedEpochHeader Slot) : Prop where
  mem : c ∈ entries
  above : T.anc c.1 d.1
  next : ∀ e ∈ entries, T.anc e.1 d.1 → T.ancEq e.1 c.1
  started : c.2.2.last.startSlot ≤ slotOf b
  running : slotOf b < c.2.2.last.endSlot

/-- The deepest signalled epoch is the one after the block's own. -/
structure Path (T : BlockTree H) (slotOf : H → Slot)
    (entries : List (H × Nat × PersistedEpochHeader Slot)) (b : H)
    (d : H × Nat × PersistedEpochHeader Slot) : Prop where
  ordered : ∀ c ∈ entries, ∀ e ∈ entries, T.anc c.1 e.1 → T.ancEq e.1 b →
    c.2.2.last.endSlot ≤ e.2.2.first.startSlot ∧ ∃ epochN, e.2.2 = .regular epochN
  mem : d ∈ entries
  onBranch : T.ancEq d.1 b
  deepest : ∀ e ∈ entries, T.ancEq e.1 b → T.ancEq e.1 d.1
  ahead : slotOf b < d.2.2.last.startSlot
  own : (∃ epoch0 epoch1, d.2.2 = .genesis epoch0 epoch1 ∧ epoch0.startSlot ≤ slotOf b) ∨
    ∃ c, Own T slotOf entries b c d

namespace Path

variable {d : H × Nat × PersistedEpochHeader Slot}
  {entries' : List (H × Nat × PersistedEpochHeader Slot)} {b' : H}
  {epoch0 epoch1 : EpochHeader Slot}

section

variable (h : Path T slotOf entries b d)
include h

theorem congr (hiff : ∀ e, T.ancEq e.1 b → (e ∈ entries' ↔ e ∈ entries)) :
    Path T slotOf entries' b d := by
  have hup : ∀ {x y : H}, T.anc x y → T.ancEq y b → T.ancEq x b := fun hxy hy =>
    .inr (hxy.trans_ancEq hy)
  refine
    { ordered := fun c hc e he hce heb => ?_
      mem := (hiff d h.onBranch).mpr h.mem
      onBranch := h.onBranch
      deepest := fun e he heb => h.deepest e ((hiff e heb).mp he) heb
      ahead := h.ahead
      own := h.own.imp id fun ⟨c, hc⟩ => ⟨c, ?_⟩ }
  · exact h.ordered c ((hiff c (hup hce heb)).mp hc) e ((hiff e heb).mp he) hce heb
  · exact { hc with
        mem := (hiff c (hup hc.above h.onBranch)).mpr hc.mem
        next := fun e he hed => hc.next e ((hiff e (hup hed h.onBranch)).mp he) hed }

theorem not_above_genesis (hd : d.2.2 = .genesis epoch0 epoch1) {e} (he : e ∈ entries) :
    ¬T.anc e.1 d.1 := by
  intro hanc
  obtain ⟨-, epochN, hregular⟩ := h.ordered e he d h.mem hanc h.onBranch
  rw [hd] at hregular
  cases hregular

variable {x : H × Nat × PersistedEpochHeader Slot}

theorem own_below_ended (hproper : ∀ e ∈ entries, e.2.2.Proper)
    (hext : ∀ e ∈ entries, ∀ e' ∈ entries, e.1 = e'.1 → e = e') (hx : x ∈ entries)
    (hxb : T.ancEq x.1 b) (hended : x.2.2.last.endSlot ≤ slotOf b) :
    ∃ c, Own T slotOf entries b c d ∧ T.anc x.1 c.1 := by
  -- the deepest epoch has not started, so it is not over
  have hxd : T.anc x.1 d.1 := by
    rcases h.deepest x hx hxb with heq | hanc
    · obtain rfl := hext x hx d h.mem heq
      have hahead := lt_of_lt_of_le h.ahead (hproper x hx).last_start_le_end
      exact absurd hended (not_le.mpr hahead)
    · exact hanc
  rcases h.own with ⟨epoch0, epoch1, hd, -⟩ | ⟨c, hc⟩
  · exact absurd hxd (h.not_above_genesis hd hx)
  refine ⟨c, hc, ?_⟩
  rcases hc.next x hx hxd with heq | hanc
  · obtain rfl := hext x hx c hc.mem heq
    exact absurd hended (not_le.mpr hc.running)
  · exact hanc

theorem pruned {f : H} {c df} (hf : Path T slotOf entries f df) (hown : Own T slotOf entries f c df)
    (hfb : T.ancEq f b) (hslot : slotOf f ≤ slotOf b) (hproper : ∀ e ∈ entries, e.2.2.Proper)
    (hsub : ∀ e ∈ entries', e ∈ entries) (hkeep : ∀ e ∈ entries, T.ancEq c.1 e.1 → e ∈ entries') :
    Path T slotOf entries' b d := by
  have hcb : T.ancEq c.1 b :=
    .inr ((hown.above.trans_ancEq hf.onBranch).trans_ancEq hfb)
  refine
    { ordered := fun x hx e he => h.ordered x (hsub x hx) e (hsub e he)
      mem := hkeep d h.mem (h.deepest c hown.mem hcb)
      onBranch := h.onBranch
      deepest := fun e he => h.deepest e (hsub e he)
      ahead := h.ahead
      own := h.own.imp id fun ⟨cb, hcb'⟩ => ⟨cb, ?_⟩ }
  refine { hcb' with mem := hkeep cb hcb'.mem ?_, next := fun e he => hcb'.next e (hsub e he) }
  -- the block's own epoch is not over by the slot of `f`
  have hcbb : T.ancEq cb.1 b := .inr (hcb'.above.trans_ancEq h.onBranch)
  by_contra hnot
  have habove : T.anc cb.1 c.1 := by
    by_contra hanc
    refine BlockTree.Unrelated.not_ancEq ⟨?_, hanc, ?_⟩ hcbb hcb
    · exact fun heq => hnot (.inl heq.symm)
    · exact fun hanc' => hnot (.inr hanc')
  have hend := (h.ordered cb hcb'.mem c hown.mem habove hcb).1
  have hover : cb.2.2.last.endSlot ≤ slotOf b :=
    hend.trans (((hproper c hown.mem).first_le_last.trans hown.started).trans hslot)
  exact absurd hcb'.running (not_lt.mpr hover)

theorem extend (hbranch : ∀ e ∈ entries, T.ancEq e.1 b' ↔ T.ancEq e.1 b)
    (hahead : slotOf b' < d.2.2.last.startSlot)
    (hown : (∃ epoch0 epoch1, d.2.2 = .genesis epoch0 epoch1 ∧ epoch0.startSlot ≤ slotOf b') ∨
      ∃ c, Own T slotOf entries b' c d) :
    Path T slotOf entries b' d where
  ordered c hc e he hce heb := h.ordered c hc e he hce ((hbranch e he).mp heb)
  mem := h.mem
  onBranch := (hbranch d h.mem).mpr h.onBranch
  deepest e he heb := h.deepest e he ((hbranch e he).mp heb)
  ahead := hahead
  own := hown

section

variable (hproper : ∀ e ∈ entries, e.2.2.Proper)
  (hext : ∀ e ∈ entries, ∀ e' ∈ entries, e.1 = e'.1 → e = e')
include hproper hext

theorem child (hbranch : ∀ e ∈ entries, T.ancEq e.1 b' ↔ T.ancEq e.1 b)
    (hlater : slotOf b < slotOf b') (hx : x ∈ entries) (hxb : T.ancEq x.1 b)
    (hend : slotOf b' < (selectEpoch (slotOf b') x.2.2).2.endSlot) :
    (x = d ∧ (selectEpoch (slotOf b') x.2.2).2 = d.2.2.last) ∨
    ((selectEpoch (slotOf b') x.2.2).2.startSlot ≤ slotOf b ∧ Path T slotOf entries b' d) := by
  rcases h.deepest x hx hxb with heq | hxd
  · obtain rfl := hext x hx d h.mem heq
    rcases hdata : x.2.2 with ⟨epoch0, epoch1⟩ | epochN
    · by_cases hsel : epoch1.startSlot ≤ slotOf b'
      · exact .inl ⟨rfl, by simp [selectEpoch, hsel, last]⟩
      · rcases h.own with ⟨e0, e1, hgenesis, hstarted⟩ | ⟨c, hc⟩
        · rw [hdata] at hgenesis
          obtain ⟨rfl, rfl⟩ := PersistedEpochHeader.genesis.inj hgenesis
          refine .inr ⟨by simpa [selectEpoch, hsel] using hstarted,
            h.extend hbranch ?_ (.inl ⟨epoch0, epoch1, hdata, hstarted.trans hlater.le⟩)⟩
          rw [hdata]
          exact not_le.mp hsel
        · exact absurd hc.above (h.not_above_genesis hdata hc.mem)
    · exact .inl ⟨rfl, rfl⟩
  · rcases h.own with ⟨e0, e1, hgenesis, -⟩ | ⟨c, hc⟩
    · exact absurd hxd (h.not_above_genesis hgenesis hx)
    · have hselend := selectEpoch_end_le (slotOf b') (hproper x hx)
      rcases hc.next x hx hxd with heq | hxc
      · obtain rfl := hext x hx c hc.mem heq
        have hsel : (selectEpoch (slotOf b') x.2.2).2 = x.2.2.last :=
          selectEpoch_of_last_started (hc.started.trans hlater.le)
        rw [hsel] at hend ⊢
        have horder := (h.ordered x hx d h.mem hxd h.onBranch).1
        refine .inr ⟨hc.started, h.extend hbranch ?_ (.inr ⟨x, ?_⟩)⟩
        · exact lt_of_lt_of_le hend (horder.trans (hproper d h.mem).first_le_last)
        · exact { hc with started := hc.started.trans hlater.le, running := hend }
      -- an epoch above the block's own is over
      have hcb : T.ancEq c.1 b := .inr (hc.above.trans_ancEq h.onBranch)
      have horder := (h.ordered x hx c hc.mem hxc hcb).1
      have hover : x.2.2.last.endSlot ≤ slotOf b :=
        horder.trans ((hproper c hc.mem).first_le_last.trans hc.started)
      exact absurd (hend.trans_le hselend) (not_lt.mpr (hover.trans hlater.le))

theorem append {number : Nat} {epochN} (hbb' : T.anc b b')
    (hbranch : ∀ e ∈ entries, T.ancEq e.1 b' ↔ T.ancEq e.1 b) (hnew : ∀ e ∈ entries, ¬T.anc b' e.1)
    (hstarted : d.2.2.last.startSlot ≤ slotOf b') (hrunning : slotOf b' < d.2.2.last.endSlot)
    (hnext : d.2.2.last.endSlot ≤ epochN.startSlot)
    (hmem : ∀ e, e ∈ entries' ↔ e = (b', number, .regular epochN) ∨ e ∈ entries) :
    Path T slotOf entries' b' (b', number, .regular epochN) := by
  have hdb' : T.anc d.1 b' := h.onBranch.trans_anc hbb'
  have hbelow : ∀ e ∈ entries, T.anc e.1 b' → T.ancEq e.1 d.1 := fun e he heb' =>
    h.deepest e he ((hbranch e he).mp (.inr heb'))
  refine
    { ordered := fun c hc e he hce heb => ?_
      mem := (hmem _).mpr (.inl rfl)
      onBranch := .inl rfl
      deepest := fun e _ heb => heb
      ahead := hrunning.trans_le hnext
      own := .inr ⟨d, ?_⟩ }
  · rcases (hmem e).mp he with rfl | he
    · refine ⟨?_, epochN, rfl⟩
      rcases (hmem c).mp hc with rfl | hc
      · exact absurd hce (anc_irrefl _)
      refine le_trans ?_ hnext
      rcases hbelow c hc hce with heq | hanc
      · obtain rfl := hext c hc d h.mem heq
        exact le_refl _
      · have hd := hproper d h.mem
        exact (h.ordered c hc d h.mem hanc h.onBranch).1.trans
          (hd.first_le_last.trans hd.last_start_le_end)
    · rcases (hmem c).mp hc with rfl | hc
      · exact absurd hce (hnew e he)
      · exact h.ordered c hc e he hce ((hbranch e he).mp heb)
  · refine
      { mem := (hmem d).mpr (.inr h.mem)
        above := hdb'
        next := fun e he heb => ?_
        started := hstarted
        running := hrunning }
    rcases (hmem e).mp he with rfl | he
    · exact absurd heb (anc_irrefl _)
    · exact hbelow e he heb

end

end

theorem genesis {number : Nat} (hbranch : ∀ e ∈ entries, ¬T.ancEq e.1 b)
    (hstarted : epoch0.startSlot ≤ slotOf b) (hahead : slotOf b < epoch1.startSlot)
    (hmem : ∀ e, e ∈ entries' ↔ e = (b, number, .genesis epoch0 epoch1) ∨ e ∈ entries) :
    Path T slotOf entries' b (b, number, .genesis epoch0 epoch1) := by
  refine
    { ordered := fun c hc e he hce heb => ?_
      mem := (hmem _).mpr (.inl rfl)
      onBranch := .inl rfl
      deepest := fun e _ heb => heb
      ahead := hahead
      own := .inl ⟨epoch0, epoch1, rfl, hstarted⟩ }
  exfalso
  rcases (hmem e).mp he with rfl | he
  · rcases (hmem c).mp hc with rfl | hc
    · exact anc_irrefl _ hce
    · exact hbranch c hc (.inr hce)
  · exact hbranch e he heb

end Path

/-- What pruning drops lies above the entry of the block's own epoch, or on other branches. -/
inductive Keeps (T : BlockTree H) (slotOf : H → Slot)
    (entries entries' : List (H × Nat × PersistedEpochHeader Slot)) (f : H) : Prop
  | all (h : ∀ e ∈ entries, e ∈ entries')
  | below (d c : H × Nat × PersistedEpochHeader Slot) (hpath : Path T slotOf entries f d)
      (hown : Own T slotOf entries f c d) (h : ∀ e ∈ entries, T.ancEq c.1 e.1 → e ∈ entries')

end Path

section Prune

variable [DecidableEq H] {T : BlockTree H} {slotOf : H → Slot}
  {isDescendentOf : H → H → Except E Bool}

theorem prune_keeps (hd : ForkTree.Decides T isDescendentOf)
    {t : ForkTree H Nat (PersistedEpochHeader Slot)} (hwf : ForkTree.ForestWf T t.roots)
    (hproper : ∀ e ∈ t.entries, e.2.2.Proper) {f : H}
    (hpath : T.number f ≠ 0 → ∃ d, Path T slotOf t.entries f d) :
    ∃ removed t', t.prune f (T.number f) isDescendentOf (endedBy (slotOf f)) =
        (.ok removed, t') ∧ ForkTree.ForestWf T t'.roots ∧
      t.entries.Perm (t'.entries ++ entriesOf removed) ∧
      Keeps T slotOf t.entries t'.entries f := by
  have hwf' : ForkTree.ForestWf T (t.prune f (T.number f) isDescendentOf
      (endedBy (slotOf f))).2.roots := prune_wf hwf _
  rcases prune_spec hd hwf f (endedBy (slotOf f)) with
    ⟨hprune, -⟩ | ⟨x, removed, t', hprune, hx, hxf, hended, hperm, hkept⟩
  · rw [hprune] at hwf'
    refine ⟨[], t.rebalance, hprune, hwf', ?_, .all fun e he => ?_⟩
    · simpa using (entries_rebalance t).symm
    · exact (entries_rebalance t).mem_iff.mpr he
  rw [hprune] at hwf'
  refine ⟨removed, t', hprune, hwf', hperm, ?_⟩
  have hnumber : T.number f ≠ 0 := by
    have := anc_number_lt hxf
    omega
  obtain ⟨d, hpath⟩ := hpath hnumber
  rw [endedBy_eq, decide_eq_true_eq] at hended
  obtain ⟨c, hown, hxc⟩ := hpath.own_below_ended hproper
    (fun e he e' he' => hwf.entry_ext he he') (entry_mem_entriesOf hx) (.inr hxf)
    hended
  -- the child of the new root that leads to the own epoch leads to the block
  obtain ⟨y, hy, rfl⟩ := mem_entriesOf.mp hown.mem
  have hdesc := (hwf.mem_descendants_iff hx hy).mpr hxc
  obtain ⟨k, hk, hyk⟩ := mem_nodesList.mp hdesc
  have hchildren := (hwf.mem_nodes hx).1.children
  have hky := ((hchildren.wf k hk).nodes y hyk).2
  have hkf : T.ancEq k.hash f := by
    have hyf : T.anc y.hash f := hown.above.trans_ancEq hpath.onBranch
    exact .inr (hky.trans_anc hyf)
  refine .below d y.entry hpath hown fun e he hye => hkept k hk hkf e ?_
  obtain ⟨z, hz, rfl⟩ := mem_entriesOf.mp he
  have hzdesc := (hwf.mem_descendants_iff hx hz).mpr (hxc.trans_ancEq hye)
  obtain ⟨k', hk', hzk'⟩ := mem_nodesList.mp hzdesc
  have hk'z := ((hchildren.wf k' hk').nodes z hzk').2
  have hkz : T.ancEq k.hash z.hash := by
    rcases hky with heq | hanc
    · exact heq ▸ hye
    · exact .inr (hanc.trans_ancEq hye)
  obtain rfl := hchildren.root_unique hk hk' hkz hk'z
  exact entry_mem_entriesOf (mem_nodesList.mpr ⟨k, List.mem_singleton_self k, hzk'⟩)

end Prune

end Substrate.Epochs
