import Substrate.EpochPath

/-!
# Pruning epochs keeps the epochs of live blocks

Blocks are imported below their parents, each with a slot inside the epoch that
`epoch_descriptor_for_child_of` gives it; the first block of an epoch on its branch signals the next
one. `prune_finalized` is called for finalized blocks along one chain. `Inv` says that the tree and
the map hold the same epochs, and that every block at or below the last finalized one has a `Path`.
Blocks on other branches have none: pruning may drop what they need.
-/

namespace Substrate.Epochs

open BlockTree ForkTree List EpochChanges Epoch FinMap EpochHeader

variable {H Slot Ep D E : Type} [LinearOrder Slot]

open PersistedEpochHeader

/-- Epochs do not end before they start, and the next one does not start before the end. -/
class LawfulEpoch (Ep : Type) {Slot D : Type} [LinearOrder Slot] [Epoch Ep Slot D] : Prop where
  start_le_end : ∀ e : Ep, startSlot e ≤ endSlot e
  end_le_increment : ∀ (e : Ep) (d : D), endSlot e ≤ startSlot (increment e d)

/-- True for stored blocks, and for a fresh block below a stored parent. It may deny that the fresh
block descends from a stored block of the same hash. -/
structure Builds (T : BlockTree H)
    (buildIsDescendentOf : Option (H × H) → H → H → Except E Bool) : Prop where
  stored : ForkTree.Decides T (buildIsDescendentOf none)
  fresh : ∀ current parent base, ∃ b,
    buildIsDescendentOf (some (current, parent)) base current = .ok b ∧
      (b = true → T.ancEq base parent) ∧ (base ≠ current → T.ancEq base parent → b = true)

/-! ## Runs -/

structure Chain (H Slot Ep : Type) where
  changes : EpochChanges H Slot Ep
  imported : List H
  finalized : H

section Runs

variable [DecidableEq H] [Epoch Ep Slot D]

/-- The first block of an epoch on its branch imports the increment of that epoch. -/
def importBlockEpoch (T : BlockTree H) (slotOf : H → Slot)
    (buildIsDescendentOf : Option (H × H) → H → H → Except E Bool)
    (changes : EpochChanges H Slot Ep) (hash parent : H)
    (descriptor : ViableEpochDescriptor H Slot) (epoch : ViableEpoch Ep) (next : D) :
    Outcome (ForkTree.Error E) Unit × EpochChanges H Slot Ep :=
  if T.number parent = 0 ∨ slotOf parent < descriptor.startSlot then
    changes.importEpoch buildIsDescendentOf hash (T.number hash) parent (epoch.increment next)
  else (.ok (), changes)

variable (T : BlockTree H) (slotOf : H → Slot) (fakeHeadHash : H → H)
  (buildIsDescendentOf : Option (H × H) → H → H → Except E Bool) (makeGenesis : Slot → Ep) in
/-- Blocks are imported in order, each with a slot inside its epoch, and finalized blocks of one
chain are pruned at. -/
inductive EpochRun : Chain H Slot Ep → Prop
  | genesis (g : H) (hg : T.number g = 0) : EpochRun ⟨new, [g], g⟩
  | importBlock {w} (h : EpochRun w) (hash parent : H) (hparent : T.parent hash = some parent)
      (hin : parent ∈ w.imported) (hnew : hash ∉ w.imported)
      (descriptor : ViableEpochDescriptor H Slot) (epoch : ViableEpoch Ep) (next : D)
      (hdescriptor : w.changes.epochDescriptorForChildOf fakeHeadHash buildIsDescendentOf parent
        (T.number parent) (slotOf hash) = .ok (some descriptor))
      (hepoch : w.changes.viableEpoch descriptor makeGenesis = some epoch)
      (hstart : startSlot epoch.inner ≤ slotOf hash)
      (hend : slotOf hash < endSlot epoch.inner) (changes : EpochChanges H Slot Ep)
      (himport : importBlockEpoch T slotOf buildIsDescendentOf w.changes hash parent descriptor
        epoch next = (.ok (), changes)) :
      EpochRun ⟨changes, hash :: w.imported, w.finalized⟩
  | pruneFinalized {w} (h : EpochRun w)
      (hash : H) (hin : hash ∈ w.imported) (hfinalized : T.ancEq w.finalized hash) : EpochRun
        ⟨(w.changes.pruneFinalized buildIsDescendentOf hash (T.number hash) (slotOf hash)).2,
          w.imported, hash⟩

end Runs

/-! ## Lookups -/

variable {c : EpochChanges H Slot Ep} {descriptor : ViableEpochDescriptor H Slot}
  {makeGenesis : Slot → Ep}

section Lookup

variable {T : BlockTree H} {fakeHeadHash : H → H}
  {buildIsDescendentOf : Option (H × H) → H → H → Except E Bool}

theorem Builds.search_child (hb : Builds T buildIsDescendentOf) (current parent : H) :
    ForkTree.Search T (fun a => buildIsDescendentOf (some (current, parent)) a current)
      (T.number parent + 1) (fun a => T.ancEq a parent) where
  closed hxy hy := .inr (hxy.trans_ancEq hy)
  branch hx hy hun := hun.not_ancEq hx hy
  number_le hx := by
    rcases hx with rfl | hanc
    · exact Nat.le_succ _
    · exact (anc_number_lt hanc).le.trans (Nat.le_succ _)
  answers x := by
    obtain ⟨b, hok, hsound, -⟩ := hb.fresh current parent x
    exact ⟨b, hok, hsound⟩

variable {parent : H}

theorem Builds.decidesFor (hb : Builds T buildIsDescendentOf) {hash : H}
    (hparent : T.parent hash = some parent) :
    ForkTree.DecidesFor T (buildIsDescendentOf (some (hash, parent))) hash := by
  intro a ha
  obtain ⟨b, hok, hsound, hcomplete⟩ := hb.fresh hash parent a
  have hiff : T.anc a hash ↔ T.ancEq a parent := by
    rw [anc_iff_parent]
    constructor
    · rintro ⟨p, hp, h⟩
      obtain rfl := Option.some.inj (hp.symm.trans hparent)
      exact h.imp Eq.symm id
    · exact fun h => ⟨parent, hparent, h.imp Eq.symm id⟩
  exact ⟨b, hok, fun h => hiff.mpr (hsound h), fun h => hcomplete ha (hiff.mp h)⟩

def descriptorOf (slot : Slot) (e : H × Nat × PersistedEpochHeader Slot) :
    ViableEpochDescriptor H Slot :=
  .signaled ⟨(selectEpoch slot e.2.2).1, e.1, e.2.1⟩ (selectEpoch slot e.2.2).2

theorem epochDescriptorForChildOf_eq (c : EpochChanges H Slot Ep) {number : Nat}
    (hnumber : number ≠ 0) (slot : Slot) :
    c.epochDescriptorForChildOf fakeHeadHash buildIsDescendentOf parent number slot =
      ((c.inner.findNodeWhere (fakeHeadHash parent) (number + 1)
        (buildIsDescendentOf (some (fakeHeadHash parent, parent)))
        (startedBy slot)).map (Option.map ForkTree.Node.entry)).map
          (Option.map (descriptorOf slot)) := by
  unfold epochDescriptorForChildOf
  rw [if_neg hnumber]
  rcases c.inner.findNodeWhere (fakeHeadHash parent) (number + 1)
    (buildIsDescendentOf (some (fakeHeadHash parent, parent)))
    (startedBy slot) with (_ | node) | _ | _ <;> rfl

theorem exists_entry_of_descriptor (hb : Builds T buildIsDescendentOf)
    (hwf : ForkTree.ForestWf T c.inner.roots) (hnumber : T.number parent ≠ 0) {slot : Slot}
    (h : c.epochDescriptorForChildOf fakeHeadHash buildIsDescendentOf parent (T.number parent)
      slot = .ok (some descriptor)) :
    ∃ e ∈ c.inner.entries, T.ancEq e.1 parent ∧ descriptor = descriptorOf slot e := by
  rw [epochDescriptorForChildOf_eq c hnumber] at h
  rcases find_spec (hb.search_child (fakeHeadHash parent) parent) (startedBy slot) hwf with
    ⟨-, -, -, x, -, hfind, -, -, hdeep⟩ | ⟨-, hfind, -⟩
  · rw [hfind] at h
    refine ⟨x.entry, entry_mem_entriesOf hdeep.mem, hdeep.good.above, ?_⟩
    simpa [Outcome.map] using h.symm
  · rw [hfind] at h
    simp [Outcome.map] at h

variable [Epoch Ep Slot D]

def Stored (c : EpochChanges H Slot Ep) (e : H × Nat × PersistedEpochHeader Slot) : Prop :=
  ∃ p, c.epochs.get? (e.1, e.2.1) = some p ∧ e.2.2 = .ofPersisted p

theorem viableEpoch_of_stored {e} (hstored : Stored c e) {slot : Slot} {epoch}
    (h : c.viableEpoch (descriptorOf slot e) makeGenesis = some epoch) :
    ∃ ep : Ep, epoch = .signaled ep ∧ (EpochChanges.selectEpoch slot e.2.2).2 = ofEpoch ep := by
  obtain ⟨p, hp, hdata⟩ := hstored
  simp only [EpochChanges.viableEpoch, descriptorOf, EpochChanges.epoch, hp,
    Option.bind_some, Option.map_eq_some_iff] at h
  obtain ⟨ep, hep, rfl⟩ := h
  refine ⟨ep, rfl, ?_⟩
  rw [hdata] at hep ⊢
  cases p with
  | genesis epoch0 epoch1 =>
    simp only [ofPersisted, EpochChanges.selectEpoch] at hep ⊢
    split <;> rename_i hsel
    · simp only [hsel, if_true, Option.some.injEq] at hep
      rw [hep]
    · simp only [hsel, if_false, Option.some.injEq] at hep
      rw [hep]
  | regular epochN =>
    simp only [ofPersisted, EpochChanges.selectEpoch, Option.some.injEq] at hep ⊢
    rw [hep]

end Lookup

/-! ## The invariant -/

section Invariant

variable [Epoch Ep Slot D] {T : BlockTree H} {slotOf : H → Slot} {w : Chain H Slot Ep}

/-- The tree and the map hold the same epochs, and every live block has a path. -/
structure Inv (T : BlockTree H) (slotOf : H → Slot) (w : Chain H Slot Ep) : Prop where
  wf : ForkTree.ForestWf T w.changes.inner.roots
  known : ∀ e ∈ w.changes.inner.entries, e.1 ∈ w.imported ∧ T.number e.1 ≠ 0
  proper : ∀ e ∈ w.changes.inner.entries, e.2.2.Proper
  stored : ∀ e ∈ w.changes.inner.entries, Stored w.changes e
  keys : ∀ k, (w.changes.epochs.get? k).isSome → ∃ e ∈ w.changes.inner.entries, (e.1, e.2.1) = k
  closed : ∀ b ∈ w.imported, ∀ a, T.anc a b → a ∈ w.imported
  finalized_in : w.finalized ∈ w.imported
  live : ∀ b ∈ w.imported, T.ancEq w.finalized b → T.number b ≠ 0 →
    ∃ d, Path T slotOf w.changes.inner.entries b d

def SlotsIncrease (T : BlockTree H) (slotOf : H → Slot) : Prop :=
  ∀ b p, T.parent b = some p → T.number p ≠ 0 → slotOf p < slotOf b

theorem SlotsIncrease.lt_of_anc (hslots : SlotsIncrease T slotOf) {a b : H} (h : T.anc a b)
    (ha : T.number a ≠ 0) : slotOf a < slotOf b := by
  induction h with
  | single hp => exact hslots _ _ hp ha
  | tail ham hp ih =>
    have hlt := anc_number_lt ham
    exact ih.trans (hslots _ _ hp (by omega))

theorem SlotsIncrease.le_of_ancEq (hslots : SlotsIncrease T slotOf) {a b : H}
    (h : T.ancEq a b) (ha : T.number a ≠ 0) : slotOf a ≤ slotOf b := by
  rcases h with rfl | hanc
  · exact le_refl _
  · exact (hslots.lt_of_anc hanc ha).le

theorem Inv.entry_ext (h : Inv T slotOf w) :
    ∀ e ∈ w.changes.inner.entries, ∀ e' ∈ w.changes.inner.entries, e.1 = e'.1 → e = e' :=
  fun _ he _ he' => h.wf.entry_ext he he'

theorem Inv.genesis {g : H} (hg : T.number g = 0) :
    Inv T slotOf (⟨new, [g], g⟩ : Chain H Slot Ep) := by
  refine
    { wf := ForkTree.ForestWf.nil
      known := fun e he => by cases he
      proper := fun e he => by cases he
      stored := fun e he => by cases he
      keys := fun k hk => by cases hk
      closed := fun b hb a hab => ?_
      finalized_in := mem_singleton_self g
      live := fun b hb _ hnumber => ?_ }
  · obtain rfl := mem_singleton.mp hb
    have := anc_number_lt hab
    omega
  · obtain rfl := mem_singleton.mp hb
    exact absurd hg hnumber

/-! ## Importing a block -/

section Import

variable {hash parent : H}

section

variable (h : Inv T slotOf w) (hnew : hash ∉ w.imported)
include h hnew

theorem Inv.not_anc_entry : ∀ e ∈ w.changes.inner.entries, ¬T.ancEq hash e.1 := by
  intro e he hanc
  obtain ⟨hin, -⟩ := h.known e he
  rcases hanc with rfl | hanc
  · exact hnew hin
  · exact hnew (h.closed e.1 hin hash hanc)

theorem Inv.branch_child (hparent : T.parent hash = some parent) :
    ∀ e ∈ w.changes.inner.entries, T.ancEq e.1 hash ↔ T.ancEq e.1 parent := by
  intro e he
  have hne : e.1 ≠ hash := fun heq => h.not_anc_entry hnew e he (.inl heq.symm)
  constructor
  · rintro (heq | hanc)
    · exact absurd heq hne
    · obtain ⟨p, hp, hep⟩ := anc_iff_parent.mp hanc
      obtain rfl := Option.some.inj (hp.symm.trans hparent)
      exact hep.imp Eq.symm id
  · exact fun hep => .inr (hep.trans_anc (anc_of_parent hparent))

theorem Inv.live_parent (hparent : T.parent hash = some parent) (hlive : T.ancEq w.finalized hash) :
    T.ancEq w.finalized parent := by
  rcases hlive with heq | hanc
  · exact absurd (heq ▸ h.finalized_in) hnew
  · obtain ⟨p, hp, hfp⟩ := anc_iff_parent.mp hanc
    obtain rfl := Option.some.inj (hp.symm.trans hparent)
    exact hfp.imp Eq.symm id

end

section

variable (h : Inv T slotOf w) (hin : parent ∈ w.imported) (hparent : T.parent hash = some parent)
include h hin hparent

theorem Inv.closed_cons : ∀ b ∈ hash :: w.imported, ∀ a, T.anc a b → a ∈ hash :: w.imported := by
  intro b hb a hab
  refine mem_cons_of_mem _ ?_
  rcases mem_cons.mp hb with rfl | hb
  · obtain ⟨p, hp, hap⟩ := anc_iff_parent.mp hab
    obtain rfl := Option.some.inj (hp.symm.trans hparent)
    rcases hap with rfl | hap
    · exact hin
    · exact h.closed _ hin a hap
  · exact h.closed b hb a hab

theorem Inv.addBlock
    (hpath : T.ancEq w.finalized hash → ∃ d, Path T slotOf w.changes.inner.entries hash d) :
    Inv T slotOf ⟨w.changes, hash :: w.imported, w.finalized⟩ where
  wf := h.wf
  known e he := ⟨mem_cons_of_mem _ (h.known e he).1, (h.known e he).2⟩
  proper := h.proper
  stored := h.stored
  keys := h.keys
  closed := h.closed_cons hin hparent
  finalized_in := mem_cons_of_mem _ h.finalized_in
  live b hb hlive hnumber := by
    rcases mem_cons.mp hb with rfl | hb
    · exact hpath hlive
    · exact h.live b hb hlive hnumber

end

variable [DecidableEq H] {p : PersistedEpoch Ep}

theorem Inv.addEntry (h : Inv T slotOf w) (hin : parent ∈ w.imported) (hnew : hash ∉ w.imported)
    (hparent : T.parent hash = some parent) (hwf : ForkTree.ForestWf T c.inner.roots)
    (hmem : ∀ e, e ∈ c.inner.entries ↔
      e = (hash, T.number hash, .ofPersisted p) ∨ e ∈ w.changes.inner.entries)
    (hepochs : c.epochs = w.changes.epochs.insert (hash, T.number hash) p)
    (hproper : (ofPersisted p : PersistedEpochHeader Slot).Proper)
    (hpath : T.ancEq w.finalized hash → ∃ d, Path T slotOf c.inner.entries hash d) :
    Inv T slotOf ⟨c, hash :: w.imported, w.finalized⟩ := by
  have hother : ∀ e ∈ w.changes.inner.entries, (e.1, e.2.1) ≠ (hash, T.number hash) :=
    fun e he heq => h.not_anc_entry hnew e he (.inl (congrArg Prod.fst heq).symm)
  refine
    { wf := hwf
      known := fun e he => ?_
      proper := fun e he => ?_
      stored := fun e he => ?_
      keys := fun k hk => ?_
      closed := h.closed_cons hin hparent
      finalized_in := mem_cons_of_mem _ h.finalized_in
      live := fun b hb hlive hnumber => ?_ }
  · rcases (hmem e).mp he with rfl | he
    · refine ⟨mem_cons_self .., ?_⟩
      have := T.number_parent hparent
      simp only [ne_eq]
      omega
    · exact ⟨mem_cons_of_mem _ (h.known e he).1, (h.known e he).2⟩
  · rcases (hmem e).mp he with rfl | he
    · exact hproper
    · exact h.proper e he
  · rcases (hmem e).mp he with rfl | he
    · exact ⟨p, by rw [hepochs, get?_insert, Function.update_self], rfl⟩
    · obtain ⟨q, hq, hdata⟩ := h.stored e he
      exact ⟨q, by rw [hepochs, get?_insert, Function.update_of_ne (hother e he), hq], hdata⟩
  · by_cases hk' : k = (hash, T.number hash)
    · exact ⟨_, (hmem _).mpr (.inl rfl), hk'.symm⟩
    · simp only [hepochs, get?_insert, Function.update_of_ne hk'] at hk
      obtain ⟨e, he, hek⟩ := h.keys k hk
      exact ⟨e, (hmem e).mpr (.inr he), hek⟩
  · rcases mem_cons.mp hb with rfl | hb
    · exact hpath hlive
    · obtain ⟨d, hd⟩ := h.live b hb hlive hnumber
      -- the new entry is not on the branch of an old block
      refine ⟨d, hd.congr fun e heb => ⟨fun he => ((hmem e).mp he).resolve_left ?_,
        fun he => (hmem e).mpr (.inr he)⟩⟩
      rintro rfl
      rcases heb with heq | hanc
      · exact hnew ((show hash = b from heq) ▸ hb)
      · exact hnew (h.closed b hb hash hanc)

variable {buildIsDescendentOf : Option (H × H) → H → H → Except E Bool}

theorem importEpoch_ok (hb : Builds T buildIsDescendentOf) (h : Inv T slotOf w)
    (hnew : hash ∉ w.imported) (hparent : T.parent hash = some parent)
    (himport : w.changes.importEpoch buildIsDescendentOf hash (T.number hash) parent p =
      (.ok (), c)) :
    ForkTree.ForestWf T c.inner.roots ∧ (∀ e, e ∈ c.inner.entries ↔
        e = (hash, T.number hash, .ofPersisted p) ∨ e ∈ w.changes.inner.entries) ∧
      c.epochs = w.changes.epochs.insert (hash, T.number hash) p := by
  have hd := hb.decidesFor hparent
  have hnodesc : ∀ x ∈ w.changes.inner.nodes, ¬T.anc hash x.hash := fun x hx hanc =>
    h.not_anc_entry hnew x.entry (entry_mem_entriesOf hx) (.inr hanc)
  have hfresh : ¬ForkTree.HashIn hash w.changes.inner.roots := fun ⟨x, hx, hxe⟩ =>
    h.not_anc_entry hnew x.entry (entry_mem_entriesOf hx) (.inl hxe.symm)
  have hwf := ForkTree.importBlock_wf_for hd h.wf
    (ofPersisted p : PersistedEpochHeader Slot) hnodesc
  unfold importEpoch at himport
  rcases w.changes.inner.importBlock_entries hash (T.number hash)
    (ofPersisted p : PersistedEpochHeader Slot) (buildIsDescendentOf (some (hash, parent))) with
    ⟨b, hok, hperm, -⟩ | ⟨e, he⟩
  · rcases hres : w.changes.inner.importBlock hash (T.number hash)
      (ofPersisted p : PersistedEpochHeader Slot)
      (buildIsDescendentOf (some (hash, parent))) with ⟨r, t⟩
    rw [hres] at hok hperm hwf himport
    obtain rfl := hok
    obtain rfl : (⟨t, w.changes.epochs.insert (hash, T.number hash) p⟩ : EpochChanges H Slot Ep)
      = c := congrArg Prod.snd himport
    exact ⟨hwf, fun e => hperm.mem_iff.trans mem_cons, rfl⟩
  rw [he] at himport
  cases hrev : w.changes.inner.isReverted (T.number hash) with
  | false =>
    obtain ⟨b, hok⟩ := ForkTree.importBlock_fresh hd
      (ofPersisted p : PersistedEpochHeader Slot) hfresh hrev
    rw [he] at hok
    cases hok
  | true =>
    unfold ForkTree.importBlock at he
    rw [if_pos hrev] at he
    obtain rfl := by simpa using congrArg Prod.fst he
    cases congrArg Prod.fst himport

section ImportStep

variable [LawfulEpoch Ep] {fakeHeadHash : H → H} {makeGenesis : Slot → Ep}
  {descriptor : ViableEpochDescriptor H Slot} {epoch : ViableEpoch Ep} {next : D}
  {changes : EpochChanges H Slot Ep}

theorem proper_increment (epoch : ViableEpoch Ep) (next : D) :
    (ofPersisted (epoch.increment next) : PersistedEpochHeader Slot).Proper := by
  cases epoch with
  | unimportedGenesis ep =>
    exact ⟨LawfulEpoch.start_le_end ep, LawfulEpoch.end_le_increment ep next,
      LawfulEpoch.start_le_end _⟩
  | signaled ep => exact LawfulEpoch.start_le_end (increment ep next)

variable (hb : Builds T buildIsDescendentOf) (h : Inv T slotOf w)
  (hparent : T.parent hash = some parent) (hin : parent ∈ w.imported) (hnew : hash ∉ w.imported)
  (hdescriptor : w.changes.epochDescriptorForChildOf fakeHeadHash buildIsDescendentOf parent
    (T.number parent) (slotOf hash) = .ok (some descriptor))
  (hepoch : w.changes.viableEpoch descriptor makeGenesis = some epoch)
  (hstart : startSlot epoch.inner ≤ slotOf hash)
  (hend : slotOf hash < endSlot epoch.inner)
  (himport : importBlockEpoch T slotOf buildIsDescendentOf w.changes hash parent descriptor
    epoch next = (.ok (), changes))
include hb h hparent hin hnew hdescriptor hepoch hstart hend himport

theorem Inv.importFirst (hnumber : T.number parent = 0) :
    Inv T slotOf ⟨changes, hash :: w.imported, w.finalized⟩ := by
  unfold epochDescriptorForChildOf at hdescriptor
  rw [if_pos hnumber] at hdescriptor
  obtain rfl := by simpa using hdescriptor
  obtain rfl := by
    simpa [viableEpoch] using hepoch
  unfold importBlockEpoch at himport
  rw [if_pos (.inl hnumber)] at himport
  obtain ⟨hwf, hmem, hepochs⟩ := importEpoch_ok hb h hnew hparent himport
  refine h.addEntry hin hnew hparent hwf hmem hepochs (proper_increment _ next) fun _ => ?_
  refine ⟨_, Path.genesis (fun e he heb => ?_) hstart ?_ hmem⟩
  · have hep := (h.branch_child hnew hparent e he).mp heb
    have hpos := (h.known e he).2
    rcases hep with heq | hanc
    · exact hpos (heq ▸ hnumber)
    · have := anc_number_lt hanc
      omega
  · exact hend.trans_le (LawfulEpoch.end_le_increment _ next)

theorem Inv.importLater (hslots : SlotsIncrease T slotOf) (hnumber : T.number parent ≠ 0) :
    Inv T slotOf ⟨changes, hash :: w.imported, w.finalized⟩ := by
  obtain ⟨x, hx, hxp, rfl⟩ := exists_entry_of_descriptor hb h.wf hnumber hdescriptor
  obtain ⟨ep, rfl, hsel⟩ := viableEpoch_of_stored (h.stored x hx) hepoch
  have hbranch := h.branch_child hnew hparent
  -- what the path of the parent says about the epoch found
  have hchild : ∀ d, Path T slotOf w.changes.inner.entries parent d →
      (x = d ∧ (ofEpoch ep : EpochHeader Slot) = d.2.2.last) ∨
      (startSlot ep ≤ slotOf parent ∧ Path T slotOf w.changes.inner.entries hash d) := by
    intro d hd
    have hrunning : slotOf hash < (selectEpoch (slotOf hash) x.2.2).2.endSlot := by
      rw [hsel]
      exact hend
    have := hd.child h.proper h.entry_ext hbranch (hslots hash parent hparent hnumber) hx hxp
      hrunning
    rwa [hsel] at this
  have hstartSlot : (descriptorOf (slotOf hash) x).startSlot = startSlot ep :=
    congrArg startSlot hsel
  unfold importBlockEpoch at himport
  rw [hstartSlot] at himport
  split at himport
  · rename_i hfirst
    replace hfirst := hfirst.resolve_left hnumber
    obtain ⟨hwf, hmem, hepochs⟩ := importEpoch_ok hb h hnew hparent himport
    refine h.addEntry hin hnew hparent hwf hmem hepochs (proper_increment _ next) fun hlive => ?_
    obtain ⟨d, hd⟩ := h.live parent hin (h.live_parent hnew hparent hlive) hnumber
    rcases hchild d hd with ⟨-, hlast⟩ | ⟨hle, -⟩
    · refine ⟨_, hd.append h.proper h.entry_ext (anc_of_parent hparent) hbranch
        (fun e he hanc => h.not_anc_entry hnew e he (.inr hanc)) ?_ ?_ ?_ hmem⟩
      · rw [← hlast]
        exact hstart
      · rw [← hlast]
        exact hend
      · rw [← hlast]
        exact LawfulEpoch.end_le_increment ep next
    · exact absurd hfirst (not_lt.mpr hle)
  · rename_i hfirst
    obtain rfl := congrArg Prod.snd himport
    refine h.addBlock hin hparent fun hlive => ?_
    obtain ⟨d, hd⟩ := h.live parent hin (h.live_parent hnew hparent hlive) hnumber
    rcases hchild d hd with ⟨-, hlast⟩ | ⟨-, hpath⟩
    · -- the deepest epoch has not started at the parent
      refine absurd (.inr ?_) hfirst
      have hahead := hd.ahead
      rw [← hlast] at hahead
      exact hahead
    · exact ⟨d, hpath⟩

end ImportStep

end Import

/-! ## Pruning -/

section Pruning

variable [DecidableEq H] {buildIsDescendentOf : Option (H × H) → H → H → Except E Bool} {f : H}
  {c' : EpochChanges H Slot Ep}

structure Pruned (T : BlockTree H) (slotOf : H → Slot) (c : EpochChanges H Slot Ep) (f : H)
    (c' : EpochChanges H Slot Ep) : Prop where
  wf : ForkTree.ForestWf T c'.inner.roots
  sub : ∀ e ∈ c'.inner.entries, e ∈ c.inner.entries
  keeps : Keeps T slotOf c.inner.entries c'.inner.entries f
  data : ∀ e ∈ c'.inner.entries, c'.epochs.get? (e.1, e.2.1) = c.epochs.get? (e.1, e.2.1)
  keys : ∀ k, (c'.epochs.get? k).isSome → (c.epochs.get? k).isSome ∧
    ∀ e ∈ c.inner.entries, (e.1, e.2.1) = k → e ∈ c'.inner.entries

theorem Inv.pruned (hb : Builds T buildIsDescendentOf) (h : Inv T slotOf w)
    (hin : f ∈ w.imported) (hf : T.ancEq w.finalized f) :
    ∃ c', w.changes.pruneFinalized buildIsDescendentOf f (T.number f) (slotOf f) = (.ok (), c') ∧
      Pruned T slotOf w.changes f c' := by
  obtain ⟨removed, t', hprune, hwf, hperm, hkeeps⟩ :=
    prune_keeps hb.stored h.wf h.proper (h.live f hin hf)
  unfold pruneFinalized
  rw [hprune]
  refine ⟨_, rfl, ?_⟩
  -- no hash is both kept and removed
  have hnodup : ((t'.entries ++ entriesOf removed).map Prod.fst).Nodup := by
    refine (hperm.map Prod.fst).nodup_iff.mp ?_
    have := h.wf.hashes_nodup
    rwa [entries, entriesOf, map_map]
  rw [map_append] at hnodup
  have hdisjoint := disjoint_of_nodup_append hnodup
  refine
    { wf := hwf
      sub := fun e he => hperm.mem_iff.mpr (mem_append_left _ he)
      keeps := hkeeps
      data := fun e he => ?_
      keys := fun k hk => ?_ }
  · rw [get?_foldl_erase, if_neg]
    intro hmem
    obtain ⟨r, hr, hre⟩ := mem_map.mp hmem
    refine hdisjoint (mem_map_of_mem he) ?_
    rw [← congrArg Prod.fst hre]
    exact mem_map_of_mem hr
  · rw [get?_foldl_erase] at hk
    split at hk
    · cases hk
    rename_i hnot
    refine ⟨hk, fun e he hek => ?_⟩
    rcases mem_append.mp (hperm.mem_iff.mp he) with he' | hr
    · exact he'
    · exact absurd (mem_map.mpr ⟨e, hr, hek⟩) hnot

omit [DecidableEq H] in
theorem Inv.pruneFinalized (hslots : SlotsIncrease T slotOf) (h : Inv T slotOf w)
    (hin : f ∈ w.imported) (hf : T.ancEq w.finalized f) (hpruned : Pruned T slotOf w.changes f c') :
    Inv T slotOf ⟨c', w.imported, f⟩ where
  wf := hpruned.wf
  known e he := h.known e (hpruned.sub e he)
  proper e he := h.proper e (hpruned.sub e he)
  stored e he := by
    obtain ⟨p, hp, hdata⟩ := h.stored e (hpruned.sub e he)
    exact ⟨p, (hpruned.data e he).trans hp, hdata⟩
  keys k hk := by
    obtain ⟨hold, hkept⟩ := hpruned.keys k hk
    obtain ⟨e, he, hek⟩ := h.keys k hold
    exact ⟨e, hkept e he hek, hek⟩
  closed := h.closed
  finalized_in := hin
  live b hbin hfb hnumber := by
    have hlive : T.ancEq w.finalized b := by
      rcases hf with heq | hanc
      · exact heq ▸ hfb
      · exact .inr (hanc.trans_ancEq hfb)
    obtain ⟨d, hd⟩ := h.live b hbin hlive hnumber
    rcases hpruned.keeps with hall | ⟨df, c, hpath, hown, hkept⟩
    · exact ⟨d, hd.congr fun e _ => ⟨hpruned.sub e, hall e⟩⟩
    have hf0 : T.number f ≠ 0 := by
      have := anc_number_lt (hown.above.trans_ancEq hpath.onBranch)
      omega
    exact ⟨d, hd.pruned hpath hown hfb (hslots.le_of_ancEq hfb hf0) h.proper hpruned.sub hkept⟩

theorem EpochRun.inv [LawfulEpoch Ep] {fakeHeadHash : H → H} (hb : Builds T buildIsDescendentOf)
    (hslots : SlotsIncrease T slotOf)
    (hrun : EpochRun T slotOf fakeHeadHash buildIsDescendentOf makeGenesis w) : Inv T slotOf w := by
  induction hrun with
  | genesis g hg => exact Inv.genesis hg
  | importBlock _ hash parent hparent hin hnew descriptor epoch next hdescriptor hepoch hstart
      hend changes himport ih =>
      by_cases hnumber : T.number parent = 0
      · exact ih.importFirst hb hparent hin hnew hdescriptor hepoch hstart hend himport hnumber
      · exact ih.importLater hb hparent hin hnew hdescriptor hepoch hstart hend himport hslots
          hnumber
  | pruneFinalized _ hash hin hf ih =>
    obtain ⟨c', hprune, hpruned⟩ := ih.pruned hb hin hf
    rw [hprune]
    exact ih.pruneFinalized hslots hin hf hpruned

/-! ## Lookups after pruning -/

variable {fakeHeadHash : H → H} {P : H} {slot : Slot}

theorem Inv.own_good (hb : Builds T buildIsDescendentOf) (hslots : SlotsIncrease T slotOf)
    (h : Inv T slotOf w) {c d} (hpath : Path T slotOf w.changes.inner.entries f d)
    (hown : Own T slotOf w.changes.inner.entries f c d) (hfP : T.ancEq f P)
    (hslot : slotOf P ≤ slot) (current : H) :
    ForkTree.Good T (fun a => buildIsDescendentOf (some (current, P)) a current)
      (fun a => T.ancEq a P) (startedBy slot) w.changes.inner.entries c := by
  have hcf : T.anc c.1 f := hown.above.trans_ancEq hpath.onBranch
  have hf0 : T.number f ≠ 0 := by
    have := anc_number_lt hcf
    omega
  have hcP : T.ancEq c.1 P := .inr (hcf.trans_ancEq hfP)
  have hdP : T.ancEq d.1 P := by
    rcases hpath.onBranch with heq | hanc
    · exact heq ▸ hfP
    · exact .inr (hanc.trans_ancEq hfP)
  have hconfirms : ∀ a, a ≠ current → T.ancEq a P →
      buildIsDescendentOf (some (current, P)) a current = .ok true := by
    intro a hne haP
    obtain ⟨b, hok, -, hcomplete⟩ := hb.fresh current P a
    rw [hok, hcomplete hne haP]
  refine ⟨hcP, ?_, ?_⟩
  · rw [startedBy_eq, decide_eq_true_eq]
    exact (h.proper c hown.mem).first_le_last.trans
      (hown.started.trans ((hslots.le_of_ancEq hfP hf0).trans hslot))
  · -- the made-up hash cannot be that of both entries
    by_cases hcur : c.1 = current
    · refine .inr ⟨d, hpath.mem, hown.above, hconfirms d.1 (fun heq => ?_) hdP⟩
      exact anc_ne hown.above (hcur.trans heq.symm)
    · exact .inl (hconfirms c.1 hcur hcP)

theorem Inv.descriptor_pruned (fakeHeadHash : H → H) (hb : Builds T buildIsDescendentOf)
    (hslots : SlotsIncrease T slotOf) (h : Inv T slotOf w)
    (hpruned : Pruned T slotOf w.changes f c') (hfP : T.ancEq f P) (hslot : slotOf P ≤ slot) :
    c'.epochDescriptorForChildOf fakeHeadHash buildIsDescendentOf P (T.number P) slot =
      w.changes.epochDescriptorForChildOf fakeHeadHash buildIsDescendentOf P (T.number P) slot := by
  by_cases hnumber : T.number P = 0
  · unfold epochDescriptorForChildOf
    rw [if_pos hnumber, if_pos hnumber]
  rw [epochDescriptorForChildOf_eq c' hnumber, epochDescriptorForChildOf_eq w.changes hnumber]
  refine congrArg _ (findNodeWhere_congr (hb.search_child (fakeHeadHash P) P) h.wf
    hpruned.wf hpruned.sub fun e he heP => ?_)
  rcases hpruned.keeps with hall | ⟨d, c, hpath, hown, hkept⟩
  · exact .inl (hall e he)
  by_cases hce : T.ancEq c.1 e.1
  · exact .inl (hkept e he hce)
  refine .inr ⟨c, hown.mem, h.own_good hb hslots hpath hown hfP hslot _, ?_⟩
  have hcP : T.ancEq c.1 P :=
    .inr ((hown.above.trans_ancEq hpath.onBranch).trans_ancEq hfP)
  by_contra hnot
  exact BlockTree.Unrelated.not_ancEq
    ⟨fun heq => hce (.inl heq.symm), hnot, fun hanc => hce (.inr hanc)⟩ heP hcP

omit [DecidableEq H] in
theorem Inv.epochData_pruned (hb : Builds T buildIsDescendentOf)
    (hpruned : Pruned T slotOf w.changes f c')
    (hdescriptor : c'.epochDescriptorForChildOf fakeHeadHash buildIsDescendentOf P (T.number P)
      slot = .ok (some descriptor)) (makeGenesis : Slot → Ep) :
    c'.epochData descriptor makeGenesis = w.changes.epochData descriptor makeGenesis := by
  by_cases hnumber : T.number P = 0
  · unfold epochDescriptorForChildOf at hdescriptor
    rw [if_pos hnumber] at hdescriptor
    obtain rfl := by simpa using hdescriptor
    rfl
  · obtain ⟨e, he, -, rfl⟩ := exists_entry_of_descriptor hb hpruned.wf hnumber hdescriptor
    simp [descriptorOf, epochData, epoch, hpruned.data e he]

/-- **Pruning keeps the epochs of live blocks.** In every reachable state the map has the keys
of the tree, and pruning at a block on the finalized chain changes neither the descriptor nor
the epoch data found for a child of that block or of a block below it. -/
theorem pruneFinalized_keeps_epochs [LawfulEpoch Ep] {makeGenesis : Slot → Ep}
    (hb : Builds T buildIsDescendentOf) (hslots : SlotsIncrease T slotOf)
    (hrun : EpochRun T slotOf fakeHeadHash buildIsDescendentOf makeGenesis w) :
    (∀ h n, (w.changes.epochs.get? (h, n)).isSome ↔
      ∃ x ∈ w.changes.inner.nodes, x.hash = h ∧ x.number = n) ∧
    ∀ f ∈ w.imported, T.ancEq w.finalized f → ∃ c',
      w.changes.pruneFinalized buildIsDescendentOf f (T.number f) (slotOf f) = (.ok (), c') ∧
      ∀ P ∈ w.imported, T.ancEq f P → ∀ slot, slotOf P ≤ slot →
        c'.epochDescriptorForChildOf fakeHeadHash buildIsDescendentOf P (T.number P) slot =
          w.changes.epochDescriptorForChildOf fakeHeadHash buildIsDescendentOf P (T.number P) slot ∧
        ∀ descriptor, w.changes.epochDescriptorForChildOf fakeHeadHash buildIsDescendentOf P
            (T.number P) slot = .ok (some descriptor) →
          c'.epochData descriptor makeGenesis = w.changes.epochData descriptor makeGenesis := by
  have h := hrun.inv hb hslots
  refine ⟨fun hash n => ⟨fun hk => ?_, ?_⟩, fun f hin hf => ?_⟩
  · obtain ⟨e, he, hek⟩ := h.keys (hash, n) hk
    obtain ⟨x, hx, rfl⟩ := mem_entriesOf.mp he
    exact ⟨x, hx, congrArg Prod.fst hek, congrArg Prod.snd hek⟩
  · rintro ⟨x, hx, rfl, rfl⟩
    obtain ⟨p, hp, -⟩ := h.stored x.entry (entry_mem_entriesOf hx)
    exact Option.isSome_iff_exists.mpr ⟨p, hp⟩
  · obtain ⟨c', hprune, hpruned⟩ := h.pruned hb hin hf
    refine ⟨c', hprune, fun P _ hfP slot hslot => ?_⟩
    have heq := h.descriptor_pruned fakeHeadHash hb hslots hpruned hfP hslot
    refine ⟨heq, fun descriptor hdescriptor => ?_⟩
    exact Inv.epochData_pruned hb hpruned (heq.trans hdescriptor) makeGenesis

end Pruning

end Invariant

section Chain

/-- An epoch of two slots. -/
structure PairEpoch where
  start : Nat
deriving DecidableEq

instance : Epoch PairEpoch Nat Unit where
  startSlot e := e.start
  endSlot e := e.start + 2
  increment e _ := ⟨e.start + 2⟩

instance : LawfulEpoch PairEpoch where
  start_le_end e := Nat.le_add_right e.start 2
  end_le_increment _ _ := le_refl _

def chainBuilder : Option (Nat × Nat) → Nat → Nat → Except Empty Bool
  | some (current, parent), base, target =>
    if target = current then .ok (decide (base ≤ parent)) else chainQuery base target
  | none, base, target => chainQuery base target

theorem chainBuilder_builds : Builds chain chainBuilder where
  stored := chainQuery_decides
  fresh current parent base := by
    have hiff : chain.ancEq base parent ↔ base ≤ parent := by
      rw [ancEq, chain_anc_iff]
      omega
    refine ⟨decide (base ≤ parent), if_pos rfl, fun h => ?_, fun _ h => ?_⟩
    · exact hiff.mpr (of_decide_eq_true h)
    · exact decide_eq_true (hiff.mp h)

/-- The odd blocks of the chain are the first of their epochs; a block's slot is its number. -/
def sevenBlocks : Chain Nat Nat PairEpoch where
  changes :=
    { inner := ⟨[.mk 1 1 (.genesis ⟨1, 3⟩ ⟨3, 5⟩) [.mk 3 3 (.regular ⟨5, 7⟩)
        [.mk 5 5 (.regular ⟨7, 9⟩) [.mk 7 7 (.regular ⟨9, 11⟩) []]]]], none⟩
      epochs := (((empty.insert (1, 1) (.genesis ⟨1⟩ ⟨3⟩)).insert (3, 3) (.regular ⟨5⟩)).insert (5, 5)
        (.regular ⟨7⟩)).insert (7, 7) (.regular ⟨9⟩) }
  imported := [7, 6, 5, 4, 3, 2, 1, 0]
  finalized := 0

/-- Finalizing block 7 prunes the entry of block 1, and block 7 still finds its epoch. -/
theorem sevenBlocks_keeps_epochs :
    EpochRun chain id (· + 100) chainBuilder PairEpoch.mk sevenBlocks ∧
      sevenBlocks.changes.inner.nodes.map ForkTree.Node.hash = [1, 3, 5, 7] ∧
      ∃ c', sevenBlocks.changes.pruneFinalized chainBuilder 7 7 7 = (.ok (), c') ∧
        c'.inner.nodes.map ForkTree.Node.hash = [3, 5, 7] ∧
        c'.epochDescriptorForChildOf (· + 100) chainBuilder 7 7 8 =
          .ok (some (.signaled ⟨.regular, 5, 5⟩ ⟨7, 9⟩)) := by
  have hrun : EpochRun chain id (· + 100) chainBuilder PairEpoch.mk sevenBlocks := by
    refine .importBlock (.importBlock (.importBlock (.importBlock (.importBlock (.importBlock
      (.importBlock (.genesis 0 rfl) 1 0 rfl ?_ ?_
      (.unimportedGenesis 1) (.unimportedGenesis ⟨1⟩) () rfl rfl ?_ ?_ _ rfl) 2 1 rfl ?_ ?_
      (.signaled ⟨.genesis0, 1, 1⟩ ⟨1, 3⟩) (.signaled ⟨1⟩) () rfl rfl ?_ ?_ _ rfl) 3 2 rfl ?_ ?_
      (.signaled ⟨.genesis1, 1, 1⟩ ⟨3, 5⟩) (.signaled ⟨3⟩) () rfl rfl ?_ ?_ _ rfl) 4 3 rfl ?_ ?_
      (.signaled ⟨.genesis1, 1, 1⟩ ⟨3, 5⟩) (.signaled ⟨3⟩) () rfl rfl ?_ ?_ _ rfl) 5 4 rfl ?_ ?_
      (.signaled ⟨.regular, 3, 3⟩ ⟨5, 7⟩) (.signaled ⟨5⟩) () rfl rfl ?_ ?_ _ rfl) 6 5 rfl ?_ ?_
      (.signaled ⟨.regular, 3, 3⟩ ⟨5, 7⟩) (.signaled ⟨5⟩) () rfl rfl ?_ ?_ _ rfl) 7 6 rfl ?_ ?_
      (.signaled ⟨.regular, 5, 5⟩ ⟨7, 9⟩) (.signaled ⟨7⟩) () rfl rfl ?_ ?_ _ rfl <;> decide
  have hslots : SlotsIncrease chain id := fun b p hp _ =>
    chain_anc_iff.mp (anc_of_parent hp)
  have hanc : chain.ancEq 0 7 := .inr (chain_anc_iff.mpr (by decide))
  obtain ⟨-, hprune⟩ := pruneFinalized_keeps_epochs chainBuilder_builds hslots hrun
  obtain ⟨c', hok, hkeeps⟩ := hprune 7 (mem_cons_self ..) hanc
  obtain ⟨hdescriptor, -⟩ := hkeeps 7 (mem_cons_self ..) (.inl rfl) 8 (by decide)
  have hpruned := congrArg (fun r => r.2.inner.nodes.map ForkTree.Node.hash) hok
  exact ⟨hrun, by decide, c', hok, hpruned.symm.trans rfl, hdescriptor.trans rfl⟩

end Chain

end Substrate.Epochs
