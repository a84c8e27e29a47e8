import Substrate.BasePool

/-!
# What `satisfy_tags` does

Every hash listed under a wanted tag belongs to a transaction that waits and misses this tag
(`Inv`), so that the `expect`s of `satisfy_tags` do not fail. A waiting transaction is listed under
each tag it misses, and it misses at least one (`Listed`). So `satisfy_tags` strikes its tags off
what all transactions miss, and those that miss nothing more leave the queue, once each (`Struck`).
-/

namespace Substrate.TxPool

open Function WaitingTransaction List FinMap

variable {H T : Type} [DecidableEq T] {w' : WaitingTransaction H T}

namespace WaitingTransaction

variable {w : WaitingTransaction H T} {tags : List T}

@[simp] theorem new_transaction (tx : Transaction H T) (provided : FinMap T H)
    (recentlyPruned : List (List T)) (now : Nat) :
    (new tx provided recentlyPruned now).transaction = tx := rfl

/-- Nothing if no other tag was missing. -/
def strike (tags : List T) (w : WaitingTransaction H T) : Option (WaitingTransaction H T) :=
  let missingTags := w.missingTags.filter fun t => decide (t ∉ tags)
  if missingTags = [] then none else some { w with missingTags }

def readied (w : WaitingTransaction H T) : WaitingTransaction H T := { w with missingTags := [] }

theorem strike_eq_none : w.strike tags = none ↔ w.missingTags ⊆ tags := by
  simp [strike, subset_def]

theorem strike_eq_some (h : w.strike tags = some w') :
    w'.transaction = w.transaction ∧ w'.missingTags ≠ [] ∧
      ∀ t, t ∈ w'.missingTags ↔ t ∈ w.missingTags ∧ t ∉ tags := by
  simp only [strike] at h
  split at h
  · cases h
  · rename_i hne
    cases h
    exact ⟨rfl, hne, by simp⟩

theorem readied_of_strike (h : w.strike tags = some w') : w'.readied = w.readied := by
  simp only [strike] at h
  split at h
  · cases h
  · cases h
    rfl

theorem strike_eq_self (hne : w.missingTags ≠ []) (hnot : ∀ t ∈ w.missingTags, t ∉ tags) :
    w.strike tags = some w := by
  have hfilter : (w.missingTags.filter fun t => decide (t ∉ tags)) = w.missingTags :=
    filter_eq_self.mpr fun t ht => decide_eq_true (hnot t ht)
  simp only [strike, hfilter, hne, if_false]

theorem strike_cons (tag : T) (tags : List T) (w : WaitingTransaction H T) :
    w.strike (tag :: tags) = (w.strike [tag]).bind (·.strike tags) := by
  have hfilter : (w.missingTags.filter fun t => decide (t ∉ tag :: tags)) =
      (w.missingTags.filter fun t => decide (t ∉ [tag])).filter fun t => decide (t ∉ tags) := by
    rw [filter_filter]
    refine filter_congr fun t _ => ?_
    simp [Bool.and_comm]
  by_cases hempty : (w.missingTags.filter fun t => decide (t ∉ [tag])) = []
  · simp only [strike, hfilter, hempty, filter_nil, if_true, Option.bind_none]
  · simp only [strike, hfilter, hempty, if_false, Option.bind_some]

theorem strike_singleton (tag : T) (w : WaitingTransaction H T) :
    w.strike [tag] = if (w.satisfyTag tag).isReady then none else some (w.satisfyTag tag) := by
  simp [strike, satisfyTag, isReady]

end WaitingTransaction

namespace FutureTransactions

variable {f f1 f' : FutureTransactions H T} {tag : T} {h : H} {w : WaitingTransaction H T}
  {wanted : FinMap T (List H)}

structure Inv (f : FutureTransactions H T) : Prop where
  keyed : ∀ h w, f.waiting.get? h = some w → w.transaction.hash = h
  nodup : ∀ t hashes, f.wantedTags.get? t = some hashes → hashes.Nodup
  wanted : ∀ t hashes, f.wantedTags.get? t = some hashes → ∀ h ∈ hashes,
    ∃ w, f.waiting.get? h = some w ∧ t ∈ w.missingTags

omit [DecidableEq T] in
theorem inv_empty : Inv (empty : FutureTransactions H T) :=
  ⟨by simp [empty], by simp [empty], by simp [empty]⟩

def All (Q : Transaction H T → Prop) (f : FutureTransactions H T) : Prop :=
  ∀ h w, f.waiting.get? h = some w → Q w.transaction

structure Listed (f : FutureTransactions H T) : Prop where
  missing : ∀ h w, f.waiting.get? h = some w → w.missingTags ≠ []
  listed : ∀ h w, f.waiting.get? h = some w → ∀ t ∈ w.missingTags,
    ∃ hashes, f.wantedTags.get? t = some hashes ∧ h ∈ hashes

omit [DecidableEq T] in
theorem listed_empty : Listed (empty : FutureTransactions H T) :=
  ⟨by simp [empty], by simp [empty]⟩

/-- `tags` have been struck off: `became` left the queue `f`. -/
structure Struck (tags : List T) (f : FutureTransactions H T)
    (became : List (WaitingTransaction H T)) (f' : FutureTransactions H T) : Prop where
  waiting : ∀ h, f'.waiting.get? h = (f.waiting.get? h).bind (·.strike tags)
  nodup : (became.map (·.transaction.hash)).Nodup
  len : became.length + f'.len = f.len
  became : ∀ w', w' ∈ became ↔
    ∃ h w, f.waiting.get? h = some w ∧ w.strike tags = none ∧ w' = w.readied

namespace Struck

variable {tags : List T} {became more : List (WaitingTransaction H T)}

section

variable (hstruck : Struck tags f became f')
include hstruck

theorem of_get? (hw' : f'.waiting.get? h = some w') :
    ∃ w, f.waiting.get? h = some w ∧ w'.transaction = w.transaction ∧ w'.missingTags ≠ [] ∧
      ∀ t, t ∈ w'.missingTags ↔ t ∈ w.missingTags ∧ t ∉ tags := by
  rw [hstruck.waiting, Option.bind_eq_some_iff] at hw'
  obtain ⟨w, hw, hstrike⟩ := hw'
  exact ⟨w, hw, strike_eq_some hstrike⟩

theorem get?_eq_none (hh : f.waiting.get? h = none) :
    f'.waiting.get? h = none := by
  rw [hstruck.waiting, hh, Option.bind_none]

theorem was (hinv : Inv f) (hw : w ∈ became) :
    ∃ w0, f.waiting.get? w.transaction.hash = some w0 ∧ w0.transaction = w.transaction ∧
      f'.waiting.get? w.transaction.hash = none := by
  obtain ⟨h, w0, hw0, hnone, rfl⟩ := (hstruck.became w).mp hw
  have hkey : w0.readied.transaction.hash = h := hinv.keyed h w0 hw0
  rw [hkey, hstruck.waiting, hw0]
  exact ⟨w0, rfl, rfl, hnone⟩

end

theorem trans (hinv : Inv f) (hinv1 : Inv f1) (h : Struck [tag] f became f1)
    (h' : Struck tags f1 more f') : Struck (tag :: tags) f (became ++ more) f' where
  waiting := by
    intro g
    rw [h'.waiting, h.waiting]
    cases f.waiting.get? g with
    | none => rfl
    | some w =>
      rw [Option.bind_some]
      exact (strike_cons tag tags w).symm
  became := by
    intro w'
    rw [mem_append, h.became, h'.became]
    constructor
    · rintro (⟨g, w, hw, hnone, rfl⟩ | ⟨g, w1, hw1, hnone, rfl⟩)
      · exact ⟨g, w, hw, by rw [strike_cons, hnone, Option.bind_none], rfl⟩
      · rw [h.waiting, Option.bind_eq_some_iff] at hw1
        obtain ⟨w, hw, hstrike⟩ := hw1
        refine ⟨g, w, hw, ?_, ?_⟩
        · rw [strike_cons, hstrike, Option.bind_some, hnone]
        · exact readied_of_strike hstrike
    · rintro ⟨g, w, hw, hnone, rfl⟩
      rw [strike_cons, Option.bind_eq_none_iff] at hnone
      cases hstrike : w.strike [tag] with
      | none => exact .inl ⟨g, w, hw, hstrike, rfl⟩
      | some w1 =>
        refine .inr ⟨g, w1, ?_, hnone w1 hstrike, ?_⟩
        · rw [h.waiting, hw, Option.bind_some, hstrike]
        · exact (readied_of_strike hstrike).symm
  nodup := by
    rw [map_append, nodup_append']
    refine ⟨h.nodup, h'.nodup, fun g hg hg' => ?_⟩
    obtain ⟨w, hw, rfl⟩ := mem_map.mp hg
    obtain ⟨w', hw', heq⟩ := mem_map.mp hg'
    obtain ⟨_, _, _, hgone⟩ := h.was hinv hw
    obtain ⟨w1, hw1, _⟩ := h'.was hinv1 hw'
    rw [heq, hgone] at hw1
    cases hw1
  len := by
    have := h.len
    have := h'.len
    rw [length_append]
    omega

theorem refl (hlisted : Listed f)
    (hnot : ∀ h w, f.waiting.get? h = some w → ∀ t ∈ w.missingTags, t ∉ tags) :
    Struck tags f [] f := by
  have hself : ∀ h w, f.waiting.get? h = some w → w.strike tags = some w := fun h w hw =>
    strike_eq_self (hlisted.missing h w hw) (hnot h w hw)
  refine ⟨fun h => ?_, nodup_nil, by simp, fun w' => ⟨by simp, ?_⟩⟩
  · cases hw : f.waiting.get? h with
    | none => rfl
    | some w => exact (hself h w hw).symm
  · rintro ⟨h, w, hw, hnone, rfl⟩
    rw [hself h w hw] at hnone
    cases hnone

end Struck

/-! ## Satisfying tags -/

def leaving (tag : T) (w : WaitingTransaction H T) : Option (WaitingTransaction H T) :=
  if w.strike [tag] = none then some w.readied else none

variable [DecidableEq H]

theorem satisfyHashes_spec (tag : T) {hashes : List H} (hnodup : hashes.Nodup)
    (hwait : ∀ h ∈ hashes, ∃ w, f.waiting.get? h = some w) :
    ∃ f', satisfyHashes tag hashes f =
        some (hashes.filterMap fun h => (f.waiting.get? h).bind (leaving tag), f') ∧
      f'.wantedTags = f.wantedTags ∧
      (∀ h, f'.waiting.get? h =
        if h ∈ hashes then (f.waiting.get? h).bind (·.strike [tag]) else f.waiting.get? h) ∧
      (hashes.filterMap fun h => (f.waiting.get? h).bind (leaving tag)).length + f'.len = f.len := by
  induction hashes generalizing f with
  | nil => exact ⟨f, rfl, rfl, by simp, by simp⟩
  | cons hash hashes ih =>
    obtain ⟨hnot, hnodup⟩ := nodup_cons.mp hnodup
    obtain ⟨⟨w, hw⟩, hrest⟩ := forall_mem_cons.mp hwait
    -- the rest of the list is about other transactions
    have hmore : ∀ waiting : FinMap H (WaitingTransaction H T),
        (∀ g, g ≠ hash → waiting.get? g = f.waiting.get? g) →
        waiting.get? hash = w.strike [tag] →
        ∃ f', satisfyHashes tag hashes { f with waiting } =
            some (hashes.filterMap fun h => (f.waiting.get? h).bind (leaving tag), f') ∧
          f'.wantedTags = f.wantedTags ∧
          (∀ h, f'.waiting.get? h = if h ∈ hash :: hashes then
            (f.waiting.get? h).bind (·.strike [tag]) else f.waiting.get? h) ∧
          (hashes.filterMap fun h => (f.waiting.get? h).bind (leaving tag)).length + f'.len =
            waiting.keys.length := by
      intro waiting hsame hhash
      have hother : ∀ h ∈ hashes, waiting.get? h = f.waiting.get? h := fun h hh =>
        hsame h fun heq => hnot (heq ▸ hh)
      have hleft : hashes.filterMap (fun h => (waiting.get? h).bind (leaving tag)) =
          hashes.filterMap fun h => (f.waiting.get? h).bind (leaving tag) :=
        filterMap_congr fun h hh => by rw [hother h hh]
      obtain ⟨f', heq, hwanted, hwaiting, hlen⟩ := ih (f := { f with waiting }) hnodup
        fun h hh => by simpa only [hother h hh] using hrest h hh
      rw [hleft] at heq hlen
      refine ⟨f', heq, hwanted, fun h => ?_, hlen⟩
      rw [hwaiting]
      by_cases hh : h = hash
      · subst hh
        simp [hnot, hhash, hw]
      · simp [hh, hsame h hh]
    rw [filterMap_cons, hw, Option.bind_some, leaving]
    by_cases hready : (w.satisfyTag tag).isReady
    · have hstrike : w.strike [tag] = none := by
        rw [strike_singleton, if_pos hready]
      have hempty : w.satisfyTag tag = w.readied := by
        simp only [satisfyTag, readied]
        congr 1
        exact isEmpty_iff.mp hready
      obtain ⟨f', heq, hwanted, hwaiting, hlen⟩ := hmore (f.waiting.erase hash)
        (fun g hg => by rw [get?_erase, update_of_ne hg])
        (by rw [hstrike, get?_erase, update_self])
      rw [if_pos hstrike]
      refine ⟨f', ?_, hwanted, hwaiting, ?_⟩
      · rw [← hempty]
        simp [satisfyHashes, hw, hready, heq]
      · have herase := length_keys_erase hw
        simp only [length_cons, len] at hlen ⊢
        omega
    · have hstrike : w.strike [tag] = some (w.satisfyTag tag) := by
        rw [strike_singleton, if_neg hready]
      obtain ⟨f', heq, hwanted, hwaiting, hlen⟩ :=
        hmore (f.waiting.insert hash (w.satisfyTag tag))
        (fun g hg => by rw [get?_insert, update_of_ne hg])
        (by rw [hstrike, get?_insert, update_self])
      rw [if_neg (by simp [hstrike])]
      refine ⟨f', ?_, hwanted, hwaiting, ?_⟩
      · simp [satisfyHashes, hw, hready, heq]
      · rw [hlen, length_keys_insert_of_mem hw]
        rfl

theorem struck_wanted {hashes : List H} (hinv : Inv f) (hlisted : Listed f)
    (hwanted : f.wantedTags.get? tag = some hashes) :
    ∃ became f1, satisfyHashes tag hashes { f with wantedTags := f.wantedTags.erase tag } =
      some (became, f1) ∧ Inv f1 ∧ Listed f1 ∧ Struck [tag] f became f1 := by
  obtain ⟨f1, heq, hw1, hwaiting, hlen⟩ := satisfyHashes_spec tag
    (f := { f with wantedTags := f.wantedTags.erase tag }) (hinv.nodup tag hashes hwanted)
    fun h hh => (hinv.wanted tag hashes hwanted h hh).imp fun _ hw => hw.1
  -- a transaction that is not listed under the tag does not miss it
  have hnot : ∀ h w, f.waiting.get? h = some w → h ∉ hashes → w.strike [tag] = some w := by
    intro h w hw hh
    refine strike_eq_self (hlisted.missing h w hw) fun t ht hmem => ?_
    rw [mem_singleton.mp hmem] at ht
    obtain ⟨hs, hget, hin⟩ := hlisted.listed h w hw tag ht
    rw [hwanted] at hget
    cases hget
    exact hh hin
  have hleaving : ∀ h w', (f.waiting.get? h).bind (leaving tag) = some w' ↔
      ∃ w, f.waiting.get? h = some w ∧ w.strike [tag] = none ∧ w' = w.readied := by
    intro h w'
    cases f.waiting.get? h with
    | none => simp
    | some w =>
      by_cases hnone : w.strike [tag] = none
      · simp [leaving, eq_comm]
      · simp [leaving, hnone]
  have hstruck : Struck [tag] f
      (hashes.filterMap fun h => (f.waiting.get? h).bind (leaving tag)) f1 := by
    refine ⟨fun h => ?_, ?_, hlen, fun w' => ?_⟩
    · rw [hwaiting]
      split
      · rfl
      rename_i hh
      cases hw : f.waiting.get? h with
      | none => rfl
      | some w => exact (hnot h w hw hh).symm
    · rw [map_filterMap]
      refine (hinv.nodup tag hashes hwanted).filterMap fun h h' g hg hg' => ?_
      rw [Option.mem_def, Option.map_eq_some_iff] at hg hg'
      obtain ⟨v, hv, rfl⟩ := hg
      obtain ⟨v', hv', heq⟩ := hg'
      obtain ⟨w, hw, _, rfl⟩ := (hleaving h v).mp hv
      obtain ⟨w', hw', _, rfl⟩ := (hleaving h' v').mp hv'
      have hkey : w.transaction.hash = w'.transaction.hash := heq.symm
      rw [← hinv.keyed h w hw, ← hinv.keyed h' w' hw', hkey]
    · simp only [mem_filterMap, hleaving]
      constructor
      · rintro ⟨h, _, w, hrest⟩
        exact ⟨h, w, hrest⟩
      · rintro ⟨h, w, hw, hnone, rfl⟩
        refine ⟨h, ?_, w, hw, hnone, rfl⟩
        by_contra hh
        rw [hnot h w hw hh] at hnone
        cases hnone
  have herased : ∀ t hs, f1.wantedTags.get? t = some hs →
      t ≠ tag ∧ f.wantedTags.get? t = some hs := by
    intro t hs ht
    rw [hw1] at ht
    exact get?_erase_eq_some.mp ht
  refine ⟨_, f1, heq, ⟨?_, fun t hs ht => hinv.nodup t hs (herased t hs ht).2, ?_⟩, ⟨?_, ?_⟩, hstruck⟩
  · intro h w' hw'
    obtain ⟨w, hw, htx, _⟩ := hstruck.of_get? hw'
    rw [htx]
    exact hinv.keyed h w hw
  · intro t hs ht h hh
    obtain ⟨hne, ht⟩ := herased t hs ht
    obtain ⟨w, hw, hmiss⟩ := hinv.wanted t hs ht h hh
    rw [hstruck.waiting, hw, Option.bind_some]
    have htag : t ∉ [tag] := by simpa using hne
    cases hstrike : w.strike [tag] with
    | none => exact absurd (strike_eq_none.mp hstrike hmiss) htag
    | some w' =>
      exact ⟨w', rfl, ((strike_eq_some hstrike).2.2 t).mpr ⟨hmiss, htag⟩⟩
  · intro h w' hw'
    obtain ⟨_, _, _, hmissing, _⟩ := hstruck.of_get? hw'
    exact hmissing
  · intro h w' hw' t ht
    obtain ⟨w, hw, _, _, hmiss⟩ := hstruck.of_get? hw'
    obtain ⟨ht, hne⟩ := (hmiss t).mp ht
    obtain ⟨hs, hget, hin⟩ := hlisted.listed h w hw t ht
    refine ⟨hs, ?_, hin⟩
    rw [hw1]
    exact get?_erase_eq_some.mpr ⟨by simpa using hne, hget⟩

theorem satisfyTags_spec (tags : List T) (hinv : Inv f) (hlisted : Listed f) :
    ∃ became f', satisfyTags tags f = some (became, f') ∧ Inv f' ∧ Listed f' ∧
      Struck tags f became f' := by
  induction tags generalizing f with
  | nil => exact ⟨[], f, rfl, hinv, hlisted, .refl hlisted (by simp)⟩
  | cons tag tags ih =>
    cases hwanted : f.wantedTags.get? tag with
    | none =>
      obtain ⟨became, f', heq, hinv', hlisted', hstruck'⟩ := ih hinv hlisted
      refine ⟨became, f', by simp only [satisfyTags, hwanted, heq], hinv', hlisted', ?_⟩
      refine Struck.trans hinv hinv (Struck.refl hlisted fun h w hw t ht hmem => ?_) hstruck'
      obtain ⟨hs, hget, _⟩ := hlisted.listed h w hw t ht
      rw [mem_singleton.mp hmem, hwanted] at hget
      cases hget
    | some hashes =>
      obtain ⟨became, f1, heq1, hinv1, hlisted1, hstruck1⟩ := struck_wanted hinv hlisted hwanted
      obtain ⟨more, f', heq', hinv', hlisted', hstruck'⟩ := ih hinv1 hlisted1
      refine ⟨became ++ more, f', ?_, hinv', hlisted', hstruck1.trans hinv hinv1 hstruck'⟩
      simp [satisfyTags, hwanted, heq1, heq']

/-! ## Importing, removing, clearing -/

def Wants (wanted : FinMap T (List H)) (t : T) (g : H) : Prop :=
  ∃ hashes, wanted.get? t = some hashes ∧ g ∈ hashes

def Once (wanted : FinMap T (List H)) : Prop := ∀ t hashes, wanted.get? t = some hashes → hashes.Nodup

theorem want_spec (h : H) (tags : List T) (honce : Once wanted) :
    Once (tags.foldl (fun wanted tag => wanted.insert tag (((wanted.get? tag).getD []).insert h))
        wanted) ∧
      ∀ t g, Wants (tags.foldl (fun wanted tag =>
        wanted.insert tag (((wanted.get? tag).getD []).insert h)) wanted) t g ↔
          (t ∈ tags ∧ g = h) ∨ Wants wanted t g := by
  induction tags generalizing wanted with
  | nil => simp [honce]
  | cons tag tags ih =>
    have hlist : ∀ g, g ∈ (wanted.get? tag).getD [] ↔ Wants wanted tag g := by
      intro g
      cases hget : wanted.get? tag <;> simp [Wants, hget]
    have hnodup : ((wanted.get? tag).getD []).Nodup := by
      cases hget : wanted.get? tag with
      | none => exact nodup_nil
      | some hashes => exact honce tag hashes hget
    have honce1 : Once (wanted.insert tag (((wanted.get? tag).getD []).insert h)) := by
      intro t hashes ht
      rcases get?_insert_eq_some.mp ht with ⟨_, rfl⟩ | ⟨_, ht⟩
      · exact hnodup.insert
      · exact honce t hashes ht
    obtain ⟨honce', hwants⟩ := ih honce1
    refine ⟨honce', fun t g => ?_⟩
    rw [foldl_cons, hwants, mem_cons]
    by_cases ht : t = tag
    · subst ht
      have hself : Wants (wanted.insert t (((wanted.get? t).getD []).insert h)) t g ↔
          g = h ∨ Wants wanted t g := by
        simp [Wants, hlist g]
      rw [hself]
      tauto
    have hother : Wants (wanted.insert tag (((wanted.get? tag).getD []).insert h)) t g ↔
        Wants wanted t g := by
      simp [Wants, ht]
    rw [hother]
    tauto

theorem wants_dropWanted (h : H) (tag : T) (honce : Once wanted) : Once (dropWanted h wanted tag) ∧
      ∀ t g, Wants (dropWanted h wanted tag) t g ↔ Wants wanted t g ∧ ¬(t = tag ∧ g = h) := by
  cases hold : wanted.get? tag with
  | none =>
    simp only [dropWanted, hold]
    refine ⟨honce, fun t g => (and_iff_left_of_imp ?_).symm⟩
    rintro ⟨hashes, ht, _⟩ ⟨rfl, _⟩
    rw [hold] at ht
    cases ht
  | some old =>
    have hget : ∀ t hashes, (dropWanted h wanted tag).get? t = some hashes ↔
        t ≠ tag ∧ wanted.get? t = some hashes ∨
          t = tag ∧ hashes ≠ [] ∧ (old.filter fun k => decide (k ≠ h)) = hashes := by
      intro t hashes
      simp only [dropWanted, hold]
      split
      · rename_i hempty
        rw [get?_erase_eq_some, or_iff_left]
        rintro ⟨_, hne, rfl⟩
        exact hne (isEmpty_iff.mp hempty)
      rename_i hempty
      rw [get?_insert_eq_some, or_comm]
      refine or_congr_right (and_congr_right fun _ => (and_iff_right_of_imp ?_).symm)
      rintro rfl hnil
      exact hempty (isEmpty_iff.mpr hnil)
    refine ⟨fun t hashes ht => ?_, fun t g => ?_⟩
    · rcases (hget t hashes).mp ht with ⟨_, ht⟩ | ⟨_, _, rfl⟩
      · exact honce t hashes ht
      · exact (honce tag old hold).filter _
    · simp only [Wants, hget]
      by_cases ht : t = tag
      · subst ht
        constructor
        · rintro ⟨hashes, ⟨hne, _⟩ | ⟨_, _, rfl⟩, hg⟩
          · exact absurd rfl hne
          · obtain ⟨hg, hne⟩ := mem_filter.mp hg
            exact ⟨⟨old, hold, hg⟩, fun hself => of_decide_eq_true hne hself.2⟩
        · rintro ⟨⟨hashes, hget, hg⟩, hne⟩
          obtain rfl := Option.some.inj (hold.symm.trans hget)
          have hmem : g ∈ old.filter fun k => decide (k ≠ h) :=
            mem_filter.mpr ⟨hg, decide_eq_true fun heq => hne ⟨rfl, heq⟩⟩
          exact ⟨_, .inr ⟨rfl, ne_nil_of_mem hmem, rfl⟩, hmem⟩
      · simp [ht]

theorem dropWanted_spec (h : H) (tags : List T) (honce : Once wanted) :
    Once (tags.foldl (dropWanted h) wanted) ∧ ∀ t g, Wants (tags.foldl (dropWanted h) wanted) t g ↔
        Wants wanted t g ∧ ¬(t ∈ tags ∧ g = h) := by
  induction tags generalizing wanted with
  | nil => simp [honce]
  | cons tag tags ih =>
    obtain ⟨honce1, hwants1⟩ := wants_dropWanted h tag honce
    obtain ⟨honce', hwants⟩ := ih honce1
    refine ⟨honce', fun t g => ?_⟩
    rw [foldl_cons, hwants, hwants1, mem_cons]
    tauto

theorem importTx_spec (hinv : Inv f) (hlisted : Listed f) (hready : ¬w.isReady)
    (hnew : f.waiting.get? w.transaction.hash = none) :
    ∃ f', f.importTx w = some f' ∧ Inv f' ∧ Listed f' ∧ ∀ h v, f'.waiting.get? h = some v ↔
        h = w.transaction.hash ∧ w = v ∨ h ≠ w.transaction.hash ∧ f.waiting.get? h = some v := by
  have hcontains : ¬f.waiting.contains w.transaction.hash := by simp [FinMap.contains, hnew]
  obtain ⟨honce, hwants⟩ := want_spec w.transaction.hash w.missingTags hinv.nodup
  refine ⟨_, by rw [importTx, if_neg hready, if_neg hcontains], ⟨?_, ?_, ?_⟩, ⟨?_, ?_⟩,
    fun h v => get?_insert_eq_some⟩
  · intro h v hv
    rcases get?_insert_eq_some.mp hv with ⟨rfl, rfl⟩ | ⟨_, hv⟩
    · rfl
    · exact hinv.keyed h v hv
  · exact honce
  · intro t hashes ht h hh
    rcases (hwants t h).mp ⟨hashes, ht, hh⟩ with ⟨htag, rfl⟩ | ⟨old, hold, hmem⟩
    · exact ⟨w, by simp, htag⟩
    obtain ⟨v, hv, hmiss⟩ := hinv.wanted t old hold h hmem
    refine ⟨v, get?_insert_eq_some.mpr (.inr ⟨?_, hv⟩), hmiss⟩
    rintro rfl
    rw [hnew] at hv
    cases hv
  · intro h v hv
    rcases get?_insert_eq_some.mp hv with ⟨_, rfl⟩ | ⟨_, hv⟩
    · simpa [isReady] using hready
    · exact hlisted.missing h v hv
  · intro h v hv t ht
    refine (hwants t h).mpr ?_
    rcases get?_insert_eq_some.mp hv with ⟨rfl, rfl⟩ | ⟨_, hv⟩
    · exact .inl ⟨ht, rfl⟩
    · exact .inr (hlisted.listed h v hv t ht)

theorem remove_spec (hashes : List H) (hinv : Inv f) (hlisted : Listed f) :
    Inv (remove hashes f).2 ∧ Listed (remove hashes f).2 ∧
      ∀ h w, (remove hashes f).2.waiting.get? h = some w ↔ h ∉ hashes ∧ f.waiting.get? h = some w := by
  induction hashes generalizing f with
  | nil => exact ⟨hinv, hlisted, by simp [remove]⟩
  | cons hash hashes ih =>
    cases hw : f.waiting.get? hash with
    | none =>
      obtain ⟨hinv', hlisted', hwaiting⟩ := ih hinv hlisted
      simp only [remove, hw]
      refine ⟨hinv', hlisted', fun h v => ?_⟩
      rw [hwaiting, mem_cons, not_or, and_assoc, iff_and_self]
      rintro ⟨_, hv⟩ rfl
      rw [hw] at hv
      cases hv
    | some w =>
      obtain ⟨honce, hwants⟩ := dropWanted_spec hash w.missingTags hinv.nodup
      obtain ⟨hinv', hlisted', hwaiting⟩ := ih
        (f := { wantedTags := w.missingTags.foldl (dropWanted hash) f.wantedTags
                waiting := f.waiting.erase hash })
        { keyed := fun h v hv => hinv.keyed h v (get?_erase_eq_some.mp hv).2
          nodup := honce
          wanted := by
            intro t hs ht h hh
            obtain ⟨⟨old, hold, hmem⟩, hnot⟩ := (hwants t h).mp ⟨hs, ht, hh⟩
            obtain ⟨v, hv, hmiss⟩ := hinv.wanted t old hold h hmem
            refine ⟨v, get?_erase_eq_some.mpr ⟨?_, hv⟩, hmiss⟩
            rintro rfl
            obtain rfl := Option.some.inj (hw.symm.trans hv)
            exact hnot ⟨hmiss, rfl⟩ }
        { missing := fun h v hv => hlisted.missing h v (get?_erase_eq_some.mp hv).2
          listed := by
            intro h v hv t ht
            obtain ⟨hne, hv⟩ := get?_erase_eq_some.mp hv
            exact (hwants t h).mpr ⟨hlisted.listed h v hv t ht, fun hself => hne hself.2⟩ }
      simp only [remove, hw]
      refine ⟨hinv', hlisted', fun h v => ?_⟩
      rw [hwaiting, get?_erase_eq_some, mem_cons]
      tauto

end FutureTransactions

end Substrate.TxPool
