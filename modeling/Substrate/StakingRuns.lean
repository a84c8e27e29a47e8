import Substrate.StakingBooks

/-!
# Runs of the staking pallet

Runs of the calls that change the books, with everything else left open: between two calls the era
may advance, and roles, minimum bonds, slashing spans, the history depth and balances may change in
any way that leaves the locks. Calls of the balances pallet that change locks take part with
identifiers other than the pallet's own.
-/

namespace Substrate.Staking

open Exec Option Nat StakingLedger

/-! ## Actions -/

inductive Action (A L I : Type) where
  | bond (stash controller : A) (value : Nat) (payee : RewardDestination A)
  | bondExtra (stash : A) (maxAdditional : Nat)
  | unbond (controller : A) (value : Nat)
  | rebond (controller : A) (value : Nat)
  | withdrawUnbonded (controller : A) (numSlashingSpans : Nat)
  | reapStash (stash : A) (numSlashingSpans : Nat)
  | forceUnstake (stash : A) (numSlashingSpans : Nat)
  | setController (stash controller : A)
  | setPayee (controller : A) (payee : RewardDestination A)
  | doSlash (stash : A) (value rewardPayout : Nat) (slashedImbalance : Balances.NegativeImbalance)
  | makePayout (stash : A) (amount : Nat)
  | currency (c : Balances.Call A L I)

section Actions

variable {A L I : Type} [DecidableEq A] [DecidableEq L] [LinearOrder I] {T : Config L}
  {s s' : State A L I} {Kept : Prop}

def Action.run (T : Config L) : Action A L I → Exec (State A L I) Error Unit
  | bond stash controller value payee => Staking.bond T stash controller value payee
  | bondExtra stash maxAdditional => Staking.bondExtra T stash maxAdditional
  | unbond controller value => Staking.unbond T controller value
  | rebond controller value => Staking.rebond T controller value
  | withdrawUnbonded controller n => Staking.withdrawUnbonded T controller n
  | reapStash stash n => Staking.reapStash T stash n
  | forceUnstake stash n => killStashAndLock T stash n
  | setController stash controller => Staking.setController stash controller
  | setPayee controller payee => Staking.setPayee controller payee
  | doSlash stash value rewardPayout slashedImbalance =>
    (fun _ => ()) <$> Staking.doSlash T stash value rewardPayout slashedImbalance
  | makePayout stash amount => (fun _ => ()) <$> Staking.makePayout T stash amount
  | currency c => (fun _ => ()) <$> Staking.currency (c.run T.currency)

/-- Whether or not it returns an error; none after a panic. -/
def Action.perform (T : Config L) (a : Action A L I) (s : State A L I) : Option (State A L I) :=
  match a.run T s with
  | (.panic, _) => none
  | (_, s') => some s'

/-- It does not touch the pallet's locks behind its back. -/
def Action.Apart (T : Config L) : Action A L I → Prop
  | currency c => c.lockId ≠ some T.stakingId
  | _ => True

/-- A slash does not take all there is, and without an existential deposit not all there is becomes
due. -/
def Action.Keeps (T : Config L) (s : State A L I) : Action A L I → Prop
  | doSlash stash value _ _ => ∀ l, ledgerAt s stash = some l → 0 < l.total →
    ¬l.EmptiedBy value T.currency.existentialDeposit
  | withdrawUnbonded controller _ => T.currency.existentialDeposit = 0 →
    ∀ l, s.ledger.get? controller = some l → 0 < l.total → s.currentEra.elim 0 l.due < l.total
  | _ => True

theorem Action.perform_post {a : Action A L I} {P : State A L I → Prop}
    (h : Post (a.run T) s (fun _ s' => P s') (fun _ s' => P s'))
    (hperform : a.perform T s = some s') : P s' := by
  unfold Action.perform at hperform
  unfold Post at h
  generalize a.run T s = res at h hperform
  rcases res with ⟨_ | e | _, s1⟩
  · obtain rfl := some.inj hperform
    exact h
  · obtain rfl := some.inj hperform
    exact h
  · cases hperform

theorem Action.books (a : Action A L I) (s : State A L I) :
    Post (a.run T) s (fun _ s' => Change T (a.Keeps T s) s s' ∨ ∃ c, a = currency c)
      (fun _ s' => s' = s ∨ ∃ c, a = currency c) := by
  cases a with
  | bond => exact post_bond.mono (fun _ _ => .inl) fun _ _ => .inl
  | bondExtra => exact post_bondExtra.mono (fun _ _ => .inl) fun _ _ => .inl
  | unbond controller value =>
    refine post_unbond.mono ?_ fun _ _ => .inl
    rintro _ s' (rfl | ⟨l, v, hl, hpos, hle, hlength, h⟩)
    · exact .inl (.same (.refl T s'))
    · exact .inl (.edited hl (.unbond hpos hle hlength) (fun _ _ hzero => hzero) h)
  | rebond controller value =>
    refine post_rebond.mono ?_ fun _ _ => .inl
    rintro _ s' ⟨l, l', hl, hrebond, h⟩
    exact .inl (.edited hl (.rebond hrebond)
      (fun _ hsound hzero => (hsound.rebond hrebond).2.1 ▸ hzero) h)
  | withdrawUnbonded controller n =>
    refine post_withdrawUnbonded.mono ?_ fun _ _ => .inl
    rintro _ s' ⟨l, hl, h⟩
    split at h
    · obtain ⟨c, hc, h⟩ := h
      exact .inl (.removed hc h)
    · rename_i hstays
      refine .inl (.edited hl (.consolidatedNow _ l) (fun hkeeps hsound hzero => ?_) h)
      exact hsound.consolidatedNow_pos hstays (fun hed => hkeeps hed l hl) hzero
  | reapStash => exact post_reapStash.mono (fun _ _ => .inl) fun _ _ => .inl
  | forceUnstake stash n =>
    refine post_killStashAndLock.mono ?_ fun _ _ => .inl
    rintro _ s' ⟨controller, hstash, h⟩
    exact .inl (.removed hstash h)
  | setController => exact post_setController.mono (fun _ _ => .inl) fun _ _ => .inl
  | setPayee => exact post_setPayee.mono (fun _ _ => .inl) fun _ _ => .inl
  | doSlash =>
    rw [Action.run, post_map]
    exact post_doSlash.noErr fun _ _ => .inl
  | makePayout =>
    rw [Action.run, post_map]
    exact post_makePayout.noErr fun _ _ => .inl
  | currency c =>
    unfold Post
    split
    · exact .inr ⟨c, rfl⟩
    · exact .inr ⟨c, rfl⟩
    · trivial

theorem Action.change {a : Action A L I} (hapart : a.Apart T) :
    Post (a.run T) s (fun _ s' => Change T (a.Keeps T s) s s')
      (fun _ s' => Change T (a.Keeps T s) s s') := by
  by_cases hc : ∃ c, a = currency c
  · obtain ⟨c, rfl⟩ := hc
    rw [Action.run, post_map, Staking.currency, post_within]
    exact (Balances.Call.run_locksWith hapart).mono (fun _ _ h => .same ⟨rfl, rfl, rfl, h⟩)
      fun _ _ h => .same ⟨rfl, rfl, rfl, h⟩
  · refine (a.books s).mono (fun _ _ h => h.resolve_right hc) fun _ s' h => ?_
    rw [h.resolve_right hc]
    exact .same (.refl T s)

/-! ## Runs -/

/-- The era advances, and everything but the books and the locks may change. -/
structure Elsewhere (s s' : State A L I) : Prop where
  bonded : s'.bonded = s.bonded
  ledger : s'.ledger = s.ledger
  locks : s'.balances.locks = s.balances.locks
  era_le : ∀ n, s.currentEra = some n → ∃ m, s'.currentEra = some m ∧ n ≤ m

structure Start (T : Config L) (s : State A L I) : Prop where
  bonded : ∀ x, s.bonded.get? x = none
  ledger : ∀ x, s.ledger.get? x = none
  lock : ∀ x, lockOf T s x = []

inductive Run (T : Config L) (Cond : State A L I → Action A L I → Prop) : State A L I → Prop where
  | start {s : State A L I} (h : Start T s) : Run T Cond s
  | act {s s' : State A L I} {a} (hrun : Run T Cond s) (hcond : Cond s a)
      (hapart : a.Apart T) (hperform : a.perform T s = some s') : Run T Cond s'
  | elsewhere {s s' : State A L I} (hrun : Run T Cond s) (h : Elsewhere s s') : Run T Cond s'

section

omit [DecidableEq A] [DecidableEq L] [LinearOrder I]

theorem Elsewhere.getD_le (h : Elsewhere s s') : s.currentEra.getD 0 ≤ s'.currentEra.getD 0 := by
  cases hera : s.currentEra with
  | none => exact zero_le _
  | some n =>
    obtain ⟨m, hm, hle⟩ := h.era_le n hera
    rw [hm]
    exact hle

theorem Elsewhere.ledgerAt_eq (h : Elsewhere s s') (x : A) : ledgerAt s' x = ledgerAt s x := by
  unfold ledgerAt
  rw [h.bonded, h.ledger]

end

/-- One ledger a stash, each of them sound, and no chunk due later than the bonding duration from
now. -/
structure InOrder (T : Config L) (s : State A L I) : Prop where
  paired : Paired s
  sound : ∀ {x l}, ledgerAt s x = some l →
    l.Sound ∧ l.DueWithin (s.currentEra.getD 0 + T.bondingDuration)

omit [LinearOrder I] in
theorem InOrder.change (h : InOrder T s) (hchange : Change T Kept s s') : InOrder T s' := by
  refine ⟨hchange.paired h.paired, fun {x m} hm => ?_⟩
  rw [hchange.currentEra]
  cases hchange.effect h.paired with
  | same hbook =>
    rw [hbook] at hm
    exact h.sound hm
  | written hfrom hbook =>
    rw [hbook] at hm
    split at hm
    · obtain rfl := some.inj hm
      rcases hfrom with ⟨-, htotal, hnone⟩ | ⟨l, hl, hedit, -⟩
      · exact ⟨.of_no_chunks htotal hnone, fun c hc => by rw [hnone] at hc; cases hc⟩
      · obtain ⟨hsound, hdue⟩ := h.sound hl
        exact ⟨hsound.edit hdue hedit, hdue.edit hsound hedit⟩
    · exact h.sound hm
  | removed hbook =>
    rw [hbook] at hm
    split at hm
    · cases hm
    · exact h.sound hm

omit [DecidableEq A] [DecidableEq L] [LinearOrder I] in
theorem InOrder.elsewhere (h : InOrder T s) (helse : Elsewhere s s') : InOrder T s' := by
  refine ⟨⟨fun hl => ?_, fun hb => ?_⟩, fun {x m} hm => ?_⟩
  · rw [helse.ledger] at hl
    rw [helse.bonded]
    exact h.paired.ledger_bonded hl
  · rw [helse.bonded] at hb
    rw [helse.ledger]
    exact h.paired.bonded_ledger hb
  · rw [helse.ledgerAt_eq] at hm
    obtain ⟨hsound, hdue⟩ := h.sound hm
    refine ⟨hsound, fun c hc => ?_⟩
    have := hdue c hc
    have := helse.getD_le
    omega

omit [DecidableEq A] [LinearOrder I] in
theorem Start.inOrder (h : Start T s) : InOrder T s := by
  have hnone : ∀ x l, ledgerAt s x ≠ some l := by
    intro x l hl
    rw [ledgerAt_eq_none (h.bonded x)] at hl
    cases hl
  refine ⟨⟨fun {c l} hl => ?_, fun {x c} hb => ?_⟩, fun hl => absurd hl (hnone _ _)⟩
  · rw [h.ledger] at hl
    cases hl
  · rw [h.bonded] at hb
    cases hb

theorem Run.inOrder {Cond : State A L I → Action A L I → Prop} (h : Run T Cond s) :
    InOrder T s := by
  induction h with
  | start h => exact h.inOrder
  | act _ _ hapart hperform ih => exact ih.change (Action.perform_post (Action.change hapart) hperform)
  | elsewhere _ h ih => exact ih.elsewhere h

/-! ## Totals and unbonded amounts -/

section Totals

omit [LinearOrder I]

variable {controller : A} {l : StakingLedger A} {value n : Nat}

def unbondedOf (T : Config L) (l : Option (StakingLedger A)) (era : Nat) : Nat :=
  l.elim 0 fun l => l.unbondedAt T.bondingDuration era

omit [DecidableEq A] [DecidableEq L] in
theorem InOrder.sound_of_ledger (h : InOrder T s) (hl : s.ledger.get? controller = some l) :
    l.Sound :=
  (h.sound (h.paired.ledgerAt_eq_some.mpr ⟨controller, hl, rfl⟩)).1

theorem Written.get? {l' : StakingLedger A} (h : Written T controller l' s s') :
    s'.ledger.get? controller = some l' := by
  rw [h.ledger, FinMap.get?_insert, Function.update_self]

theorem InOrder.rebond_total (h : InOrder T s) (hl : s.ledger.get? controller = some l)
    (hrun : rebond T controller value s = (.ok (), s')) :
    ∃ l', s'.ledger.get? controller = some l' ∧ l'.total = l.total := by
  obtain ⟨l1, l', hl1, hrebond, hwritten⟩ := post_rebond.ok hrun
  rw [hl] at hl1
  obtain rfl := some.inj hl1
  exact ⟨l', hwritten.get?, ((h.sound_of_ledger hl).rebond hrebond).2.1⟩

theorem unbond_total (hl : s.ledger.get? controller = some l)
    (hrun : unbond T controller value s = (.ok (), s')) :
    ∃ l' v, s'.ledger.get? controller = some l' ∧ l'.total = l.total ∧ l'.active + v = l.active ∧
      ∀ e, l'.unbondedAt T.bondingDuration e =
        l.unbondedAt T.bondingDuration e + if e = s.currentEra.getD 0 then v else 0 := by
  rcases post_unbond.ok hrun with rfl | ⟨l1, v, hl1, -, hle, -, hwritten⟩
  · refine ⟨l, 0, hl, rfl, rfl, fun e => ?_⟩
    rw [ite_self, add_zero]
  rw [hl] at hl1
  obtain rfl := some.inj hl1
  refine ⟨_, v, hwritten.get?, rfl, Nat.sub_add_cancel hle, fun e => ?_⟩
  unfold unbondedAt
  rw [List.filter_append]
  by_cases he : e = s.currentEra.getD 0
  · rw [if_pos he, List.filter_cons_of_pos (by simp [he])]
    simp
  · rw [if_neg he, List.filter_cons_of_neg (by simp; omega)]
    simp

theorem InOrder.withdraw_total (h : InOrder T s) (hl : s.ledger.get? controller = some l)
    (hrun : withdrawUnbonded T controller n s = (.ok (), s')) :
    ((∃ l', s'.ledger.get? controller = some l' ∧ l'.total + s.currentEra.elim 0 l.due = l.total) ∨
      (s'.ledger.get? controller = none ∧ l.active + s.currentEra.elim 0 l.due = l.total ∧
        l.active < T.currency.existentialDeposit)) ∧
      ∀ e, (∀ now, s.currentEra = some now → now < e + T.bondingDuration) →
        unbondedOf T (s'.ledger.get? controller) e = l.unbondedAt T.bondingDuration e := by
  have hsound := h.sound_of_ledger hl
  obtain ⟨htotal, hunbonded⟩ := hsound.consolidatedNow s.currentEra
  obtain ⟨l1, hl1, hcase⟩ := post_withdrawUnbonded.ok hrun
  rw [hl] at hl1
  obtain rfl := some.inj hl1
  split at hcase
  · rename_i hgone
    obtain ⟨c, hc, hremoved⟩ := hcase
    rw [h.paired.ledger_bonded hl] at hc
    obtain rfl := some.inj hc
    have hnone : s'.ledger.get? controller = none := by
      rw [hremoved.ledger, FinMap.get?_erase, Function.update_self]
    rw [(hsound.consolidatedNow_sound _).total_eq, hgone.1, valueSum_nil, Nat.add_zero,
      (consolidatedNow_frame _ l).2] at htotal
    refine ⟨.inr ⟨hnone, htotal, hgone.2⟩, fun e he => ?_⟩
    rw [hnone, ← hunbonded _ e he, unbondedAt, hgone.1]
    rfl
  · refine ⟨.inl ⟨_, hcase.get?, htotal⟩, fun e he => ?_⟩
    rw [hcase.get?]
    exact hunbonded _ e he

theorem InOrder.unbondedOf_le (h : InOrder T s) (hchange : Change T Kept s s') (x : A) {e : Nat}
    (he : e ≠ s.currentEra.getD 0) :
    unbondedOf T (ledgerAt s' x) e ≤ unbondedOf T (ledgerAt s x) e := by
  cases hchange.effect h.paired with
  | same hbook => rw [hbook]
  | @written l' hfrom hbook =>
    rw [hbook]
    split
    · rename_i hx
      subst hx
      rcases hfrom with ⟨-, -, hnone⟩ | ⟨l, hl, hedit, -⟩
      · show l'.unbondedAt T.bondingDuration e ≤ _
        rw [unbondedAt, hnone]
        exact zero_le _
      · rw [hl]
        exact hedit.unbondedAt_le (h.sound hl).1 he
    · exact le_refl _
  | removed hbook =>
    rw [hbook]
    split
    · exact zero_le _
    · exact le_refl _

end Totals

/-- **The staking ledger adds up** in every state of a run. Rebonding and unbonding keep the
total; a withdrawal takes the chunks that are due, and with them the ledger if no chunk is left
and the active balance is below the existential deposit. What was unbonded in an era comes from
that era, and a withdrawal leaves it until the bonding duration is over. -/
theorem ledgers_add_up {s : State A L I} (hrun : Run T (fun _ _ => True) s) :
    (∀ controller l, s.ledger.get? controller = some l → l.total = l.active + valueSum l.unlocking ∧
        (l.unlocking.map UnlockChunk.era).Pairwise (· ≤ ·) ∧
        l.unlocking.length ≤ maxUnlockingChunks) ∧
    (∀ controller l value s', s.ledger.get? controller = some l →
      rebond T controller value s = (.ok (), s') →
      ∃ l', s'.ledger.get? controller = some l' ∧ l'.total = l.total) ∧
    (∀ controller l value s', s.ledger.get? controller = some l →
      unbond T controller value s = (.ok (), s') →
      ∃ l' v, s'.ledger.get? controller = some l' ∧ l'.total = l.total ∧
        l'.active + v = l.active ∧ ∀ e, l'.unbondedAt T.bondingDuration e =
          l.unbondedAt T.bondingDuration e + if e = s.currentEra.getD 0 then v else 0) ∧
    (∀ controller l n s', s.ledger.get? controller = some l →
      withdrawUnbonded T controller n s = (.ok (), s') →
      ((∃ l', s'.ledger.get? controller = some l' ∧
          l'.total + s.currentEra.elim 0 l.due = l.total) ∨
        (s'.ledger.get? controller = none ∧ l.active + s.currentEra.elim 0 l.due = l.total ∧
          l.active < T.currency.existentialDeposit)) ∧
        ∀ e, (∀ now, s.currentEra = some now → now < e + T.bondingDuration) →
          unbondedOf T (s'.ledger.get? controller) e = l.unbondedAt T.bondingDuration e) ∧
    ∀ (a : Action A L I) s', a.Apart T → a.perform T s = some s' → ∀ x e, e ≠ s.currentEra.getD 0 →
        unbondedOf T (ledgerAt s' x) e ≤ unbondedOf T (ledgerAt s x) e := by
  have h := hrun.inOrder
  refine ⟨fun controller l hl => ?_, fun controller l value s' hl hs' => h.rebond_total hl hs',
    fun controller l value s' hl hs' => unbond_total hl hs',
    fun controller l n s' hl hs' => h.withdraw_total hl hs',
    fun a s' hapart hs' x e he => ?_⟩
  · have hsound := h.sound_of_ledger hl
    exact ⟨hsound.total_eq, hsound.eras_sorted, hsound.length_le⟩
  · exact h.unbondedOf_le (Action.perform_post (Action.change hapart) hs') x he

/-- **A call of the pallet that fails changes nothing.** -/
theorem failed_call_changes_nothing (a : Action A L I) (s : State A L I) :
    Post (a.run T) s (fun _ _ => True) fun _ s' => s' = s ∨ ∃ c, a = .currency c :=
  (a.books s).imp fun _ _ _ => trivial

/-- **Stashes and controllers are one to one** in every state the pallet reaches, and no chunk of a
ledger is due later than the bonding duration from now. -/
theorem bonded_one_to_one {Cond : State A L I → Action A L I → Prop} (hrun : Run T Cond s) :
    (∀ stash controller, s.bonded.get? stash = some controller ↔
      ∃ l, s.ledger.get? controller = some l ∧ l.stash = stash) ∧
    ∀ controller l, s.ledger.get? controller = some l →
      ∀ c ∈ l.unlocking, c.era ≤ s.currentEra.getD 0 + T.bondingDuration := by
  have h := hrun.inOrder
  refine ⟨fun stash controller => ⟨fun hb => h.paired.bonded_ledger hb, ?_⟩,
    fun controller l hl => ?_⟩
  · rintro ⟨l, hl, rfl⟩
    exact h.paired.ledger_bonded hl
  · exact (h.sound (h.paired.ledgerAt_eq_some.mpr ⟨controller, hl, rfl⟩)).2

end Actions

/-! ## A ledger with a dust amount -/

/-- Three eras of bonding, and an existential deposit of 5. -/
def threeEras : Config Nat := ⟨Balances.fiveDeposit, 3, 0⟩

def unstaked : State Bool Nat Nat where
  balances := Balances.twenty.state
  bonded := .empty
  ledger := .empty
  payee := .empty
  currentEra := some 0
  historyDepth := 84
  validators := .empty
  nominators := .empty
  minNominatorBond := 0
  minValidatorBond := 0
  slashingSpans := .empty
  spanSlash := .empty

def acted (as : List (Action Bool Nat Nat)) (s : State Bool Nat Nat) : State Bool Nat Nat :=
  as.foldl (fun s a => (a.perform threeEras s).getD s) s

theorem unstaked_start : Start threeEras unstaked := ⟨fun _ => rfl, fun _ => rfl, fun _ => rfl⟩

/-- The endowed account bonds 10, unbonds all of it and is paid 2 that are staked. -/
def unbondedAndPaid : State Bool Nat Nat :=
  acted [.bond true false 10 .staked, .unbond false 10, .makePayout true 2] unstaked

/-- Three eras later. -/
def withdrawable : State Bool Nat Nat := { unbondedAndPaid with currentEra := some 3 }

theorem withdrawable_run : Run threeEras (fun _ _ => True) withdrawable := by
  have hstart : Run threeEras (fun _ _ => True) unstaked := .start unstaked_start
  have hpaid : Run threeEras (fun _ _ => True) unbondedAndPaid :=
    .act (a := .makePayout true 2) (.act (a := .unbond false 10)
      (.act (a := .bond true false 10 .staked) hstart trivial trivial rfl) trivial trivial rfl)
      trivial trivial rfl
  refine .elsewhere hpaid ⟨rfl, rfl, rfl, fun n hn => ⟨3, rfl, ?_⟩⟩
  obtain rfl := some.inj hn
  exact zero_le 3

/-- The ledger has 12, of which 10 are due; the withdrawal takes all of it. -/
theorem withdrawal_takes_dust : Run threeEras (fun _ _ => True) withdrawable ∧
      ∃ l s', withdrawable.ledger.get? false = some l ∧ l.total = 12 ∧ l.due 3 = 10 ∧
        withdrawable.currentEra = some 3 ∧
        withdrawUnbonded threeEras false 0 withdrawable = (.ok (), s') ∧
        s'.ledger.get? false = none := by
  refine ⟨withdrawable_run, ⟨true, 12, 2, [⟨10, 3⟩], []⟩, _, rfl, rfl, rfl, rfl, rfl, rfl⟩

/-- The ledger with the dust amount adds up. -/
theorem withdrawable_adds_up : ∃ l, withdrawable.ledger.get? false = some l ∧
      l.total = l.active + valueSum l.unlocking ∧ l.total = 12 := by
  have h := (ledgers_add_up withdrawable_run).1 false ⟨true, 12, 2, [⟨10, 3⟩], []⟩ rfl
  exact ⟨_, rfl, h.1, rfl⟩

theorem withdrawable_one_to_one : withdrawable.bonded.get? true = some false ∧
    ∃ l, withdrawable.ledger.get? false = some l ∧ l.stash = true :=
  ⟨rfl, ((bonded_one_to_one withdrawable_run).1 true false).mp rfl⟩

/-! ## The staking lock and the ledger

Storing a ledger sets the lock of its stash to the total. A lock cannot be set to zero: the balances
pallet ignores that, and the old lock stays. A slash can empty a ledger; a withdrawal cannot, with
an existential deposit, since an empty ledger is removed. -/

section Locks

variable {A L I : Type} [DecidableEq A] [DecidableEq L] {T : Config L} {s s' : State A L I}
  {Kept : Prop}

def LocksMatch (T : Config L) (s : State A L I) : Prop :=
  ∀ x, lockOf T s x = (ledgerAt s x).elim [] fun l => lockFor T l.total

theorem LocksMatch.change (h : LocksMatch T s) (horder : InOrder T s) (hkept : Kept)
    (hchange : Change T Kept s s') : LocksMatch T s' := by
  intro x
  cases hchange.effect horder.paired with
  | same hbook hlock =>
    rw [hbook, hlock]
    exact h x
  | @written l' hfrom hbook hlock =>
    rw [hbook, hlock]
    by_cases hx : x = l'.stash
    · subst hx
      rw [if_pos rfl]
      by_cases htotal : l'.total = 0
      · -- the lock stays, so there must have been none
        rw [if_neg fun hset => hset.2 htotal, h]
        show _ = lockFor T l'.total
        rw [lockFor, if_pos htotal]
        rcases hfrom with ⟨hnone, -⟩ | ⟨l, hl, -, hzero⟩
        · rw [hnone]
          rfl
        · rw [hl]
          exact if_pos (hzero hkept (horder.sound hl).1 htotal)
      · rw [if_pos ⟨rfl, htotal⟩]
        exact (if_neg htotal).symm
    · rw [if_neg hx, if_neg fun hset => hx hset.1]
      exact h x
  | @removed stash hbook hlock =>
    rw [hbook, hlock]
    by_cases hx : x = stash
    · rw [if_pos hx, if_pos hx]
      rfl
    · rw [if_neg hx, if_neg hx]
      exact h x

omit [DecidableEq A] in
theorem LocksMatch.elsewhere (h : LocksMatch T s) (helse : Elsewhere s s') : LocksMatch T s' := by
  intro x
  rw [helse.ledgerAt_eq]
  exact (Balances.State.locksWith_congr helse.locks T.stakingId x).trans (h x)

/-- **The staking lock equals the ledger** in every state of a run that empties no ledger: a
stash with a ledger has one lock of the pallet, for the total of the ledger and all reasons,
or none if the total is zero; without a ledger there is no lock. -/
theorem staking_lock_eq_ledger [LinearOrder I] {s : State A L I}
    (hrun : Run T (fun s a => a.Keeps T s) s) (stash : A) :
    lockOf T s stash =
      match ledgerAt s stash with
      | some l => if l.total = 0 then [] else [⟨T.stakingId, l.total, .all⟩]
      | none => [] := by
  have hmatch : LocksMatch T s := by
    induction hrun with
    | start h =>
      intro x
      rw [ledgerAt_eq_none (h.bonded x)]
      exact h.lock x
    | act hrun hcond hapart hperform ih =>
      exact ih.change hrun.inOrder hcond (Action.perform_post (Action.change hapart) hperform)
    | elsewhere _ h ih => exact ih.elsewhere h
  rw [hmatch stash]
  cases ledgerAt s stash <;> rfl

end Locks

/-! ## A ledger that a slash empties -/

def tenBonded : State Bool Nat Nat := acted [.bond true false 10 .staked] unstaked

/-- A slash of 4 is followed by the lock. -/
theorem slashed_stash_locked :
    lockOf threeEras (acted [.doSlash true 4 0 ⟨0⟩] tenBonded) true = [⟨0, 6, .all⟩] := by
  have hstart : Run threeEras (fun s a => a.Keeps threeEras s) unstaked := .start unstaked_start
  have hkeeps : (Action.doSlash true 4 0 ⟨0⟩ : Action Bool Nat Nat).Keeps threeEras tenBonded := by
    rintro l hl - ⟨hle, -⟩
    obtain rfl := Option.some.inj hl
    exact absurd hle (by decide)
  have hrun : Run threeEras (fun s a => a.Keeps threeEras s)
      (acted [.doSlash true 4 0 ⟨0⟩] tenBonded) :=
    .act (.act (a := .bond true false 10 .staked) hstart trivial trivial rfl) hkeeps trivial rfl
  exact (staking_lock_eq_ledger hrun true).trans rfl

/-- A slash of 10 empties the ledger; the lock of 10 stays. -/
theorem emptied_stash_locked :
    Run threeEras (fun _ _ => True) (acted [.doSlash true 10 0 ⟨0⟩] tenBonded) ∧
      (ledgerAt (acted [.doSlash true 10 0 ⟨0⟩] tenBonded) true).map StakingLedger.total = some 0 ∧
      lockOf threeEras (acted [.doSlash true 10 0 ⟨0⟩] tenBonded) true = [⟨0, 10, .all⟩] := by
  have hstart : Run threeEras (fun _ _ => True) unstaked := .start unstaked_start
  refine ⟨?_, rfl, rfl⟩
  exact .act (a := .doSlash true 10 0 ⟨0⟩)
    (.act (a := .bond true false 10 .staked) hstart trivial trivial rfl) trivial trivial rfl

end Substrate.Staking
