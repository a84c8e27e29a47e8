import Substrate.BalancesLocks
import Substrate.ReverseIndex
import Substrate.Staking

/-!
# What the staking calls do to the books

The books of the pallet are the ledgers, the controllers of the stashes, and the staking locks. Each
call has one lemma that says how it changes them.

The store keeps ledgers by controller. `Paired` says that this is one ledger a stash, and
`Change.effect` reads a change as one of the ledgers by stash.
-/

namespace Substrate.Staking

open Exec Function FinMap Option Balances.Config StakingLedger
open Balances (BalanceLock)

variable {A L I : Type} [DecidableEq L] {T : Config L}
  {s s1 s' : State A L I} {stash controller : A} {l l' : StakingLedger A} {Kept : Prop}
  {value n : Nat}

def lockOf (T : Config L) (s : State A L I) (who : A) : List (BalanceLock L) :=
  s.balances.locksWith T.stakingId who

/-- None for a total of zero. -/
def lockFor (T : Config L) (total : Nat) : List (BalanceLock L) :=
  if total = 0 then [] else [⟨T.stakingId, total, .all⟩]

def ledgerAt (s : State A L I) (stash : A) : Option (StakingLedger A) :=
  (s.bonded.get? stash).bind s.ledger.get?

structure Same (T : Config L) (s s' : State A L I) : Prop where
  bonded : s'.bonded = s.bonded
  ledger : s'.ledger = s.ledger
  currentEra : s'.currentEra = s.currentEra
  lock : ∀ who, lockOf T s' who = lockOf T s who

theorem Same.refl (T : Config L) (s : State A L I) : Same T s s := ⟨rfl, rfl, rfl, fun _ => rfl⟩

variable [DecidableEq A]

/-- A lock is left as it is for a total of zero. -/
structure Written (T : Config L) (controller : A) (l : StakingLedger A) (s s' : State A L I) :
    Prop where
  bonded : s'.bonded = s.bonded
  ledger : s'.ledger = s.ledger.insert controller l
  currentEra : s'.currentEra = s.currentEra
  lock : ∀ who, lockOf T s' who =
    if who = l.stash ∧ l.total ≠ 0 then [⟨T.stakingId, l.total, .all⟩] else lockOf T s who

theorem Same.written (h : Same T s s1) (h' : Written T controller l s1 s') :
    Written T controller l s s' where
  bonded := h'.bonded.trans h.bonded
  ledger := by rw [h'.ledger, h.ledger]
  currentEra := h'.currentEra.trans h.currentEra
  lock who := by rw [h'.lock who, h.lock who]

structure Removed (T : Config L) (stash controller : A) (s s' : State A L I) : Prop where
  bonded : s'.bonded = s.bonded.erase stash
  ledger : s'.ledger = s.ledger.erase controller
  currentEra : s'.currentEra = s.currentEra
  lock : ∀ who, lockOf T s' who = if who = stash then [] else lockOf T s who

structure Created (T : Config L) (stash controller : A) (l : StakingLedger A)
    (s s' : State A L I) : Prop where
  stash_eq : l.stash = stash
  total_eq : l.total = l.active
  unlocking : l.unlocking = []
  stash_free : s.bonded.get? stash = none
  controller_free : s.ledger.get? controller = none
  bonded : s'.bonded = s.bonded.insert stash controller
  ledger : s'.ledger = s.ledger.insert controller l
  currentEra : s'.currentEra = s.currentEra
  lock : ∀ who, lockOf T s' who =
    if who = l.stash ∧ l.total ≠ 0 then [⟨T.stakingId, l.total, .all⟩] else lockOf T s who

structure Moved (T : Config L) (stash old new : A) (s s' : State A L I) : Prop where
  old_bonded : s.bonded.get? stash = some old
  new_free : s.ledger.get? new = none
  ne : new ≠ old
  bonded : s'.bonded = s.bonded.insert stash new
  ledger : s'.ledger = match s.ledger.get? old with
    | some l => (s.ledger.erase old).insert new l
    | none => s.ledger
  currentEra : s'.currentEra = s.currentEra
  lock : ∀ who, lockOf T s' who = lockOf T s who

/-- `Kept` is what it takes that no ledger is emptied. -/
inductive Change (T : Config L) (Kept : Prop) (s s' : State A L I) : Prop where
  | same (h : Same T s s')
  | created {stash controller : A} {l} (h : Created T stash controller l s s')
  | edited {controller : A} {l l'} (hl : s.ledger.get? controller = some l)
      (hedit : l.Edit T.currency T.bondingDuration s.currentEra l')
      (hkept : Kept → l.Sound → l'.total = 0 → l.total = 0) (h : Written T controller l' s s')
  | removed {stash controller : A} (hstash : s.bonded.get? stash = some controller)
      (h : Removed T stash controller s s')
  | moved {stash old new : A} (h : Moved T stash old new s s')

theorem Change.bonded {extra : Nat} (hl : s.ledger.get? controller = some l)
    (h : Written T controller { l with total := l.total + extra, active := l.active + extra } s s') :
    Change T Kept s s' :=
  .edited hl (.bond l extra) (fun _ _ => Nat.eq_zero_of_add_eq_zero_right) h

/-! ## Calls of the balances pallet -/

section Currency

omit [DecidableEq A] in
theorem Same.of_locks {b} (h : b.locks = s.balances.locks) : Same T s { s with balances := b } :=
  ⟨rfl, rfl, rfl, fun who => Balances.State.locksWith_congr h T.stakingId who⟩

variable [LinearOrder I]

theorem same_currency {α : Type} {m : Exec (Balances.State A L I) Balances.Error α}
    {f : α → Option Balances.SignedImbalance} {c : Balances.Call A L I}
    (hrun : c.run T.currency = f <$> m) (hc : ¬c.changesLocks) :
    Post (currency m) s (fun _ s' => Same T s s') (fun _ _ => False) := by
  have hlocks := Balances.Call.run_locks (T := T.currency) (s := s.balances) hc
  rw [hrun, post_map] at hlocks
  unfold currency
  rw [post_within]
  exact hlocks.mono (fun _ _ h => .of_locks h) fun _ _ h => .of_locks h

end Currency

/-! ## Writing a ledger -/

theorem post_updateLedger :
    Post (updateLedger T controller l) s (fun _ s' => Written T controller l s s')
      (fun _ _ => False) := by
  unfold updateLedger currency
  rw [post_bind, post_within]
  refine (Balances.post_changeLock fun _ _ => rfl).noErr (fun _ b hb => ?_)
  refine ⟨rfl, rfl, rfl, fun who => ?_⟩
  show b.locksWith T.stakingId who = _
  rw [hb T.stakingId who]
  refine if_congr ?_ (by cases List.find? _ (s.balances.locksOf who) <;> rfl) rfl
  constructor
  · rintro ⟨⟨htotal, -⟩, -, rfl⟩
    exact ⟨rfl, htotal⟩
  · rintro ⟨rfl, htotal⟩
    exact ⟨⟨htotal, rfl⟩, rfl, rfl⟩

variable {R : Error → State A L I → Prop} {payee : RewardDestination A}

section

omit [DecidableEq L] [DecidableEq A]

theorem post_bondedOf {Q : A → State A L I → Prop}
    (hsome : ∀ controller, s.bonded.get? stash = some controller → Q controller s)
    (hnone : R .notStash s) : Post (bondedOf stash) s Q R := by
  unfold bondedOf
  rw [post_bind, post_read, post_okOr]
  exact ⟨hsome, fun _ => hnone⟩

theorem post_ledgerOf {Q : StakingLedger A → State A L I → Prop}
    (hsome : ∀ l, s.ledger.get? controller = some l → Q l s) (hnone : R .notController s) :
    Post (ledgerOf controller) s Q R := by
  unfold ledgerOf
  rw [post_bind, post_read, post_okOr]
  exact ⟨hsome, fun _ => hnone⟩

end

/-! ## Bonding -/

omit [DecidableEq L] in
theorem post_incConsumers : Post (incConsumers stash) s
      (fun _ s' => ∃ account, s' = { s with balances := { s.balances with account := account } })
      (fun _ s' => s' = s) := by
  unfold incConsumers
  rw [post_bind, post_read]
  rcases FrameSystem.incConsumers s.balances.account stash with ⟨r, account⟩
  cases r with
  | error e => exact rfl
  | ok u => exact ⟨account, rfl⟩

theorem post_bond : Post (bond T stash controller value payee) s
      (fun _ s' => Change T Kept s s') (fun _ s' => s' = s) := by
  unfold bond
  simp only [post_bind, post_read, post_ensure]
  refine ⟨fun hstash => ⟨fun hctrl => ⟨fun _ => ?_, fun _ => trivial⟩, fun _ => trivial⟩,
    fun _ => trivial⟩
  refine post_incConsumers.imp ?_
  rintro _ _ ⟨account, rfl⟩
  rw [post_modify]
  refine post_updateLedger.noErr (fun _ s' hs' => ?_)
  refine .created ⟨rfl, rfl, rfl, ?_, ?_, hs'.bonded, hs'.ledger, hs'.currentEra, hs'.lock⟩
  · exact contains_eq_false.mp hstash
  · exact contains_eq_false.mp hctrl

theorem post_bondExtra {maxAdditional : Nat} : Post (bondExtra T stash maxAdditional) s
      (fun _ s' => Change T Kept s s') (fun _ s' => s' = s) := by
  unfold bondExtra
  rw [post_bind]
  refine post_bondedOf (fun controller _ => ?_) rfl
  rw [post_bind]
  refine post_ledgerOf (fun l hl => ?_) rfl
  rw [post_bind, post_read]
  split
  · exact .same (.refl T s)
  simp only [post_bind, post_unwrap, post_ensure]
  intro total htotal active hactive
  refine ⟨fun _ => ?_, fun _ => trivial⟩
  obtain ⟨-, rfl⟩ := checkedAdd_eq_some.mp htotal
  obtain ⟨-, rfl⟩ := checkedAdd_eq_some.mp hactive
  exact post_updateLedger.noErr (fun _ s' hs' => .bonded hl hs')

omit [DecidableEq L] [DecidableEq A] in
theorem unbondValue_spec (hpos : 0 < value) (hle : value ≤ l.active) :
    0 < unbondValue T l value ∧ unbondValue T l value ≤ l.active := by
  unfold unbondValue
  split
  · exact ⟨by omega, Nat.le_refl _⟩
  · exact ⟨hpos, hle⟩

theorem post_unbond : Post (unbond T controller value) s
      (fun _ s' => s' = s ∨ ∃ l v, s.ledger.get? controller = some l ∧ 0 < v ∧ v ≤ l.active ∧
        l.unlocking.length < maxUnlockingChunks ∧
        Written T controller { l with
            active := l.active - v
            unlocking := l.unlocking ++ [⟨v, s.currentEra.getD 0 + T.bondingDuration⟩] } s s')
      (fun _ s' => s' = s) := by
  unfold unbond
  rw [post_bind]
  refine post_ledgerOf (fun l hl => ?_) rfl
  rw [post_bind, post_ensure]
  refine ⟨fun hlength => ?_, fun _ => rfl⟩
  dsimp only
  split
  · exact .inl rfl
  rename_i hzero
  obtain ⟨hpos, hle⟩ :=
    unbondValue_spec (T := T) (Nat.pos_of_ne_zero hzero) (Nat.min_le_right _ _)
  simp only [post_bind, post_read, post_ensure, post_unwrap]
  refine ⟨fun _ era hera => ?_, fun _ => trivial⟩
  have hera' : s.currentEra.getD 0 + T.bondingDuration = era := by
    split at hera
    · exact Option.some.inj hera
    · cases hera
  subst hera'
  exact post_updateLedger.mono
    (fun _ s' hs' => .inr ⟨l, _, hl, hpos, hle, hlength, hs'⟩) fun _ _ he => he.elim

theorem post_rebond : Post (rebond T controller value) s
      (fun _ s' => ∃ l l', s.ledger.get? controller = some l ∧
        l.rebond T.currency value = some l' ∧ Written T controller l' s s')
      (fun _ s' => s' = s) := by
  unfold rebond
  rw [post_bind]
  refine post_ledgerOf (fun l hl => ?_) rfl
  simp only [post_bind, post_ensure, post_unwrap]
  refine ⟨fun _ l' hl' => ⟨fun _ => ?_, fun _ => trivial⟩, fun _ => trivial⟩
  exact post_updateLedger.noErr (fun _ s' hs' => ⟨l, l', hl, hl', hs'⟩)

/-! ## Leaving -/

omit [DecidableEq L] in
theorem post_clearStashMetadata : Post (clearStashMetadata stash n) s (fun _ s' => ∃ spans records,
        s' = { s with slashingSpans := spans, spanSlash := records })
      (fun _ s' => s' = s) := by
  unfold clearStashMetadata
  rw [post_bind, post_read]
  split
  · exact ⟨s.slashingSpans, s.spanSlash, rfl⟩
  · simp only [post_bind, post_unwrap, post_ensure, post_modify]
    exact fun _ _ => ⟨fun _ => ⟨_, _, rfl⟩, fun _ => trivial⟩

theorem post_killStashAndLock : Post (killStashAndLock T stash n) s
      (fun _ s' => ∃ controller, s.bonded.get? stash = some controller ∧
        Removed T stash controller s s')
      (fun _ s' => s' = s) := by
  unfold killStashAndLock killStash currency
  simp only [post_bind]
  refine post_bondedOf (fun controller hcontroller => ?_) rfl
  refine post_clearStashMetadata.imp ?_
  rintro _ _ ⟨spans, records, rfl⟩
  rw [post_modify, post_within]
  refine Balances.post_removeLock.noErr (fun _ b hb => ?_)
  refine ⟨controller, hcontroller, rfl, rfl, rfl, fun who => ?_⟩
  show b.locksWith T.stakingId who = _
  rw [hb T.stakingId who]
  exact if_congr (and_iff_right rfl) rfl rfl

/-- The ledger that `withdraw_unbonded` goes on with. -/
def consolidatedNow (era : Option Nat) (l : StakingLedger A) : StakingLedger A :=
  match era with
  | some n => l.consolidateUnlocked n
  | none => l

section Consolidating

omit [DecidableEq A] [DecidableEq L]

theorem consolidatedNow_frame (era : Option Nat) (l : StakingLedger A) :
    (consolidatedNow era l).stash = l.stash ∧ (consolidatedNow era l).active = l.active := by
  unfold consolidatedNow
  split
  · exact ⟨rfl, rfl⟩
  · exact ⟨rfl, rfl⟩

theorem StakingLedger.Edit.consolidatedNow (era : Option Nat) (l : StakingLedger A) :
    l.Edit T.currency T.bondingDuration era (consolidatedNow era l) := by
  unfold Staking.consolidatedNow
  split
  · exact .consolidate l rfl
  · exact .keep l

theorem StakingLedger.Sound.consolidatedNow (h : l.Sound) (era : Option Nat) :
    (consolidatedNow era l).total + era.elim 0 l.due = l.total ∧
      ∀ bondingDuration e, (∀ now, era = some now → now < e + bondingDuration) →
        (consolidatedNow era l).unbondedAt bondingDuration e = l.unbondedAt bondingDuration e := by
  cases era with
  | none => exact ⟨rfl, fun _ _ _ => rfl⟩
  | some n =>
    refine ⟨total_consolidateUnlocked h n, fun _ e he => ?_⟩
    exact l.unbondedAt_consolidateUnlocked (he n rfl)

theorem StakingLedger.Sound.consolidatedNow_sound (h : l.Sound) (era : Option Nat) :
    (Staking.consolidatedNow era l).Sound := by
  cases era with
  | none => exact h
  | some n => exact h.consolidateUnlocked n

theorem StakingLedger.Sound.consolidatedNow_pos (h : l.Sound) {era} {existentialDeposit : Nat}
    (hstays : ¬((Staking.consolidatedNow era l).unlocking = [] ∧ l.active < existentialDeposit))
    (hkeeps : existentialDeposit = 0 → 0 < l.total → era.elim 0 l.due < l.total)
    (hzero : (Staking.consolidatedNow era l).total = 0) : l.total = 0 := by
  have hsum := (h.consolidatedNow_sound era).total_eq
  have hdue := (h.consolidatedNow era).1
  rw [(consolidatedNow_frame era l).2] at hsum
  by_cases hed : existentialDeposit = 0
  · omega
  · refine absurd ⟨?_, by omega⟩ hstays
    exact eq_nil_of_valueSum (h.consolidatedNow_sound era).positive (by omega)

end Consolidating

theorem post_withdrawUnbonded : Post (withdrawUnbonded T controller n) s
      (fun _ s' => ∃ l, s.ledger.get? controller = some l ∧
        if (consolidatedNow s.currentEra l).unlocking = [] ∧
            l.active < T.currency.existentialDeposit then
          ∃ c, s.bonded.get? l.stash = some c ∧ Removed T l.stash c s s'
        else Written T controller (consolidatedNow s.currentEra l) s s')
      (fun _ s' => s' = s) := by
  have hframe := consolidatedNow_frame (A := A) s.currentEra
  unfold withdrawUnbonded
  rw [post_bind]
  refine post_ledgerOf (fun l hl => ?_) rfl
  rw [post_bind]
  change Post (if (consolidatedNow s.currentEra l).unlocking = [] ∧
      (consolidatedNow s.currentEra l).active < T.currency.existentialDeposit then
    killStashAndLock T (consolidatedNow s.currentEra l).stash n
    else updateLedger T controller (consolidatedNow s.currentEra l)) s _ _
  rw [(hframe l).1, (hframe l).2]
  split
  · rename_i hgone
    refine post_killStashAndLock.imp (fun _ s' hs' => ⟨l, hl, ?_⟩)
    rw [if_pos hgone]
    exact hs'
  rename_i hstays
  refine post_updateLedger.noErr (fun _ s' hs' => ⟨l, hl, ?_⟩)
  rw [if_neg hstays]
  exact hs'

theorem post_reapStash : Post (reapStash T stash n) s
      (fun _ s' => Change T Kept s s') (fun _ s' => s' = s) := by
  unfold reapStash
  rw [post_bind, post_read, post_bind, post_ensure]
  refine ⟨fun _ => post_killStashAndLock.imp ?_, fun _ => rfl⟩
  rintro _ s' ⟨controller, hstash, h⟩
  exact .removed hstash h

theorem post_setController : Post (setController stash controller) s
      (fun _ s' => Change T Kept s s') (fun _ s' => s' = s) := by
  unfold setController
  rw [post_bind]
  refine post_bondedOf (fun old hold => ?_) rfl
  rw [post_bind, post_read, post_bind, post_ensure]
  refine ⟨fun hfree => ?_, fun _ => rfl⟩
  split
  · exact .same (.refl T s)
  · rename_i hne
    refine .moved ⟨hold, ?_, hne, rfl, rfl, rfl, fun _ => rfl⟩
    exact contains_eq_false.mp hfree

theorem post_setPayee :
    Post (setPayee controller payee) s (fun _ s' => Change T Kept s s') (fun _ s' => s' = s) := by
  unfold setPayee
  rw [post_bind]
  refine post_ledgerOf (fun l _ => ?_) rfl
  exact .same ⟨rfl, rfl, rfl, fun _ => rfl⟩

/-! ## Slashes and payouts -/

section Payouts

variable [LinearOrder I] {amount : Nat}

theorem post_doSlash {rewardPayout : Nat} {slashedImbalance : Balances.NegativeImbalance} :
    Post (doSlash T stash value rewardPayout slashedImbalance) s
      (fun _ s' => Change T (∀ l, ledgerAt s stash = some l → 0 < l.total →
        ¬l.EmptiedBy value T.currency.existentialDeposit) s s')
      (fun _ _ => False) := by
  unfold doSlash
  rw [post_bind, post_read, post_bind, post_read]
  split
  · rename_i controller l hcontroller hl
    rw [hcontroller] at hl
    dsimp only
    split
    · exact .same (.refl T s)
    rw [post_bind]
    refine (same_currency (c := .slash stash _) rfl id).mono (fun r s1 hs1 => ?_) fun _ _ he => he
    rw [post_bind]
    refine post_updateLedger.imp (fun _ s' hs' => ?_)
    refine .edited hl (.slash l value) (fun hkeeps hsound hzero => ?_) (hs1.written hs')
    exact hsound.slash_pos (hkeeps l (by rw [ledgerAt, hcontroller, hl])) hzero
  · exact .same (.refl T s)

theorem post_payStaked : Post (payStaked T stash amount) s
      (fun _ s' => Change T Kept s s') (fun _ _ => False) := by
  unfold payStaked
  rw [post_bind, post_read, post_bind, post_read]
  split
  · rename_i controller l hcontroller hl
    rw [hcontroller] at hl
    simp only [post_bind, post_unwrap]
    intro active hactive total htotal
    obtain ⟨-, rfl⟩ := checkedAdd_eq_some.mp hactive
    obtain ⟨-, rfl⟩ := checkedAdd_eq_some.mp htotal
    refine (same_currency (c := .depositIntoExisting stash amount) rfl id).mono
      (fun r s1 hs1 => ?_) fun _ _ he => he
    exact post_updateLedger.imp (fun _ s' hs' => .bonded hl (hs1.written hs'))
  · exact .same (.refl T s)

theorem post_makePayout : Post (makePayout T stash amount) s
      (fun _ s' => Change T Kept s s') (fun _ _ => False) := by
  have hcreating : ∀ dest : A, Post (currency (Balances.depositCreating T.currency dest amount)) s
      (fun _ s' => Same T s s') (fun _ _ => False) := fun dest =>
    same_currency (c := .depositCreating dest amount) rfl id
  unfold makePayout
  rw [post_bind, post_read]
  split
  · rw [post_bind, post_read]
    split
    · exact .same (.refl T s)
    · rw [post_bind]
      exact (hcreating _).imp (fun _ _ h => .same h)
  · rw [post_bind]
    exact (same_currency (c := .depositIntoExisting stash amount) rfl id).mono
      (fun _ _ h => .same h) fun _ _ he => he
  · exact post_payStaked
  · rw [post_bind]
    exact (hcreating _).imp (fun _ _ h => .same h)
  · exact .same (.refl T s)

end Payouts

/-! ## Ledgers by stash -/

/-- One ledger a stash, under its controller. -/
structure Paired (s : State A L I) : Prop where
  ledger_bonded : ∀ {c l}, s.ledger.get? c = some l → s.bonded.get? l.stash = some c
  bonded_ledger : ∀ {x c}, s.bonded.get? x = some c → ∃ l, s.ledger.get? c = some l ∧ l.stash = x

inductive Effect (T : Config L) (Kept : Prop) (s s' : State A L I) : Prop where
  | same (hbook : ∀ x, ledgerAt s' x = ledgerAt s x) (hlock : ∀ x, lockOf T s' x = lockOf T s x)
  | written {l' : StakingLedger A}
      (hfrom : (ledgerAt s l'.stash = none ∧ l'.total = l'.active ∧ l'.unlocking = []) ∨
        ∃ l, ledgerAt s l'.stash = some l ∧ l.Edit T.currency T.bondingDuration s.currentEra l' ∧
          (Kept → l.Sound → l'.total = 0 → l.total = 0))
      (hbook : ∀ x, ledgerAt s' x = if x = l'.stash then some l' else ledgerAt s x)
      (hlock : ∀ x, lockOf T s' x =
        if x = l'.stash ∧ l'.total ≠ 0 then [⟨T.stakingId, l'.total, .all⟩] else lockOf T s x)
  | removed {stash : A} (hbook : ∀ x, ledgerAt s' x = if x = stash then none else ledgerAt s x)
      (hlock : ∀ x, lockOf T s' x = if x = stash then [] else lockOf T s x)

section Pairing

omit [DecidableEq A] [DecidableEq L]

variable {x : A}

theorem ledgerAt_eq {c : A} (h : s.bonded.get? x = some c) : ledgerAt s x = s.ledger.get? c := by
  unfold ledgerAt
  rw [h]
  rfl

theorem ledgerAt_eq_none (h : s.bonded.get? x = none) : ledgerAt s x = none := by
  unfold ledgerAt
  rw [h]
  rfl

theorem Paired.ledgerAt_eq_some (h : Paired s) :
    ledgerAt s x = some l ↔ ∃ c, s.ledger.get? c = some l ∧ l.stash = x := by
  constructor
  · intro hx
    obtain ⟨c, hc, hl⟩ := bind_eq_some_iff.mp hx
    obtain ⟨m, hm, hstash⟩ := h.bonded_ledger hc
    rw [hl] at hm
    obtain rfl := Option.some.inj hm
    exact ⟨c, hl, hstash⟩
  · rintro ⟨c, hl, rfl⟩
    rw [ledgerAt_eq (h.ledger_bonded hl), hl]

theorem Paired.controller_ne (h : Paired s) {y c d : A} (hx : s.bonded.get? x = some c)
    (hy : s.bonded.get? y = some d) (hne : x ≠ y) : c ≠ d := by
  rintro rfl
  obtain ⟨l, hl, rfl⟩ := h.bonded_ledger hx
  obtain ⟨m, hm, rfl⟩ := h.bonded_ledger hy
  rw [hl] at hm
  exact hne (congrArg stash (Option.some.inj hm))

theorem Paired.ne_of_free (h : Paired s) {c d : A} (hx : s.bonded.get? x = some c)
    (hfree : s.ledger.get? d = none) : c ≠ d := by
  rintro rfl
  obtain ⟨l, hl, -⟩ := h.bonded_ledger hx
  rw [hfree] at hl
  cases hl

theorem ledgerAt_congr (hb : s'.bonded.get? x = s.bonded.get? x)
    (hl : ∀ c, s.bonded.get? x = some c → s'.ledger.get? c = s.ledger.get? c) :
    ledgerAt s' x = ledgerAt s x := by
  unfold ledgerAt
  rw [hb]
  cases hc : s.bonded.get? x with
  | none => rfl
  | some c => exact hl c hc

theorem paired_iff :
    Paired s ↔ Inverts s.bonded.get? (Option.map StakingLedger.stash ∘ s.ledger.get?) := by
  refine ⟨fun h x c => ⟨fun hb => map_eq_some_iff.mpr (h.bonded_ledger hb), fun hc => ?_⟩,
    fun h => ⟨fun hl => (h _ _).mpr (map_eq_some_iff.mpr ⟨_, hl, rfl⟩),
      fun hb => map_eq_some_iff.mp ((h _ _).mp hb)⟩⟩
  obtain ⟨l, hl, rfl⟩ := map_eq_some_iff.mp hc
  exact h.ledger_bonded hl

end Pairing

omit [DecidableEq A] in
theorem Same.paired (h : Same T s s') (hp : Paired s) : Paired s' := by
  rw [paired_iff, h.bonded, h.ledger]
  exact paired_iff.mp hp

theorem Created.paired (h : Created T stash controller l s s') (hp : Paired s) : Paired s' := by
  rw [paired_iff, h.bonded, h.ledger, get?_insert, get?_insert, comp_update, map_some, h.stash_eq]
  refine (paired_iff.mp hp).place h.stash_free ?_
  rw [comp_apply, h.controller_free, map_none]

theorem Written.paired (h : Written T controller l' s s') (hp : Paired s)
    (hl : s.ledger.get? controller = some l) (hstash : l'.stash = l.stash) : Paired s' := by
  rw [paired_iff, h.bonded, h.ledger, get?_insert, comp_update, map_some, hstash,
    update_eq_self_iff.mpr (by rw [comp_apply, hl, map_some])]
  exact paired_iff.mp hp

theorem Removed.paired (h : Removed T stash controller s s') (hp : Paired s)
    (hstash : s.bonded.get? stash = some controller) : Paired s' := by
  rw [paired_iff, h.bonded, h.ledger, get?_erase, get?_erase, comp_update]
  exact (paired_iff.mp hp).remove ((paired_iff.mp hp _ _).mp hstash)

theorem Moved.ledger_eq {old new : A} (h : Moved T stash old new s s') (hp : Paired s) :
    ∃ l, s.ledger.get? old = some l ∧ l.stash = stash ∧
      s'.ledger = (s.ledger.erase old).insert new l := by
  obtain ⟨l, hl, hstash⟩ := hp.bonded_ledger h.old_bonded
  refine ⟨l, hl, hstash, ?_⟩
  rw [h.ledger, hl]

theorem Moved.paired {old new : A} (h : Moved T stash old new s s') (hp : Paired s) :
    Paired s' := by
  obtain ⟨l, hl, hstash, hledger⟩ := h.ledger_eq hp
  rw [paired_iff, h.bonded, hledger, get?_insert, get?_insert, get?_erase, comp_update,
    comp_update, map_some, hstash]
  refine (paired_iff.mp hp).move ((paired_iff.mp hp _ _).mp h.old_bonded) ?_
  rw [comp_apply, h.new_free, map_none]

section

variable (h : Change T Kept s s')
include h

theorem Change.paired (hp : Paired s) : Paired s' := by
  cases h with
  | same h | created h => exact h.paired hp
  | edited hl hedit _ h => exact h.paired hp hl hedit.stash_eq
  | removed hstash h => exact h.paired hp hstash
  | moved h => exact h.paired hp

theorem Change.currentEra : s'.currentEra = s.currentEra := by
  cases h with
  | same h | created h | edited _ _ _ h | removed _ h | moved h => exact h.currentEra

/-- **The books as ledgers by stash.** -/
theorem Change.effect (hp : Paired s) : Effect T Kept s s' := by
  cases h with
  | same h =>
    refine .same (fun x => ?_) h.lock
    unfold ledgerAt
    rw [h.bonded, h.ledger]
  | @created stash controller l h =>
    refine .written (.inl ⟨?_, h.total_eq, h.unlocking⟩) (fun x => ?_) h.lock
    · rw [h.stash_eq]
      exact ledgerAt_eq_none h.stash_free
    rw [h.stash_eq]
    split
    · rename_i hx
      rw [ledgerAt, h.bonded, h.ledger, get?_insert, hx, update_self, bind_some, get?_insert,
        update_self]
    rename_i hx
    refine ledgerAt_congr (by rw [h.bonded, get?_insert, update_of_ne hx]) fun c hc => ?_
    rw [h.ledger, get?_insert, update_of_ne (hp.ne_of_free hc h.controller_free)]
  | @edited controller l l' hl hedit hkept h =>
    have hb := hp.ledger_bonded hl
    rw [← hedit.stash_eq] at hb
    refine .written (.inr ⟨l, ?_, hedit, hkept⟩) (fun x => ?_) h.lock
    · rw [ledgerAt_eq hb, hl]
    split
    · rename_i hx
      rw [ledgerAt, h.bonded, h.ledger, get?_insert, hx, hb, bind_some, update_self]
    rename_i hx
    refine ledgerAt_congr (by rw [h.bonded]) fun c hc => ?_
    rw [h.ledger, get?_insert, update_of_ne (hp.controller_ne hc hb hx)]
  | @removed stash controller hstash h =>
    refine .removed (fun x => ?_) h.lock
    split
    · rename_i hx
      rw [ledgerAt, h.bonded, get?_erase, hx, update_self, bind_none]
    rename_i hx
    refine ledgerAt_congr (by rw [h.bonded, get?_erase, update_of_ne hx]) fun c hc => ?_
    rw [h.ledger, get?_erase, update_of_ne (hp.controller_ne hc hstash hx)]
  | @moved stash old new h =>
    obtain ⟨l, hl, -, hledger⟩ := h.ledger_eq hp
    refine .same (fun x => ?_) h.lock
    by_cases hx : x = stash
    · rw [ledgerAt, h.bonded, hledger, get?_insert, get?_insert, hx, update_self, bind_some,
        update_self, ledgerAt_eq h.old_bonded, hl]
    refine ledgerAt_congr (by rw [h.bonded, get?_insert, update_of_ne hx]) fun c hc => ?_
    rw [hledger, get?_insert, get?_erase, update_of_ne (hp.ne_of_free hc h.new_free),
      update_of_ne (hp.controller_ne hc h.old_bonded hx)]

end

end Substrate.Staking
