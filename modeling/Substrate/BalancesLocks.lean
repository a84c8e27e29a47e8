import Substrate.BalancesProviders

/-!
# Locks in force

The frozen amounts of an account are a cache of its locks: the largest amount of those that restrict
fees, and of those that restrict anything else. The cache goes with the record of the account, while
the list of locks stays, and it is filled when locks change and only if there is a record then.
-/

namespace Substrate.Balances

open Function Exec State Nat Balances.Action Option List Call FinMap

variable {A L I : Type} [DecidableEq A] {T : Config}

/-! ## The invariant -/

def NoDust (T : Config) (s : State A L I) : Prop :=
  ∀ who, s.data who ≠ default → T.existentialDeposit ≤ (s.data who).total T

def InForce (s : State A L I) : Prop :=
  ∀ who, (s.data who).miscFrozen = maxLocked .misc (s.locksOf who) ∧
    (s.data who).feeFrozen = maxLocked .fee (s.locksOf who)

section Moves

variable {Below : A → Prop} {Lock : Prop} {s s' : State A L I}

theorem NoDust.move (h : NoDust T s) (hmove : Move T Below Lock s s') : NoDust T s' := by
  intro j
  cases hmove with
  | issuance n | dust l | reserves m => exact h j
  | store who a hed _ =>
    by_cases hj : j = who
    · subst hj
      rw [store_data]
      exact fun _ => hed
    · rw [store_data_of_ne s who a hj]
      exact h j
  | discard who _ hp hcan =>
    by_cases hj : j = who
    · subst hj
      exact fun hne => absurd (discard_info hp hcan).2.2 hne
    · rw [discard_data_of_ne s who hj]
      exact h j
  | lock who locks _ =>
    by_cases hj : j = who
    · subst hj
      rw [setLocks_data]
      exact h j
    · rw [data_eq_of_get? (s.setLocks_get?_of_ne who locks hj)]
      exact h j

theorem NoDust.moves (h : NoDust T s) (hmoves : Relation.ReflTransGen (Move T Below Lock) s s') :
    NoDust T s' := by
  induction hmoves with
  | refl => exact h
  | tail _ hmove ih => exact ih.move hmove

omit [DecidableEq A] in
theorem State.locksOf_congr (h : s'.locks = s.locks) (who : A) : s'.locksOf who = s.locksOf who := by
  unfold locksOf
  rw [h]

theorem Move.locks_eq (hlock : ¬Lock) (hmove : Move T Below Lock s s') : s'.locks = s.locks := by
  cases hmove with
  | issuance n | dust l | reserves m | store who a _ _ => rfl
  | discard who _ _ _ => exact s.discard_locks who
  | lock who locks hyes => exact absurd hyes hlock

theorem moves_locks_eq (hlock : ¬Lock)
    (hmoves : Relation.ReflTransGen (Move T Below Lock) s s') : s'.locks = s.locks := by
  induction hmoves with
  | refl => rfl
  | tail _ hmove ih => exact (hmove.locks_eq hlock).trans ih

section

variable (h : InForce s) (hlock : ¬Lock) (hbelow : ∀ who, Below who → s.locksOf who = [])
include h hlock hbelow

theorem InForce.move (hmove : Move T Below Lock s s') : InForce s' := by
  intro j
  cases hmove with
  | issuance n | dust l | reserves m => exact h j
  | store who a _ hfrozen =>
    rw [locksOf_congr (s.store_locks who a)]
    by_cases hj : j = who
    · subst hj
      rw [store_data, (hfrozen hlock).1, (hfrozen hlock).2]
      exact h j
    · rw [store_data_of_ne s who a hj]
      exact h j
  | discard who hb hp hcan =>
    rw [locksOf_congr (s.discard_locks who)]
    by_cases hj : j = who
    · subst hj
      rw [(discard_info hp hcan).2.2, hbelow j hb]
      exact ⟨rfl, rfl⟩
    · rw [discard_data_of_ne s who hj]
      exact h j
  | lock who locks hyes => exact absurd hyes hlock

theorem InForce.moves (hmoves : Relation.ReflTransGen (Move T Below Lock) s s') : InForce s' := by
  induction hmoves with
  | refl => exact h
  | tail hmoves hmove ih =>
    refine ih.move hlock (fun who hb => ?_) hmove
    rw [locksOf_congr (moves_locks_eq hlock hmoves)]
    exact hbelow who hb

end

end Moves

/-! ## Changing locks -/

variable {reasons : WithdrawReasons} {r : Reasons} {l : BalanceLock L}

section ChangingLocks

variable {s : State A L I} {who : A} {locks : List (BalanceLock L)}

theorem maxLocked_le {n : Nat} (h : ∀ l ∈ locks, l.covers r = true → l.amount ≤ n) :
    maxLocked r locks ≤ n := by
  induction locks with
  | nil => exact zero_le _
  | cons l ls ih =>
    have hls := ih fun m hm => h m (mem_cons_of_mem _ hm)
    rw [maxLocked_cons]
    split
    · rename_i hcovers
      have := h l mem_cons_self (decide_eq_true hcovers)
      omega
    · exact hls

theorem State.locksOf_setLocks (s : State A L I) (who : A) (locks : List (BalanceLock L)) (j : A) :
    (s.setLocks who locks).locksOf j = if j = who then locks else s.locksOf j := by
  unfold setLocks locksOf
  by_cases hj : j = who
  · subst hj
    rw [if_pos rfl]
    split
    · rename_i hempty
      simp only [get?_erase, update_self, getD_none]
      exact (isEmpty_iff.mp hempty).symm
    · simp
  rw [if_neg hj]
  split
  · simp [update_of_ne hj]
  · simp [update_of_ne hj]

theorem post_freeze (hcase : T.existentialDeposit ≤ (s.data who).total T ∨
      (s.data who = default ∧ maxLocked .misc locks = 0 ∧ maxLocked .fee locks = 0)) :
    Post (mutateAccount T who fun b => pure (freeze b locks, ())) s
      (fun _ s' => s'.locks = s.locks ∧ (∀ j, j ≠ who → s'.data j = s.data j) ∧
        (s'.data who).miscFrozen = maxLocked .misc locks ∧
        (s'.data who).feeFrozen = maxLocked .fee locks)
      (fun _ _ => False) := by
  unfold mutateAccount tryMutateAccount
  rw [post_bind]
  refine post_tryMutateAccountWithDust ?_
  rw [post_pure, freeze_eq]
  refine ⟨rfl, fun _ => ?_, fun hlt _ => ?_, fun hlt hp _ => ?_⟩
  · refine ⟨rfl, fun j hj => store_data_of_ne s who _ hj, ?_⟩
    change ((s.store who _).data who).miscFrozen = _ ∧ ((s.store who _).data who).feeFrozen = _
    rw [store_data]
    exact ⟨rfl, rfl⟩
  · obtain ⟨hdefault, hmisc, hfee⟩ := hcase.resolve_left (not_le.mpr hlt)
    have hsame : s.discard who = s := by
      rw [State.discard, State.providing_eq_false.mpr hdefault]
      rfl
    rw [hsame]
    refine ⟨rfl, fun _ _ => rfl, ?_⟩
    change (s.data who).miscFrozen = _ ∧ (s.data who).feeFrozen = _
    rw [hdefault, hmisc, hfee]
    exact ⟨rfl, rfl⟩
  · obtain ⟨hdefault, -⟩ := hcase.resolve_left (not_le.mpr hlt)
    exact providing_iff.mp hp hdefault

theorem InForce.updateLocks (h : InForce s) (hcase : T.existentialDeposit ≤ (s.data who).total T ∨
      (s.data who = default ∧ maxLocked .misc locks = 0 ∧ maxLocked .fee locks = 0)) :
    Post (updateLocks T who locks) s (fun _ s' => InForce s') (fun _ _ => False) := by
  unfold Balances.updateLocks
  rw [post_bind, post_attempt]
  refine (post_freeze hcase).noErr ?_
  rintro _ s' ⟨hlocks, hothers, hmisc, hfee⟩
  rw [post_modify]
  intro j
  rw [locksOf_setLocks]
  by_cases hj : j = who
  · subst hj
    rw [if_pos rfl, setLocks_data]
    exact ⟨hmisc, hfee⟩
  · rw [if_neg hj, data_eq_of_get? (s'.setLocks_get?_of_ne who locks hj), hothers j hj,
      locksOf_congr hlocks]
    exact h j

variable [DecidableEq L]

theorem InForce.changeLock {f : BalanceLock L → BalanceLock L → BalanceLock L} {id : L}
    {amount : Nat} (h : InForce s) (hcase : amount = 0 ∨ reasons.isEmpty = true ∨
      T.existentialDeposit ≤ (s.data who).total T) :
    Post (changeLock T f id who amount reasons) s (fun _ s' => InForce s') (fun _ _ => False) := by
  unfold Balances.changeLock
  split
  · exact h
  rename_i heffective
  rw [post_bind]
  refine h.updateLocks (.inl ?_)
  rcases hcase with hzero | hempty | hed
  · exact absurd (.inl hzero) heffective
  · exact absurd (.inr hempty) heffective
  · exact hed

theorem InForce.removeLock {id : L} (h : InForce s) (hdust : NoDust T s) :
    Post (removeLock T id who) s (fun _ s' => InForce s') (fun _ _ => False) := by
  unfold Balances.removeLock
  rw [post_bind]
  refine h.updateLocks ?_
  by_cases hdefault : s.data who = default
  · -- the record has nothing frozen, so no lock is effective
    have hle : ∀ r, maxLocked r ((s.locksOf who).filter fun l => l.id ≠ id) ≤
        maxLocked r (s.locksOf who) := fun r =>
      maxLocked_le fun l hl hcovers => le_maxLocked (mem_of_mem_filter hl) hcovers
    have hforce := h who
    rw [hdefault] at hforce
    have hmisc : maxLocked .misc (s.locksOf who) = 0 := hforce.1.symm
    have hfee : maxLocked .fee (s.locksOf who) = 0 := hforce.2.symm
    refine .inr ⟨hdefault, ?_, ?_⟩
    · exact le_zero.mp (hmisc ▸ hle .misc)
    · exact le_zero.mp (hfee ▸ hle .fee)
  · exact .inl (hdust who hdefault)

end ChangingLocks

/-! ## Withdrawals -/

section Withdrawals

variable {s s' : State A L I} {who : A} {r : Reasons}

def BalanceLock.restricts (l : BalanceLock L) : Reasons → Prop
  | .all => True
  | .misc => l.reasons = .all ∨ l.reasons = .misc
  | .fee => l.reasons = .all ∨ l.reasons = .fee

omit [DecidableEq A] in
theorem InForce.amount_le_frozen (h : InForce s) (hl : l ∈ s.locksOf who) (hr : l.restricts r) :
    l.amount ≤ (s.data who).frozen r := by
  have hmisc : l.reasons = .all ∨ l.reasons = .misc → l.amount ≤ (s.data who).miscFrozen :=
    fun hc => by
      rw [(h who).1]
      exact le_maxLocked hl (decide_eq_true hc)
  have hfee : l.reasons = .all ∨ l.reasons = .fee → l.amount ≤ (s.data who).feeFrozen :=
    fun hc => by
      rw [(h who).2]
      exact le_maxLocked hl (decide_eq_true hc)
  cases r with
  | misc => exact hmisc hr
  | fee => exact hfee hr
  | all =>
    cases hreasons : l.reasons with
    | fee => exact le_trans (hfee (.inr hreasons)) (le_max_right _ _)
    | misc => exact le_trans (hmisc (.inr hreasons)) (le_max_left _ _)
    | all => exact le_trans (hmisc (.inl hreasons)) (le_max_left _ _)

/-- A withdrawal leaves what is frozen, or no record. -/
def Spared (r : Reasons) (who : A) (s s' : State A L I) : Prop :=
  (s'.data who).free < (s.data who).free →
    (s.data who).frozen r ≤ (s'.data who).free ∨ s'.data who = default

omit [DecidableEq A] in
theorem Spared.refl (r : Reasons) (who : A) (s : State A L I) : Spared r who s s :=
  fun hlt => absurd hlt (lt_irrefl _)

theorem spared_withDust {R : Type} [Drop T (State A L I) R] [LawfulDrop T A L I R]
    {C : R → Prop} {f : AccountData → Bool → Exec (State A L I) Error (AccountData × R)}
    (h : Post (f (s.data who) (!s.providing who)) s
      (fun p s' => s' = s ∧ (s.data who).frozen r ≤ p.1.free ∧ C p.2) (fun _ s' => s' = s)) :
    Post (tryMutateAccountWithDust T who f) s
      (fun q s' => Spared r who s s' ∧ (∀ j, j ≠ who → s'.account.get? j = s.account.get? j) ∧
        C q.1) (fun _ s' => Spared r who s s') := by
  refine post_tryMutateAccountWithDust (h.mono ?_ ?_)
  · rintro ⟨a, x⟩ s' ⟨rfl, hfrozen, hC⟩
    refine ⟨rfl, fun _ => ⟨fun _ => .inl ?_, fun j hj => s'.store_get?_of_ne who a hj, hC⟩,
      fun _ hcan => ⟨fun _ => .inr (discard_data hcan),
        fun j hj => s'.discard_get?_of_ne who hj, hC⟩, fun _ _ _ => ?_⟩
    · rw [store_data]
      exact hfrozen
    · obtain ⟨n, dust, hdrop, -⟩ := LawfulDrop.drop_eq (T := T) (dustOf T a, x) s'
      rw [hdrop]
      exact fun hlt => absurd hlt (lt_irrefl _)
  · rintro _ s' rfl
    exact Spared.refl _ _ s'

theorem spared_tryMutateAccount {R : Type} [Drop T (State A L I) R] [LawfulDrop T A L I R]
    {f : AccountData → Bool → Exec (State A L I) Error (AccountData × R)}
    (h : Post (f (s.data who) (!s.providing who)) s
      (fun p s' => s' = s ∧ (s.data who).frozen r ≤ p.1.free ∧ True) (fun _ s' => s' = s)) :
    Post (tryMutateAccount T who f) s (fun _ s' => Spared r who s s')
      (fun _ s' => Spared r who s s') := by
  unfold tryMutateAccount
  rw [post_bind]
  exact (spared_withDust (C := fun _ => True) h).imp (fun _ _ hq => hq.1)

variable {value : Nat}

theorem spared_reserve : Post (reserve T who value) s (fun _ s' => Spared .misc who s s')
      (fun _ s' => Spared .misc who s s') := by
  unfold reserve
  split
  · exact Spared.refl _ _ s
  rename_i hvalue
  refine spared_tryMutateAccount ?_
  rw [post_bind, post_okOr]
  refine ⟨fun free _ => ?_, fun _ => rfl⟩
  rw [post_bind, post_okOr]
  refine ⟨fun reserved _ => ?_, fun _ => rfl⟩
  rw [post_bind, post_ensureCanWithdraw]
  exact ⟨fun hfrozen => ⟨rfl, hfrozen.resolve_left hvalue, trivial⟩, fun _ => rfl⟩

omit [DecidableEq A] in
theorem frozen_le_of_canReserve {free : Nat} (hvalue : value ≠ 0)
    (hcan : canReserve who value s = true) (hsub : checkedSub (s.data who).free value = some free) :
    (s.data who).frozen .misc ≤ free := by
  by_contra hlt
  have hfails : ensureCanWithdraw who value .ofReserve free s = (.err .liquidityRestrictions, s) := by
    unfold ensureCanWithdraw
    rw [if_neg hvalue]
    exact if_neg hlt
  simp [canReserve, hvalue, hsub, hfails] at hcan

theorem spared_hold {amount : Nat} : Post (hold T who amount) s (fun _ s' => Spared .misc who s s')
      (fun _ s' => Spared .misc who s s') := by
  unfold hold
  split
  · exact Spared.refl _ _ s
  rename_i hamount
  rw [post_bind, post_read, post_bind, post_ensure]
  refine ⟨fun hcan => spared_tryMutateAccount ?_, fun _ => Spared.refl _ _ s⟩
  rw [post_bind, post_unwrap]
  intro free hsub
  rw [post_bind, post_unwrap]
  intro reserved _
  exact ⟨rfl, frozen_le_of_canReserve hamount hcan hsub, trivial⟩

theorem spared_withdraw {liveness} : Post (withdraw T who value reasons liveness) s
      (fun _ s' => Spared reasons.toReasons who s s')
      (fun _ s' => Spared reasons.toReasons who s s') := by
  unfold withdraw
  split
  · exact Spared.refl _ _ s
  rename_i hvalue
  refine spared_tryMutateAccount ?_
  rw [post_bind, post_okOr]
  refine ⟨fun newFree _ => ?_, fun _ => rfl⟩
  rw [post_bind, post_unwrap]
  intro newTotal _
  rw [← Exec.bind_assoc, post_bind]
  refine post_wouldKill (fun _ => ?_) rfl
  rw [post_bind, post_ensureCanWithdraw]
  exact ⟨fun hfrozen => ⟨rfl, hfrozen.resolve_left hvalue, trivial⟩, fun _ => rfl⟩

theorem spared_transfer {transactor dest : A} {requirement} :
    Post (transfer T transactor dest value requirement) s
      (fun _ s' => Spared .misc transactor s s') (fun _ s' => Spared .misc transactor s s') := by
  unfold transfer
  split
  · exact Spared.refl _ _ s
  rename_i hnoop
  have hvalue : value ≠ 0 := fun hzero => hnoop (.inl hzero)
  have hne : dest ≠ transactor := fun heq => hnoop (.inr heq.symm)
  rw [post_bind]
  refine post_tryMutateAccountWithDust ?_
  refine (spared_withDust (C := fun b => T.existentialDeposit ≤ b.total T) ?_).imp ?_
  · refine post_transferFrom.imp ?_
    rintro ⟨a, b⟩ s' ⟨rfl, h⟩
    have hsender : a = _ := h.sender
    refine ⟨rfl, ?_, h.receiver_lives⟩
    rw [hsender]
    exact h.unlocked.resolve_left hvalue
  · rintro ⟨b, c⟩ s' ⟨hspared, hframe, hlives⟩
    refine ⟨hframe dest hne, fun _ hlt => ?_, fun hlt => ?_, fun hlt => ?_⟩
    · have hdata : (s'.store dest b).data transactor = s'.data transactor :=
        store_data_of_ne s' dest b hne.symm
      exact hdata ▸ hspared (hdata ▸ hlt)
    · exact absurd hlives (not_le.mpr hlt)
    · exact absurd hlives (not_le.mpr hlt)

theorem spared_reserveNamed [LinearOrder I] {id : I} :
    Post (reserveNamed T id who value) s (fun _ s' => Spared .misc who s s')
      (fun _ s' => Spared .misc who s s') := by
  unfold reserveNamed
  split
  · exact Spared.refl _ _ s
  rw [post_bind, post_read, post_bind]
  refine post_addToReserve.mono ?_ ?_
  · rintro reserves s' rfl
    rw [post_bind]
    exact spared_reserve
  · rintro _ s' rfl
    exact Spared.refl _ _ s'

def Call.withdraws : Call A L I → Option (A × Reasons)
  | transfer transactor _ _ _ | transferAll transactor _ _ => some (transactor, .misc)
  | withdraw who _ reasons _ => some (who, reasons.toReasons)
  | reserve who _ | reserveNamed _ who _ | hold who _ => some (who, .misc)
  | _ => none

theorem Call.run_spared [DecidableEq L] [LinearOrder I] {c : Call A L I}
    (h : c.withdraws = some (who, r)) :
    Post (c.run T) s (fun _ s' => Spared r who s s') (fun _ s' => Spared r who s s') := by
  cases c with
  | transfer transactor dest value requirement | transferAll transactor dest keepAlive =>
    obtain ⟨rfl, rfl⟩ := Prod.mk.inj (some.inj h)
    rw [run, post_map]
    exact spared_transfer
  | withdraw who value reasons liveness =>
    obtain ⟨rfl, rfl⟩ := Prod.mk.inj (some.inj h)
    rw [run, post_map]
    exact spared_withdraw
  | reserve who value =>
    obtain ⟨rfl, rfl⟩ := Prod.mk.inj (some.inj h)
    rw [run, post_map]
    exact spared_reserve
  | reserveNamed id who value =>
    obtain ⟨rfl, rfl⟩ := Prod.mk.inj (some.inj h)
    rw [run, post_map]
    exact spared_reserveNamed
  | hold who amount =>
    obtain ⟨rfl, rfl⟩ := Prod.mk.inj (some.inj h)
    rw [run, post_map]
    exact spared_hold
  | _ => cases h

end Withdrawals

/-! ## Runs -/

section Runs

variable [LinearOrder I] {c : Call A L I}

def Call.LocksHeld (T : Config) (s : State A L I) : Call A L I → Prop
  | setLock _ who amount reasons | extendLock _ who amount reasons =>
    amount = 0 ∨ reasons.isEmpty = true ∨ T.existentialDeposit ≤ (s.data who).total T
  | _ => True

/-- **Locks are kept**: set on accounts that hold the existential deposit, and no account that has
locks is discarded. -/
def Action.KeepsLocks (T : Config) (w : World A L I) : Action A L I → Prop
  | call c => c.LocksHeld T w.state ∧ ∀ who, c.Below T w.state who → w.state.locksOf who = []
  | drop _ | split _ _ | merge _ _ | onUnbalanced => True

structure Locked (T : Config) (s : State A L I) : Prop where
  noDust : NoDust T s
  inForce : InForce s

omit [LinearOrder I] in
theorem Locked.endow {s : State A L I} {balances : List (A × Nat)} (h : Locked T s)
    (hlocks : ∀ j, s.locksOf j = []) (hmin : ∀ b ∈ balances, T.existentialDeposit ≤ b.2) :
    Locked T (s.endow balances) := by
  induction balances generalizing s with
  | nil => exact h
  | cons b balances ih =>
    have hfrozen : SameFrozen (s.data b.1) { (default : AccountData) with free := b.2 } := by
      obtain ⟨hmisc, hfee⟩ := h.inForce b.1
      rw [hlocks] at hmisc hfee
      exact ⟨hmisc.symm, hfee.symm⟩
    have hstore : Move T (fun _ => False) False s (s.store b.1 _) :=
      .store s b.1 _ (total_of_free (hmin b mem_cons_self)) fun _ => hfrozen
    have hforce := h.inForce.move not_false (fun _ hno => hno.elim) hstore
    refine ih ⟨h.noDust.move hstore, hforce⟩ (fun j => ?_)
      fun b' hb' => hmin b' (mem_cons_of_mem _ hb')
    rw [locksOf_congr (hstore.locks_eq not_false), hlocks]

omit [DecidableEq A] [LinearOrder I] in
theorem Call.changesLocks_cases (h : c.changesLocks) :
    (∃ id who amount reasons, c = setLock id who amount reasons) ∨
      (∃ id who amount reasons, c = extendLock id who amount reasons) ∨
      ∃ id who, c = removeLock id who := by
  cases c with
  | setLock id who amount reasons => exact .inl ⟨id, who, amount, reasons, rfl⟩
  | extendLock id who amount reasons => exact .inr (.inl ⟨id, who, amount, reasons, rfl⟩)
  | removeLock id who => exact .inr (.inr ⟨id, who, rfl⟩)
  | _ => exact h.elim

variable [DecidableEq L]

theorem Locked.run_changesLocks {s} (h : Locked T s) (hheld : c.LocksHeld T s)
    (hlock : c.changesLocks) :
    Post (c.run T) s (fun _ s' => InForce s') (fun _ s' => InForce s') := by
  rcases changesLocks_cases hlock with ⟨id, who, amount, reasons, rfl⟩ |
    ⟨id, who, amount, reasons, rfl⟩ | ⟨id, who, rfl⟩
  · rw [run, post_map]
    exact (h.inForce.changeLock hheld).noErr (fun _ _ hs => hs)
  · rw [run, post_map]
    exact (h.inForce.changeLock hheld).noErr (fun _ _ hs => hs)
  · rw [run, post_map]
    exact (h.inForce.removeLock h.noDust).noErr (fun _ _ hs => hs)

theorem Locked.perform {w w' : World A L I} {a : Action A L I} (h : Locked T w.state)
    (hkeeps : a.KeepsLocks T w) (hstep : a.perform T w = some w') : Locked T w'.state := by
  have hmoves := perform_moves hstep
  refine ⟨h.noDust.moves hmoves, ?_⟩
  cases a with
  | call c =>
    by_cases hlock : c.changesLocks
    · rcases perform_post (h.run_changesLocks hkeeps.1 hlock) hstep with
        ⟨-, -, hforce⟩ | ⟨-, -, hforce⟩
      · exact hforce
      · exact hforce
    · exact h.inForce.moves hlock hkeeps.2 hmoves
  | drop i | split i amount | merge i j | onUnbalanced =>
    exact h.inForce.moves not_false (fun _ hno => hno.elim) hmoves

omit [DecidableEq A] [DecidableEq L] [LinearOrder I] in
theorem Call.not_changesLocks_of_withdraws {who : A} (h : c.withdraws = some (who, r)) :
    ¬c.changesLocks := by
  intro hlock
  rcases changesLocks_cases hlock with ⟨_, _, _, _, rfl⟩ | ⟨_, _, _, _, rfl⟩ | ⟨_, _, rfl⟩
  · cases h
  · cases h
  · cases h

theorem Locked.withdrawal {w w' : World A L I} {who : A} (h : Locked T w.state)
    (hwithdraws : c.withdraws = some (who, r)) (hkeeps : (call c).KeepsLocks T w)
    (hstep : (call c).perform T w = some w')
    (hlt : (w'.state.data who).free < (w.state.data who).free) (hl : l ∈ w'.state.locksOf who)
    (hr : l.restricts r) : l.amount ≤ (w'.state.data who).free := by
  have hmoves := perform_moves hstep
  have hno : ¬c.changesLocks := not_changesLocks_of_withdraws hwithdraws
  have hforce := h.inForce.moves hno hkeeps.2 hmoves
  have hspared : Spared r who w.state w'.state := by
    rcases perform_post (c.run_spared hwithdraws) hstep with ⟨-, -, hs⟩ | ⟨-, -, hs⟩
    · exact hs
    · exact hs
  rcases hspared hlt with hle | hdefault
  · rw [locksOf_congr (moves_locks_eq hno hmoves)] at hl
    exact le_trans (h.inForce.amount_le_frozen hl hr) hle
  -- a record that is gone has nothing frozen, so no lock is left
  have hzero := hforce.amount_le_frozen hl hr
  rw [hdefault] at hzero ⊢
  cases r with
  | fee | misc | all => exact hzero

/-- **Locks are in force** in every state reached from a genesis without locks by actions that keep
locks: the frozen amounts of a record are the largest of the account's locks, and a withdrawal
leaves what every lock for its reasons asks for. -/
theorem locks_in_force {s s' : State A L I} (hempty : ∀ j, s.data j = default ∧ s.locksOf j = [])
    {balances : List (A × Nat)} (hbuild : build T balances s = (.ok (), s'))
    {live : List SignedImbalance} {w : World A L I}
    (hrun : Run T (fun w a => a.KeepsLocks T w) ⟨s', live⟩ w) :
    (∀ who, w.state.data who ≠ default →
      (w.state.data who).miscFrozen = maxLocked .misc (w.state.locksOf who) ∧
        (w.state.data who).feeFrozen = maxLocked .fee (w.state.locksOf who)) ∧
    ∀ (c : Call A L I) (who : A) (r : Reasons) (w' : World A L I),
      c.withdraws = some (who, r) → (call c).KeepsLocks T w →
      (call c).perform T w = some w' →
      (w'.state.data who).free < (w.state.data who).free →
      ∀ l ∈ w'.state.locksOf who, l.restricts r → l.amount ≤ (w'.state.data who).free := by
  obtain ⟨hmin, n, rfl⟩ := post_build.ok hbuild
  have hstart : Locked T { s with totalIssuance := n } :=
    ⟨fun j hne => absurd (hempty j).1 hne, fun j => by
      change (s.data j).miscFrozen = maxLocked .misc (s.locksOf j) ∧
        (s.data j).feeFrozen = maxLocked .fee (s.locksOf j)
      rw [(hempty j).1, (hempty j).2]
      exact ⟨rfl, rfl⟩⟩
  have hlocked : Locked T w.state := by
    induction hrun with
    | refl => exact hstart.endow (fun j => (hempty j).2) hmin
    | step _ hcond hstep ih => exact ih.perform hcond hstep
  exact ⟨fun who _ => hlocked.inForce who, fun c who r w' hwithdraws hkeeps hstep hlt l hl hr =>
    hlocked.withdrawal hwithdraws hkeeps hstep hlt hl hr⟩

end Runs

/-! ## A lock on an account without funds -/

def twenty : World Bool Nat Nat := ⟨(build fiveDeposit [(true, 20)] noAccounts).2, []⟩

def lockEight (who : Bool) : Action Bool Nat Nat := .call (.setLock 0 who 8 .ofTransfer)

def pay (transactor dest : Bool) (value : Nat) : Action Bool Nat Nat :=
  .call (.transfer transactor dest value .keepAlive)

def performed (as : List (Action Bool Nat Nat)) : World Bool Nat Nat :=
  as.foldl (fun w a => (a.perform fiveDeposit w).getD w) twenty

/-- The endowed account is locked and then pays 10; the lock is in force. -/
theorem locked_payer_in_force :
    ((performed [lockEight true, pay true false 10]).state.data true).miscFrozen =
        maxLocked .misc ((performed [lockEight true, pay true false 10]).state.locksOf true) ∧
      ((performed [lockEight true, pay true false 10]).state.data true).miscFrozen = 8 := by
  have hlock : (lockEight true).KeepsLocks fiveDeposit twenty := by
    refine ⟨.inr (.inr (by decide)), ?_⟩
    rintro who ⟨-, -, l, hl, -, hlt⟩
    obtain rfl := mem_singleton.mp hl
    exact absurd hlt (by decide)
  have hpay : (pay true false 10).KeepsLocks fiveDeposit (performed [lockEight true]) := by
    refine ⟨trivial, ?_⟩
    rintro who ⟨-, -, l, hl, -⟩
    cases hl
  have hbuild : build fiveDeposit [(true, 20)] noAccounts = (.ok (), twenty.state) := rfl
  have hrun : Run fiveDeposit (fun w a => a.KeepsLocks fiveDeposit w) ⟨twenty.state, []⟩
      (performed [lockEight true, pay true false 10]) :=
    .step (.step (.refl _) hlock rfl) hpay rfl
  have h := locks_in_force (fun _ => ⟨rfl, rfl⟩) hbuild hrun
  exact ⟨(h.1 true (by decide)).1, rfl⟩

/-- A lock of 8 is set on an account before it gets 10. Nothing is frozen, and the account pays 5.
-/
theorem unfunded_lock_not_in_force :
    ((performed [lockEight false, pay true false 10]).state.data false) ≠ default ∧
      ((performed [lockEight false, pay true false 10]).state.data false).miscFrozen = 0 ∧
      maxLocked .misc ((performed [lockEight false, pay true false 10]).state.locksOf false) = 8 ∧
      ((performed [lockEight false, pay true false 10, pay false true 5]).state.data false).free = 5 ∧
      maxLocked .misc ((performed [lockEight false, pay true false 10,
        pay false true 5]).state.locksOf false) = 8 ∧
      Run fiveDeposit (fun _ _ => True) twenty
        (performed [lockEight false, pay true false 10, pay false true 5]) := by
  refine ⟨by decide, by decide, by decide, by decide, by decide, ?_⟩
  exact .step (a := pay false true 5) (.step (a := pay true false 10)
    (.step (a := lockEight false) (.refl _) trivial rfl) trivial rfl) trivial rfl

/-! ## Locks by identifier

Other pallets hold locks under identifiers of their own. Every call leaves the locks with other
identifiers alone. -/

section Identifiers

variable [DecidableEq L] {s s' : State A L I} {who : A}

section

omit [DecidableEq A]

def State.locksWith (s : State A L I) (id : L) (who : A) : List (BalanceLock L) :=
  (s.locksOf who).filter fun l => decide (l.id = id)

theorem State.locksWith_congr (h : s'.locks = s.locks) (id : L) (who : A) :
    s'.locksWith id who = s.locksWith id who := by
  unfold locksWith
  rw [locksOf_congr h]

end

section Lists

variable {f : BalanceLock L → BalanceLock L → BalanceLock L} {k : L} (id : L)

theorem combineLock_none (locks : List (BalanceLock L)) :
    combineLock f id none locks = (locks.filter fun l => decide (l.id ≠ id), none) := by
  induction locks with
  | nil => rfl
  | cons l ls ih =>
    rw [combineLock]
    split
    · next hl => rw [ih, filter_cons_of_neg (by simpa using hl)]
    · next hl => rw [ih, filter_cons_of_pos (by simpa using hl)]

/-- The new lock is combined with the first that was there. -/
theorem filter_combineLock {nl : BalanceLock L} (hnl : nl.id = id)
    (hf : ∀ l : BalanceLock L, l.id = id → (f l nl).id = id) (locks : List (BalanceLock L)) (k : L) :
    ((combineLock f id (some nl) locks).1 ++ (combineLock f id (some nl) locks).2.toList).filter
        (fun l => decide (l.id = k)) =
      if k = id then [(locks.find? fun l => decide (l.id = id)).elim nl fun l => f l nl]
      else locks.filter fun l => decide (l.id = k) := by
  induction locks with
  | nil => by_cases hk : k = id <;> simp [combineLock, hnl, hk, eq_comm]
  | cons l ls ih =>
    rw [combineLock]
    split
    · rename_i hl
      rw [combineLock_none id]
      by_cases hk : k = id
      · subst hk
        simp [hl, hf l hl]
      · rw [if_neg hk, filter_cons_of_neg (by simpa [hl] using Ne.symm hk),
          cons_append, filter_cons_of_neg (by simpa [hf l hl] using Ne.symm hk)]
        simp only [Option.toList_none, append_nil, List.filter_filter]
        refine filter_congr fun m _ => ?_
        by_cases hm : m.id = k
        · simp [hm, hk]
        · simp [hm]
    · rename_i hl
      rw [cons_append, filter_cons, ih]
      by_cases hk : k = id
      · subst hk
        simp [hl]
      · rw [if_neg hk, if_neg hk, filter_cons]

end Lists

/-! ## Lock calls -/

section LockCalls

section

omit [DecidableEq L]

theorem post_freeze_locks {locks : List (BalanceLock L)} :
    Post (mutateAccount T who fun b => pure (freeze b locks, ())) s
      (fun _ s' => s'.locks = s.locks) (fun _ s' => s'.locks = s.locks) := by
  unfold mutateAccount tryMutateAccount
  rw [post_bind]
  refine post_tryMutateAccountWithDust ?_
  rw [post_pure]
  refine ⟨rfl, fun _ => rfl, fun _ _ => ?_, fun _ _ _ => ?_⟩
  · exact s.discard_locks who
  · obtain ⟨n, dust, hdrop, -⟩ :=
      LawfulDrop.drop_eq (dustOf T (freeze (s.data who) locks), ()) s
    rw [hdrop]

theorem post_updateLocks {locks : List (BalanceLock L)} : Post (updateLocks T who locks) s
      (fun _ s' => ∀ j, s'.locksOf j = if j = who then locks else s.locksOf j)
      (fun _ _ => False) := by
  have hset : ∀ s' : State A L I, s'.locks = s.locks → ∀ j,
      (s'.setLocks who locks).locksOf j = if j = who then locks else s.locksOf j := by
    intro s' hlocks j
    rw [locksOf_setLocks, locksOf_congr hlocks]
  unfold updateLocks
  rw [post_bind, post_attempt]
  exact post_freeze_locks.mono (fun _ s' hlocks => hset s' hlocks) fun _ s' hlocks => hset s' hlocks

end

variable {id : L} {amount : Nat} {reasons : WithdrawReasons}

theorem post_changeLock {f : BalanceLock L → BalanceLock L → BalanceLock L}
    (hf : ∀ l : BalanceLock L, l.id = id → (f l ⟨id, amount, reasons.toReasons⟩).id = id) :
    Post (changeLock T f id who amount reasons) s
      (fun _ s' => ∀ k j, s'.locksWith k j =
        if (amount ≠ 0 ∧ reasons.isEmpty = false) ∧ k = id ∧ j = who then
          [((s.locksOf j).find? fun l => decide (l.id = id)).elim ⟨id, amount, reasons.toReasons⟩
            fun l => f l ⟨id, amount, reasons.toReasons⟩]
        else s.locksWith k j)
      (fun _ _ => False) := by
  unfold changeLock
  split
  · rename_i hnone
    intro k j
    rw [if_neg]
    rintro ⟨⟨hamount, hreasons⟩, -⟩
    rcases hnone with hzero | hempty
    · exact hamount hzero
    · rw [hreasons] at hempty
      cases hempty
  · rename_i hsome
    rw [not_or, Bool.not_eq_true] at hsome
    rw [post_bind]
    refine post_updateLocks.imp (fun _ s' hs k j => ?_)
    rw [locksWith, hs j]
    by_cases hj : j = who
    · subst hj
      rw [if_pos rfl, filter_combineLock id rfl hf]
      exact if_congr ⟨fun hk => ⟨hsome, hk, rfl⟩, fun h => h.2.1⟩ rfl rfl
    · rw [if_neg hj, if_neg fun h => hj h.2.2]
      rfl

theorem post_removeLock : Post (removeLock T id who) s (fun _ s' => ∀ k j, s'.locksWith k j =
        if k = id ∧ j = who then [] else s.locksWith k j)
      (fun _ _ => False) := by
  unfold removeLock
  rw [post_bind]
  refine post_updateLocks.imp (fun _ s' hs k j => ?_)
  unfold locksWith
  rw [hs j]
  by_cases hj : j = who
  · subst hj
    rw [if_pos rfl, List.filter_filter]
    by_cases hk : k = id
    · subst hk
      rw [if_pos ⟨rfl, rfl⟩]
      refine filter_eq_nil_iff.mpr fun l _ => ?_
      simp
    · rw [if_neg fun h => hk h.1]
      refine filter_congr fun l _ => ?_
      by_cases hl : l.id = k
      · simp [hl, hk]
      · simp [hl]
  · rw [if_neg hj, if_neg fun h => hj h.2]

end LockCalls

/-! ## Every call -/

section Calls

variable [LinearOrder I]

def Call.lockId : Call A L I → Option L
  | setLock id _ _ _ | extendLock id _ _ _ | removeLock id _ => some id
  | _ => none

theorem Call.run_locks {c : Call A L I} (hc : ¬c.changesLocks) :
    Post (c.run T) s (fun _ s' => s'.locks = s.locks) (fun _ s' => s'.locks = s.locks) :=
  (c.run_settled s).mono (fun _ _ h => moves_locks_eq hc h.moves)
    fun _ _ h => moves_locks_eq hc h.moves

theorem Call.run_locksWith {c : Call A L I} {k : L} (hc : c.lockId ≠ some k) :
    Post (c.run T) s (fun _ s' => ∀ j, s'.locksWith k j = s.locksWith k j)
      (fun _ s' => ∀ j, s'.locksWith k j = s.locksWith k j) := by
  by_cases hlocks : c.changesLocks
  · rcases c.changesLocks_cases hlocks with ⟨id, who, amount, reasons, rfl⟩ |
      ⟨id, who, amount, reasons, rfl⟩ | ⟨id, who, rfl⟩
    · have hk : k ≠ id := fun h => hc (congrArg some h.symm)
      rw [Call.run, post_map]
      refine (post_changeLock fun _ _ => rfl).noErr (fun _ s' hs j => ?_)
      rw [hs k j, if_neg fun h => hk h.2.1]
    · have hk : k ≠ id := fun h => hc (congrArg some h.symm)
      rw [Call.run, post_map]
      refine (post_changeLock fun _ hl => hl).noErr (fun _ s' hs j => ?_)
      rw [hs k j, if_neg fun h => hk h.2.1]
    · have hk : k ≠ id := fun h => hc (congrArg some h.symm)
      rw [Call.run, post_map]
      refine post_removeLock.noErr (fun _ s' hs j => ?_)
      rw [hs k j, if_neg fun h => hk h.1]
  · exact (Call.run_locks hlocks).mono (fun _ _ h j => locksWith_congr h k j)
      fun _ _ h j => locksWith_congr h k j

end Calls

end Identifiers

end Substrate.Balances
