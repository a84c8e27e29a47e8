import Substrate.BalancesRuns

/-!
# What calls report and promise

`burn_from` is to burn what it reports, the reducible balance is to be what a transfer can take, and
a move of reserves is to report what it moved. The extra amount of `burn_from` counts the reserved
balance, but is taken from the free balance. The reducible balance asks `can_dec_provider` and looks
at both frozen amounts, a transfer asks `is_provider_required` and looks at one. A move of reserves
within one account answers with what did not move.
-/

namespace Substrate.Balances

open Exec AccountData State Nat DustCleaner

variable {A L I : Type} [DecidableEq A] {T : Config} {s : State A L I} {who : A} {amount : Nat}

/-! ## Burning -/

/-- What `burn_from` promises; an underflow would be a panic. -/
def BurnsExactly (T : Config) (who : A) (amount : Nat) (s : State A L I) : Prop :=
  Sure (burnFrom T who amount) s
    (fun actual s' => amount ≤ actual ∧ (s'.data who).funds + actual = (s.data who).funds ∧
      s'.totalIssuance + actual = s.totalIssuance)
    (fun _ s' => s' = s)

theorem sure_burnRest {actual : Nat} (hfree : actual ≤ (s.data who).free)
    (hcan : (s.data who).funds - actual < T.existentialDeposit → s.canDec who = true) :
    Sure (concludeMutation T who ({ s.data who with free := (s.data who).free - actual }, actual)) s
      (fun q s' => q.1 ≤ (Drop.drop T q.2 s').totalIssuance ∧ amount ≤ q.1 ∧
        ((Drop.drop T q.2 s').data who).funds + q.1 = (s.data who).funds ∧
        (Drop.drop T q.2 s').totalIssuance - q.1 + q.1 = s.totalIssuance) (fun _ s' => s' = s) ↔
      actual ≤ s.totalIssuance ∧ amount ≤ actual ∧
        (T.existentialDeposit + actual ≤ (s.data who).funds ∨ (s.data who).funds = actual) := by
  have hed := T.existentialDeposit_le
  have hleft : ({ s.data who with free := (s.data who).free - actual } : AccountData).funds =
      (s.data who).funds - actual := by
    simp only [funds]
    omega
  rw [sure_concludeMutation, total_eq, hleft]
  by_cases hstore : T.existentialDeposit ≤ min ((s.data who).funds - actual) T.maxValue
  · rw [if_pos hstore]
    change _ ≤ s.totalIssuance ∧ _ ∧ ((s.store who _).data who).funds + actual = _ ∧
      s.totalIssuance - actual + actual = _ ↔ _
    rw [store_data, hleft]
    omega
  · have hdec := hcan (by omega)
    rw [if_neg hstore, if_neg (by simp [hdec])]
    change _ ≤ (s.discard who).totalIssuance ∧ _ ∧ ((s.discard who).data who).funds + actual = _ ∧
      (s.discard who).totalIssuance - actual + actual = _ ↔ _
    rw [discard_data fun _ => hdec, discard_totalIssuance, funds_default]
    omega

/-- **When `burn_from` burns what it reports.** Only a burn that reduces the account to zero can
fail: then the whole balance must be free and issued, and nothing may be left as dust. -/
theorem burnFrom_exact_iff (T : Config) (s : State A L I) (who : A) (amount : Nat) :
    BurnsExactly T who amount s ↔ (amount ≠ 0 → Withdrawable T who amount (s.data who) s →
        (s.data who).total T - amount < T.existentialDeposit →
        (s.data who).total T ≤ (s.data who).free ∧ (s.data who).total T ≤ s.totalIssuance ∧
          (T.existentialDeposit + (s.data who).total T ≤ (s.data who).funds ∨
            (s.data who).funds = (s.data who).total T)) := by
  unfold BurnsExactly burnFrom
  by_cases hamount : amount = 0
  · rw [if_pos hamount, sure_pure]
    simp [hamount]
  rw [if_neg hamount, sure_bind, tryMutateAccount, sure_bind, sure_tryMutateAccountWithDust]
  swap
  · rw [post_bind]
    refine (post_withdrawConsequence hamount).mono ?_ fun _ _ _ => trivial
    rintro extra s' ⟨rfl, -⟩
    rw [post_bind, post_unwrap_add]
    intro _
    rw [post_bind, post_unwrap_sub]
    exact fun _ => rfl
  rw [sure_bind, sure_withdrawConsequence hamount]
  simp only [sure_bind, sure_unwrap, sure_pure, checkedSub_eq_some, Config.checkedAdd_eq_some,
    sure_read, sure_modify, and_assoc, exists_eq_left, exists_and_left]
  have hfunds : (s.data who).total T ≤ (s.data who).funds := min_le_left _ _
  have hmax : (s.data who).total T ≤ T.maxValue := min_le_right _ _
  constructor
  · intro h _ hw hlt
    have hall : amount + dustOn T amount (s.data who) = (s.data who).total T := by
      rw [dustOn, if_pos hlt]
      exact Nat.add_sub_cancel' hw.2.1
    obtain ⟨-, hfree, hsure⟩ := h hw
    rw [hall] at hfree hsure
    obtain ⟨hissued, -, hrest⟩ := (sure_burnRest hfree fun _ => hw.2.2.1 hlt).mp hsure
    exact ⟨hfree, hissued, hrest⟩
  · intro h hw
    have hissued := hw.1
    have hle := hw.2.1
    have hfrozen := hw.2.2.2
    by_cases hlt : (s.data who).total T - amount < T.existentialDeposit
    · obtain ⟨hfree, hissued, hrest⟩ := h hamount hw hlt
      rw [dustOn, if_pos hlt, Nat.add_sub_cancel' hle]
      exact ⟨hmax, hfree, (sure_burnRest hfree fun _ => hw.2.2.1 hlt).mpr ⟨hissued, hle, hrest⟩⟩
    · rw [dustOn, if_neg hlt]
      refine ⟨by omega, by omega, (sure_burnRest ?_ ?_).mpr ⟨hissued, le_refl _, ?_⟩⟩ <;> omega

def sixAndFour : State Bool Nat Nat where
  account := FinMap.empty.insert true ⟨0, 0, 1, 0, ⟨6, 4, 0, 0⟩⟩
  totalIssuance := 10
  locks := .empty
  reserves := .empty
  dust := []

/-- Burning the free balance would take the reserved balance along, and underflows. -/
theorem burnFrom_underflows : ¬BurnsExactly fiveDeposit true 6 sixAndFour := by
  have hrun : burnFrom fiveDeposit true 6 sixAndFour = (.panic, sixAndFour) := rfl
  intro h
  rwa [BurnsExactly, Sure] at h

/-! ## The reducible balance -/

section Transfer

variable {dest : A} {value : Nat} {requirement : ExistenceRequirement}

def Transferable (T : Config) (who dest : A) (value : Nat) (requirement : ExistenceRequirement)
    (s : State A L I) : Prop :=
  value + (s.data who).miscFrozen ≤ (s.data who).free ∧ (s.data dest).free + value ≤ T.maxValue ∧
    T.existentialDeposit ≤ (s.data dest).funds + value ∧
    ((requirement = .allowDeath ∧ (s.info who).consumers = 0) ∨
      T.existentialDeposit + value ≤ (s.data who).funds)

omit [DecidableEq A] in
theorem sure_transferFrom (hvalue : value ≠ 0)
    {Q : AccountData × AccountData → State A L I → Prop} :
    Sure (transferFrom T who value requirement (s.data dest) (s.data who)) s Q (fun _ _ => False) ↔
      Transferable T who dest value requirement s ∧
        Q ({ s.data who with free := (s.data who).free - value },
          { s.data dest with free := (s.data dest).free + value }) s := by
  have hed := T.existentialDeposit_le
  have hmisc : (s.data who).frozen WithdrawReasons.ofTransfer.toReasons =
    (s.data who).miscFrozen := rfl
  have hrequired : FrameSystem.isProviderRequired s.account who = false ↔
      (s.info who).consumers = 0 := by
    simp [FrameSystem.isProviderRequired, info]
  unfold transferFrom ensureCanWithdraw Transferable
  simp only [if_neg hvalue, sure_bind, sure_okOr_sub, sure_okOr_add, sure_ensure, sure_read,
    sure_pure, hmisc, if_false_right]
  simp only [total_eq, funds, hrequired]
  by_cases hle : value ≤ (s.data who).free
  · have hfrozen : (s.data who).miscFrozen ≤ (s.data who).free - value ↔
        value + (s.data who).miscFrozen ≤ (s.data who).free := by omega
    have hreceived : T.existentialDeposit ≤
        min ((s.data dest).free + value + (s.data dest).reserved) T.maxValue ↔
          T.existentialDeposit ≤ (s.data dest).free + (s.data dest).reserved + value := by omega
    have hleft : T.existentialDeposit ≤
        min ((s.data who).free - value + (s.data who).reserved) T.maxValue ↔
          T.existentialDeposit + value ≤ (s.data who).free + (s.data who).reserved := by omega
    rw [hreceived]
    tauto
  · exact ⟨fun h => absurd h.1 hle, fun h => absurd h.1.1 (by omega)⟩

theorem transfer_ok_iff (hvalue : value ≠ 0) (hne : who ≠ dest) :
    Succeeds (transfer T who dest value requirement) s ↔
      Transferable T who dest value requirement s := by
  have hframe : Post (transferFrom T who value requirement (s.data dest) (s.data who)) s
      (fun _ s' => s' = s ∧ True) fun _ _ => True :=
    post_transferFrom.mono (fun _ _ h => ⟨h.1, trivial⟩) fun _ _ _ => trivial
  unfold Succeeds transfer
  rw [if_neg (not_or.mpr ⟨hvalue, hne⟩), sure_bind, sure_tryMutateAccountWithDust,
    sure_tryMutateAccountWithDust, sure_transferFrom hvalue]
  · refine and_iff_left_of_imp fun hchecks => ?_
    obtain ⟨hfree, -, hdest, halive⟩ := hchecks
    have hed := T.existentialDeposit_le
    have hreceived : T.existentialDeposit ≤
        ({ s.data dest with free := (s.data dest).free + value } : AccountData).total T := by
      rw [total_eq]
      simp only [funds] at hdest ⊢
      omega
    simp only [sure_concludeMutation, if_pos hreceived]
    split
    · trivial
    · rename_i hleft
      have hcan : s.canDec who = true := by
        rcases halive with ⟨-, hzero⟩ | hfunds
        · exact (canDec_iff_consumers rfl).mpr (.inl hzero)
        · refine absurd ?_ hleft
          rw [total_eq]
          simp only [funds] at hfunds ⊢
          omega
      rw [if_neg (by simp [hcan])]
      trivial
  · exact hframe.imp fun _ _ h => by rw [h.1]
  · exact (frame_withDust (C := fun _ => True) hframe).imp fun _ _ h => h.1 dest hne.symm

def requirementFor (keepAlive : Bool) : ExistenceRequirement :=
  if keepAlive then .keepAlive else .allowDeath

variable {keepAlive : Bool} {r : Nat}

omit [DecidableEq A] in
theorem reducibleBalance_spec (hr : reducibleBalance T who keepAlive s = r) (hpos : 0 < r) :
    r + (s.data who).miscFrozen ≤ (s.data who).free ∧ (keepAlive = true ∨ s.canDec who = false →
        T.existentialDeposit + r ≤ (s.data who).funds) := by
  have htotal := total_eq (T := T) (s.data who)
  unfold reducibleBalance at hr
  dsimp only at hr
  simp only [funds] at htotal ⊢
  split at hr
  · rename_i hdies
    refine ⟨by omega, fun h => ?_⟩
    rcases h with h | h
    · rw [h] at hdies
      exact absurd hdies.2 (by simp)
    · exact absurd (hdies.1.symm.trans h) (by simp)
  · exact ⟨by omega, fun _ => by omega⟩

/-- **When the reducible balance can be taken**, and with `keep_alive` no more than it. The
transfer is refused if the balance counts on a further provider that keeps the account's
consumers, and a larger one succeeds if only fees are frozen that far. -/
theorem reducible_taken_iff (hr : reducibleBalance T who keepAlive s = r) (hpos : 0 < r)
    (hne : who ≠ dest) (hdest : T.existentialDeposit ≤ (s.data dest).total T)
    (hroom : (s.data dest).free + r ≤ T.maxValue) :
    (Succeeds (transfer T who dest r (requirementFor keepAlive)) s ∧
      (keepAlive = true → ∀ value, r < value →
        ¬Succeeds (transfer T who dest value .keepAlive) s)) ↔
    (keepAlive = true ∨ (s.info who).consumers = 0 ∨ (s.info who).providers ≤ 1 ∨
      T.existentialDeposit + r ≤ (s.data who).funds) ∧
    (keepAlive = true → (s.data who).free ≤ (s.data who).miscFrozen + r ∨
      (s.data who).funds ≤ T.existentialDeposit + r ∨ (s.data dest).free + r = T.maxValue) := by
  obtain ⟨hfree, halive⟩ := reducibleBalance_spec hr hpos
  have hexists : T.existentialDeposit ≤ (s.data dest).funds :=
    le_trans hdest (min_le_left _ _)
  refine and_congr ?_ (imp_congr_right fun hkeep => ?_)
  · rw [transfer_ok_iff (by omega) hne]
    constructor
    · rintro ⟨-, -, -, ⟨-, hzero⟩ | hleft⟩
      · exact .inr (.inl hzero)
      · exact .inr (.inr (.inr hleft))
    · intro h
      refine ⟨hfree, hroom, by omega, ?_⟩
      by_cases hdies : keepAlive = false ∧ (s.info who).consumers = 0
      · refine .inl ⟨?_, hdies.2⟩
        rw [hdies.1]
        rfl
      · refine .inr ?_
        rcases h with hkeep | hzero | hone | hleft
        · exact halive (.inl hkeep)
        · exact halive (.inl (by simpa [hzero] using hdies))
        · by_cases hkeep : keepAlive = true
          · exact halive (.inl hkeep)
          · refine halive (.inr (Bool.eq_false_iff.mpr fun hcan => ?_))
            have := (canDec_iff_consumers rfl).mp hcan
            rw [Bool.not_eq_true] at hkeep
            simp only [hkeep, true_and] at hdies
            omega
        · exact hleft
  · constructor
    · intro h
      by_contra hmore
      refine h (r + 1) (lt_succ_self r) ((transfer_ok_iff (by omega) hne).mpr ?_)
      exact ⟨by omega, by omega, by omega, .inr (by omega)⟩
    · intro h value hlt hok
      obtain ⟨hfree', hroom', -, ⟨hdeath, -⟩ | hleft⟩ :=
        (transfer_ok_iff (by omega) hne).mp hok
      · cases hdeath
      · omega

/-- The first account has 10, a provider besides the pallet and the given consumers. -/
def twoAccounts (consumers : Nat) : State Bool Nat Nat where
  account := (FinMap.empty.insert false ⟨0, 0, 1, 0, ⟨5, 0, 0, 0⟩⟩).insert true
    ⟨0, consumers, 2, 0, ⟨10, 0, 0, 0⟩⟩
  totalIssuance := 15
  locks := .empty
  reserves := .empty
  dust := []

/-- Without a consumer the whole balance can be taken. -/
theorem reducible_taken_iff_unreferenced :
    Succeeds (transfer fiveDeposit true false 10 (requirementFor false)) (twoAccounts 0) ∧
      (false = true → ∀ value, 10 < value →
        ¬Succeeds (transfer fiveDeposit true false value .keepAlive) (twoAccounts 0)) :=
  (reducible_taken_iff (by decide) (by decide)
    (by decide) (by decide) (by decide)).mpr ⟨.inr (.inl rfl), fun h => Bool.noConfusion h⟩

/-- With a consumer it cannot, although the account has a second provider. -/
theorem reducible_refused : reducibleBalance fiveDeposit true false (twoAccounts 1) = 10 ∧
    (transfer fiveDeposit true false 10 (requirementFor false) (twoAccounts 1)).1 =
      .err .keepAlive :=
  ⟨rfl, rfl⟩

end Transfer

/-! ## Moving reserves -/

section Reserves

variable {R : Type} {slashed beneficiary : A} {value : Nat} {bestEffort : Bool} {status : Status}

def DustCleaner.swept (c : DustCleaner) : Nat := (c.dust.toList.map NegativeImbalance.amount).sum

theorem swept_dustOf (a : AccountData) : (⟨dustOf T a⟩ : DustCleaner).swept = a.total T := by
  unfold swept dustOf
  split
  · rename_i hzero
    exact hzero.symm
  · simp

/-- The record is `a`, or `a` was dust and the account is gone. -/
def Became (T : Config) (s' : State A L I) (who : A) (a : AccountData) : Prop :=
  s'.data who = a ∨ a.total T < T.existentialDeposit ∧ s'.data who = default

/-- A mutation ended with the record `a`, or with its dust in the cleaner. -/
structure Concluded (T : Config) (s s' : State A L I) (who : A) (a : AccountData)
    (c : DustCleaner) : Prop where
  record : Became T s' who a
  funds : (s'.data who).funds + c.swept = a.funds
  others : ∀ j, j ≠ who → s'.account.get? j = s.account.get? j
  dust : s'.dust = s.dust

theorem concluded_store (s : State A L I) (a : AccountData) :
    Concluded T s (s.store who a) who a ⟨none⟩ where
  record := .inl (s.store_data who a)
  funds := by
    rw [store_data]
    rfl
  others _ hj := s.store_get?_of_ne who a hj
  dust := rfl

theorem concluded_discard {a : AccountData} (hlt : a.total T < T.existentialDeposit)
    (hcan : s.providing who = true → s.canDec who = true) :
    Concluded T s (s.discard who) who a ⟨dustOf T a⟩ where
  record := .inr ⟨hlt, discard_data hcan⟩
  funds := by
    rw [discard_data hcan, funds_default, swept_dustOf, funds_eq_total hlt, zero_add]
  others _ hj := s.discard_get?_of_ne who hj
  dust := s.discard_dust who

theorem post_concluded [Drop T (State A L I) R] {E : Error → State A L I → Prop}
    {f : AccountData → Bool → Exec (State A L I) Error (AccountData × R)}
    {Q : R × DustCleaner → State A L I → Prop}
    (h : Post (f (s.data who) (!s.providing who)) s
      (fun p s' => s'.account.get? who = s.account.get? who ∧
        (∀ c s'', (p.1.total T < T.existentialDeposit → s.providing who = true →
          s.canDec who = true) → Concluded T s' s'' who p.1 c → Q (p.2, c) s'') ∧
        (p.1.total T < T.existentialDeposit → s.canDec who = false →
          E .consumerRemaining (Drop.drop T (dustOf T p.1, p.2) s'))) E) :
    Post (tryMutateAccountWithDust T who f) s Q E := by
  refine post_tryMutateAccountWithDust (h.imp ?_)
  rintro ⟨a, r⟩ s' ⟨hframe, hQ, hrefuse⟩
  refine ⟨hframe, fun hge => ?_, fun hlt hcan => ?_, fun hlt _ => hrefuse hlt⟩
  · exact hQ _ _ (fun hlt => absurd hlt (not_lt.mpr hge)) (concluded_store s' a)
  · refine hQ _ _ (fun _ => hcan) (concluded_discard hlt ?_)
    rwa [providing_eq_of_get? hframe, canDec_eq_of_get? hframe]

/-- The balances of two accounts, with the dust that was removed. -/
def State.pooled (s : State A L I) (i j : A) : Nat :=
  (s.data i).funds + (if i = j then 0 else (s.data j).funds) +
    (s.dust.map NegativeImbalance.amount).sum

abbrev Kept (s s' : State A L I) (i j : A) : Prop := s'.pooled i j = s.pooled i j

def credited (status : Status) (n : Nat) (a : AccountData) : AccountData :=
  match status with
  | .free => { a with free := a.free + n }
  | .reserved => { a with reserved := a.reserved + n }

def debited (n : Nat) (a : AccountData) : AccountData := { a with reserved := a.reserved - n }

/-- The reserved balance of `slashed` fell by `n`, and the free or reserved balance of
`beneficiary` rose by it. -/
def Reassigned (T : Config) (slashed beneficiary : A) (status : Status) (n : Nat)
    (s s' : State A L I) : Prop :=
  if slashed = beneficiary then
    Became T s' slashed (credited status n (debited n (s.data slashed)))
  else Became T s' slashed (debited n (s.data slashed)) ∧
    Became T s' beneficiary (credited status n (s.data beneficiary))

/-- What is re-assigned of a reserved balance. An account stays as it is if it has nothing, or is
below the existential deposit and cannot go. -/
def moved (T : Config) (slashed beneficiary : A) (value : Nat) (status : Status)
    (s : State A L I) : Nat :=
  if slashed = beneficiary ∧ status = .free ∧ ((s.data slashed).total T = 0 ∨
    (s.data slashed).total T < T.existentialDeposit ∧ s.canDec slashed = false) then 0
  else min (s.data slashed).reserved value

omit [DecidableEq A] in
theorem post_actual {toAccount fromAccount : AccountData} :
    Post (transferReservedFrom T value bestEffort status toAccount fromAccount) s
      (fun p _ => p = (debited (min fromAccount.reserved value) fromAccount,
        credited status (min fromAccount.reserved value) toAccount, min fromAccount.reserved value))
      fun _ _ => True := by
  unfold transferReservedFrom
  rw [post_bind, post_ensure]
  refine ⟨fun _ => ?_, fun _ => trivial⟩
  rw [post_bind]
  cases status with
  | free | reserved =>
    unfold credit
    rw [post_bind, post_okOr_add]
    exact ⟨fun _ => rfl, fun _ => trivial⟩

theorem post_doTransferReserved_of_ne (hne : slashed ≠ beneficiary) :
    Post (doTransferReserved T slashed beneficiary value bestEffort status) s
      (fun m s' => m = min (s.data slashed).reserved value ∧
        Reassigned T slashed beneficiary status m s s' ∧ Kept s s' slashed beneficiary)
      fun _ _ => True := by
  unfold doTransferReserved
  by_cases hvalue : value = 0
  · rw [if_pos hvalue, hvalue]
    refine ⟨(Nat.min_zero _).symm, ?_, rfl⟩
    rw [Reassigned, if_neg hne]
    exact ⟨.inl rfl, .inl (by cases status <;> rfl)⟩
  rw [if_neg hvalue, if_neg hne, post_bind]
  refine post_concluded ?_
  rw [post_bind, post_ensure]
  refine ⟨fun _ => ?_, fun _ => trivial⟩
  rw [post_bind]
  refine post_concluded ((post_transferReservedFrom.and post_actual).mono ?_ fun _ _ _ => trivial)
  rintro ⟨fromAccount, toAccount, actual⟩ _ ⟨⟨rfl, hrep⟩, ⟨⟩⟩
  refine ⟨rfl, fun c s1 _ hfrom => ?_, fun _ _ => trivial⟩
  rw [post_pure]
  refine ⟨hfrom.others _ hne.symm, fun c' s2 _ hto => ?_, fun _ _ => trivial⟩
  simp only [post_bind, post_modify, post_pure]
  have hkept := data_eq_of_get? (hto.others _ hne)
  refine ⟨trivial, ?_, ?_⟩
  · rw [Reassigned, if_neg hne]
    have hrecord := hfrom.record
    rw [Became, ← hkept] at hrecord
    exact ⟨hrecord, hto.record⟩
  have hsent := hfrom.funds
  have hgot := hto.funds
  have hsender := hrep.sender
  have hreceiver := hrep.receiver
  dsimp only at hsent hgot hsender hreceiver
  rw [← hkept] at hsent
  unfold Kept pooled
  rw [if_neg hne, if_neg hne]
  change (s2.data slashed).funds + (s2.data beneficiary).funds +
    ((c.dust.toList ++ (c'.dust.toList ++ s2.dust)).map NegativeImbalance.amount).sum = _
  rw [hto.dust, hfrom.dust]
  simp only [List.map_append, List.sum_append]
  unfold swept at hsent hgot
  omega

def FitsWithin (T : Config) (who : A) (status : Status) (n : Nat) (s : State A L I) : Prop :=
  status = .free → (s.data who).free + n ≤ T.maxValue

theorem reassigned_self {n : Nat} (hrecord : Became T s' who (credited status n
    (debited n (s.data who)))) : Reassigned T who who status n s s' := by
  rwa [Reassigned, if_pos rfl]

theorem post_doTransferReserved_self (hfree : (s.data who).free ≤ T.maxValue) :
    Post (doTransferReserved T who who value bestEffort status) s
      (fun m s' => m = value - moved T who who value status s ∧
        (Kept s s' who who ↔ FitsWithin T who status (moved T who who value status s) s) ∧
        (FitsWithin T who status (moved T who who value status s) s →
          Reassigned T who who status (moved T who who value status s) s s'))
      fun _ _ => True := by
  have hnone : Reassigned T who who status 0 s s :=
    reassigned_self (.inl (by cases status <;> rfl))
  unfold doTransferReserved moved FitsWithin
  by_cases hvalue : value = 0
  · have hzero : moved T who who value status s = 0 := by
      unfold moved
      split <;> simp [hvalue]
    rw [moved] at hzero
    rw [if_pos hvalue, hzero]
    exact ⟨hvalue.symm, iff_of_true rfl fun _ => hfree, fun _ => hnone⟩
  rw [if_neg hvalue, if_pos rfl]
  cases status with
  | reserved =>
    rw [post_bind, post_read, if_neg (by simp)]
    refine ⟨by omega, iff_of_true rfl fun h => (by cases h), fun _ => reassigned_self (.inl ?_)⟩
    simp only [credited, debited, Nat.sub_add_cancel (Nat.min_le_left _ _)]
  | free =>
    unfold unreserve
    rw [if_neg hvalue, post_bind, post_read]
    by_cases hzero : (s.data who).total T = 0
    · rw [if_pos hzero, if_pos ⟨rfl, rfl, .inl hzero⟩]
      exact ⟨rfl, iff_of_true rfl fun _ => hfree, fun _ => hnone⟩
    have hp : s.providing who = true := by
      rw [providing_iff]
      intro hdefault
      rw [hdefault] at hzero
      exact hzero (Nat.zero_min _)
    obtain ⟨actual, hactual⟩ : ∃ n, n = min (s.data who).reserved value := ⟨_, rfl⟩
    -- the saturating addition does not change the total
    have htotal : ({ s.data who with
        reserved := (s.data who).reserved - actual
        free := T.saturatingAdd (s.data who).free actual } : AccountData).total T =
          (s.data who).total T := by
      simp only [total_eq, funds, Config.saturatingAdd]
      omega
    rw [if_neg hzero, post_bind, post_attempt, mutateAccount, tryMutateAccount, post_bind]
    refine post_concluded ?_
    rw [post_pure, ← hactual, htotal]
    refine ⟨rfl, fun c s' hcan hdone => ?_, fun hlt hcan => ?_⟩
    · have hfunds := hdone.funds
      rw [if_neg fun h => h.2.2.elim hzero fun hlt => by simp [hcan hlt.1 hp] at hlt]
      refine ⟨rfl, ?_, fun hfits => reassigned_self ?_⟩
      swap
      · have hrecord := hdone.record
        rwa [Config.saturatingAdd, min_eq_left (hactual ▸ hfits rfl)] at hrecord
      change (s'.data who).funds + (if who = who then 0 else _) +
        ((c.dust.toList ++ s'.dust).map NegativeImbalance.amount).sum = s.pooled who who ↔ _
      rw [hdone.dust, pooled, List.map_append, List.sum_append]
      unfold swept at hfunds
      simp only [if_true, forall_const, funds, Config.saturatingAdd] at hfunds ⊢
      omega
    · rw [if_pos ⟨rfl, rfl, .inr ⟨hlt, hcan⟩⟩]
      refine ⟨rfl, iff_of_true ?_ fun _ => hfree, fun _ => ?_⟩
      · rcases dustOf T _ with _ | d <;> rfl
      · rcases dustOf T _ with _ | d <;> exact hnone

/-- A move within one account is half of the value, and what is freed fits. -/
def HalfWithin (T : Config) (slashed beneficiary : A) (value : Nat) (status : Status) (n : Nat)
    (s : State A L I) : Prop :=
  slashed = beneficiary → 2 * n = value ∧ FitsWithin T slashed status n s

variable {n : Nat} (hfree : (s.data slashed).free ≤ T.maxValue)
    (hmoved : moved T slashed beneficiary value status s = n)
include hfree hmoved

theorem post_doTransferReserved_iff :
    Post (doTransferReserved T slashed beneficiary value bestEffort status) s
      (fun m s' => ((m = n ∧ Reassigned T slashed beneficiary status n s s' ∧
          Kept s s' slashed beneficiary) ↔ HalfWithin T slashed beneficiary value status n s) ∧
        ((value - m = value - n ∧ Reassigned T slashed beneficiary status n s s' ∧
          Kept s s' slashed beneficiary) ↔ HalfWithin T slashed beneficiary value status n s))
      fun _ _ => True := by
  by_cases heq : slashed = beneficiary
  · subst heq
    refine (post_doTransferReserved_self hfree).imp ?_
    rw [hmoved]
    rintro m s' ⟨rfl, hkept, hreassigned⟩
    have hle : n ≤ value := by
      rw [← hmoved, moved]
      split <;> omega
    rw [hkept, HalfWithin, forall_prop_of_true rfl]
    have hhalf : value - n = n ↔ 2 * n = value := by omega
    have hhalf' : value - (value - n) = value - n ↔ 2 * n = value := by omega
    rw [hhalf, hhalf']
    tauto
  · rw [moved, if_neg fun h => heq h.1] at hmoved
    refine (post_doTransferReserved_of_ne heq).imp ?_
    rintro m s' ⟨rfl, hreassigned, hkept⟩
    rw [hmoved] at hreassigned ⊢
    have hcond : HalfWithin T slashed beneficiary value status n s := fun h => absurd h heq
    exact ⟨iff_of_true ⟨rfl, hreassigned, hkept⟩ hcond, iff_of_true ⟨rfl, hreassigned, hkept⟩ hcond⟩

/-- **When moves of reserves report what moved.** Between two accounts they do: the reserved balance
of one fell by `n` and the balance of the other rose by it. A move within one account reports the
remainder in the place of the amount, so both must be half of the value. -/
theorem reserve_reports_iff :
    (∀ r s', repatriateReserved T slashed beneficiary value status s = (.ok r, s') →
      ((r = value - n ∧ Reassigned T slashed beneficiary status n s s' ∧
        Kept s s' slashed beneficiary) ↔ HalfWithin T slashed beneficiary value status n s)) ∧
    ∀ bestEffort onHold r s', status = (if onHold then .reserved else .free) →
      transferHeld T slashed beneficiary value bestEffort onHold s = (.ok r, s') →
      ((r = n ∧ Reassigned T slashed beneficiary status n s s' ∧
        Kept s s' slashed beneficiary) ↔ HalfWithin T slashed beneficiary value status n s) := by
  constructor
  · intro r s' hrun
    have hpost : Post (repatriateReserved T slashed beneficiary value status) s
        (fun r s' => (r = value - n ∧ Reassigned T slashed beneficiary status n s s' ∧
          Kept s s' slashed beneficiary) ↔ HalfWithin T slashed beneficiary value status n s)
        fun _ _ => True := by
      unfold repatriateReserved
      rw [post_bind]
      exact (post_doTransferReserved_iff hfree hmoved).imp fun _ _ h => h.2
    exact hpost.ok hrun
  · rintro bestEffort onHold r s' rfl hrun
    exact ((post_doTransferReserved_iff hfree hmoved).ok hrun).1

omit hfree hmoved

def reservedFour : State Bool Nat Nat where
  account := sixAndFour.account.insert false ⟨0, 0, 1, 0, ⟨10, 2, 0, 0⟩⟩
  totalIssuance := 22
  locks := .empty
  reserves := .empty
  dust := []

/-- The account of 6 and 4 gives 3 to the other one. -/
theorem reserve_reports_iff_apart : ∃ s',
    repatriateReserved fiveDeposit true false 3 .free reservedFour = (.ok 0, s') ∧
      Became fiveDeposit s' true ⟨6, 1, 0, 0⟩ ∧ Became fiveDeposit s' false ⟨13, 2, 0, 0⟩ ∧
      Kept reservedFour s' true false := by
  obtain ⟨-, hreassigned, hkept⟩ := ((reserve_reports_iff (by decide)
    (show moved fiveDeposit true false 3 .free reservedFour = 3 from rfl)).1 0 _ rfl).mpr
    fun h => by cases h
  exact ⟨_, rfl, hreassigned.1, hreassigned.2, hkept⟩

/-- Freeing all 4 reports 4 as not moved. -/
theorem repatriate_reports_moved :
    (repatriateReserved fiveDeposit true true 4 .free sixAndFour).1 = .ok 4 ∧
      moved fiveDeposit true true 4 .free sixAndFour = 4 ∧
      (repatriateReserved fiveDeposit true true 4 .free sixAndFour).2.data true = ⟨10, 0, 0, 0⟩ :=
  ⟨rfl, rfl, rfl⟩

end Reserves

end Substrate.Balances
