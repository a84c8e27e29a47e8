import Substrate.Balances
import Substrate.FinMapSum

/-!
# Mutating an account

Every operation on balances goes through `try_mutate_account_with_dust`. What it does is said once
here: the record that the closure returned is stored if it holds the existential deposit; otherwise
the account is discarded, or the store refuses because that would take the last provider from under
a consumer. A refusal drops what the closure returned.
-/

namespace Substrate.Balances

open Exec Function FrameSystem State FinMap

variable {A L I R : Type} {T : Config}

/-! ## The parts of a state -/

def AccountData.funds (a : AccountData) : Nat := a.free + a.reserved

@[simp] theorem AccountData.funds_default : (default : AccountData).funds = 0 := rfl

theorem AccountData.total_eq (a : AccountData) : a.total T = min a.funds T.maxValue := rfl

theorem AccountData.funds_eq_total {a : AccountData} (h : a.total T < T.existentialDeposit) :
    a.total T = a.funds := by
  have hle := T.existentialDeposit_le
  rw [total_eq] at h ⊢
  omega

namespace State

def providing (s : State A L I) (who : A) : Bool := isProviding (s.data who)

theorem providing_iff {s : State A L I} {who : A} :
    s.providing who = true ↔ s.data who ≠ default := by
  simp [providing, isProviding]

theorem providing_eq_false {s : State A L I} {who : A} :
    s.providing who = false ↔ s.data who = default := by
  simp [providing, isProviding]

def info (s : State A L I) (who : A) : FrameSystem.AccountInfo AccountData :=
  get s.account who

def canDec (s : State A L I) (who : A) : Bool := canDecProvider s.account who

def held (s : State A L I) : Nat := s.account.sumBy fun i => i.data.funds

theorem weight_eq_funds (s : State A L I) (who : A) :
    s.account.weight (fun i => i.data.funds) who = (s.data who).funds := by
  unfold weight data FrameSystem.get
  cases s.account.get? who <;> rfl

section

variable {s' s : State A L I} {who : A} (h : s'.account.get? who = s.account.get? who)
include h

theorem data_eq_of_get? : s'.data who = s.data who := by
  unfold data FrameSystem.get
  rw [h]

theorem info_eq_of_get? : s'.info who = s.info who := by
  unfold info FrameSystem.get
  rw [h]

theorem providing_eq_of_get? : s'.providing who = s.providing who := by
  unfold providing
  rw [data_eq_of_get? h]

theorem canDec_eq_of_get? : s'.canDec who = s.canDec who := by
  unfold canDec canDecProvider FrameSystem.get
  rw [h]

end

theorem held_add_funds [DecidableEq A] {s s' : State A L I} {who : A}
    (h : ∀ j, j ≠ who → s'.account.get? j = s.account.get? j) :
    s'.held + (s.data who).funds = s.held + (s'.data who).funds := by
  rw [← weight_eq_funds s, ← weight_eq_funds s']
  exact sumBy_add_weight _ h

/-! ## Storing and discarding a record -/

variable [DecidableEq A]

/-- The record is stored; an account without one gets a provider for it. -/
def store (s : State A L I) (who : A) (a : AccountData) : State A L I :=
  { s with
    account := mutate (if s.providing who then s.account else incProviders s.account who) who
      fun i => { i with data := a } }

def discard (s : State A L I) (who : A) : State A L I :=
  if s.providing who then
    match decProviders s.account who with
    | (.ok .reaped, account) => { s with account := account }
    | (.ok .exists, account) =>
      { s with account := mutate account who fun i => { i with data := default } }
    | (.error _, _) => s
  else s

variable {j : A}

section Store

variable (s : State A L I) (who : A) (a : AccountData)

@[simp] theorem store_totalIssuance : (s.store who a).totalIssuance = s.totalIssuance := rfl

@[simp] theorem store_locks : (s.store who a).locks = s.locks := rfl

@[simp] theorem store_reserves : (s.store who a).reserves = s.reserves := rfl

@[simp] theorem store_dust : (s.store who a).dust = s.dust := rfl

theorem store_get?_of_ne (hj : j ≠ who) : (s.store who a).account.get? j = s.account.get? j := by
  simp only [store, mutate, get?_insert, update_of_ne hj]
  split
  · rfl
  · simp [incProviders, mutate, update_of_ne hj]

theorem store_info : (s.store who a).info who = { s.info who with
      providers := if s.providing who then (s.info who).providers
        else saturatingInc (s.info who).providers
      data := a } := by
  unfold info store FrameSystem.mutate
  by_cases hp : s.providing who = true
  · simp [hp, FrameSystem.get]
  by_cases hzero : (FrameSystem.get s.account who).providers = 0 ∧
      (FrameSystem.get s.account who).sufficients = 0
  · have hone : saturatingInc 0 = 1 := rfl
    unfold FrameSystem.get at hzero
    simp [hp, FrameSystem.get, incProviders, FrameSystem.mutate, hzero, hone]
  · unfold FrameSystem.get at hzero
    simp [hp, FrameSystem.get, incProviders, FrameSystem.mutate, hzero]

@[simp] theorem store_data : (s.store who a).data who = a := by
  have := congrArg FrameSystem.AccountInfo.data (s.store_info who a)
  exact this

theorem store_data_of_ne (hj : j ≠ who) : (s.store who a).data j = s.data j :=
  data_eq_of_get? (s.store_get?_of_ne who a hj)

end Store

section Discard

variable (s : State A L I) (who : A)

@[simp] theorem discard_totalIssuance : (s.discard who).totalIssuance = s.totalIssuance := by
  unfold discard
  split
  · split <;> rfl
  · rfl

@[simp] theorem discard_locks : (s.discard who).locks = s.locks := by
  unfold discard
  split
  · split <;> rfl
  · rfl

@[simp] theorem discard_dust : (s.discard who).dust = s.dust := by
  unfold discard
  split
  · split <;> rfl
  · rfl

theorem discard_get?_of_ne (hj : j ≠ who) : (s.discard who).account.get? j = s.account.get? j := by
  unfold discard decProviders mutate
  split
  · rcases s.account.get? who with _ | i
    · rfl
    · dsimp only
      split_ifs <;> simp [update_of_ne hj]
  · rfl

theorem discard_data_of_ne (hj : j ≠ who) : (s.discard who).data j = s.data j :=
  data_eq_of_get? (s.discard_get?_of_ne who hj)

variable {s who}

section

omit [DecidableEq A]

theorem exists_info (hp : s.providing who = true) :
    ∃ i, s.account.get? who = some i ∧ s.info who = i := by
  rcases h : s.account.get? who with _ | i
  · rw [providing_iff] at hp
    refine absurd ?_ hp
    simp only [data, FrameSystem.get, h]
    rfl
  · exact ⟨i, rfl, by simp only [info, FrameSystem.get, h, Option.getD_some]⟩

theorem canDec_iff_consumers {i} (hinfo : s.info who = i) :
    s.canDec who = true ↔ i.consumers = 0 ∨ 1 < i.providers := by
  rw [← hinfo]
  simp [canDec, canDecProvider, info]

end

variable {account : FinMap A (FrameSystem.AccountInfo AccountData)}

section

variable (hp : s.providing who = true)
include hp

theorem canDec_of_error {e} (h : decProviders s.account who = (.error e, account)) :
    s.canDec who = false := by
  obtain ⟨i, hget, hinfo⟩ := exists_info hp
  rw [Bool.eq_false_iff, ne_eq, canDec_iff_consumers hinfo]
  rcases decProviders_cases hget with ⟨-, -, hdec⟩ | ⟨hle, hpos, -⟩ | ⟨-, hdec⟩
  · rw [hdec] at h
    cases h
  · omega
  · rw [hdec] at h
    cases h

theorem canDec_of_ok {st} (h : decProviders s.account who = (.ok st, account)) :
    s.canDec who = true := by
  obtain ⟨i, hget, hinfo⟩ := exists_info hp
  rw [canDec_iff_consumers hinfo]
  rcases decProviders_cases hget with ⟨-, hzero, -⟩ | ⟨-, -, hdec⟩ | ⟨hcan, -⟩
  · exact .inl hzero
  · rw [hdec] at h
    cases h
  · exact hcan

theorem discard_info (hc : s.canDec who = true) :
    ((s.discard who).info who).consumers = (s.info who).consumers ∧
      ((s.discard who).info who).providers = (s.info who).providers - 1 ∧
      (s.discard who).data who = default := by
  obtain ⟨i, hget, hinfo⟩ := exists_info hp
  have hcan := (canDec_iff_consumers hinfo).mp hc
  rw [hinfo]
  unfold discard
  rw [if_pos hp]
  rcases decProviders_cases hget with ⟨hle, hzero, hdec⟩ | ⟨hle, hpos, -⟩ | ⟨-, hdec⟩
  · have hone : i.providers - 1 = 0 := by omega
    rw [hdec, hone, hzero]
    simp only [info, data, FrameSystem.get, get?_erase, update_self, Option.getD_none]
    exact ⟨rfl, rfl, rfl⟩
  · omega
  · rw [hdec]
    simp [info, data, FrameSystem.get, FrameSystem.mutate]

end

theorem discard_data (h : s.providing who = true → s.canDec who = true) :
    (s.discard who).data who = default := by
  by_cases hp : s.providing who = true
  · exact (discard_info hp (h hp)).2.2
  · have hdefault := providing_eq_false.mp (Bool.eq_false_iff.mpr hp)
    rw [discard, if_neg hp, hdefault]

end Discard

end State

/-! ## The rule -/

section Rule

variable [DecidableEq A] [Drop T (State A L I) R]

def dustOf (T : Config) (a : AccountData) : Option NegativeImbalance :=
  if a.total T = 0 then none else some ⟨a.total T⟩

theorem postMutation_of_lt {a} (h : a.total T < T.existentialDeposit) :
    postMutation T a = (none, dustOf T a) := by
  unfold postMutation dustOf
  rw [if_pos h]
  split <;> rfl

def concludeMutation (T : Config) [Drop T (State A L I) R] (who : A) (p : AccountData × R) :
    Exec (State A L I) Error (R × DustCleaner) := fun s =>
  if T.existentialDeposit ≤ p.1.total T then (.ok (p.2, ⟨none⟩), s.store who p.1)
  else if s.providing who = true ∧ s.canDec who = false then
    (.err .consumerRemaining, Drop.drop T (dustOf T p.1, p.2) s)
  else (.ok (p.2, ⟨dustOf T p.1⟩), s.discard who)

variable {s : State A L I} {who : A}
  {f : AccountData → Bool → Exec (State A L I) Error (AccountData × R)}

/-- The closure leaves the entry of the account alone. -/
theorem tryMutateAccountWithDust_eq
    (hframe : ∀ p s', f (s.data who) (!s.providing who) s = (.ok p, s') →
      s'.account.get? who = s.account.get? who) :
    tryMutateAccountWithDust T who f s =
      (f (s.data who) (!s.providing who) >>= concludeMutation T who) s := by
  have hdata : ((if s.providing who = true then some (s.data who) else none).getD default) =
      s.data who := by
    split
    · rfl
    · next hp => exact (providing_eq_false.mp (Bool.eq_false_iff.mpr hp)).symm
  have hnew : (if s.providing who = true then some (s.data who) else none).isNone =
      !s.providing who := by
    cases s.providing who <;> rfl
  have hsd : (get s.account who).data = s.data who := rfl
  have hisp : isProviding (s.data who) = s.providing who := rfl
  unfold tryMutateAccountWithDust tryMutateExists
  simp only [bind_apply, Exec.read, hsd, hisp, hdata, hnew]
  rcases hrun : f (s.data who) (!s.providing who) s with ⟨⟨a, r⟩ | e | _, s'⟩
  · have hframe := hframe _ _ hrun
    have hp' : s'.providing who = s.providing who := providing_eq_of_get? hframe
    have hc' : s'.canDec who = s.canDec who := canDec_eq_of_get? hframe
    unfold concludeMutation
    rcases Nat.lt_or_ge (a.total T) T.existentialDeposit with hlt | hge
    · simp only [postMutation_of_lt hlt, if_neg (Nat.not_le.mpr hlt), hp', hc']
      cases hp : s.providing who with
      | false =>
        rw [State.discard, hp', hp]
        rfl
      | true =>
        rw [hp] at hp'
        rcases hdec : decProviders s'.account who with ⟨⟨⟩ | st, account⟩
        · have hcan : s.canDec who = false := hc' ▸ canDec_of_error hp' hdec
          rw [if_pos ⟨rfl, hcan⟩]
          simp [pure, bind, Exec.read, hdec, Exec.modify, Exec.throw]
        have hcan : s.canDec who = true := hc' ▸ canDec_of_ok hp' hdec
        rw [State.discard, if_pos hp', if_neg (by simp [hcan])]
        cases st with
        | reaped | «exists» => simp [pure, bind, Exec.read, hdec, Exec.modify]
    · simp only [postMutation, if_neg (Nat.not_lt.mpr hge), if_pos hge, hp']
      unfold store
      rw [hp']
      cases hp : s.providing who with
      | false | true => rfl
  · rfl
  · rfl

theorem post_tryMutateAccountWithDust
    {Q : R × DustCleaner → State A L I → Prop} {E : Error → State A L I → Prop}
    (h : Post (f (s.data who) (!s.providing who)) s
      (fun p s' => s'.account.get? who = s.account.get? who ∧
        (T.existentialDeposit ≤ p.1.total T → Q (p.2, ⟨none⟩) (s'.store who p.1)) ∧
        (p.1.total T < T.existentialDeposit → (s.providing who = true → s.canDec who = true) →
          Q (p.2, ⟨dustOf T p.1⟩) (s'.discard who)) ∧
        (p.1.total T < T.existentialDeposit → s.providing who = true → s.canDec who = false →
          E .consumerRemaining (Drop.drop T (dustOf T p.1, p.2) s'))) E) :
    Post (tryMutateAccountWithDust T who f) s Q E := by
  rw [Post, tryMutateAccountWithDust_eq fun _ _ hrun => (h.ok hrun).1, ← Post, post_bind]
  refine h.imp ?_
  rintro ⟨a, r⟩ s' ⟨hframe, hstore, hdiscard, hrefuse⟩
  unfold Post concludeMutation
  rw [providing_eq_of_get? hframe, canDec_eq_of_get? hframe]
  by_cases hed : T.existentialDeposit ≤ a.total T
  · rw [if_pos hed]
    exact hstore hed
  rw [if_neg hed]
  by_cases hcan : s.providing who = true ∧ s.canDec who = false
  · rw [if_pos hcan]
    exact hrefuse (Nat.lt_of_not_le hed) hcan.1 hcan.2
  · rw [if_neg hcan]
    refine hdiscard (Nat.lt_of_not_le hed) fun hp => ?_
    rw [not_and, Bool.not_eq_false] at hcan
    exact hcan hp

theorem sure_concludeMutation {p} {Q : R × DustCleaner → State A L I → Prop}
    {E : Error → State A L I → Prop} :
    Sure (concludeMutation T who p) s Q E ↔
      if T.existentialDeposit ≤ p.1.total T then Q (p.2, ⟨none⟩) (s.store who p.1)
      else if s.providing who = true ∧ s.canDec who = false then
        E .consumerRemaining (Drop.drop T (dustOf T p.1, p.2) s)
      else Q (p.2, ⟨dustOf T p.1⟩) (s.discard who) := by
  unfold Sure concludeMutation
  split_ifs <;> exact Iff.rfl

theorem sure_tryMutateAccountWithDust
    {Q : R × DustCleaner → State A L I → Prop} {E : Error → State A L I → Prop}
    (hframe : Post (f (s.data who) (!s.providing who)) s
      (fun _ s' => s'.account.get? who = s.account.get? who) fun _ _ => True) :
    Sure (tryMutateAccountWithDust T who f) s Q E ↔ Sure (f (s.data who) (!s.providing who)) s
        (fun p s' => Sure (concludeMutation T who p) s' Q E) E := by
  rw [Sure, tryMutateAccountWithDust_eq fun _ _ hrun => hframe.ok hrun, ← Sure, sure_bind]

end Rule

end Substrate.Balances
