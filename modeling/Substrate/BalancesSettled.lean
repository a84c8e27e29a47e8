import Substrate.BalancesMoves

/-!
# The operations settle

Each operation of the pallet goes by moves, and the gap between the issuance and the balances grows
by the worth of what it returns. `Admits` collects what an operation needs to know about an account
it leaves with a total of `rest`.
-/

namespace Substrate.Balances

open Exec AccountData FrameSystem Nat Config

variable {A L I : Type} {T : Config} {Below : A → Prop} {Lock Ok : Prop} {s : State A L I} {who : A}

/-- If `rest` is too little for the record, it may be discarded, and under `Ok` the store does not
refuse where a refusal loses something. -/
def Admits (T : Config) (Below : A → Prop) (Ok : Prop) (s : State A L I) (who : A) (rest : Nat)
    (lossy : Prop) : Prop :=
  rest < T.existentialDeposit → s.providing who = true →
    (s.canDec who = true → Below who) ∧ (Ok → 0 < rest ∨ lossy → s.canDec who = true)

namespace Admits

variable {rest : Nat} {lossy : Prop} {a : AccountData}

section

variable (h : Admits T Below Ok s who rest lossy)
include h

theorem below (hrest : rest ≤ a.funds) (hlt : a.total T < T.existentialDeposit)
    (hp : s.providing who = true) (hcan : s.canDec who = true) : Below who := by
  rw [funds_eq_total hlt] at hlt
  exact (h (by omega) hp).1 hcan

theorem not_refused (hok : Ok) (hl : lossy) (hrest : rest ≤ a.funds)
    (hlt : a.total T < T.existentialDeposit) (hp : s.providing who = true)
    (hcan : s.canDec who = false) : False := by
  rw [funds_eq_total hlt] at hlt
  have := (h (by omega) hp).2 hok (.inr hl)
  rw [hcan] at this
  cases this

theorem dustOf_eq_none (hok : Ok) (hrest : a.funds = rest) (hlt : a.total T < T.existentialDeposit)
    (hp : s.providing who = true) (hcan : s.canDec who = false) : dustOf T a = none := by
  have htotal := funds_eq_total hlt
  have hzero : a.total T = 0 := by
    by_contra hne
    have := (h (by omega) hp).2 hok (.inl (by omega))
    rw [hcan] at this
    cases this
  exact if_pos hzero

end

end Admits

variable [DecidableEq A]

/-- A result without imbalances. -/
class Plain (T : Config) (A L I R : Type) [Drop T (State A L I) R] [Worth R] : Prop where
  drop_eq : ∀ (r : R) (s : State A L I), Drop.drop T r s = s
  worth_eq : ∀ r : R, worth r = 0

instance : Plain T A L I Unit := ⟨fun _ _ => rfl, fun _ => rfl⟩

instance : Plain T A L I Nat := ⟨fun _ _ => rfl, fun _ => rfl⟩

section Mutations

variable {R : Type} [Drop T (State A L I) R] [LawfulDrop T A L I R] [Worth R]
  {f : AccountData → Bool → Exec (State A L I) Error (AccountData × R)} {rest : Nat}

theorem settled_of_admits (hadmits : Admits T Below Ok s who rest True)
    (h : Post (f (s.data who) (!s.providing who)) s
      (fun p s' => s' = s ∧ SameFrozen (s.data who) p.1 ∧
        (p.1.total T < T.existentialDeposit → rest ≤ p.1.funds) ∧
        (Ok → ((s.data who).funds : Int) = worth p.2 + p.1.funds))
      (fun _ s' => s' = s)) :
    Settles T Below Lock Ok (tryMutateAccount T who f) s := by
  refine settled_tryMutateAccount worth (h.imp ?_)
  rintro ⟨a, r⟩ s' ⟨hs, hfrozen, hrest, hfunds⟩
  refine ⟨hs, fun _ => hfrozen, fun hlt => hadmits.below (hrest hlt) hlt, hfunds,
    fun hok hlt hp hcan => ?_⟩
  exact (hadmits.not_refused hok trivial (hrest hlt) hlt hp hcan).elim

theorem settled_of_plain [Plain T A L I R] {lossy : Prop}
    (hadmits : Admits T Below Ok s who rest lossy)
    (h : Post (f (s.data who) (!s.providing who)) s
      (fun p s' => s' = s ∧ (¬Lock → SameFrozen (s.data who) p.1) ∧
        (p.1.total T < T.existentialDeposit → p.1.funds = rest) ∧
        (Ok → p.1.funds = (s.data who).funds))
      (fun _ s' => s' = s)) :
    Settles T Below Lock Ok (tryMutateAccount T who f) s := by
  refine settled_tryMutateAccount worth (h.imp ?_)
  rintro ⟨a, r⟩ s' ⟨hs, hfrozen, hrest, hfunds⟩
  refine ⟨hs, hfrozen, fun hlt => hadmits.below (le_of_eq (hrest hlt).symm) hlt, fun hok => ?_,
    fun hok hlt hp hcan => ?_⟩
  · rw [Plain.worth_eq T A L I r, hfunds hok, Int.zero_add]
  · rw [hadmits.dustOf_eq_none hok (hrest hlt) hlt hp hcan]
    exact Plain.drop_eq r s

end Mutations

/-! ## Currency -/

section Checked

variable {a b : Nat} {S : Type} {st : S} {e : Error} {Q : Nat → S → Prop} {E : Error → S → Prop}

theorem post_okOr_sub : Post (okOr (checkedSub a b) e) st Q E ↔
    (b ≤ a → Q (a - b) st) ∧ (a < b → E e st) := by
  simp [checkedSub]

theorem post_okOr_add : Post (okOr (T.checkedAdd a b) e) st Q E ↔
    (a + b ≤ T.maxValue → Q (a + b) st) ∧ (T.maxValue < a + b → E e st) := by
  simp [checkedAdd]

theorem post_unwrap_sub : Post (unwrap (checkedSub a b)) st Q E ↔ (b ≤ a → Q (a - b) st) := by
  simp [checkedSub]

theorem post_unwrap_add : Post (unwrap (T.checkedAdd a b)) st Q E ↔
    (a + b ≤ T.maxValue → Q (a + b) st) := by
  simp [checkedAdd]

theorem sure_okOr_sub : Sure (okOr (checkedSub a b) e) st Q E ↔
    if b ≤ a then Q (a - b) st else E e st := by
  unfold checkedSub
  split <;> exact Iff.rfl

theorem sure_okOr_add : Sure (okOr (T.checkedAdd a b) e) st Q E ↔
    if a + b ≤ T.maxValue then Q (a + b) st else E e st := by
  unfold checkedAdd
  split <;> exact Iff.rfl

end Checked

section Currency

variable {amount value : Nat} {reasons : WithdrawReasons} {E : Error → State A L I → Prop}
  {liveness requirement : ExistenceRequirement} {transactor : A} {Q : Unit → State A L I → Prop}

omit [DecidableEq A] in
theorem post_ensureCanWithdraw {newBalance : Nat} :
    Post (ensureCanWithdraw who amount reasons newBalance) s Q E ↔
      (amount = 0 ∨ (s.data who).frozen reasons.toReasons ≤ newBalance → Q () s) ∧
      (¬(amount = 0 ∨ (s.data who).frozen reasons.toReasons ≤ newBalance) →
        E .liquidityRestrictions s) := by
  unfold ensureCanWithdraw
  by_cases h : amount = 0
  · simp [h]
  · simp [h]

theorem settled_burn : Settles T Below Lock Ok (burn amount) s := by
  unfold burn
  split
  · exact .refl ..
  simp only [post_bind, post_read]
  rcases h : checkedSub s.totalIssuance amount with _ | rest
  · simp only [post_bind, post_modify, post_pure]
    refine .issuance (fun _ => zero_le _) fun _ => ?_
    simp only [worth]
    omega
  obtain ⟨hle, rfl⟩ := checkedSub_eq_some.mp h
  simp only [post_bind, post_modify, post_pure]
  refine .issuance (fun _ => by omega) fun _ => ?_
  simp only [worth]
  omega

theorem settled_issue (hle : Ok → s.totalIssuance ≤ T.maxValue) :
    Settles T Below Lock Ok (issue T amount) s := by
  unfold issue
  split
  · exact .refl ..
  simp only [post_bind, post_read]
  rcases h : T.checkedAdd s.totalIssuance amount with _ | total
  · simp only [post_bind, post_modify, post_pure]
    refine .issuance (fun _ => le_refl _) fun hok => ?_
    have := hle hok
    simp only [worth]
    omega
  obtain ⟨hle, rfl⟩ := checkedAdd_eq_some.mp h
  simp only [post_bind, post_modify, post_pure]
  refine .issuance (fun _ => hle) fun _ => ?_
  simp only [worth]
  omega

theorem settled_depositIntoExisting (hadmits : Admits T Below Ok s who (s.data who).funds True) :
    Settles T Below Lock Ok (depositIntoExisting T who value) s := by
  unfold depositIntoExisting
  split
  · exact .refl ..
  refine settled_of_admits hadmits ?_
  simp only [post_bind, post_ensure, post_okOr, post_pure, checkedAdd_eq_some]
  refine ⟨fun _ => ⟨?_, fun _ => trivial⟩, fun _ => trivial⟩
  rintro free ⟨-, rfl⟩
  refine ⟨trivial, ⟨rfl, rfl⟩, fun _ => ?_, fun _ => ?_⟩
  · simp only [funds]
    omega
  · simp only [funds, worth]
    omega

theorem settled_depositCreating (hadmits : Admits T Below Ok s who (s.data who).funds True) :
    Settles T Below Lock Ok (depositCreating T who value) s := by
  unfold depositCreating
  split
  · exact .refl ..
  simp only [post_bind, post_attempt, post_pure]
  refine (settled_of_admits hadmits ?_).imp (fun _ _ h => h)
  rw [post_bind, post_ensure]
  refine ⟨fun _ => ?_, fun _ => rfl⟩
  rcases hadd : T.checkedAdd (s.data who).free value with _ | free
  · rw [post_pure]
    exact ⟨rfl, ⟨rfl, rfl⟩, fun _ => le_refl _, fun _ => by simp [worth]⟩
  obtain ⟨-, rfl⟩ := checkedAdd_eq_some.mp hadd
  rw [post_pure]
  refine ⟨rfl, ⟨rfl, rfl⟩, fun _ => ?_, fun _ => ?_⟩
  · simp only [funds]
    omega
  · simp only [funds, worth]
    omega

omit [DecidableEq A] in
theorem post_wouldKill {a} {newTotal : Nat}
    (hQ : liveness = .allowDeath ∨ a.funds < T.existentialDeposit ∨
      T.existentialDeposit ≤ newTotal → Q () s) (hE : E .keepAlive s) :
    Post (wouldKill T a newTotal >>= fun kills =>
      ensure (liveness = .allowDeath ∨ kills = false) .keepAlive) s Q E := by
  unfold wouldKill
  rw [post_bind]
  split
  · rw [post_bind, post_unwrap_add]
    intro _
    rw [post_pure, post_ensure]
    refine ⟨fun hlive => hQ ?_, fun _ => hE⟩
    rcases hlive with hlive | hkill
    · exact .inl hlive
    · refine .inr (.inl ?_)
      simpa [funds] using hkill
  · rename_i halive
    rw [post_pure, post_ensure]
    exact ⟨fun _ => hQ (.inr (.inr (not_lt.mp halive))), fun _ => hE⟩

theorem settled_withdraw_of {rest : Nat} (hrest : value ≤ (s.data who).free →
      liveness = .allowDeath ∨ (s.data who).funds < T.existentialDeposit ∨
        T.existentialDeposit ≤ (s.data who).funds - value →
      rest ≤ (s.data who).funds - value ∨ T.existentialDeposit ≤ (s.data who).funds - value)
    (hadmits : Admits T Below Ok s who rest True) :
    Settles T Below Lock Ok (withdraw T who value reasons liveness) s := by
  unfold withdraw
  split
  · exact .refl ..
  refine settled_of_admits hadmits ?_
  generalize s.data who = a at hrest
  rw [post_bind, post_okOr_sub]
  refine ⟨fun hle => ?_, fun _ => rfl⟩
  rw [post_bind, post_unwrap_add]
  intro _
  have hfunds : a.free - value + a.reserved = a.funds - value := by
    simp only [funds]
    omega
  rw [hfunds, ← Exec.bind_assoc, post_bind]
  refine post_wouldKill (fun hlive => ?_) rfl
  rw [post_bind, post_ensureCanWithdraw]
  refine ⟨fun _ => ?_, fun _ => rfl⟩
  rw [post_pure]
  refine ⟨rfl, ⟨rfl, rfl⟩, fun hlt => ?_, fun _ => ?_⟩
  · have htotal := funds_eq_total hlt
    dsimp only at hlt htotal ⊢
    have hleft : (⟨a.free - value, a.reserved, a.miscFrozen, a.feeFrozen⟩ : AccountData).funds =
        a.funds - value := hfunds
    have := hrest hle hlive
    omega
  · simp only [funds, worth]
    omega

theorem settled_withdraw (hadmits : value ≤ (s.data who).free →
      liveness = .allowDeath ∨ (s.data who).funds < T.existentialDeposit →
      Admits T Below Ok s who ((s.data who).funds - value) True) :
    Settles T Below Lock Ok (withdraw T who value reasons liveness) s := by
  by_cases hcond : value ≤ (s.data who).free ∧
      (liveness = .allowDeath ∨ (s.data who).funds < T.existentialDeposit)
  · exact settled_withdraw_of (fun _ _ => .inl (le_refl _)) (hadmits hcond.1 hcond.2)
  refine settled_withdraw_of (fun hle hlive => .inr ?_) fun hlt =>
    absurd hlt (lt_irrefl _)
  rcases hlive with hlive | hlive | hlive
  · exact absurd ⟨hle, .inl hlive⟩ hcond
  · exact absurd ⟨hle, .inr hlive⟩ hcond
  · exact hlive

theorem settled_makeFreeBalanceBe
    (hadmits : Admits T Below Ok s who (value + (s.data who).reserved) True) :
    Settles T Below Lock Ok (makeFreeBalanceBe T who value) s := by
  unfold makeFreeBalanceBe
  simp only [post_bind, post_attempt]
  refine (settled_of_admits hadmits ?_).imp (fun _ _ h => h)
  rw [post_bind, post_ensure]
  refine ⟨fun _ => ?_, fun _ => rfl⟩
  rw [post_pure]
  refine ⟨rfl, ⟨rfl, rfl⟩, fun _ => le_refl _, fun _ => ?_⟩
  simp only [funds]
  split
  · simp only [worth]
    omega
  · simp only [worth]
    omega

/-! ## Transfers -/

/-- What the closure has checked when it returns. -/
structure Transferred (T : Config) (s : State A L I) (transactor : A) (value : Nat)
    (requirement : ExistenceRequirement) (toAccount fromAccount : AccountData)
    (p : AccountData × AccountData) : Prop where
  value_le : value ≤ fromAccount.free
  sender : p.1 = { fromAccount with free := fromAccount.free - value }
  receiver : p.2 = { toAccount with free := toAccount.free + value }
  receiver_lives : T.existentialDeposit ≤ p.2.total T
  unlocked : value = 0 ∨ (s.data transactor).miscFrozen ≤ fromAccount.free - value
  sender_lives : (requirement = .allowDeath ∧ isProviderRequired s.account transactor = false) ∨
    T.existentialDeposit ≤ p.1.total T

section

omit [DecidableEq A]

theorem post_transferFrom {toAccount fromAccount} :
    Post (transferFrom T transactor value requirement toAccount fromAccount) s (fun p s' => s' = s ∧
        Transferred T s transactor value requirement toAccount fromAccount p)
      (fun _ s' => s' = s) := by
  unfold transferFrom
  rw [post_bind, post_okOr_sub]
  refine ⟨fun hle => ?_, fun _ => rfl⟩
  rw [post_bind, post_okOr_add]
  refine ⟨fun _ => ?_, fun _ => rfl⟩
  rw [post_bind, post_ensure]
  refine ⟨fun hto => ?_, fun _ => rfl⟩
  rw [post_bind, post_ensureCanWithdraw]
  refine ⟨fun hlock => ?_, fun _ => rfl⟩
  rw [post_bind, post_read, post_bind, post_ensure]
  exact ⟨fun hfrom => ⟨rfl, hle, rfl, rfl, hto, hlock, hfrom⟩, fun _ => rfl⟩

theorem canDec_of_not_required
    (h : isProviderRequired s.account who = false) : s.canDec who = true := by
  have hzero : (get s.account who).consumers = 0 := by
    simpa [isProviderRequired] using h
  simp [State.canDec, canDecProvider, hzero]

end

theorem settled_transferFrom (Lock Ok : Prop) (toAccount : AccountData)
    (hbelow : requirement = .allowDeath → isProviderRequired s.account transactor = false →
      (s.data transactor).funds - value < T.existentialDeposit →
      s.providing transactor = true → Below transactor) :
    Post (tryMutateAccountWithDust T transactor fun fromAccount _ =>
        transferFrom T transactor value requirement toAccount fromAccount) s
      (fun q s' => Settled T Below Lock Ok (value + worth q.2.dust) s s' ∧
        (∀ j, j ≠ transactor → s'.account.get? j = s.account.get? j) ∧
        q.1 = { toAccount with free := toAccount.free + value } ∧
        T.existentialDeposit ≤ q.1.total T)
      (fun _ s' => Settled T Below Lock Ok 0 s s' ∧ True) := by
  refine (settled_withDust (fun _ => (value : Int)) ?_).and
    (frame_withDust (C := fun b => b = { toAccount with free := toAccount.free + value } ∧
      T.existentialDeposit ≤ b.total T) ?_)
  · refine post_transferFrom.mono ?_ ?_
    · rintro ⟨a, b⟩ s' ⟨rfl, h⟩
      have hsender : a = _ := h.sender
      have hfunds : a.funds + value = (s'.data transactor).funds := by
        have := h.value_le
        rw [hsender]
        simp only [funds]
        omega
      have hdies : a.total T < T.existentialDeposit → requirement = .allowDeath ∧
          isProviderRequired s'.account transactor = false := fun hlt =>
        h.sender_lives.resolve_right (not_le.mpr hlt)
      refine ⟨rfl, fun _ => ?_, fun hlt hp _ => ?_, ⟨0, .refl .., fun _ => ?_⟩,
        fun hlt _ hcan => ?_⟩
      · rw [hsender]
        exact ⟨rfl, rfl⟩
      · refine hbelow (hdies hlt).1 (hdies hlt).2 ?_ hp
        have := funds_eq_total hlt
        dsimp only at hlt this
        omega
      · dsimp only
        omega
      · rw [canDec_of_not_required (hdies hlt).2] at hcan
        cases hcan
    · rintro _ s' rfl
      exact .refl ..
  · refine post_transferFrom.mono ?_ fun _ _ _ => trivial
    rintro ⟨a, b⟩ s' ⟨rfl, h⟩
    exact ⟨rfl, h.receiver, h.receiver_lives⟩

theorem settled_transfer {dest : A} (hbelow : requirement = .allowDeath →
      isProviderRequired s.account transactor = false →
      (s.data transactor).funds - value < T.existentialDeposit →
      s.providing transactor = true → Below transactor) :
    Settles T Below Lock Ok (transfer T transactor dest value requirement) s := by
  unfold Settles transfer
  split
  · exact .refl ..
  rename_i hnoop
  have hne : dest ≠ transactor := fun heq => hnoop (.inr heq.symm)
  rw [post_bind]
  refine (settled_withDust (fun c : DustCleaner => worth c.dust)
    ((settled_transferFrom Lock Ok (s.data dest) hbelow).mono ?_ ?_)).imp ?_
  · rintro ⟨b, c⟩ s' ⟨hsettled, hframe, rfl, hlives⟩
    refine ⟨hframe dest hne, fun _ => ⟨rfl, rfl⟩, fun hlt => ?_, ⟨_, hsettled, fun _ => ?_⟩,
      fun hlt => ?_⟩
    · exact absurd hlives (not_le.mpr hlt)
    · simp only [funds]
      omega
    · exact absurd hlives (not_le.mpr hlt)
  · exact fun _ _ he => he.1
  · rintro ⟨c, c'⟩ s' hsettled
    rw [post_modify]
    exact ((hsettled.trans (.cleaner c)).trans (.cleaner c')).congr fun _ => by
      dsimp only [worth]
      omega

/-! ## Slashes -/

omit [DecidableEq A] in
theorem post_bestValue {a} {first : Bool} {Q : Nat → State A L I → Prop}
    (hQ : ∀ best, (first = true → best = value) → Q best s) :
    Post (bestValue T a value first) s Q E := by
  unfold bestValue
  split
  · exact hQ value fun _ => rfl
  · rename_i hfirst
    rw [post_bind, post_unwrap]
    exact fun total _ => hQ _ fun h => absurd h hfirst

/-- The second attempt is made after a refusal. -/
theorem settled_twoAttempts {attempt : Bool → Exec (State A L I) Error (NegativeImbalance × Nat)}
    (hfirst : Post (attempt true) s (fun r s' => Settled T Below Lock Ok (worth r) s s')
      (fun _ s' => Settled T Below Lock Ok 0 s s' ∧ Settles T Below Lock Ok (attempt false) s')) :
    Settles T Below Lock Ok (twoAttempts attempt value) s := by
  unfold Settles twoAttempts
  rw [post_bind, post_attempt]
  refine hfirst.mono (fun _ _ h => h) fun _ s' hsecond => ?_
  rw [post_bind, post_attempt]
  refine hsecond.2.mono (fun r s'' h => ?_) fun _ s'' h => ?_
  · exact (hsecond.1.trans h).congr fun _ => Int.zero_add _
  · exact (hsecond.1.trans h).congr fun _ => by simp [worth]

structure Slashes (a : AccountData) (limit value : Nat) (first : Bool)
    (p : AccountData × NegativeImbalance × Nat) : Prop where
  frozen : SameFrozen a p.1
  funds : p.1.funds + p.2.1.amount = a.funds
  full : first = true → p.2.1.amount = min limit value

/-- A second attempt is only made where the first was refused, so that neither it can discard the
account nor does anything balance. -/
theorem settled_slashes (limit : Nat) {f : Bool → AccountData → Bool →
      Exec (State A L I) Error (AccountData × NegativeImbalance × Nat)}
    (hf : ∀ first isNew (s' : State A L I), Post (f first (s.data who) isNew) s'
      (fun p s'' => s'' = s' ∧ Slashes (s.data who) limit value first p) (fun _ _ => False))
    (hadmits : Admits T Below Ok s who ((s.data who).funds - min limit value) True) :
    Settles T Below Lock Ok (twoAttempts (fun first => tryMutateAccount T who (f first)) value) s := by
  have hsettled : Settles T Below Lock Ok (tryMutateAccount T who (f true)) s := by
    refine settled_of_admits hadmits ((hf true _ s).noErr ?_)
    rintro ⟨a, n, left⟩ s' ⟨rfl, h⟩
    have hfunds := h.funds
    have hfull := h.full rfl
    refine ⟨rfl, h.frozen, fun _ => ?_, fun _ => ?_⟩
    · omega
    · simp only [worth] at hfunds ⊢
      omega
  have hrefused : Post (tryMutateAccount T who (f true)) s (fun _ _ => True)
      (fun _ s' => s'.account = s.account ∧ s.providing who = true ∧ s.canDec who = false ∧
        (s.data who).funds - min limit value < T.existentialDeposit) := by
    refine refused_tryMutateAccount ((hf true _ s).imp ?_)
    rintro ⟨a, n, left⟩ s' ⟨rfl, h⟩
    refine ⟨rfl, fun hlt => ?_⟩
    have hfunds := h.funds
    have hfull := h.full rfl
    have htotal := funds_eq_total hlt
    omega
  refine settled_twoAttempts ((hsettled.and hrefused).mono (fun _ _ h => h.1) ?_)
  rintro _ s' ⟨hzero, haccount, hp, hcan, hlt⟩
  refine ⟨hzero, ?_⟩
  have hno : ¬Ok := fun hok => by
    rw [(hadmits hlt hp).2 hok (.inr trivial)] at hcan
    cases hcan
  have hget : s'.account.get? who = s.account.get? who := by rw [haccount]
  refine settled_tryMutateAccount worth ?_
  rw [State.data_eq_of_get? hget]
  refine (hf false _ s').noErr ?_
  rintro ⟨a, n, left⟩ s'' ⟨rfl, h⟩
  refine ⟨rfl, fun _ => h.frozen, fun _ _ hcan' => ?_, fun hok => absurd hok hno,
    fun hok => absurd hok hno⟩
  rw [State.canDec_eq_of_get? hget, hcan] at hcan'
  cases hcan'

theorem settled_slash (hadmits : Admits T Below Ok s who ((s.data who).funds - value) True) :
    Settles T Below Lock Ok (slash T who value) s := by
  unfold Settles slash
  split
  · exact .refl ..
  rw [post_bind, post_read]
  split
  · exact .refl ..
  refine settled_slashes (s.data who).funds (fun first isNew s' => ?_) ?_
  · rw [post_bind]
    refine post_bestValue fun best hfirst => ?_
    dsimp only
    split
    · rw [post_pure]
      refine ⟨rfl, ⟨rfl, rfl⟩, ?_, fun h => ?_⟩
      · simp only [funds]
        omega
      · simp only [funds, hfirst h]
        omega
    rw [post_pure]
    refine ⟨rfl, ⟨rfl, rfl⟩, ?_, fun h => ?_⟩
    · simp only [funds]
      omega
    · have := hfirst h
      simp only [funds]
      omega
  · have hsub : (s.data who).funds - min (s.data who).funds value =
        (s.data who).funds - value := by omega
    rwa [hsub]

theorem settled_slashReserved (hadmits : Admits T Below Ok s who
      ((s.data who).funds - min (s.data who).reserved value) True) :
    Settles T Below Lock Ok (slashReserved T who value) s := by
  unfold Settles slashReserved
  split
  · exact .refl ..
  rw [post_bind, post_read]
  split
  · exact .refl ..
  refine settled_slashes _ (fun first isNew s' => ?_) hadmits
  rw [post_bind]
  refine post_bestValue fun best hfirst => ?_
  rw [post_pure]
  refine ⟨rfl, ⟨rfl, rfl⟩, ?_, fun h => ?_⟩
  · simp only [funds]
    omega
  · rw [hfirst h]

end Currency

end Substrate.Balances
