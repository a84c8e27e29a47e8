import Substrate.BalancesSettledReserves

/-!
# Runs of the balances pallet

Imbalances that a call returns are held outside the pallet until they are dropped, split or merged;
dust handed to the handler becomes one of them. `Call.leaves` says, before a call, with what it can
leave an account whose record it rewrites. From it come the two conditions the results on runs are
about: whether the store will accept the call (`Accepted`), and which accounts it may discard
(`Below`).
-/

namespace Substrate.Balances

open List Option

/-! ## Calls -/

inductive Call (A L I : Type) where
  | burn (amount : Nat)
  | issue (amount : Nat)
  | transfer (transactor dest : A) (value : Nat) (requirement : ExistenceRequirement)
  | slash (who : A) (value : Nat)
  | depositIntoExisting (who : A) (value : Nat)
  | depositCreating (who : A) (value : Nat)
  | withdraw (who : A) (value : Nat) (reasons : WithdrawReasons) (liveness : ExistenceRequirement)
  | makeFreeBalanceBe (who : A) (value : Nat)
  | reserve (who : A) (value : Nat)
  | unreserve (who : A) (value : Nat)
  | slashReserved (who : A) (value : Nat)
  | repatriateReserved (slashed beneficiary : A) (value : Nat) (status : Status)
  | reserveNamed (id : I) (who : A) (value : Nat)
  | unreserveNamed (id : I) (who : A) (value : Nat)
  | slashReservedNamed (id : I) (who : A) (value : Nat)
  | repatriateReservedNamed (id : I) (slashed beneficiary : A) (value : Nat) (status : Status)
  | mintInto (who : A) (amount : Nat)
  | burnFrom (who : A) (amount : Nat)
  | hold (who : A) (amount : Nat)
  | release (who : A) (amount : Nat) (bestEffort : Bool)
  | transferHeld (source dest : A) (amount : Nat) (bestEffort onHold : Bool)
  | setBalance (who : A) (newFree newReserved : Nat)
  | transferAll (transactor dest : A) (keepAlive : Bool)
  | setLock (id : L) (who : A) (amount : Nat) (reasons : WithdrawReasons)
  | extendLock (id : L) (who : A) (amount : Nat) (reasons : WithdrawReasons)
  | removeLock (id : L) (who : A)

structure Leaving (A : Type) where
  who : A
  /-- The least free and reserved balance together. -/
  rest : Nat
  /-- The call also makes an imbalance, or moves funds from elsewhere. -/
  lossy : Bool

namespace Call

variable {A L I : Type} [DecidableEq A] [DecidableEq L] [LinearOrder I] (T : Config)

/-- It returns the imbalance that it hands to the caller. -/
def run : Call A L I → Exec (State A L I) Error (Option SignedImbalance)
  | burn amount => (some ∘ .positive) <$> Balances.burn amount
  | issue amount => (some ∘ .negative) <$> Balances.issue T amount
  | transfer transactor dest value requirement =>
    (fun _ => none) <$> Balances.transfer T transactor dest value requirement
  | slash who value => (fun r => some (.negative r.1)) <$> Balances.slash T who value
  | depositIntoExisting who value =>
    (some ∘ .positive) <$> Balances.depositIntoExisting T who value
  | depositCreating who value => (some ∘ .positive) <$> Balances.depositCreating T who value
  | withdraw who value reasons liveness =>
    (some ∘ .negative) <$> Balances.withdraw T who value reasons liveness
  | makeFreeBalanceBe who value => some <$> Balances.makeFreeBalanceBe T who value
  | reserve who value => (fun _ => none) <$> Balances.reserve T who value
  | unreserve who value => (fun _ => none) <$> Balances.unreserve T who value
  | slashReserved who value =>
    (fun r => some (.negative r.1)) <$> Balances.slashReserved T who value
  | repatriateReserved slashed beneficiary value status =>
    (fun _ => none) <$> Balances.repatriateReserved T slashed beneficiary value status
  | reserveNamed id who value => (fun _ => none) <$> Balances.reserveNamed T id who value
  | unreserveNamed id who value => (fun _ => none) <$> Balances.unreserveNamed T id who value
  | slashReservedNamed id who value =>
    (fun r => some (.negative r.1)) <$> Balances.slashReservedNamed T id who value
  | repatriateReservedNamed id slashed beneficiary value status =>
    (fun _ => none) <$> Balances.repatriateReservedNamed T id slashed beneficiary value status
  | mintInto who amount => (fun _ => none) <$> Balances.mintInto T who amount
  | burnFrom who amount => (fun _ => none) <$> Balances.burnFrom T who amount
  | hold who amount => (fun _ => none) <$> Balances.hold T who amount
  | release who amount bestEffort => (fun _ => none) <$> Balances.release T who amount bestEffort
  | transferHeld source dest amount bestEffort onHold =>
    (fun _ => none) <$> Balances.transferHeld T source dest amount bestEffort onHold
  | setBalance who newFree newReserved =>
    (fun _ => none) <$> Balances.setBalance T who newFree newReserved
  | transferAll transactor dest keepAlive =>
    (fun _ => none) <$> Balances.transferAll T transactor dest keepAlive
  | setLock id who amount reasons => (fun _ => none) <$> Balances.setLock T id who amount reasons
  | extendLock id who amount reasons =>
    (fun _ => none) <$> Balances.extendLock T id who amount reasons
  | removeLock id who => (fun _ => none) <$> Balances.removeLock T id who

section

variable (s : State A L I) (c : Call A L I)

def leavesRepatriated (slashed beneficiary : A) (value : Nat) : List (Leaving A) :=
  if slashed = beneficiary then [⟨slashed, (s.data slashed).funds, false⟩]
  else
    [⟨slashed, (s.data slashed).funds - min (s.data slashed).reserved value, false⟩,
      ⟨beneficiary, (s.data beneficiary).funds, true⟩]

def leavesTransferred (transactor : A) (value : Nat) (mayDie : Bool) : List (Leaving A) :=
  if mayDie = true ∧ FrameSystem.isProviderRequired s.account transactor = false then
    [⟨transactor, (s.data transactor).funds - value, false⟩]
  else []

/-- What a call can leave the accounts with whose records it rewrites. -/
def leaves : Call A L I → List (Leaving A)
  | burn _ | issue _ | mintInto _ _ => []
  | transfer transactor _ value requirement =>
    leavesTransferred s transactor value (decide (requirement = .allowDeath))
  | transferAll transactor _ keepAlive =>
    leavesTransferred s transactor (reducibleBalance T transactor keepAlive s) (!keepAlive)
  | depositIntoExisting who _ | depositCreating who _ => [⟨who, (s.data who).funds, true⟩]
  | slash who value => [⟨who, (s.data who).funds - value, true⟩]
  | withdraw who value _ liveness =>
    if value ≤ (s.data who).free ∧
        (liveness = .allowDeath ∨ (s.data who).funds < T.existentialDeposit) then
      [⟨who, (s.data who).funds - value, true⟩]
    else []
  | makeFreeBalanceBe who value => [⟨who, value + (s.data who).reserved, true⟩]
  | reserve who _ | unreserve who _ | reserveNamed _ who _ | unreserveNamed _ who _
  | hold who _ | release who _ _ | setLock _ who _ _ | extendLock _ who _ _
  | removeLock _ who => [⟨who, (s.data who).funds, false⟩]
  | slashReserved who value =>
    [⟨who, (s.data who).funds - min (s.data who).reserved value, true⟩]
  | slashReservedNamed id who value =>
    [⟨who, (s.data who).funds -
      min (s.data who).reserved (min (reservedBalanceNamed id who s) value), true⟩]
  | repatriateReserved slashed beneficiary value _ =>
    leavesRepatriated s slashed beneficiary value
  | transferHeld source dest amount _ _ => leavesRepatriated s source dest amount
  | repatriateReservedNamed id slashed beneficiary value _ =>
    leavesRepatriated s slashed beneficiary (min (reservedBalanceNamed id slashed s) value)
  | burnFrom who amount =>
    if s.canDec who then [⟨who, (s.data who).total T - amount, false⟩] else []
  | setBalance who newFree newReserved =>
    if newFree + newReserved < T.existentialDeposit then [⟨who, 0, true⟩] else []

def Below (who : A) : Prop :=
  s.providing who = true ∧ s.canDec who = true ∧
    ∃ l ∈ c.leaves T s, l.who = who ∧ l.rest < T.existentialDeposit

/-- **The store accepts the call**: where an account is left below the existential deposit and a
refusal would lose anything, the account can lose the provider of its record. -/
def Accepted : Prop :=
  ∀ l ∈ c.leaves T s, l.rest < T.existentialDeposit → s.providing l.who = true →
    0 < l.rest ∨ l.lossy = true → s.canDec l.who = true

/-- No sum or difference of the call leaves the balance type. -/
def Fits : Call A L I → Prop
  | setBalance who newFree newReserved =>
    SquaresUp T s.totalIssuance (s.data who).free (wipedOut T (newFree + newReserved) newFree) ∧
      SquaresUp T (s.totalIssuance + wipedOut T (newFree + newReserved) newFree - (s.data who).free)
        (s.data who).reserved (wipedOut T (newFree + newReserved) newReserved)
  | _ => True

end

def changesLocks : Call A L I → Prop
  | setLock _ _ _ _ | extendLock _ _ _ _ | removeLock _ _ => True
  | _ => False

variable {T} {s : State A L I} {c : Call A L I}

section

omit [DecidableEq L]

theorem admits_of_mem {Ok : Prop} (hok : Ok → c.Accepted T s) {l} (hl : l ∈ c.leaves T s) :
    Admits T (c.Below T s) Ok s l.who l.rest (l.lossy = true) :=
  fun hlt hp => ⟨fun hcan => ⟨hp, hcan, l, hl, rfl, hlt⟩, fun h hloss => hok h l hl hlt hp hloss⟩

theorem below_of_mem {l} (hl : l ∈ c.leaves T s) (hlt : l.rest < T.existentialDeposit)
    (hp : s.providing l.who = true) (hcan : s.canDec l.who = true) : c.Below T s l.who :=
  ⟨hp, hcan, l, hl, rfl, hlt⟩

end

structure Sound (T : Config) (s : State A L I) (c : Call A L I) : Prop where
  issuance_le : s.totalIssuance ≤ T.maxValue
  funds_le : ∀ who, (s.data who).funds ≤ T.maxValue
  fits : c.Fits T s
  accepted : c.Accepted T s

section

omit [DecidableEq L]

theorem admits_same {who : A} (hl : c.leaves T s = [⟨who, (s.data who).funds, false⟩]) :
    Admits T (c.Below T s) (c.Sound T s) s who (s.data who).funds False := by
  have h : Admits T (c.Below T s) (c.Sound T s) s who (s.data who).funds (false = true) :=
    admits_of_mem Sound.accepted (by rw [hl]; exact mem_singleton_self _)
  simpa using h

theorem admits_lossy {who : A} {rest : Nat} (hl : c.leaves T s = [⟨who, rest, true⟩]) :
    Admits T (c.Below T s) (c.Sound T s) s who rest True := by
  have h : Admits T (c.Below T s) (c.Sound T s) s who rest (true = true) :=
    admits_of_mem Sound.accepted (by rw [hl]; exact mem_singleton_self _)
  simpa using h

end

section

omit [DecidableEq L]

theorem repatriable {slashed beneficiary : A} {value : Nat}
    (hl : c.leaves T s = leavesRepatriated s slashed beneficiary value) :
    Repatriable T (c.Below T s) (c.Sound T s) s slashed beneficiary value where
  fits h := h.funds_le slashed
  same heq := admits_same (by rw [hl, leavesRepatriated, if_pos heq])
  sender hne := by
    have h := admits_of_mem Sound.accepted (by
      rw [hl, leavesRepatriated, if_neg hne]
      exact mem_cons_self)
    simpa using h
  receiver hne := by
    have h := admits_of_mem Sound.accepted (by
      rw [hl, leavesRepatriated, if_neg hne]
      exact mem_cons_of_mem _ (mem_singleton_self _))
    simpa using h

theorem below_transferred {transactor : A} {value : Nat} {mayDie : Bool}
    (hl : c.leaves T s = leavesTransferred s transactor value mayDie) (hmay : mayDie = true)
    (hfree : FrameSystem.isProviderRequired s.account transactor = false)
    (hlt : (s.data transactor).funds - value < T.existentialDeposit)
    (hp : s.providing transactor = true) : c.Below T s transactor := by
  refine below_of_mem (l := ⟨transactor, _, false⟩) ?_ hlt hp (canDec_of_not_required hfree)
  rw [hl, leavesTransferred, if_pos ⟨hmay, hfree⟩]
  exact mem_singleton_self _

end

theorem run_settled (c : Call A L I) (s : State A L I) :
    Settles T (c.Below T s) c.changesLocks (c.Sound T s) (c.run T) s := by
  unfold Settles
  cases c with rw [run, Exec.post_map]
  | burn amount =>
    exact settled_burn
  | issue amount =>
    exact settled_issue Sound.issuance_le
  | transfer transactor dest value requirement =>
    exact settled_transfer fun hdeath => below_transferred rfl (decide_eq_true hdeath)
  | slash who value =>
    refine (settled_slash (admits_lossy rfl)).imp (fun r s' h => ?_)
    exact h.congr fun _ => Int.add_zero _
  | depositIntoExisting who value =>
    exact settled_depositIntoExisting (admits_lossy rfl)
  | depositCreating who value =>
    exact settled_depositCreating (admits_lossy rfl)
  | withdraw who value reasons liveness =>
    exact settled_withdraw fun hle hmay => admits_lossy (if_pos ⟨hle, hmay⟩)
  | makeFreeBalanceBe who value =>
    exact settled_makeFreeBalanceBe (admits_lossy rfl)
  | reserve who value =>
    exact settled_reserve (admits_same rfl)
  | unreserve who value =>
    exact settled_unreserve (admits_same rfl) fun h => h.funds_le who
  | slashReserved who value =>
    refine (settled_slashReserved (admits_lossy rfl)).imp (fun r s' h => ?_)
    exact h.congr fun _ => Int.add_zero _
  | repatriateReserved slashed beneficiary value status =>
    exact settled_repatriateReserved (repatriable rfl)
  | reserveNamed id who value =>
    exact settled_reserveNamed (admits_same rfl)
  | unreserveNamed id who value =>
    exact settled_unreserveNamed (admits_same rfl) fun h => h.funds_le who
  | slashReservedNamed id who value =>
    refine (settled_slashReservedNamed (admits_lossy rfl)).imp (fun r s' h => ?_)
    exact h.congr fun _ => Int.add_zero _
  | repatriateReservedNamed id slashed beneficiary value status =>
    exact settled_repatriateReservedNamed (repatriable rfl)
  | mintInto who amount =>
    exact settled_mintInto
  | burnFrom who amount =>
    refine settled_burnFrom fun hlt hp hcan => below_of_mem (l := ⟨who, _, false⟩) ?_ hlt hp hcan
    rw [leaves, if_pos hcan]
    exact mem_singleton_self _
  | hold who amount =>
    exact settled_hold (admits_same rfl)
  | release who amount bestEffort =>
    exact settled_release (admits_same rfl)
  | transferHeld source dest amount bestEffort onHold =>
    exact settled_doTransferReserved (repatriable rfl)
  | setBalance who newFree newReserved =>
    exact settled_setBalance Sound.fits fun hlt => admits_lossy (if_pos hlt)
  | transferAll transactor dest keepAlive =>
    unfold Balances.transferAll
    rw [Exec.post_bind]
    refine settled_transfer fun hdeath => below_transferred rfl ?_
    cases keepAlive with
    | false => rfl
    | true => cases hdeath
  | setLock id who amount reasons | extendLock id who amount reasons =>
    exact settled_changeLock trivial (admits_same rfl)
  | removeLock id who =>
    exact settled_removeLock trivial (admits_same rfl)

end Call

/-! ## Worlds -/

namespace SignedImbalance

/-- The first is at most `amount`, the second the remainder. -/
def split (amount : Nat) : SignedImbalance → SignedImbalance × SignedImbalance
  | positive ⟨a⟩ => (positive ⟨min a amount⟩, positive ⟨a - min a amount⟩)
  | negative ⟨a⟩ => (negative ⟨min a amount⟩, negative ⟨a - min a amount⟩)

/-- `PositiveImbalance::offset`, with a zero imbalance for none. -/
def offset (a b : Nat) : SignedImbalance :=
  if b < a then positive ⟨a - b⟩ else if a < b then negative ⟨b - a⟩ else positive ⟨0⟩

def merge (T : Config) : SignedImbalance → SignedImbalance → SignedImbalance
  | positive ⟨a⟩, positive ⟨b⟩ => positive ⟨T.saturatingAdd a b⟩
  | negative ⟨a⟩, negative ⟨b⟩ => negative ⟨T.saturatingAdd a b⟩
  | positive ⟨a⟩, negative ⟨b⟩ => offset a b
  | negative ⟨a⟩, positive ⟨b⟩ => offset b a

end SignedImbalance

/-- The state, with the imbalances that are live outside of the pallet. -/
structure World (A L I : Type) where
  state : State A L I
  live : List SignedImbalance

inductive Action (A L I : Type) where
  | call (c : Call A L I)
  | drop (i : SignedImbalance)
  | split (i : SignedImbalance) (amount : Nat)
  | merge (i j : SignedImbalance)
  /-- The handler takes the dust. -/
  | onUnbalanced

section Runs

variable {A L I : Type} [DecidableEq A] [DecidableEq L] [LinearOrder I] (T : Config)

/-- There is no world after a panic, and only live imbalances can be consumed. -/
def Action.perform (w : World A L I) : Action A L I → Option (World A L I)
  | call c =>
    match c.run T w.state with
    | (.ok r, s) => some ⟨s, r.toList ++ w.live⟩
    | (.err _, s) => some { w with state := s }
    | (.panic, _) => none
  | drop i =>
    if i ∈ w.live then some ⟨Drop.drop T i w.state, w.live.erase i⟩ else none
  | split i amount =>
    if i ∈ w.live then
      some { w with live := (i.split amount).1 :: (i.split amount).2 :: w.live.erase i }
    else none
  | merge i j =>
    if i ∈ w.live ∧ j ∈ w.live.erase i then
      some { w with live := i.merge T j :: (w.live.erase i).erase j }
    else none
  | onUnbalanced =>
    some ⟨{ w.state with dust := [] }, w.state.dust.map .negative ++ w.live⟩

variable {T} in
theorem Action.perform_post {c w w'} {Q : Option SignedImbalance → State A L I → Prop}
    {E : Error → State A L I → Prop} (hpost : Exec.Post (c.run T) w.state Q E)
    (h : (Action.call c).perform T w = some w') :
    (∃ r : Option SignedImbalance, w'.live = r.toList ++ w.live ∧ Q r w'.state) ∨
      ∃ e, w'.live = w.live ∧ E e w'.state := by
  rw [Action.perform] at h
  rw [Exec.Post] at hpost
  generalize c.run T w.state = res at h hpost
  rcases res with ⟨r | e | _, s'⟩
  · obtain rfl := some.inj h
    exact .inl ⟨r, rfl, hpost⟩
  · obtain rfl := some.inj h
    exact .inr ⟨e, rfl, hpost⟩
  · cases h

variable {T} in
theorem Action.perform_call {c : Call A L I} {w w' : World A L I}
    (h : (Action.call c).perform T w = some w') :
    ∃ r : Option SignedImbalance, w'.live = r.toList ++ w.live ∧
      Settled T (c.Below T w.state) c.changesLocks (c.Sound T w.state) (worth r) w.state
        w'.state := by
  rcases Action.perform_post (c.run_settled w.state) h with ⟨r, hlive, hsettled⟩ | ⟨e, hlive, hsettled⟩
  · exact ⟨r, hlive, hsettled⟩
  · exact ⟨none, hlive, hsettled⟩

def Action.Below (w : World A L I) : Action A L I → A → Prop
  | call c => c.Below T w.state
  | drop _ | split _ _ | merge _ _ | onUnbalanced => fun _ => False

def Action.changesLocks : Action A L I → Prop
  | call c => c.changesLocks
  | drop _ | split _ _ | merge _ _ | onUnbalanced => False

variable {T} in
theorem Action.perform_moves {a : Action A L I} {w w' : World A L I} (h : a.perform T w = some w') :
    Relation.ReflTransGen (Move T (a.Below T w) a.changesLocks) w.state w'.state := by
  cases a with
  | call c =>
    obtain ⟨r, -, hsettled⟩ := Action.perform_call h
    exact hsettled.moves
  | drop i =>
    rw [Action.perform] at h
    split at h
    · obtain rfl := some.inj h
      obtain ⟨n, dust, hdrop, -⟩ := LawfulDrop.drop_eq i w.state
      rw [hdrop]
      exact .tail (.single (.issuance w.state n)) (.dust _ dust)
    · cases h
  | split i amount | merge i j =>
    rw [Action.perform] at h
    split at h
    · obtain rfl := some.inj h
      exact .refl
    · cases h
  | onUnbalanced =>
    obtain rfl := some.inj h
    exact .single (.dust w.state [])

inductive Run (Cond : World A L I → Action A L I → Prop) : World A L I → World A L I → Prop
  | refl (w : World A L I) : Run Cond w w
  | step {w w' w'' a} (hrun : Run Cond w w') (hcond : Cond w' a)
      (hstep : a.perform T w' = some w'') : Run Cond w w''

end Runs

def fiveDeposit : Config := ⟨5, 1000, 0, by decide⟩

end Substrate.Balances
