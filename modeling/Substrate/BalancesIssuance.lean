import Substrate.BalancesRuns

/-!
# The total issuance

The total issuance should be what the accounts hold, plus the live negative imbalances, minus the
positive ones. Every call keeps that, as long as the account store accepts what it does. When the
store refuses to take the last provider from under a consumer, it drops what the closure returned:
the imbalances and the dust made in it square up the issuance, though the accounts were left as they
were.
-/

namespace Substrate.Balances

open SignedImbalance NegativeImbalance World

/-! ## Conservation -/

namespace SignedImbalance

def negativePart : SignedImbalance → Nat
  | negative i => i.amount
  | positive _ => 0

def positivePart : SignedImbalance → Nat
  | negative _ => 0
  | positive i => i.amount

theorem worth_eq (i : SignedImbalance) : worth i = (i.negativePart : Int) - i.positivePart := by
  cases i with
  | positive i =>
    change -(i.amount : Int) = ((0 : Nat) : Int) - i.amount
    omega
  | negative i =>
    change (i.amount : Int) = i.amount - ((0 : Nat) : Int)
    omega

end SignedImbalance

section Conserved

variable {A L I : Type}

namespace World

/-- The value of the live negative imbalances, the dust in the hands of the handler included. -/
def negative (w : World A L I) : Nat :=
  (w.live.map negativePart).sum + (w.state.dust.map amount).sum

def positive (w : World A L I) : Nat := (w.live.map positivePart).sum

def Conserved (w : World A L I) : Prop :=
  (w.state.totalIssuance : Int) = w.state.held + w.negative - w.positive

theorem conserved_iff {w : World A L I} : w.Conserved ↔ w.state.gap = (w.live.map worth).sum := by
  have hlive : ∀ l : List SignedImbalance, (l.map worth).sum = ((l.map negativePart).sum : Int) -
        (l.map positivePart).sum := by
    intro l
    induction l with
    | nil => rfl
    | cons i l ih =>
      simp only [List.map_cons, List.sum_cons, ih, worth_eq]
      omega
  unfold Conserved State.gap negative positive
  rw [hlive]
  omega

end World

namespace Action

variable [DecidableEq A] [DecidableEq L] [LinearOrder I] (T : Config)

/-- No sum leaves the balance type, and no difference is cut off at zero: a negative imbalance is
dropped while the issuance covers it. -/
def Fits (w : World A L I) : Action A L I → Prop
  | call c => (∀ who, (w.state.data who).funds ≤ T.maxValue) ∧ c.Fits T w.state
  | drop (.positive i) => w.state.totalIssuance + i.amount ≤ T.maxValue
  | drop (.negative i) => i.amount ≤ w.state.totalIssuance
  | merge (.positive i) (.positive j) => i.amount + j.amount ≤ T.maxValue
  | merge (.negative i) (.negative j) => i.amount + j.amount ≤ T.maxValue
  | merge (.positive _) (.negative _) | merge (.negative _) (.positive _) => True
  | split _ _ | onUnbalanced => True

def Accepted (w : World A L I) : Action A L I → Prop
  | call c => c.Accepted T w.state
  | drop _ | split _ _ | merge _ _ | onUnbalanced => True

end Action

end Conserved

section Issuance

variable {A L I : Type} [DecidableEq A] [DecidableEq L] [LinearOrder I] {T : Config}

theorem worth_split (i : SignedImbalance) (amount : Nat) :
    worth (i.split amount).1 + worth (i.split amount).2 = worth i := by
  rcases i with ⟨⟨a⟩⟩ | ⟨⟨a⟩⟩
  · change -((min a amount : Nat) : Int) + -((a - min a amount : Nat) : Int) = -(a : Int)
    omega
  · change ((min a amount : Nat) : Int) + ((a - min a amount : Nat) : Int) = (a : Int)
    omega

theorem worth_offset (a b : Nat) : worth (offset a b) = (b : Int) - a := by
  unfold offset
  split
  · change -((a - b : Nat) : Int) = _
    omega
  split
  · change ((b - a : Nat) : Int) = _
    omega
  · change -((0 : Nat) : Int) = _
    omega

section

omit [DecidableEq A] [DecidableEq L] [LinearOrder I]

theorem worth_merge {w : World A L I} {i j : SignedImbalance}
    (hfits : (Action.merge i j).Fits T w) : worth (i.merge T j) = worth i + worth j := by
  rcases i with ⟨⟨a⟩⟩ | ⟨⟨a⟩⟩ <;> rcases j with ⟨⟨b⟩⟩ | ⟨⟨b⟩⟩
  · have : a + b ≤ T.maxValue := hfits
    change -((min (a + b) T.maxValue : Nat) : Int) = -(a : Int) + -(b : Int)
    omega
  · rw [merge, worth_offset]
    change (b : Int) - a = -(a : Int) + b
    omega
  · rw [merge, worth_offset]
    change (a : Int) - b = (a : Int) + -b
    omega
  · have : a + b ≤ T.maxValue := hfits
    change ((min (a + b) T.maxValue : Nat) : Int) = (a : Int) + (b : Int)
    omega

theorem gap_drop {w : World A L I} {i : SignedImbalance} (hfits : (Action.drop i).Fits T w) :
    (Drop.drop T i w.state).gap = w.state.gap - worth i := by
  rcases i with ⟨⟨a⟩⟩ | ⟨⟨a⟩⟩
  · have : w.state.totalIssuance + a ≤ T.maxValue := hfits
    change ((min (w.state.totalIssuance + a) T.maxValue : Nat) : Int) - w.state.held -
        (w.state.dust.map amount).sum = w.state.gap - -(a : Int)
    unfold State.gap
    omega
  have : a ≤ w.state.totalIssuance := hfits
  change ((w.state.totalIssuance - a : Nat) : Int) - w.state.held -
      (w.state.dust.map amount).sum = w.state.gap - (a : Int)
  unfold State.gap
  omega

end

/-- Conserved, and within the balance type. -/
structure Balanced (T : Config) (w : World A L I) : Prop where
  conserved : w.Conserved
  issuance_le : w.state.totalIssuance ≤ T.maxValue

theorem Balanced.perform {w w' : World A L I} {a : Action A L I} (h : Balanced T w)
    (hfits : a.Fits T w) (haccepted : a.Accepted T w) (hstep : a.perform T w = some w') :
    Balanced T w' := by
  have hgap := conserved_iff.mp h.conserved
  cases a with
  | call c =>
    have hsound : c.Sound T w.state := ⟨h.issuance_le, hfits.1, hfits.2, haccepted⟩
    obtain ⟨r, hlive, hsettled⟩ := Action.perform_call hstep
    refine ⟨conserved_iff.mpr ?_, hsettled.issuance_le h.issuance_le⟩
    rw [hsettled.gap hsound, hgap, hlive]
    cases r with
    | none => exact Int.add_zero _
    | some i => exact Int.add_comm _ _
  | drop i =>
    rw [Action.perform] at hstep
    split at hstep
    · rename_i hmem
      obtain rfl := Option.some.inj hstep
      have hsum := List.sum_map_erase worth hmem
      obtain ⟨n, dust, hdrop, hle⟩ := LawfulDrop.drop_eq i w.state
      refine ⟨conserved_iff.mpr ?_, by rw [hdrop]; exact hle h.issuance_le⟩
      rw [gap_drop hfits]
      dsimp only
      omega
    · cases hstep
  | split i amount =>
    rw [Action.perform] at hstep
    split at hstep
    · rename_i hmem
      obtain rfl := Option.some.inj hstep
      have hsum := List.sum_map_erase worth hmem
      have hsplit := worth_split i amount
      refine ⟨conserved_iff.mpr ?_, h.issuance_le⟩
      simp only [List.map_cons, List.sum_cons]
      omega
    · cases hstep
  | merge i j =>
    rw [Action.perform] at hstep
    split at hstep
    · rename_i hmem
      obtain rfl := Option.some.inj hstep
      have hsum := List.sum_map_erase worth hmem.1
      have hsum' := List.sum_map_erase worth hmem.2
      have hmerge := worth_merge hfits
      refine ⟨conserved_iff.mpr ?_, h.issuance_le⟩
      simp only [List.map_cons, List.sum_cons]
      omega
    · cases hstep
  | onUnbalanced =>
    obtain rfl := Option.some.inj hstep
    refine ⟨?_, h.issuance_le⟩
    have hdust : (w.state.dust.map .negative).map negativePart = w.state.dust.map amount := by
      rw [List.map_map]
      rfl
    have hnone : ((w.state.dust.map .negative).map positivePart).sum = 0 := by
      rw [List.map_map]
      exact List.sum_eq_zero (by simp [positivePart])
    have hconserved := h.conserved
    unfold World.Conserved World.negative World.positive at hconserved ⊢
    rw [List.map_append, List.sum_append, List.map_append, List.sum_append, hdust,
      List.map_nil, List.sum_nil]
    change (w.state.totalIssuance : Int) = w.state.held + _ - _
    omega

/-- **The total issuance is conserved** along every run whose calls the account store accepts. -/
theorem issuance_conserved {w w' : World A L I} (hstart : w.Conserved)
    (hle : w.state.totalIssuance ≤ T.maxValue)
    (hrun : Run T (fun w a => a.Fits T w ∧ a.Accepted T w) w w') :
    (w'.state.totalIssuance : Int) = w'.state.held + w'.negative - w'.positive := by
  have hbalanced : Balanced T w' := by
    induction hrun with
    | refl => exact ⟨hstart, hle⟩
    | step hrun hcond hstep ih => exact ih.perform hcond.1 hcond.2 hstep
  exact hbalanced.conserved

end Issuance

/-! ## An account that cannot go -/

/-- One account with a free balance of 10 and the given number of consumers. -/
def oneAccount (consumers : Nat) : World Bool Nat Nat where
  state :=
    { account := FinMap.empty.insert true ⟨0, consumers, 1, 0, ⟨10, 0, 0, 0⟩⟩
      totalIssuance := 10
      locks := .empty
      reserves := .empty
      dust := [] }
  live := []

def slashEight : Action Bool Nat Nat := .call (.slash true 8)

def slashed (consumers : Nat) : World Bool Nat Nat :=
  (slashEight.perform fiveDeposit (oneAccount consumers)).getD (oneAccount consumers)

instance {A L I : Type} (w : World A L I) : Decidable w.Conserved := Int.instDecidableEq _ _

/-- Without a consumer the account goes, and all is conserved. -/
theorem slashed_account_conserved : ((slashed 0).state.totalIssuance : Int) =
      (slashed 0).state.held + (slashed 0).negative - (slashed 0).positive := by
  refine issuance_conserved (T := fiveDeposit) (w := oneAccount 0) (by decide) (by decide)
    (.step (a := slashEight) (.refl _) ⟨⟨?_, trivial⟩, ?_⟩ rfl)
  · decide
  · show ∀ l ∈ (Call.slash true 8 : Call Bool Nat Nat).leaves fiveDeposit (oneAccount 0).state, _
    decide

/-- With a consumer the store refuses the first attempt of the slash. The imbalance and the dust
made in it are dropped, and the issuance falls to 0 while the account keeps 5 and an imbalance
of 5 is live. -/
theorem refused_slash_loses_issuance :
    0 < fiveDeposit.existentialDeposit ∧ (oneAccount 1).Conserved ∧
      slashEight.Fits fiveDeposit (oneAccount 1) ∧
      slashEight.perform fiveDeposit (oneAccount 1) = some (slashed 1) ∧
      (slashed 1).state.totalIssuance = 0 ∧ (slashed 1).state.held = 5 ∧
      (slashed 1).live = [.negative ⟨5⟩] ∧ ¬(slashed 1).Conserved := by
  refine ⟨by decide, by decide, ⟨by decide, trivial⟩, rfl, ?_⟩
  decide

/-- 10 are burned, and then the 10 of the account are withdrawn. -/
def inFlight : Option (World Bool Nat Nat) := do
  let w ← Action.perform fiveDeposit (oneAccount 0) (.call (.burn 10))
  Action.perform fiveDeposit w (.call (.withdraw true 10 .all .allowDeath))

/-- The order in which imbalances are dropped matters. The issuance of 0 cannot give the 10 of the
negative one, which is lost if it is dropped before the positive one. -/
theorem drop_order_loses_issuance : ∃ w w', inFlight = some w ∧ w.Conserved ∧
    Action.perform fiveDeposit w (.drop (.negative ⟨10⟩)) = some w' ∧ ¬w'.Conserved :=
  ⟨_, _, rfl, by decide, rfl, by decide⟩

end Substrate.Balances
