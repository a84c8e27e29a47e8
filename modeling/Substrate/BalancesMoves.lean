import Substrate.BalancesMutation
import Substrate.BalancesPallet

/-!
# What an operation can do to the state

A call changes the state by a few kinds of steps (`Move`), and every invariant of the pallet is
proved for these. Next to them, calls are followed by the *gap* between the issuance and what the
accounts and the dust hold. `Settled w s s'` says that a call went from `s` to `s'` by such steps
and that the gap grew by `w`, the worth of the imbalances the call returned.
-/

namespace Substrate.Balances

open Exec NegativeImbalance State Drop

variable {A L I R R' : Type} {T : Config}

/-! ## Worth -/

/-- The worth of the imbalances in a value: what the issuance loses when it is dropped. -/
class Worth (R : Type) where
  worth : R → Int

export Worth (worth)

instance : Worth Unit := ⟨fun _ => 0⟩

instance : Worth Nat := ⟨fun _ => 0⟩

instance : Worth PositiveImbalance := ⟨fun i => -(i.amount : Int)⟩

instance : Worth NegativeImbalance := ⟨fun i => i.amount⟩

instance : Worth SignedImbalance where
  worth
    | .positive i => worth i
    | .negative i => worth i

instance [Worth R] [Worth R'] : Worth (R × R') := ⟨fun p => worth p.1 + worth p.2⟩

instance [Worth R] : Worth (Option R) := ⟨fun o => (o.map worth).getD 0⟩

class LawfulDrop (T : Config) (A L I R : Type) [Drop T (State A L I) R] : Prop where
  drop_eq : ∀ (r : R) (s : State A L I), ∃ n dust,
    drop T r s = { s with totalIssuance := n, dust := dust } ∧
      (s.totalIssuance ≤ T.maxValue → n ≤ T.maxValue)

section LawfulDrop

instance : LawfulDrop T A L I Unit := ⟨fun _ s => ⟨s.totalIssuance, s.dust, rfl, id⟩⟩

instance : LawfulDrop T A L I Nat := ⟨fun _ s => ⟨s.totalIssuance, s.dust, rfl, id⟩⟩

instance : LawfulDrop T A L I AccountData := ⟨fun _ s => ⟨s.totalIssuance, s.dust, rfl, id⟩⟩

instance : LawfulDrop T A L I PositiveImbalance :=
  ⟨fun _ _ => ⟨_, _, rfl, fun _ => Nat.min_le_right _ _⟩⟩

instance : LawfulDrop T A L I NegativeImbalance :=
  ⟨fun _ _ => ⟨_, _, rfl, fun h => Nat.le_trans (Nat.sub_le _ _) h⟩⟩

instance : LawfulDrop T A L I SignedImbalance where
  drop_eq
    | .positive i, s => LawfulDrop.drop_eq i s
    | .negative i, s => LawfulDrop.drop_eq i s

instance : LawfulDrop T A L I DustCleaner := ⟨fun _ s => ⟨s.totalIssuance, _, rfl, id⟩⟩

instance [Drop T (State A L I) R] [LawfulDrop T A L I R] : LawfulDrop T A L I (Option R) where
  drop_eq
    | none, s => ⟨s.totalIssuance, s.dust, rfl, id⟩
    | some r, s => LawfulDrop.drop_eq r s

instance [Drop T (State A L I) R] [Drop T (State A L I) R'] [LawfulDrop T A L I R]
    [LawfulDrop T A L I R'] : LawfulDrop T A L I (R × R') where
  drop_eq p s := by
    obtain ⟨n, dust, h, hle⟩ := LawfulDrop.drop_eq (T := T) p.1 s
    obtain ⟨n', dust', h', hle'⟩ := LawfulDrop.drop_eq (T := T) p.2 (drop T p.1 s)
    rw [h] at h' hle'
    refine ⟨n', dust', ?_, fun hs => hle' (hle hs)⟩
    show drop T p.2 (drop T p.1 s) = _
    rw [h, h']

end LawfulDrop

/-! ## The gap -/

/-- What the issuance has beyond what the accounts and the dust hold. -/
def State.gap (s : State A L I) : Int :=
  s.totalIssuance - s.held - (s.dust.map amount).sum

/-! ## Moves -/

section Moves

variable [DecidableEq A]

def SameFrozen (a a' : AccountData) : Prop :=
  a'.miscFrozen = a.miscFrozen ∧ a'.feeFrozen = a.feeFrozen

variable (T : Config) (Below : A → Prop) (Lock : Prop) in
/-- `Below` says which accounts may be discarded, `Lock` whether the call changes locks. -/
inductive Move : State A L I → State A L I → Prop
  | issuance (s : State A L I) (n : Nat) : Move s { s with totalIssuance := n }
  | dust (s : State A L I) (l : List NegativeImbalance) : Move s { s with dust := l }
  | reserves (s : State A L I) (m : FinMap A (List (ReserveData I))) :
      Move s { s with reserves := m }
  | store (s : State A L I) (who : A) (a : AccountData)
      (hed : T.existentialDeposit ≤ a.total T) (hfrozen : ¬Lock → SameFrozen (s.data who) a) :
      Move s (s.store who a)
  | discard (s : State A L I) (who : A) (hbelow : Below who) (hp : s.providing who = true)
      (hcan : s.canDec who = true) : Move s (s.discard who)
  | lock (s : State A L I) (who : A) (locks : List (BalanceLock L)) (h : Lock) :
      Move s (s.setLocks who locks)

/-- The call went by moves; if `Ok`, the gap grew by `w`. -/
structure Settled (T : Config) (Below : A → Prop) (Lock Ok : Prop) (w : Int)
    (s s' : State A L I) : Prop where
  moves : Relation.ReflTransGen (Move T Below Lock) s s'
  issuance_le : s.totalIssuance ≤ T.maxValue → s'.totalIssuance ≤ T.maxValue
  gap : Ok → s'.gap = s.gap + w

namespace Settled

variable {Below : A → Prop} {Lock Ok : Prop} {w w' : Int} {s s' s'' : State A L I}

theorem refl (T : Config) (Below : A → Prop) (Lock Ok : Prop) (s : State A L I) :
    Settled T Below Lock Ok 0 s s where
  moves := .refl
  issuance_le := id
  gap _ := (Int.add_zero _).symm

theorem trans (h : Settled T Below Lock Ok w s s') (h' : Settled T Below Lock Ok w' s' s'') :
    Settled T Below Lock Ok (w + w') s s'' where
  moves := h.moves.trans h'.moves
  issuance_le hle := h'.issuance_le (h.issuance_le hle)
  gap hok := by rw [h'.gap hok, h.gap hok]; omega

theorem congr (h : Settled T Below Lock Ok w s s') (heq : Ok → w = w') :
    Settled T Below Lock Ok w' s s' where
  moves := h.moves
  issuance_le := h.issuance_le
  gap hok := by rw [h.gap hok, heq hok]

theorem reserves (m : FinMap A (List (ReserveData I))) :
    Settled T Below Lock Ok 0 s { s with reserves := m } where
  moves := .single (.reserves s m)
  issuance_le := id
  gap _ := (Int.add_zero _).symm

theorem issuance {n : Nat} (hle : s.totalIssuance ≤ T.maxValue → n ≤ T.maxValue)
    (hw : Ok → (n : Int) = s.totalIssuance + w) :
    Settled T Below Lock Ok w s { s with totalIssuance := n } where
  moves := .single (.issuance s n)
  issuance_le := hle
  gap hok := by
    have := hw hok
    change (n : Int) - s.held - (s.dust.map amount).sum =
      s.totalIssuance - s.held - (s.dust.map amount).sum + w
    omega

theorem cleaner (c : DustCleaner) : Settled T Below Lock Ok (-worth c.dust) s (drop T c s) where
  moves := .single (.dust s _)
  issuance_le := id
  gap _ := by
    change (s.totalIssuance : Int) - s.held - ((c.dust.toList ++ s.dust).map amount).sum = _
    rcases c with ⟨_ | ⟨n⟩⟩
    · simp [State.gap, worth]
    · simp [State.gap, worth]
      omega

theorem drop_of_not [Drop T (State A L I) R] [LawfulDrop T A L I R] (r : R) (hno : ¬Ok) :
    Settled T Below Lock Ok w s (drop T r s) := by
  obtain ⟨n, dust, h, hle⟩ := LawfulDrop.drop_eq (T := T) r s
  rw [h]
  exact
    { moves := .tail (.single (.issuance s n)) (.dust _ dust)
      issuance_le := hle
      gap := fun hok => absurd hok hno }

theorem store {who : A} {a : AccountData} (hed : T.existentialDeposit ≤ a.total T)
    (hfrozen : ¬Lock → SameFrozen (s.data who) a) :
    Settled T Below Lock Ok ((s.data who).funds - a.funds) s (s.store who a) where
  moves := .single (.store s who a hed hfrozen)
  issuance_le := id
  gap _ := by
    have hheld := State.held_add_funds fun j hj => s.store_get?_of_ne who a hj
    rw [State.store_data] at hheld
    simp only [State.gap, State.store_totalIssuance, State.store_dust]
    omega

theorem discard {who : A} {a : AccountData} (hlt : a.total T < T.existentialDeposit)
    (hbelow : s.providing who = true → Below who)
    (hcan : s.providing who = true → s.canDec who = true) :
    Settled T Below Lock Ok ((s.data who).funds - a.funds + worth (dustOf T a)) s
      (s.discard who) where
  moves := by
    by_cases hp : s.providing who = true
    · exact .single (.discard s who (hbelow hp) hp (hcan hp))
    · rw [State.discard, if_neg hp]
  issuance_le h := by rwa [State.discard_totalIssuance]
  gap _ := by
    have hheld := State.held_add_funds fun j hj => s.discard_get?_of_ne who hj
    rw [State.discard_data hcan, AccountData.funds_default] at hheld
    have hdust : worth (dustOf T a) = a.funds := by
      rw [← AccountData.funds_eq_total hlt]
      unfold dustOf
      split
      · next hzero => rw [hzero]; rfl
      · rfl
    simp only [State.gap, State.discard_totalIssuance, State.discard_dust, hdust]
    omega

end Settled

abbrev Settles [Worth R] (T : Config) (Below : A → Prop) (Lock Ok : Prop)
    (m : Exec (State A L I) Error R) (s : State A L I) : Prop :=
  Post m s (fun r s' => Settled T Below Lock Ok (worth r) s s')
    (fun _ s' => Settled T Below Lock Ok 0 s s')

/-! ## Mutations -/

section Mutation

variable {Below : A → Prop} {Lock Ok : Prop} {s : State A L I} {who : A} [Drop T (State A L I) R]
  {f : AccountData → Bool → Exec (State A L I) Error (AccountData × R)}

section Closure

variable (val : R → Int) (h : Post (f (s.data who) (!s.providing who)) s
      (fun p s' => s'.account.get? who = s.account.get? who ∧
        (¬Lock → SameFrozen (s.data who) p.1) ∧
        (p.1.total T < T.existentialDeposit → s.providing who = true → s.canDec who = true →
          Below who) ∧
        (∃ w, Settled T Below Lock Ok w s s' ∧
          (Ok → w + (s.data who).funds = val p.2 + p.1.funds)) ∧
        (p.1.total T < T.existentialDeposit → s.providing who = true → s.canDec who = false →
          Settled T Below Lock Ok 0 s (drop T (dustOf T p.1, p.2) s')))
      (fun _ s' => Settled T Below Lock Ok 0 s s'))

include h

theorem settled_withDust : Post (tryMutateAccountWithDust T who f) s
      (fun q s' => Settled T Below Lock Ok (val q.1 + worth q.2.dust) s s')
      (fun _ s' => Settled T Below Lock Ok 0 s s') := by
  refine post_tryMutateAccountWithDust (h.imp ?_)
  rintro ⟨a, r⟩ s' ⟨hframe, hfrozen, hbelow, ⟨w, hsettled, hval⟩, hrefuse⟩
  have hdata := data_eq_of_get? hframe
  refine ⟨hframe, fun hed => ?_, fun hlt hcan => ?_, hrefuse⟩
  · have hstore : Settled T Below Lock Ok _ s' (s'.store who a) :=
      .store hed (by rw [hdata]; exact hfrozen)
    refine (hsettled.trans hstore).congr fun hok => ?_
    have hsum := hval hok
    rw [hdata]
    dsimp only at hsum ⊢
    change w + _ = val r + 0
    omega
  · have hdiscard : Settled T Below Lock Ok _ s' (s'.discard who) :=
      .discard hlt (by
        rw [providing_eq_of_get? hframe]
        exact fun hp => hbelow hlt hp (hcan hp)) (by
        rwa [providing_eq_of_get? hframe, canDec_eq_of_get? hframe])
    refine (hsettled.trans hdiscard).congr fun hok => ?_
    have hsum := hval hok
    rw [hdata]
    dsimp only at hsum ⊢
    omega

theorem settled_mutation : Post (tryMutateAccount T who f) s
      (fun r s' => Settled T Below Lock Ok (val r) s s')
      (fun _ s' => Settled T Below Lock Ok 0 s s') := by
  unfold tryMutateAccount
  rw [post_bind]
  refine (settled_withDust val h).imp ?_
  rintro ⟨r, c⟩ s' hsettled
  simp only [post_bind, post_modify, post_pure]
  exact (hsettled.trans (.cleaner c)).congr fun _ => by dsimp only; omega

end Closure

theorem settled_tryMutateAccount [LawfulDrop T A L I R] (val : R → Int)
    (h : Post (f (s.data who) (!s.providing who)) s
      (fun p s' => s' = s ∧ (¬Lock → SameFrozen (s.data who) p.1) ∧
        (p.1.total T < T.existentialDeposit → s.providing who = true → s.canDec who = true →
          Below who) ∧
        (Ok → ((s.data who).funds : Int) = val p.2 + p.1.funds) ∧
        (Ok → p.1.total T < T.existentialDeposit → s.providing who = true →
          s.canDec who = false → drop T (dustOf T p.1, p.2) s = s))
      (fun _ s' => s' = s)) :
    Post (tryMutateAccount T who f) s (fun r s' => Settled T Below Lock Ok (val r) s s')
      (fun _ s' => Settled T Below Lock Ok 0 s s') := by
  refine settled_mutation val (h.mono ?_ ?_)
  · rintro ⟨a, r⟩ s' ⟨rfl, hfrozen, hbelow, hfunds, hrefuse⟩
    refine ⟨rfl, hfrozen, hbelow, ⟨0, .refl .., fun hok => ?_⟩, fun hlt hp hcan => ?_⟩
    · rw [Int.zero_add]
      exact hfunds hok
    · by_cases hok : Ok
      · rw [hrefuse hok hlt hp hcan]
        exact .refl ..
      · exact .drop_of_not _ hok
  · rintro _ s' rfl
    exact .refl ..

theorem frame_withDust {C : R → Prop} (h : Post (f (s.data who) (!s.providing who)) s
      (fun p s' => s' = s ∧ C p.2) (fun _ _ => True)) :
    Post (tryMutateAccountWithDust T who f) s
      (fun q s' => (∀ j, j ≠ who → s'.account.get? j = s.account.get? j) ∧ C q.1)
      (fun _ _ => True) := by
  refine post_tryMutateAccountWithDust (h.mono ?_ fun _ _ _ => trivial)
  rintro ⟨a, r⟩ s' ⟨rfl, hC⟩
  exact ⟨rfl, fun _ => ⟨fun j hj => s'.store_get?_of_ne who a hj, hC⟩,
    fun _ _ => ⟨fun j hj => s'.discard_get?_of_ne who hj, hC⟩, fun _ _ _ => trivial⟩

theorem refused_tryMutateAccount [LawfulDrop T A L I R] {X : Prop}
    (h : Post (f (s.data who) (!s.providing who)) s
      (fun p s' => s' = s ∧ (p.1.total T < T.existentialDeposit → X)) (fun _ _ => False)) :
    Post (tryMutateAccount T who f) s (fun _ _ => True)
      (fun _ s' => s'.account = s.account ∧ s.providing who = true ∧ s.canDec who = false ∧ X) := by
  unfold tryMutateAccount
  rw [post_bind]
  refine Post.mono (Q := fun _ _ => True) ?_ (fun _ _ _ => trivial) (fun _ _ he => he)
  refine post_tryMutateAccountWithDust (h.noErr ?_)
  rintro ⟨a, r⟩ s' ⟨rfl, hX⟩
  refine ⟨rfl, fun _ => trivial, fun _ _ => trivial, fun hlt hp hcan => ⟨?_, hp, hcan, hX hlt⟩⟩
  obtain ⟨n, dust, hdrop, -⟩ := LawfulDrop.drop_eq (T := T) (dustOf T a, r) s'
  rw [hdrop]

end Mutation

end Moves

end Substrate.Balances
