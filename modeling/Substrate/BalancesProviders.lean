import Substrate.BalancesRuns

/-!
# Provider references of the balances pallet

The account store takes a record for new or removed by whether it is the default one, while the
pallet decides by the total whether a record is kept. The two agree: a record that is kept holds the
existential deposit, and the pallet has one provider reference on each account with a record and
none on others.
-/

namespace Substrate.Balances

open Exec FrameSystem State

variable {A L I : Type} [DecidableEq A] {T : Config}

/-! ## Genesis -/

section Genesis

variable {s : State A L I} {balances : List (A × Nat)}

theorem post_insertAccount {who : A} {a} :
    Post (insertAccount T who a) s (fun _ s' => s' = s.store who a) (fun _ _ => False) := by
  have hisp : isProviding (get s.account who).data = s.providing who := rfl
  unfold insertAccount tryMutateExists store
  simp only [post_bind, post_read, post_pure, hisp]
  cases hp : s.providing who with
  | false => simp
  | true => simp

def State.endow (s : State A L I) (balances : List (A × Nat)) : State A L I :=
  balances.foldl (fun s b => s.store b.1 { (default : AccountData) with free := b.2 }) s

theorem total_of_free {free : Nat} (h : T.existentialDeposit ≤ free) :
    T.existentialDeposit ≤ AccountData.total T { (default : AccountData) with free := free } := by
  have := T.existentialDeposit_le
  change _ ≤ min (free + 0) T.maxValue
  omega

omit [DecidableEq A] in
theorem post_sumBalances {acc : Nat} :
    Post (balances.foldlM (fun acc b => Exec.unwrap (T.checkedAdd acc b.2)) acc) s
      (fun _ s' => s' = s) (fun (_ : Error) _ => False) := by
  induction balances generalizing acc with
  | nil => rfl
  | cons b balances ih =>
    rw [List.foldlM_cons, post_bind, post_unwrap]
    intro sum _
    exact ih

theorem post_endow : Post (balances.forM fun b => do
        let r ← Exec.attempt (insertAccount T b.1 { (default : AccountData) with free := b.2 })
        match r with
        | .ok _ => pure ()
        | .error _ => Exec.assert False) s
      (fun _ s' => s' = s.endow balances) (fun (_ : Error) _ => False) := by
  induction balances generalizing s with
  | nil => rfl
  | cons b balances ih =>
    rw [List.forM, post_bind, post_bind, post_attempt]
    refine post_insertAccount.noErr ?_
    rintro _ _ rfl
    exact ih

/-- Each endowed account gets a record, which holds the existential deposit. -/
theorem post_build : Post (build T balances) s
      (fun _ s' => (∀ b ∈ balances, T.existentialDeposit ≤ b.2) ∧
        ∃ n, s' = { s with totalIssuance := n }.endow balances) (fun _ _ => False) := by
  unfold build
  rw [post_bind]
  refine post_sumBalances.imp ?_
  rintro total s' rfl
  rw [post_bind, post_modify, post_bind, post_assert]
  intro hmin
  rw [post_bind, post_assert]
  intro _
  refine post_endow.imp ?_
  rintro _ _ rfl
  exact ⟨hmin, total, rfl⟩

end Genesis

/-! ## References -/

section References

/-- The provider references on an account: `others` are those of other modules. -/
structure References (T : Config) (others : A → Nat) (s : State A L I) (who : A) : Prop where
  funds_ge : s.data who ≠ default → T.existentialDeposit ≤ (s.data who).funds
  providers_eq : (s.info who).providers = others who + if s.data who = default then 0 else 1
  provided : 0 < (s.info who).consumers → 0 < (s.info who).providers

variable {others : A → Nat} {s s' : State A L I} {who : A}

namespace References

section

variable (h : References T others s who)
include h

omit [DecidableEq A] in
theorem congr (hget : s'.account.get? who = s.account.get? who) : References T others s' who := by
  have hdata := data_eq_of_get? hget
  have hinfo := info_eq_of_get? hget
  exact ⟨by rw [hdata]; exact h.funds_ge, by rw [hinfo, hdata]; exact h.providers_eq,
    by rw [hinfo]; exact h.provided⟩

theorem store (hpos : 0 < T.existentialDeposit) (hothers : others who < maxRefCount) {a}
    (hed : T.existentialDeposit ≤ a.total T) : References T others (s.store who a) who := by
  have hfunds : T.existentialDeposit ≤ a.funds := Nat.le_trans hed (Nat.min_le_left _ _)
  have hne : a ≠ default := by
    rintro rfl
    rw [AccountData.funds_default] at hfunds
    omega
  have hcount : (if s.providing who then (s.info who).providers
      else saturatingInc (s.info who).providers) = others who + 1 := by
    rw [h.providers_eq]
    by_cases hd : s.data who = default
    · rw [providing_eq_false.mpr hd, if_pos hd]
      simp only [Bool.false_eq_true, if_false, saturatingInc]
      omega
    · rw [if_pos (providing_iff.mpr hd), if_neg hd]
  refine ⟨fun _ => ?_, ?_, fun _ => ?_⟩
  · rw [store_data]
    exact hfunds
  · rw [store_info, store_data, if_neg hne]
    exact hcount
  · rw [store_info]
    dsimp only
    omega

theorem discard (hp : s.providing who = true) (hcan : s.canDec who = true) :
    References T others (s.discard who) who := by
  obtain ⟨hconsumers, hproviders, hdata⟩ := discard_info hp hcan
  have hcount := h.providers_eq
  rw [if_neg (providing_iff.mp hp)] at hcount
  refine ⟨fun hne => absurd hdata hne, ?_, fun hpos => ?_⟩
  · rw [hdata, if_pos rfl]
    omega
  · rw [hconsumers] at hpos
    rw [hproviders]
    rcases (canDec_iff_consumers rfl).mp hcan with hzero | hmore
    · omega
    · omega

theorem setLocks (locks : List (BalanceLock L)) :
    References T others (s.setLocks who locks) who := by
  obtain ⟨c, hinfo, hconsumers⟩ := s.setLocks_info who locks
  have hdata := s.setLocks_data who locks
  refine ⟨by rw [hdata]; exact h.funds_ge, ?_, fun hpos => ?_⟩
  · rw [hinfo, hdata]
    exact h.providers_eq
  · rw [hinfo] at hpos ⊢
    rcases hconsumers hpos with hc | hc
    · exact h.provided hc
    · exact hc

end

variable {Below : A → Prop} {Lock : Prop}

section

variable (hpos : 0 < T.existentialDeposit) (hothers : ∀ j, others j < maxRefCount)
include hpos hothers

theorem move (h : ∀ j, References T others s j) (hmove : Move T Below Lock s s') (j : A) :
    References T others s' j := by
  cases hmove with
  | issuance n | dust l | reserves m => exact (h j).congr rfl
  | store who a hed _ =>
    by_cases hj : j = who
    · subst hj
      exact (h j).store hpos (hothers j) hed
    · exact (h j).congr (s.store_get?_of_ne who a hj)
  | discard who _ hp hcan =>
    by_cases hj : j = who
    · subst hj
      exact (h j).discard hp hcan
    · exact (h j).congr (s.discard_get?_of_ne who hj)
  | lock who locks _ =>
    by_cases hj : j = who
    · subst hj
      exact (h j).setLocks locks
    · exact (h j).congr (s.setLocks_get?_of_ne who locks hj)

theorem moves (h : ∀ j, References T others s j)
    (hmoves : Relation.ReflTransGen (Move T Below Lock) s s') (j : A) :
    References T others s' j := by
  induction hmoves generalizing j with
  | refl => exact h j
  | tail _ hmove ih => exact move hpos hothers ih hmove j

theorem endow {balances} (hmin : ∀ b ∈ balances, T.existentialDeposit ≤ b.2)
    (h : ∀ j, References T others s j) (j : A) : References T others (s.endow balances) j := by
  induction balances generalizing s with
  | nil => exact h j
  | cons b balances ih =>
    refine ih (fun b' hb' => hmin b' (List.mem_cons_of_mem _ hb')) fun i => ?_
    have hstore : Move T (fun _ => False) True s (s.store b.1 _) :=
      .store s b.1 _ (total_of_free (hmin b List.mem_cons_self)) fun hno => absurd trivial hno
    exact move hpos hothers h hstore i

end

end References

variable [DecidableEq L] [LinearOrder I]

/-- **No dust accounts, and exact provider references**, in every state the pallet reaches from a
genesis on accounts with `others` providers. -/
theorem references_exact (hpos : 0 < T.existentialDeposit) (hothers : ∀ j, others j < maxRefCount)
    (hempty : ∀ j, s.data j = default ∧ (s.info j).providers = others j ∧
      (0 < (s.info j).consumers → 0 < others j))
    {balances : List (A × Nat)} (hbuild : build T balances s = (.ok (), s'))
    {live : List SignedImbalance} {w : World A L I}
    (hrun : Run T (fun _ _ => True) ⟨s', live⟩ w) (who : A) :
    (w.state.data who ≠ default →
      T.existentialDeposit ≤ (w.state.data who).free + (w.state.data who).reserved) ∧
    (w.state.info who).providers = others who + (if w.state.data who = default then 0 else 1) ∧
    (0 < (w.state.info who).consumers → 0 < (w.state.info who).providers) := by
  obtain ⟨hmin, n, rfl⟩ := post_build.ok hbuild
  have hstart : ∀ j, References T others { s with totalIssuance := n } j := fun j => by
    obtain ⟨hdata, hproviders, hconsumers⟩ := hempty j
    refine ⟨fun hne => absurd hdata hne, ?_, fun hc => ?_⟩
    · change (s.info j).providers = others j + if s.data j = default then 0 else 1
      rw [if_pos hdata, hproviders, Nat.add_zero]
    · change 0 < (s.info j).providers
      rw [hproviders]
      exact hconsumers hc
  have hreferences : ∀ j, References T others w.state j := by
    induction hrun with
    | refl => exact fun j => References.endow hpos hothers hmin hstart j
    | step _ _ hstep ih => exact References.moves hpos hothers ih (Action.perform_moves hstep)
  exact ⟨(hreferences who).funds_ge, (hreferences who).providers_eq, (hreferences who).provided⟩

end References

/-! ## A sender who leaves nothing -/

def noAccounts : State Bool Nat Nat := ⟨.empty, 0, .empty, .empty, []⟩

def endowed : State Bool Nat Nat := (build fiveDeposit [(true, 10)] noAccounts).2

def sendSix : Action Bool Nat Nat := .call (.transfer true false 6 .allowDeath)

def sent : World Bool Nat Nat := (sendSix.perform fiveDeposit ⟨endowed, []⟩).getD ⟨endowed, []⟩

/-- The sender's reference is gone, and the receiver has one. -/
theorem sent_references : (sent.state.info true).providers = 0 ∧
    (sent.state.info false).providers = 1 := by
  have hempty : ∀ j, noAccounts.data j = default ∧ (noAccounts.info j).providers = 0 ∧
      (0 < (noAccounts.info j).consumers → 0 < 0) := fun _ => ⟨rfl, rfl, id⟩
  have hbuild : build fiveDeposit [(true, 10)] noAccounts = (.ok (), endowed) := rfl
  have hrun : Run fiveDeposit (fun _ _ => True) ⟨endowed, []⟩ sent :=
    .step (a := sendSix) (.refl _) trivial rfl
  have h := references_exact (by decide) (fun _ => by decide) hempty hbuild hrun
  exact ⟨(h true).2.1, (h false).2.1⟩

end Substrate.Balances
