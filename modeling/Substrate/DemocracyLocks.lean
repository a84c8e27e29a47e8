import Substrate.DemocracyOrder

/-!
# Conviction locks

What an account has voted or delegated with stays locked for the periods of its conviction. The lock
is one number in the currency; what it has to cover is spread over the votes, the delegation and the
prior lock of the account. `Held` says that it covers them, `Owed` that a debt is still recorded
somewhere. Delegating again drops the lock of the delegation that ends, unlocking a delegating
account forgets its prior lock, and cancelling a referendum that has finished lets its voters go.
-/

namespace Substrate.Democracy

open Function LockableCurrency Nat State Op Voting Conviction
open SortedVec (lookup Sorted)

/-! ## What a lock covers -/

theorem foldl_max_le {l : List Nat} {a n : Nat} :
    l.foldl (fun a i => max a i) a ≤ n ↔ a ≤ n ∧ ∀ x ∈ l, x ≤ n := by
  induction l generalizing a with
  | nil => simp
  | cons x l ih =>
    rw [List.foldl_cons, ih, List.forall_mem_cons, Nat.max_le, and_assoc]

section Locks

variable {A : Type} {T : Config}
  {d : Delegations} {p p' : PriorLock} {target : A} {op : Op A} {old : AccountVote}
  {infos : FinMap Nat ReferendumInfo}

def Voting.Covered (maxBalance lock : Nat) (v : Voting A) : Prop :=
  v.prior.amount ≤ lock ∧ v.lockedBalance maxBalance ≤ lock

theorem Voting.covered_direct {votes : List (Nat × AccountVote)} {maxBalance lock : Nat}
    (hsorted : Sorted votes) :
    (direct votes d p : Voting A).Covered maxBalance lock ↔
      p.amount ≤ lock ∧ ∀ i vote, lookup votes i = some vote → vote.balance maxBalance ≤ lock := by
  unfold Covered lockedBalance
  rw [foldl_max_le]
  constructor
  · rintro ⟨-, hprior, hvotes⟩
    exact ⟨hprior, fun i vote hvote =>
      hvotes _ (List.mem_map_of_mem (SortedVec.mem_of_lookup hvote))⟩
  · rintro ⟨hprior, hvotes⟩
    refine ⟨hprior, hprior, fun n hn => ?_⟩
    obtain ⟨⟨i, vote⟩, hmem, rfl⟩ := List.mem_map.mp hn
    exact hvotes i vote (hsorted.mem_iff.mp hmem)

theorem Voting.covered_setDelegations {v : Voting A} {maxBalance lock : Nat} :
    (v.setDelegations d).Covered maxBalance lock ↔ v.Covered maxBalance lock := by
  cases v <;> exact Iff.rfl

theorem AccountVote.balance_of_lockedIf {vote : AccountVote} {approved : Bool}
    {lockPeriods amount : Nat} (h : vote.lockedIf approved = some (lockPeriods, amount))
    (maxBalance : Nat) : vote.balance maxBalance = amount := by
  cases vote with
  | split => cases h
  | standard vote balance =>
    simp only [lockedIf, Option.ite_none_right_eq_some, Option.some.injEq, Prod.mk.injEq] at h
    exact h.2.2

variable [DecidableEq A] {C : LockableCurrency A} {s s' : State C} {who x : A} {v : Voting A}
  {refIndex : Nat}

/-- The locks cover what the accounts did. -/
def Held (T : Config) (s : State C) : Prop :=
  ∀ who, (s.voting who).Covered T.maxBalance (C.locked s.currency who)

theorem Held.write (h : Held T s) (hvoting : s'.votingOf = s.votingOf.insert who v)
    (hlocks : ∀ x, x ≠ who → C.locked s'.currency x = C.locked s.currency x)
    (hv : v.Covered T.maxBalance (C.locked s'.currency who)) : Held T s' := by
  have hread := voting_insert hvoting
  intro x
  by_cases hx : x = who
  · rwa [hread, hx, update_self]
  · rw [hread, update_of_ne hx, hlocks x hx]
    exact h x

theorem Held.upstream (h : Held T s) (change : Delegations → Delegations)
    (f : Bool → Tally → Tally) (x : A) : Held T (s.upstream change f x) :=
  h.write rfl (fun _ _ => rfl) (covered_setDelegations.mpr (h x))

theorem Held.vote (h : Held T s) (hordered : Ordered s) {vote} (hv : Voted T s who refIndex vote s') :
    Held T s' := by
  obtain ⟨status, votes, d, p, votes', _, _, _, hwho, hsorted, hlookup, _, _, rfl⟩ := hv.done
  have hvotes := hordered.sorted_direct hwho
  have hlock := C.locked_extendLock who (vote.balance T.maxBalance) s.currency
  refine h.write rfl (fun x hx => ?_) ?_
  · rw [hlock, update_of_ne hx]
  · have hcovered := h who
    rw [hwho, covered_direct hvotes] at hcovered
    rw [covered_direct hsorted, hlock, update_self]
    refine ⟨hcovered.1.trans (le_max_left ..), fun i v hi => ?_⟩
    rw [hlookup] at hi
    by_cases heq : i = refIndex
    · subst heq
      rw [update_self] at hi
      cases hi
      exact le_max_right ..
    · rw [update_of_ne heq] at hi
      exact (hcovered.2 i v hi).trans (le_max_left ..)

theorem Held.unvote (h : Held T s) (hordered : Ordered s) (hv : Unvoted T s who refIndex s') :
    Held T s' := by
  obtain ⟨votes, d, p, old, votes', p', infos, hwho, hold, hsorted, hlookup, hreleased, rfl⟩ :=
    hv.done
  have hvotes := hordered.sorted_direct hwho
  have hcovered := h who
  rw [hwho, covered_direct hvotes] at hcovered
  refine h.write rfl (fun _ _ => rfl) ?_
  rw [covered_direct hsorted]
  refine ⟨?_, fun i v hi => ?_⟩
  · cases hreleased with
    | ongoing | expired | cancelled => exact hcovered.1
    | locked hinfo hlocked =>
      have hbalance := hcovered.2 refIndex old hold
      rw [AccountVote.balance_of_lockedIf hlocked] at hbalance
      exact Nat.max_le.mpr ⟨hcovered.1, hbalance⟩
  · rw [hlookup] at hi
    by_cases heq : i = refIndex
    · rw [heq, update_self] at hi
      cases hi
    · rw [update_of_ne heq] at hi
      exact hcovered.2 i v hi

theorem Freed.prior {s₁ : State C} (h : Freed T s who d p s₁) : (s.voting who).prior = p := by
  cases h with
  | idle hwho | delegating hwho => rw [hwho]; rfl

theorem Held.freed (h : Held T s) {s₁ : State C} (hf : Freed T s who d p s₁) :
    Held T s₁ ∧ s₁.currency = s.currency := by
  cases hf with
  | idle => exact ⟨h, rfl⟩
  | delegating => exact ⟨h.upstream _ _ _, rfl⟩

theorem Held.delegate (h : Held T s) {conviction} {balance : Nat}
    (hd : Delegated T s who target conviction balance s') : Held T s' := by
  obtain ⟨d, p, s₁, hfreed, rfl⟩ := hd.done
  obtain ⟨hheld, hcurrency⟩ := h.freed hfreed
  have hlock := C.locked_extendLock who balance s.currency
  have hprior := (h who).1
  rw [hfreed.prior] at hprior
  refine (hheld.upstream _ _ target).write rfl (fun x hx => ?_) ?_
  · change C.locked (C.extendLock who balance s.currency) x = C.locked s₁.currency x
    rw [hlock, update_of_ne hx, hcurrency]
  · rw [hlock, update_self]
    exact ⟨hprior.trans (le_max_left ..), le_max_right ..⟩

theorem Held.undelegate (h : Held T s) (hu : Undelegated T s who s') : Held T s' := by
  obtain ⟨balance, target, conviction, d, p, hwho, rfl⟩ := hu.done
  have hcovered := h who
  rw [hwho] at hcovered
  refine (h.upstream _ _ target).write rfl (fun _ _ => rfl) ?_
  rw [covered_direct List.Pairwise.nil]
  exact ⟨Nat.max_le.mpr hcovered, nofun⟩

/-! ## Calls that honour the locks -/

/-- What a call must find for the locks to be honoured. -/
def Op.Honours (T : Config) (s : State C) : Op A → Prop
  -- the delegation that ends has nothing to be locked for
  | delegate who _ _ _ => ∀ b target c d p, s.voting who = .delegating b target c d p →
    T.enactmentPeriod * c.lockPeriods = 0
  -- the delegation covers the prior lock, if that has not ended
  | unlock target => ∀ b x c d p, s.voting target = .delegating b x c d p →
    p.until_ ≤ s.blockNumber ∨ p.amount ≤ b
  -- the referendum has not finished
  | cancelReferendum refIndex => ∀ approved end_,
    s.referendumInfoOf.get? refIndex ≠ some (.finished approved end_)
  | _ => True

theorem locked_unlocked (T : Config) (s : State C) (who : A) :
    C.locked (s.unlocked T who).currency = update (C.locked s.currency) who
        (((s.voting who).rejig s.blockNumber).lockedBalance T.maxBalance) := by
  unfold unlocked
  dsimp only
  split
  next hzero => rw [C.locked_removeLock, hzero]
  next hne => exact C.locked_setLock who _ _ hne

theorem Held.unlock (h : Held T s) (hhonours : (unlock who).Honours T s) :
    Held T (s.unlocked T who) := by
  have hlock := locked_unlocked T s who
  refine h.write rfl (fun x hx => by rw [hlock, update_of_ne hx]) ?_
  rw [hlock, update_self]
  refine ⟨?_, le_rfl⟩
  cases hwho : s.voting who with
  | direct votes d p => exact (foldl_max_le.mp le_rfl).1
  | delegating b x c d p =>
    change (p.rejig s.blockNumber).amount ≤ b
    unfold PriorLock.rejig
    split
    next => exact zero_le b
    next hlater => exact (hhonours b x c d p hwho).resolve_left hlater

theorem Held.step (h : Held T s) (hordered : Ordered s) (heffect : Effect T s op s')
    (hhonours : op.Honours T s) : Held T s' := by
  cases heffect with
  | none => exact h
  | vote hv => exact h.vote hordered hv
  | removeVote hv | removeOtherVote hv => exact h.unvote hordered hv
  | delegate hd => exact h.delegate hd
  | undelegate hu => exact h.undelegate hu
  | unlock target => exact h.unlock hhonours
  | start votingPeriod | cancelReferendum refIndex | emergencyCancel _ => exact h
  | nextBlock hs1 =>
    rename_i launches approved s₁
    obtain ⟨infos, hmatured, -⟩ := s₁.matured_eq (s.blockNumber + 1) approved
    rw [hmatured]
    rcases hs1 with rfl | rfl
    · exact h
    · exact h

/-! ## Debts -/

/-- The block has come, or the prior lock says so, or a vote on the winning side of a finished
referendum. -/
inductive Owed (T : Config) (s : State C) (who : A) (amount until_ : Nat) : Prop
  | passed (h : until_ ≤ s.blockNumber)
  | prior (huntil : until_ ≤ (s.voting who).prior.until_)
      (hamount : amount ≤ (s.voting who).prior.amount)
  | vote {refIndex : Nat} {vote} {approved : Bool} {end_ lockPeriods : Nat}
      (hvote : lookup (s.voting who).votes refIndex = some vote)
      (hinfo : s.referendumInfoOf.get? refIndex = some (.finished approved end_))
      (hlocked : vote.lockedIf approved = some (lockPeriods, amount))
      (huntil : until_ ≤ end_ + T.enactmentPeriod * lockPeriods)

theorem Owed.locked {amount until_ : Nat} (h : Owed T s who amount until_) (hheld : Held T s)
    (hordered : Ordered s) (hnow : s.blockNumber < until_) :
    amount ≤ C.locked s.currency who := by
  cases h with
  | passed hover => exact absurd hover (Nat.not_le_of_lt hnow)
  | prior _ hamount => exact hamount.trans (hheld who).1
  | vote hvote _ hlocked _ =>
    have hcovered := hheld who
    cases hwho : s.voting who with
    | delegating =>
      rw [hwho] at hvote
      cases hvote
    | direct votes d p =>
      rw [hwho] at hvote hcovered
      rw [covered_direct (hordered.sorted_direct hwho)] at hcovered
      rw [← AccountVote.balance_of_lockedIf hlocked T.maxBalance]
      exact hcovered.2 _ _ hvote

/-! ### Referenda that have finished -/

def Settled (s s' : State C) : Prop :=
  ∀ refIndex approved end_, s.referendumInfoOf.get? refIndex = some (.finished approved end_) →
    s'.referendumInfoOf.get? refIndex = some (.finished approved end_)

theorem settled_of_eq (h : s'.referendumInfoOf = s.referendumInfoOf) : Settled s s' := by
  intro i approved end_ hinfo
  rw [h, hinfo]

theorem settled_insert {status info}
    (hinfo : s.referendumInfoOf.get? refIndex = some (.ongoing status))
    (hinfos : s'.referendumInfoOf = s.referendumInfoOf.insert refIndex info) : Settled s s' := by
  intro i approved end_ hfinished
  have hi : i ≠ refIndex := by
    rintro rfl
    cases hinfo.symm.trans hfinished
  rw [hinfos, FinMap.get?_insert, update_of_ne hi, hfinished]

theorem settled_cancelled (h : ∀ approved end_,
    s.referendumInfoOf.get? refIndex ≠ some (.finished approved end_)) :
    Settled s (s.cancelled refIndex) := by
  intro i approved end_ hfinished
  have hi : i ≠ refIndex := by
    rintro rfl
    exact h approved end_ hfinished
  rw [cancelled, FinMap.get?_erase, update_of_ne hi, hfinished]

theorem settled_started (hordered : Ordered s) (end_ : Nat) : Settled s (s.started end_) := by
  intro i approved e hfinished
  have hi : i ≠ s.referendumCount := (hordered.started i _ hfinished).ne
  rw [started, FinMap.get?_insert, update_of_ne hi, hfinished]

theorem settled_matured (s : State C) (now : Nat) (approved : Nat → Bool) :
    Settled s (s.matured now approved) := by
  obtain ⟨infos, hmatured, hinfos⟩ := s.matured_eq now approved
  rw [hmatured]
  intro i a e hfinished
  rcases hinfos i with hsame | ⟨⟨status, hongoing⟩, -⟩
  · exact hsame.trans hfinished
  · cases hongoing.symm.trans hfinished

/-! ### Debts are kept -/

variable {amount until_ : Nat}

section

variable (h : Owed T s who amount until_) (hsettled : Settled s s')
  (hnow : s.blockNumber ≤ s'.blockNumber)
include h hsettled hnow

theorem Owed.keep (huntil : (s.voting who).prior.until_ ≤ (s'.voting who).prior.until_)
    (hamount : (s.voting who).prior.amount ≤ (s'.voting who).prior.amount)
    (hvotes : ∀ refIndex vote approved end_, lookup (s.voting who).votes refIndex = some vote →
      s.referendumInfoOf.get? refIndex = some (.finished approved end_) →
      lookup (s'.voting who).votes refIndex = some vote) : Owed T s' who amount until_ := by
  cases h with
  | passed hover => exact .passed (hover.trans hnow)
  | prior hu ha => exact .prior (hu.trans huntil) (ha.trans hamount)
  | vote hvote hinfo hlocked hu =>
    exact .vote (hvotes _ _ _ _ hvote hinfo) (hsettled _ _ _ hinfo) hlocked hu

theorem Owed.keep_same (hwho : s'.voting who = s.voting who) : Owed T s' who amount until_ :=
  h.keep hsettled hnow (by rw [hwho]) (by rw [hwho]) fun _ _ _ _ hvote _ => by rw [hwho, hvote]

end

theorem prior_upstream (s : State C) (change : Delegations → Delegations)
    (f : Bool → Tally → Tally) (x y : A) :
    ((s.upstream change f x).voting y).prior = (s.voting y).prior := by
  rw [s.voting_upstream change f x]
  by_cases hy : y = x
  · subst hy
    rw [update_self]
    cases s.voting y <;> rfl
  · rw [update_of_ne hy]

theorem votes_upstream (s : State C) (change : Delegations → Delegations)
    (f : Bool → Tally → Tally) (x y : A) :
    ((s.upstream change f x).voting y).votes = (s.voting y).votes := by
  rw [s.voting_upstream change f x]
  by_cases hy : y = x
  · subst hy
    rw [update_self, votes_setDelegations]
  · rw [update_of_ne hy]

theorem Owed.upstream (h : Owed T s who amount until_) (hordered : Ordered s)
    (change : Delegations → Delegations) (f : Bool → Tally → Tally) (x : A) :
    Owed T (s.upstream change f x) who amount until_ := by
  refine h.keep (fun i _ _ hfinished => ?_) le_rfl ?_ ?_ fun _ _ _ _ hvote _ => ?_
  · have hget := get?_adjustTallies f (hordered.sorted x) s.referendumInfoOf i
    rw [hfinished] at hget
    exact hget
  · rw [prior_upstream]
  · rw [prior_upstream]
  · rw [votes_upstream, hvote]

theorem Owed.afterVote (h : Owed T s who amount until_) {vote} (hv : Voted T s x refIndex vote s') :
    Owed T s' who amount until_ := by
  obtain ⟨status, votes, d, p, votes', _, t, hinfo, hx, _, hlookup, _, _, hs'⟩ := hv.done
  have hread : s'.voting = update s.voting x (.direct votes' d p) :=
    voting_insert (by rw [hs'])
  have hsettled : Settled s s' := settled_insert hinfo (by rw [hs'])
  have hnow : s.blockNumber ≤ s'.blockNumber := by rw [hs']
  by_cases hwho : who = x
  · subst hwho
    refine h.keep hsettled hnow ?_ ?_ fun i v approved end_ hvote hfinished => ?_
    · rw [hread, update_self, hx]
      exact le_rfl
    · rw [hread, update_self, hx]
      exact le_rfl
    · have hi : i ≠ refIndex := by
        rintro rfl
        cases hinfo.symm.trans hfinished
      rw [hx] at hvote
      rw [hread, update_self]
      change lookup votes' i = some v
      rw [hlookup, update_of_ne hi]
      exact hvote
  · exact h.keep_same hsettled hnow (by rw [hread, update_of_ne hwho])

section

variable (h : Released T s refIndex old d p p' infos)
include h

theorem Released.settled (hinfos : s'.referendumInfoOf = infos) : Settled s s' := by
  cases h with
  | ongoing hinfo _ => exact settled_insert hinfo hinfos
  | locked | expired | cancelled => exact settled_of_eq hinfos

theorem Released.prior_le : p.until_ ≤ p'.until_ ∧ p.amount ≤ p'.amount := by
  cases h with
  | ongoing => exact ⟨le_rfl, le_rfl⟩
  | locked => exact ⟨le_max_left .., le_max_left ..⟩
  | expired | cancelled => exact ⟨le_rfl, le_rfl⟩

theorem Released.owed {approved : Bool} {end_ lockPeriods : Nat}
    (hinfo : s.referendumInfoOf.get? refIndex = some (.finished approved end_))
    (hlocked : old.lockedIf approved = some (lockPeriods, amount)) :
    end_ + T.enactmentPeriod * lockPeriods ≤ s.blockNumber ∨
      end_ + T.enactmentPeriod * lockPeriods ≤ p'.until_ ∧ amount ≤ p'.amount := by
  cases h with
  | ongoing hinfo' | cancelled hinfo' => cases hinfo'.symm.trans hinfo
  | expired hinfo' hfree =>
    cases hinfo'.symm.trans hinfo
    exact .inl (hfree _ _ hlocked)
  | locked hinfo' hlocked' =>
    cases hinfo'.symm.trans hinfo
    cases hlocked'.symm.trans hlocked
    exact .inr ⟨le_max_right .., le_max_right ..⟩

end

section

variable (h : Owed T s who amount until_)
include h

theorem Owed.afterUnvote (hv : Unvoted T s x refIndex s') : Owed T s' who amount until_ := by
  obtain ⟨votes, d, p, old, votes', p', infos, hx, hold, _, hlookup, hreleased, hs'⟩ := hv.done
  have hread : s'.voting = update s.voting x (.direct votes' d p') :=
    voting_insert (by rw [hs'])
  have hsettled : Settled s s' := hreleased.settled (by rw [hs'])
  have hnow : s'.blockNumber = s.blockNumber := by rw [hs']
  by_cases hwho : who = x
  · subst hwho
    have hwho' : s'.voting who = .direct votes' d p' := by rw [hread, update_self]
    obtain ⟨huntil, hamount⟩ := hreleased.prior_le
    cases h with
    | passed hover => exact .passed (hnow ▸ hover)
    | prior hu ha =>
      rw [hx] at hu ha
      refine .prior ?_ ?_
      · rw [hwho']
        exact hu.trans huntil
      · rw [hwho']
        exact ha.trans hamount
    | vote hvote hinfo hlocked hu =>
      rename_i i vote approved end_ lockPeriods
      rw [hx] at hvote
      by_cases hi : i = refIndex
      · subst hi
        cases hold.symm.trans hvote
        rcases hreleased.owed hinfo hlocked with hover | ⟨hlater, hle⟩
        · exact .passed (hnow ▸ hu.trans hover)
        refine .prior ?_ ?_
        · rw [hwho']
          exact hu.trans hlater
        · rw [hwho']
          exact hle
      · refine .vote ?_ (hsettled _ _ _ hinfo) hlocked hu
        rw [hwho']
        change lookup votes' i = some vote
        rw [hlookup, update_of_ne hi]
        exact hvote
  · exact h.keep_same hsettled hnow.ge (by rw [hread, update_of_ne hwho])

theorem Owed.write_nil (hread : s'.voting = update s.voting x v) (hsettled : Settled s s')
    (hnow : s.blockNumber ≤ s'.blockNumber) (hvotes : (s.voting x).votes = [])
    (huntil : (s.voting x).prior.until_ ≤ v.prior.until_)
    (hamount : (s.voting x).prior.amount ≤ v.prior.amount) : Owed T s' who amount until_ := by
  by_cases hwho : who = x
  · subst hwho
    refine h.keep hsettled hnow ?_ ?_ fun i vote approved end_ hvote hfinished => ?_
    · rwa [hread, update_self]
    · rwa [hread, update_self]
    · rw [hvotes] at hvote
      cases hvote
  · exact h.keep_same hsettled hnow (by rw [hread, update_of_ne hwho])

theorem Owed.afterDelegate (hordered : Ordered s) {conviction} {balance : Nat}
    (hd : Delegated T s x target conviction balance s') : Owed T s' who amount until_ := by
  obtain ⟨d, p, s₁, hfreed, rfl⟩ := hd.done
  have hvotes := hfreed.votes
  have hprior := hfreed.prior
  obtain ⟨howed1, hvotes1, hprior1⟩ : Owed T s₁ who amount until_ ∧ (s₁.voting x).votes = [] ∧
      (s₁.voting x).prior = p := by
    cases hfreed with
    | idle => exact ⟨h, hvotes, hprior⟩
    | delegating =>
      refine ⟨h.upstream hordered _ _ _, ?_, ?_⟩
      · rw [reduced, votes_upstream, hvotes]
      · rw [reduced, prior_upstream, hprior]
  have howed2 := howed1.upstream (hordered.freed hfreed)
    (fun d => d.saturatingAdd T.maxBalance (conviction.votes T.maxBalance balance))
    (Tally.increase T.maxBalance (conviction.votes T.maxBalance balance)) target
  have hsame : ∀ {s₂ : State C} {c : C.State} {v : Voting A},
      voting { s₂.setVoting x v with currency := c } = update s₂.voting x v :=
    voting_insert rfl
  refine howed2.write_nil hsame (settled_of_eq rfl) le_rfl ?_ ?_ ?_
  · rw [votes_upstream, hvotes1]
  · rw [prior_upstream, hprior1]
    exact le_rfl
  · rw [prior_upstream, hprior1]
    exact le_rfl

theorem Owed.afterUndelegate (hordered : Ordered s) (hu : Undelegated T s x s') :
    Owed T s' who amount until_ := by
  obtain ⟨balance, target, conviction, d, p, hx, rfl⟩ := hu.done
  refine (h.upstream hordered _ _ target).write_nil (voting_setVoting ..)
    (settled_of_eq rfl) le_rfl ?_ ?_ ?_
  · rw [votes_upstream, hx]
    rfl
  · rw [prior_upstream, hx]
    exact le_max_left ..
  · rw [prior_upstream, hx]
    exact le_max_left ..

theorem Owed.afterUnlock (x : A) : Owed T (s.unlocked T x) who amount until_ := by
  have hread : (s.unlocked T x).voting =
      update s.voting x ((s.voting x).rejig s.blockNumber) := voting_insert rfl
  by_cases hwho : who = x
  · subst hwho
    have hvoting : (s.unlocked T who).voting who = (s.voting who).rejig s.blockNumber := by
      rw [hread, update_self]
    have hprior : ((s.unlocked T who).voting who).prior =
        (s.voting who).prior.rejig s.blockNumber := by
      rw [hvoting]
      cases s.voting who <;> rfl
    cases h with
    | passed hover => exact .passed hover
    | vote hvote hinfo hlocked hu =>
      refine .vote ?_ hinfo hlocked hu
      rw [hvoting, votes_rejig, hvote]
    | prior hu ha =>
      by_cases hended : (s.voting who).prior.until_ ≤ s.blockNumber
      · exact .passed (hu.trans hended)
      · rw [PriorLock.rejig, if_neg hended] at hprior
        exact .prior (by rwa [hprior]) (by rwa [hprior])
  · exact h.keep_same (settled_of_eq rfl) le_rfl (by rw [hread, update_of_ne hwho])

theorem Owed.step (hordered : Ordered s) (heffect : Effect T s op s') (hhonours : op.Honours T s) :
    Owed T s' who amount until_ := by
  cases heffect with
  | none => exact h
  | vote hv => exact h.afterVote hv
  | removeVote hv | removeOtherVote hv => exact h.afterUnvote hv
  | delegate hd => exact h.afterDelegate hordered hd
  | undelegate hu => exact h.afterUndelegate hordered hu
  | unlock target => exact h.afterUnlock target
  | start votingPeriod => exact h.keep_same (settled_started hordered _) le_rfl rfl
  | cancelReferendum refIndex => exact h.keep_same (settled_cancelled hhonours) le_rfl rfl
  | emergencyCancel hinfo =>
    refine h.keep_same (settled_cancelled fun approved end_ hfinished => ?_) le_rfl rfl
    cases hinfo.symm.trans hfinished
  | nextBlock hs1 =>
    rename_i launches approved s₁
    have hnow : Owed T { s with blockNumber := s.blockNumber + 1 } who amount until_ :=
      h.keep_same (settled_of_eq rfl) (le_succ _) rfl
    have howed1 : Owed T s₁ who amount until_ := by
      rcases hs1 with rfl | rfl
      · exact hnow
      · exact hnow.keep_same
          (settled_started ⟨hordered.sorted, hordered.voted, hordered.started⟩ _) le_rfl rfl
    have hsettled := settled_matured s₁ (s.blockNumber + 1) approved
    obtain ⟨infos, hmatured, -⟩ := s₁.matured_eq (s.blockNumber + 1) approved
    rw [hmatured] at hsettled ⊢
    exact howed1.keep_same hsettled le_rfl rfl

end

/-! ## Runs -/

abbrev Honoured (T : Config) : State C → State C → Prop :=
  Run T fun s op _ => op.Honours T s

theorem held_run (h : Held T s) (hordered : Ordered s) (hrun : Honoured T s s') :
    Ordered s' ∧ Held T s' := by
  induction hrun with
  | refl => exact ⟨hordered, h⟩
  | call op _ hret hhonours ih =>
    have heffect := effect ih.1.sorted hret
    exact ⟨ih.1.step heffect, ih.2.step ih.1 heffect hhonours⟩
  | elsewhere c _ hlocks ih =>
    refine ⟨⟨ih.1.sorted, ih.1.voted, ih.1.started⟩, fun who => ?_⟩
    rw [hlocks]
    exact ih.2 who

theorem owed_run (howed : Owed T s who amount until_) (h : Held T s) (hordered : Ordered s)
    (hrun : Honoured T s s') : Owed T s' who amount until_ := by
  induction hrun with
  | refl => exact howed
  | call op hrun hret hhonours ih =>
    have hordered' := (held_run h hordered hrun).1
    exact ih.step hordered' (effect hordered'.sorted hret) hhonours
  | elsewhere c _ _ ih => exact ih.keep_same (settled_of_eq rfl) le_rfl rfl

theorem held_genesis (h : s.Genesis) : Held T s := by
  intro who
  rw [h.voting]
  exact ⟨zero_le _, zero_le _⟩

theorem locked_of_owed (howed : Owed T s who amount until_) (h : Held T s) (hordered : Ordered s)
    (hrun : Honoured T s s') (hnow : s'.blockNumber < until_) :
    amount ≤ C.locked s'.currency who := by
  obtain ⟨hordered', hheld'⟩ := held_run h hordered hrun
  exact (owed_run howed h hordered hrun).locked hheld' hordered' hnow

def Op.Ends (who : A) : Op A → Prop
  | delegate x _ _ _ => x = who
  | undelegate x => x = who
  | _ => False

theorem owed_of_ends {b : Nat} {c} (hwho : s.voting who = .delegating b target c d p)
    (hends : op.Ends who) (hhonours : op.Honours T s) (hcall : op.call T s = (.ok (), s')) :
    Owed T s' who b (s.blockNumber + T.enactmentPeriod * c.lockPeriods) := by
  cases op with
  | delegate x y c' b' =>
    obtain rfl := hends
    have hdelegated : Exec.Post (call T (.delegate x y c' b')) s
        (fun _ s' => Delegated T s x y c' b' s') fun _ _ => True := by
      rw [call, Exec.post_bind]
      exact (post_tryDelegate x y c' b').mono (fun _ _ h => h) fun _ _ _ => trivial
    obtain ⟨d', p', s₁, hfreed, rfl⟩ := (hdelegated.ok hcall).done
    have hnow : s₁.blockNumber = s.blockNumber := by cases hfreed <;> rfl
    refine .passed ?_
    rw [hhonours b target c d p hwho]
    exact hnow.ge
  | undelegate x =>
    obtain rfl := hends
    have hundelegated : Exec.Post (call T (.undelegate x)) s
        (fun _ s' => Undelegated T s x s') fun _ _ => True := by
      rw [call, Exec.post_bind]
      exact (post_tryUndelegate x).mono (fun _ _ h => h) fun _ _ _ => trivial
    obtain ⟨b', target', c', d', p', hx, rfl⟩ := (hundelegated.ok hcall).done
    cases hx.symm.trans hwho
    refine .prior ?_ ?_
    · rw [voting_setVoting, update_self]
      exact le_max_right ..
    · rw [voting_setVoting, update_self]
      exact le_max_right ..
  | _ => exact hends.elim

/-- **Conviction locks cannot be escaped** by calls that honour them. The balance of a delegation
that ends stays locked for the periods of its conviction, and so does that of a vote on the winning
side of a finished referendum. -/
theorem conviction_locks_hold {s₀ : State C} (hstart : s₀.Genesis) (hrun : Honoured T s₀ s)
    (who : A) :
    (∀ b target c d p op s₁ s₂, s.voting who = .delegating b target c d p →
      Op.Ends who op → op.Honours T s → op.call T s = (.ok (), s₁) → Honoured T s₁ s₂ →
      s₂.blockNumber < s.blockNumber + T.enactmentPeriod * c.lockPeriods →
      b ≤ C.locked s₂.currency who) ∧
    ∀ refIndex approved end_ c b s₂,
      s.referendumInfoOf.get? refIndex = some (.finished approved end_) →
      lookup (s.voting who).votes refIndex = some (.standard ⟨approved, c⟩ b) →
      Honoured T s s₂ → s₂.blockNumber < end_ + T.enactmentPeriod * c.lockPeriods →
      b ≤ C.locked s₂.currency who := by
  obtain ⟨hordered, hheld⟩ := held_run (held_genesis hstart) (ordered_genesis hstart) hrun
  refine ⟨fun b target c d p op s₁ s₂ hwho hends hhonours hcall hrun2 hnow => ?_,
    fun i approved end_ c b s₂ hinfo hvote hrun2 hnow => ?_⟩
  · have hreturns : (op.call T s).1.Returns := by
      rw [hcall]
      trivial
    have heffect := effect hordered.sorted hreturns
    rw [hcall] at heffect
    exact locked_of_owed (owed_of_ends hwho hends hhonours hcall)
      (hheld.step hordered heffect hhonours) (hordered.step heffect) hrun2 hnow
  · have howed : Owed T s who b (end_ + T.enactmentPeriod * c.lockPeriods) :=
      .vote hvote hinfo (if_pos rfl) le_rfl
    exact locked_of_owed howed hheld hordered hrun2 hnow

end Locks

/-- Account 1 ends a delegation of 50 and unlocks: 50 stay locked. -/
theorem undelegated_stays_locked :
    ∃ s s₁ s₂ : State (fixed Nat 100), Honoured thousand untouched s ∧
      s.voting 1 = .delegating 50 2 .locked6x .zero .zero ∧
      (undelegate 1).call thousand s = (.ok (), s₁) ∧ Honoured thousand s₁ s₂ ∧
      50 ≤ (fixed Nat 100).locked s₂.currency 1 := by
  have hzero : Honoured thousand untouched untouched := .refl
  have hdelegate := hzero.call (.delegate 1 2 .locked6x 50) trivial nofun
  have hunlock : Honoured thousand _ _ :=
    Run.refl.call (s := ((undelegate 1).call thousand
      ((delegate 1 2 .locked6x 50).call thousand untouched).2).2) (.unlock 1) trivial nofun
  refine ⟨_, _, _, hdelegate, rfl, rfl, hunlock, ?_⟩
  exact (conviction_locks_hold untouched_genesis hdelegate 1).1 50 2 .locked6x _ _
    (.undelegate 1) _ _ rfl rfl trivial rfl hunlock (by decide)

/-- **Three ways out** of a delegation of 50 at the highest conviction, or a vote of 50 that won.
Delegating 1 again and unlocking leaves a lock of 1; so does ending the delegation, delegating 1 and
unlocking; and once the finished referendum is cancelled, removing the vote and unlocking leaves
none. -/
theorem conviction_locks_escaped : (∃ s s₁ s₂, Run thousand (fun _ _ _ => True) untouched s ∧
      s.voting 1 = .delegating 50 2 .locked6x .zero .zero ∧
      (delegate 1 2 .none 1).call thousand s = (.ok (), s₁) ∧
      Run thousand (fun _ _ _ => True) s₁ s₂ ∧
      s₂.blockNumber < s.blockNumber + 2 * locked6x.lockPeriods ∧
      (fixed Nat 100).locked s₂.currency 1 < 50) ∧
    (∃ s s₁ s₂, Run thousand (fun _ _ _ => True) untouched s ∧
      s.voting 1 = .delegating 50 2 .locked6x .zero .zero ∧
      (undelegate 1).call thousand s = (.ok (), s₁) ∧
      Run thousand (fun _ _ _ => True) s₁ s₂ ∧
      s₂.blockNumber < s.blockNumber + 2 * locked6x.lockPeriods ∧
      (fixed Nat 100).locked s₂.currency 1 < 50) ∧
    ∃ s s₂, Run thousand (fun _ _ _ => True) untouched s ∧
      s.referendumInfoOf.get? 0 = some (.finished true 1) ∧
      lookup (s.voting 1).votes 0 = some (.standard ⟨true, .locked6x⟩ 50) ∧
      Run thousand (fun _ _ _ => True) s s₂ ∧
      s₂.blockNumber < 1 + 2 * locked6x.lockPeriods ∧
      (fixed Nat 100).locked s₂.currency 1 < 50 := by
  have hzero : ∀ s : State (fixed Nat 100), Run thousand (fun _ _ _ => True) s s := fun _ => .refl
  have hdelegate := (hzero untouched).call (.delegate 1 2 .locked6x 50) trivial trivial
  have hstart := (hzero untouched).call (.start 1) trivial trivial
  have hvote := hstart.call (.vote 1 0 (.standard ⟨true, .locked6x⟩ 50)) trivial trivial
  have hfinish := hvote.call (.nextBlock false fun _ => true) trivial trivial
  have hagain := (hzero ((delegate 1 2 .none 1).call thousand
    ((delegate 1 2 .locked6x 50).call thousand untouched).2).2).call (.unlock 1) trivial trivial
  have hended := (hzero ((undelegate 1).call thousand
    ((delegate 1 2 .locked6x 50).call thousand untouched).2).2).call (.delegate 1 2 .none 1)
    trivial trivial
  have hcancel := (hzero ((nextBlock false fun _ => true).call thousand
    ((vote 1 0 (.standard ⟨true, .locked6x⟩ 50)).call thousand
      ((start 1).call thousand untouched).2).2).2).call (.cancelReferendum 0) trivial trivial
  have hremove := (hcancel.call (.removeVote 1 0) trivial trivial).call (.unlock 1) trivial trivial
  exact ⟨⟨_, _, _, hdelegate, rfl, rfl, hagain, by decide, by decide⟩,
    ⟨_, _, _, hdelegate, rfl, rfl, hended.call (.unlock 1) trivial trivial, by decide, by decide⟩,
    _, _, hfinish, rfl, rfl, hremove, by decide, by decide⟩

end Substrate.Democracy
