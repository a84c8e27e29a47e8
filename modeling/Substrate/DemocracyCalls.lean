import Substrate.Democracy
import Substrate.SortedVec

/-!
# What the calls of the democracy pallet do

One lemma for each call: the state it leaves when it succeeds, with everything it checked, and that
an error leaves the state as it was. The lemmas speak of the vote the account has on a referendum
instead of its position.
-/

namespace Substrate.Democracy

open Exec Function Tally State
open SortedVec (lookup Sorted)

def Voting.votes {A : Type} : Voting A → List (Nat × AccountVote)
  | direct votes _ _ => votes
  | delegating .. => []

@[simp] theorem Voting.votes_setDelegations {A : Type} (d : Delegations) (v : Voting A) :
    (v.setDelegations d).votes = v.votes := by
  cases v <;> rfl

@[simp] theorem Voting.delegations_setDelegations {A : Type} (d : Delegations) (v : Voting A) :
    (v.setDelegations d).delegations = d := by
  cases v <;> rfl

variable {A : Type} [DecidableEq A] {C : LockableCurrency A} {T : Config}

def State.VotesSorted (s : State C) : Prop := ∀ who, Sorted (s.voting who).votes

/-! ## Reads after writes -/

variable {s : State C} {who : A} {d : Delegations} {refIndex : Nat} {p : PriorLock}
  {R : Error → State C → Prop}

theorem State.voting_of_get? {s' : State C} (h : s'.votingOf.get? who = s.votingOf.get? who) :
    s'.voting who = s.voting who := by
  rw [voting, voting, h]

theorem State.voting_insert {s' : State C} {v} (h : s'.votingOf = s.votingOf.insert who v) :
    s'.voting = update s.voting who v := by
  funext x
  rw [voting, h, FinMap.get?_insert]
  by_cases hx : x = who
  · subst hx
    rw [update_self, update_self, Option.getD_some]
  · rw [update_of_ne hx, update_of_ne hx, voting]

@[simp] theorem State.voting_setVoting (s : State C) (who : A) (v : Voting A) :
    (s.setVoting who v).voting = update s.voting who v :=
  voting_insert rfl

/-! ## Voting -/

/-- The tally without the vote the account has. -/
inductive TakenOut (T : Config) (d : Delegations) (tally : Tally) : Option AccountVote → Tally → Prop
  | none : TakenOut T d tally none tally
  | some {old} {t : Tally} (h : tally.remove T.maxBalance old = some t) :
      TakenOut T d tally (some old) (forStandard (reduce d) old t)

structure Voted (T : Config) (s : State C) (who : A) (refIndex : Nat) (vote : AccountVote)
    (s' : State C) : Prop where
  done : ∃ status votes d p votes' t₀ t, s.referendumInfoOf.get? refIndex = some (.ongoing status) ∧
    s.voting who = .direct votes d p ∧
    Sorted votes' ∧ lookup votes' = update (lookup votes) refIndex (some vote) ∧
    TakenOut T d status.tally (lookup votes refIndex) t₀ ∧
    t₀.add T.maxBalance vote = some t ∧
    s' = { s with
        currency := C.extendLock who (vote.balance T.maxBalance) s.currency
        votingOf := s.votingOf.insert who (.direct votes' d p)
        referendumInfoOf := s.referendumInfoOf.insert refIndex (.ongoing
          { status with tally := forStandard (increase T.maxBalance d) vote t }) }

theorem post_placeVote {vote status votes'} {t₀ : Tally} :
    Post (placeVote T who refIndex vote status votes' d p t₀) s
      (fun _ s' => ∃ t, t₀.add T.maxBalance vote = some t ∧ s' = { s with
            currency := C.extendLock who (vote.balance T.maxBalance) s.currency
            votingOf := s.votingOf.insert who (.direct votes' d p)
            referendumInfoOf := s.referendumInfoOf.insert refIndex (.ongoing
              { status with tally := forStandard (increase T.maxBalance d) vote t }) })
      (fun _ s' => s' = s) := by
  unfold placeVote
  simp only [post_bind, post_okOr, post_modify]
  exact ⟨fun t ht => ⟨t, ht, rfl⟩, fun _ => trivial⟩

theorem post_referendumStatus : Post (referendumStatus refIndex) s (fun status s' =>
        s' = s ∧ s.referendumInfoOf.get? refIndex = some (.ongoing status))
      (fun _ s' => s' = s) := by
  unfold referendumStatus
  rw [post_bind, post_read]
  rcases s.referendumInfoOf.get? refIndex with _ | _ | _
  · exact rfl
  · exact ⟨rfl, rfl⟩
  · exact rfl

theorem post_tryVote (hsorted : s.VotesSorted) (who : A) (refIndex : Nat) (vote : AccountVote) :
    Post (tryVote T who refIndex vote) s (fun _ s' => Voted T s who refIndex vote s')
      (fun _ s' => s' = s) := by
  unfold tryVote
  rw [post_bind]
  refine post_referendumStatus.imp ?_
  rintro status s₁ ⟨hs, hinfo⟩
  rw [hs, post_bind, post_read, post_bind, post_ensure]
  refine ⟨fun _ => ?_, fun _ => rfl⟩
  rw [post_bind, post_read]
  cases hvoting : s.voting who with
  | delegating => exact rfl
  | direct votes d p =>
    have hvotes : Sorted votes := by
      have := hsorted who
      rwa [hvoting] at this
    dsimp only
    cases hsearch : Vec.binarySearchByKey votes refIndex Prod.fst with
    | ok i =>
      obtain ⟨old, hget, hold⟩ := hvotes.search_ok hsearch
      obtain ⟨hsorted', hlookup'⟩ := hvotes.set hget vote
      rw [post_bind, post_unwrap, hget]
      rintro _ ⟨⟩
      rw [post_bind, post_okOr]
      refine ⟨fun t ht => post_placeVote.imp ?_, fun _ => rfl⟩
      rintro - s' ⟨t', hadd, rfl⟩
      exact ⟨status, votes, d, p, _, _, t', hinfo, hvoting, hsorted', hlookup',
        hold ▸ .some ht, hadd, rfl⟩
    | error i =>
      obtain ⟨hnone, hsorted', hlookup'⟩ := hvotes.search_error hsearch vote
      rw [post_bind, post_ensure]
      refine ⟨fun _ => post_placeVote.imp ?_, fun _ => rfl⟩
      rintro - s' ⟨t', hadd, rfl⟩
      exact ⟨status, votes, d, p, _, _, t', hinfo, hvoting, hsorted', hlookup',
        hnone ▸ .none, hadd, rfl⟩

variable (T : Config) (s : State C) (refIndex : Nat) (vote : AccountVote) (d : Delegations)
  (p : PriorLock) in
/-- What is left of a removed vote: its referendum, with the tally, and the prior lock. -/
inductive Released : PriorLock → FinMap Nat ReferendumInfo → Prop
  | ongoing {status} {t : Tally} (hinfo : s.referendumInfoOf.get? refIndex = some (.ongoing status))
      (ht : status.tally.remove T.maxBalance vote = some t) :
      Released p (s.referendumInfoOf.insert refIndex (.ongoing
        { status with tally := forStandard (reduce d) vote t }))
  | locked {approved : Bool} {end_ lockPeriods balance : Nat}
      (hinfo : s.referendumInfoOf.get? refIndex = some (.finished approved end_))
      (hlocked : vote.lockedIf approved = some (lockPeriods, balance)) : Released
        (p.accumulate (end_ + T.enactmentPeriod * lockPeriods) balance) s.referendumInfoOf
  | expired {approved : Bool} {end_ : Nat}
      (hinfo : s.referendumInfoOf.get? refIndex = some (.finished approved end_))
      (hfree : ∀ lockPeriods balance, vote.lockedIf approved = some (lockPeriods, balance) →
        end_ + T.enactmentPeriod * lockPeriods ≤ s.blockNumber) :
      Released p s.referendumInfoOf
  | cancelled (hinfo : s.referendumInfoOf.get? refIndex = none) : Released p s.referendumInfoOf

theorem post_releaseVote {vote scope} : Post (releaseVote T refIndex scope vote d p) s
      (fun p' s' => ∃ infos, Released T s refIndex vote d p p' infos ∧
        s' = { s with referendumInfoOf := infos })
      (fun _ s' => s' = s) := by
  unfold releaseVote
  rw [post_bind, post_read]
  cases hinfo : s.referendumInfoOf.get? refIndex with
  | none => exact ⟨_, .cancelled hinfo, rfl⟩
  | some info =>
    cases info with
    | ongoing status =>
      simp only [post_bind, post_ensure, post_okOr, post_modify, post_pure]
      exact ⟨fun _ => ⟨fun t ht => ⟨_, .ongoing hinfo ht, rfl⟩, fun _ => trivial⟩, fun _ => trivial⟩
    | finished approved end_ =>
      dsimp only
      cases hlocked : vote.lockedIf approved with
      | none =>
        have hfree : ∀ lockPeriods balance, vote.lockedIf approved = some (lockPeriods, balance) →
            end_ + T.enactmentPeriod * lockPeriods ≤ s.blockNumber := by
          intro lockPeriods balance h
          rw [hlocked] at h
          cases h
        exact ⟨_, .expired hinfo hfree, rfl⟩
      | some lock =>
        obtain ⟨lockPeriods, balance⟩ := lock
        rw [post_bind, post_read]
        by_cases hnow : s.blockNumber < end_ + T.enactmentPeriod * lockPeriods
        · rw [if_pos hnow, post_bind, post_ensure]
          exact ⟨fun _ => ⟨_, .locked hinfo hlocked, rfl⟩, fun _ => rfl⟩
        rw [if_neg hnow]
        refine ⟨_, .expired hinfo fun lp b h => ?_, rfl⟩
        rw [hlocked] at h
        cases h
        omega

structure Unvoted (T : Config) (s : State C) (who : A) (refIndex : Nat) (s' : State C) : Prop where
  done : ∃ votes d p old votes' p' infos,
    s.voting who = .direct votes d p ∧ lookup votes refIndex = some old ∧
    Sorted votes' ∧ lookup votes' = update (lookup votes) refIndex none ∧
    Released T s refIndex old d p p' infos ∧
    s' = { s with
        votingOf := s.votingOf.insert who (.direct votes' d p')
        referendumInfoOf := infos }

theorem post_tryRemoveVote (hsorted : s.VotesSorted) (who : A) (refIndex : Nat)
    (scope : UnvoteScope) :
    Post (tryRemoveVote T who refIndex scope) s
      (fun _ s' => s' = s ∨ Unvoted T s who refIndex s') (fun _ s' => s' = s) := by
  unfold tryRemoveVote
  rw [post_bind, post_read]
  cases hvoting : s.voting who with
  | delegating => exact .inl rfl
  | direct votes d p =>
    have hvotes : Sorted votes := by
      have := hsorted who
      rwa [hvoting] at this
    dsimp only
    cases hsearch : Vec.binarySearchByKey votes refIndex Prod.fst with
    | error i => exact rfl
    | ok i =>
      obtain ⟨old, hget, hold⟩ := hvotes.search_ok hsearch
      obtain ⟨hsorted', hlookup'⟩ := hvotes.eraseIdx hget
      rw [post_bind, post_unwrap, hget]
      rintro _ ⟨⟩
      rw [post_bind]
      refine post_releaseVote.imp ?_
      rintro p' _ ⟨infos, hreleased, rfl⟩
      exact .inr ⟨votes, d, p, old, _, p', infos, hvoting, hold, hsorted', hlookup', hreleased, rfl⟩

/-! ## Delegating -/

def State.upstream (change : Delegations → Delegations) (f : Bool → Tally → Tally) (x : A)
    (s : State C) : State C :=
  { s with
    votingOf := s.votingOf.insert x ((s.voting x).setDelegations (change (s.voting x).delegations))
    referendumInfoOf := adjustTallies f (s.voting x).votes s.referendumInfoOf }

def State.increased (T : Config) (x : A) (amount : Delegations) : State C → State C :=
  upstream (fun d => d.saturatingAdd T.maxBalance amount) (increase T.maxBalance amount) x

def State.reduced (x : A) (amount : Delegations) : State C → State C :=
  upstream (fun d => d.saturatingSub amount) (reduce amount) x

theorem post_changeUpstreamDelegation {change : Delegations → Delegations}
    {f : Bool → Tally → Tally} {x : A} :
    Post (changeUpstreamDelegation change f x) s (fun _ s' => s' = s.upstream change f x) R := by
  unfold changeUpstreamDelegation upstream
  rw [post_bind, post_read]
  cases hvoting : s.voting x with
  | delegating => exact rfl
  | direct => exact rfl

inductive Freed (T : Config) (s : State C) (who : A) (d : Delegations) (p : PriorLock) :
    State C → Prop
  | idle (h : s.voting who = .direct [] d p) : Freed T s who d p s
  | delegating {balance : Nat} {target : A} {conviction}
      (h : s.voting who = .delegating balance target conviction d p) :
      Freed T s who d p (s.reduced target (conviction.votes T.maxBalance balance))

structure Delegated (T : Config) (s : State C) (who target : A) (conviction : Conviction)
    (balance : Nat) (s' : State C) : Prop where
  ne : who ≠ target
  done : ∃ d p s₁, Freed T s who d p s₁ ∧ s' =
      { (s₁.increased T target (conviction.votes T.maxBalance balance)).setVoting who
          (.delegating balance target conviction d p) with
        currency := C.extendLock who balance s.currency }

theorem post_placeDelegation {target : A} {conviction} {balance : Nat} :
    Post (placeDelegation T who target conviction balance d p) s (fun _ s' => s' =
        { (s.increased T target (conviction.votes T.maxBalance balance)).setVoting who
            (.delegating balance target conviction d p) with
          currency := C.extendLock who balance s.currency }) R := by
  unfold placeDelegation increaseUpstreamDelegation
  rw [post_bind]
  refine post_changeUpstreamDelegation.imp ?_
  rintro n _ rfl
  simp only [post_bind, post_modify, post_pure]
  rfl

theorem post_tryDelegate (who target : A) (conviction : Conviction) (balance : Nat) :
    Post (tryDelegate T who target conviction balance) s
      (fun _ s' => Delegated T s who target conviction balance s') (fun _ s' => s' = s) := by
  unfold tryDelegate
  rw [post_bind, post_ensure]
  refine ⟨fun hne => ?_, fun _ => rfl⟩
  rw [post_bind, post_read, post_bind, post_ensure]
  refine ⟨fun _ => ?_, fun _ => rfl⟩
  rw [post_bind, post_read]
  cases hvoting : s.voting who with
  | direct votes d p =>
    rw [post_bind, post_ensure]
    refine ⟨fun hempty => ?_, fun _ => rfl⟩
    rw [List.isEmpty_iff] at hempty
    subst hempty
    refine post_placeDelegation.imp ?_
    rintro n _ rfl
    exact ⟨hne, d, p, s, .idle hvoting, rfl⟩
  | delegating b x c d p =>
    rw [post_bind]
    refine post_changeUpstreamDelegation.imp ?_
    rintro n s₁ hs1
    refine post_placeDelegation.imp ?_
    rintro m _ rfl
    refine ⟨hne, d, p, s₁, ?_, ?_⟩
    · rw [hs1]
      exact .delegating hvoting
    · rw [hs1]
      rfl

structure Undelegated (T : Config) (s : State C) (who : A) (s' : State C) : Prop where
  done : ∃ balance target conviction d p, s.voting who = .delegating balance target conviction d p ∧
    s' = (s.reduced target (conviction.votes T.maxBalance balance)).setVoting who (.direct [] d
        (p.accumulate (s.blockNumber + T.enactmentPeriod * conviction.lockPeriods) balance))

theorem post_tryUndelegate (who : A) :
    Post (tryUndelegate T who) s (fun _ s' => Undelegated T s who s') (fun _ s' => s' = s) := by
  unfold tryUndelegate
  rw [post_bind, post_read]
  cases hvoting : s.voting who with
  | direct => exact rfl
  | delegating b x c d p =>
    rw [post_bind]
    refine post_changeUpstreamDelegation.imp ?_
    rintro n _ rfl
    exact ⟨b, x, c, d, p, hvoting, rfl⟩

/-! ## Locks and referenda -/

def State.unlocked (T : Config) (who : A) (s : State C) : State C :=
  let voting := (s.voting who).rejig s.blockNumber
  let lockNeeded := voting.lockedBalance T.maxBalance
  { s with
    votingOf := s.votingOf.insert who voting
    currency := if lockNeeded = 0 then C.removeLock who s.currency
      else C.setLock who lockNeeded s.currency }

def State.started (end_ : Nat) (s : State C) : State C :=
  { s with
    referendumInfoOf := s.referendumInfoOf.insert s.referendumCount (.ongoing ⟨end_, .zero⟩)
    referendumCount := s.referendumCount + 1 }

def State.matured (now : Nat) (approved : Nat → Bool) (s : State C) : State C :=
  (maturingReferendaAt now s).foldl (fun s r => s.setInfo r.1 (.finished (approved r.1) now)) s

theorem State.foldl_setInfo (now : Nat) (approved : Nat → Bool)
    (l : List (Nat × ReferendumStatus)) (s : State C) :
    ∃ infos : FinMap Nat ReferendumInfo,
      l.foldl (fun s r => s.setInfo r.1 (.finished (approved r.1) now)) s =
        { s with referendumInfoOf := infos } ∧
      ∀ i, infos.get? i = s.referendumInfoOf.get? i ∨
        i ∈ l.map Prod.fst ∧ infos.get? i = some (.finished (approved i) now) := by
  induction l generalizing s with
  | nil => exact ⟨s.referendumInfoOf, rfl, fun i => .inl rfl⟩
  | cons r l ih =>
    obtain ⟨infos, hfold, hinfos⟩ := ih (s.setInfo r.1 (.finished (approved r.1) now))
    refine ⟨infos, hfold, fun i => ?_⟩
    rcases hinfos i with hsame | ⟨hmem, hfinished⟩
    · by_cases hi : i = r.1
      · subst hi
        refine .inr ⟨List.mem_cons_self, hsame.trans ?_⟩
        exact (congrFun (FinMap.get?_insert ..) _).trans (update_self ..)
      · refine .inl (hsame.trans ?_)
        exact (congrFun (FinMap.get?_insert ..) _).trans (update_of_ne hi ..)
    · exact .inr ⟨List.mem_cons_of_mem _ hmem, hfinished⟩

theorem State.matured_eq (now : Nat) (approved : Nat → Bool) (s : State C) :
    ∃ infos : FinMap Nat ReferendumInfo,
      s.matured now approved = { s with referendumInfoOf := infos } ∧
      ∀ i, infos.get? i = s.referendumInfoOf.get? i ∨
        (∃ status, s.referendumInfoOf.get? i = some (.ongoing status)) ∧
          infos.get? i = some (.finished (approved i) now) := by
  obtain ⟨infos, hfold, hinfos⟩ := foldl_setInfo now approved (maturingReferendaAt now s) s
  refine ⟨infos, hfold, fun i => (hinfos i).imp_right fun ⟨hmem, hfinished⟩ => ⟨?_, hfinished⟩⟩
  obtain ⟨⟨_, status⟩, hin, rfl⟩ := List.mem_map.mp hmem
  obtain ⟨j, -, hj⟩ := List.mem_filterMap.mp hin
  cases hinfo : s.referendumInfoOf.get? j with
  | none =>
    rw [hinfo] at hj
    cases hj
  | some info =>
    rw [hinfo] at hj
    cases info with
    | finished => cases hj
    | ongoing status' =>
      simp only [Option.ite_none_right_eq_some, Option.some.injEq, Prod.mk.injEq] at hj
      obtain ⟨-, rfl, rfl⟩ := hj
      exact ⟨_, hinfo⟩

/-! ## Runs -/

inductive Op (A : Type) where
  | vote (who : A) (refIndex : Nat) (vote : AccountVote)
  | removeVote (who : A) (refIndex : Nat)
  | removeOtherVote (who target : A) (refIndex : Nat)
  | delegate (who target : A) (conviction : Conviction) (balance : Nat)
  | undelegate (who : A)
  | unlock (target : A)
  /-- `fast_track`, or `internal_start_referendum`. -/
  | start (votingPeriod : Nat)
  | cancelReferendum (refIndex : Nat)
  /-- `emergency_cancel`, or `blacklist`. -/
  | emergencyCancel (refIndex : Nat)
  /-- `on_initialize` of the next block. -/
  | nextBlock (launches : Bool) (approved : Nat → Bool)

def Op.call (T : Config) : Op A → Call C Unit
  | vote who refIndex v => tryVote T who refIndex v
  | removeVote who refIndex => tryRemoveVote T who refIndex .any
  | removeOtherVote who target refIndex =>
    tryRemoveVote T target refIndex (if target = who then .any else .onlyExpired)
  | delegate who target conviction balance => do
    let _ ← tryDelegate T who target conviction balance
    pure ()
  | undelegate who => do
    let _ ← tryUndelegate T who
    pure ()
  | unlock target => updateLock T target
  | start votingPeriod => do
    let now ← Exec.read blockNumber
    let _ ← injectReferendum (now + votingPeriod)
    pure ()
  | cancelReferendum refIndex => internalCancelReferendum refIndex
  | emergencyCancel refIndex => do
    let _ ← referendumStatus refIndex
    internalCancelReferendum refIndex
  | nextBlock launches approved => do
    let now ← Exec.read blockNumber
    beginBlock T (now + 1) launches approved

def State.cancelled (refIndex : Nat) (s : State C) : State C :=
  { s with referendumInfoOf := s.referendumInfoOf.erase refIndex }

variable (T : Config) (s : State C) in
inductive Effect : Op A → State C → Prop
  | none (op : Op A) : Effect op s
  | vote {who : A} {refIndex : Nat} {v s'}
      (h : Voted T s who refIndex v s') : Effect (.vote who refIndex v) s'
  | removeVote {who : A} {refIndex : Nat} {s'} (h : Unvoted T s who refIndex s') :
      Effect (.removeVote who refIndex) s'
  | removeOtherVote {who target : A} {refIndex : Nat} {s'}
      (h : Unvoted T s target refIndex s') : Effect (.removeOtherVote who target refIndex) s'
  | delegate {who target : A} {conviction} {balance : Nat} {s'}
      (h : Delegated T s who target conviction balance s') :
      Effect (.delegate who target conviction balance) s'
  | undelegate {who : A} {s'} (h : Undelegated T s who s') : Effect (.undelegate who) s'
  | unlock (target : A) : Effect (.unlock target) (s.unlocked T target)
  | start (votingPeriod : Nat) :
      Effect (.start votingPeriod) (s.started (s.blockNumber + votingPeriod))
  | cancelReferendum (refIndex : Nat) : Effect (.cancelReferendum refIndex) (s.cancelled refIndex)
  | emergencyCancel {refIndex : Nat} {status}
      (h : s.referendumInfoOf.get? refIndex = some (.ongoing status)) :
      Effect (.emergencyCancel refIndex) (s.cancelled refIndex)
  | nextBlock {launches : Bool} {approved : Nat → Bool} {s₁}
      (h : s₁ = { s with blockNumber := s.blockNumber + 1 } ∨
        s₁ = started (s.blockNumber + 1 + T.votingPeriod)
          { s with blockNumber := s.blockNumber + 1 }) :
      Effect (.nextBlock launches approved) (s₁.matured (s.blockNumber + 1) approved)

theorem Op.effect (hsorted : s.VotesSorted) {op : Op A} (hret : (op.call T s).1.Returns) :
    Effect T s op (op.call T s).2 := by
  refine Post.returned ?_ hret
  have refused : ∀ (e : Error) (s' : State C), s' = s → Effect T s op s' := by
    rintro - _ rfl
    exact .none op
  cases op with
  | vote who refIndex v => exact (post_tryVote hsorted who refIndex v).mono (fun _ _ => .vote) refused
  | removeVote who refIndex =>
    refine (post_tryRemoveVote hsorted who refIndex _).mono ?_ refused
    rintro - _ (rfl | h)
    · exact .none _
    · exact .removeVote h
  | removeOtherVote who target refIndex =>
    refine (post_tryRemoveVote hsorted target refIndex _).mono ?_ refused
    rintro - _ (rfl | h)
    · exact .none _
    · exact .removeOtherVote h
  | delegate who target conviction balance =>
    rw [Op.call, post_bind]
    exact (post_tryDelegate who target conviction balance).mono (fun _ _ => .delegate) refused
  | undelegate who =>
    rw [Op.call, post_bind]
    exact (post_tryUndelegate who).mono (fun _ _ => .undelegate) refused
  | unlock target => exact .unlock target
  | start votingPeriod => exact .start votingPeriod
  | cancelReferendum refIndex => exact .cancelReferendum refIndex
  | emergencyCancel refIndex =>
    rw [Op.call, post_bind]
    refine post_referendumStatus.mono ?_ refused
    rintro status _ ⟨rfl, hinfo⟩
    exact .emergencyCancel hinfo
  | nextBlock launches approved =>
    rw [Op.call, post_bind]
    cases launches with
    | false => exact .nextBlock (.inl rfl)
    | true => exact .nextBlock (.inr rfl)

variable (T : Config) (Cond : State C → Op A → State C → Prop) (s0 : State C) in
/-- Other pallets may use the currency in between, without touching the locks of this one. -/
inductive Run : State C → Prop
  | refl : Run s0
  | call {s : State C} (op : Op A) (hrun : Run s) (hret : (op.call T s).1.Returns)
      (hcond : Cond s op (op.call T s).2) : Run (op.call T s).2
  | elsewhere {s : State C} (c : C.State) (hrun : Run s)
      (hlocks : C.locked c = C.locked s.currency) : Run { s with currency := c }

structure State.Genesis (s : State C) : Prop where
  votingOf : ∀ who, s.votingOf.get? who = none
  referendumInfoOf : ∀ refIndex, s.referendumInfoOf.get? refIndex = none

def thousand : Config := ⟨2, 10, 10, 1000⟩

def untouched : State (LockableCurrency.fixed Nat 100) := ⟨fun _ => 0, .empty, .empty, 0, 0, 0⟩

theorem untouched_genesis : untouched.Genesis := ⟨fun _ => rfl, fun _ => rfl⟩

end Substrate.Democracy
