import Substrate.DemocracyOrder
import Substrate.FinMapSum

/-!
# Referendum tallies are sums of the recorded votes

The tally of an ongoing referendum is kept up to date one call at a time, with arithmetic that
saturates. Against it stand two sums over all accounts: `tallied`, what the votes recorded on a
referendum are worth, with the delegations behind them, and `delegated`, what the accounts
delegating to an account give it.
-/

namespace Substrate.Democracy

open AccountVote FinMap Option Tally State Voting Nat
open Function (update update_of_ne update_self)
open SortedVec (lookup Sorted)

/-! ## Adding up -/

namespace Delegations

instance : Add Delegations := ⟨fun a b => ⟨a.votes + b.votes, a.capital + b.capital⟩⟩

variable (a b : Delegations)

@[simp] theorem votes_add : (a + b).votes = a.votes + b.votes := rfl

@[simp] theorem capital_add : (a + b).capital = a.capital + b.capital := rfl

@[simp] theorem votes_zero : zero.votes = 0 := rfl

@[simp] theorem capital_zero : zero.capital = 0 := rfl

variable {a b} in
theorem add_left_inj {c} : a + c = b + c ↔ a = b := by
  simp only [Delegations.ext_iff, votes_add, capital_add]
  omega

variable {a b} in
theorem add_right_comm {c} : a + b + c = a + c + b := by
  simp only [Delegations.ext_iff, votes_add, capital_add]
  omega

def Fits (maxBalance : Nat) (d : Delegations) : Prop :=
  d.votes ≤ maxBalance ∧ d.capital ≤ maxBalance

instance (maxBalance : Nat) (d : Delegations) : Decidable (d.Fits maxBalance) :=
  inferInstanceAs (Decidable (_ ∧ _))

/-- The delegations as votes one way. -/
def on (approve : Bool) (d : Delegations) : Tally :=
  match approve with
  | true => ⟨d.votes, 0, d.capital⟩
  | false => ⟨0, d.votes, d.capital⟩

theorem saturatingAdd_eq {maxBalance : Nat} {a b : Delegations} (h : (a + b).Fits maxBalance) :
    a.saturatingAdd maxBalance b = a + b := by
  obtain ⟨hvotes, hcapital⟩ := h
  ext
  · exact min_eq_right hvotes
  · exact min_eq_right hcapital

theorem saturatingSub_add {a b c : Delegations} (h : a = c + b) : a.saturatingSub b = c := by
  subst h
  ext
  · exact Nat.add_sub_cancel _ _
  · exact Nat.add_sub_cancel _ _

end Delegations

namespace Tally

instance : Add Tally := ⟨fun a b => ⟨a.ayes + b.ayes, a.nays + b.nays, a.turnout + b.turnout⟩⟩

variable (a b c : Tally)

@[simp] theorem ayes_add : (a + b).ayes = a.ayes + b.ayes := rfl

@[simp] theorem nays_add : (a + b).nays = a.nays + b.nays := rfl

@[simp] theorem turnout_add : (a + b).turnout = a.turnout + b.turnout := rfl

variable {a b c}

theorem add_left_inj : a + c = b + c ↔ a = b := by
  simp only [Tally.ext_iff, ayes_add, nays_add, turnout_add]
  omega

theorem add_right_comm : a + b + c = a + c + b := by
  simp only [Tally.ext_iff, ayes_add, nays_add, turnout_add]
  omega

theorem add_assoc : a + b + c = a + (b + c) := by
  simp only [Tally.ext_iff, ayes_add, nays_add, turnout_add]
  omega

def Fits (maxBalance : Nat) (t : Tally) : Prop :=
  t.ayes ≤ maxBalance ∧ t.nays ≤ maxBalance ∧ t.turnout ≤ maxBalance

instance (maxBalance : Nat) (t : Tally) : Decidable (t.Fits maxBalance) :=
  inferInstanceAs (Decidable (_ ∧ _))

end Tally

namespace AccountVote

def contribution (maxBalance : Nat) : AccountVote → Tally
  | standard vote balance => (vote.conviction.votes maxBalance balance).on vote.aye
  | split aye nay =>
    ⟨(Conviction.none.votes maxBalance aye).votes, (Conviction.none.votes maxBalance nay).votes,
      aye + nay⟩

def behind (d : Delegations) (vote : AccountVote) : Tally :=
  match vote.asStandard with
  | some approve => d.on approve
  | none => .zero

theorem behind_add (d e : Delegations) (vote : AccountVote) :
    vote.behind (d + e) = vote.behind d + vote.behind e := by
  cases vote with
  | standard vote balance =>
    cases h : vote.aye <;> simp [behind, asStandard, Delegations.on, h, Tally.ext_iff]
  | split => rfl

def worth (maxBalance : Nat) (d : Delegations) : Option AccountVote → Tally
  | some vote => vote.contribution maxBalance + vote.behind d
  | none => .zero

end AccountVote

namespace Tally

variable {maxBalance : Nat} {t t' : Tally} {vote : AccountVote} {d : Delegations}

theorem add_eq (h : t.add maxBalance vote = some t') : t' = t + vote.contribution maxBalance := by
  cases vote with
  | standard vote balance =>
    cases haye : vote.aye <;>
      simp only [add, haye, checkedAdd, bind_eq_bind, bind_eq_some_iff,
        ite_none_right_eq_some, some.injEq, pure_def] at h <;>
      obtain ⟨_, ⟨-, rfl⟩, _, ⟨-, rfl⟩, rfl⟩ := h <;>
      simp [contribution, Delegations.on, haye, Tally.ext_iff]
  | split aye nay =>
    simp only [add, checkedAdd, bind_eq_bind, bind_eq_some_iff,
      ite_none_right_eq_some, some.injEq, pure_def] at h
    obtain ⟨_, ⟨-, rfl⟩, _, ⟨-, rfl⟩, _, ⟨-, rfl⟩, _, ⟨-, rfl⟩, rfl⟩ := h
    simp [contribution, Conviction.votes, Tally.ext_iff]
    omega

theorem remove_eq (h : t.remove maxBalance vote = some t') :
    t = t' + vote.contribution maxBalance := by
  cases vote with
  | standard vote balance =>
    cases haye : vote.aye <;>
      simp only [remove, haye, checkedSub, bind_eq_bind, bind_eq_some_iff,
        ite_none_right_eq_some, some.injEq, pure_def] at h <;>
      obtain ⟨_, ⟨hcapital, rfl⟩, _, ⟨hvotes, rfl⟩, rfl⟩ := h <;>
      simp [contribution, Delegations.on, haye, Tally.ext_iff] <;>
      omega
  | split aye nay =>
    simp only [remove, checkedSub, bind_eq_bind, bind_eq_some_iff,
      ite_none_right_eq_some, some.injEq, pure_def] at h
    obtain ⟨_, ⟨h1, rfl⟩, _, ⟨h2, rfl⟩, _, ⟨h3, rfl⟩, _, ⟨h4, rfl⟩, rfl⟩ := h
    simp [contribution, Conviction.votes, Tally.ext_iff] at h1 h2 h3 h4 ⊢
    omega

theorem increase_eq (h : (t + vote.behind d).Fits maxBalance) :
    forStandard (increase maxBalance d) vote t = t + vote.behind d := by
  cases vote with
  | standard vote balance =>
    cases haye : vote.aye <;>
      simp [Fits, behind, asStandard, forStandard, increase,
        saturatingAdd, Delegations.on, haye, Tally.ext_iff] at h ⊢ <;>
      omega
  | split => rfl

theorem reduce_add (h : t = t' + vote.behind d) : forStandard (reduce d) vote t = t' := by
  subst h
  cases vote with
  | standard vote balance =>
    cases haye : vote.aye <;>
      simp [behind, asStandard, forStandard, reduce, Delegations.on, haye]
  | split => rfl

end Tally

/-! ## The sums -/

section Sums

variable {A : Type} [DecidableEq A]

def Voting.contribution (maxBalance refIndex : Nat) (v : Voting A) : Tally :=
  worth maxBalance v.delegations (lookup v.votes refIndex)

def Voting.given (maxBalance : Nat) (x : A) : Voting A → Delegations
  | direct .. => .zero
  | delegating balance target conviction _ _ =>
    if target = x then conviction.votes maxBalance balance else .zero

variable {C : LockableCurrency A}

def State.tallied (T : Config) (s : State C) (refIndex : Nat) : Tally where
  ayes := s.votingOf.sumBy fun v => (v.contribution T.maxBalance refIndex).ayes
  nays := s.votingOf.sumBy fun v => (v.contribution T.maxBalance refIndex).nays
  turnout := s.votingOf.sumBy fun v => (v.contribution T.maxBalance refIndex).turnout

def State.delegated (T : Config) (s : State C) (x : A) : Delegations where
  votes := s.votingOf.sumBy fun v => (v.given T.maxBalance x).votes
  capital := s.votingOf.sumBy fun v => (v.given T.maxBalance x).capital

structure State.Fits (T : Config) (s : State C) : Prop where
  tallied : ∀ refIndex status, s.referendumInfoOf.get? refIndex = some (.ongoing status) →
    (s.tallied T refIndex).Fits T.maxBalance
  delegated : ∀ x, (s.delegated T x).Fits T.maxBalance

variable {T : Config} {s s' : State C} {who x : A} {v : Voting A} {refIndex : Nat}
  {f : Voting A → Nat}

theorem State.weight_votingOf (hf : f .default = 0) (s : State C) (who : A) :
    s.votingOf.weight f who = f (s.voting who) := by
  rw [FinMap.weight, voting]
  cases s.votingOf.get? who with
  | none => exact hf.symm
  | some v => rfl

theorem State.sumBy_insert (hf : f .default = 0) (h : s'.votingOf = s.votingOf.insert who v) :
    s'.votingOf.sumBy f + f (s.voting who) = s.votingOf.sumBy f + f v := by
  have hoff : ∀ x, x ≠ who → s'.votingOf.get? x = s.votingOf.get? x := by
    intro x hx
    rw [h, get?_insert, update_of_ne hx]
  have hsum := sumBy_add_weight f hoff
  rwa [weight_votingOf hf, weight_votingOf hf, voting_insert h, update_self] at hsum

theorem State.tallied_insert (T : Config) (refIndex : Nat) (h : s'.votingOf = s.votingOf.insert who v) :
    s'.tallied T refIndex + (s.voting who).contribution T.maxBalance refIndex =
      s.tallied T refIndex + v.contribution T.maxBalance refIndex := by
  ext
  · exact sumBy_insert rfl h
  · exact sumBy_insert rfl h
  · exact sumBy_insert rfl h

theorem State.delegated_insert (T : Config) (x : A) (h : s'.votingOf = s.votingOf.insert who v) :
    s'.delegated T x + (s.voting who).given T.maxBalance x =
      s.delegated T x + v.given T.maxBalance x := by
  ext
  · exact sumBy_insert rfl h
  · exact sumBy_insert rfl h

theorem State.sumBy_split (hf : f .default = 0) (s : State C) (who : A) :
    s.votingOf.sumBy f = s.votingOf.sumBy f - f (s.voting who) + f (s.voting who) := by
  have hsplit : s.votingOf.sumBy f = s.votingOf.weight f who + _ :=
    sumOver_eq_add (fun _ => f) s.votingOf who
  rw [weight_votingOf hf] at hsplit
  omega

theorem State.tallied_split (T : Config) (s : State C) (who : A) (refIndex : Nat) :
    ∃ rest, s.tallied T refIndex = rest + (s.voting who).contribution T.maxBalance refIndex :=
  ⟨⟨_, _, _⟩, Tally.ext (s.sumBy_split rfl who) (s.sumBy_split rfl who) (s.sumBy_split rfl who)⟩

theorem State.delegated_split (T : Config) (s : State C) (who x : A) :
    ∃ rest, s.delegated T x = rest + (s.voting who).given T.maxBalance x :=
  ⟨⟨_, _⟩, Delegations.ext (s.sumBy_split rfl who) (s.sumBy_split rfl who)⟩

theorem State.tallied_eq_zero (h : ∀ who, lookup (s.voting who).votes refIndex = none) :
    s.tallied T refIndex = .zero := by
  have hzero : ∀ f : Tally → Nat, f .zero = 0 →
      s.votingOf.sumBy (fun v => f (v.contribution T.maxBalance refIndex)) = 0 := by
    intro f hf
    refine List.sum_eq_zero fun n hn => ?_
    obtain ⟨who, -, rfl⟩ := List.mem_map.mp hn
    have hdefault : f ((default : Voting A).contribution T.maxBalance refIndex) = 0 := hf
    rw [weight_votingOf hdefault, Voting.contribution, h who]
    exact hf
  exact Tally.ext (hzero _ rfl) (hzero _ rfl) (hzero _ rfl)

end Sums

/-! ## Tallies -/

section Tallies

variable {A : Type} [DecidableEq A] {C : LockableCurrency A} {T : Config} {p p' : PriorLock}

/-- Every tally is the sum of the votes recorded. -/
def Tallied (T : Config) (s : State C) : Prop :=
  ∀ refIndex status, s.referendumInfoOf.get? refIndex = some (.ongoing status) →
    status.tally = s.tallied T refIndex

variable {s s' : State C} {who x : A} {v : Voting A} {refIndex : Nat}

section

variable (h : Tallied T s)
include h

theorem Tallied.write (hvoting : s'.votingOf = s.votingOf.insert who v) (htally : ∀ refIndex
      status', s'.referendumInfoOf.get? refIndex = some (.ongoing status') → ∃ status,
      s.referendumInfoOf.get? refIndex = some (.ongoing status) ∧ status'.tally + (s.voting
      who).contribution T.maxBalance refIndex = status.tally + v.contribution T.maxBalance refIndex) :
    Tallied T s' := by
  intro i status' hstatus'
  obtain ⟨status, hstatus, heq⟩ := htally i status' hstatus'
  rw [← add_left_inj, heq, h i status hstatus, tallied_insert T i hvoting]

theorem Tallied.write_same (hvoting : s'.votingOf = s.votingOf.insert who v)
    (hinfos : s'.referendumInfoOf = s.referendumInfoOf) (hvotes : v.votes = (s.voting who).votes)
    (hdelegations : (s.voting who).votes ≠ [] → v.delegations = (s.voting who).delegations) :
    Tallied T s' := by
  refine h.write hvoting fun i status hstatus => ⟨status, hinfos ▸ hstatus, ?_⟩
  have hsame : v.contribution T.maxBalance i = (s.voting who).contribution T.maxBalance i := by
    unfold Voting.contribution
    rw [hvotes]
    cases hlookup : lookup (s.voting who).votes i with
    | none => rfl
    | some vote =>
      have hne : (s.voting who).votes ≠ [] := by
        rintro hnil
        rw [hnil] at hlookup
        cases hlookup
      rw [hdelegations hne]
  rw [hsame]

theorem Tallied.ended (hvoting : s'.votingOf = s.votingOf) (hinfos : ∀ refIndex status,
      s'.referendumInfoOf.get? refIndex = some (.ongoing status) → s.referendumInfoOf.get? refIndex
      = some (.ongoing status)) : Tallied T s' := by
  intro i status hstatus
  rw [h i status (hinfos i status hstatus), tallied, tallied, hvoting]

theorem Tallied.start (hordered : Ordered s) (end_ : Nat) :
    Tallied T (s.started end_) := by
  have hnew : ∀ who, lookup (s.voting who).votes s.referendumCount = none := by
    intro who
    cases hlookup : lookup (s.voting who).votes s.referendumCount with
    | none => rfl
    | some vote => exact absurd (hordered.voted who _ vote hlookup) (lt_irrefl _)
  intro i status hstatus
  by_cases hi : i = s.referendumCount
  · subst hi
    rw [started, get?_insert, update_self] at hstatus
    cases hstatus
    exact (tallied_eq_zero hnew).symm
  · rw [started, get?_insert, update_of_ne hi] at hstatus
    exact h i status hstatus

end

/-! ### Votes -/

variable {d : Delegations} {votes' : List (Nat × AccountVote)} {change : Delegations → Delegations}
  {f : Bool → Tally → Tally}

theorem takenOut_eq {tally t0 rest : Tally} {old} (h : TakenOut T d tally old t0)
    (hrest : tally = rest + worth T.maxBalance d old) : t0 = rest := by
  cases h with
  | none => exact hrest
  | some hremove =>
    refine reduce_add ?_
    rw [worth, remove_eq hremove, ← add_assoc, add_right_comm, add_left_inj] at hrest
    exact hrest

section

variable (h : Tallied T s)
include h

section

variable {votes : List (Nat × AccountVote)} {d : Delegations}
  (hwho : s.voting who = .direct votes d p)
include hwho

variable {o : Option AccountVote} {status : ReferendumStatus}

theorem Tallied.revote (hlookup : lookup votes' = update (lookup votes) refIndex o)
    (hvoting : s'.votingOf = s.votingOf.insert who (.direct votes' d p'))
    (hoff : ∀ i, i ≠ refIndex → s'.referendumInfoOf.get? i = s.referendumInfoOf.get? i)
    (htally : ∀ status', s'.referendumInfoOf.get? refIndex = some (.ongoing status') →
      ∃ status, s.referendumInfoOf.get? refIndex = some (.ongoing status) ∧
        status'.tally + worth T.maxBalance d (lookup votes refIndex) =
          status.tally + worth T.maxBalance d o) : Tallied T s' := by
  refine h.write hvoting fun i status' hstatus' => ?_
  rw [hwho]
  change ∃ status : ReferendumStatus, _ ∧ status'.tally + worth T.maxBalance d (lookup votes i) =
      status.tally + worth T.maxBalance d (lookup votes' i)
  by_cases hi : i = refIndex
  · subst hi
    rw [hlookup, update_self]
    exact htally status' hstatus'
  · rw [hoff i hi] at hstatus'
    rw [hlookup, update_of_ne hi]
    exact ⟨status', hstatus', rfl⟩

theorem Tallied.rest (hinfo : s.referendumInfoOf.get? refIndex = some (.ongoing status)) :
    ∃ rest, status.tally = rest + worth T.maxBalance d (lookup votes refIndex) := by
  obtain ⟨rest, hrest⟩ := s.tallied_split T who refIndex
  refine ⟨rest, ?_⟩
  rw [h refIndex status hinfo, hrest, hwho]
  rfl

theorem Tallied.tallied_revote {rest : Tally}
    (hlookup : lookup votes' = update (lookup votes) refIndex o)
    (hvoting : s'.votingOf = s.votingOf.insert who (.direct votes' d p'))
    (hinfo : s.referendumInfoOf.get? refIndex = some (.ongoing status))
    (hrest : status.tally = rest + worth T.maxBalance d (lookup votes refIndex)) :
    s'.tallied T refIndex = rest + worth T.maxBalance d o := by
  have hsum := tallied_insert T refIndex hvoting
  rw [hwho] at hsum
  change s'.tallied T refIndex + worth T.maxBalance d (lookup votes refIndex) =
    s.tallied T refIndex + worth T.maxBalance d (lookup votes' refIndex) at hsum
  rw [hlookup, update_self, ← h refIndex status hinfo, hrest, add_right_comm, add_left_inj] at hsum
  exact hsum

end

theorem Tallied.vote {vote} (hv : Voted T s who refIndex vote s') (hfits : s'.Fits T) :
    Tallied T s' := by
  obtain ⟨status, votes, d, p, votes', t0, t, hinfo, hwho, hsorted, hlookup, htaken, hadd, hs'⟩ :=
    hv.done
  obtain ⟨rest, hrest⟩ := h.rest hwho hinfo
  obtain rfl := takenOut_eq htaken hrest
  have hvoting : s'.votingOf = s.votingOf.insert who (.direct votes' d p) := by rw [hs']
  have hinfos : s'.referendumInfoOf = s.referendumInfoOf.insert refIndex (.ongoing
      { status with tally := forStandard (increase T.maxBalance d) vote t }) := by
    rw [hs']
  have hfit : (t + vote.behind d).Fits T.maxBalance := by
    have hsum := h.tallied_revote hwho hlookup hvoting hinfo hrest
    rw [worth, ← add_assoc, ← add_eq hadd] at hsum
    rw [← hsum]
    exact hfits.tallied refIndex _ (by rw [hinfos, get?_insert, update_self])
  refine h.revote hwho hlookup hvoting ?_ ?_
  · intro i hi
    rw [hinfos, get?_insert, update_of_ne hi]
  · intro status' hstatus'
    rw [hinfos, get?_insert, update_self] at hstatus'
    cases hstatus'
    refine ⟨status, hinfo, ?_⟩
    rw [hrest, increase_eq hfit, add_eq hadd, add_assoc (b := vote.contribution _), add_right_comm]
    rfl

theorem Tallied.unvote (hv : Unvoted T s who refIndex s') : Tallied T s' := by
  obtain ⟨votes, d, p, old, votes', p', infos, hwho, hold, hsorted, hlookup, hreleased, rfl⟩ :=
    hv.done
  cases hreleased with
  | ongoing hinfo ht =>
    rename_i status t
    obtain ⟨rest, hrest⟩ := h.rest hwho hinfo
    have htaken := takenOut_eq (.some ht) (hold ▸ hrest)
    refine h.revote hwho hlookup rfl ?_ ?_
    · intro i hi
      exact (congrFun (get?_insert ..) i).trans (update_of_ne hi ..)
    · intro status' hstatus'
      rw [get?_insert, update_self] at hstatus'
      cases hstatus'
      refine ⟨status, hinfo, ?_⟩
      rw [hrest, htaken]
      rfl
  | locked hinfo hlocked | expired hinfo hfree | cancelled hinfo =>
    refine h.revote hwho hlookup rfl (fun _ _ => rfl) fun status' hstatus' => ?_
    rw [hinfo] at hstatus'
    cases hstatus'

/-! ### Delegations -/

section

variable (hsorted : Sorted (s.voting x).votes)
include hsorted

theorem Tallied.upstream (hstep : ∀ i vote status, lookup (s.voting x).votes i = some vote →
      s.referendumInfoOf.get? i = some (.ongoing status) →
      Tally.forStandard f vote status.tally + vote.behind (s.voting x).delegations =
        status.tally + vote.behind (change (s.voting x).delegations)) :
    Tallied T (s.upstream change f x) := by
  have hinfos : ∀ i, (s.upstream change f x).referendumInfoOf.get? i =
      (s.referendumInfoOf.get? i).map
        (ReferendumInfo.mapTally (Tally.forVote f (lookup (s.voting x).votes i))) :=
    get?_adjustTallies f hsorted s.referendumInfoOf
  refine h.write rfl fun i status' hstatus' => ?_
  rw [hinfos, map_eq_some_iff] at hstatus'
  obtain ⟨info, hinfo, hmap⟩ := hstatus'
  cases info with
  | finished => cases hmap
  | ongoing status =>
    cases hmap
    refine ⟨status, hinfo, ?_⟩
    unfold Voting.contribution
    rw [votes_setDelegations, delegations_setDelegations]
    cases hvote : lookup (s.voting x).votes i with
    | none => rfl
    | some vote =>
      have hvote := hstep i vote status hvote hinfo
      simp only [Tally.ext_iff, Tally.ayes_add, Tally.nays_add, Tally.turnout_add,
        worth, Tally.forVote] at hvote ⊢
      omega

variable {amount : Delegations}

theorem Tallied.increased (hdelegations : ((s.voting x).delegations + amount).Fits T.maxBalance)
    (hfits : ∀ i status, (s.increased T x amount).referendumInfoOf.get? i = some (.ongoing status) →
      ((s.increased T x amount).tallied T i).Fits T.maxBalance) :
    Tallied T (s.increased T x amount) := by
  refine h.upstream hsorted fun i vote status hvote hinfo => ?_
  have hsum : (s.increased T x amount).tallied T i = status.tally + vote.behind amount := by
    have hvoting : (s.increased T x amount).votingOf = s.votingOf.insert x _ := rfl
    have hwrite := tallied_insert T i hvoting
    dsimp only at hwrite
    rw [Delegations.saturatingAdd_eq hdelegations] at hwrite
    unfold Voting.contribution at hwrite
    rw [votes_setDelegations, delegations_setDelegations, hvote, worth,
      worth, behind_add, ← h i status hinfo] at hwrite
    simp only [Tally.ext_iff, Tally.ayes_add, Tally.nays_add, Tally.turnout_add] at hwrite ⊢
    omega
  have hongoing : ∃ status', (s.increased T x amount).referendumInfoOf.get? i =
      some (.ongoing status') := by
    have hget := get?_adjustTallies (Tally.increase T.maxBalance amount) hsorted
      s.referendumInfoOf i
    rw [hinfo] at hget
    exact ⟨_, hget⟩
  obtain ⟨status', hstatus'⟩ := hongoing
  have hfit := hfits i status' hstatus'
  rw [hsum] at hfit
  rw [Tally.increase_eq hfit, Delegations.saturatingAdd_eq hdelegations, behind_add,
    Tally.add_right_comm, Tally.add_assoc]

theorem Tallied.reduced {rest : Delegations}
    (hdelegations : (s.voting x).delegations = rest + amount) : Tallied T (s.reduced x amount) := by
  refine h.upstream hsorted fun i vote status hvote hinfo => ?_
  obtain ⟨t, ht⟩ := s.tallied_split T x i
  rw [← h i status hinfo, Voting.contribution, hvote, worth, hdelegations,
    behind_add, ← add_assoc, ← add_assoc] at ht
  rw [reduce_add ht, Delegations.saturatingSub_add hdelegations, hdelegations, ht,
    behind_add, ← add_assoc, add_right_comm]

end

end

/-! ## Delegations -/

def State.Apart (s : State C) : Prop :=
  ∀ who b target c d p, s.voting who = .delegating b target c d p → target ≠ who

theorem State.Apart.write (h : s.Apart) (hread : s'.voting = update s.voting who v)
    (hv : ∀ b target c d p, v = .delegating b target c d p → target ≠ who) : s'.Apart := by
  intro x b target c d p
  by_cases hx : x = who
  · subst hx
    rw [hread, update_self]
    exact hv b target c d p
  · rw [hread, update_of_ne hx]
    exact h x b target c d p

/-- The tallies and the delegations are the sums of what is recorded. -/
structure Booked (T : Config) (s : State C) : Prop where
  tallied : Tallied T s
  apart : s.Apart
  delegations : ∀ x, (s.voting x).delegations = s.delegated T x

theorem Voting.given_setDelegations (maxBalance : Nat) (d : Delegations) (v : Voting A) :
    (v.setDelegations d).given maxBalance x = v.given maxBalance x := by
  cases v <;> rfl

theorem State.delegated_upstream (y : A) :
    (s.upstream change f x).delegated T y = s.delegated T y := by
  have hvoting : (s.upstream change f x).votingOf = s.votingOf.insert x _ := rfl
  have hwrite := delegated_insert T y hvoting
  rwa [given_setDelegations, Delegations.add_left_inj] at hwrite

theorem State.Apart.upstream (h : s.Apart) (change : Delegations → Delegations)
    (f : Bool → Tally → Tally) (x : A) : (s.upstream change f x).Apart := by
  refine h.write (s.voting_upstream change f x) fun b target c d p hv => ?_
  cases hx : s.voting x with
  | direct =>
    rw [hx] at hv
    cases hv
  | delegating =>
    rw [hx] at hv
    cases hv
    exact h x _ _ _ _ _ hx

theorem Booked.write (h : Booked T s) (htallied : Tallied T s')
    (hvoting : s'.votingOf = s.votingOf.insert who v)
    (hdelegations : v.delegations = (s.voting who).delegations)
    (hgiven : ∀ x, v.given T.maxBalance x = (s.voting who).given T.maxBalance x)
    (hapart : ∀ b target c d p, v = .delegating b target c d p → target ≠ who) : Booked T s' := by
  have hread := voting_insert hvoting
  refine ⟨htallied, h.apart.write hread hapart, fun x => ?_⟩
  have hsum : s'.delegated T x = s.delegated T x := by
    have hwrite := delegated_insert T x hvoting
    rwa [hgiven, Delegations.add_left_inj] at hwrite
  rw [hsum, ← h.delegations x, hread]
  by_cases hx : x = who
  · rw [hx, update_self, hdelegations]
  · rw [update_of_ne hx]

/-- A delegation is taken from its target: the account itself is as it was, and what the others
received is what they are given without it. -/
structure Parted (T : Config) (s : State C) (who : A) (d : Delegations) (s₁ : State C) : Prop where
  tallied : Tallied T s₁
  votes : (s.voting who).votes = []
  own : (s.voting who).delegations = d
  same : s₁.voting who = s.voting who
  given : ∀ x, s₁.delegated T x = (s₁.voting x).delegations + (s.voting who).given T.maxBalance x
  apart : s₁.Apart

theorem Booked.parted (h : Booked T s) (hordered : Ordered s) {s₁ : State C}
    (hfreed : Freed T s who d p s₁) : Parted T s who d s₁ := by
  cases hfreed with
  | idle hwho =>
    refine ⟨h.tallied, by rw [hwho]; rfl, by rw [hwho]; rfl, rfl, fun x => ?_, h.apart⟩
    rw [← h.delegations x, hwho]
    rfl
  | delegating hwho =>
    rename_i balance target conviction
    have hne := h.apart who _ _ _ _ _ hwho
    obtain ⟨rest, hrest⟩ := s.delegated_split T who target
    have hamount : (s.voting who).given T.maxBalance target =
        conviction.votes T.maxBalance balance := by
      rw [hwho]
      exact if_pos rfl
    rw [← h.delegations target, hamount] at hrest
    have hread := s.voting_upstream
      (fun d => d.saturatingSub (conviction.votes T.maxBalance balance))
      (reduce (conviction.votes T.maxBalance balance)) target
    refine ⟨h.tallied.reduced (hordered.sorted target) hrest, by rw [hwho]; rfl, by rw [hwho]; rfl,
      ?_, fun x => ?_, h.apart.upstream _ _ target⟩
    · rw [reduced, hread, update_of_ne hne.symm]
    · rw [reduced, delegated_upstream, hread, ← h.delegations x]
      by_cases hx : x = target
      · subst hx
        rw [update_self, delegations_setDelegations, hamount,
          Delegations.saturatingSub_add hrest, hrest]
      · rw [update_of_ne hx, hwho, given, if_neg (Ne.symm hx)]
        rfl

theorem Parted.delegated {s₁ s2 : State C} (h : Parted T s who d s₁)
    (hwho : s2.voting who = s₁.voting who) (hsum : ∀ x, s2.delegated T x = s₁.delegated T x)
    (hvoting : s'.votingOf = s2.votingOf.insert who v) (x : A) :
    s'.delegated T x = (s₁.voting x).delegations + v.given T.maxBalance x := by
  have hwrite := delegated_insert T x hvoting
  rwa [hwho, h.same, hsum, h.given, Delegations.add_right_comm, Delegations.add_left_inj] at hwrite

section

variable (h : Booked T s)
include h

theorem Booked.undelegate (hordered : Ordered s) (hu : Undelegated T s who s') : Booked T s' := by
  obtain ⟨balance, target, conviction, d, p, hwho, hs'⟩ := hu.done
  have hparted := h.parted hordered (.delegating hwho)
  generalize s.reduced target (conviction.votes T.maxBalance balance) = s₁ at hparted hs'
  obtain ⟨p', hs'⟩ : ∃ p', s' = s₁.setVoting who (.direct [] d p') := ⟨_, hs'⟩
  have hvoting : s'.votingOf = s₁.votingOf.insert who (.direct [] d p') := by
    rw [hs']
    rfl
  have hread := voting_insert hvoting
  have hvotes : (s₁.voting who).votes = [] := by rw [hparted.same, hparted.votes]
  refine ⟨?_, hparted.apart.write hread nofun, fun x => ?_⟩
  · refine hparted.tallied.write_same hvoting (by rw [hs']; rfl) hvotes.symm ?_
    exact fun hne => absurd hvotes hne
  · rw [hparted.delegated rfl (fun _ => rfl) hvoting x, hread]
    by_cases hx : x = who
    · rw [hx, update_self, hparted.same, hparted.own]
      rfl
    · rw [update_of_ne hx]
      rfl

theorem Booked.delegate (hordered : Ordered s) {target : A} {conviction : Conviction}
    {balance : Nat} (hd : Delegated T s who target conviction balance s') (hfits : s'.Fits T) :
    Booked T s' := by
  have hne := hd.ne
  obtain ⟨d, p, s₁, hfreed, hs'⟩ := hd.done
  have hparted := h.parted hordered hfreed
  have hread2 := s₁.voting_upstream
    (fun d => d.saturatingAdd T.maxBalance (conviction.votes T.maxBalance balance))
    (increase T.maxBalance (conviction.votes T.maxBalance balance)) target
  have hapart2 := hparted.apart.upstream
    (fun d => d.saturatingAdd T.maxBalance (conviction.votes T.maxBalance balance))
    (increase T.maxBalance (conviction.votes T.maxBalance balance)) target
  have hsum2 : ∀ x, (s₁.increased T target (conviction.votes T.maxBalance balance)).delegated T x =
      s₁.delegated T x := delegated_upstream
  have htallied2 := @Tallied.increased _ _ _ T s₁ target hparted.tallied
    ((hordered.freed hfreed).sorted target) (conviction.votes T.maxBalance balance)
  change (s₁.increased T target _).voting = _ at hread2
  change (s₁.increased T target _).Apart at hapart2
  generalize s₁.increased T target (conviction.votes T.maxBalance balance) = s2
    at hs' hread2 hapart2 hsum2 htallied2
  have hwho2 : s2.voting who = s₁.voting who := by rw [hread2, update_of_ne hne]
  have hvoting : s'.votingOf =
      s2.votingOf.insert who (.delegating balance target conviction d p) := by
    rw [hs']
    rfl
  have hread := voting_insert hvoting
  have hvotes : (s2.voting who).votes = [] := by rw [hwho2, hparted.same, hparted.votes]
  have hgiven := hparted.delegated hwho2 hsum2 hvoting
  -- what the target received is what it is given, so nothing saturated
  have hfit : ((s₁.voting target).delegations + conviction.votes T.maxBalance balance).Fits
      T.maxBalance := by
    have hsum := hgiven target
    rw [given, if_pos rfl] at hsum
    rw [← hsum]
    exact hfits.delegated target
  have htallied : Tallied T s2 := by
    refine htallied2 hfit fun i status hstatus => ?_
    have hsame : s'.tallied T i = s2.tallied T i := by
      have hwrite := tallied_insert T i hvoting
      unfold Voting.contribution at hwrite
      rwa [hvotes] at hwrite
    rw [← hsame]
    exact hfits.tallied i status (by rw [hs']; exact hstatus)
  refine ⟨?_, hapart2.write hread ?_, fun x => ?_⟩
  · refine htallied.write_same hvoting (by rw [hs']; rfl) hvotes.symm ?_
    exact fun hne => absurd hvotes hne
  · rintro b t c d' p' ⟨⟩
    exact hne.symm
  · rw [hgiven x, hread]
    by_cases hx : x = who
    · subst hx
      rw [update_self, hparted.same, hparted.own, given, if_neg hne.symm]
      rfl
    rw [update_of_ne hx, hread2]
    by_cases hxt : x = target
    · subst hxt
      rw [update_self, delegations_setDelegations,
        Delegations.saturatingAdd_eq hfit, given, if_pos rfl]
    · rw [update_of_ne hxt, given, if_neg (Ne.symm hxt)]
      rfl

/-! ## Runs -/

theorem Booked.of_tallied (htallied : Tallied T s') (hvoting : s'.votingOf = s.votingOf) :
    Booked T s' := by
  have hread : s'.voting = s.voting := funext fun x => voting_of_get? (by rw [hvoting])
  refine ⟨htallied, fun x => ?_, fun x => ?_⟩
  · rw [hread]
    exact h.apart x
  · rw [hread, h.delegations x, delegated, delegated, hvoting]

theorem Booked.revote (htallied : Tallied T s') {votes} (hwho : s.voting who = .direct votes d p)
    (hvoting : s'.votingOf = s.votingOf.insert who (.direct votes' d p')) : Booked T s' := by
  refine h.write htallied hvoting ?_ ?_ nofun
  · rw [hwho]
    rfl
  · intro x
    rw [hwho]
    rfl

theorem Booked.vote {vote} (hv : Voted T s who refIndex vote s') (hfits : s'.Fits T) :
    Booked T s' := by
  obtain ⟨_, votes, d, p, votes', _, _, _, hwho, _, _, _, _, hs'⟩ := hv.done
  exact h.revote (h.tallied.vote hv hfits) hwho (by rw [hs'])

theorem Booked.unvote (hv : Unvoted T s who refIndex s') : Booked T s' := by
  obtain ⟨votes, d, p, _, votes', _, _, hwho, _, _, _, _, hs'⟩ := hv.done
  exact h.revote (h.tallied.unvote hv) hwho (by rw [hs'])

theorem Booked.unlock (who : A) : Booked T (s.unlocked T who) := by
  have hdelegations :
      ((s.voting who).rejig s.blockNumber).delegations = (s.voting who).delegations := by
    cases s.voting who <;> rfl
  have htallied : Tallied T (s.unlocked T who) :=
    h.tallied.write_same rfl rfl (votes_rejig ..) fun _ => hdelegations
  refine h.write htallied rfl hdelegations (fun x => ?_) fun b target c d p hv => ?_
  · cases s.voting who <;> rfl
  · cases hwho : s.voting who with
    | direct =>
      rw [hwho] at hv
      cases hv
    | delegating =>
      rw [hwho] at hv
      cases hv
      exact h.apart who _ _ _ _ _ hwho

theorem Booked.cancel (refIndex : Nat) : Booked T (s.cancelled refIndex) := by
  refine h.of_tallied (h.tallied.ended rfl fun i status hinfo => ?_) rfl
  rw [cancelled, get?_erase] at hinfo
  by_cases hi : i = refIndex
  · rw [hi, update_self] at hinfo
    cases hinfo
  · rwa [update_of_ne hi] at hinfo

theorem Booked.mature (now : Nat) (approved : Nat → Bool) : Booked T (s.matured now approved) := by
  obtain ⟨infos, hmatured, hinfos⟩ := s.matured_eq now approved
  rw [hmatured]
  refine h.of_tallied (h.tallied.ended rfl fun i status hinfo => ?_) rfl
  rcases hinfos i with hsame | ⟨-, hfinished⟩
  · exact hsame.symm.trans hinfo
  · cases hfinished.symm.trans hinfo

theorem Booked.step (hordered : Ordered s) {op : Op A} (heffect : Effect T s op s')
    (hfits : s'.Fits T) : Booked T s' := by
  cases heffect with
  | none => exact h
  | vote hv => exact h.vote hv hfits
  | removeVote hv | removeOtherVote hv => exact h.unvote hv
  | delegate hd => exact h.delegate hordered hd hfits
  | undelegate hu => exact h.undelegate hordered hu
  | unlock target => exact h.unlock target
  | start votingPeriod => exact h.of_tallied (h.tallied.start hordered _) rfl
  | cancelReferendum refIndex => exact h.cancel refIndex
  | emergencyCancel _ => exact h.cancel _
  | nextBlock hs1 =>
    have hnow : Booked T { s with blockNumber := s.blockNumber + 1 } :=
      ⟨h.tallied, h.apart, h.delegations⟩
    have hstart := hnow.tallied.start ⟨hordered.sorted, hordered.voted, hordered.started⟩
    refine Booked.mature ?_ _ _
    rcases hs1 with rfl | rfl
    · exact hnow
    · exact hnow.of_tallied (hstart _) rfl

end

theorem booked_genesis (h : s.Genesis) : Booked T s := by
  have hkeys : s.votingOf.keys = [] := by
    refine List.eq_nil_iff_forall_not_mem.mpr fun who hmem => ?_
    rw [s.votingOf.mem_keys, h.votingOf] at hmem
    cases hmem
  have hsum : ∀ f : Voting A → Nat, s.votingOf.sumBy f = 0 := by
    intro f
    rw [FinMap.sumBy, hkeys]
    rfl
  refine ⟨fun i status hstatus => ?_, fun who b target c d p hwho => ?_, fun x => ?_⟩
  · rw [h.referendumInfoOf] at hstatus
    cases hstatus
  · rw [h.voting] at hwho
    cases hwho
  · rw [h.voting, delegated, hsum, hsum]
    rfl

theorem booked_run {s₀ : State C} (hstart : s₀.Genesis)
    (hrun : Run T (fun _ _ s' => s'.Fits T) s₀ s) : Ordered s ∧ Booked T s := by
  induction hrun with
  | refl => exact ⟨ordered_genesis hstart, booked_genesis hstart⟩
  | call op _ hret hfits ih =>
    have heffect := Op.effect ih.1.sorted hret
    exact ⟨ih.1.step heffect, ih.2.step ih.1 heffect hfits⟩
  | elsewhere c _ _ ih =>
    exact ⟨⟨ih.1.sorted, ih.1.voted, ih.1.started⟩, ⟨ih.2.tallied, ih.2.apart, ih.2.delegations⟩⟩

/-- **Referendum tallies equal the recorded votes** along every run in which no sum overflows:
turnout, ayes and nays are the sums over the accounts with a vote of what it is worth and, for a
standard vote, of the delegations the account received; and these are the sums of the votes and
capital of the accounts delegating to it. -/
theorem tallies_equal_recorded_votes {s₀ : State C} (hstart : s₀.Genesis)
    (hrun : Run T (fun _ _ s' => s'.Fits T) s₀ s) :
    (∀ refIndex status, s.referendumInfoOf.get? refIndex = some (.ongoing status) →
      status.tally.turnout =
        s.votingOf.sumBy (fun v => (v.contribution T.maxBalance refIndex).turnout) ∧
      status.tally.ayes = s.votingOf.sumBy (fun v => (v.contribution T.maxBalance refIndex).ayes) ∧
      status.tally.nays = s.votingOf.sumBy (fun v => (v.contribution T.maxBalance refIndex).nays)) ∧
    ∀ x, (s.voting x).delegations.votes =
        s.votingOf.sumBy (fun v => (v.given T.maxBalance x).votes) ∧
      (s.voting x).delegations.capital =
        s.votingOf.sumBy (fun v => (v.given T.maxBalance x).capital) := by
  have h := (booked_run hstart hrun).2
  refine ⟨fun i status hstatus => ?_, fun x => ?_⟩
  · rw [h.tallied i status hstatus]
    exact ⟨rfl, rfl, rfl⟩
  · rw [h.delegations x]
    exact ⟨rfl, rfl⟩

theorem State.Fits.of_one (hinfos : ∀ i, i ≠ 0 → s.referendumInfoOf.get? i = none)
    (htallied : (s.tallied T 0).Fits T.maxBalance)
    (hdelegated : ∀ x, (s.delegated T x).Fits T.maxBalance) : s.Fits T := by
  refine ⟨fun i status hstatus => ?_, hdelegated⟩
  by_cases hi : i = 0
  · rwa [hi]
  · rw [hinfos i hi] at hstatus
    cases hstatus

end Tallies

/-- Account 1 votes with 30 at conviction 2, and account 2 delegates 20 to it. -/
theorem delegated_vote_tallied :
    ∃ s status, Run thousand (fun _ _ s' => s'.Fits thousand) untouched s ∧
      s.referendumInfoOf.get? 0 = some (.ongoing status) ∧ status.tally = ⟨80, 0, 50⟩ ∧
      status.tally.turnout =
        s.votingOf.sumBy fun v => (v.contribution thousand.maxBalance 0).turnout := by
  have hoff : ∀ {infos : FinMap Nat ReferendumInfo} {info : ReferendumInfo},
      (∀ i, i ≠ 0 → infos.get? i = none) → ∀ i, i ≠ 0 → (infos.insert 0 info).get? i = none :=
    fun h i hi => (update_of_ne hi ..).trans (h i hi)
  have hzero : Run thousand (fun _ _ s' => s'.Fits thousand) untouched untouched := .refl
  have hstart := hzero.call (.start 10) trivial
    (.of_one (hoff fun _ _ => rfl) (by decide) fun _ => ⟨zero_le _, zero_le _⟩)
  have hvote := hstart.call (.vote 1 0 (.standard ⟨true, .locked2x⟩ 30)) trivial
    (.of_one (hoff (hoff fun _ _ => rfl)) (by decide) fun _ => ⟨zero_le _, zero_le _⟩)
  have hdelegate := hvote.call (.delegate 2 1 .locked1x 20) trivial
    (.of_one (hoff (hoff (hoff fun _ _ => rfl))) (by decide) fun x => by
      change Delegations.Fits 1000 ⟨(if 1 = x then (⟨20, 20⟩ : Delegations) else .zero).votes + 0,
        (if 1 = x then (⟨20, 20⟩ : Delegations) else .zero).capital + 0⟩
      split <;> decide)
  refine ⟨_, _, hdelegate, rfl, rfl, ?_⟩
  exact ((tallies_equal_recorded_votes untouched_genesis hdelegate).1 0 _ rfl).1

end Substrate.Democracy
