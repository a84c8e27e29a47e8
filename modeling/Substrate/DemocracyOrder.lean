import Substrate.DemocracyCalls

/-!
# Votes and referenda in order

The votes of an account stay sorted by referendum, and nobody votes on a referendum that has not
been started. Each write of the pallet is to one account, with the referenda it touches:
`Ordered.write` is the rule for it.
-/

namespace Substrate.Democracy

open Function ReferendumInfo State FinMap
open SortedVec (lookup Sorted)

/-! ## Tallies behind the votes of an account -/

def ReferendumInfo.mapTally (g : Tally → Tally) : ReferendumInfo → ReferendumInfo
  | ongoing status => ongoing { status with tally := g status.tally }
  | finished approved end_ => finished approved end_

def Tally.forVote (f : Bool → Tally → Tally) (o : Option AccountVote) (t : Tally) : Tally :=
  match o with
  | some vote => t.forStandard f vote
  | none => t

theorem get?_adjustTally (f : Tally → Tally) (k : Nat) (infos : FinMap Nat ReferendumInfo) :
    (adjustTally f k infos).get? = update infos.get? k ((infos.get? k).map (mapTally f)) := by
  unfold adjustTally
  cases hinfo : infos.get? k with
  | none => exact (update_eq_iff.mpr ⟨hinfo.symm, fun _ _ => rfl⟩).symm
  | some info =>
    cases info with
    | ongoing status => exact get?_insert ..
    | finished => exact (update_eq_iff.mpr ⟨hinfo.symm, fun _ _ => rfl⟩).symm

theorem ReferendumInfo.map_mapTally_none (f : Bool → Tally → Tally) (o : Option ReferendumInfo) :
    o.map (mapTally (Tally.forVote f none)) = o := by
  rcases o with _ | _ | _ <;> rfl

theorem get?_adjustTallies (f : Bool → Tally → Tally) {votes} (hsorted : Sorted votes)
    (infos : FinMap Nat ReferendumInfo) (i : Nat) :
    (adjustTallies f votes infos).get? i =
      (infos.get? i).map (mapTally (Tally.forVote f (lookup votes i))) := by
  induction votes generalizing infos with
  | nil => exact (map_mapTally_none f _).symm
  | cons v rest ih =>
    obtain ⟨k, vote⟩ := v
    have hrest : lookup rest k = none :=
      SortedVec.lookup_eq_none.mpr fun e he => ((List.pairwise_cons.mp hsorted).1 e he).ne'
    have hlookup : lookup ((k, vote) :: rest) = update (lookup rest) k (some vote) :=
      SortedVec.lookup_cons
    -- the infos after the first vote of the loop
    obtain ⟨infos1, hinfos1, hget⟩ : ∃ infos1 : FinMap Nat ReferendumInfo,
        adjustTallies f ((k, vote) :: rest) infos = adjustTallies f rest infos1 ∧
        infos1.get? = update infos.get? k
          ((infos.get? k).map (mapTally (Tally.forVote f (some vote)))) := by
      cases vote with
      | standard vote balance => exact ⟨_, rfl, get?_adjustTally ..⟩
      | split aye nay =>
        refine ⟨infos, rfl, ?_⟩
        have hsame := map_mapTally_none f (infos.get? k)
        exact (update_eq_iff.mpr ⟨hsame, fun _ _ => rfl⟩).symm
    rw [hinfos1, ih (List.pairwise_cons.mp hsorted).2, hget, hlookup]
    by_cases hi : i = k
    · subst hi
      rw [update_self, update_self, hrest]
      exact map_mapTally_none f _
    · rw [update_of_ne hi, update_of_ne hi]

section Order

variable {A : Type} [DecidableEq A] {C : LockableCurrency A} {T : Config} {s s' : State C}
  {who x : A} {v : Voting A} {refIndex : Nat} {d : Delegations} {p : PriorLock}

theorem State.voting_upstream (s : State C) (change : Delegations → Delegations)
    (f : Bool → Tally → Tally) (x : A) :
    (s.upstream change f x).voting =
      update s.voting x ((s.voting x).setDelegations (change (s.voting x).delegations)) :=
  voting_insert rfl

/-! ## Order -/

/-- The votes are sorted, and on referenda that were started. -/
structure Ordered (s : State C) : Prop where
  sorted : s.VotesSorted
  voted : ∀ who refIndex vote, lookup (s.voting who).votes refIndex = some vote →
    refIndex < s.referendumCount
  started : ∀ refIndex info, s.referendumInfoOf.get? refIndex = some info →
    refIndex < s.referendumCount

def State.NoneStarted (s s' : State C) : Prop :=
  s'.referendumCount = s.referendumCount ∧
    ∀ refIndex info, s'.referendumInfoOf.get? refIndex = some info →
      ∃ info', s.referendumInfoOf.get? refIndex = some info'

section

variable (h : Ordered s)
include h

theorem Ordered.sorted_direct {votes} (hwho : s.voting who = .direct votes d p) : Sorted votes := by
  have hsorted := h.sorted who
  rwa [hwho] at hsorted

section

variable (hvoting : s'.votingOf = s.votingOf.insert who v) (hnone : s.NoneStarted s')
include hvoting hnone

theorem Ordered.write (hsorted : Sorted v.votes)
    (hvoted : ∀ refIndex vote, lookup v.votes refIndex = some vote → refIndex < s.referendumCount) :
    Ordered s' := by
  have hread := voting_insert hvoting
  refine ⟨fun x => ?_, fun x i vote => ?_, fun i info hinfo => ?_⟩
  · by_cases hx : x = who
    · rwa [hread, hx, update_self]
    · rw [hread, update_of_ne hx]
      exact h.sorted x
  · rw [hnone.1]
    by_cases hx : x = who
    · rw [hread, hx, update_self]
      exact hvoted i vote
    · rw [hread, update_of_ne hx]
      exact h.voted x i vote
  · rw [hnone.1]
    obtain ⟨info', hinfo'⟩ := hnone.2 i info hinfo
    exact h.started i info' hinfo'

theorem Ordered.write_same (hvotes : v.votes = (s.voting who).votes) : Ordered s' :=
  h.write hvoting hnone (hvotes ▸ h.sorted who) (hvotes ▸ h.voted who)

end

theorem Ordered.ended (hvoting : s'.votingOf = s.votingOf) (hnone : s.NoneStarted s') :
    Ordered s' := by
  have hread : s'.voting = s.voting := funext fun x => State.voting_of_get? (by rw [hvoting])
  refine ⟨fun x => hread ▸ h.sorted x, fun x => ?_, fun i info hinfo => ?_⟩
  · rw [hread, hnone.1]
    exact h.voted x
  · rw [hnone.1]
    obtain ⟨info', hinfo'⟩ := hnone.2 i info hinfo
    exact h.started i info' hinfo'

theorem Ordered.start (end_ : Nat) : Ordered (s.started end_) := by
  refine ⟨h.sorted, fun who i vote hvote => Nat.lt_succ_of_lt (h.voted who i vote hvote),
    fun i info hinfo => ?_⟩
  by_cases hi : i = s.referendumCount
  · exact Nat.lt_succ_of_le hi.le
  · rw [State.started, get?_insert, update_of_ne hi] at hinfo
    exact Nat.lt_succ_of_lt (h.started i info hinfo)

theorem Ordered.revote {votes votes' p' o} (hwho : s.voting who = .direct votes d p)
    (hsorted : Sorted votes') (hlookup : lookup votes' = update (lookup votes) refIndex o)
    (hindex : o ≠ none → refIndex < s.referendumCount)
    (hvoting : s'.votingOf = s.votingOf.insert who (.direct votes' d p')) (hnone : s.NoneStarted s') :
    Ordered s' := by
  refine h.write hvoting hnone hsorted fun i vote hvote => ?_
  change lookup votes' i = some vote at hvote
  by_cases hi : i = refIndex
  · subst hi
    rw [hlookup, update_self] at hvote
    exact hindex (by rw [hvote]; exact Option.some_ne_none vote)
  · rw [hlookup, update_of_ne hi] at hvote
    exact h.voted who i vote (by rw [hwho]; exact hvote)

theorem Ordered.upstream (change : Delegations → Delegations) (f : Bool → Tally → Tally) (x : A) :
    Ordered (s.upstream change f x) := by
  refine h.write_same rfl ⟨rfl, fun i info hinfo => ?_⟩ (Voting.votes_setDelegations ..)
  have hget := get?_adjustTallies f (h.sorted x) s.referendumInfoOf i
  obtain ⟨info', hinfo', -⟩ := Option.map_eq_some_iff.mp (hget.symm.trans hinfo)
  exact ⟨info', hinfo'⟩

end

theorem exists_of_insert {infos : FinMap Nat ReferendumInfo} {info0 info1 : ReferendumInfo}
    (h : infos.get? refIndex = some info0) (i : Nat) (info : ReferendumInfo)
    (hinfo : (infos.insert refIndex info1).get? i = some info) :
    ∃ info', infos.get? i = some info' := by
  by_cases hi : i = refIndex
  · exact ⟨info0, hi ▸ h⟩
  · rw [get?_insert, update_of_ne hi] at hinfo
    exact ⟨info, hinfo⟩

theorem Ordered.vote (h : Ordered s) {vote : AccountVote} (hv : Voted T s who refIndex vote s') :
    Ordered s' := by
  obtain ⟨status, votes, d, p, votes', _, _, hinfo, hwho, hsorted, hlookup, _, _, rfl⟩ := hv.done
  exact h.revote hwho hsorted hlookup (fun _ => h.started refIndex _ hinfo) rfl
    ⟨rfl, exists_of_insert hinfo⟩

theorem Ordered.unvote (h : Ordered s) (hv : Unvoted T s who refIndex s') : Ordered s' := by
  obtain ⟨votes, d, p, old, votes', p', infos, hwho, _, hsorted, hlookup, hreleased, rfl⟩ :=
    hv.done
  refine h.revote hwho hsorted hlookup (fun hne => absurd rfl hne) rfl ⟨rfl, ?_⟩
  cases hreleased with
  | ongoing hinfo _ => exact exists_of_insert hinfo
  | locked | expired | cancelled => exact fun _ info hinfo => ⟨info, hinfo⟩

theorem Freed.votes {s1 : State C} (h : Freed T s who d p s1) : (s.voting who).votes = [] := by
  cases h with
  | idle hwho | delegating hwho => rw [hwho]; rfl

theorem Ordered.freed (h : Ordered s) {s1 : State C} (hf : Freed T s who d p s1) : Ordered s1 := by
  cases hf with
  | idle => exact h
  | delegating => exact h.upstream _ _ _

theorem Ordered.write_nil (h : Ordered s) (hvoting : s'.votingOf = s.votingOf.insert who v)
    (hcount : s'.referendumCount = s.referendumCount)
    (hinfos : s'.referendumInfoOf = s.referendumInfoOf) (hvotes : v.votes = []) : Ordered s' := by
  refine h.write hvoting ⟨hcount, fun i info hinfo => ⟨info, ?_⟩⟩ ?_ fun i vote hvote => ?_
  · rw [← hinfos, hinfo]
  · rw [hvotes]
    exact List.Pairwise.nil
  · rw [hvotes] at hvote
    cases hvote

omit [DecidableEq A] in
theorem Voting.votes_rejig (now : Nat) (v : Voting A) : (v.rejig now).votes = v.votes := by
  cases v <;> rfl

theorem Ordered.cancel (h : Ordered s) (refIndex : Nat) : Ordered (s.cancelled refIndex) := by
  refine h.ended rfl ⟨rfl, fun i info hinfo => ⟨info, ?_⟩⟩
  rw [cancelled, get?_erase] at hinfo
  by_cases hi : i = refIndex
  · rw [hi, update_self] at hinfo
    cases hinfo
  · rwa [update_of_ne hi] at hinfo

theorem Ordered.mature (h : Ordered s) (now : Nat) (approved : Nat → Bool) :
    Ordered (s.matured now approved) := by
  obtain ⟨infos, hmatured, hinfos⟩ := s.matured_eq now approved
  rw [hmatured]
  refine h.ended rfl ⟨rfl, fun i info hinfo => ?_⟩
  rcases hinfos i with hsame | ⟨⟨status, hongoing⟩, -⟩
  · exact ⟨info, hsame.symm.trans hinfo⟩
  · exact ⟨_, hongoing⟩

theorem Ordered.step (h : Ordered s) {op : Op A} (heffect : Effect T s op s') : Ordered s' := by
  cases heffect with
  | none => exact h
  | vote hv => exact h.vote hv
  | removeVote hv | removeOtherVote hv => exact h.unvote hv
  | delegate hd =>
    obtain ⟨d, p, s1, hfreed, rfl⟩ := hd.done
    exact ((h.freed hfreed).upstream _ _ _).write_nil rfl rfl rfl rfl
  | undelegate hu =>
    obtain ⟨balance, target, conviction, d, p, _, rfl⟩ := hu.done
    exact (h.upstream _ _ _).write_nil rfl rfl rfl rfl
  | unlock target =>
    exact h.write_same rfl ⟨rfl, fun _ info hinfo => ⟨info, hinfo⟩⟩ (Voting.votes_rejig ..)
  | start votingPeriod => exact h.start _
  | cancelReferendum refIndex => exact h.cancel refIndex
  | emergencyCancel _ => exact h.cancel _
  | nextBlock hs1 =>
    have hnow : Ordered { s with blockNumber := s.blockNumber + 1 } :=
      ⟨h.sorted, h.voted, h.started⟩
    refine Ordered.mature ?_ _ _
    rcases hs1 with rfl | rfl
    · exact hnow
    · exact hnow.start _

theorem State.Genesis.voting (h : s.Genesis) (who : A) : s.voting who = .default := by
  rw [State.voting, h.votingOf]
  rfl

theorem ordered_genesis (h : s.Genesis) : Ordered s := by
  refine ⟨fun who => ?_, fun who i vote hvote => ?_, fun i info hinfo => ?_⟩
  · rw [h.voting]
    exact List.Pairwise.nil
  · rw [h.voting] at hvote
    cases hvote
  · rw [h.referendumInfoOf] at hinfo
    cases hinfo

end Order

end Substrate.Democracy
