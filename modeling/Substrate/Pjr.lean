import Mathlib.Data.Prod.Lex
import Substrate.ElectionScore

/-!
# Proportional justified representation

`primitives/npos-elections/src/pjr.rs`: the check of a solution against a threshold, and the cheap
validation of a challenge to it. Candidates are behind pointers in the source and are not written
once they are made, so an edge holds the candidate itself. The debug assertion of `pre_score`, that
its candidate is not elected, is not executed.

The check looks at the candidates that were not elected, the validation at whatever candidate the
challenge names.
-/

namespace Substrate.Pjr

open List PerThing
open ElectionScore (balanceMax)

abbrev Balance : Type := Fin (balanceMax + 1)

structure Support (A : Type) where
  total : Balance
  voters : List (A × Balance)

/-- With the fields that are used here. -/
structure Candidate (A : Type) where
  who : A
  elected : Bool
  backedStake : Balance

structure Edge (A : Type) where
  who : A
  candidate : Candidate A
  weight : Balance

structure Voter (A : Type) where
  who : A
  budget : Nat
  edges : List (Edge A)

variable {A : Type} [LinearOrder A]

/-! ## The input -/

section

variable (counterExample : A) (supports : List (A × Support A)) (allCandidates : List A)
  (allVoters : List (A × Fin (2 ^ 64) × List A))

/-- Of several supports for one account the map keeps the last. -/
def supportOf (who : A) : Option (Support A) :=
  (supports.reverse.find? fun s => s.1 = who).map Prod.snd

/-- What a voter gives to the winners. -/
def assignmentsOf (voter : A) : List (A × Balance) :=
  supports.flatMap fun s => (s.2.voters.filter fun v => v.1 = voter).map fun v => (s.1, v.2)

def prepareCandidates : List (Candidate A) :=
  allCandidates.map fun who =>
    let maybeSupport := supportOf supports who
    ⟨who, maybeSupport.isSome, (maybeSupport.map Support.total).getD 0⟩

variable (candidates : List (Candidate A)) (voters : List (Voter A)) (t : Balance)

/-- Duplicates and targets that are no candidates are passed over. -/
def prepareEdges (voter : A) (targets : List A) : List (Edge A) :=
  targets.foldl (fun edges t =>
    if edges.any fun e => e.who = t then edges
    else
      match candidates.reverse.find? fun c => c.who = t with
      | none => edges
      | some candidate =>
        let weight := ((assignmentsOf supports voter).find? fun d => d.1 = t).map Prod.snd
        edges ++ [⟨t, candidate, weight.getD 0⟩]) []

/-- The stakes of the voters are of type `u64`. -/
def preparePjrInput : List (Candidate A) × List (Voter A) :=
  let candidates := prepareCandidates supports allCandidates
  (candidates, allVoters.map fun v => ⟨v.1, v.2.1, prepareEdges supports candidates v.1 v.2.2⟩)

/-! ## The check -/

def addExtra (acc : Nat) (edge : Edge A) : Option Nat :=
  if edge.candidate.elected then do
    let ratio ← perbill.fromRational balanceMax t edge.candidate.backedStake
    let extra ← perbill.mul balanceMax (min perbill.accuracy ratio) edge.weight
    return min (acc + extra) balanceMax
  else some acc

def slack (voter : Voter A) (t : Balance) : Option Nat :=
  (voter.edges.foldlM (addExtra t) 0).map fun leftover => voter.budget - leftover

def preScore (unelected : A) (voters : List (Voter A)) (t : Balance) : Option Nat :=
  (voters.filter fun v => v.edges.any fun e => e.who = unelected).foldlM
    (fun acc voter => (slack voter t).map fun s => min (acc + s) balanceMax) 0

def pjrCheckCore : Option (Except A Unit) := do
  let unelected := candidates.filter fun c => !c.elected
  let scores ← unelected.mapM fun c => (preScore c.who voters t).map fun s => toLex (s, c.who)
  return match scores.max? with
    | some best => if t.val ≤ (ofLex best).1 then .error (ofLex best).2 else .ok ()
    | none => .ok ()

def tPjrCheck : Option (Except A Unit) :=
  let input := preparePjrInput supports allCandidates allVoters
  pjrCheckCore input.1 input.2 t

def validatePjrChallengeCore (threshold : Balance) : Option Bool :=
  match candidates.find? fun c => c.who = counterExample with
  | none => some false
  | some candidate =>
    (preScore candidate.who voters threshold).map fun s => decide (threshold.val ≤ s)

def validateTPjrChallenge (threshold : Balance) : Option Bool :=
  let input := preparePjrInput supports allCandidates allVoters
  validatePjrChallengeCore counterExample input.1 input.2 threshold

def Reaches (c : A) : Prop :=
  ∃ n, preScore c (preparePjrInput supports allCandidates allVoters).2 t = some n ∧ t.val ≤ n

end

/-! ## Every score is computed -/

theorem foldlM_returns {α β : Type} {f : β → α → Option β} (h : ∀ b a, ∃ b', f b a = some b')
    (l : List α) (b : β) : ∃ b', l.foldlM f b = some b' := by
  induction l generalizing b with
  | nil => exact ⟨b, rfl⟩
  | cons a l ih =>
    obtain ⟨b', hb'⟩ := h b a
    obtain ⟨r, hr⟩ := ih b'
    exact ⟨r, by rw [foldlM_cons, hb', Option.bind_eq_bind, Option.bind_some, hr]⟩

omit [LinearOrder A] in
theorem addExtra_returns (t : Balance) (acc : Nat) (edge : Edge A) :
    ∃ n, addExtra t acc edge = some n := by
  unfold addExtra
  split
  · have hstake : max edge.candidate.backedStake.val 1 ≤ balanceMax :=
      max_le (Nat.le_of_lt_succ edge.candidate.backedStake.isLt) (by decide)
    obtain ⟨extra, hextra, -⟩ := overflowPruneMul_rounds
      (min_le_left _ _) (Nat.le_of_lt_succ edge.weight.isLt) .nearest
    rw [fromRational_max, fromRational_eq hstake (le_max_right _ _)]
    exact ⟨_, by rw [Option.bind_eq_bind, Option.bind_some, mul, hextra]; rfl⟩
  · exact ⟨acc, rfl⟩

theorem preScore_returns (unelected : A) (voters : List (Voter A)) (t : Balance) :
    ∃ n, preScore unelected voters t = some n := by
  refine foldlM_returns (fun acc voter => ?_) _ 0
  obtain ⟨leftover, hleftover⟩ := foldlM_returns (addExtra_returns t) voter.edges 0
  exact ⟨_, by rw [slack, hleftover]; rfl⟩

/-! ## Challenges -/

section Challenge

variable (supports : List (A × Support A)) (allCandidates : List A) {t : Balance}
  {score : A → Nat} {voters : List (Voter A)}

theorem unelected_who :
    ((prepareCandidates supports allCandidates).filter fun c => !c.elected).map Candidate.who =
      allCandidates.filter fun c => c ∉ supports.map Prod.fst := by
  have helected : ∀ who, (supportOf supports who).isSome = true ↔ who ∈ supports.map Prod.fst := by
    simp [supportOf]
  rw [prepareCandidates, filter_map, map_map]
  refine (map_id _).trans (filter_congr fun who _ => ?_)
  by_cases hwinner : who ∈ supports.map Prod.fst
  · simp [(helected who).mpr hwinner, hwinner,
      decide_false]
  · simp [mt (helected who).mp hwinner, hwinner,
      decide_true]

theorem validate_eq (hscore : ∀ who, preScore who voters t = some (score who)) (c : A) :
    validatePjrChallengeCore c (prepareCandidates supports allCandidates) voters t =
      some (decide (c ∈ allCandidates ∧ t.val ≤ score c)) := by
  unfold validatePjrChallengeCore
  split
  · rename_i hfind
    have hnot : c ∉ allCandidates := fun hmem =>
      List.find?_eq_none.mp hfind _ (mem_map_of_mem hmem) (decide_eq_true rfl)
    simp [hnot]
  rename_i candidate hfind
  have hfound := List.find?_some hfind
  obtain ⟨who, hmem, rfl⟩ := mem_map.mp (mem_of_find?_eq_some hfind)
  obtain rfl := of_decide_eq_true hfound
  simp [hscore, hmem]

/-- It fails exactly if the score of a candidate that lost reaches the threshold, and names such a
candidate. -/
theorem check_eq (hscore : ∀ who, preScore who voters t = some (score who)) :
    ∃ result, pjrCheckCore (prepareCandidates supports allCandidates) voters t = some result ∧
      (∀ c, result = .error c → c ∈ allCandidates ∧ c ∉ supports.map Prod.fst ∧ t.val ≤ score c) ∧
      ((∃ c ∈ allCandidates, c ∉ supports.map Prod.fst ∧ t.val ≤ score c) →
        ∃ c, result = .error c) := by
  have hpure : (fun c : Candidate A =>
      (preScore c.who voters t).map fun s => toLex (s, c.who)) =
        fun c => pure (((fun who => toLex (score who, who)) ∘ Candidate.who) c) :=
    funext fun c => by rw [hscore]; rfl
  refine ⟨_, by rw [pjrCheckCore, hpure, mapM_pure, ← map_map, unelected_who]; rfl, ?_⟩
  have hlosers : ∀ c, c ∈ allCandidates.filter (fun c => c ∉ supports.map Prod.fst) ↔
      c ∈ allCandidates ∧ c ∉ supports.map Prod.fst := fun c => by
    rw [mem_filter, decide_eq_true_eq]
  generalize (allCandidates.filter fun c => c ∉ supports.map Prod.fst) = losers at *
  split
  · rename_i best hbest
    obtain ⟨hmem, hmax⟩ := List.max?_eq_some_iff.mp hbest
    obtain ⟨who, hwho, rfl⟩ := mem_map.mp hmem
    split
    · rename_i hreaches
      refine ⟨fun c hc => ?_, fun _ => ⟨_, rfl⟩⟩
      cases hc
      exact ⟨((hlosers who).mp hwho).1, ((hlosers who).mp hwho).2, hreaches⟩
    rename_i hless
    refine ⟨nofun, ?_⟩
    rintro ⟨c, hc, hloser, hreaches⟩
    have hle := Prod.Lex.monotone_fst _ _ (hmax _ (mem_map_of_mem ((hlosers c).mpr ⟨hc, hloser⟩)))
    exact absurd (hreaches.trans hle) hless
  · rename_i hnone
    refine ⟨nofun, ?_⟩
    rintro ⟨c, hc, hloser, -⟩
    rw [List.max?_eq_none_iff, map_eq_nil_iff] at hnone
    rw [hnone] at hlosers
    exact absurd ((hlosers c).mpr ⟨hc, hloser⟩) not_mem_nil

end Challenge

/-- **The check fails with a valid challenge, and every valid challenge comes from a failed check
unless it names a winner.** A challenge is valid without the check failing exactly when the score
of no candidate that lost reaches the threshold, and that of some winner does. -/
theorem challenge_valid_iff (supports : List (A × Support A)) (allCandidates : List A)
    (allVoters : List (A × Fin (2 ^ 64) × List A)) (t : Balance) :
    ∃ result, tPjrCheck supports allCandidates allVoters t = some result ∧ (∀ c, result = .error c →
        validateTPjrChallenge c supports allCandidates allVoters t = some true) ∧
      (((∃ c, result = .error c) ↔
          ∃ c, validateTPjrChallenge c supports allCandidates allVoters t = some true) ↔
        (∃ c ∈ allCandidates, c ∉ supports.map Prod.fst ∧
          Reaches supports allCandidates allVoters t c) ∨
        ∀ c ∈ allCandidates, c ∈ supports.map Prod.fst →
          ¬Reaches supports allCandidates allVoters t c) := by
  choose score hscore using fun who =>
    preScore_returns who (preparePjrInput supports allCandidates allVoters).2 t
  have hreaches : ∀ c, Reaches supports allCandidates allVoters t c ↔ t.val ≤ score c := by
    intro c
    simp [Reaches, hscore]
  have hvalid : ∀ c, validateTPjrChallenge c supports allCandidates allVoters t = some true ↔
      c ∈ allCandidates ∧ t.val ≤ score c := by
    intro c
    have heq : validateTPjrChallenge c supports allCandidates allVoters t = _ :=
      validate_eq supports allCandidates hscore c
    rw [heq, Option.some.injEq, decide_eq_true_eq]
  obtain ⟨result, hresult, herr, hfails⟩ := check_eq supports allCandidates hscore
  refine ⟨result, hresult, fun c hc => (hvalid c).mpr ⟨(herr c hc).1, (herr c hc).2.2⟩, ?_⟩
  simp only [hvalid, hreaches]
  constructor
  · intro hiff
    by_contra hnot
    rw [not_or, not_forall] at hnot
    obtain ⟨hnone, c, hwinner⟩ := hnot
    simp only [not_forall, not_not] at hwinner
    obtain ⟨hc, -, hscored⟩ := hwinner
    obtain ⟨c', hc'⟩ := hiff.mpr ⟨c, hc, hscored⟩
    exact hnone ⟨c', herr c' hc'⟩
  · rintro hcases
    refine ⟨fun ⟨c, hc⟩ => ⟨c, (herr c hc).1, (herr c hc).2.2⟩, ?_⟩
    rintro ⟨c, hc, hscored⟩
    rcases hcases with hlost | hwinners
    · exact hfails hlost
    · exact hfails ⟨c, hc, fun hwinner => hwinners c hc hwinner hscored, hscored⟩

/-- The only candidate is elected, so the check passes. The challenge that names it is valid: its
voter can spare half of its stake. -/
theorem challenge_names_winner :
    tPjrCheck [(1, ⟨10, [(2, 10)]⟩)] [1] [(2, 10, [1])] 5 = some (.ok ()) ∧
      validateTPjrChallenge 1 [(1, ⟨10, [(2, 10)]⟩)] [1] [(2, 10, [1])] 5 = some true := by
  decide

end Substrate.Pjr
