import Substrate.Balances

/-!
# Slashing spans

The spans of eras over which a staker is slashed for the maximum only: `SlashingSpans` of
`frame/staking`. The ongoing span is open-ended; earlier ones are kept most recent first, each
as the length up to the span after it. Eras and span indices are plain numbers; subtracting
beyond zero panics. In the types of the source only `now + 1` can overflow, in the last era: no
span starts later than the ongoing one, and no index exceeds that start (`Run.listed`).
-/

namespace Substrate.Staking

open Option Nat
open Balances (checkedSub checkedSub_eq_some)
open List

/-- The ongoing one has indeterminate length. -/
structure SlashingSpan where
  index : Nat
  start : Nat
  length : Option Nat
deriving DecidableEq

def SlashingSpan.containsEra (span : SlashingSpan) (era : Nat) : Bool :=
  decide (span.start ≤ era) && match span.length with
    | none => true
    | some l => decide (era < span.start + l)

def SlashingSpan.endsBy (windowStart : Nat) (span : SlashingSpan) : Bool :=
  match span.length with
  | none => false
  | some len => decide (span.start + len ≤ windowStart)

structure SlashingSpans where
  spanIndex : Nat
  /-- The start era of the ongoing span. -/
  lastStart : Nat
  lastNonzeroSlash : Nat
  /-- The lengths, most recent first. -/
  prior : List Nat
deriving DecidableEq

namespace SlashingSpans

/-- Starting at the beginning of the bonding period. -/
def new (windowStart : Nat) : SlashingSpans := ⟨0, windowStart, 0, []⟩

/-- Unless the current span starts at the era after `now` or later; and whether one was started. -/
def endSpan (s : SlashingSpans) (now : Nat) : Bool × SlashingSpans :=
  if now + 1 ≤ s.lastStart then (false, s)
  else (true, { s with
      prior := (now + 1 - s.lastStart) :: s.prior
      lastStart := now + 1
      spanIndex := s.spanIndex + 1 })

/-- From the start and the index of the span after them. -/
def iterPrior : Nat → Nat → List Nat → Option (List SlashingSpan)
  | _, _, [] => some []
  | lastStart, index, length :: rest =>
    match checkedSub lastStart length, checkedSub index 1 with
    | some start, some index =>
      (iterPrior start index rest).map fun spans => ⟨index, start, some length⟩ :: spans
    | _, _ => none

def iter (s : SlashingSpans) : Option (List SlashingSpan) :=
  (iterPrior s.lastStart s.spanIndex s.prior).map fun spans =>
    ⟨s.spanIndex, s.lastStart, none⟩ :: spans

/-- The most recent span that ended by the start of the window goes, with all before it, and the
ongoing span starts no earlier. Returns the range of the indices pruned. -/
def prune (s : SlashingSpans) (windowStart : Nat) :
    Option (Option (Nat × Nat) × SlashingSpans) := do
  let spans ← s.iter
  let earliest ← checkedSub s.spanIndex s.prior.length
  let lastStart := max s.lastStart windowStart
  match (spans.drop 1).findIdx? (·.endsBy windowStart) with
  | some o =>
    let prior := s.prior.take o
    let newEarliest ← checkedSub s.spanIndex prior.length
    pure (some (earliest, newEarliest), { s with prior, lastStart })
  | none => pure (none, { s with lastStart })

/-- Ended and pruned at eras in any order. -/
inductive Run (windowStart : Nat) : SlashingSpans → Prop
  | new : Run windowStart (new windowStart)
  | endSpan {s} (now : Nat) : Run windowStart s → Run windowStart (s.endSpan now).2
  | prune {s s' pruned} (w : Nat) : Run windowStart s → s.prune w = some (pruned, s') →
      Run windowStart s'

/-! ## The spans listed -/

/-- The index before, ending where the later one starts. -/
def Follows (later earlier : SlashingSpan) : Prop :=
  earlier.index + 1 = later.index ∧
    ∃ len, earlier.length = some len ∧ earlier.start + len = later.start

variable {lastStart index length w : Nat} {prior rest : List Nat} {spans : List SlashingSpan}
  {s : SlashingSpans} {span later earlier : SlashingSpan}

theorem iterPrior_cons_iff : iterPrior lastStart index (length :: rest) = some spans ↔
    ∃ start i tail, start + length = lastStart ∧ i + 1 = index ∧
      iterPrior start i rest = some tail ∧ spans = ⟨i, start, some length⟩ :: tail := by
  constructor
  · intro h
    simp only [iterPrior] at h
    split at h
    · rename_i start i hstart hi
      obtain ⟨hlen, rfl⟩ := checkedSub_eq_some.mp hstart
      obtain ⟨hone, rfl⟩ := checkedSub_eq_some.mp hi
      obtain ⟨tail, htail, rfl⟩ := map_eq_some_iff.mp h
      exact ⟨_, _, tail, by omega, by omega, htail, rfl⟩
    · cases h
  · rintro ⟨start, i, tail, rfl, rfl, htail, rfl⟩
    simp [iterPrior, checkedSub, htail]

section

variable (h : iterPrior lastStart index prior = some spans)
include h

theorem iterPrior_chain (l : Option Nat) :
    IsChain Follows (⟨index, lastStart, l⟩ :: spans) := by
  induction prior generalizing lastStart index spans l with
  | nil =>
    cases h
    exact .singleton _
  | cons length rest ih =>
    obtain ⟨start, i, tail, rfl, rfl, htail, rfl⟩ := iterPrior_cons_iff.mp h
    exact .cons_cons ⟨rfl, length, rfl, rfl⟩ (ih htail _)

/-- A shorter record lists the spans before it, and the listing goes on from there with the indices
left. -/
theorem iterPrior_split (n : Nat) :
    iterPrior lastStart index (prior.take n) = some (spans.take n) ∧
      ∃ start, iterPrior start (index - n) (prior.drop n) = some (spans.drop n) := by
  induction n generalizing lastStart index prior spans with
  | zero => exact ⟨rfl, lastStart, h⟩
  | succ n ih =>
    cases prior with
    | nil =>
      cases h
      exact ⟨rfl, lastStart, rfl⟩
    | cons length rest =>
      obtain ⟨start, i, tail, rfl, rfl, htail, rfl⟩ := iterPrior_cons_iff.mp h
      obtain ⟨htake, hdrop⟩ := ih htail
      refine ⟨iterPrior_cons_iff.mpr ⟨start, i, _, rfl, rfl, htake, rfl⟩, ?_⟩
      rwa [Nat.add_sub_add_right]

theorem iterPrior_indices :
    spans.length = prior.length ∧ prior.length ≤ index ∧
      ∀ i, i ∈ spans.map (·.index) ↔ index - prior.length ≤ i ∧ i < index := by
  induction prior generalizing lastStart index spans with
  | nil =>
    cases h
    exact ⟨rfl, zero_le _, by simp⟩
  | cons length rest ih =>
    obtain ⟨start, i, tail, rfl, rfl, htail, rfl⟩ := iterPrior_cons_iff.mp h
    obtain ⟨hlen, hle, hindices⟩ := ih htail
    refine ⟨congrArg (· + 1) hlen, succ_le_succ hle, fun j => ?_⟩
    rw [map_cons, mem_cons, hindices, length_cons]
    change j = i ∨ _ ↔ _
    omega

end

theorem endsBy_iff : span.endsBy w ↔ ∃ len, span.length = some len ∧ span.start + len ≤ w := by
  unfold SlashingSpan.endsBy
  split <;> simp_all

theorem endsBy_mono {v : Nat} (h : span.endsBy v) (hle : v ≤ w) : span.endsBy w := by
  obtain ⟨len, hlen, hv⟩ := endsBy_iff.mp h
  exact endsBy_iff.mpr ⟨len, hlen, le_trans hv hle⟩

theorem endsBy_trans (h : earlier.endsBy later.start) (hlater : later.endsBy w) :
    earlier.endsBy w := by
  obtain ⟨_, -, hw⟩ := endsBy_iff.mp hlater
  exact endsBy_mono h (by omega)

theorem not_containsEra_of_endsBy {era : Nat} (h : span.endsBy w) (hera : w ≤ era) :
    span.containsEra era = false := by
  obtain ⟨len, hlen, hle⟩ := endsBy_iff.mp h
  simp only [SlashingSpan.containsEra, hlen, Bool.and_eq_false_iff, decide_eq_false_iff_not]
  omega

theorem iterPrior_ordered (h : iterPrior lastStart index prior = some spans) (l : Option Nat) :
    (⟨index, lastStart, l⟩ :: spans).Pairwise fun later earlier => earlier.endsBy later.start := by
  have : IsTrans SlashingSpan fun later earlier => earlier.endsBy later.start :=
    ⟨fun _ _ _ hab hbc => endsBy_trans hbc hab⟩
  refine isChain_iff_pairwise.mp ((iterPrior_chain h l).imp ?_)
  rintro later earlier ⟨-, len, hlen, hstart⟩
  exact endsBy_iff.mpr ⟨len, hlen, le_of_eq hstart⟩

/-! ## Pruning -/

theorem split_at_findIdx {α : Type} {p : α → Bool} {l : List α}
    (h : l.Pairwise fun a b => p a → p b) :
    l.filter (!p ·) = l.take (l.findIdx p) ∧ l.filter p = l.drop (l.findIdx p) := by
  induction l with
  | nil => exact ⟨rfl, rfl⟩
  | cons a l ih =>
    obtain ⟨ha, hl⟩ := pairwise_cons.mp h
    cases hp : p a with
    | true =>
      have hall : ∀ b ∈ l, p b := fun b hb => ha b hb hp
      simpa [findIdx_cons, hp] using hall
    | false => simpa [findIdx_cons, hp] using ih hl

theorem prune_eq (h : iterPrior s.lastStart s.spanIndex s.prior = some spans) {n : Nat}
    (hn : spans.findIdx (·.endsBy w) = n) : s.prune w = some
      (if n < spans.length then some (s.spanIndex - s.prior.length, s.spanIndex - n) else none,
      { s with prior := s.prior.take n, lastStart := max s.lastStart w }) := by
  obtain ⟨hlen, hle, -⟩ := iterPrior_indices h
  have hsub : ∀ n, n ≤ s.prior.length → checkedSub s.spanIndex n = some (s.spanIndex - n) :=
    fun n hn => checkedSub_eq_some.mpr ⟨le_trans hn hle, rfl⟩
  simp only [prune, iter, h, map_some, bind_eq_bind, bind_some, drop_one,
    tail_cons, hsub _ (le_refl _)]
  cases hidx : spans.findIdx? (·.endsBy w) with
  | some o =>
    obtain ⟨ho, rfl⟩ := findIdx?_eq_some_iff_findIdx_eq.mp hidx
    subst hn
    have hprior : spans.findIdx (·.endsBy w) ≤ s.prior.length := by omega
    simp only [length_take_of_le hprior, hsub _ hprior, if_pos ho, bind_some]
    rfl
  | none =>
    rw [← hn, findIdx?_eq_none_iff_findIdx_eq.mp hidx, if_neg (lt_irrefl _), hlen, take_length]
    rfl

/-- Exactly the spans that ended by the start of the window go, with the indices in the range
returned. -/
theorem prune_spec (h : iterPrior s.lastStart s.spanIndex s.prior = some spans) (w : Nat) :
    ∃ pruned prior, s.prune w = some (pruned, { s with prior, lastStart := max s.lastStart w }) ∧
      iterPrior (max s.lastStart w) s.spanIndex prior = some (spans.filter (!·.endsBy w)) ∧
      (pruned = none ↔ spans.filter (·.endsBy w) = []) ∧
      ∀ range, pruned = some range → ∀ i,
        i ∈ (spans.filter (·.endsBy w)).map (·.index) ↔ range.1 ≤ i ∧ i < range.2 := by
  obtain ⟨hlast, hordered⟩ := pairwise_cons.mp (iterPrior_ordered h none)
  obtain ⟨hkept, hgone⟩ := split_at_findIdx (hordered.imp fun {_ _} hab ha => endsBy_trans hab ha)
  obtain ⟨n, hn⟩ : ∃ n, spans.findIdx (·.endsBy w) = n := ⟨_, rfl⟩
  obtain ⟨hlen, -⟩ := iterPrior_indices h
  rw [hn] at hkept hgone
  obtain ⟨htake, start, hdrop⟩ := iterPrior_split h n
  refine ⟨_, _, prune_eq h hn, ?_, ?_, fun range hrange i => ?_⟩
  · rcases le_total w s.lastStart with hw | hw
    · rw [max_eq_left hw, hkept, htake]
    -- the window starts after every prior span, so that none is left
    have hnone : spans.filter (!·.endsBy w) = [] := filter_eq_nil_iff.mpr fun span hspan => by
      rw [endsBy_mono (hlast span hspan) hw]
      exact Bool.false_ne_true
    have hprior : s.prior.take n = [] := by
      rw [← length_eq_zero_iff, ← (iterPrior_indices htake).1, ← hkept, hnone, length_nil]
    rw [hprior, hnone]
    rfl
  · rw [hgone, drop_eq_nil_iff, ite_eq_right_iff, ← not_lt]
    exact ⟨fun hnone hlt => absurd (hnone hlt) (some_ne_none _), fun hnot hlt => absurd hlt hnot⟩
  · split at hrange
    · obtain rfl := some.inj hrange
      rw [hgone, (iterPrior_indices hdrop).2.2, length_drop]
      omega
    · cases hrange

theorem Run.listed {windowStart : Nat} (h : Run windowStart s) : s.spanIndex ≤ s.lastStart ∧
    ∃ spans, iterPrior s.lastStart s.spanIndex s.prior = some spans := by
  induction h with
  | new => exact ⟨Nat.zero_le _, [], rfl⟩
  | @endSpan s now _ ih =>
    unfold SlashingSpans.endSpan
    split
    · exact ih
    · rename_i hnow
      obtain ⟨hle, spans, hspans⟩ := ih
      have hindex : s.spanIndex + 1 ≤ now + 1 := by omega
      exact ⟨hindex, _, iterPrior_cons_iff.mpr ⟨s.lastStart, s.spanIndex, spans,
        Nat.add_sub_cancel' (Nat.le_of_not_le hnow), rfl, hspans, rfl⟩⟩
  | prune w _ hprune ih =>
    obtain ⟨hle, spans, hspans⟩ := ih
    obtain ⟨_, prior, heq, hprior, -⟩ := prune_spec hspans w
    obtain ⟨-, rfl⟩ := Prod.mk.inj (some.inj (hprune.symm.trans heq))
    exact ⟨Nat.le_trans hle (Nat.le_max_left ..), _, hprior⟩

theorem find_pruned {era : Nat} (hera : w ≤ era) (index start : Nat) (spans : List SlashingSpan) :
    ((⟨index, max start w, none⟩ :: spans.filter (!·.endsBy w)).find?
        (·.containsEra era)).map (·.index) =
      ((⟨index, start, none⟩ :: spans).find? (·.containsEra era)).map (·.index) := by
  have hfind : (spans.filter (!·.endsBy w)).find? (·.containsEra era) =
      spans.find? (·.containsEra era) := by
    rw [find?_filter]
    congr 1
    funext span
    cases hends : span.endsBy w with
    | true => simp [not_containsEra_of_endsBy hends hera]
    | false => simp
  have hlast : SlashingSpan.containsEra ⟨index, max start w, none⟩ era =
      SlashingSpan.containsEra ⟨index, start, none⟩ era := by
    have hmax : max start w ≤ era ↔ start ≤ era := by omega
    simp only [SlashingSpan.containsEra, hmax]
  rw [find?_cons, find?_cons, hlast, hfind]
  split <;> rfl

/-- **Slashing spans tile the eras**: they are listed from the ongoing one back, each ending where
the next starts, with the index before, so that no era is in two. Pruning drops exactly those that
ended by the start of the window, returns the range of their indices, and leaves the index of the
span that contains any era of the window. -/
theorem spans_tile_eras {windowStart : Nat} (h : Run windowStart s) :
    ∃ prior, s.iter = some (⟨s.spanIndex, s.lastStart, none⟩ :: prior) ∧
      IsChain Follows (⟨s.spanIndex, s.lastStart, none⟩ :: prior) ∧
      (⟨s.spanIndex, s.lastStart, none⟩ :: prior).Pairwise (fun a b => ∀ era,
        ¬(a.containsEra era ∧ b.containsEra era)) ∧
      (∀ now, (s.endSpan now).1 → s.lastStart ≤ now + 1) ∧
      ∀ w, ∃ pruned s', s.prune w = some (pruned, s') ∧
        s'.iter = some (⟨s.spanIndex, max s.lastStart w, none⟩ :: prior.filter (!·.endsBy w)) ∧
        (pruned = none ↔ prior.filter (·.endsBy w) = []) ∧
        (∀ range, pruned = some range → ∀ i,
          i ∈ (prior.filter (·.endsBy w)).map (·.index) ↔ range.1 ≤ i ∧ i < range.2) ∧
        ∀ era, w ≤ era → (s'.iter.bind (·.find? (·.containsEra era))).map (·.index) =
          (s.iter.bind (·.find? (·.containsEra era))).map (·.index) := by
  obtain ⟨-, prior, hprior⟩ := h.listed
  have hiter : s.iter = some (⟨s.spanIndex, s.lastStart, none⟩ :: prior) := by
    rw [iter, hprior, map_some]
  refine ⟨prior, hiter, iterPrior_chain hprior none, ?_, fun now hnow => ?_, fun w => ?_⟩
  · refine (iterPrior_ordered hprior none).imp ?_
    rintro later earlier hends era ⟨hlater, hearlier⟩
    have hstart : later.start ≤ era := of_decide_eq_true (Bool.and_eq_true_iff.mp hlater).1
    rw [not_containsEra_of_endsBy hends hstart] at hearlier
    cases hearlier
  · unfold endSpan at hnow
    split at hnow
    · cases hnow
    · omega
  · obtain ⟨pruned, kept, heq, hkept, hnone, hrange⟩ := prune_spec hprior w
    have hiter' : iter { s with prior := kept, lastStart := max s.lastStart w } =
        some (⟨s.spanIndex, max s.lastStart w, none⟩ :: prior.filter (!·.endsBy w)) := by
      rw [iter, hkept, map_some]
    refine ⟨pruned, _, heq, hiter', hnone, hrange, fun era hera => ?_⟩
    rw [hiter', hiter]
    exact find_pruned hera _ _ _

theorem spans_tile_eras_pruned : ∃ s : SlashingSpans, s.iter = some [⟨2, 8, none⟩, ⟨1, 4, some 4⟩] ∧
    ∃ prior, s.iter = some (⟨s.spanIndex, s.lastStart, none⟩ :: prior) ∧
      IsChain Follows (⟨s.spanIndex, s.lastStart, none⟩ :: prior) := by
  have hnew : Run 1 (new 1) := .new
  have hrun : Run 1 ⟨2, 8, 0, [4]⟩ := .prune 5 ((hnew.endSpan 3).endSpan 7)
    (show _ = some (some (0, 1), _) from rfl)
  obtain ⟨prior, hiter, hchain, -⟩ := spans_tile_eras hrun
  exact ⟨_, rfl, prior, hiter, hchain⟩

end SlashingSpans

structure SpanRecord where
  slashed : Nat
  paidOut : Nat
deriving DecidableEq

instance : Inhabited SpanRecord := ⟨⟨0, 0⟩⟩

end Substrate.Staking
