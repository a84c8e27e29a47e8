import Mathlib.Algebra.Order.BigOperators.Group.List
import Mathlib.Data.List.Sort
import Substrate.Outcome
import Substrate.PerThings

/-!
# Normalizing a vector of numbers

`normalize` of `primitives/arithmetic/src/lib.rs` moves the elements of a vector until they add up
to a target. The type `T` is given by its largest value. The loop that takes the rest one by one is
given fuel: it walks past elements that are zero, and finds one that is not as long as there is
something to take.
-/

namespace Substrate.Normalize

open List Option Nat Checked

variable {maxIndex targetedSum leftover : Nat} {input : List Nat}

abbrev Entries : Type := List (Nat × Nat)

def checkedSum (tMax : Nat) : Nat → List Nat → Option Nat
  | sum, [] => some sum
  | sum, t :: input => (add tMax sum t).bind fun sum => checkedSum tMax sum input

/-! ## Increasing -/

section

variable (tMax threshold amount : Nat) (output : Entries)

/-- Past the threshold, go on to the next. -/
def bump (minIndex : Nat) : Option (Entries × Nat) :=
  (output[minIndex]?).bind fun entry =>
  (add tMax entry.1 amount).map fun value =>
  (output.set minIndex (value, entry.2),
    if value ≥ threshold then (minIndex + 1) % output.length else minIndex)

/-- Both loops of the increase. -/
def bumps : Nat → Entries → Nat → Option (Entries × Nat)
  | 0, output, minIndex => some (output, minIndex)
  | rounds + 1, output, minIndex =>
    (bump tMax threshold amount output minIndex).bind fun next =>
      bumps rounds next.1 next.2

def increase (tMax targetedSum perRound leftover : Nat) (output : Entries) : Option Entries :=
  let threshold := targetedSum / output.length
  (if perRound = 0 then some (output, 0)
    else bumps tMax threshold perRound output.length output 0).bind fun next =>
  (bumps tMax threshold 1 leftover next.1 next.2).map Prod.fst

/-! ## Decreasing -/

/-- `max_index.checked_sub(1).unwrap_or(count - 1)`. -/
def previous (count maxIndex : Nat) : Nat := if maxIndex = 0 then count - 1 else maxIndex - 1

/-- What the element does not have goes to `leftover`. -/
def cut (maxIndex leftover : Nat) : Option (Entries × Nat × Nat) :=
  (output[maxIndex]?).bind fun entry =>
  (if amount ≤ entry.1 then some leftover
    else add tMax leftover (amount - entry.1)).map fun leftover =>
  let value := entry.1 - amount
  (output.set maxIndex (value, entry.2),
    if value ≤ threshold then previous output.length maxIndex else maxIndex, leftover)

/-- The first loop of the decrease. -/
def cuts : Nat → Entries → Nat → Nat → Option (Entries × Nat × Nat)
  | 0, output, maxIndex, leftover => some (output, maxIndex, leftover)
  | rounds + 1, output, maxIndex, leftover =>
    (cut tMax threshold amount output maxIndex leftover).bind fun next =>
      cuts rounds next.1 next.2.1 next.2.2

/-- The second loop of the decrease. `none` also if it is still running when the fuel is used up. -/
def drain (threshold : Nat) : Nat → Entries → Nat → Nat → Option Entries
  | _, output, _, 0 => some output
  | 0, _, _, _ + 1 => none
  | fuel + 1, output, maxIndex, leftover + 1 =>
    (output[maxIndex]?).bind fun entry =>
      if 1 ≤ entry.1 then
        drain threshold fuel (output.set maxIndex (entry.1 - 1, entry.2))
          (if entry.1 - 1 ≤ threshold then previous output.length maxIndex else maxIndex) leftover
      else drain threshold fuel output (previous output.length maxIndex) (leftover + 1)

def decrease (fuel tMax perRound leftover : Nat) (output : Entries) : Option Entries :=
  output.head?.bind fun first =>
  let threshold := first.1
  (if perRound = 0 then some (output, output.length - 1, leftover)
    else cuts tMax threshold perRound output.length output (output.length - 1) leftover).bind
      fun next => drain threshold fuel next.1 next.2.1 next.2.2

def normalize (fuel tMax : Nat) (input : List Nat) (targetedSum : Nat) :
    Outcome String (List Nat) :=
  match checkedSum tMax 0 input with
  | none => .err "sum of input cannot fit in `T`"
  | some sum =>
    if tMax < input.length then .err "length of `inputs` cannot fit in `T`"
    else if input.length = 0 then .ok []
    else
      let diff := max targetedSum sum - min targetedSum sum
      if diff = 0 then .ok input
      else
        let perRound := diff / input.length
        let leftover := diff % input.length
        let output := input.zipIdx.insertionSort fun x y => x.1 ≤ y.1
        match (if targetedSum > sum then increase tMax targetedSum perRound leftover output
          else decrease fuel tMax perRound leftover output) with
        | none => .panic
        | some output => .ok ((output.insertionSort fun x y => x.2 ≤ y.2).map Prod.fst)

def normalizeParts (P : PerThing) (fuel : Nat) (parts : List Nat) (targetedSum : Nat) :
    Outcome String (List Nat) :=
  (normalize fuel P.upperMax parts targetedSum).map (map fun i => P.fromParts (min i P.innerMax))

/-! ## What the loops keep -/

def total : Nat := (output.map Prod.fst).sum

end

/-- The elements have moved in one direction, and kept their places. -/
def Moved (R : Nat → Nat → Prop) : Entries → Entries → Prop :=
  List.Forall₂ fun x y => y.2 = x.2 ∧ R x.1 y.1

variable {R : Nat → Nat → Prop} {output output' : Entries} {tMax threshold amount : Nat}

theorem Moved.refl [Std.Refl R] (output : Entries) : Moved R output output :=
  forall₂_same.mpr fun x _ => ⟨rfl, Std.Refl.refl x.1⟩

theorem Moved.trans [Trans R R R] {output'' : Entries} (h : Moved R output output')
    (h' : Moved R output' output'') : Moved R output output'' := by
  unfold Moved at *
  rw [forall₂_iff_get] at *
  refine ⟨h.1.trans h'.1, fun i hi hi' => ?_⟩
  obtain ⟨hplace, hmoved⟩ := h.2 i hi (h.1 ▸ hi)
  obtain ⟨hplace', hmoved'⟩ := h'.2 i (h.1 ▸ hi) hi'
  exact ⟨hplace'.trans hplace, Trans.trans hmoved hmoved'⟩

theorem Moved.length_eq (h : Moved R output output') : output'.length = output.length :=
  (List.Forall₂.length_eq h).symm

variable {entry : Nat × Nat}

theorem Moved.set [Std.Refl R] {i value : Nat} (hi : output[i]? = some entry)
    (hvalue : R entry.1 value) :
    Moved R output (output.set i (value, entry.2)) ∧
      total (output.set i (value, entry.2)) + entry.1 = total output + value := by
  induction output generalizing i with
  | nil => simp at hi
  | cons x output ih =>
    cases i with
    | zero =>
      obtain rfl := by simpa using hi
      exact ⟨.cons ⟨rfl, hvalue⟩ (Moved.refl output), by simp [total]; omega⟩
    | succ i =>
      obtain ⟨hmoved, htotal⟩ := ih (by simpa using hi)
      refine ⟨.cons ⟨rfl, Std.Refl.refl x.1⟩ hmoved, ?_⟩
      simp only [total, set_cons_succ, map_cons, sum_cons] at htotal ⊢
      omega

theorem le_total {i : Nat} (hi : output[i]? = some entry) : entry.1 ≤ total output :=
  single_le_sum (fun _ _ => zero_le _) _ (mem_map_of_mem (mem_of_getElem? hi))

theorem previous_lt {count : Nat} (h : maxIndex < count) : previous count maxIndex < count := by
  unfold previous
  split <;> omega

theorem bumps_spec (threshold : Nat) {rounds minIndex : Nat} (hindex : minIndex < output.length)
    (hfits : total output + rounds * amount ≤ tMax) :
    ∃ output' minIndex', bumps tMax threshold amount rounds output minIndex =
        some (output', minIndex') ∧ minIndex' < output.length ∧ Moved (· ≤ ·) output output' ∧
      total output' = total output + rounds * amount := by
  induction rounds generalizing output minIndex with
  | zero => exact ⟨output, minIndex, rfl, hindex, Moved.refl output, by simp⟩
  | succ rounds ih =>
    have hentry := getElem?_eq_getElem hindex
    generalize output[minIndex] = entry at hentry
    rw [succ_mul] at hfits ⊢
    have hle := le_total hentry
    obtain ⟨hmoved, htotal⟩ := Moved.set hentry (le_add_right entry.1 amount)
    have hnext : (if entry.1 + amount ≥ threshold then (minIndex + 1) % output.length
        else minIndex) < (output.set minIndex (entry.1 + amount, entry.2)).length := by
      rw [length_set]
      split
      · exact mod_lt _ (by omega)
      · exact hindex
    obtain ⟨output', minIndex', hrest, hindex', hmoved', htotal'⟩ := ih hnext (by omega)
    refine ⟨output', minIndex', ?_, by rwa [length_set] at hindex', hmoved.trans hmoved', by omega⟩
    rw [bumps, bump, hentry, bind_some, add_of_le (by omega), map_some, bind_some, hrest]

theorem increase_spec {perRound : Nat} (hne : output ≠ [])
    (hdiff : targetedSum = total output + output.length * perRound + leftover)
    (hfits : targetedSum ≤ tMax) :
    ∃ output', increase tMax targetedSum perRound leftover output = some output' ∧
      Moved (· ≤ ·) output output' ∧ total output' = targetedSum := by
  have hpos : 0 < output.length := length_pos_iff.mpr hne
  have hround : ∃ output1 index, (if perRound = 0 then some (output, 0)
      else bumps tMax (targetedSum / output.length) perRound output.length output 0) =
        some (output1, index) ∧ index < output.length ∧ Moved (· ≤ ·) output output1 ∧
      total output1 = total output + output.length * perRound := by
    by_cases hzero : perRound = 0
    · exact ⟨output, 0, if_pos hzero, hpos, Moved.refl output, by simp [hzero]⟩
    · rw [if_neg hzero]
      exact bumps_spec _ hpos (by omega)
  obtain ⟨output1, index, hround, hindex, hmoved, htotal⟩ := hround
  have hrest_fits : total output1 + leftover * 1 ≤ tMax := by omega
  obtain ⟨output2, index', hrest, -, hmoved', htotal'⟩ :=
    bumps_spec (targetedSum / output.length) (hmoved.length_eq ▸ hindex) hrest_fits
  refine ⟨output2, ?_, hmoved.trans hmoved', by omega⟩
  rw [increase, hround, bind_some, hrest, map_some]

theorem cuts_spec (threshold : Nat) {rounds : Nat} (hindex : maxIndex < output.length)
    (hfits : total output ≤ tMax) (htotal : total output = targetedSum + leftover + rounds * amount) :
    ∃ output' maxIndex' leftover', cuts tMax threshold amount rounds output maxIndex leftover =
        some (output', maxIndex', leftover') ∧ maxIndex' < output.length ∧
      Moved (· ≥ ·) output output' ∧ total output' = targetedSum + leftover' := by
  induction rounds generalizing output maxIndex leftover with
  | zero => exact ⟨output, maxIndex, leftover, rfl, hindex, Moved.refl output, by omega⟩
  | succ rounds ih =>
    have hentry := getElem?_eq_getElem hindex
    generalize output[maxIndex] = entry at hentry
    rw [succ_mul] at htotal
    obtain ⟨hmoved, hset⟩ := Moved.set (R := (· ≥ ·)) hentry (sub_le entry.1 amount)
    have hnext : (if entry.1 - amount ≤ threshold then previous output.length maxIndex
        else maxIndex) < (output.set maxIndex (entry.1 - amount, entry.2)).length := by
      rw [length_set]
      split
      · exact previous_lt hindex
      · exact hindex
    have hleftover : (if amount ≤ entry.1 then some leftover
        else add tMax leftover (amount - entry.1)) = some (leftover + (amount - entry.1)) := by
      by_cases hamount : amount ≤ entry.1
      · rw [if_pos hamount, Nat.sub_eq_zero_of_le hamount, Nat.add_zero]
      · rw [if_neg hamount, add_of_le (by omega)]
    have hrest_total : total (output.set maxIndex (entry.1 - amount, entry.2)) =
        targetedSum + (leftover + (amount - entry.1)) + rounds * amount := by omega
    obtain ⟨output', maxIndex', leftover', hrest, hindex', hmoved', htotal'⟩ :=
      ih hnext (by omega) hrest_total
    refine ⟨output', maxIndex', leftover', ?_, by rwa [length_set] at hindex',
      hmoved.trans hmoved', htotal'⟩
    rw [cuts, cut, hentry, bind_some, hleftover, map_some]
    exact hrest

theorem drain_zero (hentry : output[maxIndex]? = some entry) (hzero : ¬1 ≤ entry.1)
    (threshold fuel leftover : Nat) :
    drain threshold (fuel + 1) output maxIndex (leftover + 1) =
      drain threshold fuel output (previous output.length maxIndex) (leftover + 1) := by
  rw [drain, hentry, bind_some, if_neg hzero]

/-- It ends at an element that is not zero, if there is one from here down, and otherwise comes to
the last element. -/
theorem drain_walk (threshold leftover : Nat) (hindex : maxIndex < output.length) :
    ∃ n j, (∀ fuel, drain threshold (fuel + n) output maxIndex (leftover + 1) =
        drain threshold fuel output j (leftover + 1)) ∧
      ((∃ entry, output[j]? = some entry ∧ 1 ≤ entry.1) ∨
        j = output.length - 1 ∧ ∀ i ≤ maxIndex, ∀ entry, output[i]? = some entry → ¬1 ≤ entry.1) := by
  induction maxIndex with
  | zero =>
    have hentry := getElem?_eq_getElem hindex
    by_cases hzero : 1 ≤ output[0].1
    · exact ⟨0, 0, fun _ => rfl, .inl ⟨_, hentry, hzero⟩⟩
    refine ⟨1, _, fun fuel => drain_zero hentry hzero threshold fuel leftover,
      .inr ⟨rfl, fun i hi entry hi' => ?_⟩⟩
    obtain rfl : i = 0 := by omega
    rwa [← Option.some.inj (hentry.symm.trans hi')]
  | succ maxIndex ih =>
    have hentry := getElem?_eq_getElem hindex
    by_cases hzero : 1 ≤ output[maxIndex + 1].1
    · exact ⟨0, maxIndex + 1, fun _ => rfl, .inl ⟨_, hentry, hzero⟩⟩
    obtain ⟨n, j, hdrain, hj⟩ := ih (by omega)
    refine ⟨n + 1, j, fun fuel => ?_, hj.imp_right fun hzeros => ⟨hzeros.1, ?_⟩⟩
    · exact (drain_zero hentry hzero threshold (fuel + n) leftover).trans (hdrain fuel)
    · intro i hi entry hi'
      rcases le_succ_iff.mp hi with hi | rfl
      · exact hzeros.2 i hi entry hi'
      · rwa [← Option.some.inj (hentry.symm.trans hi')]

theorem drain_seek (threshold leftover : Nat) (hindex : maxIndex < output.length)
    (htotal : 0 < total output) :
    ∃ n j entry, (∀ fuel, drain threshold (fuel + n) output maxIndex (leftover + 1) =
        drain threshold fuel output j (leftover + 1)) ∧ output[j]? = some entry ∧ 1 ≤ entry.1 := by
  obtain ⟨n, j, hdrain, ⟨entry, hj⟩ | ⟨rfl, -⟩⟩ := drain_walk threshold leftover hindex
  · exact ⟨n, j, entry, hdrain, hj⟩
  · have hlast : output.length - 1 < output.length := by omega
    obtain ⟨n', j, hdrain', ⟨entry, hj⟩ | ⟨-, hzeros⟩⟩ := drain_walk threshold leftover hlast
    · exact ⟨n' + n, j, entry, fun fuel => by rw [← add_assoc, hdrain, hdrain'], hj⟩
    · refine absurd (sum_eq_zero fun x hx => ?_) (ne_of_gt htotal)
      obtain ⟨entry, hentry, rfl⟩ := mem_map.mp hx
      obtain ⟨i, hi⟩ := mem_iff_getElem?.mp hentry
      have hi_lt := (List.getElem?_eq_some_iff.mp hi).1
      exact Nat.lt_one_iff.mp (Nat.lt_of_not_le (hzeros i (by omega) entry hi))

theorem drain_spec (threshold : Nat) (hindex : maxIndex < output.length)
    (htotal : total output = targetedSum + leftover) :
    ∃ n output', (∀ fuel, drain threshold (fuel + n) output maxIndex leftover = some output') ∧
      Moved (· ≥ ·) output output' ∧ total output' = targetedSum := by
  induction leftover generalizing output maxIndex with
  | zero => exact ⟨0, output, fun fuel => by rw [drain], Moved.refl output, htotal⟩
  | succ leftover ih =>
    obtain ⟨n, j, entry, hseek, hj, hpos⟩ :=
      drain_seek threshold leftover hindex (by omega)
    have hj_lt : j < output.length := (List.getElem?_eq_some_iff.mp hj).1
    obtain ⟨hmoved, hset⟩ := Moved.set (R := (· ≥ ·)) hj (sub_le entry.1 1)
    have hnext : (if entry.1 - 1 ≤ threshold then previous output.length j else j) <
        (output.set j (entry.1 - 1, entry.2)).length := by
      rw [length_set]
      split
      · exact previous_lt hj_lt
      · exact hj_lt
    obtain ⟨n', output', hdrain, hmoved', htotal'⟩ := ih hnext (by omega)
    refine ⟨n' + 1 + n, output', fun fuel => ?_, hmoved.trans hmoved', htotal'⟩
    rw [← add_assoc, hseek, ← add_assoc, drain, hj, bind_some, if_pos hpos]
    exact hdrain fuel

theorem decrease_spec {perRound : Nat} (hne : output ≠ [])
    (hdiff : total output = targetedSum + leftover + output.length * perRound)
    (hfits : total output ≤ tMax) :
    ∃ n output', (∀ fuel, decrease (fuel + n) tMax perRound leftover output = some output') ∧
      Moved (· ≥ ·) output output' ∧ total output' = targetedSum := by
  have hpos : 0 < output.length := length_pos_iff.mpr hne
  obtain ⟨first, hfirst⟩ : ∃ first, output.head? = some first :=
    ⟨_, head?_eq_some_head hne⟩
  have hround : ∃ output1 index leftover', (if perRound = 0 then
      some (output, output.length - 1, leftover)
      else cuts tMax first.1 perRound output.length output (output.length - 1) leftover) =
        some (output1, index, leftover') ∧ index < output.length ∧ Moved (· ≥ ·) output output1 ∧
      total output1 = targetedSum + leftover' := by
    by_cases hzero : perRound = 0
    · exact ⟨output, _, leftover, if_pos hzero, by omega, Moved.refl output, by simp [hdiff, hzero]⟩
    · rw [if_neg hzero]
      exact cuts_spec _ (by omega) hfits hdiff
  obtain ⟨output1, index, leftover', hround, hindex, hmoved, htotal⟩ := hround
  obtain ⟨n, output2, hdrain, hmoved', htotal'⟩ :=
    drain_spec first.1 (hmoved.length_eq ▸ hindex) htotal
  refine ⟨n, output2, fun fuel => ?_, hmoved.trans hmoved', htotal'⟩
  rw [decrease, hfirst, bind_some]
  dsimp only
  rw [hround, bind_some, hdrain]

/-! ## Back in place -/

theorem checkedSum_eq {sum : Nat} (h : sum + input.sum ≤ tMax) :
    checkedSum tMax sum input = some (sum + input.sum) := by
  induction input generalizing sum with
  | nil => rfl
  | cons t input ih =>
    rw [sum_cons, ← add_assoc] at h ⊢
    rw [checkedSum, add_of_le (by omega), bind_some, ih h]

theorem total_perm (h : output.Perm output') : total output = total output' :=
  (h.map Prod.fst).sum_eq

theorem restored (h : Moved R (input.zipIdx.insertionSort fun x y => x.1 ≤ y.1) output) :
    List.Forall₂ R input ((output.insertionSort fun x y => x.2 ≤ y.2).map Prod.fst) ∧
      ((output.insertionSort fun x y => x.2 ≤ y.2).map Prod.fst).sum = total output := by
  set sorted := output.insertionSort fun x y => x.2 ≤ y.2 with hsorted
  have hperm : sorted.Perm output := perm_insertionSort _ output
  have hmoved : ∀ y ∈ sorted, ∃ x ∈ input.zipIdx, y.2 = x.2 ∧ R x.1 y.1 := by
    intro y hy
    obtain ⟨i, hi, rfl⟩ := mem_iff_getElem.mp (hperm.mem_iff.mp hy)
    obtain ⟨hlen, hget⟩ := forall₂_iff_get.mp h
    exact ⟨_, (perm_insertionSort _ _).mem_iff.mp (get_mem _ ⟨i, hlen ▸ hi⟩), hget i (hlen ▸ hi) hi⟩
  have hplaces : sorted.map Prod.snd = range input.length := by
    have hsame : output.map Prod.snd =
        (input.zipIdx.insertionSort fun x y => x.1 ≤ y.1).map Prod.snd := by
      have hget := (forall₂_iff_get.mp h).2
      refine ext_getElem (by simp [h.length_eq]) fun i hi hi' => ?_
      rw [getElem_map, getElem_map]
      exact (hget i (by simpa using hi') (by simpa using hi)).1
    have hzip : input.zipIdx.map Prod.snd = range input.length := by
      rw [zipIdx_map_snd, range_eq_range']
    refine List.Perm.eq_of_pairwise' (r := (· ≤ ·)) ?_ ?_ ?_
    · exact pairwise_map.mpr (pairwise_insertionSort (fun x y => x.2 ≤ y.2) output)
    · exact pairwise_le_range
    · rw [← hzip]
      exact (hperm.map _).trans (hsame ▸ (perm_insertionSort _ _).map _)
  have hlength : sorted.length = input.length := by
    simpa using congrArg length hplaces
  refine ⟨forall₂_iff_get.mpr ⟨by simp [hlength], fun i hi hi' => ?_⟩, total_perm hperm⟩
  have hi'' : i < sorted.length := hlength ▸ hi
  obtain ⟨x, hx, hplace, hR⟩ := hmoved _ (get_mem sorted ⟨i, hi''⟩)
  have hindex : sorted[i].2 = i := by
    have := congrArg (fun l => l[i]?) hplaces
    simpa [hi'', hi] using this
  have hvalue : input[i]? = some x.1 := by
    have := mem_zipIdx_iff_getElem?.mp hx
    rwa [← hplace, get_eq_getElem, hindex] at this
  obtain ⟨_, hxi⟩ := List.getElem?_eq_some_iff.mp hvalue
  simpa [hxi] using hR

theorem normalize_spec (hne : input ≠ []) (hlength : input.length ≤ tMax) (hsum : input.sum ≤ tMax)
    (htarget : targetedSum ≤ tMax) :
    ∃ n result, (∀ fuel, normalize (fuel + n) tMax input targetedSum = .ok result) ∧
      (List.Forall₂ (· ≤ ·) input result ∨ List.Forall₂ (· ≥ ·) input result) ∧
      result.sum = targetedSum := by
  have hchecked : checkedSum tMax 0 input = some input.sum := by
    rw [checkedSum_eq (by omega), zero_add]
  have hpos : 0 < input.length := length_pos_iff.mpr hne
  simp only [normalize, hchecked, if_neg (not_lt.mpr hlength), if_neg (ne_of_gt hpos)]
  set entries : Entries := input.zipIdx.insertionSort fun x y => x.1 ≤ y.1 with hentries
  have hsorted : total entries = input.sum := by
    rw [total_perm (perm_insertionSort _ _), total, zipIdx_map_fst]
  have hcount : entries.length = input.length := by simp [hentries]
  have hentries_ne : entries ≠ [] := by
    rw [← length_pos_iff, hcount]
    exact hpos
  by_cases hdiff : max targetedSum input.sum - min targetedSum input.sum = 0
  · refine ⟨0, input, fun fuel => if_pos hdiff, .inl (forall₂_refl input), by omega⟩
  simp only [if_neg hdiff]
  generalize hd : max targetedSum input.sum - min targetedSum input.sum = diff at hdiff ⊢
  have hdivmod := div_add_mod diff input.length
  rw [← hcount] at hdivmod ⊢
  by_cases hbump : targetedSum > input.sum
  · have htotal : targetedSum = total entries + entries.length * (diff / entries.length) +
        diff % entries.length := by omega
    obtain ⟨output, hincrease, hmoved, htotal⟩ := increase_spec hentries_ne htotal htarget
    obtain ⟨hplaces, hresult⟩ := restored hmoved
    refine ⟨0, _, fun fuel => ?_, .inl hplaces, hresult.trans htotal⟩
    rw [if_pos hbump, hincrease]
  have htotal : total entries = targetedSum + diff % entries.length +
      entries.length * (diff / entries.length) := by omega
  obtain ⟨n, output, hdecrease, hmoved, htotal⟩ :=
    decrease_spec hentries_ne htotal (hsorted ▸ hsum)
  obtain ⟨hplaces, hresult⟩ := restored hmoved
  refine ⟨n, _, fun fuel => ?_, .inr hplaces, hresult.trans htotal⟩
  rw [if_neg hbump, hdecrease]

theorem length_of_moved {result : List Nat}
    (h : List.Forall₂ (· ≤ ·) input result ∨ List.Forall₂ (· ≥ ·) input result) :
    result.length = input.length :=
  h.elim (fun h => h.length_eq.symm) fun h => h.length_eq.symm

/-- No part exceeds the target. -/
theorem normalizeParts_spec {P : PerThing} {parts : List Nat} (hne : parts ≠ [])
    (hcount : parts.length ≤ P.upperMax) (hsum : parts.sum ≤ P.upperMax)
    (htarget : targetedSum ≤ P.accuracy) :
    ∃ n result, (∀ fuel, normalizeParts P (fuel + n) parts targetedSum = .ok result) ∧
      result.length = parts.length ∧ result.sum = targetedSum := by
  have hupper : targetedSum ≤ P.upperMax :=
    htarget.trans ((Nat.le_mul_of_pos_left _ P.accuracy_pos).trans P.square_le)
  obtain ⟨n, result, hresult, hplaces, htotal⟩ := normalize_spec hne hcount hsum hupper
  have hparts : (result.map fun i => P.fromParts (min i P.innerMax)) = result := by
    refine (map_congr_left fun i hi => ?_).trans (map_id result)
    have hle : i ≤ targetedSum := htotal ▸ single_le_sum (fun _ _ => zero_le _) i hi
    rw [min_eq_left (hle.trans (htarget.trans P.accuracy_le)), PerThing.fromParts,
      min_eq_left (hle.trans htarget), id]
  refine ⟨n, result, fun fuel => ?_, length_of_moved hplaces, htotal⟩
  rw [normalizeParts, hresult, Outcome.map, hparts]

/-- **`normalize` reaches the target** for a vector whose length and sum fit, without a panic; each
element stays in place and all move in one direction. The parts of a vector of fractions, whose sum
fits in `Upper`, add up to the parts of the target. -/
theorem normalize_reaches_target :
    (∀ (tMax : Nat) (input : List Nat) (targetedSum : Nat), input ≠ [] → input.length ≤ tMax →
      input.sum ≤ tMax → targetedSum ≤ tMax →
      ∃ n result, (∀ fuel, normalize (fuel + n) tMax input targetedSum = .ok result) ∧
        result.length = input.length ∧
        (List.Forall₂ (· ≤ ·) input result ∨ List.Forall₂ (· ≥ ·) input result) ∧
        result.sum = targetedSum) ∧
    ∀ (P : PerThing) (parts : List Nat) (targetedSum : Nat), parts ≠ [] →
      parts.length ≤ P.upperMax → parts.sum ≤ P.upperMax → targetedSum ≤ P.accuracy →
      ∃ n result, (∀ fuel, normalizeParts P (fuel + n) parts targetedSum = .ok result) ∧
        result.length = parts.length ∧ result.sum = targetedSum := by
  refine ⟨fun tMax input targetedSum hne hcount hsum htarget => ?_,
    fun P parts targetedSum hne hcount hsum htarget => normalizeParts_spec hne hcount hsum htarget⟩
  obtain ⟨n, result, hresult, hplaces, htotal⟩ := normalize_spec hne hcount hsum htarget
  exact ⟨n, result, hresult, length_of_moved hplaces, hplaces, htotal⟩

theorem normalize_reaches_target_down : ∃ n result,
    (∀ fuel, normalize (fuel + n) 255 [0, 9, 1] 2 = .ok result) ∧ result.length = 3 ∧
      (List.Forall₂ (· ≤ ·) [0, 9, 1] result ∨ List.Forall₂ (· ≥ ·) [0, 9, 1] result) ∧
      result.sum = 2 :=
  normalize_reaches_target.1 255 [0, 9, 1] 2 (by decide) (by decide) (by decide) (by decide)

end Substrate.Normalize
