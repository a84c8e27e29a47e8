import Mathlib.Data.List.Induction
import Substrate.Assignments

/-!
# Compact solutions

Model of the types that `primitives/npos-elections/compact` generates: an election result with one
field for each number of targets. The last ratio of a voter is not stored, and is recomputed as what
the others leave of the whole. The generated bodies for assignments and for index assignments differ
only in how an index is found, so they are one function here.
-/

namespace Substrate.Elections

open List Except Assignment
open Function (update update_self update_of_ne)

inductive Error where
  | compactStakeOverflow
  | compactTargetOverflow
  | compactInvalidIndex
deriving Repr, DecidableEq

def orInvalidIndex {T : Type} : Option T → Except Error T
  | some t => .ok t
  | none => .error .compactInvalidIndex

/-- A generated type. `votes c` is its field for `c` targets, from three up to its limit. -/
structure Compact (V T : Type) where
  votes1 : List (V × T)
  votes2 : List (V × (T × Nat) × T)
  votes : Nat → List (V × List (T × Nat) × T)

structure IndexAssignment (V T : Type) where
  who : V
  distribution : List (T × Nat)

variable {A B C V T : Type}

def indexed (indexOfTarget : C → Except Error T) (distribution : List (C × Nat)) :
    Except Error (List (T × Nat)) :=
  distribution.mapM fun d => do return (← indexOfTarget d.1, d.2)

def IndexAssignment.new (voterIndex : A → Option V) (targetIndex : A → Option T)
    (assignment : Assignment A) : Except Error (IndexAssignment V T) := do
  let who ← orInvalidIndex (voterIndex assignment.who)
  let distribution ← indexed (orInvalidIndex ∘ targetIndex) assignment.distribution
  return ⟨who, distribution⟩

def Compact.default : Compact V T := ⟨[], [], fun _ => []⟩

/-- The `match` on the number of targets in `from_assignment` and in `try_from`. -/
def Compact.push (limit : Nat) (indexOfVoter : B → Except Error V)
    (indexOfTarget : C → Except Error T) (compact : Compact V T) (who : B) :
    List (C × Nat) → Except Error (Compact V T)
  | [] => .ok compact
  | [d] => do
    let voter ← indexOfVoter who
    let target ← indexOfTarget d.1
    return { compact with votes1 := compact.votes1 ++ [(voter, target)] }
  | [d₁, d₂] => do
    let voter ← indexOfVoter who
    let target₁ ← indexOfTarget d₁.1
    let target₂ ← indexOfTarget d₂.1
    return { compact with votes2 := compact.votes2 ++ [(voter, (target₁, d₁.2), target₂)] }
  | d :: ds =>
    let c := ds.length + 1
    if limit < c then .error .compactTargetOverflow
    else do
      let voter ← indexOfVoter who
      let inner ← indexed indexOfTarget (d :: ds).dropLast
      let last ← indexOfTarget ((d :: ds).getLast (cons_ne_nil d ds)).1
      return { compact with
        votes := update compact.votes c (compact.votes c ++ [(voter, inner, last)]) }

def Compact.fromAssignment (limit : Nat) (indexOfVoter : A → Option V)
    (indexOfTarget : A → Option T) (assignments : List (Assignment A)) :
    Except Error (Compact V T) :=
  assignments.foldlM (fun compact a => compact.push limit (orInvalidIndex ∘ indexOfVoter)
    (orInvalidIndex ∘ indexOfTarget) a.who a.distribution) .default

/-- `TryFrom<&[IndexAssignment]>::try_from`. -/
def Compact.tryFrom (limit : Nat) (assignments : List (IndexAssignment V T)) :
    Except Error (Compact V T) :=
  assignments.foldlM (fun compact a => compact.push limit .ok .ok a.who a.distribution) .default

section Into

variable (P : PerThing) (voterAt : V → Option A) (targetAt : T → Option A)

/-- The body of the loop over the voters with one target. -/
def intoSingle (entry : V × T) : Except Error (Assignment A) := do
  let who ← orInvalidIndex (voterAt entry.1)
  let target ← orInvalidIndex (targetAt entry.2)
  return ⟨who, [(target, P.accuracy)]⟩

def intoDouble (entry : V × (T × Nat) × T) : Except Error (Assignment A) :=
  let p₁ := entry.2.1.2
  if P.accuracy ≤ p₁ then .error .compactStakeOverflow
  else do
    let p₂ := P.fromParts (P.accuracy - p₁)
    let who ← orInvalidIndex (voterAt entry.1)
    let target₁ ← orInvalidIndex (targetAt entry.2.1.1)
    let target₂ ← orInvalidIndex (targetAt entry.2.2)
    return ⟨who, [(target₁, p₁), (target₂, p₂)]⟩

def saturatingAdd (a b : Nat) : Nat := P.fromParts (min (a + b) P.innerMax)

def intoRest (entry : V × List (T × Nat) × T) : Except Error (Assignment A) := do
  let innersParsed ← indexed (orInvalidIndex ∘ targetAt) entry.2.1
  let sum := (amounts entry.2.1).foldl (saturatingAdd P) 0
  if P.accuracy ≤ sum then .error .compactStakeOverflow
  else do
    let pLast := P.fromParts (P.accuracy - sum)
    let last ← orInvalidIndex (targetAt entry.2.2)
    let who ← orInvalidIndex (voterAt entry.1)
    return ⟨who, innersParsed ++ [(last, pLast)]⟩

def Compact.intoAssignment (limit : Nat) (compact : Compact V T) :
    Except Error (List (Assignment A)) := do
  let singles ← compact.votes1.mapM (intoSingle P voterAt targetAt)
  let doubles ← compact.votes2.mapM (intoDouble P voterAt targetAt)
  let rest ← (range' 3 (limit - 2)).mapM fun c =>
    (compact.votes c).mapM (intoRest P voterAt targetAt)
  return singles ++ doubles ++ rest.flatten

end Into

/-! ## Lifting through the loops -/

section MapM

variable {ε α β : Type} {f : α → Except ε β}

theorem bind_of_ok {x} {a : α} (h : x = .ok a) (f : α → Except ε β) : x >>= f = f a := by
  rw [h]
  rfl

theorem bind_eq_ok {x} {b : β} : x >>= f = .ok b ↔ ∃ a, x = .ok a ∧ f a = .ok b := by
  constructor
  · intro h
    cases x with
    | error e => cases h
    | ok a => exact ⟨a, rfl, h⟩
  · rintro ⟨a, rfl, h⟩
    exact h

variable {l : List α}

theorem mapM_ok_append {ys : List β} {x : α} {y : β} (hl : l.mapM f = .ok ys) (hx : f x = .ok y) :
    (l ++ [x]).mapM f = .ok (ys ++ [y]) := by
  rw [mapM_append, bind_of_ok hl, mapM_cons, bind_of_ok hx]
  rfl

theorem mapM_ok_map {g : α → β} (h : ∀ x ∈ l, f x = .ok (g x)) : l.mapM f = .ok (l.map g) := by
  induction l with
  | nil => rfl
  | cons x l ih =>
    rw [mapM_cons, bind_of_ok (h x mem_cons_self),
      bind_of_ok (ih fun y hy => h y (mem_cons_of_mem x hy))]
    rfl

theorem mem_of_mapM_ok {ys : List β} (h : l.mapM f = .ok ys) {y : β} (hy : y ∈ ys) :
    ∃ x, f x = .ok y := by
  induction l generalizing ys with
  | nil =>
    obtain rfl := ok.inj h
    cases hy
  | cons x l ih =>
    simp only [mapM_cons, bind_eq_ok] at h
    obtain ⟨z, hz, zs, hzs, h⟩ := h
    obtain rfl := ok.inj h
    rcases mem_cons.mp hy with rfl | hy
    · exact ⟨x, hz⟩
    · exact ih hzs hy

end MapM

/-! ## What is unpacked is whole -/

variable {ts : List (T × Nat)} {f : C → Except Error T} {compact : Compact V T}
  {ds : List (C × Nat)} {d : C × Nat}

section Whole

variable {P : PerThing} {voterAt : V → Option A} {targetAt : T → Option A}

theorem foldl_saturatingAdd (ps : List Nat) {sum : Nat} (h : sum ≤ P.accuracy) :
    ps.foldl (saturatingAdd P) sum = min (sum + ps.sum) P.accuracy := by
  induction ps generalizing sum with
  | nil => simpa using h
  | cons p ps ih =>
    have hle := P.accuracy_le
    have hadd : saturatingAdd P sum p = min (sum + p) P.accuracy := by
      simp only [saturatingAdd, PerThing.fromParts]
      omega
    rw [foldl_cons, hadd, ih (Nat.min_le_right _ _), sum_cons]
    omega

theorem amounts_indexed (h : indexed f ds = .ok ts) : amounts ts = amounts ds := by
  induction ds generalizing ts with
  | nil =>
    obtain rfl := ok.inj h
    rfl
  | cons d ds ih =>
    simp only [indexed, mapM_cons, bind_eq_ok] at h
    obtain ⟨_, ⟨t, _, he⟩, es, hes, h⟩ := h
    cases he
    obtain rfl := ok.inj h
    exact congrArg (d.2 :: ·) (ih hes)

theorem orInvalidIndex_eq_ok {o} {t : T} : orInvalidIndex o = .ok t ↔ o = some t := by
  cases o <;> simp [orInvalidIndex]

theorem indexed_singleton : indexed f [d] = .ok ts ↔ ∃ t, f d.1 = .ok t ∧ ts = [(t, d.2)] := by
  simp only [indexed, mapM_cons, mapM_nil, bind_eq_ok]
  constructor
  · rintro ⟨_, ⟨t, ht, he⟩, _, hnil, h⟩
    cases he
    cases hnil
    cases h
    exact ⟨t, ht, rfl⟩
  · rintro ⟨t, ht, rfl⟩
    exact ⟨_, ⟨t, ht, rfl⟩, _, rfl, rfl⟩

variable (P voterAt targetAt) in
/-- The last target has what the others leave of the whole. -/
def Gives (v : V) (inner : List (T × Nat)) (last : T) (a : Assignment A) : Prop :=
  (amounts inner).sum < P.accuracy ∧ ∃ ds target, voterAt v = some a.who ∧
    indexed (orInvalidIndex ∘ targetAt) inner = .ok ds ∧ targetAt last = some target ∧
    a.distribution = ds ++ [(target, P.accuracy - (amounts inner).sum)]

variable {v : V} {t : T} {a : Assignment A}

theorem fromParts_sub (n : Nat) : P.fromParts (P.accuracy - n) = P.accuracy - n :=
  Nat.min_eq_left (Nat.sub_le _ _)

theorem intoSingle_eq_ok :
    intoSingle P voterAt targetAt (v, t) = .ok a ↔ Gives P voterAt targetAt v [] t a := by
  simp only [intoSingle, bind_eq_ok, orInvalidIndex_eq_ok]
  constructor
  · rintro ⟨who, hwho, target, htarget, h⟩
    cases h
    exact ⟨P.accuracy_pos, [], target, hwho, rfl, htarget, rfl⟩
  · rintro ⟨-, ds, target, hwho, hds, htarget, ha⟩
    cases hds
    exact ⟨_, hwho, _, htarget, congrArg (ok <| mk a.who ·) ha.symm⟩

theorem intoDouble_eq_ok {d : T × Nat} :
    intoDouble P voterAt targetAt (v, d, t) = .ok a ↔ Gives P voterAt targetAt v [d] t a := by
  have hsum : (amounts [d]).sum = d.2 := Nat.add_zero _
  simp only [Gives, hsum, indexed_singleton, intoDouble, fromParts_sub]
  split
  · rename_i hle
    exact ⟨nofun, fun h => absurd hle (Nat.not_le.mpr h.1)⟩
  rename_i hlt
  simp only [bind_eq_ok, orInvalidIndex_eq_ok]
  constructor
  · rintro ⟨who, hwho, target₁, htarget1, target₂, htarget2, h⟩
    cases h
    exact ⟨Nat.not_le.mp hlt, _, target₂, hwho, ⟨target₁, orInvalidIndex_eq_ok.mpr htarget1, rfl⟩,
      htarget2, rfl⟩
  · rintro ⟨-, _, target₂, hwho, ⟨target₁, htarget1, rfl⟩, htarget2, ha⟩
    exact ⟨_, hwho, _, orInvalidIndex_eq_ok.mp htarget1, _, htarget2,
      congrArg (ok <| mk a.who ·) ha.symm⟩

variable {inner : List (T × Nat)}

theorem intoRest_eq_ok :
    intoRest P voterAt targetAt (v, inner, t) = .ok a ↔ Gives P voterAt targetAt v inner t a := by
  simp only [Gives, intoRest, foldl_saturatingAdd _ (Nat.zero_le P.accuracy), Nat.zero_add,
    bind_eq_ok]
  split
  · constructor
    · rintro ⟨_, _, h⟩
      cases h
    · intro h
      omega
  rw [Nat.min_eq_left (by omega)]
  simp only [bind_eq_ok, orInvalidIndex_eq_ok, fromParts_sub]
  constructor
  · rintro ⟨ds, hds, target, htarget, who, hwho, h⟩
    cases h
    exact ⟨by omega, ds, target, hwho, hds, htarget, rfl⟩
  · rintro ⟨-, ds, target, hwho, hds, htarget, ha⟩
    exact ⟨ds, hds, target, htarget, _, hwho,
      congrArg (ok <| mk a.who ·) ha.symm⟩

theorem Gives.whole (h : Gives P voterAt targetAt v inner t a) :
    (amounts a.distribution).sum = P.accuracy := by
  obtain ⟨hlt, ds, target, -, hds, -, ha⟩ := h
  rw [← amounts_indexed hds] at hlt ha
  rw [ha, amounts, map_append, sum_append]
  exact Nat.add_sub_of_le hlt.le

theorem intoAssignment_whole {limit : Nat} {unpacked}
    (h : compact.intoAssignment P voterAt targetAt limit = .ok unpacked) :
    ∀ a ∈ unpacked, (amounts a.distribution).sum = P.accuracy := by
  intro a ha
  simp only [Compact.intoAssignment, bind_eq_ok] at h
  obtain ⟨singles, hsingles, doubles, hdoubles, rest, hrest, h⟩ := h
  obtain rfl := ok.inj h
  rcases mem_append.mp ha with ha | ha
  · rcases mem_append.mp ha with ha | ha
    · obtain ⟨entry, he⟩ := mem_of_mapM_ok hsingles ha
      exact (intoSingle_eq_ok.mp he).whole
    · obtain ⟨entry, he⟩ := mem_of_mapM_ok hdoubles ha
      exact (intoDouble_eq_ok.mp he).whole
  obtain ⟨field, hfield, ha⟩ := mem_flatten.mp ha
  obtain ⟨c, hc⟩ := mem_of_mapM_ok hrest hfield
  obtain ⟨entry, he⟩ := mem_of_mapM_ok hc ha
  exact (intoRest_eq_ok.mp he).whole

end Whole

/-! ## Packing and unpacking -/

def ofLength (c : Nat) (assignments : List (Assignment A)) : List (Assignment A) :=
  assignments.filter (·.distribution.length = c)

theorem ofLength_perm (as : List (Assignment A)) (n : Nat) :
    (((range' 1 n).map fun c => ofLength c as).flatten).Perm
      (as.filter fun a => 1 ≤ a.distribution.length ∧ a.distribution.length ≤ n) := by
  induction n with
  | zero =>
    rw [filter_eq_nil_iff.mpr]
    · exact .nil
    · intro a _
      rw [decide_eq_true_iff]
      omega
  | succ n ih =>
    -- The longest are split off the others.
    have hsplit := filter_append_perm (fun a => decide (a.distribution.length ≤ n))
      (as.filter fun a => 1 ≤ a.distribution.length ∧ a.distribution.length ≤ n + 1)
    have hshort : ∀ a ∈ as, (decide (a.distribution.length ≤ n) &&
        decide (1 ≤ a.distribution.length ∧ a.distribution.length ≤ n + 1)) =
        decide (1 ≤ a.distribution.length ∧ a.distribution.length ≤ n) := by grind
    have hlong : ∀ a ∈ as, (!decide (a.distribution.length ≤ n) &&
        decide (1 ≤ a.distribution.length ∧ a.distribution.length ≤ n + 1)) =
        decide (a.distribution.length = 1 + 1 * n) := by grind
    rw [filter_filter, filter_filter, filter_congr hshort, filter_congr hlong] at hsplit
    rw [range'_concat, map_append, flatten_append, map_cons, map_nil,
      flatten_cons, flatten_nil, append_nil]
    exact (ih.append_right _).trans hsplit

section RoundTrip

variable (P : PerThing) (limit : Nat) (indexOfVoter : A → Option V) (indexOfTarget : A → Option T)
  (voterAt : V → Option A) (targetAt : T → Option A)

/-- Its accounts are found again from their indices, it has at most `limit` targets, and ratios that
are positive and together the whole. -/
structure Packable (a : Assignment A) : Prop where
  voter : ∃ v, indexOfVoter a.who = some v ∧ voterAt v = some a.who
  targets : ∀ d ∈ a.distribution, ∃ t, indexOfTarget d.1 = some t ∧ targetAt t = some d.1
  length_le : a.distribution.length ≤ limit
  pos : ∀ d ∈ a.distribution, 0 < d.2
  whole : a.distribution ≠ [] → (amounts a.distribution).sum = P.accuracy

/-- Each field is unpacked to the assignments with its number of targets. -/
structure Unpacks (compact : Compact V T) (as : List (Assignment A)) : Prop where
  singles : compact.votes1.mapM (intoSingle P voterAt targetAt) = .ok (ofLength 1 as)
  doubles : compact.votes2.mapM (intoDouble P voterAt targetAt) = .ok (ofLength 2 as)
  rest : ∀ c, 3 ≤ c → (compact.votes c).mapM (intoRest P voterAt targetAt) = .ok (ofLength c as)

variable {P limit indexOfVoter indexOfTarget voterAt targetAt}

theorem indexed_round_trip (ds : List (A × Nat))
    (h : ∀ d ∈ ds, ∃ t, indexOfTarget d.1 = some t ∧ targetAt t = some d.1) :
    ∃ ts, indexed (orInvalidIndex ∘ indexOfTarget) ds = .ok ts ∧
      indexed (orInvalidIndex ∘ targetAt) ts = .ok ds := by
  induction ds with
  | nil => exact ⟨[], rfl, rfl⟩
  | cons d ds ih =>
    obtain ⟨t, ht, ht'⟩ := h d mem_cons_self
    obtain ⟨ts, hts, hts'⟩ := ih fun d hd => h d (mem_cons_of_mem _ hd)
    refine ⟨(t, d.2) :: ts, ?_, ?_⟩
    · rw [indexed, mapM_cons, ← indexed, hts, Function.comp_apply, ht]
      rfl
    · rw [indexed, mapM_cons, ← indexed, hts', Function.comp_apply, ht']
      rfl

section Push

variable {indexOfVoter : B → Except Error V} {indexOfTarget : C → Except Error T}
  {compact : Compact V T} {who : B} {ds : List (C × Nat)}

theorem push_rest (h : 3 ≤ ds.length) (hne : ds ≠ []) :
    compact.push limit indexOfVoter indexOfTarget who ds =
      if limit < ds.length then .error .compactTargetOverflow
      else do
        let voter ← indexOfVoter who
        let inner ← indexed indexOfTarget ds.dropLast
        let last ← indexOfTarget (ds.getLast hne).1
        return { compact with
          votes := update compact.votes ds.length
            (compact.votes ds.length ++ [(voter, inner, last)]) } := by
  rcases ds with _ | ⟨d₁, _ | ⟨d₂, _ | ⟨d3, ds⟩⟩⟩
  · exact absurd rfl hne
  · exact absurd h (by simp)
  · exact absurd h (by simp)
  · rfl

theorem push_rest_ok {v : V} {t : T} (h : 2 ≤ ds.length) (hle : ds.length < limit)
    (hv : indexOfVoter who = .ok v) (hds : indexed indexOfTarget ds = .ok ts)
    (hd : indexOfTarget d.1 = .ok t) :
    compact.push limit indexOfVoter indexOfTarget who (ds ++ [d]) = .ok { compact with
      votes := update compact.votes (ds.length + 1)
        (compact.votes (ds.length + 1) ++ [(v, ts, t)]) } := by
  have hlen : (ds ++ [d]).length = ds.length + 1 := length_append
  rw [push_rest (by omega) (append_ne_nil_of_right_ne_nil ds (cons_ne_nil d [])), hlen,
    if_neg (by omega), bind_of_ok hv, dropLast_concat, bind_of_ok hds, getLast_concat,
    bind_of_ok hd]
  rfl

end Push

variable {as : List (Assignment A)}

theorem push_unpacks {a} (ha : Packable P limit indexOfVoter indexOfTarget voterAt targetAt a)
    (hu : Unpacks P voterAt targetAt compact as) :
    ∃ index compact', IndexAssignment.new indexOfVoter indexOfTarget a = .ok index ∧
      compact.push limit (orInvalidIndex ∘ indexOfVoter) (orInvalidIndex ∘ indexOfTarget)
        a.who a.distribution = .ok compact' ∧
      compact.push limit .ok .ok index.who index.distribution = .ok compact' ∧
      Unpacks P voterAt targetAt compact' (as ++ [a]) := by
  obtain ⟨v, hv, hv'⟩ := ha.voter
  have hvoter : (orInvalidIndex ∘ indexOfVoter) a.who = .ok v := congrArg orInvalidIndex hv
  have hnew : ∀ ts, indexed (orInvalidIndex ∘ indexOfTarget) a.distribution = .ok ts →
      IndexAssignment.new indexOfVoter indexOfTarget a = .ok ⟨v, ts⟩ :=
    fun ts hts => (bind_of_ok hvoter _).trans (bind_of_ok hts _)
  have hother : ∀ {c : Nat} {x : Except Error (List (Assignment A))},
      a.distribution.length ≠ c → x = .ok (ofLength c as) → x = .ok (ofLength c (as ++ [a])) := by
    intro c x hc hx
    simpa [ofLength, hc] using hx
  have hsame : ∀ {c : Nat} {x : Except Error (List (Assignment A))},
      a.distribution.length = c → x = .ok (ofLength c as ++ [a]) →
        x = .ok (ofLength c (as ++ [a])) := by
    rintro c x rfl hx
    simpa [ofLength] using hx
  rcases eq_nil_or_concat' a.distribution with hds | ⟨ds, d, hds⟩
  · rw [hds] at hnew hother ⊢
    exact ⟨_, compact, hnew [] rfl, rfl, rfl, hother (by simp) hu.singles,
      hother (by simp) hu.doubles, fun c hc => hother (by simp; omega) (hu.rest c hc)⟩
  have hwhole := ha.whole (by simp [hds])
  have hmem : d ∈ a.distribution := by simp [hds]
  obtain ⟨ts, hts, hts'⟩ := indexed_round_trip ds fun d hd =>
    ha.targets d (by simp [hds, hd])
  obtain ⟨t, ht, ht'⟩ := ha.targets d hmem
  have htarget : (orInvalidIndex ∘ indexOfTarget) d.1 = .ok t := congrArg orInvalidIndex ht
  have hindex := hnew _ (hds ▸ mapM_ok_append hts (bind_of_ok htarget _))
  have hpos := ha.pos d hmem
  have hgives : Gives P voterAt targetAt v ts t a := by
    have hsum : (amounts ts).sum + d.2 = P.accuracy := by
      rw [← hwhole, hds, ← amounts_indexed hts']
      simp
    refine ⟨by omega, ds, d.1, hv', hts', ht', ?_⟩
    rw [hds, ← hsum, Nat.add_sub_cancel_left]
  have hle := ha.length_le
  rw [hds] at hother hsame hle ⊢
  rcases ds with _ | ⟨d₁, _ | ⟨d₂, ds⟩⟩
  · obtain rfl := ok.inj hts
    refine ⟨_, _, hindex, ?_, rfl, ?_⟩
    · exact (bind_of_ok hvoter _).trans (bind_of_ok htarget _)
    · exact ⟨hsame rfl (mapM_ok_append hu.singles (intoSingle_eq_ok.mpr hgives)),
        hother (by simp) hu.doubles, fun c hc => hother (by simp; omega) (hu.rest c hc)⟩
  · obtain ⟨t1, htarget1, rfl⟩ := indexed_singleton.mp hts
    refine ⟨_, _, hindex, ?_, rfl, ?_⟩
    · exact (bind_of_ok hvoter _).trans ((bind_of_ok htarget1 _).trans (bind_of_ok htarget _))
    · exact ⟨hother (by simp) hu.singles,
        hsame rfl (mapM_ok_append hu.doubles (intoDouble_eq_ok.mpr hgives)),
        fun c hc => hother (by simp; omega) (hu.rest c hc)⟩
  · have h2 : 2 ≤ (d₁ :: d₂ :: ds).length := by simp
    have hlen : (d₁ :: d₂ :: ds ++ [d]).length = (d₁ :: d₂ :: ds).length + 1 :=
      length_append
    have hts2 : ts.length = (d₁ :: d₂ :: ds).length := by
      simpa using congrArg length (amounts_indexed hts)
    generalize d₁ :: d₂ :: ds = ds at *
    refine ⟨_, _, hindex, push_rest_ok h2 (by omega) hvoter hts htarget, ?_, ?_⟩
    · have hsame : indexed .ok ts = .ok ts :=
        (mapM_ok_map fun _ _ => rfl).trans (congrArg _ (map_id ts))
      rw [← hts2]
      exact push_rest_ok (by omega) (by omega) rfl hsame rfl
    · refine ⟨hother (by omega) hu.singles, hother (by omega) hu.doubles, fun c hc => ?_⟩
      by_cases hcd : (ds ++ [d]).length = c
      · refine hsame hcd ?_
        rw [← hcd, hlen] at hc ⊢
        dsimp only
        rw [update_self]
        exact mapM_ok_append (hu.rest _ hc) (intoRest_eq_ok.mpr hgives)
      · dsimp only
        rw [update_of_ne (by omega)]
        exact hother hcd (hu.rest c hc)

theorem fromAssignment_unpacks
    (has : ∀ a ∈ as, Packable P limit indexOfVoter indexOfTarget voterAt targetAt a) :
    ∃ indices compact, as.mapM (IndexAssignment.new indexOfVoter indexOfTarget) = .ok indices ∧
      Compact.fromAssignment limit indexOfVoter indexOfTarget as = .ok compact ∧
      Compact.tryFrom limit indices = .ok compact ∧ Unpacks P voterAt targetAt compact as := by
  induction as using reverseRecOn with
  | nil => exact ⟨[], .default, rfl, rfl, rfl, rfl, rfl, fun _ _ => rfl⟩
  | append_singleton as a ih =>
    obtain ⟨indices, compact, hindices, hfrom, htry, hu⟩ := ih fun a ha =>
      has a (mem_append_left _ ha)
    obtain ⟨index, compact', hindex, hpush, hpush', hu'⟩ :=
      push_unpacks (has a (mem_append_right _ (mem_singleton_self a))) hu
    refine ⟨indices ++ [index], compact', mapM_ok_append hindices hindex, ?_, ?_, hu'⟩
    · rw [Compact.fromAssignment, foldlM_append, ← Compact.fromAssignment, bind_of_ok hfrom,
        foldlM_cons, bind_of_ok hpush]
      rfl
    · rw [Compact.tryFrom, foldlM_append, ← Compact.tryFrom, bind_of_ok htry,
        foldlM_cons, bind_of_ok hpush']
      rfl

theorem intoAssignment_perm (hlimit : 3 ≤ limit) (hle : ∀ a ∈ as, a.distribution.length ≤ limit)
    (hu : Unpacks P voterAt targetAt compact as) :
    ∃ unpacked, compact.intoAssignment P voterAt targetAt limit = .ok unpacked ∧
      unpacked.Perm (as.filter (·.distribution ≠ [])) := by
  have hrest : (range' 3 (limit - 2)).mapM (fun c =>
      (compact.votes c).mapM (intoRest P voterAt targetAt)) =
      .ok ((range' 3 (limit - 2)).map fun c => ofLength c as) :=
    mapM_ok_map fun c hc => hu.rest c (mem_range'_1.mp hc).1
  refine ⟨_, (bind_of_ok hu.singles _).trans ((bind_of_ok hu.doubles _).trans
    (bind_of_ok hrest _)), ?_⟩
  have hperm := ofLength_perm as limit
  obtain ⟨n, rfl⟩ : ∃ n, limit = n + 2 := ⟨limit - 2, by omega⟩
  rw [range'_succ, range'_succ, map_cons, map_cons, flatten_cons,
    flatten_cons, ← append_assoc] at hperm
  refine hperm.trans (.of_eq (filter_congr fun a ha => ?_))
  have := hle a ha
  rw [decide_eq_decide, ← length_pos_iff]
  omega

end RoundTrip

/-- **A compact value gives back what it was made of, and what it gives is whole.** Packable
assignments are packed, in the same way from accounts and from indices, and unpacked up to their
order; and whatever a compact value holds, the ratios it is unpacked to are together the whole. -/
theorem compact_round_trip (P : PerThing) {limit : Nat} (hlimit : 3 ≤ limit)
    (indexOfVoter : A → Option V) (indexOfTarget : A → Option T) (voterAt : V → Option A)
    (targetAt : T → Option A) :
    (∀ as : List (Assignment A),
      (∀ a ∈ as, Packable P limit indexOfVoter indexOfTarget voterAt targetAt a) →
      ∃ indices compact unpacked,
        Compact.fromAssignment limit indexOfVoter indexOfTarget as = .ok compact ∧
        compact.intoAssignment P voterAt targetAt limit = .ok unpacked ∧
        unpacked.Perm (as.filter (·.distribution ≠ [])) ∧
        as.mapM (IndexAssignment.new indexOfVoter indexOfTarget) = .ok indices ∧
        Compact.tryFrom limit indices = .ok compact) ∧
    ∀ (compact : Compact V T) (unpacked : List (Assignment A)),
      compact.intoAssignment P voterAt targetAt limit = .ok unpacked →
      ∀ a ∈ unpacked, (amounts a.distribution).sum = P.accuracy := by
  refine ⟨fun as has => ?_, fun _ _ => intoAssignment_whole⟩
  obtain ⟨indices, compact, hindices, hfrom, htry, hu⟩ := fromAssignment_unpacks has
  obtain ⟨unpacked, hinto, hperm⟩ :=
    intoAssignment_perm hlimit (fun a ha => (has a ha).length_le) hu
  exact ⟨indices, compact, unpacked, hfrom, hinto, hperm, hindices, htry⟩

def threeVoters : List (Assignment Nat) :=
  [mk 7 [(1, 40), (2, 60)], mk 8 [(1, 20), (3, 30), (2, 50)], mk 9 [(3, 100)]]

/-- Voters with one, two and three targets. -/
theorem threeVoters_round_trip : ∃ indices compact unpacked,
    Compact.fromAssignment 16 some some threeVoters = .ok compact ∧
    compact.intoAssignment .percent some some 16 = .ok unpacked ∧
    unpacked.Perm (threeVoters.filter (·.distribution ≠ [])) ∧
    threeVoters.mapM (IndexAssignment.new some some) = .ok indices ∧
    Compact.tryFrom (V := Nat) 16 indices = .ok compact := by
  refine (compact_round_trip .percent (by decide) some some some some).1 _ fun a ha => ?_
  have hall : ∀ a ∈ threeVoters, a.distribution.length ≤ 16 ∧ (∀ d ∈ a.distribution, 0 < d.2) ∧
      (amounts a.distribution).sum = 100 := by decide
  obtain ⟨hlength, hpos, hwhole⟩ := hall a ha
  exact ⟨⟨a.who, rfl, rfl⟩, fun d _ => ⟨d.1, rfl, rfl⟩, hlength, hpos, fun _ => hwhole⟩

end Substrate.Elections
