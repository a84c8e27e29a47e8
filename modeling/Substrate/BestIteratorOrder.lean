import Substrate.ReadyLinks

/-!
# The order of the iterator

Over a linked queue without cycles, `BestIterator` yields a greedy dependency order. `best` holds
what is available, `awaiting` what is short of a provider, with the number of tags that are met;
`IterInv` says so, also in the middle of a round, where the transactions still to be unlocked are
short of one more tag for each time they are listed.
-/

namespace Substrate.TxPool

open Function List BestIterator Option OrdSet Nat

variable {H T : Type} [DecidableEq H]

namespace ReadyTransactions

variable {r : ReadyTransactions H T} {done us : List H} {it : BestIterator H T}
  {h g : H} {y : ReadyTx H T}

/-! ## The specification -/

/-- `x` provides a tag that `y` requires. -/
def Provides (x y : Transaction H T) : Prop := ∃ t ∈ x.provides, t ∈ y.requires

def yielded (r : ReadyTransactions H T) : List (Transaction H T) := (r.get.take r.len).1

/-- What the iterator of a queue is to do. -/
structure IteratorCorrect (r : ReadyTransactions H T) : Prop where
  /-- it ends -/
  ended : (r.get.take r.len).2.next = none
  /-- it yields every ready transaction … -/
  complete : ∀ tx, tx ∈ r.yielded ↔ ∃ h x, r.ready.get? h = some x ∧ x.transaction.transaction = tx
  /-- … once -/
  once : (r.yielded.map (·.hash)).Nodup
  /-- after all ready transactions that provide one of its tags -/
  ordered : ∀ before tx after, r.yielded = before ++ tx :: after →
    ∀ h x, r.ready.get? h = some x → Provides x.transaction.transaction tx →
      x.transaction.transaction ∈ before
  /-- and no transaction that could be yielded in its place is greater -/
  greatest : ∀ before tx after, r.yielded = before ++ tx :: after →
    ∃ y, r.ready.get? tx.hash = some y ∧ y.transaction.transaction = tx ∧
      ∀ h x, r.ready.get? h = some x → x.transaction.transaction ∉ before →
        (∀ h' x', r.ready.get? h' = some x' →
          Provides x'.transaction.transaction x.transaction.transaction →
          x'.transaction.transaction ∈ before) →
        x.transaction.key ≤ y.transaction.key

/-! ## The account of the iterator -/

def satisfied (provided : FinMap T H) (done : List H) (tags : List T) : Nat :=
  tags.countP fun t => decide (∀ h, provided.get? t = some h → h ∈ done)

theorem satisfied_nil (provided : FinMap T H) (tags : List T) :
    satisfied provided [] tags = unmet provided tags := by
  refine countP_congr fun t _ => ?_
  cases provided.get? t <;> simp

theorem satisfied_cons {provided} (hh : h ∉ done) (tags : List T) :
    satisfied provided (h :: done) tags =
      satisfied provided done tags + waitsFor provided tags h := by
  induction tags with
  | nil => rfl
  | cons t tags ih =>
    simp only [satisfied, waitsFor, countP_cons] at ih ⊢
    rw [ih]
    cases hprov : provided.get? t with
    | none => simp; omega
    | some g =>
      by_cases hg : g = h
      · subst hg
        simp [hh]
        omega
      · simp [hg]
        omega

theorem satisfied_le (provided : FinMap T H) (done : List H) (tags : List T) :
    satisfied provided done tags ≤ tags.length :=
  countP_le_length

theorem satisfied_eq_length {provided} {tags : List T} :
    satisfied provided done tags = tags.length ↔
      ∀ t ∈ tags, ∀ h, provided.get? t = some h → h ∈ done := by
  simp [satisfied]

/-- The iterator of `r` once `done` is yielded, with `us` still to be unlocked. -/
structure IterInv (r : ReadyTransactions H T) (done us : List H) (it : BestIterator H T) :
    Prop where
  all : it.all = r.ready
  nodup : done.Nodup
  ready : ∀ g ∈ done, ∃ y, r.ready.get? g = some y
  closed : ∀ g ∈ done, ∀ h, r.Dep g h → h ∈ done
  left : ∀ g ∈ us, g ∉ done
  room : ∀ g y, r.ready.get? g = some y →
    y.requiresOffset + us.count g ≤ satisfied r.providedTags done y.requires
  best : ∀ ref, ref ∈ it.best ↔ ∃ g y, r.ready.get? g = some y ∧ y.transaction = ref ∧ g ∉ done ∧
    y.requires.length + us.count g = satisfied r.providedTags done y.requires
  awaiting : ∀ g k ref, it.awaiting.get? g = some (k, ref) ↔ ∃ y, r.ready.get? g = some y ∧
    y.transaction = ref ∧ g ∉ done ∧ k + us.count g = satisfied r.providedTags done y.requires ∧
    k < y.requires.length ∧ y.requiresOffset < k

theorem iterInv_get (hinv : Linked r) : IterInv r [] [] r.get where
  all := rfl
  nodup := nodup_nil
  ready := by simp
  closed := by simp
  left := by simp
  room := by
    intro g y hy
    rw [satisfied_nil, hinv.offset g y hy id]
    simp
  best := by
    intro ref
    show ref ∈ r.best ↔ _
    rw [hinv.best]
    refine exists_congr fun g => exists_congr fun y => and_congr_right fun hy => ?_
    rw [satisfied_nil, ← hinv.offset g y hy id]
    simp [eq_comm]
  awaiting := by
    intro g k ref
    refine iff_of_false (by simp [get]) ?_
    rintro ⟨y, hy, _, _, hk, _, hlt⟩
    rw [satisfied_nil, ← hinv.offset g y hy id] at hk
    omega

/-! ## Unlocking -/

theorem bestOrAwaiting_all (it : BestIterator H T) (k : Nat) (ref : TransactionRef H T) :
    (it.bestOrAwaiting k ref).all = it.all := by
  unfold bestOrAwaiting
  split <;> rfl

theorem mem_bestOrAwaiting_best {k : Nat} {ref ref'}
    (hkey : ∀ c ∈ it.best, c.key = ref.key → c = ref) :
    ref' ∈ (it.bestOrAwaiting k ref).best ↔
      (ref' = ref ∧ ref.transaction.requires.length ≤ k) ∨ ref' ∈ it.best := by
  unfold bestOrAwaiting
  split
  · rename_i hle
    rw [mem_insert hkey]
    exact or_congr_left (iff_self_and.mpr fun _ => hle)
  · rename_i hle
    exact ⟨.inr, fun h => h.resolve_left fun h => hle h.2⟩

theorem bestOrAwaiting_awaiting (it : BestIterator H T) (k : Nat) (ref : TransactionRef H T) :
    (it.bestOrAwaiting k ref).awaiting.get? = if ref.transaction.requires.length ≤ k then
      it.awaiting.get? else update it.awaiting.get? ref.transaction.hash (some (k, ref)) := by
  unfold bestOrAwaiting
  split <;> rfl

theorem IterInv.eq_of_key (hlinked : Linked r) (hinv : IterInv r done us it)
    (hy : r.ready.get? g = some y) :
    ∀ c ∈ it.best, c.key = y.transaction.key → c = y.transaction := by
  intro c hc hkey
  obtain ⟨g', y', hy', rfl, _⟩ := (hinv.best c).mp hc
  have hg := hlinked.eq_of_key_eq hy' hy hkey
  subst hg
  rw [hy] at hy'
  cases hy'
  rfl

theorem IterInv.unlock_of_none (hinv : IterInv r done us it) (hg : r.ready.get? g = none) :
    it.unlock g = it := by
  have hawait : it.awaiting.get? g = none := by
    cases hw : it.awaiting.get? g with
    | none => rfl
    | some v =>
      obtain ⟨k, ref⟩ := v
      obtain ⟨y, hy, _⟩ := (hinv.awaiting g k ref).mp hw
      rw [hg] at hy
      cases hy
  unfold BestIterator.unlock
  simp [hawait, hinv.all, hg]

theorem IterInv.unlock_of_some (hinv : IterInv r done (g :: us) it) (hy : r.ready.get? g = some y) :
    ∃ (k : Nat) (it' : BestIterator H T),
      it.unlock g = it'.bestOrAwaiting (k + 1) y.transaction ∧ it'.all = it.all ∧ it'.best = it.best ∧
      it'.awaiting.get? = update it.awaiting.get? g none ∧
      k + 1 + us.count g = satisfied r.providedTags done y.requires ∧ y.requiresOffset ≤ k := by
  have hroom := hinv.room g y hy
  have hleft := hinv.left g mem_cons_self
  have hcount : (g :: us).count g = us.count g + 1 := count_cons_self
  cases hw : it.awaiting.get? g with
  | some v =>
    obtain ⟨k, ref⟩ := v
    obtain ⟨y', hy', rfl, _, hk, _, hlt⟩ := (hinv.awaiting g k ref).mp hw
    rw [hy, some.injEq] at hy'
    subst hy'
    refine ⟨k, { it with awaiting := it.awaiting.erase g }, ?_, rfl, rfl, rfl, ?_, by omega⟩
    · simp [BestIterator.unlock, hw]
    · omega
  | none =>
    -- not in `awaiting`, so no provider has been yielded before this round
    have hoff : y.requiresOffset + (us.count g + 1) = satisfied r.providedTags done y.requires := by
      by_contra hne
      have hle := satisfied_le r.providedTags done y.requires
      have hsome := (hinv.awaiting g
        (satisfied r.providedTags done y.requires - (us.count g + 1)) y.transaction).mpr
        ⟨y, hy, rfl, hleft, by omega, by omega, by omega⟩
      rw [hw] at hsome
      cases hsome
    refine ⟨y.requiresOffset, it, ?_, rfl, rfl, ?_, by omega, le_refl _⟩
    · simp [BestIterator.unlock, hw, hinv.all, hy]
    · rw [← hw, update_eq_self]

theorem IterInv.unlock (hlinked : Linked r) (hinv : IterInv r done (g :: us) it) :
    IterInv r done us (it.unlock g) := by
  have hleft : ∀ g' ∈ us, g' ∉ done := fun g' hg' => hinv.left g' (mem_cons_of_mem _ hg')
  have hcount : ∀ g', g' ≠ g → (g :: us).count g' = us.count g' := fun g' hg' =>
    count_cons_of_ne (Ne.symm hg')
  cases hy : r.ready.get? g with
  | none =>
    have hne : ∀ g' y', r.ready.get? g' = some y' → g' ≠ g := by
      rintro g' y' hy' rfl
      rw [hy] at hy'
      cases hy'
    rw [hinv.unlock_of_none hy]
    refine { hinv with left := hleft, room := ?_, best := ?_, awaiting := ?_ }
    · intro g' y' hy'
      rw [← hcount g' (hne g' y' hy')]
      exact hinv.room g' y' hy'
    · intro ref
      rw [hinv.best]
      refine exists_congr fun g' => exists_congr fun y' => and_congr_right fun hy' => ?_
      rw [hcount g' (hne g' y' hy')]
    · intro g' k ref
      rw [hinv.awaiting]
      refine exists_congr fun y' => and_congr_right fun hy' => ?_
      rw [hcount g' (hne g' y' hy')]
  | some y =>
    have hg := hinv.left g mem_cons_self
    have hkey := hinv.eq_of_key hlinked hy
    have hhash : y.transaction.transaction.hash = g := hlinked.keyed g y hy
    have hle := satisfied_le r.providedTags done y.requires
    obtain ⟨k, it', hunlock, hall, hbest, hawait, hk, hoff⟩ := hinv.unlock_of_some hy
    rw [← hbest] at hkey
    rw [hunlock]
    refine { hinv with all := ?_, left := hleft, room := ?_, best := ?_, awaiting := ?_ }
    · rw [bestOrAwaiting_all, hall, hinv.all]
    · intro g' y' hy'
      refine le_trans ?_ (hinv.room g' y' hy')
      exact Nat.add_le_add_left (count_le_count_cons ..) _
    · intro ref
      rw [mem_bestOrAwaiting_best hkey, hbest, hinv.best]
      constructor
      · rintro (⟨rfl, hlen⟩ | ⟨g', y', hy', rfl, hg', hsat⟩)
        · exact ⟨g, y, hy, rfl, hg, by
            simp only [ReadyTx.requires] at hle hk ⊢
            omega⟩
        · by_cases heq : g' = g
          · subst heq
            rw [hy, some.injEq] at hy'
            subst hy'
            rw [count_cons_self] at hsat
            omega
          · rw [hcount g' heq] at hsat
            exact ⟨g', y', hy', rfl, hg', hsat⟩
      · rintro ⟨g', y', hy', rfl, hg', hsat⟩
        by_cases heq : g' = g
        · subst heq
          rw [hy, some.injEq] at hy'
          subst hy'
          refine .inl ⟨rfl, ?_⟩
          simp only [ReadyTx.requires] at hsat hk
          omega
        · refine .inr ⟨g', y', hy', rfl, hg', ?_⟩
          rw [hcount g' heq]
          exact hsat
    · intro g' k' ref
      rw [bestOrAwaiting_awaiting, hhash, hawait]
      by_cases heq : g' = g
      · subst heq
        have hrhs : (∃ y', r.ready.get? g' = some y' ∧ y'.transaction = ref ∧ g' ∉ done ∧
            k' + us.count g' = satisfied r.providedTags done y'.requires ∧
            k' < y'.requires.length ∧ y'.requiresOffset < k') ↔
            y.transaction = ref ∧ k' = k + 1 ∧ k + 1 < y.requires.length := by
          constructor
          · rintro ⟨y', hy', rfl, _, hsat, hlt, _⟩
            rw [hy, some.injEq] at hy'
            subst hy'
            exact ⟨rfl, by omega, by omega⟩
          · rintro ⟨rfl, rfl, hlt⟩
            exact ⟨y, hy, rfl, hg, hk, hlt, by omega⟩
        rw [hrhs]
        change (if y.requires.length ≤ k + 1 then update _ _ _ else
          update _ _ _) g' = _ ↔ _
        split
        · rw [update_self]
          exact iff_of_false (by simp) fun h => absurd h.2.2 (by omega)
        rw [update_self, some.injEq, Prod.mk.injEq]
        constructor
        · rintro ⟨rfl, rfl⟩
          exact ⟨rfl, rfl, by omega⟩
        · rintro ⟨rfl, rfl, _⟩
          exact ⟨rfl, rfl⟩
      · rw [← hcount g' heq, ← hinv.awaiting g' k' ref]
        split
        · rw [update_of_ne heq]
        · rw [update_of_ne heq, update_of_ne heq]

theorem IterInv.foldl_unlock (hlinked : Linked r) (hinv : IterInv r done us it) :
    IterInv r done [] (us.foldl BestIterator.unlock it) := by
  induction us generalizing it with
  | nil => exact hinv
  | cons g us ih => exact ih (hinv.unlock hlinked)

/-! ## Yielding -/

def LeKey (r : ReadyTransactions H T) (g h : H) : Prop :=
  ∀ x y, r.ready.get? g = some x → r.ready.get? h = some y → x.transaction.key ≤ y.transaction.key

/-- `g` can be yielded next. -/
abbrev CanYield (r : ReadyTransactions H T) (done : List H) (g : H) : Prop :=
  DependencyOrder.Available (fun g => ∃ y, r.ready.get? g = some y) r.Dep done g

theorem IterInv.mem_best (hinv : IterInv r done [] it) (hlinked : Linked r)
    (hy : r.ready.get? g = some y) :
    y.transaction ∈ it.best ↔ CanYield r done g := by
  rw [hinv.best]
  constructor
  · rintro ⟨g', y', hy', heq, hg', hsat⟩
    have hgg : g' = g := hlinked.eq_of_key_eq hy' hy (by rw [heq])
    subst hgg
    rw [hy, some.injEq] at hy'
    subst hy'
    refine ⟨⟨y, hy⟩, hg', ?_⟩
    rintro h ⟨z, t, hz, ht, hprov⟩
    rw [hy, some.injEq] at hz
    subst hz
    rw [count_nil, add_zero, eq_comm, satisfied_eq_length] at hsat
    exact hsat t ht h hprov
  · rintro ⟨_, hg, hdeps⟩
    refine ⟨g, y, hy, rfl, hg, ?_⟩
    rw [count_nil, add_zero, eq_comm, satisfied_eq_length]
    exact fun t ht h hprov => hdeps h ⟨y, t, hy, ht, hprov⟩

section

variable (hlinked : Linked r)
include hlinked

theorem IterInv.yield (hinv : IterInv r done [] it) (hy : r.ready.get? g = some y)
    (hcan : CanYield r done g) :
    IterInv r (g :: done) y.unlocks
      { it with best := remove TransactionRef.key it.best y.transaction } := by
  obtain ⟨_, hg, hdeps⟩ := hcan
  have hsat : ∀ g' y', r.ready.get? g' = some y' →
      satisfied r.providedTags (g :: done) y'.requires =
        satisfied r.providedTags done y'.requires + y.unlocks.count g' := by
    intro g' y' hy'
    rw [satisfied_cons hg, hlinked.links g y g' y' hy hy']
  -- what is yielded already does not wait for `g`
  have hleft : ∀ g' ∈ y.unlocks, g' ∉ g :: done := by
    intro g' hmem hg'
    rcases mem_cons.mp hg' with rfl | hdone
    · exact hlinked.not_mem_own_unlocks hy hmem
    obtain ⟨y', hy'⟩ := hinv.ready g' hdone
    rw [← count_pos_iff, hlinked.links g y g' y' hy hy', waitsFor_pos] at hmem
    obtain ⟨t, ht, hprov⟩ := hmem
    exact hg (hinv.closed g' hdone g ⟨y', t, hy', ht, hprov⟩)
  have hfull : satisfied r.providedTags done y.requires = y.requires.length := by
    rw [satisfied_eq_length]
    exact fun t ht h hprov => hdeps h ⟨y, t, hy, ht, hprov⟩
  refine ⟨hinv.all, nodup_cons.mpr ⟨hg, hinv.nodup⟩, ?_, ?_, hleft, ?_, ?_, ?_⟩
  · exact forall_mem_cons.mpr ⟨⟨y, hy⟩, hinv.ready⟩
  · intro g' hg' h hdep
    rcases mem_cons.mp hg' with rfl | hdone
    · exact mem_cons_of_mem _ (hdeps h hdep)
    · exact mem_cons_of_mem _ (hinv.closed g' hdone h hdep)
  · intro g' y' hy'
    have := hinv.room g' y' hy'
    rw [count_nil] at this
    rw [hsat g' y' hy']
    omega
  · intro ref
    rw [mem_remove, hinv.best]
    constructor
    · rintro ⟨⟨g', y', hy', rfl, hg', hlen⟩, hkey⟩
      have hne : g' ≠ g := by
        rintro rfl
        rw [hy, some.injEq] at hy'
        subst hy'
        exact hkey rfl
      refine ⟨g', y', hy', rfl, by simp [hne, hg'], ?_⟩
      rw [hsat g' y' hy', ← hlen, count_nil]
      omega
    · rintro ⟨g', y', hy', rfl, hg', hlen⟩
      rw [mem_cons, not_or] at hg'
      rw [hsat g' y' hy'] at hlen
      refine ⟨⟨g', y', hy', rfl, hg'.2, ?_⟩, fun hkey => hg'.1 (hlinked.eq_of_key_eq hy' hy hkey)⟩
      rw [count_nil]
      omega
  · intro g' k ref
    rw [hinv.awaiting]
    refine exists_congr fun y' => and_congr_right fun hy' => and_congr_right fun _ => ?_
    rw [hsat g' y' hy', count_nil]
    constructor
    · rintro ⟨hg', hk, hlt, hoff⟩
      have hne : g' ≠ g := by
        rintro rfl
        rw [hy, some.injEq] at hy'
        subst hy'
        omega
      exact ⟨by simp [hne, hg'], by omega, hlt, hoff⟩
    · rintro ⟨hg', hk, hlt, hoff⟩
      rw [mem_cons, not_or] at hg'
      exact ⟨hg'.2, by omega, hlt, hoff⟩

/-- It ends when nothing can be yielded, and else yields the greatest transaction that can. -/
theorem IterInv.next_cases (hinv : IterInv r done [] it) :
    (it.next = none ∧ ∀ g, ¬CanYield r done g) ∨
      ∃ g y it', r.ready.get? g = some y ∧ it.next = some (y.transaction.transaction, it') ∧
        CanYield r done g ∧ (∀ h, CanYield r done h → r.LeKey h g) ∧ IterInv r (g :: done) [] it' := by
  cases hlast : last? TransactionRef.key it.best with
  | none =>
    have hempty := last?_eq_none.mp hlast
    refine .inl ⟨by simp [BestIterator.next, BestIterator.nextLoop, hempty], ?_⟩
    intro g hcan
    obtain ⟨y, hy⟩ := hcan.1
    have := (hinv.mem_best hlinked hy).mpr hcan
    rw [hempty] at this
    cases this
  | some ref =>
    have hmem := argmax_mem hlast
    obtain ⟨g, y, hy, rfl, _⟩ := (hinv.best ref).mp hmem
    have hcan := (hinv.mem_best hlinked hy).mp hmem
    have hhash : y.transaction.transaction.hash = g := hlinked.keyed g y hy
    refine .inr ⟨g, y, _, hy, ?_, hcan, ?_, (hinv.yield hlinked hy hcan).foldl_unlock hlinked⟩
    · obtain ⟨n, hn⟩ : ∃ n, it.best.length = n + 1 :=
        exists_eq_succ_of_ne_zero (ne_of_gt (length_pos_of_mem hmem))
      simp [BestIterator.next, hn, BestIterator.nextLoop, hlast, hinv.all, hhash, hy]
    · intro h hh x y' hx hy'
      rw [hy, some.injEq] at hy'
      subst hy'
      exact le_of_mem_argmax ((hinv.mem_best hlinked hx).mpr hh) hlast

theorem Inv.ready_of_dep (hdep : r.Dep g h) : ∃ x, r.ready.get? h = some x := by
  obtain ⟨_, t, _, _, hprov⟩ := hdep
  obtain ⟨x, hx, _⟩ := (hlinked.provider t h hprov).resolve_right fun hs => hs.1
  exact ⟨x, hx⟩

/-- From any point on it yields a greedy row, of all transactions if it may go on for long enough.
-/
theorem IterInv.take_spec (hacyclic : DependencyOrder.Acyclic r.Dep) {n : Nat}
    (hinv : IterInv r done [] it) (hn : r.len ≤ n + done.length) :
    (it.take n).2.next = none ∧
      (∀ tx ∈ (it.take n).1, ∃ y, r.ready.get? tx.hash = some y ∧ y.transaction.transaction = tx) ∧
      (∀ g y, r.ready.get? g = some y → g ∈ done ∨ y.transaction.transaction ∈ (it.take n).1) ∧
      DependencyOrder.IsGreedy (fun g => ∃ y, r.ready.get? g = some y) r.Dep r.LeKey done
        ((it.take n).1.map (·.hash)) := by
  -- where nothing can be yielded, nothing is left
  have hdone : ∀ done', (∀ g, ¬CanYield r done' g) → ∀ g y, r.ready.get? g = some y → g ∈ done' := by
    intro done' hnone g y hy
    by_contra hg
    obtain ⟨m, hm⟩ : ∃ m, CanYield r done' m :=
      DependencyOrder.exists_available hacyclic (fun _ _ hdep => hlinked.ready_of_dep hdep) ⟨y, hy⟩ hg
    exact hnone m hm
  induction n generalizing done it with
  | zero =>
    -- as many are done as there are
    have hall : ∀ g y, r.ready.get? g = some y → g ∈ done := by
      intro g y hy
      have hsub : done.Subperm r.ready.keys := subperm_of_subset hinv.nodup fun g hg => by
        obtain ⟨y, hy⟩ := hinv.ready g hg
        exact (r.ready.mem_keys g).mpr (by simp [hy])
      have hperm := hsub.perm_of_length_le (by simpa [len] using hn)
      exact hperm.mem_iff.mpr ((r.ready.mem_keys g).mpr (by simp [hy]))
    rcases hinv.next_cases hlinked with ⟨hnext, _⟩ | ⟨g, y, _, hy, _, hcan, _⟩
    · exact ⟨hnext, by simp [BestIterator.take], fun g y hy => .inl (hall g y hy), trivial⟩
    · exact absurd (hall g y hy) hcan.2.1
  | succ n ih =>
    rcases hinv.next_cases hlinked with ⟨hnext, hnone⟩ | ⟨g, y, it', hy, hnext, hcan, hmax, hinv'⟩
    · simp only [BestIterator.take, hnext]
      exact ⟨trivial, by simp, fun g y hy => .inl (hdone done hnone g y hy), trivial⟩
    obtain ⟨hend, hready, hcomplete, hgreedy⟩ := ih hinv' (by
      simp only [length_cons]
      omega)
    have hhash : y.transaction.transaction.hash = g := hlinked.keyed g y hy
    simp only [BestIterator.take, hnext]
    refine ⟨hend, forall_mem_cons.mpr ⟨⟨y, hhash.symm ▸ hy, rfl⟩, hready⟩, ?_, ?_⟩
    · intro g' y' hy'
      rcases hcomplete g' y' hy' with hmem | hmem
      · rcases mem_cons.mp hmem with rfl | hmem
        · rw [hy, some.injEq] at hy'
          subst hy'
          exact .inr mem_cons_self
        · exact .inl hmem
      · exact .inr (mem_cons_of_mem _ hmem)
    · rw [map_cons, hhash]
      exact ⟨hcan, hmax, hgreedy⟩

/-! ## The specification holds -/

theorem dep_iff_provides {x} (hy : r.ready.get? g = some y) (hx : r.ready.get? h = some x) :
    r.Dep g h ↔ Provides x.transaction.transaction y.transaction.transaction := by
  constructor
  · rintro ⟨y', t, hy', ht, hprov⟩
    rw [hy, some.injEq] at hy'
    subst hy'
    exact ⟨t, hlinked.mem_provides hprov hx, ht⟩
  · rintro ⟨t, htx, hty⟩
    exact ⟨y, t, hy, hty, hlinked.provided h x t hx htx⟩

theorem iteratorCorrect (hacyclic : DependencyOrder.Acyclic r.Dep) : IteratorCorrect r := by
  obtain ⟨hend, hready, hcomplete, hgreedy⟩ :=
    (iterInv_get hlinked).take_spec hlinked hacyclic (le_refl r.len)
  change DependencyOrder.IsGreedy _ r.Dep r.LeKey [] (r.yielded.map (·.hash)) at hgreedy
  -- which hashes are listed before a transaction says which transactions are
  have hmem : ∀ before : List (Transaction H T), before ⊆ r.yielded → ∀ h x,
      r.ready.get? h = some x → (h ∈ before.map (·.hash) ↔ x.transaction.transaction ∈ before) := by
    intro before hsub h x hx
    constructor
    · intro hh
      obtain ⟨tx, htx, rfl⟩ := mem_map.mp hh
      obtain ⟨y, hy, rfl⟩ := hready tx (hsub htx)
      rw [hx, some.injEq] at hy
      subst hy
      exact htx
    · intro hmem
      exact mem_map.mpr ⟨_, hmem, hlinked.keyed h x hx⟩
  have hsplit : ∀ before tx after, r.yielded = before ++ tx :: after →
      CanYield r (before.map (·.hash)).reverse tx.hash ∧
        ∀ h, CanYield r (before.map (·.hash)).reverse h → r.LeKey h tx.hash := by
    intro before tx after heq
    rw [heq, map_append] at hgreedy
    simpa using hgreedy.at_split
  have hsub : ∀ before (tx : Transaction H T) after, r.yielded = before ++ tx :: after →
      before ⊆ r.yielded ∧ tx ∈ r.yielded := by
    intro before tx after heq
    rw [heq]
    exact ⟨subset_append_left _ _, mem_append_right _ mem_cons_self⟩
  refine ⟨hend, ?_, hgreedy.nodup.1, ?_, ?_⟩
  · intro tx
    constructor
    · intro htx
      obtain ⟨y, hy, heq⟩ := hready tx htx
      exact ⟨tx.hash, y, hy, heq⟩
    · rintro ⟨h, x, hx, rfl⟩
      exact (hcomplete h x hx).resolve_left not_mem_nil
  · intro before tx after heq h x hx hprovides
    obtain ⟨y, hy, rfl⟩ := hready tx (hsub before tx after heq).2
    have hdep := (dep_iff_provides hlinked hy hx).mpr hprovides
    have hh := (hsplit before _ after heq).1.2.2 h hdep
    exact (hmem before (hsub before _ after heq).1 h x hx).mp (mem_reverse.mp hh)
  · intro before tx after heq
    obtain ⟨y, hy, rfl⟩ := hready tx (hsub before tx after heq).2
    refine ⟨y, hy, rfl, fun h x hx hnot hproviders => ?_⟩
    have hbefore := hmem before (hsub before _ after heq).1
    refine (hsplit before _ after heq).2 h ⟨⟨x, hx⟩, ?_, ?_⟩ x y hx hy
    · rw [mem_reverse, hbefore h x hx]
      exact hnot
    · intro h' hdep
      obtain ⟨x', hx'⟩ := hlinked.ready_of_dep hdep
      rw [mem_reverse, hbefore h' x' hx']
      exact hproviders h' x' hx' ((dep_iff_provides hlinked hx hx').mp hdep)

end

end ReadyTransactions

end Substrate.TxPool
