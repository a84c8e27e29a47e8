import Substrate.BasePoolConsistent

/-!
# What an import does to the set of transactions

An import that succeeds reports every transaction that leaves the pool by it: the loop of
`import_to_ready` only moves transactions between the queues and its stack, except for those it
removes or fails to promote. One that is refused should leave the queues alone. It does not if the
refused transaction provides the last missing tags of a waiting one: `satisfy_tags` has taken that
out of the future queue before the priority is looked at.
-/

namespace Substrate.TxPool

open List WaitingTransaction Option

variable {H T : Type} [DecidableEq T]

namespace BasePool

open ReadyTransactions

variable {p p' : BasePool H T} {Q : Transaction H T → Prop}
  {outer : List H} {w : WaitingTransaction H T} {tx : Transaction H T} {now : Nat}

/-! ## The account of the import loop -/

/-- The hashes of the pool and of the stack are those at the start, with `root`, less those reported
so far. -/
def Accounted (p : BasePool H T) (root : H) (s : ImportState H T) : Prop :=
  ∀ h, (s.pool.isImported h ∨ h ∈ hashes s.toImport) ↔
    (p.isImported h ∨ h = root) ∧ h ∉ s.removed.map (·.hash) ∧ h ∉ s.failed

variable {became : List (WaitingTransaction H T)} {future : FutureTransactions H T}
  {s : ImportState H T}

theorem struck_hashes {tags : List T} {future'} (hinv : future.Inv)
    (hstruck : future.Struck tags became future') (h : H) :
    future.waiting.get? h ≠ none ↔ future'.waiting.get? h ≠ none ∨ h ∈ hashes became := by
  rw [hstruck.waiting]
  constructor
  · intro hne
    obtain ⟨w, hw⟩ := ne_none_iff_exists'.mp hne
    rw [hw, bind_some]
    cases hstrike : w.strike tags with
    | some w' => exact .inl (by simp)
    | none =>
      refine .inr (mem_map.mpr ⟨w.readied, (hstruck.became _).mpr ⟨h, w, hw, hstrike, rfl⟩, ?_⟩)
      exact hinv.keyed h w hw
  · rintro (hne | hmem)
    · intro hnone
      rw [hnone] at hne
      exact hne rfl
    · obtain ⟨w', hw', rfl⟩ := mem_map.mp hmem
      obtain ⟨g, w, hw, _, rfl⟩ := (hstruck.became w').mp hw'
      have hkey : w.readied.transaction.hash = g := hinv.keyed g w hw
      rw [hkey, hw]
      simp

omit [DecidableEq T] in
theorem Flow.places {rest} (hflow : Flow Q outer s) (hstack : s.toImport = w :: rest) (h : H) :
    (h = w.transaction.hash → h ∉ hashes rest) ∧ (h = w.transaction.hash ∨ h ∈ hashes rest →
        s.pool.ready.ready.get? h = none ∧ s.pool.future.waiting.get? h = none) ∧
      (s.pool.future.waiting.get? h ≠ none → s.pool.ready.ready.get? h = none) := by
  have hpool := hflow.pool
  rw [hstack, hashes, map_cons] at hpool
  obtain ⟨hnot, _⟩ := nodup_cons.mp hpool.nodup
  refine ⟨?_, fun hh => hpool.absent h ?_, fun hne => ?_⟩
  · rintro rfl hmem
    exact hnot (mem_append_left _ hmem)
  · rcases hh with rfl | hh
    · exact mem_cons_self
    · exact mem_cons_of_mem _ (mem_append_left _ hh)
  · obtain ⟨v, hv⟩ := ne_none_iff_exists'.mp hne
    exact hpool.apart h v hv

variable [DecidableEq H]

theorem Accounted.advance {root : H} {s'} (hacc : Accounted p root s) (hflow : Flow Q outer s)
    (hadv : Advance s s') : Accounted p root s' := by
  intro h
  have hold := hacc h
  cases hadv with
  | @refused w rest became future hstack _ hstruck _ =>
    obtain ⟨honce, hflight, _⟩ := hflow.places hstack h
    have hmoved := struck_hashes hflow.pool.future hstruck h
    rw [isImported_iff, hstack, hashes, map_cons] at hold
    rw [isImported_iff]
    simp only [bump, hashes, map_append, map_reverse, mem_append, mem_reverse, mem_singleton]
    grind
  | @entered w rest became future removed unlocks r1 r' hstack _ hstruck hrep hins =>
    obtain ⟨honce, hflight, hapart⟩ := hflow.places hstack h
    have hmoved := struck_hashes hflow.pool.future hstruck h
    have hready := get?_ne_none_insert hflow.pool.mapped.bump hrep hins (g := h)
    have hgone : h ∈ removed.map (·.hash) → s.pool.ready.ready.get? h ≠ none := fun hmem =>
      ((hrep.removal.mem_removed_iff hflow.pool.mapped.keyed h).mp hmem).1
    change _ ↔ _ ∨ s.pool.ready.ready.get? h ≠ none ∧ _ at hready
    rw [isImported_iff, hstack, hashes, map_cons] at hold
    rw [isImported_iff]
    simp only [hashes, map_append, map_reverse, mem_append, mem_reverse]
    grind

/-! ## Imports that lose nothing -/

def SameTransactions (p p' : BasePool H T) : Prop :=
  ∀ h, (p'.ready.ready.get? h).map (·.transaction.transaction) =
      (p.ready.ready.get? h).map (·.transaction.transaction) ∧
    (p'.future.waiting.get? h).map (·.transaction) = (p.future.waiting.get? h).map (·.transaction)

/-- What the import of `tx` reports is what the pool has lost. -/
def NothingLost (p : BasePool H T) (tx : Transaction H T) (now : Nat) : Prop :=
  match p.importTx tx now with
  | (.ok (.ready hash _ failed removed), p') => ∀ h, p'.isImported h ↔
      (p.isImported h ∨ h = hash) ∧ h ∉ removed.map (·.hash) ∧ h ∉ failed
  | (.ok (.future hash), p') => ∀ h, p'.isImported h ↔ p.isImported h ∨ h = hash
  | (.err .cycleDetected, _) => True
  | (.err _, p') => SameTransactions p p'
  | (.panic, _) => True

/-- The import of `tx` is refused for its priority, and a waiting transaction
misses nothing but tags that `tx` provides. -/
def RefusedForWaiting (p : BasePool H T) (tx : Transaction H T) (now : Nat) : Prop :=
  ¬p.isImported tx.hash ∧
    (WaitingTransaction.new tx p.ready.providedTags p.recentlyPruned now).isReady ∧
    p.ready.Refuses tx ∧
    ∃ h w, p.future.waiting.get? h = some w ∧ w.missingTags ⊆ tx.provides

omit [DecidableEq H] in
theorem sameTransactions_refused {tags : List T} (hstruck : p.future.Struck tags became future) :
    SameTransactions p { p with future, ready := p.ready.bump } ↔
      ¬∃ h w, p.future.waiting.get? h = some w ∧ w.missingTags ⊆ tags := by
  constructor
  · rintro hsame ⟨h, w, hw, hsub⟩
    have hh := (hsame h).2
    simp only [hstruck.waiting, hw, bind_some, strike_eq_none.mpr hsub, map_none, map_some] at hh
    cases hh
  · intro hnone h
    refine ⟨rfl, ?_⟩
    simp only [hstruck.waiting]
    cases hw : p.future.waiting.get? h with
    | none => rfl
    | some w =>
      cases hstrike : w.strike tags with
      | none => exact absurd ⟨h, w, hw, strike_eq_none.mp hstrike⟩ hnone
      | some w' =>
        simp [hstrike, (strike_eq_some hstrike).1]

theorem nothingLost_of_isImported (himported : p.isImported tx.hash = true) :
    NothingLost p tx now := by
  simp only [NothingLost, importTx, himported, if_true]
  exact fun h => ⟨rfl, rfl⟩

theorem nothingLost_of_not_isReady (hinv : Consistent Q [] p) (hnew : ¬p.isImported tx.hash = true)
    (hready : ¬(WaitingTransaction.new tx p.ready.providedTags p.recentlyPruned now).isReady) :
    NothingLost p tx now := by
  simp only [NothingLost, importTx, hnew, hready, Bool.false_eq_true, if_false]
  by_cases hreject : p.rejectFutureTransactions = true
  · simp only [hreject, if_true]
    exact fun h => ⟨rfl, rfl⟩
  obtain ⟨future, heq, _, _, hcases⟩ := FutureTransactions.importTx_spec hinv.future
    hinv.listed hready (not_isImported_iff.mp hnew).2
  simp only [hreject, Bool.false_eq_true, if_false, heq]
  intro h
  rw [isImported_iff, isImported_iff]
  simp only [ne_none_iff_exists', hcases, WaitingTransaction.new_transaction]
  by_cases hh : h = tx.hash <;> simp [hh]

theorem nothingLost_iff_of_isReady (hinv : Consistent Q [] p) (hQ : Q tx)
    (hnew : ¬p.isImported tx.hash = true)
    (hready : (WaitingTransaction.new tx p.ready.providedTags p.recentlyPruned now).isReady) :
    NothingLost p tx now ↔ ¬(p.ready.Refuses tx ∧
      ∃ h w, p.future.waiting.get? h = some w ∧ w.missingTags ⊆ tx.provides) := by
  have hflow := flow_start (hinv.launch hnew) hready hQ
  simp only [NothingLost, importTx, hnew, hready, Bool.false_eq_true, if_false, if_true,
    importToReady]
  rcases importLoop_cases (P := fun _ => Accounted p tx.hash)
    (fun _ _ _ _ _ _ _ hflow hacc hadv => hacc.advance hflow hadv) hflow
    (fun _ => by simp [startImport]) startImport_fuel with
    ⟨v, rest, became, future, hstack, -, hrefuses, hstruck, hloop, -⟩ | ⟨hnot, hcases⟩
  · rw [hloop]
    cases hstack
    rw [and_iff_right (show p.ready.Refuses tx from hrefuses)]
    exact sameTransactions_refused hstruck
  have hnot : ¬p.ready.Refuses tx := hnot _ rfl rfl
  simp only [hnot, false_and, not_false_eq_true, iff_true]
  rcases hcases with ⟨s, hloop, -, hempty, _, hacc⟩ | ⟨hloop, -⟩
  · rw [hloop]
    dsimp only
    split
    · rename_i heq
      split at heq
      · cases heq
      cases heq
      intro h
      have := hacc h
      rw [hempty] at this
      simpa using this
    · rename_i heq
      split at heq <;> cases heq
    · trivial
    · rename_i hne heq
      split at heq
      · cases heq
        exact absurd rfl hne
      · cases heq
    · trivial
  · rw [hloop]
    trivial

/-- **No import loses a transaction silently** except where it is refused for its priority and a
waiting transaction misses nothing but tags that it provides: then that one is lost. -/
theorem import_loses_nothing_iff (reject : Bool) (cs : List (Call H T)) (p : BasePool H T)
    (hcalls : (new reject).calls cs = some p) (tx : Transaction H T) (now : Nat) :
    NothingLost p tx now ↔ ¬RefusedForWaiting p tx now := by
  have hinv : Consistent (fun _ => True) [] p :=
    calls_consistent (consistent_new _ reject) (fun c _ => by cases c <;> trivial) hcalls
  by_cases himported : p.isImported tx.hash = true
  · refine iff_of_true (nothingLost_of_isImported himported) ?_
    rintro ⟨hnew, _⟩
    exact hnew himported
  by_cases hready :
    (WaitingTransaction.new tx p.ready.providedTags p.recentlyPruned now).isReady = true
  · rw [nothingLost_iff_of_isReady hinv trivial himported hready, not_iff_not]
    exact ⟨fun h => ⟨himported, hready, h⟩, fun h => h.2.2⟩
  · refine iff_of_true (nothingLost_of_not_isReady hinv himported hready) ?_
    rintro ⟨_, hr, _⟩
    exact hready hr

/-- A pool in which transaction 2 waits for tag 20 and transaction 1 provides tag
10 with priority 5. -/
def waitingPool : List (Call Nat Nat) :=
  [.importTx ⟨1, 1, 5, 64, [], [10]⟩ 0, .importTx ⟨1, 2, 1, 64, [20], [30]⟩ 0]

/-- Transaction 3 provides both tags with priority 1. -/
theorem refused_import_drops_waiting : ∃ p, (new false).calls waitingPool = some p ∧
    (p.importTx ⟨1, 3, 1, 64, [], [10, 20]⟩ 0).1 = .err (.tooLowPriority 5 1) ∧
    ¬NothingLost p ⟨1, 3, 1, 64, [], [10, 20]⟩ 0 := by
  refine ⟨_, rfl, by decide, fun hlost => ?_⟩
  exact absurd (hlost 2).2 (by decide)

/-- With tag 20 alone the import succeeds and unlocks transaction 2. -/
theorem accepted_import_keeps_waiting : ∃ p, (new false).calls waitingPool = some p ∧
    NothingLost p ⟨1, 3, 1, 64, [], [20]⟩ 0 := by
  refine ⟨_, rfl, (import_loses_nothing_iff false waitingPool _ rfl _ _).mpr ?_⟩
  rintro ⟨_, _, hrefuses, _⟩
  exact absurd hrefuses (by decide)

/-- **The indices of the queues are exact** in every pool that calls lead to, and the queues do not
overlap. -/
theorem queues_indexed_exactly (reject : Bool) (cs : List (Call H T)) (p : BasePool H T)
    (hcalls : (new reject).calls cs = some p) :
    (∀ t h, p.ready.providedTags.get? t = some h ↔
      ∃ x, p.ready.ready.get? h = some x ∧ t ∈ x.provides) ∧
    (∀ t h, (∃ hashes, p.future.wantedTags.get? t = some hashes ∧ h ∈ hashes) ↔
      ∃ w, p.future.waiting.get? h = some w ∧ t ∈ w.missingTags) ∧
    ∀ h w, p.future.waiting.get? h = some w → p.ready.ready.get? h = none ∧ w.missingTags ≠ [] ∧
      ∀ t ∈ w.missingTags, p.ready.providedTags.get? t = none := by
  have hinv : Consistent (fun _ => True) [] p :=
    calls_consistent (consistent_new _ reject) (fun c _ => by cases c <;> trivial) hcalls
  refine ⟨fun t h => ⟨hinv.mapped.ready_of_provided t h, ?_⟩, fun t h => ⟨?_, ?_⟩, fun h w hw =>
    ⟨hinv.apart h w hw, hinv.listed.missing h w hw, hinv.unprovided h w hw⟩⟩
  · rintro ⟨x, hx, ht⟩
    exact hinv.mapped.provided h x t hx ht
  · rintro ⟨hashes, hwanted, hh⟩
    exact hinv.future.wanted t hashes hwanted h hh
  · rintro ⟨w, hw, ht⟩
    exact hinv.listed.listed h w hw t ht

theorem queues_indexed_exactly_waiting : ∃ p, (new false).calls waitingPool = some p ∧
    ∃ hashes, p.future.wantedTags.get? 20 = some hashes ∧ 2 ∈ hashes := by
  refine ⟨_, rfl, ((queues_indexed_exactly false waitingPool _ rfl).2.1 20 2).mpr ⟨_, rfl, ?_⟩⟩
  decide

end BasePool

end Substrate.TxPool
