import Substrate.BasePoolPanics
import Substrate.BestIteratorOrder

/-!
# Runs of the transaction pool

`Wired` is what every call keeps in a consistent pool, given that each transaction it lets into the
ready queue enters well: the queue is linked and without cycles. The transactions that an import
promotes may form a cycle by pushing out the one the call was made for, and then all of them are
removed again at its end.
-/

namespace Substrate.TxPool

open List

variable {H T : Type} [DecidableEq H] [DecidableEq T]

namespace BasePool

open ReadyTransactions

variable {p p' : BasePool H T}

/-! ## The transactions a call lets in -/

structure Entry (H T : Type) where
  root : H
  queue : ReadyTransactions H T
  tx : Transaction H T

def Entry.Well (e : Entry H T) : Prop := EntersWell e.root e.queue e.tx

/-- What the loop of `import_to_ready` lets in. -/
def loopEntries (root : H) : Nat → ImportState H T → List (Entry H T)
  | 0, _ => []
  | fuel + 1, s => match s.toImport with
    | [] => []
    | tx :: toImport =>
      (match s.pool.ready.importTx tx with
        | (.ok _, _) => [⟨root, s.pool.ready, tx.transaction⟩]
        | _ => []) ++
      (match importNext { s with toImport } tx with
        | .ok s => loopEntries root fuel s
        | _ => [])

def importEntries (p : BasePool H T) (tx : WaitingTransaction H T) : List (Entry H T) :=
  loopEntries tx.transaction.hash (p.future.len + 1) (p.startImport tx)

/-- What the second loop of `prune_tags` lets in. -/
def promoteEntries : List (WaitingTransaction H T) → BasePool H T → List (Entry H T)
  | [], _ => []
  | tx :: toImport, p => p.importEntries tx ++ promoteEntries toImport (p.importToReady tx).2

def entries (p : BasePool H T) : Call H T → List (Entry H T)
  | .importTx tx now =>
    let waiting := WaitingTransaction.new tx p.ready.providedTags p.recentlyPruned now
    if p.isImported tx.hash ∨ ¬waiting.isReady then [] else p.importEntries waiting
  | .pruneTags tags =>
    match pruneEach p.recentlyPrunedIndex tags p.startPrune with
    | some (toImport, _, p) => promoteEntries toImport p
    | none => []
  | _ => []

def runEntries (p : BasePool H T) : List (Call H T) → List (Entry H T)
  | [] => []
  | c :: cs => p.entries c ++ match p.call c with
    | some p => p.runEntries cs
    | none => []

def Call.WellFormed : Call H T → Prop
  | .importTx tx _ => tx.WellFormed
  | _ => True

/-! ## The invariant -/

structure Wired (r : ReadyTransactions H T) : Prop where
  linked : Linked r
  acyclic : DependencyOrder.Acyclic r.Dep

omit [DecidableEq T] in
theorem wired_empty : Wired (empty : ReadyTransactions H T) where
  linked := linked_empty
  acyclic := ⟨fun _ => 0, by rintro g h ⟨y, t, hy, _⟩; cases hy⟩

variable {r : ReadyTransactions H T} {w : WaitingTransaction H T} {tx : Transaction H T}

omit [DecidableEq T] in
theorem Wired.shrink {r'} (h : Wired r) (hlinked : Linked r') (hshrinks : Shrinks r r') :
    Wired r' :=
  ⟨hlinked, h.acyclic.mono fun _ _ hdep => hshrinks.dep hdep⟩

theorem Wired.removeSubtree (h : Wired r) (hs : List H) : Wired (r.removeSubtree hs).2 :=
  h.shrink (linked_removeSubtree h.linked hs)
    ((removal_of_removeSubtree r hs none).shrinks h.linked.mapped)

/-- What the loop of `import_to_ready` keeps, for the transaction `root`. -/
structure LoopInv (root : H) (s : ImportState H T) : Prop where
  linked : Linked s.pool.ready
  first : s.first → s.removed = [] ∧ ∀ w ∈ s.toImport, w.transaction.hash = root
  cycle : DependencyOrder.Acyclic s.pool.ready.Dep ∨ root ∈ s.removed.map (·.hash)
  old : DependencyOrder.Acyclic fun g h =>
    s.pool.ready.Dep g h ∧ g ∉ root :: s.promoted ∧ h ∉ root :: s.promoted
  root_gone : root ∈ s.removed.map (·.hash) →
    s.pool.ready.ready.get? root = none ∨ root ∈ s.promoted

/-! ## The import loop -/

theorem LoopInv.advance {root : H} {outer : List H} {s s' rest} (hinv : LoopInv root s)
    (hflow : Flow Transaction.WellFormed outer s) (hstack : s.toImport = w :: rest)
    (hadv : Advance s s') (hent : ∀ replaced r', s.pool.ready.importTx w = (.ok replaced, r') →
      EntersWell root s.pool.ready w.transaction) : LoopInv root s' := by
  have hwstack : w ∈ s.toImport := hstack ▸ mem_cons_self
  obtain ⟨hwready, hwf⟩ := hflow.stack w hwstack
  have hnew := (hflow.pool.absent w.transaction.hash (by simp [hstack])).1
  cases hadv with
  | refused _ _ _ _ =>
    exact
      { linked := linked_bump hinv.linked
        first := by simp
        cycle := hinv.cycle
        old := hinv.old
        root_gone := hinv.root_gone }
  | @entered v rest' became future removed unlocks r1 r' hstack' hrefuses _ hrep hins =>
    obtain ⟨rfl, rfl⟩ := List.cons.inj (hstack.symm.trans hstack')
    have hent' : EntersWell root s.pool.ready.bump w.transaction := by
      rcases importTx_ready_cases hwready hflow.pool.mapped hnew with
        ⟨hyes, _⟩ | ⟨_, ⟨_, _, _, _, himport, _⟩ | ⟨_, t, hreq, hprov, _⟩⟩
      · exact absurd hyes hrefuses
      · have h := hent _ _ himport
        exact ⟨h.unlisted, h.provided, h.acyclic⟩
      · exact absurd hprov (hwf.2.2 hreq)
    have hbump := linked_bump hinv.linked
    have hready := fun g => get?_ne_none_insert hflow.pool.mapped.bump hrep hins (g := g)
    have hgone : ∀ g, s.pool.ready.ready.get? g = none → g ≠ w.transaction.hash →
        r'.ready.get? g = none := by
      intro g hg hne
      by_contra hsome
      rcases (hready g).mp hsome with heq | ⟨hwas, _⟩
      · exact hne heq
      · exact hwas hg
    -- the new transaction is the root or counts as promoted
    have hnow : ∀ k, k ∉ root :: (if s.first then s.promoted else
        s.promoted ++ [w.transaction.hash]) → k ≠ w.transaction.hash ∧ k ∉ root :: s.promoted := by
      intro k hk
      by_cases hfirst : s.first = true
      · rw [if_pos hfirst] at hk
        refine ⟨?_, hk⟩
        rintro rfl
        exact hk (by simp [(hinv.first hfirst).2 w hwstack])
      · rw [if_neg hfirst] at hk
        simp only [mem_cons, mem_append, not_mem_nil, or_false, not_or] at hk ⊢
        exact ⟨hk.2.2, hk.1, hk.2.1⟩
    exact
      { linked := linked_insert hbump hwf hnew
          (fun h x hx => Nat.lt_succ_of_le (hinv.linked.id_le h x hx)) hent' hrep hins
        first := by simp
        cycle := by
          rw [map_append, mem_append]
          rcases hinv.cycle with hacyclic | hmem
          · by_cases hroot : root ∈ removed.map (·.hash)
            · exact .inr (.inr hroot)
            · refine .inl (acyclic_insert hbump hwf hnew hent' hrep hins hacyclic fun hnone => ?_)
              rw [hrep.removal.mem_removed_iff hbump.keyed, not_and'] at hroot
              exact not_not.mp (hroot hnone)
          · exact .inr (.inl hmem)
        old := by
          refine hinv.old.mono ?_
          rintro g h ⟨hgh, hg, hh⟩
          obtain ⟨hgw, hg⟩ := hnow g hg
          obtain ⟨hhw, hh⟩ := hnow h hh
          rcases Inserted.dep_cases hbump hwf hnew hent' hrep hins hgh with
            ⟨heq, _⟩ | ⟨_, heq, _⟩ | ⟨_, _, hdep⟩
          · exact absurd heq hgw
          · exact absurd heq hhw
          · exact ⟨hdep, hg, hh⟩
        root_gone := by
          intro hmem
          rw [map_append, mem_append] at hmem
          rcases hmem with hmem | hmem
          · have hfirst : ¬s.first = true := by
              intro hfirst
              rw [(hinv.first hfirst).1] at hmem
              cases hmem
            rw [if_neg hfirst]
            by_cases heq : root = w.transaction.hash
            · exact .inr (by simp [heq])
            · exact (hinv.root_gone hmem).imp (fun hnone => hgone root hnone heq)
                fun hmem => mem_append_left _ hmem
          · left
            have hwas := ((hrep.removal.mem_removed_iff hbump.keyed root).mp hmem).1
            by_contra hsome
            rcases (hready root).mp hsome with heq | ⟨_, hnot⟩
            · exact hwas (heq ▸ hnew)
            · exact hnot hmem }

theorem importToReady_wired {outer : List H}
    (hinv : Consistent Transaction.WellFormed (w.transaction.hash :: outer) p) (hready : w.isReady)
    (hwf : w.transaction.WellFormed) (hwired : Wired p.ready)
    (hent : ∀ e ∈ p.importEntries w, e.Well) (hne : (p.importToReady w).1 ≠ .panic) :
    Wired (p.importToReady w).2.ready := by
  have hflow := flow_start hinv hready hwf
  have hstart : LoopInv w.transaction.hash (p.startImport w) :=
    { linked := hwired.linked
      first := by simp [startImport]
      cycle := .inl hwired.acyclic
      old := hwired.acyclic.mono fun _ _ h => h.1
      root_gone := by simp [startImport] }
  unfold importToReady at hne ⊢
  rcases importLoop_cases (P := fun fuel s => LoopInv w.transaction.hash s ∧
      ∀ e ∈ loopEntries w.transaction.hash fuel s, e.Well)
    (fun fuel s s' v rest hstack hnext hflow hP hadv => by
      obtain ⟨hinv, hent⟩ := hP
      simp only [loopEntries, hstack, hnext] at hent
      refine ⟨hinv.advance hflow hstack hadv fun replaced r' himport => ?_, fun e he =>
        hent e (mem_append_right _ he)⟩
      refine hent ⟨_, s.pool.ready, v.transaction⟩ (mem_append_left _ ?_)
      rw [himport]
      exact mem_cons_self)
    hflow ⟨hstart, hent⟩ startImport_fuel with ⟨_, _, _, _, _, _, _, _, hloop, -⟩ |
      ⟨-, ⟨s, hloop, -, -, _, hs, -⟩ | ⟨hloop, -⟩⟩
  all_goals rw [hloop] at hne ⊢
  · exact ⟨linked_bump hwired.linked, hwired.acyclic⟩
  · have hany : (s.removed.any fun tx => decide (tx.hash = w.transaction.hash)) = true ↔
        w.transaction.hash ∈ s.removed.map (·.hash) := by
      simp
    dsimp only
    split
    · -- the root was pushed out: what was promoted is removed again
      rename_i hroot
      have hrem := removal_of_removeSubtree s.pool.ready s.promoted none
      have hlinked := linked_removeSubtree hs.linked s.promoted
      have hleft : ∀ g, (s.pool.ready.removeSubtree s.promoted).2.ready.get? g ≠ none →
          g ∉ w.transaction.hash :: s.promoted := by
        intro g hg hmem
        have hpromoted : g ∉ s.promoted := fun hmem => hg (hrem.gone g (mem_reverse.mpr hmem))
        rcases mem_cons.mp hmem with rfl | hmem
        · rcases hs.root_gone (hany.mp hroot) with hnone | hmem
          · exact hg (hrem.get?_eq_none hnone)
          · exact hpromoted hmem
        · exact hpromoted hmem
      refine ⟨hlinked, hs.old.mono fun g h hdep => ⟨?_, hleft g ?_, hleft h ?_⟩⟩
      · exact (hrem.shrinks hs.linked.mapped).dep hdep
      · obtain ⟨y, _, hy, _⟩ := hdep
        exact Option.ne_none_iff_exists'.mpr ⟨y, hy⟩
      · exact Option.ne_none_iff_exists'.mpr (hlinked.ready_of_dep hdep)
    · rename_i hroot
      exact ⟨hs.linked, hs.cycle.resolve_right fun hmem => hroot (hany.mpr hmem)⟩
  · exact absurd rfl hne

/-! ## The calls -/

theorem importTx_wired {now : Nat} (hinv : Consistent Transaction.WellFormed [] p)
    (hwf : tx.WellFormed) (hwired : Wired p.ready)
    (hent : ∀ e ∈ p.entries (.importTx tx now), e.Well) (hne : (p.importTx tx now).1 ≠ .panic) :
    Wired (p.importTx tx now).2.ready := by
  unfold importTx at hne ⊢
  split
  · exact hwired
  rename_i himported
  rw [if_neg himported] at hne
  dsimp only at hne ⊢
  split
  · rename_i hready
    rw [if_pos hready] at hne
    refine importToReady_wired (hinv.launch himported) hready hwf hwired (fun e he => hent e ?_) hne
    simp only [entries, himported, hready, not_true_eq_false, Bool.false_eq_true, or_self, if_false]
    exact he
  · split
    · exact hwired
    · split <;> exact hwired

omit [DecidableEq H] in
theorem harmless_of_wellFormed (hwf : tx.WellFormed) : tx.Harmless :=
  ⟨fun _ ha _ _ _ => count_eq_one_of_mem hwf.2.1 ha, .inr fun _ ht hmem => hwf.2.2 ht hmem⟩

omit [DecidableEq H] [DecidableEq T] in
theorem Call.WellFormed.only {c : Call H T} (hwf : c.WellFormed) : c.Only Transaction.WellFormed := by
  cases c <;> exact hwf

theorem call_wired {c} (hinv : Consistent Transaction.WellFormed [] p) (hwf : c.WellFormed)
    (hwired : Wired p.ready) (hent : ∀ e ∈ p.entries c, e.Well) (hcall : p.call c = some p') :
    Wired p'.ready := by
  cases c with
  | importTx tx now =>
    obtain ⟨hne, rfl⟩ := call_importTx.mp hcall
    exact importTx_wired hinv hwf hwired hent hne
  | removeSubtree hs =>
    cases hcall
    exact hwired.removeSubtree hs
  | pruneTags tags =>
    obtain ⟨toImport, gone, p1, heach, promoted, failed, hpromote⟩ := call_pruneTags.mp hcall
    obtain ⟨hcons, hwired1, hready⟩ := pruneEach_keeps (P := fun _ p => Wired p.ready)
      (fun flight q hinv hq tag _ became future gone ready _ hpr =>
        hq.shrink (hpr.linked hq.linked) (hpr.shrinks hinv.mapped)) hinv.startPrune hwired heach
    simp only [entries, heach] at hent
    exact (promoteEach_keeps
      (P := fun toImport p => Wired p.ready ∧ ∀ e ∈ promoteEntries toImport p, e.Well)
      (fun w toImport p hinv hready hwf hP hne =>
        ⟨importToReady_wired hinv hready hwf hP.1 (fun e he => hP.2 e (mem_append_left _ he))
          hne, fun e he => hP.2 e (mem_append_right _ he)⟩)
      hcons hready ⟨hwired1, hent⟩ hpromote).2.1
  | enforceLimits ready future =>
    cases hcall
    exact enforceFuture_keeps (P := fun p => Wired p.ready) (fun _ _ _ hw => hw.removeSubtree _)
      (enforceReady_keeps (P := fun p => Wired p.ready) (fun _ _ _ hw => hw.removeSubtree _) hwired)
  | clearFuture =>
    cases hcall
    exact hwired

/-- **Every run** whose transactions enter well returns, with the queue wired. -/
theorem calls_wired {cs : List (Call H T)} (hinv : Consistent Transaction.WellFormed [] p)
    (hwired : Wired p.ready) (hwf : ∀ c ∈ cs, c.WellFormed)
    (hent : ∀ e ∈ p.runEntries cs, e.Well) : ∃ p', p.calls cs = some p' ∧ Wired p'.ready := by
  induction cs generalizing p with
  | nil => exact ⟨p, rfl, hwired⟩
  | cons c cs ih =>
    obtain ⟨hc, hcs⟩ := forall_mem_cons.mp hwf
    have hharmless : c.Only Transaction.Harmless := by
      cases c with
      | importTx tx now => exact harmless_of_wellFormed hc
      | _ => trivial
    obtain ⟨p1, hcall⟩ := Option.ne_none_iff_exists'.mp
      (call_ne_none (hinv.mono fun _ => harmless_of_wellFormed) hharmless)
    have hwired1 := call_wired hinv hc hwired (fun e he => hent e (mem_append_left _ he)) hcall
    simp only [runEntries, hcall] at hent
    obtain ⟨p', hcalls, hwired'⟩ := ih (call_consistent hinv hc.only hcall) hwired1 hcs
      fun e he => hent e (mem_append_right _ he)
    exact ⟨p', by simp only [calls, hcall, Option.bind_some, hcalls], hwired'⟩

/-! ## The iterator of a reachable pool -/

/-- **The ready iterator respects dependencies** in every pool that calls lead to,
if every transaction they let into the ready queue enters well. -/
theorem ready_iterator_correct (reject : Bool) (cs : List (Call H T))
    (hwf : ∀ c ∈ cs, c.WellFormed) (hent : ∀ e ∈ (new reject).runEntries cs, e.Well) :
    ∃ p, (new reject).calls cs = some p ∧ IteratorCorrect p.ready := by
  obtain ⟨p, heq, hwired⟩ := calls_wired (consistent_new _ reject) wired_empty hwf hent
  exact ⟨p, heq, iteratorCorrect hwired.linked hwired.acyclic⟩

/-- None of the transactions it waits for waits for another. -/
def Entry.Shallow (e : Entry H T) : Prop :=
  (∀ h ∈ e.queue.ready.keys, ∀ x ∈ e.queue.ready.get? h, e.tx.hash ∉ x.unlocks) ∧
    (∀ t ∈ e.tx.provides, ∀ g ∈ e.queue.ready.keys, ∀ y ∈ e.queue.ready.get? g,
      t ∈ y.requires → e.queue.providedTags.get? t ≠ none) ∧
    ∀ t ∈ e.tx.requires, ∀ p ∈ e.queue.providedTags.get? t, ∀ y ∈ e.queue.ready.get? p,
      ∀ t' ∈ y.requires, e.queue.providedTags.get? t' = none

instance (e : Entry H T) : Decidable e.Shallow := inferInstanceAs (Decidable (_ ∧ _ ∧ _))

omit [DecidableEq H] [DecidableEq T] in
theorem Entry.Shallow.well {e : Entry H T} (h : e.Shallow) : e.Well := by
  have hkey : ∀ g y, e.queue.ready.get? g = some y → g ∈ e.queue.ready.keys := fun g y hy =>
    (e.queue.ready.mem_keys g).mpr (by simp [hy])
  refine ⟨?_, ?_, ?_⟩
  · exact fun g x hx => h.1 g (hkey g x hx) x hx
  · exact fun t ht g y hy hreq => h.2.1 t ht g (hkey g y hy) y hy hreq
  · intro t ht p hp g x _ _ _ htrans
    obtain ⟨k, hpk⟩ := Relation.TransGen.head'_iff.mp htrans
    obtain ⟨y, t', hy, ht', hprov⟩ := hpk.1
    rw [h.2.2 t ht p hp y hy t' ht'] at hprov
    cases hprov

/-- A transaction and one that waits for it, a replacement of the first, and one
that waits for a tag until this is pruned. -/
def exampleCalls : List (Call Nat Nat) :=
  [.importTx ⟨1, 1, 5, 64, [], [1]⟩ 0, .importTx ⟨1, 2, 5, 64, [1], [2]⟩ 1,
    .importTx ⟨1, 3, 9, 64, [], [1, 3]⟩ 2, .importTx ⟨1, 4, 5, 64, [7], [4]⟩ 3, .pruneTags [7]]

theorem exampleCalls_iterator_correct :
    ∃ p, (new false).calls exampleCalls = some p ∧ IteratorCorrect p.ready :=
  ready_iterator_correct false exampleCalls
    (by simp [exampleCalls, Call.WellFormed, Transaction.WellFormed])
    (fun e he => Entry.Shallow.well (by revert e he; decide))

def reimportCalls : List (Call Nat Nat) :=
  [.importTx ⟨1, 1, 10, 64, [], [1]⟩ 0, .importTx ⟨1, 3, 1, 64, [], [3]⟩ 1,
    .importTx ⟨1, 2, 5, 64, [1, 3], [2]⟩ 2, .removeSubtree [2],
    .importTx ⟨1, 2, 5, 64, [1, 3], [2]⟩ 3]

/-- The removed transaction stays listed in the `unlocks` of the two it waited for, and is listed
twice after its second import: unlocked twice by the first, it is yielded before the other one. -/
theorem doubled_link_breaks_order : (∀ c ∈ reimportCalls, c.WellFormed) ∧
    ∃ p, (new false).calls reimportCalls = some p ∧ ¬IteratorCorrect p.ready := by
  have hrun : ((new false).calls reimportCalls).map (fun p =>
      (p.ready.yielded, (p.ready.ready.get? 3).map (·.transaction.transaction))) =
      some ([⟨1, 1, 10, 64, [], [1]⟩, ⟨1, 2, 5, 64, [1, 3], [2]⟩, ⟨1, 3, 1, 64, [], [3]⟩],
        some ⟨1, 3, 1, 64, [], [3]⟩) := by
    decide
  obtain ⟨p, hp, hrow⟩ := Option.map_eq_some_iff.mp hrun
  obtain ⟨hyielded, hready⟩ := Prod.mk.inj hrow
  obtain ⟨x, hx, htx⟩ := Option.map_eq_some_iff.mp hready
  refine ⟨by simp [reimportCalls, Call.WellFormed, Transaction.WellFormed], p, hp, fun hcorrect => ?_⟩
  have hbefore := hcorrect.ordered [_] _ [_] hyielded 3 x hx ⟨3, by simp [htx], by simp⟩
  rw [htx] at hbefore
  simp at hbefore

end BasePool

end Substrate.TxPool
