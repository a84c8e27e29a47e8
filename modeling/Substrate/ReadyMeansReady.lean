import Substrate.BasePoolPanics
import Substrate.ReadyRequirements

/-!
# Ready means ready, over runs

`Satisfied` extends what is met in the ready queue to the transactions that wait and to those that a
call has in flight: every required tag is still missing, or provided, or has been pruned. An import
keeps it, since it never loses a tag; a removal and a pruning keep it if no waiting transaction
relies on a tag that goes.
-/

namespace Substrate.TxPool

open List WaitingTransaction ReadyTx

variable {H T : Type} [DecidableEq H]

namespace BasePool

open ReadyTransactions

variable {p p' : BasePool H T} {Q : Transaction H T → Prop} {pruned : List T}
  {flight : List (WaitingTransaction H T)}

structure Satisfied (pruned : List T) (flight : List (WaitingTransaction H T))
    (p : BasePool H T) : Prop where
  met : Met pruned p.ready
  recent : ∀ tags ∈ p.recentlyPruned, ∀ t ∈ tags, t ∈ pruned
  missing : ∀ h w, p.future.waiting.get? h = some w → ∀ t ∈ w.missingTags, t ∈ w.transaction.requires
  waiting : ∀ h w, p.future.waiting.get? h = some w → ∀ t ∈ w.transaction.requires,
    t ∈ w.missingTags ∨ t ∈ pruned ∨ p.ready.providedTags.get? t ≠ none
  inFlight : ∀ w ∈ flight, ∀ t ∈ w.transaction.requires,
    t ∈ pruned ∨ p.ready.providedTags.get? t ≠ none

section

omit [DecidableEq H]

theorem satisfied_new (reject : Bool) : Satisfied [] [] (new reject : BasePool H T) where
  met := ⟨by simp [new, empty], by simp [new, empty]⟩
  recent := by
    intro tags htags t ht
    rw [eq_of_mem_replicate htags] at ht
    cases ht
  missing _ _ hw := by cases hw
  waiting _ _ hw := by cases hw
  inFlight := by simp

theorem Satisfied.mono {pruned' : List T} (hsat : Satisfied pruned flight p)
    (hsub : ∀ t ∈ pruned, t ∈ pruned') : Satisfied pruned' flight p where
  met := hsat.met.mono hsub
  recent := fun tags htags t ht => hsub t (hsat.recent tags htags t ht)
  missing := hsat.missing
  waiting := fun h w hw t ht => (hsat.waiting h w hw t ht).imp_right (Or.imp_left (hsub t))
  inFlight := fun w hw t ht => (hsat.inFlight w hw t ht).imp_left (hsub t)

end

/-! ## Imports -/

def Needed (flight : List (WaitingTransaction H T)) (p : BasePool H T) (t : T) : Prop :=
  (∃ h w, p.future.waiting.get? h = some w ∧ t ∈ w.transaction.requires) ∨
    ∃ w ∈ flight, t ∈ w.transaction.requires

variable {became : List (WaitingTransaction H T)} {tags : List T} {removed : List (Transaction H T)}
  {future : FutureTransactions H T}

variable [DecidableEq T]

omit [DecidableEq H] in
/-- Those that waited for `tags` are struck for them, and no tag that is needed gets lost. -/
theorem Satisfied.struck {q flight'} (hsat : Satisfied pruned flight p)
    (hstruck : p.future.Struck tags became q.future) (hmet : Met pruned q.ready)
    (hrecent : ∀ ts ∈ q.recentlyPruned, ∀ t ∈ ts, t ∈ pruned)
    (htags : ∀ t ∈ tags, t ∈ pruned ∨ q.ready.providedTags.get? t ≠ none)
    (hkeep : ∀ t, Needed flight p t → p.ready.providedTags.get? t ≠ none →
      t ∈ pruned ∨ q.ready.providedTags.get? t ≠ none)
    (hflight : ∀ v ∈ flight', v ∈ flight ∨ v ∈ became) : Satisfied pruned flight' q where
  met := hmet
  recent := hrecent
  missing := by
    intro h v' hv' t ht
    obtain ⟨v, hv, htx, _, hmiss⟩ := hstruck.of_get? hv'
    rw [htx]
    exact hsat.missing h v hv t ((hmiss t).mp ht).1
  waiting := by
    intro h v' hv' t ht
    obtain ⟨v, hv, htx, _, hmiss⟩ := hstruck.of_get? hv'
    rw [htx] at ht
    rcases hsat.waiting h v hv t ht with hmissing | hpruned | hprov
    · by_cases hmem : t ∈ tags
      · exact .inr (htags t hmem)
      · exact .inl ((hmiss t).mpr ⟨hmissing, hmem⟩)
    · exact .inr (.inl hpruned)
    · exact .inr (hkeep t (.inl ⟨h, v, hv, ht⟩) hprov)
  inFlight := by
    intro v hv t ht
    rcases hflight v hv with hv | hv
    · rcases hsat.inFlight v hv t ht with hpruned | hprov
      · exact .inl hpruned
      · exact hkeep t (.inr ⟨v, hv, ht⟩) hprov
    obtain ⟨h, v0, hv0, hnone, rfl⟩ := (hstruck.became v).mp hv
    rcases hsat.waiting h v0 hv0 t ht with hmissing | hpruned | hprov
    · exact htags t (strike_eq_none.mp hnone hmissing)
    · exact .inl hpruned
    · exact hkeep t (.inl ⟨h, v0, hv0, ht⟩) hprov

section Import

variable {rank : T → Nat} (haligned : ∀ a b, Q a → Q b → a.Aligned b)
  (hranked : ∀ a, Q a → a.Ranked rank)
  {inFlight : List H} {tx : Transaction H T} {w : WaitingTransaction H T}

include haligned in
omit [DecidableEq H] [DecidableEq T] in
theorem Consistent.aligned (hinv : Consistent Q inFlight p) (hQ : Q tx) (h : H) (x : ReadyTx H T)
    (hx : p.ready.ready.get? h = some x) (t : T) (ht : t ∈ x.provides) (htx : t ∈ tx.provides)
    (s : T) : s ∈ x.provides ↔ s ∈ tx.provides :=
  haligned _ _ (hinv.onlyReady h x hx) hQ t ht htx s

include haligned in
omit [DecidableEq T] in
theorem Consistent.provided_of_refuses (hinv : Consistent Q inFlight p) (hQ : Q tx)
    (hrefuses : p.ready.Refuses tx) :
    ∀ t ∈ tx.provides, p.ready.providedTags.get? t ≠ none := by
  obtain ⟨h, hh⟩ := exists_mem_of_ne_nil _ hrefuses.1
  obtain ⟨s, hs, hprov⟩ := mem_replaceHashes.mp hh
  obtain ⟨x, hx, hmem⟩ := hinv.mapped.ready_of_provided s h hprov
  intro t ht
  have htx := (hinv.aligned haligned hQ h x hx s hmem hs t).mpr ht
  rw [hinv.mapped.provided h x t hx htx]
  simp

include haligned in
theorem Satisfied.refused (hinv : Consistent Q inFlight p) (hsat : Satisfied pruned (w :: flight) p)
    (hQ : Q w.transaction) (hrefuses : p.ready.Refuses w.transaction)
    (hstruck : p.future.Struck w.transaction.provides became future) :
    became = [] ∧ Satisfied pruned flight { p with future, ready := p.ready.bump } := by
  have hprovided := hinv.provided_of_refuses haligned hQ hrefuses
  have hself : ∀ h v, p.future.waiting.get? h = some v →
      v.strike w.transaction.provides = some v := by
    intro h v hv
    refine strike_eq_self (hinv.listed.missing h v hv) fun t ht hmem => ?_
    exact hprovided t hmem (hinv.unprovided h v hv t ht)
  have hsame : ∀ h v, future.waiting.get? h = some v → p.future.waiting.get? h = some v := by
    intro h v hv
    rw [hstruck.waiting, Option.bind_eq_some_iff] at hv
    obtain ⟨v0, hv0, hstrike⟩ := hv
    rw [hself h v0 hv0] at hstrike
    exact hstrike ▸ hv0
  refine ⟨eq_nil_iff_forall_not_mem.mpr fun v hv => ?_, ?_⟩
  · obtain ⟨h, v0, hv0, hnone, _⟩ := (hstruck.became v).mp hv
    rw [hself h v0 hv0] at hnone
    cases hnone
  · exact
      { met := ⟨hsat.met.required, hsat.met.linked⟩
        recent := hsat.recent
        missing := fun h v hv => hsat.missing h v (hsame h v hv)
        waiting := fun h v hv => hsat.waiting h v (hsame h v hv)
        inFlight := fun v hv => hsat.inFlight v (mem_cons_of_mem _ hv) }

include haligned hranked in
/-- No tag is lost, and its own are there for those that waited. -/
theorem Satisfied.entered {unlocks : List H} {r1 r'} (hinv : Consistent Q inFlight p)
    (hsat : Satisfied pruned (w :: flight) p) (hQ : Q w.transaction)
    (hnew : p.ready.ready.get? w.transaction.hash = none)
    (hstruck : p.future.Struck w.transaction.provides became future)
    (hrep : Replaces w.transaction removed unlocks p.ready.bump r1)
    (hins : Inserted w.transaction unlocks r1 r') :
    Satisfied pruned (became.reverse ++ flight) { p with future, ready := r' } := by
  have hsub : ∀ h x, p.ready.bump.ready.get? h = some x → ∀ t ∈ x.provides,
      t ∈ w.transaction.provides → ∀ s ∈ x.provides, s ∈ w.transaction.provides :=
    fun h x hx t ht htx s hs => (hinv.aligned haligned hQ h x hx t ht htx s).mp hs
  have hmono : ∀ t, p.ready.providedTags.get? t ≠ none → r'.providedTags.get? t ≠ none := by
    intro t hne
    obtain ⟨k, hk⟩ := Option.ne_none_iff_exists'.mp hne
    rcases hrep.provided_insert hinv.mapped.bump hsub hins hk with ⟨_, hk'⟩ | ⟨_, _, hk', _⟩
    · simp [hk']
    · simp [hk']
  have hown : ∀ t ∈ w.transaction.provides, r'.providedTags.get? t ≠ none := by
    intro t ht
    rw [hins.provided, if_pos ht]
    simp
  have hself : ∀ t ∈ w.transaction.requires, t ∉ w.transaction.provides := fun t ht hmem =>
    Nat.lt_irrefl _ (hranked _ hQ t ht t hmem)
  have hmet : Met pruned r' :=
    Met.insert hrep hinv.mapped.bump hsub ⟨hsat.met.required, hsat.met.linked⟩ hnew hself
      (hsat.inFlight w mem_cons_self) hins
  refine hsat.struck hstruck hmet hsat.recent (fun t ht => .inr (hown t ht))
    (fun t _ hprov => .inr (hmono t hprov)) fun v hv => ?_
  rcases mem_append.mp hv with hv | hv
  · exact .inr (mem_reverse.mp hv)
  · exact .inl (mem_cons_of_mem _ hv)

/-- The transactions that are promoted rank above a tag of `root`, and so none of them takes its
place. -/
structure Promotes (rank : T → Nat) (pruned : List T) (root : Transaction H T)
    (outer : List (WaitingTransaction H T)) (s : ImportState H T) : Prop where
  satisfied : Satisfied pruned (s.toImport ++ outer) s.pool
  first : s.first = true → ∃ w, s.toImport = [w] ∧ w.transaction = root ∧
    s.pool.ready.ready.get? root.hash = none ∧ s.removed = []
  above : s.first = false → ∀ w ∈ s.toImport, w.transaction.hash ≠ root.hash ∧
    ∃ a ∈ root.provides, ∀ b ∈ w.transaction.provides, rank a < rank b
  notWaiting : s.pool.future.waiting.get? root.hash = none
  stored : ∀ x, s.pool.ready.ready.get? root.hash = some x → x.transaction.transaction = root
  kept : ∀ tx ∈ s.removed, tx.hash ≠ root.hash

variable {outer : List (WaitingTransaction H T)}

include haligned hranked in
theorem Promotes.advance {root s s'} (hflow : Flow Q (hashes outer) s)
    (hpro : Promotes rank pruned root outer s) (hadv : Advance s s') :
    Promotes rank pruned root outer s' := by
  have hsat := hpro.satisfied
  cases hadv with
  | @refused w rest became future hstack hfirst hstruck hrefuses =>
    have hwQ := (hflow.stack w (hstack ▸ mem_cons_self)).2
    rw [hstack] at hsat
    obtain ⟨rfl, hsat'⟩ := Satisfied.refused haligned hflow.pool hsat hwQ hrefuses hstruck
    exact
      { satisfied := hsat'
        first := by simp
        above := fun _ v hv => hpro.above hfirst v (hstack ▸ mem_cons_of_mem _ hv)
        notWaiting := hstruck.get?_eq_none hpro.notWaiting
        stored := hpro.stored
        kept := hpro.kept }
  | @entered w rest became future removed unlocks r1 r' hstack _ hstruck hrep hins =>
    have hwQ := (hflow.stack w (hstack ▸ mem_cons_self)).2
    have hnew := (hflow.pool.absent w.transaction.hash (by simp [hstack])).1
    rw [hstack, cons_append] at hsat
    have hsat' := Satisfied.entered haligned hranked hflow.pool hsat hwQ hnew hstruck hrep hins
    rw [← append_assoc] at hsat'
    -- what is unlocked misses tags of `w` only, and ranks above them
    have hbecame : ∀ v ∈ became, v.transaction.hash ≠ root.hash ∧
        ∃ c ∈ w.transaction.provides, ∀ b ∈ v.transaction.provides, rank c < rank b := by
      intro v hv
      obtain ⟨h, v0, hv0, hnone, rfl⟩ := (hstruck.became v).mp hv
      obtain ⟨c, hc⟩ := exists_mem_of_ne_nil _ (hflow.pool.listed.missing h v0 hv0)
      refine ⟨fun heq => ?_, c, strike_eq_none.mp hnone hc,
        hranked _ (hflow.pool.onlyFuture h v0 hv0) c (hsat.missing h v0 hv0 c hc)⟩
      have hkey : v0.readied.transaction.hash = h := hflow.pool.future.keyed h v0 hv0
      rw [← hkey, heq, hpro.notWaiting] at hv0
      cases hv0
    -- a replaced transaction was ready, and shares its tags with `w`
    have hgone : ∀ tx ∈ removed, tx.hash = root.hash → s.first = false ∧
        ∀ t, t ∈ root.provides ↔ t ∈ w.transaction.provides := by
      intro tx htx heq
      have hmem := (hrep.removal.mem_removed_iff hflow.pool.mapped.bump.keyed root.hash).mp
        (mem_map.mpr ⟨tx, htx, heq⟩)
      obtain ⟨x, hx⟩ := Option.ne_none_iff_exists'.mp hmem.1
      have hroot := hpro.stored x hx
      have hrepl := hrep.mem_replaceHashes hflow.pool.mapped.bump
        (fun h y hy t ht htx s hs => (hflow.pool.aligned haligned hwQ h y hy t ht htx s).mp hs)
        hmem.1 hmem.2
      obtain ⟨t, ht, hprov⟩ := mem_replaceHashes.mp hrepl
      obtain ⟨x', hx', hmemt⟩ := hflow.pool.mapped.bump.ready_of_provided t root.hash hprov
      rw [hx, Option.some.injEq] at hx'
      subst hx'
      constructor
      · by_contra hfirst
        obtain ⟨_, _, _, hnone, _⟩ := hpro.first (by simpa using hfirst)
        exact hmem.1 hnone
      · have := hflow.pool.aligned haligned hwQ root.hash x hx t hmemt ht
        rwa [provides, hroot] at this
    exact
      { satisfied := hsat'
        first := by simp
        above := by
          intro _ v hv
          by_cases hfirst : s.first = true
          · obtain ⟨w₀, hw0, hroot, _⟩ := hpro.first hfirst
            rw [hstack] at hw0
            obtain ⟨rfl, rfl⟩ := hw0
            rw [append_nil, mem_reverse] at hv
            exact hroot ▸ hbecame v hv
          rcases mem_append.mp hv with hv | hv
          · obtain ⟨_, a, ha, hwa⟩ := hpro.above (by simpa using hfirst) w (hstack ▸ mem_cons_self)
            obtain ⟨hne, c, hc, hvc⟩ := hbecame v (mem_reverse.mp hv)
            exact ⟨hne, a, ha, fun b hb => (hwa c hc).trans (hvc b hb)⟩
          · exact hpro.above (by simpa using hfirst) v (hstack ▸ mem_cons_of_mem _ hv)
        notWaiting := hstruck.get?_eq_none hpro.notWaiting
        stored := by
          intro x hx
          rcases hins.cases hx with ⟨heq, rfl⟩ | ⟨_, x1, hx1, rfl⟩
          · by_cases hfirst : s.first = true
            · obtain ⟨w₀, hw0, hroot, _⟩ := hpro.first hfirst
              rw [hstack, List.cons.injEq] at hw0
              rw [hw0.1, hroot]
            · exact absurd heq.symm
                (hpro.above (by simpa using hfirst) w (hstack ▸ mem_cons_self)).1
          · obtain ⟨x0, hx0, htx, _⟩ := hrep.removal.of_get? hx1
            rw [pushLinks_transaction, htx]
            exact hpro.stored x0 hx0
        kept := by
          intro tx htx heq
          rcases mem_append.mp htx with htx | htx
          · exact hpro.kept tx htx heq
          · obtain ⟨hfirst, hsame⟩ := hgone tx htx heq
            obtain ⟨_, a, ha, hwa⟩ := hpro.above hfirst w (hstack ▸ mem_cons_self)
            exact Nat.lt_irrefl _ (hwa a ((hsame a).mp ha)) }

include haligned hranked in
theorem importToReady_satisfied (hinv : Consistent Q (hashes (w :: outer)) p) (hready : w.isReady)
    (hQ : Q w.transaction) (hsat : Satisfied pruned (w :: outer) p)
    (hne : (p.importToReady w).1 ≠ .panic) : Satisfied pruned outer (p.importToReady w).2 := by
  have hflow : Flow Q (hashes outer) (p.startImport w) := flow_start hinv hready hQ
  have habsent := hinv.absent w.transaction.hash (by simp)
  have hstart : Promotes rank pruned w.transaction outer (p.startImport w) :=
    { satisfied := hsat
      first := fun _ => ⟨w, rfl, rfl, habsent.1, rfl⟩
      above := by simp [startImport]
      notWaiting := habsent.2
      stored := by
        intro x hx
        exact absurd (habsent.1.symm.trans hx) (by simp)
      kept := by simp [startImport] }
  unfold importToReady at hne ⊢
  rcases importLoop_cases (P := fun _ => Promotes rank pruned w.transaction outer)
    (fun _ _ _ _ _ _ _ hflow hpro hadv => hpro.advance haligned hranked hflow hadv)
    hflow hstart startImport_fuel with
    ⟨v, rest, became, future, hstack, -, hrefuses, hstruck, hloop, -⟩ |
      ⟨-, ⟨s, hloop, -, hempty, _, hpro⟩ | ⟨hloop, -⟩⟩
  all_goals rw [hloop] at hne ⊢
  · cases hstack
    exact (Satisfied.refused haligned hinv hsat hQ hrefuses hstruck).2
  · have hcycle : (s.removed.any fun tx => decide (tx.hash = w.transaction.hash)) = false := by
      rw [any_eq_false]
      intro tx htx
      simpa using hpro.kept tx htx
    have hsat' := hpro.satisfied
    rw [hempty, nil_append] at hsat'
    simp only [hcycle, Bool.false_eq_true, if_false]
    exact hsat'
  · exact absurd rfl hne

include haligned hranked in
theorem importTx_satisfied (now : Nat) (hinv : Consistent Q [] p) (hQ : Q tx)
    (hsat : Satisfied pruned [] p) (hne : (p.importTx tx now).1 ≠ .panic) :
    Satisfied pruned [] (p.importTx tx now).2 := by
  -- a required tag that is not missing is provided or was pruned lately
  have hnew : ∀ t ∈ tx.requires,
      t ∈ (WaitingTransaction.new tx p.ready.providedTags p.recentlyPruned now).missingTags ∨
        t ∈ pruned ∨ p.ready.providedTags.get? t ≠ none := by
    intro t ht
    by_cases hprov : p.ready.providedTags.get? t = none
    · by_cases hrecent : ∃ tags ∈ p.recentlyPruned, t ∈ tags
      · obtain ⟨tags, htags, hmem⟩ := hrecent
        exact .inr (.inl (hsat.recent tags htags t hmem))
      · left
        push Not at hrecent
        simp only [WaitingTransaction.new, FinMap.contains, mem_dedup, mem_filter,
          hprov, Option.isSome_none, Bool.false_or, Bool.not_eq_true', any_eq_false,
          decide_eq_true_eq]
        exact ⟨ht, hrecent⟩
    · exact .inr (.inr hprov)
  unfold importTx at hne ⊢
  split
  · exact hsat
  rename_i himported
  rw [if_neg himported] at hne
  dsimp only at hne ⊢
  split
  · rename_i hready
    rw [if_pos hready] at hne
    refine importToReady_satisfied haligned hranked (hinv.launch himported) hready hQ ?_ hne
    refine { hsat with inFlight := fun w hw t ht => ?_ }
    rw [mem_singleton.mp hw] at ht
    refine (hnew t ht).resolve_left fun hmem => ?_
    rw [WaitingTransaction.isReady, List.isEmpty_iff] at hready
    rw [hready] at hmem
    cases hmem
  · rename_i hready
    split
    · exact hsat
    obtain ⟨future, heq, _, _, hcases⟩ := FutureTransactions.importTx_spec hinv.future
      hinv.listed hready (not_isImported_iff.mp himported).2
    simp only [heq]
    exact
      { met := hsat.met
        recent := hsat.recent
        missing := by
          intro h v hv t ht
          rcases (hcases h v).mp hv with ⟨_, rfl⟩ | ⟨_, hv⟩
          · exact (not_provided_of_mem_missingTags ht).1
          · exact hsat.missing h v hv t ht
        waiting := by
          intro h v hv t ht
          rcases (hcases h v).mp hv with ⟨_, rfl⟩ | ⟨_, hv⟩
          · exact hnew t ht
          · exact hsat.waiting h v hv t ht
        inFlight := by simp }

end Import

/-! ## Removals -/

def NoneRelies (pruned : List T) (p : BasePool H T) (gone : H → Prop) : Prop :=
  ∀ g x, p.ready.ready.get? g = some x → gone g → ∀ t ∈ x.provides,
    ∀ h w, p.future.waiting.get? h = some w → t ∈ w.transaction.requires → t ∈ pruned

omit [DecidableEq H] [DecidableEq T] in
theorem NoneRelies.shrink {gone gone' : H → Prop} (hnone : NoneRelies pruned p gone)
    (hshrinks : Shrinks p.ready p'.ready)
    (hwas : ∀ h w, p'.future.waiting.get? h = some w → p.future.waiting.get? h = some w)
    (hsub : ∀ g, gone' g → gone g) : NoneRelies pruned p' gone' := by
  intro g x' hx' hg t ht h w hw hreq
  obtain ⟨x, hx, htx⟩ := hshrinks.ready g x' hx'
  rw [provides, htx] at ht
  exact hnone g x hx (hsub g hg) t ht h w (hwas h w hw) hreq

section

variable (hinv : Consistent Q [] p)
include hinv

variable {hs : List H}

theorem waiting_removeSubtree {h : H} {w}
    (hw : (p.removeSubtree hs).2.future.waiting.get? h = some w) :
    p.future.waiting.get? h = some w :=
  (((FutureTransactions.remove_spec hs hinv.future hinv.listed).2.2 h w).mp hw).2

theorem removeSubtree_satisfied (hsat : Satisfied pruned [] p)
    (hnone : NoneRelies pruned p fun g => ∃ h ∈ hs, Relation.ReflTransGen p.ready.Unlocks h g) :
    Satisfied pruned [] (p.removeSubtree hs).2 := by
  have hrem := removal_of_removeSubtree p.ready hs none
  have hsub : ∀ h w, (p.removeSubtree hs).2.future.waiting.get? h = some w →
      p.future.waiting.get? h = some w := fun h w hw => waiting_removeSubtree hinv hw
  exact
    { met := hsat.met.removal hinv.mapped hrem
      recent := hsat.recent
      missing := fun h w hw => hsat.missing h w (hsub h w hw)
      waiting := by
        intro h w hw t ht
        rcases hsat.waiting h w (hsub h w hw) t ht with hmissing | hpruned | hprov
        · exact .inl hmissing
        · exact .inr (.inl hpruned)
        · obtain ⟨g, hg⟩ := Option.ne_none_iff_exists'.mp hprov
          obtain ⟨x, hx, hmem⟩ := hinv.mapped.ready_of_provided t g hg
          by_cases hgone : (p.ready.removeSubtreeWithTagFilter hs none).2.ready.get? g = none
          · obtain ⟨k, hk, hpath⟩ := hrem.reached (by simp [hx]) hgone
            exact .inr (.inl (hnone g x hx ⟨k, mem_reverse.mp hk, hpath⟩ t hmem h w
              (hsub h w hw) ht))
          · have hkept := (hrem.provided (hinv.mapped.keep none)).mpr ⟨hg, .inr hgone⟩
            exact .inr (.inr (Option.ne_none_iff_exists'.mpr ⟨g, hkept⟩))
      inFlight := by simp }

theorem enforceReady_satisfied {limit : Limit} {fuel : Nat} (hsat : Satisfied pruned [] p)
    (hnone : limit.isExceeded p.ready.len p.ready.bytes = true →
      NoneRelies pruned p fun _ => True) :
    Satisfied pruned [] (enforceReady limit fuel p removed).2 := by
  refine (enforceReady_keeps (P := fun p => Consistent Q [] p ∧ Satisfied pruned [] p ∧
    (limit.isExceeded p.ready.len p.ready.bytes = true → NoneRelies pruned p fun _ => True))
    (fun p h hexceeded hP => ?_) ⟨hinv, hsat, hnone⟩).2.1
  obtain ⟨hinv, hsat, hnone⟩ := hP
  have hnone := hnone hexceeded
  refine ⟨removeSubtree_consistent hinv _, removeSubtree_satisfied hinv hsat ?_, fun _ => ?_⟩
  · exact hnone.shrink (.refl _) (fun _ _ hw => hw) fun _ _ => trivial
  · exact hnone.shrink ((removal_of_removeSubtree p.ready _ none).shrinks hinv.mapped)
      (fun _ _ hw => waiting_removeSubtree hinv hw) fun _ _ => trivial

theorem enforceFuture_satisfied {limit : Limit} {fuel : Nat} (hsat : Satisfied pruned [] p) :
    Satisfied pruned [] (enforceFuture limit fuel p removed).2 := by
  refine (enforceFuture_keeps (P := fun p => Consistent Q [] p ∧ Satisfied pruned [] p)
    (fun p w hminimal hP => ?_) ⟨hinv, hsat⟩).2
  obtain ⟨hinv, hsat⟩ := hP
  obtain ⟨h, hw⟩ := (oldestFuture_spec p.future).1 w hminimal
  have hready : p.ready.ready.get? w.transaction.hash = none :=
    hinv.apart _ w (hinv.future.keyed h w hw ▸ hw)
  refine ⟨removeSubtree_consistent hinv _, removeSubtree_satisfied hinv hsat ?_⟩
  rintro g x hx ⟨k, hk, hpath⟩
  rw [mem_singleton] at hk
  subst hk
  rcases hpath.cases_head with rfl | ⟨_, ⟨y, hy, _⟩, _⟩
  · rw [hready] at hx
    cases hx
  · rw [hready] at hy
    cases hy

end

/-! ## Prunings -/

/-- The providers of `tags`, the providers of what these require, and so on. -/
inductive Upstream (r : ReadyTransactions H T) (tags : List T) : H → Prop
  | base {h : H} {x} {t : T} (hx : r.ready.get? h = some x) (ht : t ∈ x.provides)
      (htags : t ∈ tags) : Upstream r tags h
  | step {g h : H} {y} {t : T} (hg : Upstream r tags g)
      (hy : r.ready.get? g = some y) (ht : t ∈ y.requires)
      (hprov : r.providedTags.get? t = some h) : Upstream r tags h

/-- A provider of `tags` provides no other tag that a ready transaction requires,
but for pruned ones. -/
def PrunesWhole (pruned : List T) (r : ReadyTransactions H T) (tags : List T) : Prop :=
  ∀ h x, r.ready.get? h = some x → ∀ u ∈ x.provides, u ∈ tags → ∀ t ∈ x.provides,
    ∀ g y, r.ready.get? g = some y → t ∈ y.requires → t ∈ pruned

theorem mem_of_mem_modify {α : Type} {f : α → α} {l : List α} {i : Nat} {b : α}
    (hb : b ∈ l.modify i f) : b ∈ l ∨ ∃ a ∈ l, b = f a := by
  obtain ⟨j, hj⟩ := mem_iff_getElem?.mp hb
  rw [List.getElem?_modify, Option.map_eq_map, Option.map_eq_some_iff] at hj
  obtain ⟨a, ha, rfl⟩ := hj
  have hmem := mem_iff_getElem?.mpr ⟨j, ha⟩
  split
  · exact .inr ⟨a, hmem, rfl⟩
  · exact .inl hmem

structure Prunes (pruned : List T) (p₀ : BasePool H T) (flight : List (WaitingTransaction H T))
    (p : BasePool H T) : Prop where
  satisfied : Satisfied pruned flight p
  shrinks : Shrinks p₀.ready p.ready
  waiting : ∀ h w, p.future.waiting.get? h = some w →
    ∃ w₀, p₀.future.waiting.get? h = some w₀ ∧ w₀.transaction = w.transaction
  inFlight : ∀ w ∈ flight, ∃ h w₀, p₀.future.waiting.get? h = some w₀ ∧
    w₀.transaction = w.transaction

theorem Prunes.pruneOne {p₀} {inFlight : List H} {tag : T} {gone ready} (slot : Nat)
    (hinv0 : Mapped (fun _ => False) p₀.ready) (hpast : ∀ t ∈ tags, t ∈ pruned)
    (hnone : NoneRelies pruned p₀ (Upstream p₀.ready tags))
    (hwhole : PrunesWhole pruned p₀.ready tags) (hinv : Consistent Q inFlight p)
    (hprunes : Prunes pruned p₀ flight p) (htag : tag ∈ tags)
    (hstruck : p.future.Struck [tag] became future) (hpr : Pruning p.ready [tag] gone ready) :
    Prunes pruned p₀ (flight ++ became)
      { p with
        future
        ready
        recentlyPruned := p.recentlyPruned.modify slot (·.insert tag) } := by
  obtain ⟨hsat, hshrinks, hwaiting, hinFlight⟩ := hprunes
  -- a tag that is needed has been provided from the start, by one that nothing relies on
  have hneed : ∀ t h, p₀.ready.providedTags.get? t = some h → Upstream p₀.ready tags h →
      Needed flight p t → t ∈ pruned := by
    intro t h hprov hup hneeded
    obtain ⟨x, hx, hmem⟩ := hinv0.ready_of_provided t h hprov
    rcases hneeded with ⟨k, w, hw, ht⟩ | ⟨w, hw, ht⟩
    · obtain ⟨w₀, hw0, htx⟩ := hwaiting k w hw
      exact hnone h x hx hup t hmem k w₀ hw0 (htx ▸ ht)
    · obtain ⟨k, w₀, hw0, htx⟩ := hinFlight w hw
      exact hnone h x hx hup t hmem k w₀ hw0 (htx ▸ ht)
  obtain ⟨hmet, hlost⟩ := Met.pruning tags (Upstream p₀.ready tags) hpr hsat.met hinv.mapped (by
      intro h x hx u hu hut t ht g y hy hreq
      obtain ⟨x0, hx0, htx⟩ := hshrinks.ready h x hx
      obtain ⟨y0, hy0, hty⟩ := hshrinks.ready g y hy
      rw [provides, htx] at hu ht
      rw [requires, hty] at hreq
      exact hwhole h x0 hx0 u hu hut t ht g y0 hy0 hreq) (by
      intro g y hy hup t ht h hprov
      obtain ⟨y0, hy0, hty⟩ := hshrinks.ready g y hy
      rw [requires, hty] at ht
      exact .step hup hy0 ht (hshrinks.provided t h hprov)) (by
      intro t ht h x hprov hx
      rw [mem_singleton] at ht
      subst ht
      obtain ⟨x0, hx0, htx⟩ := hinv0.ready_of_provided t h (hshrinks.provided t h hprov)
      exact ⟨.base hx0 htx htag, .inl htag⟩)
  refine
    { satisfied := hsat.struck hstruck hmet ?_ ?_ ?_ fun v hv => mem_append.mp hv
      shrinks := hshrinks.trans (hpr.shrinks hinv.mapped)
      waiting := ?_
      inFlight := ?_ }
  · intro ts hts t ht
    rcases mem_of_mem_modify hts with hts | ⟨ts0, hts0, rfl⟩
    · exact hsat.recent ts hts t ht
    · rcases mem_insert_iff.mp ht with rfl | ht
      · exact hpast t htag
      · exact hsat.recent ts0 hts0 t ht
  · intro t ht
    exact .inl (hpast t (mem_singleton.mp ht ▸ htag))
  · intro t hneeded hne
    obtain ⟨h, hprov⟩ := Option.ne_none_iff_exists'.mp hne
    rcases hlost t h hprov with hprov' | hup
    · exact .inr (by simp [hprov'])
    · exact .inl (hneed t h (hshrinks.provided t h hprov) hup hneeded)
  · intro h w hw
    obtain ⟨v, hv, htx, _⟩ := hstruck.of_get? hw
    rw [htx]
    exact hwaiting h v hv
  · intro w hw
    rcases mem_append.mp hw with hw | hw
    · exact hinFlight w hw
    · obtain ⟨h, v, hv, _, rfl⟩ := (hstruck.became w).mp hw
      exact ⟨h, hwaiting h v hv⟩

section Runs

variable {rank : T → Nat} (haligned : ∀ a b, Q a → Q b → a.Aligned b)
  (hranked : ∀ a, Q a → a.Ranked rank)

include haligned hranked in
theorem pruneTags_satisfied (hinv : Consistent Q [] p) (hsat : Satisfied pruned [] p)
    (hnone : NoneRelies (tags ++ pruned) p (Upstream p.ready tags))
    (hwhole : PrunesWhole (tags ++ pruned) p.ready tags)
    (hcall : p.call (.pruneTags tags) = some p') : Satisfied (tags ++ pruned) [] p' := by
  obtain ⟨toImport, gone, p1, heach, promoted, failed, hpromote⟩ := call_pruneTags.mp hcall
  have hwider : Satisfied (tags ++ pruned) [] p := hsat.mono fun t ht => mem_append_right _ ht
  have hprunes : Prunes (tags ++ pruned) p [] p.startPrune :=
    { satisfied :=
        { hwider with
          recent := by
            intro ts hts t ht
            rcases mem_or_eq_of_mem_set hts with hts | rfl
            · exact mem_append_right _ (hsat.recent ts hts t ht)
            · cases ht }
      shrinks := .refl _
      waiting := fun h w hw => ⟨w, hw, rfl⟩
      inFlight := by simp }
  obtain ⟨hcons, hprunes', hready⟩ := pruneEach_keeps
    (fun flight q hinv' hq tag htag became future gone ready hstruck hpr =>
      hq.pruneOne p.recentlyPrunedIndex hinv.mapped (fun t ht => mem_append_left _ ht) hnone
        hwhole hinv' htag hstruck hpr) hinv.startPrune hprunes heach
  exact (promoteEach_keeps (fun w toImport p hinv hready hQ hsat =>
    importToReady_satisfied haligned hranked hinv hready hQ hsat) hcons hready hprunes'.satisfied
    hpromote).2

/-! ## Runs -/

def Call.prunes : Call H T → List T
  | .pruneTags tags => tags
  | _ => []

/-- No tag goes that a waiting transaction relies on, and a pruning names all tags of the providers
it prunes that others require. -/
def Meets (pruned : List T) (p : BasePool H T) : Call H T → Prop
  | .removeSubtree hs =>
    NoneRelies pruned p fun g => ∃ h ∈ hs, Relation.ReflTransGen p.ready.Unlocks h g
  | .enforceLimits ready _ => ready.isExceeded p.ready.len p.ready.bytes = true →
      NoneRelies pruned p fun _ => True
  | .pruneTags tags => NoneRelies (tags ++ pruned) p (Upstream p.ready tags) ∧
      PrunesWhole (tags ++ pruned) p.ready tags
  | _ => True

/-- The transactions are among `Q`, and each call meets its condition. -/
def StepsMeet (Q : Transaction H T → Prop) : List T → BasePool H T → List (Call H T) → Prop
  | _, _, [] => True
  | pruned, p, c :: cs => c.Only Q ∧ Meets pruned p c ∧
      ∀ p', p.call c = some p' → StepsMeet Q (c.prunes ++ pruned) p' cs

include haligned hranked in
theorem call_satisfied {c} (hinv : Consistent Q [] p) (hsat : Satisfied pruned [] p) (hQ : c.Only Q)
    (hmeets : Meets pruned p c) (hcall : p.call c = some p') :
    Satisfied (c.prunes ++ pruned) [] p' := by
  cases c with
  | importTx tx now =>
    obtain ⟨hne, rfl⟩ := call_importTx.mp hcall
    exact importTx_satisfied haligned hranked now hinv hQ hsat hne
  | removeSubtree hs =>
    cases hcall
    exact removeSubtree_satisfied hinv hsat hmeets
  | pruneTags tags =>
    exact pruneTags_satisfied haligned hranked hinv hsat hmeets.1 hmeets.2 hcall
  | enforceLimits ready future =>
    cases hcall
    exact enforceFuture_satisfied (enforceReady_consistent hinv)
      (enforceReady_satisfied hinv hsat hmeets)
  | clearFuture =>
    cases hcall
    exact ⟨hsat.met, hsat.recent, fun _ _ hw => (by cases hw), fun _ _ hw => (by cases hw), by simp⟩

include haligned hranked in
theorem calls_satisfied {cs} (hinv : Consistent Q [] p) (hsat : Satisfied pruned [] p)
    (hsteps : StepsMeet Q pruned p cs) (hcalls : p.calls cs = some p') :
    Consistent Q [] p' ∧ Satisfied (cs.flatMap Call.prunes ++ pruned) [] p' := by
  induction cs generalizing p pruned with
  | nil =>
    cases hcalls
    exact ⟨hinv, hsat⟩
  | cons c cs ih =>
    obtain ⟨hQ, hmeets, hsteps⟩ := hsteps
    simp only [calls, Option.bind_eq_some_iff] at hcalls
    obtain ⟨p1, hcall, hcalls⟩ := hcalls
    obtain ⟨hinv', hsat'⟩ := ih (call_consistent hinv hQ hcall)
      (call_satisfied haligned hranked hinv hsat hQ hmeets hcall) (hsteps p1 hcall) hcalls
    refine ⟨hinv', hsat'.mono fun t ht => ?_⟩
    simp only [flatMap_cons, mem_append] at ht ⊢
    tauto

/-- What a ready transaction requires is provided by another one or pruned, the queues are apart,
and waiting transactions miss tags that no ready transaction provides. -/
structure ReadyMeansReady (pruned : List T) (p : BasePool H T) : Prop where
  required : ∀ h x, p.ready.ready.get? h = some x → ∀ t ∈ x.requires,
    (∃ g y, g ≠ h ∧ p.ready.ready.get? g = some y ∧ t ∈ y.provides) ∨ t ∈ pruned
  apart : ∀ h, p.ready.ready.get? h = none ∨ p.future.waiting.get? h = none
  waiting : ∀ h w, p.future.waiting.get? h = some w → w.missingTags ≠ [] ∧
    ∀ t ∈ w.missingTags, ∀ g y, p.ready.ready.get? g = some y → t ∉ y.provides

include haligned hranked in
/-- **Ready means ready**, in every pool that calls lead to, if transactions that
share a provided tag provide the same tags, required tags rank below provided
ones, and each call meets its condition. -/
theorem ready_means_ready (reject : Bool) (cs : List (Call H T)) (p : BasePool H T)
    (hsteps : StepsMeet Q [] (new reject) cs) (hcalls : (new reject).calls cs = some p) :
    ReadyMeansReady (cs.flatMap Call.prunes) p := by
  obtain ⟨hinv, hsat⟩ := calls_satisfied haligned hranked (consistent_new Q reject)
    (satisfied_new reject) hsteps hcalls
  rw [append_nil] at hsat
  constructor
  · intro h x hx t ht
    rcases hsat.met.required h x hx t ht with hpruned | ⟨g, hne, hprov⟩
    · exact .inr hpruned
    · obtain ⟨y, hy, hmem⟩ := hinv.mapped.ready_of_provided t g hprov
      exact .inl ⟨g, y, hne, hy, hmem⟩
  · intro h
    cases hw : p.future.waiting.get? h with
    | none => exact .inr rfl
    | some w => exact .inl (hinv.apart h w hw)
  · intro h w hw
    refine ⟨hinv.listed.missing h w hw, fun t ht => ?_⟩
    exact hinv.mapped.provided_eq_none_iff.mp (hinv.unprovided h w hw t ht)

/-- The second requires a tag of the first. -/
def chained : List (Transaction Nat Nat) := [⟨1, 1, 1, 64, [], [1]⟩, ⟨1, 2, 1, 64, [1], [2]⟩]

/-- The second waits for the first, which is then pruned. -/
def chainedRun : List (Call Nat Nat) :=
  [.importTx ⟨1, 2, 1, 64, [1], [2]⟩ 0, .importTx ⟨1, 1, 1, 64, [], [1]⟩ 0, .pruneTags [1]]

theorem stepsMeet_chainedRun : StepsMeet (· ∈ chained) [] (new false) chainedRun := by
  refine ⟨by unfold Call.Only; decide, trivial, fun p1 h1 => ?_⟩
  refine ⟨by unfold Call.Only; decide, trivial, fun p2 h2 => ⟨trivial, ⟨?_, ?_⟩, fun _ _ => trivial⟩⟩
  · cases h1
    cases h2
    intro g x _ _ t _ h w hw
    -- nothing waits any more
    have hkey := (FinMap.mem_keys _ h).mpr (Option.isSome_iff_exists.mpr ⟨w, hw⟩)
    cases hkey
  · have hinv : Consistent (· ∈ chained) [] p2 := by
      refine call_consistent ?_ (by unfold Call.Only; decide) h2
      exact call_consistent (consistent_new _ false) (by unfold Call.Only; decide) h1
    intro h x hx u hu hpruned t ht _ _ _ _
    have hall : ∀ tx ∈ chained, ∀ u ∈ tx.provides, u ∈ [1] → ∀ t ∈ tx.provides,
      t ∈ [1] ++ ([] : List Nat) := by decide
    exact hall _ (hinv.onlyReady h x hx) u hu hpruned t ht

theorem chainedRun_ready : ∃ p, (new false).calls chainedRun = some p ∧
    (∃ x, p.ready.ready.get? 2 = some x ∧ x.requires = [1]) ∧
    ReadyMeansReady (chainedRun.flatMap Call.prunes) p := by
  have haligned : ∀ a b, a ∈ chained → b ∈ chained → a.Aligned b := by
    intro a b ha hb
    simp only [chained, mem_cons, not_mem_nil, or_false] at ha hb
    rcases ha with rfl | rfl <;> rcases hb with rfl | rfl <;> simp [Transaction.Aligned]
  have hranked : ∀ a ∈ chained, a.Ranked id := by
    unfold Transaction.Ranked
    decide
  exact ⟨_, rfl, ⟨_, rfl, rfl⟩,
    ready_means_ready haligned hranked false chainedRun _ stepsMeet_chainedRun rfl⟩

/-- Transaction 3 waits for tags 1 and 2; transaction 1 provides the first tag and
is removed, transaction 2 provides the second. -/
def strandedRun : List (Call Nat Nat) :=
  [.importTx ⟨1, 3, 1, 64, [1, 2], [3]⟩ 0, .importTx ⟨1, 1, 1, 64, [], [1]⟩ 0, .removeSubtree [1],
    .importTx ⟨1, 2, 1, 64, [], [2]⟩ 0]

/-- Tag 1 was struck off what transaction 3 misses and stays so: it becomes ready
with tag 2 alone. -/
theorem removed_provider_stays_struck : ∃ p, (new false).calls strandedRun = some p ∧
    ¬ReadyMeansReady (strandedRun.flatMap Call.prunes) p := by
  have hrun : ∃ p, (new false).calls strandedRun = some p ∧
      p.ready.providedTags.get? 1 = none ∧ ∃ x, p.ready.ready.get? 3 = some x ∧ 1 ∈ x.requires :=
    ⟨_, rfl, rfl, _, rfl, by decide⟩
  obtain ⟨p, hcalls, hnone, x, hx, hreq⟩ := hrun
  refine ⟨p, hcalls, fun h => ?_⟩
  have hinv := calls_consistent (consistent_new (fun _ => True) false)
    (fun c _ => by cases c <;> trivial) hcalls
  rcases h.required 3 x hx 1 hreq with ⟨g, y, _, hy, hmem⟩ | hpruned
  · rw [hinv.mapped.provided g y 1 hy hmem] at hnone
    cases hnone
  · cases hpruned

end Runs

end BasePool

end Substrate.TxPool
