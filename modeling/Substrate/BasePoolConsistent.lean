import Substrate.FutureStruck
import Substrate.ReadyImport
import Substrate.ReadyPrune

/-!
# The two queues agree

After any calls tags are mapped to their ready providers, the future queue lists what it waits for,
no hash is in both queues, and no ready transaction provides a tag that a waiting one misses. While
`import_to_ready` runs, the transactions on its stack are in neither queue. A round of its loop is
`Advance`.
-/

namespace Substrate.TxPool

open List FutureTransactions

variable {H T : Type}

abbrev hashes (stack : List (WaitingTransaction H T)) : List H :=
  stack.map (·.transaction.hash)

namespace BasePool

open ReadyTransactions

variable {p p' : BasePool H T} {Q : Transaction H T → Prop}
  {inFlight outer : List H} {tx : Transaction H T} {removed : List (Transaction H T)}
  {s : ImportState H T} {w : WaitingTransaction H T} {fuel : Nat} {limit : Limit} {tags : List T}
  {toImport : List (WaitingTransaction H T)}

/-- The transactions of the pool are among `Q`, those with hashes in `inFlight` are in neither
queue. -/
structure Consistent (Q : Transaction H T → Prop) (inFlight : List H) (p : BasePool H T) :
    Prop where
  mapped : Mapped (fun _ => False) p.ready
  future : p.future.Inv
  listed : p.future.Listed
  apart : ∀ h w, p.future.waiting.get? h = some w → p.ready.ready.get? h = none
  unprovided : ∀ h w, p.future.waiting.get? h = some w → ∀ t ∈ w.missingTags,
    p.ready.providedTags.get? t = none
  onlyReady : ∀ h x, p.ready.ready.get? h = some x → Q x.transaction.transaction
  onlyFuture : p.future.All Q
  nodup : inFlight.Nodup
  absent : ∀ h ∈ inFlight, p.ready.ready.get? h = none ∧ p.future.waiting.get? h = none

theorem consistent_new (Q : Transaction H T → Prop) (reject : Bool) :
    Consistent Q [] (new reject : BasePool H T) where
  mapped := mapped_empty
  future := inv_empty
  listed := listed_empty
  apart := by intro h w hw; cases hw
  unprovided := by intro h w hw; cases hw
  onlyReady := by intro h x hx; cases hx
  onlyFuture := by intro h w hw; cases hw
  nodup := nodup_nil
  absent := by simp

theorem Consistent.mono {Q' : Transaction H T → Prop} (hinv : Consistent Q inFlight p)
    (hQ : ∀ tx, Q tx → Q' tx) : Consistent Q' inFlight p :=
  { hinv with
    onlyReady := fun h x hx => hQ _ (hinv.onlyReady h x hx)
    onlyFuture := fun h w hw => hQ _ (hinv.onlyFuture h w hw) }

variable {r r' : ReadyTransactions H T} {s' : ImportState H T} {future : FutureTransactions H T}
  {gone pruned : List (Transaction H T)} {flight : List (WaitingTransaction H T)}
  {P : List (WaitingTransaction H T) → BasePool H T → Prop}

theorem Consistent.shrink (hinv : Consistent Q inFlight p) (hmapped : Mapped (fun _ => False) r)
    (hshrinks : Shrinks p.ready r) : Consistent Q inFlight { p with ready := r } where
  mapped := hmapped
  future := hinv.future
  listed := hinv.listed
  apart := fun h w hw => hshrinks.get?_eq_none (hinv.apart h w hw)
  unprovided := fun h w hw t ht => hshrinks.provided_eq_none (hinv.unprovided h w hw t ht)
  onlyReady := by
    intro h x' hx'
    obtain ⟨x, hx, htx⟩ := hshrinks.ready h x' hx'
    rw [htx]
    exact hinv.onlyReady h x hx
  onlyFuture := hinv.onlyFuture
  nodup := hinv.nodup
  absent := fun h hh => ⟨hshrinks.get?_eq_none (hinv.absent h hh).1, (hinv.absent h hh).2⟩

/-! ## Unlocking waiting transactions -/

variable [DecidableEq H]

variable [DecidableEq T]

theorem Consistent.satisfy (hinv : Consistent Q inFlight p) (tags : List T) :
    ∃ became future, p.future.satisfyTags tags = some (became, future) ∧
      p.future.Struck tags became future ∧ (∀ w ∈ became, w.isReady ∧ Q w.transaction) ∧
      (∀ h w, future.waiting.get? h = some w → ∀ t ∈ w.missingTags, t ∉ tags) ∧
      Consistent Q (hashes became.reverse ++ inFlight) { p with future } := by
  obtain ⟨became, future, hsat, hfuture, hlisted, hstruck⟩ :=
    satisfyTags_spec tags hinv.future hinv.listed
  have hmem : ∀ h, h ∈ hashes became.reverse ↔ h ∈ hashes became := by
    intro h
    simp
  refine ⟨became, future, hsat, hstruck, fun w hw => ?_, fun h w hw t ht => ?_, ?_⟩
  · obtain ⟨h, w0, hw0, _, rfl⟩ := (hstruck.became w).mp hw
    exact ⟨rfl, hinv.onlyFuture h w0 hw0⟩
  · obtain ⟨_, _, _, _, hmiss⟩ := hstruck.of_get? hw
    exact ((hmiss t).mp ht).2
  · exact
      { mapped := hinv.mapped
        future := hfuture
        listed := hlisted
        apart := by
          intro h w hw
          obtain ⟨w0, hw0, _⟩ := hstruck.of_get? hw
          exact hinv.apart h w0 hw0
        unprovided := by
          intro h w hw t ht
          obtain ⟨w0, hw0, _, _, hmiss⟩ := hstruck.of_get? hw
          exact hinv.unprovided h w0 hw0 t ((hmiss t).mp ht).1
        onlyReady := hinv.onlyReady
        onlyFuture := by
          intro h w hw
          obtain ⟨w0, hw0, htx, _⟩ := hstruck.of_get? hw
          rw [htx]
          exact hinv.onlyFuture h w0 hw0
        nodup := by
          rw [nodup_append']
          refine ⟨?_, hinv.nodup, fun h hh hh' => ?_⟩
          · rw [hashes, map_reverse]
            exact nodup_reverse.mpr hstruck.nodup
          · obtain ⟨w, hw, rfl⟩ := mem_map.mp ((hmem h).mp hh)
            obtain ⟨w0, hw0, _⟩ := hstruck.was hinv.future hw
            rw [(hinv.absent _ hh').2] at hw0
            cases hw0
        absent := by
          intro h hh
          rcases mem_append.mp hh with hh | hh
          · obtain ⟨w, hw, rfl⟩ := mem_map.mp ((hmem h).mp hh)
            obtain ⟨w0, hw0, _, hgone⟩ := hstruck.was hinv.future hw
            exact ⟨hinv.apart _ w0 hw0, hgone⟩
          · exact ⟨(hinv.absent h hh).1, hstruck.get?_eq_none (hinv.absent h hh).2⟩ }

theorem Consistent.enter {unlocks : List H} {r₁} (hinv : Consistent Q (tx.hash :: inFlight) p)
    (hQ : Q tx)
    (hmet : ∀ h w, p.future.waiting.get? h = some w → ∀ t ∈ w.missingTags, t ∉ tx.provides)
    (hrep : Replaces tx removed unlocks p.ready.bump r₁) (hins : Inserted tx unlocks r₁ r') :
    Consistent Q inFlight { p with ready := r' } := by
  obtain ⟨hnot, hnodup⟩ := nodup_cons.mp hinv.nodup
  obtain ⟨hnew, habsent⟩ := forall_mem_cons.mp hinv.absent
  have hgone : ∀ h, p.ready.ready.get? h = none → h ≠ tx.hash → r'.ready.get? h = none := by
    intro h hh hne
    rw [hins.others h hne, hrep.removal.get?_eq_none hh, Option.map_none]
  have hwne : ∀ h w, p.future.waiting.get? h = some w → h ≠ tx.hash := by
    rintro h w hw rfl
    rw [hnew.2] at hw
    cases hw
  exact
    { mapped := hinv.mapped.bump.insert hnew.1 hrep hins
      future := hinv.future
      listed := hinv.listed
      apart := fun h w hw => hgone h (hinv.apart h w hw) (hwne h w hw)
      unprovided := by
        intro h w hw t ht
        rw [hins.provided, if_neg (hmet h w hw t ht)]
        cases hprov : r₁.providedTags.get? t with
        | none => rfl
        | some g =>
          have hkeep := hinv.mapped.bump.keep (some tx.provides)
          obtain ⟨hprov, _⟩ := (hrep.removal.provided hkeep).mp hprov
          exact absurd (hprov.symm.trans (hinv.unprovided h w hw t ht)) (by simp)
      onlyReady := by
        intro h x' hx'
        rcases hins.cases hx' with ⟨_, rfl⟩ | ⟨_, x1, hx1, rfl⟩
        · exact hQ
        · obtain ⟨x, hx, htx, _⟩ := hrep.removal.of_get? hx1
          rw [pushLinks_transaction, htx]
          exact hinv.onlyReady h x hx
      onlyFuture := hinv.onlyFuture
      nodup := hnodup
      absent := fun h hh => ⟨hgone h (habsent h hh).1 fun heq => hnot (heq ▸ hh),
        (habsent h hh).2⟩ }

section

omit [DecidableEq H] [DecidableEq T]

theorem Consistent.narrow {inFlight' : List H} (hinv : Consistent Q inFlight p)
    (hsub : inFlight'.Subperm inFlight) : Consistent Q inFlight' p :=
  { hinv with
    nodup := by
      obtain ⟨l, hperm, hsub⟩ := hsub
      exact hperm.nodup_iff.mp (hinv.nodup.sublist hsub)
    absent := fun h hh => hinv.absent h (hsub.subset hh) }

theorem Consistent.refused (hinv : Consistent Q inFlight p) :
    Consistent Q inFlight { p with ready := p.ready.bump } :=
  hinv.shrink hinv.mapped.bump ⟨fun _ y hy => ⟨y, hy, rfl⟩, fun _ _ h => h⟩

end

/-! ## One round of the import loop -/

/-- What the loop of `import_to_ready` keeps, with `outer` in flight besides its
stack. -/
structure Flow (Q : Transaction H T → Prop) (outer : List H) (s : ImportState H T) : Prop where
  pool : Consistent Q (hashes s.toImport ++ outer) s.pool
  stack : ∀ w ∈ s.toImport, w.isReady ∧ Q w.transaction

/-- A round of the loop that goes on. -/
inductive Advance : ImportState H T → ImportState H T → Prop
  | refused {s : ImportState H T} {w} {rest became future}
      (hstack : s.toImport = w :: rest) (hfirst : s.first = false)
      (hstruck : s.pool.future.Struck w.transaction.provides became future)
      (hrefuses : s.pool.ready.Refuses w.transaction) : Advance s { s with
        pool := { s.pool with future, ready := s.pool.ready.bump }
        first := false
        toImport := became.reverse ++ rest
        failed := s.failed ++ [w.transaction.hash] }
  | entered {s : ImportState H T} {w} {rest became future} {removed unlocks r₁ r'}
      (hstack : s.toImport = w :: rest) (hrefuses : ¬s.pool.ready.Refuses w.transaction)
      (hstruck : s.pool.future.Struck w.transaction.provides became future)
      (hrep : Replaces w.transaction removed unlocks s.pool.ready.bump r₁)
      (hins : Inserted w.transaction unlocks r₁ r') : Advance s { s with
        pool := { s.pool with future, ready := r' }
        first := false
        toImport := became.reverse ++ rest
        promoted := if s.first then s.promoted else s.promoted ++ [w.transaction.hash]
        removed := s.removed ++ removed }

/-- It goes on, it leaves with the error of the first transaction, or it fails on a tag that a
transaction requires and provides. -/
theorem importNext_cases {rest} (hstack : s.toImport = w :: rest) (hflow : Flow Q outer s) :
    (∃ s', importNext { s with toImport := rest } w = .ok s' ∧ Advance s s' ∧ Flow Q outer s' ∧
        s'.toImport.length + s'.pool.future.len = rest.length + s.pool.future.len) ∨
      (s.first = true ∧ s.pool.ready.Refuses w.transaction ∧ ∃ became future,
        s.pool.future.Struck w.transaction.provides became future ∧
        importNext { s with toImport := rest } w =
          .err (.tooLowPriority (s.pool.ready.oldPriority w.transaction) w.transaction.priority,
            { s.pool with future, ready := s.pool.ready.bump }) ∧
        Consistent Q outer { s.pool with future, ready := s.pool.ready.bump }) ∨
      importNext { s with toImport := rest } w = .panic ∧ ¬s.pool.ready.Refuses w.transaction ∧
        ∃ t ∈ w.transaction.requires, t ∈ w.transaction.provides ∧
          s.pool.ready.providedTags.get? t ≠ none := by
  have hpool := hflow.pool
  rw [hstack] at hpool
  obtain ⟨hwready, hwQ⟩ := hflow.stack w (hstack ▸ mem_cons_self)
  have hrest : ∀ v ∈ rest, v.isReady ∧ Q v.transaction := fun v hv =>
    hflow.stack v (hstack ▸ mem_cons_of_mem _ hv)
  have hnew := (hpool.absent w.transaction.hash (by simp)).1
  obtain ⟨became, future, hsat, hstruck, hbecame, hmet, hcons⟩ :=
    hpool.satisfy w.transaction.provides
  have hjoin : ∀ v ∈ became.reverse ++ rest, v.isReady ∧ Q v.transaction := by
    intro v hv
    rcases mem_append.mp hv with hv | hv
    · exact hbecame v (mem_reverse.mp hv)
    · exact hrest v hv
  have hlen : (became.reverse ++ rest).length + future.len = rest.length + s.pool.future.len := by
    have hbecame : became.length + future.len = s.pool.future.len := hstruck.len
    simp only [length_append, length_reverse]
    omega
  -- the popped transaction first, then what is in flight after the round
  have hfront : Consistent Q (w.transaction.hash :: (hashes (became.reverse ++ rest) ++ outer))
      { s.pool with future } := by
    refine hcons.narrow (List.Perm.subperm ?_)
    simp only [hashes, map_append, map_cons, cons_append, append_assoc]
    exact perm_middle.symm
  rcases importTx_ready_cases hwready hpool.mapped hnew with
    ⟨hrefuses, himport⟩ | ⟨hrefuses, hcases⟩
  · have hback := hfront.refused.narrow (sublist_cons_self _ _).subperm
    by_cases hfirst : s.first = true
    · refine .inr (.inl ⟨hfirst, hrefuses, became, future, hstruck, ?_, ?_⟩)
      · simp [importNext, hsat, himport, hfirst]
      · exact hback.narrow (sublist_append_right _ _).subperm
    · refine .inl ⟨_, ?_, .refused hstack (by simpa using hfirst) hstruck hrefuses,
        ⟨hback, hjoin⟩, hlen⟩
      simp [importNext, hsat, himport, hfirst, Bool.false_eq_true]
  rcases hcases with ⟨removed, unlocks, r₁, r', himport, hrep, hins⟩ | ⟨hpanic, hown⟩
  · refine .inl ⟨_, ?_, .entered hstack hrefuses hstruck hrep hins, ⟨?_, hjoin⟩, hlen⟩
    · simp [importNext, hsat, himport]
    · exact hfront.enter hwQ hmet hrep hins
  refine .inr (.inr ⟨?_, hrefuses, hown⟩)
  cases himport : s.pool.ready.importTx w with
  | mk o r' =>
    rw [himport] at hpanic
    cases hpanic
    simp [importNext, hsat, himport]

/-! ## The import loop -/

/-- The loop leaves with an error if and only if its first transaction is refused. Otherwise what
its rounds keep, it keeps, where `P` may speak of the rounds to come. -/
theorem importLoop_cases {P : Nat → ImportState H T → Prop}
    (hstep : ∀ fuel s s' w rest, s.toImport = w :: rest →
      importNext { s with toImport := rest } w = .ok s' → Flow Q outer s → P (fuel + 1) s →
        Advance s s' → P fuel s') (hflow : Flow Q outer s) (hP : P fuel s)
    (hfuel : s.toImport.length + s.pool.future.len ≤ fuel) :
    (∃ w rest became future, s.toImport = w :: rest ∧ s.first = true ∧
      s.pool.ready.Refuses w.transaction ∧
      s.pool.future.Struck w.transaction.provides became future ∧
      importLoop fuel s =
        .err (.tooLowPriority (s.pool.ready.oldPriority w.transaction) w.transaction.priority,
          { s.pool with future, ready := s.pool.ready.bump }) ∧
      Consistent Q outer { s.pool with future, ready := s.pool.ready.bump }) ∨
    (∀ w ∈ s.toImport.head?, s.first = true → ¬s.pool.ready.Refuses w.transaction) ∧
      ((∃ s', importLoop fuel s = .ok s' ∧ Flow Q outer s' ∧ s'.toImport = [] ∧ ∃ fuel, P fuel s') ∨
        importLoop fuel s = .panic ∧ ∃ (r : ReadyTransactions H T) (tx : Transaction H T), Q tx ∧
          ¬r.Refuses tx ∧ ∃ t ∈ tx.requires, t ∈ tx.provides ∧ r.providedTags.get? t ≠ none) := by
  induction fuel generalizing s with
  | zero =>
    have hempty : s.toImport = [] := length_eq_zero_iff.mp (by omega)
    exact .inr ⟨by simp [hempty], .inl ⟨s, by simp [importLoop, hempty], hflow, hempty, _, hP⟩⟩
  | succ fuel ih =>
    cases hstack : s.toImport with
    | nil => exact .inr ⟨by simp, .inl ⟨s, by simp [importLoop, hstack], hflow, hstack, _, hP⟩⟩
    | cons w rest =>
      rw [hstack, length_cons] at hfuel
      simp only [importLoop, hstack, head?_cons, Option.mem_some_iff, forall_eq']
      rcases importNext_cases hstack hflow with ⟨s1, hnext, hadv, hflow1, hlen⟩ |
        ⟨hfirst, hrefuses, became, future, hstruck, hnext, hcons⟩ | ⟨hnext, hnot, hown⟩
      · rw [hnext]
        rcases ih hflow1 (hstep fuel s s1 w rest hstack hnext hflow hP hadv) (by omega) with
          ⟨_, _, _, _, _, hfirst1, _⟩ | ⟨-, hrest⟩
        · cases hadv <;> cases hfirst1
        refine .inr ⟨fun hfirst => ?_, hrest⟩
        cases hadv with
        | refused _ hfirst' _ _ => cases hfirst.symm.trans hfirst'
        | entered hstack' hnot _ _ _ =>
          cases hstack.symm.trans hstack'
          exact hnot
      · rw [hnext]
        exact .inl ⟨w, rest, became, future, rfl, hfirst, hrefuses, hstruck, rfl, hcons⟩
      · rw [hnext]
        have hQ := (hflow.stack w (hstack ▸ mem_cons_self)).2
        exact .inr ⟨fun _ => hnot, .inr ⟨rfl, _, _, hQ, hnot, hown⟩⟩

section

omit [DecidableEq H] [DecidableEq T]

theorem startImport_fuel : (p.startImport w).toImport.length + (p.startImport w).pool.future.len ≤
    p.future.len + 1 := by
  simp only [startImport, length_singleton]
  omega

theorem flow_start (hinv : Consistent Q (w.transaction.hash :: outer) p) (hready : w.isReady)
    (hQ : Q w.transaction) : Flow Q outer (p.startImport w) :=
  ⟨hinv, by simpa [startImport] using ⟨hready, hQ⟩⟩

end

theorem Consistent.removeSubtree_ready (hinv : Consistent Q inFlight p) (hs : List H) :
    Consistent Q inFlight { p with ready := (p.ready.removeSubtree hs).2 } := by
  have hrem := removal_of_removeSubtree p.ready hs none
  exact hinv.shrink (hrem.mapped (hinv.mapped.keep none)) (hrem.shrinks hinv.mapped)

theorem importToReady_consistent (hinv : Consistent Q (w.transaction.hash :: outer) p)
    (hready : w.isReady) (hQ : Q w.transaction) (hne : (p.importToReady w).1 ≠ .panic) :
    Consistent Q outer (p.importToReady w).2 := by
  unfold importToReady at hne ⊢
  rcases importLoop_cases (fun _ _ _ _ _ _ _ _ _ _ => trivial) (flow_start hinv hready hQ) trivial
    startImport_fuel with ⟨_, _, _, _, _, _, _, _, hloop, hcons⟩ |
      ⟨-, ⟨s, hloop, hflow', hempty, -⟩ | ⟨hloop, -⟩⟩
  all_goals rw [hloop] at hne ⊢
  · exact hcons
  · have hcons : Consistent Q outer s.pool := by
      have := hflow'.pool
      rwa [hempty] at this
    dsimp only
    split
    · exact hcons.removeSubtree_ready s.promoted
    · exact hcons
  · exact absurd rfl hne

/-! ## The calls -/

section

omit [DecidableEq H] [DecidableEq T]

theorem isImported_iff {h : H} : p.isImported h = true ↔
    p.ready.ready.get? h ≠ none ∨ p.future.waiting.get? h ≠ none := by
  simp [isImported, FutureTransactions.contains, ReadyTransactions.contains, FinMap.contains,
    Option.isSome_iff_ne_none, or_comm]

theorem not_isImported_iff {h : H} : ¬p.isImported h = true ↔
    p.ready.ready.get? h = none ∧ p.future.waiting.get? h = none := by
  rw [isImported_iff]
  push Not
  rfl

theorem Consistent.launch (hinv : Consistent Q [] p) (hnew : ¬p.isImported tx.hash = true) :
    Consistent Q [tx.hash] p :=
  { hinv with
    nodup := nodup_singleton _
    absent := by simpa using not_isImported_iff.mp hnew }

end

omit [DecidableEq H] in
theorem not_provided_of_mem_missingTags {provided pruned} {now : Nat} {t : T}
    (ht : t ∈ (WaitingTransaction.new tx provided pruned now).missingTags) :
    t ∈ tx.requires ∧ provided.get? t = none ∧ ∀ tags ∈ pruned, t ∉ tags := by
  simp only [WaitingTransaction.new, FinMap.contains, mem_dedup, mem_filter,
    Bool.not_eq_true', Bool.or_eq_false_iff, Option.isSome_eq_false_iff, Option.isNone_iff_eq_none,
    any_eq_false, decide_eq_true_eq] at ht
  exact ht

theorem importTx_consistent (now : Nat) (hinv : Consistent Q [] p) (hQ : Q tx)
    (hne : (p.importTx tx now).1 ≠ .panic) :
    Consistent Q [] (p.importTx tx now).2 := by
  unfold importTx at hne ⊢
  split
  · exact hinv
  rename_i himported
  have hnew := not_isImported_iff.mp himported
  rw [if_neg himported] at hne
  dsimp only at hne ⊢
  split
  · rename_i hready
    rw [if_pos hready] at hne
    exact importToReady_consistent (hinv.launch himported) hready hQ hne
  rename_i hready
  split
  · exact hinv
  obtain ⟨future, heq, hfuture, hlisted, hcases⟩ :=
    importTx_spec hinv.future hinv.listed hready hnew.2
  simp only [heq]
  exact
    { mapped := hinv.mapped
      future := hfuture
      listed := hlisted
      apart := by
        intro h v hv
        rcases (hcases h v).mp hv with ⟨rfl, _⟩ | ⟨_, hv⟩
        · exact hnew.1
        · exact hinv.apart h v hv
      unprovided := by
        intro h v hv t ht
        rcases (hcases h v).mp hv with ⟨_, rfl⟩ | ⟨_, hv⟩
        · exact (not_provided_of_mem_missingTags ht).2.1
        · exact hinv.unprovided h v hv t ht
      onlyReady := hinv.onlyReady
      onlyFuture := by
        intro h v hv
        rcases (hcases h v).mp hv with ⟨_, rfl⟩ | ⟨_, hv⟩
        · exact hQ
        · exact hinv.onlyFuture h v hv
      nodup := nodup_nil
      absent := by simp }

omit [DecidableEq H] [DecidableEq T] in
theorem Consistent.forget (hinv : Consistent Q inFlight p) (hfuture : future.Inv)
    (hlisted : future.Listed)
    (hsub : ∀ h w, future.waiting.get? h = some w → p.future.waiting.get? h = some w) :
    Consistent Q inFlight { p with future } where
  mapped := hinv.mapped
  future := hfuture
  listed := hlisted
  apart := fun h w hw => hinv.apart h w (hsub h w hw)
  unprovided := fun h w hw => hinv.unprovided h w (hsub h w hw)
  onlyReady := hinv.onlyReady
  onlyFuture := fun h w hw => hinv.onlyFuture h w (hsub h w hw)
  nodup := hinv.nodup
  absent := by
    intro h hh
    refine ⟨(hinv.absent h hh).1, ?_⟩
    cases hw : future.waiting.get? h with
    | none => rfl
    | some w =>
      have hw0 := hsub h w hw
      rw [(hinv.absent h hh).2] at hw0
      cases hw0

theorem removeSubtree_consistent (hinv : Consistent Q inFlight p) (hs : List H) :
    Consistent Q inFlight (p.removeSubtree hs).2 := by
  obtain ⟨hfuture, hlisted, hsub⟩ := remove_spec hs hinv.future hinv.listed
  exact (hinv.removeSubtree_ready hs).forget hfuture hlisted fun h w hw => ((hsub h w).mp hw).2

theorem enforceReady_keeps {P : BasePool H T → Prop}
    (hstep : ∀ p h, limit.isExceeded p.ready.len p.ready.bytes = true → P p →
      P (p.removeSubtree [h]).2) (hP : P p) : P (enforceReady limit fuel p removed).2 := by
  induction fuel generalizing p removed with
  | zero => exact hP
  | succ fuel ih =>
    unfold enforceReady
    split
    · rename_i hexceeded
      split
      · exact hP
      · exact ih (hstep _ _ hexceeded hP)
    · exact hP

theorem enforceFuture_keeps {P : BasePool H T → Prop}
    (hstep : ∀ p w, oldestFuture p.future = some w → P p →
      P (p.removeSubtree [w.transaction.hash]).2) (hP : P p) :
    P (enforceFuture limit fuel p removed).2 := by
  induction fuel generalizing p removed with
  | zero => exact hP
  | succ fuel ih =>
    unfold enforceFuture
    split
    · split
      · exact hP
      · rename_i w hw
        exact ih (hstep p w hw hP)
    · exact hP

theorem enforceReady_consistent (hinv : Consistent Q [] p) :
    Consistent Q [] (enforceReady limit fuel p removed).2 :=
  enforceReady_keeps (fun _ h _ hinv => removeSubtree_consistent hinv [h]) hinv

theorem Consistent.pruneOne {became} {tag : T} {ready} (slot : Nat)
    (hinv : Consistent Q (hashes flight) p)
    (hsat : p.future.satisfyTags [tag] = some (became, future))
    (hprune : p.ready.pruneTags tag = some (gone, ready)) :
    p.future.Struck [tag] became future ∧ Pruning p.ready [tag] gone ready ∧
      (∀ w ∈ became, w.isReady ∧ Q w.transaction) ∧
      Consistent Q (hashes (flight ++ became)) { p with
          future
          ready
          recentlyPruned := p.recentlyPruned.modify slot (·.insert tag) } := by
  obtain ⟨became', future', hsat', hstruck, hbecame, _, hcons⟩ := hinv.satisfy [tag]
  rw [hsat] at hsat'
  cases hsat'
  obtain ⟨_, rfl, hpr⟩ := pruning_of_pruneLoop hinv.mapped (Nat.le_refl _) hprune
  refine ⟨hstruck, hpr, hbecame, ?_⟩
  have hshrunk := hcons.shrink (hpr.mapped hinv.mapped) (hpr.shrinks hinv.mapped)
  have hperm : (hashes (flight ++ became)).Subperm (hashes became.reverse ++ hashes flight) := by
    rw [hashes, hashes, map_append, map_reverse]
    refine List.Perm.subperm (perm_append_comm.trans ?_)
    exact (reverse_perm _).symm.append_right _
  exact { hshrunk.narrow hperm with }

omit [DecidableEq H] [DecidableEq T] in
theorem Consistent.startPrune (hinv : Consistent Q [] p) :
    Consistent Q (hashes ([] : List (WaitingTransaction H T))) p.startPrune := { hinv with }

theorem pruneEach_keeps {slot : Nat}
    (hstep : ∀ flight p, Consistent Q (hashes flight) p → P flight p → ∀ tag ∈ tags,
      ∀ became future gone ready, p.future.Struck [tag] became future →
        Pruning p.ready [tag] gone ready → P (flight ++ became) { p with
            future
            ready
            recentlyPruned := p.recentlyPruned.modify slot (·.insert tag) })
    (hinv : Consistent Q (hashes flight) p) (hP : P flight p)
    (heach : pruneEach slot tags p = some (toImport, pruned, p')) :
    Consistent Q (hashes (flight ++ toImport)) p' ∧ P (flight ++ toImport) p' ∧
      ∀ w ∈ toImport, w.isReady ∧ Q w.transaction := by
  induction tags generalizing p flight toImport pruned with
  | nil =>
    obtain ⟨rfl, _, rfl⟩ := heach
    rw [append_nil]
    exact ⟨hinv, hP, by simp⟩
  | cons tag tags ih =>
    obtain ⟨became, future, hsat, _⟩ := hinv.satisfy [tag]
    cases hprune : p.ready.pruneTags tag with
    | none => simp [pruneEach, hprune] at heach
    | some res =>
      obtain ⟨gone, ready⟩ := res
      obtain ⟨hstruck, hpr, hbecame, hcons⟩ := hinv.pruneOne slot hsat hprune
      simp only [pruneEach, hsat, hprune, Option.map_eq_some_iff, Prod.mk.injEq,
        Prod.exists] at heach
      obtain ⟨more, pruned', p1, heach, rfl, _, rfl⟩ := heach
      obtain ⟨hcons', hP', hmore⟩ := ih
        (fun flight p hinv hP tag htag => hstep flight p hinv hP tag (mem_cons_of_mem _ htag))
        hcons (hstep flight p hinv hP tag mem_cons_self became future gone ready hstruck hpr)
        heach
      rw [← append_assoc]
      exact ⟨hcons', hP', fun w hw => (mem_append.mp hw).elim (hbecame w) (hmore w)⟩

theorem pruneEach_consistent {slot : Nat} (hinv : Consistent Q [] p)
    (heach : pruneEach slot tags p.startPrune = some (toImport, pruned, p')) :
    Consistent Q (hashes toImport) p' ∧ ∀ w ∈ toImport, w.isReady ∧ Q w.transaction := by
  obtain ⟨hcons, _, hready⟩ := pruneEach_keeps (P := fun _ _ => True)
    (fun _ _ _ _ _ _ _ _ _ _ _ _ => trivial) hinv.startPrune trivial heach
  exact ⟨hcons, hready⟩

theorem promoteEach_keeps {promoted} {failed : List H}
    (hstep : ∀ w toImport p, Consistent Q (hashes (w :: toImport)) p → w.isReady →
      Q w.transaction → P (w :: toImport) p → (p.importToReady w).1 ≠ .panic →
        P toImport (p.importToReady w).2) (hinv : Consistent Q (hashes toImport) p)
    (hready : ∀ w ∈ toImport, w.isReady ∧ Q w.transaction) (hP : P toImport p)
    (heach : promoteEach toImport p = some (promoted, failed, p')) :
    Consistent Q [] p' ∧ P [] p' := by
  induction toImport generalizing p promoted failed with
  | nil =>
    obtain ⟨_, _, rfl⟩ := heach
    exact ⟨hinv, hP⟩
  | cons w toImport ih =>
    obtain ⟨⟨hwready, hwQ⟩, hrest⟩ := forall_mem_cons.mp hready
    have hcons := importToReady_consistent hinv hwready hwQ
    have hP1 := hstep w toImport p hinv hwready hwQ hP
    cases himport : p.importToReady w with
    | mk o p1 =>
      rw [himport] at hcons hP1
      simp only [promoteEach, himport] at heach
      cases o with
      | panic => simp at heach
      | ok res | err e =>
        simp only [Option.map_eq_some_iff, Prod.mk.injEq, Prod.exists] at heach
        obtain ⟨_, _, _, heach, _, _, rfl⟩ := heach
        exact ih (hcons (by simp)) hrest (hP1 (by simp)) heach

theorem call_importTx {now : Nat} : p.call (.importTx tx now) = some p' ↔
      (p.importTx tx now).1 ≠ .panic ∧ (p.importTx tx now).2 = p' := by
  cases himport : p.importTx tx now with
  | mk o p1 => cases o <;> simp [call, himport]

theorem call_pruneTags : p.call (.pruneTags tags) = some p' ↔
    ∃ toImport pruned p1, pruneEach p.recentlyPrunedIndex tags p.startPrune =
        some (toImport, pruned, p1) ∧
      ∃ promoted failed, promoteEach toImport p1 = some (promoted, failed, p') := by
  simp [call, pruneTags, Option.bind_eq_some_iff]

def Call.Only (Q : Transaction H T → Prop) : Call H T → Prop
  | .importTx tx _ => Q tx
  | _ => True

theorem call_consistent {c} (hinv : Consistent Q [] p) (hQ : c.Only Q) (hcall : p.call c = some p') :
    Consistent Q [] p' := by
  cases c with
  | importTx tx now =>
    obtain ⟨hne, rfl⟩ := call_importTx.mp hcall
    exact importTx_consistent now hinv hQ hne
  | removeSubtree hs =>
    cases hcall
    exact removeSubtree_consistent hinv hs
  | pruneTags tags =>
    obtain ⟨toImport, pruned, p1, heach, promoted, failed, hpromote⟩ := call_pruneTags.mp hcall
    obtain ⟨hcons, hready⟩ := pruneEach_consistent hinv heach
    exact (promoteEach_keeps (P := fun _ _ => True) (fun _ _ _ _ _ _ _ _ => trivial) hcons hready
      trivial hpromote).1
  | enforceLimits ready future =>
    cases hcall
    exact enforceFuture_keeps (fun _ _ _ hinv => removeSubtree_consistent hinv _)
      (enforceReady_consistent hinv)
  | clearFuture =>
    cases hcall
    exact hinv.forget inv_empty listed_empty fun _ _ hw => by cases hw

/-- **Every pool that calls lead to is consistent.** -/
theorem calls_consistent {cs} (hinv : Consistent Q [] p) (hQ : ∀ c ∈ cs, c.Only Q)
    (hcalls : p.calls cs = some p') : Consistent Q [] p' := by
  induction cs generalizing p with
  | nil =>
    cases hcalls
    exact hinv
  | cons c cs ih =>
    obtain ⟨hc, hcs⟩ := forall_mem_cons.mp hQ
    simp only [calls, Option.bind_eq_some_iff] at hcalls
    obtain ⟨p1, hcall, hcalls⟩ := hcalls
    exact ih (call_consistent hinv hc hcall) hcs hcalls

end BasePool

end Substrate.TxPool
