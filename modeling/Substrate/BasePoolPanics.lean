import Substrate.BasePoolConsistent

/-!
# The assertions of the pool

Two lists of tags break the assertions and `expect`s of the queues. A transaction that repeats a
provided tag and provides another one besides fails the assertion of `prune_tags` on what was
mapped, when it is pruned through the other tag. A transaction that provides a tag it also requires
fails the `expect` of `import`, when it replaces the provider of that tag.
-/

namespace Substrate.TxPool

open List Option

variable {H T : Type} [DecidableEq H] [DecidableEq T]

def Transaction.Harmless (tx : Transaction H T) : Prop :=
  (∀ a ∈ tx.provides, ∀ b ∈ tx.provides, a ≠ b → tx.provides.count a = 1) ∧
    (tx.priority = 0 ∨ ∀ t ∈ tx.requires, t ∉ tx.provides)

instance (tx : Transaction H T) : Decidable tx.Harmless := inferInstanceAs (Decidable (_ ∧ _))

namespace BasePool

open ReadyTransactions

variable {p p' : BasePool H T} {r : ReadyTransactions H T} {Q : Transaction H T → Prop}

/-! ## No call fails -/

variable {tx : Transaction H T} {w : WaitingTransaction H T}

theorem not_own_provider (htx : tx.Harmless) (hrefuses : ¬r.Refuses tx) :
    ¬∃ t ∈ tx.requires, t ∈ tx.provides ∧ r.providedTags.get? t ≠ none := by
  rintro ⟨t, hreq, hprov, hne⟩
  obtain ⟨h, hh⟩ := ne_none_iff_exists'.mp hne
  rcases htx.2 with hzero | hdisjoint
  · refine hrefuses ⟨?_, by omega⟩
    exact ne_nil_of_mem (mem_replaceHashes.mpr ⟨t, hprov, hh⟩)
  · exact hdisjoint t hreq hprov

theorem importToReady_ne_panic {outer : List H}
    (hinv : Consistent Transaction.Harmless (w.transaction.hash :: outer) p) (hready : w.isReady)
    (hw : w.transaction.Harmless) : (p.importToReady w).1 ≠ .panic := by
  unfold importToReady
  rcases importLoop_cases (fun _ _ _ _ _ _ _ _ _ _ => trivial) (flow_start hinv hready hw) trivial
    startImport_fuel with ⟨_, _, _, _, _, _, _, _, hloop, -⟩ |
      ⟨-, ⟨s, hloop, -⟩ | ⟨-, r, tx, hharmless, hrefuses, hown⟩⟩
  · rw [hloop]
    simp
  · rw [hloop]
    dsimp only
    split <;> simp
  · exact absurd hown (not_own_provider hharmless hrefuses)

theorem importTx_ne_panic (now : Nat) (hinv : Consistent Transaction.Harmless [] p)
    (htx : tx.Harmless) : (p.importTx tx now).1 ≠ .panic := by
  unfold importTx
  split
  · simp
  rename_i hnew
  dsimp only
  split
  · rename_i hready
    exact importToReady_ne_panic (hinv.launch hnew) hready htx
  rename_i hready
  split
  · simp
  · obtain ⟨future, heq, _⟩ := FutureTransactions.importTx_spec hinv.future hinv.listed hready
      (not_isImported_iff.mp hnew).2
    simp [heq]

theorem pruneEach_ne_none {slot : Nat} {tags : List T} {flight : List (WaitingTransaction H T)}
    (hinv : Consistent Transaction.Harmless (hashes flight) p) : pruneEach slot tags p ≠ none := by
  induction tags generalizing p flight with
  | nil => simp [pruneEach]
  | cons tag tags ih =>
    obtain ⟨became, future, hsat, _⟩ := hinv.satisfy [tag]
    cases hprune : p.ready.pruneTags tag with
    | none =>
      exact absurd hprune (pruneLoop_ne_none hinv.mapped fun h x hx => (hinv.onlyReady h x hx).1)
    | some res =>
      obtain ⟨gone, ready⟩ := res
      obtain ⟨_, _, _, hcons⟩ := hinv.pruneOne slot hsat hprune
      simp only [pruneEach, hsat, hprune, ne_eq, map_eq_none_iff]
      exact ih hcons

theorem promoteEach_ne_none {toImport} (hinv : Consistent Transaction.Harmless (hashes toImport) p)
    (hready : ∀ w ∈ toImport, w.isReady ∧ w.transaction.Harmless) :
    promoteEach toImport p ≠ none := by
  induction toImport generalizing p with
  | nil => simp [promoteEach]
  | cons w toImport ih =>
    obtain ⟨⟨hwready, hw⟩, hrest⟩ := forall_mem_cons.mp hready
    have hne := importToReady_ne_panic hinv hwready hw
    have hcons := importToReady_consistent hinv hwready hw hne
    cases himport : p.importToReady w with
    | mk o p1 =>
      rw [himport] at hne hcons
      simp only [promoteEach, himport]
      cases o with
      | panic => exact absurd rfl hne
      | ok res | err e => simpa using ih hcons hrest

theorem call_ne_none {c} (hinv : Consistent Transaction.Harmless [] p)
    (hc : c.Only Transaction.Harmless) : p.call c ≠ none := by
  cases c with
  | importTx tx now =>
    exact ne_none_iff_exists'.mpr ⟨_, call_importTx.mpr ⟨importTx_ne_panic now hinv hc, rfl⟩⟩
  | removeSubtree hs => simp [call]
  | pruneTags tags =>
    cases heach : pruneEach p.recentlyPrunedIndex tags p.startPrune with
    | none => exact absurd heach (pruneEach_ne_none hinv.startPrune)
    | some res =>
      obtain ⟨toImport, pruned, p1⟩ := res
      obtain ⟨hcons, hready⟩ := pruneEach_consistent hinv heach
      simpa [call, pruneTags, heach] using promoteEach_ne_none hcons hready
  | enforceLimits ready future | clearFuture => simp [call]

/-! ## The limits -/

theorem exists_of_mem_values {K V : Type} {m : FinMap K V} {x : V}
    (h : x ∈ m.keys.filterMap m.get?) : ∃ k, m.get? k = some x := by
  obtain ⟨k, _, hx⟩ := mem_filterMap.mp h
  exact ⟨k, hx⟩

theorem keys_length_of_values {K V : Type} {m : FinMap K V} (h : m.keys.filterMap m.get? = []) :
    m.keys.length = 0 := by
  rw [length_eq_zero_iff, eq_nil_iff_forall_not_mem]
  intro k hk
  have hmem := (m.mem_keys k).mp hk
  rw [filterMap_eq_nil_iff.mp h k hk] at hmem
  cases hmem

section

omit [DecidableEq H] [DecidableEq T]

theorem oldestReady_spec (r : ReadyTransactions H T) :
    (∀ m, oldestReady r = some m → ∃ h x, r.ready.get? h = some x ∧ x.transaction = m) ∧
      (oldestReady r = none → r.len = 0) := by
  have heq : oldestReady r =
      ((r.ready.keys.filterMap r.ready.get?).map (·.transaction)).argmin (·.insertionId) := by
    unfold oldestReady argmin
    rw [foldl_map]
    congr 1
    funext minimal current
    cases minimal <;> rfl
  rw [heq]
  refine ⟨fun m hm => ?_, fun hnone => ?_⟩
  · obtain ⟨x, hx, rfl⟩ := mem_map.mp (argmin_mem hm)
    obtain ⟨h, hh⟩ := exists_of_mem_values hx
    exact ⟨h, x, hh, rfl⟩
  · exact keys_length_of_values (map_eq_nil_iff.mp (argmin_eq_none.mp hnone))

theorem oldestFuture_spec (f : FutureTransactions H T) :
    (∀ m, oldestFuture f = some m → ∃ h, f.waiting.get? h = some m) ∧
      (oldestFuture f = none → f.len = 0) := by
  have heq : oldestFuture f = (f.waiting.keys.filterMap f.waiting.get?).argmin (·.importedAt) := by
    unfold oldestFuture argmin
    congr 1
    funext minimal current
    cases minimal <;> rfl
  rw [heq]
  exact ⟨fun m hm => exists_of_mem_values (argmin_mem hm), fun hnone =>
    keys_length_of_values (argmin_eq_none.mp hnone)⟩

theorem ready_within_of_len (limit : Limit) (hlen : r.len = 0) :
    limit.isExceeded r.len r.bytes = false := by
  have hkeys : r.ready.keys = [] := length_eq_zero_iff.mp hlen
  simp [Limit.isExceeded, ReadyTransactions.len, ReadyTransactions.bytes, hkeys]

theorem future_within_of_len (limit : Limit) {f : FutureTransactions H T} (hlen : f.len = 0) :
    limit.isExceeded f.len f.bytes = false := by
  have hkeys : f.waiting.keys = [] := length_eq_zero_iff.mp hlen
  simp [Limit.isExceeded, FutureTransactions.len, FutureTransactions.bytes, hkeys]

end

theorem Removal.len_le {r' filter} {stack : List H} {removed}
    (hrem : Removal filter r stack removed r') : r'.len + removed.length = r.len := by
  induction hrem with
  | done _ => simp
  | step hx _ _ _ _ ih =>
    have := len_removeOne_add_one filter hx
    rw [length_cons]
    omega

theorem len_removeSubtree_lt {h : H} {x} (hx : r.ready.get? h = some x) :
    (r.removeSubtree [h]).2.len < r.len := by
  have hrem := removal_of_removeSubtree r [h] none
  show (r.removeSubtreeWithTagFilter [h] none).2.len < r.len
  generalize r.removeSubtreeWithTagFilter [h] none = res at hrem ⊢
  obtain ⟨removed, r'⟩ := res
  have hlen := Removal.len_le hrem
  cases hrem with
  | done hnone =>
    rw [hnone h (by simp)] at hx
    cases hx
  | step _ _ _ _ _ =>
    rw [length_cons] at hlen
    omega

theorem enforceReady_within (limit : Limit) {fuel : Nat} (removed : List (Transaction H T))
    (hinv : Consistent Q [] p) (hfuel : p.ready.len ≤ fuel) :
    limit.isExceeded (enforceReady limit fuel p removed).2.ready.len
      (enforceReady limit fuel p removed).2.ready.bytes = false := by
  induction fuel generalizing p removed with
  | zero => exact ready_within_of_len limit (Nat.le_zero.mp hfuel)
  | succ fuel ih =>
    unfold enforceReady
    split
    · split
      · rename_i hnone
        exact ready_within_of_len limit ((oldestReady_spec p.ready).2 hnone)
      · rename_i minimal hminimal
        obtain ⟨h, x, hx, rfl⟩ := (oldestReady_spec p.ready).1 minimal hminimal
        have hhash : x.transaction.transaction.hash = h := hinv.mapped.keyed h x hx
        have hlt := len_removeSubtree_lt hx
        rw [hhash]
        exact ih _ (removeSubtree_consistent hinv [h])
          (show (p.ready.removeSubtree [h]).2.len ≤ fuel by omega)
    · rename_i hexceeded
      simpa using hexceeded

theorem removeSubtree_of_waiting {h : H} (hinv : Consistent Q [] p)
    (hw : p.future.waiting.get? h = some w) :
    (p.removeSubtree [h]).2.ready = p.ready ∧
      (p.removeSubtree [h]).2.future.len + 1 = p.future.len := by
  constructor
  · have hrem := removal_of_removeSubtree p.ready [h] none
    show (p.ready.removeSubtreeWithTagFilter [h] none).2 = p.ready
    generalize p.ready.removeSubtreeWithTagFilter [h] none = res at hrem
    obtain ⟨removed, r'⟩ := res
    cases hrem with
    | done _ => rfl
    | step hx hmem _ _ _ =>
      simp only [reverse_singleton, mem_singleton] at hmem
      rw [hmem, hinv.apart h w hw] at hx
      cases hx
  · have herase := FinMap.length_keys_erase hw
    simpa [removeSubtree, FutureTransactions.remove, hw, FutureTransactions.len] using herase

theorem enforceFuture_within (limit : Limit) {fuel : Nat} (removed : List (Transaction H T))
    (hinv : Consistent Q [] p) (hfuel : p.future.len ≤ fuel) :
    limit.isExceeded (enforceFuture limit fuel p removed).2.future.len
        (enforceFuture limit fuel p removed).2.future.bytes = false ∧
      (enforceFuture limit fuel p removed).2.ready = p.ready := by
  induction fuel generalizing p removed with
  | zero => exact ⟨future_within_of_len limit (Nat.le_zero.mp hfuel), rfl⟩
  | succ fuel ih =>
    unfold enforceFuture
    split
    · split
      · rename_i hnone
        exact ⟨future_within_of_len limit ((oldestFuture_spec p.future).2 hnone), rfl⟩
      · rename_i w hminimal
        obtain ⟨h, hw⟩ := (oldestFuture_spec p.future).1 w hminimal
        have hhash : w.transaction.hash = h := hinv.future.keyed h w hw
        obtain ⟨hready, hlen⟩ := removeSubtree_of_waiting hinv hw
        rw [hhash]
        obtain ⟨hwithin, hsame⟩ := ih (removed ++ (p.removeSubtree [h]).1)
          (removeSubtree_consistent hinv [h]) (by omega)
        exact ⟨hwithin, hsame.trans hready⟩
    · rename_i hexceeded
      exact ⟨by simpa using hexceeded, rfl⟩

def Within (p : BasePool H T) (ready future : Limit) : Prop :=
  ready.isExceeded p.ready.len p.ready.bytes = false ∧
    future.isExceeded p.future.len p.future.bytes = false

theorem enforceLimits_within (hinv : Consistent Q [] p) (ready future : Limit) :
    Within (p.enforceLimits ready future).2 ready future := by
  have hready := enforceReady_within ready [] hinv (Nat.le_refl _)
  have hcons : Consistent Q [] (enforceReady ready p.ready.len p []).2 :=
    enforceReady_consistent hinv
  obtain ⟨hfuture, hsame⟩ := enforceFuture_within future
    (enforceReady ready p.ready.len p []).1 hcons (Nat.le_refl _)
  refine ⟨?_, hfuture⟩
  rw [← hsame] at hready
  exact hready

/-! ## Every run -/

/-- **No call fails an assertion** in a run whose transactions are harmless, and `enforce_limits`
brings every pool within the limits. -/
theorem calls_never_panic (reject : Bool) (cs : List (Call H T))
    (hharmless : ∀ c ∈ cs, c.Only Transaction.Harmless) :
    ∃ p, (new reject).calls cs = some p ∧
      ∀ ready future, Within (p.enforceLimits ready future).2 ready future := by
  have hrun : ∀ p : BasePool H T, Consistent Transaction.Harmless [] p →
      ∃ p', p.calls cs = some p' := by
    induction cs with
    | nil => exact fun p _ => ⟨p, rfl⟩
    | cons c cs ih =>
      obtain ⟨hc, hcs⟩ := forall_mem_cons.mp hharmless
      intro p hinv
      obtain ⟨p1, hcall⟩ := ne_none_iff_exists'.mp (call_ne_none hinv hc)
      obtain ⟨p', hcalls⟩ := ih hcs p1 (call_consistent hinv hc hcall)
      exact ⟨p', by simp only [calls, hcall, bind_some, hcalls]⟩
  have hnew := consistent_new Transaction.Harmless reject (H := H) (T := T)
  obtain ⟨p, hcalls⟩ := hrun (new reject) hnew
  exact ⟨p, hcalls, fun ready future =>
    enforceLimits_within (calls_consistent hnew hharmless hcalls) ready future⟩

def harmlessRun : List (Call Nat Nat) :=
  [.importTx ⟨1, 1, 5, 64, [], [10, 11]⟩ 0, .importTx ⟨1, 2, 1, 64, [10], [20]⟩ 0,
    .importTx ⟨1, 3, 9, 64, [10], [20]⟩ 0, .pruneTags [10], .enforceLimits ⟨0, 0⟩ ⟨0, 0⟩]

theorem harmlessRun_never_panics : ∃ p, (new false).calls harmlessRun = some p ∧
    ∀ ready future, Within (p.enforceLimits ready future).2 ready future :=
  calls_never_panic false harmlessRun (by
    simp only [harmlessRun, forall_mem_cons, not_mem_nil, false_implies, implies_true, and_true]
    exact ⟨by unfold Call.Only; decide, by unfold Call.Only; decide, by unfold Call.Only; decide,
      trivial, trivial⟩)

/-- A transaction that provides tag 20 twice, pruned through tag 10; and a
transaction that requires and provides tag 10 in the place of its provider. -/
theorem repeated_tags_panic :
    (new false).calls [.importTx (⟨1, 1, 5, 64, [], [10, 20, 20]⟩ : Transaction Nat Nat) 0,
      .pruneTags [10]] = none ∧
    (new false).calls [.importTx (⟨1, 1, 1, 64, [], [10]⟩ : Transaction Nat Nat) 0,
      .importTx ⟨1, 2, 5, 64, [10], [10]⟩ 0] = none :=
  ⟨rfl, rfl⟩

end BasePool

end Substrate.TxPool
