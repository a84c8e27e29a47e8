import Substrate.BlockStates
import Substrate.StateDbSync

/-!
# The pruning window over the canonical chain

`C` lists the blocks canonicalized so far, `A` of them applied, the first `q` of them pruned.
`WindowInv` relates the rows and the database to the states of these blocks. Pending
canonicalizations need not form a chain (applying them fails then), so every statement is made for
each prefix of `C` that does: the keys in a row are dead from there on (`dead`), the state at the
end of the prefix is in the database apart from what pending blocks above it have had pruned
(`live`), and so is every key that a block of the window deletes (`doomed`).
-/

namespace Substrate.StateDb.RefWindow

open Function List Option StateDbSync

variable {H K V : Type} {w w' : RefWindow H K}

/-! ## A block enters -/

/-- The rows, with the keys that `gone` names taken out of them. -/
structure Trims (gone : Nat → K → Prop) (rows rows' : List (DeathRow H K)) : Prop where
  length_eq : rows'.length = rows.length
  row : ∀ i r', rows'[i]? = some r' → ∃ r, rows[i]? = some r ∧ r'.hash = r.hash ∧
    ∀ k, k ∈ r'.deleted ↔ k ∈ r.deleted ∧ ¬gone i k

theorem Trims.refl (rows : List (DeathRow H K)) : Trims (fun _ _ => False) rows rows :=
  ⟨rfl, fun _ r h => ⟨r, h, rfl, fun k => by simp⟩⟩

variable {rows' rows : List (DeathRow H K)} {gone' gone : Nat → K → Prop}

theorem Trims.congr (h : Trims gone rows rows') (hg : ∀ i k, gone i k ↔ gone' i k) :
    Trims gone' rows rows' := by
  refine ⟨h.length_eq, fun i r' hr' => ?_⟩
  obtain ⟨r, hr, hhash, hdel⟩ := h.row i r' hr'
  exact ⟨r, hr, hhash, fun k => by rw [hdel, hg]⟩

theorem Trims.trans {rows1 : List (DeathRow H K)} (h : Trims gone rows rows1)
    (h' : Trims gone' rows1 rows') : Trims (fun i k => gone i k ∨ gone' i k) rows rows' := by
  refine ⟨h'.length_eq.trans h.length_eq, fun i r' hr' => ?_⟩
  obtain ⟨r1, hr1, hhash', hdel'⟩ := h'.row i r' hr'
  obtain ⟨r, hr, hhash, hdel⟩ := h.row i r1 hr1
  refine ⟨r, hr, hhash'.trans hhash, fun k => ?_⟩
  rw [hdel', hdel]
  tauto

variable [DecidableEq K]

structure Imports (w : RefWindow H K) (hash : H) (inserted deleted : List K)
    (w' : RefWindow H K) : Prop where
  rows : ∃ rows journalKey, w'.deathRows = rows ++ [⟨hash, journalKey, .ofList deleted⟩] ∧
    Trims (fun i k => k ∈ inserted ∧ ∃ b, w.deathIndex.get? k = some b ∧ b - w.pendingNumber = i)
      w.deathRows rows
  deathIndex : ∀ k, w'.deathIndex.get? k =
    if k ∈ deleted then some (w.pendingNumber + w.deathRows.length)
    else if k ∈ inserted then none else w.deathIndex.get? k
  pendingNumber : w'.pendingNumber = w.pendingNumber
  pendingPrunings : w'.pendingPrunings = w.pendingPrunings
  countInsertions : w'.countInsertions = w.countInsertions

theorem reinsert_spec {k : K} (hrun : w.reinsert k = some w') :
    Trims (fun i j => j = k ∧ ∃ b, w.deathIndex.get? k = some b ∧ b - w.pendingNumber = i)
        w.deathRows w'.deathRows ∧
      w'.deathIndex.get? = update w.deathIndex.get? k none ∧
      w'.pendingNumber = w.pendingNumber ∧ w'.pendingPrunings = w.pendingPrunings ∧
      w'.countInsertions = w.countInsertions := by
  unfold reinsert at hrun
  cases hb : w.deathIndex.get? k with
  | none =>
    simp only [hb, some.injEq] at hrun
    subst hrun
    refine ⟨(Trims.refl _).congr fun i j => by simp, ?_, rfl, rfl, rfl⟩
    rw [← hb, update_eq_self]
  | some b =>
    simp only [hb] at hrun
    split at hrun
    · cases hrun
    rename_i row hrow
    obtain rfl := some.inj hrun
    refine ⟨⟨by simp, fun i r' hr' => ?_⟩, rfl, rfl, rfl, rfl⟩
    by_cases hi : b - w.pendingNumber = i
    · subst hi
      have hlt := (List.getElem?_eq_some_iff.mp hrow).1
      rw [getElem?_set_self hlt, some.injEq] at hr'
      subst hr'
      refine ⟨row, hrow, rfl, fun j => ?_⟩
      rw [KeySet.mem_erase]
      simp
      tauto
    · rw [getElem?_set_ne hi] at hr'
      exact ⟨r', hr', rfl, fun j => by simp [hi]⟩

theorem reinsert_all_spec {ins : List K} (hrun : ins.foldlM reinsert w = some w') :
    Trims (fun i k => k ∈ ins ∧ ∃ b, w.deathIndex.get? k = some b ∧ b - w.pendingNumber = i)
        w.deathRows w'.deathRows ∧
      (∀ k, w'.deathIndex.get? k = if k ∈ ins then none else w.deathIndex.get? k) ∧
      w'.pendingNumber = w.pendingNumber ∧ w'.pendingPrunings = w.pendingPrunings ∧
      w'.countInsertions = w.countInsertions := by
  induction ins generalizing w with
  | nil =>
    obtain rfl := by simpa using hrun
    exact ⟨(Trims.refl _).congr fun i k => by simp, fun k => by simp, rfl, rfl, rfl⟩
  | cons k ins ih =>
    rw [foldlM_cons] at hrun
    obtain ⟨w1, hfirst, hmore⟩ := bind_eq_some_iff.mp hrun
    obtain ⟨htrim, hindex, hnum, hprune, hcount⟩ := reinsert_spec hfirst
    obtain ⟨htrim', hindex', hnum', hprune', hcount'⟩ := ih hmore
    refine ⟨(htrim.trans htrim').congr fun i j => ?_, fun j => ?_, hnum'.trans hnum,
      hprune'.trans hprune, hcount'.trans hcount⟩
    · rw [hnum, hindex]
      by_cases hj : j = k
      · subst hj
        simp
      · rw [update_of_ne hj]
        simp [hj]
    · rw [hindex', hindex]
      by_cases hj : j = k
      · simp [hj]
      · rw [update_of_ne hj]
        simp [hj]

theorem imports_of_importBlock {hash : H} {journalKey : Nat} {inserted deleted : List K}
    (hcount : w.countInsertions = true)
    (hrun : w.importBlock hash journalKey inserted deleted = some w') :
    Imports w hash inserted deleted w' := by
  unfold importBlock at hrun
  rw [if_pos hcount] at hrun
  split at hrun
  · cases hrun
  rename_i w1 hall
  obtain ⟨htrim, hindex, hnum, hprune, hcount1⟩ := reinsert_all_spec hall
  rw [hcount] at hcount1
  simp only [hcount1, if_true, some.injEq] at hrun
  subst hrun
  refine ⟨⟨w1.deathRows, journalKey, rfl, htrim⟩, fun k => ?_, hnum, hprune, hcount.symm⟩
  rw [FinMap.get?_foldl_insert, hindex, hnum, htrim.length_eq]

/-! ## Rows are pruned -/

omit [DecidableEq K] in
theorem pruneRows_spec (constraints : Constraints) (pinned : FinMap H Nat) {fuel : Nat}
    {commit commit' : CommitSet H K V} (hle : w.pendingPrunings ≤ w.deathRows.length)
    (hrun : pruneRows constraints pinned fuel w commit = (commit', w')) :
    ∃ m, w' = { w with pendingPrunings := w.pendingPrunings + m } ∧
      w.pendingPrunings + m ≤ w.deathRows.length ∧
      commit'.data.inserted = commit.data.inserted ∧
      commit'.data.deleted = commit.data.deleted ++
        ((w.deathRows.drop w.pendingPrunings).take m).flatMap fun row => row.deleted.keys := by
  induction fuel generalizing w commit with
  | zero =>
    obtain ⟨rfl, rfl⟩ := hrun
    exact ⟨0, rfl, hle, rfl, by simp⟩
  | succ fuel ih =>
    unfold pruneRows at hrun
    split at hrun
    · obtain ⟨rfl, rfl⟩ := hrun
      exact ⟨0, rfl, hle, rfl, by simp⟩
    rename_i hsize
    split at hrun
    · obtain ⟨rfl, rfl⟩ := hrun
      exact ⟨0, rfl, hle, rfl, by simp⟩
    split at hrun
    · obtain ⟨rfl, rfl⟩ := hrun
      exact ⟨0, rfl, hle, rfl, by simp⟩
    have hlt : w.pendingPrunings < w.deathRows.length := by
      unfold windowSize at hsize
      omega
    have hrow := getElem?_eq_getElem hlt
    simp only [pruneOne, hrow] at hrun
    obtain ⟨m, rfl, hm, hins, hdel⟩ :=
      ih (w := { w with pendingPrunings := w.pendingPrunings + 1 }) hlt hrun
    refine ⟨m + 1, ?_, by simp only at hm; omega, hins, ?_⟩
    · rw [Nat.add_assoc, Nat.add_comm 1 m]
    · rw [hdel, append_assoc, drop_eq_getElem_cons hlt, take_succ_cons, flatMap_cons]

theorem popPruned_spec {n : Nat} (hcount : w.countInsertions = true)
    (hrun : popPruned n w = some w') :
    w'.deathRows = w.deathRows.drop n ∧ w'.pendingNumber = w.pendingNumber + n ∧
      n ≤ w.deathRows.length ∧ w'.countInsertions = true ∧
      ∀ k, w'.deathIndex.get? k =
        if ∃ row ∈ w.deathRows.take n, k ∈ row.deleted then none else w.deathIndex.get? k := by
  induction n generalizing w with
  | zero =>
    obtain rfl := by simpa [popPruned] using hrun
    exact ⟨rfl, rfl, Nat.zero_le _, hcount, fun k => by simp⟩
  | succ n ih =>
    unfold popPruned popFront at hrun
    cases hrows : w.deathRows with
    | nil => simp [hrows] at hrun
    | cons row rows =>
      simp only [hrows, hcount, if_true] at hrun
      obtain ⟨hrows', hnum, hle, hcount', hindex⟩ := ih rfl hrun
      refine ⟨hrows', by rw [hnum]; simp only; omega, by simpa using hle, hcount', fun k => ?_⟩
      rw [hindex, FinMap.get?_foldl_erase]
      by_cases hk : k ∈ row.deleted
      · have hk' : k ∈ row.deleted.keys := hk
        simp [hk, hk']
      · have hk' : k ∉ row.deleted.keys := hk
        simp [hk, hk']

end Substrate.StateDb.RefWindow

namespace Substrate.StateDb

open List Nat

variable {H K V : Type} (B : Blocks H K)

def prev (C : List H) : Nat → H
  | 0 => B.root
  | i + 1 => (C[i]?).getD B.root

/-- The first `m` canonicalized blocks form a chain above `root`. -/
def Chain (C : List H) (m : Nat) : Prop :=
  ∀ i h, i < m → C[i]? = some h → h ≠ B.root ∧ B.parent h = prev B C i

variable {B} {C : List H} {S : K → Prop} {val : K → V} {i m n : Nat} {row : DeathRow H K}

theorem prev_succ {h : H} (hi : C[i]? = some h) : prev B C (i + 1) = h := by
  simp [prev, hi]

theorem prev_append (hi : i ≤ C.length) (h : H) : prev B (C ++ [h]) i = prev B C i := by
  cases i with
  | zero => rfl
  | succ i => simp [prev, getElem?_append_left (show i < C.length from hi)]

theorem getElem?_concat_lt (hi : i < C.length) (h : H) : (C ++ [h])[i]? = C[i]? :=
  getElem?_append_left hi

theorem Chain.mono {m' : Nat} (hc : Chain B C m) (hm : m' ≤ m) : Chain B C m' :=
  fun i h hi => hc i h (by omega)

theorem chain_concat (hm : m ≤ C.length) (h : H) : Chain B (C ++ [h]) m ↔ Chain B C m := by
  constructor
  · intro hc i g hi hg
    have hlt : i < C.length := by omega
    have := hc i g hi (by rw [getElem?_concat_lt hlt, hg])
    rwa [prev_append (by omega)] at this
  · intro hc i g hi hg
    have hlt : i < C.length := by omega
    rw [getElem?_concat_lt hlt] at hg
    rw [prev_append (by omega)]
    exact hc i g hi hg

theorem not_live_of_dead (hvalid : B.ValidChanges S) {g : H} {k : K} (hchain : Chain B C m)
    (hnm : n ≤ m) (hmC : m ≤ C.length) (hg : C[i]? = some g) (hin : i < n) (hdel : k ∈ B.deleted g)
    (hdead : ∀ j h, i < j → j < n → C[j]? = some h → k ∉ B.inserted h) :
    ¬B.Live S (prev B C n) k := by
  induction n with
  | zero => omega
  | succ n ih =>
    obtain ⟨h, hh⟩ : ∃ h, C[n]? = some h := ⟨_, getElem?_eq_getElem (by omega)⟩
    obtain ⟨hroot, hparent⟩ := hchain n h (by omega) hh
    rw [prev_succ hh, Blocks.live_iff hroot, hparent]
    rintro (hins | ⟨hlive, hnot⟩)
    · by_cases hi : i = n
      · subst hi
        obtain rfl := Option.some.inj (hg.symm.trans hh)
        exact hvalid.disjoint g hroot k hins hdel
      · exact hdead n h (by omega) (by omega) hh hins
    · by_cases hi : i = n
      · subst hi
        obtain rfl := Option.some.inj (hg.symm.trans hh)
        exact hnot hdel
      · exact ih (by omega) (by omega) (fun j h' hj hjn => hdead j h' hj (by omega)) hlive

structure WindowInv (B : Blocks H K) (S : K → Prop) (val : K → V) (C : List H) (A q : Nat)
    (w : RefWindow H K) (data : K → Option V) : Prop where
  countInsertions : w.countInsertions = true
  popped_le : q ≤ A
  applied_le : A ≤ C.length
  length_eq : q + w.deathRows.length = C.length
  pending_le : w.pendingPrunings ≤ w.deathRows.length
  row_hash : ∀ (i : Nat) (row : DeathRow H K), w.deathRows[i]? = some row → C[q + i]? = some row.hash
  row_deleted : ∀ (i : Nat) (row : DeathRow H K) (k : K), w.deathRows[i]? = some row → k ∈ row.deleted →
    k ∈ B.deleted row.hash
  index : Chain B C C.length → ∀ (i : Nat) (row : DeathRow H K) (k : K), w.deathRows[i]? = some row →
    k ∈ row.deleted → w.deathIndex.get? k = some (w.pendingNumber + i)
  dead : ∀ m, A ≤ m → m ≤ C.length → Chain B C m → ∀ (i : Nat) (row : DeathRow H K) (k : K),
    w.deathRows[i]? = some row → k ∈ row.deleted → ∀ j h, q + i < j → j < m → C[j]? = some h → k ∉ B.inserted h
  live : ∀ m, A ≤ m → m ≤ C.length → Chain B C m → ∀ k, B.Live S (prev B C m) k →
    data k = some (val k) ∨
      ∃ j h, m ≤ j ∧ j < q + w.pendingPrunings ∧ C[j]? = some h ∧ k ∈ B.deleted h
  doomed : ∀ m, A ≤ m → m ≤ C.length → Chain B C m → ∀ j h k, q + w.pendingPrunings ≤ j →
    j < m → C[j]? = some h → k ∈ B.deleted h → data k = some (val k)

variable {A q : Nat} {w : RefWindow H K} {data : K → Option V}

theorem WindowInv.haveBlock [DecidableEq H] (hw : WindowInv B S val C A q w data) {h : H}
    (hhave : w.haveBlock h = true) : ∃ i, C[q + (w.pendingPrunings + i)]? = some h := by
  rw [RefWindow.haveBlock, any_eq_true] at hhave
  obtain ⟨row, hrow, hhash⟩ := hhave
  obtain ⟨i, hi⟩ := mem_iff_getElem?.mp hrow
  rw [getElem?_drop] at hi
  exact ⟨i, of_decide_eq_true hhash ▸ hw.row_hash _ row hi⟩

theorem WindowInv.not_live (hw : WindowInv B S val C A q w data) (hvalid : B.ValidChanges S) {k : K}
    (hA : A ≤ m) (hm : m ≤ C.length) (hchain : Chain B C m) (hrow : w.deathRows[i]? = some row)
    (hk : k ∈ row.deleted) (hin : q + i < n) (hnm : n ≤ m) : ¬B.Live S (prev B C n) k :=
  not_live_of_dead hvalid hchain hnm hm (hw.row_hash i row hrow) hin
    (hw.row_deleted i row k hrow hk)
    fun j h hj hjn hh => hw.dead m hA hm hchain i row k hrow hk j h hj (by omega) hh

/-! ## A block is canonicalized -/

section

variable {h : H} {w' : RefWindow H K} {i : Nat} {row' : DeathRow H K} {k : K}

theorem chain_of_concat (hc : Chain B (C ++ [h]) (C.length + 1)) : Chain B C C.length :=
  (chain_concat (Nat.le_refl _) h).mp (hc.mono (le_succ _))

theorem Chain.last (hc : Chain B (C ++ [h]) (C.length + 1)) :
    h ≠ B.root ∧ B.parent h = prev B C C.length := by
  have := hc C.length h (by omega) getElem?_concat_length
  rwa [prev_append (Nat.le_refl _)] at this

section

variable (hw : WindowInv B S val C A q w data)
include hw

theorem WindowInv.data_of_live (hc : Chain B C C.length) (hlive : B.Live S (prev B C C.length) k) :
    data k = some (val k) := by
  rcases hw.live C.length hw.applied_le (Nat.le_refl _) hc k hlive with hdata | ⟨j, g, hj, hj', _⟩
  · exact hdata
  · have := hw.length_eq
    have := hw.pending_le
    omega

/-- On a chain the index finds the row of a key, so what the new block inserts has
left the old rows. -/
theorem WindowInv.not_inserted (hc : Chain B (C ++ [h]) (C.length + 1))
    (hrow : w.deathRows[i]? = some row) (hdel : k ∈ row'.deleted ↔ k ∈ row.deleted ∧
      ¬(k ∈ B.inserted h ∧ ∃ b, w.deathIndex.get? k = some b ∧ b - w.pendingNumber = i))
    (hk : k ∈ row'.deleted) : k ∉ B.inserted h := by
  obtain ⟨hk, hnot⟩ := hdel.mp hk
  intro hins
  refine hnot ⟨hins, _, hw.index (chain_of_concat hc) i row k hrow hk, ?_⟩
  omega

variable [DecidableEq K]

theorem WindowInv.row_cases (hi : RefWindow.Imports w h (B.inserted h) (B.deleted h) w')
    (hrow' : w'.deathRows[i]? = some row') :
    (∃ row, w.deathRows[i]? = some row ∧ row'.hash = row.hash ∧ q + i < C.length ∧
      ∀ k, k ∈ row'.deleted ↔ k ∈ row.deleted ∧
        ¬(k ∈ B.inserted h ∧ ∃ b, w.deathIndex.get? k = some b ∧ b - w.pendingNumber = i)) ∨
    (q + i = C.length ∧ row'.hash = h ∧ ∀ k, k ∈ row'.deleted ↔ k ∈ B.deleted h) := by
  obtain ⟨rows, journalKey, hrows, htrim⟩ := hi.rows
  have hlen := hw.length_eq
  have hlen' := htrim.length_eq
  rw [hrows] at hrow'
  by_cases hilt : i < rows.length
  · rw [List.getElem?_append_left hilt] at hrow'
    obtain ⟨row, hrow, hhash, hdel⟩ := htrim.row i row' hrow'
    exact .inl ⟨row, hrow, hhash, by omega, hdel⟩
  have hlt := (List.getElem?_eq_some_iff.mp hrow').1
  rw [List.length_append, List.length_singleton] at hlt
  obtain rfl : i = rows.length := by omega
  rw [List.getElem?_concat_length, Option.some.injEq] at hrow'
  subst hrow'
  exact .inr ⟨by omega, rfl, fun k => KeySet.mem_ofList⟩

theorem WindowInv.enter_index (hvalid : B.ValidChanges S)
    (hi : RefWindow.Imports w h (B.inserted h) (B.deleted h) w')
    (hc : Chain B (C ++ [h]) (C.length + 1)) (hrow' : w'.deathRows[i]? = some row')
    (hk : k ∈ row'.deleted) : w'.deathIndex.get? k = some (w'.pendingNumber + i) := by
  rw [hi.deathIndex, hi.pendingNumber]
  rcases hw.row_cases hi hrow' with ⟨row, hrow, _, hlt, hdel⟩ | ⟨heq, _, hdel⟩
  · have hkrow := ((hdel k).mp hk).1
    have hndel : k ∉ B.deleted h := by
      intro hkdel
      obtain ⟨hroot, hparent⟩ := hc.last
      have hlive := hvalid.deleted_live h hroot k hkdel
      rw [hparent] at hlive
      exact hw.not_live hvalid hw.applied_le (Nat.le_refl _) (chain_of_concat hc) hrow hkrow hlt
        (Nat.le_refl _) hlive
    rw [if_neg hndel, if_neg (hw.not_inserted hc hrow (hdel k) hk)]
    exact hw.index (chain_of_concat hc) i row k hrow hkrow
  · have := hw.length_eq
    rw [if_pos ((hdel k).mp hk)]
    congr 2
    omega

theorem WindowInv.enter_dead (hi : RefWindow.Imports w h (B.inserted h) (B.deleted h) w')
    (hA : A ≤ m) (hm : m ≤ C.length + 1) (hc : Chain B (C ++ [h]) m)
    (hrow' : w'.deathRows[i]? = some row') (hk : k ∈ row'.deleted) {j : Nat} {g : H}
    (hij : q + i < j) (hjm : j < m) (hg : (C ++ [h])[j]? = some g) : k ∉ B.inserted g := by
  rcases hw.row_cases hi hrow' with ⟨row, hrow, _, hlt, hdel⟩ | ⟨heq, _, _⟩
  · by_cases hj : j < C.length
    · rw [getElem?_concat_lt hj] at hg
      have hk' := ((hdel k).mp hk).1
      by_cases hmC : m ≤ C.length
      · exact hw.dead m hA hmC ((chain_concat hmC h).mp hc) i row k hrow hk' j g hij hjm hg
      · exact hw.dead C.length hw.applied_le (Nat.le_refl _) (chain_of_concat (hc.mono (by omega)))
          i row k hrow hk' j g hij hj hg
    · obtain rfl : j = C.length := by omega
      obtain rfl := Option.some.inj (getElem?_concat_length.symm.trans hg)
      exact hw.not_inserted (hc.mono (by omega)) hrow (hdel k) hk
  · omega

theorem WindowInv.enter (hvalid : B.ValidChanges S)
    (hi : RefWindow.Imports w h (B.inserted h) (B.deleted h) w') :
    WindowInv B S val (C ++ [h]) A q w'
      (fun k => if k ∈ B.inserted h then some (val k) else data k) := by
  have hlenC : (C ++ [h]).length = C.length + 1 := by simp
  have hlen : w'.deathRows.length = w.deathRows.length + 1 := by
    obtain ⟨rows, journalKey, hrows, htrim⟩ := hi.rows
    rw [hrows, length_append, htrim.length_eq, length_singleton]
  have hlenw := hw.length_eq
  have hpend := hw.pending_le
  have hwritten : ∀ k, data k = some (val k) →
      (if k ∈ B.inserted h then some (val k) else data k) = some (val k) := by
    intro k hk
    split
    · rfl
    · exact hk
  refine
    { countInsertions := hi.countInsertions.trans hw.countInsertions
      popped_le := hw.popped_le
      applied_le := by have := hw.applied_le; omega
      length_eq := by omega
      pending_le := by rw [hi.pendingPrunings]; omega
      row_hash := ?_
      row_deleted := ?_
      index := fun hc i row' k hrow' hk => hw.enter_index hvalid hi (hlenC ▸ hc) hrow' hk
      dead := fun m hA hm hc i row' k hrow' hk j g hij hjm hg =>
        hw.enter_dead hi hA (hlenC ▸ hm) hc hrow' hk hij hjm hg
      live := ?_
      doomed := ?_ }
  · intro i row' hrow'
    rcases hw.row_cases hi hrow' with ⟨row, hrow, hhash, hlt, _⟩ | ⟨heq, hhash, _⟩
    · rw [getElem?_concat_lt hlt, hhash]
      exact hw.row_hash i row hrow
    · rw [heq, hhash, getElem?_concat_length]
  · intro i row' k hrow' hk
    rcases hw.row_cases hi hrow' with ⟨row, hrow, hhash, _, hdel⟩ | ⟨_, hhash, hdel⟩
    · rw [hhash]
      exact hw.row_deleted i row k hrow ((hdel k).mp hk).1
    · rw [hhash]
      exact (hdel k).mp hk
  · intro m hA hm hc k hlive
    by_cases hmC : m ≤ C.length
    · rw [prev_append hmC] at hlive
      rcases hw.live m hA hmC ((chain_concat hmC h).mp hc) k hlive with
        hdata | ⟨j, g, hmj, hj, hg, hk⟩
      · exact .inl (hwritten k hdata)
      · refine .inr ⟨j, g, hmj, by rw [hi.pendingPrunings]; exact hj, ?_, hk⟩
        rw [getElem?_concat_lt (by omega), hg]
    obtain rfl : m = C.length + 1 := by omega
    obtain ⟨hroot, hparent⟩ := hc.last
    rw [prev_succ getElem?_concat_length, Blocks.live_iff hroot, hparent] at hlive
    refine .inl ?_
    rcases hlive with hins | ⟨hlive, _⟩
    · rw [if_pos hins]
    · exact hwritten k (hw.data_of_live (chain_of_concat hc) hlive)
  · intro m hA hm hc j g k hpj hjm hg hk
    rw [hi.pendingPrunings] at hpj
    refine hwritten k ?_
    by_cases hj : j < C.length
    · rw [getElem?_concat_lt hj] at hg
      by_cases hmC : m ≤ C.length
      · exact hw.doomed m hA hmC ((chain_concat hmC h).mp hc) j g k hpj hjm hg hk
      · exact hw.doomed C.length hw.applied_le (Nat.le_refl _)
          (chain_of_concat (hc.mono (by omega))) j g k hpj hj hg hk
    obtain rfl : j = C.length := by omega
    obtain rfl := Option.some.inj (getElem?_concat_length.symm.trans hg)
    have hc' : Chain B (C ++ [h]) (C.length + 1) := hc.mono (by omega)
    obtain ⟨hroot, hparent⟩ := hc'.last
    refine hw.data_of_live (chain_of_concat hc') ?_
    rw [← hparent]
    exact hvalid.deleted_live h hroot k hk

end

end

/-! ## Rows are pruned and dropped -/

/-- No key of a state that is still to be kept is deleted. -/
theorem WindowInv.prune (hw : WindowInv B S val C A q w data) (hvalid : B.ValidChanges S)
    (hn : w.pendingPrunings + n ≤ w.deathRows.length) (data' : K → Option V)
    (hdata : ∀ k, (∀ i (row : DeathRow H K), w.pendingPrunings ≤ i → i < w.pendingPrunings + n →
      w.deathRows[i]? = some row → k ∉ row.deleted) → data' k = data k) :
    WindowInv B S val C A q { w with pendingPrunings := w.pendingPrunings + n } data' := by
  refine
    { countInsertions := hw.countInsertions
      popped_le := hw.popped_le
      applied_le := hw.applied_le
      length_eq := hw.length_eq
      pending_le := hn
      row_hash := hw.row_hash
      row_deleted := hw.row_deleted
      index := hw.index
      dead := hw.dead
      live := ?_
      doomed := ?_ }
  · intro m hA hm hc k hlive
    rcases hw.live m hA hm hc k hlive with hk | ⟨j, h, hmj, hj, hh, hk⟩
    · by_cases hpruned : ∃ i, ∃ row : DeathRow H K, w.pendingPrunings ≤ i ∧
          i < w.pendingPrunings + n ∧ w.deathRows[i]? = some row ∧ k ∈ row.deleted
      · obtain ⟨i, row, hi, hin, hrow, hkrow⟩ := hpruned
        by_cases him : q + i < m
        · exact absurd hlive (hw.not_live hvalid hA hm hc hrow hkrow him (Nat.le_refl _))
        · exact .inr ⟨q + i, row.hash, by omega, by simp only; omega, hw.row_hash i row hrow,
            hw.row_deleted i row k hrow hkrow⟩
      · refine .inl ((hdata k fun i row hi hin hrow hkrow => ?_).trans hk)
        exact hpruned ⟨i, row, hi, hin, hrow, hkrow⟩
    · exact .inr ⟨j, h, hmj, by simp only; omega, hh, hk⟩
  · intro m hA hm hc j h k hpj hjm hh hk
    simp only at hpj
    refine (hdata k fun i row hi hin hrow hkrow => ?_).trans
      (hw.doomed m hA hm hc j h k (by omega) hjm hh hk)
    obtain ⟨hroot, hparent⟩ := hc j h hjm hh
    have hlive := hvalid.deleted_live h hroot k hk
    rw [hparent] at hlive
    exact hw.not_live hvalid hA hm hc hrow hkrow (by omega) (by omega) hlive

theorem WindowInv.apply [DecidableEq K] (hw : WindowInv B S val C A q w data) (hc : Chain B C C.length)
    {w' : RefWindow H K} (hrun : w.applyPending = some w') :
    WindowInv B S val C C.length (q + w.pendingPrunings) w' data := by
  unfold RefWindow.applyPending at hrun
  split at hrun
  · cases hrun
  rename_i w1 hpop
  obtain rfl := Option.some.inj hrun
  obtain ⟨hrows, hnum, hle, hcount, hindex⟩ :=
    RefWindow.popPruned_spec hw.countInsertions hpop
  have hlen := hw.length_eq
  have happlied := hw.applied_le
  have hrow : ∀ {i : Nat} {row : DeathRow H K}, w1.deathRows[i]? = some row →
      w.deathRows[w.pendingPrunings + i]? = some row := by
    intro i row hi
    rwa [hrows, getElem?_drop] at hi
  refine
    { countInsertions := hcount
      popped_le := by omega
      applied_le := Nat.le_refl _
      length_eq := by
        rw [hrows, length_drop]
        omega
      pending_le := zero_le _
      row_hash := fun i row hi => by
        rw [Nat.add_assoc]
        exact hw.row_hash _ row (hrow hi)
      row_deleted := fun i row k hi hk => hw.row_deleted _ row k (hrow hi) hk
      index := ?_
      dead := fun m hA hm hcm i row k hi hk j h hij =>
        hw.dead m (by omega) hm hcm _ row k (hrow hi) hk j h (by omega)
      live := ?_
      doomed := ?_ }
  · intro _ i row k hi hk
    have hki := hw.index hc _ row k (hrow hi) hk
    rw [hindex, if_neg, hki, hnum, Nat.add_assoc]
    rintro ⟨row', hrow', hk'⟩
    obtain ⟨j, hj⟩ := mem_iff_getElem?.mp hrow'
    have hjlt : j < w.pendingPrunings := by
      have := (List.getElem?_eq_some_iff.mp hj).1
      rw [length_take] at this
      omega
    rw [getElem?_take_of_lt hjlt] at hj
    have hkj := hw.index hc j row' k hj hk'
    rw [hki, Option.some.injEq] at hkj
    omega
  · intro m hA hm hcm k hlive
    obtain rfl : m = C.length := by omega
    exact .inl (hw.data_of_live hc hlive)
  · intro m hA hm hcm j h k hpj
    exact hw.doomed m (by omega) hm hcm j h k (by simpa using hpj)

end Substrate.StateDb
