import Mathlib.Data.List.Basic

/-!
# Greedy dependency orders

Nodes that depend on each other are put in a row one at a time. A node is available once everything
it depends on has been put down; the greedy order puts down an available node that is not below
another one. Where the dependencies have no cycle, which a rank witnesses, it only ends when every
node is in it.
-/

namespace Substrate.DependencyOrder

variable {N : Type} (node : N → Prop) (dep : N → N → Prop) (le : N → N → Prop)

def Available (done : List N) (n : N) : Prop :=
  node n ∧ n ∉ done ∧ ∀ m, dep n m → m ∈ done

/-- Each node is available when its turn comes, and every available node is below it. -/
def IsGreedy : List N → List N → Prop
  | _, [] => True
  | done, n :: row => Available node dep done n ∧
      (∀ m, Available node dep done m → le m n) ∧ IsGreedy (n :: done) row

/-- The dependencies fall along a rank. -/
def Acyclic : Prop := ∃ rank : N → Nat, ∀ n m, dep n m → rank m < rank n

variable {node dep le} {dep' : N → N → Prop} {done : List N}

theorem Acyclic.mono (h : Acyclic dep) (hsub : ∀ n m, dep' n m → dep n m) : Acyclic dep' := by
  obtain ⟨rank, hrank⟩ := h
  exact ⟨rank, fun n m hnm => hrank n m (hsub n m hnm)⟩

theorem exists_rank_lt (rank : N → Nat) (nodes : List N) : ∃ k, ∀ m ∈ nodes, rank m < k := by
  induction nodes with
  | nil => exact ⟨0, by simp⟩
  | cons n nodes ih =>
    obtain ⟨k, hk⟩ := ih
    refine ⟨max k (rank n + 1), fun m hm => ?_⟩
    rcases List.mem_cons.mp hm with rfl | hm
    · omega
    · have := hk m hm
      omega

/-- The nodes `above` come to depend on the new one; none of its own dependencies is one of them. -/
theorem Acyclic.insert (h : Acyclic dep) (n : N) (above : N → Prop) (below : List N)
    (hold : ∀ m m', m ≠ n → m' ≠ n → dep' m m' → dep m m') (habove : ∀ m, dep' m n → above m)
    (hclosed : ∀ m m', m ≠ n → m' ≠ n → dep' m m' → above m' → above m)
    (hbelow : ∀ m, dep' n m → m ≠ n ∧ m ∈ below ∧ ¬above m) : Acyclic dep' := by
  classical
  obtain ⟨rank, hrank⟩ := h
  obtain ⟨k, hk⟩ := exists_rank_lt rank below
  -- `n` goes over what it depends on, and what is above `n` is lifted over it
  refine ⟨fun m => if m = n then k else if above m then rank m + k + 1 else rank m, ?_⟩
  intro m m' hm
  by_cases hmn : m = n
  · subst hmn
    obtain ⟨hne, hmem, hnot⟩ := hbelow m' hm
    simp only [hne, hnot, if_true, if_false]
    exact hk m' hmem
  by_cases hmn' : m' = n
  · subst hmn'
    simp only [hmn, habove m hm, if_true, if_false]
    omega
  have hlt := hrank m m' (hold m m' hmn hmn' hm)
  simp only [hmn, hmn', if_false]
  by_cases ha' : above m'
  · simp only [ha', hclosed m m' hmn hmn' hm ha', if_true]
    omega
  · simp only [ha', if_false]
    split <;> omega

/-- Of those left, one of least rank. -/
theorem exists_available (hacyclic : Acyclic dep) (hdep : ∀ n m, dep n m → node m) {n : N}
    (hn : node n) (hleft : n ∉ done) : ∃ m, Available node dep done m := by
  obtain ⟨rank, hrank⟩ := hacyclic
  -- strong induction on the rank of the node that is left
  induction hr : rank n using Nat.strongRecOn generalizing n with
  | ind r ih =>
    by_cases hall : ∀ m, dep n m → m ∈ done
    · exact ⟨n, hn, hleft, hall⟩
    · push Not at hall
      obtain ⟨m, hm, hmdone⟩ := hall
      exact ih (rank m) (hr ▸ hrank n m hm) (hdep n m hm) hmdone rfl

namespace IsGreedy

theorem at_split {before after : List N} {n : N}
    (h : IsGreedy node dep le done (before ++ n :: after)) :
    Available node dep (before.reverse ++ done) n ∧
      ∀ m, Available node dep (before.reverse ++ done) m → le m n := by
  induction before generalizing done with
  | nil => exact ⟨h.1, h.2.1⟩
  | cons b before ih =>
    have := ih h.2.2
    simpa using this

theorem nodup {row : List N} (h : IsGreedy node dep le done row) :
    row.Nodup ∧ ∀ n ∈ row, node n ∧ n ∉ done := by
  induction row generalizing done with
  | nil => simp
  | cons n row ih =>
    obtain ⟨hnodup, hmem⟩ := ih h.2.2
    refine ⟨List.nodup_cons.mpr ⟨fun hn => (hmem n hn).2 List.mem_cons_self, hnodup⟩, ?_⟩
    intro m hm
    rcases List.mem_cons.mp hm with rfl | hm
    · exact ⟨h.1.1, h.1.2.1⟩
    · exact ⟨(hmem m hm).1, fun hd => (hmem m hm).2 (List.mem_cons_of_mem _ hd)⟩

end IsGreedy

end Substrate.DependencyOrder
