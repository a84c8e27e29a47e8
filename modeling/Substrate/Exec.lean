import Substrate.Outcome

/-!
# Calls on a state

`Exec S ε α` is a call on a state `S`: it ends in an `Outcome`, next to the state it leaves; there
is no rollback. `Post m s Q R` says what holds after running `m` from `s`: `Q` if it returns a
value, `R` if it returns an error, nothing if it panics. Each way of building a call has one rule,
an equivalence, so that rewriting with the rules leaves only facts about its pure parts.
-/

namespace Substrate

def Exec (S ε α : Type) : Type := S → Outcome ε α × S

namespace Exec

variable {S ε δ α β : Type}

instance : Monad (Exec S ε) where
  pure a := fun s => (.ok a, s)
  bind m f := fun s =>
    match m s with
    | (.ok a, s') => f a s'
    | (.err e, s') => (.err e, s')
    | (.panic, s') => (.panic, s')

theorem bind_apply (m : Exec S ε α) (f : α → Exec S ε β) (s : S) : (m >>= f) s =
      match m s with
      | (.ok a, s') => f a s'
      | (.err e, s') => (.err e, s')
      | (.panic, s') => (.panic, s') := rfl

protected theorem bind_assoc {γ : Type} (m : Exec S ε α) (f : α → Exec S ε β)
    (g : β → Exec S ε γ) : (m >>= f) >>= g = m >>= fun a => f a >>= g := by
  funext s
  simp only [bind_apply]
  rcases m s with ⟨a | e | _, s'⟩ <;> rfl

def throw (e : ε) : Exec S ε α := fun s => (.err e, s)

def ensure (p : Prop) [Decidable p] (e : ε) : Exec S ε Unit :=
  fun s => if p then (.ok (), s) else (.err e, s)

def assert (p : Prop) [Decidable p] : Exec S ε Unit :=
  fun s => if p then (.ok (), s) else (.panic, s)

def read (f : S → α) : Exec S ε α := fun s => (.ok (f s), s)

def modify (f : S → S) : Exec S ε Unit := fun s => (.ok (), f s)

def okOr (o : Option α) (e : ε) : Exec S ε α :=
  match o with
  | some a => pure a
  | none => throw e

/-- A value that is there, or a panic. -/
def unwrap (o : Option α) : Exec S ε α :=
  fun s =>
    match o with
    | some a => (.ok a, s)
    | none => (.panic, s)

/-- The call with its result handed to the caller, error or not. -/
def attempt (m : Exec S ε α) : Exec S δ (Except ε α) := fun s =>
  match m s with
  | (.ok a, s') => (.ok (.ok a), s')
  | (.err e, s') => (.ok (.error e), s')
  | (.panic, s') => (.panic, s')

/-- A call on a part of the state, with its result handed to the caller. -/
def within {P : Type} (get : S → P) (set : P → S → S) (m : Exec P ε α) : Exec S δ (Except ε α) :=
  fun s =>
    match m (get s) with
    | (.ok a, p) => (.ok (.ok a), set p s)
    | (.err e, p) => (.ok (.error e), set p s)
    | (.panic, p) => (.panic, set p s)

/-! ## Postconditions -/

def Post (m : Exec S ε α) (s : S) (Q : α → S → Prop) (R : ε → S → Prop) : Prop :=
  match m s with
  | (.ok a, s') => Q a s'
  | (.err e, s') => R e s'
  | (.panic, _) => True

variable {o : Option α} {f : α → Exec S ε β} {p : Prop}

section Rules

variable {m : Exec S ε α} {s s' : S} {Q Q' : α → S → Prop} {R R' : ε → S → Prop}

theorem Post.ok (h : Post m s Q R) {a : α} (hrun : m s = (.ok a, s')) : Q a s' := by
  rw [Post, hrun] at h
  exact h

theorem Post.returned {P : S → Prop} (h : Post m s (fun _ => P) (fun _ => P))
    (hret : (m s).1.Returns) : P (m s).2 := by
  unfold Post at h
  generalize m s = res at h hret ⊢
  rcases res with ⟨a | e | _, s'⟩
  · exact h
  · exact h
  · exact hret.elim

theorem Post.mono (h : Post m s Q R) (hQ : ∀ a s', Q a s' → Q' a s')
    (hR : ∀ e s', R e s' → R' e s') : Post m s Q' R' := by
  unfold Post at h ⊢
  generalize m s = res at h ⊢
  rcases res with ⟨a | e | _, s'⟩
  · exact hQ a s' h
  · exact hR e s' h
  · trivial

theorem Post.imp (h : Post m s Q R) (hQ : ∀ a s', Q a s' → Q' a s') : Post m s Q' R :=
  h.mono hQ fun _ _ he => he

theorem Post.noErr (h : Post m s Q fun _ _ => False) (hQ : ∀ a s', Q a s' → Q' a s') :
    Post m s Q' R :=
  h.mono hQ fun _ _ he => he.elim

theorem Post.and (h : Post m s Q R) (h' : Post m s Q' R') :
    Post m s (fun a s' => Q a s' ∧ Q' a s') (fun e s' => R e s' ∧ R' e s') := by
  unfold Post at h h' ⊢
  generalize m s = res at h h' ⊢
  rcases res with ⟨a | e | _, s'⟩
  · exact ⟨h, h'⟩
  · exact ⟨h, h'⟩
  · trivial

@[simp] theorem post_pure {a : α} : Post (pure a : Exec S ε α) s Q R ↔ Q a s := Iff.rfl

@[simp] theorem post_bind {Q : β → S → Prop} :
    Post (m >>= f) s Q R ↔ Post m s (fun a s' => Post (f a) s' Q R) R := by
  unfold Post
  rw [bind_apply]
  rcases m s with ⟨a | e | _, s'⟩ <;> rfl

@[simp] theorem post_map {f : α → β} {Q : β → S → Prop} :
    Post (f <$> m) s Q R ↔ Post m s (fun a s' => Q (f a) s') R := by
  show Post (m >>= fun a => pure (f a)) s Q R ↔ _
  rw [post_bind]
  exact Iff.rfl

@[simp] theorem post_throw {e : ε} : Post (throw e : Exec S ε α) s Q R ↔ R e s := Iff.rfl

@[simp] theorem post_ensure [Decidable p] {e : ε} {Q : Unit → S → Prop} :
    Post (ensure p e) s Q R ↔ (p → Q () s) ∧ (¬p → R e s) := by
  unfold Post ensure
  by_cases hp : p <;> simp [hp]

@[simp] theorem post_assert [Decidable p] {Q : Unit → S → Prop} : Post (assert p) s Q R ↔ (p → Q () s) := by
  unfold Post assert
  by_cases hp : p <;> simp [hp]

@[simp] theorem post_read {f : S → α} : Post (read f) s Q R ↔ Q (f s) s := Iff.rfl

@[simp] theorem post_modify {f : S → S} {Q : Unit → S → Prop} :
    Post (modify f) s Q R ↔ Q () (f s) := Iff.rfl

@[simp] theorem post_okOr {e : ε} :
    Post (okOr o e) s Q R ↔ (∀ a, o = some a → Q a s) ∧ (o = none → R e s) := by
  cases o with
  | none | some a => simp [okOr]

@[simp] theorem post_unwrap : Post (unwrap o) s Q R ↔ ∀ a, o = some a → Q a s := by
  unfold Post unwrap
  cases o <;> simp

@[simp] theorem post_attempt {Q : Except ε α → S → Prop} {R' : δ → S → Prop} :
    Post (attempt m) s Q R' ↔
      Post m s (fun a s' => Q (.ok a) s') (fun e s' => Q (.error e) s') := by
  unfold Post attempt
  rcases m s with ⟨a | e | _, s'⟩ <;> rfl

@[simp] theorem post_within {P : Type} {get : S → P} {set : P → S → S} {m : Exec P ε α}
    {Q : Except ε α → S → Prop} {R' : δ → S → Prop} :
    Post (within get set m) s Q R' ↔
      Post m (get s) (fun a p => Q (.ok a) (set p s)) (fun e p => Q (.error e) (set p s)) := by
  unfold Post within
  rcases m (get s) with ⟨a | e | _, p⟩ <;> rfl

end Rules

/-! ## Calls that do not panic -/

/-- The call does not panic. -/
def Sure (m : Exec S ε α) (s : S) (Q : α → S → Prop) (R : ε → S → Prop) : Prop :=
  match m s with
  | (.ok a, s') => Q a s'
  | (.err e, s') => R e s'
  | (.panic, _) => False

abbrev Succeeds (m : Exec S ε α) (s : S) : Prop := Sure m s (fun _ _ => True) fun _ _ => False

section SureRules

variable {m : Exec S ε α} {s : S} {Q : α → S → Prop} {R : ε → S → Prop}

theorem Sure.post (h : Sure m s Q R) : Post m s Q R := by
  unfold Sure at h
  unfold Post
  generalize m s = res at h ⊢
  rcases res with ⟨a | e | _, s'⟩
  · exact h
  · exact h
  · trivial

theorem sure_pure {a : α} : Sure (pure a : Exec S ε α) s Q R ↔ Q a s := Iff.rfl

theorem sure_bind {Q : β → S → Prop} :
    Sure (m >>= f) s Q R ↔ Sure m s (fun a s' => Sure (f a) s' Q R) R := by
  unfold Sure
  rw [bind_apply]
  rcases m s with ⟨a | e | _, s'⟩ <;> rfl

theorem sure_read {f : S → α} : Sure (read f : Exec S ε α) s Q R ↔ Q (f s) s := Iff.rfl

theorem sure_modify {f : S → S} {Q : Unit → S → Prop} :
    Sure (modify f : Exec S ε Unit) s Q R ↔ Q () (f s) := Iff.rfl

theorem sure_ensure [Decidable p] {e : ε} {Q : Unit → S → Prop} :
    Sure (ensure p e) s Q R ↔ if p then Q () s else R e s := by
  unfold Sure ensure
  by_cases hp : p <;> simp [hp]

theorem sure_unwrap : Sure (unwrap o) s Q R ↔ ∃ a, o = some a ∧ Q a s := by
  unfold Sure unwrap
  cases o <;> simp

end SureRules

/-! ## Calls that return -/

/-- The call returns a value. -/
def Total (m : Exec S ε α) (s : S) (Q : α → S → Prop) : Prop :=
  match m s with
  | (.ok a, s') => Q a s'
  | (.err _, _) => False
  | (.panic, _) => False

section TotalRules

variable {m : Exec S ε α} {s s' : S} {Q Q' : α → S → Prop}

theorem Total.exists (h : Total m s Q) : ∃ a s', m s = (.ok a, s') ∧ Q a s' := by
  unfold Total at h
  split at h
  · next a s' hrun => exact ⟨a, s', hrun, h⟩
  · exact h.elim
  · exact h.elim

theorem Total.mono (h : Total m s Q) (hQ : ∀ a s', Q a s' → Q' a s') : Total m s Q' := by
  obtain ⟨a, s', hrun, hq⟩ := h.exists
  rw [Total, hrun]
  exact hQ a s' hq

theorem total_pure {a : α} : Total (pure a : Exec S ε α) s Q ↔ Q a s := Iff.rfl

theorem total_bind {Q : β → S → Prop} :
    Total (m >>= f) s Q ↔ Total m s fun a s' => Total (f a) s' Q := sure_bind

theorem total_read {f : S → α} : Total (read f : Exec S ε α) s Q ↔ Q (f s) s := Iff.rfl

theorem total_modify {f : S → S} {Q : Unit → S → Prop} :
    Total (modify f : Exec S ε Unit) s Q ↔ Q () (f s) := Iff.rfl

theorem total_assert [Decidable p] {Q : Unit → S → Prop} :
    Total (assert p : Exec S ε Unit) s Q ↔ p ∧ Q () s := by
  unfold Total assert
  by_cases hp : p <;> simp [hp]

theorem total_unwrap : Total (unwrap o : Exec S ε α) s Q ↔ ∃ a, o = some a ∧ Q a s := sure_unwrap

end TotalRules

end Exec

end Substrate
