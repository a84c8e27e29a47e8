/-!
# Outcomes of calls

`ok` and `err` are the two arms of a `Result`; `panic` is a failed `expect`, `assert!`, index or
checked addition. A call on mutable state returns its outcome next to the state it leaves behind.
-/

namespace Substrate

inductive Outcome (ε α : Type) where
  | ok (a : α)
  | err (e : ε)
  | panic
deriving Repr, DecidableEq

namespace Outcome

variable {ε α : Type}

def IsErr : Outcome ε α → Prop
  | err _ => True
  | _ => False

def Returns : Outcome ε α → Prop
  | panic => False
  | _ => True

def map {β : Type} (f : α → β) : Outcome ε α → Outcome ε β
  | ok a => ok (f a)
  | err e => err e
  | panic => panic

@[simp] theorem isErr_err (e : ε) : (err e : Outcome ε α).IsErr := trivial

@[simp] theorem not_isErr_ok (a : α) : ¬(ok a : Outcome ε α).IsErr := id

@[simp] theorem not_isErr_panic : ¬(panic : Outcome ε α).IsErr := id

@[simp] theorem returns_ok (a : α) : (ok a : Outcome ε α).Returns := trivial

@[simp] theorem returns_err (e : ε) : (err e : Outcome ε α).Returns := trivial

@[simp] theorem not_returns_panic : ¬(panic : Outcome ε α).Returns := id

@[simp] theorem returns_map {β : Type} (f : α → β) (o : Outcome ε α) :
    (o.map f).Returns ↔ o.Returns := by
  cases o <;> rfl

@[simp] theorem isErr_map {β : Type} (f : α → β) (o : Outcome ε α) : (o.map f).IsErr ↔ o.IsErr := by
  cases o <;> rfl

end Outcome

end Substrate
