import Mathlib.Algebra.Ring.Nat
import Substrate.FinMap

/-!
# Account references

`frame/system`: the account map with its reference counters. A *provider* lets an account exist, a
*consumer* needs it to go on existing, a *sufficient* reference lets it exist for one module only.
The last provider cannot go while there is a consumer.

Counters are `u32` and saturate. Hooks on created and killed accounts, events and log lines are left
out.
-/

namespace Substrate.FrameSystem

structure AccountInfo (D : Type) where
  nonce : Nat
  consumers : Nat
  providers : Nat
  sufficients : Nat
  data : D
deriving DecidableEq

instance {D : Type} [Inhabited D] : Inhabited (AccountInfo D) := ⟨⟨0, 0, 0, 0, default⟩⟩

inductive DecRefStatus where
  | reaped
  | exists
deriving DecidableEq

inductive DecRefError where
  | consumerRemaining
deriving DecidableEq

inductive IncRefError where
  | noProviders
deriving DecidableEq

def maxRefCount : Nat := 2 ^ 32 - 1

def saturatingInc (n : Nat) : Nat := min (n + 1) maxRefCount

section Accounts

variable {A D : Type} [Inhabited D]

section

variable (m : FinMap A (AccountInfo D)) (who : A)

def get : AccountInfo D := (m.get? who).getD default

def isProviderRequired : Bool :=
  (get m who).consumers != 0

/-- It has no outstanding consumer references or more than one provider. -/
def canDecProvider : Bool :=
  (get m who).consumers == 0 || decide (1 < (get m who).providers)

end

variable [DecidableEq A]

def mutate (m : FinMap A (AccountInfo D)) (who : A) (f : AccountInfo D → AccountInfo D) :
    FinMap A (AccountInfo D) :=
  m.insert who (f (get m who))

theorem get_mutate (m : FinMap A (AccountInfo D)) (who : A) (f : AccountInfo D → AccountInfo D) :
    get (mutate m who f) who = f (get m who) := by
  simp [get, mutate]

def incProviders (m : FinMap A (AccountInfo D)) (who : A) : FinMap A (AccountInfo D) :=
  mutate m who fun a =>
    if a.providers = 0 ∧ a.sufficients = 0 then { a with providers := 1 }
    else { a with providers := saturatingInc a.providers }

def decProviders (m : FinMap A (AccountInfo D)) (who : A) :
    Except DecRefError DecRefStatus × FinMap A (AccountInfo D) :=
  match m.get? who with
  | none => (.ok .reaped, m)
  | some account =>
    -- a counter of zero is a logic error and treated as one
    let providers := if account.providers = 0 then 1 else account.providers
    if providers = 1 ∧ account.consumers = 0 ∧ account.sufficients = 0 then
      (.ok .reaped, m.erase who)
    else if providers = 1 ∧ 0 < account.consumers then (.error .consumerRemaining, m)
    else (.ok .exists, m.insert who { account with providers := providers - 1 })

omit [Inhabited D] in
theorem decProviders_cases {m : FinMap A (AccountInfo D)} {who : A} {i : AccountInfo D}
    (hget : m.get? who = some i) :
    (i.providers ≤ 1 ∧ i.consumers = 0 ∧ decProviders m who = (.ok .reaped, m.erase who)) ∨
    (i.providers ≤ 1 ∧ 0 < i.consumers ∧ decProviders m who = (.error .consumerRemaining, m)) ∨
    ((i.consumers = 0 ∨ 1 < i.providers) ∧ decProviders m who =
      (.ok .exists, m.insert who { i with providers := i.providers - 1 })) := by
  unfold decProviders
  rw [hget]
  dsimp only
  obtain ⟨p, hp⟩ : ∃ p, p = if i.providers = 0 then 1 else i.providers := ⟨_, rfl⟩
  have hle : p = 1 ↔ i.providers ≤ 1 := by
    rw [hp]
    split <;> omega
  have hsub : p - 1 = i.providers - 1 := by
    rw [hp]
    split <;> omega
  rw [← hp, hsub]
  by_cases hreap : p = 1 ∧ i.consumers = 0 ∧ i.sufficients = 0
  · exact .inl ⟨hle.mp hreap.1, hreap.2.1, if_pos hreap⟩
  rw [if_neg hreap]
  by_cases hrefuse : p = 1 ∧ 0 < i.consumers
  · exact .inr (.inl ⟨hle.mp hrefuse.1, hrefuse.2, if_pos hrefuse⟩)
  · refine .inr (.inr ⟨?_, if_neg hrefuse⟩)
    omega

def incConsumers (m : FinMap A (AccountInfo D)) (who : A) :
    Except IncRefError Unit × FinMap A (AccountInfo D) :=
  if 0 < (get m who).providers then
    (.ok (), mutate m who fun a => { a with consumers := saturatingInc a.consumers })
  else (.error .noProviders, m)

def decConsumers (m : FinMap A (AccountInfo D)) (who : A) : FinMap A (AccountInfo D) :=
  mutate m who fun a => if 0 < a.consumers then { a with consumers := a.consumers - 1 } else a

theorem get_incConsumers {m : FinMap A (AccountInfo D)} {who : A} (h : 0 < (get m who).providers) :
    get (incConsumers m who).2 who =
      { get m who with consumers := saturatingInc (get m who).consumers } := by
  unfold incConsumers
  rw [if_pos h, get_mutate]

theorem get_decConsumers (m : FinMap A (AccountInfo D)) (who : A) : get (decConsumers m who) who =
      { get m who with consumers := (get m who).consumers - 1 } := by
  unfold decConsumers
  rw [get_mutate]
  split
  · rfl
  · have heq : (get m who).consumers - 1 = (get m who).consumers := by omega
    rw [heq]

end Accounts

def isProviding {D : Type} [Inhabited D] [DecidableEq D] (d : D) : Bool := d != default

end Substrate.FrameSystem
