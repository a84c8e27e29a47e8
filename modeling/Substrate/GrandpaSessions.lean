import Substrate.FinMap

/-!
# The sessions of the GRANDPA sets

`frame/grandpa/src/lib.rs`: `on_new_session` starts a new authority set if a change can be
scheduled, and notes the session as the latest one of the current set. A report of an equivocation
in a set is accepted with a membership proof of a session after the last one of the set before, up
to the last one of the set itself.
-/

namespace Substrate.GrandpaPallet

open Function

variable {A : Type}

inductive Error where
  | tooSoon
  | changePending
  | invalidEquivocationProof
deriving DecidableEq

structure StoredPendingChange (A : Type) where
  scheduledAt : Nat
  delay : Nat
  nextAuthorities : List (A × Nat)
  forced : Option Nat

structure State (A : Type) where
  pendingChange : Option (StoredPendingChange A)
  nextForced : Option Nat
  stalled : Option (Nat × Nat)
  currentSetId : Nat
  setIdSession : FinMap Nat Nat
  blockNumber : Nat

def scheduleChange (s : State A) (nextAuthorities : List (A × Nat)) (inBlocks : Nat)
    (forced : Option Nat) : Except Error (State A) :=
  if s.pendingChange.isSome then .error .changePending
  else if forced.isSome ∧ s.nextForced.any (s.blockNumber < ·) then .error .tooSoon
  else .ok { s with
    -- only allow the next forced change when twice the window has passed since this one
    nextForced := if forced.isSome then some (s.blockNumber + inBlocks * 2) else s.nextForced
    pendingChange := some ⟨s.blockNumber, inBlocks, nextAuthorities, forced⟩ }

/-- The change that `on_new_session` issues, if it issues one. -/
def issueChange (s : State A) (changed : Bool) (validators : List A) : State A :=
  if changed ∨ s.stalled.isSome then
    let nextAuthorities := validators.map (·, 1)
    let taken := { s with stalled := none }
    match match s.stalled with
      | some (furtherWait, median) =>
        scheduleChange taken nextAuthorities furtherWait (some median)
      | none => scheduleChange taken nextAuthorities 0 none with
    | .ok s => { s with currentSetId := s.currentSetId + 1 }
    | .error _ => taken
  else s

def onNewSession (s : State A) (changed : Bool) (validators : List A) (sessionIndex : Nat) :
    State A :=
  let s := issueChange s changed validators
  { s with setIdSession := s.setIdSession.insert s.currentSetId sessionIndex }

/-- `initialize`, without the authorities. -/
def initializeSet (s : State A) : State A :=
  { s with setIdSession := s.setIdSession.insert 0 0 }

/-- The check of `do_report_equivocation` on the session of a membership proof. -/
def checkSession (s : State A) (setId sessionIndex : Nat) : Except Error Unit :=
  match if setId = 0 then some none else (s.setIdSession.get? (setId - 1)).map some,
      s.setIdSession.get? setId with
  | some previous, some index =>
    if sessionIndex > index ∨ previous.any (sessionIndex ≤ ·) then .error .invalidEquivocationProof
    else .ok ()
  | _, _ => .error .invalidEquivocationProof

/-- The states after session `n`, with the set that was current at the end of each `on_new_session`.
In between everything but the sets may change. -/
inductive Run : State A → Nat → (Nat → Nat) → Prop where
  | genesis {s : State A} (hid : s.currentSetId = 0) (hsessions : s.setIdSession = .empty) :
      Run (initializeSet s) 0 fun _ => 0
  | newSession {s : State A} {n : Nat} {setOf : Nat → Nat} (h : Run s n setOf) (changed : Bool)
      (validators : List A) : Run (onNewSession s changed validators (n + 1)) (n + 1)
        (update setOf (n + 1) (onNewSession s changed validators (n + 1)).currentSetId)
  | elsewhere {s s' : State A} {n : Nat} {setOf : Nat → Nat} (h : Run s n setOf)
      (hid : s'.currentSetId = s.currentSetId) (hsessions : s'.setIdSession = s.setIdSession) :
      Run s' n setOf

structure Sound (current : Nat) (sessions : FinMap Nat Nat) (n : Nat) (setOf : Nat → Nat) :
    Prop where
  le : ∀ j ≤ n, setOf j ≤ current
  noted : ∀ i, (∃ k, sessions.get? i = some k) ↔ i ≤ current
  last : ∀ i k, sessions.get? i = some k → k ≤ n ∧ setOf k = i ∧ ∀ j ≤ n, j ≤ k ↔ setOf j ≤ i

variable {s : State A} {n current current' : Nat} {setOf : Nat → Nat} {sessions : FinMap Nat Nat}

theorem issueChange_sets (s : State A) (changed : Bool) (validators : List A) :
    (issueChange s changed validators).setIdSession = s.setIdSession ∧
      ((issueChange s changed validators).currentSetId = s.currentSetId ∨
        (issueChange s changed validators).currentSetId = s.currentSetId + 1) := by
  have hschedule : ∀ {s s' : State A} {next inBlocks forced},
      scheduleChange s next inBlocks forced = .ok s' →
      s'.setIdSession = s.setIdSession ∧ s'.currentSetId = s.currentSetId := by
    intro s s' next inBlocks forced h
    unfold scheduleChange at h
    split at h
    · cases h
    split at h
    · cases h
    · cases h
      exact ⟨rfl, rfl⟩
  unfold issueChange
  split
  · dsimp only
    split
    · rename_i s' h
      split at h
      all_goals
        obtain ⟨hsessions, hid⟩ := hschedule h
        exact ⟨hsessions, .inr (congrArg (· + 1) hid)⟩
    · exact ⟨rfl, .inl rfl⟩
  · exact ⟨rfl, .inl rfl⟩

theorem Sound.session (h : Sound current sessions n setOf)
    (hid : current' = current ∨ current' = current + 1) :
    Sound current' (sessions.insert current' (n + 1)) (n + 1) (update setOf (n + 1) current') := by
  have hset : ∀ j ≤ n + 1, j = n + 1 ∧ update setOf (n + 1) current' j = current' ∨
      j ≤ n ∧ update setOf (n + 1) current' j = setOf j ∧ setOf j ≤ current' := by
    intro j hj
    by_cases hnew : j = n + 1
    · subst hnew
      exact .inl ⟨rfl, update_self ..⟩
    · have := h.le j (by omega)
      exact .inr ⟨by omega, update_of_ne hnew .., by omega⟩
  refine ⟨fun j hj => ?_, fun i => ?_, fun i k hk => ?_⟩
  · have := hset j hj
    omega
  · rw [FinMap.get?_insert]
    by_cases hnew : i = current'
    · rw [hnew, update_self]
      exact iff_of_true ⟨_, rfl⟩ (Nat.le_refl _)
    · rw [update_of_ne hnew, h.noted i]
      omega
  · rcases FinMap.get?_insert_eq_some.mp hk with ⟨rfl, rfl⟩ | ⟨hnew, hk⟩
    · refine ⟨Nat.le_refl _, update_self .., fun j hj => ?_⟩
      have := hset j hj
      omega
    · obtain ⟨hkn, hki, hlast⟩ := h.last i k hk
      have hi := (h.noted i).mp ⟨k, hk⟩
      refine ⟨by omega, (update_of_ne (by omega) ..).trans hki, fun j hj => ?_⟩
      have := hset j hj
      have := hlast j
      omega

theorem Run.sound (h : Run s n setOf) : Sound s.currentSetId s.setIdSession n setOf := by
  induction h with
  | genesis hid hsessions =>
    rw [initializeSet, hid, hsessions]
    refine ⟨fun _ _ => Nat.le_refl _, fun i => ?_, fun i k hk => ?_⟩
    · rw [FinMap.get?_insert, Nat.le_zero]
      by_cases hi : i = 0
      · rw [hi, update_self]
        exact iff_of_true ⟨0, rfl⟩ rfl
      · rw [update_of_ne hi]
        exact iff_of_false nofun hi
    · rcases FinMap.get?_insert_eq_some.mp hk with ⟨rfl, rfl⟩ | ⟨-, hk⟩
      · exact ⟨Nat.le_refl _, rfl, fun j hj => iff_of_true hj (Nat.le_refl _)⟩
      · cases hk
  | newSession _ changed validators ih =>
    obtain ⟨hsessions, hid⟩ := issueChange_sets _ changed validators
    rw [onNewSession, hsessions]
    exact ih.session hid
  | elsewhere _ hid hsessions ih =>
    rw [hid, hsessions]
    exact ih

theorem Sound.checkSession_iff (h : Sound s.currentSetId s.setIdSession n setOf) {session : Nat}
    (hsession : session ≤ n) (setId : Nat) :
    checkSession s setId session = .ok () ↔ setId = setOf session := by
  have hle := h.le session hsession
  have hnoted := h.noted setId
  unfold checkSession
  cases hk : s.setIdSession.get? setId with
  | none =>
    rw [hk] at hnoted
    refine iff_of_false (by simp) fun heq => ?_
    obtain ⟨k, hk⟩ := hnoted.mpr (heq ▸ hle)
    cases hk
  | some k =>
    have hlast := (h.last setId k hk).2.2 session hsession
    cases setId with
    | zero =>
      simp
      omega
    | succ i =>
      obtain ⟨k', hk'⟩ := (h.noted i).mpr (by have := hnoted.mp ⟨k, hk⟩; omega)
      have hlast' := (h.last i k' hk').2.2 session hsession
      simp [hk']
      omega

/-- **Every session belongs to exactly one set.** The sets up to the current one have increasing
sessions, and a membership proof of a session is accepted for exactly the set that was current at
the end of `on_new_session`. -/
theorem sessions_have_one_set (h : Run s n setOf) :
    (∀ i, (∃ k, s.setIdSession.get? i = some k) ↔ i ≤ s.currentSetId) ∧
    (∀ i j k l, s.setIdSession.get? i = some k → s.setIdSession.get? j = some l → i < j → k < l) ∧
    ∀ session ≤ n, ∀ setId, checkSession s setId session = .ok () ↔ setId = setOf session := by
  have hsound := h.sound
  refine ⟨hsound.noted, fun i j k l hk hl hij => ?_, fun session hsession =>
    hsound.checkSession_iff hsession⟩
  obtain ⟨hln, hset, -⟩ := hsound.last j l hl
  have hlast := (hsound.last i k hk).2.2 l hln
  omega

/-- A genesis, then a session that changes the validators. -/
theorem sessions_have_one_set_second :
    ∃ (s : State Nat) (setOf : Nat → Nat), Run s 1 setOf ∧ s.currentSetId = 1 ∧
      checkSession s 0 0 = .ok () ∧ checkSession s 1 1 = .ok () := by
  have hgenesis : Run (initializeSet (⟨none, none, none, 0, .empty, 0⟩ : State Nat)) 0 fun _ => 0 :=
    .genesis rfl rfl
  have hrun := hgenesis.newSession true [7]
  have h := (sessions_have_one_set hrun).2.2
  exact ⟨_, _, hrun, rfl, (h 0 (by decide) 0).mpr rfl, (h 1 (by decide) 1).mpr rfl⟩

end Substrate.GrandpaPallet
