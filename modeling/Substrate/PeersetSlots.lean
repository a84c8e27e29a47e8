import Mathlib.Data.Finset.Card
import Substrate.PeersState

/-!
# Slots of the peerset

The counters of a set are the numbers of the peers that are connected through it, in either
direction, and occupy a slot. Most changes are quiet: they touch neither the counters nor the
connections. The others connect or disconnect one peer, or change whether one peer occupies a slot.
-/

namespace Substrate

open Function FinMap Option KeySet

theorem card_add_ite {α : Type} [DecidableEq α] {s t : Finset α} {a : α}
    (h : ∀ b, b ≠ a → (b ∈ t ↔ b ∈ s)) :
    t.card + (if a ∈ s then 1 else 0) = s.card + (if a ∈ t then 1 else 0) := by
  have herase : t.erase a = s.erase a := by
    ext b
    by_cases hb : b = a
    · simp [hb]
    · simp [h b hb]
  have hsize : ∀ u : Finset α, u.card = (u.erase a).card + if a ∈ u then 1 else 0 := by
    intro u
    split
    · next ha => exact (Finset.card_erase_add_one ha).symm
    · next ha => rw [Finset.erase_eq_of_notMem ha, Nat.add_zero]
  rw [hsize s, hsize t, herase]
  omega

namespace Peerset

/-! ## Connections -/

inductive Direction where
  | ingoing
  | outgoing
deriving DecidableEq

def MembershipState.direction : MembershipState → Option Direction
  | ingoing => some .ingoing
  | outgoing => some .outgoing
  | notMember | notConnected _ => none

def Direction.membership : Direction → MembershipState
  | ingoing => .ingoing
  | outgoing => .outgoing

@[simp] theorem direction_membership (dir : Direction) : dir.membership.direction = some dir := by
  cases dir <;> rfl

theorem MembershipState.eq_of_direction {m : MembershipState} {dir : Direction}
    (h : m.direction = some dir) : m = dir.membership := by
  cases m with
  | notMember => cases h
  | notConnected t => cases h
  | ingoing | outgoing => rw [← some.inj h]; rfl

def SetInfo.num {P : Type} (i : SetInfo P) : Direction → Nat
  | .ingoing => i.numIn
  | .outgoing => i.numOut

def SetInfo.setNum {P : Type} (i : SetInfo P) (k : Nat) : Direction → SetInfo P
  | .ingoing => { i with numIn := k }
  | .outgoing => { i with numOut := k }

@[simp] theorem SetInfo.num_setNum {P : Type} (i : SetInfo P) (k : Nat) (dir dir' : Direction) :
    (i.setNum k dir).num dir' = if dir' = dir then k else i.num dir' := by
  cases dir <;> cases dir' <;> rfl

@[simp] theorem SetInfo.noSlotNodes_setNum {P : Type} (i : SetInfo P) (k : Nat)
    (dir : Direction) : (i.setNum k dir).noSlotNodes = i.noSlotNodes := by
  cases dir <;> rfl

namespace PeersState

variable {P : Type} {n : Nat} {dir : Direction} {node : Node n}

def direction (d : PeersState P n) (set : Fin n) (p : P) : Option Direction :=
  (d.membership set p).direction

def num (d : PeersState P n) (set : Fin n) (dir : Direction) : Nat := (d.sets set).num dir

variable [DecidableEq P]

def occupants (d : PeersState P n) (set : Fin n) (dir : Direction) : Finset P :=
  d.nodes.keys.toFinset.filter fun p =>
    d.direction set p = some dir ∧ p ∉ (d.sets set).noSlotNodes

/-- **The counters are right.** -/
def Counted (d : PeersState P n) : Prop := ∀ set dir, d.num set dir = (d.occupants set dir).card

variable {d d' : PeersState P n} {set : Fin n} {p : P} {m : MembershipState}

section

omit [DecidableEq P]

theorem peer_eq_connected : d.peer set p = .connected ↔ d.direction set p ≠ none := by
  unfold peer direction
  cases d.membership set p <;> simp [MembershipState.direction]

theorem direction_of_peer (h : d.peer set p ≠ .connected) : d.direction set p = none := by
  by_contra hne
  exact h (peer_eq_connected.mpr hne)

theorem direction_of_peer_eq {x : Peer} (h : d.peer set p = x) (hx : x ≠ .connected) :
    d.direction set p = none :=
  direction_of_peer (h ▸ hx)

end

theorem mem_occupants : p ∈ d.occupants set dir ↔
    d.direction set p = some dir ∧ p ∉ (d.sets set).noSlotNodes := by
  rw [occupants, Finset.mem_filter, List.mem_toFinset, and_iff_right_iff_imp]
  rintro ⟨hdir, -⟩
  rw [d.nodes.mem_keys]
  unfold direction membership at hdir
  split at hdir
  · next node hnode => rw [hnode]; rfl
  · cases hdir

/-! ## Quiet changes -/

structure Quiet (d d' : PeersState P n) : Prop where
  sets : d'.sets = d.sets
  direction : ∀ set p, d'.direction set p = d.direction set p

omit [DecidableEq P]

theorem Quiet.refl (d : PeersState P n) : Quiet d d := ⟨rfl, fun _ _ => rfl⟩

theorem Quiet.trans {d1 : PeersState P n} (h : Quiet d d1) (h' : Quiet d1 d') : Quiet d d' :=
  ⟨h'.sets.trans h.sets, fun set p => (h'.direction set p).trans (h.direction set p)⟩

variable [DecidableEq P]

theorem Counted.quiet (h : Counted d) (hq : Quiet d d') : Counted d' := by
  intro set dir
  have hocc : d'.occupants set dir = d.occupants set dir := by
    ext p
    rw [mem_occupants, mem_occupants, hq.direction, hq.sets]
  rw [hocc, num, hq.sets]
  exact h set dir

theorem quiet_insert (h : ∀ set, (node.sets set).direction = d.direction set p) :
    Quiet d { d with nodes := d.nodes.insert p node } := by
  refine ⟨rfl, fun set q => ?_⟩
  by_cases hq : q = p
  · subst hq
    rw [← h set]
    unfold direction membership
    rw [get?_insert, update_self]
  · unfold direction membership
    rw [get?_insert, update_of_ne hq]

theorem quiet_erase (h : ∀ set, d.direction set p = none) :
    Quiet d { d with nodes := d.nodes.erase p } := by
  refine ⟨rfl, fun set q => ?_⟩
  by_cases hq : q = p
  · subst hq
    rw [h set]
    unfold direction membership
    rw [get?_erase, update_self]
    rfl
  · unfold direction membership
    rw [get?_erase, update_of_ne hq]

omit [DecidableEq P] in
theorem direction_of_get? (h : d.nodes.get? p = some node) (set : Fin n) :
    d.direction set p = (node.sets set).direction := by
  unfold direction membership
  rw [h]

theorem direction_update (h : m.direction = (node.sets set).direction) (set' : Fin n) :
    (update node.sets set m set').direction = (node.sets set').direction := by
  by_cases hs : set' = set
  · rw [hs, update_self, h]
  · rw [update_of_ne hs]

theorem quiet_setMembership (h : m.direction = d.direction set p) :
    Quiet d (d.setMembership set p m) := by
  unfold setMembership
  split
  · rename_i node hnode
    refine quiet_insert fun set' => ?_
    rw [direction_of_get? hnode] at h ⊢
    exact direction_update h set'
  · exact .refl d

theorem quiet_discover (h : d.direction set p = none) (now : Nat) :
    Quiet d (d.discover set p now) := by
  refine quiet_insert fun set' => ?_
  cases hnode : d.nodes.get? p with
  | some node =>
    rw [direction_of_get? hnode] at h ⊢
    exact direction_update (m := .notConnected now) h.symm set'
  | none =>
    have hnew : d.direction set' p = none := by
      unfold direction membership
      rw [hnode]
      rfl
    rw [hnew]
    exact direction_update (m := .notConnected now) rfl set'

theorem quiet_bump (now : Nat) : Quiet d (d.bumpLastConnectedOrDiscovered set p now) := by
  unfold bumpLastConnectedOrDiscovered
  split
  · rename_i last hlast
    refine quiet_setMembership ?_
    rw [direction, hlast]
    rfl
  · exact .refl d

theorem direction_of_forgettable (h : node.forgettable = true) (set : Fin n) :
    (node.sets set).direction = none := by
  unfold Node.forgettable at h
  rw [Bool.and_eq_true, List.all_eq_true] at h
  have hset := of_decide_eq_true (h.2 set (List.mem_finRange set))
  rw [hset]
  rfl

theorem quiet_dropForgettable : Quiet d (d.dropForgettable p) := by
  unfold dropForgettable
  split
  · rename_i node hnode
    split
    · rename_i hforget
      refine quiet_erase fun set => ?_
      rw [direction_of_get? hnode]
      exact direction_of_forgettable hforget set
    · exact .refl d
  · exact .refl d

theorem quiet_forgetPeer (h : d.direction set p = none) : Quiet d (d.forgetPeer set p) :=
  (quiet_setMembership (m := .notMember) h.symm).trans quiet_dropForgettable

theorem quiet_setReputation (f : Int → Int) : Quiet d (d.setReputation p f) := by
  unfold setReputation
  split
  · next node hnode => exact quiet_insert fun set => (direction_of_get? hnode set).symm
  · exact .refl d

theorem quiet_adjustReputation (f : Int → Int) : Quiet d (d.adjustReputation p f) := by
  have hnew : Quiet d (if d.nodes.contains p then d
      else { d with nodes := d.nodes.insert p (Node.new n) }) := by
    split
    · exact .refl d
    rename_i hno
    refine quiet_insert fun set => ?_
    unfold direction membership
    rw [contains_eq_false.mp (Bool.eq_false_iff.mpr hno)]
    rfl
  exact (hnew.trans (quiet_setReputation f)).trans quiet_dropForgettable

omit [DecidableEq P] in
theorem quiet_foldl {α : Type} {f : PeersState P n → α → PeersState P n}
    (hf : ∀ d a, Quiet d (f d a)) (as : List α) (d : PeersState P n) : Quiet d (as.foldl f d) := by
  induction as generalizing d with
  | nil => exact .refl d
  | cons a as ih => exact (hf d a).trans (ih (f d a))

theorem quiet_fleeting (now : Nat) (d : PeersState P n) (p : P) : Quiet d (d.fleeting now p) := by
  unfold fleeting
  dsimp only
  split
  · refine (quiet_adjustReputation _).trans (quiet_foldl (fun d set => ?_) _ _)
    split
    · rename_i last hlast
      split
      · refine quiet_forgetPeer ?_
        rw [direction, hlast]
        rfl
      · exact .refl d
    · exact .refl d
  · exact quiet_adjustReputation _

theorem quiet_passSeconds (now k : Nat) (order : Nat → List P → List P) (d : PeersState P n) :
    Quiet d (d.passSeconds now k order) := by
  induction k generalizing d with
  | zero => exact .refl d
  | succ k ih => exact (quiet_foldl (quiet_fleeting now) _ d).trans (ih _)

/-! ## Connecting and disconnecting -/

/-- The counters follow, if the peer occupies a slot. -/
structure Switched (set : Fin n) (p : P) (x : Option Direction) (d d' : PeersState P n) : Prop where
  direction_self : d'.direction set p = x
  direction_of_ne : ∀ set' q, (set', q) ≠ (set, p) → d'.direction set' q = d.direction set' q
  noSlotNodes : ∀ set', (d'.sets set').noSlotNodes = (d.sets set').noSlotNodes
  num_of_ne : ∀ set' dir, set' ≠ set → d'.num set' dir = d.num set' dir
  num_self : ∀ dir, d'.num set dir +
        (if d.direction set p = some dir ∧ p ∉ (d.sets set).noSlotNodes then 1 else 0) =
      d.num set dir + if x = some dir ∧ p ∉ (d.sets set).noSlotNodes then 1 else 0

variable {x : Option Direction} {f : SetInfo P → SetInfo P}

theorem Counted.switched (h : Counted d) (hs : Switched set p x d d') : Counted d' := by
  intro set' dir
  by_cases hset : set' = set
  · subst hset
    have hcard := card_add_ite (s := d.occupants set' dir) (t := d'.occupants set' dir)
      fun q hq => by
        rw [mem_occupants, mem_occupants, hs.noSlotNodes,
          hs.direction_of_ne set' q fun heq => hq (congrArg Prod.snd heq)]
    simp only [mem_occupants, hs.direction_self, hs.noSlotNodes] at hcard
    have hnum := hs.num_self dir
    rw [h set' dir] at hnum
    omega
  · rw [hs.num_of_ne set' dir hset, h set' dir]
    congr 1
    ext q
    rw [mem_occupants, mem_occupants, hs.noSlotNodes,
      hs.direction_of_ne set' q fun heq => hset (congrArg Prod.fst heq)]

theorem membership_setMembership (hp : d.nodes.contains p = true) (set' : Fin n) (q : P) :
    (d.setMembership set p m).membership set' q =
      if (set', q) = (set, p) then m else d.membership set' q := by
  obtain ⟨node, hnode⟩ := isSome_iff_exists.mp hp
  unfold setMembership membership
  rw [hnode]
  by_cases hq : q = p
  · subst hq
    simp only [get?_insert, update_self, hnode]
    by_cases hset : set' = set
    · subst hset
      rw [if_pos rfl, update_self]
    · rw [if_neg fun heq => hset (congrArg Prod.fst heq), update_of_ne hset]
  · simp only [get?_insert, update_of_ne hq]
    rw [if_neg fun heq => hq (congrArg Prod.snd heq)]

theorem sets_setMembership : (d.setMembership set p m).sets = d.sets := by
  unfold setMembership
  split <;> rfl

section

omit [DecidableEq P]

theorem contains_of_membership (set : Fin n) (h : d.membership set p ≠ .notMember) :
    d.nodes.contains p = true := by
  unfold membership at h
  split at h
  · next node hnode => rw [contains, hnode]; rfl
  · exact absurd rfl h

theorem sets_updateSet (d : PeersState P n) (set set' : Fin n) (f : SetInfo P → SetInfo P) :
    (d.updateSet set f).sets set' = if set' = set then f (d.sets set) else d.sets set' := by
  unfold updateSet
  dsimp only
  by_cases hset : set' = set
  · rw [if_pos hset, hset, update_self]
  · rw [if_neg hset, update_of_ne hset]

theorem updateSet_updateSet (d : PeersState P n) (set : Fin n) (f g : SetInfo P → SetInfo P) :
    (d.updateSet set f).updateSet set g = d.updateSet set fun i => g (f i) := by
  unfold updateSet
  dsimp only
  rw [update_idem, update_self]

theorem occupySlot_eq (d : PeersState P n) (set : Fin n) (dir : Direction) :
    d.occupySlot set dir.membership =
      d.updateSet set fun i => i.setNum (d.num set dir + 1) dir := by
  cases dir <;> rfl

theorem releaseSlot_eq (h : d.num set dir ≠ 0) : d.releaseSlot set dir.membership =
      some (d.updateSet set fun i => i.setNum (d.num set dir - 1) dir) := by
  cases dir with
  | ingoing | outgoing => exact if_neg h

theorem releaseSlot_of_none (h : m.direction = none) : d.releaseSlot set m = some d := by
  cases m with
  | notMember => rfl
  | notConnected t => rfl
  | ingoing => cases h
  | outgoing => cases h

end

theorem switched_setMembership (hp : d.nodes.contains p = true) (hx : m.direction = x)
    (hnoSlot : (f (d.sets set)).noSlotNodes = (d.sets set).noSlotNodes)
    (hnum : ∀ dir, (f (d.sets set)).num dir +
        (if d.direction set p = some dir ∧ p ∉ (d.sets set).noSlotNodes then 1 else 0) =
      d.num set dir + if x = some dir ∧ p ∉ (d.sets set).noSlotNodes then 1 else 0) :
    Switched set p x d ((d.setMembership set p m).updateSet set f) := by
  have hdir : ∀ set' q, ((d.setMembership set p m).updateSet set f).direction set' q =
      if (set', q) = (set, p) then x else d.direction set' q := by
    intro set' q
    change ((d.setMembership set p m).membership set' q).direction = _
    rw [membership_setMembership hp]
    split
    · exact hx
    · rfl
  refine ⟨?_, fun set' q hne => ?_, fun set' => ?_, fun set' dir hne => ?_, fun dir => ?_⟩
  · rw [hdir, if_pos rfl]
  · rw [hdir, if_neg hne]
  · rw [sets_updateSet, sets_setMembership]
    split
    · next hset => rw [hnoSlot, hset]
    · rfl
  · rw [num, sets_updateSet, sets_setMembership, if_neg hne, num]
  · rw [num, sets_updateSet, sets_setMembership, if_pos rfl]
    exact hnum dir

omit [DecidableEq P] in
theorem updateSet_id (d : PeersState P n) (set : Fin n) : d.updateSet set (fun i => i) = d := by
  unfold updateSet
  rw [update_eq_self]

theorem switched_connect (hp : d.nodes.contains p = true) (hnone : d.direction set p = none) :
    Switched set p (some dir) d (d.connect set p dir.membership) := by
  unfold connect
  rw [hp]
  split
  · rename_i hno
    have hmem : p ∈ (d.sets set).noSlotNodes :=
      of_decide_eq_true (hno.resolve_right fun hfalse => nomatch hfalse)
    rw [← updateSet_id (d.setMembership set p dir.membership) set]
    refine switched_setMembership hp (direction_membership dir) rfl fun dir' => ?_
    rw [if_neg fun hc => hc.2 hmem, if_neg fun hc => hc.2 hmem]
    rfl
  rename_i hslot
  have hmem : p ∉ (d.sets set).noSlotNodes := fun hmem =>
    hslot (.inl (decide_eq_true hmem))
  rw [occupySlot_eq]
  refine switched_setMembership hp (direction_membership dir) (by simp) fun dir' => ?_
  rw [hnone, num, sets_setMembership]
  by_cases hdir : dir' = dir
  · simp [hdir, hmem, num]
  · simp [hdir, Ne.symm hdir, num]

theorem num_ne_zero (h : Counted d) (hdir : d.direction set p = some dir)
    (hmem : p ∉ (d.sets set).noSlotNodes) : d.num set dir ≠ 0 := by
  rw [h set dir]
  exact Finset.card_ne_zero_of_mem (mem_occupants.mpr ⟨hdir, hmem⟩)

/-- No counter underflows. -/
theorem switched_disconnect (h : Counted d) (hdir : d.direction set p = some dir) (now : Nat) :
    ∃ d', d.disconnect set p now = some d' ∧ Switched set p none d d' := by
  have hm := MembershipState.eq_of_direction hdir
  have hp : d.nodes.contains p = true := contains_of_membership set (by
    rw [hm]
    cases dir <;> exact fun hno => nomatch hno)
  unfold disconnect
  split
  · rename_i hno
    have hmem : p ∈ (d.sets set).noSlotNodes := of_decide_eq_true hno
    refine ⟨_, rfl, ?_⟩
    rw [← updateSet_id (d.setMembership set p _) set]
    refine switched_setMembership hp rfl rfl fun dir' => ?_
    rw [if_neg fun hc => hc.2 hmem]
    rfl
  rename_i hslot
  have hmem : p ∉ (d.sets set).noSlotNodes := fun hmem => hslot (decide_eq_true hmem)
  have hpos := num_ne_zero h hdir hmem
  rw [hm, releaseSlot_eq hpos]
  refine ⟨_, rfl, ?_⟩
  have hcomm : (d.updateSet set fun i => i.setNum (d.num set dir - 1) dir).setMembership set p
      (.notConnected now) = (d.setMembership set p (.notConnected now)).updateSet set
        fun i => i.setNum (d.num set dir - 1) dir := by
    unfold setMembership updateSet
    cases d.nodes.get? p <;> rfl
  dsimp only
  rw [hcomm]
  refine switched_setMembership hp rfl (by simp) fun dir' => ?_
  rw [hdir]
  by_cases hdir' : dir' = dir
  · simp only [hdir', hmem]
    simp
    omega
  · simp [hdir', Ne.symm hdir', num]

/-! ## Peers without slots -/

omit [DecidableEq P] in
theorem direction_updateSet (d : PeersState P n) (set : Fin n) (f : SetInfo P → SetInfo P)
    (set' : Fin n) (q : P) : (d.updateSet set f).direction set' q = d.direction set' q := rfl

/-- One counter changes, and whether one peer occupies a slot. -/
theorem Counted.updateSet (h : Counted d)
    (hothers : ∀ q, q ≠ p → (q ∈ (f (d.sets set)).noSlotNodes ↔ q ∈ (d.sets set).noSlotNodes))
    (hnum : ∀ dir, (f (d.sets set)).num dir +
        (if d.direction set p = some dir ∧ p ∉ (d.sets set).noSlotNodes then 1 else 0) =
      d.num set dir +
        if d.direction set p = some dir ∧ p ∉ (f (d.sets set)).noSlotNodes then 1 else 0) :
    Counted (d.updateSet set f) := by
  intro set' dir
  by_cases hset : set' = set
  · subst hset
    have hcard := card_add_ite (s := d.occupants set' dir)
      (t := (d.updateSet set' f).occupants set' dir) fun q hq => by
        rw [mem_occupants, mem_occupants, direction_updateSet, sets_updateSet, if_pos rfl,
          hothers q hq]
    simp only [mem_occupants, direction_updateSet, sets_updateSet, if_pos] at hcard
    have := hnum dir
    rw [h set' dir] at this
    rw [num, sets_updateSet, if_pos rfl]
    omega
  · rw [num, sets_updateSet, if_neg hset]
    refine (h set' dir).trans (congrArg Finset.card ?_)
    ext q
    rw [mem_occupants, mem_occupants, direction_updateSet, sets_updateSet, if_neg hset]

omit [DecidableEq P] in
theorem num_updateSet (d : PeersState P n) (set : Fin n) (f : SetInfo P → SetInfo P)
    (dir : Direction) : (d.updateSet set f).num set dir = (f (d.sets set)).num dir := by
  rw [num, sets_updateSet, if_pos rfl]

theorem Counted.addNoSlotNode (h : Counted d) (set : Fin n) (p : P) :
    ∃ d', d.addNoSlotNode set p = some d' ∧ Counted d' ∧
      (∀ set' q, d'.direction set' q = d.direction set' q) ∧
      ∀ set' q, q ∈ (d'.sets set').noSlotNodes ↔
        q ∈ (d.sets set').noSlotNodes ∨ (set' = set ∧ q = p) := by
  have hnoSlot : ∀ (f : SetInfo P → SetInfo P),
      (f (d.sets set)).noSlotNodes = ((d.sets set).noSlotNodes.insert p).2 →
      ∀ set' q, q ∈ ((d.updateSet set f).sets set').noSlotNodes ↔
        q ∈ (d.sets set').noSlotNodes ∨ (set' = set ∧ q = p) := by
    intro f hf set' q
    rw [sets_updateSet]
    split
    · next hset => rw [hf, mem_insert, hset, and_iff_right rfl, or_comm]
    · next hset => rw [or_iff_left fun hc => hset hc.1]
  unfold PeersState.addNoSlotNode
  split
  · rename_i hno
    refine ⟨d, rfl, h, fun _ _ => rfl, fun set' q => ?_⟩
    rw [iff_self_or]
    rintro ⟨rfl, rfl⟩
    exact of_decide_eq_true hno
  rename_i hslot
  have hmem : p ∉ (d.sets set).noSlotNodes := fun hmem => hslot (decide_eq_true hmem)
  have hothers : ∀ q, q ≠ p →
      (q ∈ ((d.sets set).noSlotNodes.insert p).2 ↔ q ∈ (d.sets set).noSlotNodes) := by
    intro q hq
    rw [mem_insert, or_iff_right hq]
  have hin : p ∈ ((d.sets set).noSlotNodes.insert p).2 := mem_insert.mpr (.inl rfl)
  cases hdir : d.direction set p with
  | none =>
    rw [releaseSlot_of_none hdir]
    refine ⟨_, rfl, h.updateSet hothers fun dir => ?_, fun _ _ => rfl, hnoSlot _ rfl⟩
    rw [hdir]
    simp only [reduceCtorEq, false_and, if_false]
    rfl
  | some dir =>
    have hpos := num_ne_zero h hdir hmem
    rw [MembershipState.eq_of_direction hdir, releaseSlot_eq (by rw [num_updateSet]; exact hpos),
      updateSet_updateSet, num_updateSet]
    refine ⟨_, rfl, h.updateSet (p := p) ?_ fun dir' => ?_, fun _ _ => rfl, hnoSlot _ ?_⟩
    · simpa using hothers
    · rw [hdir, SetInfo.num_setNum, SetInfo.noSlotNodes_setNum]
      have hpos' : (d.sets set).num dir ≠ 0 := hpos
      by_cases hdir' : dir' = dir
      · rw [if_pos hdir', hdir', if_pos ⟨rfl, hmem⟩, if_neg fun hc => hc.2 hin]
        show (d.sets set).num dir - 1 + 1 = (d.sets set).num dir + 0
        omega
      · rw [if_neg hdir', if_neg fun hc => hdir' (some.inj hc.1).symm,
          if_neg fun hc => hdir' (some.inj hc.1).symm]
        rfl
    · simp

theorem Counted.removeNoSlotNode (h : Counted d) (set : Fin n) (p : P) :
    Counted (d.removeNoSlotNode set p) ∧
      (∀ set' q, (d.removeNoSlotNode set p).direction set' q = d.direction set' q) ∧
      ∀ set' q, q ∈ ((d.removeNoSlotNode set p).sets set').noSlotNodes ↔
        q ∈ (d.sets set').noSlotNodes ∧ ¬(set' = set ∧ q = p) := by
  have hnoSlot : ∀ (f : SetInfo P → SetInfo P),
      (f (d.sets set)).noSlotNodes = (d.sets set).noSlotNodes.erase p →
      ∀ set' q, q ∈ ((d.updateSet set f).sets set').noSlotNodes ↔
        q ∈ (d.sets set').noSlotNodes ∧ ¬(set' = set ∧ q = p) := by
    intro f hf set' q
    rw [sets_updateSet]
    split
    · next hset => rw [hf, mem_erase, hset, and_iff_right rfl, and_comm]
    · next hset => rw [and_iff_left fun hc => hset hc.1]
  unfold PeersState.removeNoSlotNode
  split
  · rename_i hno
    have hmem : p ∈ (d.sets set).noSlotNodes := of_decide_eq_true hno
    have hothers : ∀ q, q ≠ p →
        (q ∈ (d.sets set).noSlotNodes.erase p ↔ q ∈ (d.sets set).noSlotNodes) := by
      intro q hq
      rw [mem_erase, and_iff_right hq]
    have hout : p ∉ (d.sets set).noSlotNodes.erase p := fun hin =>
      (mem_erase.mp hin).1 rfl
    cases hdir : d.direction set p with
    | none =>
      have hsame : ∀ (d1 : PeersState P n), d1.occupySlot set (d.membership set p) = d1 := by
        intro d1
        unfold direction at hdir
        cases hm : d.membership set p with
        | notMember => rfl
        | notConnected t => rfl
        | ingoing | outgoing => rw [hm] at hdir; cases hdir
      rw [hsame]
      refine ⟨h.updateSet hothers fun dir => ?_, fun _ _ => rfl, hnoSlot _ rfl⟩
      rw [hdir]
      simp only [reduceCtorEq, false_and, if_false]
      rfl
    | some dir =>
      rw [MembershipState.eq_of_direction hdir, occupySlot_eq, updateSet_updateSet, num_updateSet]
      refine ⟨h.updateSet (p := p) ?_ fun dir' => ?_, fun _ _ => rfl, hnoSlot _ ?_⟩
      · simpa using hothers
      · rw [hdir, SetInfo.num_setNum, SetInfo.noSlotNodes_setNum]
        by_cases hdir' : dir' = dir
        · rw [if_pos hdir', hdir', if_neg fun hc => hc.2 hmem, if_pos ⟨rfl, hout⟩]
          rfl
        · rw [if_neg hdir', if_neg fun hc => hdir' (some.inj hc.1).symm,
            if_neg fun hc => hdir' (some.inj hc.1).symm]
          rfl
      · simp
  · rename_i hslot
    refine ⟨h, fun _ _ => rfl, fun set' q => ?_⟩
    rw [iff_self_and]
    rintro hq ⟨rfl, rfl⟩
    exact hslot (decide_eq_true hq)

end PeersState

end Peerset

end Substrate
