import Mathlib.Data.List.MinMax
import Substrate.Peerset
import Substrate.PeersetSlots

/-!
# The messages of the peerset

A reader of the messages learns who is connected: `Connect` and `Accept` connect a peer that was not
connected, `Drop` disconnects one that was. `Speaks` is this protocol. `Flow` is what a call does
that leaves the reserved nodes: it keeps the counters right, speaks the protocol, and connects to no
peer that a set in reserved-only mode does not admit.
-/

namespace Substrate.Peerset

open Exec Function PeersState List Option

variable {P : Type} {n : Nat}

/-! ## The protocol -/

/-- The messages lead from some connections to others; `who` is the peer of an incoming connection.
-/
inductive Speaks [DecidableEq P] (who : Nat → Option (Fin n × P)) :
    (Fin n × P → Bool) → List (Message P n) → (Fin n × P → Bool) → Prop where
  | nil (c : Fin n × P → Bool) : Speaks who c [] c
  | connect {c c' : Fin n × P → Bool} {set : Fin n} {p : P} {ms}
      (hfree : c (set, p) = false) (h : Speaks who (update c (set, p) true) ms c') :
      Speaks who c (.connect set p :: ms) c'
  | accept {c c' : Fin n × P → Bool} {index : Nat} {x ms}
      (hwho : who index = some x) (hfree : c x = false)
      (h : Speaks who (update c x true) ms c') : Speaks who c (.accept index :: ms) c'
  | drop {c c' : Fin n × P → Bool} {set : Fin n} {p : P} {ms}
      (hlinked : c (set, p) = true) (h : Speaks who (update c (set, p) false) ms c') :
      Speaks who c (.drop set p :: ms) c'
  | reject {c c' : Fin n × P → Bool} {index : Nat} {ms}
      (h : Speaks who c ms c') : Speaks who c (.reject index :: ms) c'

def links (s : State P n) (x : Fin n × P) : Bool := (s.data.direction x.1 x.2).isSome

section Protocol

variable [DecidableEq P] {who : Nat → Option (Fin n × P)}
  {ms : List (Message P n)} {x : Option Direction}

theorem Speaks.append {c c1 c' : Fin n × P → Bool} {ms'} (h : Speaks who c ms c1)
    (h' : Speaks who c1 ms' c') : Speaks who c (ms ++ ms') c' := by
  induction h with
  | nil c => exact h'
  | connect hfree _ ih => exact .connect hfree (ih h')
  | accept hwho hfree _ ih => exact .accept hwho hfree (ih h')
  | drop hlinked _ ih => exact .drop hlinked (ih h')
  | reject _ ih => exact .reject (ih h')

/-- The counters are right, and the nodes that don't occupy slots are the reserved ones. -/
structure Good (s : State P n) : Prop where
  counted : s.data.Counted
  synced : ∀ set p, p ∈ (s.data.sets set).noSlotNodes ↔ p ∈ s.reservedNodes set

structure Flow (who : Nat → Option (Fin n × P)) (s s' : State P n) : Prop where
  good : Good s'
  speaks : ∃ ms, s'.messageQueue = s.messageQueue ++ ms ∧ Speaks who (links s) ms (links s')
  reservedNodes : s'.reservedNodes = s.reservedNodes
  reservedOnly : s'.reservedOnly = s.reservedOnly
  admitted : ∀ set p, links s' (set, p) = true →
    links s (set, p) = true ∨ p ∈ s.reservedNodes set ∨ s.reservedOnly set = false

variable {s s1 s' : State P n} {set : Fin n} {p : P}

theorem Flow.trans (h : Flow who s s1) (h' : Flow who s1 s') : Flow who s s' where
  good := h'.good
  speaks := by
    obtain ⟨ms, hms, hspeaks⟩ := h.speaks
    obtain ⟨ms', hms', hspeaks'⟩ := h'.speaks
    exact ⟨ms ++ ms', by rw [hms', hms, append_assoc], hspeaks.append hspeaks'⟩
  reservedNodes := h'.reservedNodes.trans h.reservedNodes
  reservedOnly := h'.reservedOnly.trans h.reservedOnly
  admitted set p hp := by
    rcases h'.admitted set p hp with hlinked | hadmitted
    · exact h.admitted set p hlinked
    · rw [h.reservedNodes, h.reservedOnly] at hadmitted
      exact .inr hadmitted

theorem Good.quiet (h : Good s) (hquiet : s.data.Quiet s'.data)
    (hnodes : s'.reservedNodes = s.reservedNodes) : Good s' := by
  refine ⟨h.counted.quiet hquiet, fun set p => ?_⟩
  rw [hquiet.sets, hnodes]
  exact h.synced set p

theorem Good.switched (h : Good s) (hs : PeersState.Switched set p x s.data s'.data)
    (hnodes : s'.reservedNodes = s.reservedNodes) : Good s' := by
  refine ⟨h.counted.switched hs, fun set' q => ?_⟩
  rw [hs.noSlotNodes, hnodes]
  exact h.synced set' q

theorem Flow.of_quiet (hgood : Good s) (hquiet : s.data.Quiet s'.data)
    (hqueue : s'.messageQueue = s.messageQueue ++ ms) (hspeaks : Speaks who (links s) ms (links s))
    (hnodes : s'.reservedNodes = s.reservedNodes) (honly : s'.reservedOnly = s.reservedOnly) :
    Flow who s s' := by
  have hlinks : links s' = links s := by
    funext x
    rw [links, links, hquiet.direction]
  exact ⟨hgood.quiet hquiet hnodes, ⟨ms, hqueue, hlinks ▸ hspeaks⟩, hnodes, honly, fun set p hp =>
    .inl (hlinks ▸ hp)⟩

theorem Flow.refl (hgood : Good s) : Flow who s s :=
  .of_quiet hgood (.refl _) (append_nil _).symm (.nil _) rfl rfl

theorem links_switched (hs : PeersState.Switched set p x s.data s'.data) :
    links s' = update (links s) (set, p) x.isSome := by
  funext ⟨set', q⟩
  by_cases hx : (set', q) = (set, p)
  · obtain ⟨rfl, rfl⟩ := Prod.mk.inj hx
    rw [update_self, links, hs.direction_self]
  · rw [update_of_ne hx, links, links, hs.direction_of_ne set' q hx]

theorem Flow.of_switched (hgood : Good s) (hs : PeersState.Switched set p x s.data s'.data)
    (hqueue : s'.messageQueue = s.messageQueue ++ ms)
    (hspeaks : Speaks who (links s) ms (update (links s) (set, p) x.isSome))
    (hnodes : s'.reservedNodes = s.reservedNodes) (honly : s'.reservedOnly = s.reservedOnly)
    (hadmits : x.isSome = true → p ∈ s.reservedNodes set ∨ s.reservedOnly set = false) :
    Flow who s s' := by
  have hlinks := links_switched hs
  refine ⟨hgood.switched hs hnodes, ⟨ms, hqueue, hlinks ▸ hspeaks⟩, hnodes, honly,
    fun set' q hq => ?_⟩
  rw [hlinks] at hq
  by_cases hx : (set', q) = (set, p)
  · obtain ⟨rfl, rfl⟩ := Prod.mk.inj hx
    rw [update_self] at hq
    exact .inr (hadmits hq)
  · rw [update_of_ne hx] at hq
    exact .inl hq

section

omit [DecidableEq P]

theorem links_eq_false (h : s.data.direction set p = none) : links s (set, p) = false := by
  rw [links, h]
  rfl

theorem links_eq_true : links s (set, p) = true ↔ s.data.peer set p = .connected := by
  rw [peer_eq_connected, links, isSome_iff_ne_none]

end

end Protocol

/-! ## Small calls -/

section Small

variable [DecidableEq P] {E : Environment P} {who : Nat → Option (Fin n × P)}
  {s : State P n} {set : Fin n} {p : P}

theorem flow_bind {α β : Type} {m} {f : α → Call P n β} (h : Total m s fun _ s' => Flow who s s')
    (h' : ∀ a s1, Flow who s s1 → Total (f a) s1 fun _ s' => Flow who s1 s') :
    Total (m >>= f) s fun _ s' => Flow who s s' := by
  rw [total_bind]
  exact h.mono fun a s1 h1 => (h' a s1 h1).mono fun _ s' h2 => h1.trans h2

theorem flow_asked (hgood : Good s) : Flow who s { s with asked := s.asked + 1 } :=
  .of_quiet hgood (.refl _) (append_nil _).symm (.nil _) rfl rfl

theorem flow_data (hgood : Good s) {d} (hquiet : s.data.Quiet d) :
    Flow who s { s with data := d } :=
  .of_quiet hgood hquiet (append_nil _).symm (.nil _) rfl rfl

variable {Q : Unit → State P n → Prop}

theorem total_updateTime (h : ∀ s', s.data.Quiet s'.data → s'.messageQueue = s.messageQueue →
      s'.reservedNodes = s.reservedNodes → s'.reservedOnly = s.reservedOnly → Q () s') :
    Total (updateTime E) s Q := by
  unfold updateTime
  simp only [total_bind, total_read, total_modify]
  exact h _ (quiet_passSeconds _ _ _ _) rfl rfl rfl

theorem flow_updateTime (hgood : Good s) : Total (updateTime E) s fun _ s' => Flow who s s' :=
  total_updateTime fun _ hquiet hqueue hnodes honly =>
    .of_quiet hgood hquiet (hqueue.trans (append_nil _).symm) (.nil _) hnodes honly

section

omit [DecidableEq P]

theorem total_iterate {ps : State P n → List P} {Q : List P → State P n → Prop}
    (h : ∀ order, order.Perm (ps s) → Q order { s with asked := s.asked + 1 }) :
    Total (iterate E ps) s Q := by
  unfold iterate
  simp only [total_bind, total_read, total_modify, total_pure]
  exact h _ (E.order_perm _ _ _)

theorem total_forEach {α : Type} {f : α → Call P n Unit} {as : List α}
    {I : List α → State P n → Prop} (hstart : I [] s)
    (hstep : ∀ past a rest s, as = past ++ a :: rest → I past s →
      Total (f a) s fun _ s' => I (past ++ [a]) s') :
    Total (forEach f as) s fun _ s' => I as s' := by
  -- the induction is on the calls to come
  have hrun : ∀ rest past s, as = past ++ rest → I past s →
      Total (forEach f rest) s fun _ s' => I as s' := by
    intro rest
    induction rest with
    | nil =>
      rintro past s rfl hpast
      rw [append_nil]
      exact hpast
    | cons a rest ih =>
      intro past s has hpast
      rw [forEach, total_bind]
      refine (hstep past a rest s has hpast).mono fun _ s1 h1 => ih (past ++ [a]) s1 ?_ h1
      rw [has, append_assoc, singleton_append]
  exact hrun as [] s rfl hstart

end

theorem flow_forEach {α : Type} {f : α → Call P n Unit} {as : List α}
    (hf : ∀ a s, Good s → Total (f a) s fun _ s' => Flow who s s') (hgood : Good s) :
    Total (forEach f as) s fun _ s' => Flow who s s' := by
  refine total_forEach (I := fun _ s' => Flow who s s') (.refl hgood) fun _ a _ s1 _ h1 => ?_
  exact (hf a s1 h1.good).mono fun _ s' h' => h1.trans h'

theorem total_disconnectPeer (hgood : Good s) (hpeer : s.data.peer set p = .connected)
    (h : ∀ s', PeersState.Switched set p none s.data s'.data → s'.messageQueue = s.messageQueue →
      s'.reservedNodes = s.reservedNodes → s'.reservedOnly = s.reservedOnly → Q () s') :
    Total (disconnectPeer E set p) s Q := by
  obtain ⟨dir, hdir⟩ := ne_none_iff_exists'.mp (peer_eq_connected.mp hpeer)
  obtain ⟨d', hd', hs⟩ := switched_disconnect hgood.counted hdir (E.clock s.asked)
  unfold disconnectPeer tryData
  simp only [total_bind, total_read, total_modify, total_unwrap]
  exact ⟨d', hd', h _ hs rfl rfl rfl⟩

theorem speaks_drop (hpeer : s.data.peer set p = .connected) :
    Speaks who (links s) [.drop set p] (update (links s) (set, p) false) :=
  .drop (links_eq_true.mpr hpeer) (.nil _)

theorem flow_drop (who : Nat → Option (Fin n × P)) (hgood : Good s) (hpeer : s.data.peer set p = .connected) :
    Total (disconnectPeer E set p >>= fun _ => pushBack (.drop set p)) s
      fun _ s' => Flow who s s' ∧ links s' = update (links s) (set, p) false := by
  rw [total_bind]
  refine total_disconnectPeer hgood hpeer fun s' hs hqueue hnodes honly => ?_
  refine ⟨.of_switched hgood hs ?_ (speaks_drop hpeer) hnodes honly (fun hno => nomatch hno),
    links_switched hs⟩
  exact congrArg (· ++ [_]) hqueue

section

variable (hgood : Good s) (hp : s.data.nodes.contains p = true)
  (hnone : s.data.direction set p = none)
include hgood hp hnone

theorem flow_connect {s'} (hadmits : p ∈ s.reservedNodes set ∨ s.reservedOnly set = false)
    (hdata : s'.data = s.data.connect set p .outgoing)
    (hqueue : s'.messageQueue = s.messageQueue ++ [.connect set p])
    (hnodes : s'.reservedNodes = s.reservedNodes) (honly : s'.reservedOnly = s.reservedOnly) :
    Flow who s s' := by
  have hs : PeersState.Switched set p (some .outgoing) s.data s'.data :=
    hdata ▸ switched_connect hp hnone
  exact .of_switched hgood hs hqueue (.connect (links_eq_false hnone) (.nil _)) hnodes honly
    fun _ => hadmits

theorem flow_connectOutgoing (hadmits : p ∈ s.reservedNodes set ∨ s.reservedOnly set = false) :
    Total (connectOutgoing set p) s fun _ s' => Flow who s s' := by
  unfold connectOutgoing
  rw [total_bind, total_read]
  unfold tryOutgoing
  split
  · rename_i d hd
    split at hd
    · cases hd
    · obtain rfl := some.inj hd
      exact flow_connect hgood hp hnone hadmits rfl rfl rfl rfl
  · exact .refl hgood

end

end Small

/-! ## Allocating slots -/

section Alloc

variable [DecidableEq P] {E : Environment P} {who : Nat → Option (Fin n × P)}
  {s : State P n} {set : Fin n} {p : P} {d : PeersState P n}

theorem contains_discover (d : PeersState P n) (set : Fin n) (p : P) (now : Nat) :
    (d.discover set p now).nodes.contains p = true := by
  unfold discover FinMap.contains
  rw [FinMap.get?_insert, update_self]
  rfl

omit [DecidableEq P] in
theorem contains_of_notConnected (h : d.peer set p = .notConnected) :
    d.nodes.contains p = true := by
  refine contains_of_membership set fun hm => ?_
  rw [peer, hm] at h
  cases h

theorem quiet_discover_unknown (hpeer : s.data.peer set p ≠ .connected) (now : Nat) :
    let d := if s.data.peer set p = .unknown then s.data.discover set p now else s.data
    s.data.Quiet d ∧ d.nodes.contains p = true := by
  have hnone := direction_of_peer hpeer
  split
  · exact ⟨quiet_discover hnone now, contains_discover ..⟩
  rename_i hunknown
  have hwaits : s.data.peer set p = .notConnected := by
    cases hcase : s.data.peer set p with
    | connected => exact absurd hcase hpeer
    | unknown => exact absurd hcase hunknown
    | notConnected => rfl
  exact ⟨.refl _, contains_of_notConnected hwaits⟩

theorem flow_connectReserved {ps : List P} (hgood : Good s)
    (hps : ∀ p ∈ ps, p ∈ s.reservedNodes set) :
    Total (connectReserved E set ps) s fun _ s' => Flow who s s' := by
  induction ps generalizing s with
  | nil => exact .refl hgood
  | cons p rest ih =>
    have hp := hps p mem_cons_self
    have hrest : ∀ q ∈ rest, q ∈ s.reservedNodes set := fun q hq =>
      hps q (mem_cons_of_mem _ hq)
    rw [connectReserved, total_bind, total_read]
    split
    · exact ih hgood hrest
    rename_i hpeer
    obtain ⟨hquiet, hknown⟩ := quiet_discover_unknown hpeer (E.clock s.asked)
    unfold instantNow modifyData
    simp only [total_bind, total_read, total_modify, total_pure]
    generalize (if s.data.peer set p = .unknown then s.data.discover set p (E.clock s.asked)
      else s.data) = d at hquiet hknown ⊢
    have hflow : Flow who s { s with data := d, asked := s.asked + 1 } :=
      .of_quiet hgood hquiet (append_nil _).symm (.nil _) rfl rfl
    split
    · exact hflow
    have hnone := (hquiet.direction set p).trans (direction_of_peer hpeer)
    refine Total.mono (flow_bind (flow_connectOutgoing hflow.good hknown hnone
      (.inl hp)) fun _ s1 h1 => ih h1.good ?_) fun _ s' h' => hflow.trans h'
    rw [h1.reservedNodes]
    exact hrest

def waiting (d : PeersState P n) (set : Fin n) : Finset P :=
  d.nodes.keys.toFinset.filter fun p => d.peer set p = .notConnected

theorem mem_waiting : p ∈ waiting d set ↔ d.peer set p = .notConnected := by
  rw [waiting, Finset.mem_filter, List.mem_toFinset, and_iff_right_iff_imp]
  intro h
  rw [d.nodes.mem_keys]
  exact contains_of_notConnected h

theorem waiting_connect (hp : d.peer set p = .notConnected) :
    (waiting (d.connect set p .outgoing) set).card < (waiting d set).card := by
  have hcontains := contains_of_notConnected hp
  have hmem : ∀ q, (d.connect set p .outgoing).membership set q =
      if q = p then .outgoing else d.membership set q := by
    intro q
    have hnodes : (d.connect set p .outgoing).nodes = (d.setMembership set p .outgoing).nodes := by
      unfold connect
      split <;> rfl
    have hsame : (d.connect set p .outgoing).membership set q =
        (d.setMembership set p .outgoing).membership set q := by
      unfold membership
      rw [hnodes]
    rw [hsame, membership_setMembership hcontains]
    refine if_congr ?_ rfl rfl
    exact ⟨fun h => (Prod.mk.inj h).2, fun h => by rw [h]⟩
  refine Finset.card_lt_card ⟨fun q hq => ?_, fun hsub => ?_⟩
  · rw [mem_waiting, peer, hmem] at hq
    rw [mem_waiting]
    by_cases hqp : q = p
    · rw [if_pos hqp] at hq
      cases hq
    · rwa [if_neg hqp] at hq
  · have hstill := hsub (mem_waiting.mpr hp)
    rw [mem_waiting, peer, hmem, if_pos rfl] at hstill
    cases hstill

section

omit [DecidableEq P]

theorem highestNotConnectedPeer_eq {order : List P → List P} : d.highestNotConnectedPeer set order =
    @argmax P Int Int.instLinearOrder.toPreorder _ d.reputation
      ((order d.nodes.keys).filter fun p => d.peer set p = .notConnected) := by
  unfold highestNotConnectedPeer argmax
  congr 1
  funext cur q
  cases cur with
  | none => rfl
  | some c => exact (ite_congr not_lt.symm.eq (fun _ => rfl) fun _ => rfl).trans (ite_not ..)

theorem highestNotConnectedPeer_waiting {order : List P → List P}
    (h : d.highestNotConnectedPeer set order = some p) : d.peer set p = .notConnected := by
  rw [highestNotConnectedPeer_eq] at h
  exact of_decide_eq_true (mem_filter.mp (argmax_mem h)).2

end

theorem flow_fillSlots {fuel : Nat} (hgood : Good s) (honly : s.reservedOnly set = false)
    (hfuel : (waiting s.data set).card < fuel) :
    Total (fillSlots E set fuel) s fun _ s' => Flow who s s' := by
  induction fuel generalizing s with
  | zero => exact absurd hfuel (Nat.not_lt_zero _)
  | succ fuel ih =>
    rw [fillSlots, total_bind, total_read]
    split
    · rename_i hfree
      simp only [total_bind, total_read, total_modify]
      have hasked : Flow who s { s with asked := s.asked + 1 } := flow_asked hgood
      split
      · exact hasked
      rename_i p hnext
      have hwaits := highestNotConnectedPeer_waiting hnext
      have hnone := direction_of_peer_eq hwaits (by decide)
      rw [total_bind, total_read]
      split
      · exact hasked
      -- with a free slot the peer is connected
      have hflow : Flow who s { s with
          asked := s.asked + 1
          data := s.data.connect set p .outgoing
          messageQueue := s.messageQueue ++ [.connect set p] } :=
        flow_connect hgood (contains_of_notConnected hwaits) hnone (.inr honly) rfl rfl
          rfl rfl
      have htry : s.data.tryOutgoing set p = some (s.data.connect set p .outgoing) :=
        if_neg fun hfull => Bool.eq_false_iff.mp hfull.1 hfree
      unfold connectOutgoing
      simp only [total_bind, total_read, htry, total_modify]
      refine (ih hflow.good honly ?_).mono fun _ s' h' => hflow.trans h'
      exact Nat.lt_of_lt_of_le (waiting_connect hwaits) (Nat.le_of_lt_succ hfuel)
    · exact .refl hgood

/-- **Allocating slots** keeps the counters right and speaks the protocol. -/
theorem flow_allocSlots (hgood : Good s) :
    Total (allocSlots E set) s fun _ s' => Flow who s s' := by
  refine flow_bind (flow_updateTime hgood) fun _ s h => ?_
  rw [total_bind]
  refine total_iterate fun order hperm => ?_
  have hasked : Flow who s { s with asked := s.asked + 1 } := flow_asked h.good
  refine Total.mono (flow_bind (flow_connectReserved hasked.good fun p hp =>
    hperm.mem_iff.mp hp) fun _ s h => ?_) fun _ s' h' => hasked.trans h'
  rw [total_bind, total_read]
  split
  · exact .refl h.good
  rename_i honly
  rw [total_bind]
  refine flow_fillSlots h.good (Bool.eq_false_iff.mpr honly) ?_
  exact Nat.lt_succ_of_le (Nat.le_trans (Finset.card_filter_le _ _) (toFinset_card_le _))

end Alloc

end Substrate.Peerset
