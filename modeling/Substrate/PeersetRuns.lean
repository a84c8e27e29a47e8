import Substrate.PeersetProtocol

/-!
# Runs of the peerset

The operations that change the reserved nodes or the reserved-only flag, and whole runs: from the
configuration on, by operations in any order and by taking messages from the queue. Every operation
returns, keeps the state `Sound`, and speaks the protocol.
-/

namespace Substrate.Peerset

open Exec Function PeersState

variable {P : Type} {n : Nat} [DecidableEq P]

/-! ## Sound states -/

/-- The counters are right, and while a set is reserved-only every connected peer is reserved. -/
structure Sound (s : State P n) : Prop where
  good : Good s
  exclusive : ∀ set p, s.reservedOnly set = true → links s (set, p) = true → p ∈ s.reservedNodes set

/-- The messages start from the connections `c`. -/
structure Serves (who : Nat → Option (Fin n × P)) (c : Fin n × P → Bool) (s s' : State P n) :
    Prop where
  sound : Sound s'
  speaks : ∃ ms, s'.messageQueue = s.messageQueue ++ ms ∧ Speaks who c ms (links s')

section Serves

variable {who : Nat → Option (Fin n × P)} {c : Fin n × P → Bool} {s s1 s' : State P n}

theorem Flow.serves (h : Flow who s s') (hs : Sound s) : Serves who (links s) s s' where
  sound := by
    refine ⟨h.good, fun set p honly hp => ?_⟩
    rw [h.reservedOnly] at honly
    rw [h.reservedNodes]
    rcases h.admitted set p hp with hlinked | hreserved | hno
    · exact hs.exclusive set p honly hlinked
    · exact hreserved
    · exact absurd (honly.symm.trans hno) (by decide)
  speaks := h.speaks

theorem Serves.trans (h : Serves who c s s1) (h' : Serves who (links s1) s1 s') :
    Serves who c s s' := by
  obtain ⟨ms, hms, hspeaks⟩ := h.speaks
  obtain ⟨ms', hms', hspeaks'⟩ := h'.speaks
  exact ⟨h'.sound, ms ++ ms', by rw [hms', hms, List.append_assoc], hspeaks.append hspeaks'⟩

theorem Serves.refl (hs : Sound s) : Serves who (links s) s s :=
  ⟨hs, [], (List.append_nil _).symm, .nil _⟩

theorem Serves.silent (hsound : Sound s') (hqueue : s'.messageQueue = s.messageQueue)
    (hlinks : links s' = c) : Serves who c s s' :=
  ⟨hsound, [], hqueue.trans (List.append_nil _).symm, hlinks ▸ .nil _⟩

theorem serves_bind {α β : Type} {m} {f : α → Call P n β}
    (h : Total m s fun _ s' => Serves who c s s')
    (h' : ∀ a s1, Sound s1 → Total (f a) s1 fun _ s' => Serves who (links s1) s1 s') :
    Total (m >>= f) s fun _ s' => Serves who c s s' := by
  rw [total_bind]
  exact h.mono fun a s1 h1 => (h' a s1 h1.sound).mono fun _ s' h2 => h1.trans h2

theorem serves_forEach {α : Type} {f : α → Call P n Unit} {as : List α}
    (hf : ∀ a s, Sound s → Total (f a) s fun _ s' => Serves who (links s) s s')
    (hs : Sound s) : Total (forEach f as) s fun _ s' => Serves who (links s) s s' := by
  refine total_forEach (I := fun _ s' => Serves who (links s) s s') (.refl hs)
    fun _ a _ s1 _ h1 => ?_
  exact (hf a s1 h1.sound).mono fun _ s' h' => h1.trans h'

end Serves

/-! ## Reserved nodes -/

variable {ps : List P} {d : PeersState P n}

section Reserved

variable {E : Environment P} {who : Nat → Option (Fin n × P)} {s : State P n} {set : Fin n} {p : P}

theorem serves_allocSlots (hs : Sound s) :
    Total (allocSlots E set) s fun _ s' => Serves who (links s) s s' :=
  (flow_allocSlots hs.good).mono fun _ _ h => h.serves hs

omit [DecidableEq P] in
theorem links_eq_of_direction {s'} (h : ∀ set p, s'.data.direction set p = s.data.direction set p) :
    links s' = links s := by
  funext x
  rw [links, links, h]

theorem serves_onAddReservedPeer (hs : Sound s) :
    Total (onAddReservedPeer E set p) s fun _ s' => Serves who (links s) s s' := by
  unfold onAddReservedPeer
  rw [total_bind, total_read]
  split
  · exact .refl hs
  obtain ⟨d, hd, hcounted, hdir, hnoSlot⟩ := hs.good.counted.addNoSlotNode set p
  unfold tryData
  simp only [total_bind, total_read, total_modify, total_unwrap]
  refine ⟨d, hd, ?_⟩
  have hmem : ∀ set' q, q ∈ update s.reservedNodes set ((s.reservedNodes set).insert p).2 set' ↔
        q ∈ s.reservedNodes set' ∨ (set' = set ∧ q = p) := by
    intro set' q
    by_cases hset : set' = set
    · subst hset
      rw [update_self, KeySet.mem_insert, and_iff_right rfl, or_comm]
    · rw [update_of_ne hset, or_iff_left fun hc => hset hc.1]
  have hlinks : ∀ x, (d.direction x.1 x.2).isSome = links s x := fun x => by
    rw [hdir, links]
  have hsound : Sound { s with
      data := d
      reservedNodes := update s.reservedNodes set ((s.reservedNodes set).insert p).2 } := by
    refine ⟨⟨hcounted, fun set' q => ?_⟩, fun set' q honly hq => ?_⟩
    · rw [hnoSlot, hmem, hs.good.synced]
    · exact (hmem set' q).mpr (.inl (hs.exclusive set' q honly (hlinks (set', q) ▸ hq)))
  refine (serves_allocSlots hsound).mono fun _ s' h' => Serves.trans ?_ h'
  exact .silent hsound rfl (funext hlinks)

theorem serves_onRemoveReservedPeer (hs : Sound s) :
    Total (onRemoveReservedPeer E set p) s fun _ s' => Serves who (links s) s s' := by
  unfold onRemoveReservedPeer
  rw [total_bind, total_read]
  split
  · obtain ⟨hcounted, hdir, hnoSlot⟩ := hs.good.counted.removeNoSlotNode set p
    rw [total_bind, total_modify]
    generalize hs1 : { s with
        data := s.data.removeNoSlotNode set p
        reservedNodes := update s.reservedNodes set ((s.reservedNodes set).erase p) } = s1
    rw [total_bind, total_read, total_bind, total_read]
    have hlinks : links s1 = links s := by
      subst hs1
      exact links_eq_of_direction hdir
    have hmem : ∀ set' q, q ∈ s1.reservedNodes set' ↔
        q ∈ s.reservedNodes set' ∧ ¬(set' = set ∧ q = p) := by
      subst hs1
      intro set' q
      by_cases hset : set' = set
      · subst hset
        dsimp only
        rw [update_self, KeySet.mem_erase, and_iff_right rfl, and_comm]
      · dsimp only
        rw [update_of_ne hset, and_iff_left fun hc => hset hc.1]
    have hgood : Good s1 := by
      refine ⟨by subst hs1; exact hcounted, fun set' q => ?_⟩
      rw [hmem, ← hs.good.synced]
      subst hs1
      exact hnoSlot set' q
    have honly1 : s1.reservedOnly = s.reservedOnly := by subst hs1; rfl
    have hqueue : s1.messageQueue = s.messageQueue := by subst hs1; rfl
    -- apart from the removed node, the connected peers are still reserved
    have hothers : ∀ set' q, s1.reservedOnly set' = true → links s1 (set', q) = true →
        (set', q) ≠ (set, p) → q ∈ s1.reservedNodes set' := by
      intro set' q honly hq hne
      rw [hlinks] at hq
      rw [honly1] at honly
      refine (hmem set' q).mpr ⟨hs.exclusive set' q honly hq, fun hc => hne ?_⟩
      rw [hc.1, hc.2]
    split
    · rename_i hdrop
      refine (flow_drop who hgood hdrop.2).mono fun _ s' ⟨hflow, hlinks'⟩ => ?_
      obtain ⟨ms, hms, hspeaks⟩ := hflow.speaks
      refine ⟨⟨hflow.good, fun set' q honly hq => ?_⟩, ms, by rw [hms, hqueue], hlinks ▸ hspeaks⟩
      rw [hlinks'] at hq
      have hne : (set', q) ≠ (set, p) := by
        intro heq
        rw [heq, update_self] at hq
        cases hq
      rw [update_of_ne hne] at hq
      rw [hflow.reservedOnly] at honly
      rw [hflow.reservedNodes]
      exact hothers set' q honly hq hne
    · rename_i hkept
      refine .silent ⟨hgood, fun set' q honly hq => ?_⟩ hqueue hlinks
      refine hothers set' q honly hq fun heq => hkept ?_
      obtain ⟨rfl, rfl⟩ := Prod.mk.inj heq
      exact ⟨honly, links_eq_true.mp hq⟩
  · exact .refl hs

theorem serves_onSetReservedPeers {peers} (hs : Sound s) :
    Total (onSetReservedPeers E set peers) s fun _ s' => Serves who (links s) s s' := by
  unfold onSetReservedPeers
  rw [total_bind, total_read, total_bind]
  refine total_iterate fun toInsert _ => ?_
  rw [total_bind]
  refine total_iterate fun toRemove _ => ?_
  have hasked : Sound { s with asked := s.asked + 1 + 1 } := ⟨⟨hs.good.counted, hs.good.synced⟩,
    hs.exclusive⟩
  refine Total.mono (serves_bind (serves_forEach (fun _ _ => serves_onAddReservedPeer) hasked)
    fun _ s1 h1 => serves_forEach (fun _ _ => serves_onRemoveReservedPeer) h1)
    fun _ s' h' => Serves.trans ?_ h'
  exact .silent hasked rfl rfl

theorem flow_disconnectUnreserved (hgood : Good s) (hnodup : ps.Nodup)
    (hps : ∀ p ∈ ps, links s (set, p) = true) :
    Total (forEach (disconnectUnreserved E set) ps) s fun _ s' => Flow who s s' ∧
      ∀ p ∈ ps, links s' (set, p) = true → p ∈ s.reservedNodes set := by
  refine Total.mono (total_forEach (I := fun past s' => Flow who s s' ∧ ∀ p,
    links s' (set, p) = if p ∈ past ∧ p ∉ s.reservedNodes set then false else links s (set, p))
    ⟨.refl hgood, fun p => (if_neg fun hc => List.not_mem_nil hc.1).symm⟩ ?_) ?_
  · rintro past p rest s1 rfl ⟨hflow, hlinks⟩
    have hfresh : p ∉ past := fun hp =>
      (List.nodup_append.mp hnodup).2.2 p hp p List.mem_cons_self rfl
    unfold disconnectUnreserved
    rw [total_bind, total_read]
    split
    · rename_i hreserved
      have hp : p ∈ s.reservedNodes set := hflow.reservedNodes ▸ of_decide_eq_true hreserved
      refine ⟨hflow, fun q => ?_⟩
      rw [hlinks]
      refine if_congr ⟨fun h => ⟨List.mem_append_left _ h.1, h.2⟩, fun h => ⟨?_, h.2⟩⟩ rfl rfl
      refine (List.mem_append.mp h.1).resolve_right fun hq => h.2 ?_
      rw [List.mem_singleton.mp hq]
      exact hp
    rename_i hreserved
    have hp : p ∉ s.reservedNodes set := fun hp =>
      hreserved (decide_eq_true (hflow.reservedNodes.symm ▸ hp))
    have hpeer : s1.data.peer set p = .connected := by
      rw [← links_eq_true, hlinks, if_neg fun hc => hfresh hc.1]
      exact hps p (List.mem_append_right _ List.mem_cons_self)
    rw [total_bind, total_read, total_bind, total_assert]
    refine ⟨hpeer, (flow_drop who hflow.good hpeer).mono fun _ s' h' => ⟨hflow.trans h'.1, ?_⟩⟩
    intro q
    rw [h'.2]
    by_cases hq : q = p
    · subst hq
      rw [update_self, if_pos]
      exact ⟨List.mem_append_right _ List.mem_cons_self, hp⟩
    · rw [update_of_ne (fun heq => hq (Prod.mk.inj heq).2), hlinks]
      refine if_congr (and_congr_left' ?_) rfl rfl
      rw [List.mem_append, List.mem_singleton, or_iff_left hq]
  · rintro _ s' ⟨hflow, hlinks⟩
    refine ⟨hflow, fun p hp hlinked => ?_⟩
    by_contra hno
    rw [hlinks, if_pos ⟨hp, hno⟩] at hlinked
    cases hlinked

omit [DecidableEq P] in
theorem mem_connectedPeers : p ∈ s.data.connectedPeers set ↔ links s (set, p) = true := by
  have hconnected : ∀ m : MembershipState, m.isConnected = m.direction.isSome := by
    intro m
    cases m <;> rfl
  rw [connectedPeers, List.mem_filter, hconnected]
  change p ∈ s.data.nodes.keys ∧ links s (set, p) = true ↔ links s (set, p) = true
  rw [and_iff_right_iff_imp, s.data.nodes.mem_keys]
  intro h
  refine contains_of_membership set fun hno => ?_
  rw [links, direction, hno] at h
  cases h

theorem serves_onSetReservedOnly {reservedOnly : Bool} (hs : Sound s) :
    Total (onSetReservedOnly E set reservedOnly) s fun _ s' => Serves who (links s) s s' := by
  unfold onSetReservedOnly
  rw [total_bind, total_modify]
  have hgood : ∀ only asked, Good { s with reservedOnly := only, asked := asked } := fun _ _ =>
    ⟨hs.good.counted, hs.good.synced⟩
  split
  · rename_i hon
    subst hon
    rw [total_bind]
    refine total_iterate fun order hperm => ?_
    have hnodup : order.Nodup := hperm.nodup_iff.mpr (s.data.nodes.nodup.filter _)
    have hrun : Total (forEach (disconnectUnreserved E set) order) { s with
        reservedOnly := update s.reservedOnly set true, asked := s.asked + 1 }
        fun _ s' => Flow who _ s' ∧ ∀ p ∈ order, links s' (set, p) = true →
          p ∈ s.reservedNodes set :=
      flow_disconnectUnreserved (hgood _ _) hnodup fun p hp =>
        mem_connectedPeers.mp (hperm.mem_iff.mp hp)
    refine hrun.mono fun _ s' ⟨hflow, hdone⟩ => ?_
    refine ⟨⟨hflow.good, fun set' q honly hq => ?_⟩, hflow.speaks⟩
    rw [hflow.reservedNodes]
    have hold : links s (set', q) = true ∨ q ∈ s.reservedNodes set' := by
      rcases hflow.admitted set' q hq with hlinked | hreserved | hno
      · exact .inl hlinked
      · exact .inr hreserved
      · rw [hflow.reservedOnly] at honly
        exact absurd (honly.symm.trans hno) (by decide)
    rcases hold with hlinked | hreserved
    · by_cases hset : set' = set
      · subst hset
        exact hdone q (hperm.mem_iff.mpr (mem_connectedPeers.mpr hlinked)) hq
      · rw [hflow.reservedOnly] at honly
        dsimp only at honly
        rw [update_of_ne hset] at honly
        exact hs.exclusive set' q honly hlinked
    · exact hreserved
  · rename_i hoff
    have hoff := Bool.eq_false_iff.mpr hoff
    subst hoff
    have hsound : Sound { s with reservedOnly := update s.reservedOnly set false } := by
      refine ⟨hgood _ _, fun set' q honly hq => ?_⟩
      dsimp only at honly
      by_cases hset : set' = set
      · rw [hset, update_self] at honly
        cases honly
      · rw [update_of_ne hset] at honly
        exact hs.exclusive set' q honly hq
    refine (serves_allocSlots hsound).mono fun _ s' h' => Serves.trans ?_ h'
    exact .silent hsound rfl rfl

end Reserved

/-! ## Members, reports and connections -/

section Members

variable {E : Environment P} {who : Nat → Option (Fin n × P)} {s : State P n} {set : Fin n} {p : P}
  {index : Nat}

section

variable (hgood : Good s)
include hgood

theorem flow_addToPeersSet : Total (addToPeersSet E set p) s fun _ s' => Flow who s s' := by
  unfold addToPeersSet
  rw [total_bind, total_read]
  split
  · rename_i hpeer
    have hnone := direction_of_peer_eq hpeer (by decide)
    unfold instantNow
    simp only [total_bind, total_read, total_modify, total_pure]
    have hflow : Flow who s { s with
        data := s.data.discover set p (E.clock s.asked), asked := s.asked + 1 } :=
      .of_quiet hgood (quiet_discover hnone _) (List.append_nil _).symm (.nil _) rfl
        rfl
    exact (flow_allocSlots hflow.good).mono fun _ s' h' => hflow.trans h'
  · exact .refl hgood

theorem flow_onRemoveFromPeersSet :
    Total (onRemoveFromPeersSet E set p) s fun _ s' => Flow who s s' := by
  unfold onRemoveFromPeersSet
  rw [total_bind, total_read]
  split
  · exact .refl hgood
  rw [total_bind, total_read]
  split
  · rename_i hpeer
    -- the message is sent before the peer is disconnected
    rw [total_bind, pushBack, total_modify, total_bind]
    have hgood' : Good { s with messageQueue := s.messageQueue ++ [.drop set p] } :=
      ⟨hgood.counted, hgood.synced⟩
    refine total_disconnectPeer hgood' hpeer fun s1 hs hqueue hnodes honly => ?_
    have hflow : Flow who s s1 := .of_switched hgood hs hqueue (speaks_drop hpeer) hnodes honly
      fun hno => by cases hno
    exact hflow.trans (flow_data hflow.good (quiet_forgetPeer hs.direction_self))
  · rename_i hpeer
    have hnone := direction_of_peer_eq hpeer (by decide)
    exact flow_data hgood (quiet_forgetPeer hnone)
  · exact .refl hgood

theorem flow_disconnectBanned : Total (disconnectBanned E p set) s fun _ s' => Flow who s s' := by
  unfold disconnectBanned
  rw [total_bind, total_read]
  split
  · rename_i hpeer
    have hdrop : Total (disconnectPeer E set p >>= fun _ => pushBack (.drop set p)) s
        fun _ s' => Flow who s s' := (flow_drop who hgood hpeer).mono fun _ _ h => h.1
    rw [total_bind] at hdrop ⊢
    refine hdrop.mono fun _ s1 h1 => ?_
    rw [total_bind]
    exact h1.mono fun _ s2 h2 => (flow_allocSlots h2.good).mono fun _ s' h' => h2.trans h'
  · exact .refl hgood

theorem flow_onReportPeer {value : Int} :
    Total (onReportPeer E p value) s fun _ s' => Flow who s s' := by
  refine flow_bind (flow_updateTime hgood) fun _ s h => ?_
  rw [total_bind]
  refine flow_bind (flow_data h.good (quiet_adjustReputation _)) fun _ s1 h1 => ?_
  split
  · exact .refl h1.good
  · exact flow_forEach (fun _ _ => flow_disconnectBanned) h1.good

theorem flow_reject : Total (pushBack (.reject index)) s fun _ s' => Flow who s s' :=
  .of_quiet hgood (.refl _) rfl (.reject (.nil _)) rfl rfl

theorem flow_answer (hwho : who index = some (set, p)) (hp : s.data.nodes.contains p = true)
    (hnone : s.data.direction set p = none)
    (hadmits : p ∈ s.reservedNodes set ∨ s.reservedOnly set = false) :
    Total (answer set p index) s fun _ s' => Flow who s s' := by
  unfold answer
  rw [total_bind, total_read]
  split
  · exact flow_reject hgood
  rw [total_bind, total_read]
  unfold tryAcceptIncoming
  split
  · rename_i d hd
    split at hd
    · cases hd
    obtain rfl := Option.some.inj hd
    have hs : PeersState.Switched set p (some .ingoing) s.data
        (s.data.connect set p .ingoing) := switched_connect hp hnone
    have hflow : Flow who s { s with
        data := s.data.connect set p .ingoing
        messageQueue := s.messageQueue ++ [.accept index] } :=
      .of_switched hgood hs rfl (.accept hwho (links_eq_false hnone) (.nil _)) rfl rfl
        fun _ => hadmits
    exact hflow
  · exact flow_reject hgood

end

theorem contains_bump (hpeer : d.peer set p = .notConnected) (now : Nat) :
    (d.bumpLastConnectedOrDiscovered set p now).nodes.contains p = true := by
  have hp := contains_of_notConnected hpeer
  unfold bumpLastConnectedOrDiscovered
  split
  · refine contains_of_membership set ?_
    rw [membership_setMembership hp, if_pos rfl]
    exact fun hno => by cases hno
  · exact hp

theorem flow_incoming (hgood : Good s) (hwho : who index = some (set, p)) :
    Total (incoming E set p index) s fun _ s' => Flow who s s' := by
  refine flow_bind (flow_updateTime hgood) fun _ s h => ?_
  rw [total_bind, total_read]
  split
  · exact flow_reject h.good
  rename_i hadmits
  have hadmits : p ∈ s.reservedNodes set ∨ s.reservedOnly set = false := by
    rw [decide_eq_true_iff, not_and_or, not_not, Bool.not_eq_true] at hadmits
    exact hadmits.symm
  have hanswer : ∀ d : PeersState P n, s.data.Quiet d → d.nodes.contains p = true →
      s.data.direction set p = none →
      Total (answer set p index) { s with data := d, asked := s.asked + 1 }
        fun _ s' => Flow who s s' := by
    intro d hquiet hp hnone
    have hflow : Flow who s { s with data := d, asked := s.asked + 1 } :=
      .of_quiet h.good hquiet (List.append_nil _).symm (.nil _) rfl rfl
    exact (flow_answer hflow.good hwho hp ((hquiet.direction set p).trans hnone) hadmits).mono
      fun _ s' h' => hflow.trans h'
  rw [total_bind, total_read]
  unfold instantNow
  split
  · exact .refl h.good
  · rename_i hpeer
    refine hanswer _ (quiet_bump _) (contains_bump hpeer _) ?_
    exact direction_of_peer_eq hpeer (by decide)
  rename_i hpeer
  have hnone := direction_of_peer_eq hpeer (by decide)
  exact hanswer _ (quiet_discover hnone _) (contains_discover ..) hnone

theorem total_lost {Q : Unit → State P n → Prop} (hs : Sound s)
    (hpeer : s.data.peer set p = .connected) (f : Int → Int)
    (h : ∀ s', Sound s' → s'.messageQueue = s.messageQueue →
      links s' = update (links s) (set, p) false → Q () s') :
    Total (modifyData (fun d => d.setReputation p f) >>= fun _ => disconnectPeer E set p) s Q := by
  rw [modifyData]
  have hquiet : s.data.Quiet (s.data.setReputation p f) := quiet_setReputation f
  have hgood : Good { s with data := s.data.setReputation p f } := hs.good.quiet hquiet rfl
  have hlinks : links { s with data := s.data.setReputation p f } = links s :=
    links_eq_of_direction hquiet.direction
  refine total_disconnectPeer hgood ?_ fun s' hswitched hqueue hnodes honly => ?_
  · rwa [← links_eq_true, hlinks, links_eq_true]
  · have hlinks' := links_switched hswitched
    rw [hlinks] at hlinks'
    refine h s' ⟨hgood.switched hswitched hnodes, fun set' q honly' hq => ?_⟩ hqueue hlinks'
    rw [hlinks'] at hq
    rw [honly] at honly'
    rw [hnodes]
    refine hs.exclusive set' q honly' ?_
    by_cases hx : (set', q) = (set, p)
    · rw [hx, update_self] at hq
      cases hq
    · rwa [update_of_ne hx] at hq

theorem serves_dropped {reason} (hs : Sound s) : Total (dropped E set p reason) s
      fun _ s' => Serves who (update (links s) (set, p) false) s s' := by
  unfold dropped
  rw [total_bind]
  refine total_updateTime fun s1 hquiet hqueue hnodes honly => ?_
  have hflow : Flow who s s1 :=
    .of_quiet hs.good hquiet (hqueue.trans (List.append_nil _).symm) (.nil _) hnodes honly
  have hlinks : links s1 = links s := links_eq_of_direction hquiet.direction
  have hsound := (hflow.serves hs).sound
  -- what follows once the connection is gone
  have hrest : ∀ s2, Sound s2 → s2.messageQueue = s.messageQueue →
      links s2 = update (links s) (set, p) false →
      Total (if reason = .refused then
          onRemoveFromPeersSet E set p >>= fun _ => allocSlots E set else allocSlots E set) s2
        fun _ s' => Serves who (update (links s) (set, p) false) s s' := by
    intro s2 hs2 hqueue2 hlinks2
    have hserves : Total (if reason = .refused then
        onRemoveFromPeersSet E set p >>= fun _ => allocSlots E set else allocSlots E set) s2
        fun _ s' => Serves who (links s2) s2 s' := by
      split
      · exact serves_bind ((flow_onRemoveFromPeersSet hs2.good).mono fun _ _ h => h.serves hs2)
          fun _ _ => serves_allocSlots
      · exact serves_allocSlots hs2
    exact hserves.mono fun _ s' h' => (Serves.silent hs2 hqueue2 hlinks2).trans h'
  rw [total_bind, total_read]
  dsimp only
  split
  · rename_i hpeer
    have hlost := total_lost (E := E) (Q := fun _ s2 => Total _ s2 _) hsound hpeer
      (fun r => saturatingAdd r disconnectReputationChange)
      fun s2 hs2 hqueue2 hlinks2 => hrest s2 hs2 (hqueue2.trans hqueue) (hlinks ▸ hlinks2)
    rw [total_bind] at hlost ⊢
    exact hlost.mono fun _ s2 h2 => total_bind.mpr h2
  rename_i hpeer
  refine hrest s1 hsound hqueue (hlinks.trans ?_)
  rw [eq_comm, update_eq_self_iff, ← hlinks]
  exact (links_eq_false (direction_of_peer hpeer)).symm

end Members

/-! ## Start -/

section Start

variable {E : Environment P} {config : Fin n → SetConfig P} {T : Fin n → P → Prop}
  {s : State P n} {set : Fin n}

/-- No peer is connected yet, and the nodes in `T` don't occupy slots. -/
structure Starting (config : Fin n → SetConfig P) (T : Fin n → P → Prop) (s : State P n) :
    Prop where
  counted : s.data.Counted
  idle : ∀ set p, s.data.direction set p = none
  noSlot : ∀ set p, p ∈ (s.data.sets set).noSlotNodes ↔ T set p
  messageQueue : s.messageQueue = []
  reservedNodes : ∀ set, s.reservedNodes set = (config set).reservedNodes

theorem starting_blank (E : Environment P) (config : Fin n → SetConfig P) :
    Starting config (fun _ _ => False) (blank E config) where
  counted := by
    intro set dir
    cases dir <;> rfl
  idle _ _ := rfl
  noSlot _ p := iff_of_false (KeySet.not_mem_empty p) id
  messageQueue := rfl
  reservedNodes _ := rfl

section

variable (h : Starting config T s)
include h

theorem Starting.quiet {s'} (hquiet : s.data.Quiet s'.data)
    (hqueue : s'.messageQueue = s.messageQueue) (hnodes : s'.reservedNodes = s.reservedNodes) :
    Starting config T s' where
  counted := h.counted.quiet hquiet
  idle set p := (hquiet.direction set p).trans (h.idle set p)
  noSlot set p := by rw [hquiet.sets]; exact h.noSlot set p
  messageQueue := hqueue.trans h.messageQueue
  reservedNodes set := by rw [hnodes]; exact h.reservedNodes set

theorem starting_addNoSlotNode :
    Total (forEach (fun p => tryData fun d => d.addNoSlotNode set p) ps) s
      fun _ s' => Starting config (fun set' q => T set' q ∨ (set' = set ∧ q ∈ ps)) s' := by
  refine total_forEach (I := fun past s' =>
    Starting config (fun set' q => T set' q ∨ (set' = set ∧ q ∈ past)) s') ?_ ?_
  · refine { h with noSlot := fun set' q => ?_ }
    rw [h.noSlot, or_iff_left fun hc => List.not_mem_nil hc.2]
  · intro past p rest s1 _ h1
    obtain ⟨d, hd, hcounted, hdir, hnoSlot⟩ := h1.counted.addNoSlotNode set p
    unfold tryData
    simp only [total_bind, total_read, total_modify, total_unwrap]
    refine ⟨d, hd, hcounted, fun set' q => (hdir set' q).trans (h1.idle set' q), fun set' q => ?_,
      h1.messageQueue, h1.reservedNodes⟩
    rw [hnoSlot, h1.noSlot, or_assoc, ← and_or_left, List.mem_append, List.mem_singleton]

theorem starting_discoverBootnode :
    Total (forEach (discoverBootnode E set) ps) s fun _ s' => Starting config T s' := by
  refine total_forEach (I := fun _ s' => Starting config T s') h fun _ p _ s1 _ h1 => ?_
  unfold discoverBootnode
  rw [total_bind, total_read]
  split
  · exact h1.quiet (quiet_discover (h1.idle set p) _) rfl rfl
  · exact h1

theorem starting_addConfigured {sets} :
    Total (forEach (addConfigured E config) sets) s fun _ s' => Starting config
      (fun set p => T set p ∨ (set ∈ sets ∧ p ∈ (config set).reservedNodes)) s' := by
  refine total_forEach (I := fun past s' => Starting config
    (fun set p => T set p ∨ (set ∈ past ∧ p ∈ (config set).reservedNodes)) s') ?_ ?_
  · refine { h with noSlot := fun set' q => ?_ }
    rw [h.noSlot, or_iff_left fun hc => List.not_mem_nil hc.1]
  · intro past set rest s1 _ h1
    unfold addConfigured
    rw [total_bind]
    refine total_iterate fun order hperm => ?_
    have hasked : Starting config _ { s1 with asked := s1.asked + 1 } :=
      h1.quiet (.refl _) rfl rfl
    rw [total_bind]
    refine (starting_addNoSlotNode hasked).mono fun _ s2 h2 => ?_
    refine (starting_discoverBootnode h2).mono fun _ s' h' => { h' with noSlot := fun set' q => ?_ }
    rw [h'.noSlot, List.mem_append, List.mem_singleton, hperm.mem_iff, or_assoc, or_and_right]
    refine or_congr_right (or_congr_right (and_congr_right fun hset => ?_))
    rw [hset]
    rfl

end

/-- Its first messages speak from no connections. -/
theorem serves_fromConfig (E : Environment P) (config : Fin n → SetConfig P)
    (who : Nat → Option (Fin n × P)) :
    ∃ s, fromConfig E config = (.ok (), s) ∧ Sound s ∧
      Speaks who (fun _ => false) s.messageQueue (links s) := by
  have htotal : Total (forEach (addConfigured E config) (List.finRange n) >>= fun _ =>
      forEach (allocSlots E) (List.finRange n)) (blank E config)
      fun _ s => Sound s ∧ Speaks who (fun _ => false) s.messageQueue (links s) := by
    rw [total_bind]
    refine (starting_addConfigured (starting_blank E config)).mono fun _ s1 h1 => ?_
    have hlinks : ∀ x, links s1 x = false := fun x => links_eq_false (h1.idle x.1 x.2)
    have hsound : Sound s1 := by
      refine ⟨⟨h1.counted, fun set p => ?_⟩, fun set p _ hp => ?_⟩
      · rw [h1.noSlot, h1.reservedNodes, or_iff_right id, and_iff_right (List.mem_finRange set)]
      · rw [hlinks] at hp
        cases hp
    have halloc : Total (forEach (allocSlots E) (List.finRange n)) s1
        fun _ s' => Serves who (links s1) s1 s' :=
      serves_forEach (fun _ _ => serves_allocSlots) hsound
    refine halloc.mono fun _ s' h' => ⟨h'.sound, ?_⟩
    obtain ⟨ms, hms, hspeaks⟩ := h'.speaks
    rw [hms, h1.messageQueue]
    rwa [funext hlinks] at hspeaks
  obtain ⟨_, s, hrun, hs⟩ := htotal.exists
  exact ⟨s, hrun, hs⟩

end Start

/-! ## Runs -/

inductive Op (P : Type) (n : Nat) where
  | addReservedPeer (set : Fin n) (peer : P)
  | removeReservedPeer (set : Fin n) (peer : P)
  | setReservedPeers (set : Fin n) (peers : KeySet P)
  | setReservedOnly (set : Fin n) (reservedOnly : Bool)
  | addToPeersSet (set : Fin n) (peer : P)
  | removeFromPeersSet (set : Fin n) (peer : P)
  | reportPeer (peer : P) (value : Int)
  | incoming (set : Fin n) (peer : P) (index : Nat)
  | dropped (set : Fin n) (peer : P) (reason : DropReason)
  | allocSlots (set : Fin n)

def Op.run (E : Environment P) : Op P n → Call P n Unit
  | addReservedPeer set p => onAddReservedPeer E set p
  | removeReservedPeer set p => onRemoveReservedPeer E set p
  | setReservedPeers set peers => onSetReservedPeers E set peers
  | setReservedOnly set reservedOnly => onSetReservedOnly E set reservedOnly
  | addToPeersSet set p => Peerset.addToPeersSet E set p
  | removeFromPeersSet set p => onRemoveFromPeersSet E set p
  | reportPeer p value => onReportPeer E p value
  | incoming set p index => Peerset.incoming E set p index
  | dropped set p reason => Peerset.dropped E set p reason
  | allocSlots set => Peerset.allocSlots E set

def Op.who : Op P n → Nat → Option (Fin n × P)
  | incoming set p index, i => if i = index then some (set, p) else none
  | _, _ => none

/-- A dropped connection is gone before. -/
def Op.start (c : Fin n × P → Bool) : Op P n → Fin n × P → Bool
  | dropped set p _ => update c (set, p) false
  | _ => c

variable {E : Environment P}

/-- **Every operation** returns, keeps a sound state sound, and speaks the protocol. -/
theorem serves_op {s} (op : Op P n) (hs : Sound s) :
    Total (op.run E) s fun _ s' => Serves op.who (op.start (links s)) s s' := by
  cases op with
  | addReservedPeer set p => exact serves_onAddReservedPeer hs
  | removeReservedPeer set p => exact serves_onRemoveReservedPeer hs
  | setReservedPeers set peers => exact serves_onSetReservedPeers hs
  | setReservedOnly set reservedOnly => exact serves_onSetReservedOnly hs
  | addToPeersSet set p => exact (flow_addToPeersSet hs.good).mono fun _ _ h => h.serves hs
  | removeFromPeersSet set p =>
    exact (flow_onRemoveFromPeersSet hs.good).mono fun _ _ h => h.serves hs
  | reportPeer p value => exact (flow_onReportPeer hs.good).mono fun _ _ h => h.serves hs
  | incoming set p index =>
    exact (flow_incoming hs.good (if_pos rfl)).mono fun _ _ h => h.serves hs
  | dropped set p reason => exact serves_dropped hs
  | allocSlots set => exact serves_allocSlots hs

variable (E : Environment P) (config : Fin n → SetConfig P) in
/-- By operations and by the network taking messages. -/
inductive Reached : State P n → Prop where
  | start {s} (h : fromConfig E config = (.ok (), s)) : Reached s
  | call {s s'} (op : Op P n) (h : Reached s) (hcall : op.run E s = (.ok (), s')) : Reached s'
  | taken {s m ms} (h : Reached s)
      (hqueue : s.messageQueue = m :: ms) : Reached { s with messageQueue := ms }

theorem Reached.sound {config : Fin n → SetConfig P} {s} (h : Reached E config s) : Sound s := by
  induction h with
  | start hstart =>
    obtain ⟨s', hs', hsound, -⟩ := serves_fromConfig E config fun _ => none
    rw [hstart] at hs'
    rwa [(Prod.mk.inj hs').2]
  | call op _ hcall ih =>
    obtain ⟨_, s', hs', hserves⟩ := (serves_op op ih).exists
    rw [hcall] at hs'
    rw [(Prod.mk.inj hs').2]
    exact hserves.sound
  | taken _ _ ih => exact ⟨⟨ih.good.counted, ih.good.synced⟩, ih.exclusive⟩

theorem card_occupants {set : Fin n} {dir} :
    (d.occupants set dir).card = (d.nodes.keys.filter fun p =>
      d.membership set p = dir.membership ∧ p ∉ (d.sets set).noSlotNodes).length := by
  rw [← List.toFinset_card_of_nodup (d.nodes.nodup.filter _)]
  congr 1
  ext p
  rw [mem_occupants, List.mem_toFinset, List.mem_filter, decide_eq_true_iff, d.nodes.mem_keys]
  constructor
  · rintro ⟨hdir, hslot⟩
    have hm := MembershipState.eq_of_direction hdir
    refine ⟨contains_of_membership set ?_, hm, hslot⟩
    rw [hm]
    cases dir <;> exact fun hno => by cases hno
  · rintro ⟨-, hm, hslot⟩
    refine ⟨?_, hslot⟩
    rw [direction, hm, direction_membership]

/-- **Slot accounting and message protocol.** The peerset starts, and its first messages speak
from no connections. In every state it reaches the counters of every set are the numbers of
peers connected in and out that occupy a slot, and every connected peer of a set in reserved-only
mode is reserved. Every operation then returns, so no counter underflows, and its messages
connect only peers that are not connected, drop only peers that are, and lead to the
connections after it. -/
theorem peerset_accounts_and_speaks (E : Environment P) (config : Fin n → SetConfig P) :
    (∃ s, fromConfig E config = (.ok (), s) ∧
      Speaks (fun _ => none) (fun _ => false) s.messageQueue (links s)) ∧
    ∀ s, Reached E config s → (∀ set, (s.data.sets set).numIn = (s.data.nodes.keys.filter fun p =>
          s.data.membership set p = .ingoing ∧ p ∉ (s.data.sets set).noSlotNodes).length ∧
        (s.data.sets set).numOut = (s.data.nodes.keys.filter fun p =>
          s.data.membership set p = .outgoing ∧ p ∉ (s.data.sets set).noSlotNodes).length) ∧
      (∀ set, s.reservedOnly set = true → ∀ p, s.data.peer set p = .connected →
        p ∈ s.reservedNodes set) ∧
      ∀ op : Op P n, ∃ s' ms, op.run E s = (.ok (), s') ∧ s'.messageQueue = s.messageQueue ++ ms ∧
        Speaks op.who (op.start (links s)) ms (links s') := by
  constructor
  · obtain ⟨s, hs, -, hspeaks⟩ := serves_fromConfig E config fun _ => none
    exact ⟨s, hs, hspeaks⟩
  · intro s h
    have hsound := h.sound
    refine ⟨fun set => ?_, fun set honly p hp => ?_, fun op => ?_⟩
    · have hcounted := hsound.good.counted set
      exact ⟨(hcounted .ingoing).trans card_occupants, (hcounted .outgoing).trans card_occupants⟩
    · exact hsound.exclusive set p honly (links_eq_true.mpr hp)
    · obtain ⟨_, s', hrun, hserves⟩ := (serves_op op hsound).exists
      obtain ⟨ms, hms, hspeaks⟩ := hserves.speaks
      exact ⟨s', ms, hrun, hms, hspeaks⟩

/-! A set with one slot in each direction, with the reserved node 0 and the bootnodes 1 and 2. -/

def stillEnvironment : Environment Nat := ⟨fun _ => 0, fun _ => le_rfl, fun _ _ ps => ps,
  fun _ _ ps => .refl ps⟩

def oneSlot : Fin 1 → SetConfig Nat := fun _ => ⟨1, 1, [1, 2], .ofList [0], false⟩

/-- After its start, after an incoming connection, and in reserved-only mode. -/
def oneSlotStarted : State Nat 1 := (fromConfig stillEnvironment oneSlot).2

def oneSlotAccepted : State Nat 1 :=
  ((Op.incoming 0 1 7).run stillEnvironment oneSlotStarted).2

def oneSlotReserved : State Nat 1 :=
  ((Op.setReservedOnly 0 true).run stillEnvironment oneSlotAccepted).2

theorem one_slot_reserved_speaks : oneSlotReserved.messageQueue =
        [.connect 0 0, .connect 0 2, .accept 7, .drop 0 2, .drop 0 1] ∧
      Reached stillEnvironment oneSlot oneSlotReserved ∧
      (∀ set, oneSlotReserved.reservedOnly set = true → ∀ p,
        oneSlotReserved.data.peer set p = .connected → p ∈ oneSlotReserved.reservedNodes set) ∧
      ∃ s' ms, (Op.dropped 0 0 .unknown).run stillEnvironment oneSlotReserved = (.ok (), s') ∧
        s'.messageQueue = oneSlotReserved.messageQueue ++ ms ∧
        Speaks (Op.who (.dropped 0 0 .unknown))
          (Op.start (links oneSlotReserved) (.dropped 0 0 .unknown)) ms (links s') := by
  have hreached : Reached stillEnvironment oneSlot oneSlotReserved := by
    have hstarted : Reached stillEnvironment oneSlot oneSlotStarted := .start (Prod.ext rfl rfl)
    have haccepted : Reached stillEnvironment oneSlot oneSlotAccepted :=
      .call (.incoming 0 1 7) hstarted (Prod.ext rfl rfl)
    exact .call (.setReservedOnly 0 true) haccepted (Prod.ext rfl rfl)
  have h := (peerset_accounts_and_speaks stillEnvironment oneSlot).2 oneSlotReserved hreached
  exact ⟨by decide, hreached, h.2.1, h.2.2 (.dropped 0 0 .unknown)⟩

end Substrate.Peerset
