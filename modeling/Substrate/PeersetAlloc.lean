import Substrate.PeersetRuns

/-!
# Who is connected after slots are allocated

`alloc_slots` first goes through the reserved nodes and stops at the first one that is banned and
not connected. Then it gives free slots to the other members, the highest reputation first, and
stops at a banned one: those left have no better reputation. A node that the first loop leaves out
is connected by the second one at most, if it is a member and a slot is free.
-/

namespace Substrate.Peerset

open Exec PeersState Function List Option

variable {P : Type} {n : Nat} {d d' d1 : PeersState P n} {set : Fin n} {p q : P} [DecidableEq P]

/-! ## Reputations -/

theorem reputation_of_insert {nodes : FinMap P (Node n)} {sets : Fin n → SetInfo P} {node : Node n}
    (hnodes : nodes = d.nodes.insert p node) (hnode : node.reputation = d.reputation p) (q : P) :
    PeersState.reputation ⟨nodes, sets⟩ q = d.reputation q := by
  subst hnodes
  unfold reputation
  rw [FinMap.get?_insert]
  by_cases hq : q = p
  · subst hq
    rw [update_self]
    exact hnode
  · rw [update_of_ne hq]

theorem reputation_discover (now : Nat) (q : P) :
    (d.discover set p now).reputation q = d.reputation q := by
  refine reputation_of_insert rfl ?_ q
  unfold reputation
  cases d.nodes.get? p <;> rfl

theorem reputation_connect (hp : d.nodes.contains p = true) (q : P) :
    (d.connect set p .outgoing).reputation q = d.reputation q := by
  obtain ⟨node, hnode⟩ := isSome_iff_exists.mp hp
  have hset : (d.setMembership set p .outgoing).reputation q = d.reputation q := by
    unfold setMembership
    rw [hnode]
    refine reputation_of_insert rfl ?_ q
    rw [reputation, hnode]
  unfold connect
  split
  · exact hset
  · exact hset

/-! ## The other peers -/

theorem peer_discover_of_ne (hq : q ≠ p) (now : Nat) :
    (if d.peer set p = .unknown then d.discover set p now else d).peer set q = d.peer set q := by
  split
  · unfold peer membership discover
    rw [FinMap.get?_insert, update_of_ne hq]
  · rfl

theorem peer_connect_of_ne (hp : d.nodes.contains p = true) (hq : q ≠ p) :
    (d.connect set p .outgoing).peer set q = d.peer set q := by
  have hset : (d.setMembership set p .outgoing).peer set q = d.peer set q := by
    unfold peer
    rw [membership_setMembership hp, if_neg fun heq => hq (congrArg Prod.snd heq)]
  unfold connect
  split
  · exact hset
  · exact hset

theorem sets_connect (hp : p ∈ (d.sets set).noSlotNodes) :
    (d.connect set p .outgoing).sets = d.sets := by
  unfold connect
  rw [if_pos (.inl (decide_eq_true hp)), sets_setMembership]

/-! ## What allocating slots keeps -/

/-- Members may have become connected, but none that is banned. -/
structure Fills (set : Fin n) (d d' : PeersState P n) : Prop where
  reputation : ∀ q, d'.reputation q = d.reputation q
  connected : ∀ q, d.peer set q = .connected → d'.peer set q = .connected
  banned : ∀ q, d.reputation q < bannedThreshold → d'.peer set q = .connected →
    d.peer set q = .connected

section

omit [DecidableEq P]

theorem Fills.refl (set : Fin n) (d : PeersState P n) : Fills set d d :=
  ⟨fun _ => rfl, fun _ h => h, fun _ _ h => h⟩

theorem Fills.trans (h : Fills set d d1) (h' : Fills set d1 d') : Fills set d d' where
  reputation q := (h'.reputation q).trans (h.reputation q)
  connected q hq := h'.connected q (h.connected q hq)
  banned q hq hq' := h.banned q hq (h'.banned q (by rwa [h.reputation]) hq')

end

theorem Fills.discover (hpeer : d.peer set p ≠ .connected) (now : Nat) :
    Fills set d (if d.peer set p = .unknown then d.discover set p now else d) := by
  split
  · have hquiet := quiet_discover (direction_of_peer hpeer) now
    have hsame : ∀ q, (d.discover set p now).peer set q = .connected ↔
        d.peer set q = .connected := by
      intro q
      rw [peer_eq_connected, peer_eq_connected, hquiet.direction]
    exact ⟨reputation_discover now, fun q => (hsame q).mpr, fun q _ => (hsame q).mp⟩
  · exact .refl set d

theorem Fills.connect (hp : d.nodes.contains p = true) (hnone : d.direction set p = none)
    (hrep : ¬d.reputation p < bannedThreshold) :
    Fills set d (d.connect set p .outgoing) ∧ (d.connect set p .outgoing).peer set p = .connected := by
  have hs : Switched set p (some .outgoing) d (d.connect set p .outgoing) :=
    switched_connect hp hnone
  have hself : (d.connect set p .outgoing).peer set p = .connected := by
    rw [peer_eq_connected, hs.direction_self]
    exact some_ne_none _
  have hother : ∀ q, q ≠ p → (d.connect set p .outgoing).peer set q = d.peer set q :=
    fun q => peer_connect_of_ne hp
  refine ⟨⟨reputation_connect hp, fun q hq => ?_, fun q hq hq' => ?_⟩, hself⟩
  · by_cases hqp : q = p
    · rwa [hqp]
    · rwa [hother q hqp]
  · by_cases hqp : q = p
    · exact absurd (hqp ▸ hq) hrep
    · rwa [← hother q hqp]

/-! ## The loops -/

variable {E : Environment P} {s s' : State P n} {R : Empty → State P n → Prop}

/-- A node that occupies no slot is connected to, whatever the slots. -/
theorem post_connectOutgoing (hslot : s.data.hasFreeOutgoingSlot set = true ∨
      p ∈ (s.data.sets set).noSlotNodes) {Q : Unit → State P n → Prop}
    (h : ∀ s', s'.data = s.data.connect set p .outgoing → s'.reservedOnly = s.reservedOnly →
      Q () s') :
    Post (connectOutgoing set p) s Q R := by
  have htry : s.data.tryOutgoing set p = some (s.data.connect set p .outgoing) := by
    refine if_neg fun hfull => ?_
    rcases hslot with hfree | hno
    · exact Bool.eq_false_iff.mp hfull.1 hfree
    · exact of_decide_eq_false hfull.2 hno
  unfold connectOutgoing pushBack
  simp only [post_bind, post_read, htry, post_modify]
  exact h _ rfl rfl

def Served (set : Fin n) (ps : List P) (d : PeersState P n) : Prop :=
  ∀ p ∈ ps, bannedThreshold ≤ d.reputation p → d.peer set p = .connected

/-- In this order, no unconnected banned node precedes an unconnected one that is not banned. -/
def Unblocked (set : Fin n) (ps : List P) (d : PeersState P n) : Prop :=
  ps.Pairwise fun q p => d.peer set q = .connected ∨ bannedThreshold ≤ d.reputation q ∨
    d.peer set p = .connected ∨ d.reputation p < bannedThreshold

/-- A node that is not banned is connected or as it was. -/
structure Scanned (set : Fin n) (ps : List P) (d d' : PeersState P n) : Prop where
  fills : Fills set d d'
  sets : d'.sets = d.sets
  kept : ∀ q, bannedThreshold ≤ d.reputation q →
    d'.peer set q = .connected ∨ d'.peer set q = d.peer set q
  served : Served set ps d' ↔ Unblocked set ps d

section

omit [DecidableEq P]

theorem served_cons (h : d.peer set p = .connected) {ps : List P} :
    Served set (p :: ps) d ↔ Served set ps d := by
  unfold Served
  rw [forall_mem_cons]
  exact and_iff_right fun _ => h

theorem unblocked_cons (h : d.peer set p = .connected ∨ bannedThreshold ≤ d.reputation p)
    {ps : List P} : Unblocked set (p :: ps) d ↔ Unblocked set ps d := by
  unfold Unblocked
  rw [pairwise_cons]
  exact and_iff_right fun _ _ => h.elim .inl fun hrep => .inr (.inl hrep)

theorem unblocked_cons_banned (hpeer : d.peer set p ≠ .connected)
    (hrep : d.reputation p < bannedThreshold) {ps : List P} :
    Unblocked set (p :: ps) d ↔ Served set (p :: ps) d := by
  unfold Unblocked Served
  rw [pairwise_cons, forall_mem_cons]
  constructor
  · rintro ⟨hhead, -⟩
    refine ⟨fun hle => absurd hrep (not_lt.mpr hle), fun q hq hle => ?_⟩
    rcases hhead q hq with hp | hp | hq' | hq'
    · exact absurd hp hpeer
    · exact absurd hrep (not_lt.mpr hp)
    · exact hq'
    · exact absurd hq' (not_lt.mpr hle)
  · rintro ⟨-, hrest⟩
    have hdone : ∀ q ∈ ps, d.peer set q = .connected ∨ d.reputation q < bannedThreshold := by
      intro q hq
      rcases le_or_gt bannedThreshold (d.reputation q) with hle | hlt
      · exact .inl (hrest q hq hle)
      · exact .inr hlt
    exact ⟨fun q hq => .inr (.inr (hdone q hq)),
      pairwise_of_forall_mem_list fun _ _ q hq => .inr (.inr (hdone q hq))⟩

theorem Unblocked.congr {ps : List P} (hrep : ∀ q, d'.reputation q = d.reputation q)
    (hpeer : ∀ q ∈ ps, (d'.peer set q = .connected ↔ d.peer set q = .connected)) :
    Unblocked set ps d' ↔ Unblocked set ps d := by
  refine Pairwise.iff_of_mem fun hq hp => ?_
  rw [hrep, hrep, hpeer _ hq, hpeer _ hp]

end

/-- It connects all that are not banned, unless a banned one stops it before. -/
theorem post_connectReserved {ps : List P} (hps : ∀ p ∈ ps, p ∈ (s.data.sets set).noSlotNodes)
    (hnodup : ps.Nodup) :
    Post (connectReserved E set ps) s
      (fun _ s' => Scanned set ps s.data s'.data ∧ s'.reservedOnly = s.reservedOnly) R := by
  induction ps generalizing s with
  | nil =>
    exact ⟨⟨.refl set _, rfl, fun _ _ => .inr rfl,
      iff_of_true (fun p hp => absurd hp not_mem_nil) .nil⟩, rfl⟩
  | cons p rest ih =>
    rw [forall_mem_cons] at hps
    obtain ⟨hnew, hnodup⟩ := nodup_cons.mp hnodup
    rw [connectReserved, post_bind, post_read]
    split
    · rename_i hpeer
      refine (ih hps.2 hnodup).imp fun _ s' h => ⟨⟨h.1.fills, h.1.sets, h.1.kept, ?_⟩, h.2⟩
      rw [served_cons (h.1.fills.connected p hpeer), unblocked_cons (.inl hpeer)]
      exact h.1.served
    rename_i hpeer
    obtain ⟨hquiet, hknown⟩ := quiet_discover_unknown hpeer (E.clock s.asked)
    have hdisc := Fills.discover hpeer (E.clock s.asked)
    have hother : ∀ q, q ≠ p → (if s.data.peer set p = .unknown then
          s.data.discover set p (E.clock s.asked) else s.data).peer set q = s.data.peer set q :=
      fun q hq => peer_discover_of_ne hq (E.clock s.asked)
    unfold instantNow modifyData
    simp only [post_bind, post_read, post_modify, post_pure]
    generalize (if s.data.peer set p = .unknown then s.data.discover set p (E.clock s.asked)
      else s.data) = d at hquiet hknown hdisc hother ⊢
    have hnone := (hquiet.direction set p).trans (direction_of_peer hpeer)
    split
    · -- `p` stops the loop, and nothing has been connected
      rename_i hrep
      have hsame : ∀ q, d.peer set q = .connected ↔ s.data.peer set q = .connected := by
        intro q
        rw [peer_eq_connected, peer_eq_connected, hquiet.direction]
      have hrep' : s.data.reputation p < bannedThreshold := by rwa [← hdisc.reputation]
      refine ⟨⟨hdisc, hquiet.sets, fun q hq => .inr (hother q fun heq => ?_), ?_⟩, rfl⟩
      · exact absurd hrep' (not_lt.mpr (heq ▸ hq))
      · rw [unblocked_cons_banned hpeer hrep']
        unfold Served
        simp only [hsame, hdisc.reputation]
    rename_i hrep
    have hconnect := Fills.connect hknown hnone hrep
    have hnoSlot : p ∈ (d.sets set).noSlotNodes := hquiet.sets ▸ hps.1
    have hsets := (sets_connect hnoSlot).trans hquiet.sets
    rw [post_bind]
    refine post_connectOutgoing (.inr hnoSlot) fun s1 hs1 honly => ?_
    rw [← hs1] at hconnect hsets
    have hfills := hdisc.trans hconnect.1
    have hkept : ∀ q, q ≠ p → s1.data.peer set q = s.data.peer set q := by
      intro q hq
      rw [hs1, peer_connect_of_ne hknown hq, hother q hq]
    refine (ih (fun q hq => hsets ▸ hps.2 q hq) hnodup).imp fun _ s' hrest => ?_
    obtain ⟨h, honly'⟩ := hrest
    refine ⟨⟨hfills.trans h.fills, h.sets.trans hsets, fun q hq => ?_, ?_⟩, honly'.trans honly⟩
    · rcases h.kept q (by rwa [hfills.reputation]) with hin | hin
      · exact .inl hin
      · by_cases hqp : q = p
        · exact .inl (hqp ▸ h.fills.connected p hconnect.2)
        · exact .inr (hin.trans (hkept q hqp))
    · have hle : bannedThreshold ≤ s.data.reputation p := by
        rw [← hdisc.reputation]
        exact not_lt.mp hrep
      rw [served_cons (h.fills.connected p hconnect.2), unblocked_cons (.inr hle), h.served]
      refine Unblocked.congr hfills.reputation fun q hq => ?_
      rw [hkept q fun heq => hnew (heq ▸ hq)]

omit [DecidableEq P] in
theorem le_highestNotConnectedPeer {order : List P → List P} (horder : ∀ ps, (order ps).Perm ps)
    (hq : d.peer set q = .notConnected) :
    ∃ p, d.highestNotConnectedPeer set order = some p ∧ d.reputation q ≤ d.reputation p := by
  have hmem : q ∈ (order d.nodes.keys).filter fun p => d.peer set p = .notConnected := by
    rw [mem_filter, (horder _).mem_iff, d.nodes.mem_keys]
    exact ⟨contains_of_notConnected hq, decide_eq_true hq⟩
  rw [highestNotConnectedPeer_eq]
  cases hbest : argmax d.reputation _ with
  | none => exact absurd hmem (by rw [argmax_eq_none.mp hbest]; exact not_mem_nil)
  | some p => exact ⟨p, rfl, le_of_mem_argmax hmem hbest⟩

/-- No slot is free, or every member that is not banned is connected. -/
def Filled (set : Fin n) (d : PeersState P n) : Prop :=
  d.hasFreeOutgoingSlot set = false ∨ ∀ q, d.peer set q ≠ .unknown →
    bannedThreshold ≤ d.reputation q → d.peer set q = .connected

omit [DecidableEq P] in
theorem filled_of_waiting (h : ∀ q, d.peer set q = .notConnected → d.reputation q < bannedThreshold) :
    Filled set d := by
  refine .inr fun q hknown hrep => ?_
  cases hpeer : d.peer set q with
  | connected => rfl
  | unknown => exact absurd hpeer hknown
  | notConnected => exact absurd hrep (not_le.mpr (h q hpeer))

/-- It connects members only, and nobody if no slot is free. -/
theorem post_fillSlots (fuel : Nat) : Post (fillSlots E set fuel) s
    (fun _ s' => Fills set s.data s'.data ∧ Filled set s'.data ∧
      ∀ q, s.data.hasFreeOutgoingSlot set = false ∨ s.data.peer set q ≠ .notConnected →
        s'.data.peer set q = s.data.peer set q) R := by
  induction fuel generalizing s with
  | zero =>
    rw [fillSlots, post_unwrap]
    exact fun _ h => absurd h.symm (some_ne_none _)
  | succ fuel ih =>
    rw [fillSlots, post_bind, post_read]
    split
    swap
    · rename_i hfull
      exact ⟨.refl set _, .inl (Bool.eq_false_iff.mpr hfull), fun _ _ => rfl⟩
    rename_i hfree
    simp only [post_bind, post_read, post_modify]
    have hbest : ∀ q, s.data.peer set q = .notConnected → ∃ p,
        s.data.highestNotConnectedPeer set (E.order s.asked 0) = some p ∧
          s.data.reputation q ≤ s.data.reputation p :=
      fun q => le_highestNotConnectedPeer (E.order_perm _ _)
    split
    · rename_i hnext
      refine ⟨.refl set _, filled_of_waiting fun q hq => ?_, fun _ _ => rfl⟩
      obtain ⟨p, hp, _⟩ := hbest q hq
      exact absurd (hnext.symm.trans hp) (some_ne_none p).symm
    rename_i p hnext
    rw [post_bind, post_read]
    split
    · rename_i hbanned
      refine ⟨.refl set _, filled_of_waiting fun q hq => ?_, fun _ _ => rfl⟩
      obtain ⟨p', hp, hle⟩ := hbest q hq
      obtain rfl := some.inj (hnext.symm.trans hp)
      exact hle.trans_lt hbanned
    rename_i hrep
    have hwaits := highestNotConnectedPeer_waiting hnext
    have hnone := direction_of_peer_eq hwaits (by decide)
    have hconnect := Fills.connect (contains_of_notConnected hwaits) hnone hrep
    rw [post_bind]
    refine post_connectOutgoing (s := { s with asked := s.asked + 1 }) (.inl hfree) fun s1 hs1 _ => ?_
    rw [← hs1] at hconnect
    refine ih.imp fun _ s' h => ⟨hconnect.1.trans h.1, h.2.1, fun q hq => ?_⟩
    have hmember : s.data.peer set q ≠ .notConnected :=
      hq.resolve_left fun hfull => Bool.eq_false_iff.mp hfull hfree
    have hkept : s1.data.peer set q = s.data.peer set q := by
      rw [hs1]
      exact peer_connect_of_ne (contains_of_notConnected hwaits) fun heq => hmember (heq ▸ hwaits)
    rw [h.2.2 q (.inr (hkept ▸ hmember)), hkept]

/-! ## Allocating slots -/

section

variable (E : Environment P) (set : Fin n) (s : State P n)

/-- With the time that has passed: reputations have moved towards zero. -/
def timed : State P n := (updateTime E s).2

/-- In the order in which the first loop meets them. -/
def reservedOrder : List P := E.order (timed E s).asked 0 (s.reservedNodes set).keys

/-- The second loop runs, and can choose a reserved node that is not banned. -/
def SecondChance : Prop :=
  s.reservedOnly set = false ∧ s.data.hasFreeOutgoingSlot set = true ∧
    ∃ p ∈ s.reservedNodes set, (timed E s).data.peer set p = .notConnected ∧
      bannedThreshold ≤ (timed E s).data.reputation p

end

omit [DecidableEq P] in
theorem Served.fills {ps : List P} (h : Served set ps d) (hfills : Fills set d d') :
    Served set ps d' :=
  fun p hp hrep => hfills.connected p (h p hp (by rwa [← hfills.reputation]))

theorem mem_reservedOrder : p ∈ reservedOrder E set s ↔ p ∈ s.reservedNodes set :=
  (E.order_perm _ _ _).mem_iff

theorem timed_sets : (timed E s).data.sets = s.data.sets :=
  (quiet_passSeconds _ _ _ _).sets

theorem served_of_kept {d2 : PeersState P n} (hno : ¬SecondChance E set s)
    (honly : s.reservedOnly set = false)
    (hscan : Scanned set (reservedOrder E set s) (timed E s).data d2) (hfills : Fills set d2 d')
    (hkept : ∀ q, d2.hasFreeOutgoingSlot set = false ∨ d2.peer set q ≠ .notConnected →
      d'.peer set q = d2.peer set q)
    (hserved : Served set (reservedOrder E set s) d') : Served set (reservedOrder E set s) d2 := by
  intro p hp hrep
  rw [← hfills.reputation] at hrep
  by_contra hpeer
  have hfinal := hserved p hp hrep
  have hrep' : bannedThreshold ≤ (timed E s).data.reputation p := by
    rwa [← hscan.fills.reputation, ← hfills.reputation]
  have hchosen : d2.hasFreeOutgoingSlot set = true ∧ d2.peer set p = .notConnected := by
    by_contra hnot
    refine hpeer ((hkept p ?_).symm.trans hfinal)
    rcases Bool.eq_false_or_eq_true (d2.hasFreeOutgoingSlot set) with hfree | hfull
    · exact .inr fun heq => hnot ⟨hfree, heq⟩
    · exact .inl hfull
  refine hno ⟨honly, ?_, p, mem_reservedOrder.mp hp, ?_, hrep'⟩
  · rw [← hchosen.1]
    unfold hasFreeOutgoingSlot
    rw [hscan.sets, timed_sets]
  · exact ((hscan.kept p hrep').resolve_left hpeer).symm.trans hchosen.2

theorem post_allocSlots (hgood : Good s) : Post (allocSlots E set) s
    (fun _ s' =>
      (Unblocked set (reservedOrder E set s) (timed E s).data →
        Served set (reservedOrder E set s) s'.data) ∧
      (¬SecondChance E set s → Served set (reservedOrder E set s) s'.data →
        Unblocked set (reservedOrder E set s) (timed E s).data) ∧
      (s'.reservedOnly set = false → Filled set s'.data)) R := by
  have hnoSlot : ∀ p ∈ reservedOrder E set s, p ∈ ((timed E s).data.sets set).noSlotNodes := by
    intro p hp
    rw [timed_sets, hgood.synced]
    exact mem_reservedOrder.mp hp
  have hnodup : (reservedOrder E set s).Nodup :=
    (E.order_perm _ _ _).nodup_iff.mpr (s.reservedNodes set).nodup
  unfold allocSlots updateTime instantNow iterate
  simp only [post_bind, post_read, post_modify, post_pure]
  refine (post_connectReserved (s := { timed E s with asked := (timed E s).asked + 1 }) hnoSlot
    hnodup).imp fun _ s2 h2 => ?_
  obtain ⟨hscan, honly⟩ := h2
  split
  · rename_i hreserved
    exact ⟨hscan.served.mpr, fun _ => hscan.served.mp,
      fun hno => absurd hreserved (Bool.eq_false_iff.mp hno)⟩
  rename_i hreserved
  have hfalse : s.reservedOnly set = false :=
    (congrFun honly set).symm.trans (Bool.eq_false_iff.mpr hreserved)
  rw [post_bind]
  refine (post_fillSlots _).imp fun _ s' h => ⟨fun hun => ?_, fun hno hserved => ?_, fun _ => h.2.1⟩
  · exact (hscan.served.mpr hun).fills h.1
  · exact hscan.served.mp (served_of_kept hno hfalse hscan h.1 h.2.2 hserved)

/-- **Slot allocation is complete exactly if no banned reserved node is in the way.** It returns.
If, in the order of iteration, no unconnected banned reserved node precedes an unconnected one that
is not banned, all that are not banned are connected. Unless the second loop can choose one of
those left out, they are only then. Unless the set is reserved-only, no outgoing slot is free or
every member that is not banned is connected. -/
theorem alloc_slots_complete {config : Fin n → SetConfig P} (h : Reached E config s) (set : Fin n) :
    ∃ s', allocSlots E set s = (.ok (), s') ∧
      (Unblocked set (reservedOrder E set s) (timed E s).data →
        ∀ p ∈ s'.reservedNodes set, bannedThreshold ≤ s'.data.reputation p →
          s'.data.peer set p = .connected) ∧
      (¬SecondChance E set s →
        ((∀ p ∈ s'.reservedNodes set, bannedThreshold ≤ s'.data.reputation p →
          s'.data.peer set p = .connected) ↔
        Unblocked set (reservedOrder E set s) (timed E s).data)) ∧
      (s'.reservedOnly set = false → s'.data.hasFreeOutgoingSlot set = false ∨
        ∀ p, s'.data.peer set p ≠ .unknown → bannedThreshold ≤ s'.data.reputation p →
          s'.data.peer set p = .connected) := by
  have hgood := h.sound.good
  have htotal : Exec.Total (allocSlots E set) s fun _ s' => Flow (fun _ => none) s s' :=
    flow_allocSlots hgood
  obtain ⟨_, s', hrun, hflow⟩ := htotal.exists
  obtain ⟨hmpr, hmp, hfilled⟩ := (post_allocSlots (R := fun _ _ => True) hgood).ok hrun
  have hserved : Served set (reservedOrder E set s) s'.data ↔
      ∀ p ∈ s'.reservedNodes set, bannedThreshold ≤ s'.data.reputation p →
        s'.data.peer set p = .connected := by
    unfold Served
    simp only [mem_reservedOrder, hflow.reservedNodes]
  refine ⟨s', hrun, ?_⟩
  rw [← hserved]
  exact ⟨hmpr, fun hno => ⟨hmp hno, hmpr⟩, hfilled⟩

/-! Two reserved nodes, and one slot for two other members. Node 1 is banned, and then the
connection to node 0 is lost. -/

def twoReserved : Fin 1 → SetConfig Nat := fun _ => ⟨0, 1, [2, 3], .ofList [1, 0], false⟩

def twoStarted : State Nat 1 := (fromConfig stillEnvironment twoReserved).2

def oneBanned : State Nat 1 := ((Op.reportPeer 1 i32Min).run stillEnvironment twoStarted).2

def otherLost : State Nat 1 :=
  ((Op.dropped (Fin.last 0) 0 .unknown).run stillEnvironment oneBanned).2

theorem otherLost_reached : Reached stillEnvironment twoReserved otherLost :=
  .call (.dropped 0 0 .unknown) (s := oneBanned) (.call (.reportPeer 1 i32Min) (s := twoStarted)
    (.start (Prod.ext rfl rfl)) (Prod.ext rfl rfl)) (Prod.ext rfl rfl)

/-- The nodes come in the opposite order once the connection is lost. -/
def turning : Environment Nat :=
  { stillEnvironment with
    order := fun asked _ ps => if asked < otherLost.asked then ps else ps.reverse
    order_perm := fun asked _ ps => by
      split
      · exact .refl ps
      · exact ps.reverse_perm }

/-- If node 0 comes first, it is connected again. If the banned node does, it is not. -/
theorem alloc_slots_complete_otherLost :
    (∃ s', allocSlots turning 0 otherLost = (.ok (), s') ∧
      otherLost.data.peer 0 0 = .notConnected ∧ s'.data.peer 0 0 = .connected ∧
      (s'.data.hasFreeOutgoingSlot 0 = false ∨
        ∀ p, s'.data.peer 0 p ≠ .unknown → bannedThreshold ≤ s'.data.reputation p →
          s'.data.peer 0 p = .connected)) ∧
    ∃ s', allocSlots stillEnvironment 0 otherLost = (.ok (), s') ∧
      ¬∀ p ∈ s'.reservedNodes 0, bannedThreshold ≤ s'.data.reputation p →
        s'.data.peer 0 p = .connected := by
  have hturning : Reached turning twoReserved otherLost :=
    .call (.dropped 0 0 .unknown) (s := oneBanned) (.call (.reportPeer 1 i32Min) (s := twoStarted)
      (.start (Prod.ext rfl rfl)) (Prod.ext rfl rfl)) (Prod.ext rfl rfl)
  constructor
  · obtain ⟨s', hrun, hserved, -, hfilled⟩ := alloc_slots_complete hturning 0
    obtain rfl : (allocSlots turning 0 otherLost).2 = s' := congrArg Prod.snd hrun
    refine ⟨_, hrun, by decide, hserved ?_ 0 (by decide +kernel) (by decide +kernel),
      hfilled (by decide +kernel)⟩
    unfold Unblocked
    decide
  · obtain ⟨s', hrun, -, hiff, -⟩ := alloc_slots_complete otherLost_reached 0
    have hfull : ¬SecondChance stillEnvironment 0 otherLost :=
      fun h => absurd h.2.1 (by decide)
    refine ⟨s', hrun, fun hserved => ?_⟩
    have hblocked := (hiff hfull).mp hserved
    unfold Unblocked at hblocked
    revert hblocked
    decide

/-- The banned node comes first, and the other one stays disconnected. -/
theorem reserved_left_disconnected : Reached stillEnvironment twoReserved otherLost ∧
    (allocSlots stillEnvironment 0 otherLost).1 = .ok () ∧
    0 ∈ (allocSlots stillEnvironment 0 otherLost).2.reservedNodes 0 ∧
    bannedThreshold ≤ (allocSlots stillEnvironment 0 otherLost).2.data.reputation 0 ∧
    (allocSlots stillEnvironment 0 otherLost).2.data.peer 0 0 = .notConnected :=
  ⟨otherLost_reached, by decide, by decide, by decide, by decide⟩

end Substrate.Peerset
