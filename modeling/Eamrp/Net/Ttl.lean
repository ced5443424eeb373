import Eamrp.Agent.Output
import Eamrp.Net.Answers

/-!
# Time to live

A packet loses one hop of its TTL wherever it is relayed and is dropped when none is left, so
the number of its receptions is bounded, whatever the routing tables contain.
-/

namespace Eamrp

open Lib

namespace Net

variable {P : Params} {s : Net} {t : List (Move Net Event)} {m : Move Net Event}

/-! ### What a move sends -/

/-- What a move of a run sends and puts into the send buffer. -/
theorem Run.sends (h : Run P t s) (hm : m ∈ t) :
    (∀ p ∈ sentBy m, (m.src.node m.label.node).Sends m.label.input p) ∧
      (m.src.node m.label.node).index = m.label.node ∧
      ∀ p ∈ (m.tgt.node m.label.node).rqueue, p ∈ (m.src.node m.label.node).rqueue ∨
        (m.src.node m.label.node).Buffers m.label.input p := by
  obtain ⟨hreach, hstep⟩ := Run.of_mem h hm
  have hagent := Reachable.agent hreach m.label.node
  obtain ⟨w, hw, htgt⟩ := next_ok hstep.2
  obtain ⟨nb, fq, -, hem⟩ := handle_sends hw hagent.ranged.1 hagent.pathLists
  refine ⟨fun p hp => ?_, index_of_reachable hreach _, fun p hp => ?_⟩
  · rw [sentBy, htgt, List.drop_left] at hp
    exact (hem.sent p hp).resolve_left List.not_mem_nil
  · have hnode : m.tgt.node m.label.node = w.toAgent := by
      rw [htgt]
      exact Function.update_self ..
    exact hem.rqueue p (hnode ▸ hp)

/-- Packets in the send buffer have the TTL of a new packet. -/
theorem Reachable.buffered (h : s.Reachable P) (i : NsAddr) :
    ∀ p ∈ (s.node i).rqueue, p.val.ih.ttl = networkDiameter := by
  refine Lib.Reachable.induct
    (I := fun s => ∀ p ∈ (s.node i).rqueue, p.val.ih.ttl = networkDiameter) ?_ ?_ h
  · intro s h
    rw [h.node i]
    exact fun p hp => absurd hp List.not_mem_nil
  · intro s ev s' hs ih hstep p hp
    by_cases hi : i = ev.node
    · subst hi
      obtain ⟨t, hrun⟩ := hs
      have hrun' : Run P (t ++ [⟨s, ev, s'⟩]) s' := hrun.move hstep
      rcases (hrun'.sends (List.mem_append_right _ (List.mem_singleton_self _))).2.2 p hp with
        hp | hp
      · exact ih p hp
      · exact hp.2.1
    · obtain ⟨w, -, rfl⟩ := next_ok hstep.2
      have hsame : Function.update s.node ev.node w.toAgent i = s.node i :=
        Function.update_of_ne hi _ _
      exact ih p (hsame ▸ hp)

/-! ### Chains of receptions -/

/-- Node `i` has handed `p` to `target_` or holds it in its send buffer, and since an agent has
set its TTL, the packet has been received `n` times. The interface queue holds packets as they
were handed to `target_`. -/
inductive Carried (t : List (Move Net Event)) : NsAddr → Packet → Nat → Prop where
  /-- A new RREQ, RREP, RERR or HELLO is sent. -/
  | issue {m : Move Net Event} {p : Packet} (hm : m ∈ t) (hp : p ∈ sentBy m)
      (he : p.isEamrp = true) (hk : ∀ q, m.label.input = .recv q → ¬ p.SameKind q) :
      Carried t m.label.node p 0
  /-- A unicast packet of the node's own is sent. -/
  | originate {m : Move Net Event} {q p : Packet} (hm : m ∈ t) (hq : m.label.input = .recv q)
      (hl : q.HandedDown m.label.node) (hd : q.ih.daddr ≠ ipBroadcast) (hp : p ∈ sentBy m)
      (he : p.isEamrp = false) : Carried t m.label.node p 0
  /-- A unicast packet of the node's own is buffered. -/
  | buffer {m : Move Net Event} {q : Packet} {p : AppPacket} (hm : m ∈ t)
      (hq : m.label.input = .recv q) (hl : q.HandedDown m.label.node)
      (hd : q.ih.daddr ≠ ipBroadcast) (hp : p ∈ (m.tgt.node m.label.node).rqueue)
      (hnew : p ∉ (m.src.node m.label.node).rqueue) : Carried t m.label.node p.val 0
  /-- The packet is received and sent on. -/
  | relay {m : Move Net Event} {i : NsAddr} {p p' : Packet} {n : Nat} (hc : Carried t i p n)
      (hm : m ∈ t) (hq : m.label.input = .recv (arrive p)) (hp : p' ∈ sentBy m)
      (hk : p'.SameKind p) : Carried t m.label.node p' (n + 1)
  /-- The packet is received and buffered. -/
  | hold {m : Move Net Event} {i : NsAddr} {p : Packet} {p' : AppPacket} {n : Nat}
      (hc : Carried t i p n) (hm : m ∈ t) (hq : m.label.input = .recv (arrive p))
      (hp : p' ∈ (m.tgt.node m.label.node).rqueue)
      (hnew : p' ∉ (m.src.node m.label.node).rqueue) : Carried t m.label.node p'.val (n + 1)
  /-- The packet is sent from the send buffer. -/
  | flush {m : Move Net Event} {p : AppPacket} {p' : Packet} {n : Nat}
      (hc : Carried t m.label.node p.val n) (hm : m ∈ t)
      (hq : p ∈ (m.src.node m.label.node).rqueue) (hp : p' ∈ sentBy m) (hk : p'.CopyOf p.val) :
      Carried t m.label.node p' n
  /-- The packet is salvaged from the interface queue. -/
  | salvage {m : Move Net Event} {p p' : Packet} {n : Nat} (hc : Carried t m.label.node p n)
      (hm : m ∈ t) (hq : p ∈ (m.src.node m.label.node).ifqueue) (hp : p' ∈ sentBy m)
      (hk : p'.CopyOf p) : Carried t m.label.node p' n

/-- The receptions of the packet and what is left of its TTL add up. -/
structure Alive (p : Packet) (n : Nat) : Prop where
  pos : 1 ≤ p.ih.ttl
  sum : p.ih.ttl + n ≤ networkDiameter
  numForwards : p.isEamrp = false → 0 ≤ p.ch.numForwards

theorem Alive.copy {p p' : Packet} {n : Nat} (h : Alive p n) (hc : p'.CopyOf p) : Alive p' n := by
  refine ⟨hc.ih ▸ h.pos, hc.ih ▸ h.sum, fun he => ?_⟩
  rw [hc.numForwards]
  exact h.numForwards (hc.isEamrp ▸ he)

/-- A packet that has been received is not one of the node's own. -/
theorem Alive.not_handedDown {p : Packet} {n : Nat} {i : NsAddr} (h : Alive p n) :
    ¬ (arrive p).HandedDown i := by
  rintro ⟨he, -, hn⟩
  have hn : p.ch.numForwards + 1 = 0 := hn
  have := h.numForwards he
  omega

/-- A packet that is relayed has one hop less to go. -/
theorem Alive.relay {a : Agent} {p p' : Packet} {n : Nat} (hp : Alive p n)
    (h : a.Sends (.recv (arrive p)) p') (hk : p'.SameKind (arrive p)) : Alive p' (n + 1) := by
  obtain ⟨httl, hne, hn⟩ := h.relayed hp.not_handedDown hk
  have httl : p'.ih.ttl = p.ih.ttl - 1 := httl
  have hn : p'.ch.numForwards = p.ch.numForwards + 1 := hn
  have hpos := hp.pos
  have hsum := hp.sum
  refine ⟨by omega, by push_cast; omega, fun he => ?_⟩
  have hle := hp.numForwards (hk.isEamrp ▸ he)
  omega

/-- A packet with a TTL that the agent has just set. -/
theorem alive_zero {p : Packet} (hpos : 1 ≤ p.ih.ttl) (hle : p.ih.ttl ≤ networkDiameter)
    (hn : p.isEamrp = false → p.ch.numForwards = 0) : Alive p 0 :=
  ⟨hpos, by simpa using hle, fun he => (hn he).ge⟩

/-- The TTL bounds the receptions of every packet. -/
theorem Run.alive (h : Run P t s) {i : NsAddr} {p : Packet} {n : Nat} (hc : Carried t i p n) :
    Alive p n := by
  induction hc with
  | issue hm hp he hk =>
    cases (h.sends hm).1 _ hp with
    | issue hi => exact alive_zero hi.pos hi.le fun happ => by cases he.symm.trans happ
    | originate _ _ _ happ => cases he.symm.trans happ
    | spread _ hl _ hc => cases he.symm.trans (hc.isEamrp.trans hl.isEamrp)
    | relay hq _ hk' => exact absurd hk' (hk _ hq)
    | @flush p₀ _ _ hc => cases he.symm.trans (hc.isEamrp.trans p₀.2)
    | salvage _ _ happ hc => cases he.symm.trans (hc.isEamrp.trans happ)
  | @originate m q p hm hq hl hd hp he =>
    obtain ⟨hsends, hi, -⟩ := h.sends hm
    cases hsends _ hp with
    | issue hi => cases he.symm.trans hi.isEamrp
    | originate _ _ _ _ httl hn =>
      exact alive_zero (httl ▸ by decide) httl.le fun _ => hn
    | spread hq' _ hd' =>
      obtain rfl := Input.recv.inj (hq.symm.trans hq')
      exact absurd hd' hd
    | relay hq' hl' =>
      obtain rfl := Input.recv.inj (hq.symm.trans hq')
      exact absurd (hi.symm ▸ hl) hl'
    | flush _ hq' => cases hl.isEamrp.symm.trans (hq' _ hq)
    | salvage _ hq' => cases hq.symm.trans hq'
  | buffer hm hq hl hd hp hnew =>
    obtain ⟨-, httl, hn⟩ := ((h.sends hm).2.2 _ hp).resolve_left hnew
    exact alive_zero (httl ▸ by decide) httl.le fun _ => hn
  | relay hc hm hq hp hk ih => exact ih.relay (hq ▸ (h.sends hm).1 _ hp) hk
  | hold hc hm hq hp hnew ih =>
    obtain ⟨⟨q, hq', hl, -⟩, -⟩ := ((h.sends hm).2.2 _ hp).resolve_left hnew
    obtain rfl := Input.recv.inj (hq.symm.trans hq')
    exact absurd hl ih.not_handedDown
  | flush hc hm hq hp hk ih => exact ih.copy hk
  | salvage hc hm hq hp hk ih => exact ih.copy hk

/-- Bounded relaying: in every run a packet whose TTL an agent has set is never handed to
`target_`, buffered or queued with less than one hop or more than `NETWORK_DIAMETER` hops to
go, and every reception has cost it one. A relay sends a packet on with exactly one hop less;
what else a node sends is new, or comes unchanged from the send buffer, which holds new packets
only, or from the interface queue. -/
theorem ttl_bounded (h : Run P t s) :
    (∀ i p n, Carried t i p n → 1 ≤ p.ih.ttl ∧ p.ih.ttl + n ≤ networkDiameter) ∧
      (∀ m ∈ t, ∀ q, m.label.input = .recv q → ¬ q.HandedDown m.label.node →
        ∀ p ∈ sentBy m, p.SameKind q → p.ih.ttl = q.ih.ttl - 1) ∧
      (∀ m ∈ t, ∀ p ∈ sentBy m, (m.src.node m.label.node).Sends m.label.input p) ∧
      ∀ i, ∀ p ∈ (s.node i).rqueue, p.val.ih.ttl = networkDiameter := by
  refine ⟨fun i p n hc => ?_, fun m hm q hq hl p hp hk => ?_, fun m hm => (h.sends hm).1,
    fun i => Reachable.buffered ⟨t, h⟩ i⟩
  · have halive := h.alive hc
    exact ⟨halive.pos, halive.sum⟩
  · obtain ⟨hsends, hi, -⟩ := h.sends hm
    have hsent := hsends p hp
    rw [hq] at hsent
    exact (hsent.relayed (hi.symm ▸ hl) hk).1

/-- The RREQ of node 1 has been received once when node 2 sends it on. -/
theorem ttl_bounded_discovery :
    Carried (idle.moves (discovery .mathH)) 2 relayedPacket 1 ∧
      1 ≤ relayedPacket.ih.ttl ∧ relayedPacket.ih.ttl + (1 : Nat) ≤ networkDiameter := by
  let t := idle.moves (discovery .mathH)
  let m₀ := t.get ⟨0, by decide⟩
  let m₁ := t.get ⟨1, by decide⟩
  have hissue : m₀.label.input = .recv { ih := { saddr := 1, daddr := 3 }, body := .app true } ∧
      firstPacket ∈ sentBy m₀ := by decide +kernel
  have hrelay : m₁.label.input = .recv (arrive firstPacket) ∧ relayedPacket ∈ sentBy m₁ := by
    decide +kernel
  have hown : Carried t 1 firstPacket 0 := by
    refine .issue (t.get_mem _) hissue.2 rfl fun q hq => ?_
    obtain rfl := Input.recv.inj (hissue.1.symm.trans hq)
    simp [Packet.SameKind, Packet.isEamrp, firstPacket, requestPacket]
  have hcarried : Carried t 2 relayedPacket 1 :=
    .relay hown (t.get_mem _) hrelay.1 hrelay.2 (.inr (.inl ⟨⟨_, rfl⟩, _, rfl⟩))
  exact ⟨hcarried, (ttl_bounded (P := three .mathH) (run_discovery .mathH)).1 _ _ _ hcarried⟩

end Net

end Eamrp
