import Eamrp.Net.Discipline

/-!
# The destination and its sequence number

The bounds of `Eamrp.Net.Bound` on routing tables and packets of a network, and what the
destination of a RREQ does to its own number.
-/

namespace Eamrp

namespace Net

variable {P : Params} {s s' : Net}

/-- Every number about a destination is at most one above its own number, and every number
that advertises it is at most that number. -/
structure NumbersBounded (s : Net) : Prop where
  entry : ∀ i d e, i ≠ d → s.entry i d = some e →
    e.rtSeqno.toNat ≤ (s.node d).seqno.toNat + 1 ∧
      e.rtHighestSeqnoHeard.toNat ≤ (s.node d).seqno.toNat + 1
  rreq : ∀ p ∈ s.flight, ∀ rq, p.body = .rreq rq →
    rq.rqDstSeqno.toNat ≤ (s.node rq.rqDst).seqno.toNat + 1 ∧
      rq.rqSrcSeqno.toNat ≤ (s.node rq.rqSrc).seqno.toNat
  reply : ∀ p ∈ s.flight, ∀ rp, p.body = .rrep rp ∨ p.body = .hello rp →
    rp.rpDstSeqno.toNat ≤ (s.node rp.rpDst).seqno.toNat
  rerr : ∀ p ∈ s.flight, ∀ re, p.body = .rerr re →
    ∀ u ∈ re, u.2.toNat ≤ (s.node u.1).seqno.toNat + 1

theorem numbersBounded (h : s.Reachable P) (hw : s.NoWrap) : s.NumbersBounded := by
  have hb := h.proto.bounded hw
  refine ⟨?_, ?_, ?_, ?_⟩
  · intro i d e _ he
    have := hb.route i d _ (route_proto he)
    exact ⟨this.seqno, this.highest⟩
  · intro p hp rq hrq
    exact ⟨hb.request rq ⟨p, hp, hrq⟩, (hb.advert p hp 0 _ (by rw [Packet.advert, hrq])).2⟩
  · rintro p hp rp (hrp | hrp)
    · exact (hb.advert p hp 0 _ (by rw [Packet.advert, hrp])).2
    · exact (hb.advert p hp 0 _ (by rw [Packet.advert, hrp])).2
  · intro p hp re hre u hu
    exact hb.error p.ih.saddr u.1 u.2 ⟨p, hp, re, hre, rfl, hu⟩

/-- The RREQ `rq` for node `ev.node` is received in this event. -/
def ReceivesRequest (ev : Event) (q : Packet) (rq : HdrRequest) : Prop :=
  ev.input = .recv q ∧ q.body = .rreq rq ∧ rq.rqDst = ev.node

/-- Only the destination creates fresh sequence numbers: while no own number has wrapped, all
numbers about a destination are bounded by its own number. A RREQ that asks it for more asks
for exactly one more, and its number rises by exactly 2 unless it discards the RREQ. -/
theorem destination_seqno (h : s.Reachable P) (hw : s.NoWrap) :
    s.NumbersBounded ∧
      ∀ ev s' q rq, Step P s ev s' → s'.NoWrap → ReceivesRequest ev q rq →
        (s.node ev.node).seqno < rq.rqDstSeqno →
        rq.rqDstSeqno.toNat = (s.node ev.node).seqno.toNat + 1 ∧
        (DiscardsRequest ev.env (s.node ev.node) q.ih.saddr rq →
          (s'.node ev.node).seqno = (s.node ev.node).seqno) ∧
        (¬ DiscardsRequest ev.env (s.node ev.node) q.ih.saddr rq →
          (s'.node ev.node).seqno.toNat = (s.node ev.node).seqno.toNat + 2) := by
  have hbounds := numbersBounded h hw
  refine ⟨hbounds, ?_⟩
  rintro ev s' q rq ⟨hen, hok⟩ hw' ⟨hin, hb, hdst⟩ hlt
  obtain ⟨w, hhandle, rfl⟩ := next_ok hok
  rw [hin] at hhandle
  have hans := handle_request hb hhandle
  have hsource : ∃ p ∈ s.flight, p.body = .rreq rq := by
    have ho := hen.offers
    rw [hin] at ho
    obtain ⟨p, hp, -, rfl⟩ := ho (by simp [Packet.isEamrp, hb])
    exact ⟨p, hp, hb⟩
  obtain ⟨p, hp, hrq⟩ := hsource
  have hle := (hbounds.rreq p hp rq hrq).1
  rw [hdst] at hle
  rw [UInt32.lt_iff_toNat_lt] at hlt
  have heq : rq.rqDstSeqno.toNat = (s.node ev.node).seqno.toNat + 1 := by omega
  refine ⟨heq, ?_, ?_⟩
  · intro hd
    simp only [Function.update_self]
    exact hans.discard hd
  · intro hnd
    have hi : ev.node = (s.node ev.node).index := (index_of_reachable h _).symm
    obtain ⟨v, hv, -, hseq, hwrap⟩ := hans.answer (hdst.trans hi) hnd
    have hnw : (v.raiseSeqno rq).seqnoWrapped = false := by
      rw [← hwrap]
      simpa using hw' ev.node
    have hraise := (World.raiseSeqno_spec hnw).2
    have hev := toNat_even (h.proto.parity.own ev.node)
    have hv' : v.seqno = (s.node ev.node).seqno := hv
    have hev' : (s.node ev.node).seqno.toNat % 2 = 0 := hev
    simp only [Function.update_self]
    rw [hseq, hraise, hv', heq, raisedSeqno, if_pos (Nat.lt_succ_self _)]
    omega

/-- Node 1 asks for node 2, loses the route and asks again with the RREQ `asksAgain`. -/
def askingAgain : List Cue :=
  [.app .mathH 0 1 2, .hear .mathH 0 2 0, .hear .mathH 0 1 1, .timer .mathH 20 1 .routeCacheTimer,
    .app .mathH 20 1 2]

/-- The second RREQ, which asks node 2 for number 3. -/
def asksAgain : HdrRequest :=
  { rqHopCount := 0, rqBcastId := 2, rqDst := 2, rqDstSeqno := 3, rqSrc := 1, rqSrcSeqno := 6,
    rqTimestamp := 20 }

/-- The second RREQ as node 2 receives it. -/
def againPacket : Packet where
  ih := { saddr := 1, daddr := ipBroadcast, sport := rtPort, dport := rtPort, ttl := 3 }
  ch := { direction := .up, addrType := .none, numForwards := 1 }
  body := .rreq asksAgain

theorem reachable_askingAgain : (idle.final askingAgain).Reachable (three .mathH) :=
  ⟨_, run_idle (by decide +kernel)⟩

/-- When the second RREQ arrives next, node 2 raises its number from 2 to 4. -/
theorem destination_seqno_askingAgain :
    (idle.final askingAgain).NumbersBounded ∧
      (((idle.final askingAgain).after (.hear .mathH 20 2 3)).node 2).seqno.toNat =
        ((idle.final askingAgain).node 2).seqno.toNat + 2 := by
  have hstep : Step (three .mathH) (idle.final askingAgain)
      (Cue.hear .mathH 20 2 3 (idle.final askingAgain))
      ((idle.final askingAgain).after (.hear .mathH 20 2 3)) := step_of_accepts (by decide +kernel)
  have hmain := destination_seqno reachable_askingAgain
    (noWrap_of_nodes reachable_askingAgain (by decide +kernel))
  refine ⟨hmain.1, ?_⟩
  exact (hmain.2 _ _ againPacket asksAgain hstep
    (noWrap_of_nodes (reachable_askingAgain.next hstep) (by decide +kernel))
    ⟨by decide +kernel, rfl, by decide +kernel⟩ (by decide +kernel)).2.2 (by decide +kernel)

/-- The second RREQ is overtaken by one for node 3. -/
def overtaken : List Cue := askingAgain ++ [.app .mathH 20 1 3, .hear .mathH 20 2 4]

/-- A RREQ that asks for more than the own number can leave it as it is: node 2 has number 2
and discards the overtaken RREQ, which asks for 3. -/
theorem overtaken_request_discarded :
    ¬ ∀ (P : Params) (s : Net), s.Reachable P → s.NoWrap → ∀ ev s' q rq, Step P s ev s' →
      s'.NoWrap → ReceivesRequest ev q rq → (s.node ev.node).seqno < rq.rqDstSeqno →
      rq.rqDstSeqno.toNat = (s.node ev.node).seqno.toNat + 1 ∧
        (s'.node ev.node).seqno.toNat = (s.node ev.node).seqno.toNat + 2 := by
  intro hall
  have hreach : (idle.final overtaken).Reachable (three .mathH) :=
    ⟨_, run_idle (by decide +kernel)⟩
  have hstep : Step (three .mathH) (idle.final overtaken)
      (Cue.hear .mathH 20 2 3 (idle.final overtaken))
      ((idle.final overtaken).after (.hear .mathH 20 2 3)) := step_of_accepts (by decide +kernel)
  have := hall _ _ hreach (noWrap_of_nodes hreach (by decide +kernel)) _ _ againPacket asksAgain
    hstep (noWrap_of_nodes (hreach.next hstep) (by decide +kernel))
    ⟨by decide +kernel, rfl, by decide +kernel⟩ (by decide +kernel)
  exact absurd this.2 (by decide +kernel)

end Net

end Eamrp
