import Eamrp.Net.Discipline

/-!
# Answers to a request

A RREQ is followed through its rebroadcasts: the number it asks for only grows on the way,
and a reply to any copy of it is newer than the route that its source has lost.
-/

namespace Eamrp

open Lib Relation

/-- A packet that advertises something is a routing packet. -/
theorem Hears.prompted {heard : Input} {i : NsAddr} {A : Advert} (h : Hears heard i A) :
    ¬ Unprompted heard := by
  obtain ⟨q, hq, hA⟩ := h
  intro hu
  have := hu q hq
  cases hb : q.body <;> simp_all [Packet.advert, Packet.isEamrp]

namespace Proto

variable {P : Params} {σ σ' : Proto} {i : NsAddr} {env : Env} {heard : Input}

/-- While no routing packet is handled, a route which is down stays as it is. -/
theorem Act.down_stays (ha : Act i env heard σ σ') (hq : Unprompted heard) {j d : NsAddr}
    {r : Route} (hr : σ.route j d = some r) (hdown : r.up = false) :
    σ'.route j d = some r := by
  obtain ⟨r', hr', rfl | ⟨-, hs⟩⟩ := ha.route_some hr
  · exact hr'
  · cases hs with
    | renew hA => exact absurd hq hA.prompted
    | freeze hup => simp [hdown] at hup
    | add _ _ hup => simp [hdown] at hup
    | lose hup => simp [hdown] at hup
    | fail hup => simp [hdown] at hup
    | withdraw hup => simp [hdown] at hup

theorem down_of_acts (ha : ReflTransGen (Acts i env heard) σ σ') (hq : Unprompted heard)
    {j d : NsAddr} {r : Route} (hr : σ.route j d = some r) (hdown : r.up = false) :
    σ'.route j d = some r := by
  induction ha with
  | refl => exact hr
  | tail _ hs ih => exact hs.act.down_stays hq ih hdown

end Proto

namespace Net

variable {P : Params} {s : Net} {t : List (Move Net Event)} {m : Move Net Event}
  {orig p r : Packet} {rq rq' : HdrRequest} {rp : HdrReply}

/-- In the move its node sends a RREQ of its own. -/
structure Asks (m : Move Net Event) (orig : Packet) (rq : HdrRequest) : Prop where
  sent : orig ∈ sentBy m
  body : orig.body = .rreq rq
  own : rq.rqSrc = m.label.node

/-- The packet is a copy of `orig` after any number of rebroadcasts. -/
inductive Copy (t : List (Move Net Event)) (orig : Packet) : Packet → Prop where
  | sent : Copy t orig orig
  | relayed {p p' : Packet} {m : Move Net Event} {rq : HdrRequest} (h : Copy t orig p)
      (hm : m ∈ t) (hin : m.label.input = .recv (arrive p)) (hp : p' ∈ sentBy m)
      (hb : p'.body = .rreq rq) : Copy t orig p'

/-- What is handled when a RREQ arrives. -/
private theorem heard_request {q : Packet} (hin : m.label.input = .recv (arrive p))
    (hb : p.body = .rreq rq) (hq : m.label.input.aged = .recv q) : q.body = .rreq rq := by
  rw [hin] at hq
  obtain rfl := Input.recv.inj hq
  exact hb

/-- The source of a RREQ asks for the number of its own route, which is down. -/
theorem Run.asked (h : Run P t s) (hm : m ∈ t) (ha : Asks m orig rq) :
    ∃ e, m.tgt.entry m.label.node rq.rqDst = some e ∧ e.rtFlags ≠ .up ∧
      e.rtSeqno = rq.rqDstSeqno := by
  obtain ⟨σ, w, hu⟩ := h.utterance hm ha.sent
  have hspeaks := hu.speaks
  have hb := ha.body
  cases hspeaks with
  | app h => simp [Packet.isEamrp, hb] at h
  | @request ttl bid now e hq hlook hdown =>
    obtain rfl : _ = rq := by simpa [requestPacket] using hb
    have hr : (σ.say (requestPacket w.index ttl bid e.rtDst e.rtSeqno w.seqno now)).route
        m.label.node e.rtDst = some e.route := by
      change σ.route m.label.node e.rtDst = some e.route
      rw [← hu.shows.route, hlook]
      rfl
    have hup : e.route.up = false := by simpa [RtEntry.route] using hdown
    obtain ⟨e', he', heq⟩ :=
      Option.map_eq_some_iff.mp (Proto.down_of_acts hu.after hq hr hup)
    refine ⟨e', he', fun hup' => ?_, congrArg Route.seqno heq⟩
    rw [← heq] at hup
    simp [RtEntry.route, hup'] at hup
  | @relay q rq' e path n ch hq hb' hadv hd =>
    obtain rfl : _ = rq := by simpa using hb
    exact absurd ((hd.symm.trans ha.own).trans hu.shows.index.symm) hadv.notSelf
  | rerr hp => rw [hp] at hb; cases hb
  | answer _ _ _ hp => rw [hp] at hb; cases hb
  | answerFrom _ _ _ _ _ _ hp => rw [hp] at hb; cases hb
  | forwardReply _ _ _ _ _ hp => rw [hp] at hb; cases hb
  | hello hp => rw [hp] at hb; cases hb

/-- A rebroadcast asks for the same destination and for at least the same number. -/
theorem Run.relayed (h : Run P t s) (hm : m ∈ t) (hin : m.label.input = .recv (arrive p))
    (hb : p.body = .rreq rq) (hr : r ∈ sentBy m) (hrb : r.body = .rreq rq') :
    rq'.rqDst = rq.rqDst ∧ rq.rqDstSeqno ≤ rq'.rqDstSeqno := by
  obtain ⟨σ, w, hu⟩ := h.utterance hm hr
  have hspeaks := hu.speaks
  cases hspeaks with
  | app h => simp [Packet.isEamrp, hrb] at h
  | request hq =>
    have := hq _ (by rw [hin]; rfl)
    simp [arrive, Packet.isEamrp, hb] at this
  | @relay q rq₁ e path n ch hq hb' hadv hd hs hdst hn =>
    obtain rfl : rq₁ = rq := Body.rreq.inj (hb'.symm.trans (heard_request hin hb hq))
    obtain rfl : _ = rq' := by simpa using hrb
    exact ⟨rfl, hn⟩
  | rerr hp => rw [hp] at hrb; cases hrb
  | answer _ _ _ hp => rw [hp] at hrb; cases hrb
  | answerFrom _ _ _ _ _ _ hp => rw [hp] at hrb; cases hrb
  | forwardReply _ _ _ _ _ hp => rw [hp] at hrb; cases hrb
  | hello hp => rw [hp] at hrb; cases hrb

/-- A copy of a RREQ asks for at least the number that the RREQ asked for. -/
theorem Copy.request (h : Run P t s) (hp : Copy t orig p) (hb : orig.body = .rreq rq) :
    ∃ rq', p.body = .rreq rq' ∧ rq'.rqDst = rq.rqDst ∧ rq.rqDstSeqno ≤ rq'.rqDstSeqno := by
  induction hp with
  | sent => exact ⟨rq, hb, rfl, UInt32.le_refl _⟩
  | relayed _ hm hin hp' hb' ih =>
    obtain ⟨rq₁, hb₁, hdst, hle⟩ := ih
    obtain ⟨hdst', hle'⟩ := h.relayed hm hin hb₁ hp' hb'
    exact ⟨_, hb', hdst'.trans hdst, UInt32.le_trans hle hle'⟩

/-- A reply to a RREQ carries a valid number that is at least the one asked for. -/
theorem Run.answered (h : Run P t s) (hw : s.NoWrap) (hm : m ∈ t)
    (hin : m.label.input = .recv (arrive p)) (hb : p.body = .rreq rq) (hr : r ∈ sentBy m)
    (hrb : r.body = .rrep rp) :
    rp.rpDst = rq.rqDst ∧ rp.rpDstSeqno % 2 = 0 ∧ 2 ≤ rp.rpDstSeqno ∧
      rq.rqDstSeqno ≤ rp.rpDstSeqno := by
  obtain ⟨σ, w, hu⟩ := h.utterance hm hr
  have hpar := hu.reachable.parity
  have hnw := hu.noWrap (h.noWrap hw hm).2
  have hspeaks := hu.speaks
  cases hspeaks with
  | app h => simp [Packet.isEamrp, hrb] at h
  | @answer q _ rq₁ rp₁ hq hb' hdst hp hs hnh hat hda hrp =>
    obtain rfl : rq₁ = rq := Body.rreq.inj (hb'.symm.trans (heard_request hin hb hq))
    obtain rfl : rp₁ = rp := Body.rrep.inj (hp.symm.trans hrb)
    have hwrap : w.seqnoWrapped = false := by rw [hu.shows.wrapped]; exact hnw _
    have hge := (hu.reachable.bounded hnw).own m.label.node
    subst hrp
    refine ⟨hdst.symm, ?_, ?_, hs hwrap⟩
    · change w.seqno % 2 = 0
      rw [hu.shows.seqno]
      exact hpar.own _
    · change 2 ≤ w.seqno
      rw [hu.shows.seqno]
      exact UInt32.le_iff_toNat_le.mpr hge
  | @answerFrom q _ rq₁ rp₁ e path hq hb' hadv hd hev hs hp hda hrp =>
    obtain rfl : rq₁ = rq := Body.rreq.inj (hb'.symm.trans (heard_request hin hb hq))
    obtain rfl : rp₁ = rp := Body.rrep.inj (hp.symm.trans hrb)
    obtain ⟨-, hroute, hup, -⟩ := hu.shows.advertises hadv
    subst hrp
    exact ⟨hd.symm, hev, ((hpar.route _ _ _ hroute).up hup).2, hs⟩
  | @forwardReply q _ rp₁ e path hq hb' =>
    have := hb'.symm.trans (heard_request hin hb hq)
    cases this
  | request => cases hrb
  | relay => cases hrb
  | rerr hp => rw [hp] at hrb; cases hrb
  | hello hp => rw [hp] at hrb; cases hrb

/-- Replies are fresh enough to be used: in a run in which no own number has wrapped, a reply to
any copy of a RREQ has an even number that is at least the one the copy asks for, and larger
than that of the entry its source had when it sent the RREQ. -/
theorem reply_fresh (h : Run P t s) (hw : s.NoWrap) {m₀ : Move Net Event} (hm₀ : m₀ ∈ t)
    {rq₀ : HdrRequest} (hask : Asks m₀ orig rq₀) (hp : Copy t orig p) (hb : p.body = .rreq rq)
    (hm : m ∈ t) (hin : m.label.input = .recv (arrive p)) (hr : r ∈ sentBy m)
    (hrb : r.body = .rrep rp) :
    rp.rpDst = rq₀.rqDst ∧ rp.rpDstSeqno % 2 = 0 ∧ rq.rqDstSeqno ≤ rp.rpDstSeqno ∧
      ∃ e, m₀.tgt.entry m₀.label.node rq₀.rqDst = some e ∧ e.rtSeqno < rp.rpDstSeqno := by
  obtain ⟨rq₁, hb₁, hdst, hle⟩ := hp.request h hask.body
  obtain rfl : rq₁ = rq := Body.rreq.inj (hb₁.symm.trans hb)
  obtain ⟨hrd, hev, hge, hle'⟩ := h.answered hw hm hin hb hr hrb
  obtain ⟨e, he, hdown, hs⟩ := h.asked hm₀ hask
  refine ⟨hrd.trans hdst, hev, hle', e, he, ?_⟩
  have hle₀ : e.rtSeqno ≤ rp.rpDstSeqno := hs ▸ UInt32.le_trans hle hle'
  -- The number of an entry which is down is odd, or 0 and below every valid number.
  obtain ⟨hreach, hstep⟩ := Run.of_mem h hm₀
  have hafter : m₀.tgt.Reachable P := hreach.next hstep
  have hpar := hafter.proto.parity.route _ _ _ (route_proto he)
  have hodd : e.rtSeqno % 2 = 1 ∨ e.rtSeqno = 0 :=
    hpar.down (by simpa [RtEntry.route] using hdown)
  grind

/-- The RREQ of node 1 for node 3. -/
def firstRequest : HdrRequest :=
  { rqHopCount := 0, rqBcastId := 1, rqDst := 3, rqDstSeqno := 0, rqSrc := 1, rqSrcSeqno := 4,
    rqTimestamp := 0 }

/-- The RREQ as node 1 sends it. -/
def firstPacket : Packet := requestPacket 1 networkDiameter 1 3 0 4 0

/-- The RREQ as node 2 rebroadcasts it. -/
def relayedPacket : Packet where
  ih := { firstPacket.ih with saddr := 2, ttl := networkDiameter - 1 }
  ch := { firstPacket.ch with numForwards := 1 }
  body := .rreq { firstRequest with rqHopCount := 255, rqFirstHop := 2 }

/-- The reply of node 3. -/
def firstReply : HdrReply :=
  { rpHopCount := 0, rpDst := 3, rpDstSeqno := 2, rpSrc := 3, rpLifetime := myRouteTimeout,
    rpBcastId := 1, rpFirstHop := 2 }

/-- Node 3 answers the RREQ that node 2 has rebroadcast with a number above that of the entry
node 1 had for it. -/
theorem reply_fresh_discovery :
    ∃ e, (idle.after (.app .mathH 0 1 3)).entry 1 3 = some e ∧
      e.rtSeqno < firstReply.rpDstSeqno := by
  let t := idle.moves (discovery .mathH)
  let m₀ := t.get ⟨0, by decide⟩
  let m₁ := t.get ⟨1, by decide⟩
  let m₂ := t.get ⟨2, by decide⟩
  have hask : Asks m₀ firstPacket firstRequest := ⟨by decide +kernel, rfl, rfl⟩
  have hrelay : m₁.label.input = .recv (arrive firstPacket) ∧ relayedPacket ∈ sentBy m₁ := by
    decide +kernel
  have hcopy : Copy t firstPacket relayedPacket :=
    .relayed .sent (t.get_mem _) hrelay.1 hrelay.2 rfl
  have hin : m₂.label.input = .recv (arrive relayedPacket) := by decide +kernel
  have hr : (sentBy m₂).any (fun r => r.body == .rrep firstReply) = true := by decide +kernel
  obtain ⟨r, hr, hrb⟩ := List.any_eq_true.mp hr
  exact (reply_fresh (P := three .mathH) (run_discovery .mathH) (noWrap_discovery .mathH)
    (t.get_mem _) hask hcopy rfl (t.get_mem _) hin hr (eq_of_beq hrb)).2.2.2

end Net

end Eamrp
