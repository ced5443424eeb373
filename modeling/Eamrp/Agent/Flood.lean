import Eamrp.Agent.Discovery
import Eamrp.Agent.RouteUpdate

/-!
# Rebroadcasts of a request

A node rebroadcasts at most one copy of a RREQ, and the copy it remembers the RREQ by decides:
if the reverse-route checks discard that one, the later copies are duplicates all the same.
-/

namespace Eamrp

open Lib

section Events

variable {env : Env} {w w' : World} {p q : Packet} {rq : HdrRequest}

/-- A rebroadcast that returns has sent one copy of the RREQ, if the packet lives and is not
addressed to the node itself. -/
theorem relayed_rebroadcast {rt : Option RtEntry} (h : rebroadcast env p rq rt w = .ok w')
    (httl : p.ih.ttl ≠ 0) (hda : p.ih.daddr ≠ w.index) (hsrc : rq.rqSrc ≠ w.index) :
    w'.relayed (rq.rqSrc, rq.rqBcastId) = w.relayed (rq.rqSrc, rq.rqBcastId) + 1 := by
  unfold rebroadcast at h
  split at h
  · cases h
  · next e he =>
    dsimp only at h
    split at h
    · cases h
    · cases forward_ok h with
      | expired h0 => exact absurd h0 httl
      | dmux hl =>
        rcases hl with ⟨happ, -⟩ | hself
        · cases happ
        · exact absurd hself hda
      | broadcast _ _ _ =>
        have hst := World.Quiet.store w (e.advertise env.inf)
        rw [World.relayed_send, hst.relayed, if_pos]
        simpa [Packet.relays, Packet.toAll, World.store] using hsrc

/-- A RREQ for another node, to which no fresh route is known afterwards, is rebroadcast unless
it is a duplicate. -/
theorem relayed_answerRequest {reversePath : Bool}
    (h : answerRequest env p rq false reversePath w = .ok w') (hdst : rq.rqDst ≠ w.index)
    (hroute : ∀ e, w'.rtLookup rq.rqDst = some e → e.rtFlags = .up → e.rtSeqno < rq.rqDstSeqno)
    (httl : p.ih.ttl ≠ 0) (hda : p.ih.daddr ≠ w.index) (hsrc : rq.rqSrc ≠ w.index) :
    w'.relayed (rq.rqSrc, rq.rqBcastId) = w.relayed (rq.rqSrc, rq.rqBcastId) + 1 := by
  have hcalm := calm_answerRequest hsrc h
  unfold answerRequest at h
  dsimp only at h
  rw [if_neg hdst] at h
  split at h
  · next e he =>
    obtain ⟨hl, hc⟩ := Option.filter_eq_some_iff.mp he
    obtain ⟨hup, hfresh⟩ := of_decide_eq_true hc
    obtain ⟨e', he', hee⟩ := hcalm.entry _ e hl
    have hlt := hroute e' he' (hee.rtFlags.trans hup)
    rw [hee.rtSeqno] at hlt
    exact absurd hfresh (UInt32.not_le.mpr hlt)
  · exact relayed_rebroadcast h httl hda hsrc

/-- What the first copy of a RREQ comes to. -/
theorem relayed_recvRequest (h : recvRequest env p rq w = .ok w') (hs : w.sent = [])
    (hnew : w.idGet rq.rqSrc rq.rqBcastId = none) (hsrc : rq.rqSrc ≠ w.index)
    (hdst : rq.rqDst ≠ w.index)
    (hroute : ∀ e, w'.rtLookup rq.rqDst = some e → e.rtFlags = .up → e.rtSeqno < rq.rqDstSeqno)
    (httl : p.ih.ttl ≠ 0) (hda : p.ih.daddr ≠ w.index) :
    w'.relayed (rq.rqSrc, rq.rqBcastId) =
      if DiscardsRequest env w.toAgent p.ih.saddr rq then 0 else 1 := by
  obtain ⟨v, e, e', verdict, hv, he, hr, hrest⟩ := recvRequest_stages h hsrc
  have hmem : (w.remember env rq).relayed (rq.rqSrc, rq.rqBcastId) = 0 := by
    rw [World.remember_eq]
    exact World.relayed_of_sent hs _
  have hv0 : v.relayed (rq.rqSrc, rq.rqBcastId) = 0 := by
    rw [(quiet_rtEnsure hv).relayed, hmem]
  obtain ⟨hentry, hindex, hmax, hdiff⟩ := World.rtEnsure_remember hv he
  have hroute' : reverseRoute env w.toAgent p.ih.saddr (rq.atNode w.index)
      (w.entryFor env rq.rqSrc) = .ok (e', verdict) := by
    rw [← hr, hentry]
    exact (reverseRoute_congr hindex hmax hdiff).symm
  rcases hrest with ⟨rfl, rfl⟩ | ⟨b, u, rfl, hu, hans⟩
  · rw [if_pos (.inr ⟨e', hroute'⟩)]
    exact ((World.Quiet.store v e').relayed _).trans hv0
  · have hkept : ¬ DiscardsRequest env w.toAgent p.ih.saddr rq := by
      rintro (hown | ⟨f, hf⟩)
      · exact hsrc hown
      · cases hroute'.symm.trans hf
    have hq := (World.Quiet.store v e').trans (quiet_routeUp hu)
    have hi : u.index = w.index := hq.index.trans hindex
    rw [if_neg hkept]
    have hkill : (w.idGet rq.rqSrc rq.rqBcastId).isSome = false := by rw [hnew]; rfl
    rw [hkill] at hans
    have hcount := relayed_answerRequest hans (by rwa [hi]) hroute httl (by rwa [hi])
      (by rwa [hi])
    exact hcount.trans (by rw [hq.relayed]; exact congrArg (· + 1) hv0)

/-- The event of receiving the first copy of a RREQ. -/
theorem relayed_first (h : handle env (.recv q) w = .ok w') (hb : q.body = .rreq rq)
    (hs : w.sent = []) (hnew : w.idGet rq.rqSrc rq.rqBcastId = none)
    (hsrc : rq.rqSrc ≠ w.index) (hdst : rq.rqDst ≠ w.index)
    (hroute : ∀ e, w'.rtLookup rq.rqDst = some e → e.rtFlags = .up → e.rtSeqno < rq.rqDstSeqno)
    (httl : 2 ≤ q.ih.ttl) (hda : q.ih.daddr ≠ w.index) :
    w'.relayed (rq.rqSrc, rq.rqBcastId) =
      if DiscardsRequest env w.toAgent q.ih.saddr rq then 0 else 1 := by
  have hrecv := recvRequest_of_handle hb h
  have httl' : q.ih.ttl - 1 ≠ 0 := by omega
  exact relayed_recvRequest (p := { q with ih := { q.ih with ttl := q.ih.ttl - 1 } }) hrecv hs hnew
    hsrc hdst hroute httl' hda

end Events

namespace Agent

variable {t u v : List (Move World Turn)} {m : Move World Turn} {w : World} {k : Pair}

/-- How many RREQs with the pair are rebroadcast in these moves. -/
def relayCount (t : List (Move World Turn)) (k : Pair) : Nat :=
  (t.map fun m => m.tgt.relayed k).sum

/-- While a record of the pair is there, nothing is rebroadcast for it. -/
theorem Run.relayed_eq_zero (h : Run t w) (hm : m ∈ t)
    (hg : (m.src.idGet k.1 k.2).isSome = true) : m.tgt.relayed k = 0 := by
  obtain ⟨u, v, rfl⟩ := List.append_of_mem hm
  obtain ⟨hu, hs⟩ := Lib.Run.of_append h
  have hone : m.src.OneRecord := (Run.log hu).1
  obtain ⟨-, hfair⟩ := handle_fair (w := m.src.toAgent.world) hs rfl hone
  refine (hfair k).made_eq_zero ?_
  rw [World.turn, World.slot, Option.isSome_map]
  exact hg

theorem Run.relayCount_eq_zero (h : Run (u ++ v) w)
    (hlives : ∀ m ∈ v, (m.src.idGet k.1 k.2).isSome = true) : relayCount v k = 0 := by
  apply List.sum_eq_zero
  intro n hn
  obtain ⟨m, hm, rfl⟩ := List.mem_map.mp hn
  exact Run.relayed_eq_zero h (List.mem_append_right u hm) (hlives m hm)

/-- The first copy decides about a flood: during the life of the record that the first copy of
a RREQ makes, a node that is neither its source nor its destination, and knows no fresh route
to the destination, rebroadcasts the RREQ once if the reverse-route checks let the first copy
pass, and not at all if they discard it. -/
theorem flood_once (h : Run (u ++ m :: v) w) {q : Packet} {rq : HdrRequest}
    (hin : m.label.input = .recv q) (hb : q.body = .rreq rq)
    (hnew : m.src.idGet rq.rqSrc rq.rqBcastId = none)
    (hlives : RecordLives (m :: v) (rq.rqSrc, rq.rqBcastId))
    (hsrc : rq.rqSrc ≠ m.src.index) (hdst : rq.rqDst ≠ m.src.index)
    (hroute : ∀ e, m.tgt.rtLookup rq.rqDst = some e → e.rtFlags = .up →
      e.rtSeqno < rq.rqDstSeqno)
    (httl : 2 ≤ q.ih.ttl) (hda : q.ih.daddr ≠ m.src.index) :
    relayCount (m :: v) (rq.rqSrc, rq.rqBcastId) =
      if DiscardsRequest m.label.env m.src.toAgent q.ih.saddr rq then 0 else 1 := by
  obtain ⟨-, hs⟩ := Lib.Run.of_append h
  have hs : handle m.label.env (.recv q) m.src.toAgent.world = .ok m.tgt := by
    rw [← hin]
    exact hs
  have hfirst := relayed_first hs hb rfl hnew hsrc hdst hroute httl hda
  have hrest : relayCount v (rq.rqSrc, rq.rqBcastId) = 0 := by
    refine Run.relayCount_eq_zero (u := u ++ [m]) (w := w) ?_ hlives
    simpa using h
  have hsum : relayCount (m :: v) (rq.rqSrc, rq.rqBcastId) =
      m.tgt.relayed (rq.rqSrc, rq.rqBcastId) + relayCount v (rq.rqSrc, rq.rqBcastId) := rfl
  rw [hsum, hrest, hfirst]
  rfl

/-- Node 2 hears the HELLO of node 1, then the RREQ of node 1 for node 9 over node 3, four hops
long, and then the same RREQ from node 1 itself. -/
def longCopyFirst : List Turn :=
  let hello : Packet :=
    { ih := { saddr := 1, daddr := ipBroadcast, sport := rtPort, dport := rtPort, ttl := 1 }
      body := .hello { rpHopCount := 0, rpDst := 1, rpDstSeqno := 4, rpLifetime := 4 } }
  let rq : HdrRequest :=
    { rqHopCount := 0, rqBcastId := 1, rqDst := 9, rqDstSeqno := 0, rqSrc := 1, rqSrcSeqno := 4,
      rqTimestamp := 0 }
  let long : Packet :=
    { ih := { saddr := 3, daddr := ipBroadcast, sport := rtPort, dport := rtPort, ttl := 9 }
      body := .rreq { rq with rqHopCount := 3, rqFirstHop := 5 } }
  let short : Packet :=
    { ih := { saddr := 1, daddr := ipBroadcast, sport := rtPort, dport := rtPort, ttl := 9 }
      body := .rreq rq }
  [⟨{ now := 0, inf := .mathH }, .recv hello⟩, ⟨{ now := 1, inf := .mathH }, .recv long⟩,
    ⟨{ now := 2, inf := .mathH }, .recv short⟩]

theorem run_longCopyFirst :
    Run (moves (idle 2) longCopyFirst) (final (idle 2) longCopyFirst) :=
  run_idle (by decide +kernel)

/-- The copy of node 1 is not discarded, no route to node 9 is known, and yet node 2 rebroadcasts
nothing. -/
theorem flood_silenced :
    Run (moves (idle 2) longCopyFirst) (final (idle 2) longCopyFirst) ∧
      (∃ m₁ m₂ : Move World Turn, (moves (idle 2) longCopyFirst).drop 1 = [m₁, m₂] ∧
        (∃ q rq, m₂.label.input = .recv q ∧ q.body = .rreq rq ∧
          (rq.rqSrc, rq.rqBcastId) = (1, 1) ∧ 2 ≤ q.ih.ttl ∧
          ¬ DiscardsRequest m₂.label.env m₂.src.toAgent q.ih.saddr rq) ∧
        m₁.src.idGet 1 1 = none ∧ RecordLives [m₁, m₂] (1, 1) ∧ m₂.tgt.rtLookup 9 = none ∧
        relayCount [m₁, m₂] (1, 1) = 0) := by
  refine ⟨run_longCopyFirst, _, _, rfl, ⟨_, _, rfl, rfl, ?_⟩, ?_⟩
  · decide +kernel
  · unfold RecordLives
    decide +kernel

/-- In the run of `relayTwice` the first copy passes. -/
theorem flood_once_relayTwice :
    relayCount (moves (idle 2) (relayTwice.take 2)) (1, 1) = 1 := by
  have hrun : Run ([] ++ moves (idle 2) (relayTwice.take 2))
      (final (idle 2) (relayTwice.take 2)) := run_idle (by decide +kernel)
  have hnone : (after (idle 2) (relayTwice.get ⟨0, by decide⟩)).rtLookup 3 = none := by
    decide +kernel
  have honce := flood_once hrun rfl rfl (by decide +kernel) (by unfold RecordLives; decide +kernel)
    (by decide +kernel) (by decide +kernel) (fun e he => by cases hnone.symm.trans he)
    (by decide +kernel) (by decide +kernel)
  refine honce.trans (if_neg ?_)
  decide +kernel

end Agent

end Eamrp
