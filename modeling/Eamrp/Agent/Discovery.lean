import Eamrp.Agent.Cache

/-!
# One transmission per discovery

Along a run of an agent the cache keeps a slot for every pair of source and broadcast id,
and rebroadcasts and replies follow the rules of that slot.
-/

namespace Eamrp

open Lib

namespace Agent

variable {t : List (Move World Turn)} {w : World} {k : Pair}

/-- The history of the slot of a pair along a run. -/
def slotTurns (t : List (Move World Turn)) (k : Pair) : List (Once.Turn Time) :=
  t.map fun m => m.src.turn m.tgt m.label.env.now k

/-- The times at which the run rebroadcasts RREQs with the pair: that of the event, once for
each rebroadcast. -/
def relayTimes (t : List (Move World Turn)) (k : Pair) : List Time :=
  t.flatMap fun m => List.replicate (m.tgt.relayed k) m.label.env.now

/-- How many RREPs for the pair are sent in these moves, other than as the destination of the
RREQ. -/
def replyCount (t : List (Move World Turn)) (k : Pair) : Nat :=
  (t.map fun m => m.tgt.replied k).sum

/-- The moves are part of the life of one record for the pair: it is in the cache before each
of them but the first, which may insert it. -/
def RecordLives (t : List (Move World Turn)) (k : Pair) : Prop :=
  ∀ m ∈ t.tail, (m.src.idGet k.1 k.2).isSome = true

/-- No pair has two records, and the slots of all pairs have taken fair turns. -/
theorem Run.log (h : Run t w) :
    w.OneRecord ∧ ∀ k, Once.Log bcastIdSave (slotTurns t k) (w.slot k) := by
  induction h with
  | @start w hw =>
    have hb : w.bihead = [] := by rw [hw.initial]
    refine ⟨by simp [World.OneRecord, hb], fun k => ?_⟩
    have hslot : w.slot k = none := by simp [World.slot, World.idGet, hb]
    rw [hslot]
    exact .nil
  | @move t w w' τ _ hs ih =>
    obtain ⟨hone, hlog⟩ := ih
    obtain ⟨hone', hfair⟩ := handle_fair hs rfl hone
    refine ⟨hone', fun k => ?_⟩
    rw [slotTurns, List.map_append]
    exact (hlog k).snoc (e := w.turn w' τ.env.now k) (hfair k)

/-- At most one transmission per discovery: in every run of an agent whose clock never goes
back, and for every pair, the cache holds at most one record, two rebroadcasts are
`BCAST_ID_SAVE` apart, and at most one reply of another node's route is sent during the life
of one record. -/
theorem one_transmission (h : Run t w) (hclock : Clocked t) (k : Pair) :
    (w.bihead.filter (fun b => b.pair == k)).length ≤ 1 ∧
      (relayTimes t k).Pairwise (fun a b => a + bcastIdSave ≤ b) ∧
      ∀ u v x, t = u ++ v ++ x → RecordLives v k → replyCount v k ≤ 1 := by
  obtain ⟨hone, hlog⟩ := h.log
  refine ⟨?_, ?_, ?_⟩
  · have hcount := List.nodup_iff_count_le_one.mp hone k
    rwa [List.count, List.countP_map, List.countP_eq_length_filter] at hcount
  · have htimes : Once.times (slotTurns t k) = relayTimes t k := by
      rw [Once.times, slotTurns, relayTimes, List.flatMap_map]
      rfl
    rw [← htimes]
    exact (hlog k).spaced (List.pairwise_map.mpr hclock)
  · rintro u v x rfl hlives
    have hsplit : slotTurns (u ++ v ++ x) k =
        (slotTurns u k ++ slotTurns v k) ++ slotTurns x k := by
      simp [slotTurns]
    obtain ⟨r, hr⟩ := Once.Log.of_append (hsplit ▸ hlog k)
    have hmarks : Once.marks (slotTurns v k) = replyCount v k := by
      rw [Once.marks, slotTurns, List.map_map]
      rfl
    rw [← hmarks]
    refine hr.once fun e he => ?_
    rw [slotTurns, ← List.map_tail] at he
    obtain ⟨m, hm, rfl⟩ := List.mem_map.mp he
    rw [World.turn, World.slot, Option.isSome_map]
    exact hlives m hm

/-- Node 2 receives a RREQ of node 1 for node 3, the same RREQ again and the RREP of node 3. -/
def relayTwice : List Turn :=
  let rq : Packet :=
    { ih := { saddr := 1, daddr := ipBroadcast, sport := rtPort, dport := rtPort, ttl := 9 }
      body := .rreq { rqHopCount := 0, rqBcastId := 1, rqDst := 3, rqDstSeqno := 0, rqSrc := 1,
                      rqSrcSeqno := 4, rqTimestamp := 0 } }
  let rp : Packet :=
    { ih := { saddr := 3, daddr := 1, sport := rtPort, dport := rtPort, ttl := 9 }
      body := .rrep { rpHopCount := 0, rpDst := 3, rpDstSeqno := 2, rpSrc := 3, rpLifetime := 10,
                      rpBcastId := 1, rpFirstHop := 2 } }
  [⟨{ now := 0, inf := .mathH }, .recv rq⟩, ⟨{ now := 1, inf := .mathH }, .recv rq⟩,
    ⟨{ now := 2, inf := .mathH }, .recv rp⟩]

theorem run_relayTwice : Run (moves (idle 2) relayTwice) (final (idle 2) relayTwice) :=
  run_idle (by decide +kernel)

/-- In that run node 2 rebroadcasts the RREQ once and forwards the RREP. -/
theorem one_transmission_relayTwice :
    relayTimes (moves (idle 2) relayTwice) (1, 1) = [0] ∧
      replyCount (moves (idle 2) relayTwice) (1, 1) ≤ 1 := by
  refine ⟨by decide +kernel, ?_⟩
  have hclock : Clocked (moves (idle 2) relayTwice) := by
    have h : ((moves (idle 2) relayTwice).map fun m => m.label.env.now).Pairwise (· ≤ ·) := by
      decide +kernel
    exact List.pairwise_map.mp h
  refine (one_transmission run_relayTwice hclock (1, 1)).2.2 [] _ [] (by simp) ?_
  unfold RecordLives
  decide +kernel

end Agent

end Eamrp
