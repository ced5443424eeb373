import Eamrp.Abs.Calls
import Eamrp.Abs.Deeds

/-!
# Asking for routes

What an entry says about route requests for its destination, as a state machine of its own. An
agent has such a machine for every destination; an entry that is still missing is in its first
state.
-/

namespace Eamrp

open Lib

/-- The request state of a destination: `rt_flags`, `rt_req_timeout`, `rt_req_cnt`,
`rt_req_last_ttl`, `rt_last_hop_count` and what `PerHopTime` makes of the entry. -/
structure Asking where
  up : Bool := false
  timeout : Time := 0
  cnt : UInt8 := 0
  lastTtl : Int := 0
  lastHops : Int := 255
  perHop : Time := nodeTraversalTime
  deriving DecidableEq

namespace Asking

/-- How far the last request or route went. -/
def reach (s : Asking) : Int := macroMax s.lastTtl s.lastHops

/-- The next request goes through the whole network. -/
def Wide (s : Asking) : Prop := s.reach ≠ 0 ∧ ttlThreshold ≤ s.reach

instance (s : Asking) : Decidable s.Wide := inferInstanceAs (Decidable (_ ∧ _))

/-- The TTL of the next request. -/
def ttl (s : Asking) : Int :=
  if s.Wide then networkDiameter else if s.reach = 0 then ttlStart else s.reach + ttlIncrement

/-- The number of network-wide requests after the next one. -/
def nextCnt (s : Asking) : UInt8 := if s.Wide then s.cnt + 1 else s.cnt

/-- How long a node waits after a request. -/
def wait (perHop : Time) (ttl : Int) (cnt : UInt8) : Time :=
  min maxRreqTimeout (2 * (ttl : Time) * perHop * max 1 (cnt.toNat : Time))

/-- A request is sent. -/
def sent (now : Time) (s : Asking) : Asking :=
  { s with timeout := now + wait s.perHop s.ttl s.nextCnt, cnt := s.nextCnt, lastTtl := s.ttl }

/-- The node gives up for a while. -/
def held (now : Time) (s : Asking) : Asking := { s with timeout := now + maxRreqTimeout, cnt := 0 }

/-- Nothing happens to requests. The route may be lost, and an alternate path may be added. -/
structure Rests (s s' : Asking) : Prop where
  timeout : s'.timeout = s.timeout
  cnt : s'.cnt = s.cnt
  lastTtl : s'.lastTtl = s.lastTtl
  up : s'.up = true → s.up = true
  lastHops : s'.lastHops = s.lastHops ∨ s'.up = true ∧ 0 ≤ s'.lastHops
  perHop : s'.perHop = s.perHop

/-- The route is up and the soft state has been reset. -/
structure Found (s s' : Asking) : Prop where
  up : s'.up = true
  timeout : s'.timeout = 0
  cnt : s'.cnt = 0
  lastTtl : s'.lastTtl = 0
  lastHops : s'.lastHops = s.lastHops ∨ 0 ≤ s'.lastHops
  perHop : s'.perHop = s.perHop

/-- One event: whether it asks for a route, and the TTLs of the requests that are sent. -/
inductive Turn (now : Time) (called : Prop) : Asking → Asking → List Int → Prop where
  | rest {s s' : Asking} (h : s.Rests s') (hq : called → s.up = false ∧ now < s.timeout) :
      Turn now called s s' []
  | found {s s' : Asking} (h : s.Found s') (hq : ¬ called) : Turn now called s s' []
  | send {s : Asking} (hc : called) (hdown : s.up = false) (ht : s.timeout ≤ now)
      (hcnt : ¬ rreqRetries < s.cnt) : Turn now called s (s.sent now) [s.ttl]
  | hold {s : Asking} (hc : called) (hdown : s.up = false) (ht : s.timeout ≤ now)
      (hcnt : rreqRetries < s.cnt) : Turn now called s (s.held now) []

/-- The factor of lines 1406–1407. -/
theorem mul_cnt (x : Time) (cnt : UInt8) :
    (if 0 < cnt then x * (cnt.toNat : Time) else x) = x * max 1 (cnt.toNat : Time) := by
  split
  · next h =>
    have hone : (1 : Time) ≤ cnt.toNat := by
      have hpos : 0 < cnt.toNat := UInt8.lt_iff_toNat_lt.mp h
      exact_mod_cast hpos
    rw [max_eq_right hone]
  · next h =>
    have hzero : cnt.toNat = 0 := by
      have hle : ¬ (0 : UInt8).toNat < cnt.toNat := fun hc => h (UInt8.lt_iff_toNat_lt.mpr hc)
      exact Nat.eq_zero_of_not_pos hle
    rw [hzero, Nat.cast_zero, max_eq_left zero_le_one, mul_one]

/-- The clamp of lines 1411–1412. -/
theorem clamp_add (now m x : Time) :
    (if now + m < x + now then now + m else x + now) = now + min m x := by
  split
  · next h => rw [min_eq_left (by linarith)]
  · next h =>
    rw [min_eq_right (by linarith)]
    ring

theorem Rests.refl (s : Asking) : s.Rests s := ⟨rfl, rfl, rfl, id, .inl rfl, rfl⟩

end Asking

/-! ### The machine of an entry -/

/-- The request state of an entry. -/
def RtEntry.asking (e : RtEntry) : Asking where
  up := decide (e.rtFlags = .up)
  timeout := e.rtReqTimeout
  cnt := e.rtReqCnt
  lastTtl := e.rtReqLastTtl
  lastHops := e.rtLastHopCount
  perHop := perHopTime (some e)

/-- The request state of a destination. -/
def World.asking (w : World) (d : NsAddr) : Asking :=
  ((w.rtLookup d).map RtEntry.asking).getD {}

namespace RtEntry

variable {now : Time} {e e' : RtEntry}

theorem SameRequest.perHopTime (h : e.SameRequest e') :
    perHopTime (some e') = Eamrp.perHopTime (some e) := by
  unfold Eamrp.perHopTime
  dsimp only
  rw [h.rtDiscLatency]

theorem Use.asking (h : e.Use now e') : e'.asking = e.asking := by
  unfold RtEntry.asking
  rw [h.rtFlags, h.rtReqTimeout, h.rtReqCnt, h.rtReqLastTtl, h.rtLastHopCount, h.perHopTime]

theorem Loss.rests (h : e.Loss now e') : e.asking.Rests e'.asking where
  timeout := h.rtReqTimeout
  cnt := h.rtReqCnt
  lastTtl := h.rtReqLastTtl
  up hup := by
    rcases h.rtFlags with hf | hf
    · simpa [RtEntry.asking, hf] using hup
    · simp [RtEntry.asking, hf] at hup
  lastHops := .inl h.rtLastHopCount
  perHop := h.perHopTime

/-- The TTL and the counter of lines 1381–1396. -/
theorem requestTtl_eq (e : RtEntry) : requestTtl e = (e.asking.ttl, e.asking.nextCnt) := by
  have hreach : e.asking.reach = macroMax e.rtReqLastTtl e.rtLastHopCount := rfl
  have hcnt : e.rtReqCnt = e.asking.cnt := rfl
  unfold requestTtl Asking.ttl Asking.nextCnt Asking.Wide
  dsimp only
  rw [← hreach, hcnt]
  by_cases h0 : e.asking.reach = 0
  · simp [h0]
  · by_cases hlt : e.asking.reach < ttlThreshold
    · simp [h0, Ne.symm h0, hlt, not_le.mpr hlt]
    · simp [h0, Ne.symm h0, hlt, not_lt.mp hlt]

/-- Lines 1381–1414. -/
theorem asking_requested (now : Time) (e : RtEntry) :
    (e.requested now).asking = e.asking.sent now := by
  have hperHop : perHopTime (some e) = e.asking.perHop := rfl
  have htimeout : (e.requested now).rtReqTimeout =
      now + Asking.wait e.asking.perHop e.asking.ttl e.asking.nextCnt := by
    unfold requested
    rw [requestTtl_eq, hperHop]
    dsimp only
    rw [Asking.mul_cnt, Asking.clamp_add, Asking.wait]
  have hcnt : (e.requested now).rtReqCnt = e.asking.nextCnt := by
    rw [requested, requestTtl_eq]
  have hlast : (e.requested now).rtReqLastTtl = e.asking.ttl := by
    rw [requested, requestTtl_eq]
  show Asking.mk _ _ _ _ _ _ = Asking.mk _ _ _ _ _ _
  rw [htimeout, hcnt, hlast]
  rfl

end RtEntry

/-! ### The machines of an agent -/

/-- A RREQ of node `i`, with its TTL. -/
def Packet.request? (i : NsAddr) (p : Packet) : Option (Int × HdrRequest) :=
  match p.body with
  | .rreq rq => if rq.rqSrc = i then some (p.ih.ttl, rq) else none
  | _ => none

theorem Packet.NoRequest.request? {p : Packet} {i : NsAddr} (h : p.NoRequest i) :
    p.request? i = none := by
  unfold Packet.request?
  split
  · next rq hb => exact if_neg (h rq hb)
  · rfl

namespace World

/-- The node's own RREQs with their TTLs, oldest first. -/
def requests (w : World) : List (Int × HdrRequest) := w.sent.filterMap (Packet.request? w.index)

/-- The TTLs of the node's own RREQs for `d`, oldest first. -/
def ttls (w : World) (d : NsAddr) : List Int :=
  (w.requests.filter fun r => decide (r.2.rqDst = d)).map Prod.fst

variable {w w' : World} {d : NsAddr}

theorem requests_of_out {l : List Effect} (hi : w'.index = w.index) (ho : w'.out = w.out ++ l) :
    w'.requests = w.requests ++ (l.filterMap Effect.sent?).filterMap (Packet.request? w.index) := by
  rw [requests, requests, sent, sent, hi, ho, List.filterMap_append, List.filterMap_append]

theorem Deeds.requests {T : RtEntry → RtEntry → Prop} (h : w.Deeds T w') :
    w'.requests = w.requests := by
  obtain ⟨l, hl, hno⟩ := h.out
  rw [requests_of_out h.index hl]
  suffices hnil : (l.filterMap Effect.sent?).filterMap (Packet.request? w.index) = [] by
    rw [hnil, List.append_nil]
  rw [List.filterMap_eq_nil_iff]
  intro p hp
  obtain ⟨x, hx, hs⟩ := List.mem_filterMap.mp hp
  apply Packet.NoRequest.request?
  intro rq hb hsrc
  apply hno x hx
  cases x with
  | target q delay =>
    obtain rfl := Option.some.inj hs
    exact ⟨rq, hb, hsrc⟩
  | drop => cases hs
  | dmux => cases hs

theorem Deeds.ttls {T : RtEntry → RtEntry → Prop} (h : w.Deeds T w') (d : NsAddr) :
    w'.ttls d = w.ttls d := by
  rw [World.ttls, h.requests, World.ttls]

theorem asking_of_some {e : RtEntry} (h : w.rtLookup d = some e) : w.asking d = e.asking := by
  rw [asking, h]
  rfl

theorem asking_of_none (h : w.rtLookup d = none) : w.asking d = {} := by
  rw [asking, h]
  rfl

theorem asking_congr (h : w'.rtLookup d = w.rtLookup d) : w'.asking d = w.asking d := by
  rw [asking, h, asking]

/-- Using routes does not matter for requests. -/
theorem Deeds.asking {now : Time} (h : w.Deeds (RtEntry.Use now) w') (d : NsAddr) :
    w'.asking d = w.asking d := by
  cases hd : w.rtLookup d with
  | none => rw [asking_of_none hd, asking_of_none (h.missing d hd)]
  | some e =>
    obtain ⟨e', he', hu⟩ := h.entry d e hd
    rw [asking_of_some hd, asking_of_some he', hu.asking]

/-- Losing routes leaves the request states. -/
theorem Deeds.rests {now : Time} (h : w.Deeds (RtEntry.Loss now) w') (d : NsAddr) :
    (w.asking d).Rests (w'.asking d) := by
  cases hd : w.rtLookup d with
  | none =>
    rw [asking_of_none hd, asking_of_none (h.missing d hd)]
    exact .refl _
  | some e =>
    obtain ⟨e', he', hl⟩ := h.entry d e hd
    rw [asking_of_some hd, asking_of_some he']
    exact hl.rests

theorem asking_fresh (d : NsAddr) (hops : UInt16) :
    RtEntry.asking { rtDst := d, rtHops := hops } = {} := rfl

/-- Looking up an entry, or adding it in its first state. -/
theorem asking_rtEnsure {env : Env} {d' : NsAddr} (h : w.rtEnsure env d' = .ok w')
    (d : NsAddr) : w'.asking d = w.asking d := by
  unfold rtEnsure at h
  split at h
  · obtain rfl := Except.ok.inj h
    rfl
  · obtain ⟨hnone, rfl⟩ := rtAdd_ok h
    by_cases hd : d' = d
    · subst hd
      rw [asking_of_none hnone]
      refine (asking_of_some ?_).trans (asking_fresh d' (env.rtHops d'))
      exact (RTable.rtLookup_cons _ _ _).trans (if_pos rfl)
    · exact asking_congr ((RTable.rtLookup_cons _ _ _).trans (if_neg hd))

/-- The RREQ of `sendRequest`. -/
theorem requests_request (env : Env) (e : RtEntry) (w : World) :
    ∃ rq : HdrRequest, (w.request env e).requests = w.requests ++ [(e.asking.ttl, rq)] ∧
      rq.rqSrc = w.index ∧ rq.rqDst = e.rtDst ∧
      rq.rqSrcSeqno = UInt32.ofNat (w.seqno.toNat + 2) := by
  let rq : HdrRequest :=
    { rqHopCount := 0, rqBcastId := w.bid.toUInt32, rqDst := e.rtDst, rqDstSeqno := e.rtSeqno,
      rqSrc := w.index, rqSrcSeqno := UInt32.ofNat (w.seqno.toNat + 2), rqTimestamp := env.now }
  have hi : (w.request env e).index = w.index := rfl
  have hout : (w.request env e).out = w.out ++ [.target (requestPacket w.index (requestTtl e).1
      w.bid.toUInt32 e.rtDst e.rtSeqno (UInt32.ofNat (w.seqno.toNat + 2)) env.now) 0] := rfl
  refine ⟨rq, (requests_of_out hi hout).trans ?_, rfl, rfl, rfl⟩
  rw [RtEntry.requestTtl_eq]
  simp [Effect.sent?, Packet.request?, requestPacket, rq]

end World

end Eamrp
