import Eamrp.Model.Agent

/-!
# Packet transmission routines

`eamrp.cc:1265–1583` and `PerHopTime`, `eamrp.cc:271–290`. A handler maps the world to the
world it leaves, or to the fault that ends the simulation.
-/

namespace Eamrp

/-- `forward`, lines 1265–1329. `rt` is the destination of the entry that the C++ pointer
addresses, `none` for the null pointer. `here_.addr_`, the address of the node that the
agent is attached to, is `index`. -/
def forward (env : Env) (rt : Option NsAddr) (p : Packet) (delay : Time) (w : World) :
    Except Fault World :=
  if p.ih.ttl = 0 then .ok (w.drop p .ttl)
  else if (p.isEamrp = false ∧ p.ch.direction = .up ∧ p.ih.daddr = ipBroadcast) ∨
      p.ih.daddr = w.index then .ok (w.emit (.dmux p))
  else
    match rt with
    | some d =>
      match w.rtLookup d with
      | none => .error .nullPath
      | some e =>
        if e.rtFlags ≠ .up then .error .forwardDown
        else
          match e.pathFind with
          | none => .error .nullPath
          | some path =>
            let e := e.touchFirst env.now
            let e := if p.ih.saddr ≠ w.index ∧ p.dataPacket = true then { e with rtError := true }
              else e
            let p := { p with
              ch := { p.ch with addrType := .inet, nextHop := path.nexthop, direction := .down } }
            if p.ih.daddr = ipBroadcast then .error .forwardBroadcast
            else .ok ((w.store e).send p (if 0 < delay then delay else 0))
    | none =>
      if p.ih.daddr ≠ ipBroadcast then .error .forwardUnicast
      else
        let p := { p with ch := { p.ch with addrType := .none, direction := .down } }
        .ok (w.send p (env.uniform / 100))

/-- `PerHopTime`, lines 271–290. -/
def perHopTime (rt : Option RtEntry) : Time :=
  match rt with
  | none => nodeTraversalTime
  | some e =>
    let nonZero := e.rtDiscLatency.filter (fun t => decide (0 < t))
    if 0 < nonZero.length then nonZero.sum / nonZero.length else nodeTraversalTime

/-- Lines 1366–1368 and 568–570: drop every packet that `deque(dst)` returns. -/
def dropBuffered (env : Env) (dst : NsAddr) (reason : DropReason) (w : World) :
    Except Fault World := do
  let (w, _) ← World.whileDeque env dst (fun p (w, u) => .ok (w.drop p.val reason, u))
    (w.rqueue.length + 1) (w, ())
  return w

/-- The RREQ that `sendRequest` fills out, lines 1424–1449. -/
def requestPacket (index : NsAddr) (ttl : Int) (bid : UInt32) (dst : NsAddr)
    (dstSeqno srcSeqno : UInt32) (now : Time) : Packet where
  ih := { saddr := index, daddr := ipBroadcast, sport := rtPort, dport := rtPort, ttl := ttl }
  ch := { addrType := .none }
  body := .rreq { rqHopCount := 0, rqBcastId := bid, rqDst := dst, rqDstSeqno := dstSeqno,
                  rqSrc := index, rqSrcSeqno := srcSeqno, rqTimestamp := now }

/-- Lines 1381–1396: the TTL of the next request and the number of network-wide ones. -/
def requestTtl (rt : RtEntry) : Int × UInt8 :=
  let last := macroMax rt.rtReqLastTtl rt.rtLastHopCount
  if 0 = last then (ttlStart, rt.rtReqCnt)
  else if last < ttlThreshold then (last + ttlIncrement, rt.rtReqCnt)
  else (networkDiameter, rt.rtReqCnt + 1)

/-- Lines 1381–1414: the request state that sending a RREQ leaves in the entry. -/
def RtEntry.requested (now : Time) (rt : RtEntry) : RtEntry :=
  let (ttl, cnt) := requestTtl rt
  let timeout := 2 * (ttl : Time) * perHopTime (some rt)
  let timeout := if 0 < cnt then timeout * (cnt.toNat : Time) else timeout
  let timeout := timeout + now
  let timeout := if now + maxRreqTimeout < timeout then now + maxRreqTimeout else timeout
  { rt with rtReqLastTtl := ttl, rtReqCnt := cnt, rtReqTimeout := timeout, rtExpire := 0 }

/-- `sendRequest`, lines 1332–1453. -/
def sendRequest (env : Env) (dst : NsAddr) (w : World) : Except Fault World :=
  match w.rtLookup dst with
  | none => .error .requestNoEntry
  | some rt =>
    if rt.rtFlags = .up then
      if rt.rtHops = infinity2 then .error .upRouteHops else .ok w
    else if env.now < rt.rtReqTimeout then .ok w
    else if rreqRetries < rt.rtReqCnt then
      let w := w.store { rt with rtReqTimeout := env.now + maxRreqTimeout, rtReqCnt := 0 }
      dropBuffered env dst .noRoute w
    else
      let bid := w.bid.toUInt32
      let w := w.store (rt.requested env.now)
      let w := { w with bid := w.bid + 1 }
      let w := w.setSeqno (w.seqno.toNat + 2)
      if (w.seqno % 2 : UInt32) ≠ 0 then .error .requestSeqno
      else .ok (w.send
        (requestPacket w.index (requestTtl rt).1 bid dst rt.rtSeqno w.seqno env.now) 0)

/-- `sendReply`, lines 1456–1501. -/
def sendReply (ipdst : NsAddr) (hopCount : UInt32) (rpdst : NsAddr) (rpseq : UInt32)
    (lifetime timestamp : Time) (nexthop : NsAddr) (bcastId : UInt32) (rpFirstHop : NsAddr)
    (w : World) : World :=
  w.send
    { ih := { saddr := w.index, daddr := ipdst, sport := rtPort, dport := rtPort,
              ttl := networkDiameter }
      ch := { addrType := .inet, nextHop := nexthop }
      body := .rrep { rpHopCount := hopCount.toUInt8, rpDst := rpdst, rpDstSeqno := rpseq,
                      rpSrc := w.index, rpLifetime := lifetime, rpTimestamp := timestamp,
                      rpBcastId := bcastId, rpFirstHop := rpFirstHop } } 0

/-- `sendError`, lines 1503–1542. -/
def sendError (env : Env) (re : HdrError) (jitter : Bool) (w : World) : World :=
  w.send
    { ih := { saddr := w.index, daddr := ipBroadcast, sport := rtPort, dport := rtPort,
              ttl := 1 }
      ch := { addrType := .none, nextHop := 0, direction := .down }
      body := .rerr re } (if jitter then env.uniform / 100 else 0)

/-- `sendHello`, lines 1549–1583. -/
def sendHello (w : World) : World :=
  w.send
    { ih := { saddr := w.index, daddr := ipBroadcast, sport := rtPort, dport := rtPort,
              ttl := 1 }
      ch := { addrType := .none }
      body := .hello { rpHopCount := 0, rpDst := w.index, rpDstSeqno := w.seqno,
                       rpLifetime := (1 + allowedHelloLoss) * helloInterval } } 0

/-- Append to the arrays of a RERR; `DestCount` is the length of the list. -/
def HdrError.add (re : HdrError) (dst : NsAddr) (seqno : UInt32) : Except Fault HdrError :=
  if re.length < eamrpMaxErrors then .ok (re ++ [(dst, seqno)]) else .error .errorOverflow

end Eamrp
