import Eamrp.Model.Maintain

/-!
# Packet reception routines

`eamrp.cc:607–1258`, `recvHello` (`eamrp.cc:1586–1610`) and the timers
(`eamrp.cc:148–179`), compiled with `EAMRP_NODE_DISJOINT_PATHS`. `handle` is one event
of the agent.
-/

namespace Eamrp

/-- Outcome of the route-update stage: the packet is freed and the handler returns, or it
goes on, with `reverse_path` (`forward_path`) set or null. -/
inductive Verdict where
  | discard
  | keep (path : Bool)
  deriving DecidableEq, Repr

/-- `(hop_count + 1) - path_get_min_hopcount()`, a signed difference of `int`s. -/
def hopSpread (hopCount : UInt8) (rt : RtEntry) : Int :=
  ((hopCount.toNat : Int) + 1) - (rt.pathGetMinHopcount.toNat : Int)

/-- `recvRequest`, lines 757–827: create or update the reverse route in the entry `rt0` for
the source of the RREQ. -/
def reverseRoute (env : Env) (a : Agent) (saddr : NsAddr) (rq : HdrRequest) (rt0 : RtEntry) :
    Except Fault (RtEntry × Verdict) :=
  let hopcount : UInt16 := rq.rqHopCount.toUInt16 + 1
  if rt0.rtSeqno < rq.rqSrcSeqno then
    .ok (rt0.renew env.inf rq.rqSrcSeqno saddr hopcount (env.now + revRouteLife) rq.rqFirstHop,
      .keep true)
  else if rt0.rtSeqno = rq.rqSrcSeqno ∧ rq.rqHopCount.toUInt16 < rt0.rtAdvertisedHops then
    if rt0.rtFlags ≠ .up then .error .requestDown
    else
      match rt0.disjointPathLookup saddr rq.rqFirstHop with
      | some reversePath =>
        if reversePath.hopcount ≠ hopcount then .error .requestHopcount
        else .ok (rt0.refreshPath saddr rq.rqFirstHop (env.now + revRouteLife), .keep true)
      | none =>
        if rt0.newDisjointPath saddr rq.rqFirstHop then
          let inserted : Bool := rt0.rtNumPaths < a.eamrpMaxPaths ∧
            hopSpread rq.rqHopCount rt0 ≤ a.eamrpPrimAltPathLenDiff
          let rt0 := if inserted then
              rt0.addPath saddr hopcount (env.now + revRouteLife) rq.rqFirstHop
            else rt0
          if a.eamrpPrimAltPathLenDiff < hopSpread rq.rqHopCount rt0 then .ok (rt0, .discard)
          else .ok (rt0, .keep inserted)
        else if rq.rqDst = a.index ∧
            (match rt0.pathLookupLasthop rq.rqFirstHop with
              | none => true
              | some erp => decide (erp.hopcount < hopcount)) = true then .ok (rt0, .discard)
        else .ok (rt0, .keep false)
  else .ok (rt0, .discard)

/-- `recvReply`, lines 1018–1063: create or update the forward route in the entry `rt` for
the destination that the RREP advertises. -/
def forwardRoute (env : Env) (a : Agent) (rp : HdrReply) (rt : RtEntry) :
    Except Fault (RtEntry × Verdict) :=
  let hopcount : UInt16 := rp.rpHopCount.toUInt16 + 1
  if rt.rtSeqno < rp.rpDstSeqno then
    .ok (rt.renew env.inf rp.rpDstSeqno rp.rpSrc hopcount (env.now + rp.rpLifetime) rp.rpFirstHop,
      .keep true)
  else if rt.rtSeqno = rp.rpDstSeqno ∧ rp.rpHopCount.toUInt16 < rt.rtAdvertisedHops then
    if rt.rtFlags ≠ .up then .error .replyDown
    else
      match rt.disjointPathLookup rp.rpSrc rp.rpFirstHop with
      | some forwardPath =>
        if forwardPath.hopcount ≠ hopcount then .error .replyHopcount
        else .ok (rt.refreshPath rp.rpSrc rp.rpFirstHop (env.now + rp.rpLifetime), .keep true)
      | none =>
        if rt.newDisjointPath rp.rpSrc rp.rpFirstHop = true ∧ rt.rtNumPaths < a.eamrpMaxPaths ∧
            hopSpread rp.rpHopCount rt ≤ a.eamrpPrimAltPathLenDiff then
          .ok (rt.addPath rp.rpSrc hopcount (env.now + rp.rpLifetime) rp.rpFirstHop, .keep true)
        else .ok (rt, .discard)
  else .ok (rt, .discard)

/-- Lines 830–846 and 1065–1095: when the route is up, reset its soft state and forward the
packets buffered for it. -/
def routeUp (env : Env) (d : NsAddr) (w : World) : Except Fault World :=
  match w.rtLookup d with
  | none => .error .nullPath
  | some rt =>
    if rt.rtFlags = .up then do
      let w := w.store rt.resetSoftState
      let (w, _) ← World.whileDeque env d (fun p (w, u) =>
          match w.rtLookup d with
          | none => .ok (w, u)
          | some rt =>
            if rt.rtFlags = .up then do
              let w ← forward env (some d) p.val noEamrpDelay w
              return (w, u)
            else .ok (w, u)) (w.rqueue.length + 1) (w, ())
      return w
    else .ok w

/-- Lines 853–859: the destination of a RREQ raises its own sequence number. -/
def World.raiseSeqno (rq : HdrRequest) (w : World) : World :=
  let w := if w.seqno < rq.rqDstSeqno then w.setSeqno (rq.rqDstSeqno.toNat + 1) else w
  if w.seqno % 2 ≠ 0 then w.setSeqno (w.seqno.toNat + 1) else w

/-- Lines 851–872: the destination of the RREQ replies. -/
def answerAsDestination (ih : HdrIp) (rq : HdrRequest) (w : World) : World :=
  let w := w.raiseSeqno rq
  sendReply rq.rqSrc 0 w.index w.seqno myRouteTimeout rq.rqTimestamp ih.saddr rq.rqBcastId
    ih.saddr w

/-- Lines 875–946: reply from the entry `rt` for the destination of the RREQ. -/
def answerFromRoute (env : Env) (ih : HdrIp) (rq : HdrRequest) (reversePath : Bool)
    (rt : RtEntry) (w : World) : Except Fault World :=
  if rt.rtSeqno % 2 ≠ 0 then .error .answerSeqno
  else if reversePath = false then .ok w
  else
    match w.idGet rq.rqSrc rq.rqBcastId with
    | none => .error .nullPath
    | some b =>
      if b.count = 0 then
        let w := w.idCount rq.rqSrc rq.rqBcastId
        let rt := rt.advertise env.inf
        match rt.pathFind with
        | none => .error .nullPath
        | some forwardPath =>
          let rt := { rt with rtError := true }
          .ok (sendReply rq.rqSrc rt.rtAdvertisedHops.toUInt32 rq.rqDst rt.rtSeqno
            (forwardPath.expire - env.now) rq.rqTimestamp ih.saddr rq.rqBcastId
            forwardPath.lasthop (w.store rt))
      else .ok w

/-- Lines 957–971: rebroadcast the RREQ, advertising the reverse route `rt0`. -/
def rebroadcast (env : Env) (p : Packet) (rq : HdrRequest) (rt : Option RtEntry)
    (w : World) : Except Fault World :=
  match w.rtLookup rq.rqSrc with
  | none => .error .nullPath
  | some rt0 =>
    let dstSeqno := match rt with
      | some rt => macroMax rt.rtSeqno rq.rqDstSeqno
      | none => rq.rqDstSeqno
    let rt0 := rt0.advertise env.inf
    match rt0.pathFind with
    | none => .error .nullPath
    | some first =>
      let rq := { rq with
        rqDstSeqno := dstSeqno
        rqHopCount := rt0.rtAdvertisedHops.toUInt8
        rqFirstHop := first.lasthop }
      forward env none { p with ih := { p.ih with saddr := w.index }, body := .rreq rq } eamrpDelay
        (w.store rt0)

/-- `recvRequest`, lines 847–973: answer the RREQ, rebroadcast it, or end its propagation. -/
def answerRequest (env : Env) (p : Packet) (rq : HdrRequest) (kill reversePath : Bool)
    (w : World) : Except Fault World :=
  let rt := w.rtLookup rq.rqDst
  if rq.rqDst = w.index then .ok (answerAsDestination p.ih rq w)
  else
    match rt.filter (fun e => decide (e.rtFlags = .up ∧ rq.rqDstSeqno ≤ e.rtSeqno)) with
    | some e => answerFromRoute env p.ih rq reversePath e w
    | none => if kill then .ok w else rebroadcast env p rq rt w

/-- `recvRequest`, lines 703–974. -/
def recvRequest (env : Env) (p : Packet) (rq : HdrRequest) (w : World) : Except Fault World :=
  if rq.rqSrc = w.index then .ok w
  else do
    let kill := (w.idGet rq.rqSrc rq.rqBcastId).isSome
    let w := if kill then w else w.idInsert env rq.rqSrc rq.rqBcastId
    let rq := if rq.rqHopCount = 0 then { rq with rqFirstHop := w.index } else rq
    let w ← w.rtEnsure env rq.rqSrc
    match w.rtLookup rq.rqSrc with
    | none => .error .nullPath
    | some rt0 =>
      let (rt0, verdict) ← reverseRoute env w.toAgent p.ih.saddr rq rt0
      let w := w.store rt0
      match verdict with
      | .discard => return w
      | .keep reversePath =>
        let w ← routeUp env rq.rqSrc w
        answerRequest env p rq kill reversePath w

/-- `recvReply`, lines 1096–1134: forward the RREP towards its destination. -/
def forwardReply (env : Env) (p : Packet) (rp : HdrReply) (w : World) : Except Fault World :=
  if p.ih.daddr = w.index then .ok w
  else
    match w.rtLookup p.ih.daddr, w.idGet p.ih.daddr rp.rpBcastId with
    | some rt0, some b =>
      if rt0.rtFlags ≠ .up ∨ b.count ≠ 0 then .ok w
      else
        let w := w.idCount p.ih.daddr rp.rpBcastId
        match rt0.pathFind, w.rtLookup rp.rpDst with
        | some reversePath, some rt =>
          let w := w.store (rt.advertise env.inf)
          match rt.pathFind with
          | none => .error .nullPath
          | some first =>
            let rp := { rp with
              rpSrc := w.index
              rpHopCount := (rt.advertise env.inf).rtAdvertisedHops.toUInt8
              rpFirstHop := first.lasthop }
            let p := { p with
              ch := { p.ch with addrType := .inet, nextHop := reversePath.nexthop }
              body := .rrep rp }
            match w.rtLookup p.ih.daddr with
            | none => .error .nullPath
            | some rt0 =>
              let w := w.store (rt0.touchFirst env.now)
              match w.rtLookup rp.rpDst with
              | none => .error .nullPath
              | some rt =>
                forward env (some p.ih.daddr) p noEamrpDelay (w.store { rt with rtError := true })
        | _, _ => .error .nullPath
    | _, _ => .ok w

/-- `recvReply`, lines 977–1189. -/
def recvReply (env : Env) (p : Packet) (rp : HdrReply) (w : World) : Except Fault World :=
  if rp.rpDst = w.index then .ok w
  else do
    let w ← w.rtEnsure env rp.rpDst
    match w.rtLookup rp.rpDst with
    | none => .error .nullPath
    | some rt =>
      let (rt, verdict) ← forwardRoute env w.toAgent rp rt
      let w := w.store rt
      match verdict with
      | .discard => return w
      | .keep _ =>
        let w ← routeUp env rp.rpDst w
        forwardReply env p rp w

/-- The loop body of `recvError`, lines 1210–1245. -/
def errorEntry (env : Env) (saddr : NsAddr) (s : World × HdrError) (u : NsAddr × UInt32) :
    Except Fault (World × HdrError) :=
  match s.1.rtLookup u.1 with
  | none => .ok s
  | some rt =>
    if rt.rtFlags = .up ∧ (rt.pathLookup saddr).isSome ∧ rt.rtSeqno ≤ u.2 then
      if rt.rtSeqno % 2 ≠ 0 then .error .errorSeqno
      else do
        let rt := rt.pathDelete saddr
        let rt := { rt with rtHighestSeqnoHeard := macroMax rt.rtHighestSeqnoHeard u.2 }
        if ← rt.pathEmpty then
          let rt := { rt with rtSeqno := rt.rtHighestSeqnoHeard }.rtDown env.inf
          let nre ← if rt.rtError then HdrError.add s.2 rt.rtDst rt.rtSeqno else .ok s.2
          return (s.1.store { rt with rtError := false }, nre)
        else return (s.1.store rt, s.2)
    else .ok s

/-- `recvError`, lines 1192–1258. -/
def recvError (env : Env) (p : Packet) (re : HdrError) (w : World) : Except Fault World := do
  let (w, nre) ← re.foldlM (errorEntry env p.ih.saddr) (w, [])
  return if 0 < nre.length then sendError env nre true w else w

/-- `recvHello`, lines 1586–1610. -/
def recvHello (env : Env) (p : Packet) (rp : HdrReply) (w : World) : Except Fault World :=
  let w := match w.nbLookup rp.rpDst with
    | none => w.nbInsert env rp.rpDst
    | some _ => w.nbRefresh rp.rpDst (env.now + 3 / 2 * allowedHelloLoss * helloInterval)
  let p := { p with ih := { p.ih with daddr := w.index } }
  recvReply env p { rp with rpSrc := p.ih.saddr, rpFirstHop := w.index } w

/-- `recvEAMRP`, lines 665–699. -/
def recvEamrp (env : Env) (p : Packet) (w : World) : Except Fault World :=
  if p.ih.sport ≠ rtPort ∨ p.ih.dport ≠ rtPort then .error .port
  else
    match p.body with
    | .rreq rq => recvRequest env p rq w
    | .rrep rp => recvReply env p rp w
    | .rerr re => recvError env p re w
    | .hello rp => recvHello env p rp w
    | .unknown _ => .error .unknownType
    | .app _ => .error .unknownType

/-- `recv`, lines 623–661, on a packet of another protocol. -/
def recvApp (env : Env) (p : AppPacket) (w : World) : Except Fault World :=
  let route (p : AppPacket) : Except Fault World :=
    if p.val.ih.daddr ≠ ipBroadcast then rtResolve env p w
    else forward env none p.val noEamrpDelay w
  if p.val.ih.saddr = w.index ∧ p.val.ch.numForwards = 0 then
    let p := p.withCmn { p.val.ch with eamrpSalvageCount := 0 }
    route (if p.val.ih.daddr ≠ ipBroadcast then
      p.withIp { p.val.ih with ttl := networkDiameter } else p)
  else if p.val.ih.saddr = w.index then .ok (w.drop p.val .routeLoop)
  else
    let p := p.withIp { p.val.ih with ttl := p.val.ih.ttl - 1 }
    if p.val.ih.ttl = 0 then .ok (w.drop p.val .ttl) else route p

/-- `recv`, lines 607–662. -/
def recv (env : Env) (p : Packet) (w : World) : Except Fault World :=
  if h : p.isEamrp = false then recvApp env ⟨p, h⟩ w
  else recvEamrp env { p with ih := { p.ih with ttl := p.ih.ttl - 1 } } w

/-- What can happen to an agent: a packet handed to `recv`, the link-layer callback, a
timer, or other parts of the node changing the content of the interface queue. -/
inductive Input where
  | recv (p : Packet)
  | rtLlFailed (p : Packet)
  | broadcastTimer
  | helloTimer
  | neighborTimer
  | routeCacheTimer
  | ifqueue (q : List Packet)
  deriving DecidableEq

/-- One event of the agent. Without `EAMRP_LINK_LAYER_DETECTION`, `rt_ll_failed` only drops
its packet (line 308). -/
def handle (env : Env) (inp : Input) (w : World) : Except Fault World :=
  match inp with
  | .recv p => recv env p w
  | .rtLlFailed p => .ok (w.drop p .macCallback)
  | .broadcastTimer => .ok (w.idPurge env)
  | .helloTimer => .ok (if w.rtable.rtHasActiveRoute then sendHello w else w)
  | .neighborTimer => nbPurge env w
  | .routeCacheTimer => rtPurge env w
  | .ifqueue q => .ok { w with ifqueue := q }

end Eamrp
