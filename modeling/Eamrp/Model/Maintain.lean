import Eamrp.Model.Transmit

/-!
# Route maintenance

Link failures, route resolution, expiry and neighbour loss: `eamrp.cc:391–601` and
`eamrp.cc:1643–1715`. The loops over the routing table run over the destinations in list
order; no loop body adds or removes an entry.
-/

namespace Eamrp

/-- The loop body of `handle_link_failure`, lines 402–428. -/
def linkFailureEntry (env : Env) (id : NsAddr) (s : World × HdrError) (dst : NsAddr) :
    Except Fault (World × HdrError) :=
  match s.1.rtLookup dst with
  | none => .ok s
  | some rt =>
    if rt.rtFlags = .up ∧ (rt.pathLookup id).isSome then
      if rt.rtSeqno % 2 ≠ 0 then .error .linkFailureSeqno
      else do
        let rt := rt.pathDelete id
        if ← rt.pathEmpty then
          let seqno := macroMax (rt.rtSeqno + 1) rt.rtHighestSeqnoHeard
          let re ← if rt.rtError then HdrError.add s.2 rt.rtDst seqno else .ok s.2
          let rt := { rt with rtSeqno := seqno, rtError := false }
          return (s.1.store (rt.rtDown env.inf), re)
        else return (s.1.store rt, s.2)
    else .ok s

/-- `handle_link_failure`, lines 391–439. -/
def handleLinkFailure (env : Env) (id : NsAddr) (w : World) : Except Fault World := do
  let (w, re) ← (w.rtable.map RtEntry.rtDst).foldlM (linkFailureEntry env id) (w, [])
  return if 0 < re.length then sendError env re false w else w

/-- `rt_resolve`, lines 487–552. -/
def rtResolve (env : Env) (p : AppPacket) (w : World) : Except Fault World := do
  let d := p.val.ih.daddr
  let w ← w.rtEnsure env d
  match w.rtLookup d with
  | none => .error .nullPath
  | some rt =>
    if rt.rtFlags = .up then
      if rt.rtHops = infinity2 then .error .upRouteHops
      else forward env (some d) p.val noEamrpDelay w
    else if p.val.ih.saddr = w.index then sendRequest env d (w.enque env p)
    else if rt.rtFlags = .inRepair then .ok (w.enque env p)
    else if rt.rtFlags ≠ .down then .error .resolveNotDown
    else do
      let re ← HdrError.add [] rt.rtDst rt.rtSeqno
      return (sendError env re false w).drop p.val .noRoute

/-- Lines 567–575 of `rt_purge`, after `path_purge` has run on an entry. -/
def RtEntry.expired (inf : Infinity) (rt : RtEntry) : RtEntry :=
  let seqno := macroMax (rt.rtSeqno + 1) rt.rtHighestSeqnoHeard
  let seqno := if seqno % 2 = 0 then seqno + 1 else seqno
  { rt with rtSeqno := seqno }.rtDown inf

/-- The loop body of `rt_purge`, lines 561–599, with the accumulated `delay`. -/
def rtPurgeEntry (env : Env) (s : World × Time) (dst : NsAddr) : Except Fault (World × Time) :=
  match s.1.rtLookup dst with
  | none => .ok s
  | some rt =>
    if rt.rtFlags = .up ∧ rt.rtExpire < env.now then do
      let rt := rt.pathPurge env.now
      if ← rt.pathEmpty then
        let w ← dropBuffered env dst .rtExpire s.1
        return (w.store (rt.expired env.inf), s.2)
      else return (s.1.store rt, s.2)
    else if rt.rtFlags = .up then
      if rt.rtHops = infinity2 then .error .upRouteHops
      else World.whileDeque env dst (fun p (w, delay) => do
          let w ← forward env (some dst) p.val delay w
          return (w, delay + arpDelay)) (s.1.rqueue.length + 1) s
    else if s.1.rqueue.find dst then do
      let w ← sendRequest env dst s.1
      return (w, s.2)
    else .ok s

/-- `rt_purge`, lines 554–601. -/
def rtPurge (env : Env) (w : World) : Except Fault World := do
  let (w, _) ← (w.rtable.map RtEntry.rtDst).foldlM (rtPurgeEntry env) (w, 0)
  return w

/-- `PriQueue::filter(id)`, `priqueue.cc:154–178`: unlink the first packet with this next
hop. -/
def filterIfqueue (id : NsAddr) (w : World) : Option Packet × World :=
  (w.ifqueue.find? (fun p => p.ch.nextHop == id),
    { w with ifqueue := w.ifqueue.eraseP (fun p => p.ch.nextHop == id) })

/-- Lines 1670–1681: salvage a packet over an alternate path, or drop it. -/
def salvage (env : Env) (p : Packet) (w : World) : Except Fault World :=
  if p.dataPacket = false then .ok (w.drop p .hello)
  else
    match w.rtLookup p.ih.daddr with
    | none => .ok (w.drop p .hello)
    | some rt =>
      if rt.rtFlags = .up ∧ p.ch.eamrpSalvageCount < eamrpMaxSalvageCount then
        let p := { p with ch := { p.ch with eamrpSalvageCount := p.ch.eamrpSalvageCount + 1 } }
        forward env (some p.ih.daddr) p noEamrpDelay w
      else .ok (w.drop p .hello)

/-- The `while` of lines 1669–1682. Every turn takes one packet out of the queue. -/
def whileFilter (env : Env) (id : NsAddr) : Nat → World → Except Fault World
  | 0, w => .ok w
  | n + 1, w =>
    match filterIfqueue id w with
    | (none, _) => .ok w
    | (some p, w) => do
      let w ← salvage env p w
      whileFilter env id n w

/-- `nb_delete`, lines 1647–1695. -/
def nbDelete (env : Env) (id : NsAddr) (w : World) : Except Fault World :=
  let w := w.setSeqno (w.seqno.toNat + 2)
  if w.seqno % 2 ≠ 0 then .error .nbDeleteSeqno
  else do
    let w := { w with nbhead := w.nbhead.eraseP (fun nb => nb.nbAddr == id) }
    let w ← handleLinkFailure env id w
    whileFilter env id (w.ifqueue.length + 1) w

/-- `nb_purge`, lines 1702–1715. -/
def nbPurge (env : Env) (w : World) : Except Fault World :=
  w.nbhead.foldlM (fun w nb => if nb.nbExpire ≤ env.now then nbDelete env nb.nbAddr w else .ok w)
    w

end Eamrp
