import Eamrp.Model.Receive
import Eamrp.Lib.Exec

/-!
# Elementary steps of an agent

Everything a handler does to the routing table, to the node's own sequence number and to
the medium, as small guarded steps. `EntryStep` lists the ways in which one routing-table
entry changes, `Speaks` the packets an agent hands to `target_`, and `Step` one elementary
step of the agent. `Eamrp.Abs.Follows` shows that the handlers take no other steps; the
invariants of the protocol are then proved step by step.
-/

namespace Eamrp

/-- What a packet tells node `i` about the way to the destination it advertises: the
arguments that reach the route-update stages. -/
structure Advert where
  dst : NsAddr
  seqno : UInt32
  hops : UInt8
  via : NsAddr
  first : NsAddr
  life : Time
  deriving DecidableEq

/-- A RREQ advertises its source, a RREP its destination and a HELLO its sender. -/
def Packet.advert (i : NsAddr) (p : Packet) : Option Advert :=
  match p.body with
  | .rreq rq => some ⟨rq.rqSrc, rq.rqSrcSeqno, rq.rqHopCount, p.ih.saddr,
      if rq.rqHopCount = 0 then i else rq.rqFirstHop, revRouteLife⟩
  | .rrep rp => some ⟨rp.rpDst, rp.rpDstSeqno, rp.rpHopCount, rp.rpSrc, rp.rpFirstHop,
      rp.rpLifetime⟩
  | .hello rp => some ⟨rp.rpDst, rp.rpDstSeqno, rp.rpHopCount, p.ih.saddr, i, rp.rpLifetime⟩
  | _ => none

/-- The hop count of a path over the sender of an advertisement. -/
def Advert.hopcount (A : Advert) : UInt16 := A.hops.toUInt16 + 1

/-- The packet being handled, if any, tells the agent this. -/
def Hears (heard : Input) (i : NsAddr) (A : Advert) : Prop :=
  ∃ p, heard = .recv p ∧ p.advert i = some A

/-- The packet being handled is a RERR from `x` that lists `d` with number `n`. -/
def HearsError (heard : Input) (x d : NsAddr) (n : UInt32) : Prop :=
  ∃ p re, heard = .recv p ∧ p.body = .rerr re ∧ p.ih.saddr = x ∧ (d, n) ∈ re

/-- The packet being handled is this RREQ. -/
def HearsRequest (heard : Input) (rq : HdrRequest) : Prop :=
  ∃ p, heard = .recv p ∧ p.body = .rreq rq

/-- No routing packet is being handled. -/
def Unprompted (heard : Input) : Prop := ∀ q, heard = .recv q → q.isEamrp = false

/-- The broadcast-id cache is written. -/
def Caches (heard : Input) : Prop :=
  heard = .broadcastTimer ∨
    ∃ q, heard = .recv q ∧ ((∃ rq, q.body = .rreq rq) ∨ ∃ rp, q.body = .rrep rp)

/-- The neighbour cache is written. -/
def CachesNeighbors (heard : Input) : Prop :=
  heard = .neighborTimer ∨ ∃ q, heard = .recv q ∧ ∃ rp, q.body = .hello rp

namespace RtEntry

/-- Equality up to the bookkeeping of route requests, `rt_error` and a reset `rt_expire`. -/
structure SameRoute (e e' : RtEntry) : Prop where
  rtDst : e'.rtDst = e.rtDst
  rtHops : e'.rtHops = e.rtHops
  rtFlags : e'.rtFlags = e.rtFlags
  rtSeqno : e'.rtSeqno = e.rtSeqno
  rtAdvertisedHops : e'.rtAdvertisedHops = e.rtAdvertisedHops
  rtPathList : e'.rtPathList = e.rtPathList
  rtHighestSeqnoHeard : e'.rtHighestSeqnoHeard = e.rtHighestSeqnoHeard
  rtNumPaths : e'.rtNumPaths = e.rtNumPaths
  rtExpire : e'.rtExpire = e.rtExpire ∨ e'.rtExpire = 0
  pathsDeleted : e'.pathsDeleted = e.pathsDeleted

/-- Lines 410–425 of `handle_link_failure`, on an entry without paths. -/
def failed (inf : Infinity) (e : RtEntry) : RtEntry :=
  { e with rtSeqno := macroMax (e.rtSeqno + 1) e.rtHighestSeqnoHeard, rtError := false }.rtDown inf

/-- Line 1231 of `recvError`. -/
def heardError (n : UInt32) (e : RtEntry) : RtEntry :=
  { e with rtHighestSeqnoHeard := macroMax e.rtHighestSeqnoHeard n }

/-- Lines 1233–1241 of `recvError`, on an entry without paths. -/
def withdrawn (inf : Infinity) (e : RtEntry) : RtEntry :=
  { { e with rtSeqno := e.rtHighestSeqnoHeard }.rtDown inf with rtError := false }

end RtEntry

/-- The ways in which a handler changes one entry. -/
inductive EntryStep (env : Env) (a : Agent) (heard : Input) :
    RtEntry → RtEntry → Prop where
  /-- Request bookkeeping, `rt_error`. -/
  | soft {e e' : RtEntry} (h : e.SameRoute e') : EntryStep env a heard e e'
  /-- The first path is used. -/
  | touch {e : RtEntry} (hup : e.rtFlags = .up) : EntryStep env a heard e (e.touchFirst env.now)
  /-- A known path is heard again. -/
  | refresh {e : RtEntry} {A : Advert} (hA : Hears heard a.index A) (hd : A.dst = e.rtDst)
      (hup : e.rtFlags = .up) (hs : e.rtSeqno = A.seqno)
      (hh : A.hops.toUInt16 < e.rtAdvertisedHops) {p : Path}
      (hp : e.disjointPathLookup A.via A.first = some p) (hc : p.hopcount = A.hopcount) :
      EntryStep env a heard e (e.refreshPath A.via A.first (env.now + A.life))
  /-- A newer sequence number is heard. -/
  | renew {e : RtEntry} {A : Advert} (hA : Hears heard a.index A) (hd : A.dst = e.rtDst)
      (hne : A.dst ≠ a.index) (hs : e.rtSeqno < A.seqno) :
      EntryStep env a heard e
        (e.renew env.inf A.seqno A.via A.hopcount (env.now + A.life) A.first)
  /-- A disjoint alternate path is heard. -/
  | add {e : RtEntry} {A : Advert} (hA : Hears heard a.index A) (hd : A.dst = e.rtDst)
      (hup : e.rtFlags = .up) (hs : e.rtSeqno = A.seqno)
      (hh : A.hops.toUInt16 < e.rtAdvertisedHops) (hn : e.newDisjointPath A.via A.first = true)
      (hm : e.rtNumPaths < a.eamrpMaxPaths)
      (hl : hopSpread A.hops e ≤ a.eamrpPrimAltPathLenDiff) :
      EntryStep env a heard e (e.addPath A.via A.hopcount (env.now + A.life) A.first)
  /-- The route is advertised. -/
  | freeze {e : RtEntry} (hup : e.rtFlags = .up) : EntryStep env a heard e (e.advertise env.inf)
  /-- One of several paths is lost with a neighbour. -/
  | lose {e : RtEntry} {id : NsAddr} (hup : e.rtFlags = .up)
      (hp : (e.pathLookup id).isSome = true) (hne : (e.pathDelete id).rtPathList ≠ []) :
      EntryStep env a heard e (e.pathDelete id)
  /-- The only path is lost with a neighbour. -/
  | fail {e : RtEntry} {id : NsAddr} (hup : e.rtFlags = .up) (hev : e.rtSeqno % 2 = 0)
      (hp : (e.pathLookup id).isSome = true) (hnil : (e.pathDelete id).rtPathList = []) :
      EntryStep env a heard e ((e.pathDelete id).failed env.inf)
  /-- A RERR takes one of several paths. -/
  | hear {e : RtEntry} {id : NsAddr} {n : UInt32} (hE : HearsError heard id e.rtDst n)
      (hup : e.rtFlags = .up) (hs : e.rtSeqno ≤ n) (hp : (e.pathLookup id).isSome = true)
      (hne : (e.pathDelete id).rtPathList ≠ []) :
      EntryStep env a heard e ((e.pathDelete id).heardError n)
  /-- A RERR takes the only path. -/
  | withdraw {e : RtEntry} {id : NsAddr} {n : UInt32} (hE : HearsError heard id e.rtDst n)
      (hup : e.rtFlags = .up) (hs : e.rtSeqno ≤ n) (hev : e.rtSeqno % 2 = 0)
      (hp : (e.pathLookup id).isSome = true) (hnil : (e.pathDelete id).rtPathList = []) :
      EntryStep env a heard e (((e.pathDelete id).heardError n).withdrawn env.inf)
  /-- Some paths expire. -/
  | purge {e : RtEntry} (hup : e.rtFlags = .up) (hne : (e.pathPurge env.now).rtPathList ≠ []) :
      EntryStep env a heard e (e.pathPurge env.now)
  /-- All paths expire. -/
  | expire {e : RtEntry} (hup : e.rtFlags = .up)
      (hnil : (e.pathPurge env.now).rtPathList = []) :
      EntryStep env a heard e ((e.pathPurge env.now).expired env.inf)

/-- The entry `e`, whose first path is `path`, is what the node advertises for a destination
other than itself. -/
structure Advertises (inf : Infinity) (w : World) (e : RtEntry) (path : Path) : Prop where
  lookup : w.rtLookup e.rtDst = some e
  notSelf : e.rtDst ≠ w.index
  up : e.rtFlags = .up
  frozen : e.advertise inf = e
  first : e.pathFind = some path

/-- The packets that a handler hands to `target_`. -/
inductive Speaks (env : Env) (heard : Input) (w : World) : Packet → Prop where
  /-- A packet of another protocol. -/
  | app {p : Packet} (h : p.isEamrp = false) : Speaks env heard w p
  /-- A RREQ of the node's own. -/
  | request {ttl : Int} {bid : UInt32} {now : Time} {e : RtEntry}
      (hq : Unprompted heard) (h : w.rtLookup e.rtDst = some e) (hdown : e.rtFlags ≠ .up) :
      Speaks env heard w (requestPacket w.index ttl bid e.rtDst e.rtSeqno w.seqno now)
  /-- A rebroadcast RREQ. -/
  | relay {q : Packet} {rq : HdrRequest} {e : RtEntry} {path : Path} {n : UInt32} {ch : HdrCmn}
      (hq : heard = .recv q) (hb : q.body = .rreq rq) (ha : Advertises env.inf w e path)
      (hd : rq.rqSrc = e.rtDst) (hs : e.rtSeqno = rq.rqSrcSeqno) (hdst : rq.rqDst ≠ w.index)
      (hn : rq.rqDstSeqno ≤ n)
      (hn' : n = rq.rqDstSeqno ∨ ∃ f, w.rtLookup rq.rqDst = some f ∧ n = f.rtSeqno) :
      Speaks env heard w
        { ih := { q.ih with saddr := w.index }
          ch := ch
          body := .rreq { rq with
            rqDstSeqno := n
            rqHopCount := e.rtAdvertisedHops.toUInt8
            rqFirstHop := path.lasthop } }
  /-- A RREP of the destination of a RREQ, over the node that delivered the RREQ. -/
  | answer {q p : Packet} {rq : HdrRequest} {rp : HdrReply} (hq : heard = .recv q)
      (hb : q.body = .rreq rq) (hdst : rq.rqDst = w.index) (hp : p.body = .rrep rp)
      (hs : w.seqnoWrapped = false → rq.rqDstSeqno ≤ w.seqno) (hnh : p.ch.nextHop = q.ih.saddr)
      (hat : p.ch.addrType = .inet) (hda : p.ih.daddr = rq.rqSrc)
      (hrp : rp = { rpHopCount := 0, rpDst := w.index, rpDstSeqno := w.seqno, rpSrc := w.index,
                    rpLifetime := myRouteTimeout, rpTimestamp := rq.rqTimestamp,
                    rpBcastId := rq.rqBcastId, rpFirstHop := q.ih.saddr }) :
      Speaks env heard w p
  /-- A RREP of an intermediate node. -/
  | answerFrom {q p : Packet} {rq : HdrRequest} {rp : HdrReply} {e : RtEntry} {path : Path}
      (hq : heard = .recv q) (hb : q.body = .rreq rq) (ha : Advertises env.inf w e path)
      (hd : rq.rqDst = e.rtDst) (hev : e.rtSeqno % 2 = 0) (hs : rq.rqDstSeqno ≤ e.rtSeqno)
      (hp : p.body = .rrep rp) (hda : p.ih.daddr = rq.rqSrc)
      (hrp : rp = { rpHopCount := e.rtAdvertisedHops.toUInt8, rpDst := e.rtDst,
                    rpDstSeqno := e.rtSeqno, rpSrc := w.index,
                    rpLifetime := path.expire - env.now, rpTimestamp := rq.rqTimestamp,
                    rpBcastId := rq.rqBcastId, rpFirstHop := path.lasthop }) :
      Speaks env heard w p
  /-- A forwarded RREP. -/
  | forwardReply {q p : Packet} {rp : HdrReply} {e : RtEntry} {path : Path}
      (hq : heard = .recv q) (hb : q.body = .rrep rp) (ha : Advertises env.inf w e path)
      (hd : rp.rpDst = e.rtDst) (hs : e.rtSeqno = rp.rpDstSeqno)
      (hp : p.body = .rrep { rp with
        rpSrc := w.index
        rpHopCount := e.rtAdvertisedHops.toUInt8
        rpFirstHop := path.lasthop }) :
      Speaks env heard w p
  /-- A RERR that lists entries which are down. -/
  | rerr {p : Packet} {re : HdrError} (hp : p.body = .rerr re) (hsa : p.ih.saddr = w.index)
      (hre : ∀ u ∈ re, ∃ e, w.rtLookup u.1 = some e ∧ e.rtFlags = .down ∧ e.rtSeqno = u.2) :
      Speaks env heard w p
  /-- A HELLO. -/
  | hello {p : Packet} {rp : HdrReply} (hp : p.body = .hello rp) (hsa : p.ih.saddr = w.index)
      (hrp : rp = { rpHopCount := 0, rpDst := w.index, rpDstSeqno := w.seqno,
                    rpLifetime := (1 + allowedHelloLoss) * helloInterval }) :
      Speaks env heard w p

/-- Nothing the routing protocol depends on has changed. -/
structure World.SameRouting (w w' : World) : Prop where
  index : w'.index = w.index
  seqno : w'.seqno = w.seqno
  seqnoWrapped : w'.seqnoWrapped = w.seqnoWrapped
  rtable : w'.rtable = w.rtable
  eamrpMaxPaths : w'.eamrpMaxPaths = w.eamrpMaxPaths
  bihead : w'.bihead = w.bihead
  eamrpPrimAltPathLenDiff : w'.eamrpPrimAltPathLenDiff = w.eamrpPrimAltPathLenDiff
  sent : w'.sent = w.sent

/-- One elementary step of an agent that handles `heard`. -/
inductive Step (env : Env) (heard : Input) : World → World → Prop where
  | entry {w : World} {e e' : RtEntry} (h : w.rtLookup e.rtDst = some e)
      (hs : EntryStep env w.toAgent heard e e') : Step env heard w (w.store e')
  | rtAdd {w w' : World} {d : NsAddr} (h : w.rtAdd env d = .ok w') : Step env heard w w'
  | bumpSeqno {w : World} : Step env heard w (w.setSeqno (w.seqno.toNat + 2))
  | raiseSeqno {w : World} {rq : HdrRequest} (h : HearsRequest heard rq)
      (hd : rq.rqDst = w.index) : Step env heard w (w.raiseSeqno rq)
  | frame {w w' : World} (h : w.SameRouting w') (hnb : w'.nbhead = w.nbhead) :
      Step env heard w w'
  | cache {w : World} (h : Caches heard) (b : List BroadcastId) :
      Step env heard w { w with bihead := b }
  | neighbors {w : World} (h : CachesNeighbors heard) (l : List Neighbor) :
      Step env heard w { w with nbhead := l }
  | send {w : World} {p : Packet} {delay : Time} (h : Speaks env heard w p) :
      Step env heard w (w.send p delay)

/-- What must be wrong with the agent for a fault to occur. -/
def Blame (heard : Input) (w : World) : Fault → Prop
  | .linkFailureSeqno | .answerSeqno | .errorSeqno =>
    ∃ d e, w.rtLookup d = some e ∧ e.rtFlags = .up ∧ e.rtSeqno % 2 ≠ 0
  | .requestSeqno | .nbDeleteSeqno => w.seqno % 2 ≠ 0
  | .requestDown | .replyDown =>
    ∃ A e, Hears heard w.index A ∧ w.rtLookup A.dst = some e ∧ e.rtSeqno = A.seqno ∧
      A.hops.toUInt16 < e.rtAdvertisedHops ∧ e.rtFlags ≠ .up
  | .requestHopcount | .replyHopcount =>
    ∃ A e p, Hears heard w.index A ∧ w.rtLookup A.dst = some e ∧ e.rtSeqno = A.seqno ∧
      e.disjointPathLookup A.via A.first = some p ∧ p.hopcount ≠ A.hopcount
  | .upRouteHops => ∃ d e, w.rtLookup d = some e ∧ e.rtFlags = .up ∧ e.rtHops = infinity2
  | .pathCountPositive | .pathCountZero =>
    ∃ d e, w.rtLookup d = some e ∧ e.rtNumPaths ≠ e.rtPathList.length
  | .nullPath => ∃ d e, w.rtLookup d = some e ∧ e.rtFlags = .up ∧ e.rtPathList = []
  | _ => True

/-- A handler run, started in `w`, takes elementary steps only. -/
abbrev Runs (env : Env) (heard : Input) (w : World) (x : Except Fault World)
    (Q : World → Prop := fun _ => True) : Prop :=
  Lib.Follows (Step env heard) (Blame heard) id w x Q

end Eamrp
