import Mathlib

/-!
# Packets and protocol constants

`EAMRP/eamrp/eamrp_packet.h`, `EAMRP/eamrp/eamrp.h:56–115` and the fields of
`EAMRP/common/packet.h:601–672` that the agent reads or writes. Header widths follow
the source: hop counts are 8 bits on the wire and 16 bits in the routing table,
sequence numbers are 32 bits. Simulated times are exact rationals.
-/

namespace Eamrp

/-- `nsaddr_t`; the agent only compares addresses. -/
abbrev NsAddr := Int

/-- `double` simulation times, as exact rationals. -/
abbrev Time := Rat

/-- `IP_BROADCAST`, cast to `nsaddr_t`. -/
def ipBroadcast : NsAddr := -1

/-- `RT_PORT`; `packet.h:51`. -/
def rtPort : Int := 255

/-! ### Constants of `eamrp.h` -/

/-- `MY_ROUTE_TIMEOUT`. -/
def myRouteTimeout : Time := 10
/-- `ACTIVE_ROUTE_TIMEOUT`. -/
def activeRouteTimeout : Time := 10
/-- `REV_ROUTE_LIFE`. -/
def revRouteLife : Time := 6
/-- `BCAST_ID_SAVE`. -/
def bcastIdSave : Time := 6
/-- `RREQ_RETRIES`. -/
def rreqRetries : UInt8 := 3
/-- `MAX_RREQ_TIMEOUT`. -/
def maxRreqTimeout : Time := 1
/-- `TTL_START`, with the expanding ring search switched on. -/
def ttlStart : Int := 5
/-- `TTL_INCREMENT`, with the expanding ring search switched on. -/
def ttlIncrement : Int := 2
/-- `TTL_THRESHOLD`. -/
def ttlThreshold : Int := 7
/-- `NETWORK_DIAMETER`. -/
def networkDiameter : Int := 30
/-- `EAMRP_DELAY`. -/
def eamrpDelay : Time := 1
/-- `NO_EAMRP_DELAY`. -/
def noEamrpDelay : Time := -1
/-- `ARP_DELAY`. -/
def arpDelay : Time := 1 / 100
/-- `HELLO_INTERVAL`. -/
def helloInterval : Time := 1
/-- `ALLOWED_HELLO_LOSS`. -/
def allowedHelloLoss : Time := 3
/-- `NODE_TRAVERSAL_TIME`. -/
def nodeTraversalTime : Time := 3 / 100
/-- `EAMRP_MAX_SALVAGE_COUNT`. -/
def eamrpMaxSalvageCount : Int := 10
/-- `EAMRP_MAX_ERRORS`; `eamrp_packet.h:8`. -/
def eamrpMaxErrors : Nat := 100
/-- `INFINITY2`; `eamrp_rtable.h:13`. -/
def infinity2 : UInt16 := 0xff

/-- The two readings of the macro `INFINITY`, whose own definition at `eamrp.h:96` is
commented out: the float of `<math.h>`, or the sentinel `0xff` of that comment. -/
inductive Infinity where
  | mathH
  | sentinel
  deriving DecidableEq, Repr

/-- Conversion of `INFINITY` to `u_int16_t`. -/
def Infinity.toU16 : Infinity → UInt16
  | .mathH => 65535
  | .sentinel => 0xff

/-- Comparison of a `u_int16_t` with `INFINITY`. -/
def Infinity.eqU16 : Infinity → UInt16 → Bool
  | .mathH, _ => false
  | .sentinel, h => h == 0xff

/-- The macro `max(a,b)` of `eamrp.cc:11`. -/
def macroMax {α : Type} [LT α] [DecidableLT α] (a b : α) : α := if b < a then a else b

/-! ### Headers -/

/-- `hdr_cmn::dir_t`. -/
inductive Direction where
  | down
  | none
  | up
  deriving DecidableEq, Repr

/-- `ns_af_enum`; the link layer broadcasts `NS_AF_NONE` and resolves `NS_AF_INET`. -/
inductive AddrType where
  | none
  | ilink
  | inet
  deriving DecidableEq, Repr

/-- The IP header fields the agent uses; defaults are those of `Packet::alloc`. -/
structure HdrIp where
  saddr : NsAddr := 0
  daddr : NsAddr := 0
  sport : Int := 0
  dport : Int := 0
  ttl : Int := 0
  deriving DecidableEq, Repr

/-- The common header fields the agent uses; defaults are those of `Packet::alloc`. -/
structure HdrCmn where
  direction : Direction := .down
  addrType : AddrType := .none
  nextHop : NsAddr := -2
  numForwards : Int := 0
  eamrpSalvageCount : Int := 0
  ts : Time := 0
  deriving DecidableEq, Repr

/-- `hdr_eamrp_request`. -/
structure HdrRequest where
  rqHopCount : UInt8
  rqBcastId : UInt32
  rqDst : NsAddr
  rqDstSeqno : UInt32
  rqSrc : NsAddr
  rqSrcSeqno : UInt32
  rqTimestamp : Time
  rqFirstHop : NsAddr := 0
  deriving DecidableEq, Repr

/-- `hdr_eamrp_reply`, of a RREP or of a HELLO. -/
structure HdrReply where
  rpHopCount : UInt8
  rpDst : NsAddr
  rpDstSeqno : UInt32
  rpSrc : NsAddr := 0
  rpLifetime : Time
  rpTimestamp : Time := 0
  rpBcastId : UInt32 := 0
  rpFirstHop : NsAddr := 0
  deriving DecidableEq, Repr

/-- `hdr_eamrp_error`: the first `DestCount` pairs of its two arrays. -/
abbrev HdrError := List (NsAddr × UInt32)

/-- What follows the IP header. `app` is any packet type other than `PT_EAMRP`, with the
value of `DATA_PACKET`; the others are the cases of `ah_type`. -/
inductive Body where
  | app (dataPacket : Bool)
  | rreq (rq : HdrRequest)
  | rrep (rp : HdrReply)
  | rerr (re : HdrError)
  | hello (rp : HdrReply)
  | unknown (ahType : UInt8)
  deriving DecidableEq, Repr

/-- A packet as the agent sees it. -/
structure Packet where
  ih : HdrIp := {}
  ch : HdrCmn := {}
  body : Body
  deriving DecidableEq, Repr

namespace Packet

/-- `ch->ptype() == PT_EAMRP`. -/
def isEamrp (p : Packet) : Bool :=
  match p.body with
  | .app _ => false
  | _ => true

/-- `DATA_PACKET(ch->ptype())`. -/
def dataPacket (p : Packet) : Bool :=
  match p.body with
  | .app d => d
  | _ => false

/-- Data packets are not routing packets. -/
theorem isEamrp_of_dataPacket {p : Packet} (h : p.dataPacket = true) : p.isEamrp = false := by
  cases hb : p.body <;> simp_all [dataPacket, isEamrp]

end Packet

/-- A packet of another protocol. Only such packets enter the send buffer, since
`rt_resolve` is reached from `recv` behind the test of the packet type. -/
abbrev AppPacket := {p : Packet // p.isEamrp = false}

/-- Overwrite the common header, keeping the packet type. -/
def AppPacket.withCmn (p : AppPacket) (ch : HdrCmn) : AppPacket := ⟨{ p.val with ch := ch }, p.2⟩

/-- Overwrite the IP header, keeping the packet type. -/
def AppPacket.withIp (p : AppPacket) (ih : HdrIp) : AppPacket := ⟨{ p.val with ih := ih }, p.2⟩

/-- The reasons the agent gives to `drop`. -/
inductive DropReason where
  | macCallback
  | routeLoop
  | ttl
  | noRoute
  | rtExpire
  | hello
  | qFull
  | qTimeout
  deriving DecidableEq, Repr

/-- Ways in which a handler ends the simulation: a failed assert (with its line in
`eamrp.cc`, or in `eamrp_rtable.cc` where marked), a null dereference, a write past the
arrays of a RERR, or the `exit` on an unknown type. -/
inductive Fault where
  /-- Lines 670–671. -/
  | port
  /-- Line 696, `exit(1)`. -/
  | unknownType
  /-- Line 406: `rt_seqno` is even when a neighbour is lost. -/
  | linkFailureSeqno
  /-- Lines 509, 583 and 1348: `rt_hops != INFINITY2` on an `RTF_UP` entry. -/
  | upRouteHops
  /-- Line 539. -/
  | resolveNotDown
  /-- Line 776: an entry with the sequence number of a RREQ is up. -/
  | requestDown
  /-- Line 782: a re-heard reverse path has the recorded hop count. -/
  | requestHopcount
  /-- Line 879: `rt_seqno` is even when answering a RREQ. -/
  | answerSeqno
  /-- Line 1034: an entry with the sequence number of a RREP is up. -/
  | replyDown
  /-- Line 1037: a re-heard forward path has the recorded hop count. -/
  | replyHopcount
  /-- Line 1221: `rt_seqno` is even when a RERR applies. -/
  | errorSeqno
  /-- Line 1291. -/
  | forwardDown
  /-- Line 1305. -/
  | forwardUnicast
  /-- Line 1312. -/
  | forwardBroadcast
  /-- Line 1340. -/
  | requestNoEntry
  /-- Line 1447: own `seqno` is even when sending a RREQ. -/
  | requestSeqno
  /-- Line 1653: own `seqno` is even when a neighbour is deleted. -/
  | nbDeleteSeqno
  /-- `eamrp_rtable.cc:421`. -/
  | rtAddTwice
  /-- `eamrp_rtable.cc:235`. -/
  | pathCountPositive
  /-- `eamrp_rtable.cc:239`. -/
  | pathCountZero
  /-- The result of `path_find()` is null and is dereferenced. -/
  | nullPath
  /-- Index `EAMRP_MAX_ERRORS` of `unreachable_dst` is written: undefined behaviour. -/
  | errorOverflow
  deriving DecidableEq, Repr

end Eamrp
