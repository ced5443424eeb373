import Eamrp.Agent.Cache
import Eamrp.Agent.Output
import Eamrp.Agent.Requests

/-!
# One route discovery, at one node

A node that hears of a discovery for the first time passes the RREQ on, or answers it; the
first RREP that reaches it travels on over the first way back. Later copies change neither the
first way to the source nor the first way to the destination, and nothing is sent for them
except by the destination.
-/

namespace Eamrp

open Lib

/-- One route discovery: who looks for whom, under which numbers, and the number under which
the destination answers. -/
structure Quest where
  src : NsAddr
  dst : NsAddr
  bid : UInt32
  seqno : UInt32
  dstSeqno : UInt32

/-- The packet is a RREQ of the discovery, sent by node `i`. -/
structure Packet.Asks (Q : Quest) (i : NsAddr) (p : Packet) : Prop where
  saddr : p.ih.saddr = i
  daddr : p.ih.daddr = ipBroadcast
  addrType : p.ch.addrType = .none
  body : ∃ rq, p.body = .rreq rq ∧ rq.rqSrc = Q.src ∧ rq.rqDst = Q.dst ∧ rq.rqBcastId = Q.bid ∧
    rq.rqSrcSeqno = Q.seqno ∧ rq.rqDstSeqno = 0

/-- The packet is a RREP of the discovery, sent by node `i` to node `k`. -/
structure Packet.Answers (Q : Quest) (i k : NsAddr) (p : Packet) : Prop where
  daddr : p.ih.daddr = Q.src
  addrType : p.ch.addrType = .inet
  nextHop : p.ch.nextHop = k
  body : ∃ rp, p.body = .rrep rp ∧ rp.rpDst = Q.dst ∧ rp.rpDstSeqno = Q.dstSeqno ∧ rp.rpSrc = i ∧
    rp.rpBcastId = Q.bid

/-! ### Ways -/

/-- The route to `d` is up under number `n`, and its first path leads over `x`. -/
def RtEntry.Heads (e : RtEntry) (n : UInt32) (x : NsAddr) : Prop :=
  e.rtFlags = .up ∧ e.rtSeqno = n ∧ ∃ path, e.pathFind = some path ∧ path.nexthop = x

namespace RtEntry

variable {e : RtEntry} {n : UInt32} {x : NsAddr}

theorem Heads.congr {e' : RtEntry} (h : e.Heads n x) (hf : e'.rtFlags = e.rtFlags)
    (hs : e'.rtSeqno = e.rtSeqno) (hp : e'.rtPathList = e.rtPathList) : e'.Heads n x := by
  obtain ⟨hup, hn, path, hpath, hx⟩ := h
  exact ⟨hf.trans hup, hs.trans hn, path, by rw [pathFind, hp]; exact hpath, hx⟩

theorem Heads.touchFirst (h : e.Heads n x) (now : Time) : (e.touchFirst now).Heads n x := by
  obtain ⟨hup, hn, path, hpath, hx⟩ := h
  refine ⟨hup, hn, ?_⟩
  unfold pathFind RtEntry.touchFirst at *
  cases hl : e.rtPathList with
  | nil =>
    rw [hl] at hpath
    cases hpath
  | cons p ps =>
    rw [hl] at hpath
    obtain rfl := Option.some.inj hpath
    exact ⟨_, rfl, hx⟩

theorem Heads.used (h : e.Heads n x) (now : Time) (transit : Bool) :
    (e.used now transit).Heads n x := by
  unfold RtEntry.used
  split
  · exact (h.touchFirst now).congr rfl rfl rfl
  · exact h.touchFirst now

/-- A calm change keeps the first path. -/
theorem Heads.calm {e' : RtEntry} (h : e.Heads n x) (hc : e.Calm e') :
    e'.Heads n x := by
  obtain ⟨hup, hn, path, hpath, hx⟩ := h
  refine ⟨hc.rtFlags.trans hup, hc.rtSeqno.trans hn, ?_⟩
  have hlegs := hc.legs
  unfold pathFind at *
  cases hl : e.rtPathList with
  | nil =>
    rw [hl] at hpath
    cases hpath
  | cons p ps =>
    rw [hl] at hpath hlegs
    obtain rfl := Option.some.inj hpath
    cases hl' : e'.rtPathList with
    | nil =>
      rw [hl'] at hlegs
      cases hlegs
    | cons p' ps' =>
      rw [hl', List.map_cons, List.map_cons] at hlegs
      have hleg : p'.leg = p.leg := (List.cons.inj hlegs).1
      exact ⟨p', rfl, (congrArg Leg.nexthop hleg).trans hx⟩

/-- A newer number brings a new first path. -/
theorem heads_learn (env : Env) (a : Agent) {A : Advert} (h : e.rtSeqno < A.seqno) :
    (e.learn env a A).Heads A.seqno A.via := by
  rw [learn, if_pos h]
  exact ⟨rfl, rfl, _, rfl, rfl⟩

/-- The same number leaves the first path in its place. -/
theorem Heads.learn (h : e.Heads n x) (env : Env) (a : Agent) {A : Advert} (hA : A.seqno = n) :
    (e.learn env a A).Heads n x := by
  obtain ⟨hup, hn, path, hpath, hx⟩ := h
  have hold : ¬ e.rtSeqno < A.seqno := by
    rw [hn, hA]
    exact UInt32.lt_irrefl n
  have hlist : ∃ ps, e.rtPathList = path :: ps := by
    unfold pathFind at hpath
    cases hl : e.rtPathList with
    | nil =>
      rw [hl] at hpath
      cases hpath
    | cons p ps =>
      rw [hl] at hpath
      exact ⟨ps, by rw [Option.some.inj hpath]⟩
  obtain ⟨ps, hlist⟩ := hlist
  unfold RtEntry.learn
  rw [if_neg hold]
  split_ifs
  · refine ⟨hup, hn, path, ?_, hx⟩
    simp [pathFind, addPath, pathInsert, hlist]
  · refine ⟨hup, hn, ?_⟩
    unfold pathFind refreshPath
    rw [hlist, raiseExpire]
    split
    · exact ⟨_, rfl, hx⟩
    · exact ⟨_, rfl, hx⟩
  · exact ⟨hup, hn, path, hpath, hx⟩

end RtEntry

namespace Agent

/-- The node has a way to `d` over `x`, under number `n`. -/
def Way (a : Agent) (d : NsAddr) (n : UInt32) (x : NsAddr) : Prop :=
  ∃ e, a.rtable.rtLookup d = some e ∧ e.Heads n x

/-- There is one first path only. -/
theorem Way.unique {a : Agent} {d x y : NsAddr} {n m : UInt32} (h : a.Way d n x)
    (h' : a.Way d m y) : x = y := by
  obtain ⟨e, he, -, -, path, hpath, rfl⟩ := h
  obtain ⟨e', he', -, -, path', hpath', rfl⟩ := h'
  obtain rfl := Option.some.inj (he.symm.trans he')
  obtain rfl := Option.some.inj (hpath.symm.trans hpath')
  rfl

/-- The record of the discovery in the cache, and whether a RREP has been sent for it. -/
def Records (Q : Quest) (a : Agent) (replied : Bool) : Prop :=
  ∃ b, a.world.idGet Q.src Q.bid = some b ∧ (replied = true ↔ b.count ≠ 0)

/-- The node has not heard of the discovery. -/
structure Unasked (Q : Quest) (a : Agent) : Prop where
  src : a.rtable.rtLookup Q.src = none
  dst : a.rtable.rtLookup Q.dst = none
  record : a.world.idGet Q.src Q.bid = none
  rqueue : a.rqueue = []

/-- The node has heard a RREQ of the discovery, first of all from node `x`. -/
structure Asked (Q : Quest) (x : NsAddr) (a : Agent) : Prop where
  src : a.Way Q.src Q.seqno x
  dst : a.rtable.rtLookup Q.dst = none
  record : a.Records Q false
  rqueue : a.rqueue = []

/-- The node has heard a RREP of the discovery, too, first of all from node `y`. -/
structure Served (Q : Quest) (x y : NsAddr) (a : Agent) : Prop where
  src : a.Way Q.src Q.seqno x
  dst : a.Way Q.dst Q.dstSeqno y
  record : a.Records Q true
  rqueue : a.rqueue = []

end Agent

section Ways

variable {w : World} {d d' x : NsAddr} {n : UInt32} {e e' : RtEntry}

theorem way_store_self (he : w.rtLookup d = some e) (hd : e'.rtDst = d) (h : e'.Heads n x) :
    (w.store e').Way d n x := ⟨e', World.rtLookup_store_self he hd, h⟩

theorem Agent.Way.store_ne (h : w.Way d n x) (hd : d ≠ e'.rtDst) : (w.store e').Way d n x := by
  obtain ⟨e, he, hheads⟩ := h
  exact ⟨e, (World.rtLookup_store_ne hd).trans he, hheads⟩

/-- An entry is rewritten without a change of its first path. -/
theorem Agent.Way.store (h : w.Way d n x) (he : w.rtLookup d' = some e) (hd : e'.rtDst = d')
    (hheads : ∀ n x, e.Heads n x → e'.Heads n x) : (w.store e').Way d n x := by
  by_cases hdd : d = d'
  · subst hdd
    obtain ⟨f, hf, hfx⟩ := h
    obtain rfl := Option.some.inj (hf.symm.trans he)
    exact way_store_self hf hd (hheads _ _ hfx)
  · exact h.store_ne (hd ▸ hdd)

/-- `forward` hands the packet on over the first path. -/
theorem forward_way {env : Env} {p : Packet} {delay : Time} {w' : World}
    (h : forward env (some d) p delay w = .ok w') (hway : w.Way d n x) (httl : p.ih.ttl ≠ 0)
    (hl : ¬ p.IsLocal w.index) :
    ∃ (e : RtEntry) (delay : Time) (transit : Bool), w.rtLookup d = some e ∧
      w' = (w.store (e.used env.now transit)).send (p.over x) delay := by
  obtain ⟨f, hf, -, -, path, hpath, rfl⟩ := hway
  cases forward_ok h with
  | expired h0 => exact absurd h0 httl
  | dmux hl' => exact absurd hl' hl
  | @unicast _ e path' delay _ _ _ he _ hpath' =>
    obtain rfl := Option.some.inj (hf.symm.trans he)
    obtain rfl := Option.some.inj (hpath.symm.trans hpath')
    exact ⟨_, delay, _, he, rfl⟩

/-- With an empty buffer, a route that comes up has nothing to flush. -/
theorem routeUp_empty {env : Env} (he : w.rtLookup d = some e) (hup : e.rtFlags = .up)
    (hq : w.rqueue = []) : routeUp env d w = .ok (w.store e.resetSoftState) := by
  have hnone : ∀ p ∈ (w.store e.resetSoftState).rqueue, p.val.ih.daddr ≠ d := by
    intro p hp
    have hp : p ∈ w.rqueue := hp
    rw [hq] at hp
    cases hp
  have hsame : { w.store e.resetSoftState with
      rqueue := (w.store e.resetSoftState).rqueue.drained env.now d } =
      w.store e.resetSoftState := by
    have hdrained : (w.store e.resetSoftState).rqueue.drained env.now d =
        (w.store e.resetSoftState).rqueue := by
      have hq' : (w.store e.resetSoftState).rqueue = [] := hq
      rw [hq']
      rfl
    rw [hdrained]
  unfold routeUp
  rw [he]
  dsimp only
  rw [if_pos hup, whileDeque_none hnone, hsame]
  rfl

end Ways

/-! ### The route update -/

/-- After the route update for a destination the route to it is up over `x`; no other entry has
changed, nothing has been sent and the cache is the one of `v`. -/
structure World.Turned (v : World) (d : NsAddr) (n : UInt32) (x : NsAddr) (u : World) : Prop where
  way : u.Way d n x
  other : ∀ d', d' ≠ d → u.rtLookup d' = v.rtLookup d'
  frame : u = { v with rtable := u.rtable }

section Update

variable {env : Env} {v w u : World} {d x : NsAddr} {n : UInt32} {e e' : RtEntry}

/-- The entry is looked up or added, and updated. -/
theorem turned_store (hv : w.rtEnsure env d = .ok v) (he : v.rtLookup d = some e)
    (hd : e'.rtDst = e.rtDst) (h : e'.Heads n x) : w.Turned d n x (v.store e') := by
  obtain ⟨-, hframe, hother⟩ := World.rtEnsure_ok hv
  have hdst : e'.rtDst = d := hd.trans (v.rtDst_of_rtLookup he)
  refine ⟨way_store_self he hdst h, fun d' hne => ?_, by rw [hframe]; rfl⟩
  rw [World.rtLookup_store_ne (by rwa [hdst])]
  exact hother d' hne

/-- The route to a destination that is up is flushed. -/
theorem World.Turned.routeUp (h : w.Turned d n x v) (hq : w.rqueue = [])
    (hu : Eamrp.routeUp env d v = .ok u) : w.Turned d n x u := by
  obtain ⟨e, he, hheads⟩ := h.way
  have hdst : e.resetSoftState.rtDst = d := (v.rtDst_of_rtLookup he :)
  have hvq : v.rqueue = [] := by
    rw [h.frame]
    exact hq
  rw [routeUp_empty he hheads.1 hvq] at hu
  obtain rfl := Except.ok.inj hu
  refine ⟨way_store_self he hdst (hheads.congr rfl rfl rfl), fun d' hne => ?_, ?_⟩
  · rw [World.rtLookup_store_ne (by rwa [hdst])]
    exact h.other d' hne
  · rw [h.frame]
    rfl

end Update

section Turned

variable {Q : Quest} {w u : World} {x y : NsAddr}

theorem World.Turned.index_seqno {d : NsAddr} {n : UInt32} (h : w.Turned d n x u) :
    u.index = w.index ∧ u.seqno = w.seqno ∧ u.sent = w.sent := by
  rw [h.frame]
  exact ⟨rfl, rfl, rfl⟩

/-- A later RREQ changes nothing at a node that has only been asked. -/
theorem World.Turned.asked (h : w.Turned Q.src Q.seqno x u) (hw : w.Asked Q x)
    (hne : Q.src ≠ Q.dst) : u.Asked Q x where
  src := h.way
  dst := (h.other Q.dst hne.symm).trans hw.dst
  record := by
    rw [h.frame]
    exact hw.record
  rqueue := by
    rw [h.frame]
    exact hw.rqueue

/-- A later RREQ changes nothing at a node that has been served. -/
theorem World.Turned.served_src (h : w.Turned Q.src Q.seqno x u) (hw : w.Served Q x y)
    (hne : Q.src ≠ Q.dst) : u.Served Q x y where
  src := h.way
  dst := by
    obtain ⟨e, he, hey⟩ := hw.dst
    exact ⟨e, (h.other Q.dst hne.symm).trans he, hey⟩
  record := by
    rw [h.frame]
    exact hw.record
  rqueue := by
    rw [h.frame]
    exact hw.rqueue

/-- Nor does a later RREP. -/
theorem World.Turned.served_dst (h : w.Turned Q.dst Q.dstSeqno y u) (hw : w.Served Q x y)
    (hne : Q.src ≠ Q.dst) : u.Served Q x y where
  src := by
    obtain ⟨e, he, hex⟩ := hw.src
    exact ⟨e, (h.other Q.src hne).trans he, hex⟩
  dst := h.way
  record := by
    rw [h.frame]
    exact hw.record
  rqueue := by
    rw [h.frame]
    exact hw.rqueue

end Turned

/-! ### Asking -/

/-- The discovery that an agent starts with its first request. -/
def Quest.first (src dst : NsAddr) : Quest := ⟨src, dst, 1, 4, 2⟩

/-- The first packet for `d` of an agent that has done nothing yet sends one RREQ, to the whole
network. -/
theorem first_data {env : Env} {inp : Input} {q : AppPacket} {w w' : World} {i d : NsAddr}
    (hw : w.toAgent.Initial i) (hq : Resolves w.index inp q) (hown : q.val.ih.saddr = w.index)
    (hd : q.val.ih.daddr = d) (hnow : 0 ≤ env.now) (h : handle env inp w = .ok w') :
    w'.index = i ∧ (∃ e, w'.rtLookup d = some e ∧ e.rtSeqno = 0 ∧ e.pathFind = none) ∧
      (∀ d', d' ≠ d → w'.rtLookup d' = none) ∧
      ∃ r : Packet, w'.sent = w.sent ++ [r] ∧ r.Asks (.first i d) i ∧
        r.ih.ttl = networkDiameter := by
  subst hd
  rw [handle_of_resolves hq] at h
  obtain ⟨v, hv, hres⟩ := rtResolve_resolved h
  obtain ⟨hentry, hframe, hother⟩ := World.rtEnsure_ok hv
  have htab : w.rtable = [] := by rw [hw]
  have hnone : ∀ d', w.rtLookup d' = none := fun d' => by
    rw [World.rtLookup, htab]
    rfl
  rw [World.entryFor, hnone, Option.getD_none] at hentry
  have hidx : v.index = w.index := index_rtEnsure hv
  have hindex : w.index = i := by rw [hw]
  have hv' : v.seqno = 2 ∧ v.bid = 1 ∧ v.rqueue = [] ∧ v.sent = w.sent := by
    rw [hframe, hw]
    exact ⟨rfl, rfl, rfl, rfl⟩
  obtain ⟨hseq, hbid, hrq, hsent⟩ := hv'
  cases hres with
  | forward hn _ => exact absurd (hown.trans hidx.symm) (hn _ hentry RtFlags.noConfusion)
  | wait hn => exact absurd (hown.trans hidx.symm) hn
  | ask _ _ _ hasked =>
    have hentry' : (v.enque env q).rtLookup q.val.ih.daddr = _ := hentry
    cases hasked with
    | up he hup =>
      obtain rfl := Option.some.inj (he.symm.trans hentry')
      cases hup
    | early he _ ht =>
      obtain rfl := Option.some.inj (he.symm.trans hentry')
      exact absurd hnow (not_le.mpr ht)
    | hold he _ _ hc =>
      obtain rfl := Option.some.inj (he.symm.trans hentry')
      have hc : rreqRetries < 0 := hc
      exact absurd hc (by decide)
    | send he =>
      obtain rfl := Option.some.inj (he.symm.trans hentry')
      have hout : (v.enque env q).sent = w.sent := by
        rw [← hsent]
        unfold World.enque RQueue.enque
        rw [hrq]
        simp [World.sent, RQueue.purge, RQueue.limit]
      refine ⟨hidx.trans hindex, ⟨_, World.rtLookup_store_self hentry' rfl, rfl, rfl⟩,
        fun d' hne => ?_, _, (World.sent_send _ _ _).trans (congrArg (· ++ _) hout), ?_, rfl⟩
      · exact (World.rtLookup_store_ne hne).trans ((hother d' hne).trans (hnone d'))
      · refine ⟨hidx.trans hindex, rfl, rfl, _, rfl, hidx.trans hindex, rfl, ?_, ?_, rfl⟩
        · show v.bid.toUInt32 = 1
          rw [hbid]
          rfl
        · show UInt32.ofNat (v.seqno.toNat + 2) = 4
          rw [hseq]
          rfl

/-! ### Hearing a RREQ -/

/-- The destination's own number stays when the RREQ knows of none. -/
theorem raiseSeqno_zero {rq : HdrRequest} {w : World} (h : rq.rqDstSeqno = 0)
    (hev : w.seqno % 2 = 0) : w.raiseSeqno rq = w := by
  unfold World.raiseSeqno
  rw [h, if_neg (UInt32.not_lt.mpr (UInt32.zero_le)), if_neg (not_not.mpr hev)]

/-- The headers of a RREQ of the discovery, as the agent reads them. -/
structure HdrRequest.Of (Q : Quest) (rq : HdrRequest) : Prop where
  rqSrc : rq.rqSrc = Q.src
  rqDst : rq.rqDst = Q.dst
  rqBcastId : rq.rqBcastId = Q.bid
  rqSrcSeqno : rq.rqSrcSeqno = Q.seqno
  rqDstSeqno : rq.rqDstSeqno = 0

section Request

variable {Q : Quest} {env : Env} {u w w' : World} {p : Packet} {rq : HdrRequest} {i x y : NsAddr}

/-- The destination answers the node that it has heard the RREQ from. -/
theorem answers_answerAsDestination (hrq : rq.Of Q) (hdst : Q.dst = u.index)
    (hseq : u.seqno = Q.dstSeqno) (hev : u.seqno % 2 = 0) :
    ∃ r : Packet, answerAsDestination p.ih rq u = u.send r 0 ∧
      r.Answers Q u.index p.ih.saddr ∧ r.ih.ttl = networkDiameter := by
  unfold answerAsDestination
  rw [raiseSeqno_zero hrq.rqDstSeqno hev]
  refine ⟨_, rfl, ⟨hrq.rqSrc, rfl, rfl, _, rfl, hdst.symm, hseq, rfl, hrq.rqBcastId⟩, rfl⟩

/-- A relay passes the RREQ on. -/
theorem asks_rebroadcast (hrq : rq.Of Q) (hway : u.Way Q.src Q.seqno x)
    (hda : p.ih.daddr = ipBroadcast) (hi : u.index ≠ ipBroadcast) (httl : p.ih.ttl ≠ 0)
    (h : rebroadcast env p rq none u = .ok w') :
    ∃ (e : RtEntry) (r : Packet) (delay : Time), u.rtLookup Q.src = some e ∧
      w' = (u.store (e.advertise env.inf)).send r delay ∧ r.Asks Q u.index ∧
      r.ih.ttl = p.ih.ttl := by
  obtain ⟨e, he, -, -, path, hpath, -⟩ := hway
  have he : u.rtLookup rq.rqSrc = some e := by rwa [hrq.rqSrc]
  have hadv : (e.advertise env.inf).pathFind = some path := hpath
  unfold rebroadcast at h
  rw [he] at h
  dsimp only at h
  rw [hadv] at h
  cases forward_ok h with
  | expired h0 => exact absurd h0 httl
  | dmux hl =>
    rcases hl with ⟨happ, -⟩ | hself
    · cases happ
    · exact absurd (hself.symm.trans hda) hi
  | @broadcast delay =>
    refine ⟨e, _, delay, by rwa [hrq.rqSrc] at he, rfl, ?_, rfl⟩
    exact ⟨rfl, hda, rfl, _, rfl, hrq.rqSrc, hrq.rqDst, hrq.rqBcastId, hrq.rqSrcSeqno,
      hrq.rqDstSeqno⟩

/-- A newer RREQ is kept, with a way back. -/
theorem verdict_of_newer {a : Agent} {e e' : RtEntry} {verdict : Verdict}
    (hlt : e.rtSeqno < rq.rqSrcSeqno)
    (h : reverseRoute env a i rq e = .ok (e', verdict)) : verdict = .keep true := by
  unfold reverseRoute at h
  dsimp only at h
  rw [if_pos hlt] at h
  exact (Prod.mk.inj (Except.ok.inj h)).2.symm

/-- The record is made. -/
theorem records_remember (hrq : rq.Of Q) (h : w.idGet Q.src Q.bid = none) :
    (w.remember env rq).Records Q false := by
  unfold World.remember
  rw [hrq.rqSrc, hrq.rqBcastId, h]
  refine ⟨⟨Q.src, Q.bid, env.now + bcastIdSave, 0⟩, ?_, by simp⟩
  simp [World.idGet, World.idInsert, Agent.world]

/-- A node that hears of the discovery for the first time answers the RREQ if it is the
destination, and passes it on if not. -/
theorem first_request (hrq : rq.Of Q) (hw : w.Unasked Q) (hne : Q.src ≠ Q.dst)
    (hsrc : Q.src ≠ w.index) (hpos : 0 < Q.seqno)
    (hd : Q.dst = w.index → w.seqno = Q.dstSeqno ∧ w.seqno % 2 = 0)
    (hda : p.ih.daddr = ipBroadcast) (hi : w.index ≠ ipBroadcast) (httl : p.ih.ttl ≠ 0)
    (h : recvRequest env p rq w = .ok w') :
    w'.Asked Q p.ih.saddr ∧ w'.index = w.index ∧ w'.seqno = w.seqno ∧
      ∃ r : Packet, w'.sent = w.sent ++ [r] ∧
        (Q.dst = w.index ∧ r.Answers Q w.index p.ih.saddr ∧ r.ih.ttl = networkDiameter ∨
          Q.dst ≠ w.index ∧ r.Asks Q w.index ∧ r.ih.ttl = p.ih.ttl) := by
  obtain ⟨v, e, e', verdict, hv, he, hr, hrest⟩ := recvRequest_stages h (by rwa [hrq.rqSrc])
  have hfresh : e.rtSeqno < (rq.atNode w.index).rqSrcSeqno := by
    obtain ⟨hentry, -⟩ := World.rtEnsure_remember hv he
    have hnone : w.rtLookup rq.rqSrc = none := by
      rw [hrq.rqSrc]
      exact hw.src
    rw [hentry, World.entryFor, hnone]
    show (0 : UInt32) < rq.rqSrcSeqno
    rwa [hrq.rqSrcSeqno]
  obtain rfl := verdict_of_newer hfresh hr
  obtain ⟨hlearn, -⟩ := learn_of_reverseRoute hr
  have hheads : e'.Heads Q.seqno p.ih.saddr := by
    rw [hlearn, ← hrq.rqSrcSeqno]
    exact RtEntry.heads_learn env v.toAgent hfresh
  have hdst : e'.rtDst = e.rtDst := by rw [hlearn, RtEntry.rtDst_learn]
  rcases hrest with ⟨hc, -⟩ | ⟨b, u, -, hup, hans⟩
  · cases hc
  have hmem : (w.remember env rq).rqueue = [] := by
    rw [World.remember_eq]
    exact hw.rqueue
  have hturn := (turned_store hv he hdst hheads).routeUp hmem hup
  rw [hrq.rqSrc] at hturn
  -- what the node knows before it answers or passes the RREQ on
  have hasked : u.Asked Q p.ih.saddr := by
    refine ⟨hturn.way, ?_, ?_, ?_⟩
    · have hsame := hturn.other Q.dst hne.symm
      rw [World.remember_eq] at hsame
      exact hsame.trans hw.dst
    · rw [hturn.frame]
      exact records_remember hrq hw.record
    · rw [hturn.frame]
      exact hmem
  have hframe : u.index = w.index ∧ u.seqno = w.seqno ∧ u.sent = w.sent := by
    rw [hturn.frame, World.remember_eq]
    exact ⟨rfl, rfl, rfl⟩
  obtain ⟨hui, hus, hsent⟩ := hframe
  have hrq' : (rq.atNode w.index).Of Q := ⟨hrq.rqSrc, hrq.rqDst, hrq.rqBcastId, hrq.rqSrcSeqno,
    hrq.rqDstSeqno⟩
  have hsend : ∀ (v : World) (r : Packet) (delay : Time), v.sent = w.sent →
      (v.send r delay).sent = w.sent ++ [r] := fun v r delay hv => by rw [World.sent_send, hv]
  unfold answerRequest at hans
  dsimp only at hans
  by_cases hself : Q.dst = w.index
  · rw [if_pos (by rw [hui]; exact hrq.rqDst.trans hself)] at hans
    obtain ⟨hseq, hev⟩ := hd hself
    obtain ⟨r, hr, hanswers, hrttl⟩ := answers_answerAsDestination (p := p) hrq'
      (hself.trans hui.symm) (hus.trans hseq) (by rw [hus]; exact hev)
    rw [hr] at hans
    obtain rfl := Except.ok.inj hans
    rw [hui] at hanswers
    exact ⟨hasked, hui, hus, r, hsend u r 0 hsent, .inl ⟨hself, hanswers, hrttl⟩⟩
  · rw [if_neg (by rw [hui]; exact fun hc => hself (hrq.rqDst.symm.trans hc))] at hans
    have hnone : u.rtLookup (rq.atNode w.index).rqDst = none := by
      show u.rtLookup rq.rqDst = none
      rw [hrq.rqDst]
      exact hasked.dst
    have hkill : (w.idGet rq.rqSrc rq.rqBcastId).isSome = false := by
      rw [hrq.rqSrc, hrq.rqBcastId]
      exact congrArg Option.isSome hw.record
    rw [hnone, hkill] at hans
    obtain ⟨f, r, delay, hf, rfl, hasks, hrttl⟩ := asks_rebroadcast hrq' hasked.src hda
      (hui ▸ hi) httl hans
    rw [hui] at hasks
    have hfd : (f.advertise env.inf).rtDst = Q.src := (u.rtDst_of_rtLookup hf :)
    refine ⟨⟨?_, ?_, hasked.record, hasked.rqueue⟩, hui, hus, r, hsend _ r delay hsent,
      .inr ⟨hself, hasks, hrttl⟩⟩
    · exact hasked.src.store hf hfd fun n x hx => hx.congr rfl rfl rfl
    · exact (World.rtLookup_store_ne (by rw [hfd]; exact hne.symm)).trans hasked.dst

/-- The cache has a record, so it stays as it is. -/
theorem remember_of_records {b : Bool} (hrq : rq.Of Q) (h : w.Records Q b) :
    w.remember env rq = w := by
  obtain ⟨r, hr, -⟩ := h
  have hr : w.idGet Q.src Q.bid = some r := hr
  unfold World.remember
  rw [hrq.rqSrc, hrq.rqBcastId, hr]
  rfl

/-- A route update under the number that is known keeps the first path. -/
theorem turned_learn {d : NsAddr} {n : UInt32} {v : World} {e e' : RtEntry} {a : Agent}
    {A : Advert} (hw : w.Way d n x) (hv : w.rtEnsure env d = .ok v) (he : v.rtLookup d = some e)
    (hlearn : e' = e.learn env a A) (hA : A.seqno = n) : w.Turned d n x (v.store e') := by
  obtain ⟨f, hf, hheads⟩ := hw
  have hentry : e = w.entryFor env d := Option.some.inj (he.symm.trans (World.rtEnsure_ok hv).1)
  have hf : w.rtLookup d = some f := hf
  rw [World.entryFor, hf, Option.getD_some] at hentry
  subst hentry
  refine turned_store hv he (by rw [hlearn, RtEntry.rtDst_learn]) ?_
  rw [hlearn]
  exact hheads.learn env a hA

/-- A node that is on the way already: nothing is passed on, and only the destination answers. -/
theorem later_request {b : Bool} (hrq : rq.Of Q) (hway : w.Way Q.src Q.seqno x)
    (hrec : w.Records Q b) (hq : w.rqueue = []) (hne : Q.src ≠ Q.dst) (hsrc : Q.src ≠ w.index)
    (hd : Q.dst = w.index → w.seqno = Q.dstSeqno ∧ w.seqno % 2 = 0)
    (hroute : w.rtLookup Q.dst = none ∨ b = true)
    (h : recvRequest env p rq w = .ok w') :
    ∃ u, w.Turned Q.src Q.seqno x u ∧ (w' = u ∨ Q.dst = w.index ∧ ∃ r : Packet,
      w' = u.send r 0 ∧ r.Answers Q w.index p.ih.saddr ∧ r.ih.ttl = networkDiameter) := by
  obtain ⟨v, e, e', verdict, hv, he, hr, hrest⟩ := recvRequest_stages h (by rwa [hrq.rqSrc])
  obtain ⟨hlearn, -⟩ := learn_of_reverseRoute hr
  rw [remember_of_records hrq hrec, hrq.rqSrc] at hv
  rw [hrq.rqSrc] at he
  have hst := turned_learn hway hv he hlearn hrq.rqSrcSeqno
  rcases hrest with ⟨-, rfl⟩ | ⟨c, u, -, hup, hans⟩
  · exact ⟨_, hst, .inl rfl⟩
  · rw [hrq.rqSrc] at hup
    have hturn := hst.routeUp hq hup
    have hframe : u.index = w.index ∧ u.seqno = w.seqno ∧
        u.idGet Q.src Q.bid = w.idGet Q.src Q.bid := by
      rw [hturn.frame]
      exact ⟨rfl, rfl, rfl⟩
    obtain ⟨hui, hus, hid⟩ := hframe
    refine ⟨u, hturn, ?_⟩
    have hrq' : (rq.atNode w.index).Of Q := ⟨hrq.rqSrc, hrq.rqDst, hrq.rqBcastId,
      hrq.rqSrcSeqno, hrq.rqDstSeqno⟩
    unfold answerRequest at hans
    dsimp only at hans
    by_cases hself : Q.dst = w.index
    · rw [if_pos (by rw [hui]; exact hrq.rqDst.trans hself)] at hans
      obtain ⟨hseq, hev⟩ := hd hself
      obtain ⟨r, hr, hanswers, hrttl⟩ := answers_answerAsDestination (p := p) hrq'
        (hself.trans hui.symm) (hus.trans hseq) (by rw [hus]; exact hev)
      rw [hr] at hans
      rw [hui] at hanswers
      exact .inr ⟨hself, r, (Except.ok.inj hans).symm, hanswers, hrttl⟩
    · rw [if_neg (by rw [hui]; exact fun hc => hself (hrq.rqDst.symm.trans hc))] at hans
      obtain ⟨rec, hrec, hcount⟩ := hrec
      have hrec : w.idGet Q.src Q.bid = some rec := hrec
      left
      split at hans
      · next f hf =>
        -- the node has a route itself, so it has sent its RREP
        have hb : b = true := by
          refine hroute.resolve_left fun hnone => ?_
          have hl := (Option.filter_eq_some_iff.mp hf).1
          have hl : u.rtLookup rq.rqDst = some f := hl
          rw [hrq.rqDst, hturn.other Q.dst hne.symm, hnone] at hl
          cases hl
        unfold answerFromRoute at hans
        split at hans
        · cases hans
        · split at hans
          · exact (Except.ok.inj hans).symm
          · split at hans
            · cases hans
            · next rec' hrec' =>
              have hrec' : u.idGet rq.rqSrc rq.rqBcastId = some rec' := hrec'
              rw [hrq.rqSrc, hrq.rqBcastId, hid, hrec] at hrec'
              obtain rfl := Option.some.inj hrec'
              rw [if_neg (hcount.mp hb)] at hans
              exact (Except.ok.inj hans).symm
      · have hkill : (w.idGet rq.rqSrc rq.rqBcastId).isSome = true := by
          rw [hrq.rqSrc, hrq.rqBcastId, hrec]
          rfl
        rw [if_pos hkill] at hans
        exact (Except.ok.inj hans).symm

end Request

/-! ### Hearing a RREP -/

/-- The headers of a RREP of the discovery. -/
structure HdrReply.Of (Q : Quest) (rp : HdrReply) : Prop where
  rpDst : rp.rpDst = Q.dst
  rpDstSeqno : rp.rpDstSeqno = Q.dstSeqno
  rpBcastId : rp.rpBcastId = Q.bid

section Reply

variable {Q : Quest} {env : Env} {u w w' : World} {p : Packet} {rp : HdrReply}
  {d i s x y : NsAddr}

/-- The world in which the RREP is forwarded: the reply is counted, the route to the
destination advertised and marked, the route back used. -/
def World.replying (env : Env) (bid : UInt32) (e f : RtEntry) (w : World) : World :=
  (((w.idCount e.rtDst bid).store (f.advertise env.inf)).store (e.touchFirst env.now)).store
    { f.advertise env.inf with rtError := true }

/-- The entries while the RREP is made ready, one write after the other. -/
theorem lookups_replying (env : Env) (bid : UInt32) {e f : RtEntry} (hne : s ≠ d)
    (he : u.rtLookup s = some e) (hf : u.rtLookup d = some f) :
    ((u.idCount s bid).store (f.advertise env.inf)).rtLookup s = some e ∧
      (((u.idCount s bid).store (f.advertise env.inf)).store (e.touchFirst env.now)).rtLookup d =
        some (f.advertise env.inf) := by
  have hed : (e.touchFirst env.now).rtDst = s := (u.rtDst_of_rtLookup he :)
  have hfd : (f.advertise env.inf).rtDst = d := (u.rtDst_of_rtLookup hf :)
  have hf₀ : (u.idCount s bid).rtLookup d = some f := hf
  constructor
  · rw [World.rtLookup_store_ne]
    · exact he
    · rwa [hfd]
  · rw [World.rtLookup_store_ne]
    · exact World.rtLookup_store_self hf₀ hfd
    · rwa [hed, ne_comm]

/-- The first RREP is forwarded if there is a way back. -/
theorem forwardReply_eq {e f : RtEntry} {back first : Path} {b : BroadcastId} (hne : s ≠ d)
    (hs : s ≠ u.index) (he : u.rtLookup s = some e) (hup : e.rtFlags = .up)
    (hback : e.pathFind = some back) (hb : u.idGet s rp.rpBcastId = some b) (hc : b.count = 0)
    (hf : u.rtLookup d = some f) (hfirst : f.pathFind = some first) (hda : p.ih.daddr = s)
    (hd : rp.rpDst = d) :
    forwardReply env p rp u = forward env (some s)
      { p with
        ch := { p.ch with addrType := .inet, nextHop := back.nexthop }
        body := .rrep { rp with
          rpSrc := u.index
          rpHopCount := (f.advertise env.inf).rtAdvertisedHops.toUInt8
          rpFirstHop := first.lasthop } } noEamrpDelay (u.replying env rp.rpBcastId e f) := by
  subst hda hd
  have hed : e.rtDst = p.ih.daddr := u.rtDst_of_rtLookup he
  have hf₀ : (u.idCount p.ih.daddr rp.rpBcastId).rtLookup rp.rpDst = some f := hf
  obtain ⟨hs₁, hd₂⟩ := lookups_replying env rp.rpBcastId hne he hf
  unfold forwardReply
  rw [if_neg hs, hb, he]
  dsimp only
  rw [if_neg (fun h => h.elim (fun h => h hup) (fun h => h hc)), hback, hf₀]
  dsimp only
  rw [hfirst]
  dsimp only
  rw [hs₁]
  dsimp only
  rw [hd₂, World.replying, hed]
  rfl

/-- The ways stay, and the reply is recorded. -/
theorem replying_ways (env : Env) {e f : RtEntry} (hne : Q.src ≠ Q.dst) (he : u.rtLookup Q.src = some e)
    (hex : e.Heads Q.seqno x) (hf : u.rtLookup Q.dst = some f) (hfy : f.Heads Q.dstSeqno y)
    (hrec : u.Records Q false) :
    (u.replying env Q.bid e f).Way Q.src Q.seqno x ∧
      (u.replying env Q.bid e f).Way Q.dst Q.dstSeqno y ∧
      (u.replying env Q.bid e f).Records Q true := by
  have hed : (e.touchFirst env.now).rtDst = Q.src := (u.rtDst_of_rtLookup he :)
  have hfd : f.rtDst = Q.dst := u.rtDst_of_rtLookup hf
  obtain ⟨hs₁, hd₂⟩ := lookups_replying env Q.bid hne he hf
  unfold World.replying
  rw [show e.rtDst = Q.src from hed]
  refine ⟨?_, way_store_self hd₂ hfd (hfy.congr rfl rfl rfl), ?_⟩
  · have hway := way_store_self hs₁ hed (hex.touchFirst env.now)
    exact hway.store_ne fun hc => hne (hc.trans hfd)
  · obtain ⟨b, hb, -⟩ := hrec
    have hb : u.idGet Q.src Q.bid = some b := hb
    have hget := World.idGet_idCount (w := u) (k := (Q.src, Q.bid)) (x := (Q.src, Q.bid))
    rw [if_pos rfl, hb] at hget
    exact ⟨{ b with count := 1 }, hget, by simp⟩

/-- The RREP is forwarded over the first way back. -/
theorem answers_forwardReply (hrp : rp.Of Q) (hne : Q.src ≠ Q.dst) (hsrc : Q.src ≠ u.index)
    (hda : p.ih.daddr = Q.src) (httl : p.ih.ttl ≠ 0) (hway : u.Way Q.src Q.seqno x)
    (hdst : u.Way Q.dst Q.dstSeqno y) (hrec : u.Records Q false)
    (h : forwardReply env p rp u = .ok w') :
    w'.Way Q.src Q.seqno x ∧ w'.Way Q.dst Q.dstSeqno y ∧ w'.Records Q true ∧
      w'.index = u.index ∧ w'.seqno = u.seqno ∧ w'.rqueue = u.rqueue ∧
      ∃ r : Packet, w'.sent = u.sent ++ [r] ∧ r.Answers Q u.index x ∧ r.ih.ttl = p.ih.ttl := by
  obtain ⟨b, hb, hcount⟩ := id hrec
  have hc : b.count = 0 := by
    by_contra hc
    exact absurd (hcount.mpr hc) (by decide)
  obtain ⟨e, he, hex⟩ := hway
  obtain ⟨f, hf, hfy⟩ := hdst
  obtain ⟨back, hback, hx⟩ := hex.2.2
  obtain ⟨first, hfirst, -⟩ := hfy.2.2
  rw [← hrp.rpBcastId] at hb
  rw [forwardReply_eq hne hsrc he hex.1 hback hb hc hf hfirst hda hrp.rpDst, hrp.rpBcastId] at h
  obtain ⟨hway, hdst, hrec⟩ := replying_ways env hne he hex hf hfy hrec
  obtain ⟨g, delay, transit, hg, rfl⟩ := forward_way h hway httl fun hl =>
    hl.elim (fun hc => Bool.noConfusion hc.1) fun hself => hsrc (hda.symm.trans hself)
  have hgd : g.rtDst = Q.src := World.rtDst_of_rtLookup hg
  have hud : (g.used env.now transit).rtDst = Q.src := by
    unfold RtEntry.used
    split
    · exact hgd
    · exact hgd
  refine ⟨hway.store hg hud fun n x hx => hx.used _ _, hdst.store_ne (by rwa [hud, ne_comm]),
    hrec, rfl, rfl, rfl, _, World.sent_send _ _ _, ?_, rfl⟩
  exact ⟨hda, rfl, rfl, _, rfl, hrp.rpDst, hrp.rpDstSeqno, rfl, rfl⟩

/-- The event of receiving a RREP. -/
theorem recvReply_of_handle {q : Packet} (hb : q.body = .rrep rp)
    (h : handle env (.recv q) w = .ok w') :
    recvReply env { q with ih := { q.ih with ttl := q.ih.ttl - 1 } } rp w = .ok w' := by
  have hrecv := recvEamrp_of_handle (by simp [Packet.isEamrp, hb]) h
  unfold recvEamrp at hrecv
  split at hrecv
  · cases hrecv
  · simpa only [hb] using hrecv

/-- A RREP that has been passed on once is not passed on again. -/
theorem forwardReply_records (hrp : rp.Of Q) (hda : p.ih.daddr = Q.src)
    (hrec : u.Records Q true) (h : forwardReply env p rp u = .ok w') : w' = u := by
  obtain ⟨b, hb, hcount⟩ := hrec
  have hb : u.idGet Q.src Q.bid = some b := hb
  unfold forwardReply at h
  rw [hda, hrp.rpBcastId, hb] at h
  split at h
  · exact (Except.ok.inj h).symm
  · split at h
    · next heq =>
      obtain rfl := Option.some.inj heq
      rw [if_pos (Or.inr (hcount.mp rfl))] at h
      exact (Except.ok.inj h).symm
    · exact (Except.ok.inj h).symm

/-- The route update on a RREP, at a node that has only an older route to the destination. -/
theorem turned_first {v : World} {e e' : RtEntry} {a : Agent} {A : Advert} {n : UInt32}
    (hold : (w.entryFor env d).rtSeqno < n) (hv : w.rtEnsure env d = .ok v)
    (he : v.rtLookup d = some e) (hlearn : e' = e.learn env a A) (hA : A.seqno = n) :
    w.Turned d n A.via (v.store e') ∧ e.rtSeqno < A.seqno := by
  have hfresh : e.rtSeqno < A.seqno := by
    rwa [Option.some.inj (he.symm.trans (World.rtEnsure_ok hv).1), hA]
  refine ⟨turned_store hv he (by rw [hlearn, RtEntry.rtDst_learn]) ?_, hfresh⟩
  rw [hlearn, ← hA]
  exact RtEntry.heads_learn env a hfresh

/-- A relay passes the first RREP on, over its first way back. -/
theorem first_reply (hrp : rp.Of Q) (hw : w.Asked Q x) (hne : Q.src ≠ Q.dst)
    (hsrc : Q.src ≠ w.index) (hd : Q.dst ≠ w.index) (hpos : 0 < Q.dstSeqno)
    (hda : p.ih.daddr = Q.src) (httl : p.ih.ttl ≠ 0) (h : recvReply env p rp w = .ok w') :
    w'.Served Q x rp.rpSrc ∧ w'.index = w.index ∧ w'.seqno = w.seqno ∧
      ∃ r : Packet, w'.sent = w.sent ++ [r] ∧ r.Answers Q w.index x ∧ r.ih.ttl = p.ih.ttl := by
  obtain ⟨v, e, e', verdict, hv, he, hr, hrest⟩ := recvReply_stages h (by rwa [hrp.rpDst])
  obtain ⟨hlearn, hdiscard⟩ := learn_of_forwardRoute hr
  rw [hrp.rpDst] at hv he hrest
  have hold : (w.entryFor env Q.dst).rtSeqno < Q.dstSeqno := by
    have hnone : w.rtLookup Q.dst = none := hw.dst
    rwa [World.entryFor, hnone]
  obtain ⟨hst, hfresh⟩ := turned_first hold hv he hlearn hrp.rpDstSeqno
  rcases hrest with ⟨hc, -⟩ | ⟨b, u, -, hup, hfwd⟩
  · exact absurd hfresh (hdiscard hc)
  · have hturn := hst.routeUp hw.rqueue hup
    have hframe : u.index = w.index ∧ u.seqno = w.seqno ∧ u.sent = w.sent ∧ u.rqueue = w.rqueue ∧
        u.idGet Q.src Q.bid = w.idGet Q.src Q.bid := by
      rw [hturn.frame]
      exact ⟨rfl, rfl, rfl, rfl, rfl⟩
    obtain ⟨hui, hus, hsent, huq, hid⟩ := hframe
    have hway : u.Way Q.src Q.seqno x := by
      obtain ⟨f, hf, hfx⟩ := hw.src
      exact ⟨f, (hturn.other Q.src hne).trans hf, hfx⟩
    have hrec : u.Records Q false := by
      obtain ⟨b, hb, hcount⟩ := hw.record
      exact ⟨b, hid.trans hb, hcount⟩
    obtain ⟨hs, hd, hrec, hwi, hws, hwq, r, hr, hans, hrttl⟩ :=
      answers_forwardReply hrp hne (hui ▸ hsrc) hda httl hway hturn.way hrec hfwd
    rw [hui] at hans
    exact ⟨⟨hs, hd, hrec, (hwq.trans huq).trans hw.rqueue⟩, hwi.trans hui, hws.trans hus, r,
      by rw [hr, hsent], hans, hrttl⟩

/-- A later RREP is not passed on, and leaves the ways as they are. -/
theorem later_reply (hrp : rp.Of Q) (hw : w.Served Q x y)
    (hd : Q.dst ≠ w.index) (hda : p.ih.daddr = Q.src) (h : recvReply env p rp w = .ok w') :
    w.Turned Q.dst Q.dstSeqno y w' := by
  obtain ⟨v, e, e', verdict, hv, he, hr, hrest⟩ := recvReply_stages h (by rwa [hrp.rpDst])
  obtain ⟨hlearn, -⟩ := learn_of_forwardRoute hr
  rw [hrp.rpDst] at hv he hrest
  have hst := turned_learn hw.dst hv he hlearn hrp.rpDstSeqno
  rcases hrest with ⟨-, rfl⟩ | ⟨b, u, -, hup, hfwd⟩
  · exact hst
  · have hturn := hst.routeUp hw.rqueue hup
    have hrec : u.Records Q true := by
      rw [hturn.frame]
      exact hw.record
    obtain rfl := forwardReply_records hrp hda hrec hfwd
    exact hturn

/-- The node that looks for the destination has a way to it as soon as a RREP reaches it, and
keeps it. -/
theorem own_reply (hrp : rp.Of Q) (hd : Q.dst ≠ w.index)
    (hw : (w.entryFor env Q.dst).rtSeqno < Q.dstSeqno ∧ y = rp.rpSrc ∨
      w.Way Q.dst Q.dstSeqno y)
    (hda : p.ih.daddr = w.index) (h : recvReply env p rp w = .ok w') :
    w'.Way Q.dst Q.dstSeqno y := by
  obtain ⟨v, e, e', verdict, hv, he, hr, hrest⟩ := recvReply_stages h (by rwa [hrp.rpDst])
  obtain ⟨hlearn, -⟩ := learn_of_forwardRoute hr
  rw [hrp.rpDst] at hv he hrest
  have hst : w.Turned Q.dst Q.dstSeqno y (v.store e') := by
    rcases hw with ⟨hold, rfl⟩ | hway
    · exact (turned_first hold hv he hlearn hrp.rpDstSeqno).1
    · exact turned_learn hway hv he hlearn hrp.rpDstSeqno
  rcases hrest with ⟨-, rfl⟩ | ⟨b, u, -, hup, hfwd⟩
  · exact hst.way
  · have hcalm := calm_routeUp hup
    have hui : p.ih.daddr = u.index := by
      rw [hda, hcalm.index, hst.frame]
    unfold forwardReply at hfwd
    rw [if_pos hui] at hfwd
    obtain rfl := Except.ok.inj hfwd
    obtain ⟨f, hf, hfy⟩ := hst.way
    obtain ⟨f', hf', hff⟩ := hcalm.entry _ _ hf
    exact ⟨f', hf', hfy.calm hff⟩

/-- All that the source sends then is what it has buffered. -/
theorem own_reply_sent (hda : p.ih.daddr = w.index) (h : recvReply env p rp w = .ok w') :
    w'.index = w.index ∧ ∀ p ∈ w'.sent, p ∈ w.sent ∨ p.isEamrp = false := by
  have hemits : w.Emits (fun p => p.isEamrp = false) (fun _ => False) w' := by
    refine emits_recvReply h (fun p _ _ q hq => ?_) fun hne => absurd hda hne
    rw [hq.isEamrp]
    exact p.2
  exact ⟨hemits.index, hemits.sent⟩

end Reply

end Eamrp
