import Eamrp.Agent.Numbers
import Eamrp.Agent.LinkFailure
import Eamrp.Net.Advance
import Eamrp.Net.Destination

/-!
# Requests and their receivers

Every RREQ of a node has a greater number than those before it, so that a receiver that knows
an earlier one takes it for new, until the 32-bit number of the node wraps.
-/

namespace Eamrp

open Lib

section Repeat

variable {env : Env} {w : World}

/-- A HELLO with a number that is older than the entry only makes the sender a neighbour. -/
theorem recv_staleHello {q : Packet} {rp : HdrReply} {e : RtEntry} (hb : q.body = .hello rp)
    (hport : q.ih.sport = rtPort ∧ q.ih.dport = rtPort) (hd : rp.rpDst ≠ w.index)
    (hnb : w.nbhead = []) (he : w.rtLookup rp.rpDst = some e)
    (hold : rp.rpDstSeqno < e.rtSeqno) (hnd : (w.rtable.map RtEntry.rtDst).Nodup) :
    handle env (.recv q) w =
      .ok { w with nbhead := [⟨rp.rpDst, env.now + helloInterval * allowedHelloLoss⟩] } := by
  have happ : ¬ q.isEamrp = false := by simp [Packet.isEamrp, hb]
  have hlookup : w.nbLookup rp.rpDst = none := by
    rw [World.nbLookup, hnb]
    rfl
  let v : World := { w with nbhead := [⟨rp.rpDst, env.now + helloInterval * allowedHelloLoss⟩] }
  have hinsert : w.nbInsert env rp.rpDst = v := by
    unfold World.nbInsert
    rw [hlookup]
    show { w with nbhead := _ :: w.nbhead } = v
    rw [hnb]
  have hlookup' : v.rtLookup rp.rpDst = some e := he
  have hensure : v.rtEnsure env rp.rpDst = .ok v := by
    unfold World.rtEnsure
    rw [hlookup']
  have hstore : v.store e = v := by
    have ht : w.rtable.store e = w.rtable := RTable.store_self hnd (List.mem_of_find?_eq_some he)
    show { v with rtable := w.rtable.store e } = v
    rw [ht]
  have hstage : ∀ a : Agent, ∀ x y,
      forwardRoute env a { rp with rpSrc := x, rpFirstHop := y } e = .ok (e, .discard) := by
    intro a x y
    unfold forwardRoute
    dsimp only
    have hne : ¬ e.rtSeqno = rp.rpDstSeqno := fun hc => UInt32.lt_irrefl _ (hc ▸ hold)
    rw [if_neg (UInt32.lt_asymm hold), if_neg fun hc => hne hc.1]
  show recv env q w = .ok v
  unfold recv
  rw [dif_neg happ]
  unfold recvEamrp
  dsimp only
  rw [if_neg (by simp [hport]), hb]
  dsimp only
  unfold recvHello
  dsimp only
  rw [hlookup]
  dsimp only
  rw [hinsert]
  unfold recvReply
  rw [if_neg hd, hensure, ok_bind, hlookup']
  dsimp only
  rw [hstage, ok_bind]
  dsimp only
  rw [hstore]
  rfl

/-- Without a route that is up the loss of a link takes nothing. -/
theorem handleLinkFailure_of_down {id : NsAddr} (hdown : ∀ e ∈ w.rtable, e.rtFlags ≠ .up) :
    handleLinkFailure env id w = .ok w := by
  have hturn : ∀ d, linkFailureEntry env id (w, []) d = .ok (w, []) := by
    intro d
    unfold linkFailureEntry
    cases he : w.rtLookup d with
    | none => rfl
    | some e => exact if_neg fun hc => hdown e (List.mem_of_find?_eq_some he) hc.1
  have hloop : ∀ l : List NsAddr, l.foldlM (linkFailureEntry env id) (w, []) = .ok (w, []) := by
    intro l
    induction l with
    | nil => rfl
    | cons d l ih => rw [List.foldlM_cons, hturn, ok_bind, ih]
  unfold handleLinkFailure
  rw [hloop]
  rfl

/-- The loss of the only neighbour when no route is up. -/
theorem neighborTimer_lone {nb : Neighbor} (hnb : w.nbhead = [nb])
    (ht : nb.nbExpire ≤ env.now) (hq : w.ifqueue = []) (hdown : ∀ e ∈ w.rtable, e.rtFlags ≠ .up)
    (heven : w.seqno % 2 = 0) :
    handle env .neighborTimer w =
      .ok { w.setSeqno (w.seqno.toNat + 2) with nbhead := [] } := by
  let v : World := { w.setSeqno (w.seqno.toNat + 2) with nbhead := [] }
  have heven' : (w.setSeqno (w.seqno.toNat + 2)).seqno % 2 = 0 := World.even_setSeqno heven
  have hhead : (w.setSeqno (w.seqno.toNat + 2)).nbhead.eraseP (fun n => n.nbAddr == nb.nbAddr) =
      [] := by
    show w.nbhead.eraseP _ = []
    rw [hnb]
    simp
  have hfailure : handleLinkFailure env nb.nbAddr v = .ok v := handleLinkFailure_of_down hdown
  have hfind : v.ifqueue.find? (fun p => p.ch.nextHop == nb.nbAddr) = none := by
    show w.ifqueue.find? _ = none
    rw [hq]
    rfl
  have hdelete : nbDelete env nb.nbAddr w = .ok v := by
    unfold nbDelete
    dsimp only
    rw [if_neg (not_not.mpr heven'), hhead]
    show (handleLinkFailure env nb.nbAddr v >>= fun w =>
      whileFilter env nb.nbAddr (w.ifqueue.length + 1) w) = .ok v
    rw [hfailure, ok_bind, whileFilter, filterIfqueue, hfind]
  show nbPurge env w = .ok v
  unfold nbPurge
  rw [hnb, List.foldlM_cons, if_pos ht, hdelete]
  rfl

end Repeat

namespace Net

variable {P : Params} {s s' : Net} {t : List (Move Net Event)} {m : Move Net Event}
  {ev : Event} {i : NsAddr}

/-- The RREQs of its own that node `i` sends in a move. -/
def requestsIn (i : NsAddr) (m : Move Net Event) : List HdrRequest :=
  if m.label.node = i then ((sentBy m).filterMap (Packet.request? i)).map Prod.snd else []

/-- The RREQs of its own that node `i` sends in a run, oldest first. -/
def requestsOf (i : NsAddr) (t : List (Move Net Event)) : List HdrRequest :=
  t.flatMap (requestsIn i)

/-- A receiver with this entry for the source takes every copy of the RREQ for a new one,
lines 753–775. -/
def TakenForNew (rq : HdrRequest) (e : RtEntry) : Prop :=
  ∀ env a saddr copy, copy.rqSrcSeqno = rq.rqSrcSeqno →
    reverseRoute env a saddr copy e =
      .ok (e.renew env.inf copy.rqSrcSeqno saddr (copy.rqHopCount.toUInt16 + 1)
        (env.now + revRouteLife) copy.rqFirstHop, .keep true)

theorem takenForNew_of_lt {rq : HdrRequest} {e : RtEntry} (h : e.rtSeqno < rq.rqSrcSeqno) :
    TakenForNew rq e := by
  intro env a saddr copy hcopy
  unfold reverseRoute
  rw [hcopy, if_pos h]

/-- What a node sends in a move are the requests of its handler. -/
theorem map_requestsIn {w : World} (hnode : ev.node = i) (hindex : w.index = i)
    (hflight : s'.flight = s.flight ++ w.sent) :
    (requestsIn i ⟨s, ev, s'⟩).map HdrRequest.rqSrcSeqno = w.requestNumbers := by
  rw [requestsIn, if_pos hnode, sentBy, hflight, List.drop_left, List.map_map,
    World.requestNumbers, World.requests, hindex]
  rfl

/-- The number of a node and its requests in one move. -/
theorem Step.ascends (hr : s.Reachable P) (hs : Step P s ev s') (i : NsAddr)
    (hw : (s'.node i).seqnoWrapped = false) :
    (s.node i).seqnoWrapped = false ∧
      Ascends (s.node i).seqno ((requestsIn i ⟨s, ev, s'⟩).map HdrRequest.rqSrcSeqno)
        (s'.node i).seqno := by
  have hindex := index_of_reachable (Lib.Reachable.next hr hs) i
  obtain ⟨w, hhandle, hs'⟩ := next_ok hs.2
  have hnode : s'.node = Function.update s.node ev.node w.toAgent := by rw [hs']
  have hflight : s'.flight = s.flight ++ w.sent := by rw [hs']
  rw [hnode] at hw hindex ⊢
  by_cases hi : ev.node = i
  · subst hi
    rw [Function.update_self] at hw hindex ⊢
    obtain ⟨hwrapped, l, hl, hasc⟩ := handle_grows hhandle hw
    have hnil : (s.node ev.node).world.requestNumbers = [] := rfl
    rw [hnil, List.nil_append] at hl
    rw [map_requestsIn rfl hindex hflight, hl]
    exact ⟨hwrapped, hasc⟩
  · rw [Function.update_of_ne (Ne.symm hi)] at hw ⊢
    rw [requestsIn, if_neg hi]
    exact ⟨hw, .nil (UInt32.le_refl _)⟩

/-- Over a run all requests of a node carry ascending numbers. -/
theorem Run.ascends (h : Run P t s) (i : NsAddr) (hw : (s.node i).seqnoWrapped = false) :
    Ascends 2 ((requestsOf i t).map HdrRequest.rqSrcSeqno) (s.node i).seqno := by
  induction h with
  | start h =>
    rw [h.node i]
    exact .nil (UInt32.le_refl _)
  | @move t s s' ev h hs ih =>
    obtain ⟨hw', hasc⟩ := Step.ascends ⟨t, h⟩ hs i hw
    rw [requestsOf, List.flatMap_append, List.map_append, List.flatMap_singleton]
    exact (ih hw').append hasc

/-- A RREQ that a node sends later has a greater number than every RREQ that it sent earlier, as
long as its own number has not wrapped: a receiver whose entry has the number of an earlier
one, or the next number because the route was lost, takes it for new. So does every node that
has heard no more than what was said before the move, if no own number has wrapped. -/
theorem requests_fresh (h : Run P t s) (i : NsAddr) (hw : (s.node i).seqnoWrapped = false) :
    ((requestsOf i t).Pairwise fun rq₁ rq₂ => rq₁.rqSrcSeqno < rq₂.rqSrcSeqno ∧
      ∀ e, e.rtSeqno ≤ rq₁.rqSrcSeqno + 1 → TakenForNew rq₂ e) ∧
    (s.NoWrap → ∀ m ∈ t, ∀ rq ∈ requestsIn i m, ∀ j e, m.src.entry j i = some e →
      TakenForNew rq e) := by
  constructor
  · have hlater := List.pairwise_map.mp (h.ascends i hw).later
    refine hlater.imp fun {rq₁ rq₂} hle => ⟨?_, fun e he => takenForNew_of_lt ?_⟩
    · rw [UInt32.lt_iff_toNat_lt]
      omega
    · have hlt := rq₂.rqSrcSeqno.toNat_lt
      rw [UInt32.le_iff_toNat_le, UInt32.toNat_add, UInt32.toNat_one,
        Nat.mod_eq_of_lt (by omega)] at he
      rw [UInt32.lt_iff_toNat_lt]
      omega
  · intro hall m hm rq hrq j e he
    obtain ⟨hr, hs⟩ := Lib.Run.of_mem h hm
    obtain ⟨hsrc, htgt⟩ := h.noWrap hall hm
    have hreach : m.src.Reachable P := hr
    have hbound := ((hreach.proto.bounded hsrc).route j i _ (route_proto he)).seqno
    have habove := (Step.ascends hr hs i (htgt i)).2.above _ (List.mem_map_of_mem hrq)
    apply takenForNew_of_lt
    rw [UInt32.lt_iff_toNat_lt]
    have hseqno : e.rtSeqno.toNat ≤ (m.src.node i).seqno.toNat + 1 := hbound
    omega

/-- Node 1 discovers node 3, and then asks for node 4. -/
def askTwice : List Cue := discovery .mathH ++ [.app .mathH 1 1 4]

theorem run_askTwice : Run (three .mathH) (idle.moves askTwice) (idle.final askTwice) :=
  run_idle (by decide +kernel)

/-- The second RREQ has the greater number. -/
theorem requests_fresh_askTwice :
    ∃ rq₁ rq₂, requestsOf 1 (idle.moves askTwice) = [rq₁, rq₂] ∧
      rq₁.rqSrcSeqno < rq₂.rqSrcSeqno := by
  have hwrap : ((idle.final askTwice).node 1).seqnoWrapped = false := by decide +kernel
  have htwo : (requestsOf 1 (idle.moves askTwice)).length = 2 := by decide +kernel
  have hlater := (requests_fresh run_askTwice 1 hwrap).1
  obtain ⟨rq₁, rq₂, hl⟩ := List.length_eq_two.mp htwo
  rw [hl, List.pairwise_pair] at hlater
  exact ⟨rq₁, rq₂, hl, hlater.1⟩

/-! ### Beyond 32 bits -/

/-- Node 1 after `silence`, with another number of its own. -/
def numbered (n : UInt32) (wrapped : Bool) : Agent :=
  { (idle.final silence).node 1 with seqno := n, seqnoWrapped := wrapped }

/-- The network after `silence`, later and with another state of node 1. -/
def later (a : Agent) (now : Time) : Net where
  node := Function.update (idle.final silence).node 1 a
  flight := (idle.final silence).flight
  clock := now

/-- The HELLO of node 2. -/
def helloOf2 : Packet where
  ih := { saddr := 2, daddr := ipBroadcast, sport := rtPort, dport := rtPort, ttl := 1 }
  ch := { addrType := .none }
  body := .hello { rpHopCount := 0, rpDst := 2, rpDstSeqno := 2, rpLifetime := 4 }

theorem helloOf2_mem : helloOf2 ∈ (idle.final silence).flight := by decide +kernel

/-- Node 1 after `silence`. -/
theorem node_silence :
    ((idle.final silence).node 1).index = 1 ∧ ((idle.final silence).node 1).nbhead = [] ∧
      ((idle.final silence).node 1).ifqueue = [] ∧
      (∀ e ∈ ((idle.final silence).node 1).rtable, e.rtFlags = .down) ∧
      (((idle.final silence).node 1).rtable.map RtEntry.rtDst).Nodup ∧
      (((idle.final silence).node 1).rtable.rtLookup 2).map RtEntry.rtSeqno = some 3 := by
  decide +kernel

theorem run_later : Run (three .mathH) (idle.moves silence) (later (numbered 6 false) 5) := by
  have hnode : numbered 6 false = (idle.final silence).node 1 := by decide +kernel
  have hclock : (idle.final silence).clock = 5 := by decide +kernel
  have hsame : later (numbered 6 false) 5 = idle.final silence := by
    unfold later
    rw [hnode, Function.update_eq_self, ← hclock]
  rw [hsame]
  exact run_silence

/-- An event in which node 1 sends nothing. -/
theorem step_later {a : Agent} {w : World} {now now' : Time} {inp : Input} (hclock : now ≤ now')
    (hoffers : (later a now).Offers 1 inp)
    (h : handle { now := now', inf := .mathH } inp a.world = .ok w) (hout : w.out = []) :
    Step (three .mathH) (later a now) ⟨1, { now := now', inf := .mathH }, inp⟩
      (later w.toAgent now') := by
  have hmem : (1 : NsAddr) ∈ (three .mathH).nodes := by decide
  refine ⟨⟨hmem, rfl, hclock, hoffers⟩, ?_⟩
  have hnode : (later a now).node 1 = a := by
    show Function.update (idle.final silence).node 1 a 1 = a
    rw [Function.update_self]
  have hsent : w.sent = [] := by
    rw [World.sent, hout]
    rfl
  have hupdate : Function.update (later a now).node 1 w.toAgent =
      (later w.toAgent now').node := by rw [later, later, Function.update_idem]
  unfold next
  rw [hnode, h, ok_bind, hsent, List.append_nil, hupdate]
  rfl

/-- Without new packets there are no requests. -/
theorem requestsIn_of_flight (h : m.tgt.flight = m.src.flight) (i : NsAddr) :
    requestsIn i m = [] := by
  rw [requestsIn, sentBy, h, List.drop_length]
  exact ite_self _

/-- Node 1 hears the HELLO again and loses node 2 again, without sending anything. -/
theorem run_again {n : UInt32} {wrapped : Bool} {now : Time}
    (h : Run (three .mathH) t (later (numbered n wrapped) now)) (heven : n % 2 = 0) :
    ∃ u wrapped', Run (three .mathH) (t ++ u) (later (numbered (n + 2) wrapped') (now + 5)) ∧
      requestsOf 1 u = [] := by
  obtain ⟨hindex, hhead, hqueue, hdown, hnodup, hnumber⟩ := node_silence
  obtain ⟨e, he, hseqno⟩ := Option.map_eq_some_iff.mp hnumber
  let a := numbered n wrapped
  let b : Agent := { a with nbhead := [⟨2, now + helloInterval * allowedHelloLoss⟩] }
  have hear : handle { now := now, inf := .mathH } (.recv (arrive helloOf2)) a.world =
      .ok b.world := by
    have hd : (2 : NsAddr) ≠ a.world.index := by
      show (2 : NsAddr) ≠ ((idle.final silence).node 1).index
      rw [hindex]
      decide
    have hold : (2 : UInt32) < e.rtSeqno := by
      rw [hseqno]
      decide
    exact recv_staleHello (q := arrive helloOf2) (w := a.world) rfl ⟨rfl, rfl⟩ hd hhead he hold
      hnodup
  have lose : handle { now := now + 5, inf := .mathH } .neighborTimer b.world =
      .ok { b.world.setSeqno (n.toNat + 2) with nbhead := [] } := by
    have hnow : now + helloInterval * allowedHelloLoss ≤ now + 5 := by
      norm_num [helloInterval, allowedHelloLoss]
    have hdown' : ∀ e ∈ b.world.rtable, e.rtFlags ≠ .up := fun e he hc => by
      cases (hdown e he).symm.trans hc
    exact neighborTimer_lone (w := b.world) rfl hnow hqueue hdown' heven
  have hoffers : (later a now).Offers 1 (.recv (arrive helloOf2)) :=
    fun _ => ⟨helloOf2, helloOf2_mem, .inl rfl, rfl⟩
  have hend : { b.world.setSeqno (n.toNat + 2) with nbhead := [] }.toAgent =
      numbered (n + 2) (wrapped || decide (2 ^ 32 ≤ n.toNat + 2)) := by
    have hnumber : UInt32.ofNat (n.toNat + 2) = n + 2 := by
      rw [UInt32.ofNat_add, UInt32.ofNat_toNat]
      rfl
    unfold numbered
    rw [← hnumber, ← hhead]
    rfl
  have hfirst := step_later (le_refl now) hoffers hear rfl
  have hsecond : Step (three .mathH) (later b now)
      ⟨1, { now := now + 5, inf := .mathH }, .neighborTimer⟩ (later _ (now + 5)) :=
    step_later (by linarith) trivial lose rfl
  rw [hend] at hsecond
  have hrun := (h.move hfirst).move hsecond
  rw [List.append_assoc] at hrun
  refine ⟨_, _, hrun, ?_⟩
  rw [requestsOf, List.flatMap_append, List.flatMap_singleton, List.flatMap_singleton,
    requestsIn_of_flight rfl, requestsIn_of_flight rfl]
  rfl

/-- The number of node 1 can become any even number. -/
theorem run_long (k : Nat) :
    ∃ u wrapped, Run (three .mathH) (idle.moves silence ++ u)
        (later (numbered (UInt32.ofNat (6 + 2 * k)) wrapped) (5 + 5 * k)) ∧
      requestsOf 1 u = [] := by
  induction k with
  | zero =>
    refine ⟨[], false, ?_, rfl⟩
    rw [List.append_nil, Nat.cast_zero, mul_zero, mul_zero, add_zero, add_zero]
    exact run_later
  | succ k ih =>
    obtain ⟨u, wrapped, hrun, hu⟩ := ih
    have heven : UInt32.ofNat (6 + 2 * k) % 2 = 0 := by
      rw [← UInt32.toNat_inj, UInt32.toNat_mod, UInt32.toNat_ofNat']
      show (6 + 2 * k) % 2 ^ 32 % 2 = 0
      omega
    obtain ⟨u', wrapped', hrun', hu'⟩ := run_again hrun heven
    refine ⟨u ++ u', wrapped', ?_, ?_⟩
    · have hnumber : UInt32.ofNat (6 + 2 * k) + 2 = UInt32.ofNat (6 + 2 * (k + 1)) := by
        rw [Nat.mul_succ, ← Nat.add_assoc, UInt32.ofNat_add (6 + 2 * k)]
        rfl
      have hclock : (5 + 5 * k + 5 : Time) = 5 + 5 * (k + 1 : Nat) := by
        push_cast
        ring
      rw [← List.append_assoc, ← hnumber, ← hclock]
      exact hrun'
    · rw [requestsOf, List.flatMap_append, ← requestsOf, ← requestsOf, hu, hu']
      rfl

/-- The last event: node 1 has a packet for node 3 again. -/
def lastEvent : Event :=
  ⟨1, { now := 5 + 5 * 2147483645, inf := .mathH },
    .recv { ih := { saddr := 1, daddr := 3 }, body := .app true }⟩

theorem handle_lastEvent (wrapped : Bool) :
    ∃ w, handle lastEvent.env lastEvent.input (numbered 0 wrapped).world = .ok w ∧
      w.index = 1 ∧ w.requestNumbers = [2] := by
  have hrun : ∀ b, ((handle lastEvent.env lastEvent.input (numbered 0 b).world).toOption.map
      fun w => (w.index, w.requestNumbers)) = some (1, [2]) := by decide +kernel
  specialize hrun wrapped
  cases hw : handle lastEvent.env lastEvent.input (numbered 0 wrapped).world with
  | error f =>
    rw [hw] at hrun
    cases hrun
  | ok w =>
    rw [hw] at hrun
    obtain ⟨hindex, hnumbers⟩ := Prod.mk.inj (Option.some.inj hrun)
    exact ⟨w, rfl, hindex, hnumbers⟩

/-- After enough losses of a neighbour the number of node 1 starts again: its first RREQ carries
4, the second one 2. -/
theorem requests_wrap :
    ∃ t s, Run (three .mathH) t s ∧ (requestsOf 1 t).map HdrRequest.rqSrcSeqno = [4, 2] ∧
      ¬ (requestsOf 1 t).Pairwise fun rq₁ rq₂ => rq₁.rqSrcSeqno < rq₂.rqSrcSeqno := by
  obtain ⟨u, wrapped, hrun, hu⟩ := run_long 2147483645
  have hzero : UInt32.ofNat (6 + 2 * 2147483645) = 0 := by decide
  rw [hzero, Nat.cast_ofNat] at hrun
  obtain ⟨w, hw, hindex, hlast⟩ := handle_lastEvent wrapped
  let s := later (numbered 0 wrapped) (5 + 5 * 2147483645)
  let s' : Net := ⟨Function.update s.node 1 w.toAgent, s.flight ++ w.sent, lastEvent.env.now⟩
  have hnode : s.node 1 = numbered 0 wrapped := by
    show Function.update (idle.final silence).node 1 (numbered 0 wrapped) 1 = _
    rw [Function.update_self]
  have hnext : s.next lastEvent = .ok s' := by
    unfold next
    show (handle lastEvent.env lastEvent.input (s.node 1).world >>= _) = _
    rw [hnode, hw]
    rfl
  have hmem : (1 : NsAddr) ∈ (three .mathH).nodes := by decide
  have hstep : Step (three .mathH) s lastEvent s' :=
    ⟨⟨hmem, rfl, le_refl _, fun h => by cases h⟩, hnext⟩
  have hfirst : (requestsOf 1 (idle.moves silence)).map HdrRequest.rqSrcSeqno = [4] := by
    decide +kernel
  have hown : (requestsIn 1 ⟨s, lastEvent, s'⟩).map HdrRequest.rqSrcSeqno = [2] :=
    (map_requestsIn rfl hindex rfl).trans hlast
  have hnumbers : (requestsOf 1 (idle.moves silence ++ u ++ [⟨s, lastEvent, s'⟩])).map
      HdrRequest.rqSrcSeqno = [4, 2] := by
    rw [requestsOf, List.flatMap_append, List.flatMap_append, List.flatMap_singleton,
      ← requestsOf, ← requestsOf, hu, List.append_nil, List.map_append, hfirst, hown]
    rfl
  refine ⟨_, _, Lib.Run.move hrun hstep, hnumbers, fun hall => ?_⟩
  have hlt : ([4, 2] : List UInt32).Pairwise (· < ·) := hnumbers ▸ List.pairwise_map.mpr hall
  exact absurd hlt (by decide)

end Net

end Eamrp
