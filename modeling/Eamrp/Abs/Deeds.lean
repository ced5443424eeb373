import Eamrp.Abs.Forward
import Eamrp.Lib.Keyed

/-!
# Deeds

What a handler may do to an agent besides learning a route, asking for one or taking a packet
into the send buffer. A route that is used keeps its paths, only their expiry is overwritten;
when a node or a destination is lost, paths go too. Neither touches what `sendRequest` reads.
-/

namespace Eamrp

open Lib

/-! ### Entries -/

/-- The path, possibly used since. -/
def Path.Kept (now : Time) (p p' : Path) : Prop :=
  p' = p ∨ p' = { p with expire := now + activeRouteTimeout }

theorem Path.Kept.nexthop {now : Time} {p p' : Path} (h : p.Kept now p') :
    p'.nexthop = p.nexthop := by
  rcases h with rfl | rfl
  · rfl
  · rfl

theorem Path.Kept.trans {now : Time} {p p' p'' : Path} (h : p.Kept now p')
    (h' : p'.Kept now p'') : p.Kept now p'' := by
  rcases h' with rfl | rfl
  · exact h
  · rcases h with rfl | rfl
    · exact .inr rfl
    · exact .inr rfl

theorem Path.Kept.leg {now : Time} {p p' : Path} (h : p.Kept now p') : p'.leg = p.leg := by
  rcases h with rfl | rfl
  · rfl
  · rfl

namespace RtEntry

/-- What `sendRequest` reads in the entry is the same. -/
structure SameRequest (e e' : RtEntry) : Prop where
  rtDst : e'.rtDst = e.rtDst
  rtReqTimeout : e'.rtReqTimeout = e.rtReqTimeout
  rtReqCnt : e'.rtReqCnt = e.rtReqCnt
  rtReqLastTtl : e'.rtReqLastTtl = e.rtReqLastTtl
  rtLastHopCount : e'.rtLastHopCount = e.rtLastHopCount
  rtDiscLatency : e'.rtDiscLatency = e.rtDiscLatency

theorem SameRequest.refl (e : RtEntry) : e.SameRequest e := ⟨rfl, rfl, rfl, rfl, rfl, rfl⟩

theorem SameRequest.trans {e e' e'' : RtEntry} (h : e.SameRequest e') (h' : e'.SameRequest e'') :
    e.SameRequest e'' where
  rtDst := h'.rtDst.trans h.rtDst
  rtReqTimeout := h'.rtReqTimeout.trans h.rtReqTimeout
  rtReqCnt := h'.rtReqCnt.trans h.rtReqCnt
  rtReqLastTtl := h'.rtReqLastTtl.trans h.rtReqLastTtl
  rtLastHopCount := h'.rtLastHopCount.trans h.rtLastHopCount
  rtDiscLatency := h'.rtDiscLatency.trans h.rtDiscLatency

/-- The route has been used or advertised. -/
structure Use (now : Time) (e e' : RtEntry) : Prop extends e.SameRequest e' where
  rtFlags : e'.rtFlags = e.rtFlags
  rtSeqno : e'.rtSeqno = e.rtSeqno
  rtNumPaths : e'.rtNumPaths = e.rtNumPaths
  pathsDeleted : e'.pathsDeleted = e.pathsDeleted
  paths : List.Forall₂ (Path.Kept now) e.rtPathList e'.rtPathList

/-- The route has been used, and paths may have been lost. -/
structure Loss (now : Time) (e e' : RtEntry) : Prop extends e.SameRequest e' where
  rtFlags : e'.rtFlags = e.rtFlags ∨ e'.rtFlags = .down
  paths : ∀ p' ∈ e'.rtPathList, ∃ p ∈ e.rtPathList, p.Kept now p'

variable {now : Time}

namespace Use

theorem of_paths {e e' : RtEntry} (h : e.SameRequest e') (hf : e'.rtFlags = e.rtFlags)
    (hs : e'.rtSeqno = e.rtSeqno) (hn : e'.rtNumPaths = e.rtNumPaths)
    (hd : e'.pathsDeleted = e.pathsDeleted) (hp : e'.rtPathList = e.rtPathList) :
    e.Use now e' where
  toSameRequest := h
  rtFlags := hf
  rtSeqno := hs
  rtNumPaths := hn
  pathsDeleted := hd
  paths := by
    rw [hp]
    exact List.forall₂_same.mpr fun p _ => .inl rfl

theorem advertise (inf : Infinity) (e : RtEntry) : e.Use now (e.advertise inf) :=
  of_paths ⟨rfl, rfl, rfl, rfl, rfl, rfl⟩ rfl rfl rfl rfl rfl

theorem rtError (b : Bool) (e : RtEntry) : e.Use now { e with rtError := b } :=
  of_paths ⟨rfl, rfl, rfl, rfl, rfl, rfl⟩ rfl rfl rfl rfl rfl

theorem touchFirst (e : RtEntry) : e.Use now (e.touchFirst now) where
  toSameRequest := ⟨rfl, rfl, rfl, rfl, rfl, rfl⟩
  rtFlags := rfl
  rtSeqno := rfl
  rtNumPaths := rfl
  pathsDeleted := rfl
  paths := by
    unfold RtEntry.touchFirst
    cases e.rtPathList with
    | nil => exact .nil
    | cons p ps => exact .cons (.inr rfl) (List.forall₂_same.mpr fun q _ => .inl rfl)

theorem trans {e e' e'' : RtEntry} (h : e.Use now e') (h' : e'.Use now e'') : e.Use now e'' where
  toSameRequest := h.toSameRequest.trans h'.toSameRequest
  rtFlags := h'.rtFlags.trans h.rtFlags
  rtSeqno := h'.rtSeqno.trans h.rtSeqno
  rtNumPaths := h'.rtNumPaths.trans h.rtNumPaths
  pathsDeleted := h'.pathsDeleted.trans h.pathsDeleted
  paths := forall₂_trans .trans h.paths h'.paths

theorem used (transit : Bool) (e : RtEntry) : e.Use now (e.used now transit) := by
  unfold RtEntry.used
  split
  · exact (touchFirst e).trans (rtError true _)
  · exact touchFirst e

theorem loss {e e' : RtEntry} (h : e.Use now e') : e.Loss now e' where
  toSameRequest := h.toSameRequest
  rtFlags := .inl h.rtFlags
  paths p' hp' := by
    obtain ⟨p, hp, hk⟩ := exists_of_forall₂ h.paths hp'
    exact ⟨p, hp, hk⟩

end Use

namespace Loss

theorem trans {e e' e'' : RtEntry} (h : e.Loss now e') (h' : e'.Loss now e'') :
    e.Loss now e'' where
  toSameRequest := h.toSameRequest.trans h'.toSameRequest
  rtFlags := by
    rcases h'.rtFlags with hf | hf
    · rw [hf]
      exact h.rtFlags
    · exact .inr hf
  paths p'' hp'' := by
    obtain ⟨p', hp', hk'⟩ := h'.paths p'' hp''
    obtain ⟨p, hp, hk⟩ := h.paths p' hp'
    exact ⟨p, hp, hk.trans hk'⟩

/-- Paths go, and the number may change with them. -/
theorem of_subset {e e' : RtEntry} (h : e.SameRequest e')
    (hf : e'.rtFlags = e.rtFlags ∨ e'.rtFlags = .down)
    (hp : e'.rtPathList ⊆ e.rtPathList) : e.Loss now e' where
  toSameRequest := h
  rtFlags := hf
  paths p' hp' := ⟨p', hp hp', .inl rfl⟩

theorem rtDown (inf : Infinity) (e : RtEntry) : e.Loss now (e.rtDown inf) := by
  unfold RtEntry.rtDown
  split
  · next h => exact .of_subset (.refl e) (.inl rfl) (List.Subset.refl _)
  · exact .of_subset ⟨rfl, rfl, rfl, rfl, rfl, rfl⟩ (.inr rfl) (List.nil_subset _)

theorem pathDelete (id : NsAddr) (e : RtEntry) : e.Loss now (e.pathDelete id) :=
  .of_subset ⟨rfl, rfl, rfl, rfl, rfl, rfl⟩ (.inl rfl) List.eraseP_subset

theorem pathPurge (t : Time) (e : RtEntry) : e.Loss now (e.pathPurge t) := by
  obtain ⟨k, -, hk⟩ := e.pathPurge_eq t
  rw [hk]
  exact .of_subset ⟨rfl, rfl, rfl, rfl, rfl, rfl⟩ (.inl rfl) List.filter_sublist.subset

/-- The number and the mark of the entry are of no account. -/
theorem setSeqno {e e' : RtEntry} (h : e.Loss now e') (n m : UInt32) (b : Bool) :
    e.Loss now { e' with rtSeqno := n, rtHighestSeqnoHeard := m, rtError := b } where
  toSameRequest := h.toSameRequest.trans ⟨rfl, rfl, rfl, rfl, rfl, rfl⟩
  rtFlags := h.rtFlags
  paths := h.paths

end Loss

instance : Std.Refl (Use now) := ⟨fun e => .of_paths (.refl e) rfl rfl rfl rfl rfl⟩

instance : IsTrans RtEntry (Use now) := ⟨fun _ _ _ => .trans⟩

instance : Std.Refl (Loss now) := ⟨fun e => (Std.Refl.refl (r := Use now) e).loss⟩

instance : IsTrans RtEntry (Loss now) := ⟨fun _ _ _ => .trans⟩

end RtEntry

/-! ### Agents -/

/-- The packet is not a RREQ of node `i`. -/
def Packet.NoRequest (p : Packet) (i : NsAddr) : Prop := ∀ rq, p.body = .rreq rq → rq.rqSrc ≠ i

/-- The effect is that of a RREQ of node `i`. -/
def Effect.Requests (i : NsAddr) : Effect → Prop
  | .target p _ => ∃ rq, p.body = .rreq rq ∧ rq.rqSrc = i
  | _ => False

/-- Entries change as `T` says. Apart from that packets leave the send buffer, the node's own
number may rise, and there are effects other than the node's own RREQs. -/
structure World.Deeds (T : RtEntry → RtEntry → Prop) (w w' : World) : Prop where
  index : w'.index = w.index
  eamrpMaxPaths : w'.eamrpMaxPaths = w.eamrpMaxPaths
  eamrpPrimAltPathLenDiff : w'.eamrpPrimAltPathLenDiff = w.eamrpPrimAltPathLenDiff
  entry : ∀ d e, w.rtLookup d = some e → ∃ e', w'.rtLookup d = some e' ∧ T e e'
  missing : ∀ d, w.rtLookup d = none → w'.rtLookup d = none
  seqno : w'.seqnoWrapped = false → w.seqnoWrapped = false ∧ w.seqno ≤ w'.seqno
  rqueue : w'.rqueue.Sublist w.rqueue
  out : ∃ l, w'.out = w.out ++ l ∧ ∀ x ∈ l, ¬ x.Requests w.index

namespace World.Deeds

variable {T S : RtEntry → RtEntry → Prop} {w w' w'' : World}

theorem mono (hTS : ∀ e e', T e e' → S e e') (h : w.Deeds T w') : w.Deeds S w' where
  index := h.index
  eamrpMaxPaths := h.eamrpMaxPaths
  eamrpPrimAltPathLenDiff := h.eamrpPrimAltPathLenDiff
  entry d e he := by
    obtain ⟨e', he', ht⟩ := h.entry d e he
    exact ⟨e', he', hTS e e' ht⟩
  missing := h.missing
  seqno := h.seqno
  rqueue := h.rqueue
  out := h.out

theorem trans [IsTrans RtEntry T] (h : w.Deeds T w') (h' : w'.Deeds T w'') : w.Deeds T w'' where
  index := h'.index.trans h.index
  eamrpMaxPaths := h'.eamrpMaxPaths.trans h.eamrpMaxPaths
  eamrpPrimAltPathLenDiff := h'.eamrpPrimAltPathLenDiff.trans h.eamrpPrimAltPathLenDiff
  entry d e he := by
    obtain ⟨e', he', ht⟩ := h.entry d e he
    obtain ⟨e'', he'', ht'⟩ := h'.entry d e' he'
    exact ⟨e'', he'', IsTrans.trans _ _ _ ht ht'⟩
  missing d hd := h'.missing d (h.missing d hd)
  seqno hw := by
    obtain ⟨hw', hle'⟩ := h'.seqno hw
    obtain ⟨hw₀, hle⟩ := h.seqno hw'
    exact ⟨hw₀, UInt32.le_trans hle hle'⟩
  rqueue := h'.rqueue.trans h.rqueue
  out := by
    obtain ⟨l, hl, hno⟩ := h.out
    obtain ⟨l', hl', hno'⟩ := h'.out
    refine ⟨l ++ l', by rw [hl', hl, List.append_assoc], fun x hx => ?_⟩
    rcases List.mem_append.mp hx with hx | hx
    · exact hno x hx
    · rw [← h.index]
      exact hno' x hx

/-- The routing table is the same, and the own number too. -/
theorem of_rtable [Std.Refl T] (hi : w'.index = w.index)
    (hm : w'.eamrpMaxPaths = w.eamrpMaxPaths)
    (hd : w'.eamrpPrimAltPathLenDiff = w.eamrpPrimAltPathLenDiff) (ht : w'.rtable = w.rtable)
    (hs : w'.seqnoWrapped = false → w.seqnoWrapped = false ∧ w.seqno ≤ w'.seqno)
    (hq : w'.rqueue.Sublist w.rqueue)
    (ho : ∃ l, w'.out = w.out ++ l ∧ ∀ x ∈ l, ¬ x.Requests w.index) : w.Deeds T w' where
  index := hi
  eamrpMaxPaths := hm
  eamrpPrimAltPathLenDiff := hd
  entry d e he := ⟨e, by rwa [World.rtLookup, ht], Std.Refl.refl e⟩
  missing d hd := by rwa [World.rtLookup, ht]
  seqno := hs
  rqueue := hq
  out := ho

variable (w) in
theorem refl [Std.Refl T] : w.Deeds T w :=
  of_rtable rfl rfl rfl rfl (fun h => ⟨h, UInt32.le_refl _⟩) (List.Sublist.refl _)
    ⟨[], (List.append_nil _).symm, fun _ hx => absurd hx List.not_mem_nil⟩

/-- Fields that no route and no answer depends on. -/
theorem of_routing [Std.Refl T] (h : w.SameRouting w') (hq : w'.rqueue.Sublist w.rqueue)
    (ho : w'.out = w.out) : w.Deeds T w' :=
  of_rtable h.index h.eamrpMaxPaths h.eamrpPrimAltPathLenDiff h.rtable
    (fun hw => ⟨h.seqnoWrapped ▸ hw, h.seqno ▸ UInt32.le_refl _⟩) hq
    ⟨[], by rw [ho, List.append_nil], fun _ hx => absurd hx List.not_mem_nil⟩

variable (w) in
theorem emit [Std.Refl T] {x : Effect} (hx : ¬ x.Requests w.index) : w.Deeds T (w.emit x) := by
  refine of_rtable rfl rfl rfl rfl (fun h => ⟨h, UInt32.le_refl _⟩) (List.Sublist.refl _)
    ⟨[x], rfl, fun y hy => ?_⟩
  obtain rfl := List.mem_singleton.mp hy
  exact hx

variable (w) in
theorem drop [Std.Refl T] (p : Packet) (reason : DropReason) : w.Deeds T (w.drop p reason) :=
  emit w id

variable (w) in
theorem send [Std.Refl T] {p : Packet} (hp : p.NoRequest w.index) (delay : Time) :
    w.Deeds T (w.send p delay) := by
  apply emit w
  rintro ⟨rq, hb, hsrc⟩
  exact hp rq hb hsrc

variable (w) in
theorem idCount [Std.Refl T] (src : NsAddr) (bid : UInt32) : w.Deeds T (w.idCount src bid) :=
  of_rtable rfl rfl rfl rfl (fun h => ⟨h, UInt32.le_refl _⟩) (List.Sublist.refl _)
    ⟨[], (List.append_nil _).symm, fun _ hx => absurd hx List.not_mem_nil⟩

variable (w) in
theorem setSeqno [Std.Refl T] {n : Nat} (hn : w.seqno.toNat ≤ n) : w.Deeds T (w.setSeqno n) := by
  refine of_rtable rfl rfl rfl rfl (fun h => ?_) (List.Sublist.refl _)
    ⟨[], (List.append_nil _).symm, fun _ hx => absurd hx List.not_mem_nil⟩
  have h : (w.seqnoWrapped || decide (2 ^ 32 ≤ n)) = false := h
  rw [Bool.or_eq_false_iff, decide_eq_false_iff_not, not_le] at h
  refine ⟨h.1, ?_⟩
  rw [UInt32.le_iff_toNat_le]
  show w.seqno.toNat ≤ (UInt32.ofNat n).toNat
  rw [UInt32.toNat_ofNat_of_lt' h.2]
  exact hn

variable (w) in
theorem raiseSeqno [Std.Refl T] [IsTrans RtEntry T] (rq : HdrRequest) :
    w.Deeds T (w.raiseSeqno rq) := by
  unfold World.raiseSeqno
  dsimp only
  have hfirst : w.Deeds T
      (if w.seqno < rq.rqDstSeqno then w.setSeqno (rq.rqDstSeqno.toNat + 1) else w) := by
    split
    · next h =>
      rw [UInt32.lt_iff_toNat_lt] at h
      exact setSeqno w (by omega)
    · exact refl w
  generalize (if w.seqno < rq.rqDstSeqno then w.setSeqno (rq.rqDstSeqno.toNat + 1) else w) = v
    at hfirst ⊢
  apply hfirst.trans
  split
  · exact setSeqno v (Nat.le_succ _)
  · exact refl v

/-- One entry changes. -/
theorem store [Std.Refl T] {d : NsAddr} {e e' : RtEntry} (hd : w.rtLookup d = some e)
    (h : T e e') (hdst : e'.rtDst = e.rtDst) : w.Deeds T (w.store e') where
  index := rfl
  eamrpMaxPaths := rfl
  eamrpPrimAltPathLenDiff := rfl
  entry d' x hx := by
    have he := w.rtDst_of_rtLookup hd
    by_cases heq : d' = d
    · subst heq
      obtain rfl := Option.some.inj (hd.symm.trans hx)
      exact ⟨e', rtLookup_store_self hd (hdst.trans he), h⟩
    · refine ⟨x, ?_, Std.Refl.refl x⟩
      rw [rtLookup_store_ne]
      · exact hx
      · rw [hdst, he]
        exact heq
  missing d' hn := by
    rw [rtLookup_store]
    split
    · rw [hn]
      rfl
    · exact hn
  seqno h := ⟨h, UInt32.le_refl _⟩
  rqueue := List.Sublist.refl _
  out := ⟨[], (List.append_nil _).symm, fun _ hx => absurd hx List.not_mem_nil⟩

end World.Deeds

/-! ### Using a route -/

section Use

open RtEntry (Use)

variable {env : Env} {w w' : World} {p : Packet} {rq : HdrRequest} {rp : HdrReply}

theorem noRequest_of_app {i : NsAddr} (h : p.isEamrp = false) : p.NoRequest i := by
  intro rq hb
  rw [Packet.isEamrp, hb] at h
  cases h

theorem noRequest_of_rrep {i : NsAddr} (h : p.body = .rrep rp) : p.NoRequest i := by
  intro rq hb
  cases h.symm.trans hb

theorem Packet.NoRequest.congr {i : NsAddr} (h : p.NoRequest i) (q : Packet)
    (hb : q.body = p.body) : q.NoRequest i :=
  fun rq hq => h rq (hb ▸ hq)

theorem Forwarded.deeds {rt : Option NsAddr} (h : Forwarded env p w rt w')
    (hp : p.NoRequest w.index) : w.Deeds (Use env.now) w' := by
  cases h with
  | expired => exact .drop w p .ttl
  | dmux => exact .emit w id
  | unicast _ _ _ hd =>
    have hused : ∀ e : RtEntry, e.Use env.now
        (e.used env.now (decide (p.ih.saddr ≠ w.index ∧ p.dataPacket = true))) := Use.used _
    refine (World.Deeds.store hd (hused _) (hused _).rtDst).trans (World.Deeds.send _ ?_ _)
    exact hp.congr _ rfl
  | broadcast => exact .send w (hp.congr p.toAll rfl) _

theorem deeds_drained (q : RQueue) (hq : q.Sublist w.rqueue) :
    w.Deeds (Use env.now) { w with rqueue := q } :=
  .of_routing ⟨rfl, rfl, rfl, rfl, rfl, rfl, rfl, rfl⟩ hq rfl

/-- The loop that forwards the packets buffered for `d`, with whatever delays. -/
theorem deeds_whileForward {β : Type} {d : NsAddr}
    {body : AppPacket → World × β → Except Fault (World × β)}
    (hbody : ∀ p s s', body p s = .ok s' → s'.1 = s.1 ∨ Forwarded env p.val s.1 (some d) s'.1)
    {n : Nat} {s s' : World × β} (h : World.whileDeque env d body n s = .ok s') :
    s.1.Deeds (Use env.now) s'.1 := by
  refine whileDeque_ok (J := fun x => s.1.Deeds (Use env.now) x.1) ?_ ?_ (.refl s.1) h
  · intro v b q hq hv
    exact hv.trans (deeds_drained q hq)
  · intro q v b l x _ _ _ hv hb
    rcases hbody q _ x hb with heq | hfwd
    · rw [heq]
      exact hv
    · exact hv.trans (hfwd.deeds (noRequest_of_app q.2))

/-- When the route to `d` is up, its soft state is reset and the packets for it leave. -/
theorem deeds_routeUp {d : NsAddr} {e : RtEntry} (hd : w.rtLookup d = some e)
    (hup : e.rtFlags = .up) (h : routeUp env d w = .ok w') :
    (w.store e.resetSoftState).Deeds (Use env.now) w' := by
  unfold routeUp at h
  simp only [hd, hup, if_true] at h
  obtain ⟨⟨v, u⟩, hv, h⟩ := of_bind_ok h
  obtain rfl := Except.ok.inj h
  refine deeds_whileForward (fun q s s' hb => ?_) hv
  obtain ⟨x, b⟩ := s
  dsimp only at hb
  split at hb
  · obtain rfl := Except.ok.inj hb
    exact .inl rfl
  · split at hb
    · obtain ⟨y, hy, hb⟩ := of_bind_ok hb
      obtain rfl := Except.ok.inj hb
      exact .inr (forward_ok hy)
    · obtain rfl := Except.ok.inj hb
      exact .inl rfl

theorem routeUp_of_ne {d : NsAddr} {e : RtEntry} (hd : w.rtLookup d = some e)
    (hup : e.rtFlags ≠ .up) (h : routeUp env d w = .ok w') : w' = w := by
  unfold routeUp at h
  rw [hd] at h
  dsimp only at h
  rw [if_neg hup] at h
  exact (Except.ok.inj h).symm

theorem deeds_rebroadcast {rt : Option RtEntry} (hrq : rq.rqSrc ≠ w.index)
    (h : rebroadcast env p rq rt w = .ok w') : w.Deeds (Use env.now) w' := by
  unfold rebroadcast at h
  split at h
  · cases h
  · next e hd =>
    dsimp only at h
    split at h
    · cases h
    · have hst : w.Deeds (Use env.now) (w.store (e.advertise env.inf)) :=
        .store hd (.advertise _ _) rfl
      refine hst.trans ((forward_ok h).deeds fun rq' hb => ?_)
      obtain rfl := Body.rreq.inj hb
      exact hrq

theorem deeds_sendReply {ipdst rpdst nexthop rpFirstHop : NsAddr} {hopCount rpseq bcastId : UInt32}
    {lifetime timestamp : Time} :
    w.Deeds (Use env.now) (sendReply ipdst hopCount rpdst rpseq lifetime timestamp nexthop bcastId
      rpFirstHop w) :=
  .send w (noRequest_of_rrep rfl) 0

theorem deeds_answerFromRoute {ih : HdrIp} {reversePath : Bool} {d : NsAddr} {e : RtEntry}
    (hd : w.rtLookup d = some e) (h : answerFromRoute env ih rq reversePath e w = .ok w') :
    w.Deeds (Use env.now) w' := by
  unfold answerFromRoute at h
  split at h
  · cases h
  · split at h
    · exact Except.ok.inj h ▸ .refl w
    · split at h
      · cases h
      · split at h
        · dsimp only at h
          split at h
          · cases h
          · obtain rfl := Except.ok.inj h
            have hmark : w.Deeds (Use env.now) _ := .idCount w rq.rqSrc rq.rqBcastId
            have hd' : (w.idCount rq.rqSrc rq.rqBcastId).rtLookup d = some e := hd
            have he : e.Use env.now { e.advertise env.inf with rtError := true } :=
              (Use.advertise env.inf e).trans (.rtError true _)
            exact (hmark.trans (.store hd' he rfl)).trans deeds_sendReply
        · exact Except.ok.inj h ▸ .refl w

theorem deeds_answerAsDestination (ih : HdrIp) :
    w.Deeds (Use env.now) (answerAsDestination ih rq w) :=
  (World.Deeds.raiseSeqno w rq).trans deeds_sendReply

theorem deeds_answerRequest {kill reversePath : Bool} (hrq : rq.rqSrc ≠ w.index)
    (h : answerRequest env p rq kill reversePath w = .ok w') : w.Deeds (Use env.now) w' := by
  unfold answerRequest at h
  dsimp only at h
  split at h
  · exact Except.ok.inj h ▸ deeds_answerAsDestination _
  · split at h
    · next e he => exact deeds_answerFromRoute (Option.filter_eq_some_iff.mp he).1 h
    · split at h
      · exact Except.ok.inj h ▸ .refl w
      · exact deeds_rebroadcast hrq h

theorem deeds_forwardReply (h : forwardReply env p rp w = .ok w') :
    w.Deeds (Use env.now) w' := by
  unfold forwardReply at h
  split at h
  · exact Except.ok.inj h ▸ .refl w
  · split at h
    · split at h
      · exact Except.ok.inj h ▸ .refl w
      · dsimp only at h
        split at h
        · next e hp he =>
          split at h
          · cases h
          · split at h
            · cases h
            · next f hf =>
              split at h
              · cases h
              · next g hg =>
                have hmark : w.Deeds (Use env.now) _ := .idCount w p.ih.daddr rp.rpBcastId
                exact (((hmark.trans (.store he (.advertise _ _) rfl)).trans
                  (.store hf (.touchFirst _) rfl)).trans (.store hg (.rtError true _) rfl)).trans
                    ((forward_ok h).deeds (noRequest_of_rrep rfl))
        · cases h
    · exact Except.ok.inj h ▸ .refl w

end Use

/-! ### Losing a route -/

section Loss

open RtEntry (Loss)

variable {env : Env} {w w' : World} {p : Packet}

theorem World.Deeds.loss {now : Time} (h : w.Deeds (RtEntry.Use now) w') :
    w.Deeds (Loss now) w' :=
  h.mono fun _ _ => RtEntry.Use.loss

/-- Dropping the packets that wait for `dst`. -/
theorem deeds_dropBuffered {dst : NsAddr} {reason : DropReason}
    (h : dropBuffered env dst reason w = .ok w') : w.Deeds (RtEntry.Use env.now) w' := by
  unfold dropBuffered at h
  obtain ⟨⟨v, u⟩, hv, h⟩ := of_bind_ok h
  obtain rfl := Except.ok.inj h
  refine whileDeque_ok (J := fun s => w.Deeds (RtEntry.Use env.now) s.1) ?_ ?_ (.refl w) hv
  · intro x _ q hq hx
    exact hx.trans (deeds_drained q hq)
  · intro p x _ q s' _ _ _ hx hb
    obtain rfl := Except.ok.inj hb
    exact hx.trans (.drop _ _ _)

theorem deeds_sendError {re : HdrError} {jitter : Bool} :
    w.Deeds (Loss env.now) (sendError env re jitter w) :=
  .send w (fun _ hb => by cases hb) _

theorem deeds_linkFailureEntry {id dst : NsAddr} {s s' : World × HdrError}
    (h : linkFailureEntry env id s dst = .ok s') : s.1.Deeds (Loss env.now) s'.1 := by
  unfold linkFailureEntry at h
  split at h
  · exact Except.ok.inj h ▸ .refl s.1
  · next e he =>
    split at h
    · split at h
      · cases h
      · have hdel : e.Loss env.now (e.pathDelete id) := .pathDelete id e
        obtain ⟨b, -, h⟩ := of_bind_ok h
        split at h
        · dsimp only at h
          have hloss := (hdel.setSeqno (macroMax (e.rtSeqno + 1) e.rtHighestSeqnoHeard)
            e.rtHighestSeqnoHeard false).trans (.rtDown env.inf _)
          split at h
          · obtain ⟨re, -, h⟩ := of_bind_ok h
            obtain rfl := Except.ok.inj h
            exact .store he hloss hloss.rtDst
          · obtain rfl := Except.ok.inj h
            exact .store he hloss hloss.rtDst
        · obtain rfl := Except.ok.inj h
          exact .store he hdel rfl
    · exact Except.ok.inj h ▸ .refl s.1

theorem deeds_handleLinkFailure {id : NsAddr} (h : handleLinkFailure env id w = .ok w') :
    w.Deeds (Loss env.now) w' := by
  unfold handleLinkFailure at h
  obtain ⟨⟨v, re⟩, hv, h⟩ := of_bind_ok h
  have hloop : w.Deeds (Loss env.now) v :=
    foldlM_ok (J := fun s : World × HdrError => w.Deeds (Loss env.now) s.1)
      (fun _ _ _ _ hx hs => hx.trans (deeds_linkFailureEntry hs)) (.refl w) hv
  obtain rfl := Except.ok.inj h
  split
  · exact hloop.trans deeds_sendError
  · exact hloop

theorem deeds_errorEntry {saddr : NsAddr} {u : NsAddr × UInt32} {s s' : World × HdrError}
    (h : errorEntry env saddr s u = .ok s') : s.1.Deeds (Loss env.now) s'.1 := by
  unfold errorEntry at h
  split at h
  · exact Except.ok.inj h ▸ .refl s.1
  · next e he =>
    split at h
    · split at h
      · cases h
      · have hpath : e.Loss env.now (e.pathDelete saddr) := .pathDelete saddr e
        have hdel := hpath.setSeqno e.rtSeqno (macroMax e.rtHighestSeqnoHeard u.2) e.rtError
        obtain ⟨b, -, h⟩ := of_bind_ok h
        split at h
        · dsimp only at h
          have hdown := (hdel.setSeqno (macroMax e.rtHighestSeqnoHeard u.2)
            (macroMax e.rtHighestSeqnoHeard u.2) e.rtError).trans (.rtDown env.inf _)
          have hloss := hdown.trans (RtEntry.Use.rtError false _).loss
          split at h
          · obtain ⟨nre, -, h⟩ := of_bind_ok h
            obtain rfl := Except.ok.inj h
            exact .store he hloss hloss.rtDst
          · obtain rfl := Except.ok.inj h
            exact .store he hloss hloss.rtDst
        · obtain rfl := Except.ok.inj h
          exact .store he hdel rfl
    · exact Except.ok.inj h ▸ .refl s.1

theorem deeds_recvError {re : HdrError} (h : recvError env p re w = .ok w') :
    w.Deeds (Loss env.now) w' := by
  unfold recvError at h
  obtain ⟨⟨v, nre⟩, hv, h⟩ := of_bind_ok h
  have hloop : w.Deeds (Loss env.now) v :=
    foldlM_ok (J := fun s : World × HdrError => w.Deeds (Loss env.now) s.1)
      (fun _ _ _ _ hx hs => hx.trans (deeds_errorEntry hs)) (.refl w) hv
  obtain rfl := Except.ok.inj h
  split
  · exact hloop.trans deeds_sendError
  · exact hloop

theorem deeds_salvage (h : salvage env p w = .ok w') : w.Deeds (Loss env.now) w' := by
  unfold salvage at h
  split at h
  · exact Except.ok.inj h ▸ .drop w _ _
  · next hdata =>
    split at h
    · exact Except.ok.inj h ▸ .drop w _ _
    · split at h
      · have happ := Packet.isEamrp_of_dataPacket (Bool.eq_true_of_not_eq_false hdata)
        exact ((forward_ok h).deeds ((noRequest_of_app happ).congr _ rfl)).loss
      · exact Except.ok.inj h ▸ .drop w _ _

theorem deeds_whileFilter {id : NsAddr} {n : Nat} (h : whileFilter env id n w = .ok w') :
    w.Deeds (Loss env.now) w' := by
  induction n generalizing w with
  | zero => exact Except.ok.inj h ▸ .refl w
  | succ n ih =>
    unfold whileFilter at h
    split at h
    · exact Except.ok.inj h ▸ .refl w
    · next p v hf =>
      obtain ⟨x, hx, h⟩ := of_bind_ok h
      have hv : w.Deeds (Loss env.now) v := by
        obtain ⟨-, rfl⟩ := Prod.mk.inj hf
        exact .of_routing ⟨rfl, rfl, rfl, rfl, rfl, rfl, rfl, rfl⟩ (List.Sublist.refl _) rfl
      exact (hv.trans (deeds_salvage hx)).trans (ih h)

theorem deeds_nbDelete {id : NsAddr} (h : nbDelete env id w = .ok w') :
    w.Deeds (Loss env.now) w' := by
  unfold nbDelete at h
  dsimp only at h
  split at h
  · cases h
  · obtain ⟨v, hv, h⟩ := of_bind_ok h
    have hown : w.Deeds (Loss env.now) (w.setSeqno (w.seqno.toNat + 2)) :=
      .setSeqno w (Nat.le_add_right _ _)
    have hnb : (w.setSeqno (w.seqno.toNat + 2)).Deeds (Loss env.now)
        { w.setSeqno (w.seqno.toNat + 2) with
          nbhead := w.nbhead.eraseP (fun nb => nb.nbAddr == id) } :=
      .of_routing ⟨rfl, rfl, rfl, rfl, rfl, rfl, rfl, rfl⟩ (List.Sublist.refl _) rfl
    exact hown.trans (hnb.trans ((deeds_handleLinkFailure hv).trans (deeds_whileFilter h)))

theorem deeds_nbPurge (h : nbPurge env w = .ok w') : w.Deeds (Loss env.now) w' := by
  refine foldlM_ok (J := w.Deeds (Loss env.now)) (fun v nb _ v' hv hs => ?_) (.refl w) h
  split at hs
  · exact hv.trans (deeds_nbDelete hs)
  · exact Except.ok.inj hs ▸ hv

end Loss

end Eamrp
