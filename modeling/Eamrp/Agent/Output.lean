import Eamrp.Agent.Buffer

/-!
# What an agent sends

The packets that one event hands to `target_`, with the TTL they carry, and what the event
leaves in the send buffer, in the interface queue and in the neighbour cache.
-/

namespace Eamrp

open Lib

/-! ### Request TTLs -/

namespace RtEntry

/-- The numbers from which `sendRequest` takes the next TTL are not negative. -/
structure Ranged (e : RtEntry) : Prop where
  rtReqLastTtl : 0 ≤ e.rtReqLastTtl
  rtLastHopCount : 0 ≤ e.rtLastHopCount

variable {e : RtEntry}

theorem ranged_requestTtl (h : e.Ranged) :
    1 ≤ (requestTtl e).1 ∧ (requestTtl e).1 ≤ networkDiameter := by
  have hlast : 0 ≤ macroMax e.rtReqLastTtl e.rtLastHopCount := by
    unfold macroMax
    split
    · exact h.rtReqLastTtl
    · exact h.rtLastHopCount
  unfold requestTtl
  dsimp only
  split
  · change 1 ≤ ttlStart ∧ ttlStart ≤ networkDiameter
    decide
  · split
    · next hlt =>
      simp only [ttlThreshold, ttlIncrement, networkDiameter] at hlt ⊢
      omega
    · change 1 ≤ networkDiameter ∧ networkDiameter ≤ networkDiameter
      decide

theorem Ranged.requested (h : e.Ranged) (now : Time) : (e.requested now).Ranged :=
  ⟨(ranged_requestTtl h).1.trans' (by decide), h.rtLastHopCount⟩

theorem Ranged.learn (h : e.Ranged) (env : Env) (a : Agent) (A : Advert) :
    (e.learn env a A).Ranged := by
  have hcount : ∀ n : UInt16, 0 ≤ (n.toNat : Int) := fun n => Int.natCast_nonneg _
  unfold RtEntry.learn
  split_ifs
  · exact ⟨h.rtReqLastTtl, hcount _⟩
  · exact ⟨h.rtReqLastTtl, hcount _⟩
  · exact ⟨h.rtReqLastTtl, h.rtLastHopCount⟩
  · exact h

theorem Ranged.congr {e' : RtEntry} (h : e.Ranged) (ht : e'.rtReqLastTtl = e.rtReqLastTtl)
    (hc : e'.rtLastHopCount = e.rtLastHopCount) : e'.Ranged :=
  ⟨ht ▸ h.rtReqLastTtl, hc ▸ h.rtLastHopCount⟩

theorem rtReqLastTtl_rtDown (inf : Infinity) (e : RtEntry) :
    (e.rtDown inf).rtReqLastTtl = e.rtReqLastTtl := by
  unfold RtEntry.rtDown
  split <;> rfl

theorem rtLastHopCount_rtDown (inf : Infinity) (e : RtEntry) :
    (e.rtDown inf).rtLastHopCount = e.rtLastHopCount := by
  unfold RtEntry.rtDown
  split <;> rfl

theorem Ranged.failed (h : e.Ranged) (inf : Infinity) : (e.failed inf).Ranged :=
  h.congr (rtReqLastTtl_rtDown _ _) (rtLastHopCount_rtDown _ _)

theorem Ranged.withdrawn (h : e.Ranged) (inf : Infinity) : (e.withdrawn inf).Ranged :=
  h.congr (rtReqLastTtl_rtDown _ _) (rtLastHopCount_rtDown _ _)

theorem Ranged.expired (h : e.Ranged) (inf : Infinity) : (e.expired inf).Ranged :=
  h.congr (rtReqLastTtl_rtDown _ _) (rtLastHopCount_rtDown _ _)

theorem Ranged.advertise (h : e.Ranged) (inf : Infinity) : (e.advertise inf).Ranged :=
  h.congr rfl rfl

theorem Ranged.touchFirst (h : e.Ranged) (now : Time) : (e.touchFirst now).Ranged :=
  h.congr rfl rfl

theorem Ranged.rtError (h : e.Ranged) (b : Bool) : { e with rtError := b }.Ranged :=
  h.congr rfl rfl

theorem Ranged.used (h : e.Ranged) (now : Time) (transit : Bool) : (e.used now transit).Ranged := by
  unfold RtEntry.used
  split
  · exact h.congr rfl rfl
  · exact h.congr rfl rfl

end RtEntry

/-- All request numbers are in range. -/
def Agent.Ranged (a : Agent) : Prop := ∀ e ∈ a.rtable, e.Ranged

/-! ### Handlers -/

/-- Since `w` only packets in `Q` have been handed to `target_`, only packets in `B` have entered
the send buffer, and nothing has entered the interface queue or the neighbour cache. -/
structure World.Emits (Q : Packet → Prop) (B : AppPacket → Prop) (w w' : World) : Prop where
  index : w'.index = w.index
  nbhead : w'.nbhead.Sublist w.nbhead
  ifqueue : w'.ifqueue.Sublist w.ifqueue
  ranged : w.Ranged → w'.Ranged
  rqueue : ∀ p ∈ w'.rqueue, p ∈ w.rqueue ∨ B p
  sent : ∀ p ∈ w'.sent, p ∈ w.sent ∨ Q p

namespace World.Emits

variable {Q Q' : Packet → Prop} {B B' : AppPacket → Prop} {w w' w'' : World}

/-- Nothing the relation depends on has changed. -/
theorem of_eq (hi : w'.index = w.index) (hn : w'.nbhead.Sublist w.nbhead)
    (hf : w'.ifqueue.Sublist w.ifqueue) (ht : w'.rtable = w.rtable)
    (hq : w'.rqueue.Sublist w.rqueue) (ho : w'.out = w.out) : w.Emits Q B w' where
  index := hi
  nbhead := hn
  ifqueue := hf
  ranged hw := by
    unfold Agent.Ranged
    rw [ht]
    exact hw
  rqueue p hp := .inl (hq.subset hp)
  sent p hp := .inl (by rwa [World.sent, ho] at hp)

theorem refl (w : World) : w.Emits Q B w :=
  of_eq rfl (List.Sublist.refl _) (List.Sublist.refl _) rfl (List.Sublist.refl _) rfl

theorem trans (h : w.Emits Q B w') (h' : w'.Emits Q B w'') : w.Emits Q B w'' where
  index := h'.index.trans h.index
  nbhead := h'.nbhead.trans h.nbhead
  ifqueue := h'.ifqueue.trans h.ifqueue
  ranged hw := h'.ranged (h.ranged hw)
  rqueue p hp := by
    rcases h'.rqueue p hp with hp | hp
    · exact h.rqueue p hp
    · exact .inr hp
  sent p hp := by
    rcases h'.sent p hp with hp | hp
    · exact h.sent p hp
    · exact .inr hp

theorem mono (h : w.Emits Q B w') (hQ : ∀ p, Q p → Q' p) (hB : ∀ p, B p → B' p) :
    w.Emits Q' B' w' where
  index := h.index
  nbhead := h.nbhead
  ifqueue := h.ifqueue
  ranged := h.ranged
  rqueue p hp := (h.rqueue p hp).imp id (hB p)
  sent p hp := (h.sent p hp).imp id (hQ p)

/-- An effect that hands nothing to `target_`. -/
theorem emit {x : Effect} (hx : x.sent? = none) (w : World) : w.Emits Q B (w.emit x) where
  index := rfl
  nbhead := List.Sublist.refl _
  ifqueue := List.Sublist.refl _
  ranged hw := hw
  rqueue p hp := .inl hp
  sent p hp := by
    left
    simpa [World.sent, World.emit, hx] using hp

theorem send {p : Packet} (hp : Q p) (w : World) (delay : Time) :
    w.Emits Q B (w.send p delay) where
  index := rfl
  nbhead := List.Sublist.refl _
  ifqueue := List.Sublist.refl _
  ranged hw := hw
  rqueue p hp := .inl hp
  sent q hq := by
    have hq : q ∈ w.sent ∨ q = p := by
      simpa [World.sent, World.send, World.emit, Effect.sent?] using hq
    rcases hq with hq | rfl
    · exact .inl hq
    · exact .inr hp

theorem put {e' : RtEntry} (h : w.Ranged → e'.Ranged) : w.Emits Q B (w.store e') where
  index := rfl
  nbhead := List.Sublist.refl _
  ifqueue := List.Sublist.refl _
  ranged hw f hf := by
    obtain ⟨x, hx, rfl⟩ := List.mem_map.mp hf
    split
    · exact h hw
    · exact hw x hx
  rqueue p hp := .inl hp
  sent p hp := .inl hp

theorem store {d : NsAddr} {e e' : RtEntry} (hd : w.rtLookup d = some e)
    (h : e.Ranged → e'.Ranged) : w.Emits Q B (w.store e') :=
  put fun hw => h (hw e (List.mem_of_find?_eq_some hd))

theorem idCount (w : World) (src : NsAddr) (bid : UInt32) : w.Emits Q B (w.idCount src bid) :=
  of_eq rfl (List.Sublist.refl _) (List.Sublist.refl _) rfl (List.Sublist.refl _) rfl

theorem idPurge (env : Env) (w : World) : w.Emits Q B (w.idPurge env) :=
  of_eq rfl (List.Sublist.refl _) (List.Sublist.refl _) rfl (List.Sublist.refl _) rfl

theorem rtEnsure {env : Env} {d : NsAddr} (h : w.rtEnsure env d = .ok w') :
    w.Emits Q B w' := by
  unfold World.rtEnsure at h
  split at h
  · exact Except.ok.inj h ▸ .refl w
  · obtain ⟨-, rfl⟩ := World.rtAdd_ok h
    refine ⟨rfl, List.Sublist.refl _, List.Sublist.refl _, fun hw e he => ?_,
      fun p hp => .inl hp, fun p hp => .inl hp⟩
    rcases List.mem_cons.mp he with rfl | he
    · exact ⟨Int.le_refl 0, (by decide : (0 : Int) ≤ 255)⟩
    · exact hw e he

end World.Emits

/-- The packet is `p₀` but for its common header, of which the hop counter is the same. -/
structure Packet.CopyOf (p p₀ : Packet) : Prop where
  ih : p.ih = p₀.ih
  body : p.body = p₀.body
  numForwards : p.ch.numForwards = p₀.ch.numForwards

/-- A routing packet whose TTL is in the range that the agent sets. -/
structure Packet.Issued (p : Packet) : Prop where
  isEamrp : p.isEamrp = true
  pos : 1 ≤ p.ih.ttl
  le : p.ih.ttl ≤ networkDiameter

/-- Two packets of other protocols, two RREQs or two RREPs. -/
def Packet.SameKind (p q : Packet) : Prop :=
  (p.isEamrp = false ∧ q.isEamrp = false) ∨
    ((∃ rq, p.body = .rreq rq) ∧ ∃ rq, q.body = .rreq rq) ∨
    ((∃ rp, p.body = .rrep rp) ∧ ∃ rp, q.body = .rrep rp)

section Handlers

variable {Q : Packet → Prop} {B : AppPacket → Prop} {env : Env} {w w' : World} {p : Packet}

theorem Forwarded.emits {rt : Option NsAddr} (h : Forwarded env p w rt w')
    (hQ : p.ih.ttl ≠ 0 → ∀ q, q.CopyOf p → Q q) : w.Emits Q B w' := by
  cases h with
  | expired => exact .emit rfl w
  | dmux => exact .emit rfl w
  | unicast httl _ _ hd =>
    refine (World.Emits.store hd fun he => he.used _ _).trans (.send (hQ httl _ ?_) _ _)
    exact ⟨rfl, rfl, rfl⟩
  | broadcast httl => exact .send (hQ httl p.toAll ⟨rfl, rfl, rfl⟩) w _

theorem emits_dropBuffered {d : NsAddr} {reason : DropReason}
    (h : dropBuffered env d reason w = .ok w') : w.Emits Q B w' := by
  unfold dropBuffered at h
  obtain ⟨⟨v, u⟩, hv, h⟩ := of_bind_ok h
  obtain rfl := Except.ok.inj h
  refine whileDeque_ok (J := fun s => w.Emits Q B s.1) ?_ ?_ (.refl w) hv
  · intro x _ q hq hx
    exact hx.trans (.of_eq rfl (List.Sublist.refl _) (List.Sublist.refl _) rfl hq rfl)
  · intro p x _ q s' _ _ _ hx hb
    obtain rfl := Except.ok.inj hb
    exact hx.trans (.emit rfl _)

/-- `sendRequest` sends RREQs with a TTL in range. -/
theorem emits_sendRequest {d : NsAddr} (hw : w.Ranged) (h : sendRequest env d w = .ok w')
    (hQ : ∀ q : Packet, q.Issued → (∃ rq, q.body = .rreq rq) → Q q) : w.Emits Q B w' := by
  cases sendRequest_asked h with
  | up => exact .refl w
  | early => exact .refl w
  | @hold e _ he _ _ _ h =>
    have hst : w.Emits Q B (w.store
        { e with rtReqTimeout := env.now + maxRreqTimeout, rtReqCnt := 0 }) :=
      .store he fun hr => ⟨hr.rtReqLastTtl, hr.rtLastHopCount⟩
    exact hst.trans (emits_dropBuffered h)
  | @send e he =>
    have hrange := hw e (List.mem_of_find?_eq_some he)
    have hst : w.Emits Q B (w.store (e.requested env.now)) :=
      .store he fun hr => hr.requested env.now
    refine hst.trans (World.Emits.trans ?_ (.send (hQ _ ?_ ⟨_, rfl⟩) _ _))
    · exact .of_eq rfl (List.Sublist.refl _) (List.Sublist.refl _) rfl
        (List.Sublist.refl _) rfl
    · obtain ⟨hpos, hle⟩ := RtEntry.ranged_requestTtl hrange
      exact ⟨rfl, hpos, hle⟩

theorem emits_sendError {re : HdrError} {jitter : Bool}
    (hQ : ∀ q : Packet, q.Issued → (∃ re, q.body = .rerr re) → Q q) :
    w.Emits Q B (sendError env re jitter w) :=
  .send (hQ _ ⟨rfl, Int.le_refl 1, (by decide : (1 : Int) ≤ networkDiameter)⟩ ⟨_, rfl⟩) w _

theorem emits_sendHello (hQ : ∀ q : Packet, q.Issued → (∃ rp, q.body = .hello rp) → Q q) :
    w.Emits Q B (sendHello w) :=
  .send (hQ _ ⟨rfl, Int.le_refl 1, (by decide : (1 : Int) ≤ networkDiameter)⟩ ⟨_, rfl⟩) w _

theorem emits_routeUp {d : NsAddr} (h : routeUp env d w = .ok w')
    (hQ : ∀ p ∈ w.rqueue, p.val.ih.ttl ≠ 0 → ∀ q : Packet, q.CopyOf p.val → Q q) :
    w.Emits Q (fun _ => False) w' := by
  unfold routeUp at h
  split at h
  · cases h
  · next e hd =>
    split at h
    · obtain ⟨⟨v, u⟩, hv, h⟩ := of_bind_ok h
      obtain rfl := Except.ok.inj h
      refine whileDeque_ok (J := fun s => w.Emits Q (fun _ => False) s.1) ?_ ?_ ?_ hv
      · intro v _ q hq hv
        exact hv.trans (.of_eq rfl (List.Sublist.refl _) (List.Sublist.refl _) rfl hq rfl)
      · intro p v b q s' hp _ hold hv hb
        have hp : p ∈ w.rqueue := (hold.rqueue p hp).resolve_right id
        dsimp only at hb
        split at hb
        · obtain rfl := Except.ok.inj hb
          exact hv
        · split at hb
          · obtain ⟨x, hx, hb⟩ := of_bind_ok hb
            obtain rfl := Except.ok.inj hb
            exact hv.trans ((forward_ok hx).emits (hQ p hp))
          · obtain rfl := Except.ok.inj hb
            exact hv
      · exact .store hd fun hr => ⟨Int.le_refl 0, hr.rtLastHopCount⟩
    · obtain rfl := Except.ok.inj h
      exact .refl w

/-- What a RREQ or RREP that is handled may be passed on as. -/
def Packet.PassedOn (p q : Packet) : Prop :=
  q.SameKind p ∧ q.ih.ttl = p.ih.ttl ∧ q.ch.numForwards = p.ch.numForwards

theorem emits_rebroadcast {rq : HdrRequest} {rt : Option RtEntry} (hb : ∃ rq, p.body = .rreq rq)
    (h : rebroadcast env p rq rt w = .ok w')
    (hQ : p.ih.ttl ≠ 0 → ∀ q, p.PassedOn q → Q q) : w.Emits Q B w' := by
  unfold rebroadcast at h
  split at h
  · cases h
  · next e hd =>
    dsimp only at h
    split at h
    · cases h
    · refine World.Emits.trans (.store hd fun hr => hr.advertise env.inf)
        ((forward_ok h).emits fun httl q hq => hQ httl q ?_)
      have hbody : ∃ rq, q.body = .rreq rq := ⟨_, hq.body⟩
      exact ⟨.inr (.inl ⟨hbody, hb⟩), by rw [hq.ih], hq.numForwards⟩

theorem emits_answerFromRoute {ih : HdrIp} {rq : HdrRequest} {reversePath : Bool} {d : NsAddr}
    {e : RtEntry} (hd : w.rtLookup d = some e)
    (h : answerFromRoute env ih rq reversePath e w = .ok w')
    (hQ : ∀ q : Packet, q.Issued → (∃ rp, q.body = .rrep rp) → Q q) : w.Emits Q B w' := by
  unfold answerFromRoute at h
  split at h
  · cases h
  · split at h
    · exact Except.ok.inj h ▸ .refl w
    · split at h
      · cases h
      · split at h
        · dsimp only at h
          split at h
          · cases h
          · obtain rfl := Except.ok.inj h
            have hd' : (w.idCount rq.rqSrc rq.rqBcastId).rtLookup d = some e := hd
            refine ((World.Emits.idCount w rq.rqSrc rq.rqBcastId).trans
              (.store hd' fun hr => (hr.advertise env.inf).rtError true)).trans (.send ?_ _ _)
            exact hQ _ ⟨rfl, (by decide : 1 ≤ networkDiameter), Int.le_refl _⟩ ⟨_, rfl⟩
        · exact Except.ok.inj h ▸ .refl w

theorem emits_answerAsDestination {ih : HdrIp} {rq : HdrRequest}
    (hQ : ∀ q : Packet, q.Issued → (∃ rp, q.body = .rrep rp) → Q q) :
    w.Emits Q B (answerAsDestination ih rq w) := by
  have hraise : w.Emits Q B (w.raiseSeqno rq) := by
    rw [World.raiseSeqno_eq]
    exact .of_eq rfl (List.Sublist.refl _) (List.Sublist.refl _) rfl (List.Sublist.refl _) rfl
  refine hraise.trans (.send (hQ _ ?_ ⟨_, rfl⟩) _ _)
  exact ⟨rfl, (by decide : 1 ≤ networkDiameter), Int.le_refl _⟩

/-- A RREQ is answered with a RREP, or passed on. -/
theorem emits_answerRequest {rq : HdrRequest} {kill reversePath : Bool}
    (hb : ∃ rq, p.body = .rreq rq) (h : answerRequest env p rq kill reversePath w = .ok w')
    (hrep : ∀ q : Packet, q.Issued → (∃ rp, q.body = .rrep rp) → Q q)
    (hQ : p.ih.ttl ≠ 0 → ∀ q, p.PassedOn q → Q q) : w.Emits Q B w' := by
  unfold answerRequest at h
  dsimp only at h
  split at h
  · exact Except.ok.inj h ▸ emits_answerAsDestination hrep
  · split at h
    · next e he => exact emits_answerFromRoute (Option.filter_eq_some_iff.mp he).1 h hrep
    · split at h
      · exact Except.ok.inj h ▸ .refl w
      · exact emits_rebroadcast hb h hQ

theorem emits_forwardReply {rp : HdrReply} (hb : ∃ rp, p.body = .rrep rp)
    (h : forwardReply env p rp w = .ok w')
    (hQ : p.ih.ttl ≠ 0 → ∀ q, p.PassedOn q → Q q) : w.Emits Q B w' := by
  unfold forwardReply at h
  split at h
  · exact Except.ok.inj h ▸ .refl w
  · split at h
    · split at h
      · exact Except.ok.inj h ▸ .refl w
      · dsimp only at h
        split at h
        · next e hp he =>
          split at h
          · cases h
          · split at h
            · cases h
            · next f hf =>
              split at h
              · cases h
              · next g hg =>
                refine ((((World.Emits.idCount w p.ih.daddr rp.rpBcastId).trans
                  (.store he fun hr => hr.advertise env.inf)).trans
                  (.store hf fun hr => hr.touchFirst env.now)).trans
                  (.store hg fun hr => hr.rtError true)).trans
                  ((forward_ok h).emits fun httl q hq => hQ httl q ?_)
                exact ⟨.inr (.inr ⟨⟨_, hq.body⟩, hb⟩), by rw [hq.ih], hq.numForwards⟩
        · cases h
    · exact Except.ok.inj h ▸ .refl w

/-- The flush of the buffer, after other stages. -/
theorem World.Emits.flush {v u : World} {d : NsAddr} (h : w.Emits Q (fun _ => False) v)
    (hup : routeUp env d v = .ok u)
    (hQ : ∀ p ∈ w.rqueue, p.val.ih.ttl ≠ 0 → ∀ q : Packet, q.CopyOf p.val → Q q) :
    w.Emits Q (fun _ => False) u :=
  h.trans (emits_routeUp hup fun p hp => hQ p ((h.rqueue p hp).resolve_right id))

theorem emits_recvRequest {rq : HdrRequest} (h : recvRequest env p rq w = .ok w')
    (hb : ∃ rq, p.body = .rreq rq)
    (hflush : ∀ p ∈ w.rqueue, p.val.ih.ttl ≠ 0 → ∀ q : Packet, q.CopyOf p.val → Q q)
    (hrep : ∀ q : Packet, q.Issued → (∃ rp, q.body = .rrep rp) → Q q)
    (hQ : p.ih.ttl ≠ 0 → ∀ q, p.PassedOn q → Q q) : w.Emits Q (fun _ => False) w' := by
  by_cases hne : rq.rqSrc = w.index
  · unfold recvRequest at h
    rw [if_pos hne] at h
    exact Except.ok.inj h ▸ .refl w
  · obtain ⟨v, e, e', verdict, hv, he, hr, hrest⟩ := recvRequest_stages h hne
    obtain ⟨hlearn, -⟩ := learn_of_reverseRoute hr
    have hmem : w.Emits Q (fun _ => False) (w.remember env rq) := by
      rw [World.remember_eq]
      exact .of_eq rfl (List.Sublist.refl _) (List.Sublist.refl _) rfl (List.Sublist.refl _) rfl
    have hst : w.Emits Q (fun _ => False) (v.store e') :=
      (hmem.trans (.rtEnsure hv)).trans (.store he fun hr => hlearn ▸ hr.learn env v.toAgent _)
    rcases hrest with ⟨-, rfl⟩ | ⟨b, u, -, hup, hans⟩
    · exact hst
    · exact (hst.flush hup hflush).trans (emits_answerRequest hb hans hrep hQ)

theorem emits_recvReply {rp : HdrReply} (h : recvReply env p rp w = .ok w')
    (hflush : ∀ p ∈ w.rqueue, p.val.ih.ttl ≠ 0 → ∀ q : Packet, q.CopyOf p.val → Q q)
    (hQ : p.ih.daddr ≠ w.index → (∃ rp, p.body = .rrep rp) ∧
      (p.ih.ttl ≠ 0 → ∀ q, p.PassedOn q → Q q)) : w.Emits Q (fun _ => False) w' := by
  by_cases hne : rp.rpDst = w.index
  · unfold recvReply at h
    rw [if_pos hne] at h
    exact Except.ok.inj h ▸ .refl w
  · obtain ⟨v, e, e', verdict, hv, he, hr, hrest⟩ := recvReply_stages h hne
    obtain ⟨hlearn, -⟩ := learn_of_forwardRoute hr
    have hst : w.Emits Q (fun _ => False) (v.store e') :=
      (World.Emits.rtEnsure hv).trans (.store he fun hr => hlearn ▸ hr.learn env v.toAgent _)
    rcases hrest with ⟨-, rfl⟩ | ⟨b, u, -, hup, hans⟩
    · exact hst
    · have hu := hst.flush hup hflush
      by_cases hd : p.ih.daddr = u.index
      · unfold forwardReply at hans
        rw [if_pos hd] at hans
        exact Except.ok.inj hans ▸ hu
      · obtain ⟨hb, hpass⟩ := hQ (hu.index ▸ hd)
        exact hu.trans (emits_forwardReply hb hans hpass)

theorem emits_errorEntry {x : NsAddr} {u : NsAddr × UInt32} {s s' : World × HdrError}
    (h : errorEntry env x s u = .ok s') : s.1.Emits Q B s'.1 := by
  unfold errorEntry at h
  split at h
  · exact Except.ok.inj h ▸ .refl s.1
  · next e he =>
    split at h
    · split at h
      · cases h
      · obtain ⟨b, -, h⟩ := of_bind_ok h
        have hdel : e.Ranged → ((e.pathDelete x).heardError u.2).Ranged :=
          fun hr => ⟨hr.rtReqLastTtl, hr.rtLastHopCount⟩
        split at h
        · dsimp only at h
          split at h <;> obtain ⟨re, -, h⟩ := of_bind_ok h <;> obtain rfl := Except.ok.inj h <;>
            exact .store he fun hr => (hdel hr).withdrawn env.inf
        · obtain rfl := Except.ok.inj h
          exact .store he hdel
    · exact Except.ok.inj h ▸ .refl s.1

theorem emits_recvError {re : HdrError} (h : recvError env p re w = .ok w')
    (hQ : ∀ q : Packet, q.Issued → (∃ re, q.body = .rerr re) → Q q) : w.Emits Q B w' := by
  unfold recvError at h
  obtain ⟨⟨v, nre⟩, hv, h⟩ := of_bind_ok h
  have hloop : w.Emits Q B v :=
    foldlM_ok (J := fun s : World × HdrError => w.Emits Q B s.1)
      (fun _ _ _ _ hx hs => hx.trans (emits_errorEntry hs)) (.refl w) hv
  obtain rfl := Except.ok.inj h
  split
  · exact hloop.trans (emits_sendError hQ)
  · exact hloop

theorem emits_linkFailureEntry {id dst : NsAddr} {s s' : World × HdrError}
    (h : linkFailureEntry env id s dst = .ok s') : s.1.Emits Q B s'.1 := by
  unfold linkFailureEntry at h
  split at h
  · exact Except.ok.inj h ▸ .refl s.1
  · next e he =>
    split at h
    · split at h
      · cases h
      · obtain ⟨b, -, h⟩ := of_bind_ok h
        have hdel : e.Ranged → (e.pathDelete id).Ranged :=
          fun hr => ⟨hr.rtReqLastTtl, hr.rtLastHopCount⟩
        split at h
        · dsimp only at h
          split at h <;> obtain ⟨re, -, h⟩ := of_bind_ok h <;> obtain rfl := Except.ok.inj h <;>
            exact .store he fun hr => (hdel hr).failed env.inf
        · obtain rfl := Except.ok.inj h
          exact .store he hdel
    · exact Except.ok.inj h ▸ .refl s.1

theorem emits_handleLinkFailure {id : NsAddr} (h : handleLinkFailure env id w = .ok w')
    (hQ : ∀ q : Packet, q.Issued → (∃ re, q.body = .rerr re) → Q q) : w.Emits Q B w' := by
  unfold handleLinkFailure at h
  obtain ⟨⟨v, re⟩, hv, h⟩ := of_bind_ok h
  have hloop : w.Emits Q B v :=
    foldlM_ok (J := fun s : World × HdrError => w.Emits Q B s.1)
      (fun _ _ _ _ hx hs => hx.trans (emits_linkFailureEntry hs)) (.refl w) hv
  obtain rfl := Except.ok.inj h
  split
  · exact hloop.trans (emits_sendError hQ)
  · exact hloop

theorem emits_salvage (h : salvage env p w = .ok w')
    (hQ : p.isEamrp = false → p.ih.ttl ≠ 0 → ∀ q, q.CopyOf p → Q q) : w.Emits Q B w' := by
  unfold salvage at h
  split at h
  · exact Except.ok.inj h ▸ .emit rfl w
  · next hdata =>
    have happ : p.isEamrp = false := Packet.isEamrp_of_dataPacket (by simpa using hdata)
    split at h
    · exact Except.ok.inj h ▸ .emit rfl w
    · split at h
      · exact (forward_ok h).emits fun httl q hq => hQ happ httl q ⟨hq.ih, hq.body, hq.numForwards⟩
      · exact Except.ok.inj h ▸ .emit rfl w

theorem emits_whileFilter {id : NsAddr} {n : Nat} (h : whileFilter env id n w = .ok w')
    (hQ : ∀ p ∈ w.ifqueue, p.isEamrp = false → p.ih.ttl ≠ 0 → ∀ q : Packet, q.CopyOf p → Q q) :
    w.Emits Q B w' := by
  induction n generalizing w with
  | zero => exact Except.ok.inj h ▸ .refl w
  | succ n ih =>
    unfold whileFilter at h
    split at h
    · exact Except.ok.inj h ▸ .refl w
    · next p v hf =>
      obtain ⟨hp, rfl⟩ := Prod.mk.inj hf
      obtain ⟨x, hx, h⟩ := of_bind_ok h
      have hfirst := emits_salvage (Q := Q) (B := B) hx (hQ p (List.mem_of_find?_eq_some hp))
      have hout : w.Emits Q B { w with ifqueue := w.ifqueue.eraseP fun p => p.ch.nextHop == id } :=
        .of_eq rfl (List.Sublist.refl _) (List.eraseP_sublist ..) rfl (List.Sublist.refl _) rfl
      have hturn := hout.trans hfirst
      exact hturn.trans (ih h fun q hq => hQ q (hturn.ifqueue.subset hq))

theorem emits_nbDelete {id : NsAddr} (h : nbDelete env id w = .ok w')
    (herr : ∀ q : Packet, q.Issued → (∃ re, q.body = .rerr re) → Q q)
    (hQ : ∀ p ∈ w.ifqueue, p.isEamrp = false → p.ih.ttl ≠ 0 → ∀ q : Packet, q.CopyOf p → Q q) :
    w.Emits Q B w' := by
  unfold nbDelete at h
  dsimp only at h
  split at h
  · cases h
  · obtain ⟨v, hv, h⟩ := of_bind_ok h
    have hstart : w.Emits Q B { w.setSeqno (w.seqno.toNat + 2) with
        nbhead := w.nbhead.eraseP fun nb => nb.nbAddr == id } :=
      .of_eq rfl (List.eraseP_sublist ..) (List.Sublist.refl _) rfl (List.Sublist.refl _) rfl
    have hloss := hstart.trans (emits_handleLinkFailure hv herr)
    exact hloss.trans (emits_whileFilter h fun q hq => hQ q (hloss.ifqueue.subset hq))

theorem emits_nbPurge (h : nbPurge env w = .ok w')
    (herr : ∀ q : Packet, q.Issued → (∃ re, q.body = .rerr re) → Q q)
    (hQ : ∀ p ∈ w.ifqueue, p.isEamrp = false → p.ih.ttl ≠ 0 → ∀ q : Packet, q.CopyOf p → Q q) :
    w.Emits Q B w' := by
  refine foldlM_ok (J := w.Emits Q B) (fun v nb _ v' hv hs => ?_) (.refl w) h
  split at hs
  · exact hv.trans (emits_nbDelete hs herr fun q hq => hQ q (hv.ifqueue.subset hq))
  · exact Except.ok.inj hs ▸ hv

theorem emits_rtPurgeEntry {d : NsAddr} {s s' : World × Time} (hr : s.1.Ranged)
    (h : rtPurgeEntry env s d = .ok s')
    (hreq : ∀ q : Packet, q.Issued → (∃ rq, q.body = .rreq rq) → Q q)
    (hflush : ∀ p ∈ s.1.rqueue, p.val.ih.ttl ≠ 0 → ∀ q : Packet, q.CopyOf p.val → Q q) :
    s.1.Emits Q (fun _ => False) s'.1 := by
  unfold rtPurgeEntry at h
  split at h
  · exact Except.ok.inj h ▸ .refl s.1
  · next e he =>
    split at h
    · obtain ⟨k, -, hpurge⟩ := e.pathPurge_eq env.now
      have hkept : e.Ranged → (e.pathPurge env.now).Ranged := by
        rw [hpurge]
        exact fun hr => ⟨hr.rtReqLastTtl, hr.rtLastHopCount⟩
      obtain ⟨b, -, h⟩ := of_bind_ok h
      split at h
      · obtain ⟨v, hv, h⟩ := of_bind_ok h
        obtain rfl := Except.ok.inj h
        have hmem := hr e (List.mem_of_find?_eq_some he)
        exact (emits_dropBuffered hv).trans (.put fun _ => (hkept hmem).expired env.inf)
      · obtain rfl := Except.ok.inj h
        exact .store he hkept
    · split at h
      · split at h
        · cases h
        · obtain ⟨w, delay⟩ := s
          refine whileDeque_ok (J := fun s => w.Emits Q (fun _ => False) s.1) ?_ ?_ (.refl w) h
          · intro v _ q hq hv
            exact hv.trans (.of_eq rfl (List.Sublist.refl _) (List.Sublist.refl _) rfl hq rfl)
          · intro p v b q s' hp _ hold hv hb
            have hp : p ∈ w.rqueue := (hold.rqueue p hp).resolve_right id
            obtain ⟨x, hx, hb⟩ := of_bind_ok hb
            obtain rfl := Except.ok.inj hb
            exact hv.trans ((forward_ok hx).emits (hflush p hp))
      · split at h
        · obtain ⟨v, hv, h⟩ := of_bind_ok h
          obtain rfl := Except.ok.inj h
          exact emits_sendRequest hr hv hreq
        · exact Except.ok.inj h ▸ .refl s.1

theorem emits_rtPurge (hr : w.Ranged) (h : rtPurge env w = .ok w')
    (hreq : ∀ q : Packet, q.Issued → (∃ rq, q.body = .rreq rq) → Q q)
    (hflush : ∀ p ∈ w.rqueue, p.val.ih.ttl ≠ 0 → ∀ q : Packet, q.CopyOf p.val → Q q) :
    w.Emits Q (fun _ => False) w' := by
  unfold rtPurge at h
  obtain ⟨⟨v, delay⟩, hv, h⟩ := of_bind_ok h
  obtain rfl := Except.ok.inj h
  refine foldlM_ok (J := fun s : World × Time => w.Emits Q (fun _ => False) s.1) ?_ (.refl w) hv
  rintro s d - s' hs hd
  exact hs.trans (emits_rtPurgeEntry (hs.ranged hr) hd hreq
    fun p hp => hflush p ((hs.rqueue p hp).resolve_right id))

theorem emits_enque {p : AppPacket}
    (hB : ∀ ch : HdrCmn, ch.numForwards = p.val.ch.numForwards → B (p.withCmn ch)) :
    w.Emits Q B (w.enque env p) where
  index := rfl
  nbhead := List.Sublist.refl _
  ifqueue := List.Sublist.refl _
  ranged hw := hw
  rqueue x hx := by
    rcases mem_enque hx with hx | rfl
    · exact .inl hx
    · exact .inr (hB _ rfl)
  sent x hx := by
    left
    unfold World.sent World.enque at hx
    rw [List.filterMap_append, List.mem_append] at hx
    refine hx.resolve_right fun hx => ?_
    obtain ⟨y, hy, hsome⟩ := List.mem_filterMap.mp hx
    obtain ⟨d, -, rfl⟩ := List.mem_map.mp hy
    cases hsome

/-- `rt_resolve` passes the packet on or buffers it, or sends a RREQ or a RERR about it. -/
theorem emits_rtResolve {p : AppPacket} (hr : w.Ranged)
    (hrepair : ∀ d e, w.rtLookup d = some e → e.rtFlags ≠ .inRepair)
    (h : rtResolve env p w = .ok w')
    (hreq : ∀ q : Packet, q.Issued → (∃ rq, q.body = .rreq rq) → Q q)
    (herr : ∀ q : Packet, q.Issued → (∃ re, q.body = .rerr re) → Q q)
    (hQ : p.val.ih.ttl ≠ 0 → ∀ q : Packet, q.CopyOf p.val → Q q)
    (hB : p.val.ih.saddr = w.index → ∀ ch : HdrCmn, ch.numForwards = p.val.ch.numForwards →
      B (p.withCmn ch)) : w.Emits Q B w' := by
  unfold rtResolve at h
  obtain ⟨v, hv, h⟩ := of_bind_ok h
  have hadd : w.Emits Q B v := .rtEnsure hv
  split at h
  · cases h
  · next e he =>
    have hnot : e.rtFlags ≠ .inRepair := World.rtEnsure_not_inRepair hrepair hv he
    split at h
    · split at h
      · cases h
      · exact hadd.trans ((forward_ok h).emits hQ)
    · split at h
      · next hs =>
        have hq : w.Emits Q B (v.enque env p) := hadd.trans (emits_enque (hB (hs.trans hadd.index)))
        exact hq.trans (emits_sendRequest (hq.ranged hr) h hreq)
      · split at h
        · cases h
        · obtain ⟨re, -, h⟩ := of_bind_ok h
          obtain rfl := Except.ok.inj h
          exact (hadd.trans (emits_sendError herr)).trans (.emit rfl _)

end Handlers

/-! ### Events -/

/-- The node's own transport hands the packet to the agent, line 635. -/
structure Packet.HandedDown (i : NsAddr) (q : Packet) : Prop where
  isEamrp : q.isEamrp = false
  saddr : q.ih.saddr = i
  numForwards : q.ch.numForwards = 0

namespace Agent

/-- The packets that the agent hands to `target_` when it handles an input, with their TTL. -/
inductive Sends (a : Agent) (inp : Input) (p : Packet) : Prop where
  /-- A new RREQ, RREP, RERR or HELLO. -/
  | issue (h : p.Issued) (hk : ∀ q, inp = .recv q → ¬ p.SameKind q) : Sends a inp p
  /-- A unicast packet of the node's own. -/
  | originate {q : Packet} (hq : inp = .recv q) (hl : q.HandedDown a.index)
      (hd : q.ih.daddr ≠ ipBroadcast) (happ : p.isEamrp = false)
      (httl : p.ih.ttl = networkDiameter) (hn : p.ch.numForwards = 0) : Sends a inp p
  /-- A broadcast packet of the node's own; its TTL stays as it is. -/
  | spread {q : Packet} (hq : inp = .recv q) (hl : q.HandedDown a.index)
      (hd : q.ih.daddr = ipBroadcast) (hc : p.CopyOf q) : Sends a inp p
  /-- The packet that has been received, one hop older. -/
  | relay {q : Packet} (hq : inp = .recv q) (hl : ¬ q.HandedDown a.index) (hk : p.SameKind q)
      (httl : p.ih.ttl = q.ih.ttl - 1) (hne : p.ih.ttl ≠ 0)
      (hn : p.ch.numForwards = q.ch.numForwards) : Sends a inp p
  /-- A packet from the send buffer. -/
  | flush {p₀ : AppPacket} (hp : p₀ ∈ a.rqueue) (hq : ∀ q, inp = .recv q → q.isEamrp = true)
      (hc : p.CopyOf p₀.val) : Sends a inp p
  /-- A packet from the interface queue, salvaged. -/
  | salvage {p₀ : Packet} (hp : p₀ ∈ a.ifqueue) (hq : inp = .neighborTimer)
      (happ : p₀.isEamrp = false) (hc : p.CopyOf p₀) : Sends a inp p

/-- The packets that enter the send buffer: unicast packets of the node's own. -/
def Buffers (a : Agent) (inp : Input) (p : AppPacket) : Prop :=
  (∃ q, inp = .recv q ∧ q.HandedDown a.index ∧ q.ih.daddr ≠ ipBroadcast) ∧
    p.val.ih.ttl = networkDiameter ∧ p.val.ch.numForwards = 0

/-- No two neighbour records have one address. -/
def OneNeighbor (a : Agent) : Prop := (a.nbhead.map Neighbor.nbAddr).Nodup

end Agent

section Kinds

variable {p q : Packet}

theorem Packet.SameKind.isEamrp (h : p.SameKind q) : p.isEamrp = q.isEamrp := by
  rcases h with ⟨hp, hq⟩ | ⟨⟨rq, hp⟩, rq', hq⟩ | ⟨⟨rp, hp⟩, rp', hq⟩
  · rw [hp, hq]
  · simp [Packet.isEamrp, hp, hq]
  · simp [Packet.isEamrp, hp, hq]

theorem Packet.Issued.not_sameKind (h : p.Issued) (hq : q.isEamrp = false) : ¬ p.SameKind q :=
  fun hk => by cases h.isEamrp.symm.trans (hk.isEamrp.trans hq)

theorem Packet.not_sameKind_rerr (h : ∃ re, p.body = .rerr re) : ¬ p.SameKind q := by
  obtain ⟨re, hp⟩ := h
  simp [SameKind, isEamrp, hp]

theorem Packet.not_sameKind_rrep (h : ∃ rp, p.body = .rrep rp) (hq : ∃ rq, q.body = .rreq rq) :
    ¬ p.SameKind q := by
  obtain ⟨rp, hp⟩ := h
  obtain ⟨rq, hq⟩ := hq
  simp [SameKind, isEamrp, hp, hq]

theorem Packet.CopyOf.isEamrp (h : p.CopyOf q) : p.isEamrp = q.isEamrp := by
  rw [Packet.isEamrp, Packet.isEamrp, h.body]

end Kinds

section Events

variable {env : Env} {a : Agent} {w w' : World} {inp : Input}

/-- What a node sends on of a packet it has received has one hop less. -/
theorem Agent.Sends.relayed {q p : Packet} (h : a.Sends (.recv q) p)
    (hl : ¬ q.HandedDown a.index) (hk : p.SameKind q) :
    p.ih.ttl = q.ih.ttl - 1 ∧ p.ih.ttl ≠ 0 ∧ p.ch.numForwards = q.ch.numForwards := by
  cases h with
  | issue _ hnot => exact absurd hk (hnot _ rfl)
  | originate hq hl' =>
    obtain rfl := Input.recv.inj hq
    exact absurd hl' hl
  | spread hq hl' =>
    obtain rfl := Input.recv.inj hq
    exact absurd hl' hl
  | relay hq _ _ httl hne hn =>
    obtain rfl := Input.recv.inj hq
    exact ⟨httl, hne, hn⟩
  | @flush p₀ _ hq hc =>
    have he : q.isEamrp = true := hq _ rfl
    have happ : q.isEamrp = false := hk.isEamrp.symm.trans (hc.isEamrp.trans p₀.2)
    cases he.symm.trans happ
  | salvage _ hq => cases hq

/-- A packet of another protocol: one of the node's own gets its TTL, any other loses a hop. -/
theorem emits_recvApp {p : AppPacket} (hr : w.Ranged)
    (hrepair : ∀ d e, w.rtLookup d = some e → e.rtFlags ≠ .inRepair)
    (h : recvApp env p w = .ok w') :
    w.Emits (w.Sends (.recv p.val)) (w.Buffers (.recv p.val)) w' := by
  have hissue : ∀ q : Packet, q.Issued → w.Sends (.recv p.val) q := by
    intro q hq
    refine .issue hq fun q' hq' => ?_
    obtain rfl := Input.recv.inj hq'
    exact hq.not_sameKind p.2
  unfold recvApp at h
  dsimp only at h
  split at h
  · next hown =>
    have hl : p.val.HandedDown w.index := ⟨p.2, hown.1, hown.2⟩
    split at h
    · next hd =>
      have hcopy : ∀ q : Packet,
          q.CopyOf { p.val with ih := { p.val.ih with ttl := networkDiameter } } →
          w.Sends (.recv p.val) q := by
        intro q hq
        refine .originate rfl hl hd (hq.isEamrp.trans p.2) ?_ (hq.numForwards.trans hown.2)
        rw [hq.ih]
      split at h
      · refine emits_rtResolve hr hrepair h (fun q hq _ => hissue q hq) (fun q hq _ => hissue q hq)
          (fun _ q hq => hcopy q ⟨hq.ih, hq.body, hq.numForwards⟩) fun _ ch hch => ?_
        exact ⟨⟨p.val, rfl, hl, hd⟩, rfl, hch.trans hown.2⟩
      · next hn => exact absurd hd hn
    · next hd =>
      exact (forward_ok h).emits fun _ q hq =>
        .spread rfl hl (not_not.mp hd) ⟨hq.ih, hq.body, hq.numForwards⟩
  · split at h
    · exact Except.ok.inj h ▸ .emit rfl w
    · next hown hs =>
      have hl : ¬ p.val.HandedDown w.index := fun hl => hs hl.saddr
      split at h
      · exact Except.ok.inj h ▸ .emit rfl w
      · next httl =>
        have hpass : ∀ q : Packet,
            q.CopyOf (p.withIp { p.val.ih with ttl := p.val.ih.ttl - 1 }).val →
            w.Sends (.recv p.val) q := by
          intro q hq
          refine .relay rfl hl (.inl ⟨hq.isEamrp.trans p.2, p.2⟩) (by rw [hq.ih]; rfl) ?_
            hq.numForwards
          rw [hq.ih]
          exact httl
        split at h
        · refine emits_rtResolve hr hrepair h (fun q hq _ => hissue q hq)
            (fun q hq _ => hissue q hq) (fun _ => hpass) fun hs' => absurd hs' hs
        · exact (forward_ok h).emits fun _ => hpass

/-- What a RREQ or RREP that has lost a hop is passed on as. -/
theorem Agent.Sends.of_passedOn {q p : Packet} (hq : q.isEamrp = true)
    (httl : q.ih.ttl - 1 ≠ 0)
    (hp : { q with ih := { q.ih with ttl := q.ih.ttl - 1 } }.PassedOn p) :
    a.Sends (.recv q) p := by
  obtain ⟨hk, hsame, hn⟩ := hp
  have hsame : p.ih.ttl = q.ih.ttl - 1 := hsame
  refine .relay rfl (fun hl => ?_) hk hsame (by rwa [hsame]) hn
  cases hq.symm.trans hl.isEamrp

/-- A routing packet may flush buffered packets. -/
theorem Agent.Sends.of_buffered {q : Packet} (hq : q.isEamrp = true) {p₀ : AppPacket}
    (hp : p₀ ∈ a.rqueue) {p : Packet} (hc : p.CopyOf p₀.val) : a.Sends (.recv q) p := by
  refine .flush hp (fun q' hq' => ?_) hc
  obtain rfl := Input.recv.inj hq'
  exact hq

theorem recvRequest_sends {q : Packet} {rq : HdrRequest} (hb : q.body = .rreq rq)
    (h : recvRequest env { q with ih := { q.ih with ttl := q.ih.ttl - 1 } } rq w = .ok w') :
    w.Emits (w.Sends (.recv q)) (fun _ => False) w' := by
  have hq : q.isEamrp = true := by simp [Packet.isEamrp, hb]
  refine emits_recvRequest h ⟨rq, hb⟩ ?_ ?_ ?_
  · exact fun p hp _ p' hc => .of_buffered hq hp hc
  · intro p hp hrep
    refine .issue hp fun q' hq' => ?_
    obtain rfl := Input.recv.inj hq'
    exact Packet.not_sameKind_rrep hrep ⟨rq, hb⟩
  · exact fun httl p hp => .of_passedOn hq httl hp

theorem recvReply_sends {q : Packet} {rp : HdrReply} (hb : q.body = .rrep rp)
    (h : recvReply env { q with ih := { q.ih with ttl := q.ih.ttl - 1 } } rp w = .ok w') :
    w.Emits (w.Sends (.recv q)) (fun _ => False) w' := by
  have hq : q.isEamrp = true := by simp [Packet.isEamrp, hb]
  refine emits_recvReply h ?_ fun _ => ⟨⟨rp, hb⟩, ?_⟩
  · exact fun p hp _ p' hc => .of_buffered hq hp hc
  · exact fun httl p hp => .of_passedOn hq httl hp

/-- A HELLO is noted in the neighbour cache; it is never passed on. -/
theorem recvHello_sends {q p : Packet} {rp : HdrReply} (hq : q.isEamrp = true)
    (h : recvHello env p rp w = .ok w') :
    ∃ nb, (w.OneNeighbor → (nb.map Neighbor.nbAddr).Nodup) ∧
      World.Emits (w.Sends (.recv q)) (fun _ => False) { w with nbhead := nb } w' := by
  have hrest : ∀ nb, recvReply env { p with ih := { p.ih with daddr := w.index } }
      { rp with rpSrc := p.ih.saddr, rpFirstHop := w.index } { w with nbhead := nb } = .ok w' →
      World.Emits (w.Sends (.recv q)) (fun _ => False) { w with nbhead := nb } w' := by
    intro nb h
    have hflush : ∀ p ∈ w.rqueue, p.val.ih.ttl ≠ 0 → ∀ p' : Packet, p'.CopyOf p.val →
        w.Sends (.recv q) p' := fun p hp _ p' hc => .of_buffered hq hp hc
    exact emits_recvReply h hflush fun hd => absurd rfl hd
  unfold recvHello at h
  dsimp only at h
  split at h
  · next hnone =>
    have hnb : w.nbInsert env rp.rpDst = { w with nbhead :=
        ⟨rp.rpDst, env.now + helloInterval * allowedHelloLoss⟩ :: w.nbhead } := by
      simp only [World.nbInsert, hnone]
    rw [hnb] at h
    refine ⟨_, fun hone => ?_, hrest _ h⟩
    rw [List.map_cons, List.nodup_cons]
    refine ⟨fun hmem => ?_, hone⟩
    obtain ⟨nb, hnb, haddr⟩ := List.mem_map.mp hmem
    have := List.find?_eq_none.mp hnone nb hnb
    simp [haddr] at this
  · refine ⟨_, fun hone => ?_, hrest _ h⟩
    have hsame : Neighbor.nbAddr ∘ (fun nb => if nb.nbAddr = rp.rpDst then { nb with
        nbExpire := env.now + 3 / 2 * allowedHelloLoss * helloInterval } else nb) =
        Neighbor.nbAddr := by
      funext nb
      rw [Function.comp_apply]
      split
      · rfl
      · rfl
    rw [List.map_map, hsame]
    exact hone

/-- A routing packet: it is passed on one hop older, or new and buffered packets are sent. -/
theorem recvEamrp_sends {q : Packet} (hq : q.isEamrp = true)
    (h : recvEamrp env { q with ih := { q.ih with ttl := q.ih.ttl - 1 } } w = .ok w') :
    ∃ nb, (w.OneNeighbor → (nb.map Neighbor.nbAddr).Nodup) ∧
      World.Emits (w.Sends (.recv q)) (fun _ => False) { w with nbhead := nb } w' := by
  unfold recvEamrp at h
  split at h
  · cases h
  · split at h
    · next rq hb =>
      have hb : q.body = .rreq rq := hb
      have hem := recvRequest_sends hb h
      exact ⟨w.nbhead, id, hem⟩
    · next rp hb =>
      have hb : q.body = .rrep rp := hb
      have hem := recvReply_sends hb h
      exact ⟨w.nbhead, id, hem⟩
    · have hem : w.Emits (w.Sends (.recv q)) (fun _ => False) w' :=
        emits_recvError h fun p hp herr => .issue hp fun _ _ => Packet.not_sameKind_rerr herr
      exact ⟨w.nbhead, id, hem⟩
    · exact recvHello_sends hq h
    · cases h
    · cases h

/-- What one event of an agent sends and buffers. -/
theorem handle_sends (h : handle env inp a.world = .ok w') (hr : a.Ranged) (hpl : a.PathLists) :
    ∃ nb fq, (a.OneNeighbor → (nb.map Neighbor.nbAddr).Nodup) ∧
      World.Emits (a.Sends inp) (a.Buffers inp) { a.world with nbhead := nb, ifqueue := fq } w' := by
  have hsame : World.Emits (a.Sends inp) (a.Buffers inp) a.world w' →
      ∃ nb fq, (a.OneNeighbor → (nb.map Neighbor.nbAddr).Nodup) ∧
        World.Emits (a.Sends inp) (a.Buffers inp) { a.world with nbhead := nb, ifqueue := fq } w' :=
    fun hem => ⟨a.nbhead, a.ifqueue, id, hem⟩
  have hissue : (∀ q, inp = .recv q → q.isEamrp = false) → ∀ p : Packet, p.Issued →
      a.Sends inp p := fun hq p hp => .issue hp fun q hinp => hp.not_sameKind (hq q hinp)
  cases inp with
  | recv q =>
    change recv env q a.world = .ok w' at h
    unfold recv at h
    split at h
    · next hE =>
      apply hsame
      refine emits_recvApp (w := a.world) hr (fun d e he hc => ?_) h
      rcases (hpl.lookup he).flags with hf | hf
      · cases hc.symm.trans hf
      · cases hc.symm.trans hf
    · next hE =>
      obtain ⟨nb, hone, hem⟩ := recvEamrp_sends (by simpa using hE) h
      exact ⟨nb, a.ifqueue, hone, hem.mono (fun _ => id) fun _ => False.elim⟩
  | rtLlFailed q =>
    obtain rfl := Except.ok.inj h
    exact hsame (.emit rfl a.world)
  | broadcastTimer =>
    obtain rfl := Except.ok.inj h
    exact hsame (.idPurge env a.world)
  | helloTimer =>
    obtain rfl := Except.ok.inj h
    apply hsame
    split
    · exact emits_sendHello fun p hp _ => hissue (fun _ hq => by cases hq) p hp
    · exact .refl a.world
  | neighborTimer =>
    apply hsame
    exact emits_nbPurge h (fun p hp _ => hissue (fun _ hq => by cases hq) p hp)
      fun p hp happ _ p' hc => .salvage hp rfl happ hc
  | routeCacheTimer =>
    have hem : World.Emits (a.Sends .routeCacheTimer) (fun _ => False) a.world w' :=
      emits_rtPurge (w := a.world) hr h (fun p hp _ => hissue (fun _ hq => by cases hq) p hp)
        fun p hp _ p' hc => .flush hp (fun _ hq => by cases hq) hc
    exact hsame (hem.mono (fun _ => id) fun _ => False.elim)
  | ifqueue q =>
    obtain rfl := Except.ok.inj h
    exact ⟨a.nbhead, q, id, .refl _⟩

namespace Agent

/-- In a reachable state request numbers are in range, and neighbours have one record each. -/
theorem Reachable.ranged (h : a.Reachable) : a.Ranged ∧ a.OneNeighbor := by
  obtain ⟨w, hw, rfl⟩ := h
  refine Lib.Reachable.induct (I := fun w => w.Ranged ∧ w.OneNeighbor) ?_ ?_ hw
  · intro w hw
    unfold Ranged OneNeighbor
    rw [hw.initial]
    exact ⟨fun e he => absurd he List.not_mem_nil, List.nodup_nil⟩
  · rintro w τ w' hreach ⟨hr, hone⟩ hs
    obtain ⟨nb, fq, hnb, hem⟩ := handle_sends hs hr (Reachable.pathLists ⟨w, hreach, rfl⟩)
    exact ⟨hem.ranged hr, ((hem.nbhead.map Neighbor.nbAddr).nodup (hnb hone) :)⟩

end Agent

end Events

end Eamrp
