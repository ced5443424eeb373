import Eamrp.Agent.Runs
import Eamrp.Lib.Once

/-!
# The broadcast-id cache during one event

For one pair of source and broadcast id: what an event does to the record of the pair, how
many RREQs with the pair it rebroadcasts and how many replies of others for that discovery
it sends. Only the handlers of RREQs and RREPs and the timer of the cache touch the cache;
they are followed here statement by statement, everything else by its elementary steps.
-/

namespace Eamrp

open Lib Relation

/-- A source and one of its broadcast ids. -/
abbrev Pair := NsAddr × UInt32

/-- The pair of a record. -/
def BroadcastId.pair (b : BroadcastId) : Pair := (b.src, b.id)

/-- The packet is a RREQ with this pair that node `i` has not made itself. -/
def Packet.relays (i : NsAddr) (k : Pair) (p : Packet) : Bool :=
  match p.body with
  | .rreq rq => decide (rq.rqSrc ≠ i ∧ (rq.rqSrc, rq.rqBcastId) = k)
  | _ => false

/-- The packet is a RREP for the discovery with this pair, which advertises another node
than `i`. -/
def Packet.replies (i : NsAddr) (k : Pair) (p : Packet) : Bool :=
  match p.body with
  | .rrep rp => decide (rp.rpDst ≠ i ∧ (p.ih.daddr, rp.rpBcastId) = k)
  | _ => false

namespace World

/-- The number of RREQs with the pair that the event has rebroadcast so far. -/
def relayed (w : World) (k : Pair) : Nat := w.sent.countP (Packet.relays w.index k)

/-- The number of RREPs for the pair that the event has sent so far, other than as the
destination of the RREQ. -/
def replied (w : World) (k : Pair) : Nat := w.sent.countP (Packet.replies w.index k)

/-- Cache, address and the two counts are the same. -/
structure Quiet (w w' : World) : Prop where
  index : w'.index = w.index
  bihead : w'.bihead = w.bihead
  relayed : ∀ k, w'.relayed k = w.relayed k
  replied : ∀ k, w'.replied k = w.replied k

theorem Quiet.refl (w : World) : w.Quiet w := ⟨rfl, rfl, fun _ => rfl, fun _ => rfl⟩

theorem Quiet.trans {w w' w'' : World} (h : w.Quiet w') (h' : w'.Quiet w'') : w.Quiet w'' where
  index := h'.index.trans h.index
  bihead := h'.bihead.trans h.bihead
  relayed k := (h'.relayed k).trans (h.relayed k)
  replied k := (h'.replied k).trans (h.replied k)

/-- Nothing is sent. -/
theorem Quiet.of_sent {w w' : World} (hi : w'.index = w.index) (hb : w'.bihead = w.bihead)
    (hs : w'.sent = w.sent) : w.Quiet w' :=
  ⟨hi, hb, fun _ => by simp [World.relayed, hi, hs], fun _ => by simp [World.replied, hi, hs]⟩

theorem Quiet.of_sameRouting {w w' : World} (h : w.SameRouting w') : w.Quiet w' :=
  .of_sent h.index h.bihead h.sent

theorem Quiet.store (w : World) (e : RtEntry) : w.Quiet (w.store e) := .of_sent rfl rfl rfl

theorem relayed_send (w : World) (p : Packet) (delay : Time) (k : Pair) :
    (w.send p delay).relayed k = w.relayed k + if p.relays w.index k = true then 1 else 0 := by
  rw [relayed, relayed, sent_send, List.countP_append, List.countP_singleton]
  rfl

theorem replied_send (w : World) (p : Packet) (delay : Time) (k : Pair) :
    (w.send p delay).replied k = w.replied k + if p.replies w.index k = true then 1 else 0 := by
  rw [replied, replied, sent_send, List.countP_append, List.countP_singleton]
  rfl

/-- A packet that counts for no pair is sent. -/
theorem Quiet.send {w : World} {p : Packet} {delay : Time}
    (hr : ∀ k, p.relays w.index k = false) (hp : ∀ k, p.replies w.index k = false) :
    w.Quiet (w.send p delay) :=
  ⟨rfl, rfl, fun k => by simp [relayed_send, hr], fun k => by simp [replied_send, hp]⟩

/-- The record that `id_get` gives depends on the cache only. -/
theorem Quiet.idGet {w w' : World} (h : w.Quiet w') (src : NsAddr) (bid : UInt32) :
    w'.idGet src bid = w.idGet src bid := by
  rw [World.idGet, World.idGet, h.bihead]

end World

/-- Unless the event writes the cache, it says nothing that counts. -/
theorem Speaks.uncounted {env : Env} {heard : Input} {w : World} {p : Packet}
    (h : Speaks env heard w p) (hc : ¬ Caches heard) (k : Pair) :
    p.relays w.index k = false ∧ p.replies w.index k = false := by
  have hrreq : ∀ q rq, heard = .recv q → q.body ≠ .rreq rq :=
    fun q rq hq hb => hc (.inr ⟨q, hq, .inl ⟨rq, hb⟩⟩)
  cases h with
  | app h => cases hb : p.body <;> simp_all [Packet.isEamrp, Packet.relays, Packet.replies]
  | request => simp [Packet.relays, Packet.replies, requestPacket]
  | relay hq hb => exact absurd hb (hrreq _ _ hq)
  | answer hq hb => exact absurd hb (hrreq _ _ hq)
  | answerFrom hq hb => exact absurd hb (hrreq _ _ hq)
  | forwardReply hq hb => exact absurd (.inr ⟨_, hq, .inr ⟨_, hb⟩⟩) hc
  | rerr hp => simp [Packet.relays, Packet.replies, hp]
  | hello hp => simp [Packet.relays, Packet.replies, hp]

/-- Unless the event writes the cache, its elementary steps are quiet. -/
theorem Step.quiet {env : Env} {heard : Input} {w w' : World} (h : Step env heard w w')
    (hc : ¬ Caches heard) : w.Quiet w' := by
  cases h with
  | entry => exact .store _ _
  | rtAdd h =>
    unfold World.rtAdd at h
    split at h
    · obtain rfl := Except.ok.inj h
      exact .of_sent rfl rfl rfl
    · cases h
  | bumpSeqno => exact .of_sent rfl rfl rfl
  | raiseSeqno =>
    rw [World.raiseSeqno_eq]
    exact .of_sent rfl rfl rfl
  | frame h => exact .of_sameRouting h
  | cache h => exact absurd h hc
  | neighbors => exact .of_sent rfl rfl rfl
  | send h => exact .send (fun k => (h.uncounted hc k).1) fun k => (h.uncounted hc k).2

/-- A program that takes the steps of an event that does not write the cache is quiet. -/
theorem Runs.quiet {env : Env} {heard : Input} {w w' : World} {Q : World → Prop}
    (hc : ¬ Caches heard) (h : Runs env heard w (.ok w') Q) : w.Quiet w' :=
  related_of_steps (P := World.Quiet) .refl (fun _ _ _ => .trans) (fun _ _ hs => hs.quiet hc)
    h.steps_of_ok

/-! ### Handlers that write the cache -/

theorem not_caches_helloTimer : ¬ Caches .helloTimer := by
  rintro (h | ⟨q, h, -⟩) <;> cases h

namespace World

/-- What the second half of a handler does for the discovery with pair `k`: nothing that
counts, or one rebroadcast unless the RREQ is a duplicate, or one reply for which the record
is marked. -/
inductive Answered (k : Pair) (kill : Bool) (w w' : World) : Prop where
  | quiet (h : w.Quiet w')
  | relay (hkill : kill = false) (hb : w'.bihead = w.bihead)
      (hr : ∀ x, w'.relayed x ≤ w.relayed x + if x = k then 1 else 0)
      (hp : ∀ x, w'.replied x = w.replied x)
  | reply {b : BroadcastId} (hg : w.idGet k.1 k.2 = some b) (hc : b.count = 0)
      (hb : w'.bihead = (w.idCount k.1 k.2).bihead) (hr : ∀ x, w'.relayed x = w.relayed x)
      (hp : ∀ x, w'.replied x ≤ w.replied x + if x = k then 1 else 0)

theorem Answered.of_kill {k : Pair} {kill : Bool} {w w' : World} (h : w.Answered k true w') :
    w.Answered k kill w' := by
  cases h with
  | quiet h => exact .quiet h
  | relay hkill => cases hkill
  | reply hg hc hb hr hp => exact .reply hg hc hb hr hp

end World

section Handlers

variable {env : Env} {w w' : World} {p : Packet} {rq : HdrRequest} {rp : HdrReply}

theorem quiet_rtEnsure {d : NsAddr} (h : w.rtEnsure env d = .ok w') : w.Quiet w' := by
  have hruns := @rtEnsure_runs env .helloTimer d w
  rw [h] at hruns
  exact hruns.quiet not_caches_helloTimer

theorem quiet_routeUp {d : NsAddr} (h : routeUp env d w = .ok w') : w.Quiet w' := by
  cases hl : w.rtLookup d with
  | none =>
    unfold routeUp at h
    rw [hl] at h
    cases h
  | some e =>
    have hruns := @routeUp_runs env .helloTimer d w e hl
    rw [h] at hruns
    exact hruns.quiet not_caches_helloTimer

/-- The outcomes of `forward` on a broadcast packet. -/
theorem forward_none {delay : Time} (h : forward env none p delay w = .ok w') :
    w.SameRouting w' ∨ ∃ ch delay', w' = w.send { p with ch := ch } delay' := by
  unfold forward at h
  split at h
  · exact .inl (Except.ok.inj h ▸ .drop _ _ _)
  · split at h
    · exact .inl (Except.ok.inj h ▸ .emit rfl)
    · dsimp only at h
      split at h
      · cases h
      · exact .inr ⟨_, _, (Except.ok.inj h).symm⟩

/-- The outcomes of `forward` over an entry. -/
theorem forward_over {d : NsAddr} {delay : Time} (h : forward env (some d) p delay w = .ok w') :
    w.SameRouting w' ∨ ∃ e ch delay', w' = (w.store e).send { p with ch := ch } delay' := by
  cases hl : w.rtLookup d with
  | none =>
    unfold forward at h
    split at h
    · exact .inl (Except.ok.inj h ▸ .drop _ _ _)
    · split at h
      · exact .inl (Except.ok.inj h ▸ .emit rfl)
      · simp only [hl] at h
        cases h
  | some e =>
    rcases @forward_some env .helloTimer d p delay w e hl with
      ⟨v, hv, hs, -⟩ | ⟨f, hf, -⟩ | ⟨path, ch, e', delay', -, -, -, hv⟩
    · exact .inl (Except.ok.inj (hv.symm.trans h) ▸ hs)
    · rw [hf] at h
      cases h
    · exact .inr ⟨e', ch, delay', Except.ok.inj (h.symm.trans hv)⟩

/-- A RREP for the pair, or nothing, is sent once the record of the pair is marked. -/
theorem World.Answered.marked {k : Pair} {b : BroadcastId} {v : World}
    (hg : w.idGet k.1 k.2 = some b) (hc : b.count = 0) (hv : (w.idCount k.1 k.2).Quiet v)
    (h : v.SameRouting w' ∨ ∃ q delay rp, w' = v.send q delay ∧ q.body = .rrep rp ∧
      (q.ih.daddr, rp.rpBcastId) = k) : w.Answered k true w' := by
  rcases h with h | ⟨q, delay, rp, rfl, hb, hk⟩
  · have hq := hv.trans (.of_sameRouting h)
    exact .reply hg hc hq.bihead hq.relayed fun x => (hq.replied x).le.trans (Nat.le_add_right _ _)
  · refine .reply hg hc hv.bihead (fun x => ?_) fun x => ?_
    · rw [World.relayed_send, hv.relayed]
      simp [Packet.relays, hb]
      rfl
    · rw [World.replied_send, hv.replied]
      refine Nat.add_le_add_left ?_ _
      simp only [Packet.replies, hb, decide_eq_true_eq, hk]
      grind

theorem rebroadcast_answered {rt : Option RtEntry} (h : rebroadcast env p rq rt w = .ok w') :
    w.Answered (rq.rqSrc, rq.rqBcastId) false w' := by
  unfold rebroadcast at h
  cases hl : w.rtLookup rq.rqSrc with
  | none =>
    rw [hl] at h
    cases h
  | some e =>
    rw [hl] at h
    dsimp only at h
    split at h
    · cases h
    · have hst := World.Quiet.store w (e.advertise env.inf)
      rcases forward_none h with h | ⟨ch, delay, rfl⟩
      · exact .quiet (hst.trans (.of_sameRouting h))
      · refine .relay rfl rfl (fun x => ?_) fun x => ?_
        · rw [World.relayed_send, hst.relayed]
          refine Nat.add_le_add_left ?_ _
          simp only [Packet.relays, decide_eq_true_eq]
          grind
        · rw [World.replied_send, hst.replied]
          simp [Packet.replies]

theorem answerFromRoute_answered {ih : HdrIp} {reversePath : Bool} {e : RtEntry}
    (h : answerFromRoute env ih rq reversePath e w = .ok w') :
    w.Answered (rq.rqSrc, rq.rqBcastId) true w' := by
  unfold answerFromRoute at h
  split at h
  · cases h
  · split at h
    · exact .quiet (Except.ok.inj h ▸ .refl w)
    · split at h
      · cases h
      · next b hb =>
        split at h
        · next hc =>
          dsimp only at h
          split at h
          · cases h
          · obtain rfl := Except.ok.inj h
            exact .marked hb hc (.store _ _) (.inr ⟨_, _, _, rfl, rfl, rfl⟩)
        · exact .quiet (Except.ok.inj h ▸ .refl w)

theorem answerAsDestination_quiet {ih : HdrIp} : w.Quiet (answerAsDestination ih rq w) := by
  have hraise : w.Quiet (w.raiseSeqno rq) := by
    rw [World.raiseSeqno_eq]
    exact .of_sent rfl rfl rfl
  refine hraise.trans (.send (fun k => rfl) fun k => ?_)
  simp [Packet.replies]

theorem answerRequest_answered {kill reversePath : Bool}
    (h : answerRequest env p rq kill reversePath w = .ok w') :
    w.Answered (rq.rqSrc, rq.rqBcastId) kill w' := by
  unfold answerRequest at h
  dsimp only at h
  split at h
  · exact .quiet (Except.ok.inj h ▸ answerAsDestination_quiet)
  · split at h
    · exact (answerFromRoute_answered h).of_kill
    · split at h
      · exact .quiet (Except.ok.inj h ▸ .refl w)
      · next hkill =>
        rw [Bool.not_eq_true] at hkill
        rw [hkill]
        exact rebroadcast_answered h

theorem forwardReply_answered (h : forwardReply env p rp w = .ok w') :
    w.Answered (p.ih.daddr, rp.rpBcastId) true w' := by
  unfold forwardReply at h
  split at h
  · exact .quiet (Except.ok.inj h ▸ .refl w)
  · split at h
    · next e₀ b he₀ hb =>
      split at h
      · exact .quiet (Except.ok.inj h ▸ .refl w)
      · next hc =>
        have hc : b.count = 0 := by
          by_contra hne
          exact hc (.inr hne)
        dsimp only at h
        split at h
        · next reversePath e hp he =>
          split at h
          · cases h
          · split at h
            · cases h
            · next f hf =>
              split at h
              · cases h
              · next g hg =>
                have hv : (w.idCount p.ih.daddr rp.rpBcastId).Quiet
                    ((((w.idCount p.ih.daddr rp.rpBcastId).store (e.advertise env.inf)).store
                      (f.touchFirst env.now)).store { g with rtError := true }) :=
                  .of_sent rfl rfl rfl
                rcases forward_over h with h | ⟨e', ch, delay, rfl⟩
                · exact .marked hb hc hv (.inl h)
                · exact .marked hb hc (hv.trans (.store _ e')) (.inr ⟨_, _, _, rfl, rfl, rfl⟩)
        · cases h
    · exact .quiet (Except.ok.inj h ▸ .refl w)

end Handlers

/-! ### One event -/

/-- The record as a record of a slot; it is marked by its count. -/
def BroadcastId.record (b : BroadcastId) : Once.Record Time := ⟨b.expire, decide (b.count ≠ 0)⟩

namespace World

/-- The slot of a pair in the cache. -/
def slot (w : World) (k : Pair) : Option (Once.Record Time) :=
  (w.idGet k.1 k.2).map BroadcastId.record

/-- No pair has two records. -/
def OneRecord (w : World) : Prop := (w.bihead.map BroadcastId.pair).Nodup

theorem Quiet.slot {w w' : World} (h : w.Quiet w') (k : Pair) : w'.slot k = w.slot k := by
  rw [World.slot, World.slot, h.idGet]

variable {env : Env} {w w' : World} {k x : Pair}

/-- `id_get` in terms of pairs. -/
theorem idGet_eq (w : World) (k : Pair) :
    w.idGet k.1 k.2 = w.bihead.find? (fun b => decide (b.pair = k)) := by
  rw [idGet]
  congr 1
  funext b
  rw [Bool.eq_iff_iff]
  simp [BroadcastId.pair, Prod.ext_iff]

theorem idGet_idInsert : (w.idInsert env k.1 k.2).idGet x.1 x.2 =
    if x = k then some ⟨k.1, k.2, env.now + bcastIdSave, 0⟩ else w.idGet x.1 x.2 := by
  have hpair : (⟨k.1, k.2, env.now + bcastIdSave, 0⟩ : BroadcastId).pair = k := rfl
  rw [idGet_eq, idGet_eq, idInsert, List.find?_cons]
  by_cases h : x = k
  · simp [hpair, h]
  · simp [hpair, h, Ne.symm h]

theorem idGet_idCount : (w.idCount k.1 k.2).idGet x.1 x.2 =
    if x = k then (w.idGet x.1 x.2).map (fun b => { b with count := 1 }) else w.idGet x.1 x.2 := by
  rw [idGet_eq, idGet_eq, idCount, List.find?_map]
  have hpair : (fun b : BroadcastId => decide (b.pair = x)) ∘ (fun b =>
      if b.src = k.1 ∧ b.id = k.2 then { b with count := 1 } else b) =
      fun b => decide (b.pair = x) := by
    funext b
    simp only [Function.comp_apply]
    split <;> rfl
  rw [hpair]
  cases hf : w.bihead.find? (fun b => decide (b.pair = x)) with
  | none => simp
  | some b =>
    have hb : b.pair = x := of_decide_eq_true (List.find?_some hf :)
    have hk : (b.src = k.1 ∧ b.id = k.2) ↔ x = k := by
      rw [← hb, BroadcastId.pair, Prod.ext_iff]
    by_cases h : x = k
    · rw [if_pos h, Option.map_some, if_pos (hk.mpr h), Option.map_some]
    · rw [if_neg h, Option.map_some, if_neg (mt hk.mp h)]

private theorem find?_filter_pair {l : List BroadcastId} (h : (l.map BroadcastId.pair).Nodup)
    (q : BroadcastId → Bool) : (l.filter q).find? (fun b => decide (b.pair = x)) =
      (l.find? (fun b => decide (b.pair = x))).filter q := by
  induction l with
  | nil => rfl
  | cons b l ih =>
    obtain ⟨hb, hl⟩ := List.nodup_cons.mp h
    have ih := ih hl
    by_cases hx : b.pair = x
    · have hnone : l.find? (fun b => decide (b.pair = x)) = none := by
        refine List.find?_eq_none.mpr fun b' hb' heq => ?_
        exact hb (List.mem_map.mpr ⟨b', hb', (of_decide_eq_true heq).trans hx.symm⟩)
      rw [hnone] at ih
      rw [List.filter_cons, List.find?_cons, decide_eq_true hx]
      by_cases hq : q b = true
      · rw [if_pos hq, List.find?_cons, decide_eq_true hx, Option.filter_some, if_pos hq]
      · rw [if_neg hq, ih, Option.filter_some, if_neg hq]
        rfl
    · rw [List.filter_cons, List.find?_cons, decide_eq_false hx]
      split
      · rw [List.find?_cons, decide_eq_false hx]
        exact ih
      · exact ih

theorem OneRecord.idGet_idPurge (h : w.OneRecord) : (w.idPurge env).idGet x.1 x.2 =
    (w.idGet x.1 x.2).filter (fun b => !decide (b.expire ≤ env.now)) := by
  rw [idGet_eq, idGet_eq]
  exact find?_filter_pair h _

theorem OneRecord.idInsert (h : w.OneRecord) (hk : w.idGet k.1 k.2 = none) :
    (w.idInsert env k.1 k.2).OneRecord := by
  refine List.nodup_cons.mpr ⟨fun hmem => ?_, h⟩
  obtain ⟨b, hb, hpair⟩ := List.mem_map.mp hmem
  rw [idGet_eq] at hk
  exact List.find?_eq_none.mp hk b hb (decide_eq_true hpair)

theorem OneRecord.idCount (h : w.OneRecord) : (w.idCount k.1 k.2).OneRecord := by
  have hmap : (w.idCount k.1 k.2).bihead.map BroadcastId.pair = w.bihead.map BroadcastId.pair := by
    simp only [World.idCount, List.map_map]
    refine List.map_congr_left fun b _ => ?_
    simp only [Function.comp_apply]
    split <;> rfl
  rw [OneRecord, hmap]
  exact h

theorem OneRecord.idPurge (h : w.OneRecord) : (w.idPurge env).OneRecord :=
  h.sublist (List.filter_sublist.map _)

theorem OneRecord.of_bihead (h : w.OneRecord) (hb : w'.bihead = w.bihead) : w'.OneRecord := by
  rw [OneRecord, hb]
  exact h

/-- What the event has done about a pair so far, as a turn of its slot. -/
def turn (w w' : World) (now : Time) (k : Pair) : Once.Turn Time :=
  ⟨now, w.slot k, w'.slot k, w'.relayed k, w'.replied k⟩

/-- Nothing has been sent yet. -/
theorem relayed_of_sent (h : w.sent = []) (k : Pair) : w.relayed k = 0 := by
  simp [relayed, h]

theorem replied_of_sent (h : w.sent = []) (k : Pair) : w.replied k = 0 := by
  simp [replied, h]

/-- A quiet event. -/
theorem Quiet.fair (h : w.Quiet w') (hs : w.sent = []) (now : Time) :
    w'.bihead = w.bihead ∧ ∀ k, (w.turn w' now k).Fair bcastIdSave := by
  refine ⟨h.bihead, fun k => ?_⟩
  rw [turn, h.slot, h.relayed, h.replied, relayed_of_sent hs, replied_of_sent hs]
  exact .keep

theorem slot_of_bihead (h : w'.bihead = w.bihead) (k : Pair) : w'.slot k = w.slot k := by
  rw [slot, slot, idGet, idGet, h]

theorem slot_idInsert : (w.idInsert env k.1 k.2).slot x =
    if x = k then some ⟨env.now + bcastIdSave, false⟩ else w.slot x := by
  rw [slot, idGet_idInsert]
  split
  · rfl
  · rfl

theorem slot_idCount : (w.idCount k.1 k.2).slot x =
    if x = k then (w.slot x).map (fun r => ⟨r.expire, true⟩) else w.slot x := by
  rw [slot, idGet_idCount]
  split
  · rw [slot, Option.map_map, Option.map_map]
    rfl
  · rfl

/-- A discovery whose record, if any, was there before the event is answered. -/
theorem Answered.fair {v : World} (hs : w.sent = []) (hv : w.Quiet v) (h : v.Answered k true w')
    (hu : w.OneRecord) : w'.OneRecord ∧ ∀ now x, (w.turn w' now x).Fair bcastIdSave := by
  cases h with
  | quiet h =>
    have hq := hv.trans h
    exact ⟨hu.of_bihead hq.bihead, fun now => (hq.fair hs now).2⟩
  | relay hkill => cases hkill
  | @reply b hg hc hb hr hp =>
    have huv := hu.of_bihead hv.bihead
    refine ⟨huv.idCount.of_bihead hb, fun now x => ?_⟩
    have hrel : w'.relayed x = 0 := by rw [hr, hv.relayed, relayed_of_sent hs]
    have hrep : w'.replied x ≤ if x = k then 1 else 0 := by
      have := hp x
      rwa [hv.replied, replied_of_sent hs, Nat.zero_add] at this
    have hslot : w'.slot x = if x = k then (w.slot x).map (fun r => ⟨r.expire, true⟩)
        else w.slot x := by
      rw [slot_of_bihead hb, slot_idCount, hv.slot]
    rw [turn, hslot, hrel]
    by_cases hx : x = k
    · subst hx
      have hw : w.slot x = some ⟨b.expire, false⟩ := by
        rw [← hv.slot, slot, hg]
        simp [BroadcastId.record, hc]
      rw [if_pos rfl] at hrep
      rw [if_pos rfl, hw]
      exact .mark hrep
    · rw [if_neg hx] at hrep
      rw [if_neg hx, Nat.le_zero.mp hrep]
      exact .keep

/-- A discovery is answered for which the event has made a record. -/
theorem Answered.fair_new {v : World} (hs : w.sent = []) (hk : w.idGet k.1 k.2 = none)
    (hv : (w.idInsert env k.1 k.2).Quiet v) (h : v.Answered k false w') (hu : w.OneRecord) :
    w'.OneRecord ∧ ∀ x, (w.turn w' env.now x).Fair bcastIdSave := by
  have hone : (w.idInsert env k.1 k.2).OneRecord := hu.idInsert hk
  have huv := hone.of_bihead hv.bihead
  have hrel₀ : ∀ x, v.relayed x = 0 := fun x => (hv.relayed x).trans (relayed_of_sent hs x)
  have hrep₀ : ∀ x, v.replied x = 0 := fun x => (hv.replied x).trans (replied_of_sent hs x)
  have hslot : ∀ x, v.slot x = if x = k then some ⟨env.now + bcastIdSave, false⟩ else w.slot x :=
    fun x => (hv.slot x).trans slot_idInsert
  have hnone : w.slot k = none := by rw [slot, hk]; rfl
  -- One turn of every slot: a record is made for `k`, nothing happens to the others.
  have hturn : ∀ x (b : Bool), w'.slot x = (if x = k then some ⟨env.now + bcastIdSave, b⟩
      else w.slot x) → w'.relayed x ≤ (if x = k then 1 else 0) →
      w'.replied x ≤ (if x = k then b.toNat else 0) → (w.turn w' env.now x).Fair bcastIdSave := by
    intro x b hslot hrel hrep
    rw [turn, hslot]
    by_cases hx : x = k
    · subst hx
      rw [if_pos rfl] at hrel hrep
      rw [if_pos rfl, hnone]
      exact .make hrel hrep
    · rw [if_neg hx] at hrel hrep
      rw [if_neg hx, Nat.le_zero.mp hrel, Nat.le_zero.mp hrep]
      exact .keep
  cases h with
  | quiet h =>
    refine ⟨huv.of_bihead h.bihead, fun x => hturn x false ?_ ?_ ?_⟩
    · rw [h.slot, hslot]
    · rw [h.relayed, hrel₀]
      exact Nat.zero_le _
    · rw [h.replied, hrep₀]
      exact Nat.zero_le _
  | relay _ hb hr hp =>
    refine ⟨huv.of_bihead hb, fun x => hturn x false ?_ ?_ ?_⟩
    · rw [slot_of_bihead hb, hslot]
    · have := hr x
      rwa [hrel₀, Nat.zero_add] at this
    · rw [hp, hrep₀]
      exact Nat.zero_le _
  | reply _ _ hb hr hp =>
    refine ⟨huv.idCount.of_bihead hb, fun x => hturn x true ?_ ?_ ?_⟩
    · rw [slot_of_bihead hb, slot_idCount, hslot]
      split <;> rfl
    · rw [hr, hrel₀]
      exact Nat.zero_le _
    · have := hp x
      rwa [hrep₀, Nat.zero_add] at this

/-- The timer of the cache removes records which have expired. -/
theorem OneRecord.fair_idPurge (hs : w.sent = []) (hu : w.OneRecord) :
    (w.idPurge env).OneRecord ∧ ∀ x, (w.turn (w.idPurge env) env.now x).Fair bcastIdSave := by
  refine ⟨hu.idPurge, fun x => ?_⟩
  have hrel : (w.idPurge env).relayed x = 0 := relayed_of_sent (w := w.idPurge env) hs x
  have hrep : (w.idPurge env).replied x = 0 := replied_of_sent (w := w.idPurge env) hs x
  rw [turn, hrel, hrep, slot, slot, hu.idGet_idPurge]
  cases hg : w.idGet x.1 x.2 with
  | none => exact .keep
  | some b =>
    by_cases hexp : b.expire ≤ env.now
    · have hf : (some b).filter (fun b => !decide (b.expire ≤ env.now)) = none := by
        simp [hexp]
      rw [hf]
      exact .drop hexp
    · have hf : (some b).filter (fun b => !decide (b.expire ≤ env.now)) = some b := by
        simp [hexp]
      rw [hf]
      exact .keep

end World

/-- The handler of a RREQ takes a fair turn of every slot. -/
theorem recvRequest_fair {env : Env} {p : Packet} {rq : HdrRequest} {w w' : World}
    (h : recvRequest env p rq w = .ok w') (hs : w.sent = []) (hu : w.OneRecord) :
    w'.OneRecord ∧ ∀ x, (w.turn w' env.now x).Fair bcastIdSave := by
  by_cases hne : rq.rqSrc = w.index
  · unfold recvRequest at h
    rw [if_pos hne] at h
    obtain rfl := Except.ok.inj h
    exact ⟨hu, ((World.Quiet.refl w).fair hs env.now).2⟩
  · have hstages : ∃ v, (w.remember env rq).Quiet v ∧
        v.Answered (rq.rqSrc, rq.rqBcastId) (w.idGet rq.rqSrc rq.rqBcastId).isSome w' := by
      obtain ⟨v, e, e', verdict, hv, -, -, ⟨-, rfl⟩ | ⟨b, u, -, hup, h⟩⟩ := recvRequest_stages h hne
      · exact ⟨v, quiet_rtEnsure hv, .quiet (.store v e')⟩
      · exact ⟨u, ((quiet_rtEnsure hv).trans (.store v e')).trans (quiet_routeUp hup),
          answerRequest_answered h⟩
    obtain ⟨v, hv, hans⟩ := hstages
    unfold World.remember at hv
    cases hg : w.idGet rq.rqSrc rq.rqBcastId with
    | none =>
      rw [hg] at hv hans
      exact hans.fair_new (k := (rq.rqSrc, rq.rqBcastId)) hs hg hv hu
    | some b =>
      rw [hg] at hv hans
      exact (hans.fair hs hv hu).imp id (· env.now)

/-- The handler of a RREP takes a fair turn of every slot. -/
theorem recvReply_fair {env : Env} {p : Packet} {rp : HdrReply} {w w' : World}
    (h : recvReply env p rp w = .ok w') (hs : w.sent = []) (hu : w.OneRecord) :
    w'.OneRecord ∧ ∀ x, (w.turn w' env.now x).Fair bcastIdSave := by
  have hstages : ∃ v, w.Quiet v ∧ v.Answered (p.ih.daddr, rp.rpBcastId) true w' := by
    by_cases hne : rp.rpDst = w.index
    · unfold recvReply at h
      rw [if_pos hne] at h
      exact ⟨w, .refl w, .quiet (Except.ok.inj h ▸ .refl w)⟩
    · obtain ⟨v, e, e', verdict, hv, -, -, ⟨-, rfl⟩ | ⟨b, u, -, hup, h⟩⟩ := recvReply_stages h hne
      · exact ⟨v, quiet_rtEnsure hv, .quiet (.store v e')⟩
      · exact ⟨u, ((quiet_rtEnsure hv).trans (.store v e')).trans (quiet_routeUp hup),
          forwardReply_answered h⟩
  obtain ⟨v, hv, hans⟩ := hstages
  exact (hans.fair hs hv hu).imp id (· env.now)

/-- What `recvEAMRP` does with a packet that gets past its asserts. -/
theorem handle_recv {env : Env} {q : Packet} {w w' : World}
    (h : handle env (.recv q) w = .ok w') (hE : q.isEamrp = true) :
    ∃ p, Input.aged (.recv q) = .recv p ∧ recvEamrp env p w = .ok w' ∧ p.body = q.body := by
  change recv env q w = .ok w' at h
  unfold recv at h
  rw [dif_neg (by simp [hE])] at h
  exact ⟨_, rfl, h, rfl⟩

/-- One event takes a fair turn of every slot of the cache. -/
theorem handle_fair {env : Env} {inp : Input} {w w' : World} (h : handle env inp w = .ok w')
    (hs : w.sent = []) (hu : w.OneRecord) :
    w'.OneRecord ∧ ∀ x, (w.turn w' env.now x).Fair bcastIdSave := by
  by_cases hc : Caches inp.aged
  · rcases hc with htimer | ⟨q, hq, hbody⟩
    · obtain rfl : inp = .broadcastTimer := by cases inp <;> simp_all [Input.aged]
      obtain rfl := Except.ok.inj h
      exact hu.fair_idPurge hs
    · obtain ⟨q', rfl⟩ : ∃ q', inp = .recv q' := by cases inp <;> simp_all [Input.aged]
      have hb : q'.body = q.body := by
        obtain rfl := Input.recv.inj hq
        rfl
      have hE : q'.isEamrp = true := by
        rw [Packet.isEamrp, hb]
        rcases hbody with ⟨rq, hb⟩ | ⟨rp, hb⟩ <;> rw [hb]
      obtain ⟨p, -, h, hb'⟩ := handle_recv h hE
      unfold recvEamrp at h
      split at h
      · cases h
      · rcases hbody with ⟨rq, hrq⟩ | ⟨rp, hrp⟩
        · rw [hb', hb, hrq] at h
          exact recvRequest_fair h hs hu
        · rw [hb', hb, hrp] at h
          exact recvReply_fair h hs hu
  · have hruns := @handle_runs env inp w
    rw [h] at hruns
    have hq := hruns.quiet hc
    exact ⟨hu.of_bihead hq.bihead, (hq.fair hs env.now).2⟩

end Eamrp
