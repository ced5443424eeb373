import Eamrp.Agent.Buffer
import Eamrp.Agent.Spread

/-!
# Lifetimes of replies

An intermediate node puts what is left of the life of its first path into a RREP. The flag of
the route says that some path is there, and between two ticks of the timer that may be a path
which has expired.
-/

namespace Eamrp

open Lib

/-- The first path has not expired. -/
def RtEntry.Live (now : Time) (e : RtEntry) : Prop :=
  ∀ path, e.pathFind = some path → now < path.expire

/-- The RREP that a packet carries. -/
def Packet.reply? (p : Packet) : Option HdrReply :=
  match p.body with
  | .rrep rp => some rp
  | _ => none

namespace World

/-- The RREPs that the event has sent so far. -/
def rreps (w : World) : List HdrReply := w.sent.filterMap Packet.reply?

theorem rreps_send (w : World) (p : Packet) (delay : Time) :
    (w.send p delay).rreps = w.rreps ++ p.reply?.toList := by
  rw [rreps, rreps, sent_send, List.filterMap_append]
  cases hp : p.reply? <;> simp [hp]

end World

namespace RtEntry

variable {now : Time} {e e' : RtEntry}

theorem Live.of_paths (h : e.Live now) (hp : e'.rtPathList = e.rtPathList) : e'.Live now := by
  intro path hpath
  rw [pathFind, hp] at hpath
  exact h path hpath

/-- Using an entry prolongs its first path. -/
theorem live_used (now : Time) (transit : Bool) (e : RtEntry) : (e.used now transit).Live now := by
  have htouch : (e.touchFirst now).Live now := by
    intro path hpath
    unfold pathFind touchFirst at hpath
    cases hl : e.rtPathList with
    | nil =>
      rw [hl] at hpath
      cases hpath
    | cons p ps =>
      rw [hl] at hpath
      obtain rfl := Option.some.inj hpath
      exact lt_add_of_pos_right now (by decide)
  unfold used
  split
  · exact htouch.of_paths rfl
  · exact htouch

/-- A renewed entry has one path, which is fresh. -/
theorem live_renew {inf : Infinity} {seqno : UInt32} {nexthop lasthop : NsAddr}
    {hopcount : UInt16} {expire : Time} (h : now < expire) :
    (e.renew inf seqno nexthop hopcount expire lasthop).Live now := by
  intro path hpath
  obtain rfl := Option.some.inj (hpath : some _ = some path)
  exact h

end RtEntry

section Stages

variable {env : Env} {w w' : World} {d : NsAddr} {e : RtEntry}

/-- Packets of other protocols carry no RREP. -/
theorem reply?_of_isEamrp {p : Packet} (h : p.isEamrp = false) : p.reply? = none := by
  unfold Packet.isEamrp at h
  unfold Packet.reply?
  split <;> simp_all

theorem Forwarded.rreps {p : Packet} {rt : Option NsAddr} (h : Forwarded env p w rt w')
    (hp : p.reply? = none) : w'.rreps = w.rreps := by
  cases h with
  | expired => simp [World.rreps, World.drop, World.emit, World.sent, Effect.sent?]
  | dmux => simp [World.rreps, World.emit, World.sent, Effect.sent?]
  | @unicast d e path delay =>
    have hover : (p.over path.nexthop).reply? = none := hp
    rw [World.rreps_send, hover]
    exact List.append_nil _
  | broadcast =>
    have hall : p.toAll.reply? = none := hp
    rw [World.rreps_send, hall]
    exact List.append_nil _

/-- `forward` over an entry leaves the others alone and the entry alive. -/
theorem Forwarded.live {p : Packet} (h : Forwarded env p w (some d) w')
    (hd : w.rtLookup d = some e) :
    (∀ d', d' ≠ d → w'.rtLookup d' = w.rtLookup d') ∧
      ∃ e', w'.rtLookup d = some e' ∧ (e.Live env.now → e'.Live env.now) := by
  cases h with
  | expired => exact ⟨fun _ _ => rfl, e, hd, id⟩
  | dmux => exact ⟨fun _ _ => rfl, e, hd, id⟩
  | @unicast _ f path delay _ _ _ hf =>
    have hdst : ∀ b, (f.used env.now b).rtDst = d :=
      fun b => ((RtEntry.Calm.used env.now b f).rtDst.trans (w.rtDst_of_rtLookup hf) :)
    refine ⟨fun d' hne => ?_, _, World.rtLookup_store_self hf (hdst _), fun _ => ?_⟩
    · exact World.rtLookup_store_ne (by rwa [hdst])
    · exact RtEntry.live_used _ _ _

/-- The flush of the buffer sends no RREP, leaves other entries alone and its own alive. -/
theorem routeUp_live (hd : w.rtLookup d = some e) (h : routeUp env d w = .ok w') :
    w'.rreps = w.rreps ∧ (∀ d', d' ≠ d → w'.rtLookup d' = w.rtLookup d') ∧
      ∃ e', w'.rtLookup d = some e' ∧ (e.Live env.now → e'.Live env.now) := by
  unfold routeUp at h
  simp only [hd] at h
  split at h
  · obtain ⟨⟨v, u⟩, hv, h⟩ := of_bind_ok h
    obtain rfl := Except.ok.inj h
    refine whileDeque_ok (J := fun s => s.1.rreps = w.rreps ∧
      (∀ d', d' ≠ d → s.1.rtLookup d' = w.rtLookup d') ∧
      ∃ e', s.1.rtLookup d = some e' ∧ (e.Live env.now → e'.Live env.now)) ?_ ?_ ?_ hv
    · exact fun _ _ _ _ hs => hs
    · rintro p x _ q s' _ _ _ ⟨hr, ho, f, hf, hlive⟩ hb
      simp only [hf] at hb
      split at hb
      · obtain ⟨y, hy, hb⟩ := of_bind_ok hb
        obtain rfl := Except.ok.inj hb
        obtain ⟨ho', g, hg, hlive'⟩ := (forward_ok hy).live hf
        refine ⟨((forward_ok hy).rreps (reply?_of_isEamrp p.2)).trans hr, ?_, g, hg, ?_⟩
        · exact fun d' hne => (ho' d' hne).trans (ho d' hne)
        · exact fun he => hlive' (hlive he)
      · obtain rfl := Except.ok.inj hb
        exact ⟨hr, ho, f, hf, hlive⟩
    · have hdst : e.resetSoftState.rtDst = d := (w.rtDst_of_rtLookup hd :)
      exact ⟨rfl, fun d' hne => World.rtLookup_store_ne (by rwa [hdst]), _,
        World.rtLookup_store_self hd hdst, fun he => he.of_paths rfl⟩
  · obtain rfl := Except.ok.inj h
    exact ⟨rfl, fun _ _ => rfl, e, hd, id⟩

/-- Without packets to flush the paths stay as they are. -/
theorem routeUp_none (hd : w.rtLookup d = some e)
    (hnone : ∀ p ∈ w.rqueue, p.val.ih.daddr ≠ d) (h : routeUp env d w = .ok w') :
    ∃ e', w'.rtLookup d = some e' ∧ e'.rtPathList = e.rtPathList := by
  unfold routeUp at h
  simp only [hd] at h
  split at h
  · have hnone : ∀ p ∈ (w.store e.resetSoftState).rqueue, p.val.ih.daddr ≠ d := hnone
    rw [whileDeque_none hnone] at h
    obtain rfl := Except.ok.inj h
    have hdst : e.resetSoftState.rtDst = d := (w.rtDst_of_rtLookup hd :)
    exact ⟨_, World.rtLookup_store_self hd hdst, rfl⟩
  · obtain rfl := Except.ok.inj h
    exact ⟨e, hd, rfl⟩

end Stages

/-! ### The reverse path -/

namespace RtEntry

/-- The advertisement leaves a path over its sender in the entry: it is newer than the entry,
or it is about a path that the entry has or takes. -/
def Reverses (a : Agent) (A : Advert) (e : RtEntry) : Prop :=
  e.rtSeqno < A.seqno ∨ e.rtSeqno = A.seqno ∧ A.hops.toUInt16 < e.rtAdvertisedHops ∧
    ((e.disjointPathLookup A.via A.first).isSome = true ∨
      e.Admits a A ∧ 0 ≤ a.eamrpPrimAltPathLenDiff)

instance (a : Agent) (A : Advert) (e : RtEntry) : Decidable (e.Reverses a A) :=
  inferInstanceAs (Decidable (_ ∨ _))

theorem reverses_congr {a b : Agent} {A : Advert} {e : RtEntry}
    (hm : b.eamrpMaxPaths = a.eamrpMaxPaths)
    (hd : b.eamrpPrimAltPathLenDiff = a.eamrpPrimAltPathLenDiff) :
    e.Reverses b A ↔ e.Reverses a A := by
  simp only [Reverses, Admits, hm, hd]

/-- After an insertion, the length of the inserted path is compared with itself too. -/
theorem hopSpread_addPath {h : UInt8} {nexthop lasthop : NsAddr} {expire : Time} (e : RtEntry) :
    hopSpread h (e.addPath nexthop (h.toUInt16 + 1) expire lasthop) = max (hopSpread h e) 0 := by
  have hmin : (e.addPath nexthop (h.toUInt16 + 1) expire lasthop).pathGetMinHopcount =
      if h.toUInt16 + 1 < e.pathGetMinHopcount then h.toUInt16 + 1 else e.pathGetMinHopcount := by
    simp only [pathGetMinHopcount, addPath, pathInsert, List.foldl_append]
    rfl
  have hcount : (h.toUInt16 + 1).toNat = h.toNat + 1 :=
    (Advert.toNat_hopcount ⟨0, 0, h, 0, 0, 0⟩ :)
  unfold hopSpread
  rw [hmin]
  split
  · next hlt =>
    have hlt := UInt16.lt_iff_toNat_lt.mp hlt
    rw [hcount] at hlt ⊢
    omega
  · next hle =>
    have hle := UInt16.le_iff_toNat_le.mp (UInt16.not_lt.mp hle)
    rw [hcount] at hle
    omega

end RtEntry

/-- When the reverse-route update sets `reverse_path`. -/
theorem keep_true_iff {env : Env} {a : Agent} {saddr : NsAddr} {rq : HdrRequest}
    {e e' : RtEntry} {verdict : Verdict}
    (h : reverseRoute env a saddr rq e = .ok (e', verdict)) :
    verdict = .keep true ↔ e.Reverses a ⟨rq.rqSrc, rq.rqSrcSeqno, rq.rqHopCount, saddr,
      rq.rqFirstHop, revRouteLife⟩ := by
  unfold reverseRoute at h
  dsimp only at h
  split at h
  · next hlt =>
    obtain ⟨-, rfl⟩ := Prod.mk.inj (Except.ok.inj h)
    exact ⟨fun _ => .inl hlt, fun _ => rfl⟩
  · next hlt =>
    split at h
    · next hs =>
      split at h
      · cases h
      · split at h
        · next hp =>
          split at h
          · cases h
          · obtain ⟨-, rfl⟩ := Prod.mk.inj (Except.ok.inj h)
            exact ⟨fun _ => .inr ⟨hs.1, hs.2, .inl (by rw [hp]; rfl)⟩, fun _ => rfl⟩
        · next hp =>
          -- Without a path of its own the RREQ has to be admitted, and survive the second test.
          have hiff : e.Reverses a ⟨rq.rqSrc, rq.rqSrcSeqno, rq.rqHopCount, saddr,
              rq.rqFirstHop, revRouteLife⟩ ↔ e.newDisjointPath saddr rq.rqFirstHop = true ∧
              (e.rtNumPaths < a.eamrpMaxPaths ∧
                hopSpread rq.rqHopCount e ≤ a.eamrpPrimAltPathLenDiff) ∧
              0 ≤ a.eamrpPrimAltPathLenDiff := by
            constructor
            · rintro (hlt' | ⟨-, -, hp' | ⟨hadm, hdiff⟩⟩)
              · exact absurd hlt' hlt
              · rw [hp] at hp'
                cases hp'
              · exact ⟨hadm.2.2.1, hadm.2.2.2, hdiff⟩
            · rintro ⟨hn, hi, hdiff⟩
              exact .inr ⟨hs.1, hs.2, .inr ⟨⟨hs.1, hs.2, hn, hi⟩, hdiff⟩⟩
          rw [hiff]
          split at h
          · next hn =>
            by_cases hi : e.rtNumPaths < a.eamrpMaxPaths ∧
                hopSpread rq.rqHopCount e ≤ a.eamrpPrimAltPathLenDiff
            · simp only [hi, and_self, decide_true, if_true, RtEntry.hopSpread_addPath] at h
              have hspread := hi.2
              split at h
              · next hlong =>
                obtain ⟨-, rfl⟩ := Prod.mk.inj (Except.ok.inj h)
                refine ⟨nofun, fun hr => ?_⟩
                have := hr.2.2
                omega
              · next hlong =>
                obtain ⟨-, rfl⟩ := Prod.mk.inj (Except.ok.inj h)
                exact ⟨fun _ => ⟨hn, hi, by omega⟩, fun _ => rfl⟩
            · simp only [hi, decide_false, Bool.false_eq_true, if_false] at h
              split at h <;> obtain ⟨-, rfl⟩ := Prod.mk.inj (Except.ok.inj h) <;>
                exact ⟨nofun, fun hr => absurd hr.2.1 hi⟩
          · next hn =>
            split at h <;> split at h <;> obtain ⟨-, rfl⟩ := Prod.mk.inj (Except.ok.inj h) <;>
              exact ⟨nofun, fun hr => absurd hr.1 hn⟩
    · next hs =>
      obtain ⟨-, rfl⟩ := Prod.mk.inj (Except.ok.inj h)
      refine ⟨nofun, fun hr => ?_⟩
      rcases hr with hlt' | ⟨heq, hh, -⟩
      · exact absurd hlt' hlt
      · exact absurd ⟨heq, hh⟩ hs

/-! ### Answers -/

/-- The record of the RREQ, if there is one, says that it has not been answered yet. -/
def World.Unanswered (rq : HdrRequest) (w : World) : Prop :=
  ∀ b, w.idGet rq.rqSrc rq.rqBcastId = some b → b.count = 0

section Answers

variable {env : Env} {w w' : World} {p : Packet} {rq : HdrRequest} {e : RtEntry}

/-- A record that is made on receipt is unanswered. -/
theorem unanswered_remember : (w.remember env rq).Unanswered rq ↔ w.Unanswered rq := by
  unfold World.remember
  split
  · exact Iff.rfl
  · next hnone =>
    have hget : (w.idInsert env rq.rqSrc rq.rqBcastId).idGet rq.rqSrc rq.rqBcastId =
        some ⟨rq.rqSrc, rq.rqBcastId, env.now + bcastIdSave, 0⟩ := by
      simp [World.idGet, World.idInsert]
    constructor
    · intro _ b hb
      rw [hb] at hnone
      exact absurd rfl hnone
    · intro _ b hb
      obtain rfl := Option.some.inj (hget.symm.trans hb)
      rfl

theorem rreps_answerAsDestination {ih : HdrIp} (hw : w.rreps = []) :
    ∀ rp ∈ (answerAsDestination ih rq w).rreps, 0 < rp.rpLifetime := by
  intro rp hrp
  have hraise : (w.raiseSeqno rq).rreps = [] := by
    rw [World.raiseSeqno_eq]
    exact hw
  unfold answerAsDestination sendReply at hrp
  rw [World.rreps_send, hraise] at hrp
  obtain rfl := List.mem_singleton.mp hrp
  change 0 < myRouteTimeout
  decide

/-- The lifetime in a RREP of an intermediate node is that of its first path. -/
theorem rreps_answerFromRoute {ih : HdrIp} {b : Bool} (hw : w.rreps = [])
    (h : answerFromRoute env ih rq b e w = .ok w') :
    (∀ rp ∈ w'.rreps, 0 < rp.rpLifetime) ↔
      (b = true → w.Unanswered rq → e.Live env.now) := by
  unfold answerFromRoute at h
  split at h
  · cases h
  · split at h
    · next hb =>
      obtain rfl := Except.ok.inj h
      rw [hw, hb]
      exact ⟨fun _ => nofun, fun _ => nofun⟩
    · next hb =>
      have hb : b = true := by simpa using hb
      split at h
      · cases h
      · next r hr =>
        split at h
        · next hcount =>
          dsimp only at h
          split at h
          · cases h
          · next path hpath =>
            obtain rfl := Except.ok.inj h
            have hpath : e.pathFind = some path := hpath
            have hrest : ((w.idCount rq.rqSrc rq.rqBcastId).store
                { e.advertise env.inf with rtError := true }).rreps = [] := hw
            unfold sendReply
            rw [World.rreps_send, hrest]
            constructor
            · intro hall _ _ path' hpath'
              obtain rfl := Option.some.inj (hpath.symm.trans hpath')
              exact sub_pos.mp (hall _ (List.mem_singleton_self _))
            · intro hlive rp hrp
              obtain rfl := List.mem_singleton.mp hrp
              refine sub_pos.mpr (hlive hb ?_ path hpath)
              intro r' hr'
              obtain rfl := Option.some.inj (hr.symm.trans hr')
              exact hcount
        · next hcount =>
          obtain rfl := Except.ok.inj h
          rw [hw]
          exact ⟨fun _ _ hun => absurd (hun r hr) hcount, fun _ => nofun⟩

theorem rreps_rebroadcast {rt : Option RtEntry} (h : rebroadcast env p rq rt w = .ok w') :
    w'.rreps = w.rreps := by
  unfold rebroadcast at h
  split at h
  · cases h
  · dsimp only at h
    split at h
    · cases h
    · exact (forward_ok h).rreps rfl

theorem rreps_answerRequest {kill b : Bool} (hw : w.rreps = [])
    (h : answerRequest env p rq kill b w = .ok w') :
    (∀ rp ∈ w'.rreps, 0 < rp.rpLifetime) ↔
      (rq.rqDst ≠ w.index → ∀ e, w.rtLookup rq.rqDst = some e → e.rtFlags = .up →
        rq.rqDstSeqno ≤ e.rtSeqno → b = true → w.Unanswered rq → e.Live env.now) := by
  unfold answerRequest at h
  dsimp only at h
  split at h
  · next hdst =>
    obtain rfl := Except.ok.inj h
    exact ⟨fun _ hne => absurd hdst hne, fun _ => rreps_answerAsDestination hw⟩
  · next hdst =>
    split at h
    · next e he =>
      obtain ⟨hl, hc⟩ := Option.filter_eq_some_iff.mp he
      obtain ⟨hup, hfresh⟩ := of_decide_eq_true hc
      rw [rreps_answerFromRoute hw h]
      constructor
      · intro hlive _ f hf _ _ hb hun
        obtain rfl := Option.some.inj (hl.symm.trans hf)
        exact hlive hb hun
      · exact fun hall hb hun => hall hdst e hl hup hfresh hb hun
    · next hnone =>
      have hrreps : w'.rreps = [] := by
        split at h
        · exact Except.ok.inj h ▸ hw
        · exact (rreps_rebroadcast h).trans hw
      rw [hrreps]
      refine ⟨fun _ _ f hf hup hfresh => ?_, fun _ => nofun⟩
      have hsome : (w.rtLookup rq.rqDst).filter
          (fun e => decide (e.rtFlags = .up ∧ rq.rqDstSeqno ≤ e.rtSeqno)) = some f :=
        Option.filter_eq_some_iff.mpr ⟨hf, decide_eq_true ⟨hup, hfresh⟩⟩
      cases hnone.symm.trans hsome

end Answers

/-! ### The event of receiving a RREQ -/

/-- What a RREQ from node `x` advertises to node `i`. -/
def HdrRequest.toAdvert (i x : NsAddr) (rq : HdrRequest) : Advert :=
  ⟨rq.rqSrc, rq.rqSrcSeqno, rq.rqHopCount, x, if rq.rqHopCount = 0 then i else rq.rqFirstHop,
    revRouteLife⟩

namespace World

/-- The entry for `d` after the route update. -/
def routeFor (env : Env) (A : Advert) (w : World) (d : NsAddr) : Option RtEntry :=
  if d = A.dst then some ((w.entryFor env A.dst).learn env w.toAgent A) else w.rtLookup d

theorem Learned.rtLookup {env : Env} {A : Advert} {w u : World} (h : Learned env A w u)
    (d : NsAddr) : u.rtLookup d = w.routeFor env A d := by
  unfold routeFor
  split
  · next hd => rw [hd, h.self]
  · next hd => exact h.other d hd

/-- The node answers a RREQ from node `x` as an intermediate node, from the entry `e`. -/
structure AnswersFrom (env : Env) (w : World) (x : NsAddr) (rq : HdrRequest) (e : RtEntry) :
    Prop where
  notSource : rq.rqSrc ≠ w.index
  notDst : rq.rqDst ≠ w.index
  reverse : (w.entryFor env rq.rqSrc).Reverses w.toAgent (rq.toAdvert w.index x)
  unanswered : w.Unanswered rq
  route : w.routeFor env (rq.toAdvert w.index x) rq.rqDst = some e
  up : e.rtFlags = .up
  fresh : rq.rqDstSeqno ≤ e.rtSeqno

end World

section Events

variable {env : Env} {w w' : World} {p : Packet} {rq : HdrRequest}

/-- The stages of `recvRequest`, with what its route update comes to. -/
theorem recvRequest_learned (h : recvRequest env p rq w = .ok w') (hne : rq.rqSrc ≠ w.index) :
    ∃ u, ∃ verdict : Verdict, World.Learned env (rq.toAdvert w.index p.ih.saddr) w u ∧ u.out = w.out ∧
      (u.Unanswered rq ↔ w.Unanswered rq) ∧
      (verdict = .keep true ↔
        (w.entryFor env rq.rqSrc).Reverses w.toAgent (rq.toAdvert w.index p.ih.saddr)) ∧
      (verdict = .discard ∧ w' = u ∨
        ∃ b x, verdict = .keep b ∧ routeUp env rq.rqSrc u = .ok x ∧
          answerRequest env p (rq.atNode w.index) (w.idGet rq.rqSrc rq.rqBcastId).isSome b x =
            .ok w') := by
  obtain ⟨v, e, e', verdict, hv, he, hr, hrest⟩ := recvRequest_stages h hne
  obtain ⟨hlearn, -⟩ := learn_of_reverseRoute hr
  have hstore := World.updated_store (A := rq.toAdvert w.index p.ih.saddr) hv he hlearn
  have hu := (hstore.congr (w := w) (by rw [World.remember_eq])).toLearned
  obtain ⟨-, heq, -⟩ := World.rtEnsure_ok hv
  obtain ⟨hentry, -, hmax, hdiff⟩ := World.rtEnsure_remember hv he
  have hkeep : verdict = .keep true ↔
      (w.entryFor env rq.rqSrc).Reverses w.toAgent (rq.toAdvert w.index p.ih.saddr) := by
    rw [← RtEntry.reverses_congr hmax hdiff, ← hentry]
    exact keep_true_iff hr
  refine ⟨v.store e', verdict, hu, ?_, ?_, hkeep, hrest⟩
  · rw [heq, World.remember_eq]
    rfl
  · have hv' : v.Unanswered rq ↔ (w.remember env rq).Unanswered rq := by
      rw [heq]
      exact Iff.rfl
    exact hv'.trans unanswered_remember

/-- Every path that an entry of the node has or gets under a newer number is alive, and otherwise
the flush that follows the route update finds no packet: the first path of an entry that is up
is alive after the flush if and only if it is before. -/
theorem live_flushed {A : Advert} {u x : World} (hw : w.Waits) (hu : World.Learned env A w u)
    (hlife : 0 < A.life) (hx : routeUp env A.dst u = .ok x) {d : NsAddr} {e : RtEntry}
    (he : w.routeFor env A d = some e) :
    ∃ f, x.rtLookup d = some f ∧ e.Calm f ∧
      (e.rtFlags = .up → (f.Live env.now ↔ e.Live env.now)) := by
  obtain ⟨-, hother, f, hf, hlive⟩ := routeUp_live hu.self hx
  by_cases hd : d = A.dst
  · rw [World.routeFor, if_pos hd] at he
    obtain rfl := Option.some.inj he
    obtain ⟨f', hf', hcalm⟩ := (calm_routeUp hx).entry _ _ hu.self
    obtain rfl := Option.some.inj (hf.symm.trans hf')
    refine ⟨f, hd ▸ hf, hcalm, fun hup => ⟨fun hfl => ?_, hlive⟩⟩
    by_cases hnew : (w.entryFor env A.dst).rtSeqno < A.seqno
    · rw [RtEntry.learn, if_pos hnew]
      exact RtEntry.live_renew (lt_add_of_pos_right _ hlife)
    · rw [RtEntry.rtFlags_learn hnew] at hup
      have hnone : ∀ p ∈ u.rqueue, p.val.ih.daddr ≠ A.dst := by
        rw [hu.rqueue]
        cases hl : w.rtLookup A.dst with
        | none =>
          rw [World.entryFor, hl] at hup
          cases hup
        | some e₀ =>
          rw [World.entryFor, hl] at hup
          exact hw.daddr_ne hl hup
      obtain ⟨g, hg, hpaths⟩ := routeUp_none hu.self hnone hx
      obtain rfl := Option.some.inj (hf.symm.trans hg)
      exact hfl.of_paths hpaths.symm
  · refine ⟨e, ?_, .refl e, fun _ => Iff.rfl⟩
    rw [hother d hd, hu.rtLookup, he]

/-- When the RREPs that a RREQ makes a node send have lifetimes above 0. -/
theorem rreps_recvRequest (h : recvRequest env p rq w = .ok w') (hs : w.rreps = [])
    (hw : w.Waits) :
    (∀ rp ∈ w'.rreps, 0 < rp.rpLifetime) ↔
      ∀ e, w.AnswersFrom env p.ih.saddr rq e → e.Live env.now := by
  by_cases hsrc : rq.rqSrc = w.index
  · unfold recvRequest at h
    rw [if_pos hsrc] at h
    obtain rfl := Except.ok.inj h
    rw [hs]
    exact ⟨fun _ e hans => absurd hsrc hans.notSource, fun _ => nofun⟩
  · obtain ⟨u, verdict, hu, hout, hun, hkeep, hrest⟩ := recvRequest_learned h hsrc
    have hu0 : u.rreps = [] := by
      rw [World.rreps, World.sent, hout]
      exact hs
    rcases hrest with ⟨rfl, rfl⟩ | ⟨b, x, rfl, hx, hans⟩
    · rw [hu0]
      exact ⟨fun _ e ha => (by cases hkeep.mpr ha.reverse), fun _ => nofun⟩
    · have hxi : x.index = w.index := (calm_routeUp hx).index.trans hu.index
      have hx0 : x.rreps = [] := (routeUp_live hu.self hx).1.trans hu0
      have hbun : x.Unanswered rq ↔ w.Unanswered rq := by
        rw [← hun, World.Unanswered, (quiet_routeUp hx).idGet]
        exact Iff.rfl
      have hlife : 0 < (rq.toAdvert w.index p.ih.saddr).life :=
        show 0 < revRouteLife by decide
      rw [rreps_answerRequest hx0 hans, hxi]
      constructor
      · intro hall e ha
        obtain ⟨f, hf, hc, hiff⟩ := live_flushed hw hu hlife hx ha.route
        refine (hiff ha.up).mp (hall ha.notDst f hf (hc.rtFlags.trans ha.up) ?_ ?_ ?_)
        · rw [hc.rtSeqno]
          exact ha.fresh
        · exact Verdict.keep.inj (hkeep.mpr ha.reverse)
        · exact hbun.mpr ha.unanswered
      · intro hall hdst f hf hup hfresh hb hunx
        cases hroute : w.routeFor env (rq.toAdvert w.index p.ih.saddr) rq.rqDst with
        | none =>
          rw [← hu.rtLookup] at hroute
          cases ((calm_routeUp hx).missing _ hroute).symm.trans hf
        | some e =>
          obtain ⟨g, hg, hc, hiff⟩ := live_flushed hw hu hlife hx hroute
          obtain rfl := Option.some.inj (hg.symm.trans hf)
          have hupe : e.rtFlags = .up := hc.rtFlags ▸ hup
          refine (hiff hupe).mpr (hall e ⟨hsrc, hdst, hkeep.mp (by rw [hb]), hbun.mp hunx, hroute,
            hupe, ?_⟩)
          rw [← hc.rtSeqno]
          exact hfresh

/-- The event of receiving a RREQ. -/
theorem rreps_handle {q : Packet} (h : handle env (.recv q) w = .ok w') (hb : q.body = .rreq rq)
    (hs : w.rreps = []) (hw : w.Waits) :
    (∀ rp ∈ w'.rreps, 0 < rp.rpLifetime) ↔
      ∀ e, w.AnswersFrom env q.ih.saddr rq e → e.Live env.now :=
  rreps_recvRequest (p := { q with ih := { q.ih with ttl := q.ih.ttl - 1 } })
    (recvRequest_of_handle hb h) hs hw

end Events

/-! ### The receiver of a RREP -/

/-- What a RREP advertises. -/
def HdrReply.toAdvert (rp : HdrReply) : Advert :=
  ⟨rp.rpDst, rp.rpDstSeqno, rp.rpHopCount, rp.rpSrc, rp.rpFirstHop, rp.rpLifetime⟩

/-- Using a path shortens it to `ACTIVE_ROUTE_TIMEOUT` at most. -/
theorem Path.Kept.le_expire {now life : Time} {p p' : Path} (h : p.Kept now p')
    (hp : now + life ≤ p.expire) : now + min life activeRouteTimeout ≤ p'.expire := by
  rcases h with rfl | rfl
  · exact (add_le_add_right (min_le_left _ _) now).trans hp
  · exact add_le_add_right (min_le_right _ _) now

namespace RtEntry

variable {x y : NsAddr} {t : Time} {p : Path} {a : Agent} {A : Advert} {e : RtEntry}

/-- The entry takes the path of the advertisement: the number is newer, or the path is admitted
as an alternate or is there already. -/
def Takes (a : Agent) (A : Advert) (e : RtEntry) : Prop :=
  e.rtSeqno < A.seqno ∨ e.Admits a A ∨ e.rtSeqno = A.seqno ∧
    A.hops.toUInt16 < e.rtAdvertisedHops ∧ (e.disjointPathLookup A.via A.first).isSome = true

/-- The path that is prolonged lasts until `t` at least. -/
theorem le_raiseExpire {l : List Path}
    (h : l.find? (fun p => p.nexthop == x && p.lasthop == y) = some p) :
    ∃ q ∈ raiseExpire x y t l, q.nexthop = x ∧ q.lasthop = y ∧ t ≤ q.expire := by
  induction l with
  | nil => cases h
  | cons q l ih =>
    unfold raiseExpire
    rw [List.find?_cons] at h
    split at h
    · next hq =>
      have hxy := Bool.and_eq_true_iff.mp hq
      rw [if_pos hq]
      refine ⟨_, List.mem_cons_self, beq_iff_eq.mp hxy.1, beq_iff_eq.mp hxy.2, ?_⟩
      unfold macroMax
      split
      · next hlt => exact hlt.le
      · exact le_rfl
    · next hq =>
      obtain ⟨r, hr, hrest⟩ := ih h
      rw [if_neg (by rw [hq]; exact Bool.false_ne_true)]
      exact ⟨r, List.mem_cons_of_mem q hr, hrest⟩

/-- The path that is taken lasts as long as the advertisement promises. -/
theorem Takes.learn (env : Env) (h : e.Takes a A) : ∃ p ∈ (e.learn env a A).rtPathList,
    p.nexthop = A.via ∧ p.lasthop = A.first ∧ env.now + A.life ≤ p.expire := by
  unfold RtEntry.learn
  split
  · exact ⟨_, List.mem_singleton_self _, rfl, rfl, le_rfl⟩
  · next hold =>
    split
    · exact ⟨_, List.mem_append_right _ (List.mem_singleton_self _), rfl, rfl, le_rfl⟩
    · next hadm =>
      obtain ⟨hs, hh, hp⟩ := (h.resolve_left hold).resolve_left hadm
      obtain ⟨p, hp⟩ := Option.isSome_iff_exists.mp hp
      rw [if_pos ⟨hs, hh⟩]
      exact le_raiseExpire hp

end RtEntry

section Receiver

variable {env : Env} {p : Packet} {rp : HdrReply} {w w' : World}

/-- The receiver of a RREP stores the path that its entry takes for as long as the reply promises,
and for `ACTIVE_ROUTE_TIMEOUT` at most if packets leave over it at once. -/
theorem recvReply_expire (h : recvReply env p rp w = .ok w') (hne : rp.rpDst ≠ w.index)
    (ht : (w.entryFor env rp.rpDst).Takes w.toAgent rp.toAdvert) :
    ∃ e, w'.rtLookup rp.rpDst = some e ∧ ∃ path ∈ e.rtPathList, path.nexthop = rp.rpSrc ∧
      path.lasthop = rp.rpFirstHop ∧ env.now + min rp.rpLifetime activeRouteTimeout ≤ path.expire := by
  obtain ⟨u, hu, hused⟩ := (recvReply_advised h hne).used
  obtain ⟨e, he, -, hpaths⟩ := hused rp.rpDst _ hu.self
  obtain ⟨q, hq, hvia, hfirst, hlife⟩ := ht.learn env
  obtain ⟨path, hpath, hkept⟩ := exists_of_forall₂ (R := flip (Path.Kept env.now)) hpaths.flip hq
  have hleg := Path.Kept.leg hkept
  exact ⟨e, he, path, hpath, (congrArg Leg.nexthop hleg).trans hvia,
    (congrArg Leg.lasthop hleg).trans hfirst, Path.Kept.le_expire hkept hlife⟩

/-- A reply with a lifetime above 0 gives its receiver a path that is live on arrival. -/
theorem recvReply_live (h : recvReply env p rp w = .ok w') (hne : rp.rpDst ≠ w.index)
    (ht : (w.entryFor env rp.rpDst).Takes w.toAgent rp.toAdvert) (hlife : 0 < rp.rpLifetime) :
    ∃ e, w'.rtLookup rp.rpDst = some e ∧ ∃ path ∈ e.rtPathList, path.nexthop = rp.rpSrc ∧
      env.now < path.expire := by
  obtain ⟨e, he, path, hpath, hvia, -, hexpire⟩ := recvReply_expire h hne ht
  have hmin : 0 < min rp.rpLifetime activeRouteTimeout := lt_min hlife (by decide)
  exact ⟨e, he, path, hpath, hvia, (lt_add_of_pos_right _ hmin).trans_le hexpire⟩

end Receiver

namespace Agent

variable {t : List (Move World Turn)} {w : World}

/-- The lifetimes of replies: in every run of an agent all RREPs that it generates have lifetimes
above 0 if and only if, whenever it answers a RREQ as an intermediate node, the first path of
the entry it answers from has not expired. -/
theorem reply_lifetime (h : Run t w) :
    (∀ m ∈ t, ∀ q rq, m.label.input = .recv q → q.body = .rreq rq →
        ∀ rp ∈ m.tgt.rreps, 0 < rp.rpLifetime) ↔
      ∀ m ∈ t, ∀ q rq, m.label.input = .recv q → q.body = .rreq rq →
        ∀ e, m.src.AnswersFrom m.label.env q.ih.saddr rq e → e.Live m.label.env.now := by
  have hevent : ∀ m ∈ t, ∀ q rq, m.label.input = .recv q → q.body = .rreq rq →
      ((∀ rp ∈ m.tgt.rreps, 0 < rp.rpLifetime) ↔
        ∀ e, m.src.AnswersFrom m.label.env q.ih.saddr rq e → e.Live m.label.env.now) := by
    intro m hm q rq hin hb
    obtain ⟨-, hs⟩ := Lib.Run.of_mem h hm
    have hs : handle m.label.env (.recv q) m.src.toAgent.world = .ok m.tgt := by
      rw [← hin]
      exact hs
    have hiff := rreps_handle hs hb rfl (Run.reachable h hm).1.waits
    refine hiff.trans ⟨fun hall e ha => hall e ?_, fun hall e ha => hall e ?_⟩
    · exact ⟨ha.notSource, ha.notDst, ha.reverse, ha.unanswered, ha.route, ha.up, ha.fresh⟩
    · exact ⟨ha.notSource, ha.notDst, ha.reverse, ha.unanswered, ha.route, ha.up, ha.fresh⟩
  constructor
  · exact fun hall m hm q rq hin hb => (hevent m hm q rq hin hb).mp (hall m hm q rq hin hb)
  · exact fun hall m hm q rq hin hb => (hevent m hm q rq hin hb).mpr (hall m hm q rq hin hb)

/-- Node 2 hears the HELLO of node 1, its timer ticks until the path has no time left, and
before the next tick a RREQ of node 3 for node 1 comes in. -/
def lateRequest : List Turn :=
  let hello : Packet :=
    { ih := { saddr := 1, daddr := ipBroadcast, sport := rtPort, dport := rtPort, ttl := 1 }
      body := .hello { rpHopCount := 0, rpDst := 1, rpDstSeqno := 2, rpLifetime := 4 } }
  let rq : HdrRequest :=
    { rqHopCount := 0, rqBcastId := 1, rqDst := 1, rqDstSeqno := 0, rqSrc := 3, rqSrcSeqno := 4,
      rqTimestamp := 4 }
  let request : Packet :=
    { ih := { saddr := 3, daddr := ipBroadcast, sport := rtPort, dport := rtPort, ttl := 5 }
      body := .rreq rq }
  [⟨{ now := 0, inf := .mathH }, .recv hello⟩] ++
    (List.range 9).map (fun k : Nat => ⟨{ now := k / 2, inf := .mathH }, .routeCacheTimer⟩) ++
    [⟨{ now := 17 / 4, inf := .mathH }, .recv request⟩]

theorem run_lateRequest : Run (moves (idle 2) lateRequest) (final (idle 2) lateRequest) :=
  run_idle (by decide +kernel)

/-- Node 2 answers with a lifetime below 0. -/
theorem reply_expired_lateRequest :
    ∃ t, Run t (final (idle 2) lateRequest) ∧ Clocked t ∧
      ∃ m ∈ t, ∃ q rq, m.label.input = .recv q ∧ q.body = .rreq rq ∧
        ∃ rp ∈ m.tgt.rreps, rp.rpLifetime < 0 := by
  refine ⟨_, run_lateRequest, by unfold Clocked; decide +kernel, ?_⟩
  refine ⟨_, List.getLast_mem (by decide +kernel), _, _, rfl, rfl, ?_⟩
  decide +kernel

/-- So the first path of the entry that it answers from has expired. -/
theorem reply_lifetime_lateRequest :
    ¬ ∀ m ∈ moves (idle 2) lateRequest, ∀ q rq, m.label.input = .recv q → q.body = .rreq rq →
      ∀ e, m.src.AnswersFrom m.label.env q.ih.saddr rq e → e.Live m.label.env.now := by
  intro hcond
  have hall := (reply_lifetime run_lateRequest).mpr hcond
  have hlast := hall _ (List.getLast_mem (by decide +kernel)) _ _ rfl rfl
  exact absurd hlast (by decide +kernel)

end Agent

end Eamrp
