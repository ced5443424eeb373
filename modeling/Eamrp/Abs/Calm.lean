import Eamrp.Abs.Deeds

/-!
# What follows the route update

Once a handler has updated a route it forwards packets and sends answers. On the way it
touches expiry times, advertised hop counts and request bookkeeping, but no flag, sequence
number or leg of any entry, and it takes packets out of the send buffer only.
-/

namespace Eamrp

open Lib

/-! ### Calm changes -/

namespace RtEntry

/-- The entry says the same about the way to its destination, up to expiry times and the
advertised hop count. -/
structure Calm (e e' : RtEntry) : Prop where
  rtDst : e'.rtDst = e.rtDst
  rtFlags : e'.rtFlags = e.rtFlags
  rtSeqno : e'.rtSeqno = e.rtSeqno
  rtNumPaths : e'.rtNumPaths = e.rtNumPaths
  legs : e'.rtPathList.map Path.leg = e.rtPathList.map Path.leg

namespace Calm

theorem refl (e : RtEntry) : e.Calm e := ⟨rfl, rfl, rfl, rfl, rfl⟩

theorem trans {e e' e'' : RtEntry} (h : e.Calm e') (h' : e'.Calm e'') : e.Calm e'' where
  rtDst := h'.rtDst.trans h.rtDst
  rtFlags := h'.rtFlags.trans h.rtFlags
  rtSeqno := h'.rtSeqno.trans h.rtSeqno
  rtNumPaths := h'.rtNumPaths.trans h.rtNumPaths
  legs := h'.legs.trans h.legs

theorem touchFirst (now : Time) (e : RtEntry) : e.Calm (e.touchFirst now) :=
  ⟨rfl, rfl, rfl, rfl, congrArg Route.legs (e.route_touchFirst now)⟩

theorem used (now : Time) (transit : Bool) (e : RtEntry) : e.Calm (e.used now transit) := by
  unfold RtEntry.used
  split
  · exact (touchFirst now e).trans ⟨rfl, rfl, rfl, rfl, rfl⟩
  · exact touchFirst now e

theorem resetSoftState (e : RtEntry) : e.Calm e.resetSoftState := ⟨rfl, rfl, rfl, rfl, rfl⟩

end Calm

end RtEntry

namespace World

/-- No route changes, and packets only leave the send buffer. -/
structure Calm (w w' : World) : Prop where
  index : w'.index = w.index
  eamrpMaxPaths : w'.eamrpMaxPaths = w.eamrpMaxPaths
  eamrpPrimAltPathLenDiff : w'.eamrpPrimAltPathLenDiff = w.eamrpPrimAltPathLenDiff
  entry : ∀ d e, w.rtLookup d = some e → ∃ e', w'.rtLookup d = some e' ∧ e.Calm e'
  missing : ∀ d, w.rtLookup d = none → w'.rtLookup d = none
  rqueue : w'.rqueue.Sublist w.rqueue
  out : w.out <+: w'.out

namespace Calm

variable {w w' w'' : World}

/-- The routing table is the same. -/
theorem of_rtable (hi : w'.index = w.index) (hm : w'.eamrpMaxPaths = w.eamrpMaxPaths)
    (hd : w'.eamrpPrimAltPathLenDiff = w.eamrpPrimAltPathLenDiff) (ht : w'.rtable = w.rtable)
    (hq : w'.rqueue.Sublist w.rqueue) (ho : w.out <+: w'.out) : w.Calm w' where
  index := hi
  eamrpMaxPaths := hm
  eamrpPrimAltPathLenDiff := hd
  entry d e he := ⟨e, by rwa [World.rtLookup, ht], .refl e⟩
  missing d hd := by rwa [World.rtLookup, ht]
  rqueue := hq
  out := ho

theorem refl (w : World) : w.Calm w :=
  of_rtable rfl rfl rfl rfl (List.Sublist.refl _) (List.prefix_refl _)

theorem trans (h : w.Calm w') (h' : w'.Calm w'') : w.Calm w'' where
  index := h'.index.trans h.index
  eamrpMaxPaths := h'.eamrpMaxPaths.trans h.eamrpMaxPaths
  eamrpPrimAltPathLenDiff := h'.eamrpPrimAltPathLenDiff.trans h.eamrpPrimAltPathLenDiff
  entry d e he := by
    obtain ⟨e', he', hc⟩ := h.entry d e he
    obtain ⟨e'', he'', hc'⟩ := h'.entry d e' he'
    exact ⟨e'', he'', hc.trans hc'⟩
  missing d hd := h'.missing d (h.missing d hd)
  rqueue := h'.rqueue.trans h.rqueue
  out := h.out.trans h'.out

theorem emit (w : World) (x : Effect) : w.Calm (w.emit x) :=
  of_rtable rfl rfl rfl rfl (List.Sublist.refl _) (List.prefix_append _ _)

theorem send (w : World) (p : Packet) (delay : Time) : w.Calm (w.send p delay) := emit w _

/-- One entry changes calmly. -/
theorem store {d : NsAddr} {e e' : RtEntry} (hd : w.rtLookup d = some e) (h : e.Calm e') :
    w.Calm (w.store e') where
  index := rfl
  eamrpMaxPaths := rfl
  eamrpPrimAltPathLenDiff := rfl
  entry d' x hx := by
    have he := w.rtDst_of_rtLookup hd
    by_cases heq : d' = d
    · subst heq
      obtain rfl := Option.some.inj (hd.symm.trans hx)
      exact ⟨e', rtLookup_store_self hd (h.rtDst.trans he), h⟩
    · refine ⟨x, ?_, .refl x⟩
      rw [rtLookup_store_ne]
      · exact hx
      · rw [h.rtDst, he]
        exact heq
  missing d' hn := by
    rw [rtLookup_store]
    split
    · rw [hn]
      rfl
    · exact hn
  rqueue := List.Sublist.refl _
  out := List.prefix_refl _

end Calm

end World

/-! ### Calm handlers -/

/-- A route that is used or advertised stays as it was. -/
theorem RtEntry.Use.calm {now : Time} {e e' : RtEntry} (h : e.Use now e') : e.Calm e' where
  rtDst := h.rtDst
  rtFlags := h.rtFlags
  rtSeqno := h.rtSeqno
  rtNumPaths := h.rtNumPaths
  legs := by
    have hlegs : ∀ l l', List.Forall₂ (Path.Kept now) l l' → l'.map Path.leg = l.map Path.leg := by
      intro l l' hl
      induction hl with
      | nil => rfl
      | cons hk _ ih => rw [List.map_cons, List.map_cons, hk.leg, ih]
    exact hlegs _ _ h.paths

theorem World.Deeds.calm {now : Time} {w w' : World} (h : w.Deeds (RtEntry.Use now) w') :
    w.Calm w' where
  index := h.index
  eamrpMaxPaths := h.eamrpMaxPaths
  eamrpPrimAltPathLenDiff := h.eamrpPrimAltPathLenDiff
  entry d e he := by
    obtain ⟨e', he', hu⟩ := h.entry d e he
    exact ⟨e', he', hu.calm⟩
  missing := h.missing
  rqueue := h.rqueue
  out := by
    obtain ⟨l, hl, -⟩ := h.out
    exact ⟨l, hl.symm⟩

section Handlers

variable {env : Env} {w w' : World} {p : Packet} {rq : HdrRequest} {rp : HdrReply}

theorem Forwarded.calm {rt : Option NsAddr} (h : Forwarded env p w rt w') : w.Calm w' := by
  cases h with
  | expired => exact .emit _ _
  | dmux => exact .emit _ _
  | unicast _ _ _ hd => exact (World.Calm.store hd (RtEntry.Use.used _ _).calm).trans (.send _ _ _)
  | broadcast => exact .send _ _ _

/-- The loop that flushes the packets buffered for `d`, when the route to `d` is up. -/
theorem calm_routeUp {d : NsAddr} (h : routeUp env d w = .ok w') : w.Calm w' := by
  cases hd : w.rtLookup d with
  | none =>
    unfold routeUp at h
    rw [hd] at h
    cases h
  | some e =>
    by_cases hup : e.rtFlags = .up
    · exact (World.Calm.store hd (.resetSoftState e)).trans (deeds_routeUp hd hup h).calm
    · rw [routeUp_of_ne hd hup h]
      exact .refl w

/-- Once the route to `d` is up, no packet for `d` is left in the send buffer. -/
theorem rqueue_routeUp {d : NsAddr} {e : RtEntry} (hd : w.rtLookup d = some e)
    (hup : e.rtFlags = .up) (h : routeUp env d w = .ok w') :
    w'.rqueue = w.rqueue.drained env.now d := by
  unfold routeUp at h
  simp only [hd, hup, if_true] at h
  obtain ⟨⟨v, u⟩, hv, h⟩ := of_bind_ok h
  obtain rfl := Except.ok.inj h
  have hlen : (w.store e.resetSoftState).rqueue.length <
      (w.store e.resetSoftState).rqueue.length + 1 := Nat.lt_succ_self _
  refine rqueue_whileDeque (s := (w.store e.resetSoftState, ())) ?_ hlen hv
  intro q s s' hb
  obtain ⟨x, b⟩ := s
  dsimp only at hb
  split at hb
  · obtain rfl := Except.ok.inj hb
    rfl
  · split at hb
    · obtain ⟨y, hy, hb⟩ := of_bind_ok hb
      obtain rfl := Except.ok.inj hb
      exact (forward_ok hy).rqueue
    · obtain rfl := Except.ok.inj hb
      rfl

theorem calm_answerRequest {kill reversePath : Bool} (hrq : rq.rqSrc ≠ w.index)
    (h : answerRequest env p rq kill reversePath w = .ok w') : w.Calm w' :=
  (deeds_answerRequest hrq h).calm

end Handlers

end Eamrp
