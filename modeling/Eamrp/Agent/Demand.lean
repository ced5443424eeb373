import Eamrp.Agent.Drain

/-!
# Routes on demand

An agent asks for a route because its node has had a packet for the destination, and not long
ago: the packet either has just come in or waits in the send buffer, where it does not stay.
-/

namespace Eamrp

open Lib

/-- Only a call of `sendRequest` sends a request. -/
theorem Asking.Turn.called_of_mem {s s' : Asking} {now : Time} {called : Prop} {l : List Int}
    (h : Turn now called s s' l) {ttl : Int} (hl : ttl ∈ l) : called := by
  cases h with
  | rest => cases hl
  | found => cases hl
  | send hc => exact hc
  | hold => cases hl

section Demand

variable {env : Env} {a : Agent} {inp : Input} {w' v : World} {p : AppPacket} {d : NsAddr}

/-- A packet that enters the send buffer has just been handed down. -/
theorem Agent.Reachable.handedDown (h : a.Reachable) (hh : handle env inp a.world = .ok w')
    (hp : p ∈ w'.rqueue) : p ∈ a.rqueue ∨ ∃ q, inp = .recv q ∧ q.HandedDown a.index ∧
      q.ih.daddr = p.val.ih.daddr ∧ p.entered = env.now := by
  obtain ⟨nb, fq, -, hem⟩ := handle_sends hh h.ranged.1 h.pathLists
  obtain ⟨acts, l, gone, hr, htaken⟩ :=
    handle_carries hh h.waits h.unicasts h.ranged.2 h.pathLists
  rcases hr.stay p hp with hold | ⟨hts, -, hload⟩
  · exact .inl hold
  refine (hem.rqueue p hp).imp id ?_
  rintro ⟨⟨q, rfl, hq, -⟩, -⟩
  have hone : appLoads (a.takes env (.recv q)) = [q.load] := appLoads_app ⟨q, hq.isEamrp⟩
  rw [htaken, hone] at hload
  refine ⟨q, rfl, hq, (congrArg Load.daddr (List.mem_singleton.mp hload)).symm, ?_⟩
  rw [AppPacket.entered, hts]
  ring

/-- A RREQ of the node's own is sent by `sendRequest`. -/
theorem Agent.Reachable.calls_of_request (h : a.Reachable)
    (hh : handle env inp a.world = .ok w') {q : Packet} {rq : HdrRequest} (hq : q ∈ w'.sent)
    (hb : q.body = .rreq rq) (hsrc : rq.rqSrc = a.index) :
    ∃ v, Calls env a.world inp rq.rqDst v := by
  obtain ⟨nb, fq, -, hem⟩ := handle_sends hh h.ranged.1 h.pathLists
  have hindex : w'.index = a.index := hem.index
  obtain ⟨l, hturn, hl⟩ := turn_of_handle (w := a.world) h.pathLists.dst hh rq.rqDst
  have hown : q.request? w'.index = some (q.ih.ttl, rq) := by
    rw [Packet.request?, hb]
    exact if_pos (hsrc.trans hindex.symm)
  have hmem : q.ih.ttl ∈ w'.ttls rq.rqDst :=
    Agent.mem_ttls (List.mem_filterMap.mpr ⟨q, hq, hown⟩)
  rw [hl] at hmem
  have hnil : a.world.ttls rq.rqDst = [] := rfl
  rw [hnil, List.nil_append] at hmem
  exact hturn.called_of_mem hmem

/-- `sendRequest` is called for the destination of a packet of the node's own. -/
theorem Calls.demand (hc : Calls env a.world inp d v) :
    (∃ q, inp = .recv q ∧ q.HandedDown a.index ∧ q.ih.daddr = d) ∨
      ∃ p ∈ a.rqueue, p.val.ih.daddr = d := by
  cases hc with
  | resolve hq hd hs =>
    refine .inl ?_
    obtain ⟨p, rfl, hp⟩ := hq
    unfold AppPacket.toResolve at hp
    split at hp
    · cases hp
    · split at hp
      · next hown =>
        split at hp
        · next hn =>
          obtain rfl := Option.some.inj hp
          exact ⟨p.val, rfl, ⟨p.2, hown, hn⟩, hd⟩
        · cases hp
      · next hother =>
        split at hp
        · cases hp
        · obtain rfl := Option.some.inj hp
          exact absurd hs hother
  | purge _ hs _ _ hf =>
    obtain ⟨l, l', -, hfold⟩ := hs
    obtain ⟨p, hp, hd⟩ := List.any_eq_true.mp hf
    exact .inr ⟨p, (rqueue_turns hfold).subset hp, beq_iff_eq.mp hd⟩

/-- With an empty buffer the agent asks for no route, unless a packet is handed down. -/
theorem Agent.Run.silent {c₀ c : List (Move World Turn)} {w w' : World} (hrun : Agent.Run c₀ w)
    (hc : Chain Agent.Handles w c w') (hempty : w.rqueue = [])
    (hno : ∀ m ∈ c, ∀ q, m.label.input ≠ .recv q) :
    ∀ m ∈ c, ∀ p ∈ m.tgt.sent, ∀ rq, p.body = .rreq rq → rq.rqSrc ≠ m.tgt.index := by
  induction hc generalizing c₀ with
  | nil => exact fun m hm => absurd hm List.not_mem_nil
  | @cons w v w' τ c hs _ ih =>
    have hr : w.toAgent.Reachable := ⟨w, ⟨c₀, hrun⟩, rfl⟩
    obtain ⟨hτ, hrest⟩ := List.forall_mem_cons.mp hno
    have hv : v.rqueue = [] := List.eq_nil_iff_forall_not_mem.mpr fun p hp => by
      rcases hr.handedDown hs hp with hold | ⟨q, hq, -⟩
      · have hold : p ∈ w.rqueue := hold
        rw [hempty] at hold
        exact absurd hold List.not_mem_nil
      · exact hτ q hq
    intro m hm p hp rq hb hsrc
    rcases List.mem_cons.mp hm with rfl | hm
    · have hindex : v.index = w.index := (Agent.Handles.sameNode hs).index
      obtain ⟨x, hcalls⟩ := hr.calls_of_request hs hp hb (hsrc.trans hindex)
      rcases hcalls.demand with ⟨q, hq, -⟩ | ⟨x, hx, -⟩
      · exact hτ q hq
      · have hx : x ∈ w.rqueue := hx
        rw [hempty] at hx
        exact absurd hx List.not_mem_nil
    · exact ih (hrun.move hs) hv hrest m hm p hp rq hb hsrc

/-- Whatever waits was handed down when it entered the buffer. -/
theorem Agent.Run.handedDown {c : List (Move World Turn)} {w : World} (h : Agent.Run c w) :
    ∀ p ∈ w.rqueue, ∃ m ∈ c, ∃ q, m.label.input = .recv q ∧ q.HandedDown w.index ∧
      q.ih.daddr = p.val.ih.daddr ∧ p.entered = m.label.env.now := by
  induction h with
  | start h =>
    rw [h.initial]
    exact fun p hp => absurd hp List.not_mem_nil
  | @move c w w' τ hrun hs ih =>
    have hr : w.toAgent.Reachable := ⟨w, ⟨c, hrun⟩, rfl⟩
    have hindex : w'.index = w.index := (Agent.Handles.sameNode hs).index
    intro p hp
    rw [hindex]
    rcases hr.handedDown hs hp with hold | ⟨q, hq, hrest⟩
    · obtain ⟨m, hm, hrest⟩ := ih p hold
      exact ⟨m, List.mem_append_left _ hm, hrest⟩
    · exact ⟨_, List.mem_append_right _ (List.mem_singleton_self _), q, hq, hrest⟩

end Demand

namespace Timed

variable {s : Timed} {env : Env} {ev : Event} {t : List (Move Timed Event)}

/-- Node `i` has handed a packet for `d` to its agent at `now`. -/
def Demanded (t : List (Move Timed Event)) (i d : NsAddr) (now : Time) : Prop :=
  ∃ m ∈ t, ∃ env q, m.label = .input env (.recv q) ∧ q.HandedDown i ∧ q.ih.daddr = d ∧
    env.now = now

theorem Event.input_of_turns {τ : Turn} {q : Packet} (h : τ ∈ ev.turns)
    (hq : τ.input = .recv q) : ev = .input τ.env (.recv q) := by
  cases ev with
  | start env =>
    simp only [turns, List.mem_cons, List.not_mem_nil, or_false] at h
    rcases h with rfl | rfl | rfl | rfl <;> cases hq
  | fire k env =>
    obtain rfl := List.mem_singleton.mp h
    cases k <;> cases hq
  | input env inp =>
    obtain rfl := List.mem_singleton.mp h
    obtain rfl : inp = .recv q := hq
    rfl

/-- Whatever waits was handed down when it entered the buffer. -/
theorem Run.demanded (h : Run t s) :
    ∀ p ∈ s.world.rqueue, Demanded t s.world.index p.val.ih.daddr p.entered := by
  obtain ⟨c, w, hc, hw, hlabel⟩ := h.agent
  rw [← hw]
  intro p hp
  obtain ⟨m, hm, q, hq, hdown, hd, hentered⟩ := hc.handedDown p hp
  have hmem : m.label ∈ t.flatMap fun m => m.label.turns := hlabel ▸ List.mem_map_of_mem hm
  obtain ⟨m', hm', hτ⟩ := List.mem_flatMap.mp hmem
  exact ⟨m', hm', m.label.env, q, Event.input_of_turns hτ hq, hdown, hd, hentered.symm⟩

/-- The start of the timers asks for no route. -/
theorem Run.start_silent (h : Run t s) (hempty : s.world.rqueue = [])
    {s' : Timed} (hs : s.Step (.start env) s') :
    ∀ p ∈ s'.world.sent, ∀ rq, p.body = .rreq rq → rq.rqSrc ≠ s'.world.index := by
  obtain ⟨c₀, w, hrun, hw, -⟩ := h.agent
  obtain ⟨c, w', hc, hw', hlabel, hout⟩ := chain_of_next hs.2 hw
  have hqueue : w.rqueue = [] := (congrArg Agent.rqueue hw).trans hempty
  have hno : ∀ m ∈ c, ∀ q, m.label.input ≠ .recv q := by
    intro m hm q hq
    have hmem : m.label ∈ (Event.start env).turns := hlabel ▸ List.mem_map_of_mem hm
    cases Event.input_of_turns hmem hq
  intro p hp rq hb
  rw [sent_of_out hout] at hp
  obtain ⟨m, hm, hp⟩ := List.mem_flatMap.mp hp
  have hnode : m.tgt.SameNode w' :=
    (Agent.Run.sameNode (hrun.append hc) (List.mem_append_right _ hm)).2
  have hindex : m.tgt.index = s'.world.index :=
    hnode.index.symm.trans (congrArg Agent.index hw')
  rw [← hindex]
  exact hrun.silent hc hqueue hno m hm p hp rq hb

/-- An agent asks for routes on demand only. When the timers are started first, every RREQ of the
node's own is for a destination for which the node has handed down a packet in the last twelve
seconds. -/
theorem requests_on_demand {s₀ s₁ : Timed} (h : Run (⟨s₀, .start env, s₁⟩ :: t) s) :
    ∀ u m v, ⟨s₀, .start env, s₁⟩ :: t = u ++ m :: v → ∀ p ∈ m.tgt.world.sent, ∀ rq,
      p.body = .rreq rq → rq.rqSrc = m.tgt.world.index →
      ∃ now, Demanded (u ++ [m]) m.tgt.world.index rq.rqDst now ∧
        now ≤ m.label.env.now ∧ m.label.env.now ≤ now + 12 := by
  intro u m v hcut p hp rq hb hsrc
  rw [hcut] at h
  obtain ⟨hrun, hs⟩ := Lib.Run.of_append h
  have hrun : Run u m.src := hrun
  cases u with
  | nil =>
    obtain ⟨rfl, rfl⟩ := List.cons.inj hcut
    have hinit : s₀.Initial := Lib.Run.of_nil hrun
    have hempty : s₀.world.rqueue = [] := congrArg Agent.rqueue hinit.agent
    exact absurd hsrc (hrun.start_silent hempty hs p hp rq hb)
  | cons m₀ u =>
    obtain ⟨rfl, -⟩ := List.cons.inj hcut
    have hr : m.src.world.toAgent.Reachable := Run.reachable hrun
    obtain ⟨hst, hpat⟩ := Run.patient hrun List.mem_cons_self rfl
    obtain ⟨inp, w', hh, hw', hout, hturns, -⟩ := handle_of_next hst hs
    have hhandles : Agent.Handles m.src.world ⟨m.label.env, inp⟩ w' := hh
    have hindex : m.tgt.world.index = m.src.world.index := by
      rw [← hw']
      exact hhandles.sameNode.index
    have hsent : p ∈ w'.sent := by
      rw [World.sent] at hp ⊢
      rwa [← hout]
    obtain ⟨x, hc⟩ := hr.calls_of_request hh hsent hb (hsrc.trans hindex)
    rw [hindex]
    rcases hc.demand with ⟨q, rfl, hq, hd⟩ | ⟨x, hx, hd⟩
    · have hl : m.label = .input m.label.env (.recv q) :=
        Event.input_of_turns (hturns ▸ List.mem_singleton_self _) rfl
      refine ⟨_, ⟨m, ?_, m.label.env, q, hl, hq, hd, rfl⟩, le_rfl, by linarith⟩
      exact List.mem_append_right _ (List.mem_singleton_self _)
    · obtain ⟨m', hm', env', q, hl, hq, hd', hnow⟩ := hrun.demanded x hx
      have hentered : x.entered = m'.label.env.now := by
        rw [hl]
        exact hnow.symm
      have hpast : x.entered ≤ m.label.env.now := by
        rw [hentered]
        exact (hrun.schedule.times m' hm').2.trans hs.1.clock
      refine ⟨_, ⟨m', List.mem_append_left _ hm', env', q, hl, hq, hd'.trans hd, hnow⟩, hpast, ?_⟩
      exact hpat.now_le hst hs hx (hrun.entered_of_first x hx)

/-- One second later node 1 asks for node 3 again. -/
theorem requests_on_demand_asksInVain :
    ∃ now, Demanded (((idle 1).moves asksInVain).take 6)
        ((idle 1).final (asksInVain.take 6)).world.index 3 now ∧ now ≤ 1 ∧ 1 ≤ now + 12 :=
  requests_on_demand run_asksInVain [_, _, _, _, _] _ [_, _, _, _, _, _, _, _, _, _, _, _] rfl
    (requestPacket 1 30 2 3 0 6 1) (by decide +kernel) _ rfl (by decide +kernel)

end Timed

end Eamrp
