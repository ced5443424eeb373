import Eamrp.Agent.Discovery
import Eamrp.Agent.Timed

/-!
# Soft state of an agent

The records of the broadcast-id cache and of the neighbour cache. A record is made or renewed when
a packet is heard, and only the timer of its cache takes it out again. As the timer fires again and
again, a record stays for as long as it has been promised and goes soon after.
-/

namespace Eamrp

open Lib

namespace Agent

/-- The deadline `f` of a record that timer `k` looks after: an input that is `Heard` sets it to
between `lo` and `hi` from now or leaves the record as it is, the timer takes the record out when
the deadline has come, and nothing else touches it. -/
structure Lapses (k : Timer) (Heard : Input → Prop) (lo hi : Time) (f : Agent → Option Time) :
    Prop where
  initial : ∀ i a, a.Initial i → f a = none
  timer : ∀ k' : Timer, ¬ Heard k'.input
  sweep : ∀ {a : Agent} {env : Env} {w' : World}, a.Reachable →
    handle env k.input a.world = .ok w' →
    f w'.toAgent = (f a).filter fun d => decide (env.now < d)
  heard : ∀ {a : Agent} {env : Env} {inp : Input} {w' : World}, a.Reachable →
    handle env inp a.world = .ok w' → Heard inp →
    f w'.toAgent = f a ∨ ∃ d, f w'.toAgent = some d ∧ env.now + lo ≤ d ∧ d ≤ env.now + hi
  rest : ∀ {a : Agent} {env : Env} {inp : Input} {w' : World}, a.Reachable →
    handle env inp a.world = .ok w' → inp ≠ k.input → ¬ Heard inp → f w'.toAgent = f a

end Agent

namespace Timed

/-- The event is an input that is `Heard`. -/
def Event.Brings (Heard : Input → Prop) (ev : Event) : Prop :=
  ∃ env inp, ev = .input env inp ∧ Heard inp

section Soft

variable {k : Timer} {Heard : Input → Prop} {lo hi : Time} {f : Agent → Option Time}
variable {s s' : Timed} {ev : Event} {t : List (Move Timed Event)} {d T : Time}

/-- What one timer does to a deadline. -/
theorem soft_handle (hf : Agent.Lapses k Heard lo hi f) {env : Env} {k' : Timer}
    (hr : s.world.toAgent.Reachable) (h : s.handle env k' = .ok s') :
    s'.world.toAgent.Reachable ∧ f s'.world.toAgent =
      if k' = k then (f s.world.toAgent).filter fun d => decide (env.now < d)
      else f s.world.toAgent := by
  obtain ⟨w, hw, heq⟩ := hr
  obtain ⟨w', hs, hw', -⟩ := handle_ok h heq
  have hok : Eamrp.handle env k'.input s.world.toAgent.world = .ok w' := by
    rwa [Agent.Handles, heq] at hs
  have hr : s.world.toAgent.Reachable := ⟨w, hw, heq⟩
  refine ⟨⟨w', hw.next hs, hw'⟩, ?_⟩
  rw [← hw']
  split
  · next hk => exact hf.sweep hr (hk ▸ hok)
  · next hk =>
    exact hf.rest hr hok (fun h => hk (Timer.input_injective h)) (hf.timer k')

/-- What one event does to a deadline. -/
theorem soft_step (hf : Agent.Lapses k Heard lo hi f) (hr : s.world.toAgent.Reachable)
    (h : s.Step ev s') :
    (ev.Fires k → f s'.world.toAgent =
        (f s.world.toAgent).filter fun d => decide (ev.env.now < d)) ∧
      (¬ ev.Fires k → f s'.world.toAgent = f s.world.toAgent ∨ ev.Brings Heard ∧
        ∃ d, f s'.world.toAgent = some d ∧ ev.env.now + lo ≤ d ∧ d ≤ ev.env.now + hi) := by
  obtain ⟨hen, h⟩ := h
  cases ev with
  | start env =>
    refine ⟨fun _ => ?_, fun hk => absurd trivial hk⟩
    change s.quiet.start env = .ok s' at h
    unfold start at h
    obtain ⟨s₁, h₁, h⟩ := of_bind_ok h
    obtain ⟨s₂, h₂, h⟩ := of_bind_ok h
    obtain ⟨s₃, h₃, h⟩ := of_bind_ok h
    obtain ⟨hr₁, hf₁⟩ := soft_handle hf (s := s.quiet) hr h₁
    obtain ⟨hr₂, hf₂⟩ := soft_handle hf hr₁ h₂
    obtain ⟨hr₃, hf₃⟩ := soft_handle hf hr₂ h₃
    obtain ⟨-, hf₄⟩ := soft_handle hf hr₃ h
    rw [hf₄, hf₃, hf₂, hf₁]
    cases k <;> rfl
  | fire k' env =>
    obtain ⟨-, hf'⟩ := soft_handle hf (s := s.quiet) hr h
    refine ⟨fun hk => ?_, fun hk => .inl ?_⟩
    · exact hf'.trans (if_pos hk)
    · exact hf'.trans (if_neg hk)
  | input env inp =>
    obtain ⟨w', hw', h⟩ := of_bind_ok h
    obtain rfl := Except.ok.inj h
    refine ⟨fun hk => hk.elim, fun _ => ?_⟩
    by_cases hheard : Heard inp
    · exact (hf.heard hr hw' hheard).imp id (⟨⟨env, inp, rfl, hheard⟩, ·⟩)
    · exact .inl (hf.rest hr hw' (hen.input env inp rfl k) hheard)

/-- What a move does to a deadline, as a turn of soft state. -/
def softTurn (k : Timer) (f : Agent → Option Time) (m : Move Timed Event) : Soft.Turn Time :=
  ⟨m.label.env.now, if m.label.Fires k then .sweep else
    if f m.tgt.world.toAgent = f m.src.world.toAgent then .rest else
      (f m.tgt.world.toAgent).elim .rest .hit⟩

theorem softTurn_step (hf : Agent.Lapses k Heard lo hi f) {m : Move Timed Event}
    (hr : m.src.world.toAgent.Reachable) (h : m.src.Step m.label m.tgt) :
    Soft.Step (f m.src.world.toAgent) (softTurn k f m) (f m.tgt.world.toAgent) := by
  obtain ⟨hfire, hrest⟩ := soft_step hf hr h
  unfold softTurn
  by_cases hk : m.label.Fires k
  · rw [if_pos hk, hfire hk]
    exact .sweep _ _
  · rw [if_neg hk]
    rcases hrest hk with heq | ⟨-, d, hd, -⟩
    · rw [if_pos heq, heq]
      exact .rest _ _
    · split
      · next heq =>
        rw [heq]
        exact .rest _ _
      · rw [hd]
        exact .hit _ _ _

/-- Whoever sets a deadline has heard. -/
theorem brings_of_hit (hf : Agent.Lapses k Heard lo hi f) {m : Move Timed Event}
    (hr : m.src.world.toAgent.Reachable) (h : m.src.Step m.label m.tgt)
    (hd : (softTurn k f m).act = .hit d) : m.label.Brings Heard ∧
      f m.tgt.world.toAgent = some d ∧ m.label.env.now + lo ≤ d ∧ d ≤ m.label.env.now + hi := by
  unfold softTurn at hd
  dsimp only at hd
  split at hd
  · cases hd
  · next hk =>
    split at hd
    · cases hd
    · next hne =>
      rcases (soft_step hf hr h).2 hk with heq | ⟨hb, d', hd', hlo, hhi⟩
      · exact absurd heq hne
      · rw [hd'] at hd
        obtain rfl := Soft.Act.hit.inj hd
        exact ⟨hb, hd', hlo, hhi⟩

/-- The deadline over the whole run. -/
theorem Run.soft (hf : Agent.Lapses k Heard lo hi f) (h : Run t s) : ∀ m ∈ t,
    Soft.Step (f m.src.world.toAgent) (softTurn k f m) (f m.tgt.world.toAgent) ∧
      ∀ d, (softTurn k f m).act = .hit d → m.label.Brings Heard ∧
        f m.tgt.world.toAgent = some d ∧ m.label.env.now + lo ≤ d ∧
        d ≤ m.label.env.now + hi := by
  intro m hm
  obtain ⟨⟨u, hu⟩, hs⟩ := Lib.Run.of_mem h hm
  have hr : m.src.world.toAgent.Reachable := Run.reachable hu
  exact ⟨softTurn_step hf hr hs, fun d hd => brings_of_hit hf hr hs hd⟩

/-- A record that has been made or renewed stays until its deadline, if that is at most `lo`
away. -/
theorem Run.kept (hf : Agent.Lapses k Heard lo hi f) {u v : List (Move Timed Event)}
    {m : Move Timed Event} (h : Run (u ++ m :: v) s) (hd : f m.tgt.world.toAgent = some d)
    (hT : T ≤ d) (hlo : T ≤ m.label.env.now + lo) (hs : s.clock < T) :
    (f s.world.toAgent).isSome := by
  have hsched := h.schedule
  have hlater : ∀ m' ∈ v, m.label.env.now ≤ m'.label.env.now :=
    (List.pairwise_cons.mp (List.pairwise_append.mp hsched.ordered).2.1).1
  have hmem : ∀ m' ∈ v, m' ∈ u ++ m :: v := fun m' hm' =>
    List.mem_append_right u (List.mem_cons_of_mem m hm')
  have hchain := (Lib.Run.chain_after h).map (fun s => f s.world.toAgent) (softTurn k f)
    fun m' hm' => (h.soft hf m' (hmem m' hm')).1
  have hleft : ∃ d', f s.world.toAgent = some d' ∧ T ≤ d' := by
    refine Soft.kept hchain ⟨d, hd, hT⟩ (fun x hx => ?_) fun x hx d' hhit => ?_
    · obtain ⟨m', hm', rfl⟩ := List.mem_map.mp hx
      exact (hsched.times m' (hmem m' hm')).2.trans_lt hs
    · obtain ⟨m', hm', rfl⟩ := List.mem_map.mp hx
      obtain ⟨-, -, hle, -⟩ := (h.soft hf m' (hmem m' hm')).2 d' hhit
      exact (hlo.trans (add_le_add_left (hlater m' hm') lo)).trans hle
  obtain ⟨d', hd', -⟩ := hleft
  exact Option.isSome_iff_exists.mpr ⟨d', hd'⟩

/-- While the timers run, whatever has a record has been heard less than `hi` and one interval of
the timer ago. -/
theorem Run.recent (hf : Agent.Lapses k Heard lo hi f) (h : Run t s) (hs : s.Started)
    (hhi : 0 < hi) {δ : Time} (hδ : ∀ env : Env, 0 ≤ env.uniform → env.uniform ≤ 1 →
      k.interval env ≤ δ) (hd : (f s.world.toAgent).isSome) :
    ∃ m ∈ t, m.label.Brings Heard ∧ s.clock < m.label.env.now + hi + δ := by
  have hsched := h.schedule
  obtain ⟨d, hd⟩ := Option.isSome_iff_exists.mp hd
  obtain ⟨s₀, h₀, hc⟩ := h.chain
  have hchain := hc.map (fun s => f s.world.toAgent) (softTurn k f) fun m hm => (h.soft hf m hm).1
  rw [hf.initial _ _ h₀.agent, hd] at hchain
  obtain ⟨u, x, v, ht, hhit, hsweep⟩ := Soft.origin hchain
  obtain ⟨u, v', rfl, hu, hv'⟩ := List.map_eq_append_iff.mp ht
  obtain ⟨m, v, rfl, rfl, rfl⟩ := List.map_eq_cons_iff.mp hv'
  have hm : m ∈ u ++ m :: v := List.mem_append_right u List.mem_cons_self
  obtain ⟨hb, -, -, hle⟩ := (h.soft hf m hm).2 d hhit
  refine ⟨m, hm, hb, ?_⟩
  -- The timer fired not longer than one interval ago.
  obtain ⟨τ, hτ⟩ := Option.isSome_iff_exists.mp (hs k)
  obtain ⟨hclock, m', hm', hfire, rfl⟩ := hsched.due k τ hτ
  obtain ⟨huni, huni'⟩ := hsched.uniform m' hm'
  have hint := hδ m'.label.env huni huni'
  suffices m'.label.env.now < m.label.env.now + hi by linarith
  have hearlier : ∀ m' ∈ u, m'.label.env.now ≤ m.label.env.now := fun m' hm' =>
    (List.pairwise_append.mp hsched.ordered).2.2 m' hm' m List.mem_cons_self
  rcases List.mem_append.mp hm' with hm' | hm'
  · linarith [hearlier m' hm']
  · rcases List.mem_cons.mp hm' with rfl | hm'
    · linarith
    · have hact : (softTurn k f m').act = .sweep := if_pos hfire
      have := hsweep _ (List.mem_map_of_mem hm') hact
      exact lt_of_lt_of_le this hle

end Soft

end Timed

/-! ### The broadcast-id cache -/

namespace World

variable {w w' v : World} {x k : Pair} {kill : Bool}

/-- Until when the cache keeps the record of the pair. -/
def idUntil (w : World) (x : Pair) : Option Time := (w.idGet x.1 x.2).map BroadcastId.expire

theorem idUntil_of_bihead (h : w'.bihead = w.bihead) : w'.idUntil x = w.idUntil x := by
  rw [idUntil, idUntil, idGet, idGet, h]

theorem idUntil_idCount : (w.idCount k.1 k.2).idUntil x = w.idUntil x := by
  rw [idUntil, idGet_idCount]
  split
  · rw [Option.map_map]
    rfl
  · rfl

/-- An answer leaves the deadlines alone. -/
theorem Answered.idUntil (h : w.Answered k kill w') : w'.idUntil x = w.idUntil x := by
  cases h with
  | quiet h => exact idUntil_of_bihead h.bihead
  | relay _ hb => exact idUntil_of_bihead hb
  | reply _ _ hb => exact (idUntil_of_bihead hb).trans idUntil_idCount

end World

section Handlers

variable {env : Env} {w w' : World} {p : Packet} {x : Pair}

/-- A RREQ of another node that is not known is remembered for `BCAST_ID_SAVE`. -/
theorem recvRequest_idUntil {rq : HdrRequest} (h : recvRequest env p rq w = .ok w') :
    w'.idUntil x = if rq.rqSrc ≠ w.index ∧ x = (rq.rqSrc, rq.rqBcastId) ∧ w.idUntil x = none
      then some (env.now + bcastIdSave) else w.idUntil x := by
  by_cases hne : rq.rqSrc = w.index
  · unfold recvRequest at h
    rw [if_pos hne] at h
    obtain rfl := Except.ok.inj h
    rw [if_neg fun hx => hx.1 hne]
  · have hkeep : w'.idUntil x = (w.remember env rq).idUntil x := by
      obtain ⟨v, e, e', verdict, hv, -, -, ⟨-, rfl⟩ | ⟨b, u, -, hup, h⟩⟩ := recvRequest_stages h hne
      · exact World.idUntil_of_bihead (quiet_rtEnsure hv).bihead
      · exact (answerRequest_answered h).idUntil.trans (World.idUntil_of_bihead
          (((quiet_rtEnsure hv).trans (.store v e')).trans (quiet_routeUp hup)).bihead)
    rw [hkeep]
    unfold World.remember
    cases hg : w.idGet rq.rqSrc rq.rqBcastId with
    | none =>
      have hnone : w.idUntil (rq.rqSrc, rq.rqBcastId) = none := by rw [World.idUntil, hg]; rfl
      change (w.idInsert env rq.rqSrc rq.rqBcastId).idUntil x = _
      rw [World.idUntil, World.idGet_idInsert (k := (rq.rqSrc, rq.rqBcastId))]
      by_cases hx : x = (rq.rqSrc, rq.rqBcastId)
      · rw [if_pos hx, if_pos ⟨hne, hx, hx ▸ hnone⟩]
        rfl
      · rw [if_neg hx, if_neg fun h => hx h.2.1]
        rfl
    | some b =>
      have hsome : w.idUntil (rq.rqSrc, rq.rqBcastId) ≠ none := by
        rw [World.idUntil, hg]
        exact Option.some_ne_none _
      refine Eq.symm (if_neg ?_)
      rintro ⟨-, rfl, hnone⟩
      exact hsome hnone

theorem recvReply_idUntil {rp : HdrReply} (h : recvReply env p rp w = .ok w') :
    w'.idUntil x = w.idUntil x := by
  by_cases hne : rp.rpDst = w.index
  · unfold recvReply at h
    rw [if_pos hne] at h
    exact Except.ok.inj h ▸ rfl
  · obtain ⟨v, e, e', verdict, hv, -, -, ⟨-, rfl⟩ | ⟨b, u, -, hup, h⟩⟩ := recvReply_stages h hne
    · exact World.idUntil_of_bihead (quiet_rtEnsure hv).bihead
    · exact (forwardReply_answered h).idUntil.trans (World.idUntil_of_bihead
        (((quiet_rtEnsure hv).trans (.store v e')).trans (quiet_routeUp hup)).bihead)

end Handlers

namespace Agent

/-- The input is a RREQ with the pair. -/
def RequestOf (x : Pair) (inp : Input) : Prop :=
  ∃ q rq, inp = .recv q ∧ q.body = .rreq rq ∧ (rq.rqSrc, rq.rqBcastId) = x

/-- Until when the agent knows the pair. -/
def knownUntil (x : Pair) (a : Agent) : Option Time := a.world.idUntil x

variable {a : Agent} {env : Env} {inp : Input} {w' : World} {x : Pair}

theorem knownUntil_request {q : Packet} {rq : HdrRequest} (hb : q.body = .rreq rq)
    (h : handle env (.recv q) a.world = .ok w') : w'.toAgent.knownUntil x =
      if rq.rqSrc ≠ a.index ∧ x = (rq.rqSrc, rq.rqBcastId) ∧ a.knownUntil x = none
      then some (env.now + bcastIdSave) else a.knownUntil x := by
  have hE : q.isEamrp = true := by rw [Packet.isEamrp, hb]
  obtain ⟨p, -, h, hb'⟩ := handle_recv h hE
  unfold recvEamrp at h
  split at h
  · cases h
  · rw [hb', hb] at h
    exact recvRequest_idUntil h

theorem knownUntil_rest (h : handle env inp a.world = .ok w') (hinp : inp ≠ .broadcastTimer)
    (hreq : ¬ RequestOf x inp) : w'.toAgent.knownUntil x = a.knownUntil x := by
  by_cases hc : Caches inp.aged
  · rcases hc with htimer | ⟨q, hq, hbody⟩
    · exact absurd (by cases inp <;> simp_all [Input.aged]) hinp
    · obtain ⟨q', rfl⟩ : ∃ q', inp = .recv q' := by cases inp <;> simp_all [Input.aged]
      have hb : q'.body = q.body := by
        obtain rfl := Input.recv.inj hq
        rfl
      rcases hbody with ⟨rq, hrq⟩ | ⟨rp, hrp⟩
      · rw [knownUntil_request (hb.trans hrq) h, if_neg]
        exact fun hx => hreq ⟨q', rq, rfl, hb.trans hrq, hx.2.1.symm⟩
      · have hE : q'.isEamrp = true := by rw [Packet.isEamrp, hb, hrp]
        obtain ⟨p, -, h, hb'⟩ := handle_recv h hE
        unfold recvEamrp at h
        split at h
        · cases h
        · rw [hb', hb, hrp] at h
          have hsame : w'.idUntil x = a.world.idUntil x := recvReply_idUntil h
          exact hsame
  · have hruns := @handle_runs env inp a.world
    rw [h] at hruns
    exact World.idUntil_of_bihead (hruns.quiet hc).bihead

/-- No pair has two records in a reachable state. -/
theorem Reachable.oneRecord (h : a.Reachable) : a.world.OneRecord := by
  obtain ⟨w, ⟨t, ht⟩, rfl⟩ := h
  exact (Run.log ht).1

/-- The record of a pair is soft state. -/
theorem lapses_knownUntil (x : Pair) :
    Lapses .btimer (RequestOf x) bcastIdSave bcastIdSave (knownUntil x) where
  initial i a ha := by
    rw [ha]
    rfl
  timer k' h := by
    obtain ⟨q, rq, hinp, -⟩ := h
    cases k' <;> cases hinp
  sweep {a env w'} hr h := by
    obtain rfl := Except.ok.inj h
    have hget : (a.world.idPurge env).idGet x.1 x.2 =
        (a.world.idGet x.1 x.2).filter fun b => !decide (b.expire ≤ env.now) :=
      hr.oneRecord.idGet_idPurge
    change ((a.world.idPurge env).idGet x.1 x.2).map _ = ((a.world.idGet x.1 x.2).map _).filter _
    rw [hget, Option.filter_map]
    congr 2
    funext b
    simp [← not_le]
  heard {a env inp w'} hr h hheard := by
    obtain ⟨q, rq, rfl, hb, -⟩ := hheard
    rw [knownUntil_request hb h]
    split
    · exact .inr ⟨_, rfl, le_rfl, le_rfl⟩
    · exact .inl rfl
  rest _ h hinp hreq := knownUntil_rest h hinp hreq

end Agent

namespace Timed

variable {s : Timed} {t : List (Move Timed Event)}

/-- The broadcast-id cache over a whole run. A RREQ of another node that was not known stays known
for `BCAST_ID_SAVE`, so all copies that come in the meantime are told from new ones. While the
timers run, the cache knows no RREQ that has not been received in the last two `BCAST_ID_SAVE`. -/
theorem broadcast_cache (h : Run t s) :
    (∀ u m v env q rq, t = u ++ m :: v → m.label = .input env (.recv q) → q.body = .rreq rq →
      rq.rqSrc ≠ m.src.world.index → m.src.world.idGet rq.rqSrc rq.rqBcastId = none →
      s.clock < env.now + bcastIdSave → (s.world.idGet rq.rqSrc rq.rqBcastId).isSome) ∧
    (s.Started → ∀ b ∈ s.world.bihead, ∃ m ∈ t, ∃ env q rq,
      m.label = .input env (.recv q) ∧ q.body = .rreq rq ∧ rq.rqSrc = b.src ∧
      rq.rqBcastId = b.id ∧ s.clock < env.now + bcastIdSave + bcastIdSave) := by
  constructor
  · rintro u m v env q rq rfl hl hb hne hnone hclock
    obtain ⟨-, -, hs⟩ := Lib.Run.of_append h
    rw [hl] at hs
    obtain ⟨w', hw', hs⟩ := of_bind_ok hs
    have hw : m.tgt.world = w' := (congrArg world (Except.ok.inj hs)).symm
    have hnew := Agent.knownUntil_request (x := (rq.rqSrc, rq.rqBcastId)) hb hw'
    have hknown : m.src.world.toAgent.knownUntil (rq.rqSrc, rq.rqBcastId) = none := by
      change (m.src.world.idGet rq.rqSrc rq.rqBcastId).map _ = none
      rw [hnone]
      rfl
    rw [if_pos ⟨hne, rfl, hknown⟩, ← hw] at hnew
    have hle : env.now + bcastIdSave ≤ m.label.env.now + bcastIdSave := by
      rw [hl]
      exact le_rfl
    have hstill := h.kept (Agent.lapses_knownUntil (rq.rqSrc, rq.rqBcastId)) hnew le_rfl hle hclock
    exact (Option.isSome_map ..).symm.trans hstill
  · intro hs b hb
    have hsome : (s.world.toAgent.knownUntil b.pair).isSome := by
      change ((s.world.idGet b.src b.id).map _).isSome
      rw [Option.isSome_map, World.idGet, List.find?_isSome]
      exact ⟨b, hb, by simp⟩
    obtain ⟨m, hm, ⟨env, inp, hl, q, rq, rfl, hbody, hx⟩, hclock⟩ :=
      h.recent (Agent.lapses_knownUntil b.pair) hs (by norm_num [bcastIdSave])
        (fun _ _ _ => (le_rfl : _ ≤ bcastIdSave)) hsome
    rw [hl] at hclock
    obtain ⟨hsrc, hid⟩ := Prod.mk.inj hx
    exact ⟨m, hm, env, q, rq, hl, hbody, hsrc, hid, hclock⟩

/-- A RREQ of node 1 for node 3. -/
def requestFor3 : Packet where
  ih := { saddr := 1, daddr := ipBroadcast, sport := rtPort, dport := rtPort, ttl := 9 }
  body := .rreq { rqHopCount := 0, rqBcastId := 1, rqDst := 3, rqDstSeqno := 0, rqSrc := 1,
                  rqSrcSeqno := 4, rqTimestamp := 0 }

/-- Node 2 is started and receives that RREQ, and the timer of the route cache fires. -/
def hearsRequest : List Event :=
  [.start { now := 0, inf := .mathH }, .input { now := 0, inf := .mathH } (.recv requestFor3),
    .fire .rtimer { now := 1 / 2, inf := .mathH }]

theorem run_hearsRequest : Run ((idle 2).moves hearsRequest) ((idle 2).final hearsRequest) :=
  run_idle (by decide +kernel)

/-- Half a second later the node still knows it. -/
theorem broadcast_cache_hearsRequest :
    (((idle 2).final hearsRequest).world.idGet 1 1).isSome :=
  (broadcast_cache run_hearsRequest).1 [_] _ [_] _ requestFor3 _ rfl rfl rfl (by decide)
    (by decide +kernel) (by decide +kernel)

end Timed

end Eamrp
