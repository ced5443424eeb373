import Eamrp.Agent.Custody
import Eamrp.Agent.Search
import Eamrp.Agent.Timed
import Eamrp.Lib.Patience

/-!
# Draining the send buffer

While the timers run, packets do not wait for long: the route cache timer calls `sendRequest` for
every destination with a packet in the buffer, and after a few requests `sendRequest` drops the
packets. So no packet is there when its time is over, and none disappears.
-/

namespace Eamrp

open Lib

/-! ### The requests that are left -/

namespace Asking

variable {s s' : Asking} {now : Time} {called : Prop} {l : List Int}

/-- The number of requests before the first network-wide one. -/
def rings (s : Asking) : ℕ := if s.reach = 0 then 2 else ((8 - s.reach) / 2).toNat

/-- The number of requests that can be sent before packets are dropped. -/
def left (s : Asking) : ℕ := s.rings + (rreqRetries.toNat + 1 - s.cnt.toNat)

theorem left_le (h : s.Sound) : s.left ≤ 7 := by
  have hretries : rreqRetries.toNat = 3 := rfl
  have hreach : 0 ≤ s.reach := h.lastHops.trans s.le_reach.2
  have hrings : s.rings ≤ 3 := by
    unfold rings
    split <;> omega
  unfold left
  omega

/-- A request goes as far as its TTL. -/
theorem ttl_le_reach (now : Time) (s : Asking) : s.ttl ≤ (s.sent now).reach :=
  (s.sent now).le_reach.1

/-- The first network-wide request comes closer, or one of them is sent. -/
theorem rings_sent (now : Time) (h : s.Sound) :
    if s.Wide then (s.sent now).rings = 0 else (s.sent now).rings < s.rings := by
  have hreach : 0 ≤ s.reach := h.lastHops.trans s.le_reach.2
  have hfar := s.ttl_le_reach now
  have hrings : (s.sent now).reach ≠ 0 →
      (s.sent now).rings = ((8 - (s.sent now).reach) / 2).toNat := fun hne => if_neg hne
  split
  · next hwide =>
    rw [ttl_of_wide hwide, networkDiameter] at hfar
    rw [hrings (by omega)]
    omega
  · next hwide =>
    rw [ttl, if_neg hwide] at hfar
    unfold rings
    by_cases h0 : s.reach = 0
    · rw [if_pos h0, ttlStart] at hfar
      rw [if_pos h0, if_neg (by omega)]
      omega
    · have hlt : s.reach < 7 := not_le.mp fun hc => hwide ⟨h0, hc⟩
      rw [if_neg h0, ttlIncrement] at hfar
      rw [if_neg h0, if_neg (by omega)]
      omega

/-- Every request counts. -/
theorem left_sent (h : s.Sound) (hcnt : ¬ rreqRetries < s.cnt) : (s.sent now).left < s.left := by
  have hretries : rreqRetries.toNat = 3 := rfl
  have hle := toNat_le_of_not_lt hcnt
  have hrings := rings_sent now h
  have hnext := toNat_nextCnt hcnt
  have hsent : (s.sent now).cnt = s.nextCnt := rfl
  unfold left
  rw [hsent, hnext]
  by_cases hwide : s.Wide
  · rw [if_pos hwide] at hrings ⊢
    omega
  · rw [if_neg hwide] at hrings ⊢
    omega

/-- No pause is long. -/
theorem Turn.timeout_le_pause (h : Turn now called s s' l) (hnow : 0 ≤ now) :
    s'.timeout ≤ max s.timeout (now + maxRreqTimeout) := by
  cases h with
  | rest h => exact h.timeout.le.trans (le_max_left _ _)
  | found h =>
    rw [h.timeout]
    exact (add_nonneg hnow (by norm_num [maxRreqTimeout])).trans (le_max_right _ _)
  | send => exact (add_le_add_right (min_le_left _ _) now).trans (le_max_right _ _)
  | hold => exact le_max_right _ _

/-- No pause reaches far beyond the last event. -/
theorem timeout_le_pause_of_chain {t : List (Move Asking Event)} {T : Time}
    (h : Chain Step s t s') (ht : ∀ m ∈ t, 0 ≤ m.label.now ∧ m.label.now ≤ T)
    (hs : s.timeout ≤ T + maxRreqTimeout) : s'.timeout ≤ T + maxRreqTimeout := by
  induction h with
  | nil => exact hs
  | cons hstep _ ih =>
    obtain ⟨⟨hnow, hle⟩, ht⟩ := List.forall_mem_cons.mp ht
    exact ih ht ((Turn.timeout_le_pause hstep hnow).trans (max_le hs (by linarith)))

/-- What patience is about. -/
def patience (tick : Time) (s : Asking) : Patience.State Time where
  tick := tick
  ready := s.timeout
  left := s.left

/-- As long as packets for the destination stay in the buffer, a turn is a step of an agent that
loses its patience. -/
theorem Turn.patience {p tick tick' : Time} (h : Turn now called s s' l) (hs : s.Sound)
    (hdown : s'.up = false) (hheld : called → s.timeout ≤ now → ¬ rreqRetries < s.cnt)
    (htick : tick' = tick ∧ tick ≤ now ∨ tick' = now ∧ called) (hnow : now ≤ tick + p) :
    Patience.Step p maxRreqTimeout (s.patience tick) now (s'.patience tick') := by
  cases h with
  | rest h hq =>
    have hlast : s'.lastHops = s.lastHops :=
      h.lastHops.resolve_right fun hup => by cases hdown.symm.trans hup.1
    have hleft : s'.left = s.left := by
      unfold left rings reach
      rw [h.cnt, h.lastTtl, hlast]
    unfold Asking.patience
    rw [h.timeout, hleft]
    rcases htick with ⟨rfl, -⟩ | ⟨rfl, hc⟩
    · exact .rest
    · exact .early (hq hc).2
  | found h => cases hdown.symm.trans h.up
  | send hc _ ht hcnt =>
    refine .attempt hnow ?_ (add_le_add_right (min_le_left _ _) now) (left_sent hs hcnt)
    rcases htick with ⟨rfl, hle⟩ | ⟨rfl, -⟩
    · exact hle
    · exact le_rfl
  | hold hc _ ht hcnt => exact absurd hcnt (hheld hc ht)

end Asking

/-! ### Calls of `sendRequest` -/

section Calls

variable {env : Env} {w w' v : World} {s s' : World × Time} {inp : Input} {d : NsAddr}

theorem rqueue_dropBuffered {reason : DropReason} (h : dropBuffered env d reason w = .ok w') :
    w'.rqueue = w.rqueue.drained env.now d := by
  unfold dropBuffered at h
  obtain ⟨⟨v, u⟩, hv, h⟩ := of_bind_ok h
  obtain rfl := Except.ok.inj h
  refine rqueue_whileDeque (s := (w, ())) (fun q s s' hb => ?_) (Nat.lt_succ_self _) hv
  obtain rfl := Except.ok.inj hb
  rfl

theorem Asked.rqueue (h : Asked env d w w') : w'.rqueue.Sublist w.rqueue := by
  cases h with
  | up => exact .refl _
  | early => exact .refl _
  | hold _ _ _ _ h => exact (deeds_dropBuffered h).rqueue
  | send => exact .refl _

/-- When `sendRequest` gives up, it drops every packet for the destination. -/
theorem Asked.held (h : Asked env d w w') (hdown : (w.asking d).up = false)
    (ht : (w.asking d).timeout ≤ env.now) (hcnt : rreqRetries < (w.asking d).cnt) :
    ∀ p ∈ w'.rqueue, p.val.ih.daddr ≠ d := by
  cases h with
  | up he hup =>
    rw [World.asking_of_some he, RtEntry.asking, decide_eq_false_iff_not] at hdown
    exact absurd hup hdown
  | early he _ hlt =>
    rw [World.asking_of_some he] at ht
    exact absurd hlt (not_lt.mpr ht)
  | hold _ _ _ _ h =>
    rw [rqueue_dropBuffered h]
    intro p hp hd
    simpa [hd] using (List.mem_filter.mp hp).2
  | send he _ _ hle =>
    rw [World.asking_of_some he] at hcnt
    exact absurd hcnt hle

theorem PurgedEntry.rqueue (h : PurgedEntry env d s s') : s'.1.rqueue.Sublist s.1.rqueue := by
  cases h with
  | expire _ _ hv _ h =>
    rw [h]
    exact hv.rqueue
  | forward _ _ h => exact h.rqueue
  | ask _ _ _ h => exact h.rqueue
  | pass _ h => exact h ▸ .refl _

/-- No turn of `rt_purge` puts packets into the buffer. -/
theorem rqueue_turns {l : List NsAddr} (h : l.foldlM (rtPurgeEntry env) s = .ok s') :
    s'.1.rqueue.Sublist s.1.rqueue :=
  foldlM_ok (J := fun x => x.1.rqueue.Sublist s.1.rqueue)
    (fun _ _ _ _ hx hs => (rtPurgeEntry_ok hs).rqueue.trans hx) (.refl _) h

/-- An event that calls `sendRequest` puts no packets into the buffer afterwards. -/
theorem Calls.asked (hc : Calls env w inp d v) (h : handle env inp w = .ok w') :
    ∃ x, Asked env d v x ∧ w'.rqueue.Sublist x.rqueue := by
  cases hc with
  | @resolve q u e hq hd hs hu he hdown =>
    subst hd
    rw [handle_of_resolves hq] at h
    obtain ⟨u', hu', hres⟩ := rtResolve_resolved h
    obtain rfl := Except.ok.inj (hu.symm.trans hu')
    have hs : q.val.ih.saddr = u.index := hs.trans (index_rtEnsure hu).symm
    cases hres with
    | forward hn => exact absurd hs (hn e he hdown)
    | ask _ _ _ h => exact ⟨w', h, .refl _⟩
    | wait hn => exact absurd hs hn
  | purge hin hs he hdown hf =>
    subst hin
    obtain ⟨l, hl⟩ := hs.split
    change rtPurge env w = .ok w' at h
    unfold rtPurge at h
    rw [hl] at h
    obtain ⟨y, hy, h⟩ := of_bind_ok h
    obtain rfl := Except.ok.inj h
    obtain ⟨x, hx, hy⟩ := of_bind_ok hy
    refine ⟨x.1, ?_, rqueue_turns hy⟩
    cases rtPurgeEntry_ok hx with
    | expire he' hup =>
      obtain rfl := Option.some.inj (he.symm.trans he')
      exact absurd hup hdown
    | forward he' hup =>
      obtain rfl := Option.some.inj (he.symm.trans he')
      exact absurd hup hdown
    | ask _ _ _ h => exact h
    | pass hn => cases hf.symm.trans (hn _ he hdown)

/-- After an event in which `sendRequest` gives up, no packet for the destination is left. -/
theorem Calls.held (hc : Calls env w inp d v) (h : handle env inp w = .ok w')
    (hnd : (w.rtable.map RtEntry.rtDst).Nodup) (hdown : (w.asking d).up = false)
    (ht : (w.asking d).timeout ≤ env.now) (hcnt : rreqRetries < (w.asking d).cnt) :
    ∀ p ∈ w'.rqueue, p.val.ih.daddr ≠ d := by
  obtain ⟨x, hx, hsub⟩ := hc.asked h
  rw [← Agent.asking_of_calls hc hnd] at hdown ht hcnt
  exact fun p hp => hx.held hdown ht hcnt p (hsub.subset hp)

/-- The route cache timer calls `sendRequest` for the destination of every packet that stays. -/
theorem calls_of_mem (hw : w.Waits) (h : rtPurge env w = .ok w') {p : AppPacket}
    (hp : p ∈ w'.rqueue) : ∃ v, Calls env w .routeCacheTimer p.val.ih.daddr v := by
  unfold rtPurge at h
  obtain ⟨y, hy, h⟩ := of_bind_ok h
  obtain rfl := Except.ok.inj h
  obtain ⟨e, he, -⟩ := (hw p ((rqueue_turns hy).subset hp)).entry
  have hmem : p.val.ih.daddr ∈ w.rtable.map RtEntry.rtDst :=
    List.mem_map.mpr ⟨e, List.mem_of_find?_eq_some he, w.rtDst_of_rtLookup he⟩
  obtain ⟨l, l', hl⟩ := List.append_of_mem hmem
  rw [hl, List.foldlM_append] at hy
  obtain ⟨s, hs, hy⟩ := of_bind_ok hy
  have hps : p ∈ s.1.rqueue := (rqueue_turns hy).subset hp
  have hwaits : s.1.Waits := foldlM_ok (J := fun x : World × Time => x.1.Waits)
    (fun x _ _ _ hx hstep => (lull_rtPurgeEntry hx hstep).1.waits hx) hw hs
  obtain ⟨e', he', hdown⟩ := (hwaits p hps).entry
  exact ⟨s.1, .purge rfl ⟨l, l', hl, hs⟩ he' hdown
    (List.any_eq_true.mpr ⟨p, hps, by simp⟩)⟩

end Calls

/-! ### Bounded waiting -/

/-- When the packet entered the send buffer. -/
def AppPacket.entered (p : AppPacket) : Time := p.val.ch.ts - RQueue.timeout

/-- The longest time that a packet waits: seven requests, the pauses after them and the ticks of
the timer before them. -/
def patienceTime : Time := 8 * (maxRreqTimeout + frequency)

theorem patienceTime_eq : patienceTime = 12 := by
  norm_num [patienceTime, maxRreqTimeout, frequency]

/-- The patience with `d` runs out by `T`. -/
def Agent.RunsOut (T tick : Time) (a : Agent) (d : NsAddr) : Prop :=
  ((a.world.asking d).patience tick).limit frequency maxRreqTimeout ≤ T

section Waiting

variable {a : Agent} {env : Env} {inp : Input} {w' : World} {p : AppPacket} {d : NsAddr}
  {T tick tick' : Time}

/-- The patience with a destination runs out in bounded time. -/
theorem Agent.runsOut (hs : (a.world.asking d).Sound)
    (hpause : (a.world.asking d).timeout ≤ T + maxRreqTimeout) (htick : tick ≤ T) :
    a.RunsOut (T + patienceTime) tick d := by
  have hg : (0 : Time) ≤ maxRreqTimeout := by norm_num [maxRreqTimeout]
  have hp : (0 : Time) ≤ frequency := by norm_num [frequency]
  have hleft : ((a.world.asking d).left : Time) * (maxRreqTimeout + frequency) ≤
      7 * (maxRreqTimeout + frequency) := by
    refine mul_le_mul_of_nonneg_right ?_ (add_nonneg hg hp)
    exact_mod_cast Asking.left_le hs
  have hmax : max tick (a.world.asking d).timeout ≤ T + maxRreqTimeout :=
    max_le (by linarith) hpause
  unfold RunsOut Patience.State.limit patienceTime Asking.patience
  dsimp only
  linarith

/-- As long as packets for a destination stay in the buffer, the patience with it runs out. -/
theorem Agent.RunsOut.handle (h : a.RunsOut T tick p.val.ih.daddr) (hr : a.Reachable)
    (hs : (a.world.asking p.val.ih.daddr).Sound) (hh : Eamrp.handle env inp a.world = .ok w')
    (hp : p ∈ w'.rqueue) (hw' : w'.Waits) (hnow : env.now ≤ tick + frequency)
    (htick : tick' = tick ∧ tick ≤ env.now ∨ tick' = env.now ∧ inp = .routeCacheTimer) :
    w'.RunsOut T tick' p.val.ih.daddr := by
  have hnd : (a.world.rtable.map RtEntry.rtDst).Nodup := hr.pathLists.dst
  obtain ⟨l, hturn, -⟩ := turn_of_handle hnd hh p.val.ih.daddr
  have hdown : (w'.asking p.val.ih.daddr).up = false := by
    obtain ⟨e, he, hne⟩ := (hw' p hp).entry
    have he : w'.rtLookup p.val.ih.daddr = some e := he
    rw [World.asking_of_some he]
    exact decide_eq_false hne
  have hheld : (∃ v, Calls env a.world inp p.val.ih.daddr v) →
      (a.world.asking p.val.ih.daddr).timeout ≤ env.now →
      ¬ rreqRetries < (a.world.asking p.val.ih.daddr).cnt := by
    rintro ⟨v, hv⟩ ht hcnt
    have hup : (a.world.asking p.val.ih.daddr).up = false := by
      rw [← Agent.asking_of_calls hv hnd]
      cases hv with
      | @resolve q u e _ _ _ _ he hne =>
        have he : (u.enque env q).rtLookup p.val.ih.daddr = some e := he
        rw [World.asking_of_some he]
        exact decide_eq_false hne
      | purge _ _ he hne =>
        rw [World.asking_of_some he]
        exact decide_eq_false hne
    exact hv.held hh hnd hup ht hcnt p hp rfl
  have hticks : tick' = tick ∧ tick ≤ env.now ∨
      tick' = env.now ∧ ∃ v, Calls env a.world inp p.val.ih.daddr v := by
    rcases htick with h | ⟨h, rfl⟩
    · exact .inl h
    · exact .inr ⟨h, calls_of_mem hr.waits hh hp⟩
  have hlimit := (hturn.patience hs hdown hheld hticks hnow).limit_le
    (by norm_num [frequency]) (by norm_num [maxRreqTimeout])
  exact hlimit.trans h

end Waiting

/-- The send buffer of a reachable agent holds no packet for everybody. -/
theorem Agent.Reachable.unicasts {a : Agent} (h : a.Reachable) : a.Unicasts := by
  obtain ⟨w, ⟨t, ht⟩, rfl⟩ := h
  obtain ⟨-, -, -, -, -, -, -, -, -, huni, -⟩ := Agent.Run.relays ht
  exact huni

/-- What enters the buffer in an event enters it now. -/
theorem Agent.Reachable.entered {a : Agent} {env : Env} {inp : Input} {w' : World} {p : AppPacket}
    (h : a.Reachable) (hh : Eamrp.handle env inp a.world = .ok w') (hp : p ∈ w'.rqueue) :
    p ∈ a.rqueue ∨ p.entered = env.now := by
  obtain ⟨acts, l, gone, hr, -⟩ :=
    handle_carries hh h.waits h.unicasts h.ranged.2 h.pathLists
  rcases hr.stay p hp with hold | ⟨hts, -⟩
  · exact .inl hold
  · refine .inr ?_
    rw [AppPacket.entered, hts]
    ring

namespace Timed

variable {s s' : Timed} {env : Env} {ev : Event} {t : List (Move Timed Event)}
  {m : Move Timed Event}

theorem Event.env_of_turns {τ : Turn} (h : τ ∈ ev.turns) : τ.env = ev.env := by
  cases ev with
  | start env =>
    simp only [turns, List.mem_cons, List.not_mem_nil, or_false] at h
    rcases h with rfl | rfl | rfl | rfl <;> rfl
  | fire k env =>
    rw [List.mem_singleton.mp h]
    rfl
  | input env inp =>
    rw [List.mem_singleton.mp h]
    rfl

/-- The times of the agent's events are those of the events of the agent and its timers. -/
theorem exists_of_label {c : List (Move World Turn)} {m : Move World Turn}
    (hlabel : c.map Move.label = t.flatMap fun m => m.label.turns) (hm : m ∈ c) :
    ∃ m' ∈ t, m.label.env = m'.label.env := by
  have hmem : m.label ∈ t.flatMap fun m => m.label.turns := hlabel ▸ List.mem_map_of_mem hm
  obtain ⟨m', hm', hτ⟩ := List.mem_flatMap.mp hmem
  exact ⟨m', hm', Event.env_of_turns hτ⟩

/-- While the timers run, an event of the agent and its timers is one of the agent. -/
theorem handle_of_next (hs : s.Started) (h : s.Step ev s') : ∃ inp w',
    Eamrp.handle ev.env inp s.world.toAgent.world = .ok w' ∧ w'.toAgent = s'.world.toAgent ∧
      s'.world.out = w'.out ∧ ev.turns = [⟨ev.env, inp⟩] ∧
      (ev.Fires .rtimer → inp = .routeCacheTimer) := by
  obtain ⟨hen, hnext⟩ := h
  cases ev with
  | start env =>
    have hrun := hs .rtimer
    rw [hen.start env rfl .rtimer] at hrun
    cases hrun
  | fire k env =>
    obtain ⟨w', hs', hw', hout, -⟩ := handle_ok hnext rfl
    refine ⟨k.input, w', hs', hw', hout, rfl, ?_⟩
    rintro rfl
    rfl
  | input env inp =>
    obtain ⟨w', hw', hnext⟩ := of_bind_ok hnext
    obtain rfl := Except.ok.inj hnext
    exact ⟨inp, w', hw', rfl, rfl, rfl, fun hk => hk.elim⟩

/-- No pause reaches far beyond the clock. -/
theorem Run.pauses (h : Run t s) (d : NsAddr) : (s.world.asking d).Sound ∧
    (s.world.asking d).timeout ≤ s.clock + maxRreqTimeout := by
  obtain ⟨c, w, hc, hw, hlabel⟩ := h.agent
  have hsame : s.world.asking d = w.asking d := by
    change s.world.toAgent.world.asking d = w.toAgent.world.asking d
    rw [hw]
  have hchain := hc.asking d
  rw [hsame]
  refine ⟨Asking.sound_start.of_chain hchain,
    Asking.timeout_le_pause_of_chain hchain (List.forall_mem_map.mpr fun m hm => ?_) ?_⟩
  · obtain ⟨m', hm', henv⟩ := exists_of_label hlabel hm
    have htimes := h.schedule.times m' hm'
    rw [← henv] at htimes
    exact htimes
  · exact add_nonneg h.schedule.clock (by norm_num [maxRreqTimeout])

/-- Whatever waits, the patience with its destination runs out, counted from when it came or from
`T`. -/
def Patient (T : Time) (s : Timed) : Prop :=
  ∀ p ∈ s.world.rqueue, ∀ u, s.due .rtimer = some u →
    s.world.toAgent.RunsOut (max p.entered T + patienceTime) (u - frequency) p.val.ih.daddr

/-- The route cache timer was last set no later than now. -/
theorem Run.tick_le (h : Run t s) {u : Time} (hu : s.due .rtimer = some u) :
    u - frequency ≤ s.clock := by
  obtain ⟨-, m, hm, -, rfl⟩ := h.schedule.due .rtimer u hu
  rw [Timer.interval]
  linarith [(h.schedule.times m hm).2]

/-- A packet that has just come in, or one that waits when the timers are started. -/
theorem Run.runsOut (h : Run t s) {T u : Time} (hu : s.due .rtimer = some u) (hT : s.clock ≤ T)
    (d : NsAddr) : s.world.toAgent.RunsOut (T + patienceTime) (u - frequency) d := by
  obtain ⟨hsound, hpause⟩ := h.pauses d
  have hpause : (s.world.asking d).timeout ≤ T + maxRreqTimeout := by linarith
  exact Agent.runsOut hsound hpause ((h.tick_le hu).trans hT)

/-- The bound is kept. -/
theorem Run.patient_step {T : Time} (h : Run t s) (hst : s.Started) (hs : s.Step ev s')
    (hp : s.Patient T) : s'.Patient T := by
  obtain ⟨inp, w', hh, hw', -, -, hinp⟩ := handle_of_next hst hs
  obtain ⟨hen, hnext⟩ := id hs
  obtain ⟨hclock, hkeep, hset⟩ := next_schedule hnext
  have hrun : Run (t ++ [⟨s, ev, s'⟩]) s' := h.move hs
  have hr : s.world.toAgent.Reachable := Run.reachable h
  have hr' : s'.world.toAgent.Reachable := Run.reachable hrun
  intro p hp' u hu
  have hp'' : p ∈ w'.rqueue := by rwa [hw']
  rcases hr.entered hh hp'' with hold | hnew
  · obtain ⟨v, hv⟩ := Option.isSome_iff_exists.mp (hst .rtimer)
    have hwaits : w'.Waits := by
      rw [hw']
      exact hr'.waits
    have hnow : ev.env.now ≤ v - frequency + frequency := by linarith [hen.due .rtimer v hv]
    rw [← hw']
    refine (hp p hold v hv).handle hr (h.pauses _).1 hh hp'' hwaits hnow ?_
    by_cases hf : ev.Fires .rtimer
    · obtain rfl := Option.some.inj ((hset .rtimer hf).symm.trans hu)
      refine .inr ⟨?_, hinp hf⟩
      rw [Timer.interval]
      ring
    · obtain rfl := Option.some.inj (hv.symm.trans ((hkeep .rtimer hf).symm.trans hu))
      exact .inl ⟨rfl, (h.tick_le hv).trans hen.clock⟩
  · refine hrun.runsOut hu ?_ _
    rw [hclock, hnew]
    exact le_max_left _ _

/-- Once the timers have been started, they run and the patience with every destination runs
out. -/
theorem Run.patient (h : Run t s) (hm : m ∈ t) (hl : m.label = .start env) :
    s.Started ∧ s.Patient env.now := by
  induction h with
  | start => exact absurd hm List.not_mem_nil
  | @move t s s' ev hrun hs ih =>
    rcases List.mem_append.mp hm with hm | hm
    · obtain ⟨hst, hp⟩ := ih hm
      exact ⟨hst.step hs, Run.patient_step hrun hst hs hp⟩
    · obtain rfl := List.mem_singleton.mp hm
      obtain rfl : ev = .start env := hl
      obtain ⟨hclock, -, hset⟩ := next_schedule hs.2
      refine ⟨fun k => by rw [hset k trivial]; rfl, fun p _ u hu => ?_⟩
      have hrun' : Run (t ++ [⟨s, .start env, s'⟩]) s' := Lib.Run.move hrun hs
      refine hrun'.runsOut hu ?_ _
      rw [hclock]
      exact le_max_right _ _

/-- Until its patience runs out, the timer of the agent does not fire. -/
theorem Patient.due_le {T u : Time} {p : AppPacket} (h : s.Patient T) (hp : p ∈ s.world.rqueue)
    (hu : s.due .rtimer = some u) : u ≤ max p.entered T + patienceTime := by
  have hle := Patience.State.tick_le_limit (p := frequency) (g := maxRreqTimeout)
    (by norm_num [frequency]) (by norm_num [maxRreqTimeout])
    ((s.world.toAgent.world.asking p.val.ih.daddr).patience (u - frequency))
  have hout := h p hp u hu
  unfold Agent.RunsOut at hout
  have htick : u - frequency + frequency ≤ _ := hle
  linarith

/-- The next event comes before the patience with a packet runs out that came in after `T`. -/
theorem Patient.now_le {T : Time} {p : AppPacket} (h : s.Patient T) (hst : s.Started)
    (hs : s.Step ev s') (hp : p ∈ s.world.rqueue) (hT : T ≤ p.entered) :
    ev.env.now ≤ p.entered + 12 := by
  obtain ⟨u, hu⟩ := Option.isSome_iff_exists.mp (hst .rtimer)
  have hdue := h.due_le hp hu
  rw [patienceTime_eq, max_eq_left hT] at hdue
  exact (hs.1.due .rtimer u hu).trans hdue

/-- A packet stays in the send buffer for at most twelve seconds, counted from when it entered it
or from the start of the timers. -/
theorem buffer_drains (h : Run t s) (hm : m ∈ t) (hl : m.label = .start env) :
    ∀ p ∈ s.world.rqueue, s.clock ≤ max p.entered env.now + 12 := by
  intro p hp
  obtain ⟨hst, hpat⟩ := h.patient hm hl
  obtain ⟨u, hu⟩ := Option.isSome_iff_exists.mp (hst .rtimer)
  have hdue := hpat.due_le hp hu
  rw [patienceTime_eq] at hdue
  exact (h.schedule.due .rtimer u hu).1.trans hdue

/-- Node 1 is started and handed a packet for node 3, which does not exist. -/
def asksInVain : List Event :=
  .start { now := 0, inf := .mathH } ::
    .input { now := 0, inf := .mathH }
      (.recv { ih := { saddr := 1, daddr := 3 }, body := .app true }) ::
    [(.rtimer, 1 / 2), (.htimer, 3 / 4), (.ntimer, 1), (.rtimer, 1), (.rtimer, 3 / 2),
      (.htimer, 3 / 2), (.ntimer, 2), (.rtimer, 2), (.htimer, 9 / 4), (.rtimer, 5 / 2),
      (.ntimer, 3), (.htimer, 3), (.rtimer, 3), (.rtimer, 7 / 2), (.htimer, 15 / 4),
      (.ntimer, 4)].map fun (k, now) => .fire k { now := now, inf := .mathH }

theorem run_asksInVain : Run ((idle 1).moves asksInVain) ((idle 1).final asksInVain) :=
  run_idle (by decide +kernel)

/-- Four seconds later the packet is still there. -/
theorem buffer_drains_asksInVain : ∃ p ∈ ((idle 1).final asksInVain).world.rqueue,
    ((idle 1).final asksInVain).clock ≤ max p.entered 0 + 12 := by
  have hwaits : ((idle 1).final asksInVain).world.rqueue ≠ [] := by decide +kernel
  obtain ⟨p, hp⟩ := List.exists_mem_of_ne_nil _ hwaits
  exact ⟨p, hp, buffer_drains run_asksInVain List.mem_cons_self rfl p hp⟩

/-! ### Nothing is lost -/

/-- No event finds a packet in the send buffer whose time is over. -/
def InTime (c : List (Move World Turn)) : Prop :=
  ∀ m ∈ c, ∀ p ∈ m.src.rqueue, ¬ p.val.ch.ts < m.label.env.now

/-- No packet that waits came in before the first event. -/
theorem Run.entered_of_first {m₀ : Move Timed Event} (h : Run (m₀ :: t) s) :
    ∀ p ∈ s.world.rqueue, m₀.label.env.now ≤ p.entered := by
  obtain ⟨c, w, hc, hw, hlabel⟩ := h.agent
  obtain ⟨-, -, -, -, -, -, -, -, hstamped, -⟩ := Agent.Run.relays hc
  rw [← hw]
  intro p hp
  obtain ⟨m, hm, -, hts⟩ := hstamped p hp
  obtain ⟨m', hm', henv⟩ := exists_of_label hlabel hm
  have hentered : p.entered = m'.label.env.now := by
    rw [AppPacket.entered, hts, henv]
    ring
  rw [hentered]
  rcases List.mem_cons.mp hm' with rfl | hm'
  · exact le_rfl
  · exact (List.pairwise_cons.mp h.schedule.ordered).1 m' hm'

/-- Packets that have come in at one moment have not timed out in the same one. -/
theorem inTime_of_now {c : List (Move World Turn)} {w : World} {now : Time} (h : Agent.Run c w)
    (hc : ∀ m ∈ c, m.label.env.now = now) : InTime c := by
  intro m hm p hp
  obtain ⟨u, v, rfl⟩ := List.append_of_mem hm
  obtain ⟨-, -, -, -, -, -, -, -, hstamped, -⟩ := Agent.Run.relays (Lib.Run.of_append h).1
  obtain ⟨m', hm', -, hts⟩ := hstamped p hp
  rw [hts, hc m hm, hc m' (List.mem_append_left _ hm')]
  have htimeout : (0 : Time) ≤ RQueue.timeout := by decide +kernel
  linarith

/-- When the timers are started first, the agent finds no packet that has timed out. -/
theorem Run.inTime (h : Run t s) (hstart : ∀ m ∈ t.head?, ∃ env, m.label = .start env) :
    ∃ c w, Agent.Run c w ∧ w.toAgent = s.world.toAgent ∧
      (c.map Move.label = t.flatMap fun m => m.label.turns) ∧ InTime c := by
  induction h with
  | start h =>
    exact ⟨[], _, .start ⟨h.agent, h.out⟩, rfl, rfl, fun m hm => absurd hm List.not_mem_nil⟩
  | @move t s s' ev hrun hs ih =>
    cases t with
    | nil =>
      obtain ⟨c, w, hc, hw, hlabel⟩ := Run.agent (hrun.move hs)
      have hnow : ∀ m ∈ c, m.label.env.now = ev.env.now := fun m hm => by
        obtain ⟨m', hm', henv⟩ := exists_of_label hlabel hm
        rw [henv, List.mem_singleton.mp hm']
      exact ⟨c, w, hc, hw, hlabel, inTime_of_now hc hnow⟩
    | cons m₀ t =>
      obtain ⟨env, hl⟩ := hstart m₀ rfl
      obtain ⟨c, w, hc, hw, hlabel, hin⟩ := ih fun m hm => hstart m hm
      obtain ⟨hst, hpat⟩ := Run.patient hrun List.mem_cons_self hl
      obtain ⟨inp, w', hh, hw', -, hturns, -⟩ := handle_of_next hst hs
      have hs' : Agent.Handles w ⟨ev.env, inp⟩ w' := by rwa [Agent.Handles, hw]
      have hc' : Agent.Run (c ++ [⟨w, ⟨ev.env, inp⟩, w'⟩]) w' := Lib.Run.move hc hs'
      refine ⟨_, w', hc', hw', ?_, ?_⟩
      · rw [List.map_append, hlabel, List.flatMap_append, List.flatMap_singleton, hturns]
        rfl
      · intro m hm p hp
        rcases List.mem_append.mp hm with hm | hm
        · exact hin m hm p hp
        obtain rfl := List.mem_singleton.mp hm
        have hps : p ∈ s.world.rqueue := by rwa [← hw]
        -- it came in after the start, so it is not old enough
        have hfirst : m₀.label.env = env := by rw [hl]; rfl
        have hafter := Run.entered_of_first hrun p hps
        rw [hfirst] at hafter
        have hnow := hpat.now_le hst hs hps hafter
        have hentered : p.entered = p.val.ch.ts - RQueue.timeout := rfl
        have hlong : (12 : Time) ≤ RQueue.timeout := by decide +kernel
        exact not_lt.mpr (by linarith)

/-- When the timers are started first, no event finds a packet in the send buffer whose time is
over, and so none of another protocol disappears there: all that comes into the agent's hands is
passed on, given to `drop` or still in the buffer. -/
theorem nothing_lost {s₀ s₁ : Timed} (h : Run (⟨s₀, .start env, s₁⟩ :: t) s) :
    ∃ c w, Agent.Run c w ∧ w.toAgent = s.world.toAgent ∧
      (c.map Move.label = (Event.start env).turns ++ t.flatMap fun m => m.label.turns) ∧
      InTime c ∧ (Agent.takenIn c).Perm (Agent.passedIn c ++ Agent.droppedIn c ++ w.rqueue.loads) := by
  obtain ⟨c, w, hc, hw, hlabel, hin⟩ := h.inTime fun m hm => ⟨env, by cases hm; rfl⟩
  refine ⟨c, w, hc, hw, hlabel, hin, ?_⟩
  obtain ⟨acts, gone, hsteps, htaken, hpassed, hdropped, hlost, hgone, -⟩ := Agent.Run.relays hc
  have hnone : gone = [] := List.eq_nil_iff_forall_not_mem.mpr fun p hp => by
    obtain ⟨-, m, hm, hmem, hts⟩ := hgone p hp
    exact hin m hm p hmem hts
  have hbalance := hsteps.balance
  rw [List.nil_append, htaken, hpassed, hdropped, hlost, hnone, List.map_nil,
    List.append_nil] at hbalance
  exact hbalance

/-- The next tick drops the packet. -/
def givesUp : List Event := asksInVain ++ [.fire .rtimer { now := 4, inf := .mathH }]

theorem run_givesUp : Run ((idle 1).moves givesUp) ((idle 1).final givesUp) :=
  run_idle (by decide +kernel)

theorem nothing_lost_givesUp : ((idle 1).final givesUp).world.rqueue = [] ∧
    ∃ c w, Agent.Run c w ∧ w.toAgent = ((idle 1).final givesUp).world.toAgent ∧
      (c.map Move.label = (Event.start { now := 0, inf := .mathH }).turns ++
        ((idle 1).moves givesUp).tail.flatMap fun m => m.label.turns) ∧
      InTime c ∧ (Agent.takenIn c).Perm (Agent.passedIn c ++ Agent.droppedIn c ++ w.rqueue.loads) :=
  ⟨by decide +kernel, nothing_lost run_givesUp⟩

end Timed

end Eamrp
