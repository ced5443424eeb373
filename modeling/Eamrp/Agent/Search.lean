import Eamrp.Abs.Search
import Eamrp.Agent.PathList
import Eamrp.Agent.Requests

/-!
# Route requests over runs

How an agent spaces its requests for one destination, which TTLs they get and how many of them
go through the whole network, over any number of events.
-/

namespace Eamrp

open Lib

namespace Agent

/-- What an event asks of the request machine of `d`. -/
def asks (d : NsAddr) (m : Move World Turn) : Asking.Event where
  now := m.label.env.now
  called := ∃ v, Calls m.label.env m.src.toAgent.world m.label.input d v
  ttls := m.tgt.ttls d

/-- A run, as the request machine of `d` sees it. -/
def asked (d : NsAddr) (t : List (Move World Turn)) : List (Move Asking Asking.Event) :=
  t.map fun m => ⟨m.src.asking d, asks d m, m.tgt.asking d⟩

/-- The TTLs of the RREQs for `d`, in the order in which they are sent. -/
def requestTtls (d : NsAddr) (t : List (Move World Turn)) : List Int := t.flatMap fun m => m.tgt.ttls d

/-- `d` never has a route in these moves. -/
def Down (d : NsAddr) (t : List (Move World Turn)) : Prop :=
  ∀ m ∈ t, ∀ e, m.tgt.rtLookup d = some e → e.rtFlags ≠ .up

variable {t t₀ t₁ t₂ : List (Move World Turn)} {m m₁ m₂ : Move World Turn} {w w' : World}
  {d : NsAddr} {τ : Turn}

theorem ttls_asked (d : NsAddr) (t : List (Move World Turn)) :
    Asking.ttls (asked d t) = requestTtls d t := List.flatMap_map ..

theorem down_iff : Down d t ↔ ∀ m ∈ t, (m.tgt.asking d).up = false := by
  apply forall₂_congr
  intro m _
  cases hl : m.tgt.rtLookup d with
  | none =>
    rw [World.asking_of_none hl]
    exact iff_of_true (fun _ he => by cases he) rfl
  | some e =>
    rw [World.asking_of_some hl, RtEntry.asking, decide_eq_false_iff_not]
    exact ⟨fun h => h e rfl, fun h _ he => Option.some.inj he ▸ h⟩

theorem Down.asking (h : Down d t) : ∀ m ∈ asked d t, m.tgt.up = false :=
  List.forall_mem_map.mpr (down_iff.mp h)

/-- An event is a turn of the machine. -/
theorem Handles.asking (h : Handles w τ w') (hnd : (w.rtable.map RtEntry.rtDst).Nodup) (d : NsAddr) :
    Asking.Step (w.asking d) (asks d ⟨w, τ, w'⟩) (w'.asking d) := by
  obtain ⟨l, hturn, hl⟩ := turn_of_handle (w := w.toAgent.world) hnd h d
  have hnil : w.toAgent.world.ttls d = [] := rfl
  rw [hnil, List.nil_append] at hl
  show Asking.Turn _ _ _ _ (w'.ttls d)
  rw [hl]
  exact hturn

/-- A run is a run of the machine from its first state. -/
theorem Run.asking (h : Run t w) (d : NsAddr) :
    Chain Asking.Step {} (asked d t) (w.asking d) := by
  obtain ⟨w₀, h₀, hc⟩ := Lib.Run.chain h
  have hstart : w₀.asking d = {} := by
    apply World.asking_of_none
    rw [World.rtLookup, show w₀.rtable = [] by rw [h₀.initial]]
    rfl
  rw [← hstart]
  refine hc.map (World.asking · d) (asks d) fun m hm => ?_
  exact Handles.asking (Lib.Run.of_mem h hm).2 (h.reachable hm).1.pathLists.dst d

/-- The machine of `d` is still in the state before the event when `sendRequest` is called. -/
theorem asking_of_calls {env : Env} {inp : Input} {v : World} (h : Calls env w inp d v)
    (hnd : (w.rtable.map RtEntry.rtDst).Nodup) : v.asking d = w.asking d := by
  cases h with
  | resolve _ _ _ hv =>
    exact ((World.silent_rtEnsure hv d).trans (World.silent_enque env _ _ d)).asking
  | purge _ hs =>
    obtain ⟨l, l', hl, hfold⟩ := hs
    obtain ⟨-, -, hdisj⟩ := List.nodup_append.mp (hl ▸ hnd)
    exact (silent_turns (fun hd => hdisj d hd d List.mem_cons_self rfl) hfold).asking

/-! ### Pacing -/

theorem mem_ttls {r : Int × HdrRequest} (h : r ∈ w.requests) : r.1 ∈ w.ttls r.2.rqDst :=
  List.mem_map_of_mem (List.mem_filter.mpr ⟨h, decide_eq_true rfl⟩)

/-- Between two RREQs of a node for the same destination passes at least the time that the first
one is given by its TTL and the value of `rt_req_cnt` after it, at most `MAX_RREQ_TIMEOUT`, when
the route is never up in between. -/
theorem request_pacing (h : Run (t₀ ++ m₁ :: (t₁ ++ m₂ :: t₂)) w) {r₁ r₂ : Int × HdrRequest}
    (h₁ : r₁ ∈ m₁.tgt.requests) (h₂ : r₂ ∈ m₂.tgt.requests) (hd : r₂.2.rqDst = r₁.2.rqDst)
    (hdown : Down r₁.2.rqDst t₁) :
    ∃ e, m₁.tgt.rtLookup r₁.2.rqDst = some e ∧
      min maxRreqTimeout (2 * r₁.1 * nodeTraversalTime * max 1 (e.rtReqCnt.toNat : Time)) ≤
        m₂.label.env.now - m₁.label.env.now := by
  have hl₁ := mem_ttls h₁
  have hl₂ := mem_ttls h₂
  rw [hd] at hl₂
  have hrun := h.asking r₁.2.rqDst
  rw [asked, List.map_append, List.map_cons, List.map_append, List.map_cons] at hrun
  obtain ⟨s, hbefore, hrest⟩ := hrun.split
  cases hrest with
  | cons hfirst hrest =>
    obtain ⟨s', hbetween, hlast⟩ := hrest.split
    cases hlast with
    | cons hsecond =>
      have hsound := Asking.sound_start.of_chain hbefore
      have hpaced := Asking.paced hfirst hl₁ hsound hbetween hdown.asking hsecond hl₂
      cases hentry : m₁.tgt.rtLookup r₁.2.rqDst with
      | none =>
        obtain ⟨-, -, hsent⟩ := Asking.Turn.of_mem hfirst hl₁
        have hlast : 0 < (m₁.tgt.asking r₁.2.rqDst).lastTtl := by
          rw [hsent]
          exact Asking.ttl_pos hsound.lastHops
        rw [World.asking_of_none hentry] at hlast
        exact absurd hlast (lt_irrefl _)
      | some e =>
        rw [World.asking_of_some hentry] at hpaced
        exact ⟨e, rfl, hpaced⟩

/-- Node 0 has a packet for node 3. -/
def packetAt (now : Time) : Turn where
  env := { now := now, inf := .mathH }
  input := .recv { ih := { saddr := 0, daddr := 3 }, body := .app true }

/-- The RREQ for node 3 with this broadcast id. -/
def requestAt (now : Time) (bid srcSeqno : UInt32) : HdrRequest where
  rqHopCount := 0
  rqBcastId := bid
  rqDst := 3
  rqDstSeqno := 0
  rqSrc := 0
  rqSrcSeqno := srcSeqno
  rqTimestamp := now

/-- Packets at 0 and at 10 are both asked for, which is late enough. -/
theorem request_pacing_packets :
    ∃ e, (after (idle 0) (packetAt 0)).rtLookup 3 = some e ∧
      min maxRreqTimeout (2 * (30 : Int) * nodeTraversalTime * max 1 (e.rtReqCnt.toNat : Time)) ≤
        (packetAt 10).env.now - (packetAt 0).env.now := by
  have hrun : Run ([] ++ ⟨idle 0, packetAt 0, after (idle 0) (packetAt 0)⟩ ::
      ([] ++ ⟨_, packetAt 10, after (after (idle 0) (packetAt 0)) (packetAt 10)⟩ :: [])) _ :=
    run_idle (l := [packetAt 0, packetAt 10]) (by decide +kernel)
  have h₁ : (30, requestAt 0 1 4) ∈ (after (idle 0) (packetAt 0)).requests := by decide +kernel
  have h₂ : (30, requestAt 10 2 6) ∈
      (after (after (idle 0) (packetAt 0)) (packetAt 10)).requests := by decide +kernel
  exact request_pacing hrun h₁ h₂ rfl fun _ hm => by cases hm

/-! ### Ring search -/

/-- The TTL after `ttl` in an expanding ring search. -/
def ringNext (ttl : Int) : Int :=
  if ttl < ttlThreshold then ttl + ttlIncrement else networkDiameter

/-- TTLs of an expanding ring search, which does not begin with the whole network. -/
structure RingSearch (l : List Int) : Prop where
  start : ∀ x ∈ l.head?, x = ttlStart
  next : l.IsChain fun x y => y = ringNext x
  local_first : l.head? ≠ some networkDiameter

theorem ringSearch_nil : RingSearch [] := ⟨(fun _ h => by cases h), .nil, (fun h => by cases h)⟩

/-- A node searches for a destination to which it has never had a route in expanding rings if and
only if it never calls `sendRequest` for it: the hop count that the constructor writes takes
part in the maximum of line 1381, so that the first RREQ goes through the whole network. -/
theorem ring_search (h : Run t w) (d : NsAddr) (hdown : Down d t) :
    RingSearch (requestTtls d t) ↔
      ∀ m ∈ t, 0 ≤ m.label.env.now →
        ¬ ∃ v, Calls m.label.env m.src.toAgent.world m.label.input d v := by
  have hrun := h.asking d
  have hnone := Asking.ttls_eq_nil_iff hrun rfl rfl rfl hdown.asking
  have hwide := Asking.ttls_of_never_up hrun rfl hdown.asking
  rw [ttls_asked] at hnone hwide
  have hcalls : requestTtls d t = [] ↔ ∀ m ∈ t, 0 ≤ m.label.env.now →
      ¬ ∃ v, Calls m.label.env m.src.toAgent.world m.label.input d v :=
    hnone.trans List.forall_mem_map
  rw [← hcalls]
  constructor
  · intro hring
    cases hl : requestTtls d t with
    | nil => rfl
    | cons x l =>
      have hx : x = networkDiameter := hwide x (by rw [hl]; exact List.mem_cons_self)
      have hfirst := hring.local_first
      rw [hl, List.head?_cons, hx] at hfirst
      exact absurd rfl hfirst
  · intro hnil
    rw [hnil]
    exact ringSearch_nil

theorem run_packet : Run (moves (idle 0) [packetAt 0]) (final (idle 0) [packetAt 0]) :=
  run_idle (by decide +kernel)

theorem down_packet : Down 3 (moves (idle 0) [packetAt 0]) := down_iff.mpr (by decide +kernel)

theorem requestTtls_packet : requestTtls 3 (moves (idle 0) [packetAt 0]) = [networkDiameter] := by
  decide +kernel

/-- The first RREQ for node 3 goes through the whole network. -/
theorem ring_search_fails :
    ∃ t w, Run t w ∧ Down 3 t ∧ requestTtls 3 t = [networkDiameter] ∧
      ¬ RingSearch (requestTtls 3 t) := by
  refine ⟨_, _, run_packet, down_packet, requestTtls_packet, fun hring => ?_⟩
  rw [requestTtls_packet] at hring
  exact hring.local_first rfl

/-- So `sendRequest` has been called. -/
theorem ring_search_packet :
    ¬ ∀ m ∈ moves (idle 0) [packetAt 0], 0 ≤ m.label.env.now →
      ¬ ∃ v, Calls m.label.env m.src.toAgent.world m.label.input 3 v := by
  intro hnever
  have hring := (ring_search run_packet 3 down_packet).mpr hnever
  rw [requestTtls_packet] at hring
  exact hring.local_first rfl

/-! ### Retries -/

/-- `rt_req_cnt` of the entry for `d` is reset to 0. -/
def Resets (d : NsAddr) (m : Move World Turn) : Prop :=
  (m.src.asking d).cnt ≠ 0 ∧ (m.tgt.asking d).cnt = 0

/-- The number of network-wide RREQs for `d`. -/
def wideRequests (d : NsAddr) (t : List (Move World Turn)) : Nat :=
  (requestTtls d t).count networkDiameter

/-- The network is searched for `d` at most `RREQ_RETRIES` times between two resets, and then the
node gives up for `MAX_RREQ_TIMEOUT`. -/
structure RetryLimit (d : NsAddr) (t : List (Move World Turn)) : Prop where
  limit : ∀ u v x, t = u ++ v ++ x → (∀ m ∈ v, ¬ Resets d m) →
    wideRequests d v ≤ rreqRetries.toNat
  giveUp : ∀ u v m x, t = u ++ v ++ m :: x → (∀ m ∈ v, ¬ Resets d m) →
    wideRequests d v = rreqRetries.toNat →
    ∀ y, Calls m.label.env m.src.toAgent.world m.label.input d y →
      (y.asking d).timeout ≤ m.label.env.now →
      m.tgt.ttls d = [] ∧
        (∀ p ∈ y.rqueue, p.val.ih.daddr = d → ¬ p.val.ch.ts < m.label.env.now →
          Effect.drop p.val .noRoute ∈ m.tgt.out) ∧
        (m.tgt.asking d).timeout = m.label.env.now + maxRreqTimeout

theorem wide_asked (d : NsAddr) (t : List (Move World Turn)) :
    Asking.wide (asked d t) = wideRequests d t := by
  rw [Asking.wide, ttls_asked, wideRequests]

theorem asked_append (d : NsAddr) (t u : List (Move World Turn)) :
    asked d (t ++ u) = asked d t ++ asked d u := List.map_append

/-- Parts of a run are parts of the run of the machine. -/
theorem forall_parts_iff (d : NsAddr) (t : List (Move World Turn))
    (P : List (Move Asking Asking.Event) → Prop) :
    (∀ u v x, t = u ++ v ++ x → P (asked d v)) ↔ ∀ u v x, asked d t = u ++ v ++ x → P v := by
  constructor
  · intro hall u v x ht
    obtain ⟨y, x', rfl, hy, -⟩ := List.map_eq_append_iff.mp ht
    obtain ⟨u', v', rfl, -, rfl⟩ := List.map_eq_append_iff.mp hy
    exact hall u' v' x' rfl
  · intro hall u v x ht
    apply hall (asked d u) (asked d v) (asked d x)
    rw [ht, asked_append, asked_append]

/-- No part of a run without resets has too many network-wide requests. -/
theorem within_limit_iff (h : Run t w) (d : NsAddr) :
    (∀ u v x, t = u ++ v ++ x → (∀ m ∈ v, ¬ Resets d m) →
        wideRequests d v ≤ rreqRetries.toNat) ↔
      ∀ m ∈ asked d t, Asking.LetThrough m → m.src.cnt ≠ rreqRetries := by
  rw [← Asking.within_limit_iff (h.asking d)]
  refine Iff.trans ?_ (forall_parts_iff d t fun v => (∀ m ∈ v, ¬ Asking.Resets m) →
    Asking.wide v ≤ 3)
  refine forall_congr' fun u => forall_congr' fun v => forall_congr' fun x => imp_congr_right ?_
  intro _
  rw [wide_asked]
  have hresets : (∀ m ∈ asked d v, ¬ Asking.Resets m) ↔ ∀ m ∈ v, ¬ Resets d m :=
    List.forall_mem_map
  rw [hresets]
  rfl

/-- The condition on calls of `sendRequest` is one on the turns of the machine. -/
theorem letThrough_iff (h : Run t w) (d : NsAddr) :
    (∀ m ∈ asked d t, Asking.LetThrough m → m.src.cnt ≠ rreqRetries) ↔
      ∀ m ∈ t, ∀ y, Calls m.label.env m.src.toAgent.world m.label.input d y →
        (y.asking d).timeout ≤ m.label.env.now → (y.asking d).cnt ≠ rreqRetries := by
  refine List.forall_mem_map.trans (forall₂_congr fun m hm => ?_)
  have hsame : ∀ y, Calls m.label.env m.src.toAgent.world m.label.input d y →
      y.asking d = m.src.asking d := by
    intro y hy
    show y.asking d = m.src.toAgent.world.asking d
    exact asking_of_calls hy (h.reachable hm).1.pathLists.dst
  constructor
  · intro hall y hy ht
    rw [hsame y hy] at ht ⊢
    exact hall ⟨⟨y, hy⟩, ht⟩
  · rintro hall ⟨⟨y, hy⟩, ht⟩
    have hne := hall y hy
    rw [hsame y hy] at hne
    exact hne ht

/-- After `RREQ_RETRIES` network-wide requests without a reset the counter is there. -/
theorem cnt_of_budget {u v x : List (Move World Turn)} (h : Run (u ++ v ++ m :: x) w)
    (hv : ∀ m ∈ v, ¬ Resets d m) (hwide : wideRequests d v = rreqRetries.toNat)
    (hle : (m.src.asking d).cnt.toNat ≤ 3) : (m.src.asking d).cnt = rreqRetries := by
  have hrun := h.asking d
  rw [asked_append, asked_append] at hrun
  obtain ⟨s, huv, hm⟩ := hrun.split
  obtain ⟨s', -, hv'⟩ := huv.split
  cases hm with
  | cons =>
    have hcount := Asking.wide_of_chain hv' (List.forall_mem_map.mpr hv)
    rw [wide_asked, hwide] at hcount
    apply UInt8.toNat_inj.mp
    have hthree : rreqRetries.toNat = 3 := rfl
    omega

/-- The retry limit is kept in a run if and only if every call of `sendRequest` that the rate
limiter lets through finds another value in `rt_req_cnt` than `RREQ_RETRIES`. -/
theorem retry_limit (h : Run t w) (d : NsAddr) :
    RetryLimit d t ↔
      ∀ m ∈ t, ∀ y, Calls m.label.env m.src.toAgent.world m.label.input d y →
        (y.asking d).timeout ≤ m.label.env.now → (y.asking d).cnt ≠ rreqRetries := by
  have hlimit := within_limit_iff h d
  have hcalls := letThrough_iff h d
  constructor
  · exact fun hall => hcalls.mp (hlimit.mp hall.limit)
  · intro hall
    have hthrough := hcalls.mpr hall
    refine ⟨hlimit.mpr hthrough, ?_⟩
    intro u v m x ht hv hwide y hy htime
    subst ht
    have hm : m ∈ u ++ v ++ m :: x := List.mem_append_right _ List.mem_cons_self
    have hle : (m.src.asking d).cnt.toNat ≤ 3 := by
      have hrun := h.asking d
      rw [asked_append] at hrun
      obtain ⟨s, huv, hrest⟩ := hrun.split
      cases hrest with
      | cons =>
        refine Asking.le_limit_of_chain huv (Nat.zero_le _) fun n hn => hthrough n ?_
        rw [asked_append]
        exact List.mem_append_left _ hn
    have hcnt := cnt_of_budget h hv hwide hle
    have hsame := asking_of_calls hy (h.reachable hm).1.pathLists.dst
    exact absurd ((congrArg Asking.cnt hsame).trans hcnt) (hall m hm y hy htime)

/-- Packets at 0, 10, 20 and 30. -/
def fourPackets : List Turn := [packetAt 0, packetAt 10, packetAt 20, packetAt 30]

theorem run_fourPackets : Run (moves (idle 0) fourPackets) (final (idle 0) fourPackets) :=
  run_idle (by decide +kernel)

/-- They make node 0 search the network four times. -/
theorem fourPackets_over : ¬ RetryLimit 3 (moves (idle 0) fourPackets) := by
  intro hall
  have hfour : wideRequests 3 (moves (idle 0) fourPackets) = 4 := by decide +kernel
  have hresets : ∀ m ∈ moves (idle 0) fourPackets,
      (m.src.asking 3).cnt = 0 ∨ (m.tgt.asking 3).cnt ≠ 0 := by decide +kernel
  have hle := hall.limit [] (moves (idle 0) fourPackets) [] (List.append_nil _).symm
    fun m hm hr => (hresets m hm).elim hr.1 fun hne => hne hr.2
  rw [hfour] at hle
  exact absurd hle (by decide)

theorem retry_limit_fails : ∃ t w, Run t w ∧ ¬ RetryLimit 3 t :=
  ⟨_, _, run_fourPackets, fourPackets_over⟩

/-- So one of the calls was let through with the counter at the limit. -/
theorem retry_limit_fourPackets :
    ¬ ∀ m ∈ moves (idle 0) fourPackets, ∀ y,
      Calls m.label.env m.src.toAgent.world m.label.input 3 y →
        (y.asking 3).timeout ≤ m.label.env.now → (y.asking 3).cnt ≠ rreqRetries :=
  fun hcond => fourPackets_over ((retry_limit run_fourPackets 3).mpr hcond)

end Agent

end Eamrp
