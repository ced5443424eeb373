import Eamrp.Agent.NeighborLoss
import Eamrp.Agent.SoftState

/-!
# The neighbour cache

Only HELLOs and the timer of the cache touch it. The timer takes out exactly the records whose
deadline has come, so the cache is soft state.
-/

namespace Eamrp

open Lib

/-! ### Handlers that leave the cache alone -/

section Handlers

variable {env : Env} {heard : Input} {w w' : World} {p : Packet}

theorem Step.nbhead (h : Step env heard w w') (hc : ¬ CachesNeighbors heard) :
    w'.nbhead = w.nbhead := by
  cases h with
  | entry => rfl
  | rtAdd h =>
    obtain ⟨-, rfl⟩ := World.rtAdd_ok h
    rfl
  | bumpSeqno => rfl
  | raiseSeqno => rw [World.raiseSeqno_eq]
  | frame _ hnb => exact hnb
  | cache => rfl
  | neighbors h => exact absurd h hc
  | send => rfl

/-- A program that takes the steps of an event that does not write the cache leaves it alone. -/
theorem Runs.nbhead {x : Except Fault World} {Q : World → Prop} (h : Runs env heard w x Q)
    (hx : x = .ok w') (hc : ¬ CachesNeighbors heard) : w'.nbhead = w.nbhead := by
  subst hx
  exact preserved_of_steps (I := fun v => v.nbhead = w.nbhead)
    (fun _ _ hv hs => (hs.nbhead hc).trans hv) h.steps_of_ok rfl

theorem not_cachesNeighbors_helloTimer : ¬ CachesNeighbors .helloTimer := by
  rintro (h | ⟨q, hq, -⟩)
  · cases h
  · cases hq

/-- Behind the cache, the handler of a HELLO is that of a RREP from its sender. -/
theorem nbhead_recvReply {rp : HdrReply} (hda : p.ih.daddr = w.index)
    (h : recvReply env p rp w = .ok w') : w'.nbhead = w.nbhead := by
  let q : Packet := { p with body := .rrep rp }
  have hA : Hears (.recv q) w.index
      ⟨rp.rpDst, rp.rpDstSeqno, rp.rpHopCount, rp.rpSrc, rp.rpFirstHop, rp.rpLifetime⟩ :=
    ⟨q, rfl, rfl⟩
  refine Runs.nbhead (recvReply_runs hA (.inl hda)) h ?_
  rintro (hq | ⟨q', hq, rp', hb⟩)
  · cases hq
  · obtain rfl := Input.recv.inj hq
    cases hb

theorem nbhead_nbDelete {id : NsAddr} (h : nbDelete env id w = .ok w') :
    w'.nbhead = w.nbhead.eraseP fun nb => nb.nbAddr == id := by
  unfold nbDelete at h
  dsimp only at h
  split at h
  · cases h
  · obtain ⟨v, hv, h⟩ := of_bind_ok h
    have hloss := Runs.nbhead handleLinkFailure_runs hv not_cachesNeighbors_helloTimer
    have hdrain := Runs.nbhead (whileFilter_runs _) h not_cachesNeighbors_helloTimer
    exact hdrain.trans hloss

/-- The timer takes out the records whose deadline has come. -/
theorem nbhead_nbPurge (hone : w.OneNeighbor) (h : nbPurge env w = .ok w') :
    w'.nbhead = w.nbhead.filter fun nb => decide (env.now < nb.nbExpire) := by
  have hloop : ∀ (l kept : List Neighbor) (v : World), v.nbhead = kept ++ l →
      ((kept ++ l).map Neighbor.nbAddr).Nodup →
      l.foldlM (fun w nb => if nb.nbExpire ≤ env.now then nbDelete env nb.nbAddr w else .ok w) v =
        .ok w' → w'.nbhead = kept ++ l.filter fun nb => decide (env.now < nb.nbExpire) := by
    intro l
    induction l with
    | nil =>
      intro kept v hv _ h
      obtain rfl := Except.ok.inj h
      exact hv
    | cons nb l ih =>
      intro kept v hv hnd h
      rw [List.foldlM_cons] at h
      obtain ⟨u, hu, h⟩ := of_bind_ok h
      split at hu
      · next hexp =>
        have hnot : ∀ x ∈ kept, ¬ (x.nbAddr == nb.nbAddr) = true := by
          rw [List.map_append, List.map_cons] at hnd
          have hnb := (List.nodup_cons.mp (List.nodup_middle.mp hnd)).1
          intro x hx heq
          exact hnb (List.mem_append_left _ (List.mem_map.mpr ⟨x, hx, beq_iff_eq.mp heq⟩))
        have hu : u.nbhead = kept ++ l := by
          rw [nbhead_nbDelete hu, hv, List.eraseP_append_right _ hnot,
            List.eraseP_cons_of_pos (by simp)]
        rw [List.filter_cons_of_neg (by simpa using hexp)]
        refine ih kept u hu (hnd.sublist ?_) h
        exact ((List.Sublist.refl kept).append (List.sublist_cons_self nb l)).map _
      · next hexp =>
        obtain rfl := Except.ok.inj hu
        rw [List.filter_cons_of_pos (by simpa using hexp), List.append_cons]
        exact ih (kept ++ [nb]) v (by rwa [← List.append_cons]) (by rwa [← List.append_cons]) h
  exact hloop w.nbhead [] w rfl hone h

end Handlers

/-! ### One record -/

namespace World

variable {w : World} {env : Env} {x id : NsAddr} {t : Time}

theorem nbLookup_nbRefresh : (w.nbRefresh id t).nbLookup x =
    if x = id then (w.nbLookup x).map (fun nb => { nb with nbExpire := t }) else w.nbLookup x := by
  have haddr : (fun nb : Neighbor => nb.nbAddr == x) ∘ (fun nb =>
      if nb.nbAddr = id then { nb with nbExpire := t } else nb) = fun nb => nb.nbAddr == x := by
    funext nb
    simp only [Function.comp_apply]
    split <;> rfl
  rw [nbLookup, nbRefresh, List.find?_map, haddr]
  cases hf : w.nbhead.find? (fun nb => nb.nbAddr == x) with
  | none => simp [nbLookup, hf]
  | some nb =>
    have hnb : nb.nbAddr = x := beq_iff_eq.mp (List.find?_some hf :)
    have hlook : w.nbLookup x = some nb := hf
    by_cases hx : x = id
    · rw [if_pos hx, hlook, Option.map_some, Option.map_some, if_pos (hnb.trans hx)]
    · rw [if_neg hx, hlook, Option.map_some, if_neg fun h => hx (hnb.symm.trans h)]

/-- What a HELLO of `id` does to the cache, lines 1593–1600 of `recvHello`. -/
def nbHear (env : Env) (id : NsAddr) (w : World) : World :=
  match w.nbLookup id with
  | none => w.nbInsert env id
  | some _ => w.nbRefresh id (env.now + 3 / 2 * allowedHelloLoss * helloInterval)

/-- It changes nothing else. -/
theorem nbHear_eq (env : Env) (id : NsAddr) (w : World) :
    ∃ l, w.nbHear env id = { w with nbhead := l } := by
  unfold nbHear
  cases hl : w.nbLookup id with
  | none =>
    refine ⟨⟨id, env.now + helloInterval * allowedHelloLoss⟩ :: w.nbhead, ?_⟩
    dsimp only
    unfold nbInsert
    rw [hl]
  | some nb => exact ⟨_, rfl⟩

theorem nbLookup_nbHear : (w.nbHear env id).nbLookup x =
    if x = id then some ⟨id, env.now + if (w.nbLookup id).isSome
      then 3 / 2 * allowedHelloLoss * helloInterval else helloInterval * allowedHelloLoss⟩
    else w.nbLookup x := by
  unfold nbHear
  cases hl : w.nbLookup id with
  | none =>
    have hins : w.nbInsert env id =
        { w with nbhead := ⟨id, env.now + helloInterval * allowedHelloLoss⟩ :: w.nbhead } := by
      unfold nbInsert
      rw [hl]
    dsimp only
    rw [hins, nbLookup]
    by_cases hx : x = id
    · rw [if_pos hx, List.find?_cons_of_pos (by simpa using hx.symm)]
      rfl
    · rw [if_neg hx, List.find?_cons_of_neg (by simpa using Ne.symm hx)]
      rfl
  | some nb =>
    have hnb : nb.nbAddr = id := beq_iff_eq.mp (List.find?_some (hl : w.nbhead.find? _ = _) :)
    dsimp only
    rw [nbLookup_nbRefresh]
    by_cases hx : x = id
    · subst hx
      rw [if_pos rfl, if_pos rfl, hl, Option.map_some]
      subst hnb
      rfl
    · rw [if_neg hx, if_neg hx]

end World

namespace Agent

/-- The input is a HELLO of `x`. -/
def HelloOf (x : NsAddr) (inp : Input) : Prop :=
  ∃ q rp, inp = .recv q ∧ q.body = .hello rp ∧ rp.rpDst = x

/-- Until when the agent takes `x` for a neighbour. -/
def neighborUntil (x : NsAddr) (a : Agent) : Option Time :=
  (a.world.nbLookup x).map Neighbor.nbExpire

variable {a : Agent} {env : Env} {inp : Input} {w' : World} {x : NsAddr}

theorem neighborUntil_of_nbhead (h : w'.nbhead = a.nbhead) :
    w'.toAgent.neighborUntil x = a.neighborUntil x := by
  change (w'.nbhead.find? _).map _ = (a.nbhead.find? _).map _
  rw [h]

/-- A HELLO sets the deadline of its sender, and touches no other. -/
theorem neighborUntil_recvHello {p : Packet} {rp : HdrReply}
    (h : recvHello env p rp a.world = .ok w') : w'.toAgent.neighborUntil x =
      if x = rp.rpDst then some (env.now + if (a.world.nbLookup rp.rpDst).isSome
        then 3 / 2 * allowedHelloLoss * helloInterval else helloInterval * allowedHelloLoss)
      else a.neighborUntil x := by
  have hnb : w'.nbhead = (a.world.nbHear env rp.rpDst).nbhead := by
    change recvReply env _ _ (a.world.nbHear env rp.rpDst) = .ok w' at h
    exact nbhead_recvReply rfl h
  have hlook : w'.nbLookup x = (a.world.nbHear env rp.rpDst).nbLookup x := by
    rw [World.nbLookup, World.nbLookup, hnb]
  change (w'.nbLookup x).map _ = _
  rw [hlook, World.nbLookup_nbHear]
  split
  · rfl
  · rfl

/-- The event of receiving a HELLO. -/
theorem recvHello_of_handle {q : Packet} {rp : HdrReply} (hb : q.body = .hello rp)
    (h : handle env (.recv q) a.world = .ok w') :
    recvHello env { q with ih := { q.ih with ttl := q.ih.ttl - 1 } } rp a.world = .ok w' := by
  have hrecv := recvEamrp_of_handle (by simp [Packet.isEamrp, hb]) h
  unfold recvEamrp at hrecv
  split at hrecv
  · cases hrecv
  · simpa only [hb] using hrecv

theorem neighborUntil_hello {q : Packet} {rp : HdrReply} (hb : q.body = .hello rp)
    (h : handle env (.recv q) a.world = .ok w') :
    ∃ d, w'.toAgent.neighborUntil rp.rpDst = some d ∧
      env.now + helloInterval * allowedHelloLoss ≤ d ∧
      d ≤ env.now + 3 / 2 * allowedHelloLoss * helloInterval := by
  refine ⟨_, (neighborUntil_recvHello (recvHello_of_handle hb h)).trans (if_pos rfl), ?_, ?_⟩
  · split <;> norm_num [helloInterval, allowedHelloLoss]
  · split <;> norm_num [helloInterval, allowedHelloLoss]

/-- Handlers other than that of a HELLO and the timer of the cache leave the deadlines alone. -/
theorem neighborUntil_rest (h : handle env inp a.world = .ok w') (hinp : inp ≠ .neighborTimer)
    (hhello : ¬ HelloOf x inp) : w'.toAgent.neighborUntil x = a.neighborUntil x := by
  by_cases hc : ∃ q rp, inp = .recv q ∧ q.body = .hello rp
  · obtain ⟨q, rp, rfl, hb⟩ := hc
    rw [neighborUntil_recvHello (recvHello_of_handle hb h), if_neg]
    exact fun hx => hhello ⟨q, rp, rfl, hb, hx.symm⟩
  · refine neighborUntil_of_nbhead (Runs.nbhead handle_runs h ?_)
    rintro (ht | ⟨q, hq, rp, hb⟩)
    · cases inp <;> first | exact hinp rfl | cases ht
    · cases inp with
      | recv p =>
        obtain rfl := Input.recv.inj hq
        exact hc ⟨p, rp, rfl, hb⟩
      | _ => cases hq

/-- The record of a neighbour is soft state. -/
theorem lapses_neighborUntil (x : NsAddr) : Lapses .ntimer (HelloOf x)
    (helloInterval * allowedHelloLoss) (3 / 2 * allowedHelloLoss * helloInterval)
    (neighborUntil x) where
  initial i a ha := by
    rw [ha]
    rfl
  timer k' h := by
    obtain ⟨q, rp, hinp, -⟩ := h
    cases k' <;> cases hinp
  sweep {a env w'} hr h := by
    have hnb := nbhead_nbPurge (w := a.world) hr.ranged.2 h
    change (w'.nbhead.find? _).map _ = ((a.nbhead.find? _).map _).filter _
    have hfind := find?_filter_key hr.ranged.2 (fun nb => decide (env.now < nb.nbExpire)) x
    rw [hnb, Option.filter_map]
    exact congrArg _ hfind
  heard {a env inp w'} hr h hheard := by
    obtain ⟨q, rp, rfl, hb, rfl⟩ := hheard
    exact .inr (neighborUntil_hello hb h)
  rest hr h hinp hhello := neighborUntil_rest h hinp hhello

theorem neighborUntil_isSome {x : NsAddr} {a : Agent} :
    (neighborUntil x a).isSome ↔ ∃ nb ∈ a.nbhead, nb.nbAddr = x := by
  change (Option.map _ (a.nbhead.find? _)).isSome ↔ _
  rw [Option.isSome_map, List.find?_isSome]
  simp

end Agent

namespace Timed

variable {s : Timed} {t : List (Move Timed Event)}

/-- The neighbour cache over a whole run. Whoever sent a HELLO stays in the cache for the time of
`ALLOWED_HELLO_LOSS` HELLOs. While the timers run, whoever is in the cache sent a HELLO less than
half as long again and one `HELLO_INTERVAL` ago. -/
theorem neighbor_cache (h : Run t s) :
    (∀ u m v env q rp, t = u ++ m :: v → m.label = .input env (.recv q) → q.body = .hello rp →
      s.clock < env.now + helloInterval * allowedHelloLoss →
      ∃ nb ∈ s.world.nbhead, nb.nbAddr = rp.rpDst) ∧
    (s.Started → ∀ nb ∈ s.world.nbhead, ∃ m ∈ t, ∃ env q rp,
      m.label = .input env (.recv q) ∧ q.body = .hello rp ∧ rp.rpDst = nb.nbAddr ∧
      s.clock < env.now + 3 / 2 * allowedHelloLoss * helloInterval + helloInterval) := by
  constructor
  · rintro u m v env q rp rfl hl hb hclock
    obtain ⟨-, -, hs⟩ := Lib.Run.of_append h
    rw [hl] at hs
    obtain ⟨w', hw', hs⟩ := of_bind_ok hs
    have hw : m.tgt.world = w' := (congrArg world (Except.ok.inj hs)).symm
    obtain ⟨d, hd, hlo, -⟩ := Agent.neighborUntil_hello hb hw'
    refine Agent.neighborUntil_isSome.mp (h.kept (Agent.lapses_neighborUntil rp.rpDst) ?_ hlo ?_
      hclock)
    · rw [hw]
      exact hd
    · rw [hl]
      exact le_rfl
  · intro hs nb hnb
    have hlapse := Agent.lapses_neighborUntil nb.nbAddr
    obtain ⟨m, hm, ⟨env, inp, hl, q, rp, rfl, hb, hx⟩, hclock⟩ := h.recent hlapse hs
      (by norm_num [helloInterval, allowedHelloLoss]) (fun _ _ _ => (le_rfl : _ ≤ helloInterval))
      (Agent.neighborUntil_isSome.mpr ⟨nb, hnb, rfl⟩)
    rw [hl] at hclock
    exact ⟨m, hm, env, q, rp, hl, hb, hx, hclock⟩

/-- A HELLO of node 1. -/
def helloOf1 : Packet where
  ih := { saddr := 1, daddr := ipBroadcast, sport := rtPort, dport := rtPort, ttl := 1 }
  body := .hello { rpHopCount := 0, rpDst := 1, rpDstSeqno := 2, rpLifetime := 4 }

/-- Node 2 is started and receives that HELLO, and the timer of the neighbour cache fires. -/
def hearsHello : List Event :=
  [.start { now := 0, inf := .mathH }, .input { now := 0, inf := .mathH } (.recv helloOf1),
    .fire .rtimer { now := 1 / 2, inf := .mathH }, .fire .htimer { now := 3 / 4, inf := .mathH },
    .fire .ntimer { now := 1, inf := .mathH }]

theorem run_hearsHello : Run ((idle 2).moves hearsHello) ((idle 2).final hearsHello) :=
  run_idle (by decide +kernel)

/-- After one second node 1 is a neighbour of node 2. -/
theorem neighbor_cache_hearsHello :
    ∃ nb ∈ ((idle 2).final hearsHello).world.nbhead, nb.nbAddr = 1 :=
  (neighbor_cache run_hearsHello).1 [_] _ [_, _, _] _ helloOf1 _ rfl rfl rfl (by decide +kernel)

end Timed

end Eamrp
