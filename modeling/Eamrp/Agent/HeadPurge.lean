import Eamrp.Agent.SendBuffer

/-!
# The two versions of `purge`

Under a clock that never goes back the deadlines in the send buffer are in order, since every
packet that enters is due last and packets leave anywhere. So the packets that have timed out
stand at the front, every scan of `purge` finds the head, and `purge` does to the buffer what
its earlier version did, which looked at the head only.
-/

namespace Eamrp

open Lib

namespace EamrpRqueue

variable {q : EamrpRqueue} {l : List Item} {now : Time}

/-- The earlier `purge` stops at a head that has not timed out. -/
private theorem headPurgeLoop_stop (h : q.Holds l) (hlater : ∀ x ∈ l, ¬ Item.due x < now) (k : Nat) :
    headPurgeLoop now (k + 1) q = .ok ([], q) := by
  cases l with
  | nil =>
    have hhead : q.head = none := h.head
    simp [headPurgeLoop, hhead, pure, Except.pure]
  | cons x l =>
    have hhead : q.head = some x.1 := h.head
    have hcont : (q.mem x.1).packet = x.2 := h.contents x (List.mem_cons_self ..)
    have hts : ¬ (q.mem x.1).packet.ch.ts < now := by
      rw [hcont]
      exact hlater x (List.mem_cons_self ..)
    simp [headPurgeLoop, hhead, hts, pure, Except.pure]

/-- The earlier `purge` takes out a head that has timed out, as `purge` does. -/
private theorem headPurgeLoop_turn {x : Item} {q₁ : EamrpRqueue} (h : q.Holds (x :: l))
    (hx : Item.due x < now) (hq₁ : q.unlink x.1 none = .ok (some x.1, q₁)) {k : Nat}
    {dropped : List (Ptr × DropReason)} {q' : EamrpRqueue}
    (hrest : headPurgeLoop now k q₁ = .ok (dropped, q')) :
    headPurgeLoop now (k + 1) q = .ok ((x.1, .qTimeout) :: dropped, q') := by
  have hhead : q.head = some x.1 := h.head
  have hcont : (q.mem x.1).packet = x.2 := h.contents x (List.mem_cons_self ..)
  have hts : (q.mem x.1).packet.ch.ts < now := by
    rw [hcont]
    exact hx
  have hremove : q.removeHead = .ok (some x.1, q₁) := by
    simpa [unlink, hhead, bind, Except.bind, pure, Except.pure] using hq₁
  simp [headPurgeLoop, hhead, hts, hremove, hrest, deref, bind, Except.bind, pure, Except.pure]

private theorem purgeLoop_eq (now : Time) (h : q.Holds l) (hs : Fifo.Sorted Item.due l) :
    ∃ q', q'.Holds (Fifo.live Item.due now l) ∧ ∀ n k, l.length < n → l.length < k →
      purgeLoop n now k q = .ok q' ∧
      headPurgeLoop now k q =
        .ok ((Fifo.aged Item.due now l).map fun x => (x.1, DropReason.qTimeout), q') := by
  induction hm : l.length using Nat.strong_induction_on generalizing q l with
  | _ m ih =>
    subst hm
    rcases h.purge_turn now with ⟨hlater, hstop⟩ | ⟨u, x, v, q₁, rfl, hu, hx, hq₁, hholds, -, hturn⟩
    · refine ⟨q, (Fifo.live_eq_self hlater).symm ▸ h, fun n k hn hk => ?_⟩
      obtain ⟨k, rfl⟩ := Nat.exists_eq_add_one.mpr (Nat.zero_lt_of_lt hk)
      rw [Fifo.aged_eq_nil_iff.mpr hlater]
      exact ⟨hstop n k hn, headPurgeLoop_stop h hlater k⟩
    · -- what stands before a packet that has timed out has timed out, and would have been found
      have hfirst : u = [] :=
        List.eq_nil_iff_forall_not_mem.mpr fun y hy => hu y hy (hs.aged_before hx y hy)
      subst hfirst
      have hlen : v.length < ([] ++ x :: v).length := by simp
      obtain ⟨q', hlive, hloops⟩ := ih _ hlen hholds hs.of_cons rfl
      have haged : Fifo.aged Item.due now ([] ++ x :: v) = x :: Fifo.aged Item.due now v :=
        List.filter_cons_of_pos (by simpa using hx)
      refine ⟨q', (Fifo.live_append_cons hx).symm ▸ hlive, fun n k hn hk => ?_⟩
      obtain ⟨k, rfl⟩ := Nat.exists_eq_add_one.mpr (Nat.zero_lt_of_lt hk)
      obtain ⟨hscan, hheads⟩ := hloops n k (hlen.trans hn) (by omega)
      rw [haged]
      exact ⟨(hturn n k hn).trans hscan, headPurgeLoop_turn h hx hq₁ hheads⟩

end EamrpRqueue

namespace SendBuffer

variable {q : EamrpRqueue} {t : List (Move EamrpRqueue Event)}

/-- The clock value of a call. -/
def Event.now? : Event → Option Time
  | .call now _ _ => some now
  | .write _ _ => none

/-- The clock values of the calls of a run, in order. -/
def callTimes (t : List (Move EamrpRqueue Event)) : List Time := t.filterMap fun m => m.label.now?

/-- The clock never goes back from call to call. -/
def Clocked (t : List (Move EamrpRqueue Event)) : Prop := (callTimes t).Pairwise (· ≤ ·)

/-- The deadlines are in order, and every one is `timeout_` after a call of the run. -/
theorem Run.sorted (h : Run t q) (hc : Clocked t) : ∃ l, q.Holds l ∧ l.length ≤ RQueue.limit ∧
    Fifo.Sorted Item.due l ∧
    ∀ x ∈ l, ∃ now ∈ callTimes t, x.due ≤ now + RQueue.timeout := by
  induction h with
  | start h => exact ⟨[], ⟨h.head, h.tail, h.len, by simp⟩, Nat.zero_le _, .nil, by simp⟩
  | @move t q q' e h hs ih =>
    rw [Clocked, callTimes, List.filterMap_append, List.pairwise_append] at hc
    obtain ⟨hpast, -, hlast⟩ := hc
    obtain ⟨l, hl, hlim, hsorted, hdue⟩ := ih hpast
    -- clock values of the past stay in the run
    have hkeep : ∀ x ∈ l, ∃ now ∈ callTimes (t ++ [⟨q, e, q'⟩]), x.due ≤ now + RQueue.timeout := by
      intro x hx
      obtain ⟨now, hnow, hle⟩ := hdue x hx
      refine ⟨now, ?_, hle⟩
      rw [callTimes, List.filterMap_append]
      exact List.mem_append_left _ hnow
    cases hs with
    | @call _ now c o hadm h =>
      obtain ⟨-, hholds⟩ := (Happens.call hadm h).call_eq hl hlim
      refine ⟨_, hholds, EamrpRqueue.fifoCall_length_le now c hlim, ?_⟩
      rcases q.fifoCall_sublist now l c with hsub | ⟨p, m, -, hsub, heq⟩
      · exact ⟨hsorted.sublist hsub, fun x hx => hkeep x (hsub.subset hx)⟩
      · have hnew : (q.stamped now p).due = now + RQueue.timeout := rfl
        rw [heq]
        refine ⟨(hsorted.sublist hsub).concat fun y hy => ?_, fun x hx => ?_⟩
        · obtain ⟨past, hmem, hle⟩ := hdue y (hsub.subset hy)
          have hclock : past ≤ now := hlast past hmem now (by simp [Event.now?])
          rw [hnew]
          exact hle.trans (add_le_add_left hclock _)
        · rcases List.mem_append.mp hx with hx | hx
          · exact hkeep x (hsub.subset hx)
          · obtain rfl := List.mem_singleton.mp hx
            exact ⟨now, by simp [callTimes, Event.now?], le_of_eq hnew⟩
    | write hp => exact ⟨l, hl.write hp _, hlim, hsorted, hkeep⟩

/-- The deadlines in the buffer are in order, the packets that have timed out stand at the
front, and `purge` leaves the very buffer that its earlier version would leave. -/
theorem purge_eq_headPurge (h : Run t q) (hc : Clocked t) :
    ∃ l, q.Holds l ∧ Fifo.Sorted Item.due l ∧ ∀ now,
      Fifo.aged Item.due now l <+: l ∧
      ∃ q', q'.Holds (l.dropWhile fun x => decide (x.due < now)) ∧
        ∀ n, RQueue.limit < n → q.purge n now = .ok q' ∧
          q.headPurge n now =
            .ok ((Fifo.aged Item.due now l).map fun x => (x.1, DropReason.qTimeout), q') := by
  obtain ⟨l, hl, hlim, hsorted, -⟩ := h.sorted hc
  refine ⟨l, hl, hsorted, fun now => ⟨?_, ?_⟩⟩
  · rw [hsorted.aged_eq_takeWhile]
    exact List.takeWhile_prefix _
  · obtain ⟨q', hholds, hloops⟩ := EamrpRqueue.purgeLoop_eq now hl hsorted
    rw [hsorted.live_eq_dropWhile] at hholds
    refine ⟨q', hholds, fun n hn => ?_⟩
    have hlen := Nat.lt_of_le_of_lt hlim hn
    exact hloops n n hlen hlen

/-- Packet 4 is due at 35 and stands before packet 5, which is due at 63. -/
theorem purge_eq_headPurge_twoFlows :
    Run (moves twoFlows flowCalls) (final twoFlows flowCalls) ∧
    ∃ l, (final twoFlows flowCalls).Holds l ∧ Fifo.Sorted Item.due l ∧ ∀ now,
      Fifo.aged Item.due now l <+: l ∧
      ∃ q', q'.Holds (l.dropWhile fun x => decide (x.due < now)) ∧
        ∀ n, RQueue.limit < n → (final twoFlows flowCalls).purge n now = .ok q' ∧
          (final twoFlows flowCalls).headPurge n now =
            .ok ((Fifo.aged Item.due now l).map fun x => (x.1, DropReason.qTimeout), q') :=
  ⟨run_twoFlows, purge_eq_headPurge run_twoFlows (by unfold Clocked; decide +kernel)⟩

end SendBuffer

end Eamrp
