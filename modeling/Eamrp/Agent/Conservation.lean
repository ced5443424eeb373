import Eamrp.Agent.SendBuffer

/-!
# Where the packets of the send buffer go

An account of every packet that enters the send buffer. A call hands packets out, gives them
to `drop` or keeps them; but `purge` unlinks a packet that has timed out and gives it to no one,
which the version of `purge` that is kept in a comment (`eamrp_rqueue.cc:177–189`) did.
-/

namespace Eamrp

open Lib

namespace SendBuffer

/-! ### Accounts -/

/-- The packet an event brings into the buffer. -/
def Event.enqueued : Event → List Ptr
  | .call _ (.enque p) _ => [p]
  | _ => []

/-- The packet an event hands out. -/
def Event.returned : Event → List Ptr
  | .call _ _ ⟨.packet p, _⟩ => p.toList
  | _ => []

/-- The packets an event gives to `drop`. -/
def Event.dropped : Event → List Ptr
  | .call _ _ o => o.dropped.map Prod.fst
  | .write _ _ => []

/-- The clock value at which an event clears the buffer: every call but `find`. -/
def Event.purges? : Event → Option Time
  | .call _ (.find _) _ => none
  | .call now _ _ => some now
  | .write _ _ => none

/-- A move clears the buffer and finds a packet in it that has timed out. -/
def FindsAged (m : Move EamrpRqueue Event) : Prop :=
  ∃ now p, m.label.purges? = some now ∧ m.src.Queued p ∧ (m.src.contents p).ch.ts < now

/-- The packets that enter in the course of some moves. -/
def enqueuedIn (v : List (Move EamrpRqueue Event)) : List Ptr := v.flatMap fun m => m.label.enqueued

/-- The packets that are handed out in the course of some moves. -/
def returnedIn (v : List (Move EamrpRqueue Event)) : List Ptr := v.flatMap fun m => m.label.returned

/-- The packets that are given to `drop` in the course of some moves. -/
def droppedIn (v : List (Move EamrpRqueue Event)) : List Ptr := v.flatMap fun m => m.label.dropped

/-- After the moves `v` the packet `p` is in exactly one of three places. -/
def InOnePlace (q : EamrpRqueue) (v : List (Move EamrpRqueue Event)) (p : Ptr) : Prop :=
  (q.Queued p ∧ (returnedIn v).count p = 0 ∧ (droppedIn v).count p = 0) ∨
  (¬ q.Queued p ∧ (returnedIn v).count p = 1 ∧ (droppedIn v).count p = 0) ∨
  (¬ q.Queued p ∧ (returnedIn v).count p = 0 ∧ (droppedIn v).count p = 1)

/-- From the call that brings a packet in to the next call that does, the packet is at every
moment in exactly one place; and what `drop` is told fits the deadline of the packet. -/
structure Conserves (t : List (Move EamrpRqueue Event)) : Prop where
  place : ∀ u m v w q p, t = u ++ m :: v ++ w → Run (u ++ m :: v) q → p ∈ m.label.enqueued →
    (∀ x ∈ v, p ∉ x.label.enqueued) → InOnePlace q (m :: v) p
  reason : ∀ m ∈ t, ∀ now c o, m.label = .call now c o → ∀ d ∈ o.dropped,
    d.2 = if now < (m.src.contents d.1).ch.ts then .qFull else .qTimeout

variable {q q' : EamrpRqueue} {l : List Item} {e : Event} {u v t : List (Move EamrpRqueue Event)}
  {p : Ptr}

/-- What an event clears from a buffer that holds `l`. -/
def Event.cleared (e : Event) (l : List Item) : List Item :=
  (e.purges?.map fun now => Fifo.aged Item.due now l).getD []

/-- One event: what was there or enters is there, handed out, dropped or cleared. -/
theorem Happens.account (h : Happens q e q') (hl : q.Holds l) (hlim : l.length ≤ RQueue.limit) :
    ∃ l', q'.Holds l' ∧ l'.length ≤ RQueue.limit ∧
      (l.map Prod.fst ++ e.enqueued).Perm
        (l'.map Prod.fst ++ e.returned ++ e.dropped ++ (e.cleared l).map Prod.fst) := by
  cases h with
  | @call _ now c o hadm h =>
    obtain ⟨rfl, hholds⟩ := (Happens.call hadm h).call_eq hl hlim
    refine ⟨_, hholds, EamrpRqueue.fifoCall_length_le now c hlim, ?_⟩
    cases c with
    | enque p =>
      have hperm := (Fifo.push_perm Item.due RQueue.limit now (q.stamped now p) l).map Prod.fst
      have hdrop : ∀ o : Option Item, (o.map (Item.dropped now)).toList.map Prod.fst =
          o.toList.map Prod.fst := fun o => by cases o <;> rfl
      rw [List.map_append, List.map_append, List.map_append] at hperm
      simp only [Event.enqueued, Event.returned, Event.dropped, EamrpRqueue.fifoCall, hdrop,
        List.append_nil]
      exact hperm
    | deque =>
      have hperm := (Fifo.pop_perm Item.due now l).map Prod.fst
      rw [List.map_append, List.map_append, ← Option.toList_map] at hperm
      simpa [Event.enqueued, Event.returned, Event.dropped, Event.cleared, Event.purges?,
        EamrpRqueue.fifoCall] using hperm
    | dequeDst dst =>
      have hperm := (Fifo.popKey_perm Item.due Item.daddr now dst l).map Prod.fst
      rw [List.map_append, List.map_append, ← Option.toList_map] at hperm
      simpa [Event.enqueued, Event.returned, Event.dropped, Event.cleared, Event.purges?,
        EamrpRqueue.fifoCall] using hperm
    | find dst => simp [Event.enqueued, Event.returned, Event.dropped, EamrpRqueue.fifoCall,
        Event.cleared, Event.purges?]
  | write hp =>
    refine ⟨l, hl.write hp _, hlim, ?_⟩
    simp [Event.enqueued, Event.returned, Event.dropped, Event.cleared, Event.purges?]

/-- A cleared packet was in the buffer and had timed out. -/
theorem mem_cleared (hl : q.Holds l) : p ∈ (e.cleared l).map Prod.fst ↔
    ∃ now, e.purges? = some now ∧ q.Queued p ∧ (q.contents p).ch.ts < now := by
  unfold Event.cleared
  cases e.purges? with
  | none => simp
  | some now =>
    simp only [Option.map_some, Option.getD_some, Option.some.injEq, exists_eq_left',
      hl.queued_iff, List.mem_map]
    constructor
    · rintro ⟨x, hx, rfl⟩
      obtain ⟨hx, hdue⟩ := List.mem_filter.mp hx
      refine ⟨⟨x, hx, rfl⟩, ?_⟩
      rw [hl.contents x hx]
      exact of_decide_eq_true hdue
    · rintro ⟨⟨x, hx, rfl⟩, hts⟩
      rw [hl.contents x hx] at hts
      exact ⟨x, List.mem_filter.mpr ⟨hx, decide_eq_true hts⟩, rfl⟩

/-- Many events: nothing is cleared when no call finds a packet that has timed out. -/
theorem account_of_chain (h : Chain Happens q v q') (hl : q.Holds l)
    (hlim : l.length ≤ RQueue.limit) :
    ∃ l' lost, q'.Holds l' ∧ l'.length ≤ RQueue.limit ∧
      ((∀ m ∈ v, ¬ FindsAged m) → lost = []) ∧
      ∀ p, (l.map Prod.fst).count p + (enqueuedIn v).count p =
        (l'.map Prod.fst).count p + (returnedIn v).count p + (droppedIn v).count p +
          lost.count p := by
  induction h generalizing l with
  | nil => exact ⟨l, [], hl, hlim, fun _ => rfl, fun p => rfl⟩
  | @cons q q₁ q₂ e v hs h ih =>
    obtain ⟨l₁, hl₁, hlim₁, hperm⟩ := hs.account hl hlim
    obtain ⟨l', lost, hl', hlim', hlost, hcount⟩ := ih hl₁ hlim₁
    refine ⟨l', (e.cleared l).map Prod.fst ++ lost, hl', hlim', fun hno => ?_, fun p => ?_⟩
    · rw [hlost fun m hm => hno m (List.mem_cons_of_mem _ hm), List.append_nil]
      refine List.eq_nil_iff_forall_not_mem.mpr fun p hp => ?_
      obtain ⟨now, hp⟩ := (mem_cleared hl).mp hp
      exact hno _ (List.mem_cons_self ..) ⟨now, p, hp⟩
    · have hone := hperm.count_eq p
      have hrest := hcount p
      simp only [enqueuedIn, returnedIn, droppedIn, List.flatMap_cons, List.count_append]
        at hone hrest ⊢
      omega

/-- A packet enters once by one event. -/
theorem count_enqueued (hp : p ∈ e.enqueued) : e.enqueued.count p = 1 := by
  cases e with
  | write => cases hp
  | call now c o =>
    cases c with
    | enque r =>
      obtain rfl := List.mem_singleton.mp hp
      simp [Event.enqueued]
    | deque => cases hp
    | dequeDst dst => cases hp
    | find dst => cases hp

/-- A packet that enters was not in the buffer. -/
theorem Happens.not_queued (h : Happens q e q') (hp : p ∈ e.enqueued) : ¬ q.Queued p := by
  cases h with
  | @call _ now c o hadm h =>
    cases c with
    | enque r =>
      obtain rfl := List.mem_singleton.mp hp
      exact hadm p rfl
    | deque => cases hp
    | dequeDst dst => cases hp
    | find dst => cases hp
  | write => cases hp

/-- A packet in the buffer has entered it, and not again since. -/
theorem exists_entry (h : Run t q) (hp : q.Queued p) :
    ∃ u m v, t = u ++ m :: v ∧ p ∈ m.label.enqueued ∧ ∀ x ∈ v, p ∉ x.label.enqueued := by
  induction h with
  | start h =>
    obtain ⟨ps, hps, hp⟩ := hp
    rw [h.head] at hps
    have hempty := hps.head
    cases ps with
    | nil => cases hp
    | cons r ps => cases hempty
  | @move t q q' e h hs ih =>
    by_cases he : p ∈ e.enqueued
    · exact ⟨t, ⟨q, e, q'⟩, [], rfl, he, by simp⟩
    · obtain ⟨l, hl, hlim⟩ := Run.holds h
      obtain ⟨l', hl', -, hperm⟩ := hs.account hl hlim
      have hmem : p ∈ l.map Prod.fst ++ e.enqueued := by
        rw [hperm.mem_iff]
        simp only [List.mem_append]
        exact .inl (.inl (.inl (hl'.queued_iff.mp hp)))
      have hq : q.Queued p := hl.queued_iff.mpr ((List.mem_append.mp hmem).resolve_right he)
      obtain ⟨u, m, v, rfl, hm, hv⟩ := ih hq
      refine ⟨u, m, v ++ [⟨q, e, q'⟩], by simp, hm, fun x hx => ?_⟩
      rcases List.mem_append.mp hx with hx | hx
      · exact hv x hx
      · obtain rfl := List.mem_singleton.mp hx
        exact he

/-- The account of a packet from its entry on. -/
theorem Run.account {m : Move EamrpRqueue Event} (h : Run (u ++ m :: v) q)
    (hp : p ∈ m.label.enqueued) (hv : ∀ x ∈ v, p ∉ x.label.enqueued) :
    ∃ l lost, q.Holds l ∧ l.length ≤ RQueue.limit ∧
      ((∀ x ∈ m :: v, ¬ FindsAged x) → lost = []) ∧
      (l.map Prod.fst).count p + (returnedIn (m :: v)).count p + (droppedIn (m :: v)).count p +
        lost.count p = 1 := by
  obtain ⟨hu, hm⟩ := Lib.Run.of_append h
  obtain ⟨l₀, hl₀, hlim₀⟩ := Run.holds hu
  obtain ⟨s₀, -, hchain⟩ := Lib.Run.chain h
  obtain ⟨s, -, hchain⟩ := hchain.split
  have hsrc : Chain Happens m.src (m :: v) q := by
    cases hchain with
    | cons hs hrest => exact .cons hs hrest
  obtain ⟨l, lost, hl, hlim, hlost, hcount⟩ := account_of_chain hsrc hl₀ hlim₀
  refine ⟨l, lost, hl, hlim, hlost, ?_⟩
  have hnot : (l₀.map Prod.fst).count p = 0 :=
    List.count_eq_zero.mpr (mt hl₀.queued_iff.mpr (hm.not_queued hp))
  have hrest : (enqueuedIn v).count p = 0 := by
    refine List.count_eq_zero.mpr fun hmem => ?_
    obtain ⟨x, hx, hpx⟩ := List.mem_flatMap.mp hmem
    exact hv x hx hpx
  have hone : (enqueuedIn (m :: v)).count p = 1 := by
    have hsplit : enqueuedIn (m :: v) = m.label.enqueued ++ enqueuedIn v := rfl
    rw [hsplit, List.count_append, count_enqueued hp, hrest]
  have hall := hcount p
  omega

/-- What an event gives to `drop`, it gives with the reason that fits. -/
theorem Happens.reason {now : Time} {c : Call} {o : Outcome} (h : Happens q (.call now c o) q')
    (hl : q.Holds l) (hlim : l.length ≤ RQueue.limit) :
    ∀ d ∈ o.dropped, d.2 = if now < (q.contents d.1).ch.ts then .qFull else .qTimeout := by
  obtain ⟨rfl, -⟩ := h.call_eq hl hlim
  intro d hd
  cases c with
  | enque p =>
    obtain ⟨y, hy, rfl⟩ := Option.map_eq_some_iff.mp (Option.mem_toList.mp hd)
    have hcont := hl.contents y (Fifo.mem_of_push hy)
    show (y.dropped now).2 = _
    rw [Item.dropped, hcont]
    rfl
  | deque => cases hd
  | dequeDst dst => cases hd
  | find dst => cases hd

private theorem one_place (h : Run t q) (hno : ∀ m ∈ t, ¬ FindsAged m) : Conserves t where
  place := by
    rintro u m v w q p rfl hrun hp hv
    obtain ⟨l, lost, hl, -, hlost, hcount⟩ := hrun.account hp hv
    have hnone : lost = [] := hlost fun x hx => by
      refine hno x ?_
      rw [List.append_assoc]
      exact List.mem_append_right _ (List.mem_append_left _ hx)
    rw [hnone, List.count_nil, Nat.add_zero] at hcount
    have hqueued : q.Queued p ↔ 0 < (l.map Prod.fst).count p := by
      rw [hl.queued_iff, List.count_pos_iff]
    by_cases hq : q.Queued p
    · have hpos := hqueued.mp hq
      exact .inl ⟨hq, by omega, by omega⟩
    · have hzero : (l.map Prod.fst).count p = 0 := Nat.eq_zero_of_not_pos (mt hqueued.mpr hq)
      by_cases hr : (returnedIn (m :: v)).count p = 0
      · exact .inr (.inr ⟨hq, hr, by omega⟩)
      · exact .inr (.inl ⟨hq, by omega, by omega⟩)
  reason := by
    rintro m hm now c o hlabel
    obtain ⟨⟨s, hs⟩, hstep⟩ := Lib.Run.of_mem h hm
    obtain ⟨l, hl, hlim⟩ := Run.holds hs
    rw [hlabel] at hstep
    exact hstep.reason hl hlim

/-- A packet that a call finds timed out is in none of the three places after that call. -/
private theorem not_conserves (h : Run t q) {x : Move EamrpRqueue Event} (hx : x ∈ t)
    (haged : FindsAged x) : ¬ Conserves t := by
  intro hc
  obtain ⟨a, b, rfl⟩ := List.append_of_mem hx
  obtain ⟨ha, hstep⟩ := Lib.Run.of_append h
  obtain ⟨now, p, hpurge, hqueued, hts⟩ := haged
  obtain ⟨u, m, v, rfl, hm, hv⟩ := exists_entry ha hqueued
  obtain ⟨l, lost, hl, hlim, -, hcount⟩ := Run.account ha hm hv
  -- before the call the packet is in the buffer and nowhere else
  have hin : 0 < (l.map Prod.fst).count p := List.count_pos_iff.mpr (hl.queued_iff.mp hqueued)
  -- the call clears it
  obtain ⟨l', hl', -, hperm⟩ := hstep.account hl hlim
  have hcleared : 0 < ((x.label.cleared l).map Prod.fst).count p :=
    List.count_pos_iff.mpr ((mem_cleared hl).mpr ⟨now, hpurge, hqueued, hts⟩)
  have henter : p ∉ x.label.enqueued := fun hp => hstep.not_queued hp hqueued
  have hzero : x.label.enqueued.count p = 0 := List.count_eq_zero.mpr henter
  have hone := hperm.count_eq p
  simp only [List.count_append] at hone
  have hrun : Run (u ++ m :: (v ++ [x])) x.tgt := by
    have hmove := Lib.Run.move ha hstep
    rwa [List.append_assoc, List.cons_append] at hmove
  have hplace := hc.place u m (v ++ [x]) b x.tgt p (by simp) hrun hm (by
    intro y hy
    rcases List.mem_append.mp hy with hy | hy
    · exact hv y hy
    · obtain rfl := List.mem_singleton.mp hy
      exact henter)
  have hret : (returnedIn (m :: (v ++ [x]))).count p =
      (returnedIn (m :: v)).count p + x.label.returned.count p := by
    simp [returnedIn, Nat.add_assoc]
  have hdrop : (droppedIn (m :: (v ++ [x]))).count p =
      (droppedIn (m :: v)).count p + x.label.dropped.count p := by
    simp [droppedIn, Nat.add_assoc]
  rcases hplace with ⟨hq, -, -⟩ | ⟨-, hr, -⟩ | ⟨-, -, hd⟩
  · have := List.count_pos_iff.mpr (hl'.queued_iff.mp hq)
    omega
  · omega
  · omega

/-- A send buffer keeps account of its packets just when no call that clears it finds a packet
that has timed out. -/
theorem conserves_iff (h : Run t q) : Conserves t ↔ ∀ m ∈ t, ¬ FindsAged m :=
  ⟨fun hc _ hm haged => not_conserves h hm haged hc, one_place h⟩

/-- A fresh buffer among data packets for one destination. -/
def sample : EamrpRqueue := { mem := fun _ => { packet := { ih := { daddr := 5 }, body := .app true } } }

theorem holds_sample : sample.Holds [] := ⟨rfl, rfl, rfl, by simp⟩

/-- One packet in the buffer. -/
theorem run_oneBuffered : ∃ q, Run [⟨sample, .call 0 (.enque 1) ⟨.done, []⟩, q⟩] q ∧
    q.Holds [sample.stamped 0 1] := by
  have hadm : sample.Admits (.enque 1) := fun p _ hp => by
    simpa using holds_sample.queued_iff.mp hp
  obtain ⟨q, hq, hholds⟩ := exists_call 0 (.enque 1) holds_sample (Nat.zero_le _) hadm
  exact ⟨q, .move (t := []) (.start ⟨rfl, rfl, rfl⟩) hq, hholds⟩

/-- One packet enters at time 0 and a call comes at the time `now`. -/
private theorem run_thenDeque (now : Time) : ∃ q₁ q₂, q₁.Holds [sample.stamped 0 1] ∧
    Run [⟨sample, .call 0 (.enque 1) ⟨.done, []⟩, q₁⟩,
      ⟨q₁, .call now .deque
        ⟨.packet ((Fifo.pop Item.due now [sample.stamped 0 1]).1.map Prod.fst), []⟩, q₂⟩] q₂ := by
  obtain ⟨q₁, hrun, hholds⟩ := run_oneBuffered
  have hadm : q₁.Admits .deque := fun p hp => by cases hp
  obtain ⟨q₂, hq₂, -⟩ := exists_call now .deque hholds (by decide) hadm
  exact ⟨q₁, q₂, hholds, .move hrun hq₂⟩

/-- Forgotten: a packet enters at time 0, its deadline is 30, and a call at time 31 hands out
nothing, drops nothing and leaves the buffer empty. -/
theorem conserves_fails : ∃ q₁ q₂,
    Run [⟨sample, .call 0 (.enque 1) ⟨.done, []⟩, q₁⟩,
      ⟨q₁, .call 31 .deque ⟨.packet none, []⟩, q₂⟩] q₂ ∧
    ¬ Conserves [⟨sample, .call 0 (.enque 1) ⟨.done, []⟩, q₁⟩,
      ⟨q₁, .call 31 .deque ⟨.packet none, []⟩, q₂⟩] := by
  obtain ⟨q₁, q₂, hholds, hrun⟩ := run_thenDeque 31
  have hout : (Fifo.pop Item.due 31 [sample.stamped 0 1]).1.map Prod.fst = none := by
    decide +kernel
  rw [hout] at hrun
  refine ⟨q₁, q₂, hrun, not_conserves hrun (List.mem_cons_of_mem _ (List.mem_cons_self ..)) ?_⟩
  refine ⟨31, 1, rfl, hholds.queued_iff.mpr (by decide), ?_⟩
  show (q₁.contents (sample.stamped 0 1).1).ch.ts < 31
  rw [hholds.contents _ (List.mem_cons_self ..)]
  decide +kernel

theorem conserves_iff_oneReturned : ∃ q₁ q₂,
    Run [⟨sample, .call 0 (.enque 1) ⟨.done, []⟩, q₁⟩,
      ⟨q₁, .call 1 .deque ⟨.packet (some 1), []⟩, q₂⟩] q₂ ∧
    (Conserves [⟨sample, .call 0 (.enque 1) ⟨.done, []⟩, q₁⟩,
        ⟨q₁, .call 1 .deque ⟨.packet (some 1), []⟩, q₂⟩] ↔
      ∀ m ∈ [⟨sample, .call 0 (.enque 1) ⟨.done, []⟩, q₁⟩,
        ⟨q₁, .call 1 .deque ⟨.packet (some 1), []⟩, q₂⟩], ¬ FindsAged m) := by
  obtain ⟨q₁, q₂, -, hrun⟩ := run_thenDeque 1
  have hout : (Fifo.pop Item.due 1 [sample.stamped 0 1]).1.map Prod.fst = some 1 := by
    decide +kernel
  rw [hout] at hrun
  exact ⟨q₁, q₂, hrun, conserves_iff hrun⟩

end SendBuffer

end Eamrp
