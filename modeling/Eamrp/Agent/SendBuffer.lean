import Eamrp.Lib.Linked
import Eamrp.Lib.Fifo
import Eamrp.Lib.Exec
import Eamrp.Lib.Runs
import Eamrp.Model.SendBuffer

/-!
# The send buffer is a bounded queue

The links, the two pointers and the count of a send buffer represent one list of packets.
Every routine is specified by what it does to that list; the public calls are the operations
of a bounded queue with deadlines, whatever the clock shows at each of them.
-/

namespace Eamrp

open Lib

/-- The packet with the deadline `t`. -/
def Packet.withTs (p : Packet) (t : Time) : Packet := { p with ch := { p.ch with ts := t } }

/-- A packet in the buffer: its address and its content. -/
abbrev Item := Ptr × Packet

/-- When the time of a packet in the buffer is over. -/
def Item.due (x : Item) : Time := x.2.ch.ts

/-- Whom a packet in the buffer is for. -/
def Item.daddr (x : Item) : NsAddr := x.2.ih.daddr

/-- What `enque` gives to `drop` when `x` is pushed out. -/
def Item.dropped (now : Time) (x : Item) : Ptr × DropReason :=
  (x.1, if now < x.due then .qFull else .qTimeout)

namespace EamrpRqueue

/-- The packets of the simulation, without their links. -/
def contents (q : EamrpRqueue) (p : Ptr) : Packet := (q.mem p).packet

/-- The links of the simulation. -/
def next (q : EamrpRqueue) (p : Ptr) : Option Ptr := (q.mem p).next

/-- The packet `p` with the deadline that `enque` gives it. -/
def stamped (q : EamrpRqueue) (now : Time) (p : Ptr) : Item :=
  (p, (q.contents p).withTs (now + RQueue.timeout))

/-- The buffer holds the items `l`, oldest first. -/
structure Holds (q : EamrpRqueue) (l : List Item) : Prop where
  linked : Linked q.next q.head (l.map Prod.fst)
  tail : q.tail = (l.map Prod.fst).getLast?
  len : q.len = l.length
  contents : ∀ x ∈ l, q.contents x.1 = x.2

variable {q q' : EamrpRqueue} {l u v : List Item} {x : Item} {p : Ptr} {n : Nat} {now : Time}

/-! ### Writes to a packet -/

theorem contents_congr (h : q'.mem = q.mem) : q'.contents = q.contents := by
  funext r
  rw [contents, contents, h]

@[simp] theorem next_setNext (a : Option Ptr) :
    (q.setNext p a).next = Function.update q.next p a := by
  funext r
  by_cases hr : r = p
  · subst hr
    simp [next, setNext]
  · simp [next, setNext, hr]

@[simp] theorem contents_setNext (a : Option Ptr) : (q.setNext p a).contents = q.contents := by
  funext r
  by_cases hr : r = p
  · subst hr
    simp [contents, setNext]
  · simp [contents, setNext, hr]


@[simp] theorem next_setTs (t : Time) : (q.setTs p t).next = q.next := by
  funext r
  by_cases hr : r = p
  · subst hr
    simp [next, setTs]
  · simp [next, setTs, hr]

@[simp] theorem contents_setTs (t : Time) :
    (q.setTs p t).contents = Function.update q.contents p ((q.contents p).withTs t) := by
  funext r
  by_cases hr : r = p
  · subst hr
    simp [contents, setTs, Packet.withTs]
  · simp [contents, setTs, hr]

namespace Holds

/-- The list is determined by the buffer. -/
theorem unique {l' : List Item} (h : q.Holds l) (h' : q.Holds l') : l = l' := by
  have hptr := h.linked.unique h'.linked
  have hcanon : ∀ {m : List Item}, q.Holds m → m = (m.map Prod.fst).map fun p => (p, q.contents p) := by
    intro m hm
    rw [List.map_map]
    refine (List.map_id m).symm.trans (List.map_congr_left fun y hy => ?_)
    exact Prod.ext rfl (hm.contents y hy).symm
  rw [hcanon h, hcanon h', hptr]

theorem head (h : q.Holds l) : q.head = (l.map Prod.fst).head? := h.linked.head

/-- Writing packets outside the buffer keeps its list. -/
theorem frame (h : q.Holds l) (hhead : q'.head = q.head) (htail : q'.tail = q.tail)
    (hlen : q'.len = q.len) (hmem : ∀ r ∈ l.map Prod.fst, q'.mem r = q.mem r) : q'.Holds l where
  linked := by
    rw [hhead]
    refine h.linked.frame fun r hr => ?_
    rw [next, hmem r hr, next]
  tail := htail.trans h.tail
  len := hlen.trans h.len
  contents x hx := by
    rw [EamrpRqueue.contents, hmem x.1 (List.mem_map_of_mem hx)]
    exact h.contents x hx

end Holds

/-! ### Routines -/

/-- `remove_head` takes the first packet out; `head_ == tail_` when there is one at most. -/
theorem Holds.removeHead_ok (h : q.Holds l) :
    ∃ q', q.removeHead = .ok (l.head?.map Prod.fst, q') ∧ q'.Holds l.tail ∧
      q'.mem = q.mem := by
  cases l with
  | nil =>
    have hhead : q.head = none := h.head
    have htail : q.tail = none := h.tail
    refine ⟨{ q with head := none, tail := none }, ?_, ⟨rfl, rfl, h.len, by simp⟩, rfl⟩
    simp [removeHead, hhead, htail, pure, bind, Except.pure, Except.bind]
  | cons x l =>
    have hhead : q.head = some x.1 := h.head
    have hlen : q.len - 1 = l.length := by
      rw [h.len, List.length_cons]
      omega
    have hcontents : ∀ y ∈ l, q.contents y.1 = y.2 := fun y hy =>
      h.contents y (List.mem_cons_of_mem _ hy)
    by_cases hone : q.head = q.tail
    · -- the head is the tail of a list of one packet only
      have hl : l = [] := by
        have hlast : (x.1 :: l.map Prod.fst).getLast? = some x.1 := by
          rw [← List.map_cons, ← h.tail, ← hone, hhead]
        exact List.map_eq_nil_iff.mp (Linked.eq_nil_of_getLast? (u := []) h.linked hlast)
      subst hl
      refine ⟨{ q with head := none, tail := none, len := q.len - 1 }, ?_,
        ⟨rfl, rfl, hlen, by simp⟩, rfl⟩
      simp [removeHead, hhead, ← hone, pure, bind, Except.pure, Except.bind]
    · have hl : l ≠ [] := by
        rintro rfl
        exact hone (hhead.trans h.tail.symm)
      refine ⟨{ q with head := q.next x.1, len := q.len - 1 }, ?_, ⟨h.linked.2, ?_, hlen, hcontents⟩,
        rfl⟩
      · rw [hhead] at hone
        simp [removeHead, hhead, hone, deref, next, pure, bind, Except.pure, Except.bind]
      · show q.tail = _
        rw [h.tail, List.map_cons, List.getLast?_cons_of_ne_nil (by simpa using hl)]
        rfl

/-- A search goes through the list and stops at the first packet it looks for. -/
theorem search_ok (found : Packet → Bool) {a : Option Ptr} (prev : Option Ptr)
    (hl : Linked q.next a (l.map Prod.fst)) (hc : ∀ x ∈ l, q.contents x.1 = x.2) :
    ((∀ x ∈ l, found x.2 = false) ∧
      ∃ r, ∀ n, l.length < n → search q.mem found n a prev = .ok (none, r)) ∨
    ∃ u x v, l = u ++ x :: v ∧ (∀ y ∈ u, found y.2 = false) ∧ found x.2 = true ∧
      ∀ n, l.length < n →
        search q.mem found n a prev = .ok (some x.1, (u.map Prod.fst).getLast?.or prev) := by
  induction l generalizing a prev with
  | nil =>
    obtain rfl : a = none := hl
    refine .inl ⟨by simp, prev, fun n hn => ?_⟩
    obtain ⟨n, rfl⟩ := Nat.exists_eq_add_one.mpr hn
    rfl
  | cons x l ih =>
    obtain rfl : a = some x.1 := hl.1
    have hx : (q.mem x.1).packet = x.2 := hc x (List.mem_cons_self ..)
    cases hfound : found x.2 with
    | true =>
      refine .inr ⟨[], x, l, rfl, by simp, hfound, fun n hn => ?_⟩
      obtain ⟨n, rfl⟩ := Nat.exists_eq_add_one.mpr (Nat.zero_lt_of_lt hn)
      simp [search, hx, hfound]
    | false =>
      have hstep : ∀ n, search q.mem found (n + 1) (some x.1) prev =
          search q.mem found n (q.next x.1) (some x.1) := fun n => by
        simp [search, hx, hfound, next]
      rcases ih (some x.1) hl.2 (fun y hy => hc y (List.mem_cons_of_mem _ hy)) with
        ⟨hnone, r, hr⟩ | ⟨u, y, v, rfl, hu, hy, hr⟩
      · refine .inl ⟨List.forall_mem_cons.mpr ⟨hfound, hnone⟩, r, fun n hn => ?_⟩
        obtain ⟨n, rfl⟩ := Nat.exists_eq_add_one.mpr (Nat.zero_lt_of_lt hn)
        rw [hstep]
        exact hr n (Nat.lt_of_succ_lt_succ hn)
      · refine .inr ⟨x :: u, y, v, rfl, List.forall_mem_cons.mpr ⟨hfound, hu⟩, hy, fun n hn => ?_⟩
        obtain ⟨n, rfl⟩ := Nat.exists_eq_add_one.mpr (Nat.zero_lt_of_lt hn)
        rw [hstep, hr n (Nat.lt_of_succ_lt_succ hn), List.map_cons, List.getLast?_cons]
        cases (u.map Prod.fst).getLast? <;> rfl

private theorem countFrom_ok {ps : List Ptr} {a : Option Ptr} (prev : Option Ptr) (cnt : Int)
    (hl : Linked q.next a ps) (hn : ps.length < n) :
    countFrom q.mem n a prev cnt = .ok (ps.getLast?.or prev, cnt + ps.length) := by
  induction ps generalizing n a prev cnt with
  | nil =>
    obtain rfl : a = none := hl
    obtain ⟨n, rfl⟩ := Nat.exists_eq_add_one.mpr hn
    simp [countFrom]
  | cons p ps ih =>
    obtain ⟨n, rfl⟩ := Nat.exists_eq_add_one.mpr (Nat.zero_lt_of_lt hn)
    obtain rfl : a = some p := hl.1
    have hrest := ih (n := n) (some p) (cnt + 1) hl.2 (by simpa using hn)
    have hlast : (ps.getLast?.or (some p)) = (p :: ps).getLast?.or prev := by
      rw [List.getLast?_cons]
      cases ps.getLast? <;> rfl
    have hcnt : cnt + 1 + (ps.length : Int) = cnt + ((p :: ps).length : Nat) := by
      rw [List.length_cons]
      omega
    rw [hlast, hcnt] at hrest
    exact hrest

/-- The asserts of `verifyQueue` hold. -/
theorem Holds.verifyQueue_ok (h : q.Holds l) (hn : l.length < n) : q.verifyQueue n = .ok () := by
  have hcount := countFrom_ok none 0 h.linked (by simpa using hn)
  simp [verifyQueue, hcount, h.len, h.tail, assert, bind, Except.bind]

/-- The packet that stands behind the list `u` is unlinked. -/
theorem Holds.unlink_ok (h : q.Holds (u ++ x :: v)) :
    ∃ q', q.unlink x.1 (u.map Prod.fst).getLast? = .ok (some x.1, q') ∧ q'.Holds (u ++ v) ∧
      q'.contents = q.contents := by
  rcases List.eq_nil_or_concat' u with rfl | ⟨u, y, rfl⟩
  · obtain ⟨q', hq', hholds, hmem⟩ := h.removeHead_ok
    have hhead : q.head = some x.1 := h.head
    refine ⟨q', ?_, hholds, contents_congr hmem⟩
    simpa [unlink, hhead, bind, Except.bind, pure, Except.pure] using hq'
  · have hlink : Linked q.next q.head (u.map Prod.fst ++ y.1 :: x.1 :: v.map Prod.fst) := by
      simpa using h.linked
    have hnext : (q.mem y.1).next = some x.1 := hlink.suffix.2.1
    have hhead : q.head ≠ some x.1 := by
      have hnd := hlink.nodup
      rw [hlink.head]
      cases u <;> simp_all
    have hlen : q.len - 1 = (u ++ [y] ++ v).length := by
      rw [h.len]
      simp only [List.length_append, List.length_cons]
      omega
    have hcontents : ∀ z ∈ u ++ [y] ++ v, q.contents z.1 = z.2 := by
      intro z hz
      refine h.contents z ?_
      simp only [List.mem_append, List.mem_cons] at hz ⊢
      tauto
    have hshort : (u ++ [y] ++ v).map Prod.fst = u.map Prod.fst ++ y.1 :: v.map Prod.fst := by
      simp
    have hunlinked := hlink.unlink
    rw [List.map_append, List.map_singleton, List.getLast?_concat]
    by_cases hlast : q.tail = some x.1
    · have hv : v = [] := by
        rw [h.tail, List.map_append, List.map_cons] at hlast
        have hl := h.linked
        rw [List.map_append, List.map_cons] at hl
        exact List.map_eq_nil_iff.mp (hl.eq_nil_of_getLast? hlast)
      subst hv
      have hend : q.next x.1 = none := (hlink.suffix.2.2 : Linked _ _ [])
      rw [hend] at hunlinked
      refine ⟨{ (q.setNext y.1 none) with tail := some y.1, len := q.len - 1 }, ?_,
        ⟨?_, ?_, hlen, ?_⟩, contents_setNext none⟩
      · simp [unlink, hhead, hlast, hnext, deref, assert, bind, Except.bind, pure, Except.pure]
      · rw [hshort]
        show Linked (q.setNext y.1 none).next q.head _
        rwa [next_setNext]
      · simp
      · intro z hz
        show (q.setNext y.1 none).contents z.1 = z.2
        rw [contents_setNext]
        exact hcontents z hz
    · have hv : v ≠ [] := by
        rintro rfl
        rw [h.tail] at hlast
        simp at hlast
      refine ⟨{ (q.setNext y.1 (q.next x.1)) with len := q.len - 1 }, ?_, ⟨?_, ?_, hlen, ?_⟩,
        contents_setNext (q.next x.1)⟩
      · simp [unlink, hhead, hlast, hnext, deref, assert, next, bind, Except.bind, pure, Except.pure]
      · rw [hshort]
        show Linked (q.setNext y.1 (q.next x.1)).next q.head _
        rwa [next_setNext]
      · show q.tail = _
        obtain ⟨v, z, rfl⟩ := (List.eq_nil_or_concat' v).resolve_left hv
        rw [h.tail]
        simp [List.getLast?_append, List.getLast?_cons]
      · intro z hz
        show (q.setNext y.1 (q.next x.1)).contents z.1 = z.2
        rw [contents_setNext]
        exact hcontents z hz

/-- One turn of `purge`: it stops, or unlinks the first packet that has timed out. -/
theorem Holds.purge_turn (now : Time) (h : q.Holds l) :
    ((∀ x ∈ l, ¬ Item.due x < now) ∧
      ∀ n k, l.length < n → purgeLoop n now (k + 1) q = .ok q) ∨
    ∃ u x v q₁, l = u ++ x :: v ∧ (∀ y ∈ u, ¬ Item.due y < now) ∧ Item.due x < now ∧
      q.unlink x.1 (u.map Prod.fst).getLast? = .ok (some x.1, q₁) ∧
      q₁.Holds (u ++ v) ∧ q₁.contents = q.contents ∧
      ∀ n k, l.length < n → purgeLoop n now (k + 1) q = purgeLoop n now k q₁ := by
  rcases search_ok (fun p => decide (p.ch.ts < now)) none h.linked h.contents with
    ⟨hnone, r, hr⟩ | ⟨u, x, v, rfl, hu, hx, hr⟩
  · refine .inl ⟨fun x hx => by simpa [Item.due] using hnone x hx, fun n k hn => ?_⟩
    simp [purgeLoop, findAgedPacket, hr n hn, bind, Except.bind, pure, Except.pure]
  · simp only [Option.or_none] at hr
    obtain ⟨q₁, hq₁, hholds, hcont⟩ := h.unlink_ok
    refine .inr ⟨u, x, v, q₁, rfl, fun y hy => by simpa [Item.due] using hu y hy,
      by simpa [Item.due] using hx, hq₁, hholds, hcont, fun n k hn => ?_⟩
    have hlen : (u ++ v).length < (u ++ x :: v).length := by simp
    have hverify := hholds.verifyQueue_ok (hlen.trans hn)
    simp [purgeLoop, findAgedPacket, hr n hn, hq₁, hverify, bind, Except.bind, -List.getLast?_map]

private theorem purgeLoop_ok (now : Time) (h : q.Holds l) :
    ∃ q', (∀ n k, l.length < n → l.length < k → purgeLoop n now k q = .ok q') ∧
      q'.Holds (Fifo.live Item.due now l) ∧ q'.contents = q.contents := by
  induction hm : l.length using Nat.strong_induction_on generalizing q l with
  | _ m ih =>
    subst hm
    rcases h.purge_turn now with ⟨hnone, hstop⟩ | ⟨u, x, v, q₁, rfl, -, hx, -, hholds, hcont, hturn⟩
    · refine ⟨q, fun n k hn hk => ?_, (Fifo.live_eq_self hnone).symm ▸ h, rfl⟩
      obtain ⟨k, rfl⟩ := Nat.exists_eq_add_one.mpr (Nat.zero_lt_of_lt hk)
      exact hstop n k hn
    · have hlen : (u ++ v).length < (u ++ x :: v).length := by simp
      obtain ⟨q', hq', hlive, hcont'⟩ := ih _ hlen hholds rfl
      refine ⟨q', fun n k hn hk => ?_, (Fifo.live_append_cons hx).symm ▸ hlive, hcont'.trans hcont⟩
      obtain ⟨k, rfl⟩ := Nat.exists_eq_add_one.mpr (Nat.zero_lt_of_lt hk)
      rw [hturn n k hn]
      exact hq' n k (hlen.trans hn) (by omega)

/-- `purge` clears the packets that have timed out, wherever they are. -/
theorem Holds.purge_ok (now : Time) (h : q.Holds l) :
    ∃ q', (∀ n, l.length < n → q.purge n now = .ok q') ∧
      q'.Holds (Fifo.live Item.due now l) ∧ q'.contents = q.contents := by
  obtain ⟨q', hq', hlive, hcont⟩ := purgeLoop_ok now h
  exact ⟨q', fun n hn => hq' n n hn hn, hlive, hcont⟩

/-- `findPacketWithDst` finds the first packet for `dst` and the packet before it. -/
theorem Holds.findPacketWithDst_ok (dst : NsAddr) (h : q.Holds l) :
    ((∀ x ∈ l, (Item.daddr x == dst) = false) ∧
      ∃ r, ∀ n, l.length < n → q.findPacketWithDst n dst = .ok (none, r)) ∨
    ∃ u x v, l = u ++ x :: v ∧ (∀ y ∈ u, (Item.daddr y == dst) = false) ∧
      (Item.daddr x == dst) = true ∧
      ∀ n, l.length < n →
        q.findPacketWithDst n dst = .ok (some x.1, (u.map Prod.fst).getLast?) := by
  have hsearch := search_ok (fun p => p.ih.daddr == dst) none h.linked h.contents
  simp only [Option.or_none] at hsearch
  exact hsearch

/-! ### Calls -/

/-- `find` tells whether there is a packet for `dst`. -/
theorem Holds.find_ok (dst : NsAddr) (h : q.Holds l) (hn : l.length < n) :
    q.find n dst = .ok (⟨.found (Fifo.has Item.daddr dst l), []⟩, q) := by
  rcases h.findPacketWithDst_ok dst with ⟨hnone, r, hr⟩ | ⟨u, x, v, rfl, -, hx, hr⟩
  · have hhas : Fifo.has Item.daddr dst l = false := by
      rw [Fifo.has, List.any_eq_false]
      exact fun y hy => by simpa using hnone y hy
    simp [find, hr n hn, hhas, bind, Except.bind, pure, Except.pure]
  · have hhas : Fifo.has Item.daddr dst (u ++ x :: v) = true :=
      List.any_eq_true.mpr ⟨x, by simp, hx⟩
    simp [find, hr n hn, hhas, bind, Except.bind, pure, Except.pure]

/-- `deque()` takes the oldest packet out. -/
theorem Holds.deque_ok (now : Time) (h : q.Holds l) :
    ∃ q', (∀ n, l.length < n → q.deque n now =
        .ok (⟨.packet ((Fifo.pop Item.due now l).1.map Prod.fst), []⟩, q')) ∧
      q'.Holds (Fifo.pop Item.due now l).2 ∧ q'.contents = q.contents := by
  obtain ⟨q₁, hq₁, hlive, hcont₁⟩ := h.purge_ok now
  obtain ⟨q₂, hq₂, hholds, hmem⟩ := hlive.removeHead_ok
  refine ⟨q₂, fun n hn => ?_, hholds, (contents_congr hmem).trans hcont₁⟩
  have hshort := (Fifo.pop_sublist Item.due now l).length_le
  have hverify := hholds.verifyQueue_ok (Nat.lt_of_le_of_lt hshort hn)
  simp [deque, hq₁ n hn, hq₂, hverify, Fifo.pop, bind, Except.bind, pure, Except.pure]

/-- `deque(dst)` takes the oldest packet for `dst` out. -/
theorem Holds.dequeDst_ok (now : Time) (dst : NsAddr) (h : q.Holds l) :
    ∃ q', (∀ n, l.length < n → q.dequeDst n now dst =
        .ok (⟨.packet ((Fifo.popKey Item.due Item.daddr now dst l).1.map Prod.fst), []⟩, q')) ∧
      q'.Holds (Fifo.popKey Item.due Item.daddr now dst l).2 ∧ q'.contents = q.contents := by
  obtain ⟨q₁, hq₁, hlive, hcont₁⟩ := h.purge_ok now
  have hle := (Fifo.live_sublist Item.due now l).length_le
  rcases hlive.findPacketWithDst_ok dst with ⟨hnone, r, hr⟩ | ⟨u, x, v, hl, hu, hx, hr⟩
  · have hpop : Fifo.popKey Item.due Item.daddr now dst l = (none, Fifo.live Item.due now l) := by
      refine Prod.ext (List.find?_eq_none.mpr fun y hy => ?_)
        (List.eraseP_of_forall_not fun y hy => ?_)
      · simp [hnone y hy]
      · simp [hnone y hy]
    refine ⟨q₁, fun n hn => ?_, hpop.symm ▸ hlive, hcont₁⟩
    simp [dequeDst, hq₁ n hn, hr n (Nat.lt_of_le_of_lt hle hn), hpop, bind, Except.bind, pure,
      Except.pure]
  · have hpop : Fifo.popKey Item.due Item.daddr now dst l = (some x, u ++ v) := by
      unfold Fifo.popKey
      rw [hl]
      refine Prod.ext ?_ ?_
      · exact List.find?_eq_some_iff_append.mpr ⟨hx, u, v, rfl, fun y hy => by simp [hu y hy]⟩
      · show (u ++ x :: v).eraseP _ = u ++ v
        rw [List.eraseP_append_right _ (fun y hy => by simp [hu y hy]),
          List.eraseP_cons_of_pos (p := fun y => Item.daddr y == dst) hx]
    have hshort : (u ++ v).length < (Fifo.live Item.due now l).length := by
      rw [hl]
      simp
    rw [hl] at hlive
    obtain ⟨q₂, hq₂, hholds, hcont₂⟩ := hlive.unlink_ok
    refine ⟨q₂, fun n hn => ?_, hpop.symm ▸ hholds, hcont₂.trans hcont₁⟩
    have hn₁ := Nat.lt_of_le_of_lt hle hn
    have hverify := hholds.verifyQueue_ok (hshort.trans hn₁)
    simp [dequeDst, hq₁ n hn, hr n hn₁, hq₂, hverify, hpop, bind, Except.bind, pure, Except.pure,
      -List.getLast?_map]

private theorem Holds.makeRoom_ok (now : Time) (h : q.Holds l) :
    ∃ q', q.makeRoom now = .ok (if l.length = RQueue.limit then
        (l.head?.map (Item.dropped now)).toList else [], q') ∧
      q'.Holds (if l.length = RQueue.limit then l.tail else l) ∧ q'.mem = q.mem := by
  have hlen : q.len = RQueue.limit ↔ l.length = RQueue.limit := by
    rw [h.len]
    omega
  by_cases hfull : l.length = RQueue.limit
  · obtain ⟨q', hq', hholds, hmem⟩ := h.removeHead_ok
    rw [if_pos hfull, if_pos hfull]
    refine ⟨q', ?_, hholds, hmem⟩
    cases l with
    | nil => exact absurd hfull (by decide)
    | cons x l =>
      have hx : (q'.mem x.1).packet = x.2 := by
        rw [hmem]
        exact h.contents x (List.mem_cons_self ..)
      simp [makeRoom, hlen.mpr hfull, hq', hx, Item.dropped, Item.due, bind, Except.bind, pure,
        Except.pure]
      rfl
  · rw [if_neg hfull, if_neg hfull]
    refine ⟨q, ?_, h, rfl⟩
    simp [makeRoom, mt hlen.mp hfull, pure, Except.pure]

private theorem Holds.linkTail_ok (h : q.Holds l) (hp : p ∉ l.map Prod.fst)
    (hend : q.next p = none) :
    ∃ q', q.linkTail p = .ok q' ∧ q'.Holds (l ++ [(p, q.contents p)]) ∧
      q'.contents = q.contents := by
  rcases List.eq_nil_or_concat' l with rfl | ⟨l, y, rfl⟩
  · have hhead : q.head = none := h.head
    have hlen : q.len + 1 = 1 := by
      rw [h.len]
      rfl
    refine ⟨{ q with head := some p, tail := some p, len := q.len + 1 }, ?_,
      ⟨⟨rfl, hend⟩, rfl, hlen, ?_⟩, rfl⟩
    · simp [linkTail, hhead, bind, Except.bind, pure, Except.pure]
    · intro z hz
      obtain rfl := List.mem_singleton.mp hz
      rfl
  · have hhead : q.head ≠ none := by
      rw [h.head]
      simp
    have htail : q.tail = some y.1 := by
      rw [h.tail]
      simp
    have hlink : Linked q.next q.head (l.map Prod.fst ++ [y.1]) := by
      simpa using h.linked
    have happend := hlink.append (by simpa using hp) hend
    refine ⟨{ (q.setNext y.1 (some p)) with tail := some p, len := q.len + 1 }, ?_,
      ⟨?_, ?_, ?_, ?_⟩, contents_setNext (some p)⟩
    · simp [linkTail, hhead, htail, deref, setNext, bind, Except.bind, pure, Except.pure]
    · show Linked (q.setNext y.1 (some p)).next q.head _
      rw [next_setNext]
      simpa using happend
    · simp
    · show q.len + 1 = _
      rw [h.len]
      simp only [List.length_append, List.length_singleton]
      omega
    · intro z hz
      show (q.setNext y.1 (some p)).contents z.1 = z.2
      rw [contents_setNext]
      rcases List.mem_append.mp hz with hz | hz
      · exact h.contents z hz
      · obtain rfl := List.mem_singleton.mp hz
        rfl

/-- `enque` is the entry of a stamped packet. -/
theorem Holds.enque_ok (now : Time) (h : q.Holds l) (hp : p ∉ l.map Prod.fst)
    (hlim : l.length ≤ RQueue.limit) :
    ∃ q', (∀ n, RQueue.limit < n → q.enque n now p =
        .ok (⟨.done, ((Fifo.push Item.due RQueue.limit now (q.stamped now p)
          l).2.map (Item.dropped now)).toList⟩, q')) ∧
      q'.Holds (Fifo.push Item.due RQueue.limit now (q.stamped now p) l).1 ∧
      q'.contents = Function.update q.contents p (q.stamped now p).2 := by
  obtain ⟨q₁, hq₁, hlive, hcont₁⟩ := h.purge_ok now
  have hp₁ : p ∉ (Fifo.live Item.due now l).map Prod.fst := fun hm =>
    hp (((Fifo.live_sublist Item.due now l).map Prod.fst).subset hm)
  -- writing the links and the deadline of a packet outside the buffer
  generalize hq₂ : (q₁.setNext p none).setTs p (now + RQueue.timeout) = q₂
  have hnext₂ : q₂.next = Function.update q₁.next p none := by
    rw [← hq₂, next_setTs, next_setNext]
  have hcont₂ : q₂.contents = Function.update q.contents p (q.stamped now p).2 := by
    rw [← hq₂, contents_setTs, contents_setNext, hcont₁]
    rfl
  have hlive₂ : q₂.Holds (Fifo.live Item.due now l) := by
    subst hq₂
    refine hlive.frame rfl rfl rfl fun r hr => ?_
    have hne : r ≠ p := ne_of_mem_of_not_mem hr hp₁
    simp [setTs, setNext, hne]
  obtain ⟨q₃, hq₃, hroom, hmem₃⟩ := hlive₂.makeRoom_ok now
  have hnext₃ : q₃.next p = none := by
    rw [next, hmem₃, ← next, hnext₂, Function.update_self]
  have hcont₃ : q₃.contents = q₂.contents := contents_congr hmem₃
  generalize hl₃ : (if (Fifo.live Item.due now l).length = RQueue.limit then
    (Fifo.live Item.due now l).tail else Fifo.live Item.due now l) = l₃ at hroom
  have hp₃ : p ∉ l₃.map Prod.fst := by
    intro hm
    have hsub : l₃.Sublist (Fifo.live Item.due now l) := by
      rw [← hl₃]
      split
      · exact List.tail_sublist _
      · exact .refl _
    exact hp₁ ((hsub.map Prod.fst).subset hm)
  obtain ⟨q₄, hq₄, hholds, hcont₄⟩ := hroom.linkTail_ok hp₃ hnext₃
  have hitem : (p, q₃.contents p) = q.stamped now p := by
    rw [hcont₃, hcont₂, Function.update_self]
    rfl
  rw [hitem] at hholds
  have hpush : Fifo.push Item.due RQueue.limit now (q.stamped now p) l =
      (l₃ ++ [q.stamped now p], if (Fifo.live Item.due now l).length = RQueue.limit then
        (Fifo.live Item.due now l).head? else none) := by
    rw [Fifo.push, ← hl₃]
    split <;> rfl
  have hbound : (l₃ ++ [q.stamped now p]).length ≤ RQueue.limit := by
    have hle := Fifo.push_length_le Item.due now (q.stamped now p) hlim (by decide)
    rwa [hpush] at hle
  rw [hpush]
  refine ⟨q₄, fun n hn => ?_, hholds, hcont₄.trans (hcont₃.trans hcont₂)⟩
  have hverify := hholds.verifyQueue_ok (Nat.lt_of_le_of_lt hbound hn)
  simp only [enque, hq₁ n (Nat.lt_of_le_of_lt hlim hn), hq₂, hq₃, hq₄, hverify, bind, Except.bind, pure, Except.pure]
  split <;> rfl

/-! ### Runs -/

/-- The call of a bounded queue with deadlines: what it hands out, and the list it leaves. -/
def fifoCall (q : EamrpRqueue) (now : Time) (l : List Item) : Call → Outcome × List Item
  | .enque p =>
    let r := Fifo.push Item.due RQueue.limit now (q.stamped now p) l
    (⟨.done, (r.2.map (Item.dropped now)).toList⟩, r.1)
  | .deque =>
    let r := Fifo.pop Item.due now l
    (⟨.packet (r.1.map Prod.fst), []⟩, r.2)
  | .dequeDst dst =>
    let r := Fifo.popKey Item.due Item.daddr now dst l
    (⟨.packet (r.1.map Prod.fst), []⟩, r.2)
  | .find dst => (⟨.found (Fifo.has Item.daddr dst l), []⟩, l)

/-- A packet is in the buffer. -/
def Queued (q : EamrpRqueue) (p : Ptr) : Prop := ∃ ps, Linked q.next q.head ps ∧ p ∈ ps

/-- No packet enters the buffer while it is there. -/
def Admits (q : EamrpRqueue) (c : Call) : Prop := ∀ p, c = .enque p → ¬ q.Queued p

theorem Holds.queued_iff (h : q.Holds l) : q.Queued p ↔ p ∈ l.map Prod.fst := by
  constructor
  · rintro ⟨ps, hps, hp⟩
    exact h.linked.unique hps ▸ hp
  · intro hp
    exact ⟨_, h.linked, hp⟩

/-- Writing one packet outside the buffer keeps its list. -/
theorem Holds.write (h : q.Holds l) (hp : ¬ q.Queued p) (cell : Cell) :
    { q with mem := Function.update q.mem p cell }.Holds l := by
  refine h.frame rfl rfl rfl fun r hr => ?_
  exact Function.update_of_ne (ne_of_mem_of_not_mem hr (mt h.queued_iff.mpr hp)) _ _

/-- Every call is the call of a bounded queue with deadlines. -/
theorem Holds.call_ok (now : Time) (c : Call) (h : q.Holds l) (hlim : l.length ≤ RQueue.limit)
    (hc : q.Admits c) :
    ∃ q', (∀ n, RQueue.limit < n → q.call n now c = .ok ((q.fifoCall now l c).1, q')) ∧
      q'.Holds (q.fifoCall now l c).2 ∧
      ∀ p, q'.contents p = if c = .enque p then (q.stamped now p).2 else q.contents p := by
  cases c with
  | enque p =>
    have hp : p ∉ l.map Prod.fst := fun hm => hc p rfl (h.queued_iff.mpr hm)
    obtain ⟨q', hq', hholds, hcont⟩ := h.enque_ok now hp hlim
    refine ⟨q', hq', hholds, fun r => ?_⟩
    rw [hcont]
    by_cases hr : r = p
    · subst hr
      rw [Function.update_self, if_pos rfl]
    · rw [Function.update_of_ne hr, if_neg (by simpa using Ne.symm hr)]
  | deque =>
    obtain ⟨q', hq', hholds, hcont⟩ := h.deque_ok now
    exact ⟨q', fun n hn => hq' n (Nat.lt_of_le_of_lt hlim hn), hholds, fun r => by simp [hcont]⟩
  | dequeDst dst =>
    obtain ⟨q', hq', hholds, hcont⟩ := h.dequeDst_ok now dst
    exact ⟨q', fun n hn => hq' n (Nat.lt_of_le_of_lt hlim hn), hholds, fun r => by simp [hcont]⟩
  | find dst =>
    exact ⟨q, fun n hn => h.find_ok dst (Nat.lt_of_le_of_lt hlim hn), h, fun r => by simp⟩

/-- A bounded queue stays within its limit. -/
theorem fifoCall_length_le (now : Time) (c : Call) (hlim : l.length ≤ RQueue.limit) :
    (q.fifoCall now l c).2.length ≤ RQueue.limit := by
  cases c with
  | enque p => exact Fifo.push_length_le Item.due now (q.stamped now p) hlim (by decide)
  | deque => exact (Fifo.pop_sublist Item.due now l).length_le.trans hlim
  | dequeDst dst => exact (Fifo.popKey_sublist Item.due Item.daddr now dst l).length_le.trans hlim
  | find dst => exact hlim

/-- A call leaves a part of the list, with the packet it brings in at the back. -/
theorem fifoCall_sublist (q : EamrpRqueue) (now : Time) (l : List Item) (c : Call) :
    (q.fifoCall now l c).2.Sublist l ∨
    ∃ p m, c = .enque p ∧ m.Sublist l ∧ (q.fifoCall now l c).2 = m ++ [q.stamped now p] := by
  cases c with
  | enque p =>
    obtain ⟨m, hm, hpush⟩ := Fifo.push_eq_append Item.due RQueue.limit now (q.stamped now p) l
    exact .inr ⟨p, m, rfl, hm, hpush⟩
  | deque => exact .inl (Fifo.pop_sublist Item.due now l)
  | dequeDst dst => exact .inl (Fifo.popKey_sublist Item.due Item.daddr now dst l)
  | find dst => exact .inl (.refl l)

end EamrpRqueue

namespace SendBuffer

/-- What happens to a send buffer. -/
inductive Event where
  /-- A call at the clock value `now`, with what it hands out. -/
  | call (now : Time) (c : Call) (o : Outcome)
  /-- The rest of the simulation writes a packet. -/
  | write (p : Ptr) (cell : Cell)

/-- A send buffer after its constructor. -/
structure Fresh (q : EamrpRqueue) : Prop where
  head : q.head = none
  tail : q.tail = none
  len : q.len = 0

/-- A call returns when enough turns of its loops lead to the same end. Packets in the buffer
are left alone by everything else. -/
inductive Happens : EamrpRqueue → Event → EamrpRqueue → Prop where
  | call {q q' : EamrpRqueue} {now : Time} {c : Call} {o : Outcome} (hadm : q.Admits c)
      (h : ∃ N, ∀ n, N ≤ n → q.call n now c = .ok (o, q')) : Happens q (.call now c o) q'
  | write {q : EamrpRqueue} {p : Ptr} {cell : Cell} (hp : ¬ q.Queued p) :
      Happens q (.write p cell) { q with mem := Function.update q.mem p cell }

/-- The runs of a send buffer: any calls at any clock values. -/
def Run (t : List (Move EamrpRqueue Event)) (q : EamrpRqueue) : Prop := Lib.Run Fresh Happens t q

variable {q q' : EamrpRqueue} {l : List Item} {now : Time} {c : Call} {o : Outcome}

/-- A call that happens is the call of the bounded queue. -/
theorem Happens.call_eq (h : Happens q (.call now c o) q') (hl : q.Holds l)
    (hlim : l.length ≤ RQueue.limit) :
    o = (q.fifoCall now l c).1 ∧ q'.Holds (q.fifoCall now l c).2 := by
  cases h with
  | call hadm h =>
    obtain ⟨N, hN⟩ := h
    obtain ⟨q₁, hq₁, hholds, -⟩ := hl.call_ok now c hlim hadm
    have heq := (hN (max N (RQueue.limit + 1)) (Nat.le_max_left ..)).symm.trans
      (hq₁ _ (Nat.lt_of_lt_of_le (Nat.lt_succ_self _) (Nat.le_max_right ..)))
    obtain ⟨rfl, rfl⟩ := Prod.mk.inj (Except.ok.inj heq)
    exact ⟨rfl, hholds⟩

/-- In every run the buffer holds a list within the limit. -/
theorem Run.holds {t : List (Move EamrpRqueue Event)} (h : Run t q) :
    ∃ l, q.Holds l ∧ l.length ≤ RQueue.limit := by
  induction h with
  | start h => exact ⟨[], ⟨h.head, h.tail, h.len, by simp⟩, Nat.zero_le _⟩
  | move _ hs ih =>
    obtain ⟨l, hl, hlim⟩ := ih
    cases hs with
    | @call _ now c o hadm h =>
      exact ⟨_, ((Happens.call hadm h).call_eq hl hlim).2,
        EamrpRqueue.fifoCall_length_le now c hlim⟩
    | write hp => exact ⟨l, hl.write hp _, hlim⟩

/-- After any calls at any clock values the links, the pointers and the count represent one
list of at most `limit_` packets, and every further call returns without a failed assert and
acts on that list as the call of a bounded queue with deadlines; the only packet it writes, but
for links, is the one that enters. -/
theorem send_buffer_refines {t : List (Move EamrpRqueue Event)} (h : Run t q) :
    ∃ l, q.Holds l ∧ l.length ≤ RQueue.limit ∧ ∀ now c, q.Admits c →
      ∃ q', (∀ n, RQueue.limit < n → q.call n now c = .ok ((q.fifoCall now l c).1, q')) ∧
        q'.Holds (q.fifoCall now l c).2 ∧
        ∀ p, q'.contents p = if c = .enque p then (q.stamped now p).2 else q.contents p := by
  obtain ⟨l, hl, hlim⟩ := h.holds
  exact ⟨l, hl, hlim, fun now c hc => hl.call_ok now c hlim hc⟩

/-! ### Playing a list of calls -/

/-- What a call hands out and the buffer after it; a fault leaves the buffer as it is. -/
def after (q : EamrpRqueue) (now : Time) (c : Call) : Outcome × EamrpRqueue :=
  match q.call (RQueue.limit + 1) now c with
  | .ok r => r
  | .error _ => (⟨.done, []⟩, q)

/-- The moves of a list of calls. -/
def moves (q : EamrpRqueue) : List (Time × Call) → List (Move EamrpRqueue Event)
  | [] => []
  | (now, c) :: cs =>
    ⟨q, .call now c (after q now c).1, (after q now c).2⟩ :: moves (after q now c).2 cs

/-- The buffer after a list of calls. -/
def final (q : EamrpRqueue) : List (Time × Call) → EamrpRqueue
  | [] => q
  | (now, c) :: cs => final (after q now c).2 cs

/-- The packet that a call brings in. -/
def enters : Call → List Ptr
  | .enque p => [p]
  | _ => []

/-- A call that the buffer admits happens when it is played. -/
theorem happens_after (now : Time) (hl : q.Holds l) (hlim : l.length ≤ RQueue.limit)
    (hc : q.Admits c) : Happens q (.call now c (after q now c).1) (after q now c).2 := by
  obtain ⟨q', hq', -, -⟩ := hl.call_ok now c hlim hc
  have hafter : after q now c = ((q.fifoCall now l c).1, q') := by
    rw [after, hq' _ (Nat.lt_succ_self _)]
  rw [hafter]
  exact .call hc ⟨RQueue.limit + 1, fun n hn => hq' n hn⟩

/-- Every call that the buffer admits happens. -/
theorem exists_call (now : Time) (c : Call) (hl : q.Holds l) (hlim : l.length ≤ RQueue.limit)
    (hc : q.Admits c) :
    ∃ q', Happens q (.call now c (q.fifoCall now l c).1) q' ∧ q'.Holds (q.fifoCall now l c).2 := by
  have hstep := happens_after now hl hlim hc
  obtain ⟨hout, hholds⟩ := hstep.call_eq hl hlim
  rw [hout] at hstep
  exact ⟨_, hstep, hholds⟩

/-- Whatever is in the buffer after a call was there before or comes in. -/
theorem Happens.queued {p : Ptr} (h : Happens q (.call now c o) q') (hl : q.Holds l)
    (hlim : l.length ≤ RQueue.limit) (hp : q'.Queued p) : q.Queued p ∨ p ∈ enters c := by
  obtain ⟨-, hholds⟩ := h.call_eq hl hlim
  have hmem := hholds.queued_iff.mp hp
  rw [hl.queued_iff]
  rcases q.fifoCall_sublist now l c with hsub | ⟨r, m, rfl, hsub, heq⟩
  · exact .inl ((hsub.map Prod.fst).subset hmem)
  · rw [heq, List.map_append] at hmem
    exact (List.mem_append.mp hmem).imp_left fun hm => (hsub.map Prod.fst).subset hm

/-- Calls by which no packet enters twice continue a run. -/
theorem run_of_fresh {t : List (Move EamrpRqueue Event)} {cs : List (Time × Call)} (h : Run t q)
    (hnodup : (cs.flatMap fun x => enters x.2).Nodup)
    (hnew : ∀ p ∈ cs.flatMap fun x => enters x.2, ¬ q.Queued p) :
    Run (t ++ moves q cs) (final q cs) := by
  induction cs generalizing t q with
  | nil => simpa [moves, final] using h
  | cons x cs ih =>
    obtain ⟨now, c⟩ := x
    rw [List.flatMap_cons] at hnodup hnew
    obtain ⟨l, hl, hlim⟩ := h.holds
    have hadm : q.Admits c := by
      rintro p rfl
      exact hnew p (List.mem_append_left _ (List.mem_singleton_self p))
    have hstep := happens_after now hl hlim hadm
    have hrest := ih (h.move hstep) (List.nodup_append.mp hnodup).2.1 fun p hp hq => by
      rcases hstep.queued hl hlim hq with hq | hc
      · exact hnew p (List.mem_append_right _ hp) hq
      · exact List.disjoint_of_nodup_append hnodup hc hp
    simpa [moves, final] using hrest

/-- A fresh buffer among data packets for the nodes 5 and 6. -/
def twoFlows : EamrpRqueue :=
  { mem := fun p => { packet := { ih := { daddr := if p % 2 = 1 then 5 else 6 }, body := .app true } } }

/-- The packet for node 6 is taken out from between the packets for node 5, and another one is
in the buffer when the last one for node 5 has timed out. -/
def flowCalls : List (Time × Call) :=
  [(0, .enque 1), (1, .enque 2), (2, .enque 3), (3, .find 6), (4, .dequeDst 6), (5, .enque 4),
    (6, .deque), (33, .enque 5), (34, .dequeDst 7)]

theorem run_twoFlows : Run (moves twoFlows flowCalls) (final twoFlows flowCalls) := by
  have hstart : Run [] twoFlows := .start ⟨rfl, rfl, rfl⟩
  have hnone : ∀ p, ¬ twoFlows.Queued p := by
    rintro p ⟨ps, hps, hp⟩
    cases ps with
    | nil => cases hp
    | cons r ps => cases hps.1
  have hrun : Run ([] ++ moves twoFlows flowCalls) (final twoFlows flowCalls) :=
    run_of_fresh hstart (by decide) fun p _ => hnone p
  exact hrun

example : (moves twoFlows flowCalls).map (fun m => m.tgt.head) =
    [some 1, some 1, some 1, some 1, some 1, some 1, some 3, some 4, some 4] := by decide +kernel

theorem send_buffer_refines_twoFlows :
    Run (moves twoFlows flowCalls) (final twoFlows flowCalls) ∧
    ∃ l, (final twoFlows flowCalls).Holds l ∧ l.length ≤ RQueue.limit ∧
      ∀ now c, (final twoFlows flowCalls).Admits c →
        ∃ q', (∀ n, RQueue.limit < n → (final twoFlows flowCalls).call n now c =
            .ok (((final twoFlows flowCalls).fifoCall now l c).1, q')) ∧
          q'.Holds ((final twoFlows flowCalls).fifoCall now l c).2 ∧
          ∀ p, q'.contents p = if c = .enque p then ((final twoFlows flowCalls).stamped now p).2
            else (final twoFlows flowCalls).contents p :=
  ⟨run_twoFlows, send_buffer_refines run_twoFlows⟩

end SendBuffer

/-! ### The buffer of the agent -/

namespace RQueue

variable {r : RQueue} {now : Time} {dst : NsAddr}

/-- When the time of a buffered packet is over. -/
def due (p : AppPacket) : Time := p.val.ch.ts

/-- Whom a buffered packet is for. -/
def daddr (p : AppPacket) : NsAddr := p.val.ih.daddr

/-- What `enque` gives to `drop` when `p` is pushed out. -/
def dropped (now : Time) (p : AppPacket) : AppPacket × DropReason :=
  (p, if now < due p then .qFull else .qTimeout)

/-- `enque` of the agent's buffer is the entry of a stamped packet. -/
theorem enque_eq (now : Time) (a : AppPacket) (r : RQueue) :
    r.enque now a =
      ((Fifo.push due limit now (a.withCmn { a.val.ch with ts := now + timeout }) r).1,
        ((Fifo.push due limit now (a.withCmn { a.val.ch with ts := now + timeout }) r).2.map
          (dropped now)).toList) := by
  have hlive : Fifo.live due now r = r.purge now := rfl
  unfold enque Fifo.push
  rw [hlive]
  by_cases hfull : (r.purge now).length = limit
  · cases hr : r.purge now with
    | nil =>
      rw [hr] at hfull
      exact absurd hfull (by decide)
    | cons p0 r' =>
      rw [hr] at hfull
      simp only [if_pos hfull]
      rfl
  · simp only [if_neg hfull]
    rfl

/-- `deque(dst)` of the agent's buffer takes the oldest packet for `dst` out. -/
theorem deque_eq (now : Time) (dst : NsAddr) (r : RQueue) :
    r.deque now dst = Fifo.popKey due daddr now dst r := rfl

/-- `find` of the agent's buffer tells whether there is a packet for `dst`. -/
theorem find_eq (dst : NsAddr) (r : RQueue) : r.find dst = Fifo.has daddr dst r := rfl

end RQueue

namespace EamrpRqueue

variable {q : EamrpRqueue} {l : List Item} {r : RQueue} {now : Time} {dst : NsAddr} {p : Ptr}

/-- The buffer in memory holds the packets of the agent's buffer. -/
def Shows (q : EamrpRqueue) (r : RQueue) : Prop :=
  ∃ l, q.Holds l ∧ l.map Prod.snd = r.map Subtype.val

/-- `enque` of the agent's buffer is `enque` of the buffer in memory. -/
theorem Shows.enque (now : Time) (h : q.Shows r) {a : AppPacket} (hr : r.length ≤ RQueue.limit)
    (hp : ¬ q.Queued p) (ha : q.contents p = a.val) :
    ∃ o q', (∀ n, RQueue.limit < n → q.enque n now p = .ok (⟨.done, o⟩, q')) ∧
      q'.Shows (r.enque now a).1 ∧
      o.map (fun d => (q.contents d.1, d.2)) =
        (r.enque now a).2.map (fun d => (d.1.val, d.2)) := by
  obtain ⟨l, hl, hlr⟩ := h
  have hlen : l.length = r.length := by
    simpa using congrArg List.length hlr
  obtain ⟨q', hq', hholds, -⟩ := hl.enque_ok now (mt hl.queued_iff.mpr hp) (hlen ▸ hr)
  have hitem : (q.stamped now p).2 =
      (a.withCmn { a.val.ch with ts := now + RQueue.timeout }).val := by
    rw [stamped, ha]
    rfl
  -- both buffers are the queue of the packets
  have hl' := Fifo.push_map (fun p : Packet => p.ch.ts) RQueue.limit now Prod.snd
    (q.stamped now p) l
  have hr' := Fifo.push_map (fun p : Packet => p.ch.ts) RQueue.limit now Subtype.val
    (a.withCmn { a.val.ch with ts := now + RQueue.timeout }) r
  rw [hlr, hitem, hr'] at hl'
  have hout : (Fifo.push RQueue.due RQueue.limit now
      (a.withCmn { a.val.ch with ts := now + RQueue.timeout }) r).2.map Subtype.val =
      (Fifo.push Item.due RQueue.limit now (q.stamped now p) l).2.map Prod.snd :=
    (Prod.mk.inj hl').2
  rw [RQueue.enque_eq]
  refine ⟨_, q', hq', ⟨_, hholds, (Prod.mk.inj hl').1.symm⟩, ?_⟩
  generalize hy : (Fifo.push Item.due RQueue.limit now (q.stamped now p) l).2 = y at hout ⊢
  generalize (Fifo.push RQueue.due RQueue.limit now
    (a.withCmn { a.val.ch with ts := now + RQueue.timeout }) r).2 = b at hout ⊢
  let drop := fun p : Packet => (p, if now < p.ch.ts then DropReason.qFull else .qTimeout)
  calc (y.map (Item.dropped now)).toList.map (fun d => (q.contents d.1, d.2))
    _ = ((y.map Prod.snd).map drop).toList := by
      cases y with
      | none => rfl
      | some y =>
        show [(q.contents y.1, _)] = [drop y.2]
        rw [hl.contents y (Fifo.mem_of_push hy)]
        rfl
    _ = ((b.map Subtype.val).map drop).toList := by rw [hout]
    _ = (b.map (RQueue.dropped now)).toList.map (fun d => (d.1.val, d.2)) := by
      cases b <;> rfl

/-- `deque(dst)` of the agent's buffer is `deque(dst)` of the buffer in memory. -/
theorem Shows.dequeDst (now : Time) (dst : NsAddr) (h : q.Shows r) :
    ∃ p q', (∀ n, r.length < n → q.dequeDst n now dst = .ok (⟨.packet p, []⟩, q')) ∧
      q'.Shows (r.deque now dst).2 ∧
      p.map q.contents = (r.deque now dst).1.map Subtype.val := by
  obtain ⟨l, hl, hlr⟩ := h
  have hlen : l.length = r.length := by
    simpa using congrArg List.length hlr
  obtain ⟨q', hq', hholds, -⟩ := hl.dequeDst_ok now dst
  have hl' := Fifo.popKey_map (fun p : Packet => p.ch.ts) (fun p : Packet => p.ih.daddr) now dst
    Prod.snd l
  have hr' := Fifo.popKey_map (fun p : Packet => p.ch.ts) (fun p : Packet => p.ih.daddr) now dst
    Subtype.val r
  rw [hlr, hr'] at hl'
  refine ⟨_, q', fun n hn => hq' n (hlen ▸ hn), ⟨_, hholds, (Prod.mk.inj hl').2.symm⟩, ?_⟩
  calc Option.map q.contents ((Fifo.popKey Item.due Item.daddr now dst l).1.map Prod.fst)
    _ = (Fifo.popKey Item.due Item.daddr now dst l).1.map (fun y => q.contents y.1) := by
      rw [Option.map_map]
      rfl
    _ = (Fifo.popKey Item.due Item.daddr now dst l).1.map Prod.snd :=
      Option.map_congr fun y hy => hl.contents y (Fifo.mem_of_popKey hy)
    _ = (r.deque now dst).1.map Subtype.val := by
      rw [RQueue.deque_eq]
      exact (Prod.mk.inj hl').1.symm

/-- `find` of the agent's buffer is `find` of the buffer in memory. -/
theorem Shows.find (dst : NsAddr) (h : q.Shows r) {n : Nat} (hn : r.length < n) :
    q.find n dst = .ok (⟨.found (r.find dst), []⟩, q) := by
  obtain ⟨l, hl, hlr⟩ := h
  have hlen : l.length = r.length := by
    simpa using congrArg List.length hlr
  have hl' := Fifo.has_map (fun p : Packet => p.ih.daddr) dst Prod.snd l
  have hr' := Fifo.has_map (fun p : Packet => p.ih.daddr) dst Subtype.val r
  rw [hlr, hr'] at hl'
  rw [hl.find_ok dst (hlen ▸ hn), RQueue.find_eq]
  exact congrArg (fun b => Except.ok (Outcome.mk (.found b) [], q)) hl'.symm

end EamrpRqueue

end Eamrp
