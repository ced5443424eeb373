import Eamrp.Net.Discipline

/-!
# The numbers in a table advance

The number of an entry is written when a newer one is heard, and when the last path to the
destination is lost: to a neighbour, to time or to a RERR. None of these writes takes it back,
and none of the additions on the way wraps.
-/

namespace Eamrp

open Lib Relation

namespace RtEntry

/-- What the writes to the number of an entry that is up come to. -/
structure Advances (inf : Infinity) (e : RtEntry) : Prop where
  /-- `rt_seqno++`, lines 411 and 572. -/
  next : e.rtSeqno.toNat + 1 < 2 ^ 32
  /-- The `rt_seqno += 1` of line 574, which is for even numbers. -/
  odd : macroMax (e.rtSeqno + 1) e.rtHighestSeqnoHeard % 2 = 0 →
    (macroMax (e.rtSeqno + 1) e.rtHighestSeqnoHeard).toNat + 1 < 2 ^ 32
  failed : e.rtSeqno < (e.failed inf).rtSeqno
  expired : e.rtSeqno < (e.expired inf).rtSeqno
  /-- Line 1234, after a RERR with a number that is not older. -/
  withdrawn : ∀ n, e.rtSeqno ≤ n → e.rtSeqno ≤ ((e.heardError n).withdrawn inf).rtSeqno

variable {inf : Infinity} {e : RtEntry}

theorem le_macroMax (a b : UInt32) : a ≤ macroMax a b ∧ b ≤ macroMax a b := by
  unfold macroMax
  constructor
  · split <;> grind
  · split <;> grind

/-- Adding 1 to an even number does not wrap. -/
theorem toNat_add_one_lt {n : UInt32} (h : n % 2 = 0) : n.toNat + 1 < 2 ^ 32 := by
  have hmod := congrArg UInt32.toNat h
  have hlt := n.toNat_lt
  simp only [UInt32.toNat_mod, UInt32.reduceToNat] at hmod
  omega

theorem lt_add_one {n : UInt32} (h : n % 2 = 0) : n < n + 1 := by
  have hlt := toNat_add_one_lt h
  rw [UInt32.lt_iff_toNat_lt, UInt32.toNat_add, UInt32.toNat_one, Nat.mod_eq_of_lt hlt]
  omega

/-- An entry with an even number is safe to invalidate. -/
theorem advances_of_even (h : e.rtSeqno % 2 = 0) : e.Advances inf := by
  have hnext := lt_add_one h
  have hmax := (le_macroMax (e.rtSeqno + 1) e.rtHighestSeqnoHeard).1
  have hfailed : e.rtSeqno < macroMax (e.rtSeqno + 1) e.rtHighestSeqnoHeard :=
    UInt32.lt_of_lt_of_le hnext hmax
  refine ⟨toNat_add_one_lt h, toNat_add_one_lt, ?_, ?_, fun n hn => ?_⟩
  · rw [RtEntry.failed, rtSeqno_rtDown]
    exact hfailed
  · rw [RtEntry.expired, rtSeqno_rtDown]
    show e.rtSeqno < if macroMax (e.rtSeqno + 1) e.rtHighestSeqnoHeard % 2 = 0 then _ else _
    split
    · next heven => exact UInt32.lt_trans hfailed (lt_add_one heven)
    · exact hfailed
  · show e.rtSeqno ≤ (rtDown inf _).rtSeqno
    rw [rtSeqno_rtDown]
    exact UInt32.le_trans hn (le_macroMax e.rtHighestSeqnoHeard n).2

end RtEntry

namespace Net

variable {P : Params} {s : Net} {t : List (Move Net Event)}

/-- In the middle of an event the entries of the node that are up have even numbers. -/
theorem Step.even_of_up {s' : Net} {ev : Event} (hr : s.Reachable P) (hs : Step P s ev s')
    {w : World}
    (hw : ReflTransGen (Eamrp.Step ev.env ev.input.aged) (s.node ev.node).world w) {d : NsAddr}
    {e : RtEntry} (he : w.rtLookup d = some e) (hup : e.rtFlags = .up) : e.rtSeqno % 2 = 0 := by
  obtain ⟨hi, hacts⟩ := acts_of_steps hs.1.offers (index_of_reachable hr ev.node) hw
  rw [during_start] at hacts
  have hpar := (hr.proto.acts hs.1.node hs.1.inf hacts).parity
  have hroute : (s.during ev.node w).route ev.node d = some e.route := by
    rw [← (shows_during hi).route, he]
    rfl
  apply ((hpar.route _ _ _ hroute).up _).1
  simp [RtEntry.route, hup]

/-- Sequence numbers of entries never move backwards: in every run of a network an entry stays
and its number does not decrease, from one move to the next and to the end of the run. At any
moment of an event, the additions to the number of an entry that is up do not wrap, and
neither the number it goes down with nor the largest that was heard in RERRs is below it. -/
theorem numbers_advance (h : Run P t s) :
    (∀ m ∈ t, ∀ i d e, m.src.entry i d = some e →
      (∃ e', m.tgt.entry i d = some e' ∧ e.rtSeqno ≤ e'.rtSeqno) ∧
        ∃ e', s.entry i d = some e' ∧ e.rtSeqno ≤ e'.rtSeqno) ∧
      ∀ m ∈ t, ∀ w, ReflTransGen (Eamrp.Step m.label.env m.label.input.aged)
          (m.src.node m.label.node).world w →
        ∀ d e, w.rtLookup d = some e → e.rtFlags = .up → e.Advances m.label.env.inf := by
  constructor
  · intro m hm i d e he
    obtain ⟨hr, hs⟩ := Lib.Run.of_mem h hm
    exact ⟨seqno_le_of_step hr hs he, h.seqno_le hm (.inl he)⟩
  · intro m hm w hw d e he hup
    obtain ⟨hr, hs⟩ := Lib.Run.of_mem h hm
    apply RtEntry.advances_of_even
    exact hs.even_of_up hr hw he hup

/-- Node 1 discovers a route over node 2, hears its HELLO, and loses the route when the HELLOs
stay away. -/
def silence : List Cue :=
  discovery .mathH ++ [.timer .mathH 0 2 .helloTimer, .hear .mathH 0 1 5,
    .timer .mathH 5 1 .neighborTimer]

theorem run_silence : Run (three .mathH) (idle.moves silence) (idle.final silence) :=
  run_idle (by decide +kernel)

/-- In the last move of that run node 1 loses its route to node 3. -/
theorem numbers_advance_silence :
    ∃ m ∈ idle.moves silence, ∃ e e', m.src.entry 1 3 = some e ∧ m.tgt.entry 1 3 = some e' ∧
      e.rtFlags = .up ∧ e'.rtFlags = .down ∧ e.rtSeqno ≤ e'.rtSeqno := by
  have hm := List.getLast_mem (show idle.moves silence ≠ [] by simp [silence, moves, discovery])
  have hup : (((idle.moves silence).getLast (by simp [silence, moves, discovery])).src.entry
      1 3).map RtEntry.rtFlags = some .up := by decide +kernel
  have hdown : (((idle.moves silence).getLast (by simp [silence, moves, discovery])).tgt.entry
      1 3).map RtEntry.rtFlags = some .down := by decide +kernel
  obtain ⟨e, he, hup⟩ := Option.map_eq_some_iff.mp hup
  obtain ⟨e', he', hdown⟩ := Option.map_eq_some_iff.mp hdown
  obtain ⟨⟨e₁, he₁, hle⟩, -⟩ := (numbers_advance run_silence).1 _ hm 1 3 e he
  obtain rfl := Option.some.inj (he'.symm.trans he₁)
  exact ⟨_, hm, e, e', he, he', hup, hdown, hle⟩

end Net

end Eamrp
