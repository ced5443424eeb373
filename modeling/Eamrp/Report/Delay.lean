import Mathlib
import Eamrp.Model.Ana

/-!
# The reported end-to-end delay

What the evaluation of a trace says about the delay of CBR packets. The script knows of a packet
only its first record, of whatever level and type, and its last reception anywhere, and forgets
the latter at a drop. It keeps the delays of the delivered packets, and of nothing else, just when
these records are the agents' own and no other packet is left where a node has received it.
-/

namespace Eamrp

/-! ### Values of the script -/

namespace AwkValue

variable {n : Nat} {s u : List Char}

/-- The digits of a positive number begin with none that is 0. -/
theorem head_toDigits (hn : 0 < n) : ∃ c, '0' < c ∧ ∃ u, Nat.toDigits 10 n = c :: u := by
  induction n using Nat.strong_induction_on with
  | _ n ih =>
    by_cases hsmall : n < 10
    · refine ⟨n.digitChar, ?_, [], Nat.toDigits_of_lt_base hsmall⟩
      interval_cases n <;> decide
    · obtain ⟨c, hc, u, hu⟩ := ih (n / 10) (by omega) (by omega)
      refine ⟨c, hc, u ++ [(n % 10).digitChar], ?_⟩
      rw [Nat.toDigits_of_base_le (by omega) (by omega), hu, List.cons_append]

/-- A number is above a text in hexadecimal, unless it is 0. -/
theorem greater_hex (hn : 0 < n) : (num n).greater (text ('0' :: s)) = true := by
  obtain ⟨c, hc, u, hu⟩ := head_toDigits hn
  exact decide_eq_true (by rw [chars, chars, hu]; exact List.Lex.rel hc)

/-- A text in hexadecimal is above no number but 0. -/
theorem eq_zero_of_hex_greater (h : (text ('0' :: s)).greater (num n) = true) : n = 0 := by
  by_contra hne
  have hlt : (num n).chars < '0' :: s := of_decide_eq_true h
  have hgt : '0' :: s < (num n).chars :=
    of_decide_eq_true (greater_hex (Nat.pos_of_ne_zero hne))
  exact lt_asymm hlt hgt

end AwkValue

/-- A trace, oldest record first. -/
abbrev Trace := List Record

/-- The packet of a record, when `$47` is a number. -/
def Record.packet? (x : Record) : Option Nat :=
  match x.pacId with
  | .num p => some p
  | .text _ => none

namespace Trace

/-! ### What a trace says of a packet -/

/-- When a packet appears first. -/
def first (t : Trace) (p : Nat) : Option Time :=
  (t.find? fun x => x.pacId == .num p).map (·.tempo)

/-- The last reception or drop of a packet. -/
def closing (t : Trace) (p : Nat) : Option Record :=
  (t.filter fun x => x.pacId == .num p && (x.event == .r || x.event == .d)).getLast?

/-- When a packet is received last, if no drop of it comes later. -/
def lastReception (t : Trace) (p : Nat) : Option Time :=
  (t.closing p).bind fun x => if x.event = .r then some x.tempo else none

/-- When an agent sends a CBR packet. -/
def sendTime (t : Trace) (p : Nat) : Option Time :=
  (t.find? fun x => x.isSend && x.pacId == .num p).map (·.tempo)

/-- When an agent receives a CBR packet. -/
def receiveTime (t : Trace) (p : Nat) : Option Time :=
  (t.find? fun x => x.isReceive && x.pacId == .num p).map (·.tempo)

/-- The packets of a trace. -/
def packets (t : Trace) : Finset Nat := (t.filterMap (·.packet?)).toFinset

/-- The CBR packets that an agent receives. -/
def delivered (t : Trace) : Finset Nat :=
  ((t.filter (·.isReceive)).filterMap (·.packet?)).toFinset

/-- The number of records of an agent receiving a CBR packet. -/
def deliveries (t : Trace) : Nat := (t.filter (·.isReceive)).length

/-- The end-to-end delay of a CBR packet. -/
def delay (t : Trace) (p : Nat) : Time := (t.receiveTime p).getD 0 - (t.sendTime p).getD 0

/-- The mean end-to-end delay of the delivered CBR packets; it takes that they were sent. -/
structure IsMeanDelay (t : Trace) (v : Time) : Prop where
  sent : ∀ p ∈ t.delivered, (t.sendTime p).isSome
  mean : v = (∑ p ∈ t.delivered, t.delay p) / t.delivered.card

/-- The script reports the mean end-to-end delay. -/
def ReportsMeanDelay (t : Trace) : Prop :=
  ∃ r, ana t = .ok r ∧ t.IsMeanDelay r.averageDelay

/-- What the loop of the `END` rule adds to the sum for a packet. -/
def adds (t : Trace) (p : Nat) : Time :=
  let a := t.foldl Ana.rule {}
  if p < a.maxpacId.value + 2 ∧ a.duracao p > 0 then a.duracao p else 0

/-- A delivered packet contributes its delay, and nothing else contributes anything. -/
def AddsDelays (t : Trace) : Prop :=
  ∀ p, t.adds p = if p ∈ t.delivered then t.delay p else 0

/-! ### The condition -/

/-- The clock starts at 0, and the times of the records never go back. -/
def Ordered (t : Trace) : Prop := (0 :: t.map (·.tempo)).Pairwise (· ≤ ·)

/-- The records that the script goes by are the agents' own. -/
structure Direct (t : Trace) : Prop where
  /-- A delivered packet appears first when its agent sends it, and is received last when an agent
  receives it. If it is dropped later, it took no time. -/
  whole : ∀ p ∈ t.delivered,
    t.first p = t.sendTime p ∧ t.lastReception p = t.receiveTime p ∨
      t.lastReception p = none ∧ t.receiveTime p = t.sendTime p
  /-- Any other packet is not received after its first record, or is dropped later. -/
  rest : ∀ p ∉ t.delivered, ∀ l, t.lastReception p = some l → t.first p = some l
  /-- Agents receive a packet once, unless no packet took any time. -/
  once : t.deliveries = t.delivered.card ∨ ∀ p ∈ t.delivered, t.receiveTime p = t.sendTime p

/-- Every delivered packet is received by an agent once, and dropped nowhere later. -/
structure Settled (t : Trace) : Prop where
  once : t.deliveries = t.delivered.card
  kept : ∀ p ∈ t.delivered, (t.lastReception p).isSome

variable {t : Trace} {x : Record} {p : Nat} {a : Ana}

/-! ### What the script knows of a trace -/

/-- What is counted for a packet: the time from its first record to its last reception. -/
def counted (t : Trace) (p : Nat) : Time :=
  max 0 ((t.lastReception p).getD 0 - (t.first p).getD 0)

/-- The variables of the script after the records of `t`. -/
structure Reads (t : Trace) (a : Ana) : Prop where
  /-- `maxpac_id` is no other text than that of an EAMRP packet. -/
  maxText : ∀ s, a.maxpacId = .text s → ∃ u, s = '0' :: 'x' :: u
  maxpacId : ∀ p ∈ t.packets, p ≤ a.maxpacId.value
  sendspkt : a.sendspkt = (t.filter (·.isSend)).length
  receivespkt : a.receivespkt = t.deliveries
  timpIn : ∀ p, a.timpIn (.num p) = t.first p
  tempoFim : ∀ p, (a.tempoFim (.num p)).getD 0 = (t.lastReception p).getD 0

theorem first_concat : (t ++ [x]).first p =
    if (t.first p).isSome then t.first p else if x.pacId = .num p then some x.tempo else none := by
  unfold first
  rw [List.find?_append]
  cases t.find? fun x => x.pacId == .num p with
  | some y => rfl
  | none =>
    by_cases hx : x.pacId = .num p
    · simp [hx]
    · simp [hx]

theorem closing_concat : (t ++ [x]).closing p =
    if x.pacId = .num p ∧ (x.event = .r ∨ x.event = .d) then some x else t.closing p := by
  unfold closing
  rw [List.filter_append]
  by_cases hx : x.pacId = .num p ∧ (x.event = .r ∨ x.event = .d)
  · rw [if_pos hx, List.filter_cons_of_pos (by simpa using hx), List.filter_nil,
      List.getLast?_concat]
  · rw [if_neg hx, List.filter_cons_of_neg (by simpa using hx), List.filter_nil, List.append_nil]

theorem packet?_eq_some : x.packet? = some p ↔ x.pacId = .num p := by
  unfold Record.packet?
  split
  next q hq => simp [hq]
  next s hs => simp [hs]

theorem mem_packets : p ∈ t.packets ↔ ∃ x ∈ t, x.pacId = .num p := by
  simp [packets, packet?_eq_some]

/-- What stands in `$47`. -/
theorem pacId_cases (x : Record) : (∃ p, x.pacId = .num p) ∨ x.pacId = .text [] ∨
    ∃ u, x.pacId = .text ('0' :: 'x' :: u) := by
  unfold Record.pacId
  match x.traffic with
  | .cbr p => exact .inl ⟨p, rfl⟩
  | .eamrp ahType => exact .inr (.inr ⟨_, rfl⟩)
  | .other (some p) => exact .inl ⟨p, rfl⟩
  | .other none => exact .inr (.inl rfl)

theorem value_hex (u : List Char) : (AwkValue.text ('0' :: 'x' :: u)).value = 0 := rfl

/-- `maxpac_id` keeps its kind and does not fall with one more record. -/
theorem maxpacId_rule (htext : ∀ s, a.maxpacId = .text s → ∃ u, s = '0' :: 'x' :: u) :
    (∀ s, (a.rule x).maxpacId = .text s → ∃ u, s = '0' :: 'x' :: u) ∧
      a.maxpacId.value ≤ (a.rule x).maxpacId.value ∧
      ∀ p, x.pacId = .num p → p ≤ (a.rule x).maxpacId.value := by
  show (∀ s, (if x.pacId.greater a.maxpacId then x.pacId else a.maxpacId) = .text s → _) ∧
    _ ≤ (if x.pacId.greater a.maxpacId then x.pacId else a.maxpacId).value ∧
    ∀ p, _ → p ≤ (if x.pacId.greater a.maxpacId then x.pacId else a.maxpacId).value
  cases hmax : a.maxpacId with
  | num m =>
    rcases pacId_cases x with ⟨p, hp⟩ | hnil | ⟨u, hu⟩
    · rw [hp]
      by_cases hlt : m < p
      · rw [if_pos (show (AwkValue.num p).greater (.num m) = true from decide_eq_true hlt)]
        exact ⟨nofun, le_of_lt hlt, fun q hq => by cases hq; exact le_refl _⟩
      · rw [if_neg (show ¬ (AwkValue.num p).greater (.num m) = true by
          simpa [AwkValue.greater] using hlt)]
        exact ⟨nofun, le_refl _, fun q hq => by cases hq; exact not_lt.mp hlt⟩
    · rw [hnil, if_neg (by simp [AwkValue.greater, AwkValue.chars])]
      exact ⟨nofun, le_refl _, nofun⟩
    · rw [hu]
      split
      next hgreater =>
        obtain rfl := AwkValue.eq_zero_of_hex_greater hgreater
        exact ⟨fun s hs => ⟨u, by cases hs; rfl⟩, le_refl _, nofun⟩
      next => exact ⟨nofun, le_refl _, nofun⟩
  | text s =>
    obtain ⟨v, rfl⟩ := htext s hmax
    have hkeep : ∀ s, AwkValue.text ('0' :: 'x' :: v) = .text s → ∃ u, s = '0' :: 'x' :: u :=
      fun s hs => ⟨v, by cases hs; rfl⟩
    rcases pacId_cases x with ⟨p, hp⟩ | hnil | ⟨u, hu⟩
    · rw [hp]
      split
      next => exact ⟨nofun, Nat.zero_le _, fun q hq => by cases hq; exact le_refl _⟩
      next hgreater =>
        refine ⟨hkeep, le_refl _, fun q hq => ?_⟩
        cases hq
        by_contra hpos
        exact hgreater (AwkValue.greater_hex (by rw [value_hex] at hpos; omega))
    · rw [hnil, if_neg (by simp [AwkValue.greater, AwkValue.chars])]
      exact ⟨hkeep, le_refl _, nofun⟩
    · rw [hu]
      split
      next => exact ⟨fun s hs => ⟨u, by cases hs; rfl⟩, le_refl _, nofun⟩
      next => exact ⟨hkeep, le_refl _, nofun⟩

/-- The main rule keeps book of one more record. -/
theorem Reads.rule (h : t.Reads a) (x : Record) : (t ++ [x]).Reads (a.rule x) where
  maxText := (maxpacId_rule h.maxText).1
  maxpacId := by
    obtain ⟨-, hle, hnew⟩ := maxpacId_rule (x := x) h.maxText
    intro p hp
    obtain ⟨y, hy, hyp⟩ := mem_packets.mp hp
    rcases List.mem_append.mp hy with hy | hy
    · exact le_trans (h.maxpacId p (mem_packets.mpr ⟨y, hy, hyp⟩)) hle
    · rw [List.mem_singleton.mp hy] at hyp
      exact hnew p hyp
  sendspkt := by
    rw [List.filter_append, List.length_append, ← h.sendspkt]
    cases hx : x.isSend <;> simp [Ana.rule, hx]
  receivespkt := by
    rw [deliveries, List.filter_append, List.length_append, ← deliveries, ← h.receivespkt]
    cases hx : x.isReceive <;> simp [Ana.rule, hx]
  timpIn := by
    intro p
    rw [first_concat, ← h.timpIn]
    by_cases hp : x.pacId = .num p
    · cases hfirst : a.timpIn (.num p) <;> simp [Ana.rule, hp, hfirst]
    · cases hfirst : a.timpIn x.pacId <;> simp [Ana.rule, hfirst, hp, Ne.symm hp]
  tempoFim := by
    intro p
    have hold := h.tempoFim p
    rw [lastReception, closing_concat]
    by_cases hp : x.pacId = .num p
    · cases hevent : x.event with
      | r => simp [Ana.rule, hevent, hp]
      | d => simp [Ana.rule, hevent, hp]
      | s => simpa [Ana.rule, hevent, lastReception] using hold
      | f => simpa [Ana.rule, hevent, lastReception] using hold
      | other => simpa [Ana.rule, hevent, lastReception] using hold
    · have hkeep : (a.rule x).tempoFim (.num p) = a.tempoFim (.num p) := by
        cases hevent : x.event <;> simp [Ana.rule, hevent, Ne.symm hp]
      rw [if_neg fun h => hp h.1, hkeep]
      exact hold

theorem reads_nil : Reads [] {} where
  maxText := nofun
  maxpacId := by simp [packets]
  sendspkt := rfl
  receivespkt := rfl
  timpIn _ := rfl
  tempoFim _ := rfl

/-- The main rule keeps book of a whole trace. -/
theorem Reads.foldl {u : Trace} (h : u.Reads a) (t : Trace) :
    (u ++ t).Reads (t.foldl Ana.rule a) := by
  induction t generalizing u a with
  | nil =>
    rw [List.append_nil]
    exact h
  | cons x t ih =>
    have hrest := ih (h.rule x)
    rw [List.append_assoc] at hrest
    exact hrest

theorem reads (t : Trace) : t.Reads (t.foldl Ana.rule {}) := reads_nil.foldl t

/-! ### The sum -/

private theorem foldl_positive (f : Nat → Time) (l : List Nat) (s : Time) :
    l.foldl (fun sum p => if f p > 0 then sum + f p else sum) s =
      s + (l.map fun p => max 0 (f p)).sum := by
  induction l generalizing s with
  | nil => simp
  | cons p l ih =>
    rw [List.foldl_cons, ih, List.map_cons, List.sum_cons]
    by_cases hp : f p > 0
    · rw [if_pos hp, max_eq_right (le_of_lt hp)]
      ring
    · rw [if_neg hp, max_eq_left (not_lt.mp hp)]
      ring

/-- Nothing is known of a packet that is not in the trace. -/
theorem counted_of_notMem (hp : p ∉ t.packets) : t.counted p = 0 := by
  have hno : ∀ x ∈ t, x.pacId ≠ .num p := fun x hx he => hp (mem_packets.mpr ⟨x, hx, he⟩)
  have hfirst : t.first p = none := by
    simpa [first] using hno
  have hclosing : t.closing p = none := by
    rw [closing, List.getLast?_eq_none_iff, List.filter_eq_nil_iff]
    intro x hx hc
    simp only [Bool.and_eq_true, beq_iff_eq] at hc
    exact hno x hx hc.1
  simp [counted, lastReception, hfirst, hclosing]

theorem Reads.duracao (h : t.Reads a) (p : Nat) : max 0 (a.duracao p) = t.counted p := by
  rw [Ana.duracao, h.tempoFim, h.timpIn, counted]

/-- What is added for a packet is what is counted for it. -/
theorem adds_eq (t : Trace) (p : Nat) : t.adds p = t.counted p := by
  have h := t.reads
  unfold adds
  by_cases hp : p ∈ t.packets
  · have hlt : p < (t.foldl Ana.rule {}).maxpacId.value + 2 := by
      have hle := h.maxpacId p hp
      omega
    rw [← h.duracao p]
    by_cases hpos : (t.foldl Ana.rule {}).duracao p > 0
    · rw [if_pos ⟨hlt, hpos⟩, max_eq_right (le_of_lt hpos)]
    · rw [if_neg fun h => hpos h.2, max_eq_left (not_lt.mp hpos)]
  · have hzero := counted_of_notMem hp
    have hnone : ¬ (t.foldl Ana.rule {}).duracao p > 0 := by
      have hmax := h.duracao p
      rw [hzero] at hmax
      exact not_lt.mpr (max_eq_left_iff.mp hmax)
    rw [if_neg fun h => hnone h.2, hzero]

/-- The script sums up what it counts for the packets of the trace. -/
theorem Reads.sum (h : t.Reads a) : a.sum = ∑ p ∈ t.packets, t.counted p := by
  have hrange : t.packets ⊆ Finset.range (a.maxpacId.value + 2) := fun p hp => by
    have hle := h.maxpacId p hp
    exact Finset.mem_range.mpr (by omega)
  calc a.sum
    _ = ((List.range (a.maxpacId.value + 2)).map fun p => max 0 (a.duracao p)).sum := by
      rw [Ana.sum, foldl_positive, zero_add]
    _ = ∑ p ∈ Finset.range (a.maxpacId.value + 2), t.counted p := by
      rw [← List.toFinset_range, List.sum_toFinset _ List.nodup_range]
      simp only [h.duracao]
    _ = ∑ p ∈ t.packets, t.counted p :=
      (Finset.sum_subset hrange fun p _ hp => counted_of_notMem hp).symm

/-- What the script reports of a trace. -/
theorem ana_eq (t : Trace) : ana t =
    if (t.filter (·.isSend)).length = 0 then .error .packetDeliveryFraction
    else if t.deliveries = 0 then .error .averageDelay
    else .ok
      { packetsSent := (t.filter (·.isSend)).length
        packetsReceived := t.deliveries
        routingOverhead := (t.foldl Ana.rule {}).rountingpkts
        packetsLoss := (t.filter (·.isSend)).length - t.deliveries
        packetDeliveryFraction := t.deliveries / (t.filter (·.isSend)).length * 100
        averageDelay := (∑ p ∈ t.packets, t.counted p) / t.deliveries } := by
  have h := t.reads
  rw [ana, Ana.finish, h.sendspkt, h.receivespkt, h.sum]

/-! ### The times of a packet -/

theorem Ordered.nonneg (ho : t.Ordered) (hx : x ∈ t) : 0 ≤ x.tempo :=
  (List.pairwise_cons.mp ho).1 x.tempo (List.mem_map_of_mem hx)

theorem Ordered.pairwise (ho : t.Ordered) : t.Pairwise fun x y => x.tempo ≤ y.tempo :=
  List.pairwise_map.mp (List.pairwise_cons.mp ho).2

theorem isReceive_iff : x.isReceive ↔
    x.event = .r ∧ x.agt = .agt ∧ ∃ p, x.traffic = .cbr p := by
  cases htraffic : x.traffic <;> simp [Record.isReceive, Traffic.isCbr, htraffic]

theorem mem_delivered : p ∈ t.delivered ↔ ∃ x ∈ t, x.isReceive ∧ x.pacId = .num p := by
  simp [delivered, packet?_eq_some, and_assoc]

/-- Agents receive no packet without a number. -/
theorem delivered_nonempty (hx : x ∈ t) (hr : x.isReceive) : t.delivered.Nonempty := by
  obtain ⟨-, -, p, hp⟩ := isReceive_iff.mp hr
  exact ⟨p, mem_delivered.mpr ⟨x, hx, hr, by rw [Record.pacId, hp, Traffic.pacId]⟩⟩

theorem delivered_subset (t : Trace) : t.delivered ⊆ t.packets := by
  intro p hp
  obtain ⟨x, hx, -, hid⟩ := mem_delivered.mp hp
  exact mem_packets.mpr ⟨x, hx, hid⟩

/-- A record of a packet is no earlier than its first one. -/
theorem first_le (ho : t.Ordered) (hx : x ∈ t) (hid : x.pacId = .num p) :
    ∃ s, t.first p = some s ∧ s ≤ x.tempo := by
  obtain ⟨y, hy⟩ := Option.isSome_iff_exists.mp
    (List.find?_isSome (p := fun y => y.pacId == .num p).mpr ⟨x, hx, by simp [hid]⟩)
  obtain ⟨-, u, v, rfl, hu⟩ := List.find?_eq_some_iff_append.mp hy
  refine ⟨y.tempo, by rw [first, hy, Option.map_some], ?_⟩
  rcases List.mem_append.mp hx with hx | hx
  · exact absurd (hu x hx) (by simp [hid])
  · rcases List.mem_cons.mp hx with rfl | hx
    · exact le_refl _
    · exact (List.pairwise_cons.mp (List.pairwise_append.mp ho.pairwise).2.1).1 x hx

theorem lastReception_eq_some {l : Time} (h : t.lastReception p = some l) :
    ∃ x, t.closing p = some x ∧ x ∈ t ∧ x.pacId = .num p ∧ x.tempo = l := by
  obtain ⟨x, hx, hl⟩ := Option.bind_eq_some_iff.mp h
  have hmem := List.mem_filter.mp (List.mem_of_getLast? hx)
  have hid : x.pacId = .num p := by
    have hc := hmem.2
    simp only [Bool.and_eq_true, beq_iff_eq] at hc
    exact hc.1
  by_cases hevent : x.event = .r
  · rw [if_pos hevent] at hl
    exact ⟨x, hx, hmem.1, hid, Option.some.inj hl⟩
  · rw [if_neg hevent] at hl
    cases hl

/-- A reception is no later than the last one. -/
theorem le_lastReception (ho : t.Ordered) (hx : x ∈ t) (hid : x.pacId = .num p)
    (hr : x.event = .r) {l : Time} (hl : t.lastReception p = some l) : x.tempo ≤ l := by
  obtain ⟨y, hy, -, -, rfl⟩ := lastReception_eq_some hl
  have hmem : x ∈ t.filter fun z => z.pacId == .num p && (z.event == .r || z.event == .d) :=
    List.mem_filter.mpr ⟨hx, by simp [hr, hid]⟩
  obtain ⟨u, hu⟩ := List.getLast?_eq_some_iff.mp hy
  have hsorted := List.Pairwise.sublist (hu ▸ List.filter_sublist : (u ++ [y]).Sublist t) ho.pairwise
  rw [hu] at hmem
  rcases List.mem_append.mp hmem with hx | hx
  · exact (List.pairwise_append.mp hsorted).2.2 x hx y (List.mem_singleton_self y)
  · rw [List.mem_singleton.mp hx]

/-- The first record of a packet that is sent and delivered is no later than its sending, and its
last reception no earlier than its delivery. -/
theorem times_of_delivered (ho : t.Ordered) (hp : p ∈ t.delivered) (hsent : (t.sendTime p).isSome) :
    ∃ f s r, t.first p = some f ∧ t.sendTime p = some s ∧ t.receiveTime p = some r ∧ f ≤ s ∧
      ∀ l, t.lastReception p = some l → r ≤ l := by
  obtain ⟨s, hs⟩ := Option.isSome_iff_exists.mp hsent
  obtain ⟨y, hy, rfl⟩ := Option.map_eq_some_iff.mp hs
  have hsend := List.find?_some hy
  simp only [Bool.and_eq_true, beq_iff_eq] at hsend
  obtain ⟨f, hf, hle⟩ := first_le ho (List.mem_of_find?_eq_some hy) hsend.2
  obtain ⟨z, hz, hreceive, hid⟩ := mem_delivered.mp hp
  obtain ⟨w, hw⟩ := Option.isSome_iff_exists.mp
    (List.find?_isSome (p := fun x => x.isReceive && x.pacId == .num p).mpr
      ⟨z, hz, by simp [hreceive, hid]⟩)
  have hrec := List.find?_some hw
  simp only [Bool.and_eq_true, beq_iff_eq] at hrec
  refine ⟨f, y.tempo, w.tempo, hf, hs, by rw [receiveTime, hw, Option.map_some], hle, fun l hl => ?_⟩
  exact le_lastReception ho (List.mem_of_find?_eq_some hw) hrec.2 (isReceive_iff.mp hrec.1).1 hl

/-! ### What is counted for a packet -/

theorem counted_of_some (ho : t.Ordered) {l : Time} (hl : t.lastReception p = some l) :
    ∃ f, t.first p = some f ∧ f ≤ l ∧ t.counted p = l - f := by
  obtain ⟨x, -, hx, hid, rfl⟩ := lastReception_eq_some hl
  obtain ⟨f, hf, hle⟩ := first_le ho hx hid
  refine ⟨f, hf, hle, ?_⟩
  rw [counted, hl, hf]
  exact max_eq_right (sub_nonneg.mpr hle)

theorem counted_of_none (ho : t.Ordered) (hl : t.lastReception p = none) : t.counted p = 0 := by
  have hfirst : 0 ≤ (t.first p).getD 0 := by
    cases hf : t.first p with
    | none => exact le_refl _
    | some f =>
      obtain ⟨y, hy, rfl⟩ := Option.map_eq_some_iff.mp hf
      exact ho.nonneg (List.mem_of_find?_eq_some hy)
  rw [counted, hl]
  exact max_eq_left (sub_nonpos.mpr hfirst)

theorem counted_nonneg (t : Trace) (p : Nat) : 0 ≤ t.counted p := le_max_left _ _

/-- Nothing is counted for a packet that is not received after its first record, or is dropped
later. -/
theorem counted_eq_zero_iff (ho : t.Ordered) :
    t.counted p = 0 ↔ ∀ l, t.lastReception p = some l → t.first p = some l := by
  cases hlast : t.lastReception p with
  | none => simp [counted_of_none ho hlast]
  | some l =>
    obtain ⟨f, hf, -, hcounted⟩ := counted_of_some ho hlast
    rw [hcounted, hf, sub_eq_zero]
    exact ⟨fun h l' hl' => by rw [← Option.some.inj hl', h],
      fun h => (Option.some.inj (h l rfl)).symm⟩

/-- The delay is counted for a delivered packet just when no record of it lies outside the time
from its sending to its delivery. -/
theorem counted_eq_delay_iff (ho : t.Ordered) (hp : p ∈ t.delivered)
    (hsent : (t.sendTime p).isSome) : t.counted p = t.delay p ↔
      t.first p = t.sendTime p ∧ t.lastReception p = t.receiveTime p ∨
        t.lastReception p = none ∧ t.receiveTime p = t.sendTime p := by
  obtain ⟨f, s, r, hf, hs, hr, hle, hlate⟩ := times_of_delivered ho hp hsent
  have hdelay : t.delay p = r - s := by rw [delay, hr, hs, Option.getD_some, Option.getD_some]
  cases hlast : t.lastReception p with
  | none =>
    rw [counted_of_none ho hlast, hdelay, hr, hs]
    simp only [reduceCtorEq, and_false, true_and, false_or, Option.some.injEq]
    exact ⟨fun h => sub_eq_zero.mp h.symm, fun h => (sub_eq_zero.mpr h).symm⟩
  | some l =>
    obtain ⟨f', hf', -, hcounted⟩ := counted_of_some ho hlast
    obtain rfl := Option.some.inj (hf.symm.trans hf')
    have hl := hlate l hlast
    rw [hcounted, hdelay, hf, hr, hs]
    simp only [reduceCtorEq, false_and, or_false, Option.some.injEq]
    constructor
    · intro h
      exact ⟨by linarith, by linarith⟩
    · rintro ⟨rfl, rfl⟩
      rfl

/-- No less than its delay is counted for a packet that is not dropped after its delivery. -/
theorem delay_le_counted (ho : t.Ordered) (hp : p ∈ t.delivered) (hsent : (t.sendTime p).isSome)
    (hkept : (t.lastReception p).isSome) : t.delay p ≤ t.counted p := by
  obtain ⟨f, s, r, hf, hs, hr, hle, hlate⟩ := times_of_delivered ho hp hsent
  obtain ⟨l, hl⟩ := Option.isSome_iff_exists.mp hkept
  obtain ⟨f', hf', -, hcounted⟩ := counted_of_some ho hl
  obtain rfl := Option.some.inj (hf.symm.trans hf')
  have hrl := hlate l hl
  rw [hcounted, delay, hr, hs, Option.getD_some, Option.getD_some]
  linarith

/-! ### The report -/

/-- The script reports the mean delay just when its sum is to the number of receptions as the
delays are to the number of packets. -/
theorem reportsMeanDelay_iff_sum (hd : ∃ x ∈ t, x.isReceive) : t.ReportsMeanDelay ↔
    (∀ p ∈ t.delivered, (t.sendTime p).isSome) ∧
      (∑ p ∈ t.packets, t.counted p) * t.delivered.card =
        (∑ p ∈ t.delivered, t.delay p) * t.deliveries := by
  obtain ⟨x, hx, hreceive⟩ := hd
  obtain ⟨p, hp⟩ := delivered_nonempty hx hreceive
  have hcard : (t.delivered.card : Time) ≠ 0 :=
    Nat.cast_ne_zero.mpr (Finset.card_ne_zero_of_mem hp)
  have hdeliveries : t.deliveries ≠ 0 :=
    Nat.ne_of_gt (List.length_pos_of_mem (List.mem_filter.mpr ⟨hx, hreceive⟩))
  have hpos : (t.deliveries : Time) ≠ 0 := Nat.cast_ne_zero.mpr hdeliveries
  constructor
  · rintro ⟨r, hr, hsent, hmean⟩
    have hdelay : r.averageDelay = (∑ p ∈ t.packets, t.counted p) / t.deliveries := by
      rw [ana_eq, if_neg hdeliveries] at hr
      split at hr
      · cases hr
      · rw [← Except.ok.inj hr]
    rw [hdelay, div_eq_div_iff hpos hcard] at hmean
    exact ⟨hsent, hmean⟩
  · rintro ⟨hsent, hsum⟩
    -- a delivered packet was sent, so neither division is by zero
    have hsends : (t.filter (·.isSend)).length ≠ 0 := by
      obtain ⟨s, hs⟩ := Option.isSome_iff_exists.mp (hsent p hp)
      obtain ⟨y, hy, -⟩ := Option.map_eq_some_iff.mp hs
      have hy' := List.find?_some hy
      rw [Bool.and_eq_true] at hy'
      exact Nat.ne_of_gt
        (List.length_pos_of_mem (List.mem_filter.mpr ⟨List.mem_of_find?_eq_some hy, hy'.1⟩))
    exact ⟨_, by rw [ana_eq, if_neg hsends, if_neg hdeliveries], hsent,
      (div_eq_div_iff hpos hcard).mpr hsum⟩

/-- What is to be counted for a packet. -/
theorem sum_delay (t : Trace) : ∑ p ∈ t.delivered, t.delay p =
    ∑ p ∈ t.packets, if p ∈ t.delivered then t.delay p else 0 := by
  rw [Finset.sum_ite_mem, Finset.inter_eq_right.mpr t.delivered_subset]

theorem AddsDelays.counted (h : t.AddsDelays) (p : Nat) :
    t.counted p = if p ∈ t.delivered then t.delay p else 0 :=
  (adds_eq t p).symm.trans (h p)

theorem AddsDelays.sum (h : t.AddsDelays) :
    ∑ p ∈ t.packets, t.counted p = ∑ p ∈ t.delivered, t.delay p :=
  (Finset.sum_congr rfl fun p _ => h.counted p).trans t.sum_delay.symm

/-- The script adds the delays just when it goes by the right records. -/
theorem addsDelays_iff (ho : t.Ordered) (hsent : ∀ p ∈ t.delivered, (t.sendTime p).isSome) :
    t.AddsDelays ↔
      (∀ p ∈ t.delivered, t.first p = t.sendTime p ∧ t.lastReception p = t.receiveTime p ∨
        t.lastReception p = none ∧ t.receiveTime p = t.sendTime p) ∧
      ∀ p ∉ t.delivered, ∀ l, t.lastReception p = some l → t.first p = some l := by
  constructor
  · intro h
    refine ⟨fun p hp => ?_, fun p hp => ?_⟩
    · exact (counted_eq_delay_iff ho hp (hsent p hp)).mp (by rw [h.counted, if_pos hp])
    · exact (counted_eq_zero_iff ho).mp (by rw [h.counted, if_neg hp])
  · rintro ⟨hwhole, hrest⟩ p
    rw [adds_eq]
    by_cases hp : p ∈ t.delivered
    · rw [if_pos hp]
      exact (counted_eq_delay_iff ho hp (hsent p hp)).mpr (hwhole p hp)
    · rw [if_neg hp]
      exact (counted_eq_zero_iff ho).mpr (hrest p hp)

/-- Delays that add up to nothing are none, as none is negative. -/
theorem AddsDelays.sum_eq_zero_iff (ho : t.Ordered) (h : t.AddsDelays)
    (hsent : ∀ p ∈ t.delivered, (t.sendTime p).isSome) :
    ∑ p ∈ t.delivered, t.delay p = 0 ↔ ∀ p ∈ t.delivered, t.receiveTime p = t.sendTime p := by
  have hnonneg : ∀ p ∈ t.delivered, 0 ≤ t.delay p := fun p hp => by
    have hcounted := h.counted p
    rw [if_pos hp] at hcounted
    exact hcounted ▸ t.counted_nonneg p
  rw [Finset.sum_eq_zero_iff_of_nonneg hnonneg]
  refine forall₂_congr fun p hp => ?_
  obtain ⟨-, s, r, -, hs, hr, -, -⟩ := times_of_delivered ho hp (hsent p hp)
  rw [delay, hr, hs, Option.getD_some, Option.getD_some, Option.some_inj, sub_eq_zero]

/-- A delivered packet with the right records was sent. -/
theorem Direct.sent (h : t.Direct) : ∀ p ∈ t.delivered, (t.sendTime p).isSome := by
  intro p hp
  obtain ⟨x, hx, hreceive, hid⟩ := mem_delivered.mp hp
  rcases h.whole p hp with ⟨hfirst, -⟩ | ⟨-, hreceived⟩
  · rw [← hfirst, first, Option.isSome_map]
    exact List.find?_isSome.mpr ⟨x, hx, by simp [hid]⟩
  · rw [← hreceived, receiveTime, Option.isSome_map]
    exact List.find?_isSome.mpr ⟨x, hx, by simp [hreceive, hid]⟩

/-- Where every packet is received by an agent once and dropped nowhere later, no error makes up
for another. -/
theorem Settled.addsDelays (hsettled : t.Settled) (ho : t.Ordered) (hd : ∃ x ∈ t, x.isReceive)
    (h : t.ReportsMeanDelay) : t.AddsDelays := by
  obtain ⟨hsent, hsum⟩ := (reportsMeanDelay_iff_sum hd).mp h
  obtain ⟨x, hx, hreceive⟩ := hd
  obtain ⟨q, hq⟩ := delivered_nonempty hx hreceive
  have hcard : (t.delivered.card : Time) ≠ 0 :=
    Nat.cast_ne_zero.mpr (Finset.card_ne_zero_of_mem hq)
  rw [hsettled.once] at hsum
  have hle : ∀ p ∈ t.packets, (if p ∈ t.delivered then t.delay p else 0) ≤ t.counted p := by
    intro p _
    split
    next hp => exact delay_le_counted ho hp (hsent p hp) (hsettled.kept p hp)
    next => exact t.counted_nonneg p
  have heach := (Finset.sum_eq_sum_iff_of_le hle).mp
    (t.sum_delay.symm.trans (mul_right_cancel₀ hcard hsum).symm)
  intro p
  rw [adds_eq]
  by_cases hp : p ∈ t.packets
  · exact (heach p hp).symm
  · rw [counted_of_notMem hp, if_neg fun h => hp (t.delivered_subset h)]

/-- The script reports the mean end-to-end delay, adding nothing but the delays, just when the
records that it goes by are the agents' own. Its figure alone can be right otherwise only where a
packet is received by an agent again or is dropped after that. -/
theorem reportsMeanDelay_iff (ho : t.Ordered) (hd : ∃ x ∈ t, x.isReceive) :
    (t.ReportsMeanDelay ∧ t.AddsDelays ↔ t.Direct) ∧
      (t.Settled → (t.ReportsMeanDelay ↔ t.Direct)) := by
  have hiff : t.ReportsMeanDelay ∧ t.AddsDelays ↔ t.Direct := by
    constructor
    · rintro ⟨hmean, hadds⟩
      obtain ⟨hsent, hsum⟩ := (reportsMeanDelay_iff_sum hd).mp hmean
      obtain ⟨hwhole, hrest⟩ := (addsDelays_iff ho hsent).mp hadds
      refine ⟨hwhole, hrest, ?_⟩
      rw [hadds.sum] at hsum
      rcases mul_eq_mul_left_iff.mp hsum with hcard | hzero
      · exact .inl (by exact_mod_cast hcard.symm)
      · exact .inr ((hadds.sum_eq_zero_iff ho hsent).mp hzero)
    · intro h
      have hadds := (addsDelays_iff ho h.sent).mpr ⟨h.whole, h.rest⟩
      refine ⟨(reportsMeanDelay_iff_sum hd).mpr ⟨h.sent, ?_⟩, hadds⟩
      rw [hadds.sum]
      rcases h.once with honce | hnone
      · rw [honce]
      · rw [(hadds.sum_eq_zero_iff ho h.sent).mpr hnone, zero_mul, zero_mul]
  exact ⟨hiff, fun hsettled =>
    ⟨fun h => hiff.mp ⟨h, hsettled.addsDelays ho hd h⟩, fun h => (hiff.mpr h).1⟩⟩

/-- Two hops of a CBR packet, sent by its agent at time 1 and delivered at time 2. -/
def twoHops : Trace :=
  [⟨.s, 1, "-1", .agt, .cbr 0⟩, ⟨.r, 1, "-1", .rtr, .cbr 0⟩, ⟨.s, 1, "1", .rtr, .cbr 0⟩,
    ⟨.s, 1, "1", .other, .cbr 0⟩, ⟨.r, 3 / 2, "1", .other, .cbr 0⟩, ⟨.r, 3 / 2, "1", .rtr, .cbr 0⟩,
    ⟨.f, 3 / 2, "2", .rtr, .cbr 0⟩, ⟨.s, 3 / 2, "2", .other, .cbr 0⟩, ⟨.r, 2, "2", .other, .cbr 0⟩,
    ⟨.r, 2, "2", .agt, .cbr 0⟩]

/-- A second CBR packet comes to the router, and the trace ends. -/
def unfinished : Trace :=
  twoHops ++ [⟨.s, 3, "-1", .agt, .cbr 1⟩, ⟨.r, 3, "-1", .rtr, .cbr 1⟩, ⟨.s, 3, "1", .rtr, .cbr 1⟩,
    ⟨.s, 3, "1", .other, .cbr 1⟩, ⟨.r, 7 / 2, "1", .other, .cbr 1⟩, ⟨.r, 7 / 2, "1", .rtr, .cbr 1⟩,
    ⟨.f, 7 / 2, "2", .rtr, .cbr 1⟩]

/-- The delay of the only packet that is delivered is 1, and 3/2 is reported. -/
theorem unfinished_reported : unfinished.Ordered ∧ (∃ x ∈ unfinished, x.isReceive) ∧
    (∃ r, ana unfinished = .ok r ∧ r.averageDelay = 3 / 2) ∧
    (∀ v, unfinished.IsMeanDelay v → v = 1) ∧ ¬ unfinished.ReportsMeanDelay := by
  have hreport : ∃ r, ana unfinished = .ok r ∧ r.averageDelay = 3 / 2 :=
    ⟨_, rfl, by decide +kernel⟩
  have hmean : ∀ v, unfinished.IsMeanDelay v → v = 1 := by
    intro v hv
    rw [hv.mean]
    decide +kernel
  refine ⟨by unfold Ordered; decide +kernel, by decide +kernel, hreport, hmean, ?_⟩
  rintro ⟨r, hr, hv⟩
  obtain ⟨r', hr', hdelay⟩ := hreport
  obtain rfl := Except.ok.inj (hr.symm.trans hr')
  have hone := hmean _ hv
  rw [hdelay] at hone
  norm_num at hone

/-- The two hops behind a RREQ that a neighbour hears after half a second. -/
def requestFirst : Trace :=
  ⟨.s, 0, "-1", .rtr, .eamrp 2⟩ :: ⟨.r, 1 / 2, "-1", .rtr, .eamrp 2⟩ :: twoHops

/-- The RREQ is not in the figure. -/
theorem reportsMeanDelay_iff_requestFirst : requestFirst.Direct ∧
    (requestFirst.ReportsMeanDelay ∧ requestFirst.AddsDelays ↔ requestFirst.Direct) ∧
    (requestFirst.ReportsMeanDelay ↔ requestFirst.Direct) := by
  have ho : requestFirst.Ordered := by
    unfold Ordered
    decide +kernel
  have hd : ∃ x ∈ requestFirst, x.isReceive := by decide +kernel
  have hdirect : requestFirst.Direct := by
    refine ⟨by decide +kernel, fun p hp l hl => ?_, by decide +kernel⟩
    obtain ⟨x, -, hx, hid, -⟩ := lastReception_eq_some hl
    have hpacket : ∀ x ∈ requestFirst, x.packet? = none ∨ x.packet? = some 0 := by decide +kernel
    rcases hpacket x hx with hnone | hzero
    · cases hnone.symm.trans (packet?_eq_some.mpr hid)
    · obtain rfl := Option.some.inj (hzero.symm.trans (packet?_eq_some.mpr hid))
      exact absurd (by decide +kernel) hp
  obtain ⟨hiff, hmean⟩ := reportsMeanDelay_iff ho hd
  exact ⟨hdirect, hiff, hmean ⟨by decide +kernel, by decide +kernel⟩⟩

end Trace

end Eamrp
