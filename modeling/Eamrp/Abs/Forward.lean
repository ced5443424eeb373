import Eamrp.Abs.Route

/-!
# Forwarding and flushing

What `forward` has done when it returns, and the loops that take the packets for one
destination out of the send buffer.
-/

namespace Eamrp

open Lib

/-! ### Forwarding -/

/-- The entry after `forward` has used it, lines 1293–1300. -/
def RtEntry.used (now : Time) (transit : Bool) (e : RtEntry) : RtEntry :=
  if transit then { e.touchFirst now with rtError := true } else e.touchFirst now

/-- The packet that `forward` hands on over a next hop, lines 1301–1304. -/
def Packet.over (p : Packet) (nexthop : NsAddr) : Packet :=
  { p with ch := { p.ch with addrType := .inet, nextHop := nexthop, direction := .down } }

/-- The packet that `forward` broadcasts, lines 1308–1311. -/
def Packet.toAll (p : Packet) : Packet :=
  { p with ch := { p.ch with addrType := .none, direction := .down } }

/-- `forward` gives the packet to the node itself. -/
def Packet.IsLocal (p : Packet) (i : NsAddr) : Prop :=
  (p.isEamrp = false ∧ p.ch.direction = .up ∧ p.ih.daddr = ipBroadcast) ∨ p.ih.daddr = i

/-- What `forward` has done when it returns. -/
inductive Forwarded (env : Env) (p : Packet) (w : World) : Option NsAddr → World → Prop where
  | expired {rt : Option NsAddr} (h : p.ih.ttl = 0) : Forwarded env p w rt (w.drop p .ttl)
  | dmux {rt : Option NsAddr} (h : p.IsLocal w.index) :
      Forwarded env p w rt (w.emit (.dmux p))
  | unicast {d : NsAddr} {e : RtEntry} {path : Path} {delay : Time} (httl : p.ih.ttl ≠ 0)
      (hl : ¬ p.IsLocal w.index) (hb : p.ih.daddr ≠ ipBroadcast) (hd : w.rtLookup d = some e)
      (hup : e.rtFlags = .up) (hp : e.pathFind = some path) :
      Forwarded env p w (some d)
        ((w.store (e.used env.now (decide (p.ih.saddr ≠ w.index ∧ p.dataPacket = true)))).send
          (p.over path.nexthop) delay)
  | broadcast {delay : Time} (httl : p.ih.ttl ≠ 0) (hl : ¬ p.IsLocal w.index)
      (hb : p.ih.daddr = ipBroadcast) : Forwarded env p w none (w.send p.toAll delay)

theorem forward_ok {env : Env} {rt : Option NsAddr} {p : Packet} {delay : Time} {w w' : World}
    (h : forward env rt p delay w = .ok w') : Forwarded env p w rt w' := by
  unfold forward at h
  split at h
  · next httl =>
    obtain rfl := Except.ok.inj h
    exact .expired httl
  · next httl =>
    split at h
    · next hl =>
      obtain rfl := Except.ok.inj h
      exact .dmux hl
    · next hl =>
      cases rt with
      | none =>
        dsimp only at h
        split at h
        · cases h
        · next hb =>
          obtain rfl := Except.ok.inj h
          exact .broadcast httl hl (not_not.mp hb)
      | some d =>
        dsimp only at h
        split at h
        · cases h
        · next e hd =>
          split at h
          · cases h
          · next hup =>
            split at h
            · cases h
            · next path hp =>
              split at h
              · cases h
              · next hb =>
                obtain rfl := Except.ok.inj h
                have hused : (if p.ih.saddr ≠ w.index ∧ p.dataPacket = true then
                      { e.touchFirst env.now with rtError := true } else e.touchFirst env.now) =
                    e.used env.now (decide (p.ih.saddr ≠ w.index ∧ p.dataPacket = true)) := by
                  unfold RtEntry.used
                  by_cases hc : p.ih.saddr ≠ w.index ∧ p.dataPacket = true
                  · rw [if_pos hc, if_pos (decide_eq_true hc)]
                  · rw [if_neg hc, if_neg (by simpa using hc)]
                rw [hused]
                exact .unicast httl hl hb hd (not_not.mp hup) hp

/-- `forward` leaves the send buffer alone. -/
theorem Forwarded.rqueue {env : Env} {p : Packet} {w w' : World} {rt : Option NsAddr}
    (h : Forwarded env p w rt w') : w'.rqueue = w.rqueue := by
  cases h <;> rfl

/-! ### Draining the send buffer -/

namespace RQueue

/-- What `purge` and all calls of `deque(dst)` leave in the buffer. -/
def drained (now : Time) (dst : NsAddr) (q : RQueue) : RQueue :=
  (q.purge now).filter (fun p => !(p.val.ih.daddr == dst))

theorem drained_sublist (now : Time) (dst : NsAddr) (q : RQueue) :
    (q.drained now dst).Sublist q :=
  List.filter_sublist.trans List.filter_sublist

/-- What the calls of `deque(dst)` take out of the buffer, in their order. -/
def queued (now : Time) (dst : NsAddr) (q : RQueue) : List AppPacket :=
  (q.purge now).filter (fun p => p.val.ih.daddr == dst)

/-- A packet for `dst` that `deque` has taken out of the buffer. -/
structure Dequed (now : Time) (dst : NsAddr) (q : RQueue) (p : AppPacket) (q' : RQueue) :
    Prop where
  mem : p ∈ q
  daddr : p.val.ih.daddr = dst
  sublist : q'.Sublist q
  length : q'.length < q.length
  drained : q'.drained now dst = q.drained now dst
  queued : q.queued now dst = p :: q'.queued now dst

/-- `deque(dst)` takes a packet out of the buffer, or leaves it drained. -/
theorem deque_cases (now : Time) (dst : NsAddr) (q : RQueue) :
    (∃ p q', q.deque now dst = (some p, q') ∧ q.Dequed now dst p q') ∨
    q.deque now dst = (none, q.drained now dst) ∧ q.queued now dst = [] := by
  unfold deque
  dsimp only
  cases hf : (q.purge now).find? (fun p => p.val.ih.daddr == dst) with
  | none =>
    right
    have hnot := List.find?_eq_none.mp hf
    refine ⟨?_, List.filter_eq_nil_iff.mpr hnot⟩
    have hkeep : q.drained now dst = q.purge now := by
      apply List.filter_eq_self.mpr
      intro p hp
      simpa using hnot p hp
    rw [hkeep, List.eraseP_of_forall_not hnot]
  | some p =>
    left
    obtain ⟨hd, l₁, l₂, hl, hno⟩ := List.find?_eq_some_iff_append.mp hf
    have herase : (q.purge now).eraseP (fun p => p.val.ih.daddr == dst) = l₁ ++ l₂ := by
      rw [hl, List.eraseP_append_right _ (fun x hx => by simpa using hno x hx),
        List.eraseP_cons, hd]
      rfl
    have hpurge : ∀ x ∈ l₁ ++ p :: l₂, x ∈ q ∧ ¬ x.val.ch.ts < now := by
      intro x hx
      have hx := List.mem_filter.mp (hl ▸ hx : x ∈ q.purge now)
      exact ⟨hx.1, by simpa using hx.2⟩
    have hkept : RQueue.purge now (l₁ ++ l₂) = l₁ ++ l₂ := by
      apply List.filter_eq_self.mpr
      intro x hx
      have := (hpurge x (by simp only [List.mem_append, List.mem_cons] at hx ⊢; tauto)).2
      simpa using this
    have hsub : (l₁ ++ p :: l₂).Sublist q := hl ▸ List.filter_sublist
    refine ⟨p, l₁ ++ l₂, by rw [herase], (hpurge p (by simp)).1, by simpa using hd, ?_, ?_, ?_, ?_⟩
    · exact ((List.sublist_cons_self p l₂).append_left l₁).trans hsub
    · have := hsub.length_le
      simp only [List.length_append, List.length_cons] at this ⊢
      omega
    · unfold drained
      rw [hkept, hl]
      simp [List.filter_append, hd]
    · have hnone : l₁.filter (fun p => p.val.ih.daddr == dst) = [] :=
        List.filter_eq_nil_iff.mpr fun x hx => by simpa using hno x hx
      rw [queued, queued, hkept, hl, List.filter_append, List.filter_append, hnone,
        List.nil_append, List.nil_append]
      exact List.filter_cons_of_pos hd

end RQueue

section Loop

variable {β : Type} {env : Env} {dst : NsAddr}
  {body : AppPacket → World × β → Except Fault (World × β)}

/-- An invariant of the loop over the packets buffered for a destination. -/
theorem whileDeque_ok {J : World × β → Prop}
    (hdrop : ∀ w b q, q.Sublist w.rqueue → J (w, b) → J ({ w with rqueue := q }, b))
    (hbody : ∀ p w b q s', p ∈ w.rqueue → p.val.ih.daddr = dst → J (w, b) →
      J ({ w with rqueue := q }, b) → body p ({ w with rqueue := q }, b) = .ok s' → J s')
    {n : Nat} {s s' : World × β} (hs : J s) (h : World.whileDeque env dst body n s = .ok s') :
    J s' := by
  induction n generalizing s with
  | zero =>
    obtain rfl := Except.ok.inj h
    exact hs
  | succ n ih =>
    obtain ⟨w, b⟩ := s
    unfold World.whileDeque at h
    rcases w.rqueue.deque_cases env.now dst with ⟨p, q, hq, hdeq⟩ | ⟨hq, -⟩
    · have hw : w.deque env dst = (some p, { w with rqueue := q }) := by
        simp only [World.deque, hq]
      rw [hw] at h
      obtain ⟨s₁, h₁, h⟩ := of_bind_ok h
      exact ih (hbody p w b q s₁ hdeq.mem hdeq.daddr hs (hdrop w b q hdeq.sublist hs) h₁) h
    · have hw : w.deque env dst = (none, { w with rqueue := w.rqueue.drained env.now dst }) := by
        simp only [World.deque, hq]
      rw [hw] at h
      obtain rfl := Except.ok.inj h
      exact hdrop w b _ (RQueue.drained_sublist _ _ _) hs

variable (env dst body) in
/-- A loop whose body never faults does not fault. -/
theorem whileDeque_total {J : World × β → Prop}
    (hdrop : ∀ w b q, J (w, b) → J ({ w with rqueue := q }, b))
    (hbody : ∀ p s, J s → ∃ s', body p s = .ok s' ∧ J s') {n : Nat} {s : World × β} (hs : J s) :
    ∃ s', World.whileDeque env dst body n s = .ok s' ∧ J s' := by
  induction n generalizing s with
  | zero => exact ⟨s, rfl, hs⟩
  | succ n ih =>
    obtain ⟨w, b⟩ := s
    unfold World.whileDeque
    rcases w.rqueue.deque_cases env.now dst with ⟨p, q, hq, -⟩ | ⟨hq, -⟩
    · have hw : w.deque env dst = (some p, { w with rqueue := q }) := by
        simp only [World.deque, hq]
      obtain ⟨s₁, h₁, hs₁⟩ := hbody p _ (hdrop w b q hs)
      rw [hw]
      dsimp only
      rw [h₁]
      exact ih hs₁
    · have hw : w.deque env dst = (none, { w with rqueue := w.rqueue.drained env.now dst }) := by
        simp only [World.deque, hq]
      rw [hw]
      exact ⟨_, rfl, hdrop w b _ hs⟩

/-- With enough turns, and bodies that leave the buffer alone, the loop drains the buffer. -/
theorem rqueue_whileDeque (hbody : ∀ p s s', body p s = .ok s' → s'.1.rqueue = s.1.rqueue)
    {n : Nat} {s s' : World × β} (hn : s.1.rqueue.length < n)
    (h : World.whileDeque env dst body n s = .ok s') :
    s'.1.rqueue = s.1.rqueue.drained env.now dst := by
  induction n generalizing s with
  | zero => exact absurd hn (Nat.not_lt_zero _)
  | succ n ih =>
    obtain ⟨w, b⟩ := s
    have hn : w.rqueue.length < n + 1 := hn
    unfold World.whileDeque at h
    rcases w.rqueue.deque_cases env.now dst with ⟨p, q, hq, hdeq⟩ | ⟨hq, -⟩
    · have hw : w.deque env dst = (some p, { w with rqueue := q }) := by
        simp only [World.deque, hq]
      rw [hw] at h
      obtain ⟨s₁, h₁, h⟩ := of_bind_ok h
      have hq₁ : s₁.1.rqueue = q := hbody _ _ _ h₁
      have hn₁ : s₁.1.rqueue.length < n := by
        have := hdeq.length
        rw [hq₁]
        omega
      rw [ih hn₁ h, hq₁, hdeq.drained]
    · have hw : w.deque env dst = (none, { w with rqueue := w.rqueue.drained env.now dst }) := by
        simp only [World.deque, hq]
      rw [hw] at h
      obtain rfl := Except.ok.inj h
      rfl

/-- With enough turns, what the body does for a packet is done for one packet for `dst` after the
other, in the order of the buffer, unless they have timed out. -/
theorem whileDeque_each {J : World × β → Prop} {Q : List AppPacket → World × β → Prop}
    (hdrop : ∀ w b q, J (w, b) → J ({ w with rqueue := q }, b))
    (hkeep : ∀ l w b q, Q l (w, b) → Q l ({ w with rqueue := q }, b))
    (hbody : ∀ l p s s', J s → Q l s → body p s = .ok s' →
      J s' ∧ s'.1.rqueue = s.1.rqueue ∧ Q (l ++ [p]) s')
    {n : Nat} {s s' : World × β} (hn : s.1.rqueue.length < n) (hs : J s) {l : List AppPacket}
    (hl : Q l s) (h : World.whileDeque env dst body n s = .ok s') :
    Q (l ++ s.1.rqueue.queued env.now dst) s' := by
  induction n generalizing s l with
  | zero => exact absurd hn (Nat.not_lt_zero _)
  | succ n ih =>
    obtain ⟨w, b⟩ := s
    have hn : w.rqueue.length < n + 1 := hn
    unfold World.whileDeque at h
    rcases w.rqueue.deque_cases env.now dst with ⟨p, q, hq, hdeq⟩ | ⟨hq, hnone⟩
    · have hw : w.deque env dst = (some p, { w with rqueue := q }) := by
        simp only [World.deque, hq]
      rw [hw] at h
      obtain ⟨s₁, h₁, h⟩ := of_bind_ok h
      obtain ⟨hJ, hq₁, hQ⟩ := hbody l p _ s₁ (hdrop w b q hs) (hkeep l w b q hl) h₁
      have hq₁ : s₁.1.rqueue = q := hq₁
      have hn₁ : s₁.1.rqueue.length < n := by
        have := hdeq.length
        rw [hq₁]
        omega
      have hrest := ih hn₁ hJ hQ h
      rw [hq₁, List.append_assoc] at hrest
      rw [hdeq.queued]
      exact hrest
    · have hw : w.deque env dst = (none, { w with rqueue := w.rqueue.drained env.now dst }) := by
        simp only [World.deque, hq]
      rw [hw] at h
      obtain rfl := Except.ok.inj h
      rw [hnone, List.append_nil]
      exact hkeep l w b _ hl

end Loop

end Eamrp
