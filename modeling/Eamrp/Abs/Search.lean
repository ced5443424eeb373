import Eamrp.Abs.Asking
import Eamrp.Lib.Runs

/-!
# Searches for a route

What the request machine of a destination does over many events: how long it waits between
requests, how far they go, and how many of them go through the whole network.
-/

namespace Eamrp

open Lib

namespace Asking

/-- One event, as the machine of a destination sees it. -/
structure Event where
  now : Time
  called : Prop
  ttls : List Int

/-- The machine takes a turn. -/
def Step (s : Asking) (ev : Event) (s' : Asking) : Prop := Turn ev.now ev.called s s' ev.ttls

variable {s s' s₁ s₂ s₃ : Asking} {now now' : Time} {called called' : Prop} {l l' : List Int}
  {t : List (Move Asking Event)}

/-! ### Time to live -/

theorem le_reach (s : Asking) : s.lastTtl ≤ s.reach ∧ s.lastHops ≤ s.reach := by
  unfold reach macroMax
  split
  · omega
  · omega

theorem ttl_of_wide (h : s.Wide) : s.ttl = networkDiameter := by
  rw [ttl, if_pos h]

/-- Only a network-wide request has the largest TTL. -/
theorem ttl_eq_iff (s : Asking) : s.ttl = networkDiameter ↔ s.Wide := by
  refine ⟨fun h => ?_, ttl_of_wide⟩
  by_contra hw
  rw [ttl, if_neg hw] at h
  split at h
  · exact absurd h (by decide)
  · next h0 =>
    have hlt : ¬ ttlThreshold ≤ s.reach := fun hc => hw ⟨h0, hc⟩
    simp only [networkDiameter, ttlIncrement, ttlThreshold] at h hlt
    omega

theorem ttl_pos (h : 0 ≤ s.lastHops) : 0 < s.ttl := by
  have hreach := h.trans s.le_reach.2
  unfold ttl
  split
  · decide
  · split
    · decide
    · simp only [ttlIncrement]
      omega

/-! ### Pacing -/

/-- What the constructor and the handlers leave in an entry. -/
structure Sound (s : Asking) : Prop where
  lastHops : 0 ≤ s.lastHops
  perHop : s.perHop = nodeTraversalTime

theorem sound_start : Sound {} := ⟨by decide, rfl⟩

theorem Turn.sound (h : Turn now called s s' l) (hs : s.Sound) : s'.Sound := by
  cases h with
  | rest h =>
    refine ⟨?_, h.perHop.trans hs.perHop⟩
    rcases h.lastHops with heq | ⟨-, hle⟩
    · rw [heq]
      exact hs.lastHops
    · exact hle
  | found h =>
    refine ⟨?_, h.perHop.trans hs.perHop⟩
    rcases h.lastHops with heq | hle
    · rw [heq]
      exact hs.lastHops
    · exact hle
  | send => exact ⟨hs.lastHops, hs.perHop⟩
  | hold => exact ⟨hs.lastHops, hs.perHop⟩

theorem Sound.of_chain (h : Chain Step s t s') (hs : s.Sound) : s'.Sound := by
  induction h with
  | nil => exact hs
  | cons hstep _ ih => exact ih (Turn.sound hstep hs)

theorem wait_nonneg {ttl : Int} (h : 0 ≤ ttl) (cnt : UInt8) :
    0 ≤ wait nodeTraversalTime ttl cnt := by
  have hmax : (0 : Time) ≤ max 1 (cnt.toNat : Time) := zero_le_one.trans (le_max_left _ _)
  have httl : (0 : Time) ≤ (ttl : Time) := by exact_mod_cast h
  have htrav : (0 : Time) ≤ nodeTraversalTime := by norm_num [nodeTraversalTime]
  have hlimit : (0 : Time) ≤ maxRreqTimeout := by norm_num [maxRreqTimeout]
  unfold wait
  exact le_min hlimit (by positivity)

/-- While the route is not up, the time of the next request only moves on. -/
theorem Turn.timeout_le (h : Turn now called s s' l) (hs : s.Sound) (hdown : s'.up = false) :
    s.timeout ≤ s'.timeout := by
  cases h with
  | rest h => exact h.timeout.ge
  | found h => cases h.up.symm.trans hdown
  | send _ _ ht =>
    have hwait := wait_nonneg (ttl_pos hs.lastHops).le s.nextCnt
    show s.timeout ≤ now + wait s.perHop s.ttl s.nextCnt
    rw [hs.perHop]
    linarith
  | hold _ _ ht =>
    show s.timeout ≤ now + maxRreqTimeout
    have hlimit : (0 : Time) ≤ maxRreqTimeout := by norm_num [maxRreqTimeout]
    linarith

theorem timeout_le_of_chain (h : Chain Step s t s') (hs : s.Sound)
    (hdown : ∀ m ∈ t, m.tgt.up = false) : s.timeout ≤ s'.timeout := by
  induction h with
  | nil => exact le_rfl
  | cons hstep _ ih =>
    have hfirst := Turn.timeout_le hstep hs (hdown _ List.mem_cons_self)
    exact hfirst.trans (ih (Turn.sound hstep hs) fun m hm => hdown m (List.mem_cons_of_mem _ hm))

/-- A request that is sent is the next one, and not before its time. -/
theorem Turn.of_mem (h : Turn now called s s' l) {ttl : Int} (hl : ttl ∈ l) :
    s.timeout ≤ now ∧ ttl = s.ttl ∧ s' = s.sent now := by
  cases h with
  | rest => cases hl
  | found => cases hl
  | send _ _ ht => exact ⟨ht, List.mem_singleton.mp hl, rfl⟩
  | hold => cases hl

/-- Between two requests passes at least the time that the first one is given, if the route is
not up in between. -/
theorem paced {ttl ttl' : Int} (h₁ : Turn now called s s₁ l) (hl : ttl ∈ l)
    (hs : s.Sound) (h : Chain Step s₁ t s₂) (hdown : ∀ m ∈ t, m.tgt.up = false)
    (h₂ : Turn now' called' s₂ s₃ l') (hl' : ttl' ∈ l') :
    wait nodeTraversalTime ttl s₁.cnt ≤ now' - now := by
  have hs₁ := h₁.sound hs
  obtain ⟨-, rfl, rfl⟩ := h₁.of_mem hl
  have hle := timeout_le_of_chain h hs₁ hdown
  have hnext := (h₂.of_mem hl').1
  have htimeout : (s.sent now).timeout = now + wait nodeTraversalTime s.ttl s.nextCnt := by
    rw [sent, hs.perHop]
  rw [htimeout] at hle
  show wait nodeTraversalTime s.ttl s.nextCnt ≤ now' - now
  linarith

/-! ### Ring search -/

/-- The TTLs of all requests. -/
def ttls (t : List (Move Asking Event)) : List Int := t.flatMap fun m => m.label.ttls

theorem ttls_cons (m : Move Asking Event) (t : List (Move Asking Event)) :
    ttls (m :: t) = m.label.ttls ++ ttls t := List.flatMap_cons ..

/-- As long as a route has never been up, the last hop count is the one the constructor wrote,
and all requests go through the whole network. -/
theorem ttls_of_never_up (h : Chain Step s t s') (hs : s.lastHops = 255)
    (hdown : ∀ m ∈ t, m.tgt.up = false) : ∀ x ∈ ttls t, x = networkDiameter := by
  induction h with
  | nil => exact fun x hx => absurd hx List.not_mem_nil
  | @cons s s₁ s' ev t hstep _ ih =>
    have hwide : s.Wide := by
      have hle := hs ▸ s.le_reach.2
      refine ⟨fun h0 => ?_, ?_⟩
      · rw [h0] at hle
        exact absurd hle (by decide)
      · exact le_trans (by decide) hle
    obtain ⟨now, called, l⟩ := ev
    have hnext : s₁.lastHops = 255 := by
      have hdown₁ : s₁.up = false := hdown _ List.mem_cons_self
      cases (hstep : Turn now called s s₁ l) with
      | rest h =>
        rcases h.lastHops with heq | ⟨hup, -⟩
        · exact heq.trans hs
        · cases hup.symm.trans hdown₁
      | found h => cases h.up.symm.trans hdown₁
      | send => exact hs
      | hold => exact hs
    intro x hx
    rw [ttls_cons] at hx
    rcases List.mem_append.mp hx with hx | hx
    · exact (Turn.of_mem hstep hx).2.1.trans (ttl_of_wide hwide)
    · exact ih hnext (fun m hm => hdown m (List.mem_cons_of_mem _ hm)) x hx

/-- No request is sent if and only if none is asked for after time 0. -/
theorem ttls_eq_nil_iff (h : Chain Step s t s') (hup : s.up = false) (ht : s.timeout = 0)
    (hc : s.cnt = 0) (hdown : ∀ m ∈ t, m.tgt.up = false) :
    ttls t = [] ↔ ∀ m ∈ t, 0 ≤ m.label.now → ¬ m.label.called := by
  induction h with
  | nil => exact ⟨fun _ m hm => absurd hm List.not_mem_nil, fun _ => rfl⟩
  | @cons s s₁ s' ev t hstep _ ih =>
    have hdown₁ : s₁.up = false := hdown _ List.mem_cons_self
    rw [ttls_cons, List.append_eq_nil_iff, List.forall_mem_cons]
    have hrest := fun h1 h2 h3 => ih h1 h2 h3 fun m hm => hdown m (List.mem_cons_of_mem _ hm)
    obtain ⟨now, called, l⟩ := ev
    cases (hstep : Turn now called s s₁ l) with
    | rest h hq =>
      rw [hrest hdown₁ (h.timeout.trans ht) (h.cnt.trans hc)]
      refine and_congr_left' ⟨fun _ hnow hcall => ?_, fun _ => rfl⟩
      exact absurd (ht ▸ (hq hcall).2) (not_lt.mpr hnow)
    | found h => cases h.up.symm.trans hdown₁
    | send hcall _ hle =>
      refine ⟨fun h => absurd h.1 (List.cons_ne_nil _ _), fun h => ?_⟩
      exact absurd hcall (h.1 (ht ▸ hle))
    | hold _ _ _ hlt =>
      rw [hc] at hlt
      exact absurd hlt (by decide)

/-! ### The budget of network-wide requests -/

/-- The number of network-wide requests. -/
def wide (t : List (Move Asking Event)) : Nat := (ttls t).count networkDiameter

/-- The counter goes back to 0. -/
def Resets (m : Move Asking Event) : Prop := m.src.cnt ≠ 0 ∧ m.tgt.cnt = 0

/-- A call that neither an active route nor the rate limiter stops. -/
def LetThrough (m : Move Asking Event) : Prop :=
  m.label.called ∧ m.src.timeout ≤ m.label.now

/-- The counter counts network-wide requests. -/
structure Counted (s : Asking) : Prop where
  last : s.cnt ≠ 0 → s.lastTtl = networkDiameter
  le : s.cnt.toNat ≤ 4

theorem counted_start : Counted {} := ⟨fun h => absurd rfl h, by decide⟩

theorem Counted.wide (h : s.Counted) (hc : s.cnt ≠ 0) : s.Wide := by
  have hle := h.last hc ▸ s.le_reach.1
  refine ⟨fun h0 => ?_, ?_⟩
  · rw [h0] at hle
    exact absurd hle (by decide)
  · exact le_trans (by decide) hle

theorem toNat_le_of_not_lt (h : ¬ rreqRetries < s.cnt) : s.cnt.toNat ≤ 3 :=
  UInt8.le_iff_toNat_le.mp (UInt8.not_lt.mp h)

theorem toNat_nextCnt (h : ¬ rreqRetries < s.cnt) :
    s.nextCnt.toNat = s.cnt.toNat + if s.Wide then 1 else 0 := by
  have hle := toNat_le_of_not_lt h
  unfold nextCnt
  split
  · rw [UInt8.toNat_add, UInt8.toNat_one, Nat.mod_eq_of_lt (by omega)]
  · rfl

theorem Turn.counted (h : Turn now called s s' l) (hs : s.Counted) : s'.Counted := by
  cases h with
  | rest h => exact ⟨fun hc => h.lastTtl.trans (hs.last (h.cnt ▸ hc)), h.cnt ▸ hs.le⟩
  | found h => exact ⟨fun hc => absurd h.cnt hc, by rw [h.cnt]; decide⟩
  | send _ _ _ hcnt =>
    have hle := toNat_le_of_not_lt hcnt
    have hnext := toNat_nextCnt hcnt
    constructor
    · intro hc
      show s.ttl = networkDiameter
      apply ttl_of_wide
      by_contra hw
      have hc : s.nextCnt ≠ 0 := hc
      rw [nextCnt, if_neg hw] at hc
      exact hw (hs.wide hc)
    · show s.nextCnt.toNat ≤ 4
      rw [hnext]
      split
      · omega
      · omega
  | hold => exact ⟨fun hc => absurd rfl hc, Nat.zero_le _⟩

/-- Without a reset the counter goes up by the number of network-wide requests. -/
theorem Turn.count (h : Turn now called s s' l) (hr : ¬ (s.cnt ≠ 0 ∧ s'.cnt = 0)) :
    l.count networkDiameter + s.cnt.toNat = s'.cnt.toNat := by
  cases h with
  | rest h => rw [h.cnt, List.count_nil, Nat.zero_add]
  | found h =>
    have hzero : s.cnt = 0 := by
      by_contra hne
      exact hr ⟨hne, h.cnt⟩
    rw [h.cnt, hzero, List.count_nil]
    rfl
  | send _ _ _ hcnt =>
    show [s.ttl].count networkDiameter + s.cnt.toNat = s.nextCnt.toNat
    rw [toNat_nextCnt hcnt, List.count_singleton, Nat.add_comm]
    congr 1
    have hiff := s.ttl_eq_iff
    by_cases hw : s.Wide
    · rw [if_pos hw, if_pos (by simpa using hiff.mpr hw)]
    · rw [if_neg hw, if_neg (by simpa using fun hc => hw (hiff.mp hc))]
  | hold _ _ _ hlt =>
    refine absurd ⟨fun hzero => ?_, rfl⟩ hr
    rw [hzero] at hlt
    exact absurd hlt (by decide)

theorem wide_append (t u : List (Move Asking Event)) : wide (t ++ u) = wide t + wide u := by
  rw [wide, ttls, List.flatMap_append, List.count_append, wide, wide, ttls, ttls]

theorem wide_cons (m : Move Asking Event) (t : List (Move Asking Event)) :
    wide (m :: t) = m.label.ttls.count networkDiameter + wide t := by
  rw [wide, ttls_cons, List.count_append, wide]

theorem wide_of_chain (h : Chain Step s t s') (hr : ∀ m ∈ t, ¬ Resets m) :
    wide t + s.cnt.toNat = s'.cnt.toNat := by
  induction h with
  | nil => exact Nat.zero_add _
  | cons hstep _ ih =>
    have hcount := Turn.count hstep (hr _ List.mem_cons_self)
    have hrest := ih fun m hm => hr m (List.mem_cons_of_mem _ hm)
    rw [wide_cons]
    dsimp only
    omega

/-- The counter is the number of network-wide requests since the last reset. -/
theorem since_reset (h : Chain Step s t s') (hs : s.cnt = 0) :
    ∃ u v, t = u ++ v ∧ (∀ m ∈ v, ¬ Resets m) ∧ wide v = s'.cnt.toNat := by
  induction t using List.reverseRecOn generalizing s' with
  | nil =>
    cases h
    refine ⟨[], [], rfl, fun m hm => absurd hm List.not_mem_nil, ?_⟩
    rw [hs]
    rfl
  | append_singleton t m ih =>
    obtain ⟨s₁, ht, hm⟩ := h.split
    cases hm with
    | @cons _ s₂ _ ev _ hstep hnil =>
      cases hnil
      by_cases hr : Resets ⟨s₁, ev, s'⟩
      · refine ⟨t ++ [⟨s₁, ev, s'⟩], [], (List.append_nil _).symm,
          fun m hm => absurd hm List.not_mem_nil, ?_⟩
        rw [show s'.cnt = 0 from hr.2]
        rfl
      · obtain ⟨u, v, rfl, hv, hw⟩ := ih ht
        refine ⟨u, v ++ [⟨s₁, ev, s'⟩], List.append_assoc .., fun m hm => ?_, ?_⟩
        · rcases List.mem_append.mp hm with hm | hm
          · exact hv m hm
          · obtain rfl := List.mem_singleton.mp hm
            exact hr
        · have hcount := Turn.count hstep hr
          have hnil : wide [] = 0 := rfl
          rw [wide_append, hw, wide_cons, hnil]
          dsimp only
          omega

theorem Counted.of_chain (h : Chain Step s t s') (hs : s.Counted) : s'.Counted := by
  induction h with
  | nil => exact hs
  | cons hstep _ ih => exact ih (Turn.counted hstep hs)

/-- A call that is let through with the counter at the limit sends one more network-wide
request. -/
theorem Turn.at_limit (h : Turn now called s s' l) (hs : s.Counted) (hcall : called)
    (ht : s.timeout ≤ now) (hc : s.cnt = rreqRetries) : s'.cnt.toNat = 4 := by
  cases h with
  | rest _ hq => exact absurd ht (not_le.mpr (hq hcall).2)
  | found _ hq => exact absurd hcall hq
  | send _ _ _ hcnt =>
    have hwide : s.Wide := hs.wide (by rw [hc]; decide)
    show s.nextCnt.toNat = 4
    rw [toNat_nextCnt hcnt, if_pos hwide, hc]
    rfl
  | hold _ _ _ hlt =>
    rw [hc] at hlt
    exact absurd hlt (by decide)

/-- Otherwise the counter stays within the limit. -/
theorem Turn.le_limit (h : Turn now called s s' l) (hs : s.cnt.toNat ≤ 3)
    (hn : called → s.timeout ≤ now → s.cnt ≠ rreqRetries) : s'.cnt.toNat ≤ 3 := by
  cases h with
  | rest h =>
    rw [h.cnt]
    exact hs
  | found h =>
    rw [h.cnt]
    decide
  | send hcall _ ht hcnt =>
    have hne : s.cnt.toNat ≠ 3 := fun hc => hn hcall ht (UInt8.toNat_inj.mp hc)
    show s.nextCnt.toNat ≤ 3
    rw [toNat_nextCnt hcnt]
    split
    · omega
    · omega
  | hold => exact Nat.zero_le _

theorem le_limit_of_chain (h : Chain Step s t s') (hs : s.cnt.toNat ≤ 3)
    (hn : ∀ m ∈ t, LetThrough m → m.src.cnt ≠ rreqRetries) : s'.cnt.toNat ≤ 3 := by
  induction h with
  | nil => exact hs
  | cons hstep _ ih =>
    have hfirst := Turn.le_limit hstep hs fun hc ht => hn _ List.mem_cons_self ⟨hc, ht⟩
    exact ih hfirst fun m hm => hn m (List.mem_cons_of_mem _ hm)

/-- Between two resets at most `RREQ_RETRIES` requests go through the whole network if and only
if no call is let through with the counter at that limit. -/
theorem within_limit_iff (h : Chain Step {} t s') :
    (∀ u v x, t = u ++ v ++ x → (∀ m ∈ v, ¬ Resets m) → wide v ≤ 3) ↔
      ∀ m ∈ t, LetThrough m → m.src.cnt ≠ rreqRetries := by
  constructor
  · intro hall m hm ⟨hcall, ht⟩ hc
    obtain ⟨u, x, rfl⟩ := List.append_of_mem hm
    obtain ⟨s₁, hu, hx⟩ := h.split
    cases hx with
    | @cons _ s₂ _ ev _ hstep _ =>
      have hfour := Turn.at_limit hstep (counted_start.of_chain hu) hcall ht hc
      obtain ⟨u₀, v, rfl, hv, hw⟩ := since_reset hu rfl
      have hreset : ¬ Resets ⟨s₁, ev, s₂⟩ := by
        rintro ⟨-, hzero⟩
        have hzero : s₂.cnt = 0 := hzero
        rw [hzero] at hfour
        exact absurd hfour (by decide)
      have hcount := Turn.count hstep hreset
      have hle := hall u₀ (v ++ [⟨s₁, ev, s₂⟩]) x (by simp [List.append_assoc]) fun m hm => by
        rcases List.mem_append.mp hm with hm | hm
        · exact hv m hm
        · obtain rfl := List.mem_singleton.mp hm
          exact hreset
      have hnil : wide [] = 0 := rfl
      rw [wide_append, wide_cons, hnil, hw] at hle
      dsimp only at hle
      omega
  · intro hn u v x ht hv
    subst ht
    obtain ⟨s₂, huv, -⟩ := h.split
    obtain ⟨s₁, -, hv'⟩ := huv.split
    have hle := le_limit_of_chain huv (Nat.zero_le _) fun m hm =>
      hn m (List.mem_append_left _ hm)
    have hcount := wide_of_chain hv' hv
    omega

end Asking

end Eamrp
