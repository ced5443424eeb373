import Eamrp.Net.Said

/-!
# Parity of sequence numbers

Valid numbers are even and numbers of lost routes are odd, in all tables, counters and
packets. The invariant does not depend on counters not wrapping, since `2^32` is even.
-/

namespace Eamrp

/-- The parity discipline of one route. -/
structure Route.Parity (r : Route) : Prop where
  up : r.up = true → r.seqno % 2 = 0 ∧ 2 ≤ r.seqno
  down : r.up = false → r.seqno % 2 = 1 ∨ r.seqno = 0
  highest : r.highest % 2 = 1 ∨ r.highest = 0

namespace Route

theorem parity_fresh : fresh.Parity :=
  ⟨fun h => by simp [fresh] at h, fun _ => .inr rfl, .inr rfl⟩

/-- Under the parity discipline the number of a lost route is odd and newer. -/
theorem Parity.nextSeqno {r : Route} (h : r.Parity) (hup : r.up = true) :
    r.nextSeqno % 2 = 1 ∧ r.seqno < r.nextSeqno := by
  obtain ⟨hev, hge⟩ := h.up hup
  rcases h.highest with hh | hh <;> unfold Route.nextSeqno macroMax <;> grind

end Route

/-- A change of a route keeps its parity discipline if what is heard follows it, and the
number of the route does not decrease. -/
theorem RouteStep.parity {inf : Infinity} {i d : NsAddr} {heard : Input} {r r' : Route}
    (h : RouteStep inf i d heard r r') (hr : r.Parity)
    (hA : ∀ A, Hears heard i A → A.seqno % 2 = 0)
    (hE : ∀ x n, HearsError heard x d n → n % 2 = 1 ∨ n = 0) :
    r'.Parity ∧ r.seqno ≤ r'.seqno := by
  cases h with
  | freeze hup => exact ⟨⟨hr.up, hr.down, hr.highest⟩, UInt32.le_refl _⟩
  | @renew A hA' hd hne hs =>
    have hev := hA A hA'
    refine ⟨⟨fun _ => ⟨hev, ?_⟩, fun h => (by cases h), hr.highest⟩, UInt32.le_of_lt hs⟩
    change 2 ≤ A.seqno
    grind
  | add => exact ⟨⟨hr.up, hr.down, hr.highest⟩, UInt32.le_refl _⟩
  | @lose legs k n hup hl hne hk hn =>
    refine ⟨⟨hr.up, hr.down, ?_⟩, UInt32.le_refl _⟩
    rcases hn with rfl | ⟨x, m, hm, rfl⟩
    · exact hr.highest
    · have := hE x m hm
      have := hr.highest
      unfold macroMax
      split <;> assumption
  | @fail n hup hn =>
    obtain ⟨hodd, hlt⟩ := hr.nextSeqno hup
    have hn : n = r.nextSeqno := by
      rcases hn with hn | ⟨-, hn⟩
      · exact hn
      · rw [hodd] at hn
        exact absurd hn (by decide)
    subst hn
    exact ⟨⟨fun h => (by cases h), fun _ => .inl hodd, hr.highest⟩, UInt32.le_of_lt hlt⟩
  | @withdraw x m hup hE' hs =>
    obtain ⟨hev, hge⟩ := hr.up hup
    have hm := hE x m hE'
    have hh := hr.highest
    have hmax : macroMax r.highest m % 2 = 1 ∧ r.seqno ≤ macroMax r.highest m := by
      unfold macroMax
      grind
    exact ⟨⟨fun h => (by cases h), fun _ => .inl hmax.1, .inl hmax.1⟩, hmax.2⟩

namespace Proto

variable {P : Params} {σ σ' : Proto} {i : NsAddr} {env : Env} {heard : Input}

/-- The parity discipline of the protocol. -/
structure Parity (σ : Proto) : Prop where
  own : ∀ i, σ.seqno i % 2 = 0
  route : ∀ i d r, σ.route i d = some r → r.Parity
  advert : ∀ p ∈ σ.flight, ∀ j A, p.advert j = some A → A.seqno % 2 = 0
  error : ∀ x d n, σ.TellsError x d n → n % 2 = 1 ∨ n = 0

theorem Parity.hears {A : Advert} (h : σ.Parity) (hf : σ.Feeds i heard)
    (hA : Hears heard i A) : A.seqno % 2 = 0 := by
  obtain ⟨p, hp, -, hA⟩ := hf.tells hA
  exact h.advert p hp i A hA

/-- The change of a route in a state that follows the parity discipline. -/
theorem Parity.routeStep {inf : Infinity} {d : NsAddr} {r r' : Route} (h : σ.Parity)
    (hf : σ.Feeds i heard) (hr : σ.route i d = some r) (hs : RouteStep inf i d heard r r') :
    r'.Parity ∧ r.seqno ≤ r'.seqno :=
  hs.parity (h.route i d r hr) (fun _ hA => h.hears hf hA)
    (fun _ _ hE => h.error _ _ _ (hf.tellsError hE))

theorem Parity.act (hf : σ.Feeds i heard) (ha : Act i env heard σ σ') (h : σ.Parity) :
    σ'.Parity where
  own j := by
    rcases ha.seqno_cases j with hj | ⟨rfl, hs⟩
    · rw [hj]
      exact h.own j
    · cases hs with
      | bump hev => exact hev (h.own _)
      | raise _ _ hev => exact hev
  route j d r hr := by
    rcases ha.route_cases hr with hr | ⟨rfl, ⟨-, rfl⟩ | ⟨r₀, hr₀, hs⟩⟩
    · exact h.route j d r hr
    · exact Route.parity_fresh
    · exact (h.routeStep hf hr₀ hs).1
  advert p hp j A hA := by
    rcases ha.flight_cases hp with hp | ⟨-, w, hw, hs⟩
    · exact h.advert p hp j A hA
    · rcases hw.origin hs hA with ho | ⟨r, ℓ, hr⟩
      · rw [ho.seqno]
        exact h.own i
      · rw [hr.seqno]
        exact ((h.route _ _ _ hr.route).up hr.up).1
  error := by
    rintro x d n ⟨p, hp, re, hb, hx, hu⟩
    rcases ha.flight_cases hp with hp | ⟨-, w, hw, hs⟩
    · exact h.error x d n ⟨p, hp, re, hb, hx, hu⟩
    · obtain ⟨r, hr, hdown, rfl⟩ := hw.error hs hb hu
      exact (h.route _ _ _ hr).down hdown

/-- The parity discipline holds in every reachable state. -/
theorem Reach.parity (h : σ.Reach P) : σ.Parity := by
  refine h.induct ?_ fun σ σ' i env heard _ _ _ hf ha hp => hp.act hf ha
  refine ⟨fun _ => by simp [init], fun _ _ _ h => ?_, fun _ h => ?_, ?_⟩
  · cases h
  · exact absurd h (Set.notMem_empty _)
  · rintro _ _ _ ⟨p, hp, -⟩
    exact absurd hp (Set.notMem_empty _)

/-- No node has a route to itself: an entry for the own address stays as it was made. -/
theorem Reach.own_route (h : σ.Reach P) {i : NsAddr} {r : Route} (hr : σ.route i i = some r) :
    r = .fresh := by
  refine h.induct (I := fun σ => ∀ r, σ.route i i = some r → r = .fresh) ?_ ?_ r hr
  · intro r hr
    cases hr
  · intro σ σ' j env heard _ _ _ _ ha ih r hr
    rcases ha.route_cases hr with hr | ⟨rfl, ⟨-, rfl⟩ | ⟨r₀, hr₀, hs⟩⟩
    · exact ih r hr
    · rfl
    · have hdown : r₀.up = false := by rw [ih r₀ hr₀]; rfl
      cases hs with
      | renew _ _ hne => exact absurd rfl hne
      | freeze hup => simp [hdown] at hup
      | add _ _ hup => simp [hdown] at hup
      | lose hup => simp [hdown] at hup
      | fail hup => simp [hdown] at hup
      | withdraw hup => simp [hdown] at hup

/-- The number of a route never decreases, and routes stay. -/
theorem Reach.seqno_le (h : σ.Reach P) (hf : σ.Feeds i heard) (ha : Act i env heard σ σ')
    {j d : NsAddr} {r : Route} (hr : σ.route j d = some r) :
    ∃ r', σ'.route j d = some r' ∧ r.seqno ≤ r'.seqno := by
  obtain ⟨r', hr', rfl | ⟨rfl, hs⟩⟩ := ha.route_some hr
  · exact ⟨r', hr', UInt32.le_refl _⟩
  · exact ⟨r', hr', (h.parity.routeStep hf hr hs).2⟩

end Proto

end Eamrp
