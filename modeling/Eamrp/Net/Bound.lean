import Eamrp.Net.Parity

/-!
# Only the destination creates sequence numbers

As long as no own number has wrapped, every number about a destination that is stored or in
flight is at most one above the destination's own number, and every valid one is at most
that number.
-/

namespace Eamrp

theorem toNat_mod_two {n : UInt32} : n.toNat % 2 = (n % 2).toNat := by simp

theorem toNat_even {n : UInt32} (h : n % 2 = 0) : n.toNat % 2 = 0 := by
  rw [toNat_mod_two, h]
  rfl

/-- The numbers of a route are at most `b + 1`. -/
structure Route.Bounded (b : Nat) (r : Route) : Prop where
  seqno : r.seqno.toNat ≤ b + 1
  highest : r.highest.toNat ≤ b + 1

/-- A route which is up has a number of at most `b`, when `b` is even. -/
theorem Route.Bounded.of_up {b : Nat} {r : Route} (h : r.Bounded b) (hp : r.Parity)
    (hb : b % 2 = 0) (hup : r.up = true) : r.seqno.toNat ≤ b := by
  have := toNat_even (hp.up hup).1
  have := h.seqno
  omega

theorem Route.Bounded.mono {b b' : Nat} {r : Route} (h : r.Bounded b) (hb : b ≤ b') :
    r.Bounded b' :=
  ⟨by have := h.seqno; omega, by have := h.highest; omega⟩

private theorem toNat_macroMax (a b : UInt32) : (macroMax a b).toNat = max a.toNat b.toNat := by
  unfold macroMax
  split
  · next h => rw [UInt32.lt_iff_toNat_lt] at h; omega
  · next h => rw [UInt32.lt_iff_toNat_lt] at h; omega

/-- A change of a route keeps its numbers within the bound. -/
theorem RouteStep.bounded {inf : Infinity} {i d : NsAddr} {heard : Input} {r r' : Route}
    (h : RouteStep inf i d heard r r') {b : Nat} (hr : r.Bounded b) (hp : r.Parity)
    (hb : b % 2 = 0) (hA : ∀ A, Hears heard i A → A.dst = d → A.seqno.toNat ≤ b)
    (hE : ∀ x n, HearsError heard x d n → n.toNat ≤ b + 1) : r'.Bounded b := by
  cases h with
  | freeze => exact ⟨hr.seqno, hr.highest⟩
  | @renew A hA' hd =>
    have := hA A hA' hd
    exact ⟨Nat.le_succ_of_le this, hr.highest⟩
  | add => exact ⟨hr.seqno, hr.highest⟩
  | @lose legs k n hup hl hne hk hn =>
    refine ⟨hr.seqno, ?_⟩
    rcases hn with rfl | ⟨x, m, hm, rfl⟩
    · exact hr.highest
    · have := hE x m hm
      have := hr.highest
      simp only [toNat_macroMax]
      omega
  | @fail n hup hn =>
    obtain ⟨hodd, -⟩ := hp.nextSeqno hup
    have hn : n = r.nextSeqno := by
      rcases hn with hn | ⟨-, hn⟩
      · exact hn
      · rw [hodd] at hn
        exact absurd hn (by decide)
    refine ⟨?_, hr.highest⟩
    have hle := hr.of_up hp hb hup
    have hnext : (r.seqno + 1).toNat ≤ r.seqno.toNat + 1 := by
      rw [UInt32.toNat_add]
      exact Nat.mod_le _ _
    have hh := hr.highest
    change n.toNat ≤ b + 1
    rw [hn, Route.nextSeqno, toNat_macroMax]
    omega
  | @withdraw x m hup hE' =>
    have hm := hE x m hE'
    have hh := hr.highest
    have : (macroMax r.highest m).toNat ≤ b + 1 := by
      rw [toNat_macroMax]
      omega
    exact ⟨this, this⟩

/-- An own number that has not wrapped rises. -/
theorem OwnStep.le {heard : Input} {i : NsAddr} {n n' : UInt32} {b b' : Bool}
    (h : OwnStep heard i n b n' b') (hb : b' = false) : n.toNat ≤ n'.toNat := by
  cases h with
  | bump _ h =>
    have := (h hb).2
    omega
  | raise _ _ _ h =>
    rw [(h hb).2, raisedSeqno]
    grind

namespace Proto

variable {P : Params} {σ σ' : Proto} {i : NsAddr} {env : Env} {heard : Input}

/-- Own numbers that have not wrapped do not decrease. -/
theorem Act.own_le (ha : Act i env heard σ σ') (hw : σ'.NoWrap) (j : NsAddr) :
    (σ.seqno j).toNat ≤ (σ'.seqno j).toNat := by
  rcases ha.seqno_cases j with hj | ⟨rfl, hs⟩
  · rw [hj]
  · exact hs.le (hw _)

/-- Numbers about a destination are bounded by the destination's own number. -/
structure Bounded (σ : Proto) : Prop where
  own : ∀ i, 2 ≤ (σ.seqno i).toNat
  route : ∀ i d r, σ.route i d = some r → r.Bounded (σ.seqno d).toNat
  advert : ∀ p ∈ σ.flight, ∀ j A, p.advert j = some A →
    2 ≤ A.seqno.toNat ∧ A.seqno.toNat ≤ (σ.seqno A.dst).toNat
  request : ∀ rq, σ.TellsRequest rq → rq.rqDstSeqno.toNat ≤ (σ.seqno rq.rqDst).toNat + 1
  error : ∀ x d n, σ.TellsError x d n → n.toNat ≤ (σ.seqno d).toNat + 1

theorem Bounded.hears {A : Advert} (h : σ.Bounded) (hf : σ.Feeds i heard)
    (hA : Hears heard i A) : 2 ≤ A.seqno.toNat ∧ A.seqno.toNat ≤ (σ.seqno A.dst).toNat := by
  obtain ⟨p, hp, -, hA⟩ := hf.tells hA
  exact h.advert p hp i A hA

theorem Bounded.act (hp : σ.Parity) (hw' : σ'.NoWrap) (hf : σ.Feeds i heard)
    (ha : Act i env heard σ σ') (h : σ.Bounded) : σ'.Bounded where
  own j := (h.own j).trans (ha.own_le hw' j)
  route j d r hr := by
    refine Route.Bounded.mono ?_ (ha.own_le hw' d)
    rcases ha.route_cases hr with hr | ⟨rfl, ⟨-, rfl⟩ | ⟨r₀, hr₀, hs⟩⟩
    · exact h.route j d r hr
    · exact ⟨Nat.zero_le _, Nat.zero_le _⟩
    · refine hs.bounded (h.route _ _ _ hr₀) (hp.route _ _ _ hr₀) (toNat_even (hp.own d)) ?_ ?_
      · rintro A hA rfl
        exact (h.hears hf hA).2
      · exact fun x n hE => h.error _ _ _ (hf.tellsError hE)
  advert p hp' j A hA := by
    refine (fun h' => ⟨h'.1, h'.2.trans (ha.own_le hw' A.dst)⟩ : 2 ≤ A.seqno.toNat ∧
      A.seqno.toNat ≤ (σ.seqno A.dst).toNat → _) ?_
    rcases ha.flight_cases hp' with hp' | ⟨-, w, hw, hs⟩
    · exact h.advert p hp' j A hA
    · rcases hw.origin hs hA with ho | ⟨r, ℓ, hr⟩
      · rw [ho.seqno, ho.dst]
        exact ⟨h.own i, Nat.le_refl _⟩
      · have hpar := hp.route _ _ _ hr.route
        rw [hr.seqno]
        exact ⟨UInt32.le_iff_toNat_le.mp (hpar.up hr.up).2,
          (h.route _ _ _ hr.route).of_up hpar (toNat_even (hp.own _)) hr.up⟩
  request := by
    rintro rq ⟨p, hp', hb⟩
    refine Nat.le_trans ?_ (Nat.succ_le_succ (ha.own_le hw' rq.rqDst))
    rcases ha.flight_cases hp' with hp' | ⟨-, w, hw, hs⟩
    · exact h.request rq ⟨p, hp', hb⟩
    · rcases hw.request hs hb with ⟨r, hr, hn⟩ | ⟨rq', hh, hd, hn⟩
      · rw [hn]
        exact (h.route _ _ _ hr).seqno
      · rw [hn, ← hd]
        exact h.request rq' (hf.tellsRequest hh)
  error := by
    rintro x d n ⟨p, hp', re, hb, hx, hu⟩
    refine Nat.le_trans ?_ (Nat.succ_le_succ (ha.own_le hw' d))
    rcases ha.flight_cases hp' with hp' | ⟨-, w, hw, hs⟩
    · exact h.error x d n ⟨p, hp', re, hb, hx, hu⟩
    · obtain ⟨r, hr, -, rfl⟩ := hw.error hs hb hu
      exact (h.route _ _ _ hr).seqno

/-- The bounds hold in every reachable state in which no own number has wrapped. -/
theorem Reach.bounded (h : σ.Reach P) (hw : σ.NoWrap) : σ.Bounded := by
  refine h.induct_noWrap ?_ ?_ hw
  · refine ⟨fun _ => by simp [init], fun _ _ _ h => ?_, fun _ h => ?_, ?_, ?_⟩
    · cases h
    · exact absurd h (Set.notMem_empty _)
    · rintro _ ⟨p, hp, -⟩
      exact absurd hp (Set.notMem_empty _)
    · rintro _ _ _ ⟨p, hp, -⟩
      exact absurd hp (Set.notMem_empty _)
  · intro σ σ' i env heard _ _ hreach hw' hf ha ih
    exact ih.act hreach.parity hw' hf ha

end Proto

end Eamrp
