import Eamrp.Net.Bound

/-!
# Freshness along next hops

The next hop of a path knows a number for the destination that is at least as new as the
one the path was stored under, whatever has happened to the next hop since.
-/

namespace Eamrp

namespace Proto

variable {P : Params} {σ σ' : Proto} {i : NsAddr} {env : Env} {heard : Input}

/-- Node `x` knows a number for `d` that is at least `n`. -/
def Knows (σ : Proto) (x d : NsAddr) (n : UInt32) : Prop :=
  x = d ∧ n ≤ σ.seqno d ∨ x ≠ d ∧ ∃ r, σ.route x d = some r ∧ n ≤ r.seqno

/-- What a node knows it does not forget. -/
theorem Knows.act {x d : NsAddr} {n : UInt32} (h : σ.Knows x d n) (hreach : σ.Reach P)
    (hw' : σ'.NoWrap) (hf : σ.Feeds i heard) (ha : Act i env heard σ σ') : σ'.Knows x d n := by
  rcases h with ⟨hx, hn⟩ | ⟨hx, r, hr, hn⟩
  · have hle : σ.seqno d ≤ σ'.seqno d := UInt32.le_iff_toNat_le.mpr (ha.own_le hw' d)
    exact .inl ⟨hx, UInt32.le_trans hn hle⟩
  · obtain ⟨r', hr', hle⟩ := hreach.seqno_le hf ha hr
    exact .inr ⟨hx, r', hr', UInt32.le_trans hn hle⟩

/-- Whoever is named as the way to a destination knows a number that is fresh enough. -/
structure Fresh (σ : Proto) : Prop where
  route : ∀ i d r, σ.route i d = some r → ∀ ℓ ∈ r.legs, σ.Knows ℓ.nexthop d r.seqno
  advert : ∀ p ∈ σ.flight, ∀ j A, p.advert j = some A → σ.Knows A.via A.dst A.seqno

theorem Fresh.act (hreach : σ.Reach P) (hw' : σ'.NoWrap) (hf : σ.Feeds i heard)
    (ha : Act i env heard σ σ') (h : σ.Fresh) : σ'.Fresh where
  route j d r hr ℓ hℓ := by
    refine Knows.act ?_ hreach hw' hf ha
    rcases ha.route_cases hr with hr | ⟨rfl, ⟨-, rfl⟩ | ⟨r₀, hr₀, hs⟩⟩
    · exact h.route j d r hr ℓ hℓ
    · cases hℓ
    · rcases hs.legs hℓ with ⟨hℓ, hn⟩ | ⟨A, hA, rfl, hn, rfl⟩
      · rw [hn]
        exact h.route _ _ _ hr₀ ℓ hℓ
      · obtain ⟨p, hp, -, hA⟩ := hf.tells hA
        rw [hn]
        exact h.advert p hp _ A hA
  advert p hp j A hA := by
    refine Knows.act ?_ hreach hw' hf ha
    rcases ha.flight_cases hp with hp | ⟨-, w, hw, hs⟩
    · exact h.advert p hp j A hA
    · rcases hw.origin hs hA with ho | ⟨r, ℓ, hr⟩
      · rw [ho.dst, ho.via, ho.seqno]
        exact .inl ⟨rfl, UInt32.le_refl _⟩
      · rw [hr.via, hr.seqno]
        exact .inr ⟨hr.dst.symm, r, hr.route, UInt32.le_refl _⟩

/-- Freshness holds in every reachable state in which no own number has wrapped. -/
theorem Reach.fresh (h : σ.Reach P) (hw : σ.NoWrap) : σ.Fresh := by
  refine h.induct_noWrap ?_ ?_ hw
  · refine ⟨fun _ _ _ h => ?_, fun _ h => ?_⟩
    · cases h
    · exact absurd h (Set.notMem_empty _)
  · intro σ σ' i env heard _ _ hreach hw' hf ha ih
    exact ih.act hreach hw' hf ha

end Proto

end Eamrp
