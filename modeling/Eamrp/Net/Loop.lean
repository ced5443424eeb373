import Eamrp.Net.Bound
import Eamrp.Lib.Rank

/-!
# Loop freedom

With `INFINITY` as the sentinel `0xff`. An advertised hop count is fixed on first use and is
one above some hop count that was heard under the same number, so hop counts that are heard
form a ladder whose rungs are said by different nodes. With at most 254 nodes no hop count
on the ladder reaches the sentinel, and the pair of sequence number and advertised hop count
improves along every edge.
-/

namespace Eamrp

/-- A fixed hop count stays for as long as the number of the route does. -/
theorem RouteStep.adv_eq {i d : NsAddr} {heard : Input} {r r' : Route}
    (h : RouteStep .sentinel i d heard r r') (hp : r.Parity) (hp' : r'.Parity)
    (hne : r.adv ≠ infinity2) (hs : r'.seqno = r.seqno) : r'.adv = r.adv := by
  have hlost : ∀ n m, r.up = true → (r.lost .sentinel n m).Parity → n ≠ r.seqno := by
    intro n m hup hl heq
    obtain ⟨hev, hge⟩ := hp.up hup
    have := hl.down rfl
    simp only [Route.lost] at this
    grind
  cases h with
  | freeze =>
    simp only [Route.freeze, Infinity.eqU16]
    exact if_neg (by simpa [infinity2] using hne)
  | renew _ _ _ hlt => exact absurd hs (Ne.symm (UInt32.ne_of_lt hlt))
  | add => rfl
  | lose => rfl
  | fail hup => exact absurd hs (hlost _ _ hup hp')
  | withdraw hup => exact absurd hs (hlost _ _ hup hp')

namespace Proto

variable {P : Params} {σ σ' : Proto} {i : NsAddr} {env : Env} {heard : Input}

/-- An advertisement has been said. -/
def Said (σ : Proto) (A : Advert) : Prop := ∃ p ∈ σ.flight, ∃ j, p.advert j = some A

theorem Said.mono {A : Advert} (h : σ.flight ⊆ σ'.flight) (hA : σ.Said A) : σ'.Said A := by
  obtain ⟨p, hp, hA⟩ := hA
  exact ⟨p, h hp, hA⟩

theorem Feeds.said {A : Advert} (hf : σ.Feeds i heard) (h : Hears heard i A) : σ.Said A := by
  obtain ⟨p, hp, -, hA⟩ := hf.tells h
  exact ⟨p, hp, i, hA⟩

/-- An advertisement for `d` under number `n` has been said that is one hop shorter than
`h`. -/
def Rung (σ : Proto) (d : NsAddr) (n : UInt32) (h : ℕ) : Prop :=
  ∃ A, σ.Said A ∧ A.dst = d ∧ A.seqno = n ∧ A.hops.toNat + 1 = h

theorem Rung.mono {d : NsAddr} {n : UInt32} {k : ℕ} (h : σ.flight ⊆ σ'.flight)
    (hr : σ.Rung d n k) : σ'.Rung d n k := by
  obtain ⟨A, hA, hr⟩ := hr
  exact ⟨A, hA.mono h, hr⟩

/-- The route of the sender of an advertisement has moved on or still has its hop count. -/
def Backed (σ : Proto) (A : Advert) : Prop :=
  ∃ r, σ.route A.via A.dst = some r ∧
    (A.seqno < r.seqno ∨ A.seqno = r.seqno ∧ r.adv = A.hops.toUInt16 ∧ r.adv ≠ infinity2)

/-- The ladder of hop counts, with `INFINITY` as the sentinel. -/
structure Ladder (P : Params) (σ : Proto) : Prop where
  nodes : ∀ A, σ.Said A → A.via ∈ P.nodes
  own : ∀ A, σ.Said A → A.via = A.dst → A.hops = 0
  backed : ∀ A, σ.Said A → A.via ≠ A.dst → σ.Backed A
  rung : ∀ A, σ.Said A → A.via ≠ A.dst → σ.Rung A.dst A.seqno A.hops.toNat
  unique : ∀ A B, σ.Said A → σ.Said B → A.via = B.via → A.dst = B.dst → A.seqno = B.seqno →
    A.hops = B.hops
  legs : ∀ i d r, σ.route i d = some r → ∀ ℓ ∈ r.legs,
    ∃ A, σ.Said A ∧ A.dst = d ∧ A.seqno = r.seqno ∧ A.leg = ℓ ∧ A.hops.toUInt16 < r.adv
  frozen : ∀ i d r, σ.route i d = some r → r.up = true → r.adv ≠ infinity2 →
    σ.Rung d r.seqno r.adv.toNat

/-- The ladder has no more rungs than there are nodes. -/
theorem Ladder.hops_lt (h : σ.Ladder P) {A : Advert} (hA : σ.Said A) :
    A.hops.toNat < P.nodes.card := by
  refine Lib.rank_lt_card (R := fun a n => ∃ B, σ.Said B ∧ B.dst = A.dst ∧
    B.seqno = A.seqno ∧ B.via = a ∧ B.hops.toNat = n) P.nodes ?_ ?_ ?_
    ⟨A, hA, rfl, rfl, rfl, rfl⟩
  · rintro a n ⟨B, hB, -, -, rfl, -⟩
    exact h.nodes B hB
  · rintro a m n ⟨B, hB, hd, hs, hv, rfl⟩ ⟨C, hC, hd', hs', hv', rfl⟩
    rw [h.unique B C hB hC (hv.trans hv'.symm) (hd.trans hd'.symm) (hs.trans hs'.symm)]
  · rintro a n ⟨B, hB, hd, hs, rfl, hn⟩
    have hne : B.via ≠ B.dst := by
      intro heq
      have := h.own B hB heq
      rw [this] at hn
      simp at hn
    obtain ⟨C, hC, hd', hs', hn'⟩ := h.rung B hB hne
    exact ⟨C.via, C, hC, hd'.trans hd, hs'.trans hs, rfl, by omega⟩

/-- The hop count of a leg over the sender of an advertisement does not wrap. -/
theorem toNat_hopcount (A : Advert) : A.hopcount.toNat = A.hops.toNat + 1 := by
  have := A.hops.toNat_lt
  simp only [Advert.hopcount, UInt16.toNat_add, UInt8.toNat_toUInt16, UInt16.toNat_one]
  omega

theorem hopcount_ne_zero (A : Advert) : A.hopcount ≠ 0 := by
  intro h
  have := toNat_hopcount A
  rw [h] at this
  simp at this

/-- The legs of a route bound the hop count it is advertised with from below. -/
theorem Ladder.maxHopcount {d : NsAddr} {r : Route} (h : σ.Ladder P) (hc : P.nodes.card ≤ 254)
    (hr : σ.route i d = some r) (hne : r.legs ≠ []) :
    (∀ ℓ ∈ r.legs, ℓ.hopcount ≤ r.maxHopcount) ∧ r.maxHopcount ≠ infinity2 ∧
      σ.Rung d r.seqno r.maxHopcount.toNat := by
  have hpos : ∀ ℓ ∈ r.legs, ℓ.hopcount ≠ 0 := by
    intro ℓ hℓ
    obtain ⟨A, -, -, -, rfl, -⟩ := h.legs _ _ _ hr ℓ hℓ
    exact hopcount_ne_zero A
  obtain ⟨hmax, ℓ, hℓ, heq⟩ := Route.maxHopcount_spec hne hpos
  obtain ⟨A, hA, hd, hs, hl, -⟩ := h.legs _ _ _ hr ℓ hℓ
  have hm : r.maxHopcount.toNat = A.hops.toNat + 1 := by
    rw [← heq, ← hl]
    exact toNat_hopcount A
  refine ⟨hmax, ?_, A, hA, hd, hs, hm.symm⟩
  intro hinf
  have := h.hops_lt hA
  rw [hinf] at hm
  simp only [infinity2] at hm
  have : (0xff : UInt16).toNat = 255 := rfl
  omega

/-- A route that is advertised has a hop count of the ladder. -/
theorem Ladder.routeAdvert {A : Advert} {r : Route} {ℓ : Leg} (h : σ.Ladder P)
    (hc : P.nodes.card ≤ 254) (ha : RouteAdvert .sentinel σ i A r ℓ) :
    r.adv ≠ infinity2 ∧ σ.Rung A.dst r.seqno r.adv.toNat ∧ A.hops.toUInt16 = r.adv := by
  have hne : r.adv ≠ infinity2 := by
    intro hinf
    have hlegs : r.legs ≠ [] := by
      intro hnil
      have := ha.head
      simp [hnil] at this
    have hmax := (h.maxHopcount hc ha.route hlegs).2.1
    have hfr := congrArg Route.adv ha.frozen
    simp only [Route.freeze, Infinity.eqU16, hinf] at hfr
    exact hmax hfr
  have hr := h.frozen _ _ _ ha.route ha.up hne
  refine ⟨hne, hr, ?_⟩
  obtain ⟨B, hB, -, -, hB'⟩ := hr
  have := h.hops_lt hB
  rw [ha.hops]
  apply UInt16.toNat_inj.mp
  simp only [UInt8.toNat_toUInt16, UInt16.toNat_toUInt8]
  omega

/-- Where an advertisement that has been said comes from. -/
theorem Act.said_cases (ha : Act i env heard σ σ') {A : Advert} (h : σ'.Said A) :
    σ.Said A ∨ ∃ p j, σ' = σ.say p ∧
      (OwnAdvert σ i j p A ∨ ∃ r ℓ, RouteAdvert env.inf σ i A r ℓ) := by
  obtain ⟨p, hp, j, hA⟩ := h
  rcases ha.flight_cases hp with hp | ⟨heq, w, hw, hs⟩
  · exact .inl ⟨p, hp, j, hA⟩
  · exact .inr ⟨p, j, heq, hw.origin hs hA⟩

theorem Backed.act {A : Advert} (h : σ.Backed A) (hp : σ.Parity) (hinf : env.inf = .sentinel)
    (hf : σ.Feeds i heard) (ha : Act i env heard σ σ') : σ'.Backed A := by
  obtain ⟨r, hr, hA⟩ := h
  obtain ⟨r', hr', rfl | ⟨hi, hs⟩⟩ := ha.route_some hr
  · exact ⟨r', hr', hA⟩
  · subst hi
    rw [hinf] at hs
    obtain ⟨hp', hle⟩ := hp.routeStep hf hr hs
    refine ⟨r', hr', ?_⟩
    rcases hA with hA | ⟨hA, hadv, hne⟩
    · exact .inl (UInt32.lt_of_lt_of_le hA hle)
    · by_cases heq : r'.seqno = r.seqno
      · have := hs.adv_eq (hp.route _ _ _ hr) hp' hne heq
        exact .inr ⟨hA.trans heq.symm, this.trans hadv, this ▸ hne⟩
      · exact .inl (hA ▸ UInt32.lt_of_le_of_ne hle (Ne.symm heq))

/-- The legs of a changed route are still below its advertised hop count. -/
theorem Ladder.legs_routeStep {d : NsAddr} {r r' : Route} (h : σ.Ladder P)
    (hc : P.nodes.card ≤ 254) (hf : σ.Feeds i heard) (hr : σ.route i d = some r)
    (hs : RouteStep .sentinel i d heard r r') {ℓ : Leg} (hℓ : ℓ ∈ r'.legs) :
    ∃ A, σ.Said A ∧ A.dst = d ∧ A.seqno = r'.seqno ∧ A.leg = ℓ ∧ A.hops.toUInt16 < r'.adv := by
  cases hs with
  | freeze hup =>
    obtain ⟨A, hA, hd, hs, rfl, hlt⟩ := h.legs _ _ _ hr ℓ hℓ
    refine ⟨A, hA, hd, hs, rfl, ?_⟩
    have hle := (h.maxHopcount hc hr (List.ne_nil_of_mem hℓ)).1 _ hℓ
    simp only [Route.freeze]
    split
    · rw [UInt16.lt_iff_toNat_lt, UInt8.toNat_toUInt16]
      rw [UInt16.le_iff_toNat_le] at hle
      have := toNat_hopcount A
      simp only [Advert.leg] at hle
      omega
    · exact hlt
  | @renew A hA hd hne hs =>
    obtain rfl := List.mem_singleton.mp hℓ
    refine ⟨A, hf.said hA, hd, rfl, rfl, ?_⟩
    have := h.hops_lt (hf.said hA)
    rw [UInt16.lt_iff_toNat_lt, UInt8.toNat_toUInt16]
    have : Infinity.sentinel.toU16.toNat = 255 := rfl
    simp only [this]
    omega
  | @add A hA hd hup hs hh hn =>
    rcases List.mem_append.mp hℓ with hℓ | hℓ
    · exact h.legs _ _ _ hr ℓ hℓ
    · obtain rfl := List.mem_singleton.mp hℓ
      exact ⟨A, hf.said hA, hd, hs.symm, rfl, hh⟩
  | lose hup hl => exact h.legs _ _ _ hr ℓ (hl.subset hℓ)
  | fail => cases hℓ
  | withdraw => cases hℓ

/-- A hop count that is fixed is one above a hop count that was heard. -/
theorem Ladder.frozen_routeStep {d : NsAddr} {r r' : Route} (h : σ.Ladder P)
    (hc : P.nodes.card ≤ 254) (hr : σ.route i d = some r)
    (hs : RouteStep .sentinel i d heard r r') (hup : r'.up = true) (hne : r'.adv ≠ infinity2) :
    σ.Rung d r'.seqno r'.adv.toNat := by
  cases hs with
  | freeze hup =>
    simp only [Route.freeze] at hne ⊢
    split
    · next heq =>
      rw [if_pos heq] at hne
      refine (h.maxHopcount hc hr ?_).2.2
      intro hnil
      simp [Route.maxHopcount, hnil] at hne
    · next heq =>
      rw [if_neg heq] at hne
      exact h.frozen _ _ _ hr hup hne
  | renew => exact absurd rfl hne
  | add _ _ hup => exact h.frozen i d r hr hup hne
  | lose hup => exact h.frozen i d r hr hup hne
  | fail => cases hup
  | withdraw => cases hup

/-- What a node comes to say agrees with what it has said. -/
theorem Ladder.agree {p : Packet} {j : NsAddr} {A B : Advert} (h : σ.Ladder P)
    (hA : OwnAdvert σ i j p A ∨ ∃ r ℓ, RouteAdvert .sentinel σ i A r ℓ) (hB : σ.Said B)
    (hvia : A.via = B.via) (hdst : A.dst = B.dst) (hseq : A.seqno = B.seqno) :
    A.hops = B.hops := by
  rcases hA with ho | ⟨r, ℓ, hr⟩
  · have heq : B.via = B.dst := by rw [← hvia, ← hdst, ho.via, ho.dst]
    rw [ho.hops, h.own B hB heq]
  · have hne : B.via ≠ B.dst := by
      rw [← hvia, ← hdst, hr.via]
      exact hr.dst.symm
    obtain ⟨r', hr', hlt | ⟨-, hadv, -⟩⟩ := h.backed B hB hne
    all_goals
      rw [← hvia, ← hdst, hr.via, hr.route] at hr'
      obtain rfl := Option.some.inj hr'
    · rw [← hseq, hr.seqno] at hlt
      exact absurd hlt (UInt32.lt_irrefl _)
    · rw [hr.hops, hadv]
      simp

theorem Ladder.act (hc : P.nodes.card ≤ 254) (hi : i ∈ P.nodes) (hinf : env.inf = .sentinel)
    (hp : σ.Parity) (hf : σ.Feeds i heard) (ha : Act i env heard σ σ') (h : σ.Ladder P) :
    σ'.Ladder P where
  nodes A hA := by
    rcases ha.said_cases hA with hA | ⟨p, j, -, ho | ⟨r, ℓ, hr⟩⟩
    · exact h.nodes A hA
    · exact ho.via ▸ hi
    · exact hr.via ▸ hi
  own A hA heq := by
    rcases ha.said_cases hA with hA | ⟨p, j, -, ho | ⟨r, ℓ, hr⟩⟩
    · exact h.own A hA heq
    · exact ho.hops
    · exact absurd (heq.symm.trans hr.via) hr.dst
  backed A hA hne := by
    rcases ha.said_cases hA with hA | ⟨p, j, -, ho | ⟨r, ℓ, hr⟩⟩
    · exact (h.backed A hA hne).act hp hinf hf ha
    · exact absurd (ho.via.trans ho.dst.symm) hne
    · rw [hinf] at hr
      obtain ⟨hne', -, hh⟩ := h.routeAdvert hc hr
      have : σ.Backed A := ⟨r, hr.via ▸ hr.route, .inr ⟨hr.seqno, hh.symm, hne'⟩⟩
      exact this.act hp hinf hf ha
  rung A hA hne := by
    refine Rung.mono ha.flight ?_
    rcases ha.said_cases hA with hA | ⟨p, j, -, ho | ⟨r, ℓ, hr⟩⟩
    · exact h.rung A hA hne
    · exact absurd (ho.via.trans ho.dst.symm) hne
    · rw [hinf] at hr
      obtain ⟨-, hrung, hh⟩ := h.routeAdvert hc hr
      rw [hr.seqno]
      rwa [← hh, UInt8.toNat_toUInt16] at hrung
  unique A B hA hB hvia hdst hseq := by
    rcases ha.said_cases hA with hA | ⟨p, j, -, hA⟩ <;>
      rcases ha.said_cases hB with hB | ⟨q, k, -, hB⟩
    · exact h.unique A B hA hB hvia hdst hseq
    · rw [hinf] at hB
      exact (h.agree hB hA hvia.symm hdst.symm hseq.symm).symm
    · rw [hinf] at hA
      exact h.agree hA hB hvia hdst hseq
    · rcases hA with hA | ⟨r, ℓ, hA⟩ <;> rcases hB with hB | ⟨r', ℓ', hB⟩
      · rw [hA.hops, hB.hops]
      · exact absurd (hdst.symm.trans hA.dst) hB.dst
      · exact absurd (hdst.trans hB.dst) hA.dst
      · have hr := hB.route
        rw [← hdst, hA.route] at hr
        obtain rfl := Option.some.inj hr
        rw [hA.hops, hB.hops]
  legs j d r hr ℓ hℓ := by
    suffices ∃ A, σ.Said A ∧ A.dst = d ∧ A.seqno = r.seqno ∧ A.leg = ℓ ∧
        A.hops.toUInt16 < r.adv by
      obtain ⟨A, hA, hrest⟩ := this
      exact ⟨A, hA.mono ha.flight, hrest⟩
    rcases ha.route_cases hr with hr | ⟨rfl, ⟨-, rfl⟩ | ⟨r₀, hr₀, hs⟩⟩
    · exact h.legs j d r hr ℓ hℓ
    · cases hℓ
    · rw [hinf] at hs
      exact h.legs_routeStep hc hf hr₀ hs hℓ
  frozen j d r hr hup hne := by
    refine Rung.mono ha.flight ?_
    rcases ha.route_cases hr with hr | ⟨rfl, ⟨-, rfl⟩ | ⟨r₀, hr₀, hs⟩⟩
    · exact h.frozen j d r hr hup hne
    · cases hup
    · rw [hinf] at hs
      exact h.frozen_routeStep hc hr₀ hs hup hne

/-- The ladder stands in every reachable state. -/
theorem Reach.ladder (h : σ.Reach P) (hc : P.nodes.card ≤ 254) (hinf : P.inf = .sentinel) :
    σ.Ladder P := by
  refine h.induct ?_ ?_
  · have hno : ∀ A, ¬ init.Said A := by
      rintro A ⟨p, hp, -⟩
      exact Set.notMem_empty _ hp
    exact ⟨fun A h => absurd h (hno A), fun A h => absurd h (hno A), fun A h => absurd h (hno A),
      fun A h => absurd h (hno A), fun A B h => absurd h (hno A), fun _ _ _ h => (by cases h),
      fun _ _ _ h => (by cases h)⟩
  · intro σ σ' i env heard hi he hreach hf ha ih
    exact ih.act hc hi (he.trans hinf) hreach.parity hf ha

/-- Node `i` has a route for `d` which is up and has a leg over `j`. -/
def Edge (σ : Proto) (d i j : NsAddr) : Prop :=
  ∃ r, σ.route i d = some r ∧ r.up = true ∧ ∃ ℓ ∈ r.legs, ℓ.nexthop = j

/-- Newer numbers first, then smaller advertised hop counts. -/
def rank (σ : Proto) (d i : NsAddr) : ℕ :=
  match σ.route i d with
  | some r => r.seqno.toNat * 2 ^ 16 + (2 ^ 16 - r.adv.toNat)
  | none => 0

theorem Ladder.rank_lt {d j k : NsAddr} (h : σ.Ladder P) (hreach : σ.Reach P)
    (hij : σ.Edge d i j) (hjk : σ.Edge d j k) : σ.rank d i < σ.rank d j := by
  obtain ⟨r, hr, hup, ℓ, hℓ, rfl⟩ := hij
  obtain ⟨r', hr', hup', -⟩ := hjk
  obtain ⟨A, hA, rfl, hs, rfl, hlt⟩ := h.legs _ _ _ hr ℓ hℓ
  have hne : A.via ≠ A.dst := by
    intro heq
    have hr'' := hr'
    simp only [Advert.leg, heq] at hr''
    rw [hreach.own_route hr''] at hup'
    cases hup'
  obtain ⟨r'', hr'', hb⟩ := h.backed A hA hne
  obtain rfl : r' = r'' := Option.some.inj (hr'.symm.trans hr'')
  simp only [rank, hr, hr']
  have h1 := r.adv.toNat_lt
  have h2 := r'.adv.toNat_lt
  rw [UInt16.lt_iff_toNat_lt] at hlt
  rcases hb with hb | ⟨hb, hadv, -⟩
  · rw [hs, UInt32.lt_iff_toNat_lt] at hb
    omega
  · rw [hs] at hb
    rw [hb, hadv]
    omega

/-- The routes for a destination have no cycle. -/
theorem Ladder.acyclic (h : σ.Ladder P) (hreach : σ.Reach P) (d : NsAddr) :
    Lib.Acyclic (σ.Edge d) :=
  Lib.acyclic_of_rank (σ.rank d) fun _ _ _ => h.rank_lt hreach

end Proto

namespace Net

/-- Node `i` has an entry for `d` that is `RTF_UP` and stores a path over `j`. -/
def Edge (s : Net) (d i j : NsAddr) : Prop :=
  ∃ e, s.entry i d = some e ∧ e.rtFlags = .up ∧ ∃ p ∈ e.rtPathList, p.nexthop = j

theorem edge_proto {s : Net} {d i j : NsAddr} (h : s.Edge d i j) : s.proto.Edge d i j := by
  obtain ⟨e, he, hup, p, hp, hn⟩ := h
  refine ⟨e.route, by simp [proto, he], by simp [RtEntry.route, hup], p.leg, ?_, hn⟩
  exact List.mem_map.mpr ⟨p, hp, rfl⟩

/-- Loop freedom: with `INFINITY` as the sentinel and at most 254 nodes, in every reachable
state the paths stored for one destination have no cycle. -/
theorem loop_free {P : Params} {s : Net} (hinf : P.inf = .sentinel) (hn : P.nodes.card ≤ 254)
    (h : s.Reachable P) (d : NsAddr) : Lib.Acyclic (s.Edge d) := by
  have hreach := h.proto
  intro i hi
  exact (hreach.ladder hn hinf).acyclic hreach d i (hi.lift id fun _ _ => edge_proto)

/-- The paths for node 3 once node 1 has discovered it. -/
theorem loop_free_discovery : Lib.Acyclic ((idle.final (discovery .sentinel)).Edge 3) :=
  loop_free (P := three .sentinel) rfl (by decide) (reachable_discovery .sentinel) 3

end Net

end Eamrp
