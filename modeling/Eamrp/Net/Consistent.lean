import Eamrp.Net.Parity

/-!
# Advertised hop counts, as compiled

With `INFINITY` of `<math.h>` the test for the sentinel never succeeds and every valid route
is advertised with the conversion of infinity, cut to eight bits. Hop counts are then the
same for all advertisements of other destinations, and a stored hop count only tells whether
the next hop is the destination.
-/

namespace Eamrp

/-- The hop count of an advertisement, as compiled. -/
def Advert.Plain (A : Advert) : Prop :=
  A.via = A.dst ∧ A.hops = 0 ∨ A.via ≠ A.dst ∧ A.hops = 255

/-- The hop count of a leg for `d`, as compiled. -/
def Leg.Plain (ℓ : Leg) (d : NsAddr) : Prop :=
  ℓ.nexthop = d ∧ ℓ.hopcount = 1 ∨ ℓ.nexthop ≠ d ∧ ℓ.hopcount = 256

/-- An advertisement offers a leg of the same kind. -/
theorem Advert.Plain.leg {A : Advert} (h : A.Plain) : A.leg.Plain A.dst := by
  rcases h with ⟨hv, hh⟩ | ⟨hv, hh⟩
  · exact .inl ⟨hv, by simp [Advert.leg, Advert.hopcount, hh]⟩
  · exact .inr ⟨hv, by simp [Advert.leg, Advert.hopcount, hh]⟩

namespace Proto

variable {P : Params} {σ σ' : Proto} {i : NsAddr} {env : Env} {heard : Input}

/-- Hop counts carry no more than whether the sender is the destination. -/
structure Plain (σ : Proto) : Prop where
  adv : ∀ i d r, σ.route i d = some r → r.up = true → r.adv = 65535
  legs : ∀ i d r, σ.route i d = some r → ∀ ℓ ∈ r.legs, ℓ.Plain d
  advert : ∀ p ∈ σ.flight, ∀ j A, p.advert j = some A → A.Plain

theorem Plain.hears {A : Advert} (h : σ.Plain) (hf : σ.Feeds i heard) (hA : Hears heard i A) :
    A.Plain := by
  obtain ⟨p, hp, -, hA⟩ := hf.tells hA
  exact h.advert p hp i A hA

/-- What a node comes to say. -/
theorem Plain.origin {p : Packet} {j : NsAddr} {A : Advert} (h : σ.Plain)
    (hA : OwnAdvert σ i j p A ∨ ∃ r ℓ, RouteAdvert .mathH σ i A r ℓ) : A.Plain := by
  rcases hA with ho | ⟨r, ℓ, hr⟩
  · exact .inl ⟨ho.via.trans ho.dst.symm, ho.hops⟩
  · refine .inr ⟨hr.via ▸ hr.dst.symm, ?_⟩
    rw [hr.hops, h.adv _ _ _ hr.route hr.up]
    rfl

theorem Plain.act (hinf : env.inf = .mathH) (hf : σ.Feeds i heard) (ha : Act i env heard σ σ')
    (h : σ.Plain) : σ'.Plain where
  adv j d r hr hup := by
    rcases ha.route_cases hr with hr | ⟨rfl, ⟨-, rfl⟩ | ⟨r₀, hr₀, hs⟩⟩
    · exact h.adv j d r hr hup
    · cases hup
    · rw [hinf] at hs
      cases hs with
      | freeze hup => exact h.adv _ _ _ hr₀ hup
      | renew => rfl
      | add _ _ hup => exact h.adv j d r₀ hr₀ hup
      | lose hup => exact h.adv j d r₀ hr₀ hup
      | fail => cases hup
      | withdraw => cases hup
  legs j d r hr ℓ hℓ := by
    rcases ha.route_cases hr with hr | ⟨rfl, ⟨-, rfl⟩ | ⟨r₀, hr₀, hs⟩⟩
    · exact h.legs j d r hr ℓ hℓ
    · cases hℓ
    · rcases hs.legs hℓ with ⟨hℓ, -⟩ | ⟨A, hA, rfl, -, rfl⟩
      · exact h.legs _ _ _ hr₀ ℓ hℓ
      · exact (h.hears hf hA).leg
  advert p hp j A hA := by
    rcases ha.flight_cases hp with hp | ⟨-, w, hw, hs⟩
    · exact h.advert p hp j A hA
    · have ho := hw.origin hs hA
      rw [hinf] at ho
      exact h.origin ho

/-- As compiled, hop counts are plain in every reachable state. -/
theorem Reach.plain (h : σ.Reach P) (hinf : P.inf = .mathH) : σ.Plain := by
  refine h.induct ?_ ?_
  · exact ⟨fun _ _ _ h => (by cases h), fun _ _ _ h => (by cases h),
      fun _ h => absurd h (Set.notMem_empty _)⟩
  · intro σ σ' i env heard _ he _ hf ha ih
    exact ih.act (he.trans hinf) hf ha

/-- A stored path that is heard again has the hop count that is heard. -/
theorem Plain.hopcount_eq {w : World} {A : Advert} {e : RtEntry} {p : Path} (h : σ.Plain)
    (hw : σ.Shows i w) (hA : A.Plain) (he : w.rtLookup A.dst = some e)
    (hp : e.disjointPathLookup A.via A.first = some p) : p.hopcount = A.hopcount := by
  have hr : σ.route i A.dst = some e.route := by rw [← hw.route, he]; rfl
  have hn : p.nexthop = A.via := by
    have := List.find?_some (p := fun p : Path => p.nexthop == A.via && p.lasthop == A.first) hp
    simp only [Bool.and_eq_true, beq_iff_eq] at this
    exact this.1
  have hℓ := h.legs _ _ _ hr p.leg (List.mem_map.mpr ⟨p, List.mem_of_find?_eq_some hp, rfl⟩)
  rcases hℓ with ⟨h1, h2⟩ | ⟨h1, h2⟩ <;> rcases hA.leg with ⟨h3, h4⟩ | ⟨h3, h4⟩
  · exact h2.trans h4.symm
  · exact absurd (hn.symm.trans h1) h3
  · exact absurd (hn.trans h3) h1
  · exact h2.trans h4.symm

end Proto

namespace Net

variable {P : Params} {s : Net} {t : List (Lib.Move Net Event)}

/-- In a run as compiled, every advertisement of a node is plain. -/
theorem Run.plain_of_sent (h : Run P t s) (hinf : P.inf = .mathH) {m : Lib.Move Net Event}
    (hm : m ∈ t) {p : Packet} (hp : p ∈ sentBy m) {j : NsAddr} {A : Advert}
    (hA : p.advert j = some A) : A.via = m.label.node ∧ A.Plain := by
  obtain ⟨σ, w, hu⟩ := h.utterance hm hp
  have ho := hu.shows.origin hu.speaks hA
  rw [hu.step.1.inf, hinf] at ho
  refine ⟨?_, (hu.reachable.plain hinf).origin ho⟩
  rcases ho with ho | ⟨r, ℓ, hr⟩
  · exact ho.via
  · exact hr.via

/-- A stored path's next hop is the destination exactly when its hop count is 1. -/
theorem nexthop_iff_hopcount (h : s.Reachable P) (hinf : P.inf = .mathH) {i d : NsAddr}
    {e : RtEntry} (he : s.entry i d = some e) {p : Path} (hp : p ∈ e.rtPathList) :
    p.nexthop = d ↔ p.hopcount = 1 := by
  have hr : s.proto.route i d = some e.route := by simp [proto, he]
  rcases (h.proto.plain hinf).legs i d _ hr p.leg (List.mem_map.mpr ⟨p, hp, rfl⟩) with
    ⟨hn, hh⟩ | ⟨hn, hh⟩
  · exact ⟨fun _ => hh, fun _ => hn⟩
  · refine ⟨fun h => absurd h hn, fun h => ?_⟩
    have hh : p.hopcount = 256 := hh
    rw [hh] at h
    exact absurd h (by decide)

/-- Advertisement consistency, as compiled: in every run, the advertisements of one node for one
destination under one sequence number carry the same hop count; the next hop of a stored
path is the destination exactly when its hop count is 1; and a path that is heard again has
the recorded hop count. -/
theorem advertisement_consistent (hinf : P.inf = .mathH) (h : Run P t s) :
    (∀ m ∈ t, ∀ m' ∈ t, m.label.node = m'.label.node → ∀ p ∈ sentBy m, ∀ q ∈ sentBy m',
      ∀ j k A B, p.advert j = some A → q.advert k = some B → A.dst = B.dst →
        A.seqno = B.seqno → A.hops = B.hops) ∧
    (∀ i d e, s.entry i d = some e → ∀ p ∈ e.rtPathList, (p.nexthop = d ↔ p.hopcount = 1)) ∧
    ∀ ev, s.Enabled P ev →
      s.next ev ≠ .error .requestHopcount ∧ s.next ev ≠ .error .replyHopcount := by
  have hreach : s.Reachable P := ⟨t, h⟩
  refine ⟨?_, fun i d e he p hp => nexthop_iff_hopcount hreach hinf he hp, ?_⟩
  · intro m hm m' hm' hnode p hp q hq j k A B hA hB hdst _
    obtain ⟨hvA, hpA⟩ := h.plain_of_sent hinf hm hp hA
    obtain ⟨hvB, hpB⟩ := h.plain_of_sent hinf hm' hq hB
    have hvia : A.via = B.via := by rw [hvA, hvB, hnode]
    rcases hpA with ⟨hA, hhA⟩ | ⟨hA, hhA⟩ <;> rcases hpB with ⟨hB, hhB⟩ | ⟨hB, hhB⟩
    · rw [hhA, hhB]
    · exact absurd (by rw [← hvia, ← hdst, hA]) hB
    · exact absurd (by rw [hvia, hdst, hB]) hA
    · rw [hhA, hhB]
  · intro ev hen
    have hno : ∀ f, f = .requestHopcount ∨ f = .replyHopcount → s.next ev ≠ .error f := by
      intro f hf herr
      obtain ⟨σ, w, hacts, hshow, hblame⟩ :=
        blame_of_next hen (index_of_reachable hreach ev.node) herr
      have hplain := (hreach.proto.acts hen.node hen.inf hacts).plain hinf
      have hblame : ∃ A e p, Hears ev.input.aged w.index A ∧ w.rtLookup A.dst = some e ∧
          e.rtSeqno = A.seqno ∧ e.disjointPathLookup A.via A.first = some p ∧
            p.hopcount ≠ A.hopcount := by
        rcases hf with rfl | rfl <;> exact hblame
      obtain ⟨A, e, p, hA, he, -, hp, hne⟩ := hblame
      rw [hshow.index] at hA
      exact hne (hplain.hopcount_eq hshow
        ((hreach.proto.plain hinf).hears (feeds_proto hen.offers) hA) he hp)
    exact ⟨hno _ (.inl rfl), hno _ (.inr rfl)⟩

/-- Node 1, which has discovered node 3 over node 2, does not take node 2 for its destination. -/
theorem advertisement_consistent_discovery :
    ∃ e, (idle.final (discovery .mathH)).entry 1 3 = some e ∧ e.rtPathList ≠ [] ∧
      ∀ p ∈ e.rtPathList, (p.nexthop = 3 ↔ p.hopcount = 1) := by
  have hpath : ((idle.final (discovery .mathH)).entry 1 3).map
      (fun e => e.rtPathList.map Path.nexthop) = some [2] := by decide +kernel
  obtain ⟨e, he, hl⟩ := Option.map_eq_some_iff.mp hpath
  refine ⟨e, he, fun hnil => ?_, fun p hp => ?_⟩
  · rw [hnil] at hl
    cases hl
  · exact (advertisement_consistent (P := three .mathH) rfl (run_discovery .mathH)).2.1 1 3 e he p
      hp

end Net

end Eamrp
