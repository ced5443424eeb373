import Eamrp.Net.Consistent

/-!
# The law of advertised hop counts

What the three advertisement sites are written for: a node advertises the largest hop count
among its paths at the time of its first advertisement under the current sequence number.
As compiled no advertisement of a relay obeys the law, since the sentinel that marks "not yet
advertised" is never recognised and reaches the receiver as 255.
-/

namespace Eamrp

open Lib

namespace Net

/-- The node of the move is not the destination that it advertises with `A`: it rebroadcasts a
RREQ of that source, answers a RREQ as intermediate node or forwards a RREP. -/
def Relays (m : Move Net Event) (A : Advert) : Prop :=
  A.dst ≠ m.label.node ∧ ∃ p ∈ sentBy m, p.advert m.label.node = some A

/-- The move is the first of the run in which node `i` advertises `d` under number `n`. -/
def FirstRelay (t : List (Move Net Event)) (i d : NsAddr) (n : UInt32)
    (m : Move Net Event) : Prop :=
  ∃ u v, t = u ++ m :: v ∧
    (m.label.node = i ∧ ∃ A, Relays m A ∧ A.dst = d ∧ A.seqno = n) ∧
    ∀ m' ∈ u, ¬ (m'.label.node = i ∧ ∃ A, Relays m' A ∧ A.dst = d ∧ A.seqno = n)

/-- The hop count of `A` is the largest among the paths that the node held when it first
advertised the destination under this number. Nothing after an advertisement in the same
event changes these paths, so they are read off after the event. -/
def LargestHopcount (t : List (Move Net Event)) (m : Move Net Event) (A : Advert) : Prop :=
  ∀ m₀, FirstRelay t m.label.node A.dst A.seqno m₀ →
    ∃ e, m₀.tgt.entry m.label.node A.dst = some e ∧
      IsGreatest {h | ∃ p ∈ e.rtPathList, p.hopcount.toNat = h} A.hops.toNat

/-- The hop count of `A` is one more than what the next hop of the node's longest path has
advertised to it. -/
def OneMoreHop (t : List (Move Net Event)) (m : Move Net Event) (A : Advert) : Prop :=
  ∃ e, m.tgt.entry m.label.node A.dst = some e ∧
    ∃ p ∈ e.rtPathList, (∀ q ∈ e.rtPathList, q.hopcount ≤ p.hopcount) ∧
      ∃ m' ∈ t, m'.label.node = p.nexthop ∧ ∃ q ∈ sentBy m', ∃ B,
        q.advert m.label.node = some B ∧ B.dst = A.dst ∧ B.seqno = A.seqno ∧
          A.hops.toNat = B.hops.toNat + 1

/-- Every advertisement of a relay in the run has the hop count it should have. -/
def HopLaw (t : List (Move Net Event)) : Prop :=
  ∀ m ∈ t, ∀ A, Relays m A → LargestHopcount t m A ∧ OneMoreHop t m A

variable {P : Params} {s : Net} {t : List (Move Net Event)} {m : Move Net Event} {A : Advert}

/-- What a relay advertises has been advertised by it for the first time. -/
theorem Relays.first (hm : m ∈ t) (hA : Relays m A) :
    ∃ m₀ ∈ t, FirstRelay t m.label.node A.dst A.seqno m₀ := by
  obtain ⟨u, m₀, v, h, hfirst, hbefore⟩ :=
    exists_first (p := fun m₀ => m₀.label.node = m.label.node ∧
      ∃ B, Relays m₀ B ∧ B.dst = A.dst ∧ B.seqno = A.seqno) hm ⟨rfl, A, hA, rfl, rfl⟩
  exact ⟨m₀, h ▸ by simp, u, v, h, hfirst, hbefore⟩

/-- As compiled, every advertisement of a relay says 255. -/
theorem Run.hops_of_relays (h : Run P t s) (hinf : P.inf = .mathH) (hm : m ∈ t)
    (hA : Relays m A) : A.hops = 255 := by
  obtain ⟨hne, p, hp, hadv⟩ := hA
  obtain ⟨hvia, hplain⟩ := h.plain_of_sent hinf hm hp hadv
  rcases hplain with ⟨heq, -⟩ | ⟨-, hh⟩
  · exact absurd (heq.symm.trans hvia) hne
  · exact hh

/-- As compiled, every stored hop count is 1 or 256. -/
theorem hopcount_cases (h : s.Reachable P) (hinf : P.inf = .mathH) {i d : NsAddr}
    {e : RtEntry} (he : s.entry i d = some e) {p : Path} (hp : p ∈ e.rtPathList) :
    p.hopcount.toNat = 1 ∨ p.hopcount.toNat = 256 := by
  have hr : s.proto.route i d = some e.route := by simp [proto, he]
  have hℓ := (h.proto.plain hinf).legs i d _ hr p.leg (List.mem_map.mpr ⟨p, hp, rfl⟩)
  have hc : p.hopcount = 1 ∨ p.hopcount = 256 := hℓ.imp And.right And.right
  rcases hc with hc | hc
  · exact .inl (by rw [hc]; rfl)
  · exact .inr (by rw [hc]; rfl)

/-- As compiled, the hop count of no path is advertised. -/
theorem Run.not_largestHopcount (h : Run P t s) (hinf : P.inf = .mathH) (hm : m ∈ t)
    (hA : Relays m A) : ¬ LargestHopcount t m A := by
  intro hlaw
  obtain ⟨m₀, hm₀, hfirst⟩ := hA.first hm
  obtain ⟨e, he, ⟨p, hp, hhops⟩, -⟩ := hlaw m₀ hfirst
  rw [h.hops_of_relays hinf hm hA] at hhops
  obtain ⟨hr, hs⟩ := h.of_mem hm₀
  rcases hopcount_cases (hr.next hs) hinf he hp with h1 | h1
  · rw [h1] at hhops
    exact absurd hhops (by decide)
  · rw [h1] at hhops
    exact absurd hhops (by decide)

/-- As compiled, no relay says one more than it was told. -/
theorem Run.not_oneMoreHop (h : Run P t s) (hinf : P.inf = .mathH) (hm : m ∈ t)
    (hA : Relays m A) : ¬ OneMoreHop t m A := by
  rintro ⟨e, -, p, -, -, m', hm', -, q, hq, B, hB, -, -, hhops⟩
  rw [h.hops_of_relays hinf hm hA] at hhops
  rcases (h.plain_of_sent hinf hm' hq hB).2 with ⟨-, hh⟩ | ⟨-, hh⟩
  · rw [hh] at hhops
    exact absurd hhops (by decide)
  · rw [hh] at hhops
    exact absurd hhops (by decide)

/-- As compiled, the law is broken by every advertisement of a relay, and a run obeys it
exactly when no relay advertises anything. -/
theorem hopLaw_iff (hinf : P.inf = .mathH) (h : Run P t s) :
    (∀ m ∈ t, ∀ A, Relays m A → ¬ LargestHopcount t m A ∧ ¬ OneMoreHop t m A) ∧
      (HopLaw t ↔ ∀ m ∈ t, ∀ A, ¬ Relays m A) := by
  have hbroken : ∀ m ∈ t, ∀ A, Relays m A → ¬ LargestHopcount t m A ∧ ¬ OneMoreHop t m A :=
    fun m hm A hA => ⟨h.not_largestHopcount hinf hm hA, h.not_oneMoreHop hinf hm hA⟩
  refine ⟨hbroken, fun hlaw m hm A hA => ?_, fun hno m hm A hA => absurd hA (hno m hm A)⟩
  exact (hbroken m hm A hA).1 (hlaw m hm A hA).1

/-- The run in which node 1 discovers a route over node 2. -/
theorem hopLaw_iff_discovery :
    HopLaw (idle.moves (discovery .mathH)) ↔
      ∀ m ∈ idle.moves (discovery .mathH), ∀ A, ¬ Relays m A :=
  (hopLaw_iff (P := three .mathH) rfl (run_discovery .mathH)).2

/-- Node 2, whose only path to node 1 has hop count 1, rebroadcasts the RREQ of node 1 with
hop count 255. -/
theorem hopLaw_broken_discovery :
    ∃ m ∈ idle.moves (discovery .mathH), m.label.node = 2 ∧
      (∃ A, Relays m A ∧ A.dst = 1 ∧ A.hops = 255) ∧
      (∃ e, m.tgt.entry 2 1 = some e ∧ e.rtPathList.map Path.hopcount = [1]) ∧
      ¬ HopLaw (idle.moves (discovery .mathH)) := by
  let m := ((idle.after (.app .mathH 0 1 3)).moves [.hear .mathH 0 2 0]).head (by simp [moves])
  have hm : m ∈ idle.moves (discovery .mathH) := by simp [m, moves, discovery]
  have hA : Relays m ⟨1, 4, 255, 2, 2, 6⟩ := by
    refine ⟨by decide +kernel, ?_⟩
    have h : (sentBy m).any (fun p => p.advert 2 == some ⟨1, 4, 255, 2, 2, 6⟩) = true := by
      decide +kernel
    obtain ⟨p, hp, hadv⟩ := List.any_eq_true.mp h
    exact ⟨p, hp, eq_of_beq hadv⟩
  refine ⟨m, hm, rfl, ⟨_, hA, rfl, rfl⟩, ?_, ?_⟩
  · have h : (m.tgt.entry 2 1).map (fun e => e.rtPathList.map Path.hopcount) = some [1] := by
      decide +kernel
    exact Option.map_eq_some_iff.mp h
  · intro hlaw
    exact (run_discovery .mathH).not_largestHopcount rfl hm hA (hlaw m hm _ hA).1

end Net

end Eamrp
