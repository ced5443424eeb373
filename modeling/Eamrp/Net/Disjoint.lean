import Eamrp.Net.Consistent
import Eamrp.Lib.Walk

/-!
# Node-disjointness of discovered routes

As long as no path to a destination has been deleted anywhere, the first path of a node never
changes once it is there, and the last hop that is stored with a path is the last hop of the
first path of its next hop. Two paths with different last hops are then continued by routes
that meet in the destination only. With `INFINITY` of `<math.h>`, so that relays advertise a
nonzero hop count and receivers take over the last hop they are told.
-/

namespace Eamrp

open Lib

/-- Next hops and last hops of the legs are pairwise distinct. -/
def Route.Distinct (r : Route) : Prop :=
  r.legs.Pairwise (fun a b => a.nexthop ≠ b.nexthop ∧ a.lasthop ≠ b.lasthop)

/-- A change of a route keeps its legs distinct. -/
theorem RouteStep.distinct {inf : Infinity} {i d : NsAddr} {heard : Input} {r r' : Route}
    (h : RouteStep inf i d heard r r') (hr : r.Distinct) : r'.Distinct := by
  cases h with
  | freeze => exact hr
  | renew => exact List.pairwise_singleton _ _
  | add _ _ _ _ _ hn =>
    refine List.pairwise_append.mpr ⟨hr, List.pairwise_singleton _ _, ?_⟩
    intro ℓ hℓ ℓ' hℓ'
    obtain rfl := List.mem_singleton.mp hℓ'
    exact hn ℓ hℓ
  | lose _ hl => exact hr.sublist hl
  | fail => exact List.Pairwise.nil
  | withdraw => exact List.Pairwise.nil

/-- A change that leaves no trace of deleted legs keeps the first leg. -/
theorem RouteStep.head_eq {inf : Infinity} {i d : NsAddr} {heard : Input} {r r' : Route}
    (h : RouteStep inf i d heard r r') (hk : r'.deleted = 0) {ℓ : Leg}
    (hℓ : r.legs.head? = some ℓ) : r'.legs.head? = some ℓ := by
  have hpos : 0 < r.legs.length := by
    cases hl : r.legs with
    | nil => rw [hl] at hℓ; cases hℓ
    | cons => simp
  cases h with
  | freeze => exact hℓ
  | renew =>
    simp only at hk
    omega
  | add =>
    cases hl : r.legs with
    | nil => rw [hl] at hℓ; cases hℓ
    | cons => simpa [hl] using hℓ
  | @lose legs k n _ hl _ hlen =>
    have hk : r.deleted + k = 0 := hk
    have heq := hl.eq_of_length (by omega)
    rwa [heq]
  | fail =>
    simp only [Route.lost] at hk
    omega
  | withdraw =>
    simp only [Route.lost] at hk
    omega

namespace Proto

variable {P : Params} {σ σ' : Proto} {i d : NsAddr} {env : Env} {heard : Input}

theorem Reach.distinct (h : σ.Reach P) {i d : NsAddr} {r : Route} (hr : σ.route i d = some r) :
    r.Distinct := by
  refine h.induct (I := fun σ => ∀ i d r, σ.route i d = some r → r.Distinct) ?_ ?_ i d r hr
  · intro _ _ _ h
    cases h
  · intro σ σ' j env heard _ _ _ _ ha ih i d r hr
    rcases ha.route_cases hr with hr | ⟨rfl, ⟨-, rfl⟩ | ⟨r₀, hr₀, hs⟩⟩
    · exact ih i d r hr
    · exact List.Pairwise.nil
    · exact hs.distinct (ih _ _ _ hr₀)

/-- No node has deleted a path to `d`. -/
def Kept (σ : Proto) (d : NsAddr) : Prop := ∀ i r, σ.route i d = some r → r.deleted = 0

/-- The first leg of node `i` for `d`. -/
def head (σ : Proto) (d i : NsAddr) : Option Leg := (σ.route i d).bind fun r => r.legs.head?

/-- Where node `i` sends what is for `d`. -/
def next (σ : Proto) (d i : NsAddr) : Option NsAddr := (σ.head d i).map Leg.nexthop

theorem head_eq_some {ℓ : Leg} (h : σ.head d i = some ℓ) :
    ∃ r, σ.route i d = some r ∧ r.legs.head? = some ℓ ∧ ℓ ∈ r.legs := by
  obtain ⟨r, hr, hℓ⟩ := Option.bind_eq_some_iff.mp h
  exact ⟨r, hr, hℓ, List.mem_of_mem_head? hℓ⟩

/-- Deletions are never forgotten. -/
theorem Kept.of_act (ha : Act i env heard σ σ') (h : σ'.Kept d) : σ.Kept d := by
  intro j r hr
  obtain ⟨r', hr', rfl | ⟨-, hs⟩⟩ := ha.route_some hr
  · exact h j _ hr'
  · have hk := h j r' hr'
    cases hs with
    | freeze => exact hk
    | renew => simp only at hk; omega
    | add => exact hk
    | lose => simp only at hk; omega
    | fail => simp only [Route.lost] at hk; omega
    | withdraw => simp only [Route.lost] at hk; omega

/-- While nothing is deleted, first legs stay. -/
theorem Kept.head_stays (ha : Act i env heard σ σ') (h : σ'.Kept d) {j : NsAddr} {ℓ : Leg}
    (hℓ : σ.head d j = some ℓ) : σ'.head d j = some ℓ := by
  obtain ⟨r, hr, hh, -⟩ := head_eq_some hℓ
  obtain ⟨r', hr', rfl | ⟨-, hs⟩⟩ := ha.route_some hr
  · simp [head, hr', hh]
  · simp [head, hr', hs.head_eq (h j r' hr') hh]

/-- Node `i` may store a path for `d` over `j` with last hop `x`: it ends in `d`, and `x` is
the last hop of the first path of `j`. -/
def Leads (σ : Proto) (d i j x : NsAddr) : Prop :=
  j = d ∧ x = i ∨
    j ≠ d ∧ (∃ ℓ, σ.head d j = some ℓ ∧ ℓ.lasthop = x) ∧ ∃ l, Walk (σ.next d) d j l

theorem Leads.act {j k x : NsAddr} (ha : Act i env heard σ σ') (hk : σ'.Kept d)
    (h : σ.Leads d j k x) : σ'.Leads d j k x := by
  rcases h with h | ⟨hne, ⟨ℓ, hℓ, hx⟩, l, hl⟩
  · exact .inl h
  · refine .inr ⟨hne, ⟨ℓ, hk.head_stays ha hℓ, hx⟩, l, hl.mono fun a b hab => ?_⟩
    obtain ⟨ℓ', hℓ', rfl⟩ := Option.map_eq_some_iff.mp hab
    simp [next, hk.head_stays ha hℓ']

/-- Last hops are those of the first paths of the next hops. -/
structure LastHops (d : NsAddr) (σ : Proto) : Prop where
  legs : ∀ i r, σ.route i d = some r → ∀ ℓ ∈ r.legs, σ.Leads d i ℓ.nexthop ℓ.lasthop
  tells : ∀ i A, σ.Tells i A → A.dst = d → σ.Leads d i A.via A.first

/-- A node with a first leg has a walk to the destination. -/
theorem LastHops.walk (h : σ.LastHops d) (hne : i ≠ d) {ℓ : Leg} (hℓ : σ.head d i = some ℓ) :
    ∃ l, Walk (σ.next d) d i l := by
  obtain ⟨r, hr, -, hm⟩ := head_eq_some hℓ
  have hn : σ.next d i = some ℓ.nexthop := by simp [next, hℓ]
  rcases h.legs i r hr ℓ hm with ⟨hd, -⟩ | ⟨-, -, l, hl⟩
  · have hs : Walk (σ.next d) d ℓ.nexthop [d] := by
      rw [hd]
      exact .stop
    exact ⟨_, .hop hne hn hs⟩
  · exact ⟨_, .hop hne hn hl⟩

theorem LastHops.act (hinf : env.inf = .mathH) (hp : σ.Plain) (hf : σ.Feeds i heard)
    (ha : Act i env heard σ σ') (hk : σ'.Kept d) (h : σ.LastHops d) : σ'.LastHops d where
  legs j r hr ℓ hℓ := by
    refine Leads.act ha hk ?_
    rcases ha.route_cases hr with hr | ⟨rfl, ⟨-, rfl⟩ | ⟨r₀, hr₀, hs⟩⟩
    · exact h.legs j r hr ℓ hℓ
    · cases hℓ
    · rcases hs.legs hℓ with ⟨hℓ, -⟩ | ⟨A, hA, hd, -, rfl⟩
      · exact h.legs _ _ hr₀ ℓ hℓ
      · exact h.tells _ A (hf.tells hA) hd
  tells j A hA hd := by
    refine Leads.act ha hk ?_
    obtain ⟨p, hp', haddr, hA⟩ := hA
    rcases ha.flight_cases hp' with hp' | ⟨-, w, hw, hs⟩
    · exact h.tells j A ⟨p, hp', haddr, hA⟩ hd
    · have ho := hw.origin hs hA
      rw [hinf] at ho
      have hplain := hp.origin ho
      rcases ho with ho | ⟨r, ℓ, hr⟩
      · exact .inl ⟨ho.via.trans (ho.dst.symm.trans hd), ho.first haddr⟩
      · have hne : A.via ≠ A.dst := by
          rw [hr.via]
          exact hr.dst.symm
        have hhops : A.hops ≠ 0 := by
          rcases hplain with ⟨heq, -⟩ | ⟨-, hh⟩
          · exact absurd heq hne
          · rw [hh]
            decide
        have hhead : σ.head d A.via = some ℓ := by
          rw [hr.via, ← hd]
          simp [head, hr.route, hr.head]
        rw [hd] at hne
        exact .inr ⟨hne, ⟨ℓ, hhead, (hr.first hhops).symm⟩, h.walk hne hhead⟩

theorem Reach.lastHops (h : σ.Reach P) (hinf : P.inf = .mathH) (hk : σ.Kept d) :
    σ.LastHops d := by
  refine h.induct (I := fun σ => σ.Kept d → σ.LastHops d) ?_ ?_ hk
  · intro _
    refine ⟨fun _ _ h => (by cases h), ?_⟩
    rintro _ _ ⟨p, hp, -⟩
    exact absurd hp (Set.notMem_empty _)
  · intro σ σ' i env heard _ he hreach hf ha ih hk
    exact (ih (.of_act ha hk)).act (he.trans hinf) (hreach.plain hinf) hf ha hk

/-- Behind a stored leg, every node on the way to the destination has the leg's last hop as
the last hop of its first path. -/
theorem LastHops.walk_leg (h : σ.LastHops d) {r : Route} (hr : σ.route i d = some r) {ℓ : Leg}
    (hℓ : ℓ ∈ r.legs) : ∃ l, Walk (σ.next d) d ℓ.nexthop l ∧
      ∀ x ∈ l, x ≠ d → ∃ ℓ', σ.head d x = some ℓ' ∧ ℓ'.lasthop = ℓ.lasthop := by
  have hstep : ∀ x y, x ≠ d → (∃ ℓ', σ.head d x = some ℓ' ∧ ℓ'.lasthop = ℓ.lasthop) →
      σ.next d x = some y → y ≠ d → ∃ ℓ', σ.head d y = some ℓ' ∧ ℓ'.lasthop = ℓ.lasthop := by
    rintro x y - ⟨ℓ', hℓ', hlast⟩ hxy hy
    obtain ⟨rx, hrx, -, hm⟩ := head_eq_some hℓ'
    obtain rfl : ℓ'.nexthop = y := by simpa [next, hℓ'] using hxy
    rcases h.legs x rx hrx ℓ' hm with ⟨hd, -⟩ | ⟨-, ⟨ℓ'', hℓ'', hl⟩, -⟩
    · exact absurd hd hy
    · exact ⟨ℓ'', hℓ'', hl.trans hlast⟩
  rcases h.legs i r hr ℓ hℓ with ⟨hd, -⟩ | ⟨-, hhead, l, hl⟩
  · rw [hd]
    refine ⟨[d], .stop, ?_⟩
    intro x hx hne
    exact absurd (List.mem_singleton.mp hx) hne
  · exact ⟨l, hl, hl.forall_mem (fun _ => hhead) hstep⟩

/-- The routes behind two stored legs meet in the destination only, and do not come back. -/
theorem LastHops.disjoint (h : σ.LastHops d) (hne : i ≠ d) {r : Route} (hd : r.Distinct)
    (hr : σ.route i d = some r) {a b : Leg} (ha : a ∈ r.legs) (hb : b ∈ r.legs)
    (hab : a.lasthop ≠ b.lasthop) :
    ∃ l l', Walk (σ.next d) d a.nexthop l ∧ Walk (σ.next d) d b.nexthop l' ∧
      i ∉ l ∧ i ∉ l' ∧ ∀ x ∈ l, x ∈ l' → x = d := by
  have hback : ∀ {c : Leg} {l}, c ∈ r.legs → Walk (σ.next d) d c.nexthop l →
      (∀ x ∈ l, x ≠ d → ∃ ℓ', σ.head d x = some ℓ' ∧ ℓ'.lasthop = c.lasthop) → i ∉ l := by
    intro c l hc hw hl hi
    obtain ⟨ℓ, hℓ, hlast⟩ := hl i hi hne
    obtain ⟨r', hr', -, hm⟩ := head_eq_some hℓ
    obtain rfl := Option.some.inj (hr.symm.trans hr')
    have heq : ℓ = c := by
      by_contra hcontra
      have hsymm : Std.Symm fun a b : Leg => a.nexthop ≠ b.nexthop ∧ a.lasthop ≠ b.lasthop :=
        ⟨fun _ _ h => ⟨h.1.symm, h.2.symm⟩⟩
      exact (hd.forall hm hc hcontra).2 hlast
    subst heq
    exact hw.notMem_of_next hne (by simp [next, hℓ]) hi
  obtain ⟨l, hl, hla⟩ := h.walk_leg hr ha
  obtain ⟨l', hl', hlb⟩ := h.walk_leg hr hb
  refine ⟨l, l', hl, hl', hback ha hl hla, hback hb hl' hlb, ?_⟩
  intro x hx hx'
  by_contra hxd
  obtain ⟨ℓ, hℓ, h1⟩ := hla x hx hxd
  obtain ⟨ℓ', hℓ', h2⟩ := hlb x hx' hxd
  obtain rfl := Option.some.inj (hℓ.symm.trans hℓ')
  exact hab (h1.symm.trans h2)

end Proto

namespace Net

/-- The next hop of the path that `path_find` gives at node `i` for `d`. -/
def nextHop (s : Net) (d i : NsAddr) : Option NsAddr :=
  ((s.entry i d).bind RtEntry.pathFind).map Path.nexthop

theorem next_proto (s : Net) (d i : NsAddr) : s.proto.next d i = s.nextHop d i := by
  unfold Proto.next Proto.head nextHop proto
  cases he : s.entry i d with
  | none => simp [he]
  | some e =>
    cases hl : e.rtPathList with
    | nil => simp [he, RtEntry.route, RtEntry.pathFind, hl]
    | cons p ps => simp [he, RtEntry.route, RtEntry.pathFind, hl, Path.leg]

/-- Node-disjointness, as compiled: while no node has deleted a path to `d`, the routes that
start with two different stored paths of node `i` and go on with the first path of every
node reach `d`, do not come back to `i` and have only `d` in common. -/
theorem node_disjoint {P : Params} {s : Net} (hinf : P.inf = .mathH) (h : s.Reachable P)
    {d : NsAddr} (hkept : ∀ i e, s.entry i d = some e → e.pathsDeleted = 0) {i : NsAddr}
    {e : RtEntry} (he : s.entry i d = some e) {p q : Path} (hp : p ∈ e.rtPathList)
    (hq : q ∈ e.rtPathList) (hpq : p ≠ q) :
    ∃ l l', Walk (s.nextHop d) d p.nexthop l ∧ Walk (s.nextHop d) d q.nexthop l' ∧
      i ∉ l ∧ i ∉ l' ∧ ∀ x ∈ l, x ∈ l' → x = d := by
  have hreach := h.proto
  have hr : s.proto.route i d = some e.route := by simp [proto, he]
  have hk : s.proto.Kept d := by
    intro j r hr
    obtain ⟨e', he', rfl⟩ := Option.map_eq_some_iff.mp hr
    exact hkept j e' he'
  have hne : i ≠ d := by
    rintro rfl
    have hlegs := congrArg Route.legs (hreach.own_route hr)
    have : e.rtPathList = [] := List.map_eq_nil_iff.mp hlegs
    rw [this] at hp
    cases hp
  have hd := hreach.distinct hr
  have hlast : p.leg.lasthop ≠ q.leg.lasthop := by
    have hpair : e.rtPathList.Pairwise fun a b =>
        a.leg.nexthop ≠ b.leg.nexthop ∧ a.leg.lasthop ≠ b.leg.lasthop := List.pairwise_map.mp hd
    have hsymm : Std.Symm fun a b : Path =>
        a.leg.nexthop ≠ b.leg.nexthop ∧ a.leg.lasthop ≠ b.leg.lasthop :=
      ⟨fun _ _ h => ⟨h.1.symm, h.2.symm⟩⟩
    exact (hpair.forall hp hq hpq).2
  have hnext : s.proto.next d = s.nextHop d := funext fun j => s.next_proto d j
  rw [← hnext]
  exact (hreach.lastHops hinf hk).disjoint hne hd hr (List.mem_map.mpr ⟨p, hp, rfl⟩)
    (List.mem_map.mpr ⟨q, hq, rfl⟩) hlast

/-- Four nodes. -/
def four : Params := ⟨{1, 2, 3, 4}, .mathH⟩

/-- The RREQ of node 1 reaches node 4 over nodes 2 and 3. -/
def diamond : List Cue :=
  [.app .mathH 0 1 4, .hear .mathH 0 2 0, .hear .mathH 0 3 0, .hear .mathH 0 4 1,
    .hear .mathH 0 4 2]

theorem reachable_diamond : (idle.final diamond).Reachable four :=
  ⟨_, run_idle (by decide +kernel)⟩

/-- Node 4 then has two paths to node 1, over nodes 2 and 3, which meet in node 1 only. -/
theorem node_disjoint_diamond :
    ∃ l l', Walk ((idle.final diamond).nextHop 1) 1 2 l ∧
      Walk ((idle.final diamond).nextHop 1) 1 3 l' ∧ 4 ∉ l ∧ 4 ∉ l' ∧
        ∀ x ∈ l, x ∈ l' → x = 1 := by
  have hpath : ((idle.final diamond).entry 4 1).map RtEntry.rtPathList =
      some [⟨2, 256, 6, 2⟩, ⟨3, 256, 6, 3⟩] := by decide +kernel
  obtain ⟨e, he, hl⟩ := Option.map_eq_some_iff.mp hpath
  have hkept : ∀ i e, (idle.final diamond).entry i 1 = some e → e.pathsDeleted = 0 := by
    intro i e he
    have hnodes : ∀ i ∈ four.nodes, ((idle.final diamond).entry i 1).all
        (fun e => e.pathsDeleted == 0) = true := by decide +kernel
    have := hnodes i (mem_of_entry reachable_diamond he)
    rw [he] at this
    exact eq_of_beq this
  exact node_disjoint (P := four) rfl reachable_diamond hkept he (p := ⟨2, 256, 6, 2⟩)
    (q := ⟨3, 256, 6, 3⟩) (by rw [hl]; simp) (by rw [hl]; simp) (by decide)

end Net

end Eamrp
