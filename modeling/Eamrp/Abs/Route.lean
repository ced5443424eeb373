import Eamrp.Abs.Receives

/-!
# Routes

The part of a routing-table entry that route decisions depend on, without expiry times and
request bookkeeping, and the six ways in which it changes. Every `EntryStep` is one of these
changes or leaves the route as it is.
-/

namespace Eamrp

/-- A path without its expiry time. -/
structure Leg where
  nexthop : NsAddr
  hopcount : UInt16
  lasthop : NsAddr
  deriving DecidableEq, Repr

/-- The leg of a path. -/
def Path.leg (p : Path) : Leg := ⟨p.nexthop, p.hopcount, p.lasthop⟩

/-- The leg that an advertisement offers. -/
def Advert.leg (A : Advert) : Leg := ⟨A.via, A.hopcount, A.first⟩

/-- What an entry says about the way to its destination. -/
structure Route where
  up : Bool
  seqno : UInt32
  adv : UInt16
  highest : UInt32
  legs : List Leg
  deleted : Nat
  deriving DecidableEq, Repr

namespace Route

/-- The route of a fresh entry. -/
def fresh : Route := ⟨false, 0, infinity2, 0, [], 0⟩

/-- `path_get_max_hopcount` on the legs. -/
def maxHopcount (r : Route) : UInt16 :=
  let m := r.legs.foldl (fun m ℓ => if m < ℓ.hopcount then ℓ.hopcount else m) 0
  if m = 0 then infinity2 else m

/-- With a leg of positive hop count, `maxHopcount` is the largest hop count. -/
theorem maxHopcount_spec {r : Route} (hne : r.legs ≠ []) (hpos : ∀ ℓ ∈ r.legs, ℓ.hopcount ≠ 0) :
    (∀ ℓ ∈ r.legs, ℓ.hopcount ≤ r.maxHopcount) ∧ ∃ ℓ ∈ r.legs, ℓ.hopcount = r.maxHopcount := by
  obtain ⟨-, h2, h3⟩ := foldl_max_spec Leg.hopcount r.legs 0
  obtain ⟨ℓ, hℓ⟩ := List.exists_mem_of_ne_nil _ hne
  have hm : r.legs.foldl (fun m ℓ => if m < ℓ.hopcount then ℓ.hopcount else m) 0 ≠ 0 := by
    intro hz
    have := h2 ℓ hℓ
    rw [hz] at this
    exact hpos ℓ hℓ (UInt16.le_zero_iff.mp this)
  simp only [maxHopcount, hm, if_false]
  exact ⟨h2, h3.resolve_left hm⟩

/-- The route after it has been advertised. -/
def freeze (inf : Infinity) (r : Route) : Route :=
  { r with adv := if inf.eqU16 r.adv then r.maxHopcount else r.adv }

/-- The number that the loss of the last leg leaves behind. -/
def nextSeqno (r : Route) : UInt32 := macroMax (r.seqno + 1) r.highest

/-- The route without legs, under another number. -/
def lost (inf : Infinity) (seqno highest : UInt32) (r : Route) : Route :=
  ⟨false, seqno, inf.toU16, highest, [], r.deleted + r.legs.length⟩

end Route

/-- The route of an entry. -/
def RtEntry.route (e : RtEntry) : Route where
  up := e.rtFlags == .up
  seqno := e.rtSeqno
  adv := e.rtAdvertisedHops
  highest := e.rtHighestSeqnoHeard
  legs := e.rtPathList.map Path.leg
  deleted := e.pathsDeleted

/-- The changes of the route for `d` at node `i` while it handles `heard`. -/
inductive RouteStep (inf : Infinity) (i d : NsAddr) (heard : Input) : Route → Route → Prop where
  /-- The route is advertised. -/
  | freeze {r : Route} (hup : r.up = true) : RouteStep inf i d heard r (r.freeze inf)
  /-- A newer sequence number is heard. -/
  | renew {r : Route} {A : Advert} (hA : Hears heard i A) (hd : A.dst = d) (hne : d ≠ i)
      (hs : r.seqno < A.seqno) :
      RouteStep inf i d heard r
        ⟨true, A.seqno, inf.toU16, r.highest, [A.leg], r.deleted + r.legs.length⟩
  /-- A disjoint alternate path is heard. -/
  | add {r : Route} {A : Advert} (hA : Hears heard i A) (hd : A.dst = d) (hup : r.up = true)
      (hs : r.seqno = A.seqno) (hh : A.hops.toUInt16 < r.adv)
      (hn : ∀ ℓ ∈ r.legs, ℓ.nexthop ≠ A.via ∧ ℓ.lasthop ≠ A.first) :
      RouteStep inf i d heard r { r with legs := r.legs ++ [A.leg] }
  /-- Some legs are lost, to a neighbour, to a RERR or to time. -/
  | lose {r : Route} {legs : List Leg} {k : Nat} {n : UInt32} (hup : r.up = true)
      (hl : legs.Sublist r.legs) (hne : legs ≠ []) (hk : legs.length + k = r.legs.length)
      (hn : n = r.highest ∨ ∃ x m, HearsError heard x d m ∧ n = macroMax r.highest m) :
      RouteStep inf i d heard r { r with legs := legs, highest := n, deleted := r.deleted + k }
  /-- The last leg is lost, to a neighbour or to time. -/
  | fail {r : Route} {n : UInt32} (hup : r.up = true)
      (hn : n = r.nextSeqno ∨ n = r.nextSeqno + 1 ∧ r.nextSeqno % 2 = 0) :
      RouteStep inf i d heard r (r.lost inf n r.highest)
  /-- The last leg is lost to a RERR. -/
  | withdraw {r : Route} {x : NsAddr} {m : UInt32} (hup : r.up = true)
      (hE : HearsError heard x d m) (hs : r.seqno ≤ m) :
      RouteStep inf i d heard r
        (r.lost inf (macroMax r.highest m) (macroMax r.highest m))

namespace RtEntry

theorem route_sameRoute {e e' : RtEntry} (h : e.SameRoute e') : e'.route = e.route := by
  simp only [route, h.rtFlags, h.rtSeqno, h.rtAdvertisedHops, h.rtPathList,
    h.rtHighestSeqnoHeard, h.pathsDeleted]

theorem route_touchFirst (now : Time) (e : RtEntry) : (e.touchFirst now).route = e.route := by
  unfold route touchFirst
  cases e.rtPathList <;> rfl

private theorem map_leg_raiseExpire (x y : NsAddr) (t : Time) (l : List Path) :
    (raiseExpire x y t l).map Path.leg = l.map Path.leg := by
  induction l with
  | nil => rfl
  | cons p l ih =>
    unfold raiseExpire
    split
    · rfl
    · simp [ih]

theorem route_refreshPath (e : RtEntry) (x y : NsAddr) (t : Time) :
    (e.refreshPath x y t).route = e.route := by
  simp only [route, refreshPath, map_leg_raiseExpire]

theorem maxHopcount_route (e : RtEntry) : e.route.maxHopcount = e.pathGetMaxHopcount := by
  simp only [Route.maxHopcount, route, pathGetMaxHopcount, List.foldl_map]
  rfl

theorem route_advertise (inf : Infinity) (e : RtEntry) :
    (e.advertise inf).route = e.route.freeze inf := by
  simp only [Route.freeze, maxHopcount_route]
  rfl

/-- `path_delete(id)` of a next hop that is there removes one path. -/
theorem length_pathDelete {e : RtEntry} {id : NsAddr} (h : (e.pathLookup id).isSome = true) :
    (e.pathDelete id).rtPathList.length + 1 = e.rtPathList.length ∧
      (e.pathDelete id).pathsDeleted = e.pathsDeleted + 1 := by
  refine ⟨?_, by simp [pathDelete, h]⟩
  obtain ⟨p, hp⟩ := Option.isSome_iff_exists.mp h
  have hm := List.mem_of_find?_eq_some hp
  have hq : (p.nexthop == id) = true := by
    rw [pathLookup] at hp
    exact List.find?_some (p := fun p : Path => p.nexthop == id) hp
  have hl := List.length_eraseP_of_mem hm (p := fun p => p.nexthop == id) hq
  have hpos := List.length_pos_of_mem hm
  simp only [pathDelete, hl]
  omega

theorem sublist_pathDelete (e : RtEntry) (id : NsAddr) :
    ((e.pathDelete id).rtPathList.map Path.leg).Sublist (e.rtPathList.map Path.leg) :=
  (List.eraseP_sublist).map _

/-- The route that `rt_down` leaves. -/
theorem route_rtDown {inf : Infinity} {e : RtEntry} (h : e.rtFlags ≠ .down) :
    (e.rtDown inf).route = e.route.lost inf e.rtSeqno e.rtHighestSeqnoHeard := by
  rw [rtDown_eq h]
  simp [route, Route.lost]

end RtEntry

/-- A step of an entry either leaves its route as it is or changes it in one of six ways. -/
theorem EntryStep.route {env : Env} {a : Agent} {heard : Input} {e e' : RtEntry}
    (h : EntryStep env a heard e e') :
    e'.rtDst = e.rtDst ∧
      (e'.route = e.route ∨ RouteStep env.inf a.index e.rtDst heard e.route e'.route) := by
  have hup' : ∀ {e : RtEntry}, e.rtFlags = .up → e.route.up = true := fun h => by
    simp [RtEntry.route, h]
  cases h with
  | soft h => exact ⟨h.rtDst, .inl (RtEntry.route_sameRoute h)⟩
  | touch hup => exact ⟨rfl, .inl (RtEntry.route_touchFirst _ _)⟩
  | refresh => exact ⟨rfl, .inl (RtEntry.route_refreshPath _ _ _ _)⟩
  | freeze hup =>
    refine ⟨rfl, .inr ?_⟩
    rw [RtEntry.route_advertise]
    exact .freeze (hup' hup)
  | @renew A hA hd hne hs =>
    refine ⟨rfl, .inr ?_⟩
    have hr : (e.renew env.inf A.seqno A.via A.hopcount (env.now + A.life) A.first).route =
        ⟨true, A.seqno, env.inf.toU16, e.route.highest, [A.leg],
          e.route.deleted + e.route.legs.length⟩ := by
      simp [RtEntry.route, RtEntry.renew, RtEntry.pathInsert, RtEntry.pathDeleteAll, Path.leg,
        Advert.leg]
    rw [hr]
    exact .renew hA hd (by rwa [← hd]) hs
  | @add A hA hd hup hs hh hn hm hl =>
    refine ⟨rfl, .inr ?_⟩
    have hn' : ∀ ℓ ∈ e.route.legs, ℓ.nexthop ≠ A.via ∧ ℓ.lasthop ≠ A.first := by
      intro ℓ hℓ
      obtain ⟨p, hp, rfl⟩ := List.mem_map.mp hℓ
      have := List.all_eq_true.mp hn p hp
      simpa [Path.leg] using this
    have hr : (e.addPath A.via A.hopcount (env.now + A.life) A.first).route =
        { e.route with legs := e.route.legs ++ [A.leg] } := by
      simp [RtEntry.route, RtEntry.addPath, RtEntry.pathInsert, Path.leg, Advert.leg]
    rw [hr]
    exact .add hA hd (hup' hup) hs hh hn'
  | @lose id hup hp hne =>
    refine ⟨rfl, .inr ?_⟩
    obtain ⟨hl, hk⟩ := RtEntry.length_pathDelete hp
    have hr : (e.pathDelete id).route = { e.route with
        legs := (e.pathDelete id).rtPathList.map Path.leg
        highest := e.route.highest
        deleted := e.route.deleted + 1 } := by
      simp [RtEntry.route, ← hk]
      simp [RtEntry.pathDelete]
    rw [hr]
    exact .lose (hup' hup) (e.sublist_pathDelete id) (by simpa using hne)
      (by simpa [RtEntry.route] using hl) (.inl rfl)
  | @hear id n hE hup hs hp hne =>
    refine ⟨rfl, .inr ?_⟩
    obtain ⟨hl, hk⟩ := RtEntry.length_pathDelete hp
    have hr : ((e.pathDelete id).heardError n).route = { e.route with
        legs := (e.pathDelete id).rtPathList.map Path.leg
        highest := macroMax e.route.highest n
        deleted := e.route.deleted + 1 } := by
      simp [RtEntry.route, RtEntry.heardError, ← hk]
      simp [RtEntry.pathDelete]
    rw [hr]
    exact .lose (hup' hup) (e.sublist_pathDelete id) (by simpa using hne)
      (by simpa [RtEntry.route] using hl) (.inr ⟨id, n, hE, rfl⟩)
  | @fail id hup hev hp hnil =>
    obtain ⟨hl, hk⟩ := RtEntry.length_pathDelete hp
    rw [hnil] at hl
    have hflags : (e.pathDelete id).rtFlags ≠ .down := by simp [RtEntry.pathDelete, hup]
    have hr : ((e.pathDelete id).failed env.inf).route =
        e.route.lost env.inf e.route.nextSeqno e.route.highest := by
      rw [RtEntry.failed, RtEntry.route_rtDown]
      · simp [RtEntry.route, Route.lost, Route.nextSeqno, hnil, hk, ← hl]
        simp [RtEntry.pathDelete]
      · exact hflags
    refine ⟨by simp [RtEntry.failed, RtEntry.pathDelete], .inr ?_⟩
    rw [hr]
    exact .fail (hup' hup) (.inl rfl)
  | @withdraw id n hE hup hs hev hp hnil =>
    obtain ⟨hl, hk⟩ := RtEntry.length_pathDelete hp
    rw [hnil] at hl
    set e₁ := (e.pathDelete id).heardError n with he₁
    have hflags : e₁.rtFlags ≠ .down := by
      simp [he₁, RtEntry.heardError, RtEntry.pathDelete, hup]
    have hr : (e₁.withdrawn env.inf).route =
        e.route.lost env.inf (macroMax e.route.highest n) (macroMax e.route.highest n) := by
      have : (e₁.withdrawn env.inf).route =
          ({ e₁ with rtSeqno := e₁.rtHighestSeqnoHeard }.rtDown env.inf).route := rfl
      rw [this, RtEntry.route_rtDown]
      · simp [RtEntry.route, Route.lost, he₁, RtEntry.heardError, hnil, hk, ← hl]
        simp [RtEntry.pathDelete]
      · exact hflags
    refine ⟨by simp [RtEntry.withdrawn, he₁, RtEntry.heardError, RtEntry.pathDelete], .inr ?_⟩
    rw [hr]
    exact .withdraw (hup' hup) hE hs
  | @purge hup hne =>
    obtain ⟨k, hk, he⟩ := e.pathPurge_eq env.now
    have hl := congrArg RtEntry.rtPathList he
    refine ⟨by rw [he], .inr ?_⟩
    have hr : (e.pathPurge env.now).route = { e.route with
        legs := (e.pathPurge env.now).rtPathList.map Path.leg
        highest := e.route.highest
        deleted := e.route.deleted + k } := by
      rw [he]
      simp [RtEntry.route]
    rw [hr]
    refine .lose (hup' hup) ?_ (by simpa using hne) (by simpa [RtEntry.route] using hk) (.inl rfl)
    rw [hl]
    exact List.filter_sublist.map _
  | @expire hup hnil =>
    obtain ⟨k, hk, he⟩ := e.pathPurge_eq env.now
    rw [hnil] at hk
    have hflags : (e.pathPurge env.now).rtFlags ≠ .down := by
      rw [he]
      simp [hup]
    have hr : ∀ n, ({ e.pathPurge env.now with rtSeqno := n }.rtDown env.inf).route =
        e.route.lost env.inf n e.route.highest := by
      intro n
      rw [RtEntry.route_rtDown]
      · rw [he] at hnil ⊢
        have hk' : k = e.rtPathList.length := by simpa using hk
        simpa [RtEntry.route, Route.lost, hk'] using hnil
      · exact hflags
    refine ⟨by simp [RtEntry.expired, he], .inr ?_⟩
    unfold RtEntry.expired
    rw [hr]
    refine .fail (hup' hup) ?_
    have hseq : macroMax ((e.pathPurge env.now).rtSeqno + 1)
        (e.pathPurge env.now).rtHighestSeqnoHeard = e.route.nextSeqno := by
      rw [he]
      rfl
    rw [hseq]
    split
    · next h => exact .inr ⟨rfl, h⟩
    · exact .inl rfl

/-- A leg of a changed route was there under the same number, or has just been heard. -/
theorem RouteStep.legs {inf : Infinity} {i d : NsAddr} {heard : Input} {r r' : Route}
    (h : RouteStep inf i d heard r r') {ℓ : Leg} (hℓ : ℓ ∈ r'.legs) :
    ℓ ∈ r.legs ∧ r'.seqno = r.seqno ∨
      ∃ A, Hears heard i A ∧ A.dst = d ∧ r'.seqno = A.seqno ∧ ℓ = A.leg := by
  cases h with
  | freeze => exact .inl ⟨hℓ, rfl⟩
  | renew hA hd => exact .inr ⟨_, hA, hd, rfl, List.mem_singleton.mp hℓ⟩
  | add hA hd _ hs =>
    rcases List.mem_append.mp hℓ with hℓ | hℓ
    · exact .inl ⟨hℓ, rfl⟩
    · exact .inr ⟨_, hA, hd, hs, List.mem_singleton.mp hℓ⟩
  | lose _ hl => exact .inl ⟨hl.subset hℓ, rfl⟩
  | fail => cases hℓ
  | withdraw => cases hℓ

end Eamrp
