import Eamrp.Model.Packet

/-!
# Path lists and the routing table

`EAMRP/eamrp/eamrp_rtable.h:39–155` and `eamrp_rtable.cc`. The C++ lists are Lean lists
in list order. Fields no compiled code reads (precursors, `rt_nblist`, a path's `ts` and
`error`, `hist_indx`) are left out.
-/

namespace Eamrp

/-- `EAMRP_Path`. -/
structure Path where
  nexthop : NsAddr
  hopcount : UInt16
  expire : Time
  lasthop : NsAddr
  deriving DecidableEq, Repr

/-- `RTF_DOWN`, `RTF_UP`, `RTF_IN_REPAIR`. -/
inductive RtFlags where
  | down
  | up
  | inRepair
  deriving DecidableEq, Repr

/-- `eamrp_rt_entry`. The constructor leaves `rt_hops` uninitialised. `pathsDeleted` is
ghost: it counts the paths ever deleted from the entry and no handler reads it. -/
structure RtEntry where
  rtDst : NsAddr
  rtHops : UInt16
  rtReqTimeout : Time := 0
  rtReqCnt : UInt8 := 0
  rtFlags : RtFlags := .down
  rtSeqno : UInt32 := 0
  rtAdvertisedHops : UInt16 := infinity2
  rtLastHopCount : Int := 255
  rtPathList : List Path := []
  rtHighestSeqnoHeard : UInt32 := 0
  rtNumPaths : Int := 0
  rtError : Bool := false
  rtExpire : Time := 0
  rtDiscLatency : List Time := [0, 0, 0]
  rtReqLastTtl : Int := 0
  pathsDeleted : Nat := 0
  deriving DecidableEq, Repr

namespace RtEntry

/-- `path_insert`: append at the end of the list. -/
def pathInsert (rt : RtEntry) (nexthop : NsAddr) (hopcount : UInt16) (expire : Time)
    (lasthop : NsAddr) : RtEntry :=
  { rt with
    rtPathList := rt.rtPathList ++ [⟨nexthop, hopcount, expire, lasthop⟩]
    rtNumPaths := rt.rtNumPaths + 1 }

/-- `path_lookup`: the first path with this next hop. -/
def pathLookup (rt : RtEntry) (id : NsAddr) : Option Path :=
  rt.rtPathList.find? (fun p => p.nexthop == id)

/-- `disjoint_path_lookup`: the first path with this next hop and last hop. -/
def disjointPathLookup (rt : RtEntry) (nexthop lasthop : NsAddr) : Option Path :=
  rt.rtPathList.find? (fun p => p.nexthop == nexthop && p.lasthop == lasthop)

/-- `new_disjoint_path`: no path has this next hop or this last hop. -/
def newDisjointPath (rt : RtEntry) (nexthop lasthop : NsAddr) : Bool :=
  rt.rtPathList.all (fun p => !(p.nexthop == nexthop || p.lasthop == lasthop))

/-- `path_lookup_lasthop`: the first path with this last hop. -/
def pathLookupLasthop (rt : RtEntry) (id : NsAddr) : Option Path :=
  rt.rtPathList.find? (fun p => p.lasthop == id)

/-- `path_delete(id)`: unlink the first path with this next hop, if there is one. -/
def pathDelete (rt : RtEntry) (id : NsAddr) : RtEntry :=
  { rt with
    rtPathList := rt.rtPathList.eraseP (fun p => p.nexthop == id)
    rtNumPaths := if (rt.pathLookup id).isSome then rt.rtNumPaths - 1 else rt.rtNumPaths
    pathsDeleted := if (rt.pathLookup id).isSome then rt.pathsDeleted + 1 else rt.pathsDeleted }

/-- `path_delete()`: unlink every path. -/
def pathDeleteAll (rt : RtEntry) : RtEntry :=
  { rt with
    rtPathList := []
    rtNumPaths := 0
    pathsDeleted := rt.pathsDeleted + rt.rtPathList.length }

/-- `path_empty`, with its asserts on the path count. -/
def pathEmpty (rt : RtEntry) : Except Fault Bool :=
  match rt.rtPathList with
  | _ :: _ => if 0 < rt.rtNumPaths then .ok false else .error .pathCountPositive
  | [] => if rt.rtNumPaths = 0 then .ok true else .error .pathCountZero

/-- `path_find`: the path that was inserted first. -/
def pathFind (rt : RtEntry) : Option Path := rt.rtPathList.head?

/-- `path_get_max_hopcount`; `INFINITY2` when no path has a positive hop count. -/
def pathGetMaxHopcount (rt : RtEntry) : UInt16 :=
  let maxHopcount := rt.rtPathList.foldl (fun m p => if m < p.hopcount then p.hopcount else m) 0
  if maxHopcount = 0 then infinity2 else maxHopcount

/-- `path_get_min_hopcount`; the search starts from `INFINITY2`. -/
def pathGetMinHopcount (rt : RtEntry) : UInt16 :=
  rt.rtPathList.foldl (fun m p => if p.hopcount < m then p.hopcount else m) infinity2

/-- One turn of the `do … while` of `path_purge`: unlink the first expired path. -/
def pathPurgeOne (now : Time) (rt : RtEntry) : RtEntry :=
  { rt with
    rtPathList := rt.rtPathList.eraseP (fun p => decide (p.expire < now))
    rtNumPaths := rt.rtNumPaths - 1
    pathsDeleted := rt.pathsDeleted + 1 }

/-- The loop of `path_purge`, which restarts the scan after every removal. -/
def pathPurgeLoop (now : Time) : Nat → RtEntry → RtEntry
  | 0, rt => rt
  | n + 1, rt =>
    if rt.rtPathList.any (fun p => decide (p.expire < now)) then
      pathPurgeLoop now n (rt.pathPurgeOne now)
    else rt

/-- `path_purge`; each turn removes one path, so the list's length bounds the turns. -/
def pathPurge (now : Time) (rt : RtEntry) : RtEntry :=
  pathPurgeLoop now rt.rtPathList.length rt

/-! ### Statement groups that `eamrp.cc` repeats on an entry -/

/-- Lines 758–766 and 1019–1026: adopt a newer sequence number, forget every path and
insert the first new one. -/
def renew (inf : Infinity) (rt : RtEntry) (seqno : UInt32) (nexthop : NsAddr)
    (hopcount : UInt16) (expire : Time) (lasthop : NsAddr) : RtEntry :=
  let rt := { rt with rtSeqno := seqno, rtAdvertisedHops := inf.toU16 }
  let rt := { rt.pathDeleteAll with rtFlags := .up }
  let rt := rt.pathInsert nexthop hopcount expire lasthop
  { rt with rtLastHopCount := rt.pathGetMaxHopcount.toNat }

/-- Lines 798–800 and 1047–1049: insert an alternate path. -/
def addPath (rt : RtEntry) (nexthop : NsAddr) (hopcount : UInt16) (expire : Time)
    (lasthop : NsAddr) : RtEntry :=
  let rt := rt.pathInsert nexthop hopcount expire lasthop
  { rt with rtLastHopCount := rt.pathGetMaxHopcount.toNat }

/-- Raise the expiry of the first path with this next hop and last hop. -/
def raiseExpire (nexthop lasthop : NsAddr) (expire : Time) : List Path → List Path
  | [] => []
  | p :: ps =>
    if p.nexthop == nexthop && p.lasthop == lasthop then
      { p with expire := macroMax p.expire expire } :: ps
    else p :: raiseExpire nexthop lasthop expire ps

/-- Lines 783 and 1038: prolong the path found by `disjoint_path_lookup`. -/
def refreshPath (rt : RtEntry) (nexthop lasthop : NsAddr) (expire : Time) : RtEntry :=
  { rt with rtPathList := raiseExpire nexthop lasthop expire rt.rtPathList }

/-- Lines 832–834 and 1067–1069: reset the soft state of route requests. -/
def resetSoftState (rt : RtEntry) : RtEntry :=
  { rt with rtReqTimeout := 0, rtReqLastTtl := 0, rtReqCnt := 0 }

/-- Lines 887–888, 964–965 and 1124–1125: fix the advertised hop count on first use. -/
def advertise (inf : Infinity) (rt : RtEntry) : RtEntry :=
  { rt with
    rtAdvertisedHops := if inf.eqU16 rt.rtAdvertisedHops then rt.pathGetMaxHopcount
      else rt.rtAdvertisedHops }

/-- Lines 1129 and 1295: overwrite the expiry of the first path. -/
def touchFirst (now : Time) (rt : RtEntry) : RtEntry :=
  { rt with
    rtPathList := match rt.rtPathList with
      | [] => []
      | p :: ps => { p with expire := now + activeRouteTimeout } :: ps }

/-- `rt_down`, lines 459–481. -/
def rtDown (inf : Infinity) (rt : RtEntry) : RtEntry :=
  if rt.rtFlags = .down then rt
  else { { rt with rtFlags := .down, rtAdvertisedHops := inf.toU16 }.pathDeleteAll with
    rtExpire := 0 }

end RtEntry

/-- `eamrp_rtable`, in list order. An entry is addressed by its `rt_dst`. -/
abbrev RTable := List RtEntry

namespace RTable

/-- `rt_lookup`. -/
def rtLookup (t : RTable) (id : NsAddr) : Option RtEntry := t.find? (fun e => e.rtDst == id)

/-- `rt_add`: a fresh entry at the head; `hops` is what its memory held at `rt_hops`. -/
def rtAdd (t : RTable) (id : NsAddr) (hops : UInt16) : Except Fault RTable :=
  if (t.rtLookup id).isSome then .error .rtAddTwice
  else .ok ({ rtDst := id, rtHops := hops } :: t)

/-- Write an entry back through the pointer that `rt_lookup` gave for its destination. -/
def store (t : RTable) (e : RtEntry) : RTable :=
  t.map (fun x => if x.rtDst = e.rtDst then e else x)

/-- `rt_has_active_route`. -/
def rtHasActiveRoute (t : RTable) : Bool := t.any (fun e => e.rtFlags == .up)

theorem rtLookup_cons (x : RtEntry) (t : RTable) (d : NsAddr) :
    rtLookup (x :: t) d = if x.rtDst = d then some x else rtLookup t d := by
  by_cases h : x.rtDst = d <;> simp [rtLookup, h]

/-- A stored entry is the one found under its destination, and no other lookup changes. -/
theorem rtLookup_store (t : RTable) (e : RtEntry) (d : NsAddr) :
    (t.store e).rtLookup d =
      if d = e.rtDst then (t.rtLookup d).map (fun _ => e) else t.rtLookup d := by
  induction t with
  | nil => simp [store, rtLookup]
  | cons x t ih =>
    have hs : (store (x :: t) e) = (if x.rtDst = e.rtDst then e else x) :: store t e := rfl
    rw [hs, rtLookup_cons, rtLookup_cons, ih]
    by_cases hx : x.rtDst = e.rtDst <;> by_cases hd : d = e.rtDst
    · simp [hx, hd]
    · simp [hx, hd, Ne.symm hd]
    · simp [hx, hd]
    · simp [hx, hd]

/-- Lookup finds an entry for the destination that was asked for. -/
theorem rtDst_of_rtLookup {t : RTable} {d : NsAddr} {e : RtEntry} (h : t.rtLookup d = some e) :
    e.rtDst = d := by
  have := List.find?_some h
  simpa using this

/-- Storing keeps the destinations and their order. -/
theorem map_rtDst_store (t : RTable) (e : RtEntry) :
    (t.store e).map RtEntry.rtDst = t.map RtEntry.rtDst := by
  simp only [store, List.map_map]
  apply List.map_congr_left
  intro x _
  by_cases h : x.rtDst = e.rtDst <;> simp [h]

end RTable

end Eamrp
