import Eamrp.Agent.Runs

/-!
# The representation invariant of path lists

Flag, list and count of every entry agree in every state of an agent, whatever it receives:
each elementary step keeps them in step. The asserts of `path_empty` and the dereferences of
the result of `path_find` are therefore safe.
-/

namespace Eamrp

open Relation

/-- An entry whose flag, path list and path count agree. -/
structure RtEntry.WellFormed (maxPaths : Int) (e : RtEntry) : Prop where
  flags : e.rtFlags = .up ∨ e.rtFlags = .down
  up_iff : e.rtFlags = .up ↔ e.rtPathList ≠ []
  count : e.rtNumPaths = e.rtPathList.length
  nexthop : (e.rtPathList.map Path.nexthop).Nodup
  lasthop : (e.rtPathList.map Path.lasthop).Nodup
  length : (e.rtPathList.length : Int) ≤ max 1 maxPaths

namespace RtEntry

variable {n : Int} {e e' : RtEntry}

/-- An entry without paths. -/
theorem wellFormed_nil (hdown : e.rtFlags = .down) (hnil : e.rtPathList = [])
    (hcount : e.rtNumPaths = 0) : e.WellFormed n where
  flags := .inr hdown
  up_iff := by simp [hdown, hnil]
  count := by simp [hnil, hcount]
  nexthop := by simp [hnil]
  lasthop := by simp [hnil]
  length := by simp [hnil]

/-- `rt_down` leaves an entry without paths. -/
theorem wellFormed_rtDown {inf : Infinity} (h : e.rtFlags ≠ .down) :
    (e.rtDown inf).WellFormed n := by
  rw [rtDown_eq h]
  exact wellFormed_nil rfl rfl rfl

/-- Only flag, legs and count matter. -/
theorem WellFormed.of_legs (h : e.WellFormed n) (hflags : e'.rtFlags = e.rtFlags)
    (hlegs : e'.rtPathList.map Path.leg = e.rtPathList.map Path.leg)
    (hcount : e'.rtNumPaths = e.rtNumPaths) : e'.WellFormed n := by
  have hlen : e'.rtPathList.length = e.rtPathList.length := by
    simpa using congrArg List.length hlegs
  have hmap : ∀ f : Leg → NsAddr, e'.rtPathList.map (fun p => f p.leg) =
      e.rtPathList.map (fun p => f p.leg) := by
    intro f
    simpa [Function.comp_def] using congrArg (List.map f) hlegs
  refine ⟨hflags ▸ h.flags, ?_, ?_, ?_, ?_, hlen ▸ h.length⟩
  · rw [hflags, h.up_iff, ← List.length_pos_iff, ← List.length_pos_iff, hlen]
  · rw [hcount, h.count, hlen]
  · have hn : e'.rtPathList.map Path.nexthop = e.rtPathList.map Path.nexthop := hmap Leg.nexthop
    exact hn ▸ h.nexthop
  · have hl : e'.rtPathList.map Path.lasthop = e.rtPathList.map Path.lasthop := hmap Leg.lasthop
    exact hl ▸ h.lasthop

/-- Some, but not all, paths are removed. -/
theorem WellFormed.sublist (h : e.WellFormed n) (hup : e'.rtFlags = .up)
    (hl : e'.rtPathList.Sublist e.rtPathList) (hne : e'.rtPathList ≠ [])
    (hcount : e'.rtNumPaths = e'.rtPathList.length) : e'.WellFormed n where
  flags := .inl hup
  up_iff := by simp [hup, hne]
  count := hcount
  nexthop := h.nexthop.sublist (hl.map _)
  lasthop := h.lasthop.sublist (hl.map _)
  length := by
    have := hl.length_le
    have := h.length
    omega

theorem wellFormed_renew {inf : Infinity} {seqno : UInt32} {nexthop lasthop : NsAddr}
    {hopcount : UInt16} {expire : Time} :
    (e.renew inf seqno nexthop hopcount expire lasthop).WellFormed n where
  flags := .inl rfl
  up_iff := by simp [renew, pathInsert, pathDeleteAll]
  count := by simp [renew, pathInsert, pathDeleteAll]
  nexthop := by simp [renew, pathInsert, pathDeleteAll]
  lasthop := by simp [renew, pathInsert, pathDeleteAll]
  length := by simp [renew, pathInsert, pathDeleteAll]

/-- A disjoint path is inserted below the limit. -/
theorem WellFormed.addPath {nexthop lasthop : NsAddr} {hopcount : UInt16} {expire : Time}
    (h : e.WellFormed n) (hup : e.rtFlags = .up) (hn : e.newDisjointPath nexthop lasthop = true)
    (hm : e.rtNumPaths < n) : (e.addPath nexthop hopcount expire lasthop).WellFormed n := by
  have hnew : ∀ p ∈ e.rtPathList, p.nexthop ≠ nexthop ∧ p.lasthop ≠ lasthop := by
    simpa [newDisjointPath] using hn
  have hlist : (e.addPath nexthop hopcount expire lasthop).rtPathList =
      e.rtPathList ++ [⟨nexthop, hopcount, expire, lasthop⟩] := rfl
  refine ⟨.inl hup, ?_, ?_, ?_, ?_, ?_⟩
  · simp [RtEntry.addPath, pathInsert, hup]
  · rw [hlist, List.length_append]
    change e.rtNumPaths + 1 = _
    rw [h.count]
    rfl
  · rw [hlist, List.map_append, List.nodup_append]
    exact ⟨h.nexthop, by simp, by simpa using fun p hp => (hnew p hp).1⟩
  · rw [hlist, List.map_append, List.nodup_append]
    exact ⟨h.lasthop, by simp, by simpa using fun p hp => (hnew p hp).2⟩
  · have := h.count
    rw [hlist, List.length_append, List.length_singleton]
    omega

end RtEntry

/-- Every change of an entry keeps flag, path list and path count in agreement. -/
theorem EntryStep.wellFormed {env : Env} {a : Agent} {heard : Input} {e e' : RtEntry}
    (h : EntryStep env a heard e e') (he : e.WellFormed a.eamrpMaxPaths) :
    e'.WellFormed a.eamrpMaxPaths := by
  cases h with
  | soft h => exact he.of_legs h.rtFlags (by rw [h.rtPathList]) h.rtNumPaths
  | touch => exact he.of_legs rfl (congrArg Route.legs (RtEntry.route_touchFirst _ _)) rfl
  | refresh =>
    exact he.of_legs rfl (congrArg Route.legs (RtEntry.route_refreshPath _ _ _ _)) rfl
  | renew => exact RtEntry.wellFormed_renew
  | add _ _ hup _ _ hn hm => exact he.addPath hup hn hm
  | freeze => exact he.of_legs rfl rfl rfl
  | @lose id hup hp hne =>
    exact he.sublist hup List.eraseP_sublist hne (RtEntry.pathDelete_count id he.count)
  | fail hup => exact RtEntry.wellFormed_rtDown (by simp [RtEntry.pathDelete, hup])
  | @hear id n hE hup hs hp hne =>
    exact he.sublist hup List.eraseP_sublist hne (RtEntry.pathDelete_count id he.count)
  | withdraw _ hup =>
    refine RtEntry.WellFormed.of_legs (RtEntry.wellFormed_rtDown ?_) rfl rfl rfl
    simp [RtEntry.heardError, RtEntry.pathDelete, hup]
  | purge hup hne =>
    obtain ⟨k, hk, hpurge⟩ := e.pathPurge_eq env.now
    refine he.sublist (by rw [hpurge]; exact hup) ?_ hne ?_
    · rw [RtEntry.rtPathList_pathPurge]
      exact List.filter_sublist
    · have hcount : (e.pathPurge env.now).rtNumPaths = e.rtNumPaths - k := by rw [hpurge]
      rw [hcount, he.count]
      omega
  | expire hup =>
    obtain ⟨k, -, hpurge⟩ := e.pathPurge_eq env.now
    exact RtEntry.wellFormed_rtDown (by rw [hpurge]; simp [hup])

/-- Looking up an entry of a table whose entries have all been rewritten. -/
theorem RTable.rtLookup_map {g : RtEntry → RtEntry} (hg : ∀ e, (g e).rtDst = e.rtDst) (t : RTable)
    (d : NsAddr) : RTable.rtLookup (t.map g) d = (t.rtLookup d).map g := by
  simp only [rtLookup, List.find?_map]
  congr 2
  ext e
  simp [hg]

/-- In a table with one entry for each destination, every entry is found. -/
theorem RTable.rtLookup_of_mem {t : RTable} (hnd : (t.map RtEntry.rtDst).Nodup) {e : RtEntry}
    (he : e ∈ t) : t.rtLookup e.rtDst = some e := by
  have hsome : (t.rtLookup e.rtDst).isSome = true :=
    List.find?_isSome.mpr ⟨e, he, by simp⟩
  obtain ⟨f, hf⟩ := Option.isSome_iff_exists.mp hsome
  rw [hf]
  congr 1
  exact List.inj_on_of_nodup_map hnd (List.mem_of_find?_eq_some hf) he
    (RTable.rtDst_of_rtLookup hf)

namespace Agent

/-- The representation invariant of the routing table. -/
structure PathLists (a : Agent) : Prop where
  dst : (a.rtable.map RtEntry.rtDst).Nodup
  entry : ∀ e ∈ a.rtable, e.WellFormed a.eamrpMaxPaths

theorem PathLists.lookup {a : Agent} (h : a.PathLists) {d : NsAddr} {e : RtEntry}
    (he : a.rtable.rtLookup d = some e) : e.WellFormed a.eamrpMaxPaths :=
  h.entry e (List.mem_of_find?_eq_some he)

/-- Only the routing table and the limit matter. -/
theorem PathLists.of_eq {a a' : Agent} (h : a.PathLists) (ht : a'.rtable = a.rtable)
    (hm : a'.eamrpMaxPaths = a.eamrpMaxPaths) : a'.PathLists :=
  ⟨ht ▸ h.dst, by rw [ht, hm]; exact h.entry⟩

/-- Writing a well-formed entry. -/
theorem PathLists.store {a : Agent} (h : a.PathLists) {e : RtEntry}
    (he : e.WellFormed a.eamrpMaxPaths) : PathLists { a with rtable := a.rtable.store e } where
  dst := by
    rw [RTable.map_rtDst_store]
    exact h.dst
  entry x hx := by
    obtain ⟨y, hy, rfl⟩ := List.mem_map.mp hx
    split
    · exact he
    · exact h.entry y hy

end Agent

/-- What holds of a new entry, and every change of an entry keeps, every step keeps of all
entries. -/
theorem Step.forall_entry {Q : RtEntry → Prop} {env : Env} {heard : Input} {w w' : World}
    (h : Step env heard w w') (hnew : ∀ d hops, Q { rtDst := d, rtHops := hops })
    (hentry : ∀ e e', EntryStep env w.toAgent heard e e' → Q e → Q e')
    (hw : ∀ e ∈ w.rtable, Q e) : ∀ e ∈ w'.rtable, Q e := by
  cases h with
  | entry hl hs =>
    intro x hx
    obtain ⟨y, hy, rfl⟩ := List.mem_map.mp hx
    split
    · exact hentry _ _ hs (hw _ (List.mem_of_find?_eq_some hl))
    · exact hw y hy
  | rtAdd h =>
    obtain ⟨-, rfl⟩ := World.rtAdd_ok h
    intro x hx
    rcases List.mem_cons.mp hx with rfl | hx
    · exact hnew _ _
    · exact hw x hx
  | bumpSeqno => exact hw
  | raiseSeqno =>
    rw [World.raiseSeqno_eq]
    exact hw
  | frame h => exact h.rtable ▸ hw
  | cache => exact hw
  | neighbors => exact hw
  | send => exact hw

/-- Every elementary step keeps the representation invariant. -/
theorem Step.pathLists {env : Env} {heard : Input} {w w' : World} (h : Step env heard w w')
    (hw : w.toAgent.PathLists) : w'.toAgent.PathLists := by
  cases h with
  | entry hl hs => exact hw.store (hs.wellFormed (hw.lookup hl))
  | @rtAdd _ d h =>
    unfold World.rtAdd RTable.rtAdd at h
    by_cases hs : (RTable.rtLookup w.rtable d).isSome = true
    · simp [hs] at h
    · have hnone : RTable.rtLookup w.rtable d = none := by simpa using hs
      obtain rfl : { w with rtable := { rtDst := d, rtHops := env.rtHops d } :: w.rtable } = w' := by
        simpa [hnone] using h
      refine ⟨?_, ?_⟩
      · refine List.nodup_cons.mpr ⟨?_, hw.dst⟩
        intro hmem
        obtain ⟨e, he, hd⟩ := List.mem_map.mp hmem
        have := List.find?_eq_none.mp hnone e he
        simp [hd] at this
      · intro e he
        rcases List.mem_cons.mp he with rfl | he
        · exact RtEntry.wellFormed_nil rfl rfl rfl
        · exact hw.entry e he
  | bumpSeqno => exact hw.of_eq rfl rfl
  | raiseSeqno =>
    rw [World.raiseSeqno_eq]
    exact hw.of_eq rfl rfl
  | frame h => exact hw.of_eq h.rtable h.eamrpMaxPaths
  | cache => exact hw.of_eq rfl rfl
  | neighbors => exact hw.of_eq rfl rfl
  | send => exact hw.of_eq rfl rfl

namespace Agent

/-- The faults that stand for the asserts of `path_empty` and for a dereference of a null
pointer. -/
def pathFaults : List Fault := [.pathCountPositive, .pathCountZero, .nullPath]

/-- With the representation invariant, no such fault can be blamed on the agent. -/
theorem PathLists.not_blame {heard : Input} {w : World} (h : w.toAgent.PathLists) {f : Fault}
    (hf : f ∈ pathFaults) : ¬ Blame heard w f := by
  simp only [pathFaults, List.mem_cons, List.not_mem_nil, or_false] at hf
  rcases hf with rfl | rfl | rfl
  · rintro ⟨d, e, he, hne⟩
    exact hne (h.lookup he).count
  · rintro ⟨d, e, he, hne⟩
    exact hne (h.lookup he).count
  · rintro ⟨d, e, he, hup, hnil⟩
    exact (h.lookup he).up_iff.mp hup hnil

/-- Every entry is found under its destination. -/
theorem PathLists.rtLookup_of_mem {a : Agent} (h : a.PathLists) {e : RtEntry}
    (he : e ∈ a.rtable) : a.rtable.rtLookup e.rtDst = some e :=
  RTable.rtLookup_of_mem h.dst he

theorem Reachable.pathLists {a : Agent} (h : a.Reachable) : a.PathLists := by
  refine h.induct ?_ fun _ _ _ _ hs hw => hs.pathLists hw
  intro i a hi
  rw [hi]
  exact ⟨List.nodup_nil, fun _ he => absurd he List.not_mem_nil⟩

/-- The representation invariant holds in every reachable state of an agent, and neither the
asserts of `path_empty` nor a dereference of the result of `path_find` can fail there. -/
theorem path_lists {a : Agent} (h : a.Reachable) :
    a.PathLists ∧ ∀ env inp f, handle env inp a.world = .error f → f ∉ pathFaults := by
  have hinv := h.pathLists
  refine ⟨hinv, fun env inp f hf hmem => ?_⟩
  obtain ⟨w, hsteps, hblame⟩ := blame hf
  have hw : w.toAgent.PathLists := by
    refine Lib.preserved_of_steps (I := fun w => w.toAgent.PathLists) ?_ hsteps hinv
    exact fun _ _ hv hs => hs.pathLists hv
  exact hw.not_blame hmem hblame

/-- Node 2 after it has relayed a discovery. -/
theorem path_lists_discovery :
    ((Net.idle.final (Net.discovery .mathH)).node 2).PathLists :=
  (path_lists ((Net.reachable_discovery .mathH).agent 2)).1

end Agent

end Eamrp
