import Eamrp.Agent.Expiry
import Eamrp.Agent.Output

/-!
# Loss of a neighbour

What `nb_delete` does to the neighbour cache, the routing table and the interface queue. The
packets queued for the lost neighbour are taken out one by one and dropped or salvaged; the
table has been cleaned first, so none goes back to that neighbour.
-/

namespace Eamrp

open Lib

namespace RtEntry

/-- The entry, possibly used since. -/
structure Used (now : Time) (e e' : RtEntry) : Prop where
  rtDst : e'.rtDst = e.rtDst
  rtFlags : e'.rtFlags = e.rtFlags
  rtPathList : List.Forall₂ (Path.Kept now) e.rtPathList e'.rtPathList

/-- The entry over a lost neighbour: it has lost the path over it and kept all others in their
order, and it is down exactly if it was up over that neighbour only. -/
structure LosesLink (now : Time) (id : NsAddr) (e e' : RtEntry) : Prop where
  rtDst : e'.rtDst = e.rtDst
  rtFlags : e'.rtFlags = if e.OnlyVia id then .down else e.rtFlags
  rtPathList : List.Forall₂ (Path.Kept now)
    (e.rtPathList.filter fun p => decide (p.nexthop ≠ id)) e'.rtPathList

/-- An entry over which packets can be salvaged: if it is up, it has a path, is not about the
node itself and does not use the neighbour. -/
def Clean (i id : NsAddr) (e : RtEntry) : Prop :=
  e.rtFlags = .up → e.rtDst ≠ i ∧ e.rtPathList ≠ [] ∧ ∀ p ∈ e.rtPathList, p.nexthop ≠ id

variable {now : Time} {i id : NsAddr} {e e' e'' : RtEntry}

theorem Used.refl (now : Time) (e : RtEntry) : e.Used now e :=
  ⟨rfl, rfl, List.forall₂_same.mpr fun _ _ => .inl rfl⟩

theorem Used.trans (h : e.Used now e') (h' : e'.Used now e'') : e.Used now e'' where
  rtDst := h'.rtDst.trans h.rtDst
  rtFlags := h'.rtFlags.trans h.rtFlags
  rtPathList := forall₂_trans .trans h.rtPathList h'.rtPathList

theorem used_used (now : Time) (transit : Bool) (e : RtEntry) : e.Used now (e.used now transit) := by
  have htouch : e.Used now (e.touchFirst now) := by
    refine ⟨rfl, rfl, ?_⟩
    unfold touchFirst
    cases e.rtPathList with
    | nil => exact .nil
    | cons p l => exact .cons (.inr rfl) (List.forall₂_same.mpr fun _ _ => .inl rfl)
  unfold used
  split
  · exact htouch.trans ⟨rfl, rfl, List.forall₂_same.mpr fun _ _ => .inl rfl⟩
  · exact htouch

theorem map_rtDst_used {t t' : RTable} (h : List.Forall₂ (Used now) t t') :
    t'.map RtEntry.rtDst = t.map RtEntry.rtDst := by
  induction h with
  | nil => rfl
  | cons hu _ ih => rw [List.map_cons, List.map_cons, hu.rtDst, ih]

theorem Clean.used (h : e.Clean i id) (hu : e.Used now e') : e'.Clean i id := by
  intro hup
  obtain ⟨hd, hne, hno⟩ := h (hu.rtFlags ▸ hup)
  refine ⟨hu.rtDst ▸ hd, fun hnil => hne ?_, fun p hp => ?_⟩
  · have hlen := hu.rtPathList.length_eq
    rw [hnil] at hlen
    exact List.length_eq_zero_iff.mp hlen
  · obtain ⟨q, hq, hk⟩ := exists_of_forall₂ hu.rtPathList hp
    exact hk.nexthop ▸ hno q hq

/-- The loss of the link leaves clean entries. -/
theorem clean_lostLink {inf : Infinity} {n : Int} (hwf : e.WellFormed n)
    (hown : e.rtDst = i → e.rtFlags ≠ .up) : (e.lostLink inf id).Clean i id := by
  unfold lostLink
  split
  · exact fun hup => by cases (rtFlags_rtDown inf _).symm.trans hup
  · next honly =>
    split
    · next hup =>
      refine fun _ => ⟨fun hd => hown hd hup, fun hnil => ?_, fun p hp => ?_⟩
      · cases hl : e.pathLookup id with
        | none =>
          rw [pathDelete_of_none hl] at hnil
          exact hwf.up_iff.mp hup hnil
        | some p => exact honly ⟨hup, (pathDelete_nil_iff (by rw [hl]; rfl)).mp hnil⟩
      · rw [rtPathList_pathDelete id hwf.nexthop] at hp
        exact of_decide_eq_true (List.mem_filter.mp hp).2
    · next hdown => exact fun hup => absurd hup hdown

/-- What the loss of the link and uses since have made of an entry. -/
theorem losesLink_lostLink {inf : Infinity} {n : Int} (hwf : e.WellFormed n)
    (hu : (e.lostLink inf id).Used now e') : e.LosesLink now id e' := by
  have hpaths : (e.lostLink inf id).rtPathList =
      e.rtPathList.filter fun p => decide (p.nexthop ≠ id) := by
    have hdel := rtPathList_pathDelete id hwf.nexthop
    unfold lostLink
    split
    · next honly =>
      have hnil := (pathDelete_nil_iff (isSome_of_onlyVia honly)).mpr honly.2
      rw [← hdel, hnil, failed, rtDown_eq]
      exact fun hd => by cases honly.1.symm.trans hd
    · split
      · exact hdel
      · next hdown =>
        have hnil : e.rtPathList = [] := by
          by_contra hne
          exact hdown (hwf.up_iff.mpr hne)
        rw [hnil]
        rfl
  have hflags : (e.lostLink inf id).rtFlags = if e.OnlyVia id then .down else e.rtFlags := by
    unfold lostLink
    split
    · exact rtFlags_rtDown _ _
    · split
      · rfl
      · rfl
  exact ⟨hu.rtDst.trans (rtDst_lostLink _ _ _), hu.rtFlags.trans hflags, hpaths ▸ hu.rtPathList⟩

end RtEntry

/-! ### Salvaging -/

/-- What becomes of a packet that is queued for the lost neighbour `id`: it is dropped, or handed
to `target_` over another next hop and with its salvage count raised; a broadcast packet that is
marked as incoming goes to the node itself. -/
def Effect.Disposes (id : NsAddr) (p : Packet) : Effect → Prop
  | .drop q _ => q.ih = p.ih ∧ q.body = p.body
  | .target q _ => q.ih = p.ih ∧ q.body = p.body ∧ q.ch.nextHop ≠ id ∧
      q.ch.eamrpSalvageCount = p.ch.eamrpSalvageCount + 1 ∧
      q.ch.eamrpSalvageCount ≤ eamrpMaxSalvageCount
  | .dmux q => q.ih = p.ih ∧ q.body = p.body ∧ p.isEamrp = false ∧ p.ch.direction = .up ∧
      p.ih.daddr = ipBroadcast

namespace World

/-- Only uses of entries and more effects. -/
structure Disposed (now : Time) (effs : List Effect) (w w' : World) : Prop where
  world : w' = { w with rtable := w'.rtable, out := w.out ++ effs }
  rtable : List.Forall₂ (RtEntry.Used now) w.rtable w'.rtable

/-- Every entry is clean. -/
structure Clean (id : NsAddr) (w : World) : Prop where
  dst : (w.rtable.map RtEntry.rtDst).Nodup
  entry : ∀ e ∈ w.rtable, e.Clean w.index id

/-- There is a route to the broadcast address. -/
def RoutesBroadcast (w : World) : Prop :=
  ∃ e ∈ w.rtable, e.rtDst = ipBroadcast ∧ e.rtFlags = .up

end World

section Salvage

variable {env : Env} {id : NsAddr} {w w' : World} {p : Packet}

namespace World.Disposed

variable {now : Time} {effs effs' : List Effect} {w'' : World}

theorem emit (x : Effect) (w : World) : w.Disposed now [x] (w.emit x) :=
  ⟨rfl, List.forall₂_same.mpr fun e _ => .refl now e⟩

theorem trans (h : w.Disposed now effs w') (h' : w'.Disposed now effs' w'') :
    w.Disposed now (effs ++ effs') w'' where
  world := by
    rw [h'.world, h.world]
    simp [List.append_assoc]
  rtable := forall₂_trans .trans h.rtable h'.rtable

/-- The interface queue does not matter. -/
theorem ifqueue (h : w.Disposed now effs w') (q : List Packet) :
    World.Disposed now effs { w with ifqueue := q } { w' with ifqueue := q } :=
  ⟨by rw [h.world], h.rtable⟩

theorem clean (h : w.Disposed now effs w') (hw : w.Clean id) : w'.Clean id where
  dst := by
    rw [RtEntry.map_rtDst_used h.rtable]
    exact hw.dst
  entry e he := by
    obtain ⟨f, hf, hu⟩ := exists_of_forall₂ h.rtable he
    have hi : w'.index = w.index := by rw [h.world]
    rw [hi]
    exact (hw.entry f hf).used hu

theorem routesBroadcast (h : w.Disposed now effs w') (hw : w'.RoutesBroadcast) :
    w.RoutesBroadcast := by
  obtain ⟨e, he, hd, hup⟩ := hw
  obtain ⟨f, hf, hu⟩ := exists_of_forall₂ h.rtable he
  exact ⟨f, hf, hu.rtDst ▸ hd, hu.rtFlags ▸ hup⟩

end World.Disposed

variable (env) in
/-- Over an entry that is up and has a path, `forward` fails for a broadcast packet only. -/
theorem forward_cases {d : NsAddr} {e : RtEntry} {path : Path} (delay : Time)
    (he : w.rtLookup d = some e) (hup : e.rtFlags = .up) (hp : e.pathFind = some path) :
    (∃ w', forward env (some d) p delay w = .ok w') ∨
      forward env (some d) p delay w = .error .forwardBroadcast ∧ p.ih.daddr = ipBroadcast := by
  unfold forward
  split
  · exact .inl ⟨_, rfl⟩
  · split
    · exact .inl ⟨_, rfl⟩
    · simp only [he, hup, hp, ne_eq, not_true_eq_false, if_false]
      split
      · next hb => exact .inr ⟨rfl, hb⟩
      · exact .inl ⟨_, rfl⟩

/-- Over clean entries, `forward` does not use the lost neighbour. -/
theorem Forwarded.disposes {q : Packet} (h : Forwarded env q w (some q.ih.daddr) w')
    (hw : w.Clean id) {e : RtEntry} (he : w.rtLookup q.ih.daddr = some e) (hup : e.rtFlags = .up)
    (hih : q.ih = p.ih) (hbody : q.body = p.body) (hdir : q.ch.direction = p.ch.direction)
    (hcount : q.ch.eamrpSalvageCount = p.ch.eamrpSalvageCount + 1)
    (hle : q.ch.eamrpSalvageCount ≤ eamrpMaxSalvageCount) :
    ∃ x, w.Disposed env.now [x] w' ∧ x.Disposes id p := by
  have hmem := List.mem_of_find?_eq_some he
  obtain ⟨hself, -, hno⟩ := hw.entry e hmem hup
  have hdst := w.rtDst_of_rtLookup he
  cases h with
  | expired => exact ⟨_, .emit _ w, hih, hbody⟩
  | dmux hl =>
    rcases hl with ⟨happ, hdir', hb⟩ | hl
    · have happ : p.isEamrp = false := by
        rw [← happ, Packet.isEamrp, Packet.isEamrp, hbody]
      exact ⟨_, .emit _ w, hih, hbody, happ, hdir ▸ hdir', hih ▸ hb⟩
    · exact absurd (hdst.trans hl) hself
  | @unicast _ f path delay _ _ _ hf _ hp =>
    obtain rfl := Option.some.inj (he.symm.trans hf)
    have hpath : path ∈ e.rtPathList := List.mem_of_mem_head? hp
    refine ⟨.target (q.over path.nexthop) delay, ⟨rfl, ?_⟩, hih, hbody, hno path hpath, hcount, hle⟩
    change List.Forall₂ (RtEntry.Used env.now) w.rtable (w.rtable.map _)
    rw [List.forall₂_map_right_iff, List.forall₂_same]
    intro x hx
    have hused := RtEntry.used_used env.now (decide (q.ih.saddr ≠ w.index ∧ q.dataPacket = true)) e
    split
    · next hd =>
      obtain rfl := List.inj_on_of_nodup_map hw.dst hx hmem (hd.trans hused.rtDst)
      exact hused
    · exact .refl env.now x

variable (env) in
/-- One packet is dropped or salvaged. -/
theorem salvage_cases (hw : w.Clean id) (p : Packet) :
    (∃ x w', salvage env p w = .ok w' ∧ w.Disposed env.now [x] w' ∧ x.Disposes id p) ∨
      salvage env p w = .error .forwardBroadcast ∧ p.dataPacket = true ∧
        p.ih.daddr = ipBroadcast ∧ w.RoutesBroadcast := by
  have hdrop : ∃ x, w.Disposed env.now [x] (w.drop p .hello) ∧ x.Disposes id p :=
    ⟨.drop p .hello, .emit _ w, rfl, rfl⟩
  obtain ⟨x, hx, hdis⟩ := hdrop
  unfold salvage
  split
  · exact .inl ⟨x, _, rfl, hx, hdis⟩
  · next hdata =>
    split
    · exact .inl ⟨x, _, rfl, hx, hdis⟩
    · next e he =>
      split
      · next hc =>
        have hmem := List.mem_of_find?_eq_some he
        obtain ⟨-, hne, -⟩ := hw.entry e hmem hc.1
        obtain ⟨path, l, hl⟩ := List.exists_cons_of_ne_nil hne
        have hp : e.pathFind = some path := by rw [RtEntry.pathFind, hl, List.head?_cons]
        rcases forward_cases env noEamrpDelay (p := { p with ch := { p.ch with
            eamrpSalvageCount := p.ch.eamrpSalvageCount + 1 } }) he hc.1 hp with
          ⟨w', hok⟩ | ⟨herr, hb⟩
        · obtain ⟨x, hx, hdis⟩ := (forward_ok hok).disposes hw he hc.1 (p := p) rfl rfl rfl rfl
            (Int.add_one_le_iff.mpr hc.2)
          exact .inl ⟨x, w', hok, hx, hdis⟩
        · exact .inr ⟨herr, by simpa using hdata, hb, e, hmem, (w.rtDst_of_rtLookup he).trans hb,
            hc.1⟩
      · exact .inl ⟨x, _, rfl, hx, hdis⟩

variable (env) in
/-- The drain loop takes out every packet that is queued for the neighbour, in order. -/
theorem whileFilter_cases {n : Nat} (hw : w.Clean id)
    (hn : (w.ifqueue.filter fun p => p.ch.nextHop == id).length < n) :
    (∃ w' effs, whileFilter env id n w = .ok w' ∧
        { w with ifqueue := w.ifqueue.filter fun p => !(p.ch.nextHop == id) }.Disposed env.now effs
          w' ∧
        List.Forall₂ (Effect.Disposes id) (w.ifqueue.filter fun p => p.ch.nextHop == id) effs) ∨
      whileFilter env id n w = .error .forwardBroadcast ∧ w.RoutesBroadcast ∧
        ∃ p ∈ w.ifqueue, p.ch.nextHop = id ∧ p.dataPacket = true ∧ p.ih.daddr = ipBroadcast := by
  induction n generalizing w with
  | zero => exact absurd hn (Nat.not_lt_zero _)
  | succ n ih =>
    unfold whileFilter filterIfqueue
    cases hf : w.ifqueue.find? fun p => p.ch.nextHop == id with
    | none =>
      obtain ⟨hnil, hall⟩ := filter_of_find?_none hf
      refine .inl ⟨w, [], rfl, ⟨?_, List.forall₂_same.mpr fun e _ => .refl _ e⟩, ?_⟩
      · rw [hall, List.append_nil]
      · rw [hnil]
        exact .nil
    | some p =>
      obtain ⟨hcons, hrest⟩ := filter_of_find? hf
      have hmem := List.mem_of_find?_eq_some hf
      have hnext : (p.ch.nextHop == id) = true :=
        List.find?_some (p := fun p : Packet => p.ch.nextHop == id) hf
      have hclean : World.Clean id { w with ifqueue := w.ifqueue.eraseP fun p =>
          p.ch.nextHop == id } := ⟨hw.dst, hw.entry⟩
      rcases salvage_cases env hclean p with ⟨x, v, hok, hx, hdis⟩ | ⟨herr, hdata, hb, hr⟩
      · have hqueue : v.ifqueue = w.ifqueue.eraseP fun p => p.ch.nextHop == id := by
          rw [hx.world]
        have hlen : (v.ifqueue.filter fun p => p.ch.nextHop == id).length < n := by
          rw [hcons, List.length_cons] at hn
          rw [hqueue]
          omega
        have hmove := hx.ifqueue (w.ifqueue.filter fun p => !(p.ch.nextHop == id))
        dsimp only
        rw [hok, ok_bind]
        rcases ih (hx.clean hclean) hlen with ⟨w', effs, hloop, hd, hall⟩ | ⟨herr, hr, q, hq, hbad⟩
        · rw [hqueue] at hall hd
          rw [hrest] at hd
          exact .inl ⟨w', x :: effs, hloop, hmove.trans hd, hcons ▸ .cons hdis hall⟩
        · rw [hqueue] at hq
          exact .inr ⟨herr, hx.routesBroadcast hr, q, List.mem_of_mem_eraseP hq, hbad⟩
      · dsimp only
        rw [herr]
        exact .inr ⟨rfl, hr, p, hmem, eq_of_beq hnext, hdata, hb⟩

end Salvage

/-! ### The whole call -/

/-- No route to the node itself comes up. -/
theorem EntryStep.own_down {env : Env} {a : Agent} {heard : Input} {e e' : RtEntry}
    (h : EntryStep env a heard e e') (he : e.rtDst = a.index → e.rtFlags ≠ .up) :
    e'.rtDst = a.index → e'.rtFlags ≠ .up := by
  cases h with
  | soft h =>
    rw [h.rtDst, h.rtFlags]
    exact he
  | touch hup => exact fun hd => absurd hup (he hd)
  | refresh _ _ hup => exact fun hd => absurd hup (he hd)
  | renew _ hd hne => exact fun hd' => absurd (hd.trans hd') hne
  | add _ _ hup => exact fun hd => absurd hup (he hd)
  | freeze hup => exact fun hd => absurd hup (he hd)
  | lose hup => exact fun hd => absurd hup (he hd)
  | fail => exact fun _ hup => by cases (RtEntry.rtFlags_rtDown env.inf _).symm.trans hup
  | hear _ hup => exact fun hd => absurd hup (he hd)
  | withdraw => exact fun _ hup => by cases (RtEntry.rtFlags_rtDown env.inf _).symm.trans hup
  | purge hup =>
    obtain ⟨k, -, hpurge⟩ := e.pathPurge_eq env.now
    rw [hpurge]
    exact fun hd => absurd hup (he hd)
  | expire => exact fun _ hup => by cases (RtEntry.rtFlags_rtDown env.inf _).symm.trans hup

namespace Agent

theorem Reachable.own_down {a : Agent} (h : a.Reachable) :
    ∀ e ∈ a.rtable, e.rtDst = a.index → e.rtFlags ≠ .up := by
  refine h.induct (I := fun a => ∀ e ∈ a.rtable, e.rtDst = a.index → e.rtFlags ≠ .up) ?_ ?_
  · intro i a hi
    rw [hi]
    exact fun e he => absurd he List.not_mem_nil
  · intro env heard w w' hs hw
    rw [hs.sameNode.index]
    exact hs.forall_entry (Q := fun e => e.rtDst = w.index → e.rtFlags ≠ .up)
      (fun _ _ _ hup => by cases hup) (fun _ _ hs => hs.own_down) hw

/-- What the loss of a neighbour leaves behind. -/
structure LosesNeighbor (a : Agent) (now : Time) (id : NsAddr) (w' : World) : Prop where
  nbhead : w'.nbhead = a.nbhead.filter fun nb => decide (nb.nbAddr ≠ id)
  rtable : List.Forall₂ (RtEntry.LosesLink now id) a.rtable w'.rtable
  ifqueue : w'.ifqueue = a.ifqueue.filter fun p => !(p.ch.nextHop == id)
  out : ∃ rerr effs, w'.out = rerr ++ effs ∧
    (∀ x ∈ rerr, ∃ p delay re, x = .target p delay ∧ p.body = .rerr re) ∧
    List.Forall₂ (Effect.Disposes id) (a.ifqueue.filter fun p => p.ch.nextHop == id) effs

/-- The world when the drain loop starts. -/
structure Cut (a : Agent) (inf : Infinity) (id : NsAddr) (v : World) : Prop where
  index : v.index = a.index
  nbhead : v.nbhead = a.nbhead.filter fun nb => decide (nb.nbAddr ≠ id)
  rtable : v.rtable = a.rtable.map (RtEntry.lostLink inf id)
  ifqueue : v.ifqueue = a.ifqueue
  out : ∀ x ∈ v.out, ∃ p delay re, x = .target p delay ∧ p.body = .rerr re

theorem Cut.clean {a : Agent} (h : a.Reachable) {inf : Infinity} {id : NsAddr} {v : World}
    (hv : a.Cut inf id v) : v.Clean id where
  dst := by
    rw [hv.rtable, List.map_map]
    have hsame : RtEntry.rtDst ∘ RtEntry.lostLink inf id = RtEntry.rtDst :=
      funext fun e => RtEntry.rtDst_lostLink inf id e
    rw [hsame]
    exact h.pathLists.dst
  entry e he := by
    rw [hv.rtable] at he
    obtain ⟨f, hf, rfl⟩ := List.mem_map.mp he
    rw [hv.index]
    exact RtEntry.clean_lostLink (h.pathLists.entry f hf) (h.own_down f hf)

theorem Cut.losesNeighbor {a : Agent} (ha : a.PathLists) {env : Env} {id : NsAddr}
    {v w' : World} {effs : List Effect} (hv : a.Cut env.inf id v)
    (hd : World.Disposed env.now effs
      { v with ifqueue := v.ifqueue.filter fun p => !(p.ch.nextHop == id) } w')
    (hall : List.Forall₂ (Effect.Disposes id) (v.ifqueue.filter fun p => p.ch.nextHop == id) effs) :
    a.LosesNeighbor env.now id w' where
  nbhead := by
    rw [hd.world]
    exact hv.nbhead
  rtable := by
    have hused : List.Forall₂ (RtEntry.Used env.now) v.rtable w'.rtable := hd.rtable
    rw [hv.rtable, List.forall₂_map_left_iff] at hused
    refine ((List.forall₂_and_left _ _).mpr ⟨ha.entry, hused⟩).imp ?_
    exact fun e e' he => RtEntry.losesLink_lostLink he.1 he.2
  ifqueue := by
    rw [hd.world, ← hv.ifqueue]
  out := ⟨v.out, effs, by rw [hd.world], hv.out, hv.ifqueue ▸ hall⟩

/-- A route to the broadcast address that is up when the loop starts was up before. -/
theorem Cut.routesBroadcast {a : Agent} {inf : Infinity} {id : NsAddr} {v : World}
    (hv : a.Cut inf id v) (h : v.RoutesBroadcast) :
    ∃ e ∈ a.rtable, e.rtDst = ipBroadcast ∧ e.rtFlags = .up := by
  obtain ⟨e, he, hd, hup⟩ := h
  rw [hv.rtable] at he
  obtain ⟨f, hf, rfl⟩ := List.mem_map.mp he
  refine ⟨f, hf, (RtEntry.rtDst_lostLink inf id f) ▸ hd, ?_⟩
  unfold RtEntry.lostLink at hup
  split at hup
  · next honly => exact honly.1
  · split at hup
    · next hf => exact hf
    · exact hup

/-- The agent when the record of the neighbour has been removed, lines 1652–1661. -/
def unlinked (id : NsAddr) (a : Agent) : World :=
  { a.world.setSeqno (a.world.seqno.toNat + 2) with
    nbhead := a.world.nbhead.eraseP fun nb => nb.nbAddr == id }

theorem nbDelete_eq {a : Agent} (h : a.Tidy) (env : Env) (id : NsAddr) :
    nbDelete env id a.world = handleLinkFailure env id (a.unlinked id) >>=
      fun w => whileFilter env id (w.ifqueue.length + 1) w :=
  if_neg (not_not.mpr (World.even_setSeqno h.seqno))

theorem cut_lostLink {a : Agent} (h : a.OneNeighbor) (env : Env) (id : NsAddr) (re : HdrError) :
    a.Cut env.inf id (if 0 < re.length then
      sendError env re false ((a.unlinked id).lostLink env.inf id)
      else (a.unlinked id).lostLink env.inf id) := by
  have hnb : a.nbhead.eraseP (fun nb => nb.nbAddr == id) =
      a.nbhead.filter fun nb => decide (nb.nbAddr ≠ id) := eraseP_eq_filter h id
  split
  · refine ⟨rfl, hnb, rfl, rfl, fun x hx => ?_⟩
    obtain rfl := List.mem_singleton.mp hx
    exact ⟨_, _, re, rfl, rfl⟩
  · exact ⟨rfl, hnb, rfl, rfl, fun x hx => absurd hx List.not_mem_nil⟩

/-- Loss of a neighbour, end to end: in a reachable state `nb_delete` removes the record of the
neighbour, all paths over it and all packets queued for it, and nothing else. An entry goes down
exactly when it was up over that neighbour only. The packets are dropped or salvaged over another
next hop, each once. Otherwise an assert stops the agent, or its RERR overflows. -/
theorem neighbor_lost {a : Agent} (h : a.Reachable) (env : Env) (id : NsAddr) :
    (∃ w', nbDelete env id a.world = .ok w' ∧ a.LosesNeighbor env.now id w') ∨
      (nbDelete env id a.world = .error .linkFailureSeqno ∧
        ∃ e ∈ a.rtable, e.rtFlags = .up ∧ (e.pathLookup id).isSome = true ∧ e.rtSeqno % 2 ≠ 0) ∨
      (nbDelete env id a.world = .error .errorOverflow ∧
        eamrpMaxErrors < (a.reportable id).length) ∨
      (nbDelete env id a.world = .error .forwardBroadcast ∧
        (∃ e ∈ a.rtable, e.rtDst = ipBroadcast ∧ e.rtFlags = .up) ∧
        ∃ p ∈ a.ifqueue, p.ch.nextHop = id ∧ p.dataPacket = true ∧ p.ih.daddr = ipBroadcast) := by
  rw [nbDelete_eq h.tidy]
  have hpl : (a.unlinked id).toAgent.PathLists := h.pathLists.of_eq rfl rfl
  rcases handleLinkFailure_cases env id hpl with
    ⟨hok, -⟩ | ⟨herr, hover⟩ | ⟨herr, hodd⟩
  · have hcut := cut_lostLink h.ranged.2 env id ((a.unlinked id).linkErrors env.inf id)
    rw [hok, ok_bind]
    rcases whileFilter_cases env (hcut.clean h)
      (Nat.lt_succ_of_le (List.length_filter_le ..)) with
      ⟨w', effs, hloop, hd, hall⟩ | ⟨herr, hr, p, hp, hbad⟩
    · exact .inl ⟨w', hloop, hcut.losesNeighbor h.pathLists hd hall⟩
    · right; right; right
      exact ⟨herr, hcut.routesBroadcast hr, p, hcut.ifqueue ▸ hp, hbad⟩
  · right; right; left
    rw [herr]
    refine ⟨rfl, ?_⟩
    have hcount : (a.unlinked id).linkErrors env.inf id = a.world.linkErrors env.inf id := rfl
    rw [hcount, linkErrors_world, List.length_map] at hover
    exact hover
  · right; left
    rw [herr]
    exact ⟨rfl, hodd⟩

/-- A data packet for node `d` that is queued for node 1. -/
def queued (d : NsAddr) (direction : Direction) : Packet where
  ih := { saddr := 5, daddr := d, ttl := 7 }
  ch := { direction, addrType := .inet, nextHop := 1 }
  body := .app true

/-- Node 2 hears a HELLO of node `x` in the name of node `d`. -/
def hello (x d : NsAddr) : Turn where
  env := { now := 0, inf := .mathH }
  input := .recv
    { ih := { saddr := x, daddr := ipBroadcast, sport := rtPort, dport := rtPort, ttl := 1 }
      body := .hello { rpHopCount := 0, rpDst := d, rpDstSeqno := 2, rpLifetime := 4 } }

/-- Node 2 hears from node 1 and of node 1 over node 3, and a packet is queued for node 1. -/
def twoWays : List Turn :=
  let rp : Packet :=
    { ih := { saddr := 3, daddr := 2, sport := rtPort, dport := rtPort, ttl := 9 }
      body := .rrep { rpHopCount := 1, rpDst := 1, rpDstSeqno := 2, rpSrc := 3, rpLifetime := 10,
                      rpFirstHop := 4 } }
  [hello 1 1, ⟨{ now := 0, inf := .mathH }, .recv rp⟩,
    ⟨{ now := 1, inf := .mathH }, .ifqueue [queued 1 .down]⟩]

/-- When node 1 is lost, the packet goes to node 3. -/
theorem neighbor_lost_twoWays :
    ∃ w', nbDelete { now := 2, inf := .mathH } 1 (final (idle 2) twoWays).toAgent.world = .ok w' ∧
      (final (idle 2) twoWays).toAgent.LosesNeighbor 2 1 w' := by
  have hreach : (final (idle 2) twoWays).toAgent.Reachable :=
    ⟨_, ⟨_, run_idle (by decide +kernel)⟩, rfl⟩
  have hok : (nbDelete { now := 2, inf := .mathH } 1
      (final (idle 2) twoWays).toAgent.world).isOk = true := by decide +kernel
  rcases neighbor_lost hreach { now := 2, inf := .mathH } 1 with
    hlost | ⟨herr, -⟩ | ⟨herr, -⟩ | ⟨herr, -⟩
  · exact hlost
  · rw [herr] at hok
    cases hok
  · rw [herr] at hok
    cases hok
  · rw [herr] at hok
    cases hok

example :
    ((nbDelete { now := 2, inf := .mathH } 1 (final (idle 2) twoWays).toAgent.world).toOption.map
      fun w => w.sent.map fun p => (p.ch.nextHop, p.ch.eamrpSalvageCount)) = some [(3, 1)] := by
  decide +kernel

/-- A HELLO has brought up a route to the broadcast address, and a broadcast packet that is
marked as incoming is queued for node 1. -/
def stray : List Turn :=
  [hello 4 ipBroadcast, ⟨{ now := 1, inf := .mathH }, .ifqueue [queued ipBroadcast .up]⟩]

/-- When node 1 is lost, the node gives that packet to itself. -/
theorem neighbor_lost_stray :
    ∃ a : Agent, a.Reachable ∧ queued ipBroadcast .up ∈ a.ifqueue ∧
      (queued ipBroadcast .up).ch.nextHop = 1 ∧
      ∃ w', nbDelete { now := 2, inf := .mathH } 1 a.world = .ok w' ∧
        ∃ q, w'.out = [.dmux q] ∧ q.ih = (queued ipBroadcast .up).ih := by
  have hreach : (final (idle 2) stray).toAgent.Reachable :=
    ⟨_, ⟨_, run_idle (by decide +kernel)⟩, rfl⟩
  have hout : (nbDelete { now := 2, inf := .mathH } 1
      (final (idle 2) stray).toAgent.world).toOption.map World.out =
        some [.dmux { queued ipBroadcast .up with ch := { (queued ipBroadcast .up).ch with
          eamrpSalvageCount := 1 } }] := by decide +kernel
  refine ⟨_, hreach, by decide +kernel, rfl, ?_⟩
  cases hrun : nbDelete { now := 2, inf := .mathH } 1 (final (idle 2) stray).toAgent.world with
  | error f =>
    rw [hrun] at hout
    cases hout
  | ok w' =>
    rw [hrun] at hout
    exact ⟨w', rfl, _, Option.some.inj hout, rfl⟩

end Agent

end Eamrp
