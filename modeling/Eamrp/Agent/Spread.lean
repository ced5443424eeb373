import Eamrp.Agent.RouteUpdate

/-!
# Path lengths

How far the hop counts of the paths in one entry lie apart. An alternate path is refused when
it is longer than the shortest one by more than `eamrp_prim_alt_path_len_diff_`, but not when
it is shorter than the longest one by more than that.
-/

namespace Eamrp

open Lib

/-- The hop counts of any two paths differ by at most `diff`. -/
def RtEntry.Spread (diff : Int) (e : RtEntry) : Prop :=
  ∀ p ∈ e.rtPathList, ∀ q ∈ e.rtPathList, (p.hopcount.toNat : Int) - q.hopcount.toNat ≤ diff

instance (diff : Int) (e : RtEntry) : Decidable (e.Spread diff) :=
  inferInstanceAs (Decidable (∀ p ∈ e.rtPathList, ∀ q ∈ e.rtPathList, _))

/-- If the advertised path is admitted as an alternate, no stored path is longer by more than
`eamrp_prim_alt_path_len_diff_`. -/
def Agent.KeepsSpread (a : Agent) (A : Advert) : Prop :=
  A.dst ≠ a.index → ∀ e, a.rtable.rtLookup A.dst = some e → e.Admits a A →
    ∀ p ∈ e.rtPathList, (p.hopcount.toNat : Int) - A.hopcount.toNat ≤ a.eamrpPrimAltPathLenDiff

theorem Advert.toNat_hopcount (A : Advert) : A.hopcount.toNat = A.hops.toNat + 1 := by
  have := A.hops.toNat_lt
  rw [Advert.hopcount, UInt16.toNat_add]
  simp
  omega

namespace RtEntry

variable {diff : Int} {e e' : RtEntry}

/-- Only the legs matter, and fewer of them differ less. -/
theorem Spread.of_legs (h : e.Spread diff)
    (hl : ∀ ℓ ∈ e'.rtPathList.map Path.leg, ℓ ∈ e.rtPathList.map Path.leg) : e'.Spread diff := by
  intro p hp q hq
  obtain ⟨p', hp', hpl⟩ := List.mem_map.mp (hl _ (List.mem_map.mpr ⟨p, hp, rfl⟩))
  obtain ⟨q', hq', hql⟩ := List.mem_map.mp (hl _ (List.mem_map.mpr ⟨q, hq, rfl⟩))
  have hpc : p'.hopcount = p.hopcount := congrArg Leg.hopcount hpl
  have hqc : q'.hopcount = q.hopcount := congrArg Leg.hopcount hql
  rw [← hpc, ← hqc]
  exact h p' hp' q' hq'

theorem Spread.calm (h : e.Spread diff) (hc : e.Calm e') : e'.Spread diff :=
  h.of_legs fun _ hℓ => hc.legs ▸ hℓ

private theorem foldl_min_le (l : List Path) (m : UInt16) :
    l.foldl (fun m p => if p.hopcount < m then p.hopcount else m) m ≤ m ∧
      ∀ p ∈ l, l.foldl (fun m p => if p.hopcount < m then p.hopcount else m) m ≤ p.hopcount := by
  induction l generalizing m with
  | nil => exact ⟨UInt16.le_refl _, fun p hp => absurd hp List.not_mem_nil⟩
  | cons q l ih =>
    rw [List.foldl_cons]
    obtain ⟨hstart, hall⟩ := ih (if q.hopcount < m then q.hopcount else m)
    have hq : (if q.hopcount < m then q.hopcount else m) ≤ q.hopcount ∧
        (if q.hopcount < m then q.hopcount else m) ≤ m := by
      split
      · next h => exact ⟨UInt16.le_refl _, UInt16.le_of_lt h⟩
      · next h => exact ⟨UInt16.not_lt.mp h, UInt16.le_refl _⟩
    refine ⟨UInt16.le_trans hstart hq.2, fun p hp => ?_⟩
    rcases List.mem_cons.mp hp with rfl | hp
    · exact UInt16.le_trans hstart hq.1
    · exact hall p hp

/-- No path is shorter than the smallest hop count. -/
theorem pathGetMinHopcount_le {p : Path} (hp : p ∈ e.rtPathList) :
    e.pathGetMinHopcount ≤ p.hopcount :=
  (foldl_min_le e.rtPathList infinity2).2 p hp

/-- An admitted path is not longer than another one by more than the limit. -/
theorem Admits.not_longer {a : Agent} {A : Advert} (h : e.Admits a A) {p : Path}
    (hp : p ∈ e.rtPathList) :
    (A.hopcount.toNat : Int) - p.hopcount.toNat ≤ a.eamrpPrimAltPathLenDiff := by
  have hmin := UInt16.le_iff_toNat_le.mp (e.pathGetMinHopcount_le hp)
  have hspread := h.2.2.2.2
  unfold hopSpread at hspread
  rw [A.toNat_hopcount]
  omega

/-- Legs that a route update leaves: those that were there and the advertised one. -/
theorem legs_learn (env : Env) (a : Agent) (A : Advert) (e : RtEntry) :
    (e.learn env a A).rtPathList.map Path.leg =
      if e.rtSeqno < A.seqno then [A.leg]
      else if e.Admits a A then e.rtPathList.map Path.leg ++ [A.leg]
      else e.rtPathList.map Path.leg := by
  unfold learn
  split_ifs
  · rfl
  · exact List.map_append
  · exact congrArg Route.legs (e.route_refreshPath A.via A.first (env.now + A.life))
  · rfl

/-- The route update keeps the spread unless it admits a path that is too short. -/
theorem Spread.learn {env : Env} {a : Agent} {A : Advert} (hdiff : 0 ≤ a.eamrpPrimAltPathLenDiff)
    (h : e.Spread a.eamrpPrimAltPathLenDiff)
    (hA : e.Admits a A → ∀ p ∈ e.rtPathList,
      (p.hopcount.toNat : Int) - A.hopcount.toNat ≤ a.eamrpPrimAltPathLenDiff) :
    (e.learn env a A).Spread a.eamrpPrimAltPathLenDiff := by
  unfold RtEntry.learn
  split_ifs with hlt hadm href
  · intro p hp q hq
    obtain rfl := List.mem_singleton.mp hp
    obtain rfl := List.mem_singleton.mp hq
    omega
  · have hnew : ∀ p ∈ (e.addPath A.via A.hopcount (env.now + A.life) A.first).rtPathList,
        p ∈ e.rtPathList ∨ p.hopcount = A.hopcount := by
      intro p hp
      rcases List.mem_append.mp hp with hp | hp
      · exact .inl hp
      · exact .inr (by rw [List.mem_singleton.mp hp])
    intro p hp q hq
    rcases hnew p hp with hp | hp <;> rcases hnew q hq with hq | hq
    · exact h p hp q hq
    · rw [hq]
      exact hA hadm p hp
    · rw [hp]
      exact hadm.not_longer hq
    · rw [hp, hq]
      omega
  · refine h.of_legs fun ℓ hℓ => ?_
    have hlegs : (e.refreshPath A.via A.first (env.now + A.life)).rtPathList.map Path.leg =
        e.rtPathList.map Path.leg :=
      congrArg Route.legs (e.route_refreshPath A.via A.first (env.now + A.life))
    rwa [hlegs] at hℓ
  · exact h

end RtEntry

/-- Every entry that can be looked up has its spread. -/
def World.Spread (w : World) : Prop :=
  ∀ d e, w.rtLookup d = some e → e.Spread w.eamrpPrimAltPathLenDiff

section Events

variable {env : Env} {heard : Input} {A : Advert} {w w' : World}

theorem World.Spread.calm (h : w.Spread) (hc : w.Calm w') : w'.Spread := by
  intro d e' he'
  rw [hc.eamrpPrimAltPathLenDiff]
  cases hd : w.rtLookup d with
  | none =>
    rw [hc.missing d hd] at he'
    cases he'
  | some e =>
    obtain ⟨f, hf, hef⟩ := hc.entry d e hd
    obtain rfl := Option.some.inj (hf.symm.trans he')
    exact (h d e hd).calm hef

/-- Elementary steps that hear no advertisement leave or remove legs. -/
theorem Step.spread (h : Step env heard w w') (hh : ∀ A, ¬ Hears heard w.index A)
    (hw : w.Spread) : w'.Spread := by
  have hsame : w'.eamrpPrimAltPathLenDiff = w.eamrpPrimAltPathLenDiff :=
    h.sameNode.eamrpPrimAltPathLenDiff
  cases h with
  | @entry e e' hl hs =>
    obtain ⟨hdst, hroute⟩ := hs.route
    have hlegs : ∀ ℓ ∈ e'.rtPathList.map Path.leg, ℓ ∈ e.rtPathList.map Path.leg := by
      intro ℓ hℓ
      rcases hroute with hroute | hroute
      · have hsame : e'.rtPathList.map Path.leg = e.rtPathList.map Path.leg :=
          congrArg Route.legs hroute
        rwa [hsame] at hℓ
      · rcases hroute.legs hℓ with ⟨hℓ, -⟩ | ⟨A, hA, -⟩
        · exact hℓ
        · exact absurd hA (hh A)
    intro d x hx
    by_cases hd : d = e.rtDst
    · subst hd
      rw [World.rtLookup_store_self hl hdst] at hx
      obtain rfl := Option.some.inj hx
      exact (hw _ e hl).of_legs hlegs
    · rw [World.rtLookup_store_ne (by rwa [hdst])] at hx
      exact hw d x hx
  | rtAdd hadd =>
    obtain ⟨-, rfl⟩ := World.rtAdd_ok hadd
    intro d x hx
    change RTable.rtLookup (_ :: _) d = _ at hx
    rw [RTable.rtLookup_cons] at hx
    split at hx
    · obtain rfl := Option.some.inj hx
      exact fun p hp => absurd hp List.not_mem_nil
    · exact hw d x hx
  | bumpSeqno => exact hw
  | raiseSeqno =>
    rw [World.raiseSeqno_eq]
    exact hw
  | frame h =>
    intro d x hx
    rw [hsame]
    exact hw d x (by rwa [h.rtLookup] at hx)
  | cache => exact hw
  | neighbors => exact hw
  | send => exact hw

/-- The entry for the destination of an advertisement after the event of hearing it. -/
theorem HearsAdvert.entry (h : HearsAdvert env A w w') : ∃ e, w'.rtLookup A.dst = some e ∧
    ((w.entryFor env A.dst).learn env w.toAgent A).Calm e := by
  obtain ⟨u, hu, ⟨rfl, -⟩ | ⟨x, hup, hx⟩⟩ := h
  · exact ⟨_, hu.self, .refl _⟩
  · exact ((calm_routeUp hup).trans hx).entry _ _ hu.self

/-- One event keeps the spread if it hears no advertisement that breaks it. -/
theorem handle_spread {inp : Input} (h : handle env inp w = .ok w')
    (hdiff : 0 ≤ w.eamrpPrimAltPathLenDiff)
    (hcond : ∀ A, Hears inp w.index A → w.toAgent.KeepsSpread A) (hw : w.Spread) : w'.Spread := by
  by_cases hh : ∃ A, Hears inp w.index A
  · obtain ⟨A, hA⟩ := hh
    obtain ⟨hown, hother⟩ := handle_hears h hA
    by_cases hne : A.dst = w.index
    · exact hw.calm (hown hne)
    · obtain ⟨u, hu, hrest⟩ := hother hne
      have hspread : u.Spread := by
        intro d e he
        rw [hu.eamrpPrimAltPathLenDiff]
        by_cases hd : d = A.dst
        · rw [hd, hu.self] at he
          obtain rfl := Option.some.inj he
          unfold World.entryFor
          cases hl : w.rtLookup A.dst with
          | none =>
            refine RtEntry.Spread.learn hdiff (fun p hp => absurd hp List.not_mem_nil) ?_
            exact fun _ p hp => absurd hp List.not_mem_nil
          | some e => exact (hw _ e hl).learn hdiff (hcond A hA hne e hl)
        · rw [hu.other d hd] at he
          exact hw d e he
      rcases hrest with ⟨rfl, -⟩ | ⟨x, hup, hx⟩
      · exact hspread
      · exact hspread.calm ((calm_routeUp hup).trans hx)
  · have hruns := @handle_runs env inp w
    rw [h] at hruns
    have hnone : ∀ A, ¬ Hears inp.aged w.index A := fun A hA => hh ⟨A, hears_aged.mp hA⟩
    refine (preserved_of_steps (I := fun v : World => v.index = w.index ∧ v.Spread) ?_
      hruns.steps_of_ok ⟨rfl, hw⟩).2
    rintro v v' ⟨hi, hv⟩ hs
    exact ⟨hs.sameNode.index.trans hi, hs.spread (by rwa [hi]) hv⟩

end Events

namespace Agent

variable {t : List (Move World Turn)} {w : World}

/-- If no event of a run breaks the spread, it holds at the end. -/
theorem Run.spread (h : Run t w) (hdiff : 0 ≤ w.eamrpPrimAltPathLenDiff)
    (hcond : ∀ m ∈ t, ∀ A, Hears m.label.input m.src.index A → m.src.toAgent.KeepsSpread A) :
    w.Spread := by
  induction h with
  | @start w hw =>
    have ht : w.rtable = [] := by rw [hw.initial]
    intro d e he
    rw [World.rtLookup, ht] at he
    cases he
  | @move t w w' τ h hs ih =>
    have hsame : w'.eamrpPrimAltPathLenDiff = w.eamrpPrimAltPathLenDiff :=
      (Handles.sameNode hs).eamrpPrimAltPathLenDiff
    have hw : w.Spread := ih (hsame ▸ hdiff) fun m hm => hcond m (List.mem_append_left _ hm)
    have hlast := hcond ⟨w, τ, w'⟩ (List.mem_append_right _ (List.mem_singleton_self _))
    exact handle_spread hs (hsame ▸ hdiff) hlast hw

/-- An event that breaks the spread leaves an entry without it. -/
theorem spread_broken {env : Env} {inp : Input} {v : World} {A : Advert}
    (h : handle env inp w = .ok v) (hA : Hears inp w.index A)
    (hv : ∀ e ∈ v.rtable, e.Spread w.eamrpPrimAltPathLenDiff) : w.toAgent.KeepsSpread A := by
  intro hne e he hadm p hp
  obtain ⟨e', he', hcalm⟩ := ((handle_hears h hA).2 hne).entry
  have hentry : w.entryFor env A.dst = e := by
    have hl : w.rtLookup A.dst = some e := he
    rw [World.entryFor, hl, Option.getD_some]
  have hlegs : e'.rtPathList.map Path.leg = e.rtPathList.map Path.leg ++ [A.leg] := by
    rw [hcalm.legs, hentry, RtEntry.legs_learn, if_neg, if_pos hadm]
    rw [hadm.1]
    exact UInt32.lt_irrefl _
  have hp' : p.leg ∈ e'.rtPathList.map Path.leg := by
    rw [hlegs]
    exact List.mem_append_left _ (List.mem_map.mpr ⟨p, hp, rfl⟩)
  have hA' : A.leg ∈ e'.rtPathList.map Path.leg := by
    rw [hlegs]
    exact List.mem_append_right _ (List.mem_singleton_self _)
  obtain ⟨x, hx, hxl⟩ := List.mem_map.mp hp'
  obtain ⟨y, hy, hyl⟩ := List.mem_map.mp hA'
  have hxc : x.hopcount = p.hopcount := congrArg Leg.hopcount hxl
  have hyc : y.hopcount = A.hopcount := congrArg Leg.hopcount hyl
  rw [← hxc, ← hyc]
  exact hv e' (List.mem_of_find?_eq_some he') x hx y hy

/-- Path-length spread: with a limit of at least 0, the hop counts of any two paths of an
entry differ by at most the limit in every state of a run, if and only if no event of the run
hears an alternate path which is shorter than a stored one by more than the limit. -/
theorem path_spread (h : Run t w) (hdiff : 0 ≤ w.eamrpPrimAltPathLenDiff) :
    (∀ m ∈ t, ∀ e ∈ m.tgt.rtable, e.Spread w.eamrpPrimAltPathLenDiff) ↔
      ∀ m ∈ t, ∀ A, Hears m.label.input m.src.index A → m.src.toAgent.KeepsSpread A := by
  constructor
  · intro hall m hm A hA
    obtain ⟨hsrc, -⟩ := Run.sameNode h hm
    obtain ⟨-, hs⟩ := Lib.Run.of_mem h hm
    refine spread_broken (w := m.src.toAgent.world) hs hA fun e he => ?_
    have := hall m hm e he
    rwa [hsrc.eamrpPrimAltPathLenDiff] at this
  · intro hcond m hm e he
    obtain ⟨-, htgt⟩ := Run.sameNode h hm
    obtain ⟨u, v, rfl⟩ := List.append_of_mem hm
    obtain ⟨hu, hs⟩ := Lib.Run.of_append h
    have hrun : Run (u ++ [m]) m.tgt := hu.move hs
    have hspread : m.tgt.Spread := by
      refine Run.spread hrun (by rwa [← htgt.eamrpPrimAltPathLenDiff]) fun m' hm' => hcond m' ?_
      rcases List.mem_append.mp hm' with hm' | hm'
      · exact List.mem_append_left _ hm'
      · rw [List.mem_singleton.mp hm']
        exact hm
    rw [htgt.eamrpPrimAltPathLenDiff]
    exact hspread _ e ((Run.reachable h hm).2.pathLists.rtLookup_of_mem he)

/-- Node 2 hears of a path of four hops to node 1 over node 3, and then the HELLO of node 1. -/
def longThenShort : List Turn :=
  let rp : Packet :=
    { ih := { saddr := 3, daddr := 2, sport := rtPort, dport := rtPort, ttl := 9 }
      body := .rrep { rpHopCount := 3, rpDst := 1, rpDstSeqno := 2, rpSrc := 3, rpLifetime := 10,
                      rpFirstHop := 4 } }
  let hello : Packet :=
    { ih := { saddr := 1, daddr := ipBroadcast, sport := rtPort, dport := rtPort, ttl := 1 }
      body := .hello { rpHopCount := 0, rpDst := 1, rpDstSeqno := 2, rpLifetime := 4 } }
  [⟨{ now := 0, inf := .mathH }, .recv rp⟩, ⟨{ now := 1, inf := .mathH }, .recv hello⟩]

theorem run_longThenShort :
    Run (moves (idle 2) longThenShort) (final (idle 2) longThenShort) :=
  run_idle (by decide +kernel)

/-- The entry for node 1 then has paths of four hops and of one hop. -/
theorem spread_broken_longThenShort :
    ∃ w, Run (moves (idle 2) longThenShort) w ∧ 0 ≤ w.eamrpPrimAltPathLenDiff ∧
      ∃ e ∈ w.rtable, ¬ e.Spread w.eamrpPrimAltPathLenDiff :=
  ⟨_, run_longThenShort, by decide +kernel, by decide +kernel⟩

/-- So the HELLO is not such that the spread is kept. -/
theorem path_spread_longThenShort :
    ¬ ∀ m ∈ moves (idle 2) longThenShort, ∀ A, Hears m.label.input m.src.index A →
      m.src.toAgent.KeepsSpread A := by
  intro hcond
  have hall := (path_spread run_longThenShort (by decide +kernel)).mpr hcond
  exact absurd hall (by decide +kernel)

end Agent

end Eamrp
