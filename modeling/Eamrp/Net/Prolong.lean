import Eamrp.Abs.Protocol
import Eamrp.Agent.Prolong

/-!
# Refreshing never shortens a route

Some writers of `expire` overwrite it, others take a maximum. What replies promise in the whole
network is bounded by what the next writer gives, so that it makes no difference.
-/

namespace Eamrp

open Lib

/-- A packet that promises at most `ACTIVE_ROUTE_TIMEOUT` is heard as such. -/
theorem hearsBrief_of_brief {q : Packet} (h : q.Brief) : HearsBrief (.recv q) := by
  rintro i A ⟨p, hp, hadv⟩
  obtain rfl : q = p := Input.recv.inj hp
  unfold Packet.advert at hadv
  split at hadv
  · obtain rfl := Option.some.inj hadv
    norm_num [revRouteLife, activeRouteTimeout]
  · next hb =>
    obtain rfl := Option.some.inj hadv
    exact h _ (.inl hb)
  · next hb =>
    obtain rfl := Option.some.inj hadv
    exact h _ (.inr hb)
  · cases hadv

namespace Net

variable {P : Params} {s s' : Net} {t : List (Move Net Event)} {m : Move Net Event}
  {ev : Event} {i d : NsAddr}

/-- No path lasts longer than `ACTIVE_ROUTE_TIMEOUT` from now, and no reply in flight promises
more. -/
structure Lasting (s : Net) : Prop where
  paths : ∀ i, ∀ e ∈ (s.node i).rtable, e.Until (s.clock + activeRouteTimeout)
  flight : ∀ p ∈ s.flight, p.Brief

/-- What the medium offers is as brief as what is in flight. -/
theorem Lasting.hears (h : s.Lasting) {inp : Input} (ho : s.Offers i inp) : HearsBrief inp := by
  by_cases hrecv : ∃ q, inp = .recv q
  · obtain ⟨q, rfl⟩ := hrecv
    apply hearsBrief_of_brief
    by_cases happ : q.isEamrp = true
    · obtain ⟨p, hp, -, rfl⟩ := ho happ
      exact h.flight p hp
    · rintro rp (hb | hb)
      · simp [Packet.isEamrp, hb] at happ
      · simp [Packet.isEamrp, hb] at happ
  · rintro i A ⟨q, hq, -⟩
    exact absurd ⟨q, hq⟩ hrecv

/-- A later clock only makes room. -/
theorem Lasting.world (h : s.Lasting) {now : Time} (hclock : s.clock ≤ now) (i : NsAddr) :
    (s.node i).world.Lasting now where
  paths e he p hp := by
    have hle := h.paths i e he p hp
    linarith
  replies p hp := absurd hp List.not_mem_nil

theorem Lasting.next (h : s.Lasting) (hs : Step P s ev s') : s'.Lasting := by
  obtain ⟨hen, hok⟩ := hs
  obtain ⟨w, hhandle, rfl⟩ := next_ok hok
  have hw := handle_lasting hhandle (fun i A hA => h.hears hen.offers i A (hears_aged.mp hA)) (h.world hen.clock ev.node)
  constructor
  · intro i
    show ∀ e ∈ (Function.update s.node ev.node w.toAgent i).rtable,
      e.Until (ev.env.now + activeRouteTimeout)
    by_cases hi : i = ev.node
    · subst hi
      rw [Function.update_self]
      exact hw.paths
    · rw [Function.update_of_ne hi]
      exact (h.world hen.clock i).paths
  · intro p hp
    rcases List.mem_append.mp hp with hp | hp
    · exact h.flight p hp
    · exact hw.replies p hp

theorem Reachable.lasting (h : s.Reachable P) : s.Lasting := by
  refine Lib.Reachable.induct (I := Lasting) ?_ (fun _ _ _ _ ih hs => ih.next hs) h
  intro s h
  constructor
  · intro i e he
    rw [h.node i] at he
    exact absurd he List.not_mem_nil
  · intro p hp
    rw [h.flight] at hp
    exact absurd hp List.not_mem_nil

/-- The path `p` of node `i` for `d` is still there after the move, as `p'`: there is one over the
same next hop, and not all paths of the entry have been deleted. -/
def StaysIn (i d : NsAddr) (m : Move Net Event) (p p' : Path) : Prop :=
  ∃ e e', m.src.entry i d = some e ∧ m.tgt.entry i d = some e' ∧ p ∈ e.rtPathList ∧
    p' ∈ e'.rtPathList ∧ p'.nexthop = p.nexthop ∧
    e'.pathsDeleted < e.pathsDeleted + e.rtPathList.length

/-- The path stays over several moves. -/
inductive Stays (i d : NsAddr) : List (Move Net Event) → Path → Path → Prop where
  | nil (p : Path) : Stays i d [] p p
  | cons {m : Move Net Event} {t : List (Move Net Event)} {p p' p'' : Path}
      (h : StaysIn i d m p p') (hs : Stays i d t p' p'') : Stays i d (m :: t) p p''

/-- In one move a path that stays is not shortened. -/
theorem Step.expire_le (hr : s.Reachable P) (hs : Step P s ev s') {p p' : Path}
    (h : StaysIn i d ⟨s, ev, s'⟩ p p') : p.expire ≤ p'.expire := by
  obtain ⟨e, e', he, he', hp, hp', hn, hdel⟩ := h
  have hnd := ((hr.agent i).pathLists.lookup he).nexthop
  obtain ⟨w, hhandle, hs'⟩ := next_ok hs.2
  have hnode : s'.node = Function.update s.node ev.node w.toAgent := by rw [hs']
  have hprolongs : e.Prolongs e' := by
    by_cases hi : i = ev.node
    · subst hi
      have hw' : w.rtLookup d = some e' := by
        rw [entry, hnode, Function.update_self] at he'
        exact he'
      have hlasting := hr.lasting
      refine (handle_prolongs hhandle (hlasting.world hs.1.clock _) (hlasting.hears hs.1.offers)
        he hw').resolve_right fun hall => ?_
      rw [hall] at hdel
      exact absurd hdel (lt_irrefl _)
    · have hsame : s'.entry i d = s.entry i d := by
        rw [entry, hnode, Function.update_of_ne hi, entry]
      obtain rfl := Option.some.inj (he.symm.trans (hsame ▸ he'))
      exact .refl e
  exact hprolongs.expire_le hnd hp hp' hn

/-- Refreshing never shortens a route: in every run of a network, as long as a path stays in an
entry its `expire` does not decrease, no stored path lasts longer than `ACTIVE_ROUTE_TIMEOUT`
from now, and no RREP or HELLO in flight promises more. -/
theorem refresh_prolongs (h : Run P t s) :
    (∀ u v x i d p p', t = u ++ v ++ x → Stays i d v p p' → p.expire ≤ p'.expire) ∧
      (∀ i d e, s.entry i d = some e → ∀ p ∈ e.rtPathList,
        p.expire ≤ s.clock + activeRouteTimeout) ∧
      ∀ q ∈ s.flight, ∀ rp, q.body = .rrep rp ∨ q.body = .hello rp →
        rp.rpLifetime ≤ activeRouteTimeout := by
  have hlasting : s.Lasting := Reachable.lasting ⟨t, h⟩
  refine ⟨?_, fun i d e he => hlasting.paths i e (List.mem_of_find?_eq_some he),
    hlasting.flight⟩
  intro u v x i d p p' ht hstays
  have hmem : ∀ m ∈ v, m ∈ t := fun m hm => by
    rw [ht]
    exact List.mem_append_left x (List.mem_append_right u hm)
  clear ht
  induction hstays with
  | nil => exact le_rfl
  | cons hin _ ih =>
    obtain ⟨hr, hs⟩ := Lib.Run.of_mem h (hmem _ List.mem_cons_self)
    exact (Step.expire_le hr hs hin).trans (ih fun m hm => hmem m (List.mem_cons_of_mem _ hm))

/-- A second after the discovery node 1 uses its route to node 3 once more. -/
def useAgain : List (Move Net Event) :=
  (idle.final (discovery .mathH)).moves [.app .mathH 1 1 3]

theorem run_useAgain :
    Run (three .mathH) (idle.moves (discovery .mathH) ++ useAgain ++ [])
      ((idle.final (discovery .mathH)).final [.app .mathH 1 1 3]) := by
  rw [List.append_nil]
  exact run_of_plays (run_discovery .mathH) (by decide +kernel)

theorem stays_useAgain : Stays 1 3 useAgain ⟨2, 256, 10, 2⟩ ⟨2, 256, 11, 2⟩ := by
  have hsrc : ((idle.final (discovery .mathH)).entry 1 3).map
      (fun e => (e.rtPathList, e.pathsDeleted)) = some ([⟨2, 256, 10, 2⟩], 0) := by
    decide +kernel
  have htgt : (((idle.final (discovery .mathH)).after (.app .mathH 1 1 3)).entry 1 3).map
      (fun e => (e.rtPathList, e.pathsDeleted)) = some ([⟨2, 256, 11, 2⟩], 0) := by
    decide +kernel
  obtain ⟨e, he, hpair⟩ := Option.map_eq_some_iff.mp hsrc
  obtain ⟨e', he', hpair'⟩ := Option.map_eq_some_iff.mp htgt
  obtain ⟨hp, hdel⟩ := Prod.mk.inj hpair
  obtain ⟨hp', hdel'⟩ := Prod.mk.inj hpair'
  refine .cons (show StaysIn 1 3 _ ⟨2, 256, 10, 2⟩ ⟨2, 256, 11, 2⟩ from
    ⟨e, e', he, he', ?_, ?_, rfl, ?_⟩) (.nil _)
  · rw [hp]
    exact List.mem_singleton_self _
  · rw [hp']
    exact List.mem_singleton_self _
  · rw [hdel, hdel', hp]
    decide

/-- Its path stays, and has not been shortened. -/
theorem refresh_prolongs_useAgain :
    ∃ p p', Stays 1 3 useAgain p p' ∧ p ≠ p' ∧ p.expire ≤ p'.expire :=
  ⟨_, _, stays_useAgain, by decide, (refresh_prolongs run_useAgain).1 _ _ _ _ _ _ _ rfl
    stays_useAgain⟩

end Net

end Eamrp
