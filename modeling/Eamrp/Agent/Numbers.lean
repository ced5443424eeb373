import Eamrp.Agent.Requests

/-!
# The numbers of route requests

A node takes a new number for every request, and nothing else takes its number back before it
wraps. So the requests of one event carry ascending numbers, above the one the node had before.
-/

namespace Eamrp

open Lib

/-- Numbers that were taken one after the other between `n` and `n'`. -/
structure Ascends (n : UInt32) (l : List UInt32) (n' : UInt32) : Prop where
  le : n.toNat ≤ n'.toNat
  above : ∀ x ∈ l, n.toNat + 2 ≤ x.toNat
  below : ∀ x ∈ l, x.toNat ≤ n'.toNat
  later : l.Pairwise fun x y => x.toNat + 2 ≤ y.toNat

namespace Ascends

variable {n n' n'' : UInt32} {l l' : List UInt32}

theorem nil (h : n ≤ n') : Ascends n [] n' :=
  ⟨UInt32.le_iff_toNat_le.mp h, (fun _ hx => absurd hx List.not_mem_nil),
    (fun _ hx => absurd hx List.not_mem_nil), .nil⟩

theorem append (h : Ascends n l n') (h' : Ascends n' l' n'') : Ascends n (l ++ l') n'' where
  le := h.le.trans h'.le
  above := by
    intro x hx
    rcases List.mem_append.mp hx with hx | hx
    · exact h.above x hx
    · have hle := h.le
      have habove := h'.above x hx
      omega
  below := by
    intro x hx
    rcases List.mem_append.mp hx with hx | hx
    · exact (h.below x hx).trans h'.le
    · exact h'.below x hx
  later := by
    refine List.pairwise_append.mpr ⟨h.later, h'.later, fun x hx y hy => ?_⟩
    have hbelow := h.below x hx
    have habove := h'.above y hy
    omega

end Ascends

namespace World

/-- The numbers of the node's own RREQs, oldest first. -/
def requestNumbers (w : World) : List UInt32 := w.requests.map fun r => r.2.rqSrcSeqno

/-- Unless the node's own number has wrapped, its new requests carry ascending numbers. -/
def Grows (w w' : World) : Prop :=
  w'.seqnoWrapped = false → w.seqnoWrapped = false ∧
    ∃ l, w'.requestNumbers = w.requestNumbers ++ l ∧ Ascends w.seqno l w'.seqno

variable {env : Env} {w w' w'' : World} {d : NsAddr}

theorem Grows.trans (h : w.Grows w') (h' : w'.Grows w'') : w.Grows w'' := by
  intro hw
  obtain ⟨hw', l', hl', hasc'⟩ := h' hw
  obtain ⟨hw, l, hl, hasc⟩ := h hw'
  exact ⟨hw, l ++ l', by rw [hl', hl, List.append_assoc], hasc.append hasc'⟩

/-- No request is sent, and the number is not touched. -/
theorem Grows.of_eq (hr : w'.requests = w.requests) (hs : w'.seqno = w.seqno)
    (hw : w'.seqnoWrapped = w.seqnoWrapped) : w.Grows w' := by
  intro hw'
  refine ⟨hw ▸ hw', [], ?_, .nil ?_⟩
  · rw [requestNumbers, hr, List.append_nil]
    rfl
  · rw [hs]
    exact UInt32.le_refl _

theorem Grows.refl (w : World) : w.Grows w := .of_eq rfl rfl rfl

theorem Deeds.grows {T : RtEntry → RtEntry → Prop} (h : w.Deeds T w') : w.Grows w' := by
  intro hw'
  obtain ⟨hw, hle⟩ := h.seqno hw'
  refine ⟨hw, [], ?_, .nil hle⟩
  rw [requestNumbers, h.requests, List.append_nil]
  rfl

theorem grows_rtEnsure (h : w.rtEnsure env d = .ok w') : w.Grows w' := by
  unfold rtEnsure at h
  split at h
  · obtain rfl := Except.ok.inj h
    exact .refl w
  · obtain ⟨-, rfl⟩ := rtAdd_ok h
    exact .of_eq rfl rfl rfl

theorem grows_enque (env : Env) (w : World) (p : AppPacket) : w.Grows (w.enque env p) := by
  refine .of_eq ?_ rfl rfl
  rw [requests, (SameRouting.enque env w p).sent]
  rfl

theorem grows_store (w : World) (e : RtEntry) : w.Grows (w.store e) := .of_eq rfl rfl rfl

/-- `seqno += 2` and the RREQ that carries the result. -/
theorem grows_request (env : Env) (e : RtEntry) (w : World) : w.Grows (w.request env e) := by
  intro hw'
  obtain ⟨rq, hrq, -, -, hnum⟩ := requests_request env e w
  have hwrap : (w.seqnoWrapped || decide (2 ^ 32 ≤ w.seqno.toNat + 2)) = false := hw'
  rw [Bool.or_eq_false_iff, decide_eq_false_iff_not, not_le] at hwrap
  have hseqno : (w.request env e).seqno = UInt32.ofNat (w.seqno.toNat + 2) := rfl
  have hnat : (UInt32.ofNat (w.seqno.toNat + 2)).toNat = w.seqno.toNat + 2 :=
    UInt32.toNat_ofNat_of_lt' hwrap.2
  refine ⟨hwrap.1, [UInt32.ofNat (w.seqno.toNat + 2)], ?_, ?_, ?_, ?_, List.pairwise_singleton ..⟩
  · rw [requestNumbers, hrq, List.map_append, List.map_singleton, hnum]
    rfl
  · rw [hseqno, hnat]
    omega
  · intro x hx
    rw [List.mem_singleton.mp hx, hnat]
  · intro x hx
    rw [List.mem_singleton.mp hx, hseqno]

end World

section Events

variable {env : Env} {w w' : World} {inp : Input}

theorem Asked.grows {dst : NsAddr} (h : Asked env dst w w') : w.Grows w' := by
  cases h with
  | up => exact .refl w
  | early => exact .refl w
  | hold _ _ _ _ h => exact (World.grows_store w _).trans (deeds_dropBuffered h).grows
  | send => exact World.grows_request env _ w

theorem PurgedEntry.grows {dst : NsAddr} {s s' : World × Time} (h : PurgedEntry env dst s s') :
    s.1.Grows s'.1 := by
  cases h with
  | expire _ _ hv _ h =>
    rw [h]
    exact hv.grows.trans (World.grows_store _ _)
  | forward _ _ h => exact h.grows
  | ask _ _ _ h => exact h.grows
  | pass _ h =>
    rw [h]
    exact .refl s.1

theorem grows_rtPurge (h : rtPurge env w = .ok w') : w.Grows w' := by
  unfold rtPurge at h
  obtain ⟨⟨v, delay⟩, hv, h⟩ := of_bind_ok h
  obtain rfl := Except.ok.inj h
  exact foldlM_ok (J := fun s => w.Grows s.1)
    (fun s _ _ _ hs hd => hs.trans (rtPurgeEntry_ok hd).grows) (.refl w) hv

theorem grows_rtResolve {q : AppPacket} (h : rtResolve env q w = .ok w') : w.Grows w' := by
  obtain ⟨v, hv, hres⟩ := rtResolve_resolved h
  refine (World.grows_rtEnsure hv).trans ?_
  cases hres with
  | forward _ h => exact h.grows
  | ask _ _ _ h => exact (World.grows_enque env v q).trans h.grows
  | wait => exact World.grows_enque env v q

theorem Advised.grows {A : Advert} (h : Advised env A w w') : w.Grows w' := by
  obtain ⟨u, hu, hrest⟩ := h
  have hlearnt : w.Grows u := by
    refine .of_eq ?_ hu.seqno hu.seqnoWrapped
    rw [World.requests, World.sent, hu.out, hu.index]
    rfl
  rcases hrest with ⟨rfl, -⟩ | ⟨e, x, he, hup, hx, hw'⟩
  · exact hlearnt
  · refine hlearnt.trans ((World.grows_store u e.resetSoftState).trans ?_)
    exact ((deeds_routeUp he hup hx).trans hw').grows

/-- The requests of an event carry ascending numbers, above the number of the node before. -/
theorem handle_grows (h : handle env inp w = .ok w') : w.Grows w' := by
  cases handle_happens h with
  | @hears A hA =>
    obtain ⟨hown, hother⟩ := handle_advised h hA
    by_cases hd : A.dst = w.index
    · exact (hown hd).grows
    · exact (hother hd).grows
  | resolve _ h => exact grows_rtResolve h
  | purge _ h => exact grows_rtPurge h
  | loss _ _ _ h => exact h.grows

end Events

end Eamrp
