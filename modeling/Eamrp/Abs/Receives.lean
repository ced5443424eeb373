import Eamrp.Abs.Follows

/-!
# The reception routines take elementary steps only

The lemmas of `Eamrp.Abs.Follows` for the handlers of received packets, and for one event
of the agent as a whole.
-/

namespace Eamrp

open Lib Relation

variable {env : Env} {heard : Input}

/-! ### Route update -/

theorem routeUp_runs {d : NsAddr} {w : World} {e : RtEntry} (hd : w.rtLookup d = some e) :
    Runs env heard w (routeUp env d w) w.Keeps := by
  unfold routeUp
  rw [hd]
  dsimp only
  split
  · have hdst := w.rtDst_of_rtLookup hd
    have hk : w.Keeps (w.store e.resetSoftState) := by
      subst hdst
      exact .store hd rfl rfl rfl
    refine .after (.single (step_store hd (.soft (.resetSoftState e)))) ?_
    refine (whileDeque_follows (J := fun s => w.Keeps s.1) ?_ ?_ _ (_, ()) hk).bind
      fun s _ hs => .ok .refl hs
    · intro w₁ w₂ _ h h'
      exact h.trans (.of_sameRouting h')
    · rintro p ⟨w₁, u⟩ hs
      cases hl : w₁.rtLookup d with
      | none => exact .ok .refl hs
      | some e₁ =>
        dsimp only
        split
        · refine (forward_runs p.2 hl).bind (ρ := Prod.fst) ?_
          intro w₂ _ hk₂
          exact .ok .refl (World.Keeps.trans hs hk₂)
        · exact .ok .refl hs
  · exact .ok .refl (.refl w)

/-- What the route-update stages do to the entry for the destination of an advertisement. -/
structure Updates (env : Env) (a : Agent) (heard : Input) (A : Advert) (e : RtEntry)
    (r : RtEntry × Verdict) : Prop where
  step : EntryStep env a heard e r.1
  rtDst : r.1.rtDst = e.rtDst
  up : ∀ b, r.2 = .keep b → r.1.rtFlags = .up
  rtSeqno : ∀ b, r.2 = .keep b → r.1.rtSeqno = A.seqno

/-- Why the route-update stages fault. -/
def UpdateFault (A : Advert) (e : RtEntry) : Prop :=
  e.rtSeqno = A.seqno ∧ A.hops.toUInt16 < e.rtAdvertisedHops ∧ e.rtFlags ≠ .up

/-- Why the route-update stages fault on a path that is heard again. -/
def HopcountFault (A : Advert) (e : RtEntry) : Prop :=
  e.rtSeqno = A.seqno ∧ ∃ p, e.disjointPathLookup A.via A.first = some p ∧ p.hopcount ≠ A.hopcount

theorem reverseRoute_cases {a : Agent} {saddr : NsAddr} {e : RtEntry} (rq : HdrRequest)
    (A : Advert) (hA : ⟨rq.rqSrc, rq.rqSrcSeqno, rq.rqHopCount, saddr, rq.rqFirstHop,
      revRouteLife⟩ = A) (hh : Hears heard a.index A) (hd : A.dst = e.rtDst) (hne : A.dst ≠ a.index) :
    (∃ r, reverseRoute env a saddr rq e = .ok r ∧ Updates env a heard A e r) ∨
    (reverseRoute env a saddr rq e = .error .requestDown ∧ UpdateFault A e) ∨
    (reverseRoute env a saddr rq e = .error .requestHopcount ∧ HopcountFault A e) := by
  subst hA
  unfold reverseRoute
  dsimp only
  split
  · next hlt =>
    exact .inl ⟨_, rfl, .renew hh hd hne hlt, rfl, fun _ _ => rfl, fun _ _ => rfl⟩
  · split
    · next hs =>
      split
      · next hdown => exact .inr (.inl ⟨rfl, hs.1, hs.2, hdown⟩)
      · next hup =>
        have hup : e.rtFlags = .up := by simpa using hup
        split
        · next p hp =>
          split
          · next hc => exact .inr (.inr ⟨rfl, hs.1, p, hp, hc⟩)
          · next hc =>
            have hc : p.hopcount = rq.rqHopCount.toUInt16 + 1 := by simpa using hc
            exact .inl ⟨_, rfl, .refresh hh hd hup hs.1 hs.2 hp hc, rfl, fun _ _ => hup,
              fun _ _ => hs.1⟩
        · have hsame : Updates env a heard
              ⟨rq.rqSrc, rq.rqSrcSeqno, rq.rqHopCount, saddr, rq.rqFirstHop, revRouteLife⟩ e
              (e, .keep false) :=
            ⟨.soft (.refl e), rfl, fun _ _ => hup, fun _ _ => hs.1⟩
          have hdrop : Updates env a heard
              ⟨rq.rqSrc, rq.rqSrcSeqno, rq.rqHopCount, saddr, rq.rqFirstHop, revRouteLife⟩ e
              (e, .discard) :=
            ⟨.soft (.refl e), rfl, fun _ h => (by cases h), fun _ h => (by cases h)⟩
          split
          · next hn =>
            by_cases hi : e.rtNumPaths < a.eamrpMaxPaths ∧
                hopSpread rq.rqHopCount e ≤ a.eamrpPrimAltPathLenDiff
            · have hadd : EntryStep env a heard e _ := .add hh hd hup hs.1 hs.2 hn hi.1 hi.2
              simp only [hi, and_self, decide_true, if_true]
              split
              · exact .inl ⟨_, rfl, hadd, rfl, fun _ h => (by cases h), fun _ h => (by cases h)⟩
              · exact .inl ⟨_, rfl, hadd, rfl, fun _ _ => hup, fun _ _ => hs.1⟩
            · simp only [hi, decide_false, Bool.false_eq_true, if_false]
              split
              · exact .inl ⟨_, rfl, hdrop⟩
              · exact .inl ⟨_, rfl, hsame⟩
          · split <;> split
            · exact .inl ⟨_, rfl, hdrop⟩
            · exact .inl ⟨_, rfl, hsame⟩
            · exact .inl ⟨_, rfl, hdrop⟩
            · exact .inl ⟨_, rfl, hsame⟩
    · exact .inl ⟨_, rfl, .soft (.refl e), rfl, fun _ h => (by cases h), fun _ h => (by cases h)⟩

theorem forwardRoute_cases {a : Agent} {e : RtEntry} (rp : HdrReply) (A : Advert)
    (hA : ⟨rp.rpDst, rp.rpDstSeqno, rp.rpHopCount, rp.rpSrc, rp.rpFirstHop, rp.rpLifetime⟩ = A)
    (hh : Hears heard a.index A) (hd : A.dst = e.rtDst) (hne : A.dst ≠ a.index) :
    (∃ r, forwardRoute env a rp e = .ok r ∧ Updates env a heard A e r) ∨
    (forwardRoute env a rp e = .error .replyDown ∧ UpdateFault A e) ∨
    (forwardRoute env a rp e = .error .replyHopcount ∧ HopcountFault A e) := by
  subst hA
  unfold forwardRoute
  dsimp only
  split
  · next hlt =>
    exact .inl ⟨_, rfl, .renew hh hd hne hlt, rfl, fun _ _ => rfl, fun _ _ => rfl⟩
  · split
    · next hs =>
      split
      · next hdown => exact .inr (.inl ⟨rfl, hs.1, hs.2, hdown⟩)
      · next hup =>
        have hup : e.rtFlags = .up := by simpa using hup
        split
        · next p hp =>
          split
          · next hc => exact .inr (.inr ⟨rfl, hs.1, p, hp, hc⟩)
          · next hc =>
            have hc : p.hopcount = rp.rpHopCount.toUInt16 + 1 := by simpa using hc
            exact .inl ⟨_, rfl, .refresh hh hd hup hs.1 hs.2 hp hc, rfl, fun _ _ => hup,
              fun _ _ => hs.1⟩
        · split
          · next hn =>
            exact .inl ⟨_, rfl, .add hh hd hup hs.1 hs.2 hn.1 hn.2.1 hn.2.2, rfl, fun _ _ => hup,
              fun _ _ => hs.1⟩
          · exact .inl ⟨_, rfl, .soft (.refl e), rfl, fun _ h => (by cases h),
              fun _ h => (by cases h)⟩
    · exact .inl ⟨_, rfl, .soft (.refl e), rfl, fun _ h => (by cases h), fun _ h => (by cases h)⟩

/-! ### Answers -/

namespace RtEntry

/-- Advertising twice fixes nothing more. -/
theorem advertise_advertise (inf : Infinity) (e : RtEntry) :
    (e.advertise inf).advertise inf = e.advertise inf := by
  by_cases h : inf.eqU16 e.rtAdvertisedHops = true
  · by_cases h' : inf.eqU16 e.pathGetMaxHopcount = true
    · simp [advertise, h, pathGetMaxHopcount]
    · simp [advertise, h, h']
  · simp [advertise, h]

end RtEntry

/-- The number that the destination of a RREQ replies with, unless it has wrapped. -/
def raisedSeqno (seqno dstSeqno : Nat) : Nat :=
  let n := if seqno < dstSeqno then dstSeqno + 1 else seqno
  n + n % 2

namespace World

/-- An assignment to `seqno` that did not wrap. -/
theorem setSeqno_spec {w : World} {n : Nat} (h : (w.setSeqno n).seqnoWrapped = false) :
    w.seqnoWrapped = false ∧ n < 2 ^ 32 ∧ (w.setSeqno n).seqno.toNat = n := by
  simp only [setSeqno, Bool.or_eq_false_iff, decide_eq_false_iff_not, not_le] at h
  refine ⟨h.1, h.2, ?_⟩
  simpa [setSeqno] using h.2

/-- Raising the own number changes nothing but the own number. -/
theorem raiseSeqno_eq (w : World) (rq : HdrRequest) :
    w.raiseSeqno rq = { w with
      seqno := (w.raiseSeqno rq).seqno
      seqnoWrapped := (w.raiseSeqno rq).seqnoWrapped } := by
  unfold raiseSeqno
  dsimp only
  split <;> split <;> rfl

theorem index_raiseSeqno (w : World) (rq : HdrRequest) : (w.raiseSeqno rq).index = w.index := by
  rw [raiseSeqno_eq]

theorem rtable_raiseSeqno (w : World) (rq : HdrRequest) :
    (w.raiseSeqno rq).rtable = w.rtable := by
  rw [raiseSeqno_eq]

theorem sent_raiseSeqno (w : World) (rq : HdrRequest) : (w.raiseSeqno rq).sent = w.sent := by
  rw [raiseSeqno_eq]
  rfl

/-- Raising the own number, as long as it does not wrap. -/
theorem raiseSeqno_spec {w : World} {rq : HdrRequest}
    (h : (w.raiseSeqno rq).seqnoWrapped = false) :
    w.seqnoWrapped = false ∧
      (w.raiseSeqno rq).seqno.toNat = raisedSeqno w.seqno.toNat rq.rqDstSeqno.toNat := by
  have hfirst : ∀ w₁ : World, (if w₁.seqno % 2 ≠ 0 then w₁.setSeqno (w₁.seqno.toNat + 1)
      else w₁).seqnoWrapped = false → w₁.seqnoWrapped = false ∧
      (if w₁.seqno % 2 ≠ 0 then w₁.setSeqno (w₁.seqno.toNat + 1) else w₁).seqno.toNat =
        w₁.seqno.toNat + w₁.seqno.toNat % 2 := by
    intro w₁ h₁
    have hmod : (w₁.seqno % 2).toNat = w₁.seqno.toNat % 2 := by simp
    split at h₁
    · next hodd =>
      obtain ⟨h2, -, h3⟩ := setSeqno_spec h₁
      rw [if_pos hodd, h3]
      have : (w₁.seqno % 2).toNat ≠ 0 := fun h0 => hodd (UInt32.toNat_inj.mp h0)
      exact ⟨h2, by omega⟩
    · next hev =>
      rw [if_neg hev]
      have : (w₁.seqno % 2).toNat = 0 := by
        rw [not_not.mp hev]
        rfl
      exact ⟨h₁, by omega⟩
  unfold raiseSeqno at h ⊢
  dsimp only at h ⊢
  by_cases hlt : w.seqno < rq.rqDstSeqno
  · simp only [if_pos hlt] at h ⊢
    obtain ⟨h1, h2⟩ := hfirst _ h
    obtain ⟨h3, -, h4⟩ := setSeqno_spec h1
    refine ⟨h3, ?_⟩
    rw [h2, h4, raisedSeqno, if_pos (UInt32.lt_iff_toNat_lt.mp hlt)]
  · simp only [if_neg hlt] at h ⊢
    obtain ⟨h1, h2⟩ := hfirst _ h
    refine ⟨h1, ?_⟩
    rw [h2, raisedSeqno, if_neg (fun hn => hlt (UInt32.lt_iff_toNat_lt.mpr hn))]

/-- A destination that raises its number reaches the one asked for. -/
theorem le_seqno_raiseSeqno {w : World} {rq : HdrRequest}
    (h : (w.raiseSeqno rq).seqnoWrapped = false) : rq.rqDstSeqno ≤ (w.raiseSeqno rq).seqno := by
  rw [UInt32.le_iff_toNat_le, (raiseSeqno_spec h).2, raisedSeqno]
  grind

end World

section Requests

variable {q : Packet} {rq : HdrRequest} {f : NsAddr} {w : World}

theorem answerAsDestination_runs (hq : heard = .recv q) (hb : q.body = .rreq rq)
    (hd : rq.rqDst = w.index) :
    ReflTransGen (Step env heard) w
      (answerAsDestination q.ih { rq with rqFirstHop := f } w) := by
  have h1 : Step env heard w (w.raiseSeqno rq) := .raiseSeqno ⟨q, hq, hb⟩ hd
  refine (ReflTransGen.single h1).tail (.send ?_)
  exact .answer hq hb (hd.trans (w.index_raiseSeqno rq).symm) rfl World.le_seqno_raiseSeqno
    rfl rfl rfl rfl

theorem answerFromRoute_runs {reversePath : Bool} {e : RtEntry} (hq : heard = .recv q)
    (hb : q.body = .rreq rq) (hd : w.rtLookup rq.rqDst = some e) (hne : rq.rqDst ≠ w.index)
    (hup : e.rtFlags = .up) (hs : rq.rqDstSeqno ≤ e.rtSeqno)
    (hid : (w.idGet rq.rqSrc rq.rqBcastId).isSome = true) :
    Runs env heard w
      (answerFromRoute env q.ih { rq with rqFirstHop := f } reversePath e w) := by
  have hdst := w.rtDst_of_rtLookup hd
  unfold answerFromRoute
  dsimp only
  split
  · next hodd => exact .error ⟨_, e, hd, hup, hodd⟩
  · next hev =>
    have hev : e.rtSeqno % 2 = 0 := by simpa using hev
    split
    · exact .ok .refl trivial
    · obtain ⟨b, hb'⟩ := Option.isSome_iff_exists.mp hid
      rw [hb']
      dsimp only
      split
      · cases hp : (e.advertise env.inf).pathFind with
        | none => exact .error ⟨_, e, hd, hup, List.head?_eq_none_iff.mp hp⟩
        | some path =>
          set w₁ := w.idCount rq.rqSrc rq.rqBcastId with hw₁
          have h1 : Step env heard w w₁ := .cache (.inr ⟨q, hq, .inl ⟨rq, hb⟩⟩) _
          have h2 : Step env heard w₁ (w₁.store (e.advertise env.inf)) :=
            step_store (d := rq.rqDst) hd (.freeze hup)
          have hl2 := World.rtLookup_store_self (w := w₁) (f := e.advertise env.inf) hd hdst
          have hsoft := RtEntry.SameRoute.rtError (e.advertise env.inf) true
          have h3 : Step env heard (w₁.store (e.advertise env.inf))
              (w₁.store { e.advertise env.inf with rtError := true }) := by
            rw [← World.store_store w₁ hsoft.rtDst]
            exact step_store hl2 (.soft hsoft)
          refine .ok ((((ReflTransGen.single h1).tail h2).tail h3).tail (.send ?_)) trivial
          have hl3 := World.rtLookup_store_self (w := w₁)
            (f := { e.advertise env.inf with rtError := true }) hd hdst
          refine .answerFrom (e := { e.advertise env.inf with rtError := true }) hq hb
            ⟨?_, ?_, hup, ?_, hp⟩ hdst.symm hev hs rfl rfl ?_
          · exact hdst ▸ hl3
          · exact hdst ▸ hne
          · have := e.advertise_advertise env.inf
            unfold RtEntry.advertise at this ⊢
            simpa [RtEntry.pathGetMaxHopcount] using this
          · rw [← hdst]
            rfl
      · exact .ok .refl trivial

theorem rebroadcast_runs {e₀ : RtEntry} (hq : heard = .recv q) (hb : q.body = .rreq rq)
    (hd₀ : w.rtLookup rq.rqSrc = some e₀) (hne₀ : rq.rqSrc ≠ w.index) (hup : e₀.rtFlags = .up)
    (hs : e₀.rtSeqno = rq.rqSrcSeqno) (hne : rq.rqDst ≠ w.index) :
    Runs env heard w
      (rebroadcast env q { rq with rqFirstHop := f } (w.rtLookup rq.rqDst) w) := by
  have hdst := w.rtDst_of_rtLookup hd₀
  unfold rebroadcast
  dsimp only
  rw [hd₀]
  dsimp only
  cases hp : (e₀.advertise env.inf).pathFind with
  | none => exact .error ⟨_, e₀, hd₀, hup, List.head?_eq_none_iff.mp hp⟩
  | some path =>
    dsimp only
    have h1 : Step env heard w (w.store (e₀.advertise env.inf)) := step_store hd₀ (.freeze hup)
    have hl := World.rtLookup_store_self (f := e₀.advertise env.inf) hd₀ hdst
    refine .after (.single h1) (forward_none_runs fun ch => ?_)
    have ha : Advertises env.inf (w.store (e₀.advertise env.inf)) (e₀.advertise env.inf) path :=
      ⟨hdst ▸ hl, hdst ▸ hne₀, hup, e₀.advertise_advertise _, hp⟩
    refine .relay hq hb ha hdst.symm hs hne ?_ ?_
    · cases w.rtLookup rq.rqDst with
      | none => exact UInt32.le_refl _
      | some e => dsimp only; grind [macroMax]
    · cases hl' : w.rtLookup rq.rqDst with
      | none => exact .inl rfl
      | some e =>
        dsimp only
        by_cases hlt : rq.rqDstSeqno < e.rtSeqno
        · refine .inr ?_
          by_cases heq : rq.rqDst = rq.rqSrc
          · rw [heq] at hl' ⊢
            obtain rfl := Option.some.inj (hd₀.symm.trans hl')
            exact ⟨_, hl, by grind [macroMax, RtEntry.advertise]⟩
          · refine ⟨e, ?_, by grind [macroMax]⟩
            rw [World.rtLookup_store_ne, hl']
            exact fun h => heq (h.trans hdst)
        · exact .inl (by grind [macroMax])

theorem answerRequest_runs {kill reversePath : Bool} {e₀ : RtEntry} (hq : heard = .recv q)
    (hb : q.body = .rreq rq) (hd₀ : w.rtLookup rq.rqSrc = some e₀) (hne₀ : rq.rqSrc ≠ w.index)
    (hup : e₀.rtFlags = .up) (hs : e₀.rtSeqno = rq.rqSrcSeqno)
    (hid : (w.idGet rq.rqSrc rq.rqBcastId).isSome = true) :
    Runs env heard w (answerRequest env q { rq with rqFirstHop := f } kill reversePath w)
      (fun w' => rq.rqDst = w.index → w'.seqno = (w.raiseSeqno rq).seqno ∧
        w'.seqnoWrapped = (w.raiseSeqno rq).seqnoWrapped) := by
  unfold answerRequest
  dsimp only
  split
  · next hd => exact .ok (answerAsDestination_runs hq hb hd) fun _ => ⟨rfl, rfl⟩
  · next hne =>
    split
    · next e he =>
      obtain ⟨hl, hc⟩ := Option.filter_eq_some_iff.mp he
      simp only [decide_eq_true_eq] at hc
      exact (answerFromRoute_runs hq hb hl hne hc.1 hc.2 hid).mono fun _ _ _ h => absurd h hne
    · split
      · exact .ok .refl fun h => absurd h hne
      · exact (rebroadcast_runs hq hb hd₀ hne₀ hup hs hne).mono fun _ _ _ h => absurd h hne

end Requests

/-- Faults of a route-update stage. -/
theorem blame_of_update {w : World} {A : Advert} {e : RtEntry} {f : Fault}
    (hA : Hears heard w.index A) (hd : w.rtLookup A.dst = some e) (h : UpdateFault A e)
    (hf : f = .requestDown ∨ f = .replyDown) : Blame heard w f := by
  rcases hf with rfl | rfl <;> exact ⟨A, e, hA, hd, h⟩

theorem blame_of_hopcount {w : World} {A : Advert} {e : RtEntry} {f : Fault}
    (hA : Hears heard w.index A) (hd : w.rtLookup A.dst = some e) (h : HopcountFault A e)
    (hf : f = .requestHopcount ∨ f = .replyHopcount) : Blame heard w f := by
  obtain ⟨hs, p, hp, hc⟩ := h
  rcases hf with rfl | rfl <;> exact ⟨A, e, p, hA, hd, hs, hp, hc⟩

/-- The RREQ is discarded: it is the node's own, or the route-update stage frees it. -/
def DiscardsRequest (env : Env) (a : Agent) (saddr : NsAddr) (rq : HdrRequest) : Prop :=
  rq.rqSrc = a.index ∨ ∃ e, reverseRoute env a saddr
    { rq with rqFirstHop := if rq.rqHopCount = 0 then a.index else rq.rqFirstHop }
    ((a.rtable.rtLookup rq.rqSrc).getD
      { rtDst := rq.rqSrc, rtHops := env.rtHops rq.rqSrc }) = .ok (e, .discard)

instance (x : Except Fault (RtEntry × Verdict)) : Decidable (∃ e, x = .ok (e, .discard)) :=
  match x with
  | .ok (e, .discard) => isTrue ⟨e, rfl⟩
  | .ok (_, .keep _) => isFalse (by simp)
  | .error _ => isFalse (by simp)

instance (env : Env) (a : Agent) (saddr : NsAddr) (rq : HdrRequest) :
    Decidable (DiscardsRequest env a saddr rq) :=
  inferInstanceAs (Decidable (_ ∨ _))

/-- What a RREQ does to the own number of its destination. -/
structure AnswersRequest (env : Env) (saddr : NsAddr) (rq : HdrRequest) (w w' : World) : Prop where
  discard : DiscardsRequest env w.toAgent saddr rq → w'.seqno = w.seqno
  answer : rq.rqDst = w.index → ¬ DiscardsRequest env w.toAgent saddr rq →
    ∃ v : World, v.seqno = w.seqno ∧ v.seqnoWrapped = w.seqnoWrapped ∧
      w'.seqno = (v.raiseSeqno rq).seqno ∧ w'.seqnoWrapped = (v.raiseSeqno rq).seqnoWrapped

/-- `reverseRoute` reads the address and the limits of the agent only. -/
theorem reverseRoute_congr {a b : Agent} {saddr : NsAddr} {rq : HdrRequest} {e : RtEntry}
    (hi : b.index = a.index) (hm : b.eamrpMaxPaths = a.eamrpMaxPaths)
    (hd : b.eamrpPrimAltPathLenDiff = a.eamrpPrimAltPathLenDiff) :
    reverseRoute env b saddr rq e = reverseRoute env a saddr rq e := by
  unfold reverseRoute
  simp only [hi, hm, hd]

/-- The RREQ with its effective first hop at node `i`. -/
def HdrRequest.atNode (rq : HdrRequest) (i : NsAddr) : HdrRequest :=
  { rq with rqFirstHop := if rq.rqHopCount = 0 then i else rq.rqFirstHop }

theorem HdrRequest.atNode_eq (rq : HdrRequest) (i : NsAddr) :
    (if rq.rqHopCount = 0 then { rq with rqFirstHop := i } else rq) = rq.atNode i := by
  unfold atNode
  split <;> rfl

namespace World

/-- The cache is looked up and written before anything else. -/
def remember (env : Env) (rq : HdrRequest) (w : World) : World :=
  if (w.idGet rq.rqSrc rq.rqBcastId).isSome = true then w else w.idInsert env rq.rqSrc rq.rqBcastId

/-- Only the cache is written. -/
theorem remember_eq (env : Env) (rq : HdrRequest) (w : World) :
    w.remember env rq = { w with bihead := (w.remember env rq).bihead } := by
  unfold remember
  split <;> rfl

theorem remember_def (env : Env) (rq : HdrRequest) (w : World) :
    (if (w.idGet rq.rqSrc rq.rqBcastId).isSome = true then w
      else w.idInsert env rq.rqSrc rq.rqBcastId) = w.remember env rq := rfl

theorem index_remember (env : Env) (rq : HdrRequest) (w : World) :
    (w.remember env rq).index = w.index := by
  rw [remember_eq]

theorem idGet_remember (env : Env) (rq : HdrRequest) (w : World) :
    ((w.remember env rq).idGet rq.rqSrc rq.rqBcastId).isSome = true := by
  unfold remember
  split
  · assumption
  · simp [idGet, idInsert]

end World

/-- What follows a route update that has kept the RREQ. -/
theorem keptRequest_runs {q : Packet} {rq : HdrRequest} {kill reversePath : Bool} {i : NsAddr}
    {w : World} {e : RtEntry} (hq : heard = .recv q) (hb : q.body = .rreq rq)
    (hd : w.rtLookup rq.rqSrc = some e) (hne : rq.rqSrc ≠ w.index) (hup : e.rtFlags = .up)
    (hs : e.rtSeqno = rq.rqSrcSeqno) (hid : (w.idGet rq.rqSrc rq.rqBcastId).isSome = true) :
    Runs env heard w (routeUp env rq.rqSrc w >>= fun v =>
        answerRequest env q (rq.atNode i) kill reversePath v)
      (fun w' => rq.rqDst = w.index → ∃ v : World, v.seqno = w.seqno ∧
        v.seqnoWrapped = w.seqnoWrapped ∧ w'.seqno = (v.raiseSeqno rq).seqno ∧
          w'.seqnoWrapped = (v.raiseSeqno rq).seqnoWrapped) := by
  refine (routeUp_runs hd).bind ?_
  intro v _ hk
  obtain ⟨e', he', hf', hs'⟩ := hk.rtLookup _ _ hd
  have hi : v.index = w.index := hk.index
  refine (answerRequest_runs hq hb he' ?_ (hf'.trans hup) (hs'.trans hs) ?_).mono ?_
  · exact fun h => hne (h.trans hi)
  · have hbi : v.bihead = w.bihead := hk.bihead
    simpa only [World.idGet, id, hbi] using hid
  · intro w' _ hw' hdst
    exact ⟨v, hk.seqno, hk.seqnoWrapped, hw' (hdst.trans hi.symm)⟩

theorem recvRequest_runs {q : Packet} {rq : HdrRequest} {w : World} (hq : heard = .recv q)
    (hb : q.body = .rreq rq) :
    Runs env heard w (recvRequest env q rq w) (AnswersRequest env q.ih.saddr rq w) := by
  unfold recvRequest
  split
  · next hown => exact .ok .refl ⟨fun _ => rfl, fun _ h => absurd (.inl hown) h⟩
  · next hne =>
    have hsteps : ReflTransGen (Step env heard) w (w.remember env rq) := by
      rw [World.remember_eq]
      exact .single (.cache (.inr ⟨q, hq, .inl ⟨rq, hb⟩⟩) _)
    dsimp only
    rw [World.remember_def, World.index_remember, HdrRequest.atNode_eq]
    refine .after hsteps (rtEnsure_runs.bind ?_)
    intro w₂ _ hen
    have hi : w₂.index = w.index := hen.index.trans (w.index_remember env rq)
    have hs₂ : w₂.seqno = w.seqno := by rw [hen.seqno, World.remember_eq]
    have hsw₂ : w₂.seqnoWrapped = w.seqnoWrapped := by rw [hen.seqnoWrapped, World.remember_eq]
    have hm₂ : w₂.eamrpMaxPaths = w.eamrpMaxPaths := by rw [hen.eamrpMaxPaths, World.remember_eq]
    have hd₂ : w₂.eamrpPrimAltPathLenDiff = w.eamrpPrimAltPathLenDiff := by
      rw [hen.eamrpPrimAltPathLenDiff, World.remember_eq]
    have hb₂ : w₂.bihead = (w.remember env rq).bihead := hen.bihead
    have hne₂ : rq.rqSrc ≠ w₂.index := by rwa [hi]
    set e := (w.rtLookup rq.rqSrc).getD { rtDst := rq.rqSrc, rtHops := env.rtHops rq.rqSrc } with hedef
    have he : w₂.rtLookup rq.rqSrc = some e := by
      have hl : (w.remember env rq).rtLookup rq.rqSrc = w.rtLookup rq.rqSrc := by
        rw [World.remember_eq]
        rfl
      rw [hedef, ← hl]
      exact hen.rtLookup
    have hdst := w₂.rtDst_of_rtLookup he
    have hsrc : (rq.atNode w.index).rqSrc = rq.rqSrc := rfl
    rw [id, hsrc, he]
    dsimp only
    have hA : Hears heard w₂.index ⟨rq.rqSrc, rq.rqSrcSeqno, rq.rqHopCount, q.ih.saddr,
        if rq.rqHopCount = 0 then w.index else rq.rqFirstHop, revRouteLife⟩ :=
      ⟨q, hq, by simp [Packet.advert, hb, hi]⟩
    have hcongr : reverseRoute env w₂.toAgent q.ih.saddr (rq.atNode w.index) e =
        reverseRoute env w.toAgent q.ih.saddr (rq.atNode w.index) e :=
      reverseRoute_congr hi hm₂ hd₂
    rcases reverseRoute_cases (rq.atNode w.index) _ rfl hA hdst.symm hne₂ with
      ⟨⟨e', verdict⟩, hr, hu⟩ | ⟨hr, hf⟩ | ⟨hr, hf⟩
    · rw [hr, ok_bind]
      dsimp only
      have hl₃ := World.rtLookup_store_self he (hu.rtDst.trans hdst)
      refine .after (.single (step_store he hu.step)) ?_
      cases verdict with
      | discard =>
        exact .ok .refl ⟨fun _ => hs₂, fun _ hnd => absurd (.inr ⟨e', hcongr.symm.trans hr⟩) hnd⟩
      | keep reversePath =>
        have hnd : ¬ DiscardsRequest env w.toAgent q.ih.saddr rq := by
          rintro (h | ⟨e₀, h⟩)
          · exact hne h
          · cases hr.symm.trans (hcongr.trans h)
        have hid : ((w₂.store e').idGet rq.rqSrc rq.rqBcastId).isSome = true := by
          have := w.idGet_remember env rq
          rwa [World.idGet, ← hb₂] at this
        refine (keptRequest_runs hq hb hl₃ hne₂ (hu.up _ rfl) (hu.rtSeqno _ rfl) hid).mono ?_
        intro w' _ hw'
        refine ⟨fun h => absurd h hnd, fun hdst' _ => ?_⟩
        obtain ⟨v, hv, hvw, hseq⟩ := hw' (hdst'.trans hi.symm)
        exact ⟨v, hv.trans hs₂, hvw.trans hsw₂, hseq⟩
    · rw [hr]
      exact .error (blame_of_update hA he hf (.inl rfl))
    · rw [hr]
      exact .error (blame_of_hopcount hA he hf (.inl rfl))

/-! ### Replies -/

/-- The tail of `forwardReply`, from the world in which the forward route is advertised. -/
theorem forwardReply_runs {q : Packet} {rp : HdrReply} {w : World} {e : RtEntry}
    (hda : q.ih.daddr = w.index ∨ heard = .recv q ∧ q.body = .rrep rp)
    (hd : w.rtLookup rp.rpDst = some e) (hne : rp.rpDst ≠ w.index) (hup : e.rtFlags = .up)
    (hs : e.rtSeqno = rp.rpDstSeqno) : Runs env heard w (forwardReply env q rp w) := by
  unfold forwardReply
  split
  · exact .ok .refl trivial
  · next hda' =>
    obtain ⟨hq, hb⟩ := hda.resolve_left hda'
    split
    · next e₀ b he₀ _ =>
      split
      · exact .ok .refl trivial
      · next hc =>
        have hup₀ : e₀.rtFlags = .up := by
          by_contra h
          exact hc (.inl h)
        have hdst := w.rtDst_of_rtLookup hd
        have hdst₀ := w.rtDst_of_rtLookup he₀
        dsimp only
        set w₁ := w.idCount q.ih.daddr rp.rpBcastId with hw₁
        have h1 : Step env heard w w₁ := .cache (.inr ⟨q, hq, .inr ⟨rp, hb⟩⟩) _
        have hd₁ : w₁.rtLookup rp.rpDst = some e := hd
        cases hp₀ : e₀.pathFind with
        | none => exact .error ⟨_, e₀, he₀, hup₀, List.head?_eq_none_iff.mp hp₀⟩
        | some reversePath =>
          rw [hd₁]
          dsimp only
          have h2 : Step env heard w₁ (w₁.store (e.advertise env.inf)) :=
            step_store hd₁ (.freeze hup)
          have hl₂ := World.rtLookup_store_self (f := e.advertise env.inf) hd₁ hdst
          set w₂ := w₁.store (e.advertise env.inf) with hw₂
          cases hp : e.pathFind with
          | none => exact .error ⟨_, e, hd, hup, List.head?_eq_none_iff.mp hp⟩
          | some path =>
            dsimp only
            obtain ⟨f₀, hf₀, hfup₀⟩ : ∃ f₀, w₂.rtLookup q.ih.daddr = some f₀ ∧ f₀.rtFlags = .up := by
              by_cases heq : q.ih.daddr = rp.rpDst
              · exact ⟨e.advertise env.inf, heq ▸ hl₂, hup⟩
              · refine ⟨e₀, ?_, hup₀⟩
                rw [hw₂, World.rtLookup_store_ne]
                · exact he₀
                · exact fun h => heq (h.trans hdst)
            rw [hf₀]
            dsimp only
            have hfd₀ := w₂.rtDst_of_rtLookup hf₀
            set p : Packet := { q with
              ch := { q.ch with addrType := .inet, nextHop := reversePath.nexthop }
              body := .rrep { rp with
                rpSrc := w₂.index
                rpHopCount := (e.advertise env.inf).rtAdvertisedHops.toUInt8
                rpFirstHop := path.lasthop } } with hp'
            have hspeak : ∀ ch, Speaks env heard w₂ { p with ch := ch } := fun ch =>
              .forwardReply (e := e.advertise env.inf) hq hb
                ⟨hdst ▸ hl₂, hdst ▸ hne, hup, e.advertise_advertise _, hp⟩ hdst.symm hs rfl
            have h3 : Step env heard w₂ (w₂.store (f₀.touchFirst env.now)) :=
              step_store hf₀ (.touch hfup₀)
            have hl₃ := World.rtLookup_store_self (f := f₀.touchFirst env.now) hf₀ hfd₀
            obtain ⟨g, hg, hgup⟩ : ∃ g, (w₂.store (f₀.touchFirst env.now)).rtLookup rp.rpDst =
                some g ∧ g.rtFlags = .up := by
              by_cases heq : rp.rpDst = q.ih.daddr
              · exact ⟨f₀.touchFirst env.now, heq ▸ hl₃, hfup₀⟩
              · refine ⟨e.advertise env.inf, ?_, hup⟩
                rw [World.rtLookup_store_ne]
                · exact hl₂
                · exact fun h => heq (h.trans hfd₀)
            rw [hg]
            dsimp only
            have hgd := World.rtDst_of_rtLookup hg
            have hsoft : g.SameRoute { g with rtError := true } := .rtError g true
            set w₃ := w₂.store (f₀.touchFirst env.now) with hw₃
            have h4 : Step env heard w₃ (w₃.store { g with rtError := true }) :=
              step_store hg (.soft hsoft)
            have hw₄ := (((ReflTransGen.single h1).tail h2).tail h3).tail h4
            obtain ⟨e₄, he₄⟩ : ∃ e₄, (w₃.store { g with rtError := true }).rtLookup q.ih.daddr =
                some e₄ := by
              by_cases heq : q.ih.daddr = rp.rpDst
              · exact ⟨_, World.rtLookup_store_self (heq ▸ hg) (hgd.trans heq.symm)⟩
              · refine ⟨_, (World.rtLookup_store_ne ?_).trans hl₃⟩
                exact fun h => heq (h.trans hgd)
            rcases @forward_some env heard q.ih.daddr p noEamrpDelay _ e₄ he₄ with
              ⟨w', h, hw, hnb⟩ | ⟨f, h, hf⟩ | ⟨path₄, ch, e', delay', hup₄, -, hs₄, h⟩
            · rw [h]
              exact .ok (hw₄.tail (.frame hw hnb)) trivial
            · rw [h]
              exact .after hw₄ (.error hf)
            · rw [h]
              -- The writes do not look at the packets sent, so the packet may go out first.
              set w₂' := w₂.send { p with ch := ch } delay' with hw₂'
              have h2' : Step env heard w₂ w₂' := .send (hspeak ch)
              have h3' : Step env heard w₂' (w₂'.store (f₀.touchFirst env.now)) :=
                step_store (d := q.ih.daddr) hf₀ (.touch hfup₀)
              have h4' : Step env heard (w₂'.store (f₀.touchFirst env.now))
                  ((w₂'.store (f₀.touchFirst env.now)).store { g with rtError := true }) :=
                step_store (d := rp.rpDst) hg (.soft hsoft)
              have h5' : ReflTransGen (Step env heard)
                  ((w₂'.store (f₀.touchFirst env.now)).store { g with rtError := true })
                  (((w₂'.store (f₀.touchFirst env.now)).store { g with rtError := true }).store e') :=
                steps_touch (d := q.ih.daddr) he₄ hup₄ hs₄
              exact .ok ((((((ReflTransGen.single h1).tail h2).tail h2').tail h3').tail h4').trans h5')
                trivial
    · exact .ok .refl trivial

theorem recvReply_runs {q : Packet} {rp : HdrReply} {w : World}
    (hA : Hears heard w.index
      ⟨rp.rpDst, rp.rpDstSeqno, rp.rpHopCount, rp.rpSrc, rp.rpFirstHop, rp.rpLifetime⟩)
    (hda : q.ih.daddr = w.index ∨ heard = .recv q ∧ q.body = .rrep rp) :
    Runs env heard w (recvReply env q rp w) := by
  unfold recvReply
  split
  · exact .ok .refl trivial
  · next hne =>
    refine rtEnsure_runs.bind ?_
    intro w₂ _ hen
    obtain ⟨e, he⟩ := Option.isSome_iff_exists.mp (Option.isSome_of_eq_some hen.rtLookup)
    have hi := hen.index
    rw [id, he]
    dsimp only
    have hdst := w₂.rtDst_of_rtLookup he
    rw [← hi] at hA hda hne
    rcases forwardRoute_cases rp _ rfl hA hdst.symm hne with
      ⟨⟨e', verdict⟩, hr, hu⟩ | ⟨hr, hf⟩ | ⟨hr, hf⟩
    · rw [hr, ok_bind]
      dsimp only
      have hl3 := World.rtLookup_store_self he (hu.rtDst.trans hdst)
      refine .after (.single (step_store he hu.step)) ?_
      cases verdict with
      | discard => exact .ok .refl trivial
      | keep b =>
        refine (routeUp_runs hl3).bind ?_
        intro w₄ _ hk
        obtain ⟨e₄, he₄, hf₄, hs₄⟩ := hk.rtLookup _ _ hl3
        have hi₄ : w₄.index = w₂.index := hk.index
        exact forwardReply_runs (by rwa [id, hi₄]) he₄ (by rwa [id, hi₄])
          (hf₄.trans (hu.up _ rfl)) (hs₄.trans (hu.rtSeqno _ rfl))
    · rw [hr]
      exact .error (blame_of_update hA he hf (.inr rfl))
    · rw [hr]
      exact .error (blame_of_hopcount hA he hf (.inr rfl))

theorem recvHello_runs {q : Packet} {rp : HdrReply} {w : World} (hq : heard = .recv q)
    (hb : q.body = .hello rp) : Runs env heard w (recvHello env q rp w) := by
  have hrest : ∀ l : List Neighbor, Runs env heard w
      (recvReply env { q with ih := { q.ih with daddr := w.index } }
        { rp with rpSrc := q.ih.saddr, rpFirstHop := w.index } { w with nbhead := l }) := by
    intro l
    have hA : q.advert w.index = some ⟨rp.rpDst, rp.rpDstSeqno, rp.rpHopCount, q.ih.saddr,
        w.index, rp.rpLifetime⟩ := by simp only [Packet.advert, hb]
    exact .after (.single (.neighbors (.inr ⟨q, hq, rp, hb⟩) l))
      (recvReply_runs ⟨q, hq, hA⟩ (.inl rfl))
  unfold recvHello
  cases h : w.nbLookup rp.rpDst with
  | none =>
    simp only [World.nbInsert, h]
    exact hrest _
  | some nb => exact hrest _

/-! ### Errors -/

theorem errorEntry_follows {q : Packet} {re : HdrError} {s : World × HdrError}
    {u : NsAddr × UInt32} (hq : heard = .recv q) (hb : q.body = .rerr re) (hu : u ∈ re)
    (hJ : ListsDown s) :
    Follows (Step env heard) (Blame heard) Prod.fst s.1 (errorEntry env q.ih.saddr s u)
      ListsDown := by
  obtain ⟨w, nre⟩ := s
  unfold errorEntry
  cases hd : w.rtLookup u.1 with
  | none => exact .ok .refl hJ
  | some e =>
    dsimp only
    split
    · next hc =>
      obtain ⟨hup, hp, hs⟩ := hc
      have hdst := w.rtDst_of_rtLookup hd
      have hE : HearsError heard q.ih.saddr e.rtDst u.2 := ⟨q, re, hq, hb, rfl, by rwa [hdst]⟩
      split
      · next hodd => exact .error ⟨u.1, e, hd, hup, hodd⟩
      · next hev =>
        have hev : e.rtSeqno % 2 = 0 := by simpa using hev
        set e₁ := (e.pathDelete q.ih.saddr).heardError u.2 with he₁
        change Follows _ _ _ w (e₁.pathEmpty >>= _) _
        rcases e₁.pathEmpty_cases with ⟨hpe, hl⟩ | ⟨hpe, hl⟩ | ⟨f, hpe, hf, hne⟩
        · rw [hpe]
          have hfd : (e₁.withdrawn env.inf).rtDst = u.1 := by
            simpa [RtEntry.withdrawn, RtEntry.heardError, RtEntry.pathDelete, he₁] using hdst
          have hstep : Step env heard w (w.store (e₁.withdrawn env.inf)) :=
            step_store hd (.withdraw hE hup hs hev hp hl)
          change Follows _ _ _ w (if ({ e₁ with
            rtSeqno := e₁.rtHighestSeqnoHeard }.rtDown env.inf).rtError = true then _ else _) _
          split
          · exact list_follows hstep hd hup hJ hfd (RtEntry.rtFlags_rtDown _ _) rfl hfd
          · exact .ok (.single hstep) (hJ.store hd hup hfd)
        · rw [hpe]
          exact .ok (.single (step_store hd (.hear hE hup hs hp hl))) (hJ.store hd hup hdst)
        · rw [hpe]
          exact .error (blame_pathDelete hd hf hne)
    · exact .ok .refl hJ

theorem recvError_runs {q : Packet} {re : HdrError} {w : World} (hq : heard = .recv q)
    (hb : q.body = .rerr re) : Runs env heard w (recvError env q re w) := by
  unfold recvError
  refine (Follows.foldlM (π := Prod.fst) (J := ListsDown) _ (w, ([] : HdrError)) ?_ ?_).bind ?_
  · intro u hu
    simp at hu
  · intro s u hu hs
    exact errorEntry_follows hq hb hu hs
  · rintro ⟨w', nre⟩ _ hs
    refine .ok ?_ trivial
    dsimp only
    split
    · exact sendError_runs hs
    · exact .refl

/-! ### Stages -/

/-- The stages of `recvRequest` for a RREQ that is not the node's own. -/
theorem recvRequest_stages {p : Packet} {rq : HdrRequest} {w w' : World}
    (h : recvRequest env p rq w = .ok w') (hne : rq.rqSrc ≠ w.index) :
    ∃ v e e' verdict, (w.remember env rq).rtEnsure env rq.rqSrc = .ok v ∧
      v.rtLookup rq.rqSrc = some e ∧
      reverseRoute env v.toAgent p.ih.saddr (rq.atNode w.index) e = .ok (e', verdict) ∧
      (verdict = .discard ∧ w' = v.store e' ∨
        ∃ b u, verdict = .keep b ∧ routeUp env rq.rqSrc (v.store e') = .ok u ∧
          answerRequest env p (rq.atNode w.index) (w.idGet rq.rqSrc rq.rqBcastId).isSome b u =
            .ok w') := by
  unfold recvRequest at h
  rw [if_neg hne] at h
  dsimp only at h
  rw [World.remember_def, World.index_remember, HdrRequest.atNode_eq] at h
  obtain ⟨v, hv, h⟩ := of_bind_ok h
  split at h
  · cases h
  · next e he =>
    obtain ⟨⟨e', verdict⟩, hr, h⟩ := of_bind_ok h
    refine ⟨v, e, e', verdict, hv, he, hr, ?_⟩
    cases verdict with
    | discard => exact .inl ⟨rfl, (Except.ok.inj h).symm⟩
    | keep b =>
      obtain ⟨u, hu, h⟩ := of_bind_ok h
      exact .inr ⟨b, u, rfl, hu, h⟩

/-- The stages of `recvReply` for a RREP that does not advertise the node itself. -/
theorem recvReply_stages {p : Packet} {rp : HdrReply} {w w' : World}
    (h : recvReply env p rp w = .ok w') (hne : rp.rpDst ≠ w.index) :
    ∃ v e e' verdict, w.rtEnsure env rp.rpDst = .ok v ∧ v.rtLookup rp.rpDst = some e ∧
      forwardRoute env v.toAgent rp e = .ok (e', verdict) ∧
      (verdict = .discard ∧ w' = v.store e' ∨
        ∃ b u, verdict = .keep b ∧ routeUp env rp.rpDst (v.store e') = .ok u ∧
          forwardReply env p rp u = .ok w') := by
  unfold recvReply at h
  rw [if_neg hne] at h
  obtain ⟨v, hv, h⟩ := of_bind_ok h
  split at h
  · cases h
  · next e he =>
    obtain ⟨⟨e', verdict⟩, hr, h⟩ := of_bind_ok h
    refine ⟨v, e, e', verdict, hv, he, hr, ?_⟩
    cases verdict with
    | discard => exact .inl ⟨rfl, (Except.ok.inj h).symm⟩
    | keep b =>
      obtain ⟨u, hu, h⟩ := of_bind_ok h
      exact .inr ⟨b, u, rfl, hu, h⟩

/-! ### Events -/

theorem recvEamrp_runs {q : Packet} {w : World} (hq : heard = .recv q) :
    Runs env heard w (recvEamrp env q w) := by
  unfold recvEamrp
  split
  · exact .error trivial
  · split
    · next hb => exact (recvRequest_runs hq hb).mono fun _ _ _ => trivial
    · next hb => exact recvReply_runs ⟨q, hq, by simp [Packet.advert, hb]⟩ (.inr ⟨hq, hb⟩)
    · next hb => exact recvError_runs hq hb
    · next hb => exact recvHello_runs hq hb
    · exact .error trivial
    · exact .error trivial

theorem recvApp_runs {p : AppPacket} {w : World} (hh : Unprompted heard) :
    Runs env heard w (recvApp env p w) := by
  have hroute : ∀ p : AppPacket, Runs env heard w (if p.val.ih.daddr ≠ ipBroadcast then
      rtResolve env p w else forward env none p.val noEamrpDelay w) := by
    intro p
    split
    · exact rtResolve_runs hh
    · exact forward_none_runs fun ch => .app (by simpa [Packet.isEamrp] using p.2)
  unfold recvApp
  dsimp only
  split
  · exact hroute _
  · split
    · exact .ok (World.SameRouting.drop _ _ _).steps trivial
    · split
      · exact .ok (World.SameRouting.drop _ _ _).steps trivial
      · exact hroute _

/-- What `recv` hands to `recvEAMRP`: the packet with its TTL lowered. -/
def Input.aged : Input → Input
  | .recv p => .recv { p with ih := { p.ih with ttl := p.ih.ttl - 1 } }
  | inp => inp

/-- What is heard does not depend on the TTL. -/
theorem hears_aged {A : Advert} {i : NsAddr} : Hears inp.aged i A ↔ Hears inp i A := by
  cases inp with
  | recv p =>
    have hadv : Packet.advert i { p with ih := { p.ih with ttl := p.ih.ttl - 1 } } = p.advert i :=
      rfl
    constructor
    · rintro ⟨q, hq, hA⟩
      obtain rfl := Input.recv.inj hq
      exact ⟨p, rfl, hadv ▸ hA⟩
    · rintro ⟨q, hq, hA⟩
      obtain rfl := Input.recv.inj hq
      exact ⟨_, rfl, hadv ▸ hA⟩
  | _ => exact Iff.rfl

/-- One event of an agent takes elementary steps only. -/
theorem handle_runs {inp : Input} {w : World} : Runs env inp.aged w (handle env inp w) := by
  cases inp with
  | recv p =>
    change Runs env _ w (recv env p w)
    unfold recv
    split
    · next happ =>
      refine recvApp_runs fun q hq => ?_
      obtain rfl : _ = q := by simpa [Input.aged] using hq
      exact happ
    · exact recvEamrp_runs rfl
  | rtLlFailed p => exact .ok (World.SameRouting.drop _ _ _).steps trivial
  | broadcastTimer => exact .ok (.single (.cache (.inl rfl) _)) trivial
  | helloTimer =>
    refine .ok ?_ trivial
    split
    · exact sendHello_runs
    · exact .refl
  | neighborTimer => exact nbPurge_runs (.inl rfl)
  | routeCacheTimer => exact rtPurge_runs fun q hq => by cases hq
  | ifqueue q => exact .ok (.single (.frame ⟨rfl, rfl, rfl, rfl, rfl, rfl, rfl, rfl⟩ rfl)) trivial

/-- The event of receiving a routing packet; it has crossed one more hop. -/
theorem recvEamrp_of_handle {q : Packet} {w w' : World} (hq : q.isEamrp = true)
    (h : handle env (.recv q) w = .ok w') :
    recvEamrp env { q with ih := { q.ih with ttl := q.ih.ttl - 1 } } w = .ok w' := by
  change recv env q w = .ok w' at h
  unfold recv at h
  rwa [dif_neg (by simp [hq])] at h

/-- The event of receiving a RREQ. -/
theorem recvRequest_of_handle {q : Packet} {rq : HdrRequest} {w w' : World}
    (hb : q.body = .rreq rq) (h : handle env (.recv q) w = .ok w') :
    recvRequest env { q with ih := { q.ih with ttl := q.ih.ttl - 1 } } rq w = .ok w' := by
  have hrecv := recvEamrp_of_handle (by simp [Packet.isEamrp, hb]) h
  unfold recvEamrp at hrecv
  split at hrecv
  · cases hrecv
  · simpa only [hb] using hrecv

/-- The event of receiving a RREQ, and the own number. -/
theorem handle_request {q : Packet} {rq : HdrRequest} {w w' : World} (hb : q.body = .rreq rq)
    (h : handle env (.recv q) w = .ok w') : AnswersRequest env q.ih.saddr rq w w' := by
  have hrecv := recvRequest_of_handle hb h
  have hruns := @recvRequest_runs env _ { q with ih := { q.ih with ttl := q.ih.ttl - 1 } } rq w
    rfl hb
  rw [hrecv] at hruns
  exact hruns.post_of_ok

end Eamrp
