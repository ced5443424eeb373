import Eamrp.Abs.Entry

/-!
# The handlers take elementary steps only

One lemma for each handler of `Eamrp.Model`: started in any world, it follows the step
relation of `Eamrp.Abs.Step`, and when it faults the fault is blamed on the world it has
reached. These lemmas are the only place where the bodies of the handlers are taken apart.
-/

namespace Eamrp

open Lib Relation

/-! ### Worlds -/

namespace World

theorem rtLookup_store (w : World) (e : RtEntry) (d : NsAddr) :
    (w.store e).rtLookup d =
      if d = e.rtDst then (w.rtLookup d).map (fun _ => e) else w.rtLookup d :=
  RTable.rtLookup_store _ _ _

theorem rtDst_of_rtLookup {w : World} {d : NsAddr} {e : RtEntry} (h : w.rtLookup d = some e) :
    e.rtDst = d :=
  RTable.rtDst_of_rtLookup h

/-- Storing an entry for a known destination. -/
theorem rtLookup_store_self {w : World} {d : NsAddr} {e f : RtEntry}
    (h : w.rtLookup d = some e) (hd : f.rtDst = d) : (w.store f).rtLookup d = some f := by
  simp [rtLookup_store, hd, h]

theorem rtLookup_store_ne {w : World} {d : NsAddr} {e : RtEntry} (h : d ≠ e.rtDst) :
    (w.store e).rtLookup d = w.rtLookup d := by
  simp [rtLookup_store, h]

/-- The second of two writes to one entry wins. -/
theorem store_store (w : World) {e e' : RtEntry} (h : e'.rtDst = e.rtDst) :
    (w.store e).store e' = w.store e' := by
  have ht : (w.rtable.store e).store e' = w.rtable.store e' := by
    simp only [RTable.store, List.map_map]
    apply List.map_congr_left
    intro x _
    by_cases hx : x.rtDst = e.rtDst <;> simp [hx, h]
  simp only [store, ht]

/-- `rt_add` puts a fresh entry at the head of the table. -/
theorem rtAdd_ok {env : Env} {w w' : World} {d : NsAddr} (h : w.rtAdd env d = .ok w') :
    w.rtLookup d = none ∧
      w' = { w with rtable := { rtDst := d, rtHops := env.rtHops d } :: w.rtable } := by
  unfold rtAdd RTable.rtAdd at h
  split at h
  · next t ht =>
    obtain rfl := Except.ok.inj h
    split at ht
    · cases ht
    · next hnone =>
      obtain rfl := Except.ok.inj ht
      exact ⟨Option.not_isSome_iff_eq_none.mp hnone, rfl⟩
  · cases h

@[simp] theorem sent_send (w : World) (p : Packet) (delay : Time) :
    (w.send p delay).sent = w.sent ++ [p] := by
  simp [send, emit, sent, Effect.sent?]

namespace SameRouting

theorem refl (w : World) : w.SameRouting w := ⟨rfl, rfl, rfl, rfl, rfl, rfl, rfl, rfl⟩

theorem trans {w w' w'' : World} (h : w.SameRouting w') (h' : w'.SameRouting w'') :
    w.SameRouting w'' where
  index := h'.index.trans h.index
  seqno := h'.seqno.trans h.seqno
  seqnoWrapped := h'.seqnoWrapped.trans h.seqnoWrapped
  rtable := h'.rtable.trans h.rtable
  bihead := h'.bihead.trans h.bihead
  eamrpMaxPaths := h'.eamrpMaxPaths.trans h.eamrpMaxPaths
  eamrpPrimAltPathLenDiff := h'.eamrpPrimAltPathLenDiff.trans h.eamrpPrimAltPathLenDiff
  sent := h'.sent.trans h.sent

theorem rtLookup {w w' : World} (h : w.SameRouting w') (d : NsAddr) :
    w'.rtLookup d = w.rtLookup d := by
  simp [World.rtLookup, h.rtable]

theorem steps {env : Env} {heard : Input} {w w' : World} (h : w.SameRouting w')
    (hnb : w'.nbhead = w.nbhead := by rfl) : ReflTransGen (Step env heard) w w' :=
  .single (.frame h hnb)

theorem emit {w : World} {e : Effect} (h : e.sent? = none) : w.SameRouting (w.emit e) :=
  ⟨rfl, rfl, rfl, rfl, rfl, rfl, rfl, by simp [World.emit, World.sent, h]⟩

theorem drop (w : World) (p : Packet) (reason : DropReason) :
    w.SameRouting (w.drop p reason) := emit rfl

theorem deque (env : Env) (w : World) (dst : NsAddr) : w.SameRouting (w.deque env dst).2 :=
  ⟨rfl, rfl, rfl, rfl, rfl, rfl, rfl, rfl⟩

theorem enque (env : Env) (w : World) (p : AppPacket) : w.SameRouting (w.enque env p) := by
  refine ⟨rfl, rfl, rfl, rfl, rfl, rfl, rfl, ?_⟩
  simp [World.enque, World.sent, List.filterMap_map, Function.comp_def, Effect.sent?]

end SameRouting

/-- No entry changes its destination, flag or sequence number, and the own number and the
broadcast-id cache stay as they are. -/
structure Keeps (w w' : World) : Prop where
  index : w'.index = w.index
  seqno : w'.seqno = w.seqno
  seqnoWrapped : w'.seqnoWrapped = w.seqnoWrapped
  bihead : w'.bihead = w.bihead
  rtLookup : ∀ d e, w.rtLookup d = some e →
    ∃ e', w'.rtLookup d = some e' ∧ e'.rtFlags = e.rtFlags ∧ e'.rtSeqno = e.rtSeqno

namespace Keeps

theorem refl (w : World) : w.Keeps w := ⟨rfl, rfl, rfl, rfl, fun _ e h => ⟨e, h, rfl, rfl⟩⟩

theorem trans {w w' w'' : World} (h : w.Keeps w') (h' : w'.Keeps w'') : w.Keeps w'' where
  index := h'.index.trans h.index
  seqno := h'.seqno.trans h.seqno
  seqnoWrapped := h'.seqnoWrapped.trans h.seqnoWrapped
  bihead := h'.bihead.trans h.bihead
  rtLookup d e he := by
    obtain ⟨e', he', hf, hs⟩ := h.rtLookup d e he
    obtain ⟨e'', he'', hf', hs'⟩ := h'.rtLookup d e' he'
    exact ⟨e'', he'', hf'.trans hf, hs'.trans hs⟩

theorem of_sameRouting {w w' : World} (h : w.SameRouting w') : w.Keeps w' :=
  ⟨h.index, h.seqno, h.seqnoWrapped, h.bihead, fun d e he => ⟨e, by rw [h.rtLookup, he], rfl, rfl⟩⟩

theorem store {w : World} {e e' : RtEntry} (he : w.rtLookup e.rtDst = some e)
    (hd : e'.rtDst = e.rtDst) (hf : e'.rtFlags = e.rtFlags) (hs : e'.rtSeqno = e.rtSeqno) :
    w.Keeps (w.store e') := by
  refine ⟨rfl, rfl, rfl, rfl, fun d x hx => ?_⟩
  by_cases hdx : d = e.rtDst
  · subst hdx
    obtain rfl : e = x := by simpa [he] using hx
    exact ⟨e', rtLookup_store_self he hd, hf, hs⟩
  · exact ⟨x, by rw [rtLookup_store_ne (by rwa [hd]), hx], rfl, rfl⟩

theorem send (w : World) (p : Packet) (delay : Time) : w.Keeps (w.send p delay) :=
  ⟨rfl, rfl, rfl, rfl, fun _ e h => ⟨e, h, rfl, rfl⟩⟩

end Keeps

end World

/-! ### Entries -/

namespace RtEntry

theorem SameRoute.refl (e : RtEntry) : e.SameRoute e :=
  ⟨rfl, rfl, rfl, rfl, rfl, rfl, rfl, rfl, .inl rfl, rfl⟩

/-- `rt_error` is not part of the route. -/
theorem SameRoute.rtError (e : RtEntry) (b : Bool) : e.SameRoute { e with rtError := b } :=
  ⟨rfl, rfl, rfl, rfl, rfl, rfl, rfl, rfl, .inl rfl, rfl⟩

theorem SameRoute.resetSoftState (e : RtEntry) : e.SameRoute e.resetSoftState :=
  ⟨rfl, rfl, rfl, rfl, rfl, rfl, rfl, rfl, .inl rfl, rfl⟩

theorem SameRoute.requested (now : Time) (e : RtEntry) : e.SameRoute (e.requested now) :=
  ⟨rfl, rfl, rfl, rfl, rfl, rfl, rfl, rfl, .inr rfl, rfl⟩

end RtEntry

section Handlers

variable {env : Env} {heard : Input}

/-- One step on a known entry. -/
theorem step_store {w : World} {d : NsAddr} {e e' : RtEntry} (h : w.rtLookup d = some e)
    (hs : EntryStep env w.toAgent heard e e') : Step env heard w (w.store e') := by
  obtain rfl := w.rtDst_of_rtLookup h
  exact .entry h hs

/-! ### Transmission -/

/-- The outcomes of `forward` over an existing entry. -/
theorem forward_some {d : NsAddr} {p : Packet} {delay : Time} {w : World} {e : RtEntry}
    (hd : w.rtLookup d = some e) :
    (∃ w', forward env (some d) p delay w = .ok w' ∧ w.SameRouting w' ∧
      w'.nbhead = w.nbhead) ∨
    (∃ f, forward env (some d) p delay w = .error f ∧ Blame heard w f) ∨
    (∃ path ch e' delay', e.rtFlags = .up ∧ e.pathFind = some path ∧
      (e.touchFirst env.now).SameRoute e' ∧
      forward env (some d) p delay w = .ok ((w.store e').send { p with ch := ch } delay')) := by
  unfold forward
  split
  · exact .inl ⟨_, rfl, .drop _ _ _, rfl⟩
  · split
    · exact .inl ⟨_, rfl, .emit rfl, rfl⟩
    · simp only [hd]
      split
      · exact .inr (.inl ⟨_, rfl, trivial⟩)
      · next hup =>
        have hup : e.rtFlags = .up := by simpa using hup
        cases hp : e.pathFind with
        | none => exact .inr (.inl ⟨_, rfl, d, e, hd, hup, List.head?_eq_none_iff.mp hp⟩)
        | some path =>
          dsimp only
          split
          · exact .inr (.inl ⟨_, rfl, trivial⟩)
          · refine .inr (.inr ⟨path, _, _, _, hup, rfl, ?_, rfl⟩)
            split
            · exact .rtError _ _
            · exact .refl _

/-- The two writes of `forward` to its entry, as steps. -/
theorem steps_touch {w : World} {d : NsAddr} {e e' : RtEntry} (hd : w.rtLookup d = some e)
    (hup : e.rtFlags = .up) (hs : (e.touchFirst env.now).SameRoute e') :
    ReflTransGen (Step env heard) w (w.store e') := by
  have he := w.rtDst_of_rtLookup hd
  have h1 : Step env heard w (w.store (e.touchFirst env.now)) := step_store hd (.touch hup)
  have h2 : Step env heard (w.store (e.touchFirst env.now))
      ((w.store (e.touchFirst env.now)).store e') :=
    step_store (World.rtLookup_store_self hd he) (.soft hs)
  rw [World.store_store _ hs.rtDst] at h2
  exact (ReflTransGen.single h1).tail h2

theorem keeps_touch {w : World} {d : NsAddr} {e e' : RtEntry} (hd : w.rtLookup d = some e)
    (hs : (e.touchFirst env.now).SameRoute e') : w.Keeps (w.store e') := by
  obtain rfl := w.rtDst_of_rtLookup hd
  exact .store hd hs.rtDst hs.rtFlags hs.rtSeqno

/-- `forward` of another protocol's packet over an existing entry. -/
theorem forward_runs {d : NsAddr} {p : Packet} {delay : Time} {w : World} {e : RtEntry}
    (hp : p.isEamrp = false) (hd : w.rtLookup d = some e) :
    Runs env heard w (forward env (some d) p delay w) w.Keeps := by
  rcases @forward_some env heard d p delay w e hd with
    ⟨w', h, hw, hnb⟩ | ⟨f, h, hf⟩ | ⟨path, ch, e', delay', hup, -, hs, h⟩
  · rw [h]; exact .ok (hw.steps hnb) (.of_sameRouting hw)
  · rw [h]; exact .error hf
  · rw [h]
    refine .ok ((steps_touch hd hup hs).tail (.send (.app ?_))) ?_
    · simpa [Packet.isEamrp] using hp
    · exact (keeps_touch hd hs).trans (.send _ _ _)

/-- `forward` of a broadcast packet that may be spoken. -/
theorem forward_none_runs {p : Packet} {delay : Time} {w : World}
    (hp : ∀ ch, Speaks env heard w { p with ch := ch }) :
    Runs env heard w (forward env none p delay w) := by
  unfold forward
  split
  · exact .ok (World.SameRouting.drop _ _ _).steps trivial
  · split
    · exact .ok (World.SameRouting.emit rfl).steps trivial
    · dsimp only
      split
      · exact .error trivial
      · exact .ok (.single (.send (hp _))) trivial

/-- A loop over the packets buffered for a destination. -/
theorem whileDeque_follows {β : Type} {dst : NsAddr}
    {body : AppPacket → World × β → Except Fault (World × β)} {J : World × β → Prop}
    (hframe : ∀ w w' b, J (w, b) → w.SameRouting w' → J (w', b))
    (hbody : ∀ p s, J s → Follows (Step env heard) (Blame heard) Prod.fst s.1 (body p s) J)
    (n : Nat) (s : World × β) (hs : J s) :
    Follows (Step env heard) (Blame heard) Prod.fst s.1 (World.whileDeque env dst body n s) J := by
  induction n generalizing s with
  | zero => exact .ok .refl hs
  | succ n ih =>
    have hq := World.SameRouting.deque env s.1 dst
    have hnb : (s.1.deque env dst).2.nbhead = s.1.nbhead := rfl
    unfold World.whileDeque
    cases hd : s.1.deque env dst with
    | mk p w =>
      rw [hd] at hq hnb
      have hw : J (w, s.2) := hframe _ _ _ hs hq
      cases p with
      | none => exact .ok (hq.steps hnb) hw
      | some p =>
        refine Follows.after (hq.steps hnb) ((hbody p (w, s.2) hw).bind ?_)
        intro s' _ hs'
        exact ih s' hs'

theorem dropBuffered_runs {dst : NsAddr} {reason : DropReason} {w : World} :
    Runs env heard w (dropBuffered env dst reason w) w.SameRouting := by
  unfold dropBuffered
  refine (whileDeque_follows (J := fun s => w.SameRouting s.1) ?_ ?_ _ (w, ()) (.refl w)).bind
    fun s _ hs => .ok .refl hs
  · intro w₁ w₂ _ h h'
    exact h.trans h'
  · intro p s hs
    have hd := World.SameRouting.drop s.1 p.val reason
    exact .ok hd.steps (hs.trans hd)

/-- `sendRequest` for a destination with an entry. -/
theorem sendRequest_runs {dst : NsAddr} {w : World} {e : RtEntry} (hq : Unprompted heard)
    (hd : w.rtLookup dst = some e) : Runs env heard w (sendRequest env dst w) := by
  unfold sendRequest
  simp only [hd]
  split
  · next hup =>
    split
    · next hh => exact .error ⟨dst, e, hd, hup, hh⟩
    · exact .ok .refl trivial
  · next hdown =>
    split
    · exact .ok .refl trivial
    · split
      · have hsame : e.SameRoute { e with rtReqTimeout := env.now + maxRreqTimeout, rtReqCnt := 0 } :=
          ⟨rfl, rfl, rfl, rfl, rfl, rfl, rfl, rfl, .inl rfl, rfl⟩
        exact .after (.single (step_store hd (.soft hsame)))
          (dropBuffered_runs.mono fun _ _ _ => trivial)
      · have hdst := w.rtDst_of_rtLookup hd
        have hl : (w.store (e.requested env.now)).rtLookup dst = some (e.requested env.now) :=
          World.rtLookup_store_self hd hdst
        have h1 : ReflTransGen (Step env heard) w (w.store (e.requested env.now)) :=
          .single (step_store hd (.soft (.requested _ _)))
        set w₁ := w.store (e.requested env.now) with hw₁
        have h2 : w₁.SameRouting { w₁ with bid := w₁.bid + 1 } :=
          ⟨rfl, rfl, rfl, rfl, rfl, rfl, rfl, rfl⟩
        have h3 := (h1.trans h2.steps).tail .bumpSeqno
        refine Follows.after h3 ?_
        split
        · next hodd => exact .error hodd
        · refine .ok (.single (.send ?_)) trivial
          rw [← hdst] at hl ⊢
          exact .request (e := e.requested env.now) hq hl hdown

theorem sendError_runs {re : HdrError} {jitter : Bool} {w : World}
    (hre : ∀ u ∈ re, ∃ e, w.rtLookup u.1 = some e ∧ e.rtFlags = .down ∧ e.rtSeqno = u.2) :
    ReflTransGen (Step env heard) w (sendError env re jitter w) :=
  .single (.send (.rerr rfl rfl hre))

theorem sendHello_runs {w : World} : ReflTransGen (Step env heard) w (sendHello w) :=
  .single (.send (.hello rfl rfl rfl))

/-! ### Maintenance -/

/-- Every destination of a RERR under construction is down with the listed number. -/
def ListsDown (s : World × HdrError) : Prop :=
  ∀ u ∈ s.2, ∃ e, s.1.rtLookup u.1 = some e ∧ e.rtFlags = .down ∧ e.rtSeqno = u.2

/-- Writing to an entry that is up leaves the listed entries alone. -/
theorem ListsDown.store {w : World} {re : HdrError} {d : NsAddr} {e e' : RtEntry}
    (h : ListsDown (w, re)) (hd : w.rtLookup d = some e) (hup : e.rtFlags = .up)
    (hd' : e'.rtDst = d) : ListsDown (w.store e', re) := by
  intro u hu
  obtain ⟨x, hx, hdown, hs⟩ := h u hu
  refine ⟨x, ?_, hdown, hs⟩
  rw [World.rtLookup_store_ne]
  · exact hx
  · rintro heq
    rw [heq, hd', hd] at hx
    obtain rfl := Option.some.inj hx
    simp [hup] at hdown

/-- Listing an entry that is down. -/
theorem ListsDown.add {w : World} {re re' : HdrError} {e : RtEntry} {n : UInt32}
    (h : ListsDown (w, re)) (he : w.rtLookup e.rtDst = some e) (hdown : e.rtFlags = .down)
    (hn : e.rtSeqno = n) (ha : HdrError.add re e.rtDst n = .ok re') : ListsDown (w, re') := by
  unfold HdrError.add at ha
  split at ha
  · obtain rfl := Except.ok.inj ha
    intro u hu
    rcases List.mem_append.mp hu with hu | hu
    · exact h u hu
    · obtain rfl := List.mem_singleton.mp hu
      exact ⟨e, he, hdown, hn⟩
  · cases ha

theorem HdrError.add_error {re : HdrError} {d : NsAddr} {n : UInt32} {f : Fault}
    (h : HdrError.add re d n = .error f) : f = .errorOverflow := by
  unfold HdrError.add at h
  split at h
  · cases h
  · exact (Except.error.inj h).symm

/-- A fault of `path_empty` after `path_delete` is the fault of the entry before. -/
theorem blame_pathDelete {w : World} {d id : NsAddr} {e : RtEntry} {f : Fault}
    (hd : w.rtLookup d = some e) (hf : f = .pathCountPositive ∨ f = .pathCountZero)
    (hne : (e.pathDelete id).rtNumPaths ≠ (e.pathDelete id).rtPathList.length) :
    Blame heard w f := by
  have : e.rtNumPaths ≠ e.rtPathList.length := fun h => hne (RtEntry.pathDelete_count id h)
  rcases hf with rfl | rfl <;> exact ⟨d, e, hd, this⟩

/-- Writing an entry that is down and listing it in a RERR. -/
theorem list_follows {w : World} {re : HdrError} {d d' : NsAddr} {e f : RtEntry} {n : UInt32}
    (hstep : Step env heard w (w.store f)) (hd : w.rtLookup d = some e) (hup : e.rtFlags = .up)
    (hJ : ListsDown (w, re)) (hfd : f.rtDst = d) (hdown : f.rtFlags = .down)
    (hn : f.rtSeqno = n) (hd' : d' = d) :
    Follows (Step env heard) (Blame heard) Prod.fst w
      (HdrError.add re d' n >>= fun re' => pure (w.store f, re')) ListsDown := by
  subst hd'
  cases ha : HdrError.add re d' n with
  | error g =>
    obtain rfl := HdrError.add_error ha
    exact .error trivial
  | ok re' =>
    have hself := World.rtLookup_store_self hd hfd
    exact .ok (.single hstep) ((hJ.store hd hup hfd).add (by rwa [hfd]) hdown hn (by rwa [hfd]))

theorem linkFailureEntry_follows {id dst : NsAddr} {s : World × HdrError} (hJ : ListsDown s) :
    Follows (Step env heard) (Blame heard) Prod.fst s.1 (linkFailureEntry env id s dst)
      ListsDown := by
  obtain ⟨w, re⟩ := s
  unfold linkFailureEntry
  cases hd : w.rtLookup dst with
  | none => exact .ok .refl hJ
  | some e =>
    dsimp only
    split
    · next hc =>
      obtain ⟨hup, hp⟩ := hc
      have hdst := w.rtDst_of_rtLookup hd
      split
      · next hodd => exact .error ⟨dst, e, hd, hup, hodd⟩
      · next hev =>
        have hev : e.rtSeqno % 2 = 0 := by simpa using hev
        rcases (e.pathDelete id).pathEmpty_cases with ⟨hpe, hl⟩ | ⟨hpe, hl⟩ | ⟨f, hpe, hf, hne⟩
        · rw [hpe]
          have hfd : ((e.pathDelete id).failed env.inf).rtDst = dst := by
            simpa [RtEntry.failed, RtEntry.pathDelete] using hdst
          have hstep : Step env heard w (w.store ((e.pathDelete id).failed env.inf)) :=
            step_store hd (.fail hup hev hp hl)
          change Follows _ _ _ w (if (e.pathDelete id).rtError = true then _ else _) _
          split
          · exact list_follows hstep hd hup hJ hfd (RtEntry.rtFlags_rtDown _ _)
              (RtEntry.rtSeqno_rtDown _ _) hdst
          · exact .ok (.single hstep) (hJ.store hd hup hfd)
        · rw [hpe]
          exact .ok (.single (step_store hd (.lose hup hp hl))) (hJ.store hd hup hdst)
        · rw [hpe]
          exact .error (blame_pathDelete hd hf hne)
    · exact .ok .refl hJ

theorem handleLinkFailure_runs {id : NsAddr} {w : World} :
    Runs env heard w (handleLinkFailure env id w) := by
  unfold handleLinkFailure
  refine (Follows.foldlM (π := Prod.fst) (J := ListsDown) _ (w, ([] : HdrError)) ?_ ?_).bind ?_
  · intro u hu
    simp at hu
  · intro s dst _ hs
    exact linkFailureEntry_follows hs
  · rintro ⟨w', re⟩ _ hs
    refine .ok ?_ trivial
    dsimp only
    split
    · exact sendError_runs hs
    · exact .refl

/-- What `rtEnsure` leaves: the entry for `d`, a fresh one if it was missing. -/
structure Ensured (env : Env) (d : NsAddr) (w w' : World) : Prop where
  index : w'.index = w.index
  seqno : w'.seqno = w.seqno
  seqnoWrapped : w'.seqnoWrapped = w.seqnoWrapped
  bihead : w'.bihead = w.bihead
  eamrpMaxPaths : w'.eamrpMaxPaths = w.eamrpMaxPaths
  eamrpPrimAltPathLenDiff : w'.eamrpPrimAltPathLenDiff = w.eamrpPrimAltPathLenDiff
  rtLookup : w'.rtLookup d = some ((w.rtLookup d).getD { rtDst := d, rtHops := env.rtHops d })

theorem rtEnsure_runs {d : NsAddr} {w : World} :
    Runs env heard w (w.rtEnsure env d) (Ensured env d w) := by
  unfold World.rtEnsure
  cases hd : w.rtLookup d with
  | some e => exact .ok .refl ⟨rfl, rfl, rfl, rfl, rfl, rfl, by simp [hd]⟩
  | none =>
    have hadd : w.rtAdd env d =
        .ok { w with rtable := { rtDst := d, rtHops := env.rtHops d } :: w.rtable } := by
      have hd' : w.rtable.rtLookup d = none := hd
      simp [World.rtAdd, RTable.rtAdd, hd']
    dsimp only
    rw [hadd]
    refine .ok (.single (.rtAdd hadd)) ⟨rfl, rfl, rfl, rfl, rfl, rfl, ?_⟩
    rw [hd]
    change RTable.rtLookup (_ :: _) d = _
    rw [RTable.rtLookup_cons, if_pos rfl]
    rfl

theorem rtResolve_runs {p : AppPacket} {w : World} (hh : Unprompted heard) :
    Runs env heard w (rtResolve env p w) := by
  unfold rtResolve
  refine rtEnsure_runs.bind ?_
  intro w' _ hen
  obtain ⟨e, he⟩ := Option.isSome_iff_exists.mp (Option.isSome_of_eq_some hen.rtLookup)
  rw [id, he]
  dsimp only
  split
  · next hup =>
    split
    · next hh => exact .error ⟨_, e, he, hup, hh⟩
    · exact (forward_runs p.2 he).mono fun _ _ _ => trivial
  · next hdown =>
    split
    · have hq := World.SameRouting.enque env w' p
      exact .after hq.steps (sendRequest_runs hh (by rw [hq.rtLookup, he]))
    · split
      · exact .ok (World.SameRouting.enque env w' p).steps trivial
      · split
        · exact .error trivial
        · next hnot =>
          have hflags : e.rtFlags = .down := by simpa using hnot
          have hdst := w'.rtDst_of_rtLookup he
          refine .ok (ReflTransGen.trans (sendError_runs ?_) (World.SameRouting.drop _ _ _).steps)
            trivial
          intro u hu
          obtain rfl := List.mem_singleton.mp hu
          exact ⟨e, by rw [hdst]; exact he, hflags, rfl⟩

theorem rtPurgeEntry_follows {dst : NsAddr} {s : World × Time} (hh : Unprompted heard) :
    Follows (Step env heard) (Blame heard) Prod.fst s.1 (rtPurgeEntry env s dst)
      (fun _ => True) := by
  obtain ⟨w, delay⟩ := s
  unfold rtPurgeEntry
  cases hd : w.rtLookup dst with
  | none => exact .ok .refl trivial
  | some e =>
    have hdst := w.rtDst_of_rtLookup hd
    dsimp only
    split
    · next hc =>
      rcases (e.pathPurge env.now).pathEmpty_cases with ⟨hpe, hl⟩ | ⟨hpe, hl⟩ | ⟨f, hpe, hf, hne⟩
      · rw [hpe]
        refine dropBuffered_runs.bind (ρ := Prod.fst) ?_
        intro w' _ hw'
        have hd' : w'.rtLookup dst = some e := by rw [hw'.rtLookup, hd]
        exact .ok (.single (step_store hd' (.expire hc.1 hl))) trivial
      · rw [hpe]
        exact .ok (.single (step_store hd (.purge hc.1 hl))) trivial
      · rw [hpe]
        refine .error ?_
        have hne' : e.rtNumPaths ≠ e.rtPathList.length := by
          intro h
          obtain ⟨k, hk, he⟩ := e.pathPurge_eq env.now
          have hn : (e.pathPurge env.now).rtNumPaths = e.rtNumPaths - k := by rw [he]
          exact hne (by omega)
        rcases hf with rfl | rfl <;> exact ⟨dst, e, hd, hne'⟩
    · split
      · next hup =>
        split
        · next hh => exact .error ⟨dst, e, hd, hup, hh⟩
        · refine (whileDeque_follows (J := fun s => ∃ e, s.1.rtLookup dst = some e) ?_ ?_ _ _
            ⟨e, hd⟩).mono fun _ _ _ => trivial
          · rintro w₁ w₂ _ ⟨e₁, h₁⟩ h
            exact ⟨e₁, by rw [h.rtLookup]; exact h₁⟩
          · rintro p ⟨w₁, b⟩ ⟨e₁, h₁⟩
            refine (forward_runs p.2 h₁).bind (ρ := Prod.fst) ?_
            intro w₂ _ hk
            obtain ⟨e₂, h₂, -, -⟩ := hk.rtLookup _ _ h₁
            exact .ok .refl ⟨e₂, h₂⟩
      · split
        · refine (sendRequest_runs hh hd).bind (ρ := Prod.fst) ?_
          intro w' _ _
          exact .ok .refl trivial
        · exact .ok .refl trivial

theorem rtPurge_runs {w : World} (hh : Unprompted heard) :
    Runs env heard w (rtPurge env w) := by
  unfold rtPurge
  refine (Follows.foldlM (π := Prod.fst) (J := fun _ => True) _ (w, (0 : Time)) trivial
    fun s dst _ _ => rtPurgeEntry_follows hh).bind ?_
  rintro ⟨w', _⟩ _ _
  exact .ok .refl trivial

theorem salvage_runs {p : Packet} {w : World} : Runs env heard w (salvage env p w) := by
  unfold salvage
  split
  · exact .ok (World.SameRouting.drop _ _ _).steps trivial
  · next hdata =>
    cases hd : w.rtLookup p.ih.daddr with
    | none => exact .ok (World.SameRouting.drop _ _ _).steps trivial
    | some e =>
      dsimp only
      split
      · refine (forward_runs ?_ hd).mono fun _ _ _ => trivial
        have := Packet.isEamrp_of_dataPacket (p := p) (by simpa using hdata)
        simpa [Packet.isEamrp] using this
      · exact .ok (World.SameRouting.drop _ _ _).steps trivial

theorem whileFilter_runs {id : NsAddr} (n : Nat) {w : World} :
    Runs env heard w (whileFilter env id n w) := by
  induction n generalizing w with
  | zero => exact .ok .refl trivial
  | succ n ih =>
    unfold whileFilter
    cases hf : filterIfqueue id w with
    | mk p w' =>
      cases p with
      | none => exact .ok .refl trivial
      | some p =>
        obtain ⟨-, rfl⟩ := Prod.mk.inj hf
        have hw' : w.SameRouting { w with ifqueue := w.ifqueue.eraseP (·.ch.nextHop == id) } :=
          ⟨rfl, rfl, rfl, rfl, rfl, rfl, rfl, rfl⟩
        exact .after hw'.steps (salvage_runs.bind fun _ _ _ => ih)

theorem nbDelete_runs {id : NsAddr} {w : World} (hc : CachesNeighbors heard) :
    Runs env heard w (nbDelete env id w) := by
  unfold nbDelete
  refine .after (.single .bumpSeqno) ?_
  dsimp only
  split
  · next hodd => exact .error hodd
  · exact .after (.single (.neighbors hc _))
      (handleLinkFailure_runs.bind fun _ _ _ => whileFilter_runs _)

theorem nbPurge_runs {w : World} (hc : CachesNeighbors heard) :
    Runs env heard w (nbPurge env w) := by
  unfold nbPurge
  refine Follows.foldlM (π := id) (J := fun _ => True) _ w trivial ?_
  intro w' nb _ _
  split
  · exact nbDelete_runs hc
  · exact .ok .refl trivial

end Handlers

end Eamrp
