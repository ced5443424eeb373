import Eamrp.Agent.Requests

/-!
# Prolonging paths

How long paths last: no path is given more than `ACTIVE_ROUTE_TIMEOUT` from now, and no reply
promises more. So that using a path never shortens it.
-/

namespace Eamrp

open Lib

/-! ### The bound -/

/-- A RREP or HELLO, if it is one, promises at most `ACTIVE_ROUTE_TIMEOUT`. -/
def Packet.Brief (p : Packet) : Prop :=
  ∀ rp, p.body = .rrep rp ∨ p.body = .hello rp → rp.rpLifetime ≤ activeRouteTimeout

/-- An advertisement that is heard promises no more either. -/
def HearsBrief (heard : Input) : Prop := ∀ i A, Hears heard i A → A.life ≤ activeRouteTimeout

namespace RtEntry

variable {now t : Time} {e e' : RtEntry} {x y : NsAddr} {n : UInt16} {p : Path}

/-- No path lasts longer than `t`. -/
def Until (t : Time) (e : RtEntry) : Prop := ∀ p ∈ e.rtPathList, p.expire ≤ t

theorem Loss.until_le (h : e.Loss now e') (he : e.Until (now + activeRouteTimeout)) :
    e'.Until (now + activeRouteTimeout) := by
  intro p' hp'
  obtain ⟨p, hp, rfl | rfl⟩ := h.paths p' hp'
  · exact he p' hp
  · exact le_rfl

/-- A path of a prolonged list is one of the list before, prolonged at most. -/
theorem mem_raiseExpire {l : List Path} (h : p ∈ raiseExpire x y t l) :
    ∃ q ∈ l, q.nexthop = p.nexthop ∧ (p = q ∨ p.expire = macroMax q.expire t) := by
  induction l with
  | nil => cases h
  | cons q l ih =>
    unfold raiseExpire at h
    split at h
    · rcases List.mem_cons.mp h with rfl | h
      · exact ⟨q, List.mem_cons_self, rfl, .inr rfl⟩
      · exact ⟨p, List.mem_cons_of_mem q h, rfl, .inl rfl⟩
    · rcases List.mem_cons.mp h with rfl | h
      · exact ⟨p, List.mem_cons_self, rfl, .inl rfl⟩
      · obtain ⟨r, hr, hp⟩ := ih h
        exact ⟨r, List.mem_cons_of_mem q hr, hp⟩

theorem until_refreshPath {t' : Time} (he : e.Until t) (ht : t' ≤ t) :
    (e.refreshPath x y t').Until t := by
  intro p hp
  obtain ⟨q, hq, -, rfl | heq⟩ := mem_raiseExpire hp
  · exact he p hq
  · rw [heq, macroMax]
    split
    · exact he q hq
    · exact ht

theorem until_addPath {t' : Time} (he : e.Until t) (ht : t' ≤ t) : (e.addPath x n t' y).Until t := by
  intro p hp
  rcases List.mem_append.mp hp with hp | hp
  · exact he p hp
  · rw [List.mem_singleton.mp hp]
    exact ht

theorem until_renew {t' : Time} {inf : Infinity} {s : UInt32} (ht : t' ≤ t) :
    (e.renew inf s x n t' y).Until t := by
  intro p hp
  rw [List.mem_singleton.mp hp]
  exact ht

end RtEntry

section Steps

variable {env : Env} {a : Agent} {heard : Input} {e e' : RtEntry} {w w' : World} {p : Packet}

theorem EntryStep.until_le (h : EntryStep env a heard e e') (hb : HearsBrief heard)
    (he : e.Until (env.now + activeRouteTimeout)) : e'.Until (env.now + activeRouteTimeout) := by
  have hlife : ∀ A, Hears heard a.index A → env.now + A.life ≤ env.now + activeRouteTimeout :=
    fun A hA => add_le_add_right (hb _ A hA) _
  cases h with
  | soft h =>
    unfold RtEntry.Until
    rw [h.rtPathList]
    exact he
  | touch => exact (RtEntry.Use.touchFirst e).loss.until_le he
  | refresh hA => exact RtEntry.until_refreshPath he (hlife _ hA)
  | renew hA => exact RtEntry.until_renew (hlife _ hA)
  | add hA => exact RtEntry.until_addPath he (hlife _ hA)
  | freeze => exact he
  | @lose id => exact (RtEntry.Loss.pathDelete id e).until_le he
  | @fail id =>
    have hdel : e.Loss env.now (e.pathDelete id) := .pathDelete id e
    exact ((hdel.setSeqno _ _ _).trans (.rtDown _ _)).until_le he
  | @hear id => exact (RtEntry.Loss.pathDelete id e).until_le he
  | @withdraw id =>
    have hdel : e.Loss env.now (e.pathDelete id) := .pathDelete id e
    exact ((hdel.setSeqno _ _ _).trans (.rtDown _ _)).until_le he
  | purge => exact (RtEntry.Loss.pathPurge env.now e).until_le he
  | expire =>
    have hpurge : e.Loss env.now (e.pathPurge env.now) := .pathPurge env.now e
    exact ((hpurge.setSeqno _ _ _).trans (.rtDown _ _)).until_le he

/-- All paths of an agent last at most `ACTIVE_ROUTE_TIMEOUT` from now, and all replies that it
has sent in the event promise at most that. -/
structure World.Lasting (now : Time) (w : World) : Prop where
  paths : ∀ e ∈ w.rtable, e.Until (now + activeRouteTimeout)
  replies : ∀ p ∈ w.sent, p.Brief

theorem World.Lasting.lookup {d : NsAddr} (h : w.Lasting env.now) (he : w.rtLookup d = some e) :
    e.Until (env.now + activeRouteTimeout) :=
  h.paths e (List.mem_of_find?_eq_some he)

/-- The paths behind a reply and the reply that is passed on bound what it promises. -/
theorem Speaks.brief (h : Speaks env heard w p) (hb : HearsBrief heard)
    (hw : w.Lasting env.now) : p.Brief := by
  intro rp hrp
  cases h with
  | app h => rcases hrp with hrp | hrp <;> simp [Packet.isEamrp, hrp] at h
  | request => rcases hrp with hrp | hrp <;> cases hrp
  | relay => rcases hrp with hrp | hrp <;> cases hrp
  | answer _ _ _ hp _ _ _ _ heq =>
    rcases hrp with hrp | hrp
    · obtain rfl := Body.rrep.inj (hp.symm.trans hrp)
      rw [heq]
      norm_num [myRouteTimeout, activeRouteTimeout]
    · cases hp.symm.trans hrp
  | @answerFrom q _ rq rp' e path _ _ ha _ _ _ hp _ heq =>
    rcases hrp with hrp | hrp
    · obtain rfl := Body.rrep.inj (hp.symm.trans hrp)
      have hle := hw.lookup ha.lookup path (List.mem_of_head? ha.first)
      rw [heq]
      show path.expire - env.now ≤ activeRouteTimeout
      linarith
    · cases hp.symm.trans hrp
  | @forwardReply q _ rp' e path hq hqb _ _ _ hp =>
    rcases hrp with hrp | hrp
    · obtain rfl := Body.rrep.inj (hp.symm.trans hrp)
      exact hb 0 ⟨rp'.rpDst, rp'.rpDstSeqno, rp'.rpHopCount, rp'.rpSrc, rp'.rpFirstHop,
        rp'.rpLifetime⟩ ⟨q, hq, by rw [Packet.advert, hqb]⟩
    · cases hp.symm.trans hrp
  | rerr hp => rcases hrp with hrp | hrp <;> cases hp.symm.trans hrp
  | hello hp _ heq =>
    rcases hrp with hrp | hrp
    · cases hp.symm.trans hrp
    · obtain rfl := Body.hello.inj (hp.symm.trans hrp)
      rw [heq]
      norm_num [allowedHelloLoss, helloInterval, activeRouteTimeout]

/-- Every elementary step keeps the bound. -/
theorem Step.lasting (h : Step env heard w w') (hb : HearsBrief heard) (hw : w.Lasting env.now) :
    w'.Lasting env.now := by
  constructor
  · refine h.forall_entry (fun _ _ _ hp => absurd hp List.not_mem_nil) ?_ hw.paths
    exact fun _ _ hs he => hs.until_le hb he
  · cases h with
    | entry => exact hw.replies
    | rtAdd h =>
      obtain ⟨-, rfl⟩ := World.rtAdd_ok h
      exact hw.replies
    | bumpSeqno => exact hw.replies
    | raiseSeqno =>
      rw [World.sent_raiseSeqno]
      exact hw.replies
    | frame h =>
      rw [h.sent]
      exact hw.replies
    | cache => exact hw.replies
    | neighbors => exact hw.replies
    | send h =>
      rw [World.sent_send]
      intro p hp
      rcases List.mem_append.mp hp with hp | hp
      · exact hw.replies p hp
      · rw [List.mem_singleton.mp hp]
        exact h.brief hb hw

/-- One event keeps the bound. -/
theorem handle_lasting {inp : Input} (h : handle env inp w = .ok w') (hb : HearsBrief inp.aged)
    (hw : w.Lasting env.now) : w'.Lasting env.now := by
  have hruns := @handle_runs env inp w
  rw [h] at hruns
  exact preserved_of_steps (I := fun v => v.Lasting env.now)
    (fun _ _ hv hs => hs.lasting hb hv) hruns.steps_of_ok hw

end Steps

/-! ### Paths that stay -/

/-- A path that has been used lasts no shorter than before. -/
theorem Path.Kept.expire_le {now : Time} {p p' : Path} (h : p.Kept now p')
    (hp : p.expire ≤ now + activeRouteTimeout) : p.expire ≤ p'.expire := by
  rcases h with rfl | rfl
  · exact le_rfl
  · exact hp

namespace RtEntry

/-- Each path was there before, or it is over a new next hop; it lasts no shorter than before. -/
def Prolongs (e e' : RtEntry) : Prop :=
  ∀ p' ∈ e'.rtPathList, (∃ p ∈ e.rtPathList, p.nexthop = p'.nexthop ∧ p.expire ≤ p'.expire) ∨
    ∀ p ∈ e.rtPathList, p.nexthop ≠ p'.nexthop

variable {now : Time} {e e' e'' : RtEntry} {env : Env} {a : Agent} {A : Advert}

/-- Using the paths afterwards does not shorten them. -/
theorem Prolongs.used (h : e.Prolongs e')
    (h' : ∀ p'' ∈ e''.rtPathList, ∃ p' ∈ e'.rtPathList, p'.Kept now p'')
    (he : e'.Until (now + activeRouteTimeout)) : e.Prolongs e'' := by
  intro p'' hp''
  obtain ⟨p', hp', hk⟩ := h' p'' hp''
  rw [hk.nexthop]
  rcases h p' hp' with ⟨p, hp, hn, hle⟩ | hnew
  · exact .inl ⟨p, hp, hn, hle.trans (hk.expire_le (he p' hp'))⟩
  · exact .inr hnew

theorem Prolongs.refl (e : RtEntry) : e.Prolongs e := fun p hp => .inl ⟨p, hp, rfl, le_rfl⟩

/-- With distinct next hops, a path over the same next hop is the same path. -/
theorem Prolongs.expire_le (h : e.Prolongs e') (hnd : (e.rtPathList.map Path.nexthop).Nodup)
    {p p' : Path} (hp : p ∈ e.rtPathList) (hp' : p' ∈ e'.rtPathList)
    (hn : p'.nexthop = p.nexthop) : p.expire ≤ p'.expire := by
  rcases h p' hp' with ⟨q, hq, hqn, hle⟩ | hnew
  · obtain rfl := List.inj_on_of_nodup_map hnd hq hp (hqn.trans hn)
    exact hle
  · exact absurd hn.symm (hnew p hp)

/-- An advertisement replaces all paths of an entry, or leaves all of them. -/
theorem learn_prolongs (env : Env) (a : Agent) (A : Advert) (e : RtEntry) :
    e.Prolongs (e.learn env a A) ∨
      (e.learn env a A).pathsDeleted = e.pathsDeleted + e.rtPathList.length := by
  unfold learn
  split
  · exact .inr rfl
  · left
    split
    · next hadm =>
      intro p' hp'
      rcases List.mem_append.mp hp' with hp' | hp'
      · exact .inl ⟨p', hp', rfl, le_rfl⟩
      · refine .inr fun p hp hn => ?_
        have hnot := List.all_eq_true.mp hadm.2.2.1 p hp
        rw [hn, List.mem_singleton.mp hp'] at hnot
        simp at hnot
    · split
      · intro p' hp'
        obtain ⟨p, hp, hn, rfl | heq⟩ := mem_raiseExpire hp'
        · exact .inl ⟨p', hp, rfl, le_rfl⟩
        · refine .inl ⟨p, hp, hn, ?_⟩
          rw [heq, macroMax]
          split <;> grind
      · exact fun p' hp' => .inl ⟨p', hp', rfl, le_rfl⟩

theorem until_learn (he : e.Until (env.now + activeRouteTimeout))
    (hA : A.life ≤ activeRouteTimeout) :
    (e.learn env a A).Until (env.now + activeRouteTimeout) := by
  have hlife : env.now + A.life ≤ env.now + activeRouteTimeout := add_le_add_right hA _
  unfold learn
  split
  · exact until_renew hlife
  · split
    · exact until_addPath he hlife
    · split
      · exact until_refreshPath he hlife
      · exact he

end RtEntry

/-- All paths were there before, and have at most been used since. -/
def World.Sheds (now : Time) (w w' : World) : Prop :=
  ∀ d e', w'.rtLookup d = some e' → ∀ p' ∈ e'.rtPathList,
    ∃ e, w.rtLookup d = some e ∧ ∃ p ∈ e.rtPathList, p.Kept now p'

namespace World

variable {env : Env} {now : Time} {w w' w'' : World} {d : NsAddr}

theorem Sheds.refl (w : World) : w.Sheds now w :=
  fun _ e' he' p' hp' => ⟨e', he', p', hp', .inl rfl⟩

theorem Sheds.trans (h : w.Sheds now w') (h' : w'.Sheds now w'') : w.Sheds now w'' := by
  intro d e'' he'' p'' hp''
  obtain ⟨e', he', p', hp', hk'⟩ := h' d e'' he'' p'' hp''
  obtain ⟨e, he, p, hp, hk⟩ := h d e' he' p' hp'
  exact ⟨e, he, p, hp, hk.trans hk'⟩

theorem Sheds.of_rtable (h : w'.rtable = w.rtable) : w.Sheds now w' := by
  intro d e' he' p' hp'
  rw [World.rtLookup, h] at he'
  exact ⟨e', he', p', hp', .inl rfl⟩

theorem Deeds.sheds (h : w.Deeds (RtEntry.Loss now) w') : w.Sheds now w' := by
  intro d e' he' p' hp'
  cases hl : w.rtLookup d with
  | none => cases (h.missing d hl).symm.trans he'
  | some e =>
    obtain ⟨f, hf, hloss⟩ := h.entry d e hl
    obtain rfl := Option.some.inj (hf.symm.trans he')
    exact ⟨e, rfl, hloss.paths p' hp'⟩

/-- Writing an entry whose paths were there before. -/
theorem sheds_store {e f : RtEntry} (he : w.rtLookup d = some e) (hd : f.rtDst = e.rtDst)
    (h : ∀ p' ∈ f.rtPathList, ∃ p ∈ e.rtPathList, p.Kept now p') : w.Sheds now (w.store f) := by
  intro d' e' he' p' hp'
  have hdst := hd.trans (w.rtDst_of_rtLookup he)
  by_cases hd' : d' = d
  · subst hd'
    rw [rtLookup_store_self he hdst] at he'
    obtain rfl := Option.some.inj he'
    exact ⟨e, he, h p' hp'⟩
  · rw [rtLookup_store_ne (by rwa [hdst])] at he'
    exact ⟨e', he', p', hp', .inl rfl⟩

theorem sheds_rtEnsure (h : w.rtEnsure env d = .ok w') : w.Sheds now w' := by
  obtain ⟨hself, -, hother⟩ := rtEnsure_ok h
  intro d' e' he' p' hp'
  by_cases hd : d' = d
  · subst hd
    obtain rfl := Option.some.inj (hself.symm.trans he')
    unfold entryFor at hp'
    cases hl : w.rtLookup d' with
    | none =>
      rw [hl] at hp'
      exact absurd hp' List.not_mem_nil
    | some e =>
      rw [hl] at hp'
      exact ⟨e, rfl, p', hp', .inl rfl⟩
  · rw [hother d' hd] at he'
    exact ⟨e', he', p', hp', .inl rfl⟩

end World

section Events

variable {env : Env} {w w' : World} {inp : Input}

theorem Asked.sheds {dst : NsAddr} (h : Asked env dst w w') : w.Sheds env.now w' := by
  cases h with
  | up => exact .refl w
  | early => exact .refl w
  | @hold e w' he _ _ _ h =>
    have hstore : w.Sheds env.now
        (w.store { e with rtReqTimeout := env.now + maxRreqTimeout, rtReqCnt := 0 }) :=
      World.sheds_store he rfl fun p' hp' => ⟨p', hp', .inl rfl⟩
    exact hstore.trans (deeds_dropBuffered h).loss.sheds
  | @send e he =>
    have hstore : w.Sheds env.now (w.store (e.requested env.now)) :=
      World.sheds_store he rfl fun p' hp' => ⟨p', hp', .inl rfl⟩
    exact hstore.trans (.of_rtable rfl)

theorem PurgedEntry.sheds {dst : NsAddr} {s s' : World × Time} (h : PurgedEntry env dst s s') :
    s.1.Sheds env.now s'.1 := by
  cases h with
  | @expire e v he _ hv e' hl h =>
    have hdst : e'.rtDst = dst := hl.rtDst.trans (s.1.rtDst_of_rtLookup he)
    obtain ⟨f, hf, -⟩ := hv.entry dst e he
    rw [h]
    intro d x hx p' hp'
    by_cases hd : d = dst
    · subst hd
      rw [World.rtLookup_store_self hf hdst] at hx
      obtain rfl := Option.some.inj hx
      exact ⟨e, he, hl.paths p' hp'⟩
    · rw [World.rtLookup_store_ne (by rwa [hdst])] at hx
      exact hv.loss.sheds d x hx p' hp'
  | forward _ _ h => exact h.loss.sheds
  | ask _ _ _ h => exact h.sheds
  | pass _ h =>
    rw [h]
    exact .refl s.1

theorem sheds_rtPurge (h : rtPurge env w = .ok w') : w.Sheds env.now w' := by
  unfold rtPurge at h
  obtain ⟨⟨v, delay⟩, hv, h⟩ := of_bind_ok h
  obtain rfl := Except.ok.inj h
  exact foldlM_ok (J := fun s => w.Sheds env.now s.1)
    (fun s _ _ _ hs hd => hs.trans (rtPurgeEntry_ok hd).sheds) (.refl w) hv

theorem sheds_rtResolve {q : AppPacket} (h : rtResolve env q w = .ok w') :
    w.Sheds env.now w' := by
  obtain ⟨v, hv, hres⟩ := rtResolve_resolved h
  refine (World.sheds_rtEnsure hv).trans ?_
  have hq : v.Sheds env.now (v.enque env q) := .of_rtable rfl
  cases hres with
  | forward _ h => exact h.loss.sheds
  | ask _ _ _ h => exact hq.trans h.sheds
  | wait => exact hq

/-- Where all paths were there before, none is shortened. -/
theorem World.Sheds.prolongs {d : NsAddr} {e e' : RtEntry} (h : w.Sheds env.now w')
    (hw : w.Lasting env.now) (he : w.rtLookup d = some e) (he' : w'.rtLookup d = some e') :
    e.Prolongs e' := by
  intro p' hp'
  obtain ⟨f, hf, p, hp, hk⟩ := h d e' he' p' hp'
  obtain rfl := Option.some.inj (he.symm.trans hf)
  exact .inl ⟨p, hp, hk.nexthop.symm, hk.expire_le (hw.lookup he p hp)⟩

/-- After an advertisement the paths have at most been used. -/
theorem Advised.prolongs {A : Advert} {d : NsAddr} {e e' : RtEntry} (h : Advised env A w w')
    (hw : w.Lasting env.now) (hA : A.life ≤ activeRouteTimeout) (he : w.rtLookup d = some e)
    (he' : w'.rtLookup d = some e') :
    e.Prolongs e' ∨ e'.pathsDeleted = e.pathsDeleted + e.rtPathList.length := by
  obtain ⟨u, hu, hused⟩ := h.used
  have hused : ∀ f, u.rtLookup d = some f → e'.pathsDeleted = f.pathsDeleted ∧
      ∀ p' ∈ e'.rtPathList, ∃ p ∈ f.rtPathList, p.Kept env.now p' := by
    intro f hf
    obtain ⟨x, hx, hdel, hpaths⟩ := hused d f hf
    obtain rfl := Option.some.inj (hx.symm.trans he')
    exact ⟨hdel, fun p' hp' => exists_of_forall₂ hpaths hp'⟩
  by_cases hd : d = A.dst
  · subst hd
    have hself := hu.self
    rw [World.entryFor, he, Option.getD_some] at hself
    obtain ⟨hdel, hpaths⟩ := hused _ hself
    rcases RtEntry.learn_prolongs env w.toAgent A e with hlearn | hall
    · exact .inl (hlearn.used hpaths (RtEntry.until_learn (hw.lookup he) hA))
    · exact .inr (hdel.trans hall)
  · obtain ⟨-, hpaths⟩ := hused e ((hu.other d hd).trans he)
    exact .inl ((RtEntry.Prolongs.refl e).used hpaths (hw.lookup he))

/-- In one event a path is shortened only if all paths of its entry are deleted. -/
theorem handle_prolongs {d : NsAddr} {e e' : RtEntry} (h : handle env inp w = .ok w')
    (hw : w.Lasting env.now) (hb : HearsBrief inp) (he : w.rtLookup d = some e)
    (he' : w'.rtLookup d = some e') :
    e.Prolongs e' ∨ e'.pathsDeleted = e.pathsDeleted + e.rtPathList.length := by
  cases handle_happens h with
  | @hears A hA =>
    obtain ⟨hown, hother⟩ := handle_advised h hA
    by_cases hd : A.dst = w.index
    · exact .inl ((hown hd).loss.sheds.prolongs hw he he')
    · exact (hother hd).prolongs hw (hb _ A hA) he he'
  | resolve _ h => exact .inl ((sheds_rtResolve h).prolongs hw he he')
  | purge _ h => exact .inl ((sheds_rtPurge h).prolongs hw he he')
  | loss _ _ _ h => exact .inl (h.sheds.prolongs hw he he')

end Events

end Eamrp
