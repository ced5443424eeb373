import Eamrp.Abs.Deeds

/-!
# Where `rt_resolve` and `sendRequest` are called

`recv` hands packets of other protocols to `rt_resolve`, and `rt_purge` comes to the entries of
the table one after the other. Both call `sendRequest` for a destination whose route is not up,
and `sendRequest` waits, sends a RREQ or gives up for a while.
-/

namespace Eamrp

open Lib

/-- The packet that `recv` hands to `rt_resolve`, lines 623–661. -/
def AppPacket.toResolve (i : NsAddr) (p : AppPacket) : Option AppPacket :=
  if p.val.ih.daddr = ipBroadcast then none
  else if p.val.ih.saddr = i then
    if p.val.ch.numForwards = 0 then
      some ((p.withCmn { p.val.ch with eamrpSalvageCount := 0 }).withIp
        { p.val.ih with ttl := networkDiameter })
    else none
  else if p.val.ih.ttl - 1 = 0 then none
  else some (p.withIp { p.val.ih with ttl := p.val.ih.ttl - 1 })

/-- The input makes node `i` hand `q` to `rt_resolve`. -/
def Resolves (i : NsAddr) (inp : Input) (q : AppPacket) : Prop :=
  ∃ p : AppPacket, inp = .recv p.val ∧ p.toResolve i = some q

/-- `rt_purge` comes to the entry for `d` in the state `s`. -/
def PurgeTurn (env : Env) (w : World) (d : NsAddr) (s : World × Time) : Prop :=
  ∃ l l', w.rtable.map RtEntry.rtDst = l ++ d :: l' ∧
    l.foldlM (rtPurgeEntry env) (w, 0) = .ok s

/-- `sendRequest` is called for `d` in the state `v`. -/
inductive Calls (env : Env) (w : World) (inp : Input) (d : NsAddr) : World → Prop where
  /-- Line 517, for a packet of the node's own. -/
  | resolve {q : AppPacket} {v : World} {e : RtEntry} (hq : Resolves w.index inp q)
      (hd : q.val.ih.daddr = d) (hs : q.val.ih.saddr = w.index) (hv : w.rtEnsure env d = .ok v)
      (he : v.rtLookup d = some e) (hdown : e.rtFlags ≠ .up) : Calls env w inp d (v.enque env q)
  /-- Line 598, for a destination with a packet in the send buffer. -/
  | purge {s : World × Time} {e : RtEntry} (hin : inp = .routeCacheTimer)
      (hs : PurgeTurn env w d s) (he : s.1.rtLookup d = some e) (hdown : e.rtFlags ≠ .up)
      (hf : s.1.rqueue.find d = true) : Calls env w inp d s.1

/-- The agent after `sendRequest` has sent a RREQ, lines 1378–1453. -/
def World.request (env : Env) (e : RtEntry) (w : World) : World :=
  let v : World := { w.store (e.requested env.now) with bid := w.bid + 1 }
  (v.setSeqno (w.seqno.toNat + 2)).send
    (requestPacket w.index (requestTtl e).1 w.bid.toUInt32 e.rtDst e.rtSeqno
      (UInt32.ofNat (w.seqno.toNat + 2)) env.now) 0

/-- What `sendRequest` has done for `dst` when it returns, lines 1342–1453. -/
inductive Asked (env : Env) (dst : NsAddr) (w : World) : World → Prop where
  | up {e : RtEntry} (he : w.rtLookup dst = some e) (hup : e.rtFlags = .up) : Asked env dst w w
  | early {e : RtEntry} (he : w.rtLookup dst = some e) (hdown : e.rtFlags ≠ .up)
      (ht : env.now < e.rtReqTimeout) : Asked env dst w w
  | hold {e : RtEntry} {w' : World} (he : w.rtLookup dst = some e) (hdown : e.rtFlags ≠ .up)
      (ht : e.rtReqTimeout ≤ env.now) (hc : rreqRetries < e.rtReqCnt)
      (h : dropBuffered env dst .noRoute
        (w.store { e with rtReqTimeout := env.now + maxRreqTimeout, rtReqCnt := 0 }) = .ok w') :
      Asked env dst w w'
  | send {e : RtEntry} (he : w.rtLookup dst = some e) (hdown : e.rtFlags ≠ .up)
      (ht : e.rtReqTimeout ≤ env.now) (hc : ¬ rreqRetries < e.rtReqCnt) :
      Asked env dst w (w.request env e)

theorem sendRequest_asked {env : Env} {dst : NsAddr} {w w' : World}
    (h : sendRequest env dst w = .ok w') : Asked env dst w w' := by
  unfold sendRequest at h
  split at h
  · cases h
  · next e he =>
    split at h
    · next hup =>
      split at h
      · cases h
      · exact Except.ok.inj h ▸ .up he hup
    · next hdown =>
      split at h
      · next ht => exact Except.ok.inj h ▸ .early he hdown ht
      · next ht =>
        split at h
        · next hc => exact .hold he hdown (not_lt.mp ht) hc h
        · next hc =>
          dsimp only at h
          split at h
          · cases h
          · obtain rfl := Except.ok.inj h
            have hd := w.rtDst_of_rtLookup he
            subst hd
            exact .send he hdown (not_lt.mp ht) hc

section Receive

variable {env : Env} {w : World} {p q : AppPacket}

theorem recvApp_of_toResolve (h : p.toResolve w.index = some q) :
    recvApp env p w = rtResolve env q w := by
  unfold AppPacket.toResolve at h
  unfold recvApp
  split at h
  · cases h
  · next hb =>
    split at h
    · next hs =>
      split at h
      · next hn =>
        obtain rfl := Option.some.inj h
        rw [if_pos ⟨hs, hn⟩]
        have hb' : (p.withCmn { p.val.ch with eamrpSalvageCount := 0 }).val.ih.daddr ≠
            ipBroadcast := hb
        dsimp only
        rw [if_pos hb']
        exact if_pos hb
      · cases h
    · next hs =>
      split at h
      · cases h
      · next httl =>
        obtain rfl := Option.some.inj h
        rw [if_neg fun hc => hs hc.1, if_neg hs]
        exact (if_neg httl).trans (if_pos hb)

/-- A packet that is not handed to `rt_resolve` is dropped or broadcast. -/
theorem recvApp_of_none (h : p.toResolve w.index = none) :
    (∃ (x : Packet) (reason : DropReason), recvApp env p w = .ok (w.drop x reason)) ∨
      ∃ x : AppPacket, recvApp env p w = forward env none x.val noEamrpDelay w := by
  unfold AppPacket.toResolve at h
  unfold recvApp
  dsimp only
  split at h
  · next hb =>
    split
    · have hb' : (p.withCmn { p.val.ch with eamrpSalvageCount := 0 }).val.ih.daddr =
          ipBroadcast := hb
      rw [if_neg (not_not.mpr hb'), if_neg (not_not.mpr hb')]
      exact .inr ⟨_, rfl⟩
    · split
      · exact .inl ⟨_, _, rfl⟩
      · split
        · exact .inl ⟨_, _, rfl⟩
        · have hb' : (p.withIp { p.val.ih with ttl := p.val.ih.ttl - 1 }).val.ih.daddr =
              ipBroadcast := hb
          rw [if_neg (not_not.mpr hb')]
          exact .inr ⟨_, rfl⟩
  · split at h
    · next hs =>
      split at h
      · cases h
      · next hn =>
        rw [if_neg fun hc => hn hc.2, if_pos hs]
        exact .inl ⟨_, _, rfl⟩
    · next hs =>
      split at h
      · next httl =>
        have httl' : (p.withIp { p.val.ih with ttl := p.val.ih.ttl - 1 }).val.ih.ttl = 0 := httl
        rw [if_neg fun hc => hs hc.1, if_neg hs, if_pos httl']
        exact .inl ⟨_, _, rfl⟩
      · cases h

/-- A packet of the node's own that reaches `rt_resolve` has not been forwarded before. -/
theorem Resolves.numForwards {i : NsAddr} {inp : Input} (h : Resolves i inp q)
    (hs : q.val.ih.saddr = i) : q.val.ch.numForwards = 0 := by
  obtain ⟨p, -, hp⟩ := h
  unfold AppPacket.toResolve at hp
  split at hp
  · cases hp
  · split at hp
    · split at hp
      · next hn =>
        obtain rfl := Option.some.inj hp
        exact hn
      · cases hp
    · next hne =>
      split at hp
      · cases hp
      · obtain rfl := Option.some.inj hp
        exact absurd hs hne

/-- What `recv` does with a packet that it hands to `rt_resolve`. -/
theorem handle_of_resolves {inp : Input} (h : Resolves w.index inp q) :
    handle env inp w = rtResolve env q w := by
  obtain ⟨p, rfl, hp⟩ := h
  rw [← recvApp_of_toResolve hp]
  exact dif_pos p.2

end Receive

section Purge

variable {env : Env} {w : World} {d : NsAddr} {s : World × Time}

/-- The loop of `rt_purge` after it has come to an entry. -/
theorem PurgeTurn.split (h : PurgeTurn env w d s) :
    ∃ l' : List NsAddr, (w.rtable.map RtEntry.rtDst).foldlM (rtPurgeEntry env) (w, 0) =
      (rtPurgeEntry env s d >>= fun s => l'.foldlM (rtPurgeEntry env) s) := by
  obtain ⟨l, l', hl, hs⟩ := h
  refine ⟨l', ?_⟩
  rw [hl, List.foldlM_append, hs, ok_bind, List.foldlM_cons]

theorem PurgeTurn.mem (h : PurgeTurn env w d s) : ∃ e, w.rtLookup d = some e := by
  obtain ⟨l, l', hl, -⟩ := h
  have hmem : d ∈ w.rtable.map RtEntry.rtDst := by
    rw [hl]
    simp
  obtain ⟨e, he, hd⟩ := List.mem_map.mp hmem
  apply Option.isSome_iff_exists.mp
  exact List.find?_isSome.mpr ⟨e, he, by simp [hd]⟩

/-- `rt_purge` comes to an entry once. -/
theorem PurgeTurn.unique {s' : World × Time} (h : PurgeTurn env w d s)
    (h' : PurgeTurn env w d s') (hnd : (w.rtable.map RtEntry.rtDst).Nodup) : s = s' := by
  obtain ⟨l, m, hl, hs⟩ := h
  obtain ⟨l', m', hl', hs'⟩ := h'
  obtain ⟨-, hright, hdisj⟩ := List.nodup_append.mp (hl ▸ hnd)
  have hleft : d ∉ l := fun hd => hdisj d hd d List.mem_cons_self rfl
  obtain ⟨rfl, -⟩ := (List.append_cons_inj_of_notMem hleft (List.nodup_cons.mp hright).1).mp
    (hl.symm.trans hl')
  exact Except.ok.inj (hs.symm.trans hs')

/-- A fault at an entry stops `rt_purge`. -/
theorem PurgeTurn.error (h : PurgeTurn env w d s) {f : Fault}
    (hf : rtPurgeEntry env s d = .error f) : rtPurge env w = .error f := by
  obtain ⟨l', hl⟩ := h.split
  unfold rtPurge
  rw [hl, hf]
  rfl

end Purge

/-! ### Events -/

section Events

variable {env : Env} {w w' : World} {inp : Input}

/-- An event in which `sendRequest` is called brings a packet of another protocol, or is the
purge of the table. -/
theorem Calls.input {d : NsAddr} {v : World} (h : Calls env w inp d v) :
    (∃ q, Resolves w.index inp q) ∨ inp = .routeCacheTimer := by
  cases h with
  | resolve hq => exact .inl ⟨_, hq⟩
  | purge hin => exact .inr hin

/-- An advertisement comes in a routing packet. -/
theorem Hears.isEamrp {A : Advert} {i : NsAddr} {q : Packet} (hA : Hears (.recv q) i A) :
    ¬ q.isEamrp = false := by
  intro happ
  obtain ⟨x, hx, hadv⟩ := hA
  obtain rfl := Input.recv.inj hx
  unfold Packet.isEamrp at happ
  unfold Packet.advert at hadv
  split at hadv <;> simp_all

theorem Hears.not_resolves {A : Advert} {i : NsAddr} {q : AppPacket} (hA : Hears inp i A) :
    ¬ Resolves i inp q := by
  rintro ⟨p, rfl, -⟩
  exact hA.isEamrp p.2

theorem deeds_recvApp_of_none {p : AppPacket} (hn : p.toResolve w.index = none)
    (h : recvApp env p w = .ok w') : w.Deeds (RtEntry.Use env.now) w' := by
  rcases recvApp_of_none hn with ⟨x, reason, hdrop⟩ | ⟨x, hfwd⟩
  · obtain rfl := Except.ok.inj (hdrop.symm.trans h)
    exact .drop w x reason
  · exact (forward_ok (hfwd.symm.trans h)).deeds (noRequest_of_app x.2)

/-- What an event is: an advertisement, a packet for `rt_resolve`, the purge of the table, or one
in which routes are lost at most. -/
inductive Happens (env : Env) (w : World) (inp : Input) (w' : World) : Prop where
  | hears {A : Advert} (hA : Hears inp w.index A) : Happens env w inp w'
  | resolve {q : AppPacket} (hq : Resolves w.index inp q) (h : rtResolve env q w = .ok w') :
      Happens env w inp w'
  | purge (hin : inp = .routeCacheTimer) (h : rtPurge env w = .ok w') : Happens env w inp w'
  | loss (hA : ∀ A, ¬ Hears inp w.index A) (hq : ∀ q, ¬ Resolves w.index inp q)
      (hin : inp ≠ .routeCacheTimer) (h : w.Deeds (RtEntry.Loss env.now) w') :
      Happens env w inp w'

theorem handle_happens (h : handle env inp w = .ok w') : Happens env w inp w' := by
  have hnot : (∀ p, inp ≠ .recv p) → (∀ A, ¬ Hears inp w.index A) ∧
      ∀ q, ¬ Resolves w.index inp q :=
    fun hne => ⟨fun _ ⟨p, hp, _⟩ => hne p hp, fun _ ⟨p, hp, _⟩ => hne p.val hp⟩
  cases inp with
  | recv q =>
    change recv env q w = .ok w' at h
    unfold recv at h
    split at h
    · next happ =>
      cases hr : AppPacket.toResolve w.index ⟨q, happ⟩ with
      | some x =>
        rw [recvApp_of_toResolve hr] at h
        exact .resolve ⟨⟨q, happ⟩, rfl, hr⟩ h
      | none =>
        refine .loss ?_ ?_ (fun hc => by cases hc) (deeds_recvApp_of_none hr h).loss
        · exact fun A hA => hA.isEamrp happ
        · rintro x ⟨p, hp, hx⟩
          obtain rfl : q = p.val := Input.recv.inj hp
          cases hr.symm.trans hx
    · next hE =>
      unfold recvEamrp at h
      split at h
      · cases h
      · have hq : ∀ x, ¬ Resolves w.index (.recv q) x := by
          rintro x ⟨p, hp, -⟩
          obtain rfl : q = p.val := Input.recv.inj hp
          exact hE p.2
        split at h
        · next hb => exact .hears ⟨q, rfl, by unfold Packet.advert; rw [hb]⟩
        · next hb => exact .hears ⟨q, rfl, by unfold Packet.advert; rw [hb]⟩
        · next hb =>
          refine .loss ?_ hq (fun hc => by cases hc) (deeds_recvError h)
          rintro A ⟨p, hp, hadv⟩
          obtain rfl : q = p := Input.recv.inj hp
          unfold Packet.advert at hadv
          simp only at hb
          rw [hb] at hadv
          cases hadv
        · next hb => exact .hears ⟨q, rfl, by unfold Packet.advert; rw [hb]⟩
        · cases h
        · cases h
  | rtLlFailed q =>
    obtain ⟨hA, hq⟩ := hnot fun p hp => by cases hp
    exact .loss hA hq (fun hc => by cases hc) (Except.ok.inj h ▸ .drop w _ _)
  | broadcastTimer =>
    obtain ⟨hA, hq⟩ := hnot fun p hp => by cases hp
    refine .loss hA hq (fun hc => by cases hc) (Except.ok.inj h ▸ ?_)
    exact .of_rtable rfl rfl rfl rfl (fun hs => ⟨hs, UInt32.le_refl _⟩) (List.Sublist.refl _)
      ⟨[], (List.append_nil _).symm, fun _ hx => absurd hx List.not_mem_nil⟩
  | helloTimer =>
    obtain ⟨hA, hq⟩ := hnot fun p hp => by cases hp
    refine .loss hA hq (fun hc => by cases hc) ?_
    obtain rfl := Except.ok.inj h
    split
    · exact .send w (fun _ hb => by cases hb) 0
    · exact .refl w
  | neighborTimer =>
    obtain ⟨hA, hq⟩ := hnot fun p hp => by cases hp
    exact .loss hA hq (fun hc => by cases hc) (deeds_nbPurge h)
  | routeCacheTimer => exact .purge rfl h
  | ifqueue q =>
    obtain ⟨hA, hq⟩ := hnot fun p hp => by cases hp
    refine .loss hA hq (fun hc => by cases hc) (Except.ok.inj h ▸ ?_)
    exact .of_routing ⟨rfl, rfl, rfl, rfl, rfl, rfl, rfl, rfl⟩ (List.Sublist.refl _) rfl

end Events

end Eamrp
