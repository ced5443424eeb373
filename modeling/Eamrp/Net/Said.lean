import Eamrp.Abs.Protocol

/-!
# What is said and what is heard

Where advertisements and error numbers come from, in terms of the protocol state: the two
ways in which a node comes to say an advertisement, and the packet in flight behind
everything that a handler hears.
-/

namespace Eamrp

namespace Proto

variable {σ : Proto} {i : NsAddr} {env : Env} {heard : Input} {w : World}

/-- A packet in flight tells node `i` this. -/
def Tells (σ : Proto) (i : NsAddr) (A : Advert) : Prop :=
  ∃ p ∈ σ.flight, Net.Addressed p i ∧ p.advert i = some A

/-- A RERR in flight, from `x`, lists `d` with number `n`. -/
def TellsError (σ : Proto) (x d : NsAddr) (n : UInt32) : Prop :=
  ∃ p ∈ σ.flight, ∃ re, p.body = .rerr re ∧ p.ih.saddr = x ∧ (d, n) ∈ re

/-- A RREQ in flight. -/
def TellsRequest (σ : Proto) (rq : HdrRequest) : Prop := ∃ p ∈ σ.flight, p.body = .rreq rq

theorem Feeds.tells {A : Advert} (hf : σ.Feeds i heard) (h : Hears heard i A) :
    σ.Tells i A := by
  obtain ⟨q, hq, hA⟩ := h
  have hE : q.isEamrp = true := by
    cases hb : q.body <;> simp_all [Packet.advert, Packet.isEamrp]
  obtain ⟨p, hp, ha, hb, hs, -⟩ := hf q hq hE
  exact ⟨p, hp, ha, by rw [← hA]; simp only [Packet.advert, hb, hs]⟩

theorem Feeds.tellsError {x d : NsAddr} {n : UInt32} (hf : σ.Feeds i heard)
    (h : HearsError heard x d n) : σ.TellsError x d n := by
  obtain ⟨q, re, hq, hb, hs, hm⟩ := h
  obtain ⟨p, hp, -, hb', hs', -⟩ := hf q hq (by simp [Packet.isEamrp, hb])
  exact ⟨p, hp, re, hb'.trans hb, hs'.trans hs, hm⟩

theorem Feeds.tellsRequest {rq : HdrRequest} (hf : σ.Feeds i heard)
    (h : HearsRequest heard rq) : σ.TellsRequest rq := by
  obtain ⟨q, hq, hb⟩ := h
  obtain ⟨p, hp, -, hb', -, -⟩ := hf q hq (by simp [Packet.isEamrp, hb])
  exact ⟨p, hp, hb'.trans hb⟩

/-- A node advertises itself: with its own number and hop count 0, and the receiver takes
itself for the first hop of the path. -/
structure OwnAdvert (σ : Proto) (i j : NsAddr) (p : Packet) (A : Advert) : Prop where
  dst : A.dst = i
  via : A.via = i
  seqno : A.seqno = σ.seqno i
  hops : A.hops = 0
  first : Net.Addressed p j → A.first = j

/-- A node advertises a destination it has a route for. -/
structure RouteAdvert (inf : Infinity) (σ : Proto) (i : NsAddr) (A : Advert) (r : Route)
    (ℓ : Leg) : Prop where
  dst : A.dst ≠ i
  via : A.via = i
  route : σ.route i A.dst = some r
  up : r.up = true
  frozen : r.freeze inf = r
  head : r.legs.head? = some ℓ
  seqno : A.seqno = r.seqno
  hops : A.hops = r.adv.toUInt8
  first : A.hops ≠ 0 → A.first = ℓ.lasthop

/-- The route of an entry that a node advertises. -/
theorem Shows.advertises {inf : Infinity} {e : RtEntry} {path : Path} (hw : σ.Shows i w)
    (h : Advertises inf w e path) :
    e.rtDst ≠ i ∧ σ.route i e.rtDst = some e.route ∧ e.route.up = true ∧
      e.route.freeze inf = e.route ∧ e.route.legs.head? = some path.leg := by
  refine ⟨hw.index ▸ h.notSelf, ?_, by simp [RtEntry.route, h.up], ?_, ?_⟩
  · rw [← hw.route, h.lookup]
    rfl
  · rw [← RtEntry.route_advertise, h.frozen]
  · have := h.first
    simp only [RtEntry.pathFind] at this
    simp [RtEntry.route, this]

/-- A node that says an advertisement advertises itself or a route of its own. -/
theorem Shows.origin {p : Packet} {j : NsAddr} {A : Advert} (hw : σ.Shows i w)
    (h : Speaks env heard w p) (hA : p.advert j = some A) :
    OwnAdvert σ i j p A ∨ ∃ r ℓ, RouteAdvert env.inf σ i A r ℓ := by
  cases h with
  | app h => cases hb : p.body <;> simp_all [Packet.advert, Packet.isEamrp]
  | request hq h hdown =>
    obtain rfl : _ = A := by simpa [Packet.advert, requestPacket] using hA
    exact .inl ⟨hw.index, hw.index, hw.seqno, rfl, fun _ => rfl⟩
  | @relay q rq e path n ch hq hb ha hd hs hdst hn hn' =>
    obtain rfl : _ = A := by simpa [Packet.advert] using hA
    obtain ⟨hne, hr, hup, hfr, hhd⟩ := hw.advertises ha
    refine .inr ⟨e.route, path.leg, ⟨hd ▸ hne, hw.index, ?_, hup, hfr, hhd, hs.symm, rfl, ?_⟩⟩
    · exact hd ▸ hr
    · intro h0
      exact if_neg h0
  | @answer q _ rq rp hq hb hdst hp hs hnh hat hda hrp =>
    subst hrp
    obtain rfl : _ = A := by simpa [Packet.advert, hp] using hA
    refine .inl ⟨hw.index, hw.index, hw.seqno, rfl, fun h => ?_⟩
    rcases h with h | h
    · rw [hat] at h
      cases h
    · exact hnh.symm.trans h
  | @answerFrom q _ rq rp e path hq hb ha hd hev hs hp hda hrp =>
    subst hrp
    obtain rfl : _ = A := by simpa [Packet.advert, hp] using hA
    obtain ⟨hne, hr, hup, hfr, hhd⟩ := hw.advertises ha
    exact .inr ⟨e.route, path.leg, ⟨hne, hw.index, hr, hup, hfr, hhd, rfl, rfl, fun _ => rfl⟩⟩
  | @forwardReply q _ rp e path hq hb ha hd hs hp =>
    obtain rfl : _ = A := by simpa [Packet.advert, hp] using hA
    obtain ⟨hne, hr, hup, hfr, hhd⟩ := hw.advertises ha
    refine .inr ⟨e.route, path.leg, ⟨hd ▸ hne, hw.index, ?_, hup, hfr, hhd, hs.symm, rfl,
      fun _ => rfl⟩⟩
    exact hd ▸ hr
  | rerr hp => simp [Packet.advert, hp] at hA
  | @hello _ rp hp hsa hrp =>
    subst hrp
    obtain rfl : _ = A := by simpa [Packet.advert, hp] using hA
    exact .inl ⟨hw.index, hsa.trans hw.index, hw.seqno, rfl, fun _ => rfl⟩

/-- A number that a node says in a RERR is that of a route which is down. -/
theorem Shows.error {p : Packet} {re : HdrError} {d : NsAddr} {n : UInt32} (hw : σ.Shows i w)
    (h : Speaks env heard w p) (hb : p.body = .rerr re) (hu : (d, n) ∈ re) :
    ∃ r, σ.route i d = some r ∧ r.up = false ∧ r.seqno = n := by
  cases h with
  | app h => simp [Packet.isEamrp, hb] at h
  | @rerr _ re' hp hsa hre =>
    obtain rfl : re' = re := by rw [hp] at hb; exact Body.rerr.inj hb
    obtain ⟨e, he, hdown, hs⟩ := hre _ hu
    refine ⟨e.route, ?_, by simp [RtEntry.route, hdown], hs⟩
    rw [← hw.route, he]
    rfl
  | request => cases hb
  | relay => cases hb
  | answer _ _ _ hp => rw [hp] at hb; cases hb
  | answerFrom _ _ _ _ _ _ hp => rw [hp] at hb; cases hb
  | forwardReply _ _ _ _ _ hp => rw [hp] at hb; cases hb
  | hello hp => rw [hp] at hb; cases hb

/-- The number that a RREQ asks for is that of the sender's own route, or was asked for by
the RREQ it repeats. -/
theorem Shows.request {p : Packet} {rq : HdrRequest} (hw : σ.Shows i w)
    (h : Speaks env heard w p) (hb : p.body = .rreq rq) :
    (∃ r, σ.route i rq.rqDst = some r ∧ rq.rqDstSeqno = r.seqno) ∨
      ∃ rq', HearsRequest heard rq' ∧ rq'.rqDst = rq.rqDst ∧ rq.rqDstSeqno = rq'.rqDstSeqno := by
  cases h with
  | app h => simp [Packet.isEamrp, hb] at h
  | @request ttl bid now e hq h hdown =>
    obtain rfl : _ = rq := by simpa [requestPacket] using hb
    refine .inl ⟨e.route, ?_, rfl⟩
    rw [← hw.route, h]
    rfl
  | @relay q rq' e path n ch hq hb' ha hd hs hdst hn hn' =>
    obtain rfl : _ = rq := by simpa using hb
    rcases hn' with rfl | ⟨f, hf, rfl⟩
    · exact .inr ⟨rq', ⟨q, hq, hb'⟩, rfl, rfl⟩
    · refine .inl ⟨f.route, ?_, rfl⟩
      rw [← hw.route, hf]
      rfl
  | rerr hp => rw [hp] at hb; cases hb
  | answer _ _ _ hp => rw [hp] at hb; cases hb
  | answerFrom _ _ _ _ _ _ hp => rw [hp] at hb; cases hb
  | forwardReply _ _ _ _ _ hp => rw [hp] at hb; cases hb
  | hello hp => rw [hp] at hb; cases hb

/-! ### How the protocol state grows -/

theorem route_setRoute (σ : Proto) (i d : NsAddr) (r : Route) (j x : NsAddr) :
    (σ.setRoute i d r).route j x = if j = i ∧ x = d then some r else σ.route j x := rfl

/-- Where a route comes from. -/
theorem Act.route_cases {σ' : Proto} (h : Act i env heard σ σ') {j d : NsAddr} {r : Route}
    (hr : σ'.route j d = some r) :
    σ.route j d = some r ∨ j = i ∧
      (σ.route i d = none ∧ r = .fresh ∨
        ∃ r₀, σ.route i d = some r₀ ∧ RouteStep env.inf i d heard r₀ r) := by
  cases h with
  | @route x r₀ r₁ hr₀ hs =>
    rw [route_setRoute] at hr
    split at hr
    · next hjd =>
      obtain ⟨rfl, rfl⟩ := hjd
      obtain rfl := Option.some.inj hr
      exact .inr ⟨rfl, .inr ⟨r₀, hr₀, hs⟩⟩
    · exact .inl hr
  | @create x hx =>
    rw [route_setRoute] at hr
    split at hr
    · next hjd =>
      obtain ⟨rfl, rfl⟩ := hjd
      exact .inr ⟨rfl, .inl ⟨hx, (Option.some.inj hr).symm⟩⟩
    · exact .inl hr
  | own => exact .inl hr
  | say => exact .inl hr

/-- What becomes of a route. -/
theorem Act.route_some {σ' : Proto} (h : Act i env heard σ σ') {j d : NsAddr} {r : Route}
    (hr : σ.route j d = some r) :
    ∃ r', σ'.route j d = some r' ∧
      (r' = r ∨ j = i ∧ RouteStep env.inf i d heard r r') := by
  cases h with
  | @route x r₀ r₁ hr₀ hs =>
    rw [route_setRoute]
    split
    · next hjd =>
      obtain ⟨rfl, rfl⟩ := hjd
      obtain rfl := Option.some.inj (hr₀.symm.trans hr)
      exact ⟨r₁, rfl, .inr ⟨rfl, hs⟩⟩
    · exact ⟨r, hr, .inl rfl⟩
  | @create x hx =>
    rw [route_setRoute]
    split
    · next hjd =>
      rw [← hjd.1, ← hjd.2, hr] at hx
      cases hx
    · exact ⟨r, hr, .inl rfl⟩
  | own => exact ⟨r, hr, .inl rfl⟩
  | say => exact ⟨r, hr, .inl rfl⟩

/-- Where a packet comes from. While a packet is said, nothing else changes. -/
theorem Act.flight_cases {σ' : Proto} (h : Act i env heard σ σ') {p : Packet}
    (hp : p ∈ σ'.flight) :
    p ∈ σ.flight ∨ σ' = σ.say p ∧ ∃ w, σ.Shows i w ∧ Speaks env heard w p := by
  cases h with
  | @say w q hw hs =>
    rcases hp with rfl | hp
    · exact .inr ⟨rfl, w, hw, hs⟩
    · exact .inl hp
  | route => exact .inl hp
  | create => exact .inl hp
  | own => exact .inl hp

/-- What becomes of the own numbers. -/
theorem Act.seqno_cases {σ' : Proto} (h : Act i env heard σ σ') (j : NsAddr) :
    σ'.seqno j = σ.seqno j ∨
      j = i ∧ OwnStep heard i (σ.seqno i) (σ.wrapped i) (σ'.seqno i) (σ'.wrapped i) := by
  cases h with
  | @own n b hs =>
    by_cases hj : j = i
    · exact .inr ⟨hj, by simpa [setOwn] using hs⟩
    · exact .inl (by simp [setOwn, hj])
  | route => exact .inl rfl
  | create => exact .inl rfl
  | say => exact .inl rfl

end Proto

end Eamrp
