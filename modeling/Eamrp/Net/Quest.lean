import Eamrp.Agent.Quest
import Eamrp.Net.Disjoint

/-!
# A route discovery that is left alone succeeds

A node that has nothing to go on asks for a destination, and from then on the medium only
delivers routing packets: in any order, any number of times, over the links of a symmetric
graph. When every one of them has been heard by all who can hear it, the source has a route
that leads over existing links to the destination, however the copies of the RREQ have raced
each other.
-/

namespace Eamrp

open Lib Relation

/-- The node that a routing packet has been transmitted by, as its headers say. -/
def Packet.sender (p : Packet) : NsAddr :=
  match p.body with
  | .rrep rp => rp.rpSrc
  | _ => p.ih.saddr

section Sender

variable {Q : Quest} {p : Packet} {i j k : NsAddr}

theorem Packet.Asks.sender (h : p.Asks Q i) : p.sender = i := by
  obtain ⟨rq, hb, -⟩ := h.body
  unfold Packet.sender
  rw [hb]
  exact h.saddr

theorem Packet.Answers.sender (h : p.Answers Q i k) : p.sender = i := by
  obtain ⟨rp, hb, -, -, hsrc, -⟩ := h.body
  unfold Packet.sender
  rw [hb]
  exact hsrc

theorem Packet.Asks.isEamrp (h : p.Asks Q i) : p.isEamrp = true := by
  obtain ⟨rq, hb, -⟩ := h.body
  simp [Packet.isEamrp, hb]

theorem Packet.Answers.isEamrp (h : p.Answers Q i k) : p.isEamrp = true := by
  obtain ⟨rp, hb, -⟩ := h.body
  simp [Packet.isEamrp, hb]

/-- A RREP is delivered to the node it is for. -/
theorem Packet.Answers.addressed (h : p.Answers Q i k) (ha : Net.Addressed p j) : j = k := by
  rcases ha with ha | ha
  · rw [h.addrType] at ha
    cases ha
  · exact ha.symm.trans h.nextHop

theorem Packet.Asks.unique (h : p.Asks Q i) (h' : p.Asks Q j) : i = j := h.saddr.symm.trans h'.saddr

theorem Packet.Answers.unique {i' k' : NsAddr} (h : p.Answers Q i k) (h' : p.Answers Q i' k') :
    i = i' ∧ k = k' :=
  ⟨h.sender.symm.trans h'.sender, h.nextHop.symm.trans h'.nextHop⟩

/-- No packet is both. -/
theorem Packet.Asks.not_answers (h : p.Asks Q i) (h' : p.Answers Q j k) : False := by
  obtain ⟨rq, hb, -⟩ := h.body
  obtain ⟨rp, hb', -⟩ := h'.body
  rw [hb] at hb'
  cases hb'

/-- The headers of a RREQ that is being received. -/
theorem Packet.Asks.request (h : p.Asks Q i) : ∃ rq, p.body = .rreq rq ∧ rq.Of Q := by
  obtain ⟨rq, hb, hs, hd, hbid, hseq, hz⟩ := h.body
  exact ⟨rq, hb, hs, hd, hbid, hseq, hz⟩

/-- The headers of a RREP that is being received. -/
theorem Packet.Answers.reply (h : p.Answers Q i k) :
    ∃ rp, p.body = .rrep rp ∧ rp.Of Q ∧ rp.rpSrc = i := by
  obtain ⟨rp, hb, hd, hseq, hs, hbid⟩ := h.body
  exact ⟨rp, hb, ⟨hd, hseq, hbid⟩, hs⟩

end Sender

namespace Net

section Wave

variable (P : Params) (link : NsAddr → NsAddr → Prop) [DecidableRel link] (Q : Quest)

/-- The next hop of the first path of node `i` to `d`, if there is a link to it. -/
def hop (s : Net) (d i : NsAddr) : Option NsAddr :=
  (s.nextHop d i).filter fun x => decide (link i x)

/-- What node `i` has come to know of the discovery, and what it has sent for it. -/
inductive Stage (s : Net) (i : NsAddr) : Prop where
  | unasked (h : (s.node i).Unasked Q)
  | asked {x : NsAddr} {l : List NsAddr} (h : (s.node i).Asked Q x)
      (hw : Walk (s.hop link Q.src) Q.src i l) (hl : ∀ y ∈ l, y ∈ P.nodes) (hx : x ≠ Q.dst)
      (hreq : i ≠ Q.dst → ∃ p ∈ s.flight, p.Asks Q i)
      (hrep : i = Q.dst → ∃ p ∈ s.flight, p.Answers Q i x)
  | served {x y : NsAddr} {l : List NsAddr} (h : (s.node i).Served Q x y)
      (hw : Walk (s.hop link Q.src) Q.src i l) (hl : ∀ y ∈ l, y ∈ P.nodes) (hi : i ≠ Q.dst)
      (hreq : ∃ p ∈ s.flight, p.Asks Q i) (hrep : ∃ p ∈ s.flight, p.Answers Q i x)

/-- What the source has found. -/
inductive Found (s : Net) : Prop where
  | waiting {e : RtEntry} (he : s.entry Q.src Q.dst = some e) (hold : e.rtSeqno < Q.dstSeqno)
      (hnone : e.pathFind = none)
  | found {y : NsAddr} {l : List NsAddr} (h : (s.node Q.src).Way Q.dst Q.dstSeqno y)
      (hw : Walk (s.hop link Q.dst) Q.dst Q.src l)

/-- A packet of the discovery; its TTL suffices for the way back. -/
inductive Tracked (s : Net) (p : Packet) : Prop where
  | request {i : NsAddr} {l : List NsAddr} (h : p.Asks Q i) (hi : i ≠ Q.dst)
      (hw : Walk (s.hop link Q.src) Q.src i l) (hl : ∀ y ∈ l, y ∈ P.nodes)
      (httl : p.ih.ttl + l.length = networkDiameter + 1)
  | reply {i k : NsAddr} {l l' : List NsAddr} (h : p.Answers Q i k) (hk : k ≠ Q.dst)
      (hw : Walk (s.hop link Q.src) Q.src k l) (httl : (l.length : Int) ≤ p.ih.ttl)
      (hw' : Walk (s.hop link Q.dst) Q.dst i l')

/-- The state of the network while the discovery goes on. -/
structure Wave (s : Net) : Prop where
  index : ∀ i, (s.node i).index = i
  dst : (s.node Q.dst).seqno = Q.dstSeqno
  stage : ∀ i ∈ P.nodes, i ≠ Q.src → s.Stage P link Q i
  found : s.Found link Q
  asks : ∃ p ∈ s.flight, p.Asks Q Q.src
  flight : ∀ p ∈ s.flight, p.isEamrp = true → s.Tracked P link Q p

/-- No first path of the discovery is lost, and no packet leaves the air. -/
structure Ahead (s s' : Net) : Prop where
  src : ∀ i b, i ≠ Q.src → s.nextHop Q.src i = some b → s'.nextHop Q.src i = some b
  dst : ∀ i b, i ≠ Q.dst → s.nextHop Q.dst i = some b → s'.nextHop Q.dst i = some b
  flight : ∀ p ∈ s.flight, p ∈ s'.flight

/-- What the delivery of a packet to node `j` leads to. -/
structure Acted (s : Net) (q : Packet) (j : NsAddr) : Prop where
  request : ∀ i, q.Asks Q i → j ≠ Q.src → ∃ b, s.nextHop Q.src j = some b
  reply : ∀ i k, q.Answers Q i k → j ≠ Q.dst → ∃ b, s.nextHop Q.dst j = some b

end Wave

section Lemmas

variable {P : Params} {link : NsAddr → NsAddr → Prop} [DecidableRel link] {Q : Quest}
  {s s' s'' : Net} {i j k x y d : NsAddr} {n : UInt32} {p : Packet}

theorem nextHop_of_way (h : (s.node i).Way d n x) : s.nextHop d i = some x := by
  obtain ⟨e, he, -, -, path, hpath, rfl⟩ := h
  have he : s.entry i d = some e := he
  simp [nextHop, he, hpath]

theorem nextHop_of_none (h : (s.node i).rtable.rtLookup d = none) : s.nextHop d i = none := by
  have h : s.entry i d = none := h
  simp [nextHop, h]

theorem hop_of_nextHop (h : s.nextHop d i = some x) (hl : link i x) :
    s.hop link d i = some x := by
  simp [hop, h, hl]

theorem nextHop_of_hop (h : s.hop link d i = some x) : s.nextHop d i = some x ∧ link i x := by
  obtain ⟨hn, hl⟩ := Option.filter_eq_some_iff.mp h
  exact ⟨hn, by simpa using hl⟩

namespace Ahead

theorem refl (s : Net) : Ahead Q s s := ⟨fun _ _ _ h => h, fun _ _ _ h => h, fun _ h => h⟩

theorem trans (h : Ahead Q s s') (h' : Ahead Q s' s'') : Ahead Q s s'' where
  src i b hi hb := h'.src i b hi (h.src i b hi hb)
  dst i b hi hb := h'.dst i b hi (h.dst i b hi hb)
  flight p hp := h'.flight p (h.flight p hp)

theorem walk_src {l : List NsAddr} (h : Ahead Q s s') (hw : Walk (s.hop link Q.src) Q.src i l) :
    Walk (s'.hop link Q.src) Q.src i l :=
  hw.mono_of_ne fun a b ha hb =>
    hop_of_nextHop (h.src a b ha (nextHop_of_hop hb).1) (nextHop_of_hop hb).2

theorem walk_dst {l : List NsAddr} (h : Ahead Q s s') (hw : Walk (s.hop link Q.dst) Q.dst i l) :
    Walk (s'.hop link Q.dst) Q.dst i l :=
  hw.mono_of_ne fun a b ha hb =>
    hop_of_nextHop (h.dst a b ha (nextHop_of_hop hb).1) (nextHop_of_hop hb).2

theorem stage (h : Ahead Q s s') (hun : (s.node i).Unasked Q → (s'.node i).Unasked Q)
    (hask : ∀ x, (s.node i).Asked Q x → (s'.node i).Asked Q x)
    (hserve : ∀ x y, (s.node i).Served Q x y → (s'.node i).Served Q x y)
    (hs : s.Stage P link Q i) : s'.Stage P link Q i := by
  cases hs with
  | unasked hi => exact .unasked (hun hi)
  | asked hi hw hl hx hreq hrep =>
    refine .asked (hask _ hi) (h.walk_src hw) hl hx (fun hd => ?_) fun hd => ?_
    · obtain ⟨p, hp, hasks⟩ := hreq hd
      exact ⟨p, h.flight p hp, hasks⟩
    · obtain ⟨p, hp, hans⟩ := hrep hd
      exact ⟨p, h.flight p hp, hans⟩
  | served hi hw hl hd hreq hrep =>
    obtain ⟨p, hp, hasks⟩ := hreq
    obtain ⟨r, hr, hans⟩ := hrep
    exact .served (hserve _ _ hi) (h.walk_src hw) hl hd ⟨p, h.flight p hp, hasks⟩
      ⟨r, h.flight r hr, hans⟩

theorem found (h : Ahead Q s s') (hn : s'.node Q.src = s.node Q.src) (hs : s.Found link Q) :
    s'.Found link Q := by
  cases hs with
  | waiting he hold hnone =>
    have he' : s'.entry Q.src Q.dst = s.entry Q.src Q.dst := by rw [entry, hn, entry]
    exact .waiting (he'.trans he) hold hnone
  | found hw hwalk => exact .found (hn ▸ hw) (h.walk_dst hwalk)

theorem tracked (h : Ahead Q s s') (hp : s.Tracked P link Q p) : s'.Tracked P link Q p := by
  cases hp with
  | request ha hi hw hl httl => exact .request ha hi (h.walk_src hw) hl httl
  | reply ha hk hw httl hw' => exact .reply ha hk (h.walk_src hw) httl (h.walk_dst hw')

theorem acted (h : Ahead Q s s') (ha : s.Acted Q p j) : s'.Acted Q p j where
  request i hi hs := by
    obtain ⟨b, hb⟩ := ha.request i hi hs
    exact ⟨b, h.src j b hs hb⟩
  reply i k hi hj := by
    obtain ⟨b, hb⟩ := ha.reply i k hi hj
    exact ⟨b, h.dst j b hj hb⟩

end Ahead

/-- What is known of a RREQ on the air. -/
theorem Tracked.of_asks (hc : s.Tracked P link Q p) (hp : p.Asks Q i) :
    i ≠ Q.dst ∧ ∃ l, Walk (s.hop link Q.src) Q.src i l ∧ (∀ y ∈ l, y ∈ P.nodes) ∧
      p.ih.ttl + l.length = networkDiameter + 1 := by
  cases hc with
  | request h hi hw hl httl =>
    obtain rfl := h.unique hp
    exact ⟨hi, _, hw, hl, httl⟩
  | reply h => exact absurd h hp.not_answers

/-- What is known of a RREP on the air. -/
theorem Tracked.of_answers (hc : s.Tracked P link Q p) (hp : p.Answers Q i k) :
    k ≠ Q.dst ∧ ∃ l l', Walk (s.hop link Q.src) Q.src k l ∧ (l.length : Int) ≤ p.ih.ttl ∧
      Walk (s.hop link Q.dst) Q.dst i l' := by
  cases hc with
  | request h => exact absurd hp h.not_answers
  | reply h hk hw httl hw' =>
    obtain ⟨rfl, rfl⟩ := h.unique hp
    exact ⟨hk, _, _, hw, httl, hw'⟩

/-- A node that has not heard of the discovery is on no walk. -/
theorem notMem_of_unasked {l : List NsAddr} (hw : Walk (s.hop link Q.src) Q.src i l)
    (hj : (s.node j).Unasked Q) (hne : j ≠ Q.src) : j ∉ l := by
  intro hmem
  obtain ⟨b, hb⟩ := hw.next_of_mem hmem hne
  have hb := (nextHop_of_hop hb).1
  rw [nextHop_of_none hj.src] at hb
  cases hb

/-- A walk of nodes has at most as many places as there are nodes. -/
theorem length_le_card {l : List NsAddr} (hl : l.Nodup) (hmem : ∀ y ∈ l, y ∈ P.nodes) :
    l.length ≤ P.nodes.card := by
  rw [← List.toFinset_card_of_nodup hl]
  exact Finset.card_le_card fun y hy => hmem y (List.mem_toFinset.mp hy)

/-- The destination is there already. -/
theorem walk_self (h : i = d) : Walk (s.hop link d) d i [i] := by
  subst h
  exact .stop

/-- The first hop of a walk leads over the first way back. -/
theorem walk_rest {l : List NsAddr} (hw : Walk (s.hop link Q.src) Q.src i l) (hi : i ≠ Q.src)
    (h : (s.node i).Way Q.src Q.seqno x) :
    ∃ l', l = i :: l' ∧ Walk (s.hop link Q.src) Q.src x l' ∧ link i x := by
  cases hw with
  | stop => exact absurd rfl hi
  | @hop _ b l' _ hb hw =>
    obtain ⟨hn, hlink⟩ := nextHop_of_hop hb
    obtain rfl := Option.some.inj (hn.symm.trans (nextHop_of_way h))
    exact ⟨l', rfl, hw, hlink⟩

end Lemmas

/-! ### One delivery -/

/-- Node `j` has become `a`, and `out` has been put on the air. -/
def put (s : Net) (j : NsAddr) (a : Agent) (out : List Packet) (now : Time) : Net :=
  ⟨Function.update s.node j a, s.flight ++ out, now⟩

section Delivery

variable {P : Params} {link : NsAddr → NsAddr → Prop} [DecidableRel link] {Q : Quest}
  {s : Net} {i j k x y : NsAddr} {a : Agent} {out : List Packet} {now : Time} {q : Packet}
  {env : Env} {w' : World}

theorem node_put_self : (s.put j a out now).node j = a := Function.update_self _ _ _

theorem node_put_ne (h : i ≠ j) : (s.put j a out now).node i = s.node i :=
  Function.update_of_ne h _ _

/-- No first path is lost if the node keeps its own. -/
theorem ahead_put
    (hsrc : j ≠ Q.src → ∀ b, s.nextHop Q.src j = some b →
      (s.put j a out now).nextHop Q.src j = some b)
    (hdst : ∀ b, s.nextHop Q.dst j = some b → (s.put j a out now).nextHop Q.dst j = some b) :
    Ahead Q s (s.put j a out now) := by
  have hne : ∀ i d, i ≠ j → (s.put j a out now).nextHop d i = s.nextHop d i := fun i d hi => by
    unfold nextHop entry
    rw [node_put_ne hi]
  refine ⟨fun i b hne' hb => ?_, fun i b _ hb => ?_, fun p hp => List.mem_append_left _ hp⟩
  · by_cases hi : i = j
    · subst hi
      exact hsrc hne' b hb
    · rwa [hne i _ hi]
  · by_cases hi : i = j
    · subst hi
      exact hdst b hb
    · rwa [hne i _ hi]

/-- The discovery goes on after node `j` has changed. -/
theorem wave_put (h : s.Wave P link Q) (ha : Ahead Q s (s.put j a out now))
    (hidx : a.index = j) (hseq : j = Q.dst → a.seqno = Q.dstSeqno)
    (hstage : j ≠ Q.src → (s.put j a out now).Stage P link Q j)
    (hfound : j = Q.src → (s.put j a out now).Found link Q)
    (hout : ∀ p ∈ out, p.isEamrp = true → (s.put j a out now).Tracked P link Q p) :
    (s.put j a out now).Wave P link Q where
  index i := by
    by_cases hi : i = j
    · subst hi
      rwa [node_put_self]
    · rw [node_put_ne hi]
      exact h.index i
  dst := by
    by_cases hi : Q.dst = j
    · subst hi
      rw [node_put_self]
      exact hseq rfl
    · rw [node_put_ne hi]
      exact h.dst
  stage i hi hsrc := by
    by_cases hij : i = j
    · subst hij
      exact hstage hsrc
    · refine ha.stage ?_ ?_ ?_ (h.stage i hi hsrc) <;> simp [node_put_ne hij]
  found := by
    by_cases hj : Q.src = j
    · exact hfound hj.symm
    · exact ha.found (node_put_ne hj) h.found
  asks := by
    obtain ⟨p, hp, hasks⟩ := h.asks
    exact ⟨p, ha.flight p hp, hasks⟩
  flight p hp he := by
    rcases List.mem_append.mp hp with hp | hp
    · exact ha.tracked (h.flight p hp he)
    · exact hout p hp he

/-- A walk to the sender is a walk to the receiver. -/
theorem walk_put {l : List NsAddr} {d : NsAddr} {n : UInt32} (hj : j ≠ d)
    (hway : a.Way d n i) (hlink : link j i) (hw : Walk ((s.put j a out now).hop link d) d i l) :
    Walk ((s.put j a out now).hop link d) d j (j :: l) :=
  .hop hj (hop_of_nextHop (nextHop_of_way (by rwa [node_put_self])) hlink) hw

/-- The destination has the number that it answers under. -/
theorem Wave.own_seqno (h : s.Wave P link Q) (hev : Q.dstSeqno % 2 = 0)
    (hd : Q.dst = (s.node j).world.index) :
    (s.node j).world.seqno = Q.dstSeqno ∧ (s.node j).world.seqno % 2 = 0 := by
  have hidx : (s.node j).world.index = j := h.index j
  rw [hidx] at hd
  have hseq : (s.node j).world.seqno = Q.dstSeqno := by
    rw [← hd]
    exact h.dst
  exact ⟨hseq, by rwa [hseq]⟩

/-- A RREQ reaches a node that has not heard of the discovery. -/
theorem deliver_first (now : Time) (h : s.Wave P link Q) (hne : Q.src ≠ Q.dst)
    (hcard : P.nodes.card ≤ 30) (hb : ipBroadcast ∉ P.nodes) (hpos : 0 < Q.seqno)
    (hev : Q.dstSeqno % 2 = 0) (hj : j ∈ P.nodes) (hsrc : j ≠ Q.src)
    (hw : (s.node j).Unasked Q) (hq : q.Asks Q i) (hc : s.Tracked P link Q q)
    (hlink : link j i) (hok : handle env (.recv q) (s.node j).world = .ok w') :
    Ahead Q s (s.put j w'.toAgent w'.sent now) ∧
      (s.put j w'.toAgent w'.sent now).Wave P link Q ∧
      (s.put j w'.toAgent w'.sent now).nextHop Q.src j = some i := by
  obtain ⟨hi, l, hwalk, hl, httl⟩ := hc.of_asks hq
  obtain ⟨rq, hbody, hrq⟩ := hq.request
  have hidx : (s.node j).world.index = j := h.index j
  -- the walk to the new node is one place longer, so there is TTL left
  have hlen : (j :: l).length ≤ P.nodes.card := by
    refine length_le_card (List.nodup_cons.mpr ⟨notMem_of_unasked hwalk hw hsrc, hwalk.nodup⟩) ?_
    exact List.forall_mem_cons.mpr ⟨hj, hl⟩
  rw [List.length_cons] at hlen
  have hdiam : networkDiameter = 30 := rfl
  have htl : q.ih.ttl - 1 ≠ 0 := by omega
  have hd := h.own_seqno (j := j) hev
  obtain ⟨hasked, hwi, hws, r, hr, hans⟩ :=
    first_request (p := { q with ih := { q.ih with ttl := q.ih.ttl - 1 } }) hrq hw hne
      (by rwa [hidx, ne_comm]) hpos hd hq.daddr (by rw [hidx]; exact fun hc => hb (hc ▸ hj)) htl
      (recvRequest_of_handle hbody hok)
  rw [hidx] at hwi hans
  have hr : w'.sent = [r] := hr
  have hfrom : q.ih.saddr = i := hq.saddr
  dsimp only at hasked hans
  rw [hfrom] at hasked hans
  have ha : Ahead Q s (s.put j w'.toAgent w'.sent now) := by
    refine ahead_put (fun _ b hb => ?_) fun b hb => ?_
    · rw [nextHop_of_none hw.src] at hb
      cases hb
    · rw [nextHop_of_none hw.dst] at hb
      cases hb
  have hwalk' := walk_put hsrc hasked.src hlink (ha.walk_src hwalk)
  have hmem : r ∈ (s.put j w'.toAgent w'.sent now).flight := by
    rw [hr]
    exact List.mem_append_right _ (List.mem_singleton_self r)
  refine ⟨ha, wave_put h ha hwi (fun hj => ?_) (fun _ => ?_) (fun hj => absurd hj hsrc) ?_,
    nextHop_of_way (by rw [node_put_self]; exact hasked.src)⟩
  · rw [hws]
    exact (hd (hj.symm.trans hidx.symm)).1
  · refine .asked (by rwa [node_put_self]) hwalk' (List.forall_mem_cons.mpr ⟨hj, hl⟩) hi
      (fun hjd => ?_) fun hjd => ?_
    · exact ⟨r, hmem, (hans.resolve_left fun hc => hjd hc.1.symm).2.1⟩
    · exact ⟨r, hmem, (hans.resolve_right fun hc => hc.1 hjd.symm).2.1⟩
  · rw [hr]
    intro p hp _
    obtain rfl := List.mem_singleton.mp hp
    rcases hans with ⟨hjd, hans, hrttl⟩ | ⟨hjd, hasks, hrttl⟩
    · refine .reply hans hi (ha.walk_src hwalk) ?_ (walk_self hjd.symm)
      rw [hrttl]
      omega
    · refine .request hasks (Ne.symm hjd) hwalk' (List.forall_mem_cons.mpr ⟨hj, hl⟩) ?_
      rw [hrttl, List.length_cons]
      omega

/-- A RREQ reaches a node that has heard of the discovery. -/
theorem deliver_again {b : Bool} (now : Time) (h : s.Wave P link Q) (hne : Q.src ≠ Q.dst)
    (hcard : P.nodes.card ≤ 30) (hev : Q.dstSeqno % 2 = 0) (hj : j ∈ P.nodes) (hsrc : j ≠ Q.src)
    (hway : (s.node j).Way Q.src Q.seqno x) (hrec : (s.node j).Records Q b)
    (hrq : (s.node j).rqueue = [])
    (hroute : (s.node j).rtable.rtLookup Q.dst = none ∨ b = true)
    (hq : q.Asks Q i) (hc : s.Tracked P link Q q)
    (hok : handle env (.recv q) (s.node j).world = .ok w') :
    Ahead Q s (s.put j w'.toAgent w'.sent now) ∧
      (s.put j w'.toAgent w'.sent now).Wave P link Q := by
  obtain ⟨hi, l, hwalk, hl, -⟩ := hc.of_asks hq
  obtain ⟨rq, hbody, hof⟩ := hq.request
  have hidx : (s.node j).world.index = j := h.index j
  have hd := h.own_seqno (j := j) hev
  obtain ⟨u, hturn, hrest⟩ := later_request hof hway hrec hrq hne (by rwa [hidx, ne_comm]) hd hroute
    (recvRequest_of_handle hbody hok)
  obtain ⟨hui, hus, husent⟩ := hturn.index_seqno
  have husent : u.sent = [] := husent
  have hag : w'.toAgent = u.toAgent ∧ ∀ p ∈ w'.sent, j = Q.dst ∧ p.Answers Q j i ∧
      p.ih.ttl = networkDiameter := by
    rcases hrest with rfl | ⟨hdj, r, rfl, hans, hrttl⟩
    · refine ⟨rfl, fun p hp => ?_⟩
      rw [husent] at hp
      cases hp
    · refine ⟨rfl, fun p hp => ?_⟩
      rw [World.sent_send, husent] at hp
      obtain rfl := List.mem_singleton.mp hp
      rw [hidx] at hans hdj
      dsimp only at hans
      rw [hq.saddr] at hans
      exact ⟨hdj.symm, hans, hrttl⟩
  obtain ⟨hag, hsent⟩ := hag
  rw [hag]
  have ha : Ahead Q s (s.put j u.toAgent w'.sent now) := by
    refine ahead_put (fun _ b hb => ?_) fun b hb => ?_
    · obtain rfl := Option.some.inj (hb.symm.trans (nextHop_of_way hway))
      exact nextHop_of_way (by rw [node_put_self]; exact hturn.way)
    · have hsame : (s.put j u.toAgent w'.sent now).entry j Q.dst = s.entry j Q.dst := by
        rw [entry, node_put_self]
        exact hturn.other Q.dst hne.symm
      rwa [nextHop, hsame, ← nextHop]
  refine ⟨ha, wave_put h ha (hui.trans hidx) (fun hjd => ?_)
    (fun _ => ?_) (fun hj => absurd hj hsrc) fun p hp _ => ?_⟩
  · exact hus.trans (hd (hjd.symm.trans hidx.symm)).1
  · refine ha.stage (fun hun => ?_) (fun y hy => ?_) (fun y z hy => ?_) (h.stage j hj hsrc)
    · obtain ⟨e, he, -⟩ := hway
      cases hun.src.symm.trans he
    · rw [node_put_self]
      obtain rfl := hway.unique hy.src
      exact hturn.asked hy hne
    · rw [node_put_self]
      obtain rfl := hway.unique hy.src
      exact hturn.served_src hy hne
  · obtain ⟨hjd, hans, hpttl⟩ := hsent p hp
    refine .reply hans hi (ha.walk_src hwalk) ?_ (walk_self hjd)
    have hlen := length_le_card hwalk.nodup hl
    have hdiam : networkDiameter = 30 := rfl
    omega

/-- The first RREP reaches a relay. -/
theorem deliver_reply {l : List NsAddr} (now : Time) (h : s.Wave P link Q) (hne : Q.src ≠ Q.dst)
    (hpos : 0 < Q.dstSeqno) (hsrc : j ≠ Q.src) (hdst : j ≠ Q.dst)
    (hw : (s.node j).Asked Q x) (hwalk : Walk (s.hop link Q.src) Q.src j l)
    (hl : ∀ y ∈ l, y ∈ P.nodes) (hx : x ≠ Q.dst) (hreq : ∃ p ∈ s.flight, p.Asks Q j)
    (hq : q.Answers Q i j) (hc : s.Tracked P link Q q) (hlink : link j i)
    (hok : handle env (.recv q) (s.node j).world = .ok w') :
    Ahead Q s (s.put j w'.toAgent w'.sent now) ∧
      (s.put j w'.toAgent w'.sent now).Wave P link Q ∧
      (s.put j w'.toAgent w'.sent now).nextHop Q.dst j = some i := by
  obtain ⟨-, l₁, l', hwalk₁, httl, hwalk'⟩ := hc.of_answers hq
  obtain rfl := hwalk₁.unique hwalk
  obtain ⟨rp, hbody, hof, hfrom⟩ := hq.reply
  obtain ⟨lx, rfl, hwalkx, -⟩ := walk_rest hwalk hsrc hw.src
  have hidx : (s.node j).world.index = j := h.index j
  have hxlen : 0 < lx.length := by
    cases hwalkx with
    | stop => exact Nat.one_pos
    | hop => exact Nat.succ_pos _
  rw [List.length_cons] at httl
  obtain ⟨hserved, hwi, hws, r, hr, hans, hrttl⟩ :=
    first_reply (p := { q with ih := { q.ih with ttl := q.ih.ttl - 1 } }) hof hw hne
      (by rwa [hidx, ne_comm]) (by rwa [hidx, ne_comm]) hpos hq.daddr
      (by dsimp only; omega) (recvReply_of_handle hbody hok)
  have hr : w'.sent = [r] := hr
  rw [hidx] at hwi hans
  rw [hfrom] at hserved
  dsimp only at hrttl
  have ha : Ahead Q s (s.put j w'.toAgent w'.sent now) := by
    refine ahead_put (fun _ b hb => ?_) fun b hb => ?_
    · obtain rfl := Option.some.inj (hb.symm.trans (nextHop_of_way hw.src))
      exact nextHop_of_way (by rw [node_put_self]; exact hserved.src)
    · rw [nextHop_of_none hw.dst] at hb
      cases hb
  refine ⟨ha, wave_put h ha hwi (fun hj => absurd hj hdst) (fun _ => ?_)
    (fun hj => absurd hj hsrc) ?_, nextHop_of_way (by rw [node_put_self]; exact hserved.dst)⟩
  · obtain ⟨p, hp, hasks⟩ := hreq
    refine .served (by rwa [node_put_self]) (ha.walk_src hwalk) hl hdst
      ⟨p, ha.flight p hp, hasks⟩ ⟨r, ?_, hans⟩
    rw [hr]
    exact List.mem_append_right _ (List.mem_singleton_self r)
  · rw [hr]
    intro p hp _
    obtain rfl := List.mem_singleton.mp hp
    refine .reply hans hx (ha.walk_src hwalkx) ?_
      (walk_put hdst hserved.dst hlink (ha.walk_dst hwalk'))
    rw [hrttl]
    omega

/-- A later RREP reaches a relay. -/
theorem deliver_served (now : Time) (h : s.Wave P link Q) (hne : Q.src ≠ Q.dst) (hj : j ∈ P.nodes)
    (hsrc : j ≠ Q.src) (hdst : j ≠ Q.dst) (hw : (s.node j).Served Q x y)
    (hq : q.Answers Q i j) (hok : handle env (.recv q) (s.node j).world = .ok w') :
    Ahead Q s (s.put j w'.toAgent w'.sent now) ∧
      (s.put j w'.toAgent w'.sent now).Wave P link Q := by
  obtain ⟨rp, hbody, hof, -⟩ := hq.reply
  have hidx : (s.node j).world.index = j := h.index j
  have hturn := later_reply (p := { q with ih := { q.ih with ttl := q.ih.ttl - 1 } }) hof hw
    (by rwa [hidx, ne_comm]) hq.daddr (recvReply_of_handle hbody hok)
  have hserved := hturn.served_dst hw hne
  obtain ⟨hui, -, hsent⟩ := hturn.index_seqno
  have hsent : w'.sent = [] := hsent
  have ha : Ahead Q s (s.put j w'.toAgent w'.sent now) := by
    refine ahead_put (fun _ b hb => ?_) fun b hb => ?_
    · obtain rfl := Option.some.inj (hb.symm.trans (nextHop_of_way hw.src))
      exact nextHop_of_way (by rw [node_put_self]; exact hserved.src)
    · obtain rfl := Option.some.inj (hb.symm.trans (nextHop_of_way hw.dst))
      exact nextHop_of_way (by rw [node_put_self]; exact hserved.dst)
  refine ⟨ha, wave_put h ha (hui.trans hidx) (fun hj => absurd hj hdst) (fun _ => ?_)
    (fun hj => absurd hj hsrc) ?_⟩
  · obtain ⟨e, he, -⟩ := hw.dst
    refine ha.stage (fun hun => ?_) (fun z hz => ?_) (fun z z' hz => ?_) (h.stage j hj hsrc)
    · cases hun.dst.symm.trans he
    · cases hz.dst.symm.trans he
    · rw [node_put_self]
      obtain rfl := hw.src.unique hz.src
      obtain rfl := hw.dst.unique hz.dst
      exact hserved
  · rw [hsent]
    intro p hp
    cases hp

/-- A RREP reaches the source. -/
theorem deliver_source (now : Time) (h : s.Wave P link Q) (hne : Q.src ≠ Q.dst)
    (hq : q.Answers Q i Q.src) (hc : s.Tracked P link Q q) (hlink : link Q.src i)
    (hok : handle env (.recv q) (s.node Q.src).world = .ok w') :
    Ahead Q s (s.put Q.src w'.toAgent w'.sent now) ∧
      (s.put Q.src w'.toAgent w'.sent now).Wave P link Q ∧
      ∃ b, (s.put Q.src w'.toAgent w'.sent now).nextHop Q.dst Q.src = some b := by
  obtain ⟨-, -, l', -, -, hwalk'⟩ := hc.of_answers hq
  obtain ⟨rp, hbody, hof, hfrom⟩ := hq.reply
  have hidx : (s.node Q.src).world.index = Q.src := h.index Q.src
  have hrecv := recvReply_of_handle hbody hok
  obtain ⟨hwi, hsent⟩ := own_reply_sent (p := { q with ih := { q.ih with ttl := q.ih.ttl - 1 } })
    (hq.daddr.trans hidx.symm) hrecv
  -- the first path: the one that is there, or the one that the RREP brings
  have hway : ∃ y l, (Ahead Q s (s.put Q.src w'.toAgent w'.sent now)) ∧
      w'.Way Q.dst Q.dstSeqno y ∧
      Walk ((s.put Q.src w'.toAgent w'.sent now).hop link Q.dst) Q.dst Q.src l := by
    cases h.found with
    | waiting he hold hnone =>
      have he' : (s.node Q.src).world.rtLookup Q.dst = some _ := he
      have hway := own_reply (y := i)
        (p := { q with ih := { q.ih with ttl := q.ih.ttl - 1 } }) hof (by rwa [hidx, ne_comm])
        (.inl ⟨by rwa [World.entryFor, he', Option.getD_some], hfrom.symm⟩)
        (hq.daddr.trans hidx.symm) hrecv
      have ha : Ahead Q s (s.put Q.src w'.toAgent w'.sent now) := by
        refine ahead_put (fun hc => absurd rfl hc) fun b hb => ?_
        rw [nextHop, he, Option.bind_some, hnone] at hb
        cases hb
      exact ⟨i, _, ha, hway, walk_put hne hway hlink (ha.walk_dst hwalk')⟩
    | @found y l hw hwalk =>
      have hway := own_reply
        (p := { q with ih := { q.ih with ttl := q.ih.ttl - 1 } }) hof (by rwa [hidx, ne_comm]) (.inr hw)
        (hq.daddr.trans hidx.symm) hrecv
      have ha : Ahead Q s (s.put Q.src w'.toAgent w'.sent now) := by
        refine ahead_put (fun hc => absurd rfl hc) fun b hb => ?_
        obtain rfl := Option.some.inj (hb.symm.trans (nextHop_of_way hw))
        exact nextHop_of_way (by rwa [node_put_self])
      exact ⟨y, l, ha, hway, ha.walk_dst hwalk⟩
  obtain ⟨y, l, ha, hway, hwalk⟩ := hway
  refine ⟨ha, wave_put h ha (hwi.trans hidx) (fun hc => absurd hc hne) (fun hc => absurd rfl hc)
    (fun _ => .found (by rwa [node_put_self]) hwalk) fun p hp he => ?_,
    y, nextHop_of_way (by rwa [node_put_self])⟩
  rcases hsent p hp with hp | hp
  · cases hp
  · rw [hp] at he
    cases he

/-- The RREQ comes back to the source. -/
theorem deliver_back (now : Time) (h : s.Wave P link Q) (hne : Q.src ≠ Q.dst) (hq : q.Asks Q i)
    (hok : handle env (.recv q) (s.node Q.src).world = .ok w') :
    Ahead Q s (s.put Q.src w'.toAgent w'.sent now) ∧
      (s.put Q.src w'.toAgent w'.sent now).Wave P link Q := by
  obtain ⟨rq, hbody, hof⟩ := hq.request
  have hidx : (s.node Q.src).world.index = Q.src := h.index Q.src
  have hrecv := recvRequest_of_handle hbody hok
  unfold recvRequest at hrecv
  rw [if_pos (hof.rqSrc.trans hidx.symm)] at hrecv
  obtain rfl := Except.ok.inj hrecv
  have ha : Ahead Q s (s.put Q.src (s.node Q.src).world.toAgent (s.node Q.src).world.sent now) := by
    refine ahead_put (fun hc => absurd rfl hc) fun b hb => ?_
    rwa [nextHop, entry, node_put_self]
  refine ⟨ha, wave_put h ha hidx (fun hc => absurd hc hne) (fun hc => absurd rfl hc)
    (fun _ => ha.found node_put_self h.found) fun p hp => ?_⟩
  cases hp

theorem asks_arrive {p : Packet} (h : p.Asks Q i) : (arrive p).Asks Q i :=
  ⟨h.saddr, h.daddr, h.addrType, h.body⟩

theorem answers_arrive {p : Packet} (h : p.Answers Q i k) : (arrive p).Answers Q i k :=
  ⟨h.daddr, h.addrType, h.nextHop, h.body⟩

/-- The packet is the same for the discovery when it arrives. -/
theorem tracked_arrive {p : Packet} (hp : s.Tracked P link Q p) :
    s.Tracked P link Q (arrive p) := by
  cases hp with
  | request h hi hw hl httl => exact .request (asks_arrive h) hi hw hl httl
  | reply h hk hw httl hw' => exact .reply (answers_arrive h) hk hw httl hw'

end Delivery

/-! ### Runs -/

/-- What the discovery relies on: two different nodes of a network of at most
`NETWORK_DIAMETER` nodes, none of which has the broadcast address. -/
structure Suits (P : Params) (Q : Quest) : Prop where
  ne : Q.src ≠ Q.dst
  card : P.nodes.card ≤ 30
  broadcast : ipBroadcast ∉ P.nodes
  seqno : 0 < Q.seqno
  dstSeqno : 0 < Q.dstSeqno ∧ Q.dstSeqno % 2 = 0

/-- The event delivers a routing packet over a link. -/
def Delivers (link : NsAddr → NsAddr → Prop) (ev : Event) : Prop :=
  match ev.input with
  | .recv q => q.isEamrp = true ∧ link q.sender ev.node
  | _ => False

instance (link : NsAddr → NsAddr → Prop) [DecidableRel link] (ev : Event) :
    Decidable (Delivers link ev) :=
  match ev with
  | ⟨i, _, .recv q⟩ => inferInstanceAs (Decidable (q.isEamrp = true ∧ link q.sender i))
  | ⟨_, _, .rtLlFailed _⟩ => isFalse id
  | ⟨_, _, .broadcastTimer⟩ => isFalse id
  | ⟨_, _, .helloTimer⟩ => isFalse id
  | ⟨_, _, .neighborTimer⟩ => isFalse id
  | ⟨_, _, .routeCacheTimer⟩ => isFalse id
  | ⟨_, _, .ifqueue _⟩ => isFalse id

theorem Delivers.recv {link : NsAddr → NsAddr → Prop} {ev : Event} (h : Delivers link ev) :
    ∃ q, ev.input = .recv q ∧ q.isEamrp = true ∧ link q.sender ev.node := by
  unfold Delivers at h
  split at h
  · next q hq => exact ⟨q, hq, h⟩
  · exact h.elim

section Runs

variable {P : Params} {link : NsAddr → NsAddr → Prop} [DecidableRel link] {Q : Quest}
  {s s' : Net} {ev : Event}

/-- One delivery. -/
theorem wave_step (hP : Suits P Q) (hsym : ∀ i j, link i j → link j i) (h : s.Wave P link Q)
    (hs : Step P s ev s') (hd : Delivers link ev) :
    Ahead Q s s' ∧ s'.Wave P link Q ∧ ∀ q, ev.input = .recv q → s'.Acted Q q ev.node := by
  obtain ⟨w', hok, rfl⟩ := next_ok hs.2
  obtain ⟨q, hin, he, hlink⟩ := hd.recv
  obtain ⟨j, env, inp⟩ := ev
  obtain rfl : inp = .recv q := hin
  obtain ⟨p, hp, haddr, rfl⟩ := hs.1.offers he
  have hj : j ∈ P.nodes := hs.1.node
  have hc := tracked_arrive (h.flight p hp he)
  have hlink := hsym _ _ hlink
  suffices hmain : Ahead Q s (s.put j w'.toAgent w'.sent env.now) ∧
      (s.put j w'.toAgent w'.sent env.now).Wave P link Q ∧
      (s.put j w'.toAgent w'.sent env.now).Acted Q (arrive p) j by
    obtain ⟨ha, hw, hact⟩ := hmain
    refine ⟨ha, hw, fun q hq => ?_⟩
    obtain rfl := Input.recv.inj hq
    exact hact
  cases id hc with
  | @request i l hasks =>
    rw [hasks.sender] at hlink
    by_cases hsrc : j = Q.src
    · subst hsrc
      obtain ⟨ha, hw⟩ := deliver_back env.now h hP.ne hasks hok
      exact ⟨ha, hw, ⟨fun _ _ hn => absurd rfl hn, fun _ _ hans => absurd hans hasks.not_answers⟩⟩
    · have hacted : ∀ x, (s.put j w'.toAgent w'.sent env.now).nextHop Q.src j = some x →
          (s.put j w'.toAgent w'.sent env.now).Acted Q (arrive p) j := fun x hx =>
        ⟨fun _ _ _ => ⟨x, hx⟩, fun _ _ hans => absurd hans hasks.not_answers⟩
      cases h.stage j hj hsrc with
      | unasked hw =>
        obtain ⟨ha, hwave, hx⟩ := deliver_first env.now h hP.ne hP.card hP.broadcast
          hP.seqno hP.dstSeqno.2 hj hsrc hw hasks hc hlink hok
        exact ⟨ha, hwave, hacted _ hx⟩
      | asked hw =>
        obtain ⟨ha, hwave⟩ := deliver_again env.now h hP.ne hP.card hP.dstSeqno.2 hj hsrc
          hw.src hw.record hw.rqueue (.inl hw.dst) hasks hc hok
        exact ⟨ha, hwave, hacted _ (ha.src j _ hsrc (nextHop_of_way hw.src))⟩
      | served hw =>
        obtain ⟨ha, hwave⟩ := deliver_again env.now h hP.ne hP.card hP.dstSeqno.2 hj hsrc
          hw.src hw.record hw.rqueue (.inr rfl) hasks hc hok
        exact ⟨ha, hwave, hacted _ (ha.src j _ hsrc (nextHop_of_way hw.src))⟩
  | @reply i k l l' hans hk hw =>
    rw [hans.sender] at hlink
    obtain rfl := hans.addressed haddr
    have hacted : (∃ x, (s.put j w'.toAgent w'.sent env.now).nextHop Q.dst j = some x) →
        (s.put j w'.toAgent w'.sent env.now).Acted Q (arrive p) j := fun hx =>
      ⟨fun _ hasks => absurd hans hasks.not_answers, fun _ _ _ _ => hx⟩
    by_cases hsrc : j = Q.src
    · subst hsrc
      obtain ⟨ha, hwave, hx⟩ := deliver_source env.now h hP.ne hans hc hlink hok
      exact ⟨ha, hwave, hacted hx⟩
    · cases h.stage j hj hsrc with
      | unasked hun => exact absurd hw.mem_self (notMem_of_unasked hw hun hsrc)
      | asked hasked hwalk hl hx hreq =>
        obtain ⟨ha, hwave, hx⟩ := deliver_reply env.now h hP.ne hP.dstSeqno.1 hsrc hk
          hasked hwalk hl hx (hreq hk) hans hc hlink hok
        exact ⟨ha, hwave, hacted ⟨_, hx⟩⟩
      | served hserved =>
        obtain ⟨ha, hwave⟩ := deliver_served env.now h hP.ne hj hsrc hk hserved hans hok
        exact ⟨ha, hwave, hacted ⟨_, ha.dst j _ hk (nextHop_of_way hserved.dst)⟩⟩

/-- A chain of deliveries. -/
theorem wave_chain {t : List (Move Net Event)} (hP : Suits P Q)
    (hsym : ∀ i j, link i j → link j i) (hc : Chain (Step P) s t s')
    (hd : ∀ m ∈ t, Delivers link m.label) (h : s.Wave P link Q) :
    Ahead Q s s' ∧ s'.Wave P link Q ∧
      ∀ m ∈ t, ∀ q, m.label.input = .recv q → s'.Acted Q q m.label.node := by
  induction hc with
  | nil => exact ⟨.refl _, h, fun m hm => by cases hm⟩
  | cons hs _ ih =>
    obtain ⟨hd₀, hd⟩ := List.forall_mem_cons.mp hd
    obtain ⟨ha, hwave, hact⟩ := wave_step hP hsym h hs hd₀
    obtain ⟨ha', hwave', hact'⟩ := ih hd hwave
    refine ⟨ha.trans ha', hwave', List.forall_mem_cons.mpr ⟨fun q hq => ?_, hact'⟩⟩
    exact ha'.acted (hact q hq)

/-- An agent that has done nothing yet has not heard of the discovery. -/
theorem unasked_of_initial {a : Agent} {i : NsAddr} (h : a.Initial i) : a.Unasked Q := by
  rw [h]
  exact ⟨rfl, rfl, rfl, rfl⟩

/-- The first packet for `d` starts the discovery. -/
theorem wave_start {q : Packet} (hinit : Initial s) (hs : Step P s ev s')
    (hin : ev.input = .recv q) (hown : q.HandedDown ev.node) (hd : q.ih.daddr ≠ ipBroadcast)
    (hne : q.ih.daddr ≠ ev.node) (hnow : 0 ≤ ev.env.now) :
    s'.Wave P link (.first ev.node q.ih.daddr) := by
  obtain ⟨w', hok, rfl⟩ := next_ok hs.2
  have hidx : (s.node ev.node).world.index = ev.node := by
    show (s.node ev.node).index = ev.node
    rw [hinit.node ev.node]
  let p : AppPacket := (AppPacket.withCmn ⟨q, hown.isEamrp⟩
    { q.ch with eamrpSalvageCount := 0 }).withIp { q.ih with ttl := networkDiameter }
  have hres : Resolves (s.node ev.node).world.index ev.input p := by
    refine ⟨⟨q, hown.isEamrp⟩, hin, ?_⟩
    rw [hidx]
    unfold AppPacket.toResolve
    rw [if_neg hd, if_pos hown.saddr, if_pos hown.numForwards]
  obtain ⟨hwi, hentry, hother, r, hr, hasks, hrttl⟩ := first_data (d := q.ih.daddr)
    (hinit.node ev.node) hres (hown.saddr.trans hidx.symm) rfl hnow hok
  have hr : w'.sent = [r] := hr
  obtain ⟨e, he, hold, hnone⟩ := hentry
  have hother : ∀ i, i ≠ ev.node → (s.put ev.node w'.toAgent w'.sent ev.env.now).node i =
      s.node i := fun i hi => node_put_ne hi
  have hfirst : ∀ p ∈ s.flight ++ w'.sent, p = r := by
    rw [hinit.flight, hr]
    exact fun p hp => List.mem_singleton.mp hp
  have hmem : r ∈ s.flight ++ w'.sent := by
    rw [hr]
    exact List.mem_append_right _ (List.mem_singleton_self r)
  show (s.put ev.node w'.toAgent w'.sent ev.env.now).Wave P link _
  refine ⟨fun i => ?_, ?_, fun i _ hi => ?_, ?_, ⟨r, hmem, hasks⟩, fun p hp _ => ?_⟩
  · by_cases hi : i = ev.node
    · subst hi
      rwa [node_put_self]
    · rw [hother i hi, hinit.node i]
  · show ((s.put ev.node w'.toAgent w'.sent ev.env.now).node q.ih.daddr).seqno = 2
    rw [hother _ hne, hinit.node q.ih.daddr]
  · refine .unasked ?_
    rw [hother i hi]
    exact unasked_of_initial (hinit.node i)
  · have hpos : (0 : UInt32) < 2 := by decide
    refine .waiting (e := e) ?_ (hold ▸ hpos) hnone
    · rw [entry]
      show ((s.put ev.node w'.toAgent w'.sent ev.env.now).node ev.node).rtable.rtLookup _ = _
      rw [node_put_self]
      exact he
  · obtain rfl := hfirst p hp
    refine .request (l := [ev.node]) hasks (Ne.symm hne) .stop ?_ ?_
    · intro y hy
      obtain rfl := List.mem_singleton.mp hy
      exact hs.1.node
    · rw [hrttl]
      rfl

/-- Every routing packet on the air has been heard by all who can hear it. -/
def Settled (P : Params) (link : NsAddr → NsAddr → Prop) (t : List (Move Net Event)) (s : Net) :
    Prop :=
  ∀ p ∈ s.flight, p.isEamrp = true → ∀ j ∈ P.nodes, link p.sender j → Addressed p j →
    ∃ m ∈ t, m.label.node = j ∧ m.label.input = .recv (arrive p)

instance (P : Params) (link : NsAddr → NsAddr → Prop) [DecidableRel link]
    (t : List (Move Net Event)) (s : Net) : Decidable (s.Settled P link t) :=
  inferInstanceAs (Decidable (∀ p ∈ s.flight, p.isEamrp = true → ∀ j ∈ P.nodes,
    link p.sender j → Addressed p j → ∃ m ∈ t, m.label.node = j ∧
      m.label.input = .recv (arrive p)))

/-- In a network that has settled, the RREQ has reached every node that it can reach, unless it
has reached the destination. -/
theorem asked_of_settled {t : List (Move Net Event)} (h : s.Wave P link Q)
    (hact : ∀ m ∈ t, ∀ q, m.label.input = .recv q → s.Acted Q q m.label.node)
    (hset : s.Settled P link t) {i : NsAddr}
    (hpath : ReflTransGen (fun i j => link i j ∧ j ∈ P.nodes) Q.src i) :
    (∃ b, s.nextHop Q.src Q.dst = some b) ∨
      i = Q.src ∨ i ∈ P.nodes ∧ ∃ b, s.nextHop Q.src i = some b := by
  induction hpath with
  | refl => exact .inr (.inl rfl)
  | @tail a b _ hab ih =>
    obtain ⟨hlink, hb⟩ := hab
    rcases ih with hd | ih
    · exact .inl hd
    by_cases had : a = Q.dst ∧ a ≠ Q.src
    · obtain ⟨rfl, hne⟩ := had
      exact .inl (ih.resolve_left hne).2
    -- the node has passed the RREQ on, and its neighbours have heard it
    have hasks : ∃ p ∈ s.flight, p.Asks Q a := by
      rcases ih with rfl | ⟨ha, x, hx⟩
      · exact h.asks
      · by_cases hsrc : a = Q.src
        · exact hsrc ▸ h.asks
        · cases h.stage a ha hsrc with
          | unasked hun =>
            rw [nextHop_of_none hun.src] at hx
            cases hx
          | asked _ _ _ _ hreq => exact hreq fun hc => had ⟨hc, hsrc⟩
          | served _ _ _ _ hreq => exact hreq
    obtain ⟨p, hp, hasks⟩ := hasks
    obtain ⟨m, hm, rfl, hin⟩ := hset p hp hasks.isEamrp b hb (hasks.sender.symm ▸ hlink)
      (.inl hasks.addrType)
    by_cases hsrc : m.label.node = Q.src
    · exact .inr (.inl hsrc)
    · exact .inr (.inr ⟨hb, (hact m hm _ hin).request a (asks_arrive hasks) hsrc⟩)

/-- In a network that has settled, RREPs have gone all the way back. -/
theorem served_of_settled {t : List (Move Net Event)} (h : s.Wave P link Q)
    (hact : ∀ m ∈ t, ∀ q, m.label.input = .recv q → s.Acted Q q m.label.node)
    (hset : s.Settled P link t) {i x : NsAddr} {l : List NsAddr}
    (hw : Walk (s.hop link Q.src) Q.src i l) (hl : ∀ y ∈ l, y ∈ P.nodes) (hi : i ≠ Q.src)
    (hx : s.nextHop Q.src i = some x) (hrep : ∃ p ∈ s.flight, p.Answers Q i x) :
    ∃ b, s.nextHop Q.dst Q.src = some b := by
  induction hw generalizing x with
  | stop => exact absurd rfl hi
  | @hop a b l' _ hb hw ih =>
    obtain ⟨hn, hlink⟩ := nextHop_of_hop hb
    obtain rfl := Option.some.inj (hn.symm.trans hx)
    obtain ⟨p, hp, hans⟩ := hrep
    obtain ⟨hbd, -⟩ := (h.flight p hp hans.isEamrp).of_answers hans
    have hbn : b ∈ P.nodes := hl b (List.mem_cons_of_mem _ hw.mem_self)
    obtain ⟨m, hm, rfl, hin⟩ := hset p hp hans.isEamrp b hbn (hans.sender.symm ▸ hlink)
      (.inr hans.nextHop)
    obtain ⟨y, hy⟩ := (hact m hm _ hin).reply a _ (answers_arrive hans) hbd
    by_cases hsrc : m.label.node = Q.src
    · exact ⟨y, hsrc ▸ hy⟩
    · cases h.stage _ hbn hsrc with
      | unasked hun =>
        rw [nextHop_of_none hun.dst] at hy
        cases hy
      | asked hasked =>
        rw [nextHop_of_none hasked.dst] at hy
        cases hy
      | served hserved _ _ _ _ hrep =>
        exact ih (fun z hz => hl z (List.mem_cons_of_mem _ hz)) hsrc
          (nextHop_of_way hserved.src) hrep

/-- When a node with nothing to go on asks for another one that it is connected to, and all that
is sent for it arrives, it has a route in the end: it is up, and following first next hops from
the source leads over existing links to the destination. -/
theorem discovery_succeeds {m₀ : Move Net Event} {u : List (Move Net Event)} {q : Packet}
    (hsym : ∀ i j, link i j → link j i) (hcard : P.nodes.card ≤ 30)
    (hb : ipBroadcast ∉ P.nodes) (hrun : Net.Run P (m₀ :: u) s)
    (hin : m₀.label.input = .recv q) (hown : q.HandedDown m₀.label.node)
    (hne : q.ih.daddr ≠ m₀.label.node) (hnow : 0 ≤ m₀.label.env.now)
    (hd : ∀ m ∈ u, Delivers link m.label) (hset : s.Settled P link u)
    (hpath : ReflTransGen (fun i j => link i j ∧ j ∈ P.nodes) m₀.label.node q.ih.daddr) :
    (∃ e, s.entry m₀.label.node q.ih.daddr = some e ∧ e.rtFlags = .up) ∧
      ∃ l, Walk (s.hop link q.ih.daddr) q.ih.daddr m₀.label.node l := by
  have hdn : q.ih.daddr ∈ P.nodes := by
    rcases hpath.cases_tail with heq | ⟨c, -, -, hc⟩
    · exact absurd heq hne
    · exact hc
  obtain ⟨s₀, hinit, hchain⟩ := Lib.Run.chain hrun
  cases hchain with
  | @cons _ s₁ _ ev _ hs hchain =>
    have hstart : s₁.Wave P link (.first ev.node q.ih.daddr) :=
      wave_start hinit hs hin hown (fun hc => hb (hc ▸ hdn)) hne hnow
    have hP : Suits P (.first ev.node q.ih.daddr) :=
      ⟨Ne.symm hne, hcard, hb, (by decide : (0 : UInt32) < 4),
        (by decide : (0 : UInt32) < 2 ∧ (2 : UInt32) % 2 = 0)⟩
    obtain ⟨-, hwave, hact⟩ := wave_chain hP hsym hchain hd hstart
    have hasked : ∃ b, s.nextHop ev.node q.ih.daddr = some b := by
      rcases asked_of_settled hwave hact hset hpath with hb | hc | ⟨-, hb⟩
      · exact hb
      · exact absurd hc hne
      · exact hb
    obtain ⟨b, hb⟩ := hasked
    have hnext : ∃ b, s.nextHop q.ih.daddr ev.node = some b := by
      cases hwave.stage _ hdn hne with
      | unasked hun => cases hb.symm.trans (nextHop_of_none hun.src)
      | asked hasked hw hl _ _ hrep =>
        exact served_of_settled hwave hact hset hw hl hne (nextHop_of_way hasked.src) (hrep rfl)
      | served _ _ _ hi => exact absurd rfl hi
    obtain ⟨y, hy⟩ := hnext
    cases hwave.found with
    | @waiting e he _ hnone =>
      have he : s.entry ev.node q.ih.daddr = some e := he
      rw [nextHop, he, Option.bind_some, hnone] at hy
      cases hy
    | found h hw =>
      obtain ⟨e, he, hup, -⟩ := h
      exact ⟨⟨e, he, hup⟩, _, hw⟩

end Runs

/-- Node 2 has a link to node 1 and one to node 3. -/
def line (i j : NsAddr) : Prop := i = 2 ∧ (j = 1 ∨ j = 3) ∨ j = 2 ∧ (i = 1 ∨ i = 3)

instance : DecidableRel line := fun _ _ => inferInstanceAs (Decidable (_ ∧ _ ∨ _ ∧ _))

/-- Node 1 discovers node 3, and hears its own RREQ back. -/
def settling : List Cue := discovery .mathH ++ [.hear .mathH 0 1 1]

theorem run_settling : Run (three .mathH) (idle.moves settling) (idle.final settling) :=
  run_idle (by decide +kernel)

theorem discovery_succeeds_settling :
    (∃ e, (idle.final settling).entry 1 3 = some e ∧ e.rtFlags = .up) ∧
      ∃ l, Walk ((idle.final settling).hop line 3) 3 1 l :=
  discovery_succeeds (u := ((idle.after (.app .mathH 0 1 3)).moves settling.tail))
    (q := { ih := { saddr := 1, daddr := 3 }, body := .app true }) (fun _ _ h => h.symm)
    (by decide) (by decide) run_settling rfl ⟨rfl, rfl, rfl⟩ (by decide) (by decide)
    (by decide +kernel) (by decide +kernel)
    (.tail (b := 2) (.tail .refl ⟨by decide, by decide⟩) ⟨by decide, by decide⟩)

end Net

end Eamrp
