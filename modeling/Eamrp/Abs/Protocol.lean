import Eamrp.Abs.Route
import Eamrp.Model.Network

/-!
# The protocol

A network without buffers, timers and addresses of entries: the routes of all nodes, their
own sequence numbers and everything that has been said. `Proto.Act` lists what one node can
do to it; `Net.acts_of_next` shows that a step of the network is a finite sequence of acts,
and `Net.blame_of_next` that a fault is blamed on the protocol state it occurs in. The
invariants of the network are proved for the acts.
-/

namespace Eamrp

open Lib Relation

/-- The state of the protocol. -/
structure Proto where
  route : NsAddr → NsAddr → Option Route
  seqno : NsAddr → UInt32
  wrapped : NsAddr → Bool
  flight : Set Packet

/-- The changes of the own sequence number of node `i`, with the mark of a wrap. -/
inductive OwnStep (heard : Input) (i : NsAddr) : UInt32 → Bool → UInt32 → Bool → Prop where
  /-- A RREQ is sent or a neighbour is lost. -/
  | bump {n n' : UInt32} {b b' : Bool} (hev : n % 2 = 0 → n' % 2 = 0)
      (h : b' = false → b = false ∧ n'.toNat = n.toNat + 2) : OwnStep heard i n b n' b'
  /-- The node replies to a RREQ for itself. -/
  | raise {n n' : UInt32} {b b' : Bool} {rq : HdrRequest} (hh : HearsRequest heard rq)
      (hd : rq.rqDst = i) (hev : n' % 2 = 0)
      (h : b' = false → b = false ∧ n'.toNat = raisedSeqno n.toNat rq.rqDstSeqno.toNat) :
      OwnStep heard i n b n' b'

namespace Proto

/-- Nothing has happened. -/
def init : Proto := ⟨fun _ _ => none, fun _ => 2, fun _ => false, ∅⟩

/-- Node `i` has the route `r` for `d` from now on. -/
def setRoute (σ : Proto) (i d : NsAddr) (r : Route) : Proto :=
  { σ with route := fun j x => if j = i ∧ x = d then some r else σ.route j x }

/-- Node `i` has the own number `n` from now on. -/
def setOwn (σ : Proto) (i : NsAddr) (n : UInt32) (b : Bool) : Proto :=
  { σ with seqno := Function.update σ.seqno i n, wrapped := Function.update σ.wrapped i b }

/-- The packet `p` is said. -/
def say (σ : Proto) (p : Packet) : Proto := { σ with flight := insert p σ.flight }

/-- The agent `w` is node `i` of the protocol state. -/
structure Shows (σ : Proto) (i : NsAddr) (w : World) : Prop where
  index : w.index = i
  seqno : w.seqno = σ.seqno i
  wrapped : w.seqnoWrapped = σ.wrapped i
  route : ∀ d, (w.rtLookup d).map RtEntry.route = σ.route i d

/-- A routing packet that node `i` handles has been said, to it or to everyone. -/
def Feeds (σ : Proto) (i : NsAddr) (heard : Input) : Prop :=
  ∀ q, heard = .recv q → q.isEamrp = true → ∃ p ∈ σ.flight, Net.Addressed p i ∧
    p.body = q.body ∧ p.ih.saddr = q.ih.saddr ∧ p.ih.daddr = q.ih.daddr

/-- What node `i` can do while it handles `heard`. -/
inductive Act (i : NsAddr) (env : Env) (heard : Input) : Proto → Proto → Prop where
  | route {σ : Proto} {d : NsAddr} {r r' : Route} (hr : σ.route i d = some r)
      (hs : RouteStep env.inf i d heard r r') : Act i env heard σ (σ.setRoute i d r')
  | create {σ : Proto} {d : NsAddr} (hr : σ.route i d = none) :
      Act i env heard σ (σ.setRoute i d .fresh)
  | own {σ : Proto} {n : UInt32} {b : Bool}
      (hs : OwnStep heard i (σ.seqno i) (σ.wrapped i) n b) : Act i env heard σ (σ.setOwn i n b)
  | say {σ : Proto} {w : World} {p : Packet} (hw : σ.Shows i w) (hs : Speaks env heard w p) :
      Act i env heard σ (σ.say p)

/-- One act while node `i` handles an input it has been fed. -/
structure Acts (i : NsAddr) (env : Env) (heard : Input) (σ σ' : Proto) : Prop where
  feeds : σ.Feeds i heard
  act : Act i env heard σ σ'

/-- One act of some node. -/
def Step (P : Params) (σ σ' : Proto) : Prop :=
  ∃ i ∈ P.nodes, ∃ env heard, env.inf = P.inf ∧ Acts i env heard σ σ'

/-- The reachable states of the protocol. -/
def Reach (P : Params) (σ : Proto) : Prop := ReflTransGen (Step P) init σ

/-- No node's own sequence number has wrapped. -/
def NoWrap (σ : Proto) : Prop := ∀ i, σ.wrapped i = false

end Proto

/-- The protocol state of a network. -/
def Net.proto (s : Net) : Proto where
  route i d := (s.entry i d).map RtEntry.route
  seqno i := (s.node i).seqno
  wrapped i := (s.node i).seqnoWrapped
  flight := {p | p ∈ s.flight}

/-- The protocol state in the middle of an event: node `i` is `w`. -/
def Net.during (s : Net) (i : NsAddr) (w : World) : Proto where
  route j d := if j = i then (w.rtLookup d).map RtEntry.route else s.proto.route j d
  seqno := Function.update s.proto.seqno i w.seqno
  wrapped := Function.update s.proto.wrapped i w.seqnoWrapped
  flight := {p | p ∈ s.flight ∨ p ∈ w.sent}

namespace World

/-- Adding 2 keeps an even number even, also when it wraps. -/
theorem even_setSeqno {w : World} (h : w.seqno % 2 = 0) :
    (w.setSeqno (w.seqno.toNat + 2)).seqno % 2 = 0 := by
  have hset : (w.setSeqno (w.seqno.toNat + 2)).seqno = w.seqno + 2 := by
    simp [World.setSeqno, UInt32.ofNat_add]
  rw [hset]
  grind

/-- The destination of a RREQ makes its number even. -/
theorem even_raiseSeqno (rq : HdrRequest) (w : World) : (w.raiseSeqno rq).seqno % 2 = 0 := by
  have hev : ∀ v : World, (if v.seqno % 2 ≠ 0 then v.setSeqno (v.seqno.toNat + 1)
      else v).seqno % 2 = 0 := by
    intro v
    split
    · next h =>
      have hset : (v.setSeqno (v.seqno.toNat + 1)).seqno = v.seqno + 1 := by
        simp [World.setSeqno, UInt32.ofNat_add]
      rw [hset]
      grind
    · next h => exact not_not.mp h
  exact hev _

end World

namespace Net

variable {s s' : Net} {i : NsAddr} {env : Env} {heard : Input} {w w' : World} {P : Params}

theorem proto_of_initial (h : s.Initial) : s.proto = Proto.init := by
  have hn : ∀ i, (s.node i).rtable = [] ∧ (s.node i).seqno = 2 ∧
      (s.node i).seqnoWrapped = false := by
    intro i
    rw [h.node i]
    exact ⟨rfl, rfl, rfl⟩
  simp [proto, Proto.init, entry, RTable.rtLookup, hn, h.flight]

theorem route_proto {i d : NsAddr} {e : RtEntry} (h : s.entry i d = some e) :
    s.proto.route i d = some e.route := by
  simp [proto, h]

theorem during_start : s.during i (s.node i).world = s.proto := by
  have hr : ∀ j d, (if j = i then ((s.node i).world.rtLookup d).map RtEntry.route
      else s.proto.route j d) = s.proto.route j d := by
    intro j d
    split
    · next h => rw [h]; rfl
    · rfl
  have hs : Function.update s.proto.seqno i (s.node i).world.seqno = s.proto.seqno :=
    Function.update_eq_self i s.proto.seqno
  have hw : Function.update s.proto.wrapped i (s.node i).world.seqnoWrapped = s.proto.wrapped :=
    Function.update_eq_self i s.proto.wrapped
  have hf : {p | p ∈ s.flight ∨ p ∈ (s.node i).world.sent} = s.proto.flight := by
    ext p
    simp [proto, Agent.world, World.sent]
  simp only [during, hr, hs, hw, hf]

theorem during_finish {t : Time} :
    s.during i w = Net.proto ⟨Function.update s.node i w.toAgent, s.flight ++ w.sent, t⟩ := by
  have hr : ∀ j d, (if j = i then (w.rtLookup d).map RtEntry.route else s.proto.route j d) =
      ((Function.update s.node i w.toAgent j).rtable.rtLookup d).map RtEntry.route := by
    intro j d
    by_cases h : j = i
    · subst h; simp [World.rtLookup]
    · simp [h, proto, entry]
  have hu : ∀ {α : Type} (f : Agent → α), Function.update (fun j => f (s.node j)) i (f w.toAgent) =
      fun j => f (Function.update s.node i w.toAgent j) := by
    intro α f
    funext j
    by_cases h : j = i
    · subst h; simp
    · simp [h]
  have hs := hu Agent.seqno
  have hw := hu Agent.seqnoWrapped
  simp only [during, hr]
  simp only [proto, hs, hw, entry, List.mem_append]

theorem shows_during (hi : w.index = i) : (s.during i w).Shows i w :=
  ⟨hi, by simp [during], by simp [during], fun d => by simp [during]⟩

theorem during_send (w : World) (p : Packet) (delay : Time) :
    s.during i (w.send p delay) = (s.during i w).say p := by
  simp only [during, Proto.say, World.sent_send]
  congr 1
  ext q
  simp only [List.mem_append, List.mem_singleton, Set.mem_ofPred_eq, Set.mem_insert_iff]
  tauto

/-- The own number after an elementary step that assigns it. -/
theorem ownStep_bump (w : World) (i : NsAddr) :
    OwnStep heard i w.seqno w.seqnoWrapped (w.setSeqno (w.seqno.toNat + 2)).seqno
      (w.setSeqno (w.seqno.toNat + 2)).seqnoWrapped := by
  refine .bump World.even_setSeqno fun h => ?_
  obtain ⟨h1, -, h2⟩ := World.setSeqno_spec h
  exact ⟨h1, h2⟩

theorem ownStep_raise {rq : HdrRequest} (hh : HearsRequest heard rq) (hd : rq.rqDst = i)
    (w : World) :
    OwnStep heard i w.seqno w.seqnoWrapped (w.raiseSeqno rq).seqno
      (w.raiseSeqno rq).seqnoWrapped :=
  .raise hh hd (World.even_raiseSeqno rq w) World.raiseSeqno_spec

/-- An elementary step of the agent is an act, or does not show in the protocol state. -/
theorem act_of_step (hi : w.index = i) (h : Eamrp.Step env heard w w') :
    w'.index = i ∧ (s.during i w' = s.during i w ∨
      Proto.Act i env heard (s.during i w) (s.during i w')) := by
  have hshow : (s.during i w).Shows i w := shows_during hi
  cases h with
  | @entry e e' h hs =>
    refine ⟨hi, ?_⟩
    obtain ⟨hd, hs⟩ := hs.route
    have hr : (s.during i w).route i e.rtDst = some e.route := by rw [← hshow.route, h]; rfl
    have hw : s.during i (w.store e') = (s.during i w).setRoute i e.rtDst e'.route := by
      simp only [during, Proto.setRoute]
      congr 1
      funext j x
      by_cases hj : j = i
      · subst hj
        by_cases hx : x = e.rtDst
        · subst hx
          simp [World.rtLookup_store, hd, h]
        · simp [World.rtLookup_store, hd, hx]
      · simp [hj]
    rcases hs with hs | hs
    · left
      rw [hw, hs]
      simp only [Proto.setRoute]
      congr 1
      funext j x
      split
      · next hjx => rw [hjx.1, hjx.2]; exact hr.symm
      · rfl
    · right
      rw [hw]
      rw [hi] at hs
      exact .route hr hs
  | @rtAdd w' d h =>
    have hnone : w.rtLookup d = none := by
      unfold World.rtAdd RTable.rtAdd at h
      by_cases hs : (RTable.rtLookup w.rtable d).isSome = true
      · simp [hs] at h
      · simpa [World.rtLookup] using hs
    have hw' : w' = { w with rtable := { rtDst := d, rtHops := env.rtHops d } :: w.rtable } := by
      have hn' : RTable.rtLookup w.rtable d = none := hnone
      unfold World.rtAdd RTable.rtAdd at h
      simpa [hn', eq_comm] using h
    subst hw'
    refine ⟨hi, .inr ?_⟩
    have hr : (s.during i w).route i d = none := by rw [← hshow.route, hnone]; rfl
    have hw : s.during i { w with rtable := { rtDst := d, rtHops := env.rtHops d } :: w.rtable } =
        (s.during i w).setRoute i d .fresh := by
      simp only [during, Proto.setRoute]
      congr 1
      funext j x
      by_cases hj : j = i
      · subst hj
        simp only [World.rtLookup, RTable.rtLookup_cons]
        by_cases hx : x = d
        · subst hx
          simp [RtEntry.route, Route.fresh]
        · simp [hx, Ne.symm hx]
      · simp [hj]
    rw [hw]
    exact .create hr
  | bumpSeqno =>
    refine ⟨hi, .inr ?_⟩
    have hw : s.during i (w.setSeqno (w.seqno.toNat + 2)) = (s.during i w).setOwn i
        (w.setSeqno (w.seqno.toNat + 2)).seqno (w.setSeqno (w.seqno.toNat + 2)).seqnoWrapped := by
      simp only [during, Proto.setOwn, Function.update_idem]
      rfl
    rw [hw]
    refine .own ?_
    rw [← hshow.seqno, ← hshow.wrapped]
    exact ownStep_bump w i
  | @raiseSeqno rq h hd =>
    refine ⟨(w.index_raiseSeqno rq).trans hi, .inr ?_⟩
    have hw : s.during i (w.raiseSeqno rq) = (s.during i w).setOwn i
        (w.raiseSeqno rq).seqno (w.raiseSeqno rq).seqnoWrapped := by
      simp only [during, Proto.setOwn, Function.update_idem, World.rtLookup,
        w.rtable_raiseSeqno rq, w.sent_raiseSeqno rq]
    rw [hw]
    refine .own ?_
    rw [← hshow.seqno, ← hshow.wrapped]
    exact ownStep_raise h (hd.trans hi) w
  | frame h =>
    refine ⟨h.index.trans hi, .inl ?_⟩
    simp only [during, h.rtLookup, h.seqno, h.seqnoWrapped, h.sent]
  | cache => exact ⟨hi, .inl rfl⟩
  | neighbors => exact ⟨hi, .inl rfl⟩
  | @send p delay h =>
    refine ⟨hi, .inr ?_⟩
    rw [during_send]
    exact .say hshow h

/-- What is offered to a node has been said. -/
theorem feeds_during {inp : Input} (h : s.Offers i inp) : (s.during i w).Feeds i inp.aged := by
  intro q hq hE
  cases inp with
  | recv q' =>
    obtain rfl : _ = q := by simpa [Input.aged] using hq
    obtain ⟨p, hp, ha, rfl⟩ := h (by simpa [Packet.isEamrp] using hE)
    exact ⟨p, .inl hp, ha, rfl, rfl, rfl⟩
  | _ => simp [Input.aged] at hq

theorem feeds_proto {inp : Input} (h : s.Offers i inp) : s.proto.Feeds i inp.aged := by
  have := feeds_during (w := (s.node i).world) h
  rwa [during_start] at this

theorem acts_of_steps {inp : Input} (ho : s.Offers i inp) (hi : w.index = i)
    (h : ReflTransGen (Eamrp.Step env inp.aged) w w') :
    w'.index = i ∧ ReflTransGen (Proto.Acts i env inp.aged) (s.during i w) (s.during i w') := by
  induction h with
  | refl => exact ⟨hi, .refl⟩
  | tail _ hs ih =>
    obtain ⟨hi', hacts⟩ := ih
    obtain ⟨hi'', heq | hact⟩ := act_of_step (s := s) hi' hs
    · exact ⟨hi'', by rwa [heq]⟩
    · exact ⟨hi'', hacts.tail ⟨feeds_during ho, hact⟩⟩

/-- A step of the network is a run of the handler at one node. -/
theorem next_ok {ev : Event} (h : s.next ev = .ok s') :
    ∃ w, handle ev.env ev.input (s.node ev.node).world = .ok w ∧
      s' = ⟨Function.update s.node ev.node w.toAgent, s.flight ++ w.sent, ev.env.now⟩ := by
  unfold next at h
  cases hw : handle ev.env ev.input (s.node ev.node).world with
  | error f => rw [hw] at h; cases h
  | ok w =>
    rw [hw] at h
    exact ⟨w, rfl, (Except.ok.inj h).symm⟩

/-- A step of the network is a sequence of acts of one node. -/
theorem acts_of_next {ev : Event} (hen : s.Enabled P ev) (hi : (s.node ev.node).index = ev.node)
    (h : s.next ev = .ok s') :
    (s'.node ev.node).index = ev.node ∧
      ReflTransGen (Proto.Acts ev.node ev.env ev.input.aged) s.proto s'.proto := by
  obtain ⟨w, hw, rfl⟩ := next_ok h
  have hruns := @handle_runs ev.env ev.input (s.node ev.node).world
  rw [hw] at hruns
  obtain ⟨hi', hacts⟩ := acts_of_steps hen.offers hi hruns.steps_of_ok
  rw [during_start, id, during_finish] at hacts
  exact ⟨by simpa using hi', hacts⟩

/-- Every packet that elementary steps send is spoken in one of them. -/
theorem spoken_of_steps (h : ReflTransGen (Eamrp.Step env heard) w w') {p : Packet}
    (hp : p ∈ w'.sent) : p ∈ w.sent ∨ ∃ v delay, ReflTransGen (Eamrp.Step env heard) w v ∧
      Speaks env heard v p ∧ ReflTransGen (Eamrp.Step env heard) (v.send p delay) w' := by
  induction h with
  | refl => exact .inl hp
  | @tail v v' hv hs ih =>
    have hold : p ∈ v.sent → p ∈ w.sent ∨ ∃ u delay, ReflTransGen (Eamrp.Step env heard) w u ∧
        Speaks env heard u p ∧ ReflTransGen (Eamrp.Step env heard) (u.send p delay) v' := by
      intro hp
      rcases ih hp with hp | ⟨u, delay, hu, hsp, hrest⟩
      · exact .inl hp
      · exact .inr ⟨u, delay, hu, hsp, hrest.tail hs⟩
    cases hs with
    | entry => exact hold hp
    | rtAdd h =>
      refine hold ?_
      unfold World.rtAdd at h
      split at h
      · obtain rfl := Except.ok.inj h
        exact hp
      · cases h
    | bumpSeqno => exact hold hp
    | raiseSeqno => exact hold (by rwa [World.sent_raiseSeqno] at hp)
    | frame h => exact hold (by rwa [h.sent] at hp)
    | cache => exact hold hp
    | neighbors => exact hold hp
    | @send q delay h =>
      rw [World.sent_send] at hp
      rcases List.mem_append.mp hp with hp | hp
      · exact hold hp
      · obtain rfl := List.mem_singleton.mp hp
        exact .inr ⟨v, delay, hv, h, .refl⟩

/-- Every packet that a step of the network sends is said in one of its acts. -/
theorem said_of_next {ev : Event} (hen : s.Enabled P ev) (hi : (s.node ev.node).index = ev.node)
    (h : s.next ev = .ok s') {p : Packet} (hp : p ∈ s'.flight.drop s.flight.length) :
    ∃ σ w, ReflTransGen (Proto.Acts ev.node ev.env ev.input.aged) s.proto σ ∧
      σ.Shows ev.node w ∧ Speaks ev.env ev.input.aged w p ∧
      ReflTransGen (Proto.Acts ev.node ev.env ev.input.aged) (σ.say p) s'.proto := by
  obtain ⟨w, hw, rfl⟩ := next_ok h
  have hruns := @handle_runs ev.env ev.input (s.node ev.node).world
  rw [hw] at hruns
  have hp : p ∈ w.sent := by simpa using hp
  rcases spoken_of_steps hruns.steps_of_ok hp with hp | ⟨v, delay, hv, hsp, hrest⟩
  · simp [Agent.world, World.sent] at hp
  · obtain ⟨hi', hacts⟩ := acts_of_steps hen.offers hi hv
    obtain ⟨-, hacts'⟩ := acts_of_steps (w := v.send p delay) hen.offers hi' hrest
    have hfin := @during_finish s ev.node w ev.env.now
    rw [during_start] at hacts
    rw [during_send, id, hfin] at hacts'
    exact ⟨_, v, hacts, shows_during hi', hsp, hacts'⟩

/-- A fault is blamed on a protocol state that acts of the node lead to. -/
theorem blame_of_next {ev : Event} {f : Fault} (hen : s.Enabled P ev)
    (hi : (s.node ev.node).index = ev.node) (h : s.next ev = .error f) :
    ∃ σ w, ReflTransGen (Proto.Acts ev.node ev.env ev.input.aged) s.proto σ ∧
      σ.Shows ev.node w ∧ Blame ev.input.aged w f := by
  unfold next at h
  have hruns := @handle_runs ev.env ev.input (s.node ev.node).world
  cases hw : handle ev.env ev.input (s.node ev.node).world with
  | ok w => rw [hw] at h; cases h
  | error g =>
    rw [hw] at h hruns
    obtain rfl := Except.error.inj h
    obtain ⟨w, hsteps, hblame⟩ := hruns.blame_of_error
    obtain ⟨hi', hacts⟩ := acts_of_steps hen.offers hi hsteps
    rw [during_start] at hacts
    exact ⟨_, w, hacts, shows_during hi', hblame⟩

/-- Nodes keep their addresses. -/
theorem index_of_reachable (h : s.Reachable P) (j : NsAddr) : (s.node j).index = j := by
  refine Lib.Reachable.induct (I := fun s => (s.node j).index = j) ?_ ?_ h
  · intro s h
    rw [h.node j]
  · intro s ev s' _ ih hs
    by_cases hj : j = ev.node
    · subst hj
      exact (acts_of_next hs.1 ih hs.2).1
    · obtain ⟨w, -, rfl⟩ := next_ok hs.2
      simpa [hj] using ih

end Net

namespace Net

/-- Nothing happens outside the nodes of the network. -/
theorem initial_of_notMem {P : Params} {s : Net} (h : s.Reachable P) {i : NsAddr}
    (hi : i ∉ P.nodes) : (s.node i).Initial i := by
  refine Lib.Reachable.induct (I := fun s => (s.node i).Initial i) ?_ ?_ h
  · exact fun s h => h.node i
  · intro s ev s' _ ih hs
    obtain ⟨w, -, rfl⟩ := next_ok hs.2
    have hne : i ≠ ev.node := fun heq => hi (heq ▸ hs.1.node)
    simpa [hne] using ih

/-- Only the nodes of the network have entries. -/
theorem mem_of_entry {P : Params} {s : Net} (h : s.Reachable P) {i d : NsAddr} {e : RtEntry}
    (he : s.entry i d = some e) : i ∈ P.nodes := by
  by_contra hi
  rw [entry, initial_of_notMem h hi] at he
  cases he

/-- Only the nodes of the network can have wrapped. -/
theorem noWrap_of_nodes {P : Params} {s : Net} (h : s.Reachable P)
    (hn : ∀ i ∈ P.nodes, (s.node i).seqnoWrapped = false) : s.NoWrap := by
  intro i
  by_cases hi : i ∈ P.nodes
  · exact hn i hi
  · rw [initial_of_notMem h hi]

theorem noWrap_discovery (inf : Infinity) : (idle.final (discovery inf)).NoWrap := by
  refine noWrap_of_nodes (reachable_discovery inf) ?_
  cases inf <;> decide +kernel

end Net

namespace Proto

variable {P : Params} {σ σ' : Proto} {i : NsAddr} {env : Env} {heard : Input}

/-- Acts lead from reachable states to reachable states. -/
theorem Reach.acts (h : σ.Reach P) (hi : i ∈ P.nodes) (he : env.inf = P.inf)
    (hs : ReflTransGen (Acts i env heard) σ σ') : σ'.Reach P :=
  h.trans (hs.lift id fun _ _ ha => ⟨i, hi, env, heard, he, ha⟩)

/-- Induction over the reachable states of the protocol. -/
theorem Reach.induct {I : Proto → Prop} (hinit : I init)
    (hact : ∀ σ σ' i env heard, i ∈ P.nodes → env.inf = P.inf → σ.Reach P → σ.Feeds i heard →
      Act i env heard σ σ' → I σ → I σ') (h : σ.Reach P) : I σ := by
  induction h with
  | refl => exact hinit
  | tail hreach hstep ih =>
    obtain ⟨i, hi, env, heard, he, ha⟩ := hstep
    exact hact _ _ i env heard hi he hreach ha.feeds ha.act ih

/-- A wrap is never forgotten. -/
theorem NoWrap.of_act (ha : Act i env heard σ σ') (h : σ'.NoWrap) : σ.NoWrap := by
  cases ha with
  | own hs =>
    intro j
    by_cases hj : j = i
    · subst hj
      have hb := h j
      simp only [setOwn, Function.update_self] at hb
      cases hs with
      | bump _ hs => exact (hs hb).1
      | raise _ _ _ hs => exact (hs hb).1
    · have := h j
      simpa [setOwn, hj] using this
  | _ => exact h

/-- A wrap is never forgotten during a sequence of acts. -/
theorem NoWrap.of_acts (ha : ReflTransGen (Acts i env heard) σ σ') (h : σ'.NoWrap) :
    σ.NoWrap := by
  induction ha using ReflTransGen.head_induction_on with
  | refl => exact h
  | head hs _ ih => exact .of_act hs.act ih

/-- Nothing that has been said is taken back. -/
theorem Act.flight (ha : Act i env heard σ σ') : σ.flight ⊆ σ'.flight := by
  cases ha with
  | say => exact Set.subset_insert _ _
  | _ => exact subset_rfl

/-- Induction over the reachable states in which no own number has wrapped. -/
theorem Reach.induct_noWrap {I : Proto → Prop} (hinit : I init)
    (hact : ∀ σ σ' i env heard, i ∈ P.nodes → env.inf = P.inf → σ.Reach P → σ'.NoWrap →
      σ.Feeds i heard → Act i env heard σ σ' → I σ → I σ') (h : σ.Reach P) (hw : σ.NoWrap) :
    I σ := by
  refine Reach.induct (I := fun σ => σ.NoWrap → I σ) (fun _ => hinit) ?_ h hw
  intro σ σ' i env heard hi he hreach hf ha ih hw'
  exact hact σ σ' i env heard hi he hreach hw' hf ha (ih (.of_act ha hw'))

end Proto

/-- The protocol state of a reachable network is reachable. -/
theorem Net.Reachable.proto {P : Params} {s : Net} (h : s.Reachable P) : s.proto.Reach P := by
  refine Lib.Reachable.induct (I := fun s => s.proto.Reach P) ?_ ?_ h
  · intro s h
    rw [Net.proto_of_initial h]
    exact .refl
  · intro s ev s' hreach ih hs
    exact ih.acts hs.1.node hs.1.inf
      (Net.acts_of_next hs.1 (Net.index_of_reachable hreach _) hs.2).2

/-! ### Moves of a run -/

namespace Net

variable {P : Params} {s s' : Net} {t : List (Move Net Event)} {m : Move Net Event}

/-- A step of a reachable network is a sequence of acts. -/
theorem Step.acts {ev : Event} (hr : s.Reachable P) (hs : Step P s ev s') :
    ReflTransGen (Proto.Acts ev.node ev.env ev.input.aged) s.proto s'.proto :=
  (acts_of_next hs.1 (index_of_reachable hr _) hs.2).2

/-- The states along a run without a wrap are without a wrap. -/
theorem Run.noWrap (h : Run P t s) (hw : s.NoWrap) (hm : m ∈ t) :
    m.src.NoWrap ∧ m.tgt.NoWrap := by
  have hrel := Lib.Run.related (P := fun a b : Net => b.NoWrap → a.NoWrap) (fun _ => id)
    (fun _ _ _ h₁ h₂ h => h₁ (h₂ h))
    (fun a ev b hr hs hb => Proto.NoWrap.of_acts (Step.acts hr hs) hb) h hm
  exact ⟨hrel.1 hw, hrel.2 hw⟩

/-- The moment in a move at which a packet is said. -/
structure Utterance (P : Params) (m : Move Net Event) (p : Packet) (σ : Proto) (w : World) :
    Prop where
  reach : m.src.Reachable P
  step : Step P m.src m.label m.tgt
  before : ReflTransGen (Proto.Acts m.label.node m.label.env m.label.input.aged) m.src.proto σ
  shows : σ.Shows m.label.node w
  speaks : Speaks m.label.env m.label.input.aged w p
  after : ReflTransGen (Proto.Acts m.label.node m.label.env m.label.input.aged) (σ.say p)
    m.tgt.proto

/-- Every packet that a move of a run hands to the medium is said at some moment of it. -/
theorem Run.utterance (h : Run P t s) (hm : m ∈ t) {p : Packet} (hp : p ∈ sentBy m) :
    ∃ σ w, Utterance P m p σ w := by
  obtain ⟨hr, hs⟩ := Lib.Run.of_mem h hm
  obtain ⟨σ, w, hb, hsh, hsp, ha⟩ := said_of_next hs.1 (index_of_reachable hr _) hs.2 hp
  exact ⟨σ, w, hr, hs, hb, hsh, hsp, ha⟩

namespace Utterance

variable {p : Packet} {σ : Proto} {w : World}

/-- The protocol state in which a packet is said is reachable. -/
theorem reachable (h : Utterance P m p σ w) : σ.Reach P :=
  h.reach.proto.acts h.step.1.node h.step.1.inf h.before

/-- No wrap after a move is no wrap when the packet is said. -/
theorem noWrap (h : Utterance P m p σ w) (hw : m.tgt.NoWrap) : σ.NoWrap :=
  Proto.NoWrap.of_acts (σ := σ.say p) h.after hw

end Utterance

end Net

end Eamrp
