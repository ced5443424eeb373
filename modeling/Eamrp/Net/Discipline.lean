import Eamrp.Net.Fresh

/-!
# The discipline of sequence numbers

The invariants of `Eamrp.Net.Parity`, `Eamrp.Net.Bound` and `Eamrp.Net.Fresh`, read back on
routing tables and packets of a network.
-/

namespace Eamrp

namespace Net

variable {P : Params} {s s' : Net} {t : List (Lib.Move Net Event)}

/-! ### Parity -/

/-- In an earlier state of the run the entry of node `i` for `d` was `RTF_UP`. -/
def WasUp (t : List (Lib.Move Net Event)) (i d : NsAddr) : Prop :=
  ∃ m ∈ t, ∃ e, (m.src.entry i d = some e ∨ m.tgt.entry i d = some e) ∧ e.rtFlags = .up

/-- Sequence numbers at the end of the run `t`: even where valid, odd where a route was
lost. -/
structure ParityDiscipline (t : List (Lib.Move Net Event)) (s : Net) : Prop where
  own : ∀ i, (s.node i).seqno % 2 = 0
  up : ∀ i d e, s.entry i d = some e → e.rtFlags = .up → e.rtSeqno % 2 = 0 ∧ 2 ≤ e.rtSeqno
  down : ∀ i d e, s.entry i d = some e → e.rtFlags = .down →
    e.rtSeqno % 2 = 1 ∨ e.rtSeqno = 0 ∧ ¬ WasUp t i d
  rreq : ∀ p ∈ s.flight, ∀ rq, p.body = .rreq rq → rq.rqSrcSeqno % 2 = 0
  reply : ∀ p ∈ s.flight, ∀ rp, p.body = .rrep rp ∨ p.body = .hello rp → rp.rpDstSeqno % 2 = 0
  rerr : ∀ p ∈ s.flight, ∀ re, p.body = .rerr re → ∀ u ∈ re, u.2 % 2 = 1 ∨ u.2 = 0

/-- The asserts on the parity of sequence numbers (lines 406, 879, 1221, 1447 and 1653) and
those that an entry with the received sequence number is up (lines 776 and 1034). -/
def seqnoFaults : List Fault :=
  [.linkFailureSeqno, .answerSeqno, .errorSeqno, .requestSeqno, .nbDeleteSeqno, .requestDown,
    .replyDown]

/-- Entries stay, and their numbers do not decrease. -/
theorem seqno_le_of_step {ev : Event} (hr : s.Reachable P) (hs : Step P s ev s') {i d : NsAddr}
    {e : RtEntry} (he : s.entry i d = some e) :
    ∃ e', s'.entry i d = some e' ∧ e.rtSeqno ≤ e'.rtSeqno := by
  have hacts : ∀ σ, Relation.ReflTransGen
      (Proto.Acts ev.node ev.env ev.input.aged) s.proto σ →
      ∃ r, σ.route i d = some r ∧ e.rtSeqno ≤ r.seqno := by
    intro σ hσ
    induction hσ with
    | refl => exact ⟨e.route, route_proto he, UInt32.le_refl _⟩
    | tail hpre hact ih =>
      obtain ⟨r, hr₁, hle⟩ := ih
      obtain ⟨r', hr', hle'⟩ :=
        (hr.proto.acts hs.1.node hs.1.inf hpre).seqno_le hact.feeds hact.act hr₁
      exact ⟨r', hr', UInt32.le_trans hle hle'⟩
  obtain ⟨r, hr', hle⟩ := hacts _ (Step.acts hr hs)
  obtain ⟨e', he', rfl⟩ := Option.map_eq_some_iff.mp hr'
  exact ⟨e', he', hle⟩

/-- No move of a run makes the number of an entry smaller. -/
theorem Run.seqno_le (h : Run P t s) {m : Lib.Move Net Event} (hm : m ∈ t) {i d : NsAddr}
    {e : RtEntry} (he : m.src.entry i d = some e ∨ m.tgt.entry i d = some e) :
    ∃ e', s.entry i d = some e' ∧ e.rtSeqno ≤ e'.rtSeqno := by
  have hrel := Lib.Run.related
    (P := fun a b : Net => ∀ e, a.entry i d = some e →
      ∃ e', b.entry i d = some e' ∧ e.rtSeqno ≤ e'.rtSeqno)
    (fun _ e he => ⟨e, he, UInt32.le_refl _⟩)
    (fun a b c hab hbc e he => by
      obtain ⟨e₁, he₁, h₁⟩ := hab e he
      obtain ⟨e₂, he₂, h₂⟩ := hbc e₁ he₁
      exact ⟨e₂, he₂, UInt32.le_trans h₁ h₂⟩)
    (fun a ev b hr hs e he => seqno_le_of_step hr hs he) h hm
  rcases he with he | he
  · exact hrel.1 e he
  · exact hrel.2 e he

/-- An entry that was up in an earlier state of the run has a positive number. -/
theorem Run.seqno_of_wasUp (h : Run P t s) {i d : NsAddr} (hup : WasUp t i d) {e : RtEntry}
    (he : s.entry i d = some e) : 2 ≤ e.rtSeqno := by
  obtain ⟨m, hm, e₀, he₀, hup₀⟩ := hup
  obtain ⟨hr, hs⟩ := Lib.Run.of_mem h hm
  obtain ⟨e', he', hle⟩ := h.seqno_le hm he₀
  obtain rfl := Option.some.inj (he'.symm.trans he)
  have hfinal : ∀ a : Net, a.Reachable P → a.entry i d = some e₀ → 2 ≤ e'.rtSeqno := by
    intro a ha he₁
    have hp := ha.proto.parity.route i d _ (route_proto he₁)
    exact UInt32.le_trans (hp.up (by simp [RtEntry.route, hup₀])).2 hle
  rcases he₀ with he₀ | he₀
  · exact hfinal m.src hr he₀
  · exact hfinal m.tgt (hr.next hs) he₀

theorem Run.parityDiscipline (h : Run P t s) : s.ParityDiscipline t := by
  have hpar := (show s.Reachable P from ⟨t, h⟩).proto.parity
  refine ⟨hpar.own, ?_, ?_, ?_, ?_, ?_⟩
  · intro i d e he hup
    exact (hpar.route i d _ (route_proto he)).up (by simp [RtEntry.route, hup])
  · intro i d e he hdown
    rcases (hpar.route i d _ (route_proto he)).down (by simp [RtEntry.route, hdown]) with h1 | h0
    · exact .inl h1
    · refine .inr ⟨h0, fun hup => ?_⟩
      have hge := h.seqno_of_wasUp hup he
      have h0 : e.rtSeqno = 0 := h0
      rw [h0] at hge
      exact absurd hge (by decide)
  · intro p hp rq hb
    exact hpar.advert p hp 0 _ (by rw [Packet.advert, hb])
  · rintro p hp rp (hb | hb)
    · exact hpar.advert p hp 0 _ (by rw [Packet.advert, hb])
    · exact hpar.advert p hp 0 _ (by rw [Packet.advert, hb])
  · intro p hp re hb u hu
    exact hpar.error p.ih.saddr u.1 u.2 ⟨p, hp, re, hb, rfl, hu⟩

/-- A valid number that is advertised is not that of a route which is down. -/
theorem no_update_fault {σ : Proto} {i : NsAddr} {w : World} {A : Advert} {e : RtEntry}
    (hpar : σ.Parity) (hw : σ.Shows i w) (hA : A.seqno % 2 = 0 ∧ 2 ≤ A.seqno.toNat)
    (he : w.rtLookup A.dst = some e) (hs : e.rtSeqno = A.seqno) : e.rtFlags = .up := by
  by_contra hup
  have hr : σ.route i A.dst = some e.route := by rw [← hw.route, he]; rfl
  have hdown := (hpar.route _ _ _ hr).down (by simpa [RtEntry.route] using hup)
  have hs' : e.route.seqno = A.seqno := hs
  rw [hs'] at hdown
  rcases hdown with h1 | h0
  · rw [hA.1] at h1
    exact absurd h1 (by decide)
  · rw [h0] at hA
    exact absurd hA.2 (by decide)

/-- Validity discipline: in every run in which no own number has wrapped, sequence numbers
follow the parity discipline and none of the asserts about it fails. -/
theorem seqno_validity (h : Run P t s) (hw : s.NoWrap) :
    s.ParityDiscipline t ∧
      ∀ ev f, s.Enabled P ev → s.next ev = .error f → f ∉ seqnoFaults := by
  refine ⟨h.parityDiscipline, fun ev f hen hf hmem => ?_⟩
  have hreach : s.Reachable P := ⟨t, h⟩
  obtain ⟨σ, w, hacts, hshow, hblame⟩ :=
    blame_of_next hen (index_of_reachable hreach ev.node) hf
  have hpar := (hreach.proto.acts hen.node hen.inf hacts).parity
  have hroute : ∀ {d e}, w.rtLookup d = some e → e.rtFlags = .up → e.rtSeqno % 2 = 0 := by
    intro d e he hup
    have hr : σ.route ev.node d = some e.route := by rw [← hshow.route, he]; rfl
    exact ((hpar.route _ _ _ hr).up (by simp [RtEntry.route, hup])).1
  have hown : w.seqno % 2 = 0 := by
    rw [hshow.seqno]
    exact hpar.own _
  have hheard : ∀ {A}, Hears ev.input.aged w.index A → A.seqno % 2 = 0 ∧ 2 ≤ A.seqno.toNat := by
    intro A hA
    rw [hshow.index] at hA
    have hfeeds := feeds_proto hen.offers
    exact ⟨hreach.proto.parity.hears hfeeds hA,
      ((hreach.proto.bounded hw).hears hfeeds hA).1⟩
  have hup : (∃ A e, Hears ev.input.aged w.index A ∧ w.rtLookup A.dst = some e ∧
      e.rtSeqno = A.seqno ∧ A.hops.toUInt16 < e.rtAdvertisedHops ∧ e.rtFlags ≠ .up) → False := by
    rintro ⟨A, e, hA, he, hs, -, hdown⟩
    exact hdown (no_update_fault hpar hshow (hheard hA) he hs)
  simp only [seqnoFaults, List.mem_cons, List.not_mem_nil, or_false] at hmem
  rcases hmem with rfl | rfl | rfl | rfl | rfl | rfl | rfl
  · obtain ⟨d, e, he, hup, hodd⟩ := hblame
    exact hodd (hroute he hup)
  · obtain ⟨d, e, he, hup, hodd⟩ := hblame
    exact hodd (hroute he hup)
  · obtain ⟨d, e, he, hup, hodd⟩ := hblame
    exact hodd (hroute he hup)
  · exact hblame hown
  · exact hblame hown
  · exact hup hblame
  · exact hup hblame

/-- The run in which node 1 discovers a route over node 2. -/
theorem seqno_validity_discovery :
    (idle.final (discovery .mathH)).ParityDiscipline (idle.moves (discovery .mathH)) :=
  (seqno_validity (run_discovery .mathH) (noWrap_discovery .mathH)).1

/-! ### Freshness -/

/-- Freshness never decreases along next hops: in every reachable state in which no own number
has wrapped, the next hop of a stored path is the destination, with an own number at least
the `rt_seqno` of the entry, or has an entry for it with at least that `rt_seqno`. -/
theorem next_hop_fresh (h : s.Reachable P) (hw : s.NoWrap) {i d : NsAddr} {e : RtEntry}
    (he : s.entry i d = some e) {p : Path} (hp : p ∈ e.rtPathList) :
    (p.nexthop = d → e.rtSeqno ≤ (s.node d).seqno) ∧
      (p.nexthop ≠ d → ∃ e', s.entry p.nexthop d = some e' ∧ e.rtSeqno ≤ e'.rtSeqno) := by
  rcases (h.proto.fresh hw).route i d _ (route_proto he) p.leg (List.mem_map.mpr ⟨p, hp, rfl⟩)
    with ⟨hd, hle⟩ | ⟨hd, r, hr, hle⟩
  · exact ⟨fun _ => hle, fun hne => absurd hd hne⟩
  · refine ⟨fun heq => absurd heq hd, fun _ => ?_⟩
    obtain ⟨e', he', rfl⟩ := Option.map_eq_some_iff.mp hr
    exact ⟨e', he', hle⟩

/-- Node 1 has discovered a route to node 3 over node 2. -/
theorem next_hop_fresh_discovery :
    ∃ e e', (idle.final (discovery .mathH)).entry 1 3 = some e ∧
      (idle.final (discovery .mathH)).entry 2 3 = some e' ∧ e.rtSeqno ≤ e'.rtSeqno := by
  have hpath : ((idle.final (discovery .mathH)).entry 1 3).map
      (fun e => e.rtPathList.map Path.nexthop) = some [2] := by decide +kernel
  obtain ⟨e, he, hl⟩ := Option.map_eq_some_iff.mp hpath
  obtain ⟨p, hp, hn⟩ := List.mem_map.mp (hl ▸ List.mem_singleton_self (2 : NsAddr))
  obtain ⟨e', he', hle⟩ := (next_hop_fresh (reachable_discovery .mathH)
    (noWrap_discovery .mathH) he hp).2 (by rw [hn]; decide)
  exact ⟨e, e', he, hn ▸ he', hle⟩

end Net

end Eamrp
