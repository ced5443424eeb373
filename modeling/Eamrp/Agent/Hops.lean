import Eamrp.Abs.Calls
import Eamrp.Agent.Runs

/-!
# The hop count of an entry

`rt_hops` is the hop count of an entry with one route. The constructor leaves it as it finds it,
the handlers keep hop counts in the path list, and three asserts still read it.
-/

namespace Eamrp

open Lib Relation

/-! ### Nothing writes the hop count -/

theorem RtEntry.rtHops_rtDown (inf : Infinity) (e : RtEntry) : (e.rtDown inf).rtHops = e.rtHops := by
  unfold rtDown
  split
  · rfl
  · rfl

theorem EntryStep.rtHops {env : Env} {a : Agent} {heard : Input} {e e' : RtEntry}
    (h : EntryStep env a heard e e') : e'.rtHops = e.rtHops := by
  have hpurge : (e.pathPurge env.now).rtHops = e.rtHops := by
    obtain ⟨k, -, hk⟩ := e.pathPurge_eq env.now
    rw [hk]
  cases h with
  | soft h => exact h.rtHops
  | touch => rfl
  | refresh => rfl
  | renew => rfl
  | add => rfl
  | freeze => rfl
  | lose => rfl
  | fail => exact RtEntry.rtHops_rtDown _ _
  | hear => rfl
  | withdraw => exact RtEntry.rtHops_rtDown _ _
  | purge => exact hpurge
  | expire => exact (RtEntry.rtHops_rtDown _ _).trans hpurge

theorem EntryStep.rtDst {env : Env} {a : Agent} {heard : Input} {e e' : RtEntry}
    (h : EntryStep env a heard e e') : e'.rtDst = e.rtDst := by
  have hpurge : (e.pathPurge env.now).rtDst = e.rtDst := by
    obtain ⟨k, -, hk⟩ := e.pathPurge_eq env.now
    rw [hk]
  cases h with
  | soft h => exact h.rtDst
  | touch => rfl
  | refresh => rfl
  | renew => rfl
  | add => rfl
  | freeze => rfl
  | lose => rfl
  | fail => exact RtEntry.rtDst_rtDown _ _
  | hear => rfl
  | withdraw => exact RtEntry.rtDst_rtDown _ _
  | purge => exact hpurge
  | expire => exact (RtEntry.rtDst_rtDown _ _).trans hpurge

/-- Entries stay with their hop counts, and a new one has what its memory held. -/
structure World.HopsKept (env : Env) (w w' : World) : Prop where
  known : ∀ d e, w.rtLookup d = some e → ∃ e', w'.rtLookup d = some e' ∧ e'.rtHops = e.rtHops
  new : ∀ d e', w.rtLookup d = none → w'.rtLookup d = some e' → e'.rtHops = env.rtHops d

namespace World.HopsKept

variable {env : Env} {w w' w'' : World}

theorem of_rtable (h : w'.rtable = w.rtable) : w.HopsKept env w' where
  known d e he := ⟨e, by rwa [rtLookup, h], rfl⟩
  new d e' hd he' := by
    rw [rtLookup, h] at he'
    cases hd.symm.trans he'

theorem trans (h : w.HopsKept env w') (h' : w'.HopsKept env w'') : w.HopsKept env w'' where
  known d e he := by
    obtain ⟨e₁, he₁, h₁⟩ := h.known d e he
    obtain ⟨e₂, he₂, h₂⟩ := h'.known d e₁ he₁
    exact ⟨e₂, he₂, h₂.trans h₁⟩
  new d e₂ hd he₂ := by
    cases hl : w'.rtLookup d with
    | none => exact h'.new d e₂ hl he₂
    | some e₁ =>
      obtain ⟨e, he, heq⟩ := h'.known d e₁ hl
      obtain rfl := Option.some.inj (he₂.symm.trans he)
      exact heq.trans (h.new d e₁ hd hl)

end World.HopsKept

/-- No elementary step writes a hop count. -/
theorem Step.hopsKept {env : Env} {heard : Input} {w w' : World} (h : Step env heard w w') :
    w.HopsKept env w' := by
  cases h with
  | @entry e e' hl hs =>
    have hdst : e'.rtDst = e.rtDst := hs.rtDst
    have hlook : ∀ d, (w.store e').rtLookup d =
        if d = e.rtDst then some e' else w.rtLookup d := by
      intro d
      rw [World.rtLookup_store, hdst]
      split
      · next hd => rw [hd, hl, Option.map_some]
      · rfl
    constructor
    · intro d x hx
      rw [hlook]
      split
      · next hd =>
        obtain rfl := Option.some.inj (hl.symm.trans (hd ▸ hx))
        exact ⟨e', rfl, hs.rtHops⟩
      · exact ⟨x, hx, rfl⟩
    · intro d x hnone hx
      rw [hlook] at hx
      split at hx
      · next hd => cases hl.symm.trans (hd ▸ hnone)
      · cases hnone.symm.trans hx
  | @rtAdd _ d h =>
    obtain ⟨hnone, rfl⟩ := World.rtAdd_ok h
    constructor
    · intro x e he
      refine ⟨e, ?_, rfl⟩
      refine (RTable.rtLookup_cons _ _ x).trans ?_
      rw [if_neg]
      · exact he
      · rintro rfl
        cases hnone.symm.trans he
    · intro x e hx he
      have he := (RTable.rtLookup_cons _ _ x).symm.trans he
      split at he
      · next hd =>
        obtain rfl := Option.some.inj he
        exact congrArg env.rtHops hd
      · cases hx.symm.trans he
  | bumpSeqno => exact .of_rtable rfl
  | raiseSeqno => exact .of_rtable (World.rtable_raiseSeqno _ _)
  | frame h => exact .of_rtable h.rtable
  | cache => exact .of_rtable rfl
  | neighbors => exact .of_rtable rfl
  | send => exact .of_rtable rfl

theorem World.HopsKept.of_steps {env : Env} {heard : Input} {w w' : World}
    (h : ReflTransGen (Step env heard) w w') : w.HopsKept env w' :=
  related_of_steps (P := World.HopsKept env) (fun _ => .of_rtable rfl) (fun _ _ _ => .trans)
    (fun _ _ hs => hs.hopsKept) h

/-! ### The asserts -/

/-- An assert on `rt_hops` is evaluated for the entry, which is up. -/
inductive Checks (env : Env) (w : World) (inp : Input) : RtEntry → Prop where
  /-- Line 509. -/
  | resolve {q : AppPacket} {e : RtEntry} (hq : Resolves w.index inp q)
      (he : w.rtLookup q.val.ih.daddr = some e) (hup : e.rtFlags = .up) : Checks env w inp e
  /-- Line 583. -/
  | purge {d : NsAddr} {s : World × Time} {e : RtEntry} (hin : inp = .routeCacheTimer)
      (hs : PurgeTurn env w d s) (he : s.1.rtLookup d = some e) (hup : e.rtFlags = .up)
      (hlive : env.now ≤ e.rtExpire) : Checks env w inp e
  /-- Line 1348. -/
  | request {d : NsAddr} {v : World} {e : RtEntry} (hc : Calls env w inp d v)
      (he : v.rtLookup d = some e) (hup : e.rtFlags = .up) : Checks env w inp e

/-- What the hop count of an entry should be: that of a path of the entry, and not the
sentinel. -/
def RtEntry.HopsValid (e : RtEntry) (hops : UInt16) : Prop :=
  hops ≠ infinity2 ∧ ∃ p ∈ e.rtPathList, p.hopcount = hops

section Checks

variable {env : Env} {w : World} {inp : Input} {e : RtEntry}

/-- `sendRequest` is called for routes that are down only. -/
theorem Calls.down {d : NsAddr} {v : World} (h : Calls env w inp d v)
    (he : v.rtLookup d = some e) : e.rtFlags ≠ .up := by
  cases h with
  | resolve _ _ _ _ hl hdown =>
    obtain rfl := Option.some.inj (hl.symm.trans he)
    exact hdown
  | purge _ _ hl hdown =>
    obtain rfl := Option.some.inj (hl.symm.trans he)
    exact hdown

/-- An assert that is evaluated on the sentinel stops the agent. -/
theorem Checks.fault (h : Checks env w inp e) (hinf : e.rtHops = infinity2) :
    handle env inp w = .error .upRouteHops := by
  cases h with
  | @resolve q _ hq he hup =>
    rw [handle_of_resolves hq]
    have hen : w.rtEnsure env q.val.ih.daddr = .ok w := by
      unfold World.rtEnsure
      rw [he]
    simp only [rtResolve, hen, ok_bind, he, hup, hinf, if_true]
  | @purge d s _ hin hs he hup hlive =>
    subst hin
    apply hs.error
    unfold rtPurgeEntry
    rw [he]
    dsimp only
    rw [if_neg fun hc => not_lt.mpr hlive hc.2, if_pos hup, if_pos hinf]
  | request hc he hup => exact absurd hup (hc.down he)

/-- The entry has had its hop count since the event began. -/
theorem Checks.rtHops (h : Checks env w inp e) :
    ∃ d e₀, w.rtLookup d = some e₀ ∧ e.rtDst = d ∧ e.rtHops = e₀.rtHops := by
  cases h with
  | resolve _ he => exact ⟨_, e, he, w.rtDst_of_rtLookup he, rfl⟩
  | @purge d s _ _ hs he =>
    obtain ⟨e₀, he₀⟩ := hs.mem
    obtain ⟨l, l', -, hloop⟩ := hs
    have hfollows := Follows.foldlM (π := Prod.fst) (B := Blame .routeCacheTimer)
      (R := Step env .routeCacheTimer) (f := rtPurgeEntry env) (J := fun _ => True) l (w, 0)
      trivial fun s dst _ _ => rtPurgeEntry_follows fun _ hq => by cases hq
    rw [hloop] at hfollows
    obtain ⟨e₁, he₁, heq⟩ := (World.HopsKept.of_steps hfollows.steps_of_ok).known d e₀ he₀
    obtain rfl := Option.some.inj (he.symm.trans he₁)
    exact ⟨d, e₀, he₀, s.1.rtDst_of_rtLookup he, heq⟩
  | request hc he hup => exact absurd hup (hc.down he)

end Checks

namespace Agent

/-- The entry for `d` is constructed in this move. -/
def Constructs (m : Move World Turn) (d : NsAddr) : Prop :=
  m.src.rtLookup d = none ∧ (m.tgt.rtLookup d).isSome = true

variable {t : List (Move World Turn)} {w : World} {d : NsAddr}

/-- Every entry has been constructed, and has the hop count that its memory held then. -/
theorem Run.constructed (h : Run t w) :
    (∀ m ∈ t, Constructs m d →
      ∃ e, w.rtLookup d = some e ∧ e.rtHops = m.label.env.rtHops d) ∧
      ∀ e, w.rtLookup d = some e → ∃ m ∈ t, Constructs m d := by
  induction h with
  | @start w hw =>
    have hnil : w.rtable = [] := by rw [hw.initial]
    refine ⟨fun m hm => absurd hm List.not_mem_nil, fun e he => ?_⟩
    rw [World.rtLookup, hnil] at he
    cases he
  | @move t w w' τ _ hs ih =>
    have hbegun : w.HopsKept τ.env w.toAgent.world := .of_rtable rfl
    have hkept : w.HopsKept τ.env w' := hbegun.trans (.of_steps (Handles.steps hs))
    obtain ⟨hknown, hmade⟩ := ih
    constructor
    · intro m hm hc
      rcases List.mem_append.mp hm with hm | hm
      · obtain ⟨e, he, hhops⟩ := hknown m hm hc
        obtain ⟨e', he', heq⟩ := hkept.known d e he
        exact ⟨e', he', heq.trans hhops⟩
      · obtain rfl := List.mem_singleton.mp hm
        obtain ⟨e', he'⟩ := Option.isSome_iff_exists.mp hc.2
        exact ⟨e', he', hkept.new d e' hc.1 he'⟩
    · intro e' he'
      cases hl : w.rtLookup d with
      | none =>
        refine ⟨_, List.mem_append_right _ (List.mem_singleton_self _), hl, ?_⟩
        exact Option.isSome_of_eq_some he'
      | some e =>
        obtain ⟨m, hm, hc⟩ := hmade e hl
        exact ⟨m, List.mem_append_left _ hm, hc⟩

/-- What the asserts on `rt_hops` rest on: in every run of an agent, and for whatever comes next,
each of them that is evaluated on an entry which is up finds there the hop count of a path of
the entry, other than the sentinel, if and only if that is what memory held when the entry was
constructed. On the sentinel the assert stops the agent. -/
theorem hops_asserts (h : Run t w) (env : Env) (inp : Input) :
    ((∀ e, Checks env w.toAgent.world inp e → e.HopsValid e.rtHops) ↔
      ∀ e, Checks env w.toAgent.world inp e → ∀ m ∈ t, Constructs m e.rtDst →
        e.HopsValid (m.label.env.rtHops e.rtDst)) ∧
      ∀ e, Checks env w.toAgent.world inp e → e.rtHops = infinity2 →
        handle env inp w.toAgent.world = .error .upRouteHops := by
  have hborn : ∀ e, Checks env w.toAgent.world inp e →
      (∃ m ∈ t, Constructs m e.rtDst) ∧
        ∀ m ∈ t, Constructs m e.rtDst → m.label.env.rtHops e.rtDst = e.rtHops := by
    intro e hc
    obtain ⟨d, e₀, he₀, rfl, heq⟩ := hc.rtHops
    obtain ⟨hknown, hmade⟩ := h.constructed (d := e.rtDst)
    refine ⟨hmade e₀ he₀, fun m hm hm' => ?_⟩
    obtain ⟨e₁, he₁, hhops⟩ := hknown m hm hm'
    obtain rfl := Option.some.inj (Eq.trans he₀.symm he₁)
    exact hhops.symm.trans heq.symm
  refine ⟨⟨fun hall e hc m hm hm' => ?_, fun hall e hc => ?_⟩, fun e hc => hc.fault⟩
  · rw [(hborn e hc).2 m hm hm']
    exact hall e hc
  · obtain ⟨⟨m, hm, hm'⟩, hsame⟩ := hborn e hc
    rw [← hsame m hm hm']
    exact hall e hc m hm hm'

/-- Node 2 hears the HELLO of node 1, and the memory of the new entry held 0xff at `rt_hops`. -/
def staleMemory : List Turn :=
  let hello : Packet :=
    { ih := { saddr := 1, daddr := ipBroadcast, sport := rtPort, dport := rtPort, ttl := 1 }
      body := .hello { rpHopCount := 0, rpDst := 1, rpDstSeqno := 2, rpLifetime := 4 } }
  [⟨{ now := 0, rtHops := fun _ => 0xff, inf := .mathH }, .recv hello⟩]

theorem run_staleMemory : Run (moves (idle 2) staleMemory) (final (idle 2) staleMemory) :=
  run_idle (by decide +kernel)

/-- A packet of node 2 for node 1. -/
def toNeighbor : AppPacket := ⟨{ ih := { saddr := 2, daddr := 1 }, body := .app true }, rfl⟩

/-- The assert is evaluated for the new entry, whose hop count is the sentinel. -/
theorem checks_staleMemory :
    ∃ e, Checks { now := 1, inf := .mathH } (final (idle 2) staleMemory).toAgent.world
      (.recv toNeighbor.val) e ∧ e.rtHops = infinity2 := by
  have hl : ((final (idle 2) staleMemory).toAgent.world.rtLookup 1).map
      (fun e => (e.rtFlags, e.rtHops)) = some (.up, infinity2) := by decide +kernel
  obtain ⟨e, he, hpair⟩ := Option.map_eq_some_iff.mp hl
  obtain ⟨hup, hhops⟩ := Prod.mk.inj hpair
  exact ⟨e, .resolve ⟨toNeighbor, rfl, rfl⟩ he hup, hhops⟩

/-- The next packet for node 1 stops node 2. -/
theorem hops_assert_fails :
    ∃ t w, Run t w ∧ ∃ env inp e, Checks env w.toAgent.world inp e ∧ ¬ e.HopsValid e.rtHops ∧
      handle env inp w.toAgent.world = .error .upRouteHops := by
  obtain ⟨e, hc, hhops⟩ := checks_staleMemory
  exact ⟨_, _, run_staleMemory, _, _, e, hc, fun hv => hv.1 hhops, hc.fault hhops⟩

/-- So memory did not hold what it should have. -/
theorem hops_asserts_staleMemory :
    ¬ ∀ e, Checks { now := 1, inf := .mathH } (final (idle 2) staleMemory).toAgent.world
        (.recv toNeighbor.val) e →
      ∀ m ∈ moves (idle 2) staleMemory, Constructs m e.rtDst →
        e.HopsValid (m.label.env.rtHops e.rtDst) := by
  intro hcond
  obtain ⟨e, hc, hhops⟩ := checks_staleMemory
  exact ((hops_asserts run_staleMemory _ _).1.mpr hcond e hc).1 hhops

end Agent

end Eamrp
