import Eamrp.Agent.Buffer
import Eamrp.Agent.LinkFailure

/-!
# Expiry

What a tick of the route cache timer does to the routing table. No handler ever sets
`rt_expire` to anything but 0, so every entry that is up is purged at every tick.
-/

namespace Eamrp

open Lib

/-! ### What never changes -/

namespace RtEntry

theorem rtExpire_rtDown {inf : Infinity} {e : RtEntry} (h : e.rtExpire = 0) :
    (e.rtDown inf).rtExpire = 0 := by
  unfold rtDown
  split_ifs
  · exact h
  · rfl

theorem rtExpire_pathPurge (now : Time) (e : RtEntry) :
    (e.pathPurge now).rtExpire = e.rtExpire := by
  obtain ⟨k, -, hpurge⟩ := e.pathPurge_eq now
  rw [hpurge]

end RtEntry

/-- No change of an entry sets `rt_expire`. -/
theorem EntryStep.rtExpire {env : Env} {a : Agent} {heard : Input} {e e' : RtEntry}
    (h : EntryStep env a heard e e') (he : e.rtExpire = 0) : e'.rtExpire = 0 := by
  cases h with
  | soft h =>
    rcases h.rtExpire with hx | hx
    · exact hx.trans he
    · exact hx
  | touch => exact he
  | refresh => exact he
  | renew => exact he
  | add => exact he
  | freeze => exact he
  | lose => exact he
  | fail => exact RtEntry.rtExpire_rtDown he
  | hear => exact he
  | withdraw => exact RtEntry.rtExpire_rtDown he
  | purge => exact (RtEntry.rtExpire_pathPurge _ _).trans he
  | expire => exact RtEntry.rtExpire_rtDown ((RtEntry.rtExpire_pathPurge _ _).trans he)

namespace Agent

/-- The own number is even, and `rt_expire` is 0 everywhere. -/
structure Tidy (a : Agent) : Prop where
  seqno : a.seqno % 2 = 0
  rtExpire : ∀ e ∈ a.rtable, e.rtExpire = 0

end Agent

/-- Every elementary step leaves the agent tidy. -/
theorem Step.tidy {env : Env} {heard : Input} {w w' : World} (h : Step env heard w w')
    (hw : w.Tidy) : w'.Tidy := by
  refine ⟨?_, h.forall_entry (fun _ _ => rfl) (fun _ _ hs => hs.rtExpire) hw.rtExpire⟩
  cases h with
  | entry => exact hw.seqno
  | rtAdd h =>
    obtain ⟨-, rfl⟩ := World.rtAdd_ok h
    exact hw.seqno
  | bumpSeqno => exact World.even_setSeqno hw.seqno
  | raiseSeqno => exact World.even_raiseSeqno _ _
  | frame h => exact h.seqno ▸ hw.seqno
  | cache => exact hw.seqno
  | neighbors => exact hw.seqno
  | send => exact hw.seqno

theorem Agent.Reachable.tidy {a : Agent} (h : a.Reachable) : a.Tidy := by
  refine h.induct ?_ fun _ _ _ _ hs hw => hs.tidy hw
  intro i a hi
  rw [hi]
  refine ⟨?_, fun _ he => absurd he List.not_mem_nil⟩
  change (2 : UInt32) % 2 = 0
  decide

/-! ### One entry -/

namespace RtEntry

variable {inf : Infinity} {now : Time} {e e' : RtEntry}

/-- What a tick at time `now` does to an entry. -/
structure Expires (now : Time) (e e' : RtEntry) : Prop where
  rtDst : e'.rtDst = e.rtDst
  paths : e'.rtPathList = e.rtPathList.filter (fun p => decide (now ≤ p.expire))
  flags : e.rtFlags = .up →
    e'.rtFlags = if ∀ p ∈ e.rtPathList, p.expire < now then .down else .up
  seqno : e.rtFlags = .up → e'.rtFlags = .down →
    e'.rtSeqno % 2 = 1 ∧ (e.rtSeqno ≠ 4294967295 → e.rtSeqno < e'.rtSeqno)
  down : e.rtFlags = .down →
    e'.rtSeqno = e.rtSeqno ∧ e'.rtFlags = .down ∧ e'.rtPathList = e.rtPathList

/-- The paths that `path_purge` keeps have not expired. -/
theorem live_paths (now : Time) (e : RtEntry) :
    (e.pathPurge now).rtPathList = e.rtPathList.filter (fun p => decide (now ≤ p.expire)) := by
  rw [rtPathList_pathPurge]
  congr 1
  ext p
  rw [← decide_not]
  exact decide_eq_decide.mpr not_lt

theorem pathPurge_nil_iff :
    (e.pathPurge now).rtPathList = [] ↔ ∀ p ∈ e.rtPathList, p.expire < now := by
  rw [rtPathList_pathPurge, List.filter_eq_nil_iff]
  simp

/-- The number of an entry whose paths have expired is odd, and newer if there is a newer one. -/
theorem rtSeqno_expired (inf : Infinity) (e : RtEntry) :
    (e.expired inf).rtSeqno % 2 = 1 ∧
      (e.rtSeqno ≠ 4294967295 → e.rtSeqno < (e.expired inf).rtSeqno) := by
  unfold expired
  rw [rtSeqno_rtDown]
  dsimp only
  unfold macroMax
  split <;> split <;> grind

theorem expires_purge (hup : e.rtFlags = .up) (hne : (e.pathPurge now).rtPathList ≠ []) :
    e.Expires now (e.pathPurge now) := by
  obtain ⟨k, -, hpurge⟩ := e.pathPurge_eq now
  have hflags : (e.pathPurge now).rtFlags = .up := by
    rw [hpurge]
    exact hup
  refine ⟨by rw [hpurge], live_paths now e, fun _ => ?_, fun _ hd => ?_, fun hd => ?_⟩
  · rw [hflags, if_neg fun h => hne (pathPurge_nil_iff.mpr h)]
  · cases hflags.symm.trans hd
  · cases hup.symm.trans hd

variable (inf) in
theorem expires_expired (hup : e.rtFlags = .up) (hnil : (e.pathPurge now).rtPathList = []) :
    e.Expires now ((e.pathPurge now).expired inf) := by
  obtain ⟨k, -, hpurge⟩ := e.pathPurge_eq now
  have hflags : (e.pathPurge now).rtFlags = .up := by
    rw [hpurge]
    exact hup
  have hseqno : (e.pathPurge now).rtSeqno = e.rtSeqno := by rw [hpurge]
  have hdown : ((e.pathPurge now).expired inf).rtFlags = .down := rtFlags_rtDown _ _
  refine ⟨?_, ?_, fun _ => ?_, fun _ _ => ?_, fun hd => ?_⟩
  · rw [expired, rtDst_rtDown, hpurge]
  · rw [← live_paths, hnil, expired, rtDown_eq]
    exact fun hd => by cases hflags.symm.trans hd
  · rw [hdown, if_pos (pathPurge_nil_iff.mp hnil)]
  · rw [← hseqno]
    exact rtSeqno_expired inf _
  · cases hup.symm.trans hd

/-- An entry that is not up has no paths, and only its request bookkeeping changes. -/
theorem expires_down {n : Int} (hwf : e.WellFormed n) (hdown : e.rtFlags ≠ .up)
    (h : e.SameRoute e') : e.Expires now e' := by
  have hnil : e.rtPathList = [] := by
    by_contra hne
    exact hdown (hwf.up_iff.mpr hne)
  refine ⟨h.rtDst, ?_, fun hup => absurd hup hdown, fun hup => absurd hup hdown, fun hd => ?_⟩
  · rw [h.rtPathList, hnil]
    rfl
  · exact ⟨h.rtSeqno, h.rtFlags.trans hd, h.rtPathList⟩

end RtEntry

/-! ### The loop of `rt_purge` -/

section Purge

variable {env : Env} {w : World} {d : NsAddr} {e : RtEntry}

/-- `dropBuffered` does not fault, and changes the buffer only. -/
theorem dropBuffered_total (env : Env) (d : NsAddr) (reason : DropReason) (w : World) :
    ∃ w', dropBuffered env d reason w = .ok w' ∧ w'.rtable = w.rtable ∧ w'.seqno = w.seqno := by
  unfold dropBuffered
  obtain ⟨⟨w', u⟩, hw', ht, hs⟩ := whileDeque_total env d
    (fun p (s : World × Unit) => .ok (s.1.drop p.val reason, s.2))
    (J := fun s => s.1.rtable = w.rtable ∧ s.1.seqno = w.seqno)
    (n := w.rqueue.length + 1) (s := (w, ())) (fun _ _ _ h => h) (fun p s h => ⟨_, rfl, h⟩)
    ⟨rfl, rfl⟩
  refine ⟨w', ?_, ht, hs⟩
  rw [hw']
  rfl

variable (env) in
/-- `sendRequest` for an entry that is not up does not fault, and changes the request
bookkeeping of that entry. -/
theorem sendRequest_total (hd : w.rtLookup d = some e) (hdown : e.rtFlags ≠ .up)
    (hev : w.seqno % 2 = 0) :
    ∃ w' y, sendRequest env d w = .ok w' ∧ e.SameRoute y ∧ w'.seqno % 2 = 0 ∧
      (w'.rtable = w.rtable ∧ y = e ∨ w'.rtable = w.rtable.store y) := by
  unfold sendRequest
  simp only [hd]
  rw [if_neg hdown]
  split
  · exact ⟨w, e, rfl, .refl e, hev, .inl ⟨rfl, rfl⟩⟩
  · split
    · obtain ⟨w', hw', ht, hs⟩ := dropBuffered_total env d .noRoute
        (w.store { e with rtReqTimeout := env.now + maxRreqTimeout, rtReqCnt := 0 })
      refine ⟨w', _, hw', ?_, hs ▸ hev, .inr ht⟩
      exact ⟨rfl, rfl, rfl, rfl, rfl, rfl, rfl, rfl, .inl rfl, rfl⟩
    · have hset := World.even_setSeqno
        (w := { w.store (e.requested env.now) with bid := w.bid + 1 }) hev
      split
      · next hodd => exact absurd hset hodd
      · exact ⟨_, e.requested env.now, rfl, .requested env.now e, hset, .inr rfl⟩

variable (env) in
/-- The turn of `rt_purge` at an entry, at a time after 0. -/
theorem rtPurgeEntry_expires {s : World × Time} {n : Int} (hd : s.1.rtLookup d = some e)
    (he : e ∈ s.1.rtable) (hnd : (s.1.rtable.map RtEntry.rtDst).Nodup)
    (hev : s.1.seqno % 2 = 0) (hwf : e.WellFormed n) (hz : e.rtExpire = 0) (ht : 0 < env.now) :
    ∃ s' y, rtPurgeEntry env s d = .ok s' ∧ e.Expires env.now y ∧
      s'.1.rtable = s.1.rtable.store y ∧ s'.1.seqno % 2 = 0 := by
  unfold rtPurgeEntry
  simp only [hd, hz]
  by_cases hup : e.rtFlags = .up
  · rw [if_pos ⟨hup, ht⟩]
    obtain ⟨k, hk, hpurge⟩ := e.pathPurge_eq env.now
    have hcount : (e.pathPurge env.now).rtNumPaths = (e.pathPurge env.now).rtPathList.length := by
      have hnum : (e.pathPurge env.now).rtNumPaths = e.rtNumPaths - k := by rw [hpurge]
      rw [hnum, hwf.count]
      omega
    rcases (e.pathPurge env.now).pathEmpty_cases with ⟨hpe, hnil⟩ | ⟨hpe, hne⟩ | ⟨f, -, -, hbad⟩
    · obtain ⟨w', hw', htbl, hseq⟩ := dropBuffered_total env d .rtExpire s.1
      refine ⟨(w'.store ((e.pathPurge env.now).expired env.inf), s.2), _, ?_,
        RtEntry.expires_expired env.inf hup hnil, ?_, ?_⟩
      · rw [hpe]
        simp only [ok_bind, if_true]
        rw [hw']
        rfl
      · change w'.rtable.store _ = _
        rw [htbl]
      · change w'.seqno % 2 = 0
        rw [hseq]
        exact hev
    · refine ⟨(s.1.store (e.pathPurge env.now), s.2), _, ?_, RtEntry.expires_purge hup hne, rfl,
        hev⟩
      rw [hpe]
      rfl
    · exact absurd hcount hbad
  · rw [if_neg fun h => hup h.1, if_neg hup]
    have hself : s.1.rtable = s.1.rtable.store e := (RTable.store_self hnd he).symm
    split
    · obtain ⟨w', y, hw', hsame, hev', htbl⟩ := sendRequest_total env hd hup hev
      refine ⟨(w', s.2), y, by rw [hw']; rfl, RtEntry.expires_down hwf hup hsame, ?_, hev'⟩
      rcases htbl with ⟨htbl, rfl⟩ | htbl
      · exact htbl.trans hself
      · exact htbl
    · exact ⟨s, e, rfl, RtEntry.expires_down hwf hup (.refl e), hself, hev⟩

end Purge

namespace Agent

/-- `rt_purge` returns, and does to every entry what a tick does. -/
theorem rtPurge_expires {a : Agent} (hpl : a.PathLists) (htidy : a.Tidy) {env : Env}
    (ht : 0 < env.now) :
    ∃ w', rtPurge env a.world = .ok w' ∧
      List.Forall₂ (RtEntry.Expires env.now) a.rtable w'.rtable := by
  have hsweep := sweep RtEntry.rtDst (fun s : World × Time => s.1.rtable)
    (f := rtPurgeEntry env) (s := (a.world, 0)) (R := RtEntry.Expires env.now)
    (I := fun _ s => s.1.seqno % 2 = 0) (E := fun _ _ _ => False) rfl hpl.dst htidy.seqno ?_
  · rcases hsweep with ⟨s', hloop, hrows, -⟩ | ⟨-, -, -, -, -, -, hfalse⟩
    · refine ⟨s'.1, ?_, hrows⟩
      unfold rtPurge
      rw [hloop]
      rfl
    · exact absurd hfalse id
  · intro u x v s hl hev hx hnd
    have hx : x ∈ s.1.rtable := hx
    have hmem : x ∈ a.rtable := hl ▸ List.mem_append_right _ (List.mem_cons_self ..)
    obtain ⟨s', y, hs', hexp, htbl, hev'⟩ := rtPurgeEntry_expires env
      (RTable.rtLookup_of_mem hnd hx) hx hnd hev (hpl.entry x hmem) (htidy.rtExpire x hmem) ht
    exact .inl ⟨s', y, hs', hexp.rtDst, htbl, hexp, hev'⟩

/-- Expiry: at any time after 0 `rt_purge` returns, and then no stored path has expired. Each
entry keeps its paths that have not expired, in their order. One that was up is down exactly if
all its paths had expired, and its number is odd then and greater than before, unless it was
`2^32 - 1`. One that was down keeps number, flag and paths. No buffered packet is forwarded. -/
theorem expiry {a : Agent} (h : a.Reachable) (env : Env) (ht : 0 < env.now) :
    ∃ w', rtPurge env a.world = .ok w' ∧
      List.Forall₂ (RtEntry.Expires env.now) a.rtable w'.rtable ∧
      (∀ e ∈ w'.rtable, ∀ p ∈ e.rtPathList, env.now ≤ p.expire) ∧
      ∀ x ∈ w'.out, x.Requests a.index ∨ x.Drops .noRoute := by
  obtain ⟨w', hw', hrows⟩ := rtPurge_expires h.pathLists h.tidy ht
  refine ⟨w', hw', hrows, fun e he p hp => ?_, fun x hx => ?_⟩
  · obtain ⟨e₀, -, hexp⟩ := exists_of_forall₂ hrows he
    rw [hexp.paths] at hp
    exact of_decide_eq_true (List.mem_filter.mp hp).2
  · rcases (lull_rtPurge (w := a.world) h.waits hw').2 x hx with hx | hx
    · exact absurd hx List.not_mem_nil
    · exact hx

/-- Node 2 hears a RREQ of its neighbour 1 with the largest number there is, and the reverse path
expires. -/
def lastNumber : List Turn :=
  let rq : HdrRequest :=
    { rqHopCount := 0, rqBcastId := 1, rqDst := 3, rqDstSeqno := 0, rqSrc := 1,
      rqSrcSeqno := 4294967295, rqTimestamp := 0 }
  [⟨{ now := 0, inf := .mathH },
    .recv { ih := { saddr := 1, daddr := ipBroadcast, sport := rtPort, dport := rtPort, ttl := 5 }
            body := .rreq rq }⟩,
    ⟨{ now := 7, inf := .mathH }, .routeCacheTimer⟩]

theorem run_lastNumber : Run (moves (idle 2) lastNumber) (final (idle 2) lastNumber) :=
  run_idle (by decide +kernel)

/-- Then the number wraps. -/
theorem expiry_wraps :
    ∃ w w' : World, w.toAgent.Reachable ∧
      rtPurge { now := 7, inf := .mathH } w.toAgent.world = .ok w' ∧
      ∃ e ∈ w.rtable, e.rtFlags = .up ∧ ∃ e' ∈ w'.rtable, e'.rtDst = e.rtDst ∧
        e'.rtFlags = .down ∧ ¬ e.rtSeqno < e'.rtSeqno := by
  have hlast := List.getLast_mem (l := moves (idle 2) lastNumber) (by decide +kernel)
  obtain ⟨hreach, hs⟩ := Lib.Run.of_mem run_lastNumber hlast
  refine ⟨_, _, ⟨_, hreach, rfl⟩, hs, ?_⟩
  decide +kernel

/-- The reverse path of the same node is gone after its time. -/
theorem expiry_lastNumber :
    ∃ w', rtPurge { now := 7, inf := .mathH } (final (idle 2) lastNumber).toAgent.world = .ok w' ∧
      ∀ e ∈ w'.rtable, ∀ p ∈ e.rtPathList, 7 ≤ p.expire := by
  obtain ⟨w', hw', -, hlive, -⟩ :=
    expiry ⟨_, ⟨_, run_lastNumber⟩, rfl⟩ { now := 7, inf := .mathH } (by decide)
  exact ⟨w', hw', hlive⟩

end Agent

end Eamrp
