import BlunMq.Raft.Durable

/-!
# Crashes around a purge

`purge` writes its mark with a sync and then compacts without one, so a crash may bring
back entries the mark says are gone, and `get_log_state` then reports the last of them.
`PurgeSafe` is what a re-opened store has to report; it survives every step that brings
nothing back.
-/

namespace BlunMq

def LeaderId.key (l : LeaderId) : ℕ ×ₗ ℕ := toLex (l.term.toNat, l.nodeId.toNat)

/-- Log ids are ordered by their leader first. -/
def LogId.key (l : LogId) : (ℕ ×ₗ ℕ) ×ₗ ℕ := toLex (l.leaderId.key, l.index.toNat)

def LogId.Continues (a b : LogId) : Prop :=
  b.index.toNat = a.index.toNat + 1 ∧ a.leaderId.key ≤ b.leaderId.key

def LogId.Before (a b : LogId) : Prop :=
  a.index < b.index ∧ a.leaderId.key ≤ b.leaderId.key

instance LogId.before_trans : IsTrans LogId LogId.Before :=
  ⟨fun _ _ _ h h' => ⟨UInt64.lt_trans h.1 h'.1, h.2.trans h'.2⟩⟩

theorem LogId.Continues.before {a b : LogId} (h : a.Continues b) : a.Before b := by
  refine ⟨?_, h.2⟩
  have hi := h.1
  rw [UInt64.lt_iff_toNat_lt]
  omega

theorem LogId.Before.key_le {a b : LogId} (h : a.Before b) : a.key ≤ b.key := by
  have hi := UInt64.lt_iff_toNat_lt.mp h.1
  rw [LogId.key, LogId.key, Prod.Lex.toLex_le_toLex]
  rcases h.2.lt_or_eq with hlt | heq
  · exact .inl hlt
  · exact .inr ⟨heq, hi.le⟩

namespace RaftEngineLogStore
variable {δ : Type} (E : DurableEngine) (codec : LogCodec δ)

def PurgeSafe (s : E.State) : Prop :=
  ∃ st, getLogState E.toRaftEngine codec s = .ok st ∧
    ∀ p ∈ st.lastPurgedLogId, (∃ l ∈ st.lastLogId, p.key ≤ l.key) ∧
      ∀ range es, tryGetLogEntries E.toRaftEngine codec s range = .ok es →
        ∀ e ∈ es, p.index < e.logId.index

/-- Appends continue the log the store reports; nothing is truncated. -/
def ContinuesLog (s : E.State) : DiskAct δ → Prop
  | .call (.append es) => es ≠ [] ∧ ∃ st, getLogState E.toRaftEngine codec s = .ok st ∧
      (st.lastLogId.toList ++ es.map Entry.logId).IsChain LogId.Continues
  | .call (.truncate _) => False
  | _ => True

/-- The last entry behind a purge mark is not of an older leader than the mark. -/
def LogView.LeaderKept (v : LogView δ) (p : LogId) : Prop :=
  ∀ e ∈ v.entries.getLast?, p.index < e.logId.index → p.leaderId.key ≤ e.logId.leaderId.key

/-- The step brings nothing back: a crash loses no compaction that removes something, a
purge without its compaction has nothing to remove, and the index after the purged one
does not wrap. -/
def BringsNothingBack (s : E.State) (a : DiskAct δ) (s' : E.State) : Prop :=
  match a with
  | .call (.purge p) => ∀ v, Shows E.toRaftEngine codec s v →
      v.LeaderKept p ∧ (p.index = 18446744073709551615 → v.entries = [])
  | .purgeUncompacted p | .purgeTorn p => ∀ v, Shows E.toRaftEngine codec s v →
      v.LeaderKept p ∧ ∀ e ∈ v.entries, p.index < e.logId.index
  | .crash => E.pending s' REGION_ID = E.pending s REGION_ID ∨
      ∀ i ∈ E.pending s REGION_ID, ∀ b ∈ (E.synced s REGION_ID).entries, i ≤ b.index
  | _ => True

def PurgeStep (s : E.State) (a : DiskAct δ) (s' : E.State) : Prop :=
  DiskStep E codec s a s' ∧ ContinuesLog E codec s a

variable {E codec}

def LogView.MarkBefore (v : LogView δ) : Prop :=
  ∀ p ∈ v.lastPurged, (∀ e ∈ v.entries, p.index < e.logId.index) ∧
    ∀ e ∈ v.entries.getLast?, p.leaderId.key ≤ e.logId.leaderId.key

theorem LogView.MarkBefore.last {v : LogView δ} (h : v.MarkBefore) {p : LogId}
    (hp : p ∈ v.lastPurged) : ∃ l ∈ v.lastLogId, p = l ∨ p.Before l := by
  rw [LogView.lastLogId]
  cases he : v.entries.getLast? with
  | none => exact ⟨p, hp, .inl rfl⟩
  | some e =>
    exact ⟨e.logId, rfl, .inr ⟨(h p hp).1 e (List.mem_of_getLast? he), (h p hp).2 e he⟩⟩

theorem purgeSafe_of_markBefore {s : E.State} {v : LogView δ}
    (hs : Shows E.toRaftEngine codec s v) (h : v.MarkBefore) : PurgeSafe E codec s := by
  refine ⟨_, hs.getLogState, fun p hp => ⟨?_, fun range es hes e he => ?_⟩⟩
  · obtain ⟨l, hl, rfl | hlt⟩ := h.last hp
    · exact ⟨p, hl, le_rfl⟩
    · exact ⟨l, hl, hlt.key_le⟩
  · rw [hs.tryGetLogEntries_ok hes] at he
    exact (h p hp).1 e (List.mem_filter.mp he).1

theorem LogView.MarkBefore.append {v : LogView δ} (h : v.MarkBefore) {es : List (Entry δ)}
    (hes : es ≠ []) (hc : (v.lastLogId.toList ++ es.map Entry.logId).IsChain LogId.Continues) :
    (v.append es).MarkBefore := by
  have hpair := List.isChain_iff_pairwise.mp (hc.imp fun _ _ => LogId.Continues.before)
  rw [List.pairwise_append] at hpair
  have hbefore : ∀ p ∈ v.lastPurged, ∀ e ∈ es, p.Before e.logId := by
    intro p hp e he
    obtain ⟨l, hl, hpl⟩ := h.last hp
    have hle := hpair.2.2 l (by simpa using hl) e.logId (List.mem_map_of_mem he)
    rcases hpl with rfl | hlt
    · exact hle
    · exact LogId.before_trans.trans _ _ _ hlt hle
  obtain ⟨e, es, rfl⟩ := List.exists_cons_of_ne_nil hes
  intro p hp
  refine ⟨fun x hx => ?_, fun x hx => ?_⟩
  · rcases List.mem_append.mp hx with hx | hx
    · exact (h p hp).1 x (List.mem_filter.mp hx).1
    · exact (hbefore p hp x hx).1
  · rw [LogView.append, List.getLast?_append,
      List.getLast?_eq_some_getLast (List.cons_ne_nil e es)] at hx
    cases hx
    exact (hbefore p hp _ (List.getLast_mem _)).2

theorem LogView.markBefore_purge {v : LogView δ} {p : LogId} (hk : v.LeaderKept p)
    (htop : p.index = 18446744073709551615 → v.entries = [])
    (hinc : v.entries.Pairwise fun a b => a.logId.index < b.logId.index) :
    (v.purge p).MarkBefore := by
  have hlt : ∀ e ∈ v.entries, p.index + 1 ≤ e.logId.index → p.index < e.logId.index := by
    intro e he hle
    have hne : p.index ≠ 18446744073709551615 := fun h => List.ne_nil_of_mem he (htop h)
    rw [UInt64.le_iff_toNat_le, UInt64.toNat_succ hne] at hle
    rw [UInt64.lt_iff_toNat_lt]
    omega
  rintro _ ⟨⟩
  refine ⟨fun e he => ?_, fun e he => ?_⟩
  · obtain ⟨hmem, hle⟩ := List.mem_filter.mp he
    exact hlt e hmem (by simpa using hle)
  · obtain ⟨hmem, hle⟩ := List.mem_filter.mp (List.mem_of_getLast? he)
    have hle : p.index + 1 ≤ e.logId.index := by simpa using hle
    -- the last entry that is left is the last entry there was
    have hlast : v.entries.getLast? = some e := by
      obtain ⟨l, hl⟩ := Option.ne_none_iff_exists'.mp
        (mt List.getLast?_eq_none_iff.mp (List.ne_nil_of_mem hmem))
      obtain ⟨pre, hpre⟩ := List.getLast?_eq_some_iff.mp hl
      have hel : e.logId.index ≤ l.logId.index := by
        rw [hpre] at hmem hinc
        rcases List.mem_append.mp hmem with hm | hm
        · exact UInt64.le_of_lt ((List.pairwise_append.mp hinc).2.2 e hm l (by simp))
        · rw [List.mem_singleton.mp hm]
          exact UInt64.le_refl _
      have hkeep : (v.purge p).entries.getLast? = some l := by
        simp [LogView.purge, hpre, List.filter_append, UInt64.le_trans hle hel]
      rw [hl, ← hkeep]
      exact he
    exact hk e hlast (hlt e hmem hle)

theorem LogView.markBefore_mark {v : LogView δ} {p : LogId} (hk : v.LeaderKept p)
    (hp : ∀ e ∈ v.entries, p.index < e.logId.index) :
    ({ v with lastPurged := some p } : LogView δ).MarkBefore := by
  rintro _ ⟨⟩
  exact ⟨hp, fun e he => hk e he (hp e (List.mem_of_getLast? he))⟩

variable (E codec) in
def MarkHolds (s : E.State) : Prop := ∃ v, Shows E.toRaftEngine codec s v ∧ v.MarkBefore

theorem MarkHolds.step {s s' : E.State} {a : DiskAct δ} (h : MarkHolds E codec s)
    (hs : PurgeStep E codec s a s') (hb : BringsNothingBack E codec s a s') :
    MarkHolds E codec s' := by
  obtain ⟨v, hv, hm⟩ := h
  obtain ⟨hs, hc⟩ := hs
  cases hs with
  | @call c hacc =>
    cases c with
    | append es =>
      obtain ⟨hne, st, hst, hchain⟩ := hc
      rw [hv.getLogState] at hst
      cases hst
      have hes := LogView.accepts_of_isChain hv.increasing (fun _ _ h => h.1) hne hchain
      exact ⟨_, (hv.append hes).2, hm.append hne hchain⟩
    | truncate l => exact hc.elim
    | purge p =>
      obtain ⟨hk, htop⟩ := hb v hv
      exact ⟨_, (hv.purge p).2, LogView.markBefore_purge hk htop hv.increasing⟩
    | saveVote vote => exact ⟨_, (hv.saveVote vote).2, hm⟩
    | saveCommitted c => exact ⟨_, (hv.saveCommitted c).2, hm⟩
    | readVote => exact ⟨v, hv, hm⟩
    | readCommitted => exact ⟨v, hv, hm⟩
    | getLogState => exact ⟨v, hv, hm⟩
    | tryGetLogEntries range => exact ⟨v, hv, hm⟩
  | @purgeUncompacted p =>
    obtain ⟨hk, hp⟩ := hb v hv
    exact ⟨_, hv.writePurged p, LogView.markBefore_mark hk hp⟩
  | @purgeTorn _ p hcrash =>
    obtain ⟨hk, hp⟩ := hb v hv
    have hw := hv.writePurged p
    -- the mark is synced, so nothing is left for the crash to lose
    have hpend : E.pending (writePurged E codec s p) REGION_ID = [] := pending_writeMessage _ _ _ _
    have hsame := E.crash_region_eq (r := REGION_ID) hcrash
      (.inr fun i hi => absurd hi (by rw [hpend]; simp))
    refine ⟨_, ?_, LogView.markBefore_mark hk hp⟩
    rw [shows_iff, hsame]
    exact shows_iff.mp hw
  | reopen => exact ⟨v, hv.reopen, hm⟩
  | crash hcrash =>
    refine ⟨v, ?_, hm⟩
    rw [shows_iff, E.crash_region_eq hcrash hb]
    exact shows_iff.mp hv

theorem entries_unique {s : E.State} {v v' : LogView δ} (h : Shows E.toRaftEngine codec s v)
    (h' : Shows E.toRaftEngine codec s v') : v.entries = v'.entries := by
  have hmap := congrArg (List.mapM (decodeEntry codec)) (h.entries.symm.trans h'.entries)
  rw [mapM_decodeEntry, mapM_decodeEntry] at hmap
  exact Except.ok.inj hmap

theorem not_purgeSafe_of_stored {s : E.State} {v : LogView δ}
    (h : Shows E.toRaftEngine codec s v) {p : LogId} (hp : p ∈ v.lastPurged) {e : Entry δ}
    (he : e ∈ v.entries) (hle : e.logId.index ≤ p.index)
    (htop : ∀ x ∈ v.entries, x.logId.index ≠ 18446744073709551615) : ¬ PurgeSafe E codec s := by
  rintro ⟨st, hst, hsafe⟩
  rw [h.getLogState] at hst
  cases hst
  have hself : Range.contains ⟨.included e.logId.index, .included e.logId.index⟩ e.logId.index =
      true := by simp [Range.contains]
  obtain ⟨first, rest, hfirst⟩ := List.exists_cons_of_ne_nil (List.ne_nil_of_mem he)
  have hl := List.getLast?_eq_some_getLast (List.ne_nil_of_mem he)
  have hread := (readable_of_contains (s := s) (E := E.toRaftEngine)
    (show v.entries.head? = some first by rw [hfirst]; rfl) hl (htop _ (List.getLast_mem _)) hself
    fun j hj => ?_).read h
  · have hmem := (hsafe p hp).2 _ _ hread e (List.mem_filter.mpr ⟨he, hself⟩)
    exact absurd hle (UInt64.not_le.mpr hmem)
  · have hj : e.logId.index = j := by
      simp only [Range.contains, Bool.and_eq_true, decide_eq_true_eq] at hj
      exact UInt64.le_antisymm hj.1 hj.2
    subst hj
    refine ⟨?_, UInt64.le_iff_toNat_le.mpr (h.index_le_last hl he)⟩
    have hinc : v.entries.Pairwise fun a b => a.logId.index < b.logId.index := h.increasing
    rw [hfirst] at he hinc
    rcases List.mem_cons.mp he with rfl | hmem
    · exact UInt64.le_refl _
    · exact UInt64.le_of_lt ((List.pairwise_cons.mp hinc).1 e hmem)

variable (E codec)

theorem purge_crash_safe {acts : List (DiskAct δ)} {s : E.State}
    (h : Lts.Steps (fun s a s' => PurgeStep E codec s a s' ∧ BringsNothingBack E codec s a s')
      E.openEmpty acts s) : PurgeSafe E codec s ∧ PurgeSafe E codec (E.reopen s) := by
  have hstart : MarkHolds E codec E.openEmpty := ⟨_, Shows.openEmpty, nofun⟩
  have hs : MarkHolds E codec s :=
    h.invariant (fun _ _ _ hm hs => hm.step hs.1 hs.2) hstart
  obtain ⟨v, hv, hm⟩ := hs
  exact ⟨purgeSafe_of_markBefore hv hm, purgeSafe_of_markBefore hv.reopen hm⟩

theorem purged_entries_return :
    let codec := LogCodec.json Json.queueRequest
    let e : UInt64 → Entry QueueRequest := fun i => ⟨⟨⟨1, 1⟩, i⟩, .blank⟩
    let installed : LogId := ⟨⟨2, 2⟩, 5⟩
    ∃ s, Lts.Steps (PurgeStep diskEngine codec) diskEngine.openEmpty
        [.call (.append [e 0, e 1, e 2]), .call (.purge installed), .crash] s ∧
      getLogState diskEngine.toRaftEngine codec s = .ok ⟨some installed, some (e 2).logId⟩ ∧
      tryGetLogEntries diskEngine.toRaftEngine codec s ⟨.included 0, .included 2⟩ =
        .ok [e 0, e 1, e 2] ∧
      ¬ PurgeSafe diskEngine codec s := by
  intro codec e installed
  let purged : Disk := [.append [e 0, e 1, e 2], .purge installed].foldl
    (callStep diskEngine.toRaftEngine codec) diskEngine.openEmpty
  let s : Disk := fun r => ((purged r).1, [])
  have hstate : getLogState diskEngine.toRaftEngine codec s =
      .ok ⟨some installed, some (e 2).logId⟩ := by decide +kernel
  have hread : tryGetLogEntries diskEngine.toRaftEngine codec s ⟨.included 0, .included 2⟩ =
      .ok [e 0, e 1, e 2] := by decide +kernel
  refine ⟨s, ?_, hstate, hread, ?_⟩
  · refine .cons ⟨.call ?_, ?_⟩ (.cons ⟨.call nofun, trivial⟩
      (.single ⟨.crash fun r => ⟨rfl, List.nil_prefix⟩, trivial⟩))
    · rintro es ⟨⟩
      exact ⟨by simp, by simp [e, encodeEntry], nofun, nofun, nofun⟩
    · refine ⟨by simp, _, Shows.openEmpty.getLogState, ?_⟩
      simp [LogView.lastLogId, LogView.empty, LogId.Continues, e]
  · rintro ⟨st, hst, hsafe⟩
    cases hstate.symm.trans hst
    exact absurd ((hsafe installed rfl).2 _ _ hread (e 0) (by simp)) (by decide)

theorem purge_crash_safe_kept :
    let codec := LogCodec.json Json.queueRequest
    let e : UInt64 → Entry QueueRequest := fun i => ⟨⟨⟨1, 1⟩, i⟩, .blank⟩
    ∃ s, Lts.Steps (fun s a s' => PurgeStep diskEngine codec s a s' ∧
          BringsNothingBack diskEngine codec s a s') diskEngine.openEmpty
        [.call (.append [e 0, e 1, e 2]), .call (.purge (e 1).logId), .crash,
          .call (.saveCommitted (some (e 2).logId))] s ∧ PurgeSafe diskEngine codec s := by
  intro codec e
  let acts : List (DiskAct QueueRequest) :=
    [.call (.append [e 0, e 1, e 2]), .call (.purge (e 1).logId), .crash,
      .call (.saveCommitted (some (e 2).logId))]
  have hacc : (LogView.empty : LogView QueueRequest).Accepts [e 0, e 1, e 2] :=
    ⟨by simp, by simp [e], nofun, nofun, nofun⟩
  have happ : Shows diskEngine.toRaftEngine codec
      (append diskEngine.toRaftEngine codec diskEngine.openEmpty [e 0, e 1, e 2]).1
      ⟨none, none, none, [e 0, e 1, e 2]⟩ := (Shows.openEmpty.append hacc).2
  have hpurge : ∀ v, Shows diskEngine.toRaftEngine codec
      (append diskEngine.toRaftEngine codec diskEngine.openEmpty [e 0, e 1, e 2]).1 v →
      v.LeaderKept (e 1).logId ∧
        ((e 1).logId.index = 18446744073709551615 → v.entries = []) := by
    intro v hv
    refine ⟨fun x hx _ => ?_, fun h => absurd h (by decide)⟩
    rw [entries_unique hv happ] at hx
    cases hx
    exact le_rfl
  obtain ⟨s, h⟩ : ∃ s, Lts.Steps (fun s a s' => PurgeStep diskEngine codec s a s' ∧
      BringsNothingBack diskEngine codec s a s') diskEngine.openEmpty acts s := by
    refine ⟨_, .cons ⟨⟨.call ?_, ?_⟩, trivial⟩ (.cons ⟨⟨.call nofun, trivial⟩, hpurge⟩
      (.cons ⟨⟨.crash fun r => ⟨rfl, List.prefix_rfl⟩, trivial⟩, .inl rfl⟩
        (.single ⟨⟨.call nofun, trivial⟩, trivial⟩)))⟩
    · rintro es ⟨⟩
      exact Shows.openEmpty.accepts_iff.mpr hacc
    · refine ⟨by simp, _, Shows.openEmpty.getLogState, ?_⟩
      simp [LogView.lastLogId, LogView.empty, LogId.Continues, e]
  exact ⟨s, h, (purge_crash_safe diskEngine codec h).1⟩

end RaftEngineLogStore
end BlunMq
