import BlunMq.Raft.PurgeSafety

/-!
# Appended entries across crashes

A completed append is on disk. What a crash may bring back are entries a purge had removed;
it takes nothing away. So the log that is left of a run if every purge counts is the end of
what the store shows, and the store shows the end of the log in which no purge counts.
-/

namespace BlunMq

namespace DiskAct
variable {δ : Type}

def overwrite (log : List (Entry δ)) : List (Entry δ) → List (Entry δ)
  | [] => log
  | e :: es => log.filter (fun x => decide (x.logId.index < e.logId.index)) ++ e :: es

def write (log : List (Entry δ)) : DiskAct δ → List (Entry δ)
  | .call (.append es) => overwrite log es
  | _ => log

def keep (log : List (Entry δ)) : DiskAct δ → List (Entry δ)
  | .call (.append es) => overwrite log es
  | .call (.purge p) | .purgeUncompacted p | .purgeTorn p =>
    log.filter fun x => decide (p.index + 1 ≤ x.logId.index)
  | _ => log

/-- The log of a run without its purges. -/
def written (acts : List (DiskAct δ)) : List (Entry δ) := acts.foldl write []

/-- The log of a run in which every purge, torn or not, has removed its entries. -/
def kept (acts : List (DiskAct δ)) : List (Entry δ) := acts.foldl keep []

theorem written_concat (acts : List (DiskAct δ)) (a : DiskAct δ) :
    written (acts ++ [a]) = write (written acts) a := by
  rw [written, List.foldl_concat]
  rfl

theorem kept_concat (acts : List (DiskAct δ)) (a : DiskAct δ) :
    kept (acts ++ [a]) = keep (kept acts) a := by
  rw [kept, List.foldl_concat]
  rfl

theorem overwrite_suffix {log log' : List (Entry δ)} (h : log <:+ log') (es : List (Entry δ)) :
    overwrite log es <:+ overwrite log' es := by
  cases es with
  | nil => exact h
  | cons e es =>
    obtain ⟨pre, hpre⟩ := h.filter fun x => decide (x.logId.index < e.logId.index)
    refine ⟨pre, ?_⟩
    rw [overwrite, overwrite, ← List.append_assoc, hpre]

end DiskAct

namespace RaftEngineLogStore
variable {δ : Type} {E : DurableEngine} {codec : LogCodec δ}

theorem filter_index_suffix {es : List (Entry δ)}
    (h : es.Pairwise fun a b => a.logId.index < b.logId.index) (i : UInt64) :
    (es.filter fun x => decide (i ≤ x.logId.index)) <:+ es := by
  induction es with
  | nil => exact List.suffix_rfl
  | cons e es ih =>
    obtain ⟨hfirst, hrest⟩ := List.pairwise_cons.mp h
    by_cases hi : i ≤ e.logId.index
    · have hall : ∀ x ∈ e :: es, decide (i ≤ x.logId.index) = true := by
        intro x hx
        rw [decide_eq_true_eq]
        rcases List.mem_cons.mp hx with rfl | hx
        · exact hi
        · exact UInt64.le_trans hi (UInt64.le_of_lt (hfirst x hx))
      rw [List.filter_eq_self.mpr hall]
    · rw [List.filter_cons_of_neg (by simpa using hi)]
      exact (ih hrest).trans (List.suffix_cons _ _)

theorem RegionShows.foldl_compact_suffix (is : List UInt64) {r : Region} {v : LogView δ}
    (h : RegionShows codec r v) :
    ∃ es, es <:+ v.entries ∧ RegionShows codec (is.foldl Region.compact r)
      { v with entries := es } := by
  induction is generalizing r v with
  | nil => exact ⟨v.entries, List.suffix_rfl, h⟩
  | cons i is ih =>
    obtain ⟨es, hes, h'⟩ := ih (h.compact i)
    exact ⟨es, hes.trans (filter_index_suffix h.increasing i), h'⟩

theorem regionShows_entries {r : Region} {v v' : LogView δ} (h : RegionShows codec r v)
    (h' : RegionShows codec r v') : v.entries = v'.entries := by
  have hmap := congrArg (List.mapM (decodeEntry codec)) (h.entries.symm.trans h'.entries)
  rw [mapM_decodeEntry, mapM_decodeEntry] at hmap
  exact Except.ok.inj hmap

theorem compacted_suffix {r : Region} {is : List UInt64} {v v' : LogView δ}
    (h : RegionShows codec (is.foldl Region.compact r) v) (h' : RegionShows codec r v') :
    v.entries <:+ v'.entries := by
  obtain ⟨es, hes, hcompacted⟩ := h'.foldl_compact_suffix is
  rw [regionShows_entries h hcompacted]
  exact hes

variable (E codec) in
/-- The invariant: `v` is what the store shows, `w` what is on disk. -/
structure Survives (acts : List (DiskAct δ)) (s : E.State) (v w : LogView δ) : Prop where
  shows : Shows E.toRaftEngine codec s v
  synced : RegionShows codec (E.synced s REGION_ID) w
  kept : DiskAct.kept acts <:+ v.entries
  written : w.entries <:+ DiskAct.written acts

namespace Survives
variable {acts : List (DiskAct δ)} {a : DiskAct δ} {s s' : E.State} {v w v' : LogView δ}

theorem start : Survives E codec [] E.openEmpty LogView.empty LogView.empty := by
  refine ⟨Shows.openEmpty, ?_, List.suffix_rfl, List.suffix_rfl⟩
  rw [← E.region_of_pending (E.pending_openEmpty _)]
  exact shows_iff.mp Shows.openEmpty

theorem shown (h : Survives E codec acts s v w) : v.entries <:+ w.entries := by
  have hregion := shows_iff.mp h.shows
  rw [E.region_eq] at hregion
  exact compacted_suffix hregion h.synced

theorem write (hs : Shows E.toRaftEngine codec s' v') (hp : E.pending s' REGION_ID = [])
    (hkept : DiskAct.kept acts <:+ v'.entries) (hwritten : v'.entries <:+ DiskAct.written acts) :
    Survives E codec acts s' v' v' := by
  refine ⟨hs, ?_, hkept, hwritten⟩
  rw [← E.region_of_pending hp]
  exact shows_iff.mp hs

theorem same (h : Survives E codec acts s v w)
    (hkeep : DiskAct.keep (DiskAct.kept acts) a <:+ DiskAct.kept acts)
    (hwrite : DiskAct.write (DiskAct.written acts) a = DiskAct.written acts) :
    Survives E codec (acts ++ [a]) s v w := by
  refine ⟨h.shows, h.synced, ?_, ?_⟩
  · rw [DiskAct.kept_concat]
    exact hkeep.trans h.kept
  · rw [DiskAct.written_concat, hwrite]
    exact h.written

theorem crash (h : Survives E codec acts s v w) (hc : E.crash s s') :
    ∃ v', Survives E codec acts s' v' w := by
  have hsynced := h.synced
  rw [← E.crash_synced s s' REGION_ID hc] at hsynced
  obtain ⟨es, -, hnew⟩ := hsynced.foldl_compact_suffix (E.pending s' REGION_ID)
  rw [← E.region_eq] at hnew
  refine ⟨_, shows_iff.mpr hnew, hsynced, h.kept.trans ?_, h.written⟩
  -- the compactions that were lost would bring the old log back
  obtain ⟨lost, hlost⟩ := E.crash_pending s s' REGION_ID hc
  have hold := shows_iff.mp h.shows
  rw [E.region_eq, ← hlost, List.foldl_append, ← E.crash_synced s s' REGION_ID hc,
    ← E.region_eq] at hold
  exact compacted_suffix hold hnew

theorem append {es : List (Entry δ)} (h : Survives E codec acts s v w)
    (hacc : (E.region s REGION_ID).Accepts (es.map (encodeEntry codec))) :
    ∃ v', Survives E codec (acts ++ [.call (.append es)])
      (RaftEngineLogStore.append E.toRaftEngine codec s es).1 v' v' := by
  have hshows := (h.shows.append (h.shows.accepts_iff.mp hacc)).2
  obtain ⟨e, es, rfl⟩ := List.exists_cons_of_ne_nil (h.shows.accepts_iff.mp hacc).nonempty
  refine ⟨_, write hshows (pending_append hacc) ?_ ?_⟩
  · rw [DiskAct.kept_concat]
    exact DiskAct.overwrite_suffix h.kept (e :: es)
  · rw [DiskAct.written_concat]
    exact DiskAct.overwrite_suffix (h.shown.trans h.written) (e :: es)

theorem purge (h : Survives E codec acts s v w) (p : LogId) :
    ∃ v' w', Survives E codec (acts ++ [.call (.purge p)])
      (RaftEngineLogStore.purge E.toRaftEngine codec s p).1 v' w' := by
  have hpending : E.pending (RaftEngineLogStore.writePurged E codec s p) REGION_ID = [] :=
    pending_writeMessage _ _ _ _
  have hmark := shows_iff.mp (h.shows.writePurged p)
  rw [E.region_of_pending hpending] at hmark
  refine ⟨_, { v with lastPurged := some p }, (h.shows.purge p).2, ?_, ?_, ?_⟩
  · rw [purge_eq, E.synced_compactTo]
    exact hmark
  · rw [DiskAct.kept_concat]
    exact h.kept.filter _
  · rw [DiskAct.written_concat]
    exact h.shown.trans h.written

theorem writePurged (h : Survives E codec acts s v w) (p : LogId)
    (hkeep : DiskAct.keep (DiskAct.kept acts) a <:+ DiskAct.kept acts)
    (hwrite : DiskAct.write (DiskAct.written acts) a = DiskAct.written acts) :
    Survives E codec (acts ++ [a]) (writePurged E codec s p) { v with lastPurged := some p }
      { v with lastPurged := some p } := by
  refine write (h.shows.writePurged p) (pending_writeMessage _ _ _ _) ?_ ?_
  · rw [DiskAct.kept_concat]
    exact hkeep.trans h.kept
  · rw [DiskAct.written_concat, hwrite]
    exact h.shown.trans h.written

theorem step (h : Survives E codec acts s v w) (hs : DiskStep E codec s a s') :
    ∃ v' w', Survives E codec (acts ++ [a]) s' v' w' := by
  have hkept : (DiskAct.kept acts).Pairwise fun a b => a.logId.index < b.logId.index :=
    h.shows.increasing.sublist h.kept.sublist
  cases hs with
  | @call c hc =>
    cases c with
    | append es =>
      obtain ⟨v', hv'⟩ := h.append (hc es rfl)
      exact ⟨v', v', hv'⟩
    | purge p => exact h.purge p
    | saveVote x =>
      have hw := h.same (a := .call (.saveVote x)) List.suffix_rfl rfl
      exact ⟨_, _, write (h.shows.saveVote x).2 (pending_writeMessage _ _ _ _) hw.kept
        (hw.shown.trans hw.written)⟩
    | saveCommitted x =>
      have hw := h.same (a := .call (.saveCommitted x)) List.suffix_rfl rfl
      exact ⟨_, _, write (h.shows.saveCommitted x).2 (pending_writeMessage _ _ _ _) hw.kept
        (hw.shown.trans hw.written)⟩
    | truncate l => exact ⟨v, w, h.same List.suffix_rfl rfl⟩
    | readVote => exact ⟨v, w, h.same List.suffix_rfl rfl⟩
    | readCommitted => exact ⟨v, w, h.same List.suffix_rfl rfl⟩
    | getLogState => exact ⟨v, w, h.same List.suffix_rfl rfl⟩
    | tryGetLogEntries range => exact ⟨v, w, h.same List.suffix_rfl rfl⟩
  | @purgeUncompacted p =>
    exact ⟨_, _, h.writePurged p (filter_index_suffix hkept _) rfl⟩
  | @purgeTorn _ p hc =>
    have hpurged := h.writePurged (a := .purgeTorn p) p (filter_index_suffix hkept _) rfl
    obtain ⟨v', hv'⟩ := hpurged.crash hc
    exact ⟨v', _, hv'⟩
  | reopen =>
    have hsame := h.same (a := .reopen) List.suffix_rfl rfl
    refine ⟨v, w, hsame.shows.reopen, ?_, hsame.kept, hsame.written⟩
    rw [E.synced_reopen]
    exact hsame.synced
  | crash hc =>
    obtain ⟨v', hv'⟩ := (h.same (a := .crash) List.suffix_rfl rfl).crash hc
    exact ⟨v', w, hv'⟩

theorem run (h : Lts.Steps (DiskStep E codec) E.openEmpty acts s) :
    ∃ v w, Survives E codec acts s v w := by
  refine h.trace_invariant (P := fun acts s => ∃ v w, Survives E codec acts s v w) ?_
    ⟨_, _, start⟩
  rintro acts s a s' ⟨v, w, hv⟩ hs
  exact hv.step hs

end Survives

variable (E codec)

theorem appended_entries_survive {acts : List (DiskAct δ)} {s : E.State}
    (h : Lts.Steps (DiskStep E codec) E.openEmpty acts s) :
    (∀ first ∈ (DiskAct.kept acts).head?, ∀ last ∈ (DiskAct.kept acts).getLast?,
      (last.logId.index ≠ 18446744073709551615 →
        ∀ (range : Range) (i : UInt64), Range.contains range i = true →
        (∀ j, Range.contains range j = true → first.logId.index ≤ j ∧ j ≤ last.logId.index) →
        tryGetLogEntries E.toRaftEngine codec s range =
          .ok ((DiskAct.kept acts).filter fun x => Range.contains range x.logId.index)) ∧
      ∃ st, getLogState E.toRaftEngine codec s = .ok st ∧ st.lastLogId = some last.logId) ∧
    ∀ range es, tryGetLogEntries E.toRaftEngine codec s range = .ok es →
      es.Sublist (DiskAct.written acts) := by
  obtain ⟨v, w, hv⟩ := Survives.run h
  obtain ⟨old, hold⟩ := hv.kept
  refine ⟨fun first hfirst last hlast => ?_, fun range es hes => ?_⟩
  · have hl : v.entries.getLast? = some last := by
      rw [← hold, List.getLast?_append, Option.mem_def.mp hlast, Option.some_or]
    have hbefore : ∀ x ∈ old, x.logId.index < first.logId.index := by
      have hinc := hv.shows.increasing
      unfold LogView.Increasing at hinc
      rw [← hold, List.pairwise_append] at hinc
      exact fun x hx => hinc.2.2 x hx first (List.mem_of_head? hfirst)
    refine ⟨fun htop range i hi hin => ?_, _, hv.shows.getLogState, ?_⟩
    · obtain ⟨oldest, holdest, hle⟩ : ∃ x, v.entries.head? = some x ∧
          x.logId.index ≤ first.logId.index := by
        rw [← hold]
        cases old with
        | nil => exact ⟨first, hfirst, UInt64.le_refl _⟩
        | cons x xs => exact ⟨x, rfl, UInt64.le_of_lt (hbefore x List.mem_cons_self)⟩
      have hread := (readable_of_contains (s := s) (E := E.toRaftEngine) holdest hl htop
        hi fun j hj => ⟨UInt64.le_trans hle (hin j hj).1, (hin j hj).2⟩).read hv.shows
      have hnone : old.filter (fun x => Range.contains range x.logId.index) = [] :=
        List.filter_eq_nil_iff.mpr fun x hx hc =>
          absurd (hin _ hc).1 (UInt64.not_le.mpr (hbefore x hx))
      rwa [← hold, List.filter_append, hnone, List.nil_append] at hread
    · rw [LogView.lastLogId, hl]
      rfl
  · rw [hv.shows.tryGetLogEntries_ok hes]
    exact List.filter_sublist.trans (hv.shown.trans hv.written).sublist

theorem appended_entries_survive_crashed :
    let codec := LogCodec.json Json.queueRequest
    let e : UInt64 → UInt64 → Entry QueueRequest := fun term i => ⟨⟨⟨term, 1⟩, i⟩, .blank⟩
    ∃ s, Lts.Steps (DiskStep diskEngine codec) diskEngine.openEmpty
        [.call (.append [e 1 0, e 1 1]), .call (.append [e 1 2]), .purgeTorn (e 1 0).logId,
          .call (.append [e 2 2, e 2 3]), .crash] s ∧
      tryGetLogEntries diskEngine.toRaftEngine codec s ⟨.included 1, .included 3⟩ =
        .ok [e 1 1, e 2 2, e 2 3] := by
  intro codec e
  let acts : List (DiskAct QueueRequest) :=
    [.call (.append [e 1 0, e 1 1]), .call (.append [e 1 2]), .purgeTorn (e 1 0).logId,
      .call (.append [e 2 2, e 2 3]), .crash]
  obtain ⟨s, h⟩ : ∃ s, Lts.Steps (DiskStep diskEngine codec) diskEngine.openEmpty acts s := by
    refine ⟨_, .cons (.call ?_) (.cons (.call ?_)
      (.cons (.purgeTorn fun r => ⟨rfl, List.prefix_rfl⟩) (.cons (.call ?_)
        (.single (.crash fun r => ⟨rfl, List.prefix_rfl⟩)))))⟩
    all_goals rintro es ⟨⟩
    all_goals exact ⟨by simp, by simp [e, encodeEntry], by decide +kernel, by decide +kernel,
      by decide +kernel⟩
  have hkept : DiskAct.kept acts = [e 1 1, e 2 2, e 2 3] := by decide +kernel
  have hread := ((appended_entries_survive diskEngine codec h).1 (e 1 1) (by rw [hkept]; rfl)
    (e 2 3) (by rw [hkept]; rfl)).1 (by decide) ⟨.included 1, .included 3⟩ 1 (by decide)
    fun j hj => by simpa [Range.contains, e] using hj
  rw [hkept] at hread
  exact ⟨s, h, hread⟩

end RaftEngineLogStore
end BlunMq
