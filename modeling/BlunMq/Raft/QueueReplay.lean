import BlunMq.Raft.Replication
import BlunMq.Raft.StateMachine

/-!
# Queue entries applied twice

A publish that is applied again appends its message once more, under the next offset. So a
replica that installed the snapshot of a late build is ahead of the log: its queues have seen
some messages twice, and the offsets it hands out drift from those of the other replicas.
-/

namespace BlunMq.QueueReplay
open StateMachineStore Replication

/-- How far the next offset of a replica is ahead of that of the log at its position. -/
def drift (log : CommittedLog QueueRequest) (w : QueueState × Store) (q : String) : UInt64 :=
  w.1.nextOffset.getD q 0 - (stateAfter (log.upTo w.2.lastApplied)).nextOffset.getD q 0

theorem getD_nextOffset (reqs : List QueueRequest) (q : String) :
    (QueueState.finalState reqs).nextOffset.getD q 0 =
      UInt64.ofNat (QueueState.publishedTo q reqs).length := by
  rw [(QueueState.finalState_represents reqs).getD_nextOffset, QueueState.bankOf_pushed]

theorem cellAfter_eq (es : List (Entry QueueRequest)) :
    cellAfter machine QueueState.default es = QueueState.finalState (requests es) :=
  final_cell _ es

theorem publishedTo_sublist {log es : List (Entry QueueRequest)} {n : ℕ}
    (h : Replay True log n es) (q : String) :
    (QueueState.publishedTo q (requests (log.take n))).Sublist
      (QueueState.publishedTo q (requests es)) :=
  (h.take_sublist.filterMap _).filterMap _

variable {serde : SerdeJson SnapshotPayload} {s s' : Replication.World QueueState QueueRequest}
  {act : Replication.Act QueueRequest} {acts acts' : List (Replication.Act QueueRequest)} {r : ℕ}
  {w : QueueState × Store}

theorem drift_eq {n : ℕ} {es : List (Entry QueueRequest)}
    (hstands : Stands machine QueueState.default s.log n w.2.lastApplied w.2.lastMembership)
    (hes : Replay True s.log.entries n es) (hcell : w.1 = QueueState.finalState (requests es))
    (q : String) :
    drift s.log w q = UInt64.ofNat ((QueueState.publishedTo q (requests es)).length -
      (QueueState.publishedTo q (requests (s.log.entries.take n))).length) := by
  have hle := (publishedTo_sublist hes q).length_le
  rw [drift, hstands.lastLogId, s.log.upTo_lastId n hstands.le, stateAfter_eq, hcell,
    getD_nextOffset, getD_nextOffset]
  exact (UInt64.ofNat_sub hle).symm

theorem replicas_replay {size : ℕ}
    (h : Lts.Steps (Replication.Step machine serde QueueState.default)
      (Replication.World.start QueueState.default size) acts s) (hr : s.replicas[r]? = some w) :
    (∃ n es, n ≤ s.log.entries.length ∧ w.2.lastApplied = s.log.lastId n ∧
      Replay True s.log.entries n es ∧ w.1 = QueueState.finalState (requests es) ∧
      ∀ q, (QueueState.publishedTo q (requests (s.log.entries.take n))).Sublist
          (QueueState.publishedTo q (requests es)) ∧
        drift s.log w q = UInt64.ofNat ((QueueState.publishedTo q (requests es)).length -
          (QueueState.publishedTo q (requests (s.log.entries.take n))).length)) ∧
    (Lts.Steps
        (fun s act s' => Replication.Step machine serde QueueState.default s act s' ∧ Timely s act)
        (Replication.World.start QueueState.default size) acts s →
      w.1 = stateAfter (s.log.upTo w.2.lastApplied)) := by
  have hmem := List.mem_of_getElem? hr
  constructor
  · obtain ⟨⟨n, hstands, es, hes, hcell⟩, -⟩ := (Sound.run h).replicas w hmem
    rw [cellAfter_eq] at hcell
    exact ⟨n, es, hstands.le, hstands.lastLogId, hes, hcell, fun q =>
      ⟨publishedTo_sublist hes q, drift_eq hstands hes hcell q⟩⟩
  · intro htimely
    obtain ⟨⟨n, hstands, es, hes, hcell⟩, -⟩ := (Sound.run_timely htimely).replicas w hmem
    rw [hstands.lastLogId, s.log.upTo_lastId n hstands.le, stateAfter_eq, hcell, cellAfter_eq,
      hes.eq_take not_false]

def entryAt (i : UInt64) : Entry QueueRequest := ⟨⟨⟨1, 1⟩, i⟩, .normal (.publish "spam" [7])⟩

def lateBuild : List (Replication.Act QueueRequest) :=
  [.commit (entryAt 0), .commit (entryAt 1), .apply 0, .getSnapshotBuilder 0, .apply 0,
    .buildSnapshot 0 1, .installSnapshot 1 0]

theorem lateBuild_steps : ∃ s w,
    Lts.Steps (Replication.Step machine (Json.serde Json.snapshotPayload) QueueState.default)
      (Replication.World.start QueueState.default 2) lateBuild s ∧ s.replicas[1]? = some w ∧
    drift s.log w "spam" = 1 ∧ s.log.entries = [entryAt 0, entryAt 1] ∧
    w.2.lastApplied = some ⟨⟨1, 1⟩, 0⟩ := by
  let log₁ : CommittedLog QueueRequest := ⟨[entryAt 0], by decide⟩
  let log : CommittedLog QueueRequest := ⟨[entryAt 0, entryAt 1], by decide⟩
  exact ⟨_, _, .cons (.commit (show log₁.entries = _ from rfl))
    (.cons (.commit (show log.entries = _ from rfl))
    (.cons (.apply (e := entryAt 0) rfl (by decide +kernel)) (.cons (.getSnapshotBuilder rfl)
    (.cons (.apply (e := entryAt 1) rfl (by decide +kernel)) (.cons (.buildSnapshot rfl rfl)
    (.single (.installSnapshot rfl rfl (fun _ h => by cases h)))))))),
    rfl, by decide +kernel, rfl, by decide +kernel⟩

theorem replicas_replay_late : ∃ s w,
    Lts.Steps (Replication.Step machine (Json.serde Json.snapshotPayload) QueueState.default)
      (Replication.World.start QueueState.default 2) lateBuild s ∧ s.replicas[1]? = some w ∧
    drift s.log w "spam" = 1 ∧
    ∃ n es, Replay True s.log.entries n es ∧ w.1 = QueueState.finalState (requests es) ∧
      drift s.log w "spam" = UInt64.ofNat ((QueueState.publishedTo "spam" (requests es)).length -
        (QueueState.publishedTo "spam" (requests (s.log.entries.take n))).length) := by
  obtain ⟨s, w, hrun, hr, hdrift, -⟩ := lateBuild_steps
  obtain ⟨⟨n, es, -, -, hes, hcell, hpublished⟩, -⟩ := replicas_replay hrun hr
  exact ⟨s, w, hrun, hr, hdrift, n, es, hes, hcell, (hpublished "spam").2⟩

def publishes (q : String) (e : Entry QueueRequest) : UInt64 :=
  match e.payload with
  | .normal (.publish queue _) => if queue = q then 1 else 0
  | _ => 0

theorem applyEntry_nextOffset (w : QueueState × Store) (e : Entry QueueRequest) (q : String) :
    (Store.applyEntry machine w e).1.1.nextOffset.getD q 0 =
      w.1.nextOffset.getD q 0 + publishes q e := by
  unfold Store.applyEntry publishes
  cases e.payload with
  | blank => simp
  | membership mem => simp
  | normal req =>
    cases req with
    | publish queue payload =>
      by_cases hq : queue = q
      · subst hq
        simp [machine, QueueState.apply]
      · simp [machine, QueueState.apply, Std.ExtTreeMap.getD_insert, hq]
    | pop queue =>
      simp only [machine, QueueState.apply, add_zero]
      split <;> rfl

theorem stateAfter_concat (es : List (Entry QueueRequest)) (e : Entry QueueRequest) (q : String) :
    (stateAfter (es ++ [e])).nextOffset.getD q 0 =
      (stateAfter es).nextOffset.getD q 0 + publishes q e := by
  rw [stateAfter, stateAfter, apply, apply, Store.apply_eq_run, Store.apply_eq_run,
    ← applyEntry_nextOffset]
  exact congrArg (fun w : QueueState × Store => w.1.nextOffset.getD q 0)
    (Mealy.final_concat _ _ _ _)

theorem drift_step (h : Sound machine serde QueueState.default True s)
    (hs : Replication.Step machine serde QueueState.default s act s') (hr : s.replicas[r]? = some w)
    (hrestart : act ≠ .restart r) (hinstall : ∀ i, act ≠ .installSnapshot r i) :
    ∃ w', s'.replicas[r]? = some w' ∧ ∀ q, drift s'.log w' q = drift s.log w q := by
  obtain ⟨⟨n, hn, -⟩, -⟩ := h.replicas w (List.mem_of_getElem? hr)
  obtain ⟨more, hmore⟩ := hs.log_grows
  have htake : s'.log.entries.take n = s.log.entries.take n := by
    rw [← hmore, List.take_append_of_le_length hn.le]
  have hold : s.log.upTo w.2.lastApplied = s.log.entries.take n := by
    rw [hn.lastLogId, s.log.upTo_lastId n hn.le]
  obtain ⟨w', hw', hmoved⟩ := hs.moved hr
  refine ⟨w', hw', fun q => ?_⟩
  cases hmoved with
  | stays =>
    have hn' := hn.grow hs.log_grows
    rw [drift, drift, hold, hn'.lastLogId, s'.log.upTo_lastId n hn'.le, htake]
  | @applies e he =>
    have hnext := hn.next he
    have hn' := (hn.applyEntry hnext).grow hs.log_grows
    have htake' : s'.log.entries.take (n + 1) = s.log.entries.take n ++ [e] := by
      rw [List.take_add_one, htake, getElem?_of_isPrefix hs.log_grows hnext]
      rfl
    rw [drift, drift, hold, hn'.lastLogId, s'.log.upTo_lastId (n + 1) hn'.le, htake',
      applyEntry_nextOffset, stateAfter_concat, add_sub_add_right_eq_sub]
  | restarts => exact absurd rfl hrestart
  | installs => exact absurd rfl (hinstall _)

theorem drift_stays {size : ℕ}
    (h : Lts.Steps (Replication.Step machine serde QueueState.default)
      (Replication.World.start QueueState.default size) acts s) (hr : s.replicas[r]? = some w)
    (h' : Lts.Steps (Replication.Step machine serde QueueState.default) s acts' s')
    (hrestart : .restart r ∉ acts') (hinstall : ∀ i, .installSnapshot r i ∉ acts') :
    ∃ w', s'.replicas[r]? = some w' ∧ ∀ q, drift s'.log w' q = drift s.log w q ∧
      ∀ payload, (w'.1.apply (.publish q payload)).2.publishedOffset =
        some ((stateAfter (s'.log.upTo w'.2.lastApplied)).nextOffset.getD q 0 +
          drift s.log w q) := by
  obtain ⟨w', hw', hsame⟩ : ∃ w', s'.replicas[r]? = some w' ∧
      ∀ q, drift s'.log w' q = drift s.log w q := by
    induction h' with
    | nil => exact ⟨w, hr, fun _ => rfl⟩
    | @snoc t u as act hsteps hstep ih =>
      obtain ⟨v, hv, hsame⟩ := ih (fun ha => hrestart (List.mem_append_left _ ha))
        fun i ha => hinstall i (List.mem_append_left _ ha)
      have hlast : act ∈ as ++ [act] := List.mem_append_right _ List.mem_cons_self
      obtain ⟨w', hw', hmoved⟩ := drift_step (Sound.run (h.trans hsteps)) hstep hv
        (fun ha => hrestart (ha ▸ hlast)) fun i ha => hinstall i (ha ▸ hlast)
      exact ⟨w', hw', fun q => (hmoved q).trans (hsame q)⟩
  refine ⟨w', hw', fun q => ⟨hsame q, fun payload => congrArg some ?_⟩⟩
  rw [← hsame q, drift, add_sub_cancel]

theorem drift_stays_applied : ∃ s s' w',
    Lts.Steps (Replication.Step machine (Json.serde Json.snapshotPayload) QueueState.default)
      (Replication.World.start QueueState.default 2) lateBuild s ∧
    Lts.Steps (Replication.Step machine (Json.serde Json.snapshotPayload) QueueState.default)
      s [.apply 1] s' ∧
    s'.replicas[1]? = some w' ∧ drift s'.log w' "spam" = 1 := by
  obtain ⟨s, w, hrun, hr, hdrift, hlog, hlast⟩ := lateBuild_steps
  have hnext : s.log.upTo w.2.lastApplied ++ [entryAt 1] <+: s.log.entries := by
    simp only [CommittedLog.upTo, hlog, hlast]
    decide +kernel
  obtain ⟨s', happly⟩ : ∃ s', Lts.Steps
      (Replication.Step machine (Json.serde Json.snapshotPayload) QueueState.default)
      s [.apply 1] s' :=
    ⟨_, .single (.apply hr hnext)⟩
  obtain ⟨w', hw', hsame⟩ := drift_stays hrun hr happly (by simp) (by simp)
  exact ⟨s, s', w', hrun, happly, hw', (hsame "spam").1.trans hdrift⟩

end BlunMq.QueueReplay
