import BlunMq.Host.Broker
import BlunMq.Raft.SnapshotLaws

/-!
# What the leader's store answers

A proposal is answered by the store of the leader, once that has applied the entry. The
store got to its state by entries and snapshots, and a snapshot built late makes it one the
log does not have. As long as every build of the group is quiet each leader answers as a
replica of the log would, and the offsets of the broker mean what they should.
-/

namespace BlunMq
open StateMachineStore

/-- A store's answer to an entry, when it has applied what the log holds before it. A leader
installs no snapshot, and one from a later leader is past the entry and leaves it without an
answer, so this is settled when the entry is committed. -/
def leaderAnswer (log : CommittedLog QueueRequest) (w : BlunMq.World QueueState QueueRequest)
    (e : Entry QueueRequest) : QueueResponse :=
  (Store.applyEntry machine
    (StateMachineStore.apply (w.cell, w.store) (log.entries.drop (inCell log w))).1 e).2

theorem applyEntry_response_congr {w w' : QueueState × Store} (h : w.1 = w'.1)
    (e : Entry QueueRequest) :
    (Store.applyEntry machine w e).2 = (Store.applyEntry machine w' e).2 := by
  unfold Store.applyEntry
  cases e.payload <;> simp [h]

theorem StateMachineStore.Exact.leaderAnswer {log : CommittedLog QueueRequest} {n k : ℕ}
    {w : BlunMq.World QueueState QueueRequest} (h : Exact log n k w) (e : Entry QueueRequest) :
    leaderAnswer log w e = log.response e := by
  refine applyEntry_response_congr ?_ e
  have hreqs : requests (log.entries.take k) ++ requests (log.entries.drop k) =
      requests log.entries := by
    rw [requests, requests, ← List.filterMap_append, List.take_append_drop]
    rfl
  rw [h.inCell, StateMachineStore.apply, StateMachineStore.apply, Store.apply_eq_run,
    Store.apply_eq_run]
  calc
    _ = Mealy.final QueueState.apply w.cell (requests (log.entries.drop k)) := final_cell _ _
    _ = Mealy.final QueueState.apply QueueState.default (requests log.entries) := by
      rw [h.cell, stateAfter_eq, QueueState.finalState, ← Mealy.final_append, hreqs]
    _ = _ := (final_cell (QueueState.default, Store.new) log.entries).symm

namespace Service

structure World where
  worlds : List (BlunMq.World QueueState QueueRequest)
  built : List Snapshot
  broker : Broker.World

def World.start (size : ℕ) : World :=
  ⟨List.replicate size (BlunMq.World.start QueueState.default), [], Broker.World.start⟩

def World.stores (w : World) : Stores := ⟨w.broker.cluster.log, w.worlds, w.built⟩

inductive Act
  | store (act : Stores.Act)
  | publish (a leader : ℕ) (id : LogId)
  | pop (sid i leader : ℕ) (id : LogId)
  | other (act : Broker.Act)

def Awaited : Broker.Act → Prop
  | .publish (.commit _ _) => True
  | .consume (.commit _ _ _) => True
  | _ => False

variable (peers : Map UInt64 String) (serde : SerdeJson SnapshotPayload)

/-- Any store may be the leader's when an entry is committed. -/
inductive Step : World → Act → World → Prop
  | store {w : World} {act : Stores.Act} {t : Stores} (hact : ∀ e, act ≠ .commit e)
      (h : Stores.Step serde w.stores act t) :
      Step w (.store act) { w with worlds := t.worlds, built := t.built }
  | publish {w : World} {a r : ℕ} {id : LogId} {call : Publish.Activation}
      {leader : BlunMq.World QueueState QueueRequest} {log' : CommittedLog QueueRequest}
      {ideal : QueueResponse} (ha : w.broker.calls[a]? = some call)
      (hpc : call.pc = .proposing none) (hleader : w.worlds[r]? = some leader)
      (hc : w.broker.cluster.log.commit ⟨id, .normal (.publish call.queue call.payload)⟩ =
        some (log', ideal)) :
      Step w (.publish a r id) { w with broker :=
        { cluster := { w.broker.cluster with log := log' }
          roots := w.broker.roots ++ [some call.root]
          calls := w.broker.calls.set a { call with pc := .proposing (some (leaderAnswer
            w.broker.cluster.log leader ⟨id, .normal (.publish call.queue call.payload)⟩)) } } }
  | pop {w : World} {sid i r : ℕ} {id : LogId} {st : Stream}
      {leader : BlunMq.World QueueState QueueRequest} {log' : CommittedLog QueueRequest}
      {ideal : QueueResponse} (hst : w.broker.cluster.streams[sid]? = some st)
      (hw : st.workers[i]? = some (.proposing none)) (hleader : w.worlds[r]? = some leader)
      (hc : w.broker.cluster.log.commit ⟨id, .normal (.pop st.queue)⟩ = some (log', ideal)) :
      Step w (.pop sid i r id) { w with broker :=
        { w.broker with
          cluster := { w.broker.cluster.update sid (st.put i (.proposing (some (leaderAnswer
            w.broker.cluster.log leader ⟨id, .normal (.pop st.queue)⟩)))) with log := log' }
          roots := w.broker.roots ++ [none] } }
  | other {w : World} {act : Broker.Act} {b : Broker.World} (hact : ¬ Awaited act)
      (h : Broker.Step peers w.broker act b) : Step w (.other act) { w with broker := b }

def QuietStep (w : World) (act : Act) (w' : World) : Prop :=
  Step peers serde w act w' ∧ ∀ s, act = .store s → Quiet w.stores s

variable {peers serde} {w w' : World} {act : Act} {acts : List Act}

theorem QuietStep.other {act : Broker.Act} {b : Broker.World} (hact : ¬ Awaited act)
    (h : Broker.Step peers w.broker act b) :
    QuietStep peers serde w (.other act) { w with broker := b } := ⟨.other hact h, nofun⟩

theorem QuietStep.store {act : Stores.Act} {t : Stores} (hact : ∀ e, act ≠ .commit e)
    (h : Stores.Step serde w.stores act t) (hq : Quiet w.stores act) :
    QuietStep peers serde w (.store act) { w with worlds := t.worlds, built := t.built } :=
  ⟨.store hact h, fun s hs => by
    cases hs
    exact hq⟩

theorem leaderAnswer_eq (h : Sound serde w.stores) {r : ℕ}
    {leader : BlunMq.World QueueState QueueRequest} (hleader : w.worlds[r]? = some leader)
    {e : Entry QueueRequest} {log' : CommittedLog QueueRequest} {ideal : QueueResponse}
    (hc : w.broker.cluster.log.commit e = some (log', ideal)) :
    leaderAnswer w.broker.cluster.log leader e = ideal := by
  obtain ⟨n, k, hexact⟩ := h.worlds leader (List.mem_of_getElem? hleader)
  rw [(CommittedLog.commit_eq_some hc).2]
  exact hexact.leaderAnswer e

theorem Step.broker (h : Step peers serde w act w') (hs : Sound serde w.stores) :
    ∃ bs, Lts.Steps (Broker.Step peers) w.broker bs w'.broker := by
  cases h with
  | store => exact ⟨[], .nil _⟩
  | publish ha hpc hleader hc =>
    rw [leaderAnswer_eq hs hleader hc]
    exact ⟨_, .single (.commit (.commit ha hpc hc))⟩
  | pop hst hw hleader hc =>
    rw [leaderAnswer_eq hs hleader hc]
    have hstep := @Broker.Step.consume peers w.broker _ _ (by simp)
      (BlunMq.Step.commit hst hw hc)
    rw [CommittedLog.commit_entries hc, List.length_append, List.length_singleton,
      Nat.add_sub_cancel_left] at hstep
    exact ⟨_, .single hstep⟩
  | other _ h => exact ⟨_, .single h⟩

theorem log_grows {b b' : Broker.World} {act : Broker.Act}
    (h : Broker.Step peers b act b') : b.cluster.log.entries <+: b'.cluster.log.entries := by
  obtain ⟨bs, hrun⟩ := h.publishers
  exact (Publish.extends_run hrun).log

theorem QuietStep.sound (h : QuietStep peers serde w act w') (hs : Sound serde w.stores) :
    Sound serde w'.stores := by
  obtain ⟨hstep, hquiet⟩ := h
  cases hstep with
  | @store act t hact h =>
    have ht := hs.step h (hquiet act rfl)
    have hlog : t.log = w.broker.cluster.log := by
      cases h with
      | commit => exact absurd rfl (hact _)
      | run | restart => rfl
    rw [World.stores, ← hlog]
    exact ht
  | publish ha hpc hleader hc =>
    refine hs.grow ?_
    rw [CommittedLog.commit_entries hc]
    exact List.prefix_append _ _
  | pop hst hw hleader hc =>
    refine hs.grow ?_
    rw [CommittedLog.commit_entries hc]
    exact List.prefix_append _ _
  | other _ h => exact hs.grow (log_grows h)

theorem sound_start (size : ℕ) : Sound serde (World.start size).stores := Sound.start size

theorem sound_run {size : ℕ} (h : Lts.Steps (QuietStep peers serde) (World.start size) acts w) :
    Sound serde w.stores :=
  h.invariant (P := fun w => Sound serde w.stores) (fun _ _ _ hs hstep => hstep.sound hs)
    (sound_start size)

theorem broker_run (h : Lts.Steps (QuietStep peers serde) w acts w')
    (hs : Sound serde w.stores) : ∃ bs, Lts.Steps (Broker.Step peers) w.broker bs w'.broker :=
  h.simulation_of_invariant (P := fun w => Sound serde w.stores) World.broker
    (fun _ _ _ hs hstep => hstep.sound hs) (fun _ _ _ hs hstep => hstep.1.broker hs) hs

theorem acknowledged_of_eq {s : Publish.World} {a : ℕ} {queue : String} {payload : Bytes}
    {o offset : UInt64} (h : s.calls[a]? = some ⟨a, queue, payload, .done (.ok o)⟩)
    (ho : o = offset) :
    Publish.Acknowledged s a ⟨a, queue, payload, .done (.ok offset)⟩ offset :=
  ⟨ho ▸ h, rfl, rfl⟩

def spamEntry : Entry QueueRequest := entryAt 1 (.normal (.publish "spam" [7]))

def afterBlank : Store := { Store.new with lastApplied := some (entryAt 0 .blank).logId }

def timelySnapshot : Snapshot :=
  (buildSnapshot (Json.serde Json.snapshotPayload) QueueState.default 1
    afterBlank.getSnapshotBuilder).2

def firstLeader : List Act :=
  [.other (.consume (.commitOther (entryAt 0 .blank))),
    .store (.run 0 (.beginEntry (entryAt 0 .blank))), .store (.run 0 .getSnapshotBuilder),
    .store (.run 0 (.buildSnapshot 0 1)),
    .store (.run 1 (.beginInstall timelySnapshot.info timelySnapshot.data)),
    .store (.run 1 .endInstall), .other (.publish (.call "spam" [7])),
    .publish 0 0 spamEntry.logId, .other (.publish (.ok 0)), .other (.publish (.respond 0))]

def peersOfTwo : Map UInt64 String := (∅ : Map UInt64 String).insert 2 "http://node2"

abbrev ServeTwo : World → Act → World → Prop :=
  QuietStep peersOfTwo (Json.serde Json.snapshotPayload)

def secondLeader : List Act :=
  [.other (.consume (.commitOther ⟨⟨⟨2, 2⟩, 2⟩, .blank⟩)),
    .other (.publish (.forwardToLeader 1 (some 2))), .other (.publish (.accept 1)),
    .publish 2 1 ⟨⟨2, 2⟩, 3⟩, .other (.publish (.ok 2)), .other (.publish (.respond 2)),
    .other (.publish (.answer 1)), .other (.publish (.respond 1))]

def handOut : List Act :=
  [.other (.consume (.consume (some (.ok (some (.subscribe "spam")))))),
    .other (.consume (.propose 0 0)), .pop 0 0 1 ⟨⟨2, 2⟩, 4⟩, .other (.consume (.answer 0 0)),
    .other (.consume (.send 0 0)), .other (.consume (.pull 0))]

theorem leaders_steps :
    ∃ w u v x, Lts.Steps ServeTwo (World.start 2) firstLeader w ∧
      ServeTwo w (.other (.publish (.call "spam" [8]))) u ∧
      Lts.Steps ServeTwo u secondLeader v ∧
      Lts.Steps ServeTwo v handOut x ∧
      w.broker.calls.length = 1 ∧
      Publish.Acknowledged w.broker.publishers 0 ⟨0, "spam", [7], .done (.ok 0)⟩ 0 ∧
      Publish.Acknowledged v.broker.publishers 1 ⟨1, "spam", [8], .done (.ok 1)⟩ 1 ∧
      Publish.Acknowledged x.broker.publishers 0 ⟨0, "spam", [7], .done (.ok 0)⟩ 0 ∧
      x.broker.cluster.emitted = [⟨0, "spam", (0, [7])⟩] := by
  refine ⟨_, _, _, _, .cons (.other id (.consume (by simp) (.commitOther (by simp [entryAt])
      (CommittedLog.commit_of_lt (by decide +kernel)))))
    (.cons (.store nofun (.run rfl rfl) trivial) (.cons (.store nofun (.run rfl trivial) trivial)
    (.cons (.store nofun (.run rfl trivial) (quiet_of_eq rfl rfl (by decide +kernel)))
    (.cons (.store nofun (.run rfl List.mem_cons_self) trivial)
    (.cons (.store nofun (.run rfl trivial) trivial)
    (.cons (.other id (.serve trivial (.call _ _ _)))
    (.cons ⟨.publish rfl rfl rfl (CommittedLog.commit_of_lt (by decide +kernel)), nofun⟩
    (.cons (.other id (.serve trivial (.ok rfl rfl)))
    (.single (.other id (.serve trivial (.respond rfl rfl)))))))))))),
    .other id (.serve trivial (.call _ _ _)),
    .cons (.other id (.consume (by simp) (.commitOther (by simp)
        (CommittedLog.commit_of_lt (by decide +kernel)))))
      (.cons (.other id (.serve trivial (.forwarded rfl rfl
        (show _ = Except.ok (2, "http://node2") by decide +kernel))))
      (.cons (.other id (.serve trivial (.accept rfl rfl)))
      (.cons ⟨.publish rfl rfl rfl (CommittedLog.commit_of_lt (by decide +kernel)), nofun⟩
      (.cons (.other id (.serve trivial (.ok rfl rfl)))
      (.cons (.other id (.serve trivial (.respond rfl rfl)))
      (.cons (.other id (.serve trivial (.answered rfl rfl rfl rfl)))
      (.single (.other id (.serve trivial (.respond rfl rfl)))))))))),
    .cons (.other id (.consume (by simp) (.subscribed rfl)))
      (.cons (.other id (.consume (by simp) (.propose rfl rfl)))
      (.cons ⟨.pop rfl rfl rfl (CommittedLog.commit_of_lt (by decide +kernel)), nofun⟩
      (.cons (.other id (.consume (by simp) (.answer rfl rfl)))
      (.cons (.other id (.consume (by simp) (.send rfl
        (show _ = some (Pc.sending (0, [7])) by decide +kernel) rfl (by decide))))
      (.single (.other id (.consume (by simp) (.emit rfl rfl rfl)))))))), rfl,
    acknowledged_of_eq rfl (by decide +kernel), acknowledged_of_eq rfl (by decide +kernel),
    acknowledged_of_eq rfl (by decide +kernel), ?_⟩
  decide +kernel

def lateSnapshot : Snapshot :=
  (buildSnapshot (Json.serde Json.snapshotPayload)
    (stateAfter [entryAt 0 .blank, spamEntry]) 1 afterBlank.getSnapshotBuilder).2

/-- The second store lags behind the two others. It installs the late snapshot and answers as
the leader of term 2; then the first one leads again. A new leader begins with a blank entry. -/
def lateBuild : List Act :=
  [.other (.consume (.commitOther (entryAt 0 .blank))),
    .store (.run 0 (.beginEntry (entryAt 0 .blank))), .store (.run 0 .getSnapshotBuilder),
    .other (.publish (.call "spam" [7])), .publish 0 0 spamEntry.logId,
    .store (.run 0 (.beginEntry spamEntry)), .store (.run 0 .applyRequest),
    .store (.run 0 (.buildSnapshot 0 1)),
    .store (.run 1 (.beginInstall lateSnapshot.info lateSnapshot.data)),
    .store (.run 1 .endInstall), .other (.consume (.commitOther ⟨⟨⟨2, 2⟩, 2⟩, .blank⟩)),
    .other (.publish (.call "spam" [8])), .publish 1 1 ⟨⟨2, 2⟩, 3⟩, .other (.publish (.ok 1)),
    .other (.publish (.respond 1)), .other (.consume (.commitOther ⟨⟨⟨3, 1⟩, 4⟩, .blank⟩)),
    .other (.publish (.call "spam" [9])), .publish 2 0 ⟨⟨3, 1⟩, 5⟩, .other (.publish (.ok 2)),
    .other (.publish (.respond 2))]

theorem lateBuild_steps :
    ∃ w, Lts.Steps (Step ∅ (Json.serde Json.snapshotPayload)) (World.start 3) lateBuild w ∧
      Publish.Acknowledged w.broker.publishers 1 ⟨1, "spam", [8], .done (.ok 2)⟩ 2 ∧
      Publish.Acknowledged w.broker.publishers 2 ⟨2, "spam", [9], .done (.ok 2)⟩ 2 := by
  refine ⟨_, .cons (.other id (.consume (by simp) (.commitOther (by simp [entryAt])
    (CommittedLog.commit_of_lt (by decide +kernel))))) (.cons (.store nofun (.run rfl rfl)) (.cons
    (.store nofun (.run rfl trivial)) (.cons (.other id (.serve trivial (.call _ _ _))) (.cons
    (.publish rfl rfl rfl (CommittedLog.commit_of_lt (by decide +kernel))) (.cons
    (.store nofun (.run rfl (show _ = some _ by decide +kernel))) (.cons
    (.store nofun (.run rfl trivial)) (.cons (.store nofun (.run rfl trivial)) (.cons
    (.store nofun (.run rfl List.mem_cons_self)) (.cons (.store nofun (.run rfl trivial)) (.cons
    (.other id (.consume (by simp) (.commitOther (by simp)
      (CommittedLog.commit_of_lt (by decide +kernel))))) (.cons
    (.other id (.serve trivial (.call _ _ _))) (.cons
    (.publish rfl rfl rfl (CommittedLog.commit_of_lt (by decide +kernel))) (.cons
    (.other id (.serve trivial (.ok rfl rfl))) (.cons
    (.other id (.serve trivial (.respond rfl rfl))) (.cons
    (.other id (.consume (by simp) (.commitOther (by simp)
      (CommittedLog.commit_of_lt (by decide +kernel))))) (.cons
    (.other id (.serve trivial (.call _ _ _))) (.cons
    (.publish rfl rfl rfl (CommittedLog.commit_of_lt (by decide +kernel))) (.cons
    (.other id (.serve trivial (.ok rfl rfl))) (.single
    (.other id (.serve trivial (.respond rfl rfl)))))))))))))))))))))), ?_, ?_⟩
  · exact acknowledged_of_eq rfl (by decide +kernel)
  · exact acknowledged_of_eq rfl (by decide +kernel)

theorem offsets_respect_real_time {size : ℕ} {u v : World} {bs : List Act} {queue : String}
    {payload : Bytes} (h : Lts.Steps (QuietStep peers serde) (World.start size) acts w)
    (hcall : QuietStep peers serde w (.other (.publish (.call queue payload))) u)
    (hrun : Lts.Steps (QuietStep peers serde) u bs v) {call : Publish.Activation}
    {offset : UInt64}
    (hack : Publish.Acknowledged v.broker.publishers w.broker.calls.length call offset) :
    (call.queue = queue ∧ call.payload = payload) ∧
    (w.broker.cluster.log.published queue).length ≤ offset.toNat ∧
    (v.broker.cluster.log.published queue)[offset.toNat]? = some payload ∧
    (∀ a earlier o, Publish.Acknowledged w.broker.publishers a earlier o →
      earlier.queue = queue → o < offset) ∧
    ∀ e ∈ w.broker.cluster.emitted, e.queue = queue → e.item.1 < offset := by
  have hsound := sound_run h
  obtain ⟨cs, hbefore⟩ := broker_run h (sound_start size)
  obtain ⟨ds, hafter⟩ := broker_run hrun (hcall.sound hsound)
  obtain ⟨hstep, -⟩ := hcall
  cases hstep with
  | other _ hcall => exact Broker.call_in_real_time hbefore hcall hafter hack

theorem offsets_respect_real_time_leaders :
    ∃ acts w u v bs, Lts.Steps ServeTwo (World.start 2) acts w ∧
      ServeTwo w (.other (.publish (.call "spam" [8]))) u ∧
      Lts.Steps ServeTwo u bs v ∧
      Publish.Acknowledged w.broker.publishers 0 ⟨0, "spam", [7], .done (.ok 0)⟩ 0 ∧
      (0 : UInt64) < 1 ∧ (v.broker.cluster.log.published "spam")[1]? = some [8] := by
  obtain ⟨w, u, v, x, hfirst, hcall, hsecond, -, hlength, hbefore, hack, -⟩ := leaders_steps
  rw [← hlength] at hack
  obtain ⟨-, -, hat, hlt, -⟩ := offsets_respect_real_time hfirst hcall hsecond hack
  exact ⟨_, w, u, v, _, hfirst, hcall, hsecond, hbefore, hlt _ _ _ hbefore rfl, hat⟩

theorem acknowledged_in_one_place {size : ℕ}
    (h : Lts.Steps (QuietStep peers serde) (World.start size) acts w) :
    ∃ as lost, Lts.Steps (Audit peers) Audited.start as ⟨w.broker.cluster, lost⟩ ∧
      ∀ a call offset, Publish.Acknowledged w.broker.publishers a call offset →
        Multiset.count (offset, call.payload)
          ((w.broker.cluster.log.waiting call.queue : Multiset Item) +
            w.broker.cluster.inTransit call.queue + w.broker.cluster.emittedOn call.queue +
              Loss.lostOn call.queue lost) = 1 ∧
        ∀ e ∈ w.broker.cluster.emitted, e.queue = call.queue → e.item.1 = offset →
          e.item.2 = call.payload := by
  obtain ⟨bs, hbroker⟩ := broker_run h (sound_start size)
  exact Broker.acknowledged_once hbroker

theorem acknowledged_in_one_place_emitted :
    ∃ acts x as lost, Lts.Steps ServeTwo (World.start 2) acts x ∧
      x.broker.cluster.emitted = [⟨0, "spam", (0, [7])⟩] ∧
      Lts.Steps (Audit peersOfTwo) Audited.start as ⟨x.broker.cluster, lost⟩ ∧
      Multiset.count ((0, [7]) : Item) ((x.broker.cluster.log.waiting "spam" : Multiset Item) +
        x.broker.cluster.inTransit "spam" + x.broker.cluster.emittedOn "spam" +
          Loss.lostOn "spam" lost) = 1 := by
  obtain ⟨w, u, v, x, hfirst, hcall, hsecond, hthird, -, -, -, hack, hemitted⟩ := leaders_steps
  have hrun := (hfirst.trans (.cons hcall hsecond)).trans hthird
  obtain ⟨as, lost, haudit, hall⟩ := acknowledged_in_one_place hrun
  exact ⟨_, x, as, lost, hrun, hemitted, haudit, (hall _ _ _ hack).1⟩

end Service
end BlunMq
