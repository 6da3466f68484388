import BlunMq.Raft.NodeDirectoryLaws
import BlunMq.Raft.Replication

/-!
# The node directory across replicas

A snapshot of the directory can be ahead of its own log id, and so can a replica that
installed it and every snapshot taken there. As an entry only ever replaces the address of
one node, going through a stretch of the log again leaves every address one that the log has
for its node from there on, and applying the rest of the log makes it the final one.
-/

namespace BlunMq.Directory
open NodeStateMachineStore Replication

/-- What each entry writes, in log order. -/
def history (es : List (Entry NodeCommand)) : List (List (UInt64 × String)) :=
  es.map fun e => upserts [e]

theorem flatten_history (es : List (Entry NodeCommand)) :
    (history es).flatten = upserts es := by
  induction es with
  | nil => rfl
  | cons e es ih =>
    rw [history, List.map_cons, List.flatten_cons, ← history, ih, ← upserts_append]
    rfl

theorem fuzzy_of_replay {log es : List (Entry NodeCommand)} {n : ℕ} (h : Replay True log n es) :
    LastWrite.Fuzzy (history log) n fun id =>
      (cellAfter machine NodeDirectory.default es).nodes[id]? := by
  induction h with
  | start =>
    have hempty : (fun id : UInt64 =>
        (cellAfter machine NodeDirectory.default []).nodes[id]?) = fun _ => none := by
      funext id
      simp [cellAfter, NodeDirectory.default]
    rw [hempty]
    exact .start _
  | @next n es e _ he ih =>
    have hws : (history log)[n]? = some (upserts [e]) := by
      rw [history, List.getElem?_map, he]
      rfl
    refine ih.write hws fun id => ?_
    rw [cellAfter, Mealy.final_concat]
    exact applyEntry_nodes _ e id
  | back _ _ hi ih => exact ih.mono hi

variable {serde : SerdeJson (Map UInt64 String)} {s : Replication.World NodeDirectory NodeCommand}
  {acts : List (Replication.Act NodeCommand)}

theorem directory_converges {size : ℕ}
    (h : Lts.Steps (Replication.Step machine serde NodeDirectory.default)
      (Replication.World.start NodeDirectory.default size) acts s) :
    (∀ (r : ℕ) (w : NodeDirectory × Store), s.replicas[r]? = some w →
      ∃ n ≤ s.log.entries.length, w.2.lastApplied = s.log.lastId n ∧
        w.2.lastMembership = (s.log.replay machine NodeDirectory.default n).2.lastMembership ∧
        (∀ (id : UInt64) (addr : String), w.1.nodes[id]? = some addr →
          (id, addr) ∈ upserts s.log.entries) ∧
        (∀ (id : UInt64) (addr : String), (id, addr) ∈ upserts (s.log.entries.take n) →
          ∃ addr', w.1.nodes[id]? = some addr') ∧
        (∀ id : UInt64, (∀ addr, (id, addr) ∉ upserts (s.log.entries.drop n)) →
          w.1.nodes[id]? = LastWrite.last id (upserts s.log.entries)) ∧
        (n = s.log.entries.length → w.1 = (s.log.replay machine NodeDirectory.default n).1)) ∧
    ∀ snap ∈ s.snapshots, ∀ w : NodeDirectory × Store,
      (installSnapshot serde w snap.info snap.data).2 = .ok () := by
  have hsound := Sound.run h
  constructor
  · intro r w hr
    obtain ⟨⟨n, hstands, es, hes, hcell⟩, -⟩ := hsound.replicas w (List.mem_of_getElem? hr)
    have hfuzzy := fuzzy_of_replay hes
    rw [← hcell] at hfuzzy
    have hsettled : ∀ id : UInt64, (∀ addr, (id, addr) ∉ upserts (s.log.entries.drop n)) →
        w.1.nodes[id]? = LastWrite.last id (upserts s.log.entries) := by
      intro id hid
      rw [← flatten_history]
      refine hfuzzy.settled fun ws hws addr hmem => hid addr ?_
      rw [← flatten_history, history, List.map_drop]
      exact List.mem_flatten.mpr ⟨ws, hws, hmem⟩
    refine ⟨n, hstands.le, hstands.lastLogId, hstands.lastMembership, fun id addr hid => ?_,
      fun id addr hid => ?_, hsettled, fun hall => ?_⟩
    · rw [← flatten_history]
      exact hfuzzy.mem hid
    · refine hfuzzy.present (a := addr) ?_
      rw [history, ← List.map_take, ← history, flatten_history]
      exact hid
    · refine NodeDirectory.ext_lookup fun id => ?_
      rw [hsettled id (by simp [hall, upserts]), replay_nodes, hall, List.take_length]
  · intro snap hsnap w
    obtain ⟨n, nodes, hdata, -⟩ := hsound.snapshots snap hsnap
    simp only [installSnapshot, Store.installSnapshot, hdata]

theorem directory_converges_relayed :
    let serde := Json.serde Json.nodes
    let e (i : UInt64) (addr : String) : Entry NodeCommand :=
      ⟨⟨⟨1, 1⟩, i⟩, .normal (.upsertNode 2 addr)⟩
    ∃ s w, Lts.Steps (Replication.Step machine serde NodeDirectory.default)
        (Replication.World.start NodeDirectory.default 3)
        [.commit (e 0 "http://old"), .commit (e 1 "http://new"), .getSnapshotBuilder 0, .apply 0,
          .buildSnapshot 0 1, .installSnapshot 1 0, .getCurrentSnapshot 1, .installSnapshot 2 1,
          .apply 2, .apply 2] s ∧
      s.replicas[2]? = some w ∧ w.1.nodes[(2 : UInt64)]? = some "http://new" := by
  intro serde e
  let log₁ : CommittedLog NodeCommand := ⟨[e 0 "http://old"], by decide⟩
  let log : CommittedLog NodeCommand := ⟨[e 0 "http://old", e 1 "http://new"], by decide⟩
  obtain ⟨s, w, hrun, hlog, hr, hid⟩ : ∃ s w,
      Lts.Steps (Replication.Step machine serde NodeDirectory.default)
      (Replication.World.start NodeDirectory.default 3)
      [.commit (e 0 "http://old"), .commit (e 1 "http://new"), .getSnapshotBuilder 0, .apply 0,
        .buildSnapshot 0 1, .installSnapshot 1 0, .getCurrentSnapshot 1, .installSnapshot 2 1,
        .apply 2, .apply 2] s ∧ s.log = log ∧ s.replicas[2]? = some w ∧
          w.2.lastApplied = some ⟨⟨1, 1⟩, 1⟩ :=
    ⟨_, _, .cons (.commit (show log₁.entries = _ from rfl))
      (.cons (.commit (show log.entries = _ from rfl))
      (.cons (.getSnapshotBuilder rfl)
      (.cons (.apply (e := e 0 "http://old") rfl (by decide +kernel))
      (.cons (.buildSnapshot rfl rfl) (.cons (.installSnapshot rfl rfl (fun _ h => by cases h))
      (.cons (.getCurrentSnapshot rfl rfl)
      (.cons (.installSnapshot rfl rfl (fun _ h => by cases h))
      (.cons (.apply (e := e 0 "http://old") rfl (by decide +kernel))
      (.single (.apply (e := e 1 "http://new") rfl (by decide +kernel))))))))))),
      rfl, rfl, rfl⟩
  obtain ⟨n, hn, hlast, -, -, -, -, hall⟩ := (directory_converges hrun).1 2 w hr
  rw [hlog] at hn hlast hall
  have hpos : n = log.entries.length :=
    log.lastId_injective hn le_rfl (hlast.symm.trans (hid.trans (by decide)))
  refine ⟨s, w, hrun, hr, ?_⟩
  rw [hall hpos, replay_nodes, hpos]
  decide

end BlunMq.Directory
