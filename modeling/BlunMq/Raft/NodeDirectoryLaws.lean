import BlunMq.Lib.LastWrite
import BlunMq.Raft.Json
import BlunMq.Raft.NodeStateMachine

/-!
# Fuzzy snapshots of the node directory

A builder freezes the log id and the membership and reads the directory later, so a
snapshot may hold the effect of entries behind its own log id. Whoever installs it
applies those entries once more. For the directory that does no harm: an entry only
ever replaces the address of one node.
-/

namespace BlunMq

theorem NodeDirectory.ext_lookup {d d' : NodeDirectory}
    (h : ∀ id : UInt64, d.nodes[id]? = d'.nodes[id]?) : d = d' := by
  cases d
  cases d'
  congr
  exact Std.ExtTreeMap.ext_getElem? h

namespace NodeStateMachineStore

def upserts (es : List (Entry NodeCommand)) : List (UInt64 × String) :=
  es.filterMap fun e =>
    match e.payload with
    | .normal (.upsertNode id addr) => some (id, addr)
    | _ => none

theorem upserts_append (es fs : List (Entry NodeCommand)) :
    upserts (es ++ fs) = upserts es ++ upserts fs := List.filterMap_append

theorem applyEntry_nodes (w : NodeDirectory × Store) (e : Entry NodeCommand) (id : UInt64) :
    (Store.applyEntry machine w e).1.1.nodes[id]? =
      (LastWrite.last id (upserts [e])).or w.1.nodes[id]? := by
  unfold Store.applyEntry
  cases hp : e.payload with
  | blank => simp [upserts, hp, LastWrite.last, LastWrite.writesTo]
  | membership mem => simp [upserts, hp, LastWrite.last, LastWrite.writesTo]
  | normal cmd =>
    cases cmd with
    | upsertNode i addr =>
      have hu : upserts [e] = [(i, addr)] := by simp [upserts, hp]
      rw [hu, LastWrite.last_singleton]
      simp only [machine, NodeDirectory.apply, Map.getElem?_insert]
      by_cases h : i = id <;> simp [h]

theorem final_nodes (w : NodeDirectory × Store) (es : List (Entry NodeCommand)) (id : UInt64) :
    (Mealy.final (Store.applyEntry machine) w es).1.nodes[id]? =
      (LastWrite.last id (upserts es)).or w.1.nodes[id]? := by
  induction es using List.reverseRecOn with
  | nil => rfl
  | append_singleton es e ih =>
    rw [Mealy.final_concat, applyEntry_nodes, ih, upserts_append, LastWrite.last_append,
      Option.or_assoc]

theorem replay_nodes (log : CommittedLog NodeCommand) (n : ℕ) (id : UInt64) :
    (log.replay machine NodeDirectory.default n).1.nodes[id]? =
      LastWrite.last id (upserts (log.entries.take n)) := by
  rw [CommittedLog.replay, final_nodes]
  simp [NodeDirectory.default]

theorem applyBatches_eq_final (w : NodeDirectory × Store)
    (bs : List (List (Entry NodeCommand))) :
    bs.foldl (fun w b => (apply w b).1) w =
      Mealy.final (Store.applyEntry machine) w bs.flatten := by
  induction bs generalizing w with
  | nil => rfl
  | cons b bs ih =>
    rw [List.foldl_cons, ih, List.flatten_cons, Mealy.final_append, apply, Store.apply_eq_run]
    rfl

theorem final_lastMembership {w w' : NodeDirectory × Store} (es : List (Entry NodeCommand))
    (h : w.2.lastMembership = w'.2.lastMembership) :
    (Mealy.final (Store.applyEntry machine) w es).2.lastMembership =
      (Mealy.final (Store.applyEntry machine) w' es).2.lastMembership := by
  induction es generalizing w w' with
  | nil => exact h
  | cons e es ih =>
    apply ih
    unfold Store.applyEntry
    cases e.payload with
    | blank => exact h
    | normal cmd => exact h
    | membership mem => rfl

theorem fuzzy_snapshot_harmless (serde : SerdeJson (Map UInt64 String))
    (log : CommittedLog NodeCommand) {k m n : ℕ} (hkm : k ≤ m) (hmn : m ≤ n)
    {atK atM : NodeDirectory × Store}
    (hk : AtPosition machine NodeDirectory.default log k atK)
    (hm : AtPosition machine NodeDirectory.default log m atM)
    (nanos : ℕ) (w : NodeDirectory × Store) (bs : List (List (Entry NodeCommand)))
    (hbs : bs.flatten = (log.entries.take n).drop k) :
    let snap := (buildSnapshot serde atM.1 nanos atK.2.getSnapshotBuilder).2
    let installed := installSnapshot serde w snap.info snap.data
    let r := bs.foldl (fun w b => (apply w b).1) installed.1
    let once := log.replay machine NodeDirectory.default n
    installed.2 = .ok () ∧ r.1 = once.1 ∧ r.2.lastMembership = once.2.lastMembership ∧
      ∀ id : UInt64, once.1.nodes[id]? = LastWrite.last id (upserts (log.entries.take n)) := by
  intro snap installed r once
  have hinst : installed = ((atM.1, (buildSnapshot serde atM.1 nanos
      atK.2.getSnapshotBuilder).1), .ok ()) :=
    Store.installSnapshot_built machine serde w atM.1 nanos _
  have hr : r = Mealy.final (Store.applyEntry machine) installed.1
      ((log.entries.take n).drop k) := by
    rw [← hbs]
    exact applyBatches_eq_final _ bs
  -- the entries up to `k`, those the snapshot already holds behind it, and the rest
  obtain ⟨b, hb⟩ : ∃ b, log.entries.take m = log.entries.take k ++ b :=
    ⟨_, log.take_eq_append hkm⟩
  obtain ⟨c, hc⟩ : ∃ c, log.entries.take n = log.entries.take m ++ c :=
    ⟨_, log.take_eq_append hmn⟩
  have hdrop : (log.entries.take n).drop k = b ++ c := by
    rw [hc, hb, List.append_assoc, List.drop_left' (by simp [hk.le])]
  rw [hdrop] at hr
  refine ⟨by rw [hinst], ?_, ?_, replay_nodes log n⟩
  · apply NodeDirectory.ext_lookup
    intro id
    rw [hr, hinst, final_nodes, hm.cell, replay_nodes, replay_nodes, hc, hb, upserts_append,
      upserts_append, upserts_append, LastWrite.last_overlap, upserts_append]
  · have honce : once = Mealy.final (Store.applyEntry machine)
        (log.replay machine NodeDirectory.default k) (b ++ c) := by
      rw [CommittedLog.replay, ← Mealy.final_append, ← List.append_assoc, ← hb, ← hc]
      rfl
    rw [hr, honce]
    apply final_lastMembership
    rw [hinst]
    exact hk.lastMembership

theorem fuzzy_snapshot_harmless_rewritten :
    let serde := Json.serde Json.nodes
    let e (i : UInt64) (addr : String) : Entry NodeCommand :=
      ⟨⟨⟨1, 1⟩, i⟩, .normal (.upsertNode 2 addr)⟩
    let log : CommittedLog NodeCommand := ⟨[e 0 "http://old", e 1 "http://new"], by decide⟩
    let fresh : NodeDirectory × Store := (NodeDirectory.default, Store.new)
    let snap := (buildSnapshot serde (log.replay machine NodeDirectory.default 1).1 1
      fresh.2.getSnapshotBuilder).2
    let r := [[e 0 "http://old"], [e 1 "http://new"]].foldl (fun w b => (apply w b).1)
      (installSnapshot serde fresh snap.info snap.data).1
    r.1 = (log.replay machine NodeDirectory.default 2).1 ∧
      (log.replay machine NodeDirectory.default 2).1.nodes[(2 : UInt64)]? =
        some "http://new" := by
  intro serde e log fresh snap r
  have hstart := AtPosition.start machine NodeDirectory.default log
  have hone : AtPosition machine NodeDirectory.default log 1
      (log.replay machine NodeDirectory.default 1) := AtPosition.replay (by decide)
  have h := fuzzy_snapshot_harmless serde log (n := 2) (Nat.zero_le 1) (by decide) hstart hone 1
    fresh [[e 0 "http://old"], [e 1 "http://new"]] rfl
  exact ⟨h.2.1, (h.2.2.2 2).trans (by decide)⟩

end NodeStateMachineStore
end BlunMq
