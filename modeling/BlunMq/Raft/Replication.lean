import BlunMq.Lib.Replay
import BlunMq.Lib.Steps
import BlunMq.Raft.Store

/-!
# Replicas of a group and the snapshots between them

Replicas apply the committed log entry by entry, hand out snapshot builders, send snapshots
and install the snapshots of others, in any order. A builder reads the cell of its replica
when it runs, so a snapshot can be ahead of its own log id, and whoever installs it applies
some entries again. Of openraft this relies on: a replica installs a snapshot only if that
is ahead of what the replica has applied. Builders end with their process, and a restarted
replica starts empty.
-/

namespace BlunMq.Replication

variable {σ δ ρ π : Type}

structure Builder where
  replica : ℕ
  store : Store

structure World (σ δ : Type) where
  log : CommittedLog δ
  replicas : List (σ × Store)
  builders : List Builder
  snapshots : List Snapshot

def World.start (init : σ) (size : ℕ) : World σ δ :=
  ⟨CommittedLog.start, List.replicate size (init, Store.new), [], []⟩

def World.update (s : World σ δ) (r : ℕ) (w : σ × Store) : World σ δ :=
  { s with replicas := s.replicas.set r w }

inductive Act (δ : Type)
  | commit (e : Entry δ)
  | apply (r : ℕ)
  | restart (r : ℕ)
  | getSnapshotBuilder (r : ℕ)
  | buildSnapshot (i nanos : ℕ)
  | getCurrentSnapshot (r : ℕ)
  | installSnapshot (r i : ℕ)

variable (m : Machine σ δ ρ π) (serde : SerdeJson π) (init : σ)

inductive Step : World σ δ → Act δ → World σ δ → Prop
  | commit {s : World σ δ} {e : Entry δ} {log' : CommittedLog δ}
      (hlog : log'.entries = s.log.entries ++ [e]) : Step s (.commit e) { s with log := log' }
  -- one turn of the loop in `apply`: the lock is free between two entries
  | apply {s : World σ δ} {r : ℕ} {w : σ × Store} {e : Entry δ} (hr : s.replicas[r]? = some w)
      (he : s.log.upTo w.2.lastApplied ++ [e] <+: s.log.entries) :
      Step s (.apply r) (s.update r (Store.applyEntry m w e).1)
  | restart {s : World σ δ} {r : ℕ} {w : σ × Store} (hr : s.replicas[r]? = some w) :
      Step s (.restart r)
        { s.update r (init, Store.new) with
          builders := s.builders.filter fun b => decide (b.replica ≠ r) }
  | getSnapshotBuilder {s : World σ δ} {r : ℕ} {w : σ × Store} (hr : s.replicas[r]? = some w) :
      Step s (.getSnapshotBuilder r)
        { s with builders := s.builders ++ [⟨r, w.2.getSnapshotBuilder⟩] }
  | buildSnapshot {s : World σ δ} {i nanos : ℕ} {b : Builder} {w : σ × Store}
      (hb : s.builders[i]? = some b) (hr : s.replicas[b.replica]? = some w) :
      Step s (.buildSnapshot i nanos)
        { s with
          builders := s.builders.set i
            ⟨b.replica, (Store.buildSnapshot m serde w.1 nanos b.store).1⟩
          snapshots := s.snapshots ++ [(Store.buildSnapshot m serde w.1 nanos b.store).2] }
  | getCurrentSnapshot {s : World σ δ} {r : ℕ} {w : σ × Store} {snap : Snapshot}
      (hr : s.replicas[r]? = some w) (hsnap : w.2.getCurrentSnapshot = some snap) :
      Step s (.getCurrentSnapshot r) { s with snapshots := s.snapshots ++ [snap] }
  | installSnapshot {s : World σ δ} {r i : ℕ} {w : σ × Store} {snap : Snapshot}
      (hr : s.replicas[r]? = some w) (hi : s.snapshots[i]? = some snap)
      (hahead : ∀ a ∈ w.2.lastApplied, ∃ b ∈ snap.info.lastLogId, a.index < b.index) :
      Step s (.installSnapshot r i)
        (s.update r (Store.installSnapshot m serde w snap.info snap.data).1)

/-- A build is timely if its replica has applied nothing since it handed the builder out. -/
def Timely (s : World σ δ) : Act δ → Prop
  | .buildSnapshot i _ => ∀ b w, s.builders[i]? = some b → s.replicas[b.replica]? = some w →
      b.store.lastApplied = w.2.lastApplied
  | _ => True

def cellAfter (es : List (Entry δ)) : σ := (Mealy.final (Store.applyEntry m) (init, Store.new) es).1

/-- Metadata of position `n`. -/
structure Stands (log : CommittedLog δ) (n : ℕ) (lastLogId : Option LogId)
    (lastMembership : StoredMembership) : Prop where
  le : n ≤ log.entries.length
  lastLogId : lastLogId = log.lastId n
  lastMembership : lastMembership = (log.replay m init n).2.lastMembership

/-- A cell that has gone through the log up to position `n`, with falls or without. -/
def Reached (falls : Prop) (log : CommittedLog δ) (n : ℕ) (cell : σ) : Prop :=
  ∃ es, Replay falls log.entries n es ∧ cell = cellAfter m init es

variable {m serde init} {falls : Prop} {log log' : CommittedLog δ} {n k : ℕ}

theorem applyEntry_cell {w w' : σ × Store} (e : Entry δ) (h : w.1 = w'.1) :
    (Store.applyEntry m w e).1.1 = (Store.applyEntry m w' e).1.1 := by
  unfold Store.applyEntry
  cases e.payload <;> simp [h]

theorem applyEntry_lastMembership {w w' : σ × Store} (e : Entry δ)
    (h : w.2.lastMembership = w'.2.lastMembership) :
    (Store.applyEntry m w e).1.2.lastMembership = (Store.applyEntry m w' e).1.2.lastMembership := by
  unfold Store.applyEntry
  cases e.payload <;> simp [h]

namespace Stands
variable {lastLogId lastLogId' : Option LogId} {lastMembership lastMembership' : StoredMembership}

theorem start (log : CommittedLog δ) :
    Stands m init log 0 Store.new.lastApplied Store.new.lastMembership where
  le := Nat.zero_le _
  lastLogId := rfl
  lastMembership := rfl

theorem grow (h : Stands m init log n lastLogId lastMembership)
    (hlog : log.entries <+: log'.entries) : Stands m init log' n lastLogId lastMembership := by
  obtain ⟨more, hmore⟩ := hlog
  have htake : log'.entries.take n = log.entries.take n := by
    rw [← hmore, List.take_append_of_le_length h.le]
  refine ⟨?_, ?_, ?_⟩
  · rw [← hmore, List.length_append]
    exact Nat.le_add_right_of_le h.le
  · rw [CommittedLog.lastId, htake]
    exact h.lastLogId
  · rw [CommittedLog.replay, htake]
    exact h.lastMembership

theorem applyEntry {w : σ × Store} {e : Entry δ}
    (h : Stands m init log n w.2.lastApplied w.2.lastMembership)
    (he : log.entries[n]? = some e) :
    let w' := (Store.applyEntry m w e).1
    Stands m init log (n + 1) w'.2.lastApplied w'.2.lastMembership where
  le := (List.getElem?_eq_some_iff.mp he).1
  lastLogId := by rw [Store.applyEntry_lastApplied, log.lastId_succ n e he]
  lastMembership := by
    rw [log.replay_succ _ _ n e he]
    exact applyEntry_lastMembership e h.lastMembership

theorem unique (h : Stands m init log n lastLogId lastMembership)
    (h' : Stands m init log k lastLogId lastMembership') : n = k :=
  log.lastId_injective h.le h'.le (h.lastLogId.symm.trans h'.lastLogId)

theorem le_of_ahead (h : Stands m init log n lastLogId lastMembership)
    (h' : Stands m init log k lastLogId' lastMembership')
    (hahead : ∀ a ∈ lastLogId, ∃ b ∈ lastLogId', a.index < b.index) : n ≤ k := by
  rw [h.lastLogId, h'.lastLogId] at hahead
  exact log.le_of_lastId_ahead h.le h'.le hahead

theorem next (h : Stands m init log n lastLogId lastMembership) {e : Entry δ}
    (he : log.upTo lastLogId ++ [e] <+: log.entries) : log.entries[n]? = some e := by
  rw [h.lastLogId, log.upTo_lastId n h.le] at he
  refine getElem?_of_isPrefix he ?_
  rw [List.getElem?_append_right (by rw [List.length_take, Nat.min_eq_left h.le]),
    List.length_take, Nat.min_eq_left h.le, Nat.sub_self]
  rfl

end Stands

namespace Reached

theorem start (log : CommittedLog δ) : Reached m init falls log 0 init := ⟨[], .start, rfl⟩

theorem grow {cell : σ} (h : Reached m init falls log n cell)
    (hlog : log.entries <+: log'.entries) : Reached m init falls log' n cell := by
  obtain ⟨es, hes, hcell⟩ := h
  exact ⟨es, hes.grow hlog, hcell⟩

theorem applyEntry {w : σ × Store} {e : Entry δ} (h : Reached m init falls log n w.1)
    (he : log.entries[n]? = some e) :
    Reached m init falls log (n + 1) (Store.applyEntry m w e).1.1 := by
  obtain ⟨es, hes, hcell⟩ := h
  refine ⟨es ++ [e], hes.next he, ?_⟩
  rw [cellAfter, Mealy.final_concat]
  exact applyEntry_cell e hcell

theorem back {cell : σ} (h : Reached m init falls log n cell) (hi : k ≤ n)
    (hfalls : falls ∨ k = n) : Reached m init falls log k cell := by
  obtain ⟨es, hes, hcell⟩ := h
  rcases hfalls with hfalls | rfl
  · exact ⟨es, hes.back hfalls hi, hcell⟩
  · exact ⟨es, hes, hcell⟩

end Reached

section Step
variable {s s' : World σ δ} {act : Act δ} {r : ℕ} {w : σ × Store}

theorem Step.log_grows (hs : Step m serde init s act s') : s.log.entries <+: s'.log.entries := by
  cases hs with
  | commit hlog =>
    rw [hlog]
    exact List.prefix_append _ _
  | apply | restart | getSnapshotBuilder | buildSnapshot | getCurrentSnapshot
    | installSnapshot => exact List.prefix_rfl

theorem Step.length_replicas (hs : Step m serde init s act s') :
    s'.replicas.length = s.replicas.length := by
  cases hs with
  | commit | getSnapshotBuilder | buildSnapshot | getCurrentSnapshot => rfl
  | apply | restart | installSnapshot => exact List.length_set

theorem World.update_replicas {j : ℕ} (hr : s.replicas[r]? = some w) {v w' : σ × Store}
    (hj : s.replicas[j]? = some v) :
    (s.update r w').replicas[j]? = some (if r = j then w' else v) := by
  by_cases h : r = j
  · subst h
    rw [if_pos rfl]
    exact List.getElem?_set_self (List.getElem?_eq_some_iff.mp hr).1
  · rw [if_neg h]
    exact (List.getElem?_set_ne h).trans hj

inductive Moved (m : Machine σ δ ρ π) (serde : SerdeJson π) (init : σ) (s : World σ δ) (r : ℕ)
    (w : σ × Store) : Act δ → σ × Store → Prop
  | stays (act : Act δ) : Moved m serde init s r w act w
  | applies {e : Entry δ} (he : s.log.upTo w.2.lastApplied ++ [e] <+: s.log.entries) :
      Moved m serde init s r w (.apply r) (Store.applyEntry m w e).1
  | restarts : Moved m serde init s r w (.restart r) (init, Store.new)
  | installs {i : ℕ} {snap : Snapshot} (hi : s.snapshots[i]? = some snap)
      (hahead : ∀ a ∈ w.2.lastApplied, ∃ b ∈ snap.info.lastLogId, a.index < b.index) :
      Moved m serde init s r w (.installSnapshot r i)
        (Store.installSnapshot m serde w snap.info snap.data).1

theorem Step.moved (hs : Step m serde init s act s') (hr : s.replicas[r]? = some w) :
    ∃ w', s'.replicas[r]? = some w' ∧ Moved m serde init s r w act w' := by
  cases hs with
  | commit | getSnapshotBuilder | buildSnapshot | getCurrentSnapshot => exact ⟨w, hr, .stays _⟩
  | @apply j v e hj he =>
    refine ⟨_, World.update_replicas hj hr, ?_⟩
    split
    · rename_i heq
      subst heq
      cases hj.symm.trans hr
      exact .applies he
    · exact .stays _
  | @restart j v hj =>
    refine ⟨_, World.update_replicas hj hr, ?_⟩
    split
    · rename_i heq
      subst heq
      exact .restarts
    · exact .stays _
  | @installSnapshot j i v snap hj hi hahead =>
    refine ⟨_, World.update_replicas hj hr, ?_⟩
    split
    · rename_i heq
      subst heq
      cases hj.symm.trans hr
      exact .installs hi hahead
    · exact .stays _

end Step

variable (m serde init) (falls)

def Sends (log : CommittedLog δ) (snap : Snapshot) : Prop :=
  ∃ n payload, serde.fromSlice snap.data = some payload ∧
    Stands m init log n snap.info.lastLogId snap.info.lastMembership ∧
    Reached m init falls log n (m.load payload)

structure ReplicaSound (log : CommittedLog δ) (w : σ × Store) : Prop where
  position : ∃ n, Stands m init log n w.2.lastApplied w.2.lastMembership ∧
    Reached m init falls log n w.1
  current : ∀ snap, w.2.getCurrentSnapshot = some snap → Sends m serde init falls log snap

def BuilderSound (log : CommittedLog δ) (w : σ × Store) (b : Builder) : Prop :=
  ∃ i n, Stands m init log n w.2.lastApplied w.2.lastMembership ∧ i ≤ n ∧
    Stands m init log i b.store.lastApplied b.store.lastMembership

structure Sound (s : World σ δ) : Prop where
  replicas : ∀ w ∈ s.replicas, ReplicaSound m serde init falls s.log w
  builders : ∀ b ∈ s.builders, ∃ w, s.replicas[b.replica]? = some w ∧ BuilderSound m init s.log w b
  snapshots : ∀ snap ∈ s.snapshots, Sends m serde init falls s.log snap

variable {m serde init falls} {s s' : World σ δ} {act : Act δ} {acts : List (Act δ)}

theorem Sends.grow {snap : Snapshot} (h : Sends m serde init falls log snap)
    (hlog : log.entries <+: log'.entries) : Sends m serde init falls log' snap := by
  obtain ⟨n, payload, hdata, hstands, hreached⟩ := h
  exact ⟨n, payload, hdata, hstands.grow hlog, hreached.grow hlog⟩

theorem ReplicaSound.start (log : CommittedLog δ) :
    ReplicaSound m serde init falls log (init, Store.new) :=
  ⟨⟨0, Stands.start log, Reached.start log⟩, fun _ h => by cases h⟩

namespace Sound

theorem start (size : ℕ) : Sound m serde init falls (World.start init size) where
  replicas w hw := by
    rw [List.eq_of_mem_replicate hw]
    exact .start _
  builders b hb := by cases hb
  snapshots snap hsnap := by cases hsnap

theorem grow (h : Sound m serde init falls s) (hlog : s.log.entries <+: log'.entries) :
    Sound m serde init falls { s with log := log' } where
  replicas w hw := by
    obtain ⟨⟨n, hstands, hreached⟩, hcurrent⟩ := h.replicas w hw
    exact ⟨⟨n, hstands.grow hlog, hreached.grow hlog⟩,
      fun snap hsnap => (hcurrent snap hsnap).grow hlog⟩
  builders b hb := by
    obtain ⟨w, hw, i, n, hn, hle, hi⟩ := h.builders b hb
    exact ⟨w, hw, i, n, hn.grow hlog, hle, hi.grow hlog⟩
  snapshots snap hsnap := (h.snapshots snap hsnap).grow hlog

theorem update (h : Sound m serde init falls s) {r : ℕ} {w w' : σ × Store}
    (hr : s.replicas[r]? = some w) (hw' : ReplicaSound m serde init falls s.log w')
    (hb : ∀ b, BuilderSound m init s.log w b → BuilderSound m init s.log w' b) :
    Sound m serde init falls (s.update r w') where
  replicas x hx := by
    rcases List.mem_or_eq_of_mem_set hx with hx | rfl
    · exact h.replicas x hx
    · exact hw'
  builders b hmem := by
    obtain ⟨x, hx, hsound⟩ := h.builders b hmem
    by_cases hbr : r = b.replica
    · rw [← hbr, hr] at hx
      cases hx
      refine ⟨w', ?_, hb b hsound⟩
      rw [← hbr]
      exact List.getElem?_set_self (List.getElem?_eq_some_iff.mp hr).1
    · exact ⟨x, (List.getElem?_set_ne hbr).trans hx, hsound⟩
  snapshots := h.snapshots

theorem restart (h : Sound m serde init falls s) (r : ℕ) :
    Sound m serde init falls { s.update r (init, Store.new) with
      builders := s.builders.filter fun b => decide (b.replica ≠ r) } where
  replicas x hx := by
    rcases List.mem_or_eq_of_mem_set hx with hx | rfl
    · exact h.replicas x hx
    · exact .start _
  builders b hb := by
    obtain ⟨hmem, hother⟩ := List.mem_filter.mp hb
    obtain ⟨x, hx, hsound⟩ := h.builders b hmem
    exact ⟨x, (List.getElem?_set_ne (Ne.symm (of_decide_eq_true hother))).trans hx, hsound⟩
  snapshots := h.snapshots

theorem send (h : Sound m serde init falls s) {snap : Snapshot}
    (hsnap : Sends m serde init falls s.log snap) :
    Sound m serde init falls { s with snapshots := s.snapshots ++ [snap] } where
  replicas := h.replicas
  builders := h.builders
  snapshots x hx := by
    rcases List.mem_append.mp hx with hx | hx
    · exact h.snapshots x hx
    · rw [List.mem_singleton.mp hx]
      exact hsnap

theorem step (h : Sound m serde init falls s) (hs : Step m serde init s act s')
    (hfalls : falls ∨ Timely s act) : Sound m serde init falls s' := by
  cases hs with
  | @commit e log' hlog =>
    refine h.grow ?_
    rw [hlog]
    exact List.prefix_append _ _
  | @apply r w e hr he =>
    obtain ⟨⟨n, hstands, hreached⟩, hcurrent⟩ := h.replicas w (List.mem_of_getElem? hr)
    have hnext := hstands.next he
    refine h.update hr ⟨⟨n + 1, hstands.applyEntry hnext, hreached.applyEntry hnext⟩,
      fun snap hsnap => ?_⟩ fun b hb => ?_
    · rw [Store.getCurrentSnapshot, Store.applyEntry_snapshot] at hsnap
      exact hcurrent snap hsnap
    · obtain ⟨i, k, hk, hle, hi⟩ := hb
      cases hk.unique hstands
      exact ⟨i, n + 1, hstands.applyEntry hnext, Nat.le_succ_of_le hle, hi⟩
  | @restart r w hr => exact h.restart r
  | @getSnapshotBuilder r w hr =>
    obtain ⟨⟨n, hstands, -⟩, -⟩ := h.replicas w (List.mem_of_getElem? hr)
    refine ⟨h.replicas, fun b hb => ?_, h.snapshots⟩
    rcases List.mem_append.mp hb with hb | hb
    · exact h.builders b hb
    · rw [List.mem_singleton.mp hb]
      exact ⟨w, hr, n, n, hstands, le_rfl, hstands⟩
  | @buildSnapshot i nanos b w hb hr =>
    obtain ⟨x, hx, hsound⟩ := h.builders b (List.mem_of_getElem? hb)
    cases hr.symm.trans hx
    have hbuilt : Sound m serde init falls { s with
        builders := s.builders.set i
          ⟨b.replica, (Store.buildSnapshot m serde w.1 nanos b.store).1⟩ } := by
      refine ⟨h.replicas, fun y hy => ?_, h.snapshots⟩
      rcases List.mem_or_eq_of_mem_set hy with hy | rfl
      · exact h.builders y hy
      · exact ⟨w, hr, hsound⟩
    -- the metadata is the builder's, the payload is what the replica holds now
    obtain ⟨k, n, hn, hle, hk⟩ := hsound
    obtain ⟨⟨n', hn', hreached⟩, -⟩ := h.replicas w (List.mem_of_getElem? hr)
    cases hn.unique hn'
    have hlate : falls ∨ k = n := hfalls.imp_right fun htimely =>
      s.log.lastId_injective hk.le hn.le
        (hk.lastLogId.symm.trans ((htimely b w hb hr).trans hn.lastLogId))
    refine hbuilt.send ⟨k, m.save w.1, serde.fromSlice_toVec _, hk, ?_⟩
    rw [m.load_save]
    exact hreached.back hle hlate
  | @getCurrentSnapshot r w snap hr hsnap =>
    exact h.send ((h.replicas w (List.mem_of_getElem? hr)).current snap hsnap)
  | @installSnapshot r i w snap hr hi hahead =>
    obtain ⟨⟨n, hn, -⟩, -⟩ := h.replicas w (List.mem_of_getElem? hr)
    have hsends := h.snapshots snap (List.mem_of_getElem? hi)
    obtain ⟨k, payload, hdata, hk, hreached⟩ := hsends
    have hinstalled : (Store.installSnapshot m serde w snap.info snap.data).1 =
        (m.load payload, ⟨snap.info.lastLogId, snap.info.lastMembership,
          some ⟨snap.info, snap.data⟩⟩) := by
      simp only [Store.installSnapshot, hdata]
    rw [hinstalled]
    refine h.update hr ⟨⟨k, hk, hreached⟩, fun x hx => ?_⟩ fun b hb => ?_
    · cases hx
      exact ⟨k, payload, hdata, hk, hreached⟩
    · obtain ⟨j, n', hn', hle, hj⟩ := hb
      cases hn'.unique hn
      exact ⟨j, k, hk, hle.trans (hn.le_of_ahead hk hahead), hj⟩

theorem advances (h : Sound m serde init falls s) (hs : Step m serde init s act s') {r : ℕ}
    {w : σ × Store} (hr : s.replicas[r]? = some w) (hact : act ≠ .restart r)
    (hn : Stands m init s.log n w.2.lastApplied w.2.lastMembership) :
    ∃ k w', n ≤ k ∧ s'.replicas[r]? = some w' ∧
      Stands m init s'.log k w'.2.lastApplied w'.2.lastMembership := by
  obtain ⟨w', hw', hmoved⟩ := hs.moved hr
  cases hmoved with
  | stays => exact ⟨n, w, le_rfl, hw', hn.grow hs.log_grows⟩
  | applies he =>
    exact ⟨n + 1, _, Nat.le_succ n, hw', (hn.applyEntry (hn.next he)).grow hs.log_grows⟩
  | restarts => exact absurd rfl hact
  | @installs i snap hi hahead =>
    obtain ⟨k, payload, hdata, hk, -⟩ := h.snapshots snap (List.mem_of_getElem? hi)
    refine ⟨k, _, hn.le_of_ahead hk hahead, hw', ?_⟩
    simp only [Store.installSnapshot, hdata]
    exact hk.grow hs.log_grows

theorem run {size : ℕ} (h : Lts.Steps (Step m serde init) (World.start init size) acts s) :
    Sound m serde init True s :=
  h.invariant (P := Sound m serde init True) (fun _ _ _ hs hstep => hs.step hstep (.inl trivial))
    (start size)

theorem run_timely {size : ℕ}
    (h : Lts.Steps (fun s act s' => Step m serde init s act s' ∧ Timely s act)
      (World.start init size) acts s) : Sound m serde init False s :=
  h.invariant (P := Sound m serde init False) (fun _ _ _ hs hstep => hs.step hstep.1 (.inr hstep.2))
    (start size)

end Sound

end BlunMq.Replication
