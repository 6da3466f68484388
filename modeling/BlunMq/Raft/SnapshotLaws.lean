import BlunMq.Lib.Steps
import BlunMq.Raft.NodeStateMachine
import BlunMq.Raft.SnapshotBuild
import BlunMq.Raft.StateMachine

/-!
# Two laws of snapshots, and where the stores meet them

A snapshot should carry the state after exactly the entries its own metadata
names, and a store should serve the snapshot built or installed last. A builder
freezes the metadata and shares the cell, so the first law holds only for builds
during which the queue state stood still. It also keeps what it built to itself,
so the second holds only until a build comes last.
-/

namespace BlunMq.StateMachineStore

def InertEntry (s : QueueState) (e : Entry QueueRequest) : Prop :=
  match e.payload with
  | .normal req => s.Inert req
  | _ => True

theorem applyEntry_cell_eq_iff (w : QueueState × Store) (e : Entry QueueRequest) :
    (Store.applyEntry machine w e).1.1 = w.1 ↔ InertEntry w.1 e := by
  unfold Store.applyEntry InertEntry
  cases e.payload with
  | blank => simp
  | normal req => exact QueueState.apply_eq_self_iff w.1 req
  | membership mem => simp

theorem stateAfter_eq_iff (log : CommittedLog QueueRequest) {i n : ℕ} (h : i ≤ n) :
    stateAfter (log.entries.take i) = stateAfter (log.entries.take n) ↔
      ∀ (k : ℕ) (e : Entry QueueRequest), log.entries[k]? = some e → i ≤ k → k < n →
        InertEntry (stateAfter (log.entries.take k)) e := by
  constructor
  · intro heq
    -- The state at any position in between is squeezed to the common one.
    have hmid : ∀ k, i ≤ k → k ≤ n →
        stateAfter (log.entries.take k) = stateAfter (log.entries.take i) := by
      intro k hik hkn
      have h1 := take_split log hik
      have h2 := take_split log hkn
      rw [h1, List.append_assoc] at h2
      have hb := publishedTo_requests_le log n
      rw [stateAfter_eq, stateAfter_eq, h2] at heq
      rw [h2] at hb
      rw [stateAfter_eq, stateAfter_eq, h1]
      exact QueueState.finalState_squeeze _ _ _ hb heq
    intro k e he hik hkn
    have hstep := congrArg Prod.fst
      (log.replay_succ machine QueueState.default k e he)
    rw [replay_cell, hmid (k + 1) (by omega) (by omega), ← hmid k hik (by omega),
      ← replay_cell] at hstep
    rw [← replay_cell]
    exact (applyEntry_cell_eq_iff _ e).mp hstep.symm
  · intro hinert
    induction n, h using Nat.le_induction with
    | base => rfl
    | succ n hin ih =>
      rw [ih fun k e he h1 h2 => hinert k e he h1 (by omega)]
      cases he : log.entries[n]? with
      | none =>
        rw [List.take_add_one, he, Option.toList_none, List.append_nil]
      | some e =>
        have hstep := congrArg Prod.fst
          (log.replay_succ machine QueueState.default n e he)
        have hself := (applyEntry_cell_eq_iff (log.replay machine QueueState.default n) e).mpr
          (by rw [replay_cell]; exact hinert n e he hin (by omega))
        rw [← replay_cell, ← replay_cell, hstep, hself]

/-- The snapshot's data is the queue state after the committed entries up to and
including its own last log id, and nothing later. -/
def Consistent (serde : SerdeJson SnapshotPayload) (log : CommittedLog QueueRequest)
    (snap : Snapshot) : Prop :=
  (serde.fromSlice snap.data).map load = some (stateAfter (log.upTo snap.info.lastLogId))

structure Stores where
  log : CommittedLog QueueRequest
  worlds : List (World QueueState QueueRequest)
  built : List Snapshot

namespace Stores

def start (size : ℕ) : Stores :=
  ⟨CommittedLog.start, List.replicate size (World.start QueueState.default), []⟩

inductive Act
  | commit (e : Entry QueueRequest)
  | run (r : ℕ) (op : WorldOp QueueRequest)
  | restart (r : ℕ)

/-- What openraft asks of a store: the next committed entry, or any snapshot of the group,
whatever that holds. Builders may be taken and run at any time. -/
def Asks (s : Stores) (w : World QueueState QueueRequest) : WorldOp QueueRequest → Prop
  | .beginEntry e => s.log.entries[(s.log.upTo w.store.lastApplied).length]? = some e
  | .beginInstall info data => ⟨info, data⟩ ∈ s.built
  | _ => True

def builtIn : Option SnapshotEvent → List Snapshot
  | some (.built snap) => [snap]
  | _ => []

def after (s : Stores) (r : ℕ) (out : World QueueState QueueRequest × Option SnapshotEvent) :
    Stores :=
  { s with worlds := s.worlds.set r out.1, built := s.built ++ builtIn out.2 }

inductive Step (serde : SerdeJson SnapshotPayload) : Stores → Act → Stores → Prop
  | commit {s : Stores} {e : Entry QueueRequest} {log' : CommittedLog QueueRequest}
      (hlog : log'.entries = s.log.entries ++ [e]) :
      Step serde s (.commit e) { s with log := log' }
  | run {s : Stores} {r : ℕ} {w : World QueueState QueueRequest} {op : WorldOp QueueRequest}
      (hw : s.worlds[r]? = some w) (hop : s.Asks w op) :
      Step serde s (.run r op) (s.after r (World.step machine serde w op))
  -- the process ends, and its state with it
  | restart {s : Stores} {r : ℕ} {w : World QueueState QueueRequest}
      (hw : s.worlds[r]? = some w) :
      Step serde s (.restart r) { s with worlds := s.worlds.set r (World.start QueueState.default) }

end Stores

/-- How many entries of the log the cell holds. `last_applied` is one ahead while `apply` waits
for the lock, and behind once `install_snapshot` has replaced the cell. -/
def inCell (log : CommittedLog QueueRequest) (w : World QueueState QueueRequest) : ℕ :=
  match w.busy with
  | .idle => (log.upTo w.store.lastApplied).length
  | .applying _ => (log.upTo w.store.lastApplied).length - 1
  | .installing info _ => (log.upTo info.lastLogId).length

def QuietBetween (log : CommittedLog QueueRequest) (i n : ℕ) : Prop :=
  ∀ (k : ℕ) (e : Entry QueueRequest), log.entries[k]? = some e → min i n ≤ k → k < max i n →
    InertEntry (stateAfter (log.entries.take k)) e

/-- A build is quiet if nothing between the entries its metadata names and the entries in the
cell touches the queues. -/
def Quiet (s : Stores) : Stores.Act → Prop
  | .run r (.buildSnapshot i _) => ∀ w b, s.worlds[r]? = some w → w.builders[i]? = some b →
      QuietBetween s.log (s.log.upTo b.lastApplied).length (inCell s.log w)
  | _ => True

theorem quietBetween_iff (log : CommittedLog QueueRequest) (i n : ℕ) :
    QuietBetween log i n ↔
      stateAfter (log.entries.take i) = stateAfter (log.entries.take n) := by
  unfold QuietBetween
  rcases Nat.le_total i n with hle | hle
  · rw [Nat.min_eq_left hle, Nat.max_eq_right hle, stateAfter_eq_iff log hle]
  · rw [Nat.min_eq_right hle, Nat.max_eq_left hle, eq_comm, stateAfter_eq_iff log hle]

structure Marks (log : CommittedLog QueueRequest) (n : ℕ) (id : Option LogId) : Prop where
  le : n ≤ log.entries.length
  id : id = log.lastId n

inductive Phase (log : CommittedLog QueueRequest) (n : ℕ) : ℕ → Busy QueueRequest → Prop
  | idle : Phase log n n .idle
  | applying {k : ℕ} {e : Entry QueueRequest} {req : QueueRequest} (hn : n = k + 1)
      (he : log.entries[k]? = some e) (hp : e.payload = .normal req) :
      Phase log n k (.applying req)
  | installing {k : ℕ} {info : SnapshotMeta} {data : Bytes} (hk : Marks log k info.lastLogId) :
      Phase log n k (.installing info data)

/-- The store is at position `n` by its own account, and its cell at position `k`. -/
structure Exact (log : CommittedLog QueueRequest) (n k : ℕ)
    (w : World QueueState QueueRequest) : Prop where
  applied : Marks log n w.store.lastApplied
  phase : Phase log n k w.busy
  cell : w.cell = stateAfter (log.entries.take k)
  builders : ∀ b ∈ w.builders, ∃ i, Marks log i b.lastApplied

variable {serde : SerdeJson SnapshotPayload} {log log' : CommittedLog QueueRequest} {n k : ℕ}
  {w : World QueueState QueueRequest} {snap : Snapshot}

namespace Marks
variable {id : Option LogId}

theorem start (log : CommittedLog QueueRequest) : Marks log 0 none := ⟨Nat.zero_le _, rfl⟩

theorem upTo (h : Marks log n id) : log.upTo id = log.entries.take n := by
  rw [h.id, log.upTo_lastId n h.le]

theorem length_upTo (h : Marks log n id) : (log.upTo id).length = n := by
  rw [h.upTo, List.length_take, Nat.min_eq_left h.le]

theorem next {e : Entry QueueRequest} (he : log.entries[n]? = some e) :
    Marks log (n + 1) (some e.logId) :=
  ⟨(List.getElem?_eq_some_iff.mp he).1, (log.lastId_succ n e he).symm⟩

theorem grow (h : Marks log n id) (hlog : log.entries <+: log'.entries) : Marks log' n id where
  le := h.le.trans hlog.length_le
  id := by rw [h.id, CommittedLog.lastId, CommittedLog.lastId, take_of_isPrefix hlog h.le]

end Marks

theorem consistent_grow (h : Marks log n snap.info.lastLogId)
    (hlog : log.entries <+: log'.entries) :
    Consistent serde log' snap ↔ Consistent serde log snap := by
  rw [Consistent, Consistent, (h.grow hlog).upTo, h.upTo, take_of_isPrefix hlog h.le]

namespace Phase
variable {busy : Busy QueueRequest}

theorem le (h : Phase log n k busy) (hn : n ≤ log.entries.length) : k ≤ log.entries.length := by
  cases h with
  | idle => exact hn
  | applying _ he _ => exact (List.getElem?_eq_some_iff.mp he).1.le
  | installing hk => exact hk.le

theorem grow (h : Phase log n k busy) (hlog : log.entries <+: log'.entries) :
    Phase log' n k busy := by
  cases h with
  | idle => exact .idle
  | applying hn he hp => exact .applying hn (getElem?_of_isPrefix hlog he) hp
  | installing hk => exact .installing (hk.grow hlog)

end Phase

namespace Exact

theorem start (log : CommittedLog QueueRequest) :
    Exact log 0 0 (World.start QueueState.default) where
  applied := .start log
  phase := .idle
  cell := rfl
  builders _ hb := by cases hb

theorem inCell (h : Exact log n k w) : StateMachineStore.inCell log w = k := by
  have hlength := h.applied.length_upTo
  obtain ⟨cell, store, busy, builders⟩ := w
  cases h.phase with
  | idle => exact hlength
  | applying hn _ _ =>
    simp only [StateMachineStore.inCell, hlength, hn]
    exact Nat.add_sub_cancel k 1
  | installing hk => exact hk.length_upTo

theorem grow (h : Exact log n k w) (hlog : log.entries <+: log'.entries) : Exact log' n k w where
  applied := h.applied.grow hlog
  phase := h.phase.grow hlog
  cell := by rw [h.cell, take_of_isPrefix hlog (h.phase.le h.applied.le)]
  builders b hb := by
    obtain ⟨i, hi⟩ := h.builders b hb
    exact ⟨i, hi.grow hlog⟩

end Exact

theorem stateAfter_next {e : Entry QueueRequest} (he : log.entries[n]? = some e) :
    stateAfter (log.entries.take (n + 1)) =
      match e.payload with
      | .normal req => (machine.apply (stateAfter (log.entries.take n)) req).1
      | _ => stateAfter (log.entries.take n) := by
  rw [← replay_cell, log.replay_succ machine QueueState.default n e he, Store.applyEntry,
    replay_cell]
  cases e.payload <;> rfl

structure Sent (serde : SerdeJson SnapshotPayload) (log : CommittedLog QueueRequest)
    (snap : Snapshot) : Prop where
  marks : ∃ i, Marks log i snap.info.lastLogId
  consistent : Consistent serde log snap

theorem Sent.grow (h : Sent serde log snap) (hlog : log.entries <+: log'.entries) :
    Sent serde log' snap := by
  obtain ⟨i, hi⟩ := h.marks
  exact ⟨⟨i, hi.grow hlog⟩, (consistent_grow hi hlog).mpr h.consistent⟩

variable (serde) in
theorem Exact.build (h : Exact log n k w) {b : Store} (hb : b ∈ w.builders) (nanos : ℕ) :
    (∃ i, Marks log i (buildSnapshot serde w.cell nanos b).2.info.lastLogId) ∧
    (Consistent serde log (buildSnapshot serde w.cell nanos b).2 ↔
      QuietBetween log (log.upTo b.lastApplied).length (StateMachineStore.inCell log w)) := by
  obtain ⟨i, hi⟩ := h.builders b hb
  refine ⟨⟨i, hi⟩, ?_⟩
  have hload : load (machine.save w.cell) = w.cell := load_save w.cell
  rw [quietBetween_iff, hi.length_upTo, h.inCell, ← h.cell, eq_comm, ← hi.upTo]
  simp only [Consistent, buildSnapshot, Store.buildSnapshot, serde.fromSlice_toVec,
    Option.map_some, hload, Option.some.injEq]

theorem Exact.beginEntry (h : Exact log n k w) {e : Entry QueueRequest}
    (he : log.entries[(log.upTo w.store.lastApplied).length]? = some e) :
    ∃ n' k', Exact log n' k' (w.beginEntry e) := by
  obtain ⟨cell, store, busy, builders⟩ := w
  obtain ⟨happlied, hphase, hcell, hbuilders⟩ := h
  rw [happlied.length_upTo] at he
  have hstate := stateAfter_next he
  cases hphase with
  | idle =>
    simp only [World.beginEntry]
    cases hp : e.payload with
    | blank | membership =>
      rw [hp] at hstate
      exact ⟨n + 1, n + 1, .next he, .idle, hcell.trans hstate.symm, hbuilders⟩
    | normal req => exact ⟨n + 1, n, .next he, .applying rfl he hp, hcell, hbuilders⟩
  | applying hn he' hp => exact ⟨n, k, happlied, .applying hn he' hp, hcell, hbuilders⟩
  | installing hk => exact ⟨n, k, happlied, .installing hk, hcell, hbuilders⟩

theorem Exact.applyRequest (h : Exact log n k w) :
    ∃ n' k', Exact log n' k' (w.applyRequest machine) := by
  obtain ⟨cell, store, busy, builders⟩ := w
  obtain ⟨happlied, hphase, hcell, hbuilders⟩ := h
  cases hphase with
  | idle => exact ⟨n, n, happlied, .idle, hcell, hbuilders⟩
  | @applying k e req hn he hp =>
    subst hn
    refine ⟨k + 1, k + 1, happlied, .idle, ?_, hbuilders⟩
    rw [stateAfter_next he, hp, ← hcell]
    rfl
  | installing hk => exact ⟨n, k, happlied, .installing hk, hcell, hbuilders⟩

theorem Exact.getSnapshotBuilder (h : Exact log n k w) :
    ∃ n' k', Exact log n' k' w.getSnapshotBuilder := by
  obtain ⟨cell, store, busy, builders⟩ := w
  cases busy with
  | idle =>
    refine ⟨n, k, h.applied, h.phase, h.cell, fun b hb => ?_⟩
    rcases List.mem_append.mp hb with hb | hb
    · exact h.builders b hb
    · rw [List.mem_singleton.mp hb]
      exact ⟨n, h.applied⟩
  | applying | installing => exact ⟨n, k, h⟩

theorem Exact.buildSnapshot (h : Exact log n k w) (i nanos : ℕ) :
    ∃ n' k', Exact log n' k' (w.buildSnapshot machine serde i nanos).1 := by
  unfold World.buildSnapshot
  cases hb : w.builders[i]? with
  | none => exact ⟨n, k, h⟩
  | some b =>
    refine ⟨n, k, h.applied, h.phase, h.cell, fun x hx => ?_⟩
    rcases List.mem_or_eq_of_mem_set hx with hx | rfl
    · exact h.builders x hx
    · exact h.builders b (List.mem_of_getElem? hb)

theorem Exact.beginInstall (h : Exact log n k w) (hsent : Sent serde log snap) :
    ∃ n' k', Exact log n' k' (w.beginInstall machine serde snap.info snap.data) := by
  obtain ⟨cell, store, busy, builders⟩ := w
  obtain ⟨i, hi⟩ := hsent.marks
  have hdata := hsent.consistent
  rw [Consistent, hi.upTo] at hdata
  cases busy with
  | idle =>
    simp only [World.beginInstall]
    cases hp : serde.fromSlice snap.data with
    | none => exact ⟨n, k, h⟩
    | some payload =>
      rw [hp] at hdata
      exact ⟨n, i, h.applied, .installing hi, Option.some.inj hdata, h.builders⟩
  | applying | installing => exact ⟨n, k, h⟩

theorem Exact.endInstall (h : Exact log n k w) : ∃ n' k', Exact log n' k' w.endInstall.1 := by
  obtain ⟨cell, store, busy, builders⟩ := w
  obtain ⟨happlied, hphase, hcell, hbuilders⟩ := h
  cases hphase with
  | idle => exact ⟨n, n, happlied, .idle, hcell, hbuilders⟩
  | applying hn he hp => exact ⟨n, k, happlied, .applying hn he hp, hcell, hbuilders⟩
  | installing hk => exact ⟨k, k, hk, .idle, hcell, hbuilders⟩

theorem Exact.step {s : Stores} (h : Exact s.log n k w)
    (hsent : ∀ snap ∈ s.built, Sent serde s.log snap) {op : WorldOp QueueRequest}
    (hop : s.Asks w op) : ∃ n' k', Exact s.log n' k' (World.step machine serde w op).1 := by
  cases op with
  | beginEntry e => exact h.beginEntry hop
  | applyRequest => exact h.applyRequest
  | getSnapshotBuilder => exact h.getSnapshotBuilder
  | buildSnapshot i nanos => exact h.buildSnapshot i nanos
  | beginInstall info data => exact h.beginInstall (hsent ⟨info, data⟩ hop)
  | endInstall => exact h.endInstall

structure Sound (serde : SerdeJson SnapshotPayload) (s : Stores) : Prop where
  worlds : ∀ w ∈ s.worlds, ∃ n k, Exact s.log n k w
  built : ∀ snap ∈ s.built, Sent serde s.log snap

def Corrupt (serde : SerdeJson SnapshotPayload) (s : Stores) : Prop :=
  ∃ snap ∈ s.built, (∃ i, Marks s.log i snap.info.lastLogId) ∧ ¬ Consistent serde s.log snap

variable {s s' : Stores} {act : Stores.Act} {acts : List Stores.Act}

theorem Stores.Step.log_grows (hs : Stores.Step serde s act s') :
    s.log.entries <+: s'.log.entries := by
  cases hs with
  | commit hlog =>
    rw [hlog]
    exact List.prefix_append _ _
  | run | restart => exact List.prefix_rfl

theorem Stores.Step.built_grows (hs : Stores.Step serde s act s') : s.built <+: s'.built := by
  cases hs with
  | commit | restart => exact List.prefix_rfl
  | run => exact List.prefix_append _ _

theorem Corrupt.step (h : Corrupt serde s) (hs : Stores.Step serde s act s') :
    Corrupt serde s' := by
  obtain ⟨snap, hmem, ⟨i, hi⟩, hbad⟩ := h
  exact ⟨snap, hs.built_grows.subset hmem, ⟨i, hi.grow hs.log_grows⟩,
    fun hc => hbad ((consistent_grow hi hs.log_grows).mp hc)⟩

theorem Sound.builds (h : Sound serde s) {r : ℕ} (hw : s.worlds[r]? = some w)
    (op : WorldOp QueueRequest) :
    ∀ snap ∈ Stores.builtIn (World.step machine serde w op).2,
      (∃ i, Marks s.log i snap.info.lastLogId) ∧
        (Consistent serde s.log snap ↔ Quiet s (.run r op)) := by
  intro snap hsnap
  obtain ⟨n, k, hexact⟩ := h.worlds w (List.mem_of_getElem? hw)
  cases op with
  | buildSnapshot i nanos =>
    simp only [World.step, World.buildSnapshot] at hsnap
    cases hb : w.builders[i]? with
    | none =>
      rw [hb] at hsnap
      cases hsnap
    | some b =>
      rw [hb] at hsnap
      obtain ⟨hmarks, hiff⟩ := hexact.build serde (List.mem_of_getElem? hb) nanos
      cases List.mem_singleton.mp hsnap
      refine ⟨hmarks, hiff.trans ⟨fun hq v c hv hc => ?_, fun hq => hq w b hw hb⟩⟩
      cases hw.symm.trans hv
      cases hb.symm.trans hc
      exact hq
  | endInstall =>
    simp only [World.step, World.endInstall] at hsnap
    split at hsnap <;> cases hsnap
  | beginEntry | applyRequest | getSnapshotBuilder | beginInstall => cases hsnap

theorem exists_built (serde : SerdeJson SnapshotPayload) {r : ℕ} (hw : s.worlds[r]? = some w)
    {op : WorldOp QueueRequest} (hq : ¬ Quiet s (.run r op)) :
    ∃ snap, snap ∈ Stores.builtIn (World.step machine serde w op).2 := by
  cases op with
  | buildSnapshot i nanos =>
    cases hb : w.builders[i]? with
    | none =>
      refine absurd (fun v b hv hb' => ?_) hq
      cases hw.symm.trans hv
      cases hb.symm.trans hb'
    | some b =>
      refine ⟨(Store.buildSnapshot machine serde w.cell nanos b).2, ?_⟩
      simp only [World.step, World.buildSnapshot, hb]
      exact List.mem_cons_self
  | _ => exact absurd trivial hq

theorem Sound.start (size : ℕ) : Sound serde (Stores.start size) where
  worlds w hw := by
    rw [List.eq_of_mem_replicate hw]
    exact ⟨0, 0, .start _⟩
  built snap hsnap := by cases hsnap

theorem Sound.grow (h : Sound serde s) (hlog : s.log.entries <+: log'.entries) :
    Sound serde { s with log := log' } where
  worlds w hw := by
    obtain ⟨n, k, hexact⟩ := h.worlds w hw
    exact ⟨n, k, hexact.grow hlog⟩
  built snap hsnap := (h.built snap hsnap).grow hlog

theorem Sound.step (h : Sound serde s) (hs : Stores.Step serde s act s') (hq : Quiet s act) :
    Sound serde s' := by
  cases hs with
  | commit hlog =>
    refine h.grow ?_
    rw [hlog]
    exact List.prefix_append _ _
  | @run r w op hw hop =>
    constructor
    · intro x hx
      rcases List.mem_or_eq_of_mem_set hx with hx | rfl
      · exact h.worlds x hx
      · obtain ⟨n, k, hexact⟩ := h.worlds w (List.mem_of_getElem? hw)
        exact hexact.step h.built hop
    · intro snap hsnap
      rcases List.mem_append.mp hsnap with hsnap | hsnap
      · exact h.built snap hsnap
      · obtain ⟨hmarks, hiff⟩ := h.builds hw op snap hsnap
        exact ⟨hmarks, hiff.mpr hq⟩
  | restart =>
    refine ⟨fun x hx => ?_, h.built⟩
    rcases List.mem_or_eq_of_mem_set hx with hx | rfl
    · exact h.worlds x hx
    · exact ⟨0, 0, .start _⟩

def QuietStep (serde : SerdeJson SnapshotPayload) (s : Stores) (act : Stores.Act) (s' : Stores) :
    Prop :=
  Stores.Step serde s act s' ∧ Quiet s act

theorem Sound.run {size : ℕ} (h : Lts.Steps (QuietStep serde) (Stores.start size) acts s) :
    Sound serde s :=
  h.invariant (P := Sound serde) (fun _ _ _ hs hstep => hs.step hstep.1 hstep.2) (.start size)

theorem quiet_or_corrupt {size : ℕ}
    (h : Lts.Steps (Stores.Step serde) (Stores.start size) acts s) :
    Lts.Steps (QuietStep serde) (Stores.start size) acts s ∨ Corrupt serde s := by
  induction h with
  | nil => exact .inl (.nil _)
  | @snoc t u as act hsteps hstep ih =>
    rcases ih with hquiet | hcorrupt
    · by_cases hq : Quiet t act
      · exact .inl (.snoc hquiet ⟨hstep, hq⟩)
      · -- the first build that is not quiet
        refine .inr ?_
        have hsound := Sound.run hquiet
        cases hstep with
        | commit | restart => exact absurd trivial hq
        | @run r w op hw hop =>
          obtain ⟨snap, hsnap⟩ := exists_built serde hw hq
          obtain ⟨hmarks, hiff⟩ := hsound.builds hw op snap hsnap
          exact ⟨snap, List.mem_append_right _ hsnap, hmarks, fun hc => hq (hiff.mp hc)⟩
    · exact .inr (hcorrupt.step hstep)

/-- However the stores of the group are run, and whatever snapshots they install: all the
snapshots they build are consistent exactly when all the builds are quiet. -/
theorem buildSnapshot_consistent_iff (serde : SerdeJson SnapshotPayload) {size : ℕ}
    {acts : List Stores.Act} {s : Stores}
    (h : Lts.Steps (Stores.Step serde) (Stores.start size) acts s) :
    (∀ snap ∈ s.built, Consistent serde s.log snap) ↔
      Lts.Steps (QuietStep serde) (Stores.start size) acts s := by
  constructor
  · intro hall
    rcases quiet_or_corrupt h with hquiet | ⟨snap, hmem, -, hbad⟩
    · exact hquiet
    · exact absurd (hall snap hmem) hbad
  · exact fun hquiet snap hmem => ((Sound.run hquiet).built snap hmem).consistent

def entryAt (index : UInt64) (payload : EntryPayload QueueRequest) : Entry QueueRequest :=
  ⟨⟨⟨1, 1⟩, index⟩, payload⟩

def oneEntry (payload : EntryPayload QueueRequest) : CommittedLog QueueRequest :=
  ⟨[entryAt 0 payload], List.pairwise_singleton _ _⟩

theorem buildSnapshot_inconsistent :
    ¬ ∀ (serde : SerdeJson SnapshotPayload) (size : ℕ) (acts : List Stores.Act) (s : Stores),
      Lts.Steps (Stores.Step serde) (Stores.start size) acts s →
      ∀ snap ∈ s.built, Consistent serde s.log snap := by
  intro h
  have hrun : ∃ s, Lts.Steps (Stores.Step (Json.serde Json.snapshotPayload)) (Stores.start 1)
      [.commit (entryAt 0 (.normal (.publish "spam" [7]))), .run 0 .getSnapshotBuilder,
        .run 0 (.beginEntry (entryAt 0 (.normal (.publish "spam" [7])))), .run 0 .applyRequest,
        .run 0 (.buildSnapshot 0 1)] s ∧
      ∃ snap ∈ s.built, (Json.serde Json.snapshotPayload).fromSlice snap.data =
        some (save (stateAfter [entryAt 0 (.normal (.publish "spam" [7]))])) ∧
        s.log.upTo snap.info.lastLogId = [] := by
    refine ⟨_, .cons (.commit (show (oneEntry (.normal (.publish "spam" [7]))).entries = _ from
      rfl)) (.cons
      (.run rfl trivial) (.cons (.run rfl rfl) (.cons (.run rfl trivial) (.single
      (.run rfl trivial))))), _, List.mem_cons_self, ?_, rfl⟩
    exact SerdeJson.fromSlice_toVec _ _
  obtain ⟨s, hsteps, snap, hmem, hdata, hid⟩ := hrun
  have hc := h _ _ _ s hsteps snap hmem
  rw [Consistent, hdata, hid, Option.map_some, load_save] at hc
  exact absurd hc (by decide)

def emptySnapshot : Snapshot :=
  (buildSnapshot (Json.serde Json.snapshotPayload) QueueState.default 1
    Store.new.getSnapshotBuilder).2

def quietBuilds : List Stores.Act :=
  [.commit (entryAt 0 .blank), .commit (entryAt 1 (.normal (.publish "spam" [7]))),
    .run 0 .getSnapshotBuilder, .run 0 (.beginEntry (entryAt 0 .blank)),
    .run 0 (.beginEntry (entryAt 1 (.normal (.publish "spam" [7])))),
    .run 0 (.buildSnapshot 0 1), .run 1 (.beginInstall emptySnapshot.info emptySnapshot.data),
    .run 1 .endInstall, .run 1 (.beginEntry (entryAt 0 .blank)),
    .run 1 (.beginEntry (entryAt 1 (.normal (.publish "spam" [7])))), .run 1 .applyRequest,
    .run 1 .getSnapshotBuilder, .run 1 (.buildSnapshot 0 2)]

theorem quiet_of_eq {s : Stores} {r i nanos : ℕ} {w : World QueueState QueueRequest} {b : Store}
    (hw : s.worlds[r]? = some w) (hb : w.builders[i]? = some b)
    (h : stateAfter (s.log.entries.take (s.log.upTo b.lastApplied).length) =
      stateAfter (s.log.entries.take (inCell s.log w))) :
    Quiet s (.run r (.buildSnapshot i nanos)) := by
  intro v c hv hc
  cases hw.symm.trans hv
  cases hb.symm.trans hc
  exact (quietBetween_iff _ _ _).mpr h

theorem buildSnapshot_consistent_after_blank :
    ∃ s first second, Lts.Steps (Stores.Step (Json.serde Json.snapshotPayload)) (Stores.start 2)
        quietBuilds s ∧ s.built = [first, second] ∧
      Consistent (Json.serde Json.snapshotPayload) s.log first ∧
      Consistent (Json.serde Json.snapshotPayload) s.log second := by
  let log : CommittedLog QueueRequest :=
    ⟨[entryAt 0 .blank, entryAt 1 (.normal (.publish "spam" [7]))], by decide⟩
  obtain ⟨s, hquiet, hbuilt⟩ : ∃ s, Lts.Steps (QuietStep (Json.serde Json.snapshotPayload))
      (Stores.start 2) quietBuilds s ∧ s.built.length = 2 :=
    ⟨_, .cons ⟨.commit (show (oneEntry .blank).entries = _ from rfl), trivial⟩ (.cons
      ⟨.commit (show log.entries = _ from rfl), trivial⟩ (.cons ⟨.run rfl trivial, trivial⟩ (.cons
      ⟨.run rfl rfl, trivial⟩ (.cons ⟨.run rfl (show _ = some _ by decide +kernel), trivial⟩ (.cons
      ⟨.run rfl trivial, quiet_of_eq rfl rfl (by decide +kernel)⟩ (.cons
      ⟨.run rfl List.mem_cons_self, trivial⟩ (.cons ⟨.run rfl trivial, trivial⟩ (.cons
      ⟨.run rfl (show _ = some _ by decide +kernel), trivial⟩ (.cons
      ⟨.run rfl (show _ = some _ by decide +kernel), trivial⟩
      (.cons ⟨.run rfl trivial, trivial⟩ (.cons ⟨.run rfl trivial, trivial⟩ (.single
      ⟨.run rfl trivial, quiet_of_eq rfl (by rfl) (by decide +kernel)⟩)))))))))))),
      by decide +kernel⟩
  obtain ⟨first, second, hpair⟩ := List.length_eq_two.mp hbuilt
  have hall := (buildSnapshot_consistent_iff _ (hquiet.mono fun _ _ _ h => h.1)).mpr hquiet
  refine ⟨s, first, second, hquiet.mono fun _ _ _ h => h.1, hpair, hall first ?_, hall second ?_⟩
  · simp [hpair]
  · simp [hpair]

end BlunMq.StateMachineStore

namespace BlunMq

theorem getCurrentSnapshot_latest_iff
    (serde : SerdeJson SnapshotPayload) (ops : List (WorldOp QueueRequest))
    (nodeSerde : SerdeJson (Map UInt64 String)) (nodeOps : List (WorldOp NodeCommand))
    (hfresh : World.FreshIds
      (World.events StateMachineStore.machine serde QueueState.default ops))
    (hnodeFresh : World.FreshIds
      (World.events NodeStateMachineStore.machine nodeSerde NodeDirectory.default nodeOps)) :
    (World.ServesLatest StateMachineStore.machine serde QueueState.default ops ↔
      World.NoBuildLast
        (World.events StateMachineStore.machine serde QueueState.default ops)) ∧
    (World.ServesLatest NodeStateMachineStore.machine nodeSerde NodeDirectory.default nodeOps ↔
      World.NoBuildLast
        (World.events NodeStateMachineStore.machine nodeSerde NodeDirectory.default nodeOps)) :=
  ⟨World.servesLatest_iff _ _ _ ops hfresh, World.servesLatest_iff _ _ _ nodeOps hnodeFresh⟩

theorem getCurrentSnapshot_misses_build :
    ¬ World.ServesLatest StateMachineStore.machine (Json.serde Json.snapshotPayload)
        QueueState.default [.getSnapshotBuilder, .buildSnapshot 0 1] ∧
    ¬ World.ServesLatest NodeStateMachineStore.machine (Json.serde Json.nodes)
        NodeDirectory.default [.getSnapshotBuilder, .buildSnapshot 0 1] := by
  constructor <;> intro h <;> cases h

def emptyDirectorySnapshot : Snapshot :=
  (NodeStateMachineStore.buildSnapshot (Json.serde Json.nodes) NodeDirectory.default 1
    Store.new.getSnapshotBuilder).2

def installsOwn : List (WorldOp QueueRequest) :=
  [.getSnapshotBuilder, .buildSnapshot 0 1,
    .beginInstall StateMachineStore.emptySnapshot.info StateMachineStore.emptySnapshot.data,
    .endInstall]

def buildsAfterInstall : List (WorldOp NodeCommand) :=
  [.beginInstall emptyDirectorySnapshot.info emptyDirectorySnapshot.data, .endInstall,
    .getSnapshotBuilder, .buildSnapshot 0 2]

theorem getCurrentSnapshot_after_build :
    World.ServesLatest StateMachineStore.machine (Json.serde Json.snapshotPayload)
      QueueState.default installsOwn ∧
    ¬ World.ServesLatest NodeStateMachineStore.machine (Json.serde Json.nodes)
      NodeDirectory.default buildsAfterInstall := by
  have hevents : World.events StateMachineStore.machine (Json.serde Json.snapshotPayload)
      QueueState.default installsOwn = [.built StateMachineStore.emptySnapshot,
        .installed StateMachineStore.emptySnapshot] := by
    decide +kernel
  obtain ⟨s, hnode, hid⟩ : ∃ s, World.events NodeStateMachineStore.machine (Json.serde Json.nodes)
      NodeDirectory.default buildsAfterInstall =
        [.installed emptyDirectorySnapshot, .built s] ∧
      emptyDirectorySnapshot.info.snapshotId ≠ s.info.snapshotId :=
    ⟨(NodeStateMachineStore.buildSnapshot (Json.serde Json.nodes) NodeDirectory.default 2
      Store.new.getSnapshotBuilder).2, by decide +kernel, by decide +kernel⟩
  have hfresh : World.FreshIds (World.events StateMachineStore.machine
      (Json.serde Json.snapshotPayload) QueueState.default installsOwn) := by
    rw [hevents]
    simp [World.FreshIds]
  have hnodeFresh : World.FreshIds (World.events NodeStateMachineStore.machine
      (Json.serde Json.nodes) NodeDirectory.default buildsAfterInstall) := by
    rw [hnode]
    simpa [World.FreshIds] using hid
  have h := getCurrentSnapshot_latest_iff _ _ _ _ hfresh hnodeFresh
  rw [hevents, hnode] at h
  exact ⟨h.1.mpr (fun x hx => by cases hx), fun hs => h.2.mp hs s rfl⟩

end BlunMq
