import BlunMq.Raft.Replica

/-!
# Snapshot builds next to a running store

openraft takes a builder from the store and runs it in its own task. The store keeps applying
and installing meanwhile, and the builder reads the shared cell whenever it gets the lock.
`World` is one store with its cell and the builders handed out so far. Its steps are as small
as the lock: `apply` sets `last_applied` before it takes the lock, and `install_snapshot` has
given the lock back before it sets the fields of the store.
-/

namespace BlunMq

variable {σ δ ρ π : Type}

/-- What the store is in the middle of. -/
inductive Busy (δ : Type)
  | idle
  | applying (req : δ)
  | installing (info : SnapshotMeta) (data : Bytes)

structure World (σ δ : Type) where
  cell : σ
  store : Store
  busy : Busy δ
  builders : List Store

inductive WorldOp (δ : Type)
  | beginEntry (entry : Entry δ)
  | applyRequest
  | getSnapshotBuilder
  | buildSnapshot (builder nanos : ℕ)
  | beginInstall (info : SnapshotMeta) (data : Bytes)
  | endInstall

inductive SnapshotEvent
  | built (s : Snapshot)
  | installed (s : Snapshot)
  deriving DecidableEq

def SnapshotEvent.snapshot : SnapshotEvent → Snapshot
  | .built s => s
  | .installed s => s

namespace World

def start (init : σ) : World σ δ := ⟨init, Store.new, .idle, []⟩

section Operations
variable (m : Machine σ δ ρ π) (serde : SerdeJson π) (w : World σ δ)

/-- A turn of the loop in `apply` up to the lock. -/
def beginEntry (entry : Entry δ) : World σ δ :=
  match w.busy with
  | .idle =>
    let self := { w.store with lastApplied := some entry.logId }
    match entry.payload with
    | .blank => { w with store := self }
    | .normal req => { w with store := self, busy := .applying req }
    | .membership mem =>
      { w with store := { self with lastMembership := ⟨some entry.logId, mem⟩ } }
  | _ => w

def applyRequest : World σ δ :=
  match w.busy with
  | .applying req => { w with cell := (m.apply w.cell req).1, busy := .idle }
  | _ => w

def getSnapshotBuilder : World σ δ :=
  match w.busy with
  | .idle => { w with builders := w.builders ++ [w.store.getSnapshotBuilder] }
  | _ => w

def buildSnapshot (i nanos : ℕ) : World σ δ × Option SnapshotEvent :=
  match w.builders[i]? with
  | none => (w, none)
  | some b =>
    let out := Store.buildSnapshot m serde w.cell nanos b
    ({ w with builders := w.builders.set i out.1 }, some (.built out.2))

/-- `install_snapshot` up to the end of its block with the lock. -/
def beginInstall (info : SnapshotMeta) (data : Bytes) : World σ δ :=
  match w.busy with
  | .idle =>
    match serde.fromSlice data with
    -- the `expect` fails before the lock is taken
    | none => w
    | some payload => { w with cell := m.load payload, busy := .installing info data }
  | _ => w

def endInstall : World σ δ × Option SnapshotEvent :=
  match w.busy with
  | .installing info data =>
    ({ w with
        store := ⟨info.lastLogId, info.lastMembership, some ⟨info, data⟩⟩
        busy := .idle }, some (.installed ⟨info, data⟩))
  | _ => (w, none)

/-- An operation of the store that comes while another one has it changes nothing; only a
builder needs no more than the lock. -/
def step : WorldOp δ → World σ δ × Option SnapshotEvent
  | .beginEntry entry => (w.beginEntry entry, none)
  | .applyRequest => (w.applyRequest m, none)
  | .getSnapshotBuilder => (w.getSnapshotBuilder, none)
  | .buildSnapshot i nanos => w.buildSnapshot m serde i nanos
  | .beginInstall info data => (w.beginInstall m serde info data, none)
  | .endInstall => w.endInstall

end Operations

theorem step_entry (m : Machine σ δ ρ π) (serde : SerdeJson π) (w : World σ δ) (e : Entry δ)
    (h : w.busy = .idle) :
    Mealy.final (step m serde) w [.beginEntry e, .applyRequest] =
      ⟨(Store.applyEntry m (w.cell, w.store) e).1.1, (Store.applyEntry m (w.cell, w.store) e).1.2,
        .idle, w.builders⟩ := by
  obtain ⟨cell, store, busy, builders⟩ := w
  subst h
  simp only [Mealy.final_cons, Mealy.final_nil, step, beginEntry, applyRequest, Store.applyEntry]
  cases e.payload <;> rfl

theorem step_batch (m : Machine σ δ ρ π) (serde : SerdeJson π) (w : World σ δ)
    (es : List (Entry δ)) (h : w.busy = .idle) :
    Mealy.final (step m serde) w (es.flatMap fun e => [.beginEntry e, .applyRequest]) =
      ⟨(Store.apply m (w.cell, w.store) es).1.1, (Store.apply m (w.cell, w.store) es).1.2,
        .idle, w.builders⟩ := by
  rw [Store.apply_eq_run]
  induction es generalizing w with
  | nil =>
    obtain ⟨cell, store, busy, builders⟩ := w
    subst h
    rfl
  | cons e es ih =>
    rw [List.flatMap_cons, Mealy.final_append, step_entry m serde w e h, ih _ rfl]
    rfl

theorem step_install (m : Machine σ δ ρ π) (serde : SerdeJson π) (w : World σ δ)
    (info : SnapshotMeta) (data : Bytes) (h : w.busy = .idle) :
    Mealy.final (step m serde) w [.beginInstall info data, .endInstall] =
      ⟨(Store.installSnapshot m serde (w.cell, w.store) info data).1.1,
        (Store.installSnapshot m serde (w.cell, w.store) info data).1.2, .idle, w.builders⟩ := by
  obtain ⟨cell, store, busy, builders⟩ := w
  subst h
  simp only [Mealy.final_cons, Mealy.final_nil, step, beginInstall, endInstall,
    Store.installSnapshot]
  cases serde.fromSlice data <;> rfl

def events (m : Machine σ δ ρ π) (serde : SerdeJson π) (init : σ) (ops : List (WorldOp δ)) :
    List SnapshotEvent :=
  (Mealy.outputs (step m serde) (start init) ops).filterMap id

def installs (es : List SnapshotEvent) : List Snapshot :=
  es.filterMap fun
    | .built _ => none
    | .installed s => some s

theorem step_current (m : Machine σ δ ρ π) (serde : SerdeJson π) (w : World σ δ)
    (op : WorldOp δ) (es : List SnapshotEvent)
    (h : w.store.getCurrentSnapshot = (installs es).getLast?) :
    (step m serde w op).1.store.getCurrentSnapshot =
      (installs (es ++ (step m serde w op).2.toList)).getLast? := by
  obtain ⟨cell, store, busy, builders⟩ := w
  cases op with
  | beginEntry entry =>
    cases busy with
    | idle => cases hp : entry.payload <;>
        simpa [step, beginEntry, hp, Store.getCurrentSnapshot] using h
    | applying | installing => simpa [step, beginEntry] using h
  | applyRequest => cases busy <;> simpa [step, applyRequest] using h
  | getSnapshotBuilder => cases busy <;> simpa [step, getSnapshotBuilder] using h
  | buildSnapshot i nanos =>
    cases hb : builders[i]? <;> simpa [step, buildSnapshot, hb, installs] using h
  | beginInstall info data =>
    cases busy with
    | idle => cases hp : serde.fromSlice data <;> simpa [step, beginInstall, hp] using h
    | applying | installing => simpa [step, beginInstall] using h
  | endInstall =>
    cases busy with
    | installing info data => simp [step, endInstall, Store.getCurrentSnapshot, installs]
    | idle | applying => simpa [step, endInstall] using h

theorem current_eq_last_install (m : Machine σ δ ρ π) (serde : SerdeJson π) (init : σ)
    (ops : List (WorldOp δ)) :
    (Mealy.final (step m serde) (start init) ops).store.getCurrentSnapshot =
      (installs (events m serde init ops)).getLast? := by
  induction ops using List.reverseRecOn with
  | nil => rfl
  | append_singleton ops op ih =>
    have h := step_current m serde _ op _ ih
    rw [Mealy.final_concat, h, events, events, Mealy.outputs_concat, List.filterMap_append]
    congr 3

def ServesLatest (m : Machine σ δ ρ π) (serde : SerdeJson π) (init : σ)
    (ops : List (WorldOp δ)) : Prop :=
  (Mealy.final (step m serde) (start init) ops).store.getCurrentSnapshot =
    (events m serde init ops).getLast?.map SnapshotEvent.snapshot

def NoBuildLast (es : List SnapshotEvent) : Prop :=
  ∀ s, es.getLast? ≠ some (.built s)

/-- No build takes the id of a snapshot that was installed before. -/
def FreshIds (es : List SnapshotEvent) : Prop :=
  es.Pairwise fun e e' => ∀ s t, e = .installed t → e' = .built s →
    t.info.snapshotId ≠ s.info.snapshotId

theorem last_install_of_last (es : List SnapshotEvent) (s : Snapshot)
    (h : es.getLast? = some (.installed s)) : (installs es).getLast? = some s := by
  obtain ⟨init, rfl⟩ := List.getLast?_eq_some_iff.mp h
  simp [installs]

theorem mem_installs {es : List SnapshotEvent} {s : Snapshot} (h : s ∈ installs es) :
    .installed s ∈ es := by
  obtain ⟨e, he, hs⟩ := List.mem_filterMap.mp h
  cases e with
  | built t => cases hs
  | installed t =>
    cases hs
    exact he

theorem FreshIds.ne_last_install {es : List SnapshotEvent} (h : FreshIds es) {s : Snapshot}
    (hl : es.getLast? = some (.built s)) : (installs es).getLast? ≠ some s := by
  obtain ⟨init, rfl⟩ := List.getLast?_eq_some_iff.mp hl
  intro hs
  have hmem := mem_installs (List.mem_of_getLast? hs)
  rcases List.mem_append.mp hmem with hmem | hmem
  · exact (List.pairwise_append.mp h).2.2 _ hmem _ List.mem_cons_self s s rfl rfl rfl
  · cases List.mem_singleton.mp hmem

theorem servesLatest_iff (m : Machine σ δ ρ π) (serde : SerdeJson π) (init : σ)
    (ops : List (WorldOp δ)) (hfresh : FreshIds (events m serde init ops)) :
    ServesLatest m serde init ops ↔ NoBuildLast (events m serde init ops) := by
  unfold ServesLatest NoBuildLast
  rw [current_eq_last_install]
  generalize events m serde init ops = es at hfresh
  cases hl : es.getLast? with
  | none =>
    rw [List.getLast?_eq_none_iff] at hl
    simp [hl, installs]
  | some e =>
    cases e with
    | installed s => simp [last_install_of_last es s hl, SnapshotEvent.snapshot]
    | built s =>
      -- A build came last: the store would have to hold a snapshot under its id.
      simp only [Option.map_some, SnapshotEvent.snapshot, ne_eq, Option.some.injEq,
        SnapshotEvent.built.injEq, forall_eq', iff_false]
      exact hfresh.ne_last_install hl

end World
end BlunMq
