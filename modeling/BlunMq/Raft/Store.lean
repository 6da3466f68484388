import BlunMq.Lib.Mealy
import BlunMq.Raft.Types

/-!
# The state-machine store shared by both Raft groups

`state_machine.rs` and `node_state_machine.rs` hold the same store twice, over
different state types. The store is written once here, over a `Machine` that
collects what the two files do differently. The `Arc<Mutex<_>>` holding the
state is shared with snapshot builders and status readers, so every operation
takes the current content of that cell and returns the new one.
-/

namespace BlunMq

/-- What one state machine adds to the common store: how a command is applied,
the answer to an entry without a command, and the conversions between the state
and its serialised payload. -/
structure Machine (σ δ ρ π : Type) where
  apply : σ → δ → σ × ρ
  noCommand : ρ
  save : σ → π
  load : π → σ
  load_save : ∀ s, load (save s) = s

structure StoredSnapshot where
  info : SnapshotMeta
  data : Bytes
  deriving DecidableEq, Repr

structure Store where
  lastApplied : Option LogId
  lastMembership : StoredMembership
  snapshot : Option StoredSnapshot
  deriving DecidableEq, Repr

/-- `format!("{:x}", nanos)` of the clock reading passed in. -/
def uuidLikeId (nanos : ℕ) : String := String.ofList (Nat.toDigits 16 nanos)

namespace Store
variable {σ δ ρ π : Type}

def new : Store := ⟨none, StoredMembership.default, none⟩

def appliedState (self : Store) : Option LogId × StoredMembership :=
  (self.lastApplied, self.lastMembership)

/-- One turn of the loop in `apply`: the lock is taken for this entry only. -/
def applyEntry (m : Machine σ δ ρ π) (w : σ × Store) (entry : Entry δ) : (σ × Store) × ρ :=
  let self := { w.2 with lastApplied := some entry.logId }
  match entry.payload with
  | .blank => ((w.1, self), m.noCommand)
  | .normal req => (((m.apply w.1 req).1, self), (m.apply w.1 req).2)
  | .membership mem =>
    ((w.1, { self with lastMembership := ⟨some entry.logId, mem⟩ }), m.noCommand)

def applyLoop (m : Machine σ δ ρ π) :
    σ × Store → List ρ → List (Entry δ) → (σ × Store) × List ρ
  | w, responses, [] => (w, responses)
  | w, responses, entry :: entries =>
    let next := applyEntry m w entry
    applyLoop m next.1 (responses ++ [next.2]) entries

def apply (m : Machine σ δ ρ π) (w : σ × Store) (entries : List (Entry δ)) :
    (σ × Store) × List ρ :=
  applyLoop m w [] entries

/-- The builder is a copy of the metadata; the cell stays shared. -/
def getSnapshotBuilder (self : Store) : Store :=
  ⟨self.lastApplied, self.lastMembership, none⟩

/-- `cell` is the content of the shared cell when the builder takes the lock. -/
def buildSnapshot (m : Machine σ δ ρ π) (serde : SerdeJson π) (cell : σ) (nanos : ℕ)
    (self : Store) : Store × Snapshot :=
  let data := serde.toVec (m.save cell)
  let info : SnapshotMeta := ⟨self.lastApplied, self.lastMembership, uuidLikeId nanos⟩
  ({ self with snapshot := some ⟨info, data⟩ }, ⟨info, data⟩)

def beginReceivingSnapshot : Bytes := []

/-- Undecodable bytes hit the `expect` before anything is written. -/
def installSnapshot (m : Machine σ δ ρ π) (serde : SerdeJson π) (w : σ × Store)
    (info : SnapshotMeta) (data : Bytes) : (σ × Store) × Outcome Unit Unit :=
  match serde.fromSlice data with
  | none => (w, .panic "snapshot payload deserializes")
  | some payload =>
    ((m.load payload, ⟨info.lastLogId, info.lastMembership, some ⟨info, data⟩⟩), .ok ())

def getCurrentSnapshot (self : Store) : Option Snapshot :=
  self.snapshot.map fun s => ⟨s.info, s.data⟩

theorem applyLoop_eq_run (m : Machine σ δ ρ π) (w : σ × Store) (responses : List ρ)
    (entries : List (Entry δ)) :
    applyLoop m w responses entries =
      (Mealy.final (applyEntry m) w entries,
        responses ++ Mealy.outputs (applyEntry m) w entries) := by
  induction entries generalizing w responses with
  | nil => simp [applyLoop]
  | cons e entries ih => simp [applyLoop, ih]

theorem apply_eq_run (m : Machine σ δ ρ π) (w : σ × Store) (entries : List (Entry δ)) :
    apply m w entries = Mealy.run (applyEntry m) w entries := by
  rw [apply, applyLoop_eq_run, List.nil_append]
  rfl

@[simp] theorem applyEntry_lastApplied (m : Machine σ δ ρ π) (w : σ × Store) (e : Entry δ) :
    (applyEntry m w e).1.2.lastApplied = some e.logId := by
  unfold applyEntry
  cases e.payload <;> rfl

@[simp] theorem applyEntry_snapshot (m : Machine σ δ ρ π) (w : σ × Store) (e : Entry δ) :
    (applyEntry m w e).1.2.snapshot = w.2.snapshot := by
  unfold applyEntry
  cases e.payload <;> rfl

theorem final_lastApplied (m : Machine σ δ ρ π) (init : σ) (es : List (Entry δ)) :
    (Mealy.final (applyEntry m) (init, new) es).2.lastApplied = es.getLast?.map Entry.logId := by
  induction es using List.reverseRecOn with
  | nil => rfl
  | append_singleton es e _ => simp [Mealy.final_concat]

theorem installSnapshot_built (m : Machine σ δ ρ π) (serde : SerdeJson π) (w : σ × Store)
    (cell : σ) (nanos : ℕ) (b : Store) :
    installSnapshot m serde w (buildSnapshot m serde cell nanos b).2.info
        (buildSnapshot m serde cell nanos b).2.data =
      ((cell, (buildSnapshot m serde cell nanos b).1), .ok ()) := by
  simp [installSnapshot, buildSnapshot, serde.fromSlice_toVec, m.load_save]

end Store

structure CommittedLog (δ : Type) where
  entries : List (Entry δ)
  increasing : entries.Pairwise fun a b => a.logId.index < b.logId.index

namespace CommittedLog
variable {σ δ ρ π : Type} (log : CommittedLog δ)

def start : CommittedLog δ := ⟨[], List.Pairwise.nil⟩

def single (e : Entry δ) : CommittedLog δ := ⟨[e], List.pairwise_singleton _ _⟩

def upTo : Option LogId → List (Entry δ)
  | none => []
  | some id => log.entries.filter fun e => decide (e.logId.index ≤ id.index)

def lastId (n : ℕ) : Option LogId := (log.entries.take n).getLast?.map Entry.logId

def replay (m : Machine σ δ ρ π) (init : σ) (n : ℕ) : σ × Store :=
  Mealy.final (Store.applyEntry m) (init, Store.new) (log.entries.take n)

theorem take_eq_append {i n : ℕ} (h : i ≤ n) :
    log.entries.take n = log.entries.take i ++ (log.entries.take n).drop i := by
  have hi : (log.entries.take n).take i = log.entries.take i := by
    rw [List.take_take, Nat.min_eq_left h]
  rw [← hi, List.take_append_drop]

theorem replay_succ (m : Machine σ δ ρ π) (init : σ) (n : ℕ) (e : Entry δ)
    (h : log.entries[n]? = some e) :
    log.replay m init (n + 1) = (Store.applyEntry m (log.replay m init n) e).1 := by
  rw [replay, List.take_add_one, h, Option.toList_some, Mealy.final_concat]
  rfl

theorem lastId_succ (n : ℕ) (e : Entry δ) (h : log.entries[n]? = some e) :
    log.lastId (n + 1) = some e.logId := by
  simp [lastId, List.take_add_one, h]

theorem index_le_iff {i n : ℕ} {a b : Entry δ} (ha : log.entries[i]? = some a)
    (hb : log.entries[n]? = some b) : a.logId.index ≤ b.logId.index ↔ i ≤ n := by
  obtain ⟨hi, rfl⟩ := List.getElem?_eq_some_iff.mp ha
  obtain ⟨hn, rfl⟩ := List.getElem?_eq_some_iff.mp hb
  have hp := List.pairwise_iff_getElem.mp log.increasing
  constructor
  · intro hle
    by_contra hlt
    have := hp n i hn hi (by omega)
    rw [UInt64.lt_iff_toNat_lt] at this
    rw [UInt64.le_iff_toNat_le] at hle
    omega
  · intro hle
    rcases Nat.lt_or_eq_of_le hle with hlt | rfl
    · have := hp i n hi hn hlt
      rw [UInt64.lt_iff_toNat_lt] at this
      rw [UInt64.le_iff_toNat_le]
      omega
    · exact UInt64.le_refl _

theorem upTo_lastId (n : ℕ) (hn : n ≤ log.entries.length) :
    log.upTo (log.lastId n) = log.entries.take n := by
  cases n with
  | zero => simp [lastId, upTo]
  | succ n =>
    obtain ⟨b, hb⟩ : ∃ b, log.entries[n]? = some b := ⟨_, List.getElem?_eq_getElem hn⟩
    rw [lastId_succ log n b hb, upTo]
    conv_lhs => rw [← List.take_append_drop (n + 1) log.entries]
    rw [List.filter_append]
    have hfirst : (log.entries.take (n + 1)).filter
        (fun e => decide (e.logId.index ≤ b.logId.index)) = log.entries.take (n + 1) := by
      apply List.filter_eq_self.mpr
      intro e he
      obtain ⟨i, hi⟩ := List.mem_iff_getElem?.mp he
      rw [List.getElem?_take] at hi
      split at hi
      · rename_i hlt'
        simpa using (log.index_le_iff hi hb).mpr (by omega)
      · cases hi
    have hrest : (log.entries.drop (n + 1)).filter
        (fun e => decide (e.logId.index ≤ b.logId.index)) = [] := by
      apply List.filter_eq_nil_iff.mpr
      intro e he
      obtain ⟨i, hi⟩ := List.mem_iff_getElem?.mp he
      rw [List.getElem?_drop] at hi
      have hnot := mt (log.index_le_iff hi hb).mp (by omega)
      simpa using hnot
    rw [hfirst, hrest, List.append_nil]

theorem lastId_injective {i n : ℕ} (hi : i ≤ log.entries.length) (hn : n ≤ log.entries.length)
    (h : log.lastId i = log.lastId n) : i = n := by
  have ht : log.entries.take i = log.entries.take n := by
    rw [← log.upTo_lastId i hi, ← log.upTo_lastId n hn, h]
  have hl := congrArg List.length ht
  simpa [hi, hn] using hl

theorem le_of_lastId_ahead {i n : ℕ} (hi : i ≤ log.entries.length) (hn : n ≤ log.entries.length)
    (hahead : ∀ a ∈ log.lastId i, ∃ b ∈ log.lastId n, a.index < b.index) : i ≤ n := by
  cases i with
  | zero => exact Nat.zero_le _
  | succ i =>
    have ha : log.entries[i]? = some log.entries[i] := List.getElem?_eq_getElem hi
    obtain ⟨b, hb, hlt⟩ := hahead _ (log.lastId_succ i _ ha)
    cases n with
    | zero => simp [lastId] at hb
    | succ n =>
      have hc : log.entries[n]? = some log.entries[n] := List.getElem?_eq_getElem hn
      rw [log.lastId_succ n _ hc] at hb
      rw [← Option.some.inj hb] at hlt
      exact Nat.succ_le_succ ((log.index_le_iff ha hc).mp (UInt64.le_of_lt hlt))

theorem position_le_index {n : ℕ} {e : Entry δ} (h : log.entries[n]? = some e) :
    n ≤ e.logId.index.toNat := by
  induction n generalizing e with
  | zero => omega
  | succ n ih =>
    obtain ⟨hlt, -⟩ := List.getElem?_eq_some_iff.mp h
    have hb : log.entries[n]? = some log.entries[n] := List.getElem?_eq_getElem (by omega)
    have hle := ih hb
    have hlt' := mt (log.index_le_iff h hb).mp (by omega)
    rw [UInt64.le_iff_toNat_le] at hlt'
    omega

theorem length_le : log.entries.length ≤ 2 ^ 64 := by
  rcases Nat.eq_zero_or_pos log.entries.length with h0 | hpos
  · omega
  · have hb : log.entries[log.entries.length - 1]? = some log.entries[log.entries.length - 1] :=
      List.getElem?_eq_getElem (by omega)
    have hle := log.position_le_index hb
    have hlt := (log.entries[log.entries.length - 1].logId.index).toNat_lt
    omega

end CommittedLog
end BlunMq
