import BlunMq.Raft.Store

/-!
# Replicas of one committed log

A replica reaches a position of the log by its own mixture of `apply` batches and
snapshots taken from other replicas. Its cell, last log id and membership depend
on the position alone.
-/

namespace BlunMq

variable {σ δ ρ π : Type}

/-- The replica holds exactly the effect of the first `n` entries. Its stored
snapshot is not part of the comparison. -/
structure AtPosition (m : Machine σ δ ρ π) (init : σ) (log : CommittedLog δ) (n : ℕ)
    (w : σ × Store) : Prop where
  le : n ≤ log.entries.length
  cell : w.1 = (log.replay m init n).1
  lastApplied : w.2.lastApplied = log.lastId n
  lastMembership : w.2.lastMembership = (log.replay m init n).2.lastMembership

theorem Store.applyEntry_congr (m : Machine σ δ ρ π) {w w' : σ × Store} (e : Entry δ)
    (hc : w.1 = w'.1) (hm : w.2.lastMembership = w'.2.lastMembership) :
    (applyEntry m w e).1.1 = (applyEntry m w' e).1.1 ∧
      (applyEntry m w e).1.2.lastMembership = (applyEntry m w' e).1.2.lastMembership ∧
      (applyEntry m w e).2 = (applyEntry m w' e).2 := by
  unfold applyEntry
  cases e.payload <;> simp [hc, hm]

theorem Store.run_congr (m : Machine σ δ ρ π) {w w' : σ × Store} (es : List (Entry δ))
    (hc : w.1 = w'.1) (hm : w.2.lastMembership = w'.2.lastMembership) :
    (Mealy.final (applyEntry m) w es).1 = (Mealy.final (applyEntry m) w' es).1 ∧
      Mealy.outputs (applyEntry m) w es = Mealy.outputs (applyEntry m) w' es := by
  induction es generalizing w w' with
  | nil => exact ⟨hc, rfl⟩
  | cons e es ih =>
    obtain ⟨h1, h2, h3⟩ := applyEntry_congr m e hc hm
    obtain ⟨hf, ho⟩ := ih h1 h2
    exact ⟨hf, by simp [h3, ho]⟩

namespace AtPosition
variable {m : Machine σ δ ρ π} {init : σ} {log : CommittedLog δ} {n : ℕ} {w : σ × Store}

theorem start (m : Machine σ δ ρ π) (init : σ) (log : CommittedLog δ) :
    AtPosition m init log 0 (init, Store.new) where
  le := Nat.zero_le _
  cell := by simp [CommittedLog.replay]
  lastApplied := by simp [CommittedLog.lastId, Store.new]
  lastMembership := by simp [CommittedLog.replay]

theorem applyEntry (h : AtPosition m init log n w) {e : Entry δ}
    (he : log.entries[n]? = some e) :
    AtPosition m init log (n + 1) (Store.applyEntry m w e).1 := by
  obtain ⟨hc, hm, -⟩ := Store.applyEntry_congr m e h.cell h.lastMembership
  refine ⟨?_, ?_, ?_, ?_⟩
  · obtain ⟨hlt, -⟩ := List.getElem?_eq_some_iff.mp he
    exact hlt
  · rw [hc, log.replay_succ m init n e he]
  · rw [Store.applyEntry_lastApplied, log.lastId_succ n e he]
  · rw [hm, log.replay_succ m init n e he]

theorem apply (h : AtPosition m init log n w) {es : List (Entry δ)}
    (hes : es <+: log.entries.drop n) :
    AtPosition m init log (n + es.length) (Mealy.final (Store.applyEntry m) w es) := by
  induction es generalizing n w with
  | nil => exact h
  | cons e es ih =>
    have he : log.entries[n]? = some e := by
      rw [← List.head?_drop]
      obtain ⟨t, ht⟩ := hes
      rw [← ht]
      rfl
    have htail : es <+: log.entries.drop (n + 1) := by
      obtain ⟨t, ht⟩ := hes
      refine ⟨t, ?_⟩
      rw [← List.tail_drop, ← ht]
      rfl
    have hlen : n + (e :: es).length = n + 1 + es.length := by
      rw [List.length_cons]
      omega
    rw [hlen]
    exact ih (h.applyEntry he) htail

theorem replay (h : n ≤ log.entries.length) :
    AtPosition m init log n (log.replay m init n) := by
  have hes : log.entries.take n <+: log.entries.drop 0 := List.take_prefix n log.entries
  have hn := (start m init log).apply hes
  rwa [List.length_take, Nat.min_eq_left h, Nat.zero_add] at hn

theorem install (h : AtPosition m init log n w) (serde : SerdeJson π) (w' : σ × Store)
    (nanos : ℕ) :
    AtPosition m init log n (Store.installSnapshot m serde w'
      (Store.buildSnapshot m serde w.1 nanos w.2.getSnapshotBuilder).2.info
      (Store.buildSnapshot m serde w.1 nanos w.2.getSnapshotBuilder).2.data).1 := by
  rw [Store.installSnapshot_built]
  exact ⟨h.le, h.cell, h.lastApplied, h.lastMembership⟩

theorem unique {i : ℕ} {w' : σ × Store} (h : AtPosition m init log n w)
    (h' : AtPosition m init log i w') (hid : w.2.lastApplied = w'.2.lastApplied) :
    n = i ∧ w.1 = w'.1 ∧ w.2.lastMembership = w'.2.lastMembership := by
  have hn : n = i := by
    apply log.lastId_injective h.le h'.le
    rw [← h.lastApplied, ← h'.lastApplied, hid]
  subst hn
  exact ⟨rfl, h.cell.trans h'.cell.symm, h.lastMembership.trans h'.lastMembership.symm⟩

end AtPosition

/-- The states a replica can reach: start empty, apply any batch that continues
the log, or install a snapshot another replica built without an intervening step. -/
inductive Replica (m : Machine σ δ ρ π) (serde : SerdeJson π) (init : σ)
    (log : CommittedLog δ) : σ × Store → Prop
  | start : Replica m serde init log (init, Store.new)
  | apply {w : σ × Store} (es : List (Entry δ)) (h : Replica m serde init log w)
      (hes : log.upTo w.2.lastApplied ++ es <+: log.entries) :
      Replica m serde init log (Store.apply m w es).1
  | install {w source : σ × Store} (nanos : ℕ) (h : Replica m serde init log w)
      (hs : Replica m serde init log source) :
      Replica m serde init log (Store.installSnapshot m serde w
        (Store.buildSnapshot m serde source.1 nanos source.2.getSnapshotBuilder).2.info
        (Store.buildSnapshot m serde source.1 nanos source.2.getSnapshotBuilder).2.data).1

theorem Replica.atPosition {m : Machine σ δ ρ π} {serde : SerdeJson π} {init : σ}
    {log : CommittedLog δ} {w : σ × Store} (h : Replica m serde init log w) :
    ∃ n, AtPosition m init log n w := by
  induction h with
  | start => exact ⟨0, AtPosition.start m init log⟩
  | @apply w es _ hes ih =>
    obtain ⟨n, hn⟩ := ih
    rw [hn.lastApplied, log.upTo_lastId n hn.le] at hes
    have hpre : es <+: log.entries.drop n := by
      apply (List.prefix_append_right_inj (log.entries.take n)).mp
      rwa [List.take_append_drop]
    refine ⟨n + es.length, ?_⟩
    rw [Store.apply_eq_run]
    exact hn.apply hpre
  | @install w source nanos _ _ _ ihs =>
    obtain ⟨n, hn⟩ := ihs
    exact ⟨n, hn.install serde w nanos⟩

end BlunMq
