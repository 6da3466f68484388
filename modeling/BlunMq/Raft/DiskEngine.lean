import BlunMq.Raft.Engine

/-!
# raft-engine across crashes

A `DurableEngine` also says what a crash leaves. Records go to one log in the order
they are issued, so a synced write makes everything before it durable; a compaction is
written without a sync, and a crash may lose the compactions issued since the last
synced write, the latest ones first. `diskEngine` is such an engine.
-/

namespace BlunMq

structure DurableEngine extends RaftEngine where
  synced : State → UInt64 → Region
  pending : State → UInt64 → List UInt64
  /-- The second state is the first one crashed and opened again. -/
  crash : State → State → Prop
  region_eq : ∀ s r, region s r = (pending s r).foldl Region.compact (synced s r)
  synced_openEmpty : ∀ r, synced openEmpty r = Region.empty
  pending_openEmpty : ∀ r, pending openEmpty r = []
  synced_reopen : ∀ s r, synced (reopen s) r = synced s r
  pending_reopen : ∀ s r, pending (reopen s) r = pending s r
  pending_write : ∀ s item r, (write s [item] true).2 = .ok () →
    pending (write s [item] true).1 r = []
  synced_compactTo : ∀ s r i, synced (compactTo s r i) r = synced s r
  pending_compactTo : ∀ s r i, pending (compactTo s r i) r = pending s r ++ [i]
  crash_synced : ∀ s s' r, crash s s' → synced s' r = synced s r
  crash_pending : ∀ s s' r, crash s s' → pending s' r <+: pending s r

namespace Region

theorem compact_eq_self {r : Region} {i : UInt64} (h : ∀ b ∈ r.entries, i ≤ b.index) :
    r.compact i = r := by
  have hfilter : r.entries.filter (fun e => decide (i ≤ e.index)) = r.entries :=
    List.filter_eq_self.mpr fun b hb => by simpa using h b hb
  simp only [compact, hfilter]

@[simp] theorem foldl_compact_written (is : List UInt64) (r : Region) :
    (is.foldl compact r).written = r.written := by
  induction is generalizing r with
  | nil => rfl
  | cons i is ih => exact ih (r.compact i)

theorem foldl_compact_eq_self {is : List UInt64} {r : Region}
    (h : ∀ i ∈ is, ∀ b ∈ r.entries, i ≤ b.index) : is.foldl compact r = r := by
  induction is with
  | nil => rfl
  | cons i is ih =>
    rw [List.foldl_cons, compact_eq_self (h i (by simp))]
    exact ih fun j hj => h j (by simp [hj])

end Region

namespace DurableEngine
variable (E : DurableEngine)

theorem region_of_pending {s : E.State} {r : UInt64} (h : E.pending s r = []) :
    E.region s r = E.synced s r := by
  rw [E.region_eq, h]
  rfl

theorem crash_region_eq {s s' : E.State} {r : UInt64} (h : E.crash s s')
    (hp : E.pending s' r = E.pending s r ∨
      ∀ i ∈ E.pending s r, ∀ b ∈ (E.synced s r).entries, i ≤ b.index) :
    E.region s' r = E.region s r := by
  rw [E.region_eq, E.region_eq s, E.crash_synced s s' r h]
  rcases hp with hp | hp
  · rw [hp]
  · rw [Region.foldl_compact_eq_self hp,
      Region.foldl_compact_eq_self fun i hi => hp i ((E.crash_pending s s' r h).subset hi)]

end DurableEngine

/-- Each region as it is on disk, with the compactions that are not synced yet. -/
abbrev Disk := UInt64 → Region × List UInt64

namespace Disk

def region (d : Disk) (r : UInt64) : Region := (d r).2.foldl Region.compact (d r).1

def write (d : Disk) (items : List LogItem) : Disk × Except EngineError Unit :=
  match memWrite d.region items with
  | (regions, .ok ()) => (fun r => (regions r, []), .ok ())
  | (_, .error err) => (d, .error err)

def compactTo (d : Disk) (r i : UInt64) : Disk :=
  Function.update d r ((d r).1, (d r).2 ++ [i])

theorem write_ok {d : Disk} {items : List LogItem} {regions : UInt64 → Region}
    (h : memWrite d.region items = (regions, .ok ())) :
    d.write items = (fun r => (regions r, []), .ok ()) := by
  simp [write, h]

theorem write_error {d : Disk} {items : List LogItem} {regions : UInt64 → Region}
    {err : EngineError} (h : memWrite d.region items = (regions, .error err)) :
    d.write items = (d, .error err) := by
  simp [write, h]

theorem pending_write {d : Disk} {items : List LogItem} (h : (d.write items).2 = .ok ())
    (r : UInt64) : ((d.write items).1 r).2 = [] := by
  unfold write at h ⊢
  split at h
  · rfl
  · cases h

@[simp] theorem region_compactTo (d : Disk) (r i : UInt64) :
    (d.compactTo r i).region r = (d.region r).compact i := by
  simp [region, compactTo]

end Disk

def diskEngine : DurableEngine where
  State := Disk
  openEmpty := fun _ => (Region.empty, [])
  reopen := id
  write d items _ := d.write items
  compactTo := Disk.compactTo
  lastIndex d r := (d.region r).entries.getLast?.map Blob.index
  getEntry d r i := .ok ((d.region r).entries.find? fun b => b.index == i)
  fetchEntriesTo d r b e := (d.region r).fetch memCapacity b e
  getMessage d r key := .ok ((d.region r).message key)
  region := Disk.region
  capacity := memCapacity
  region_openEmpty _ := rfl
  region_reopen _ _ := rfl
  write_addEntries d r blobs _ h := by
    rw [Disk.write_ok (memWrite_addEntries d.region h)]
    exact ⟨rfl, Function.update_self r _ d.region⟩
  write_refused d r blobs _ hne h := by
    rw [Disk.write_error (memWrite_refused d.region hne h)]
    exact nofun
  write_putMessage d r key blob _ := by
    rw [Disk.write_ok (memWrite_putMessage d.region r key blob)]
    exact ⟨rfl, Function.update_self r _ d.region⟩
  region_compactTo d r i := by simp
  lastIndex_eq _ _ := rfl
  getEntry_eq _ _ _ := rfl
  getMessage_eq _ _ _ := rfl
  fetch_unwritten _ _ _ _ h := Region.fetch_unwritten h
  fetch_answers _ _ _ _ h := Region.fetch_answers h
  fetch_ok _ _ _ _ _ h := Region.fetch_eq_between h
  fetch_congr _ _ _ _ _ hw he := Region.fetch_congr hw he
  synced d r := (d r).1
  pending d r := (d r).2
  crash d d' := ∀ r, (d' r).1 = (d r).1 ∧ (d' r).2 <+: (d r).2
  region_eq _ _ := rfl
  synced_openEmpty _ := rfl
  pending_openEmpty _ := rfl
  synced_reopen _ _ := rfl
  pending_reopen _ _ := rfl
  pending_write _ _ r h := Disk.pending_write h r
  synced_compactTo d r i := by simp [Disk.compactTo]
  pending_compactTo d r i := by simp [Disk.compactTo]
  crash_synced _ _ r h := (h r).1
  crash_pending _ _ r h := (h r).2

end BlunMq
