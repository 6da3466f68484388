import BlunMq.Raft.Types

/-!
# raft-engine as the log store uses it

The crate is not part of the repository. `RaftEngine` lists the calls the log store makes
with what it relies on: `region` is what the readers of one region see, and each law says how
a call changes or reads it. The arithmetic is that of a release build, which wraps, and a call
that panics is one that fails. Nothing is said about batches of several items, about the
errors of a failed call, or about crashes; `reopen` is an orderly close and open. `memEngine`
is an engine that keeps its regions in memory.
-/

namespace BlunMq

structure Blob where
  index : UInt64
  data : Bytes
  deriving DecidableEq, Repr

inductive LogItem
  | addEntries (region : UInt64) (entries : List Blob)
  | putMessage (region : UInt64) (key : String) (blob : Blob)
  deriving DecidableEq, Repr

inductive EngineError
  | entryCompacted
  | entryNotFound
  | other (message : String)
  deriving DecidableEq, Repr

/-- A region has nothing in it until the first write to it, and from then on it is there, even
if all its entries are compacted away. -/
structure Region where
  entries : List Blob
  message : String → Option Blob
  written : Bool
  unwritten : written = false → entries = []

namespace Region

def empty : Region := ⟨[], fun _ => none, false, fun _ => rfl⟩

/-- Consecutive indices, neither before the first entry nor past the place after the last. The
last index has no such place. -/
structure Accepts (r : Region) (blobs : List Blob) : Prop where
  nonempty : blobs ≠ []
  consecutive : blobs.IsChain fun a b => b.index.toNat = a.index.toNat + 1
  below : ∀ x ∈ r.entries, x.index ≠ 18446744073709551615
  start : ∀ b ∈ blobs.head?, ∀ first ∈ r.entries.head?, first.index ≤ b.index
  noHole : ∀ b ∈ blobs.head?, ∀ last ∈ r.entries.getLast?,
    b.index.toNat ≤ last.index.toNat + 1

instance (r : Region) (blobs : List Blob) : Decidable (r.Accepts blobs) :=
  decidable_of_iff (blobs ≠ [] ∧ (blobs.IsChain fun a b => b.index.toNat = a.index.toNat + 1) ∧
      (∀ x ∈ r.entries, x.index ≠ 18446744073709551615) ∧
      (∀ b ∈ blobs.head?, ∀ first ∈ r.entries.head?, first.index ≤ b.index) ∧
      ∀ b ∈ blobs.head?, ∀ last ∈ r.entries.getLast?, b.index.toNat ≤ last.index.toNat + 1)
    ⟨fun ⟨h1, h2, h3, h4, h5⟩ => ⟨h1, h2, h3, h4, h5⟩, fun ⟨h1, h2, h3, h4, h5⟩ =>
      ⟨h1, h2, h3, h4, h5⟩⟩

def add (r : Region) : List Blob → Region
  | [] => r
  | b :: blobs => ⟨r.entries.filter (fun e => decide (e.index < b.index)) ++ b :: blobs,
      r.message, true, nofun⟩

def put (r : Region) (key : String) (blob : Blob) : Region :=
  ⟨r.entries, Function.update r.message key (some blob), true, nofun⟩

def compact (r : Region) (index : UInt64) : Region :=
  { r with
    entries := r.entries.filter fun e => decide (index ≤ e.index)
    unwritten := fun h => by rw [r.unwritten h, List.filter_nil] }

theorem add_written {r : Region} {blobs : List Blob} (h : blobs ≠ []) :
    (r.add blobs).written = true := by
  obtain ⟨b, blobs, rfl⟩ := List.exists_cons_of_ne_nil h
  rfl

def between (r : Region) (b e : UInt64) : List Blob :=
  r.entries.filter fun x => decide (b ≤ x.index ∧ x.index < e)

/-- `[b, e)` lies between the first entry and the place after the last. With an entry at the
last index that place is 0, before everything. -/
def Covers (r : Region) (b e : UInt64) : Prop :=
  ∃ first ∈ r.entries.head?, ∃ last ∈ r.entries.getLast?, first.index ≤ b ∧
    e.toNat ≤ last.index.toNat + 1 ∧ last.index ≠ 18446744073709551615

/-- When a region that was written to answers. Room for `e - b` entries is reserved before
anything is compared. -/
def Answers (r : Region) (capacity : ℕ) (b e : UInt64) : Prop :=
  if b < e then r.Covers b e else (e - b).toNat ≤ capacity

end Region

structure RaftEngine where
  State : Type
  openEmpty : State
  reopen : State → State
  write : State → List LogItem → (sync : Bool) → State × Except EngineError Unit
  compactTo : State → (region index : UInt64) → State
  lastIndex : State → (region : UInt64) → Option UInt64
  getEntry : State → (region index : UInt64) → Except EngineError (Option Blob)
  fetchEntriesTo : State → (region b e : UInt64) → Except EngineError (List Blob)
  getMessage : State → (region : UInt64) → (key : String) → Except EngineError (Option Blob)
  region : State → UInt64 → Region
  /-- How many entries a list may be made for at once. -/
  capacity : ℕ
  region_openEmpty : ∀ r, region openEmpty r = Region.empty
  region_reopen : ∀ s r, region (reopen s) r = region s r
  write_addEntries : ∀ s r blobs sync, (region s r).Accepts blobs →
    (write s [.addEntries r blobs] sync).2 = .ok () ∧
      region (write s [.addEntries r blobs] sync).1 r = (region s r).add blobs
  write_refused : ∀ s r blobs sync, blobs ≠ [] →
    (∃ x ∈ (region s r).entries, x.index = 18446744073709551615) →
    (write s [.addEntries r blobs] sync).2 ≠ .ok ()
  write_putMessage : ∀ s r key blob sync,
    (write s [.putMessage r key blob] sync).2 = .ok () ∧
      region (write s [.putMessage r key blob] sync).1 r = (region s r).put key blob
  region_compactTo : ∀ s r i, region (compactTo s r i) r = (region s r).compact i
  lastIndex_eq : ∀ s r, lastIndex s r = (region s r).entries.getLast?.map Blob.index
  getEntry_eq : ∀ s r i,
    getEntry s r i = .ok ((region s r).entries.find? fun b => b.index == i)
  getMessage_eq : ∀ s r key, getMessage s r key = .ok ((region s r).message key)
  fetch_unwritten : ∀ s r b e, (region s r).written = false → fetchEntriesTo s r b e = .ok []
  fetch_answers : ∀ s r b e, (region s r).written = true →
    ((∃ bs, fetchEntriesTo s r b e = .ok bs) ↔ (region s r).Answers capacity b e)
  fetch_ok : ∀ s r b e bs, fetchEntriesTo s r b e = .ok bs → bs = (region s r).between b e
  /-- Messages do not matter to a fetch. -/
  fetch_congr : ∀ s s' r b e, (region s' r).written = (region s r).written →
    (region s' r).entries = (region s r).entries →
    fetchEntriesTo s' r b e = fetchEntriesTo s r b e

theorem RaftEngine.fetch_within (E : RaftEngine) {s : E.State} {r b e : UInt64}
    (hcovers : (E.region s r).Covers b e) (hlt : b < e) :
    E.fetchEntriesTo s r b e = .ok ((E.region s r).between b e) := by
  have hwritten : (E.region s r).written = true := by
    obtain ⟨first, hfirst, -⟩ := hcovers
    by_contra hnot
    rw [(E.region s r).unwritten (by simpa using hnot)] at hfirst
    cases hfirst
  obtain ⟨bs, hbs⟩ := (E.fetch_answers s r b e hwritten).mpr (by
    rw [Region.Answers, if_pos hlt]
    exact hcovers)
  rw [hbs, E.fetch_ok s r b e bs hbs]

namespace Region
variable {r : Region} {b e : UInt64} {capacity : ℕ}

instance (r : Region) (b e : UInt64) : Decidable (r.Covers b e) := by
  unfold Covers
  infer_instance

def missing (r : Region) (capacity : ℕ) (b e : UInt64) : EngineError :=
  if capacity < (e - b).toNat then .other "capacity overflow"
  else match r.entries.head? with
    | some first => if b < first.index then .entryCompacted else .entryNotFound
    | none => .entryNotFound

def fetch (r : Region) (capacity : ℕ) (b e : UInt64) : Except EngineError (List Blob) :=
  if r.written = false then .ok []
  else if b < e then
    if r.Covers b e then .ok (r.between b e) else .error (r.missing capacity b e)
  else if (e - b).toNat ≤ capacity then .ok [] else .error (.other "capacity overflow")

theorem between_eq_nil (h : ¬ b < e) : r.between b e = [] := by
  apply List.filter_eq_nil_iff.mpr
  intro x _
  simp only [decide_eq_true_eq, not_and, UInt64.not_lt]
  exact fun hx => UInt64.le_trans (UInt64.not_lt.mp h) hx

theorem fetch_eq_between {bs : List Blob} (h : r.fetch capacity b e = .ok bs) :
    bs = r.between b e := by
  unfold fetch at h
  split at h
  · rename_i hwritten
    cases h
    rw [between, r.unwritten hwritten, List.filter_nil]
  · split at h
    · split at h <;> cases h
      rfl
    · rename_i hle
      split at h <;> cases h
      exact (between_eq_nil hle).symm

theorem fetch_unwritten (h : r.written = false) : r.fetch capacity b e = .ok [] := by
  rw [fetch, if_pos h]

theorem fetch_answers (h : r.written = true) :
    (∃ bs, r.fetch capacity b e = .ok bs) ↔ r.Answers capacity b e := by
  rw [fetch, if_neg (by simp [h]), Answers]
  split_ifs with hlt hcovers hcapacity <;> simp_all

theorem fetch_congr {r' : Region} (hw : r'.written = r.written) (he : r'.entries = r.entries) :
    r'.fetch capacity b e = r.fetch capacity b e := by
  simp only [fetch, missing, between, Covers, hw, he]

end Region

/-- A batch that is not accepted panics. -/
def LogItem.applyTo (regions : UInt64 → Region) : LogItem → Except EngineError (UInt64 → Region)
  | .addEntries _ [] => .ok regions
  | .addEntries r (b :: blobs) =>
    if (regions r).Accepts (b :: blobs) then
      .ok (Function.update regions r ((regions r).add (b :: blobs)))
    else .error (.other "assertion failed")
  | .putMessage r key blob => .ok (Function.update regions r ((regions r).put key blob))

/-- An index entry takes 48 bytes. -/
def memCapacity : ℕ := 9223372036854775807 / 48

def memWrite (regions : UInt64 → Region) (items : List LogItem) :
    (UInt64 → Region) × Except EngineError Unit :=
  match items.foldlM LogItem.applyTo regions with
  | .ok regions' => (regions', .ok ())
  | .error err => (regions, .error err)

theorem memWrite_putMessage (regions : UInt64 → Region) (r : UInt64) (key : String)
    (blob : Blob) : memWrite regions [.putMessage r key blob] =
      (Function.update regions r ((regions r).put key blob), .ok ()) := rfl

theorem memWrite_addEntries (regions : UInt64 → Region) {r : UInt64} {blobs : List Blob}
    (h : (regions r).Accepts blobs) : memWrite regions [.addEntries r blobs] =
      (Function.update regions r ((regions r).add blobs), .ok ()) := by
  obtain ⟨b, blobs, rfl⟩ := List.exists_cons_of_ne_nil h.nonempty
  simp [memWrite, LogItem.applyTo, h]

theorem memWrite_refused (regions : UInt64 → Region) {r : UInt64} {blobs : List Blob}
    (hne : blobs ≠ []) (h : ∃ x ∈ (regions r).entries, x.index = 18446744073709551615) :
    memWrite regions [.addEntries r blobs] = (regions, .error (.other "assertion failed")) := by
  obtain ⟨b, blobs, rfl⟩ := List.exists_cons_of_ne_nil hne
  obtain ⟨x, hx, htop⟩ := h
  have hrefused : ¬ (regions r).Accepts (b :: blobs) := fun hacc => hacc.below x hx htop
  simp [memWrite, LogItem.applyTo, hrefused, bind, Except.bind]

def memEngine : RaftEngine where
  State := UInt64 → Region
  openEmpty := fun _ => Region.empty
  reopen := id
  write s items _ := memWrite s items
  compactTo s r i := Function.update s r ((s r).compact i)
  lastIndex s r := (s r).entries.getLast?.map Blob.index
  getEntry s r i := .ok ((s r).entries.find? fun b => b.index == i)
  fetchEntriesTo s r b e := (s r).fetch memCapacity b e
  getMessage s r key := .ok ((s r).message key)
  region := id
  capacity := memCapacity
  region_openEmpty _ := rfl
  region_reopen _ _ := rfl
  write_addEntries s r blobs _ h := by
    rw [memWrite_addEntries s h]
    exact ⟨rfl, Function.update_self r _ s⟩
  write_refused s r blobs _ hne h := by
    rw [memWrite_refused s hne h]
    exact nofun
  write_putMessage s r key blob _ := by
    rw [memWrite_putMessage]
    exact ⟨rfl, Function.update_self r _ s⟩
  region_compactTo s r i := by simp
  lastIndex_eq _ _ := rfl
  getEntry_eq _ _ _ := rfl
  getMessage_eq _ _ _ := rfl
  fetch_unwritten _ _ _ _ h := Region.fetch_unwritten h
  fetch_answers _ _ _ _ h := Region.fetch_answers h
  fetch_ok _ _ _ _ _ h := Region.fetch_eq_between h
  fetch_congr _ _ _ _ _ hw he := Region.fetch_congr hw he

end BlunMq
