import Mathlib

/-!
# Data carried by the two Raft groups

The log, membership and snapshot records are openraft's, with the fields the
stores read or write. `u64` is `UInt64`, so arithmetic on it wraps as in a
release build; `Vec<u8>` and `bytes::Bytes` are both `Bytes`.
-/

namespace BlunMq

abbrev Bytes := List UInt8

/-- Finite maps keyed in order; two maps with the same lookups are equal. -/
abbrev Map (κ : Type) [Ord κ] (α : Type) := Std.ExtTreeMap κ α

instance Map.decidableEqString {α : Type} [DecidableEq α] : DecidableEq (Map String α) :=
  inferInstanceAs (DecidableEq (Std.ExtTreeMap String α))

instance Map.decidableEqUInt64 {α : Type} [DecidableEq α] : DecidableEq (Map UInt64 α) :=
  inferInstanceAs (DecidableEq (Std.ExtTreeMap UInt64 α))

theorem Map.getElem?_insert {κ α : Type} [Ord κ] [Std.TransOrd κ] [Std.LawfulEqOrd κ]
    [DecidableEq κ] (m : Map κ α) (k a : κ) (v : α) :
    (m.insert k v)[a]? = if k = a then some v else m[a]? := by
  rw [Std.ExtTreeMap.getElem?_insert]
  simp only [Std.LawfulEqCmp.compare_eq_iff_eq]

theorem UInt64.toNat_succ {i : UInt64} (h : i ≠ 18446744073709551615) :
    (i + 1).toNat = i.toNat + 1 := by
  have hlt := i.toNat_lt
  have hne : i.toNat ≠ 18446744073709551615 := fun h' => h (UInt64.toNat_inj.mp h')
  rw [UInt64.toNat_add, UInt64.toNat_one]
  omega

theorem getElem?_of_isPrefix {α : Type} {l l' : List α} (h : l <+: l') {n : ℕ} {x : α}
    (hx : l[n]? = some x) : l'[n]? = some x := by
  obtain ⟨t, rfl⟩ := h
  rw [List.getElem?_append_left (List.getElem?_eq_some_iff.mp hx).1, hx]

theorem take_of_isPrefix {α : Type} {l l' : List α} (h : l <+: l') {n : ℕ} (hn : n ≤ l.length) :
    l'.take n = l.take n := by
  obtain ⟨t, rfl⟩ := h
  exact List.take_append_of_le_length hn

structure LeaderId where
  term : UInt64
  nodeId : UInt64
  deriving DecidableEq, Repr

structure LogId where
  leaderId : LeaderId
  index : UInt64
  deriving DecidableEq, Repr

structure Vote where
  leaderId : LeaderId
  committed : Bool
  deriving DecidableEq, Repr

structure Membership where
  configs : List (List UInt64)
  nodes : List (UInt64 × String)
  deriving DecidableEq, Repr

def Membership.default : Membership := ⟨[], []⟩

structure StoredMembership where
  logId : Option LogId
  membership : Membership
  deriving DecidableEq, Repr

def StoredMembership.default : StoredMembership := ⟨none, Membership.default⟩

inductive EntryPayload (δ : Type)
  | blank
  | normal (req : δ)
  | membership (mem : Membership)
  deriving DecidableEq, Repr

structure Entry (δ : Type) where
  logId : LogId
  payload : EntryPayload δ
  deriving DecidableEq, Repr

structure SnapshotMeta where
  lastLogId : Option LogId
  lastMembership : StoredMembership
  snapshotId : String
  deriving DecidableEq, Repr

structure Snapshot where
  info : SnapshotMeta
  data : Bytes
  deriving DecidableEq, Repr

inductive QueueRequest
  | publish (queue : String) (payload : Bytes)
  | pop (queue : String)
  deriving DecidableEq, Repr

structure QueueResponse where
  publishedOffset : Option UInt64
  popped : Option (UInt64 × Bytes)
  deriving DecidableEq, Repr

def QueueResponse.default : QueueResponse := ⟨none, none⟩

inductive NodeCommand
  | upsertNode (id : UInt64) (addr : String)
  deriving DecidableEq, Repr

structure NodeResponse where
  deriving DecidableEq, Repr

structure SnapshotPayload where
  queues : Map String (List (UInt64 × Bytes))
  nextOffset : Map String UInt64
  deriving DecidableEq

/-- What a Rust call can end in: `Ok`, `Err`, or an unwinding panic. -/
inductive Outcome (ε α : Type)
  | ok (value : α)
  | err (error : ε)
  | panic (message : String)
  deriving DecidableEq, Repr

/-- `serde_json` at one type. The law is the only thing the stores rely on:
reading back what was written gives the value. -/
structure SerdeJson (α : Type) where
  toVec : α → Bytes
  fromSlice : Bytes → Option α
  fromSlice_toVec : ∀ a, fromSlice (toVec a) = some a

end BlunMq
