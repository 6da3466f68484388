import BlunMq.Lib.Printer
import BlunMq.Raft.Types

/-!
# The JSON texts the stores exchange

A concrete codec for every type the stores serialise, in the compact form
`serde_json` writes: struct fields in declaration order, enum variants under
their names, maps as objects (here in key order). It shows that the round-trip
law in `SerdeJson` is satisfiable; nothing else depends on the format.
-/

namespace BlunMq.Json
open Printer

theorem avoids_nat {b : UInt8} (hb : isDigit b = false) : nat.Avoids b := by
  intro n
  obtain ⟨c, t, ht⟩ := List.exists_cons_of_ne_nil (digitBytes_ne_nil n)
  refine ⟨c, t, ht, ?_⟩
  rintro rfl
  have hd := digitBytes_isDigit n c (by rw [ht]; exact List.mem_cons_self)
  rw [hb] at hd
  cases hd

theorem avoids_str {b : UInt8} (hb : b ≠ 34) : str.Avoids b :=
  fun _ => ⟨34, _, rfl, Ne.symm hb⟩

theorem avoids_wrap {α : Type} {l : List UInt8} {p : Printer α} {r : List UInt8}
    (hr : r ≠ [] ∧ Stops r) {b : UInt8} (hl : l ≠ [] ∧ l.head? ≠ some b) :
    (wrap l p r hr).Avoids b := by
  intro a
  obtain ⟨c, t, rfl⟩ := List.exists_cons_of_ne_nil hl.1
  exact ⟨c, t ++ p.print a ++ r, by simp [wrap], fun hc => hl.2 (by rw [hc]; rfl)⟩

theorem avoids_pair {α β : Type} {p : Printer α} {sep : List UInt8}
    {hsep : sep ≠ [] ∧ Stops sep} {q : Printer β} {b : UInt8} (hp : p.Avoids b) :
    (pair p sep hsep q).Avoids b := by
  intro x
  obtain ⟨c, t, ht, hne⟩ := hp x.1
  exact ⟨c, t ++ sep ++ q.print x.2, by simp [pair, ht], hne⟩

theorem avoids_list {α : Type} {o c b : UInt8} {p : Printer α} {hp : p.Avoids c}
    {hc : Stops [c] ∧ c ≠ 44} (hb : o ≠ b) : (list o c p hp hc).Avoids b :=
  fun _ => ⟨o, _, rfl, hb⟩

def array {α : Type} (p : Printer α) (hp : p.Avoids 93) : Printer (List α) :=
  list 91 93 p hp (by decide)

def u64 : Printer UInt64 :=
  nat.imap UInt64.toNat (fun n => some (UInt64.ofNat n)) fun b => by simp

def u8 : Printer UInt8 :=
  nat.imap UInt8.toNat (fun n => some (UInt8.ofNat n)) fun b => by simp

theorem avoids_u64 {b : UInt8} (hb : isDigit b = false) : u64.Avoids b :=
  fun a => avoids_nat hb a.toNat

theorem avoids_u8 {b : UInt8} (hb : isDigit b = false) : u8.Avoids b :=
  fun a => avoids_nat hb a.toNat

def bytes : Printer Bytes := array u8 (avoids_u8 (by decide))

theorem ofList_toList {κ α : Type} [Ord κ] [Std.TransOrd κ] [Std.LawfulEqOrd κ] [BEq κ]
    [Std.LawfulBEqOrd κ] (m : Map κ α) : Std.ExtTreeMap.ofList m.toList = m := by
  apply Std.ExtTreeMap.ext_getElem?
  intro k
  cases hk : m[k]? with
  | none =>
    apply Std.ExtTreeMap.getElem?_ofList_of_contains_eq_false
    rw [Std.ExtTreeMap.map_fst_toList_eq_keys]
    simpa using hk
  | some v =>
    exact Std.ExtTreeMap.getElem?_ofList_of_mem Std.ReflCmp.compare_self
      Std.ExtTreeMap.distinct_keys_toList
      (Std.ExtTreeMap.mem_toList_iff_getElem?_eq_some.mpr hk)

def object {κ α : Type} [Ord κ] [Std.TransOrd κ] [Std.LawfulEqOrd κ] [BEq κ]
    [Std.LawfulBEqOrd κ] (key : Printer κ) (hkey : key.Avoids 125) (value : Printer α) :
    Printer (Map κ α) :=
  (list 123 125 (pair key (ascii ":") (by decide) value) (avoids_pair hkey) (by decide)).imap
    (fun m => m.toList) (fun l => some (Std.ExtTreeMap.ofList l)) fun m => by
      rw [ofList_toList]

/-- Numbers as object keys are quoted. -/
def quotedU64 : Printer UInt64 := wrap (ascii "\"") u64 (ascii "\"") (by decide)

def leaderId : Printer LeaderId :=
  (wrap (ascii "\x7b\"term\":") (pair u64 (ascii ",\"node_id\":") (by decide) u64)
    (ascii "\x7d") (by decide)).imap (fun l => (l.term, l.nodeId)) (fun x => some ⟨x.1, x.2⟩)
    fun _ => rfl

def logId : Printer LogId :=
  (wrap (ascii "\x7b\"leader_id\":") (pair leaderId (ascii ",\"index\":") (by decide) u64)
    (ascii "\x7d") (by decide)).imap (fun l => (l.leaderId, l.index)) (fun x => some ⟨x.1, x.2⟩)
    fun _ => rfl

theorem avoids_logId : logId.Avoids 110 :=
  fun l => avoids_wrap (l := ascii "\x7b\"leader_id\":") (by decide) (by decide)
    (l.leaderId, l.index)

def committed : Printer (Option LogId) := opt logId avoids_logId

def bool : Printer Bool :=
  (choice (ascii "true") unit (ascii "false") unit (by decide)).imap
    (fun b => if b then .inl () else .inr ())
    (fun
      | .inl () => some true
      | .inr () => some false)
    fun b => by cases b <;> rfl

def vote : Printer Vote :=
  (wrap (ascii "\x7b\"leader_id\":") (pair leaderId (ascii ",\"committed\":") (by decide) bool)
    (ascii "\x7d") (by decide)).imap (fun v => (v.leaderId, v.committed))
    (fun x => some ⟨x.1, x.2⟩) fun _ => rfl

def basicNode : Printer String := wrap (ascii "\x7b\"addr\":") str (ascii "\x7d") (by decide)

def membership : Printer Membership :=
  (wrap (ascii "\x7b\"configs\":")
    (pair (array (array u64 (avoids_u64 (by decide))) (avoids_list (by decide)))
      (ascii ",\"nodes\":") (by decide)
      (list 123 125 (pair quotedU64 (ascii ":") (by decide) basicNode)
        (avoids_pair (avoids_wrap (by decide) (by decide))) (by decide)))
    (ascii "\x7d") (by decide)).imap
    (fun m => (m.configs, m.nodes)) (fun x => some ⟨x.1, x.2⟩) fun _ => rfl

def entryPayload {δ : Type} (req : Printer δ) : Printer (EntryPayload δ) :=
  (choice (ascii "\"Blank\"") unit (ascii "\x7b\"")
    (choice (ascii "Normal\":") (wrap [] req (ascii "\x7d") (by decide))
      (ascii "Membership\":") (wrap [] membership (ascii "\x7d") (by decide)) (by decide))
    (by decide)).imap
    (fun
      | .blank => .inl ()
      | .normal r => .inr (.inl r)
      | .membership m => .inr (.inr m))
    (fun
      | .inl () => some .blank
      | .inr (.inl r) => some (.normal r)
      | .inr (.inr m) => some (.membership m))
    fun p => by cases p <;> rfl

def entry {δ : Type} (req : Printer δ) : Printer (Entry δ) :=
  (wrap (ascii "\x7b\"log_id\":")
    (pair logId (ascii ",\"payload\":") (by decide) (entryPayload req)) (ascii "\x7d")
    (by decide)).imap (fun e => (e.logId, e.payload)) (fun x => some ⟨x.1, x.2⟩) fun _ => rfl

def queueRequest : Printer QueueRequest :=
  (choice (ascii "\x7b\"Publish\":\x7b\"queue\":")
    (wrap [] (pair str (ascii ",\"payload\":") (by decide) bytes) (ascii "\x7d\x7d") (by decide))
    (ascii "\x7b\"Pop\":\x7b\"queue\":") (wrap [] str (ascii "\x7d\x7d") (by decide))
    (by decide)).imap
    (fun
      | .publish queue payload => .inl (queue, payload)
      | .pop queue => .inr queue)
    (fun
      | .inl x => some (.publish x.1 x.2)
      | .inr queue => some (.pop queue))
    fun r => by cases r <;> rfl

def message : Printer (UInt64 × Bytes) :=
  wrap (ascii "[") (pair u64 (ascii ",") (by decide) bytes) (ascii "]") (by decide)

def snapshotPayload : Printer SnapshotPayload :=
  (wrap (ascii "\x7b\"queues\":")
    (pair (object str (avoids_str (by decide))
        (array message (avoids_wrap (by decide) (by decide))))
      (ascii ",\"next_offset\":") (by decide) (object str (avoids_str (by decide)) u64))
    (ascii "\x7d") (by decide)).imap (fun p => (p.queues, p.nextOffset))
    (fun x => some ⟨x.1, x.2⟩) fun _ => rfl

def nodes : Printer (Map UInt64 String) :=
  object quotedU64 (avoids_wrap (by decide) (by decide)) str

def serde {α : Type} (p : Printer α) : SerdeJson α := ⟨p.print, p.decode, p.decode_print⟩

example : snapshotPayload.print
      ⟨(∅ : Map String (List (UInt64 × Bytes))).insert "q" [(0, [7])],
        (∅ : Map String UInt64).insert "q" 1⟩ =
    ascii "\x7b\"queues\":\x7b\"q\":[[0,[7]]]\x7d,\"next_offset\":\x7b\"q\":1\x7d\x7d" := by
  decide +kernel

end BlunMq.Json
