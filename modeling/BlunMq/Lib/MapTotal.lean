import Mathlib
import BlunMq.Lib.Tally

/-!
# Summing up the values of a map

The total of a finite map under a weight, and what writing one key does to it: the
weight of the old value goes and that of the new one comes.
-/

namespace MapTotal

variable {κ α β : Type*} {cmp : κ → κ → Ordering} [Std.TransCmp cmp]

def total (f : α → ℕ) (m : Std.ExtTreeMap κ α cmp) : ℕ :=
  Tally.total (fun x => f x.2) m.toList

theorem total_map (f : β → ℕ) (g : α → β) (m : Std.ExtTreeMap κ α cmp) :
    total f (m.map fun _ a => g a) = total (fun a => f (g a)) m := by
  rw [total, Std.ExtTreeMap.toList_map, Tally.total, List.map_map]
  rfl

theorem total_mono {f g : α → ℕ} (h : ∀ a, f a ≤ g a) {m : Std.ExtTreeMap κ α cmp} :
    total f m ≤ total g m :=
  List.sum_le_sum fun x _ => h x.2

section Lawful
variable [Std.LawfulEqCmp cmp]

theorem nodup_toList (m : Std.ExtTreeMap κ α cmp) : m.toList.Nodup :=
  m.distinct_keys_toList.imp fun h heq => h (by rw [heq]; exact Std.ReflCmp.compare_self)

variable [DecidableEq κ]

def others (k : κ) (m : Std.ExtTreeMap κ α cmp) : List (κ × α) :=
  m.toList.filter fun x => decide (x.1 ≠ k)

theorem mem_others {k a : κ} {v : α} {m : Std.ExtTreeMap κ α cmp} :
    (a, v) ∈ others k m ↔ m[a]? = some v ∧ a ≠ k := by
  rw [others, List.mem_filter, Std.ExtTreeMap.mem_toList_iff_getElem?_eq_some, decide_eq_true_eq]

theorem toList_perm {k : κ} {v : α} {m : Std.ExtTreeMap κ α cmp} (h : m[k]? = some v) :
    m.toList.Perm ((k, v) :: others k m) := by
  have hnodup : ((k, v) :: others k m).Nodup := by
    refine List.nodup_cons.mpr ⟨fun hmem => ?_, (nodup_toList m).filter _⟩
    exact (mem_others.mp hmem).2 rfl
  refine (List.perm_ext_iff_of_nodup (nodup_toList m) hnodup).mpr ?_
  rintro ⟨a, b⟩
  rw [Std.ExtTreeMap.mem_toList_iff_getElem?_eq_some, List.mem_cons, mem_others]
  by_cases hk : a = k
  · subst hk
    simp [h, eq_comm]
  · simp [hk]

theorem others_insert (k : κ) (v : α) (m : Std.ExtTreeMap κ α cmp) :
    (others k (m.insert k v)).Perm (others k m) := by
  refine (List.perm_ext_iff_of_nodup ((nodup_toList _).filter _) ((nodup_toList m).filter _)).mpr ?_
  rintro ⟨a, b⟩
  rw [← others, ← others, mem_others, mem_others, Std.ExtTreeMap.getElem?_insert]
  refine and_congr_left fun hk => ?_
  rw [if_neg fun heq => hk (Std.LawfulEqCmp.compare_eq_iff_eq.mp heq).symm]

theorem total_eq (f : α → ℕ) {k : κ} {v : α} {m : Std.ExtTreeMap κ α cmp} (h : m[k]? = some v) :
    total f m = f v + Tally.total (fun x => f x.2) (others k m) := by
  rw [total, ← Tally.total_cons (fun x : κ × α => f x.2) (k, v)]
  exact ((toList_perm h).map _).sum_eq

theorem total_eq_others (f : α → ℕ) {k : κ} {m : Std.ExtTreeMap κ α cmp} (h : m[k]? = none) :
    total f m = Tally.total (fun x => f x.2) (others k m) := by
  rw [total, others, List.filter_eq_self.mpr]
  rintro ⟨a, v⟩ hmem
  rw [Std.ExtTreeMap.mem_toList_iff_getElem?_eq_some] at hmem
  rw [decide_eq_true_eq]
  rintro rfl
  rw [h] at hmem
  cases hmem

/-- A key that is absent counts as a default of weight zero. -/
theorem total_insert (f : α → ℕ) (m : Std.ExtTreeMap κ α cmp) (k : κ) (v : α) {d : α}
    (hd : f d = 0) : total f (m.insert k v) + f (m.getD k d) = total f m + f v := by
  have hnew : total f (m.insert k v) = f v + Tally.total (fun x => f x.2) (others k m) := by
    have hk : (m.insert k v)[k]? = some v := Std.ExtTreeMap.getElem?_insert_self
    rw [total_eq f hk, Tally.total, Tally.total, ((others_insert k v m).map _).sum_eq]
  rw [hnew, Std.ExtTreeMap.getD_eq_getD_getElem?]
  cases h : m[k]? with
  | none =>
    rw [total_eq_others f h, Option.getD_none, hd]
    omega
  | some a =>
    rw [total_eq f h, Option.getD_some]
    omega

end Lawful

theorem total_eq_zero [Std.LawfulEqCmp cmp] {f : α → ℕ} {m : Std.ExtTreeMap κ α cmp}
    (h : ∀ (k : κ) (a : α), m[k]? = some a → f a = 0) : total f m = 0 := by
  refine List.sum_eq_zero fun n hn => ?_
  obtain ⟨⟨k, a⟩, hmem, rfl⟩ := List.mem_map.mp hn
  exact h k a (Std.ExtTreeMap.mem_toList_iff_getElem?_eq_some.mp hmem)

theorem le_total [Std.LawfulEqCmp cmp] {f : α → ℕ} {m : Std.ExtTreeMap κ α cmp} {k : κ} {d : α}
    (hd : f d = 0) : f (m.getD k d) ≤ total f m := by
  classical
  rw [Std.ExtTreeMap.getD_eq_getD_getElem?]
  cases h : m[k]? with
  | none => rw [Option.getD_none, hd]; exact Nat.zero_le _
  | some a => rw [Option.getD_some, total_eq f h]; exact Nat.le_add_right _ _

end MapTotal
