import Mathlib.Data.List.Basic
import Mathlib.Data.List.Induction

/-!
# The last write to a key

Updates of a keyed store in which the last writer wins. Such updates do not commute,
but running a piece of their history again is harmless as long as everything after
that piece is run again too.
-/

namespace LastWrite

variable {κ α : Type*} [DecidableEq κ]

def writesTo (k : κ) (ws : List (κ × α)) : List α :=
  ws.filterMap fun w => if w.1 = k then some w.2 else none

def last (k : κ) (ws : List (κ × α)) : Option α := (writesTo k ws).getLast?

theorem last_append (k : κ) (ws vs : List (κ × α)) :
    last k (ws ++ vs) = (last k vs).or (last k ws) := by
  simp only [last, writesTo, List.filterMap_append, List.getLast?_append]

theorem last_singleton (k : κ) (w : κ × α) :
    last k [w] = if w.1 = k then some w.2 else none := by
  by_cases h : w.1 = k <;> simp [last, writesTo, h]

theorem mem_of_last {ws : List (κ × α)} {k : κ} {a : α} (h : last k ws = some a) :
    (k, a) ∈ ws := by
  obtain ⟨w, hw, hwk⟩ := List.mem_filterMap.mp (List.mem_of_getLast? h)
  split at hwk
  · rename_i hkey
    cases hwk
    rwa [← hkey]
  · cases hwk

theorem last_eq_some_iff {ws : List (κ × α)} (h : (ws.map Prod.fst).Nodup) {k : κ} {a : α} :
    last k ws = some a ↔ (k, a) ∈ ws := by
  induction ws using List.reverseRecOn with
  | nil => simp [last, writesTo]
  | append_singleton ws w ih =>
    rw [List.map_append, List.nodup_append] at h
    obtain ⟨hws, -, hdisjoint⟩ := h
    rw [last_append, last_singleton, List.mem_append, List.mem_singleton]
    by_cases hk : w.1 = k
    · have hnot : (k, a) ∉ ws := fun hmem =>
        hdisjoint k (List.mem_map_of_mem hmem) w.1 (by simp) hk.symm
      rw [if_pos hk, Option.some_or, Option.some.injEq, ← hk]
      rw [← hk] at hnot
      constructor
      · rintro rfl
        exact Or.inr rfl
      · rintro (hmem | heq)
        · exact absurd hmem hnot
        · rw [← heq]
    · rw [if_neg hk, Option.none_or, ih hws]
      constructor
      · exact Or.inl
      · rintro (hmem | heq)
        · exact hmem
        · exact absurd (by rw [← heq]) hk

theorem last_overlap (k : κ) (a b c : List (κ × α)) :
    (last k (b ++ c)).or (last k (a ++ b)) = last k (a ++ b ++ c) := by
  rw [last_append k b c, last_append k a b, last_append k (a ++ b) c, last_append k a b,
    Option.or_assoc]
  congr 1
  cases last k b <;> rfl

/-- Every key has the value it had at some point of the history from `n` on. -/
def Fuzzy (hist : List (List (κ × α))) (n : ℕ) (f : κ → Option α) : Prop :=
  ∀ k, ∃ j, n ≤ j ∧ j ≤ hist.length ∧ f k = last k (hist.take j).flatten

namespace Fuzzy
variable {hist : List (List (κ × α))} {n : ℕ} {f g : κ → Option α} {k : κ} {ws : List (κ × α)}

theorem start (hist : List (List (κ × α))) : Fuzzy hist 0 (fun _ => none) :=
  fun _ => ⟨0, Nat.le_refl _, Nat.zero_le _, rfl⟩

theorem mono (h : Fuzzy hist n f) {m : ℕ} (hm : m ≤ n) : Fuzzy hist m f := fun k => by
  obtain ⟨j, hj, hle, heq⟩ := h k
  exact ⟨j, Nat.le_trans hm hj, hle, heq⟩

theorem last_take_succ (hws : hist[n]? = some ws) (k : κ) :
    last k (hist.take (n + 1)).flatten = (last k ws).or (last k (hist.take n).flatten) := by
  rw [List.take_add_one, hws, Option.toList_some, List.flatten_concat, last_append]

theorem write (h : Fuzzy hist n f) (hws : hist[n]? = some ws)
    (hg : ∀ k, g k = (last k ws).or (f k)) : Fuzzy hist (n + 1) g := fun k => by
  rw [hg]
  have hlt := (List.getElem?_eq_some_iff.mp hws).1
  obtain ⟨j, hj, hle, heq⟩ := h k
  cases hlast : last k ws with
  | some a =>
    refine ⟨n + 1, Nat.le_refl _, hlt, ?_⟩
    rw [last_take_succ hws, hlast, Option.some_or, Option.some_or]
  | none =>
    rw [Option.none_or]
    rcases Nat.eq_or_lt_of_le hj with rfl | hlater
    · refine ⟨n + 1, Nat.le_refl _, hlt, ?_⟩
      rw [heq, last_take_succ hws, hlast, Option.none_or]
    · exact ⟨j, hlater, hle, heq⟩

theorem settled (h : Fuzzy hist n f) (hk : ∀ ws ∈ hist.drop n, ∀ a, (k, a) ∉ ws) :
    f k = last k hist.flatten := by
  have hrest : ∀ j, n ≤ j → last k (hist.drop j).flatten = none := fun j hj => by
    rw [last, List.getLast?_eq_none_iff, writesTo, List.filterMap_eq_nil_iff]
    rintro ⟨k', a⟩ hw
    obtain ⟨ws, hws, hmem⟩ := List.mem_flatten.mp hw
    have hne : k' ≠ k := by
      rintro rfl
      exact hk ws ((List.drop_sublist_drop_left hist hj).subset hws) a hmem
    exact if_neg hne
  obtain ⟨j, hj, -, heq⟩ := h k
  rw [heq, ← List.take_append_drop j hist, List.flatten_append, last_append, hrest j hj,
    Option.none_or, List.take_append_drop]

theorem mem (h : Fuzzy hist n f) {a : α} (ha : f k = some a) : (k, a) ∈ hist.flatten := by
  obtain ⟨j, -, -, heq⟩ := h k
  obtain ⟨ws, hws, hmem⟩ := List.mem_flatten.mp (mem_of_last (heq.symm.trans ha))
  exact List.mem_flatten.mpr ⟨ws, List.mem_of_mem_take hws, hmem⟩

theorem present (h : Fuzzy hist n f) {a : α} (ha : (k, a) ∈ (hist.take n).flatten) :
    ∃ a', f k = some a' := by
  obtain ⟨j, hj, -, heq⟩ := h k
  have hwritten : a ∈ writesTo k (hist.take j).flatten := by
    refine List.mem_filterMap.mpr ⟨(k, a), ?_, if_pos rfl⟩
    obtain ⟨ws, hws, hmem⟩ := List.mem_flatten.mp ha
    exact List.mem_flatten.mpr ⟨ws, (List.take_sublist_take_left hj).subset hws, hmem⟩
  rw [heq]
  exact ⟨_, List.getLast?_eq_getLast_of_ne_nil (List.ne_nil_of_mem hwritten)⟩

end Fuzzy

end LastWrite
