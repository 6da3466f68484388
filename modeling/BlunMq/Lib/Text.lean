import Mathlib.Data.List.DropRight
import Mathlib.Data.List.Forall2

/-!
# Trimming and splitting

Texts are lists over any type of characters, and a predicate says which characters are
blank. Joining texts that do not contain the separator and splitting them again gives
them back, and blanks put around a text are gone after trimming.
-/

namespace Text

variable {α : Type*}

section Trim
variable (p : α → Bool)

def trim (l : List α) : List α := (l.dropWhile p).rdropWhile p

variable {p}

theorem trim_eq_nil_iff {l : List α} : trim p l = [] ↔ ∀ x ∈ l, p x = true := by
  rw [trim, List.rdropWhile_eq_nil_iff]
  constructor
  · intro h x hx
    rw [← List.takeWhile_append_dropWhile (p := p) (l := l), List.mem_append] at hx
    rcases hx with hx | hx
    · exact List.mem_takeWhile_imp hx
    · exact h x hx
  · intro h x hx
    exact h x ((List.dropWhile_suffix p).subset hx)

theorem rdropWhile_append {l after : List α} (h : ∀ x ∈ after, p x = true) :
    (l ++ after).rdropWhile p = l.rdropWhile p := by
  rw [List.rdropWhile, List.reverse_append, List.dropWhile_append_of_pos, List.rdropWhile]
  intro x hx
  exact h x (List.mem_reverse.mp hx)

theorem trim_append {before l after : List α} (hbefore : ∀ x ∈ before, p x = true)
    (hafter : ∀ x ∈ after, p x = true) : trim p (before ++ l ++ after) = trim p l := by
  rw [trim, trim, List.append_assoc, List.dropWhile_append_of_pos hbefore, List.dropWhile_append]
  split
  · rename_i hl
    rw [List.isEmpty_iff] at hl
    rw [hl, List.rdropWhile_nil, List.rdropWhile_eq_nil_iff]
    exact fun x hx => hafter x ((List.dropWhile_suffix p).subset hx)
  · exact rdropWhile_append hafter

theorem trim_eq_self {l : List α} (h : ∀ x ∈ l, p x = false) : trim p l = l := by
  have hdrop : l.dropWhile p = l := by
    rw [List.dropWhile_eq_self_iff]
    intro hl
    rw [h _ (List.getElem_mem hl)]
    exact Bool.false_ne_true
  rw [trim, hdrop, List.rdropWhile_eq_self_iff]
  intro hl
  rw [h _ (List.getLast_mem hl)]
  exact Bool.false_ne_true

theorem trim_subset (l : List α) : trim p l ⊆ l := fun _ hx =>
  (List.dropWhile_suffix p).subset ((List.rdropWhile_prefix p _).subset hx)

@[simp] theorem trim_trim (l : List α) : trim p (trim p l) = trim p l := by
  have hdrop : (trim p l).dropWhile p = trim p l := by
    rw [List.dropWhile_eq_self_iff]
    intro hl hhead
    have hpre : trim p l <+: l.dropWhile p := List.rdropWhile_prefix p _
    have hne : 0 < (l.dropWhile p).length := hl.trans_le hpre.length_le
    have hsame : (trim p l)[0] = (l.dropWhile p)[0] := hpre.getElem hl
    rw [hsame] at hhead
    exact List.dropWhile_eq_self_iff.mp (List.dropWhile_idempotent (p := p) l) hne hhead
  rw [trim, hdrop, trim, List.rdropWhile_idempotent]

end Trim

section Split
variable [DecidableEq α]

/-- What stands before and after the first separator. -/
def splitOnce (sep : α) : List α → Option (List α × List α)
  | [] => none
  | a :: l => if a = sep then some ([], l) else (splitOnce sep l).map fun x => (a :: x.1, x.2)

theorem splitOnce_append {sep : α} {before : List α} (h : sep ∉ before) (after : List α) :
    splitOnce sep (before ++ sep :: after) = some (before, after) := by
  induction before with
  | nil => exact if_pos rfl
  | cons a before ih =>
    rw [List.mem_cons, not_or] at h
    obtain ⟨hne, hmem⟩ := h
    rw [List.cons_append, splitOnce, if_neg (Ne.symm hne), ih hmem]
    rfl

theorem splitOnce_eq_some_iff {sep : α} {l before after : List α} :
    splitOnce sep l = some (before, after) ↔ l = before ++ sep :: after ∧ sep ∉ before := by
  constructor
  · intro h
    induction l generalizing before with
    | nil => cases h
    | cons a l ih =>
      rw [splitOnce] at h
      split at h
      · rename_i hsep
        cases h
        exact ⟨by rw [hsep]; rfl, List.not_mem_nil⟩
      · rename_i hsep
        obtain ⟨⟨before', after'⟩, hl, heq⟩ := Option.map_eq_some_iff.mp h
        cases heq
        obtain ⟨rfl, hmem⟩ := ih hl
        refine ⟨rfl, fun hsep' => ?_⟩
        rcases List.mem_cons.mp hsep' with heq | hsep'
        · exact hsep heq.symm
        · exact hmem hsep'
  · intro h
    obtain ⟨rfl, hmem⟩ := h
    exact splitOnce_append hmem after

theorem splitOnce_eq_none_iff {sep : α} {l : List α} : splitOnce sep l = none ↔ sep ∉ l := by
  induction l with
  | nil => simp [splitOnce]
  | cons a l ih =>
    rw [splitOnce, List.mem_cons, not_or]
    split
    · rename_i hsep
      simp [hsep]
    · rename_i hsep
      rw [Option.map_eq_none_iff, ih]
      exact ⟨fun h => ⟨Ne.symm hsep, h⟩, fun h => h.2⟩

theorem not_mem_of_mem_splitOn {sep : α} {l part : List α} (h : part ∈ l.splitOn sep) :
    sep ∉ part := by
  induction l generalizing part with
  | nil =>
    rw [List.splitOn_nil, List.mem_singleton] at h
    exact h ▸ List.not_mem_nil
  | cons a l ih =>
    rw [List.splitOn_cons_eq_if_modifyHead] at h
    split at h
    · rcases List.mem_cons.mp h with rfl | h
      · exact List.not_mem_nil
      · exact ih h
    · rename_i hsep
      obtain ⟨first, others, hl⟩ := List.exists_cons_of_ne_nil (List.splitOn_ne_nil sep l)
      rw [hl] at h ih
      rcases List.mem_cons.mp h with rfl | h
      · intro hmem
        rcases List.mem_cons.mp hmem with heq | hmem
        · exact hsep (by simp [heq])
        · exact ih List.mem_cons_self hmem
      · exact ih (List.mem_cons_of_mem _ h)

/-- No parts at all are joined to one empty part, which must not be kept. -/
theorem filter_splitOn_intercalate {sep : α} {keep : List α → Bool} (hkeep : keep [] = false)
    {parts : List (List α)} (h : ∀ part ∈ parts, sep ∉ part) :
    (([sep].intercalate parts).splitOn sep).filter keep = parts.filter keep := by
  by_cases hnil : parts = []
  · subst hnil
    simp [hkeep]
  · rw [List.splitOn_intercalate sep h hnil]

end Split

section Read
variable {β ε : Type*} {read : α → Except ε β}

theorem mapM_cons_eq_ok_iff {a : α} {l : List α} {xs : List β} :
    (a :: l).mapM read = .ok xs ↔ ∃ x ys, read a = .ok x ∧ l.mapM read = .ok ys ∧ xs = x :: ys := by
  rw [List.mapM_cons]
  cases ha : read a with
  | error e => simp [bind, Except.bind]
  | ok x =>
    cases hl : l.mapM read with
    | error e => simp [bind, Except.bind]
    | ok ys => simp [bind, Except.bind, pure, Except.pure, eq_comm]

theorem mapM_cons_eq_error_iff {a : α} {l : List α} {e : ε} :
    (a :: l).mapM read = .error e ↔
      read a = .error e ∨ ∃ x, read a = .ok x ∧ l.mapM read = .error e := by
  rw [List.mapM_cons]
  cases ha : read a with
  | error e => simp [bind, Except.bind]
  | ok x =>
    cases hl : l.mapM read with
    | error e => simp [bind, Except.bind]
    | ok ys => simp [bind, Except.bind, pure, Except.pure]

theorem mapM_eq_ok_iff {l : List α} {xs : List β} :
    l.mapM read = .ok xs ↔ List.Forall₂ (fun a x => read a = .ok x) l xs := by
  induction l generalizing xs with
  | nil =>
    rw [List.mapM_nil, List.forall₂_nil_left_iff]
    exact ⟨fun h => (Except.ok.inj h).symm, fun h => congrArg Except.ok h.symm⟩
  | cons a l ih =>
    rw [mapM_cons_eq_ok_iff, List.forall₂_cons_left_iff]
    simp only [ih]

theorem exists_of_forall₂ {R : α → β → Prop} {l : List α} {xs : List β} {x : β}
    (h : List.Forall₂ R l xs) (hx : x ∈ xs) : ∃ a ∈ l, R a x := by
  induction h with
  | nil => cases hx
  | @cons a y l xs hR _ ih =>
    rcases List.mem_cons.mp hx with rfl | hx
    · exact ⟨a, List.mem_cons_self, hR⟩
    · obtain ⟨b, hb, hR⟩ := ih hx
      exact ⟨b, List.mem_cons_of_mem _ hb, hR⟩

theorem mapM_eq_error_iff {l : List α} {e : ε} : l.mapM read = .error e ↔
    ∃ good bad others, l = good ++ bad :: others ∧ (∀ a ∈ good, ∃ x, read a = .ok x) ∧
      read bad = .error e := by
  induction l with
  | nil => simp [pure, Except.pure]
  | cons a l ih =>
    rw [mapM_cons_eq_error_iff, ih]
    constructor
    · rintro (ha | ⟨x, ha, good, bad, others, rfl, hgood, hbad⟩)
      · exact ⟨[], a, l, rfl, (fun _ h => by cases h), ha⟩
      · refine ⟨a :: good, bad, others, rfl, fun b hb => ?_, hbad⟩
        rcases List.mem_cons.mp hb with rfl | hb
        · exact ⟨x, ha⟩
        · exact hgood b hb
    · rintro ⟨good, bad, others, heq, hgood, hbad⟩
      cases good with
      | nil =>
        cases heq
        exact .inl hbad
      | cons b good =>
        cases heq
        obtain ⟨x, ha⟩ := hgood a List.mem_cons_self
        exact .inr ⟨x, ha, good, bad, others, rfl,
          fun c hc => hgood c (List.mem_cons_of_mem _ hc), hbad⟩

end Read
end Text
