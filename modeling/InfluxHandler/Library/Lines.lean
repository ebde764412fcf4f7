import Mathlib.Data.List.Basic

/-!
# Words made of terminated lines

`unlines sep ls` writes every line of `ls` with a terminator behind it. A reader who cuts the word
at the terminators finds the lines again exactly when no line contains one, and counting the
terminators is enough to see whether that is so.
-/
namespace Lines

variable {α : Type*}

/-- The lines, each followed by the terminator. -/
def unlines (sep : α) (ls : List (List α)) : List α := ls.flatMap (· ++ [sep])

@[simp] theorem unlines_cons (sep : α) (l : List α) (ls : List (List α)) :
    unlines sep (l :: ls) = l ++ sep :: unlines sep ls := by
  simp [unlines]

variable [DecidableEq α]

/-- The lines that a reader finds: the pieces between terminators, up to the last terminator. -/
def lines (sep : α) (s : List α) : List (List α) := (s.splitOn sep).dropLast

section
variable {sep : α} {ls : List (List α)}

theorem length_le_count_unlines : ls.length ≤ (unlines sep ls).count sep := by
  induction ls with
  | nil => exact Nat.zero_le _
  | cons l ls ih =>
    rw [unlines_cons, List.count_append, List.count_cons_self, List.length_cons]
    omega

/-- There is one terminator for each line just when the lines contain none. -/
theorem count_unlines_eq_iff : (unlines sep ls).count sep = ls.length ↔ ∀ l ∈ ls, sep ∉ l := by
  induction ls with
  | nil => simp [unlines]
  | cons l ls ih =>
    have more : ls.length ≤ (unlines sep ls).count sep := length_le_count_unlines
    rw [unlines_cons, List.count_append, List.count_cons_self, List.length_cons,
      List.forall_mem_cons, ← ih, ← List.count_eq_zero]
    omega

/-- Lines without terminators are found again. -/
theorem lines_unlines (h : ∀ l ∈ ls, sep ∉ l) : lines sep (unlines sep ls) = ls := by
  have pieces : (unlines sep ls).splitOn sep = ls ++ [[]] := by
    induction ls with
    | nil => simp [unlines]
    | cons l ls ih =>
      rw [List.forall_mem_cons] at h
      rw [unlines_cons, List.splitOn_append_cons_self_of_not_mem h.1, ih h.2, List.cons_append]
  rw [lines, pieces, List.dropLast_concat]

/-- No piece has a terminator. -/
theorem not_mem_of_mem_splitOn {s l : List α} (h : l ∈ s.splitOn sep) : sep ∉ l := by
  induction s generalizing l with
  | nil => simp_all
  | cons c s ih =>
    obtain ⟨first, rest, pieces⟩ := List.exists_cons_of_ne_nil (List.splitOn_ne_nil sep s)
    have cut := List.splitOnP_cons_eq_if_modifyHead (p := (· == sep)) c s
    change (c :: s).splitOn sep = if _ then [] :: s.splitOn sep else (s.splitOn sep).modifyHead _ at cut
    rw [pieces] at ih cut
    rw [cut] at h
    split_ifs at h with hc
    · rcases List.mem_cons.mp h with rfl | h
      · exact List.not_mem_nil
      · exact ih h
    · rcases List.mem_cons.mp h with rfl | h
      · have first := ih List.mem_cons_self
        grind
      · exact ih (List.mem_cons_of_mem _ h)

omit [DecidableEq α] in
theorem intercalate_cons (l : List α) (ls : List (List α)) :
    [sep].intercalate (l :: ls) = l ++ ls.flatMap (sep :: ·) := by
  induction ls generalizing l with
  | nil => simp [List.intercalate]
  | cons l' ls ih => rw [List.flatMap_cons, List.cons_append, ← ih]; simp [List.intercalate]

omit [DecidableEq α] in
theorem not_mem_intercalate {a : α} (ha : a ≠ sep) (h : ∀ l ∈ ls, a ∉ l) :
    a ∉ [sep].intercalate ls := by
  cases ls with
  | nil => simp [List.intercalate]
  | cons l ls =>
    rw [List.forall_mem_cons] at h
    simp only [intercalate_cons, List.mem_append, List.mem_flatMap, List.mem_cons]
    rintro (mem | ⟨l', hl, rfl | mem⟩)
    · exact h.1 mem
    · exact ha rfl
    · exact h.2 l' hl mem

omit [DecidableEq α] in
/-- What ends every line ends the joined lines. -/
theorem getLast?_intercalate {P : α → Prop} (h : ∀ l ∈ ls, ∃ a, l.getLast? = some a ∧ P a)
    (hls : ls ≠ []) : ∃ a, ([sep].intercalate ls).getLast? = some a ∧ P a := by
  induction ls with
  | nil => exact absurd rfl hls
  | cons l ls ih =>
    rw [List.forall_mem_cons] at h
    cases ls with
    | nil => simpa [List.intercalate] using h.1
    | cons l' ls =>
      obtain ⟨a, last, ha⟩ := ih h.2 (List.cons_ne_nil _ _)
      have joined : [sep].intercalate (l :: l' :: ls) = l ++ [sep] ++ [sep].intercalate (l' :: ls) := by
        simp [List.intercalate]
      exact ⟨a, by rw [joined, List.getLast?_append, last]; rfl, ha⟩

omit [DecidableEq α] in
/-- With the last terminator removed the lines are joined. -/
theorem unlines_eq_append (h : ls ≠ []) : unlines sep ls = [sep].intercalate ls ++ [sep] := by
  induction ls with
  | nil => exact absurd rfl h
  | cons l ls ih =>
    cases ls with
    | nil => simp [unlines]
    | cons l' ls => rw [unlines_cons, ih (List.cons_ne_nil _ _)]; simp [List.intercalate]

/-- What holds of every line that is read holds of every line that was written, provided the
terminators are counted too. -/
theorem framed_iff {P : List α → Prop} :
    ((unlines sep ls).count sep = ls.length ∧ ∀ l ∈ lines sep (unlines sep ls), P l) ↔
      ∀ l ∈ ls, sep ∉ l ∧ P l := by
  rw [count_unlines_eq_iff, forall₂_and]
  constructor
  · rintro ⟨h, hP⟩
    exact ⟨h, by rwa [lines_unlines h] at hP⟩
  · rintro ⟨h, hP⟩
    exact ⟨h, by rwa [lines_unlines h]⟩

end

end Lines
