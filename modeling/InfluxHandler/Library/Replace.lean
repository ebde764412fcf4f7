import Mathlib.Data.List.Infix

/-!
# Replacing a pattern in a word

`replaceAll old new s` replaces the occurrences of `old` in `s` from left to right, without
overlaps. What a reader of the result needs is which symbols it cannot disturb: symbols outside
`old` and `new` keep their number, and a first symbol that neither word starts with stays first.
-/
namespace Replace

variable {α : Type*} [DecidableEq α]

/-- The scan behind `replaceAll`: `skip` symbols of a match are still to be passed over. -/
def scan (old new : List α) : Nat → List α → List α
  | _, [] => []
  | 0, x :: xs =>
    if old.isPrefixOf (x :: xs) then new ++ scan old new (old.length - 1) xs
    else x :: scan old new 0 xs
  | skip + 1, _ :: xs => scan old new skip xs

def replaceAll (old new s : List α) : List α := scan old new 0 s

section
variable {old new : List α}

theorem scan_eq_drop (skip : Nat) (s : List α) :
    scan old new skip s = replaceAll old new (s.drop skip) := by
  induction s generalizing skip with
  | nil => cases skip <;> simp [replaceAll, scan]
  | cons x xs ih =>
    cases skip with
    | zero => rfl
    | succ skip => exact ih skip

@[simp] theorem replaceAll_nil : replaceAll old new ([] : List α) = [] := rfl

/-- At a match the scan continues behind it. -/
theorem replaceAll_match (hold : old ≠ []) (s : List α) :
    replaceAll old new (old ++ s) = new ++ replaceAll old new s := by
  obtain ⟨o, os, rfl⟩ := List.exists_cons_of_ne_nil hold
  have hp : (o :: os).isPrefixOf (o :: (os ++ s)) = true := by simp [List.isPrefixOf_iff_prefix]
  rw [replaceAll, List.cons_append, scan, if_pos hp, scan_eq_drop]
  simp

theorem replaceAll_step {x : α} {xs : List α} (h : ¬ old <+: x :: xs) :
    replaceAll old new (x :: xs) = x :: replaceAll old new xs := by
  rw [replaceAll, scan, if_neg (by simpa [List.isPrefixOf_iff_prefix] using h)]
  rfl

/-- Every word is empty, starts with the pattern, or starts with a symbol that is kept. -/
theorem cases_on (hold : old ≠ []) {P : List α → Prop} (nil : P [])
    (hit : ∀ s, P s → P (old ++ s)) (miss : ∀ x xs, ¬ old <+: x :: xs → P xs → P (x :: xs))
    (s : List α) : P s := by
  induction hn : s.length using Nat.strong_induction_on generalizing s with
  | _ n ih =>
    subst hn
    cases s with
    | nil => exact nil
    | cons x xs =>
      by_cases h : old <+: x :: xs
      · obtain ⟨rest, hr⟩ := h
        have shorter : rest.length < (x :: xs).length := by
          have := List.length_pos_iff.mpr hold
          rw [← hr, List.length_append]
          omega
        rw [← hr]
        exact hit rest (ih _ shorter rest rfl)
      · exact miss x xs h (ih _ (by simp) xs rfl)

/-- A symbol outside both words occurs as often after the replacement as before. -/
theorem count_replaceAll (hold : old ≠ []) {a : α} (ho : a ∉ old) (hn : a ∉ new) (s : List α) :
    (replaceAll old new s).count a = s.count a := by
  induction s using cases_on hold with
  | nil => rfl
  | hit s ih =>
    rw [replaceAll_match hold, List.count_append, List.count_append, ih,
      List.count_eq_zero.mpr ho, List.count_eq_zero.mpr hn]
  | miss x xs h ih =>
    rw [replaceAll_step h, List.count_cons, List.count_cons, ih]

/-- A symbol that the pattern does not contain and the replacement does not start with is first
after the replacement exactly when it was first before. -/
theorem head?_replaceAll_iff (hold : old ≠ []) (hnew : new ≠ []) {a : α}
    (ho : old.head? ≠ some a) (hn : new.head? ≠ some a) (s : List α) :
    (replaceAll old new s).head? = some a ↔ s.head? = some a := by
  cases s using cases_on hold with
  | nil => rfl
  | hit s _ =>
    rw [replaceAll_match hold, List.head?_append_of_ne_nil _ hnew,
      List.head?_append_of_ne_nil _ hold]
    exact ⟨fun h => absurd h hn, fun h => absurd h ho⟩
  | miss x xs h _ => rw [replaceAll_step h, List.head?_cons, List.head?_cons]

theorem replaceAll_eq_nil_iff (hold : old ≠ []) (hnew : new ≠ []) (s : List α) :
    replaceAll old new s = [] ↔ s = [] := by
  cases s using cases_on hold with
  | nil => rfl
  | hit s _ => simp [replaceAll_match hold, hold, hnew]
  | miss x xs h _ => simp [replaceAll_step h]

/-- After the escape of `k`, the word starts with `k` only if the escape itself does. -/
theorem head?_replaceAll_self (k : α) (hnew : new ≠ []) (hn : new.head? ≠ some k) (s : List α) :
    (replaceAll [k] new s).head? ≠ some k := by
  cases s using cases_on (List.cons_ne_nil k []) with
  | nil => simp
  | hit s _ => rwa [replaceAll_match (by simp), List.head?_append_of_ne_nil _ hnew]
  | miss x xs h _ =>
    rw [replaceAll_step h, List.head?_cons]
    rintro ⟨⟩
    exact h ⟨xs, rfl⟩

end

end Replace
