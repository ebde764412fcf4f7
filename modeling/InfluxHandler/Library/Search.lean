import Mathlib.Data.List.Basic

/-!
# Searching lists

The loop that finds the least index at which a condition holds, for a condition that stays true once
it is. In a list whose elements are sorted accordingly it finds what a scan from the left finds.

A list that is not sorted is searched for the first element with a key, and changed there.
-/
namespace Search

/-- Halve the window `[i, j)` until it is empty. The width of the window is enough fuel. -/
def loop (f : Nat → Bool) : Nat → Nat → Nat → Nat
  | 0, i, _ => i
  | fuel + 1, i, j =>
    if i < j then
      let h := (i + j) / 2
      if f h then loop f fuel i h else loop f fuel (h + 1) j
    else i

/-- The least index below `n` at which `f` holds, else `n`. -/
def search (n : Nat) (f : Nat → Bool) : Nat := loop f n 0 n

/-- The loop keeps `f` false below the window and true above it. -/
theorem loop_spec {f : Nat → Bool} {n fuel i j : Nat} (mono : ∀ a b, a ≤ b → b < n → f a → f b)
    (hij : i ≤ j) (hj : j ≤ n) (hf : j - i ≤ fuel) (below : ∀ k < i, f k = false)
    (above : ∀ k, j ≤ k → k < n → f k = true) :
    loop f fuel i j ≤ n ∧ (∀ k < loop f fuel i j, f k = false) ∧
      ∀ k, loop f fuel i j ≤ k → k < n → f k = true := by
  induction fuel generalizing i j with
  | zero =>
    obtain rfl : i = j := by omega
    exact ⟨hj, below, above⟩
  | succ fuel ih =>
    rw [loop]
    by_cases window : i < j
    · rw [if_pos window]
      dsimp only
      split_ifs with holds
      · exact ih (by omega) (by omega) (by omega) below fun k hk hn => mono _ k hk hn holds
      · refine ih (by omega) hj (by omega) (fun k hk => ?_) above
        rw [← Bool.not_eq_true]
        exact fun earlier => holds (mono k _ (by omega) (by omega) earlier)
    · obtain rfl : i = j := by omega
      rw [if_neg window]
      exact ⟨hj, below, above⟩

theorem search_spec {n : Nat} {f : Nat → Bool} (mono : ∀ a b, a ≤ b → b < n → f a → f b) :
    search n f ≤ n ∧ (∀ k < search n f, f k = false) ∧ ∀ k, search n f ≤ k → k < n → f k = true :=
  loop_spec mono (Nat.zero_le _) (Nat.le_refl _) (Nat.sub_le _ _) nofun
    fun _ hk hn => absurd hn (Nat.not_lt.mpr hk)

/-- In a list that is sorted for the condition, the search finds the first element with it. -/
theorem getElem?_search {α : Type*} {p : α → Bool} {l : List α}
    (h : l.Pairwise fun a b => p a → p b) :
    l[search l.length fun i => l[i]?.any p]? = l.find? p := by
  have mono : ∀ a b, a ≤ b → b < l.length → l[a]?.any p → l[b]?.any p := by
    intro a b hab hb ha
    rcases Nat.lt_or_eq_of_le hab with hab | rfl
    · rw [List.getElem?_eq_getElem (Nat.lt_trans hab hb)] at ha
      rw [List.getElem?_eq_getElem hb]
      exact List.pairwise_iff_getElem.mp h a b (Nat.lt_trans hab hb) hb hab ha
    · exact ha
  obtain ⟨bound, below, above⟩ := search_spec mono
  generalize search l.length (fun i => l[i]?.any p) = m at *
  rcases Nat.lt_or_eq_of_le bound with found | rfl
  · have here := above m (Nat.le_refl _) found
    rw [List.getElem?_eq_getElem found] at here ⊢
    rw [eq_comm, List.find?_eq_some_iff_getElem]
    refine ⟨here, m, found, rfl, fun k hk => ?_⟩
    have before := below k hk
    rw [List.getElem?_eq_getElem (Nat.lt_trans hk found)] at before
    simpa using before
  · rw [List.getElem?_eq_none (Nat.le_refl _), eq_comm, List.find?_eq_none]
    intro x hx
    obtain ⟨k, hk, rfl⟩ := List.getElem_of_mem hx
    have before := below k hk
    rw [List.getElem?_eq_getElem hk] at before
    simpa using before

/-! ## Searching by a key -/

section
variable {α κ : Type*} [DecidableEq κ] (key : α → κ)

/-- The first element with the key. -/
def findKey (a : κ) (l : List α) : Option α := l.find? (key · = a)

/-- The list with a change of its first element with the key. -/
def modifyKey (a : κ) (f : α → α) : List α → List α
  | [] => []
  | x :: l => if key x = a then f x :: l else x :: modifyKey a f l

variable {key}

/-- Other keys find what they found before. -/
theorem findKey_modifyKey {f : α → α} (hf : ∀ x, key (f x) = key x) (a b : κ) (l : List α) :
    findKey key b (modifyKey key a f l) =
      (findKey key b l).map fun x => if b = a then f x else x := by
  induction l with
  | nil => rfl
  | cons x l ih =>
    unfold findKey at ih ⊢
    by_cases first : key x = a
    · rw [modifyKey, if_pos first]
      by_cases same : b = a
      · simp [same, first, hf]
      · have other : key x ≠ b := fun found => same (found.symm.trans first)
        simp [same, other, hf]
    · rw [modifyKey, if_neg first]
      by_cases found : key x = b
      · have other : b ≠ a := fun same => first (found.trans same)
        simp [found, other]
      · simpa [found] using ih

theorem mem_modifyKey {f : α → α} {a : κ} {l : List α} {y : α} (h : y ∈ modifyKey key a f l) :
    y ∈ l ∨ ∃ x ∈ l, y = f x := by
  fun_induction modifyKey key a f l <;> grind

theorem findKey_map {f : α → α} (hf : ∀ x, key (f x) = key x) (a : κ) (l : List α) :
    findKey key a (l.map f) = (findKey key a l).map f := by
  have same : (fun x => decide (key x = a)) ∘ f = fun x => decide (key x = a) :=
    funext fun x => by rw [Function.comp_apply, hf]
  rw [findKey, findKey, List.find?_map, same]

end

end Search
