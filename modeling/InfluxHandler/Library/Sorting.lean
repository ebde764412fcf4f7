import Mathlib.Data.List.Sort

/-!
# Lists in the order of a key

`canonical key l` is the list in the order of its keys, or nothing if a key is repeated. It is
computed by a pass over neighbours that saves the sorting of a list in order, and by a second such
pass behind the sorting. Neither pass alone sees every repeated key; `canonical_eq` says that
together they do, so the result depends on the elements only (`sortBy_eq_of_perm`).
-/
namespace Sorting

variable {α K : Type*} [LT K] [DecidableLT K] (key : α → K)

/-- Insertion sort from the left: each element moves left past the greater ones. The sorted part is
written from its right end. -/
def sortBy (l : List α) : List α :=
  (l.foldl (fun sorted a => sorted.orderedInsert (fun a b => ¬ key a < key b) a) []).reverse

theorem sortBy_eq (l : List α) :
    sortBy key l = (l.reverse.insertionSort fun a b => ¬ key a < key b).reverse := by
  rw [sortBy, List.foldl_eq_foldr_reverse]
  rfl

theorem sortBy_perm (l : List α) : (sortBy key l).Perm l := by
  rw [sortBy_eq]
  exact (List.reverse_perm _).trans ((List.perm_insertionSort _ _).trans (List.reverse_perm l))

section
variable [DecidableEq K]

/-- Whether the list is in order, or nothing at a repeated key. The pass ends at the first element
that is out of order. -/
def inOrder : List α → Option Bool
  | left :: right :: l =>
    if key right < key left then some false
    else if key left = key right then none
    else inOrder (right :: l)
  | _ => some true

/-- Whether two neighbours have one key. -/
def repeatsNeighbour : List α → Bool
  | left :: right :: l => key left = key right || repeatsNeighbour (right :: l)
  | _ => false

def canonical (l : List α) : Option (List α) :=
  match inOrder key l with
  | none => none
  | some true => some l
  | some false => if repeatsNeighbour key (sortBy key l) then none else some (sortBy key l)

end

/-! ## The sort -/

variable [LE K] [Std.IsLinearOrder K] [Std.LawfulOrderLT K]

theorem sortBy_sorted (l : List α) : (sortBy key l).Pairwise fun a b => key a ≤ key b := by
  have total : Std.Total fun a b : α => ¬ key a < key b :=
    ⟨fun a b => by simpa only [Std.not_lt] using Std.le_total⟩
  have trans : IsTrans α fun a b => ¬ key a < key b :=
    ⟨fun a b c hab hbc => by
      rw [Std.not_lt] at *
      exact Std.le_trans hbc hab⟩
  rw [sortBy_eq, List.pairwise_reverse]
  refine (List.pairwise_insertionSort _ _).imp fun h => ?_
  rwa [Std.not_lt] at h

variable {key}

omit [LT K] [DecidableLT K] [Std.LawfulOrderLT K] in
/-- With different keys, the order of the keys fixes the order of the elements. -/
theorem eq_of_perm_of_sorted {l l' : List α} (hp : l.Perm l') (hn : (l.map key).Nodup)
    (h : l.Pairwise fun a b => key a ≤ key b) (h' : l'.Pairwise fun a b => key a ≤ key b) :
    l = l' := by
  refine List.Perm.eq_of_pairwise ?_ h h' hp
  intro a b ha hb hab hba
  exact List.inj_on_of_nodup_map hn ha (hp.mem_iff.mpr hb) (Std.le_antisymm hab hba)

theorem sortBy_eq_self {l : List α} (hn : (l.map key).Nodup)
    (h : l.Pairwise fun a b => key a ≤ key b) : sortBy key l = l :=
  (eq_of_perm_of_sorted (sortBy_perm key l).symm hn h (sortBy_sorted key l)).symm

theorem sortBy_eq_of_perm {l l' : List α} (hp : l.Perm l') (hn : (l.map key).Nodup) :
    sortBy key l = sortBy key l' := by
  have perm : (sortBy key l).Perm (sortBy key l') :=
    (sortBy_perm key l).trans (hp.trans (sortBy_perm key l').symm)
  refine eq_of_perm_of_sorted perm ?_ (sortBy_sorted key l) (sortBy_sorted key l')
  exact ((sortBy_perm key l).map key).nodup_iff.mpr hn

theorem sortBy_strict {l : List α} (hn : (l.map key).Nodup) :
    (sortBy key l).Pairwise fun a b => key a < key b := by
  have distinct : (sortBy key l).Pairwise fun a b => key a ≠ key b :=
    List.pairwise_map.mp (((sortBy_perm key l).map key).nodup_iff.mpr hn)
  exact ((sortBy_sorted key l).and distinct).imp fun h => Std.lt_of_le_of_ne h.1 h.2

/-! ## The passes -/

variable [DecidableEq K]

/-- A list whose first pass ends well is in strict order. -/
theorem pairwise_of_inOrder {l : List α} (h : inOrder key l = some true) :
    l.Pairwise fun a b => key a < key b := by
  induction l with
  | nil => exact .nil
  | cons left l ih =>
    cases l with
    | nil => exact List.pairwise_singleton _ _
    | cons right l =>
      unfold inOrder at h
      split_ifs at h with after same
      · cases h
      have sorted := ih h
      have next : key left < key right :=
        Std.lt_of_le_of_ne (Std.not_lt.mp after) same
      refine .cons (fun a ha => ?_) sorted
      rcases List.mem_cons.mp ha with rfl | ha
      · exact next
      · exact Std.lt_trans next (List.rel_of_pairwise_cons sorted ha)

omit [LE K] [Std.IsLinearOrder K] [Std.LawfulOrderLT K] in
theorem not_nodup_of_inOrder {l : List α} (h : inOrder key l = none) : ¬ (l.map key).Nodup := by
  induction l with
  | nil => cases h
  | cons left l ih =>
    cases l with
    | nil => cases h
    | cons right l =>
      unfold inOrder at h
      intro hn
      rw [List.map_cons, List.nodup_cons] at hn
      split_ifs at h with after same
      · exact hn.1 (same ▸ List.mem_cons_self)
      · exact ih h hn.2

omit [LT K] [DecidableLT K] [Std.LawfulOrderLT K] in
/-- In a sorted list a repeated key is found among neighbours. -/
theorem repeatsNeighbour_eq_false_iff {l : List α} (h : l.Pairwise fun a b => key a ≤ key b) :
    repeatsNeighbour key l = false ↔ (l.map key).Nodup := by
  induction l with
  | nil => simp [repeatsNeighbour]
  | cons left l ih =>
    cases l with
    | nil => simp [repeatsNeighbour]
    | cons right l =>
      have first : ¬ key left = key right ↔ key left ∉ (right :: l).map key := by
        refine not_congr ⟨fun heq => heq ▸ List.mem_cons_self, fun hmem => ?_⟩
        -- an equal key further on is not below the next one
        obtain ⟨a, ha, heq⟩ := List.mem_map.mp hmem
        have next : key left ≤ key right := List.rel_of_pairwise_cons h List.mem_cons_self
        rcases List.mem_cons.mp ha with rfl | ha
        · exact heq.symm
        · have later : key right ≤ key a := List.rel_of_pairwise_cons h.of_cons ha
          exact Std.le_antisymm next (heq ▸ later)
      rw [repeatsNeighbour, Bool.or_eq_false_iff, decide_eq_false_iff_not, ih h.of_cons, first]
      exact List.nodup_cons.symm

/-! ## Both together -/

omit [DecidableLT K] [Std.IsLinearOrder K] [DecidableEq K] in
theorem nodup_of_pairwise_lt {l : List α} (h : l.Pairwise fun a b => key a < key b) :
    (l.map key).Nodup := by
  refine List.pairwise_map.mpr (h.imp fun hab heq => ?_)
  exact Std.lt_irrefl (heq ▸ hab)

theorem canonical_eq (l : List α) :
    canonical key l = if (l.map key).Nodup then some (sortBy key l) else none := by
  unfold canonical
  rcases h : inOrder key l with _ | sorted
  · exact (if_neg (not_nodup_of_inOrder h)).symm
  cases sorted with
  | true =>
    have strict := pairwise_of_inOrder h
    have nodup := nodup_of_pairwise_lt strict
    rw [if_pos nodup, sortBy_eq_self nodup (strict.imp Std.le_of_lt)]
  | false =>
    have found := repeatsNeighbour_eq_false_iff (sortBy_sorted key l)
    rw [((sortBy_perm key l).map key).nodup_iff] at found
    by_cases nodup : (l.map key).Nodup
    · simp only [found.mpr nodup, Bool.false_eq_true, if_false, if_pos nodup]
    · have repeated : repeatsNeighbour key (sortBy key l) = true := by
        simpa using mt found.mp nodup
      simp only [repeated, if_true, if_neg nodup]

end Sorting
