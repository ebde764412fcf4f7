import Mathlib.Data.Finmap
import Mathlib.Data.List.Sort

/-!
# Finite maps written key by key and listed in sorted order

A map that is filled by a loop of assignments sends each key to the value assigned last
(`lookup_insertAll`), so the assignments can be reordered as long as those to one key keep their
order (`StablePerm`). Listing a map visits each of its entries once, in an order that is not
specified; once the list is sorted by key, nothing of that order is left
(`eq_of_enumerates_of_sorted`), even when the sort is not stable.
-/
namespace KeyedMap

variable {K V : Type*}

/-- A map without dependent values. -/
abbrev Map (K V : Type*) := Finmap fun _ : K => V

section Assignment
variable [DecidableEq K]

/-- Assign the listed pairs from left to right. -/
def insertAll (m : Map K V) (l : List (K × V)) : Map K V :=
  l.foldl (fun m p => m.insert p.1 p.2) m

/-- The value of the last pair that has the key `k`. -/
def lastValue (l : List (K × V)) (k : K) : Option V :=
  ((l.filter fun p => p.1 = k).getLast?).map Prod.snd

@[simp] theorem lastValue_nil (k : K) : lastValue ([] : List (K × V)) k = none := rfl

theorem lastValue_append (l l' : List (K × V)) (k : K) :
    lastValue (l ++ l') k = (lastValue l' k).or (lastValue l k) := by
  simp only [lastValue, List.filter_append, List.getLast?_append]
  cases ((l'.filter fun p => p.1 = k).getLast?) <;> simp

@[simp] theorem lastValue_singleton (p : K × V) (k : K) :
    lastValue [p] k = if p.1 = k then some p.2 else none := by
  unfold lastValue
  by_cases h : p.1 = k <;> simp [h]

theorem lastValue_cons (p : K × V) (l : List (K × V)) (k : K) :
    lastValue (p :: l) k = (lastValue l k).or (if p.1 = k then some p.2 else none) := by
  rw [← List.singleton_append, lastValue_append, lastValue_singleton]

theorem mem_of_lastValue_eq_some {l : List (K × V)} {k : K} {v : V} (h : lastValue l k = some v) :
    (k, v) ∈ l := by
  obtain ⟨⟨k', v'⟩, hp, rfl⟩ := Option.map_eq_some_iff.mp h
  have hm := List.mem_of_getLast? hp
  simp only [List.mem_filter, decide_eq_true_eq] at hm
  obtain ⟨hl, rfl⟩ := hm
  exact hl

/-- The last assignment to a key wins; the other keys keep the value they had before the loop. -/
theorem lookup_insertAll (m : Map K V) (l : List (K × V)) (k : K) :
    (insertAll m l).lookup k = (lastValue l k).or (m.lookup k) := by
  induction l using List.reverseRecOn with
  | nil => simp [insertAll]
  | append_singleton l p ih =>
    have last : insertAll m (l ++ [p]) = (insertAll m l).insert p.1 p.2 := by simp [insertAll]
    rw [last, lastValue_append, lastValue_singleton]
    by_cases h : p.1 = k
    · subst h
      simp [Finmap.lookup_insert]
    · rw [Finmap.lookup_insert_of_ne _ (Ne.symm h), ih]
      simp [h]

/-- The second list is the first in another order, in which the elements of one key keep theirs. -/
structure StablePerm {α : Type*} (key : α → K) (l l' : List α) : Prop where
  perm : l.Perm l'
  order : ∀ k, l.filter (key · = k) = l'.filter (key · = k)

section
variable {α β : Type*}

theorem StablePerm.refl (key : α → K) (l : List α) : StablePerm key l l :=
  ⟨.refl l, fun _ => rfl⟩

/-- Neighbours of different keys can be exchanged. -/
theorem StablePerm.swap {key : α → K} {a b : α} (h : key a ≠ key b) (l : List α) :
    StablePerm key (a :: b :: l) (b :: a :: l) where
  perm := .swap b a l
  order k := by
    by_cases ha : key a = k
    · have hb : key b ≠ k := fun hb => h (ha.trans hb.symm)
      simp [ha, hb]
    · simp [List.filter_cons, ha]

/-- Elements without a key may be dropped on the way. -/
theorem StablePerm.filterMap {key : α → Option K} {key' : β → K} {f : α → Option β}
    (hf : ∀ a b, f a = some b → key a = some (key' b)) {l l' : List α} (h : StablePerm key l l') :
    StablePerm key' (l.filterMap f) (l'.filterMap f) where
  perm := h.perm.filterMap f
  order k := by
    have kept (l : List α) : (l.filterMap f).filter (key' · = k) =
        (l.filter (key · = some k)).filterMap f := by
      rw [List.filter_filterMap, List.filterMap_filter]
      refine List.filterMap_congr fun a _ => ?_
      rcases ha : f a with _ | b
      · simp
      · rw [hf a b ha]
        by_cases hb : key' b = k <;> simp [hb]
    rw [kept, kept, h.order]

end

/-- The last value of each key survives. -/
theorem StablePerm.lastValue_eq {l l' : List (K × V)} (h : StablePerm Prod.fst l l') (k : K) :
    lastValue l k = lastValue l' k := by
  rw [lastValue, lastValue, h.order]

end Assignment

section Listing

/-- The list has each entry of the map once, in some order. -/
def Enumerates (l : List (Σ _ : K, V)) (m : Map K V) : Prop := (l : Multiset _) = m.entries

theorem Enumerates.perm {l l' : List (Σ _ : K, V)} {m : Map K V} (h : Enumerates l m)
    (h' : Enumerates l' m) : l.Perm l' := Multiset.coe_eq_coe.mp (h.trans h'.symm)

theorem Enumerates.of_perm {l l' : List (Σ _ : K, V)} {m : Map K V} (h : Enumerates l m)
    (hp : l'.Perm l) : Enumerates l' m := (Multiset.coe_eq_coe.mpr hp).trans h

theorem Enumerates.nodupKeys {l : List (Σ _ : K, V)} {m : Map K V} (h : Enumerates l m) :
    l.NodupKeys := by
  have := m.nodupKeys
  rw [← h] at this
  exact Multiset.coe_nodupKeys.mp this

theorem Enumerates.mem_iff [DecidableEq K] {l : List (Σ _ : K, V)} {m : Map K V}
    (h : Enumerates l m) {k : K} {v : V} : ⟨k, v⟩ ∈ l ↔ m.lookup k = some v := by
  rw [← Multiset.mem_coe, h, ← Finmap.mem_lookup_iff]
  rfl

/-- No key is listed twice, so the last value of a key is its only one. -/
theorem Enumerates.lastValue_eq [DecidableEq K] {l : List (Σ _ : K, V)} {m : Map K V}
    (h : Enumerates l m) (k : K) : lastValue (l.map fun e => (e.1, e.2)) k = m.lookup k := by
  cases hl : lastValue (l.map fun e => (e.1, e.2)) k with
  | some v =>
    obtain ⟨e, he, pair⟩ := List.mem_map.mp (mem_of_lastValue_eq_some hl)
    cases pair
    exact (h.mem_iff.mp he).symm
  | none =>
    cases hv : m.lookup k with
    | none => rfl
    | some v =>
      have listed : (k, v) ∈ l.map fun e => (e.1, e.2) := List.mem_map.mpr ⟨_, h.mem_iff.mpr hv, rfl⟩
      have found : ((l.map fun e => (e.1, e.2)).filter fun p => p.1 = k).getLast? = none :=
        Option.map_eq_none_iff.mp hl
      rw [List.getLast?_eq_none_iff, List.filter_eq_nil_iff] at found
      exact absurd (decide_eq_true rfl) (found _ listed)

theorem of_lookup_singleton [DecidableEq K] {a k : K} {b v : V}
    (h : (Finmap.singleton a b : Map K V).lookup k = some v) : k = a ∧ v = b := by
  have listed : Enumerates [⟨a, b⟩] (Finmap.singleton a b : Map K V) := rfl
  cases List.mem_singleton.mp (listed.mem_iff.mpr h)
  exact ⟨rfl, rfl⟩

theorem Enumerates.singleton {l : List (Σ _ : K, V)} {k : K} {v : V}
    (h : Enumerates l (Finmap.singleton k v)) : l = [⟨k, v⟩] :=
  List.perm_singleton.mp (Multiset.coe_eq_coe.mp h)

/-- Two sorted listings of one map are the same list: no two entries share a key, so the order
of the keys is the order of the entries. -/
theorem eq_of_enumerates_of_sorted {le : K → K → Prop}
    (antisymm : ∀ a b, le a b → le b a → a = b) {l l' : List (Σ _ : K, V)} {m : Map K V}
    (h : Enumerates l m) (h' : Enumerates l' m) (hs : l.Pairwise fun a b => le a.1 b.1)
    (hs' : l'.Pairwise fun a b => le a.1 b.1) : l = l' := by
  refine List.Perm.eq_of_pairwise ?_ hs hs' (h.perm h')
  rintro ⟨a, v⟩ ⟨b, w⟩ ha hb hab hba
  obtain rfl := antisymm a b hab hba
  have hb' := (h.perm h').symm.subset hb
  rw [List.NodupKeys.eq_of_mk_mem h.nodupKeys ha hb']

/-- Sorted listings of two maps agree on the entries that have a value of the kind `q`, if the maps do. -/
theorem filter_eq_of_sorted [DecidableEq K] {le : K → K → Prop}
    (antisymm : ∀ a b, le a b → le b a → a = b) {l l' : List (Σ _ : K, V)} {m m' : Map K V}
    (h : Enumerates l m) (h' : Enumerates l' m') (hs : l.Pairwise fun a b => le a.1 b.1)
    (hs' : l'.Pairwise fun a b => le a.1 b.1) {q : V → Bool}
    (same : ∀ k v, q v = true → (m.lookup k = some v ↔ m'.lookup k = some v)) :
    l.filter (fun e => q e.2) = l'.filter fun e => q e.2 := by
  have perm : (l.filter fun e => q e.2).Perm (l'.filter fun e => q e.2) := by
    rw [List.perm_ext_iff_of_nodup (h.nodupKeys.nodup.filter _) (h'.nodupKeys.nodup.filter _)]
    rintro ⟨k, v⟩
    rw [List.mem_filter, List.mem_filter, h.mem_iff, h'.mem_iff]
    exact and_congr_left fun kind => same k v kind
  refine List.Perm.eq_of_pairwise ?_ (hs.filter _) (hs'.filter _) perm
  rintro ⟨a, v⟩ ⟨b, w⟩ ha hb hab hba
  obtain rfl := antisymm a b hab hba
  have hb' := perm.symm.subset hb
  rw [List.NodupKeys.eq_of_mk_mem h.nodupKeys (List.mem_of_mem_filter ha) (List.mem_of_mem_filter hb')]

/-- Filling a map with what is made of the entries of another, each key by itself. -/
theorem lookup_insertAll_filterMap [DecidableEq K] {W : Type*} {l : List (Σ _ : K, V)} {m : Map K V}
    (h : Enumerates l m) (f : V → Option W) (k : K) :
    (insertAll ∅ (l.filterMap fun e => (f e.2).map (e.1, ·))).lookup k = (m.lookup k).bind f := by
  have made {w : W} (hw : (k, w) ∈ l.filterMap fun e => (f e.2).map (e.1, ·)) :
      (m.lookup k).bind f = some w := by
    obtain ⟨⟨k', v⟩, he, hf⟩ := List.mem_filterMap.mp hw
    obtain ⟨w', hw', heq⟩ := Option.map_eq_some_iff.mp hf
    cases heq
    rw [h.mem_iff.mp he, Option.bind_some, hw']
  rw [lookup_insertAll, Finmap.lookup_empty, Option.or_none]
  rcases hl : lastValue (l.filterMap fun e => (f e.2).map (e.1, ·)) k with _ | w <;> rw [hl]
  · -- no pair has the key, so the entry is missing or nothing is made of it
    rcases hv : m.lookup k with _ | v
    · rfl
    · rcases hw : f v with _ | w
      · rw [Option.bind_some, hw]
      · have pair : (k, w) ∈ l.filterMap fun e => (f e.2).map (e.1, ·) :=
          List.mem_filterMap.mpr ⟨⟨k, v⟩, h.mem_iff.mpr hv, by simp [hw]⟩
        have none := List.getLast?_eq_none_iff.mp (Option.map_eq_none_iff.mp hl)
        exact absurd pair fun mem => by simpa using List.filter_eq_nil_iff.mp none _ mem
  · exact (made (mem_of_lastValue_eq_some hl)).symm

end Listing

/-! ## Grouping -/

section Grouping
variable [DecidableEq K] {α : Type*} (key : α → K)

/-- Append an element to the group of its key. -/
def appendTo (m : Map K (List α)) (a : α) : Map K (List α) :=
  m.insert (key a) ((m.lookup (key a)).getD [] ++ [a])

/-- The groups of a list; each keeps the order of the list. -/
def group (l : List α) : Map K (List α) := l.foldl (appendTo key) ∅

theorem group_concat (l : List α) (a : α) :
    group key (l ++ [a]) = appendTo key (group key l) a := List.foldl_concat _ _ _ _

/-- Only the key of the element matters. -/
theorem appendTo_congr {key key' : α → K} {a : α} (h : key a = key' a) (m : Map K (List α)) :
    appendTo key m a = appendTo key' m a := by
  rw [appendTo, appendTo, h]

theorem lookup_group (l : List α) (k : K) :
    (group key l).lookup k =
      if l.filter (key · = k) = [] then none else some (l.filter (key · = k)) := by
  induction l using List.reverseRecOn with
  | nil => rfl
  | append_singleton l a ih =>
    rw [group_concat, appendTo, List.filter_append]
    by_cases h : key a = k
    · subst h
      rw [Finmap.lookup_insert, ih]
      by_cases empty : l.filter (key · = key a) = [] <;> simp [empty]
    · rw [Finmap.lookup_insert_of_ne _ (Ne.symm h), ih]
      simp [h]

/-- Putting the groups one after the other gives the list in another order. -/
theorem flatMap_filter_perm {l : List α} {ks : List K} (hn : ks.Nodup) (h : ∀ a ∈ l, key a ∈ ks) :
    (ks.flatMap fun k => l.filter (key · = k)).Perm l := by
  induction ks generalizing l with
  | nil =>
    have empty : l = [] := List.eq_nil_iff_forall_not_mem.mpr fun a ha => by simpa using h a ha
    rw [empty]
    rfl
  | cons k ks ih =>
    rw [List.nodup_cons] at hn
    have others : ∀ a ∈ l.filter fun a => !decide (key a = k), key a ∈ ks := by
      intro a ha
      obtain ⟨mem, ne⟩ := List.mem_filter.mp ha
      exact (List.mem_cons.mp (h a mem)).resolve_left (by simpa using ne)
    have rest : (ks.flatMap fun k' => l.filter (key · = k')) =
        ks.flatMap fun k' => (l.filter fun a => !decide (key a = k)).filter (key · = k') := by
      refine List.flatMap_congr fun k' hk' => ?_
      rw [List.filter_filter]
      refine List.filter_congr fun a _ => ?_
      have ne : k' ≠ k := fun h => hn.1 (h ▸ hk')
      by_cases same : key a = k' <;> simp [same, ne]
    rw [List.flatMap_cons, rest]
    exact ((ih hn.2 others).append_left _).trans (List.filter_append_perm _ l)

/-- No element is lost or repeated by grouping. -/
theorem Enumerates.group_perm {l : List α} {e : List (Σ _ : K, List α)}
    (h : Enumerates e (group key l)) : (e.flatMap Sigma.snd).Perm l := by
  have groups : e.flatMap Sigma.snd = (e.map Sigma.fst).flatMap fun k => l.filter (key · = k) := by
    rw [List.flatMap_map]
    refine List.flatMap_congr fun x hx => ?_
    have found := h.mem_iff.mp hx
    rw [lookup_group] at found
    split_ifs at found
    exact (Option.some.inj found).symm
  rw [groups]
  refine flatMap_filter_perm key h.nodupKeys fun a ha => ?_
  have found := lookup_group key l (key a)
  rw [if_neg fun none => by simpa using List.filter_eq_nil_iff.mp none a ha] at found
  exact List.mem_map.mpr ⟨_, h.mem_iff.mpr found, rfl⟩

end Grouping

end KeyedMap
