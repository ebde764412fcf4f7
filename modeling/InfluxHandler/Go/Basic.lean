import InfluxHandler.Library.KeyedMap

/-!
# Go values and the runtime's choices

Strings and byte slices are byte lists; a pointer is an `Option`. A function that returns an
`error` returns `Except GoError`, and where a nil pointer can be dereferenced it returns
`Except Stop`.

Two things are left open by the language: the order in which `range` visits a map, and which
sorted permutation `sort.Sort` returns for elements that compare equal. A `Runtime` is one way
to settle both; results about the program hold for each of them.
-/
namespace InfluxHandler.Go

abbrev Bytes := List UInt8

/-- The bytes of a string literal. -/
def str (s : String) : Bytes := s.toUTF8.data.toList

abbrev Byte.newline : UInt8 := 10
abbrev Byte.space : UInt8 := 32
abbrev Byte.quote : UInt8 := 34
abbrev Byte.hash : UInt8 := 35
abbrev Byte.comma : UInt8 := 44
abbrev Byte.minus : UInt8 := 45
abbrev Byte.dot : UInt8 := 46
abbrev Byte.equals : UInt8 := 61
abbrev Byte.backslash : UInt8 := 92

inductive NumErr where
  | badSyntax
  | outOfRange
  deriving DecidableEq, Repr

/-- An `error` value: a text, or the `*strconv.NumError` of a failed `ParseInt`. -/
inductive GoError where
  | text (message : Bytes)
  | parseInt (input : Bytes) (reason : NumErr)
  deriving DecidableEq, Repr

/-- How a function ends when it does not return a value: with an error, or in a panic. -/
inductive Stop where
  | err (e : GoError)
  | nilDereference
  deriving DecidableEq, Repr

/-- `if err != nil { return err }`. -/
def check {α : Type} (x : Except GoError α) : Except Stop α := x.mapError .err

/-- Read through a pointer. -/
def deref {α : Type} : Option α → Except Stop α
  | some a => .ok a
  | none => .error .nilDereference

@[simp] theorem check_ok {α : Type} (a : α) : check (.ok a) = .ok a := rfl
@[simp] theorem check_error {α : Type} (e : GoError) :
    (check (.error e) : Except Stop α) = .error (.err e) := rfl
@[simp] theorem deref_some {α : Type} (a : α) : deref (some a) = .ok a := rfl
@[simp] theorem deref_none {α : Type} : (deref none : Except Stop α) = .error .nilDereference := rfl

theorem check_eq_ok_iff {α : Type} {x : Except GoError α} {a : α} :
    check x = .ok a ↔ x = .ok a := by
  cases x <;> simp

/-! ## strings -/

/-- `strings.Split` at a separator of one byte. -/
def split (s : Bytes) (sep : UInt8) : List Bytes := s.splitOn sep

/-- `strings.Join`. -/
def join (a : List Bytes) (sep : Bytes) : Bytes := sep.intercalate a

/-- `bytes.Compare(a, b) == -1`. -/
def less (a b : Bytes) : Bool := decide (a < b)

/-! ## The runtime -/

open KeyedMap

/-- What `sort.Interface` asks of `Less`: a strict weak order. -/
structure StrictWeak {α : Type} (less : α → α → Bool) : Prop where
  asymm : ∀ a b, less a b = true → less b a = false
  negTrans : ∀ a b c, less a b = false → less b c = false → less a c = false

structure Runtime where
  /-- The entries of a map in the order in which `range` visits them. -/
  range : {V : Type} → Map Bytes V → List (Σ _ : Bytes, V)
  range_enumerates : ∀ {V : Type} (m : Map Bytes V), Enumerates (range m) m
  /-- `sort.Sort`, which is not stable. -/
  sort : {α : Type} → (α → α → Bool) → List α → List α
  sort_perm : ∀ {α : Type} (less : α → α → Bool) (l : List α), (sort less l).Perm l
  sort_sorted : ∀ {α : Type} (less : α → α → Bool) (l : List α), StrictWeak less →
    (sort less l).Pairwise fun a b => less b a = false

theorem less_eq_false_iff {a b : Bytes} : less a b = false ↔ b ≤ a := by
  simp [less]

theorem strictWeak_less : StrictWeak less where
  asymm a b h := by
    rw [less_eq_false_iff]
    exact Std.le_of_lt (of_decide_eq_true h)
  negTrans a b c hab hbc := by
    rw [less_eq_false_iff] at *
    exact Std.le_trans hbc hab

theorem StrictWeak.on {α β : Type} {less : β → β → Bool} (h : StrictWeak less) (key : α → β) :
    StrictWeak fun a b => less (key a) (key b) where
  asymm a b := h.asymm (key a) (key b)
  negTrans a b c := h.negTrans (key a) (key b) (key c)

/-- A sort that a runtime may use. -/
def insertionSort {α : Type} (less : α → α → Bool) (l : List α) : List α :=
  l.insertionSort fun a b => less b a = false

theorem insertionSort_sorted {α : Type} {less : α → α → Bool} (h : StrictWeak less) (l : List α) :
    (insertionSort less l).Pairwise fun a b => less b a = false := by
  have : Std.Total fun a b : α => less b a = false := ⟨fun a b => by
    cases hba : less b a
    · exact .inl rfl
    · exact .inr (h.asymm _ _ hba)⟩
  have : IsTrans α fun a b => less b a = false := ⟨fun a b c hab hbc => h.negTrans c b a hbc hab⟩
  exact List.pairwise_insertionSort _ l

/-- Listing a map by increasing key does not depend on how the map was written. -/
theorem insertionSort_eq_of_perm {V : Type} {l l' : List (Σ _ : Bytes, V)} (hn : l.NodupKeys)
    (h : l.Perm l') :
    insertionSort (fun a b => less a.1 b.1) l = insertionSort (fun a b => less a.1 b.1) l' := by
  let m : Map Bytes V := ⟨l, hn⟩
  have hl : Enumerates l m := rfl
  have sorted (l : List (Σ _ : Bytes, V)) :
      (insertionSort (fun a b => less a.1 b.1) l).Pairwise fun a b => a.1 ≤ b.1 := by
    simpa only [less_eq_false_iff] using insertionSort_sorted (strictWeak_less.on Sigma.fst) l
  exact eq_of_enumerates_of_sorted (fun _ _ => List.le_antisymm)
    (hl.of_perm (List.perm_insertionSort _ l))
    ((hl.of_perm h.symm).of_perm (List.perm_insertionSort _ l')) (sorted l) (sorted l')

/-- The runtime that visits maps by increasing key. -/
def Runtime.ordered : Runtime where
  range m := m.liftOn (fun s => insertionSort (fun a b => less a.1 b.1) s.entries)
    (fun s _ h => insertionSort_eq_of_perm s.nodupKeys h)
  range_enumerates m := by
    induction m using Finmap.induction_on with
    | H s => exact Multiset.coe_eq_coe.mpr (List.perm_insertionSort _ _)
  sort := insertionSort
  sort_perm _ l := List.perm_insertionSort _ l
  sort_sorted _ l h := insertionSort_sorted h l

end InfluxHandler.Go
