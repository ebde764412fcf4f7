import Mathlib.Data.List.Forall2

/-!
# Fallible loops and computations that leave a trace

A loop that converts its elements one by one stops at the first failure and keeps no partial
result: `mapM_eq_ok_iff` and `mapM_eq_error_iff` say so for `List.mapM` over `Except`, and
`foldlM_push` reduces an accumulator loop to that case.

`Traced ω ε α` is a computation that makes calls of type `ω` on the outside world before it
returns or fails. A failure keeps the calls made so far.
-/

universe u

section Loops
variable {α ε : Type*} {β σ : Type u}

theorem Except.mapM_cons_ok {f : α → Except ε β} {a : α} {b : β} (h : f a = .ok b) (l : List α) :
    (a :: l).mapM f = (b :: ·) <$> l.mapM f := by
  rw [List.mapM_cons, h]
  rfl

theorem Except.mapM_cons_error {f : α → Except ε β} {a : α} {e : ε} (h : f a = .error e)
    (l : List α) : (a :: l).mapM f = .error e := by
  rw [List.mapM_cons, h]
  rfl

theorem Except.map_eq_error_iff {g : β → σ} {x : Except ε β} {e : ε} :
    g <$> x = .error e ↔ x = .error e := by
  cases x <;> simp [Functor.map, Except.map]

theorem Except.map_eq_ok_iff {g : β → σ} {x : Except ε β} {c : σ} :
    g <$> x = .ok c ↔ ∃ b, x = .ok b ∧ g b = c := by
  cases x <;> simp [Functor.map, Except.map]

@[simp] theorem Except.ok_bind (b : β) (f : β → Except ε σ) :
    (.ok b : Except ε β) >>= f = f b := rfl

@[simp] theorem Except.error_bind (e : ε) (f : β → Except ε σ) :
    (.error e : Except ε β) >>= f = .error e := rfl

theorem Except.bind_eq_ok_iff {x : Except ε β} {f : β → Except ε σ} {c : σ} :
    x >>= f = .ok c ↔ ∃ b, x = .ok b ∧ f b = .ok c := by
  cases x <;> simp

theorem Except.bind_eq_error_iff {x : Except ε β} {f : β → Except ε σ} {e : ε} :
    x >>= f = .error e ↔ x = .error e ∨ ∃ b, x = .ok b ∧ f b = .error e := by
  cases x <;> simp

/-- A traversal succeeds when every element does, with the results in order. -/
theorem Except.mapM_eq_ok_iff {f : α → Except ε β} {l : List α} {r : List β} :
    l.mapM f = .ok r ↔ List.Forall₂ (fun a b => f a = .ok b) l r := by
  induction l generalizing r with
  | nil =>
    rw [List.mapM_nil, List.forall₂_nil_left_iff]
    exact ⟨fun h => (Except.ok.inj h).symm, fun h => h ▸ rfl⟩
  | cons a l ih =>
    rw [List.forall₂_cons_left_iff]
    rcases ha : f a with e | b
    · simp [mapM_cons_error ha]
    · rw [mapM_cons_ok ha, map_eq_ok_iff]
      constructor
      · rintro ⟨bs, hbs, rfl⟩
        exact ⟨b, bs, rfl, ih.mp hbs, rfl⟩
      · rintro ⟨b', bs, hb', hbs, rfl⟩
        exact ⟨bs, ih.mpr hbs, by rw [Except.ok.inj hb']⟩

/-- Traversals agree when they agree element by element. -/
theorem Except.mapM_eq_of_forall₂ {γ : Type*} {f : α → Except ε β} {g : γ → Except ε β}
    {l : List α} {l' : List γ} (h : List.Forall₂ (fun a c => f a = g c) l l') :
    l.mapM f = l'.mapM g := by
  induction h with
  | nil => rfl
  | cons head _ ih => rw [List.mapM_cons, List.mapM_cons, head, ih]

/-- A traversal that succeeded passed every element. -/
theorem Except.ok_of_mem_mapM {f : α → Except ε β} {l : List α} {r : List β} (h : l.mapM f = .ok r)
    {a : α} (ha : a ∈ l) : ∃ b, f a = .ok b := by
  have pairs := Except.mapM_eq_ok_iff.mp h
  clear h
  induction pairs with
  | nil => cases ha
  | cons hd _ ih =>
    rcases List.mem_cons.mp ha with rfl | ha
    · exact ⟨_, hd⟩
    · exact ih ha

/-- A traversal fails with the error of the first element that fails. -/
theorem Except.mapM_eq_error_iff {f : α → Except ε β} {l : List α} {e : ε} :
    l.mapM f = .error e ↔
      ∃ pre a post, l = pre ++ a :: post ∧ (∀ x ∈ pre, ∃ b, f x = .ok b) ∧ f a = .error e := by
  induction l with
  | nil => simp [pure, Except.pure]
  | cons a l ih =>
    rcases ha : f a with e' | b
    · -- the head fails, so no other element is reached
      rw [mapM_cons_error ha]
      constructor
      · intro h
        exact ⟨[], a, l, rfl, by simp, Except.error.inj h ▸ ha⟩
      · rintro ⟨_ | ⟨c, pre⟩, d, post, split, before, here⟩
        · cases split
          rw [Except.error.inj (ha.symm.trans here)]
        · cases split
          obtain ⟨b, hb⟩ := before _ List.mem_cons_self
          cases ha.symm.trans hb
    · rw [mapM_cons_ok ha, map_eq_error_iff, ih]
      constructor
      · rintro ⟨pre, c, post, rfl, before, here⟩
        refine ⟨a :: pre, c, post, rfl, ?_, here⟩
        rintro x (_ | ⟨_, hx⟩)
        · exact ⟨b, ha⟩
        · exact before x hx
      · rintro ⟨_ | ⟨d, pre⟩, c, post, split, before, here⟩
        · cases split
          cases ha.symm.trans here
        · cases split
          exact ⟨pre, c, post, rfl, fun x hx => before x (List.mem_cons_of_mem _ hx), here⟩

/-- An accumulator loop that pushes each converted element is a traversal followed by the pushes. -/
theorem Except.foldlM_push (f : α → Except ε β) (push : σ → β → σ) (l : List α) (s : σ) :
    l.foldlM (fun s a => (push s ·) <$> f a) s = (fun bs => bs.foldl push s) <$> l.mapM f := by
  induction l generalizing s with
  | nil => rfl
  | cons a l ih =>
    rw [List.foldlM_cons]
    rcases ha : f a with e | b
    · rw [mapM_cons_error ha]
      rfl
    · rw [mapM_cons_ok ha]
      change l.foldlM _ (push s b) = _
      rw [ih]
      rcases l.mapM f with e | bs <;> rfl

/-- A traversal that finds something for every element. -/
theorem Option.mapM_eq_some {f : α → Option β} {g : α → β} {l : List α}
    (h : ∀ a ∈ l, f a = some (g a)) : l.mapM f = some (l.map g) := by
  induction l with
  | nil => rfl
  | cons a l ih =>
    rw [List.forall_mem_cons] at h
    rw [List.mapM_cons, h.1, ih h.2]
    rfl

end Loops

/-- The calls a computation made, and how it ended. -/
structure Traced (ω ε α : Type*) where
  calls : List ω
  result : Except ε α

namespace Traced
variable {ω ε : Type*} {α β : Type u}

@[ext] theorem ext {x y : Traced ω ε α} (hc : x.calls = y.calls) (hr : x.result = y.result) :
    x = y := by
  cases x; cases y; simp_all

instance : Monad (Traced ω ε) where
  pure a := ⟨[], .ok a⟩
  bind x f := match x.result with
    | .ok a => ⟨x.calls ++ (f a).calls, (f a).result⟩
    | .error e => ⟨x.calls, .error e⟩

/-- A computation that makes no call. -/
def lift (x : Except ε α) : Traced ω ε α := ⟨[], x⟩

/-- Make one call. -/
def call (c : ω) : Traced ω ε Unit := ⟨[c], .ok ()⟩

def fail (e : ε) : Traced ω ε α := lift (.error e)

@[simp] theorem pure_eq (a : α) : (pure a : Traced ω ε α) = ⟨[], .ok a⟩ := rfl
@[simp] theorem lift_ok (a : α) : (lift (.ok a) : Traced ω ε α) = ⟨[], .ok a⟩ := rfl
@[simp] theorem lift_error (e : ε) : (lift (.error e) : Traced ω ε α) = ⟨[], .error e⟩ := rfl
@[simp] theorem fail_eq (e : ε) : (fail e : Traced ω ε α) = ⟨[], .error e⟩ := rfl

theorem lift_bind (x : Except ε α) (f : α → Except ε β) :
    (lift (x >>= f) : Traced ω ε β) = lift x >>= fun a => lift (f a) := by
  cases x <;> rfl

/-- A computation that succeeds hands its value on and its calls come first. -/
@[simp] theorem ok_bind (cs : List ω) (a : α) (f : α → Traced ω ε β) :
    (⟨cs, .ok a⟩ : Traced ω ε α) >>= f = ⟨cs ++ (f a).calls, (f a).result⟩ := rfl

/-- A failure is final: nothing after it is called. -/
@[simp] theorem error_bind (cs : List ω) (e : ε) (f : α → Traced ω ε β) :
    (⟨cs, .error e⟩ : Traced ω ε α) >>= f = ⟨cs, .error e⟩ := rfl

instance : LawfulMonad (Traced ω ε) := LawfulMonad.mk' _
  (by rintro α ⟨cs, e | a⟩ <;> simp [Functor.map])
  (by intro α β a f; rfl)
  (by
    rintro α β γ ⟨cs, e | a⟩ f g
    · rfl
    · rcases h : f a with ⟨ds, e | b⟩ <;> simp [h])

end Traced
