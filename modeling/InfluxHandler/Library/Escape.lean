import InfluxHandler.Library.Replace

/-!
# Escaped words

`escape e special s` writes the escape symbol `e` before every special symbol of `s`. The escape
symbol itself is not special, so a word that ends in `e` hides what is written behind it; apart from
that, a reader who looks one symbol back finds the end of an escaped word (`token_escape`), and
taking the escapes away gives the word back (`unescape_escape`), in one pass or symbol by symbol
(`replaceAll_unescape`).
-/
namespace Escape
open Replace

variable {α : Type*} [DecidableEq α]

def escape (e : α) (special s : List α) : List α :=
  s.flatMap fun c => if c ∈ special then [e, c] else [c]

/-- Drop the escape symbol before every special symbol, from left to right. -/
def unescape (e : α) (special : List α) : List α → List α
  | [] => []
  | [c] => [c]
  | c :: d :: s =>
    if c = e ∧ d ∈ special then d :: unescape e special s else c :: unescape e special (d :: s)

/-- Cut a word before its first stop that has no escape symbol before it. `prev` is the symbol
before the word, if there is one. -/
def span (e : α) (stops : List α) : Option α → List α → List α × List α
  | _, [] => ([], [])
  | prev, c :: s =>
    if c ∈ stops ∧ prev ≠ some e then ([], c :: s)
    else (c :: (span e stops (some c) s).1, (span e stops (some c) s).2)

/-- Cut a word into a token and the rest. A token does not start with a symbol of `first`; its other
symbols are no stops, unless they are escaped. -/
def token (e : α) (first stops : List α) : List α → Option (List α × List α)
  | [] => none
  | c :: s =>
    if c ∈ first then none
    else some (c :: (span e stops (some c) s).1, (span e stops (some c) s).2)

section
variable {e : α} {special : List α}

@[simp] theorem escape_nil : escape e special [] = [] := rfl

theorem escape_cons (c : α) (s : List α) :
    escape e special (c :: s) = (if c ∈ special then [e, c] else [c]) ++ escape e special s := rfl

theorem escape_cons_mem {c : α} (h : c ∈ special) (s : List α) :
    escape e special (c :: s) = e :: c :: escape e special s := by
  simp [escape_cons, h]

theorem escape_cons_not_mem {c : α} (h : c ∉ special) (s : List α) :
    escape e special (c :: s) = c :: escape e special s := by
  simp [escape_cons, h]

/-- Only membership among the special symbols matters. -/
theorem escape_congr {special' : List α} {s : List α}
    (h : ∀ c ∈ s, c ∈ special ↔ c ∈ special') : escape e special s = escape e special' s :=
  List.flatMap_congr fun c hc => by simp only [h c hc]

theorem escape_eq_self {s : List α} (h : ∀ c ∈ special, c ∉ s) : escape e special s = s := by
  have none : escape e special s = escape e [] s := escape_congr fun c hc => by
    simpa using fun hs => h c hs hc
  rw [none]
  simp [escape]

@[simp] theorem escape_eq_nil_iff {s : List α} : escape e special s = [] ↔ s = [] := by
  cases s with
  | nil => simp
  | cons c s => by_cases h : c ∈ special <;> simp [escape_cons, h]

@[simp] theorem getLast?_escape (s : List α) : (escape e special s).getLast? = s.getLast? := by
  induction s with
  | nil => rfl
  | cons c s ih =>
    rw [escape_cons, List.getLast?_append, ih, List.getLast?_cons]
    cases s.getLast? with
    | none => split_ifs <;> rfl
    | some d => rfl

/-- What holds of pairs and of the symbols that are left alone, and of words put together, holds of
an escaped word. -/
theorem escape_induction {p : List α → Prop} (nil : p []) (append : ∀ {s t}, p s → p t → p (s ++ t))
    (pair : ∀ c, p [e, c]) {s : List α} (alone : ∀ c ∈ s, c ∉ special → p [c]) :
    p (escape e special s) := by
  induction s with
  | nil => exact nil
  | cons c s ih =>
    obtain ⟨hc, others⟩ := List.forall_mem_cons.mp alone
    rw [escape_cons]
    refine append ?_ (ih others)
    split_ifs with h
    · exact pair c
    · exact hc h

theorem head?_escape (s : List α) :
    (escape e special s).head? = s.head?.map fun c => if c ∈ special then e else c := by
  cases s with
  | nil => rfl
  | cons c s =>
    rw [escape_cons]
    split_ifs with h <;> simp [h]

/-- A special symbol is never first in an escaped word. -/
theorem head?_escape_ne (he : e ∉ special) {k : α} (hk : k ∈ special) (s : List α) :
    (escape e special s).head? ≠ some k := by
  intro h
  rw [head?_escape] at h
  obtain ⟨c, -, first⟩ := Option.map_eq_some_iff.mp h
  split_ifs at first with hc
  · exact he (first ▸ hk)
  · exact hc (first ▸ hk)

theorem not_mem_of_escape {s : List α} {a : α} (ha : a ∉ escape e special s) : a ∉ s := by
  contrapose! ha
  exact List.mem_flatMap.mpr ⟨a, ha, by split_ifs <;> simp⟩

/-! ## Taking the escapes away -/

theorem unescape_cons_of_ne {c : α} (h : c ≠ e) (s : List α) :
    unescape e special (c :: s) = c :: unescape e special s := by
  cases s <;> simp [unescape, h]

/-- An escape symbol that no special symbol follows is kept. -/
theorem unescape_cons_of_head? {c : α} {s : List α} (h : ∀ k ∈ special, s.head? ≠ some k) :
    unescape e special (c :: s) = c :: unescape e special s := by
  cases s with
  | nil => rfl
  | cons d s =>
    rw [unescape, if_neg]
    exact fun hd => h d hd.2 rfl

/-- A text without the escape symbol is left as it is. -/
theorem unescape_eq_self {s : List α} (h : e ∉ s) : unescape e special s = s := by
  induction s with
  | nil => rfl
  | cons c s ih =>
    rw [List.mem_cons, not_or] at h
    rw [unescape_cons_of_ne (Ne.symm h.1), ih h.2]

theorem length_unescape_le (s : List α) : (unescape e special s).length ≤ s.length := by
  fun_induction unescape e special s with
  | case1 | case2 => rfl
  | case3 c d s h ih =>
    simp only [List.length_cons]
    omega
  | case4 c d s h ih =>
    simp only [List.length_cons] at ih ⊢
    omega

theorem unescape_escape (he : e ∉ special) (s : List α) :
    unescape e special (escape e special s) = s := by
  induction s with
  | nil => rfl
  | cons c s ih =>
    by_cases h : c ∈ special
    · rw [escape_cons_mem h, unescape, if_pos ⟨rfl, h⟩, ih]
    · rw [escape_cons_not_mem h, unescape_cons_of_head? fun k hk => head?_escape_ne he hk s, ih]

/-- Where the escape symbol is special too, the word needs no condition either. -/
theorem unescape_escape_of_mem (he : e ∈ special) (s : List α) :
    unescape e special (escape e special s) = s := by
  induction s with
  | nil => rfl
  | cons c s ih =>
    by_cases h : c ∈ special
    · rw [escape_cons_mem h, unescape, if_pos ⟨rfl, h⟩, ih]
    · rw [escape_cons_not_mem h, unescape_cons_of_ne (ne_of_mem_of_not_mem he h).symm, ih]

theorem escape_eq_self_of_not_mem (he : e ∉ special) {s : List α} (h : e ∉ escape e special s) :
    escape e special s = s :=
  (unescape_eq_self h).symm.trans (unescape_escape he s)

/-! ## One special symbol after the other -/

/-- Escaping one more symbol in an escaped word. -/
theorem replaceAll_escape {k : α} (hk : k ∉ special) (hke : k ≠ e) (s : List α) :
    replaceAll [k] [e, k] (escape e special s) = escape e (k :: special) s := by
  have keep {c : α} (h : c ≠ k) (w : List α) :
      replaceAll [k] [e, k] (c :: w) = c :: replaceAll [k] [e, k] w :=
    replaceAll_step (by simpa using fun h' => h h'.symm)
  induction s with
  | nil => rfl
  | cons c s ih =>
    by_cases hc : c = k
    · subst hc
      rw [escape_cons_not_mem hk, escape_cons_mem List.mem_cons_self, ← ih]
      exact replaceAll_match (List.cons_ne_nil c []) (escape e special s)
    · by_cases h : c ∈ special
      · rw [escape_cons_mem h, escape_cons_mem (List.mem_cons_of_mem _ h), keep hke.symm,
          keep hc, ih]
      · have h' : c ∉ k :: special := by simp [hc, h]
        rw [escape_cons_not_mem h, escape_cons_not_mem h', keep hc, ih]

/-- Taking the escapes of one symbol away leaves those of the others. -/
theorem replaceAll_unescape {k : α} (hk : k ∈ special) (he : e ∉ special) (s : List α) :
    replaceAll [e, k] [k] (escape e special s) = escape e (special.filter (· ≠ k)) s := by
  have keep {c : α} {w : List α} (h : c = e → w.head? ≠ some k) :
      replaceAll [e, k] [k] (c :: w) = c :: replaceAll [e, k] [k] w := by
    refine replaceAll_step ?_
    rintro ⟨rest, hr⟩
    cases hr
    exact h rfl rfl
  induction s with
  | nil => rfl
  | cons c s ih =>
    by_cases hc : c = k
    · subst hc
      rw [escape_cons_mem hk, escape_cons_not_mem (by simp), ← ih]
      exact replaceAll_match (List.cons_ne_nil e [c]) (escape e special s)
    · by_cases h : c ∈ special
      · have hce : c ≠ e := ne_of_mem_of_not_mem h he
        rw [escape_cons_mem h, escape_cons_mem (by simp [h, hc]), keep, keep, ih]
        · exact fun h' => absurd h' hce
        · simpa using hc
      · rw [escape_cons_not_mem h, escape_cons_not_mem (by simp [h]), keep, ih]
        exact fun _ => head?_escape_ne he hk s

/-! ## Looking for the end -/

section
variable {stops : List α} {prev : Option α}

theorem span_stop {c : α} (hc : c ∈ stops) (hp : prev ≠ some e) (s : List α) :
    span e stops prev (c :: s) = ([], c :: s) :=
  if_pos ⟨hc, hp⟩

theorem span_pass {c : α} (h : c ∈ stops → prev = some e) (s : List α) :
    span e stops prev (c :: s) =
      (c :: (span e stops (some c) s).1, (span e stops (some c) s).2) :=
  if_neg fun hc => hc.2 (h hc.1)

/-- Only an escape symbol before the word makes a difference. -/
theorem span_eq_of_ne (h : prev ≠ some e) (s : List α) :
    span e stops prev s = span e stops none s := by
  cases s with
  | nil => rfl
  | cons c s => simp [span, h]

omit [DecidableEq α] in
theorem getLast?_cons_or (c : α) (s : List α) (o : Option α) :
    (c :: s).getLast?.or o = s.getLast?.or (some c) := by
  rw [List.getLast?_cons]
  cases s.getLast? <;> rfl

/-- A word that the scan passes to its end, where the next symbol is not escaped. -/
structure Block (e : α) (stops : List α) (prev : Option α) (a : List α) : Prop where
  passes : span e stops prev a = (a, [])
  visible : a.getLast?.or prev ≠ some e

/-- A symbol in front of a block. -/
theorem Block.cons {c : α} {a : List α} (h : c ∈ stops → prev = some e)
    (ha : Block e stops (some c) a) : Block e stops prev (c :: a) where
  passes := by rw [span_pass h, ha.passes]
  visible := by
    rw [getLast?_cons_or]
    exact ha.visible

theorem Block.of_cons {c : α} {a : List α} (h : Block e stops prev (c :: a)) :
    (c ∈ stops → prev = some e) ∧ Block e stops (some c) a := by
  have pass : c ∈ stops → prev = some e := by
    intro hc
    by_contra hp
    have stopped := span_stop (s := a) hc hp
    rw [h.passes] at stopped
    cases stopped
  refine ⟨pass, ⟨?_, ?_⟩⟩
  · have passes := h.passes
    rw [span_pass pass, Prod.mk.injEq, List.cons.injEq] at passes
    exact Prod.ext passes.1.2 passes.2
  · rw [← getLast?_cons_or]
    exact h.visible

/-- The scan finds a block in front of any stop. -/
theorem Block.span_append {a : List α} (h : Block e stops prev a) {c : α} (hc : c ∈ stops)
    (t : List α) : span e stops prev (a ++ c :: t) = (a, c :: t) := by
  induction a generalizing prev with
  | nil => exact span_stop hc (by simpa using h.visible) t
  | cons d a ih =>
    rw [List.cons_append, span_pass h.of_cons.1, ih h.of_cons.2]

/-- What the scan finds is a block. -/
theorem block_of_span {s a r : List α} {c : α} (h : span e stops prev s = (a, c :: r)) :
    Block e stops prev a ∧ c ∈ stops ∧ s = a ++ c :: r := by
  induction s generalizing prev a with
  | nil => cases h
  | cons d s ih =>
    by_cases hd : d ∈ stops ∧ prev ≠ some e
    · rw [span, if_pos hd] at h
      cases h
      exact ⟨⟨rfl, by simpa using hd.2⟩, hd.1, rfl⟩
    · have pass : d ∈ stops → prev = some e := fun h' => not_not.mp fun hp => hd ⟨h', hp⟩
      rw [span_pass pass, Prod.mk.injEq] at h
      obtain ⟨rfl, hr⟩ := h
      obtain ⟨block, hc, hs⟩ := ih (Prod.ext rfl hr)
      exact ⟨.cons pass block, hc, by rw [List.cons_append, ← hs]⟩

/-- An escaped word is passed, since every stop in it is escaped. -/
theorem span_escape (he : e ∉ special) (hs : stops ⊆ special) (s : List α) (prev : Option α) :
    span e stops prev (escape e special s) = (escape e special s, []) := by
  induction s generalizing prev with
  | nil => rfl
  | cons c s ih =>
    by_cases h : c ∈ special
    · rw [escape_cons_mem h, span_pass fun h' => absurd (hs h') he, span_pass fun _ => rfl, ih]
    · rw [escape_cons_not_mem h, span_pass fun h' => absurd (hs h') h, ih]

theorem block_escape (he : e ∉ special) (hs : stops ⊆ special) {s : List α}
    (hlast : s.getLast?.or prev ≠ some e) : Block e stops prev (escape e special s) :=
  ⟨span_escape he hs s prev, by rwa [getLast?_escape]⟩

theorem Block.mono {stops' : List α} (hs : stops' ⊆ stops) {a : List α}
    (h : Block e stops prev a) : Block e stops' prev a := by
  induction a generalizing prev with
  | nil => exact ⟨rfl, h.visible⟩
  | cons c a ih => exact .cons (fun hc => h.of_cons.1 (hs hc)) (ih h.of_cons.2)

theorem Block.append {a b : List α} (ha : span e stops prev a = (a, []))
    (hb : Block e stops (a.getLast?.or prev) b) : Block e stops prev (a ++ b) := by
  induction a generalizing prev with
  | nil => exact hb
  | cons c a ih =>
    by_cases hc : c ∈ stops ∧ prev ≠ some e
    · rw [span, if_pos hc] at ha
      cases ha
    · have pass : c ∈ stops → prev = some e := fun h' => not_not.mp fun hp => hc ⟨h', hp⟩
      rw [span_pass pass, Prod.mk.injEq, List.cons.injEq] at ha
      rw [getLast?_cons_or] at hb
      exact .cons pass (ih (Prod.ext ha.1.2 ha.2) hb)

/-! ## Tokens -/

structure Token (e : α) (first stops a : List α) : Prop where
  split : ∃ c w, a = c :: w ∧ c ∉ first ∧ Block e stops (some c) w

section
variable {first a : List α}

theorem Token.ne_nil (h : Token e first stops a) : a ≠ [] := by
  obtain ⟨c, w, rfl, -, -⟩ := h.split
  simp

theorem Token.visible (h : Token e first stops a) : a.getLast? ≠ some e := by
  obtain ⟨c, w, rfl, -, block⟩ := h.split
  have last := getLast?_cons_or c w none
  rw [Option.or_none] at last
  rw [last]
  exact block.visible

/-- A token is a block for the stops that it does not start with. -/
theorem Token.block {stops' : List α} (h : Token e first stops a) (hf : stops' ⊆ first)
    (hs : stops' ⊆ stops) (prev : Option α) : Block e stops' prev a := by
  obtain ⟨c, w, rfl, hc, block⟩ := h.split
  exact .cons (fun h' => absurd (hf h') hc) (block.mono hs)

/-- What is cut off before a stop is a token, and a token is cut off before every stop. -/
theorem token_eq_some_iff {s r : List α} {c : α} :
    token e first stops s = some (a, c :: r) ↔
      Token e first stops a ∧ c ∈ stops ∧ s = a ++ c :: r := by
  constructor
  · intro h
    cases s with
    | nil => cases h
    | cons d s =>
      rw [token] at h
      split_ifs at h with hd
      rw [Option.some.injEq, Prod.mk.injEq] at h
      obtain ⟨rfl, hr⟩ := h
      obtain ⟨block, hc, hs⟩ := block_of_span (Prod.ext rfl hr)
      exact ⟨⟨d, _, rfl, hd, block⟩, hc, by rw [List.cons_append, ← hs]⟩
  · rintro ⟨⟨d, w, rfl, hd, block⟩, hc, rfl⟩
    rw [List.cons_append, token, if_neg hd, block.span_append hc]

/-- An escaped word is a token, if there is one and it does not end in the escape symbol. -/
theorem token_escape (he : e ∉ special) (hf : first ⊆ special) (hs : stops ⊆ special) {s : List α}
    (hne : s ≠ []) (hlast : s.getLast? ≠ some e) : Token e first stops (escape e special s) := by
  have block : Block e stops none (escape e special s) :=
    block_escape he hs (by simpa using hlast)
  have nonempty : escape e special s ≠ [] := mt escape_eq_nil_iff.mp hne
  obtain ⟨c, w, hw⟩ := List.exists_cons_of_ne_nil nonempty
  have hc : c ∉ first := fun h => head?_escape_ne he (hf h) s (by rw [hw]; rfl)
  rw [hw] at block ⊢
  exact ⟨c, w, rfl, hc, block.of_cons.2⟩

/-- An escaped word with nothing behind it is read to its end. -/
theorem token_escape_end (he : e ∉ special) (hf : first ⊆ special) (hs : stops ⊆ special)
    {s : List α} (hne : s ≠ []) :
    token e first stops (escape e special s) = some (escape e special s, []) := by
  have whole := span_escape he hs s none
  have nonempty : escape e special s ≠ [] := mt escape_eq_nil_iff.mp hne
  obtain ⟨c, w, hw⟩ := List.exists_cons_of_ne_nil nonempty
  have special_ne {k : α} (hk : k ∈ special) : k ≠ c := fun h =>
    head?_escape_ne he hk s (by rw [hw, h]; rfl)
  rw [hw, span_pass fun h => absurd rfl (special_ne (hs h))] at whole
  rw [hw, token, if_neg fun h => special_ne (hf h) rfl, whole]

end

end

end

end Escape
