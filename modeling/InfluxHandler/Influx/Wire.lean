import InfluxHandler.Influx.Values

/-!
# Lines from a client to the server

A client writes a point as one line; the server cuts the body into lines and reads them again. Two
scanners run over the same text, `scanLine` to find its end and `scanFields` to check its form, and
both count quotes, commas and equals signs on their own. The first two sections say how they get
over each part of a line; module `Receive` puts the parts together.
-/
namespace InfluxHandler.Influx
open Go Escape

/-! ## Names -/

/-- A name that keeps its form on the way: it has no backslash, which would escape what is written
behind it, and no newline, which ends the line. -/
structure Clean (s : Bytes) : Prop where
  ne_nil : s ≠ []
  backslash : Byte.backslash ∉ s
  newline : Byte.newline ∉ s

/-- At the start of a block a tab or a zero byte would be skipped. -/
structure Shown (s : Bytes) : Prop extends Clean s where
  head : s.head? ≠ some 9 ∧ s.head? ≠ some 0

instance (s : Bytes) : Decidable (Clean s) :=
  decidable_of_iff (s ≠ [] ∧ Byte.backslash ∉ s ∧ Byte.newline ∉ s)
    ⟨fun h => ⟨h.1, h.2.1, h.2.2⟩, fun h => ⟨h.1, h.2, h.3⟩⟩

instance (s : Bytes) : Decidable (Shown s) :=
  decidable_of_iff (Clean s ∧ s.head? ≠ some 9 ∧ s.head? ≠ some 0)
    ⟨fun h => ⟨h.1, h.2⟩, fun h => ⟨h.1, h.2⟩⟩

theorem Clean.readable {s : Bytes} (h : Clean s) : Readable s :=
  ⟨h.ne_nil, fun last => h.backslash (List.mem_of_getLast? last)⟩

theorem Shown.visible {s : Bytes} (h : Shown s) : Visible s := ⟨h.readable, h.head⟩

/-! ## The fields of a line -/

/-- The loop of `scanFields` runs over `s` before `t`, from one state to the other. It takes no more
fuel than bytes. -/
def Parser.Passes (P : Parser) (st : FieldsScan) (back s t : Bytes) (st' : FieldsScan) : Prop :=
  ∀ fuel, (s ++ t).length ≤ fuel → ∃ fuel', t.length ≤ fuel' ∧
    P.scanFieldsLoop fuel st back (s ++ t) = P.scanFieldsLoop fuel' st' (s.reverse ++ back) t

section
variable {P : Parser} {st st' st'' : FieldsScan} {back s t : Bytes}

theorem Parser.Passes.nil : P.Passes st back [] t st := fun fuel hf => ⟨fuel, hf, rfl⟩

theorem Parser.Passes.append {s' : Bytes} (h : P.Passes st back s (s' ++ t) st')
    (h' : P.Passes st' (s.reverse ++ back) s' t st'') : P.Passes st back (s ++ s') t st'' := by
  intro fuel hf
  rw [List.append_assoc] at hf ⊢
  obtain ⟨fuel, hf, first⟩ := h fuel hf
  obtain ⟨fuel, hf, second⟩ := h' fuel hf
  refine ⟨fuel, hf, ?_⟩
  rw [first, second, List.reverse_append, List.append_assoc]

/-- One turn of the loop. -/
theorem Parser.Passes.of_turn {c : UInt8}
    (h : ∀ fuel, P.scanFieldsLoop (fuel + 1) st back (c :: s ++ t) =
      P.scanFieldsLoop fuel st' ((c :: s).reverse ++ back) t) :
    P.Passes st back (c :: s) t st' := by
  intro fuel hf
  simp only [List.cons_append, List.length_cons, List.length_append] at hf
  obtain ⟨fuel, rfl⟩ : ∃ n, fuel = n + 1 := ⟨fuel - 1, by omega⟩
  exact ⟨fuel, by omega, h fuel⟩

theorem Parser.passes_pair (c : UInt8) : P.Passes st back [Byte.backslash, c] t st :=
  .of_turn fun _ => if_pos ⟨rfl, List.cons_ne_nil c t⟩

theorem Parser.passes_quote (h : st.commas < st.equals) :
    P.Passes st back [Byte.quote] t { st with quoted := !st.quoted } :=
  .of_turn fun _ => (if_neg fun h => absurd h.1 (by decide)).trans (if_pos ⟨rfl, h⟩)

theorem Parser.passes_comma (h : st.quoted = false) :
    P.Passes st back [Byte.comma] t { st with commas := st.commas + 1 } :=
  have other {k : UInt8} {p : Prop} (hk : Byte.comma ≠ k) : ¬ (Byte.comma = k ∧ p) :=
    fun h => hk h.1
  .of_turn fun _ => (if_neg (other (by decide))).trans <| (if_neg (other (by decide))).trans <|
    (if_neg (other (by decide))).trans (if_pos ⟨rfl, h⟩)

/-- A byte that means nothing in this state. -/
theorem Parser.passes_byte {c : UInt8} (hb : c ≠ Byte.backslash)
    (hq : c = Byte.quote → ¬ st.commas < st.equals)
    (h : c = Byte.equals ∨ c = Byte.comma ∨ c = Byte.space → st.quoted = true) :
    P.Passes st back [c] t st := by
  refine .of_turn fun fuel => ?_
  have marks {k : UInt8} (hk : k = Byte.equals ∨ k = Byte.comma ∨ k = Byte.space) :
      ¬ (c = k ∧ st.quoted = false) := by
    rintro ⟨rfl, plain⟩
    cases plain.symm.trans (h hk)
  rw [List.singleton_append, Parser.scanFieldsLoop, if_neg fun h => hb h.1,
    if_neg fun h' => hq h'.1 h'.2, if_neg (marks (.inl rfl)), if_neg (marks (.inr (.inl rfl))),
    if_neg (marks (.inr (.inr rfl)))]
  rfl

/-- A text is passed if the bytes that are left without a backslash are. -/
theorem Parser.passes_escape {special : Bytes} {s : Bytes}
    (h : ∀ c ∈ s, c ∉ special → ∀ back t, P.Passes st back [c] t st) (back t : Bytes) :
    P.Passes st back (escape Byte.backslash special s) t st :=
  escape_induction (p := fun s => ∀ back t, P.Passes st back s t st) (fun _ _ => .nil)
    (fun hs ht back t => (hs back _).append (ht _ t)) (fun c _ _ => Parser.passes_pair c) h back t

/-- An equals sign and a value that is passed at once. -/
theorem Parser.passes_start (hq : st.quoted = false) (h : P.scanFieldStart back (s ++ t) = .ok t) :
    P.Passes st back (Byte.equals :: s) t { st with equals := st.equals + 1 } := by
  have other {k : UInt8} {p : Prop} (hk : Byte.equals ≠ k) : ¬ (Byte.equals = k ∧ p) :=
    fun h => hk h.1
  refine .of_turn fun fuel => ?_
  rw [List.cons_append, Parser.scanFieldsLoop, if_neg (other (by decide)),
    if_neg (other (by decide)), if_pos ⟨rfl, hq⟩, h, Except.ok_bind, upTo_append]
  simp

/-- An equals sign before a quote. -/
theorem Parser.passes_open (hq : st.quoted = false)
    (h : P.scanFieldStart back t = .ok t) :
    P.Passes st back [Byte.equals] t { st with equals := st.equals + 1 } :=
  Parser.passes_start hq h

/-- Between quotes a string is passed, whatever bytes it has. -/
theorem Parser.passes_escapeStringField (hq : st.quoted = true) (s back t : Bytes) :
    P.Passes st back (escapeStringField s) t st := by
  rw [escapeStringField_eq]
  refine Parser.passes_escape (fun c _ hc back t => ?_) back t
  simp only [List.mem_cons, List.not_mem_nil, or_false, not_or] at hc
  exact Parser.passes_byte hc.1 (fun h => absurd h hc.2) fun _ => hq

/-- Before its value a key is passed. -/
theorem Parser.passes_escapeString {k : Bytes} (hk : Byte.backslash ∉ k) (back t : Bytes) :
    P.Passes st back (escapeString k) t st := by
  rw [escapeString_eq]
  refine Parser.passes_escape (fun c mem hs back t => ?_) back t
  simp only [escapeChars, List.mem_cons, List.not_mem_nil, or_false, not_or] at hs
  refine Parser.passes_byte (fun h => hk (h ▸ mem)) (fun h => absurd h hs.2.1) fun h => ?_
  rcases h with h | h | h
  · exact absurd h hs.2.2.2
  · exact absurd h hs.1
  · exact absurd h hs.2.2.1

theorem keyEnd_escapeString {k : Bytes} (hk : k ≠ []) (back : Bytes) :
    KeyEnd ((escapeString k).reverse ++ back) := by
  obtain ⟨w, c, rfl⟩ := List.eq_nil_or_concat k |>.resolve_left hk
  intro h
  rw [escapeString_eq, List.concat_eq_append, escape, List.flatMap_append,
    List.flatMap_singleton] at h ⊢
  split_ifs at h ⊢ with hc
  · simp
  · have last {a : UInt8} {r : Bytes} : (c :: r).head? = some a → c = a := Option.some.inj
    rw [List.reverse_append, List.reverse_singleton] at h
    rcases h.imp last last with rfl | rfl
    · exact absurd (by decide) hc
    · exact absurd (by decide) hc

theorem Parser.passes_value (hq : st.quoted = false) (hc : st.commas = st.equals) (hb : KeyEnd back)
    (ht : ValueEnd t) {v : FieldValue} (hv : v.Writable P) :
    P.Passes st back (Byte.equals :: formatFieldValue v) t { st with equals := st.equals + 1 } := by
  rcases hv.scanFieldStart with bare | ⟨s, text⟩
  · exact Parser.passes_start hq (bare back t hb ht)
  · have start (t : Bytes) : P.scanFieldStart back (Byte.quote :: t) = .ok (Byte.quote :: t) :=
      P.scanFieldStart_cons hb (by decide) (by decide) t
    have more : st.commas < st.equals + 1 := by omega
    have parts : Byte.equals :: formatFieldValue v =
        [Byte.equals] ++ ([Byte.quote] ++ (escapeStringField s ++ [Byte.quote])) := by
      rw [text]
      rfl
    have closed : { st with equals := st.equals + 1 } =
        { st with equals := st.equals + 1, quoted := !!st.quoted } := by
      rw [Bool.not_not]
    rw [parts, closed]
    refine (Parser.passes_open hq (start _)).append <| (Parser.passes_quote more).append <|
      (Parser.passes_escapeStringField ?_ s _ _).append (Parser.passes_quote more)
    rw [hq]
    rfl

/-- A field whose text keeps its form on the way. -/
structure FieldLine (P : Parser) (e : Bytes × Bytes) : Prop where
  key : Shown e.1
  value : ∃ v : FieldValue, v.Writable P ∧ e.2 = formatFieldValue v

/-- The fields are passed; there is one comma less than equals signs. -/
theorem Parser.passes_fieldsText {e : Bytes × Bytes} {l : List (Bytes × Bytes)}
    (h : ∀ f ∈ e :: l, FieldLine P f) (ht : ValueEnd t) (n : Nat) (back : Bytes) :
    P.Passes ⟨false, n, n⟩ back (fieldsText (e :: l)) t
      ⟨false, n + l.length + 1, n + l.length⟩ := by
  induction l generalizing e n back with
  | nil =>
    obtain ⟨key, v, hv, text⟩ := h e List.mem_cons_self
    rw [fieldsText_cons, text, fieldsTail, List.flatMap_nil, List.append_nil]
    exact (Parser.passes_escapeString key.backslash back _).append
      (Parser.passes_value rfl rfl (keyEnd_escapeString key.ne_nil back) ht hv)
  | cons f l ih =>
    obtain ⟨⟨key, v, hv, text⟩, others⟩ := List.forall_mem_cons.mp h
    have comma : ValueEnd ([Byte.comma] ++ fieldsText (f :: l) ++ t) := .inr (.inl rfl)
    rw [fieldsText_cons, text, fieldsTail_cons, ← List.cons_append, List.length_cons,
      ← Nat.add_assoc, Nat.add_right_comm n]
    exact (Parser.passes_escapeString key.backslash back _).append <|
      (Parser.passes_value rfl rfl (keyEnd_escapeString key.ne_nil back) comma hv).append <|
        (Parser.passes_comma rfl).append (ih others (n + 1) _)

end

/-- What stands behind the fields: nothing, or a space before the time. -/
def FieldsEnd (t : Bytes) : Prop := t = [] ∨ t.head? = some Byte.space

theorem FieldsEnd.valueEnd {t : Bytes} (h : FieldsEnd t) : ValueEnd t := h.imp_right .inr

/-- At the end of the fields the loop stops. -/
theorem Parser.scanFieldsLoop_end (P : Parser) {t : Bytes} (ht : FieldsEnd t) {fuel : Nat}
    (hf : t.length ≤ fuel) (n m : Nat) (back : Bytes) :
    P.scanFieldsLoop fuel ⟨false, n, m⟩ back t = .ok (⟨false, n, m⟩, t) := by
  rcases ht with rfl | ht
  · cases fuel <;> rfl
  · obtain ⟨s, rfl⟩ := List.head?_eq_some_iff.mp ht
    obtain ⟨fuel, rfl⟩ : ∃ k, fuel = k + 1 := ⟨fuel - 1, by rw [List.length_cons] at hf; omega⟩
    have other {k : UInt8} {p : Prop} (hk : Byte.space ≠ k) : ¬ (Byte.space = k ∧ p) :=
      fun h => hk h.1
    rw [Parser.scanFieldsLoop, if_neg (other (by decide)), if_neg (other (by decide)),
      if_neg (other (by decide)), if_neg (other (by decide)), if_pos ⟨rfl, rfl⟩]

section
variable (P : Parser) {e : Bytes × Bytes} {l : List (Bytes × Bytes)}
  (h : ∀ f ∈ e :: l, FieldLine P f)
include h

theorem Parser.scanFields_fieldsText {t : Bytes} (ht : FieldsEnd t) (back : Bytes) :
    P.scanFields back (Byte.space :: (fieldsText (e :: l) ++ t)) =
      .ok (fieldsText (e :: l), t) := by
  have skip : skipWhitespace (Byte.space :: (fieldsText (e :: l) ++ t)) =
      fieldsText (e :: l) ++ t := by
    refine (List.dropWhile_cons_of_pos rfl).trans (skipWhitespace_eq_self fun c hc => ?_)
    have key := (h e List.mem_cons_self).key
    rw [fieldsText_cons, List.append_assoc, escapeString_eq, List.head?_append_of_ne_nil] at hc
    · exact isBlank_head?_escape (by decide) key.head hc
    · exact mt escape_eq_nil_iff.mp key.ne_nil
  obtain ⟨fuel, hf, pass⟩ := Parser.passes_fieldsText h ht.valueEnd 0
    ((upTo (Byte.space :: (fieldsText (e :: l) ++ t)) (fieldsText (e :: l) ++ t)).reverse ++ back)
    _ le_rfl
  unfold Parser.scanFields
  simp only [skip]
  rw [pass, P.scanFieldsLoop_end ht hf, Except.ok_bind]
  simp [upTo_append, pure, Except.pure]

end

/-- The keys and values that the scan has passed are walked over, and every key fits. -/
theorem walkFields_fieldsText {P : Parser} {l : List (Bytes × Bytes)} (h : ∀ e ∈ l, FieldLine P e)
    {key : Bytes} (size : ∀ e ∈ l, seriesKeySize key (escapeString e.1) ≤ maxKeyLength) {fuel : Nat}
    (hf : l.length ≤ fuel) : walkFields key fuel (fieldsText l) = .ok () := by
  induction l generalizing fuel with
  | nil => cases fuel <;> rfl
  | cons e l ih =>
    rw [List.length_cons] at hf
    obtain ⟨fuel, rfl⟩ : ∃ n, fuel = n + 1 := ⟨fuel - 1, by omega⟩
    obtain ⟨⟨shown, v, hv, text⟩, others⟩ := List.forall_mem_cons.mp h
    obtain ⟨fits, sizes⟩ := List.forall_mem_cons.mp size
    have value : scanFieldValue false (e.2 ++ fieldsTail l) = (e.2, fieldsTail l) := by
      rw [text]
      exact valueText_formatFieldValue hv.stable _ (fieldsTail_stop l)
    have long : ¬ (Byte.equals :: (e.2 ++ fieldsTail l)).length < 2 := by
      have pos := List.length_pos_iff.mpr hv.ne_nil
      rw [← text] at pos
      simp only [List.length_cons, List.length_append]
      omega
    have fit : checkKeySize key (escapeString e.1) = .ok () := if_neg (Nat.not_lt.mpr fits)
    rw [fieldsText_cons, walkFields, if_neg (by simp)]
    simp only [scanTo_escapeString shown.readable, if_neg long, List.tail_cons, value, fit,
      tail_fieldsTail, Except.ok_bind]
    exact ih others sizes (Nat.le_of_succ_le_succ hf)

theorem getLast?_fieldsText {P : Parser} {e : Bytes × Bytes} {l : List (Bytes × Bytes)}
    (h : ∀ f ∈ e :: l, FieldLine P f) : (fieldsText (e :: l)).getLast? ≠ some Byte.newline := by
  induction l generalizing e with
  | nil =>
    obtain ⟨-, v, hv, text⟩ := h e List.mem_cons_self
    rw [fieldsText_cons, text, fieldsTail, List.flatMap_nil, List.append_nil,
      ← List.singleton_append, ← List.append_assoc, List.getLast?_append_of_ne_nil _ hv.ne_nil]
    rcases hv.plain_or_quoted with plain | ⟨s, text⟩
    · exact fun last => plain _ (List.mem_of_getLast? last) (by decide)
    · rw [text, quoted, ← List.cons_append, List.getLast?_concat]
      decide
  | cons f l ih =>
    have some : fieldsText (f :: l) ≠ [] := by simp [fieldsText_cons]
    rw [fieldsText_cons, fieldsTail_cons, ← List.cons_append, ← List.append_assoc,
      ← List.append_assoc, List.getLast?_append_of_ne_nil _ some]
    exact ih (List.forall_mem_cons.mp h).2

/-! ## The end of a line -/

/-- `scanLine` runs over `s`, from one state to the other, if something follows. -/
def LineScan.Passes (st : LineScan) (s : Bytes) (st' : LineScan) : Prop :=
  ∀ t, t ≠ [] → scanLine st false (s ++ t) =
    (s ++ (scanLine st' false t).1, (scanLine st' false t).2)

section
variable {st st' st'' : LineScan} {s s' : Bytes} {c : UInt8}

theorem LineScan.Passes.nil : st.Passes [] st := fun _ _ => rfl

theorem LineScan.Passes.append (h : st.Passes s st') (h' : st'.Passes s' st'') :
    st.Passes (s ++ s') st'' := by
  intro t ht
  rw [List.append_assoc, h _ (List.append_ne_nil_of_right_ne_nil s' ht), h' t ht, List.append_assoc]

theorem LineScan.Passes.of_step (hb : c ≠ Byte.backslash) (h : st.step c = some st') :
    st.Passes [c] st' := by
  intro t ht
  rw [List.singleton_append, scanLine, if_neg Bool.false_ne_true, if_neg fun h => hb h.1, h]
  rfl

theorem LineScan.passes_pair (c : UInt8) : st.Passes [Byte.backslash, c] st := by
  intro t ht
  have long : 2 ≤ (c :: t).length := Nat.succ_le_succ (List.length_pos_iff.mpr ht)
  rw [List.cons_append, scanLine, if_neg Bool.false_ne_true, if_pos ⟨rfl, long⟩,
    List.singleton_append, scanLine, if_pos rfl]
  rfl

theorem LineScan.passes_escape {special : Bytes} {s : Bytes}
    (h : ∀ c ∈ s, c ∉ special → st.Passes [c] st) :
    st.Passes (escape Byte.backslash special s) st :=
  escape_induction (p := fun s => st.Passes s st) .nil .append LineScan.passes_pair h

/-- In the key only a space and a newline mean something. -/
theorem LineScan.passes_key {special : Bytes} (hs : Byte.space ∈ special) {s : Bytes}
    (h : Clean s) : LineScan.Passes {} (escape Byte.backslash special s) {} := by
  refine LineScan.passes_escape fun c mem hc => .of_step (fun h' => h.backslash (h' ▸ mem)) ?_
  have space : c ≠ Byte.space := fun h' => hc (h' ▸ hs)
  have newline : c ≠ Byte.newline := fun h' => h.newline (h' ▸ mem)
  simp [LineScan.step, space, newline]

theorem LineScan.passes_wireKey {name : Bytes} {tags : List Tag} (hn : Clean name)
    (ht : ∀ t ∈ tags, Clean t.key ∧ Clean t.value) : LineScan.Passes {} (wireKey name tags) {} := by
  have mark {c : UInt8} (hc : c = Byte.comma ∨ c = Byte.equals) : LineScan.Passes {} [c] {} := by
    rcases hc with rfl | rfl
    · exact .of_step (by decide) rfl
    · exact .of_step (by decide) rfl
  have text {s : Bytes} (h : Clean s) : LineScan.Passes {} (escapeTag s) {} := by
    rw [escapeTag_eq]
    exact LineScan.passes_key (by decide) h
  have measurement : LineScan.Passes {} (escapeMeasurement name) {} := by
    rw [escapeMeasurement_eq]
    exact LineScan.passes_key (by decide) hn
  refine measurement.append ?_
  induction tags with
  | nil => exact .nil
  | cons t tags ih =>
    obtain ⟨⟨key, value⟩, others⟩ := List.forall_mem_cons.mp ht
    have tag : LineScan.Passes {}
        ([Byte.comma] ++ (escapeTag t.key ++ ([Byte.equals] ++ escapeTag t.value))) {} :=
      (mark (.inl rfl)).append <| (text key).append <| (mark (.inr rfl)).append (text value)
    exact tag.append (ih others)

/-- A byte that means nothing among the fields. -/
theorem LineScan.passes_byte {n m : Nat} (h : c ∉ fieldMarks) :
    LineScan.Passes ⟨true, false, n, m⟩ [c] ⟨true, false, n, m⟩ := by
  simp only [List.mem_cons, List.not_mem_nil, or_false, not_or] at h
  refine .of_step h.1 ?_
  simp [LineScan.step, h]

/-- Between quotes every byte is part of the line, newlines too. -/
theorem LineScan.passes_escapeStringField {n m : Nat} (s : Bytes) :
    LineScan.Passes ⟨true, true, n, m⟩ (escapeStringField s) ⟨true, true, n, m⟩ := by
  rw [escapeStringField_eq]
  refine LineScan.passes_escape fun c _ hc => ?_
  simp only [List.mem_cons, List.not_mem_nil, or_false, not_or] at hc
  refine .of_step hc.1 ?_
  simp [LineScan.step, hc]

theorem LineScan.passes_quote {q : Bool} {n m : Nat} (h : m < n) :
    LineScan.Passes ⟨true, q, n, m⟩ [Byte.quote] ⟨true, !q, n, m⟩ := by
  refine .of_step (by decide) ?_
  simp [LineScan.step, h, Byte.quote, Byte.space, Byte.equals, Byte.comma]

theorem LineScan.passes_plain {n m : Nat} {s : Bytes} (h : ∀ c ∈ s, c ∉ fieldMarks) :
    LineScan.Passes ⟨true, false, n, m⟩ s ⟨true, false, n, m⟩ := by
  induction s with
  | nil => exact .nil
  | cons c s ih =>
    obtain ⟨hc, others⟩ := List.forall_mem_cons.mp h
    exact (LineScan.passes_byte hc).append (ih others)

theorem LineScan.passes_value {P : Parser} {v : FieldValue} (hv : v.Writable P) (n : Nat) :
    LineScan.Passes ⟨true, false, n, n⟩ ([Byte.equals] ++ formatFieldValue v)
      ⟨true, false, n + 1, n⟩ := by
  have equals : LineScan.Passes ⟨true, false, n, n⟩ [Byte.equals] ⟨true, false, n + 1, n⟩ :=
    .of_step (by decide) rfl
  refine equals.append ?_
  rcases hv.plain_or_quoted with plain | ⟨s, text⟩
  · exact LineScan.passes_plain plain
  · have more : n < n + 1 := Nat.lt_succ_self n
    rw [text]
    exact (LineScan.passes_quote more).append <|
      (LineScan.passes_escapeStringField s).append (LineScan.passes_quote more)

theorem LineScan.passes_escapeString {n : Nat} {k : Bytes} (hk : Clean k) :
    LineScan.Passes ⟨true, false, n, n⟩ (escapeString k) ⟨true, false, n, n⟩ := by
  rw [escapeString_eq]
  refine LineScan.passes_escape fun c mem hc => LineScan.passes_byte ?_
  simp only [escapeChars, List.mem_cons, List.not_mem_nil, or_false, not_or] at hc ⊢
  exact ⟨fun h => hk.backslash (h ▸ mem), hc.2.2.2, hc.1, hc.2.1, fun h => hk.newline (h ▸ mem)⟩

theorem LineScan.passes_fieldsText {P : Parser} {e : Bytes × Bytes} {l : List (Bytes × Bytes)}
    (h : ∀ f ∈ e :: l, FieldLine P f) (n : Nat) :
    LineScan.Passes ⟨true, false, n, n⟩ (fieldsText (e :: l))
      ⟨true, false, n + l.length + 1, n + l.length⟩ := by
  induction l generalizing e n with
  | nil =>
    obtain ⟨key, v, hv, text⟩ := h e List.mem_cons_self
    rw [fieldsText_cons, text, fieldsTail, List.flatMap_nil, List.append_nil]
    exact (LineScan.passes_escapeString key.toClean).append (LineScan.passes_value hv n)
  | cons f l ih =>
    obtain ⟨⟨key, v, hv, text⟩, others⟩ := List.forall_mem_cons.mp h
    have comma : LineScan.Passes ⟨true, false, n + 1, n⟩ [Byte.comma] ⟨true, false, n + 1, n + 1⟩ :=
      .of_step (by decide) rfl
    rw [fieldsText_cons, text, fieldsTail_cons, ← List.cons_append, List.length_cons,
      ← Nat.add_assoc, Nat.add_right_comm n]
    exact (LineScan.passes_escapeString key.toClean).append <|
      (LineScan.passes_value hv n).append <| comma.append (ih others (n + 1))

end

end InfluxHandler.Influx
