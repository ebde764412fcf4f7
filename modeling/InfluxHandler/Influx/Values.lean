import InfluxHandler.Influx.Parse

/-!
# Written values are read

The server checks the form of a field value when it reads a line. Everything that a client writes
for a finite number, an integer, a boolean or a string passes this check and ends where it ends.
-/
namespace InfluxHandler.Influx
open Go Escape

/-- The end of a value: the end of the line, a comma or a space. -/
def ValueEnd (t : Bytes) : Prop :=
  t = [] ∨ t.head? = some Byte.comma ∨ t.head? = some Byte.space

theorem upTo_append (s t : Bytes) : upTo (s ++ t) t = s := by
  simp [upTo]

/-! ## Numbers -/

theorem ne_of_isDigit {c k : UInt8} (hc : isDigit c = true) (hk : isDigit k = false) : c ≠ k := by
  rintro rfl
  cases hc.symm.trans hk

section
variable {st : NumberScan} {started : Bool} {prev : UInt8}

theorem NumberScan.step_digit {c : UInt8} (hc : isDigit c = true) (left : Nat) :
    st.step started prev c left = .ok st := by
  have other {k : UInt8} (hk : isDigit k = false) : c ≠ k := ne_of_isDigit hc hk
  unfold NumberScan.step
  simp only [other (k := 105) (by decide), other (k := 117) (by decide),
    other (k := Byte.dot) (by decide), other (k := 101) (by decide), other (k := 69) (by decide),
    other (k := 43) (by decide), other (k := Byte.minus) (by decide), other (k := 78) (by decide),
    other (k := 110) (by decide), isNumeric, hc, false_and, and_false, or_self, if_false,
    Bool.true_or, if_true]

theorem scanNumberLoop_end {t : Bytes} (ht : ValueEnd t) :
    scanNumberLoop st started prev t = .ok (st, t) := by
  rcases ht with rfl | h | h
  · rfl
  · obtain ⟨s, rfl⟩ := List.head?_eq_some_iff.mp h
    exact if_pos (.inl rfl)
  · obtain ⟨s, rfl⟩ := List.head?_eq_some_iff.mp h
    exact if_pos (.inr rfl)

theorem scanNumberLoop_cons {c : UInt8} (hc : c ≠ Byte.comma) (hs : c ≠ Byte.space)
    {st' : NumberScan}
    {t : Bytes} (h : st.step started prev c t.length = .ok st') :
    scanNumberLoop st started prev (c :: t) = scanNumberLoop st' true c t := by
  rw [scanNumberLoop, if_neg (by simp [hc, hs]), h]
  rfl

/-- Digits are passed. -/
theorem scanNumberLoop_digits {ds : List Nat} (hne : ds ≠ []) (hd : ∀ d ∈ ds, d < 10) (t : Bytes) :
    ∃ last, scanNumberLoop st started prev (ds.map digitByte ++ t) =
      scanNumberLoop st true last t := by
  induction ds generalizing started prev with
  | nil => exact absurd rfl hne
  | cons d ds ih =>
    obtain ⟨hd, others⟩ := List.forall_mem_cons.mp hd
    have digit := isDigit_digitByte hd
    rw [List.map_cons, List.cons_append, scanNumberLoop_cons (ne_of_isDigit digit (by decide))
      (ne_of_isDigit digit (by decide)) (NumberScan.step_digit digit _)]
    by_cases hds : ds = []
    · subst hds
      exact ⟨_, rfl⟩
    · exact ih hds others

end

/-! ## What may follow the digits -/

section
variable {prev : UInt8} {t : Bytes} (ht : ValueEnd t)
include ht

theorem scanNumberLoop_fraction {ds : List Nat} (hne : ds ≠ []) (hd : ∀ d ∈ ds, d < 10) :
    scanNumberLoop {} true prev (Byte.dot :: (ds.map digitByte ++ t)) =
      .ok ({ decimal := true }, t) := by
  have dot (left : Nat) : NumberScan.step {} true prev Byte.dot left = .ok { decimal := true } := by
    simp [NumberScan.step, isNumeric, Byte.dot, Byte.minus]
  rw [scanNumberLoop_cons (by decide) (by decide) (dot _)]
  obtain ⟨last, digits⟩ := scanNumberLoop_digits hne hd t
  rw [digits, scanNumberLoop_end ht]

theorem scanNumberLoop_int :
    scanNumberLoop {} true prev (105 :: t) = .ok ({ isInt := true }, t) := by
  have suffix (left : Nat) : NumberScan.step {} true prev 105 left = .ok { isInt := true } := rfl
  rw [scanNumberLoop_cons (by decide) (by decide) (suffix _), scanNumberLoop_end ht]

theorem scanNumberLoop_unsigned :
    scanNumberLoop {} true prev (117 :: t) = .ok ({ isUnsigned := true }, t) := by
  have suffix (left : Nat) : NumberScan.step {} true prev 117 left = .ok { isUnsigned := true } :=
    rfl
  rw [scanNumberLoop_cons (by decide) (by decide) (suffix _), scanNumberLoop_end ht]

end

section
variable (P : Parser) (sign : Float.Model.UnpackedFloat.Sign) {ds : List Nat} {tail : Bytes}

/-- A minus in front is the sign. -/
theorem head?_number (hne : ds ≠ []) (hd : ∀ d ∈ ds, d < 10) (tail : Bytes) :
    (formatSign sign ++ (ds.map digitByte ++ tail)).head? = some Byte.minus ↔
      sign = .negative := by
  obtain ⟨d, ds, rfl⟩ := List.exists_cons_of_ne_nil hne
  have first : digitByte d ≠ Byte.minus :=
    ne_of_isDigit (isDigit_digitByte (hd d List.mem_cons_self)) (by decide)
  cases sign with
  | negative => simp [formatSign]
  | positive => simp [formatSign, first]

/-- The scan of a number: a sign, digits, and what follows them. -/
theorem Parser.scanNumber_eq (hne : ds ≠ []) (hd : ∀ d ∈ ds, d < 10) {st : NumberScan} {t : Bytes}
    (loop : ∀ prev, scanNumberLoop {} true prev (tail ++ t) = .ok (st, t))
    (check : P.checkNumber st (formatSign sign ++ (ds.map digitByte ++ tail)) = .ok ()) :
    P.scanNumber (formatSign sign ++ (ds.map digitByte ++ tail) ++ t) = .ok t := by
  have digits (started : Bool) (prev : UInt8) :
      scanNumberLoop {} started prev (ds.map digitByte ++ (tail ++ t)) = .ok (st, t) := by
    obtain ⟨last, pass⟩ := scanNumberLoop_digits hne hd (tail ++ t)
    rw [pass, loop]
  have body : upTo (formatSign sign ++ (ds.map digitByte ++ tail) ++ t) t =
      formatSign sign ++ (ds.map digitByte ++ tail) := upTo_append _ t
  unfold Parser.scanNumber
  cases sign with
  | negative =>
    simp only [formatSign, List.cons_append, List.nil_append, List.head?_cons, List.tail_cons,
      List.append_assoc] at body check ⊢
    have more : ds.map digitByte ++ (tail ++ t) ≠ [] := by simp [hne]
    simp only [more, and_false, if_false, if_true, digits, Except.ok_bind, body, check, pure,
      Except.pure]
  | positive =>
    have digit := (head?_number .positive hne hd (tail ++ t)).not.mpr nofun
    simp only [formatSign, List.nil_append, List.append_assoc] at body check digit ⊢
    simp only [digit, false_and, if_false, digits, Except.ok_bind, body, check, pure, Except.pure]

/-- There are digits besides the sign, the point and the suffix. -/
theorem numericDigits_ne_zero (hne : ds ≠ []) (hd : ∀ d ∈ ds, d < 10) {i d : Bool}
    (htail : i.toNat + d.toNat ≤ tail.length) :
    ¬ (formatSign sign ++ (ds.map digitByte ++ tail)).length - i.toNat - d.toNat -
      (decide ((formatSign sign ++ (ds.map digitByte ++ tail)).head? =
        some Byte.minus)).toNat = 0 := by
  have digits : 0 < ds.length := List.length_pos_iff.mpr hne
  cases sign with
  | negative =>
    rw [decide_eq_true ((head?_number .negative hne hd tail).mpr rfl), Bool.toNat_true]
    simp only [formatSign, List.length_append, List.length_map, List.length_singleton]
    omega
  | positive =>
    rw [decide_eq_false ((head?_number .positive hne hd tail).not.mpr nofun), Bool.toNat_false]
    simp only [formatSign, List.length_append, List.length_map, List.length_nil]
    omega

theorem Parser.checkNumber_float (hne : ds ≠ []) (hd : ∀ d ∈ ds, d < 10) {decimal : Bool}
    (htail : decimal.toNat ≤ tail.length)
    (read : P.parseFloat (formatSign sign ++ (ds.map digitByte ++ tail)) ≠ none) :
    P.checkNumber { decimal := decimal } (formatSign sign ++ (ds.map digitByte ++ tail)) =
      .ok () := by
  have suffix : false.toNat + decimal.toNat ≤ tail.length := by simpa using htail
  have digits := numericDigits_ne_zero sign hne hd suffix
  simp only [Parser.checkNumber, Bool.false_eq_true, or_self, false_and, if_false, digits, false_or,
    read, ite_self]
  rfl

end

/-- A printed integer is a sign and digits. -/
theorem formatInt_eq (i : Int64) :
    ∃ sign ds, ds ≠ [] ∧ (∀ d ∈ ds, d < 10) ∧
      formatInt i = formatSign sign ++ ds.map digitByte := by
  have digits {d : Nat} (hd : d ∈ Numeral.numeral 10 i.toInt.natAbs) : d < 10 :=
    Numeral.lt_base_of_mem_numeral (by norm_num) hd
  by_cases neg : i.toInt < 0
  · exact ⟨.negative, _, Numeral.numeral_ne_nil _, fun d => digits, if_pos neg⟩
  · exact ⟨.positive, _, Numeral.numeral_ne_nil _, fun d => digits, if_neg neg⟩

section
variable (P : Parser) {t : Bytes} (ht : ValueEnd t)
include ht

theorem Parser.scanNumber_decimalText {s : Bytes} (h : DecimalText s)
    (read : P.parseFloat s ≠ none) :
    P.scanNumber (s ++ t) = .ok t := by
  obtain ⟨sign, whole, fraction, hne, hw, hf, rfl⟩ := h.shape
  by_cases hfr : fraction = []
  · simp only [hfr, if_true] at read ⊢
    exact P.scanNumber_eq sign hne hw (fun _ => scanNumberLoop_end ht)
      (P.checkNumber_float sign hne hw (Nat.zero_le _) read)
  · simp only [hfr, if_false] at read ⊢
    have point : true.toNat ≤ (Byte.dot :: fraction.map digitByte).length := by simp
    exact P.scanNumber_eq sign hne hw (fun _ => scanNumberLoop_fraction ht hfr hf)
      (P.checkNumber_float sign hne hw point read)

theorem Parser.scanNumber_formatInt (i : Int64) :
    P.scanNumber (formatInt i ++ [105] ++ t) = .ok t := by
  have read := parseInt_formatInt i
  obtain ⟨sign, ds, hne, hd, text⟩ := formatInt_eq i
  rw [text] at read ⊢
  rw [List.append_assoc (formatSign sign)]
  refine P.scanNumber_eq sign hne hd (fun _ => scanNumberLoop_int ht) ?_
  have suffix : true.toNat + false.toNat ≤ ([105] : Bytes).length := le_rfl
  have digits := numericDigits_ne_zero sign hne hd suffix
  unfold Parser.checkNumber
  simp only [Bool.false_eq_true, or_self, and_false, if_false, digits, if_true]
  rw [← List.append_assoc, List.getLast?_concat, List.dropLast_concat, read]
  simp [pure, Except.pure]

theorem Parser.scanNumber_formatUint (hP : P.enableUint64Support = true) {n : Nat}
    (hn : n ≤ maxUint64) : P.scanNumber (formatUint n ++ [117] ++ t) = .ok t := by
  have read := parseUint_formatUint hn
  have hne := Numeral.numeral_ne_nil (b := 10) n
  have hd (d : Nat) (hd : d ∈ Numeral.numeral 10 n) : d < 10 :=
    Numeral.lt_base_of_mem_numeral (by norm_num) hd
  have plain := (head?_number .positive hne hd [117]).not.mpr nofun
  have loop (prev : UInt8) : scanNumberLoop {} true prev ([117] ++ t) = _ :=
    scanNumberLoop_unsigned ht
  refine P.scanNumber_eq .positive hne hd loop ?_
  unfold Parser.checkNumber
  simp only [Bool.false_eq_true, or_self, and_false, if_false, if_true, hP, plain, not_true]
  rw [← List.append_assoc, List.getLast?_concat, List.dropLast_concat, formatSign, List.nil_append,
    ← formatUint, read]
  simp [pure, Except.pure]

end

/-! ## Booleans -/

theorem scanBoolean_eq {b t : Bytes} (h : b ∈ [str "true", str "false"]) (ht : ValueEnd t) :
    scanBoolean (b ++ t) = .ok t := by
  have stop : t.takeWhile (fun c => c != Byte.comma && c != Byte.space) = [] := by
    rcases ht with rfl | h | h
    · rfl
    · obtain ⟨s, rfl⟩ := List.head?_eq_some_iff.mp h
      rfl
    · obtain ⟨s, rfl⟩ := List.head?_eq_some_iff.mp h
      rfl
  have word : (b ++ t).head?.toList ++ (b ++ t).tail.takeWhile
      (fun c => c != Byte.comma && c != Byte.space) = b := by
    simp only [List.mem_cons, List.not_mem_nil, or_false] at h
    rcases h with rfl | rfl
    · exact congrArg (str "true" ++ ·) stop
    · exact congrArg (str "false" ++ ·) stop
  unfold scanBoolean
  rw [word]
  simp only [List.mem_cons, List.not_mem_nil, or_false] at h
  rcases h with rfl | rfl
  · rfl
  · rfl

/-! ## The start of a value -/

/-- A key stands before the equals sign: a space or a comma there is escaped. -/
def KeyEnd (back : Bytes) : Prop :=
  back.head? = some Byte.space ∨ back.head? = some Byte.comma →
    back.tail.head? = some Byte.backslash

section
variable (P : Parser) {back : Bytes} (hb : KeyEnd back)
include hb

theorem Parser.scanFieldStart_cons {c : UInt8} (hc : c ≠ Byte.comma) (hs : c ≠ Byte.space)
    (s : Bytes) :
    P.scanFieldStart back (c :: s) =
      if isNumeric c ∨ c = Byte.minus ∨ c = 78 ∨ c = 110 then P.scanNumber (c :: s)
      else if c ≠ Byte.quote then scanBoolean (c :: s)
      else .ok (c :: s) := by
  have key : ¬ ((back.head? = some Byte.space ∨ back.head? = some Byte.comma) ∧
      back.tail.head? ≠ some Byte.backslash) := fun h => h.2 (hb h.1)
  unfold Parser.scanFieldStart
  simp only [if_neg key, hc, hs, or_self, if_false]
  rfl

theorem Parser.scanFieldStart_number {s : Bytes} (h : NumberText s) (t : Bytes) :
    P.scanFieldStart back (s ++ t) = P.scanNumber (s ++ t) := by
  obtain ⟨c, s, rfl⟩ := List.exists_cons_of_ne_nil h.ne_nil
  have first := h.mem c List.mem_cons_self
  have other {k : UInt8} (hk : k ∉ str "-.0123456789") : c ≠ k := by
    rintro rfl
    exact hk first
  have number : isNumeric c = true ∨ c = Byte.minus := by
    have all : (str "-.0123456789").all (fun c => isNumeric c || c == Byte.minus) = true := by
      decide
    simpa using List.all_eq_true.mp all c first
  rw [List.cons_append, P.scanFieldStart_cons hb (other (by decide)) (other (by decide)),
    if_pos (by tauto)]

end

/-- The values whose text the server accepts. It has no nil, and unsigned numbers only if they are
enabled. -/
def FieldValue.Writable (P : Parser) : FieldValue → Prop
  | .float64 v => v.isInf = false ∧ v.isNaN = false ∧ P.parseFloat (formatFloat v) = some v
  | .float32 _ => False
  | .unsigned _ => P.enableUint64Support = true
  | .bytes _ => False
  | .nil => False
  | _ => True

theorem FieldValue.Writable.stable {P : Parser} {v : FieldValue} (h : v.Writable P) :
    v.Stable P.parseFloat := by
  cases v with
  | float64 v => exact h
  | float32 v => exact h
  | bytes v => exact h
  | _ => trivial

theorem FieldValue.Writable.ne_nil {P : Parser} {v : FieldValue} (h : v.Writable P) :
    formatFieldValue v ≠ [] := by
  cases v with
  | float64 v => exact (numberText_of_decimalText (decimalText_formatFloat h.1 h.2.1)).ne_nil
  | integer v => exact List.append_ne_nil_of_left_ne_nil (numberText_formatInt v).ne_nil _
  | unsigned v => exact List.append_ne_nil_of_left_ne_nil (formatUint_ne_nil v.toNat) _
  | boolean v => cases v <;> decide
  | string v => exact List.cons_ne_nil _ _
  | other text => exact List.cons_ne_nil _ _
  | float32 v => exact h.elim
  | bytes v => exact h.elim
  | nil => exact h.elim

/-- The bytes that mean something among the fields of a line. -/
abbrev fieldMarks : Bytes := [Byte.backslash, Byte.equals, Byte.comma, Byte.quote, Byte.newline]

/-- A value that is no string has none of these bytes. -/
theorem FieldValue.Writable.plain_or_quoted {P : Parser} {v : FieldValue} (h : v.Writable P) :
    (∀ c ∈ formatFieldValue v, c ∉ fieldMarks) ∨ ∃ s, formatFieldValue v = quoted s := by
  have number {s suffix : Bytes} (hs : NumberText s) (mem : suffix ∈ [[], str "i", str "u"]) :
      ∀ c ∈ s ++ suffix, c ∉ fieldMarks := by
    intro c hc
    have disjoint : (str "-.0123456789iu").all (fun c => !fieldMarks.contains c) = true := by decide
    simpa using List.all_eq_true.mp disjoint c (hs.mem_append mem hc)
  cases v with
  | float64 v =>
    have text := number (numberText_of_decimalText (decimalText_formatFloat h.1 h.2.1))
      (List.mem_cons_self (a := []))
    rw [List.append_nil] at text
    exact .inl text
  | integer v => exact .inl (number (numberText_formatInt v) (by simp))
  | unsigned v => exact .inl (number (numberText_formatUint v.toNat) (by simp))
  | boolean v =>
    have plain : (formatFieldValue (.boolean v)).all (fun c => !fieldMarks.contains c) = true := by
      cases v <;> decide
    exact .inl fun c hc => by simpa using List.all_eq_true.mp plain c hc
  | string v => exact .inr ⟨v, rfl⟩
  | other text => exact .inr ⟨text, rfl⟩
  | float32 v => exact h.elim
  | bytes v => exact h.elim
  | nil => exact h.elim

/-- A value is passed at once, or it is a string. -/
theorem FieldValue.Writable.scanFieldStart {P : Parser} {v : FieldValue} (h : v.Writable P) :
    (∀ back t, KeyEnd back → ValueEnd t →
      P.scanFieldStart back (formatFieldValue v ++ t) = .ok t) ∨
      ∃ s, formatFieldValue v = quoted s := by
  cases v with
  | float64 v =>
    refine .inl fun back t hb ht => ?_
    have text := decimalText_formatFloat h.1 h.2.1
    rw [formatFieldValue, P.scanFieldStart_number hb (numberText_of_decimalText text)]
    exact P.scanNumber_decimalText ht text (by simp [h.2.2])
  | integer v =>
    refine .inl fun back t hb ht => ?_
    rw [formatFieldValue, List.append_assoc, P.scanFieldStart_number hb (numberText_formatInt v),
      ← List.append_assoc]
    exact P.scanNumber_formatInt ht v
  | unsigned v =>
    refine .inl fun back t hb ht => ?_
    rw [formatFieldValue, List.append_assoc,
      P.scanFieldStart_number hb (numberText_formatUint v.toNat), ← List.append_assoc]
    exact P.scanNumber_formatUint ht h (Nat.le_of_lt_succ v.toNat_lt)
  | boolean v =>
    refine .inl fun back t hb ht => ?_
    cases v with
    | true =>
      have scan := scanBoolean_eq (b := str "true") (by decide) ht
      exact (P.scanFieldStart_cons hb (by decide) (by decide) _).trans scan
    | false =>
      have scan := scanBoolean_eq (b := str "false") (by decide) ht
      exact (P.scanFieldStart_cons hb (by decide) (by decide) _).trans scan
  | string v => exact .inr ⟨v, rfl⟩
  | other text => exact .inr ⟨text, rfl⟩
  | float32 v => exact h.elim
  | bytes v => exact h.elim
  | nil => exact h.elim

end InfluxHandler.Influx
