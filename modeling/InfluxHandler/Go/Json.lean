import InfluxHandler.Go.Strconv

/-!
# encoding/json: reading a document

`parse` is the scanner of `encoding/json`: it accepts one JSON value surrounded by blanks.
Strings come out unquoted, with broken UTF-8 and lone surrogates replaced by U+FFFD; a number
keeps its text, since the type that it is decoded into decides how it is read.
-/
namespace InfluxHandler.Go.Json

inductive Value where
  | null
  | bool (b : Bool)
  | number (text : Bytes)
  | string (s : Bytes)
  | array (elems : List Value)
  | object (members : List (Bytes × Value))

def isSpace (c : UInt8) : Bool := c == Byte.space || c == 9 || c == Byte.newline || c == 13

def skipSpace (s : Bytes) : Bytes := s.dropWhile isSpace

/-! ## Strings -/

/-- The UTF-8 form of U+FFFD. -/
def replacement : Bytes := [0xEF, 0xBF, 0xBD]

/-- The UTF-8 form of a code point. -/
def encodeRune (r : Nat) : Bytes :=
  if r < 0x80 then [UInt8.ofNat r]
  else if r < 0x800 then [UInt8.ofNat (0xC0 + r / 64), UInt8.ofNat (0x80 + r % 64)]
  else if 0xD800 ≤ r ∧ r < 0xE000 ∨ 0x110000 ≤ r then replacement
  else if r < 0x10000 then
    [UInt8.ofNat (0xE0 + r / 4096), UInt8.ofNat (0x80 + r / 64 % 64), UInt8.ofNat (0x80 + r % 64)]
  else
    [UInt8.ofNat (0xF0 + r / 262144), UInt8.ofNat (0x80 + r / 4096 % 64),
      UInt8.ofNat (0x80 + r / 64 % 64), UInt8.ofNat (0x80 + r % 64)]

/-- The range of the second byte behind a leading byte, and how many bytes follow it. -/
def leading (c : UInt8) : Option (Nat × Nat × Nat) :=
  if c < 0xC2 then none
  else if c < 0xE0 then some (0x80, 0xBF, 0)
  else if c < 0xF0 then
    some (if c = 0xE0 then 0xA0 else 0x80, if c = 0xED then 0x9F else 0xBF, 1)
  else if c < 0xF5 then
    some (if c = 0xF0 then 0x90 else 0x80, if c = 0xF4 then 0x8F else 0xBF, 2)
  else none

def isContinuation (c : UInt8) : Bool := 0x80 ≤ c && c ≤ 0xBF

/-- The number of bytes of the valid sequence at the start of `c :: rest`, or zero. -/
def sequenceLength (c : UInt8) (rest : Bytes) : Nat :=
  if c < 0x80 then 1
  else match leading c, rest with
    | some (lo, hi, more), d :: rest =>
      if lo ≤ d.toNat ∧ d.toNat ≤ hi ∧ more ≤ rest.length ∧ (rest.take more).all isContinuation
      then more + 2 else 0
    | _, _ => 0

/-- Replace what is not UTF-8, byte by byte; `keep` bytes of a valid sequence are still to copy. -/
def coerceUTF8 : Nat → Bytes → Bytes
  | _, [] => []
  | keep + 1, c :: rest => c :: coerceUTF8 keep rest
  | 0, c :: rest =>
    match sequenceLength c rest with
    | 0 => replacement ++ coerceUTF8 0 rest
    | n + 1 => c :: coerceUTF8 n rest

def hexValue (c : UInt8) : Option Nat :=
  if isDigit c then some (digitValue c)
  else if 97 ≤ c.toNat ∧ c.toNat ≤ 102 then some (c.toNat - 87)
  else if 65 ≤ c.toNat ∧ c.toNat ≤ 70 then some (c.toNat - 55)
  else none

def hex4 (a b c d : UInt8) : Option Nat := do
  pure ((((← hexValue a) * 16 + (← hexValue b)) * 16 + (← hexValue c)) * 16 + (← hexValue d))

/-- The byte that a one-letter escape stands for. -/
def simpleEscape : List (UInt8 × UInt8) :=
  [(34, 34), (92, 92), (47, 47), (98, 8), (102, 12), (110, 10), (114, 13), (116, 9)]

/-- A code unit of an escape. A high surrogate waits for the low one that completes it. -/
def emitRune (pending : Option Nat) (r : Nat) : Bytes × Option Nat :=
  let lone := if pending.isSome then replacement else []
  match pending with
  | some hi =>
    if 0xDC00 ≤ r ∧ r < 0xE000 then
      (encodeRune (0x10000 + (hi - 0xD800) * 1024 + (r - 0xDC00)), none)
    else if 0xD800 ≤ r ∧ r < 0xDC00 then (lone, some r)
    else (lone ++ encodeRune r, none)
  | none => if 0xD800 ≤ r ∧ r < 0xDC00 then ([], some r) else (encodeRune r, none)

/-- The text behind an opening quote: the unquoted string and what follows the closing quote. -/
def scanString (pending : Option Nat) : Bytes → Option (Bytes × Bytes)
  | 92 :: 117 :: a :: b :: c :: d :: rest => do
    let (out, pending) := emitRune pending (← hex4 a b c d)
    let (s, rest) ← scanString pending rest
    pure (out ++ s, rest)
  | 92 :: e :: rest => do
    let c ← simpleEscape.lookup e
    let (s, rest) ← scanString none rest
    pure ((if pending.isSome then replacement else []) ++ c :: s, rest)
  | 34 :: rest => some (if pending.isSome then replacement else [], rest)
  | c :: rest =>
    if c < 32 ∨ c = 92 then none
    else do
      let (s, rest) ← scanString none rest
      pure ((if pending.isSome then replacement else []) ++ c :: s, rest)
  | [] => none

/-! ## Numbers -/

def scanDigits (s : Bytes) : Bytes × Bytes := (s.takeWhile isDigit, s.dropWhile isDigit)

/-- The parts of a number: sign, whole digits, fraction digits, exponent. -/
structure Number where
  negative : Bool
  whole : Bytes
  fraction : Bytes
  exponent : Int

def scanFraction : Bytes → Option (Bytes × Bytes)
  | 46 :: rest => if (scanDigits rest).1 = [] then none else some (scanDigits rest)
  | rest => some ([], rest)

def scanExponent (s : Bytes) : Option (Int × Bytes) :=
  match s with
  | c :: rest =>
    if c = 101 ∨ c = 69 then
      let (negative, rest) := parseSign rest
      let (digits, rest) := scanDigits rest
      if digits = [] then none
      else
        let e : Int := Numeral.value 10 (digits.map digitValue) 0
        some (if negative then -e else e, rest)
    else some (0, s)
  | [] => some (0, s)

def scanNumber (s : Bytes) : Option (Number × Bytes) := do
  let (negative, rest) := match s with
    | 45 :: rest => (true, rest)
    | _ => (false, s)
  let (whole, rest) ← match rest with
    | 48 :: rest => some ([48], rest)
    | _ => if (scanDigits rest).1 = [] then none else some (scanDigits rest)
  let (fraction, rest) ← scanFraction rest
  let (exponent, rest) ← scanExponent rest
  pure (⟨negative, whole, fraction, exponent⟩, rest)

/-- `strconv.ParseFloat(s, 64)` on the text of a number; `none` when it is out of range. -/
def parseFloat (text : Bytes) : Option Float := do
  let (n, _) ← scanNumber text
  let mantissa := Numeral.value 10 ((n.whole ++ n.fraction).map digitValue) 0
  let scale := n.exponent - n.fraction.length
  let v := Float.ofScientific mantissa (scale < 0) scale.natAbs
  if v.isInf then none else some (if n.negative then -v else v)

/-- `strconv.ParseFloat` on the texts of JSON numbers: nothing may stand behind the number. -/
def parseDecimal (text : Bytes) : Option Float :=
  match scanNumber text with
  | some (_, []) => parseFloat text
  | _ => none

/-- The same with the error that `strconv` gives. -/
def readDecimal (text : Bytes) : Except GoError Float :=
  match parseDecimal text with
  | some v => .ok v
  | none => .error (.text (str "strconv.ParseFloat: parsing " ++ text ++ str ": invalid syntax"))

/-! ## Values -/

/-- The literal `word` at the start of `s`. -/
def scanLiteral (word : Bytes) (v : Value) (s : Bytes) : Option (Value × Bytes) :=
  if word.isPrefixOf s then some (v, s.drop word.length) else none

mutual

/-- One value. Every call consumes a byte, so the length of the text is enough fuel. -/
def scanValue : Nat → Bytes → Option (Value × Bytes)
  | 0, _ => none
  | fuel + 1, s =>
    match skipSpace s with
    | 123 :: rest =>
      match skipSpace rest with
      | 125 :: rest => some (.object [], rest)
      | rest => (scanMembers fuel rest).map fun (ms, rest) => (.object ms, rest)
    | 91 :: rest =>
      match skipSpace rest with
      | 93 :: rest => some (.array [], rest)
      | rest => (scanElements fuel rest).map fun (vs, rest) => (.array vs, rest)
    | 34 :: rest => (scanString none rest).map fun (t, rest) => (.string (coerceUTF8 0 t), rest)
    | 110 :: rest => scanLiteral (str "ull") .null rest
    | 116 :: rest => scanLiteral (str "rue") (.bool true) rest
    | 102 :: rest => scanLiteral (str "alse") (.bool false) rest
    | s => (scanNumber s).map fun (_, rest) => (.number (s.take (s.length - rest.length)), rest)

/-- The elements of an array up to its closing bracket. -/
def scanElements : Nat → Bytes → Option (List Value × Bytes)
  | 0, _ => none
  | fuel + 1, s => do
    let (v, rest) ← scanValue fuel s
    match skipSpace rest with
    | 44 :: rest =>
      let (vs, rest) ← scanElements fuel rest
      pure (v :: vs, rest)
    | 93 :: rest => pure ([v], rest)
    | _ => none

/-- The members of an object up to its closing brace. -/
def scanMembers : Nat → Bytes → Option (List (Bytes × Value) × Bytes)
  | 0, _ => none
  | fuel + 1, s =>
    match skipSpace s with
    | 34 :: rest => do
      let (key, rest) ← scanString none rest
      match skipSpace rest with
      | 58 :: rest =>
        let (v, rest) ← scanValue fuel rest
        match skipSpace rest with
        | 44 :: rest =>
          let (ms, rest) ← scanMembers fuel rest
          pure ((coerceUTF8 0 key, v) :: ms, rest)
        | 125 :: rest => pure ([(coerceUTF8 0 key, v)], rest)
        | _ => none
      | _ => none
    | _ => none

end

/-- A document: one value and nothing but blanks behind it. -/
def parse (s : Bytes) : Option Value := do
  let (v, rest) ← scanValue (s.length + 1) s
  if skipSpace rest = [] then pure v else none

end InfluxHandler.Go.Json
