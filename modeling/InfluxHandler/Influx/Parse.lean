import InfluxHandler.Influx.Fields
import InfluxHandler.Go.Json

/-!
# Reading lines

`parsePoint` reads one line of the protocol, `key fields timestamp`; `parsePointsWithPrecision` cuts
a body into lines and reads them one by one. A line that cannot be read is reported and does not
stop the others; only a line with tags that crowd the slice of `scanTags` ends all in a panic.

A scanner works on the text from its position on. Where the source looks further back than one byte,
the bytes before the position are passed along from right to left.
-/
namespace InfluxHandler.Influx
open Go Escape

/-- What the package reads besides its arguments: `strconv.ParseFloat`, and the switch for unsigned
fields. -/
structure Parser where
  parseFloat : Bytes → Option Float
  enableUint64Support : Bool

/-- A parser that reads decimal numbers and no unsigned ones. -/
def decimalParser : Parser := ⟨Json.parseDecimal, false⟩

/-! ## Errors -/

def errInvalidNumber : GoError := .text (str "invalid number")
def errInvalidPoint : GoError := .text (str "point is invalid")

def numErrMessage : NumErr → Bytes
  | .badSyntax => str "invalid syntax"
  | .outOfRange => str "value out of range"

/-- The text of a `strconv.NumError`. What comes here is made of digits, signs and suffixes, which
are quoted as they are. -/
def numErrorText (func : String) (input : Bytes) (reason : NumErr) : Bytes :=
  str "strconv." ++ str func ++ str ": parsing \"" ++ input ++ str "\": " ++ numErrMessage reason

/-- `err.Error()`. -/
def errorText : GoError → Bytes
  | .text message => message
  | .parseInt input reason => numErrorText "ParseInt" input reason

/-! ## Numbers -/

def isNumeric (c : UInt8) : Bool := isDigit c || c == Byte.dot

/-- What has been seen of a number. -/
structure NumberScan where
  isInt : Bool := false
  isUnsigned : Bool := false
  decimal : Bool := false
  scientific : Bool := false
  deriving DecidableEq

/-- What a byte of a number does; `started` is whether it is not the first, `prev` the byte before
it and `left` the number of bytes behind it. -/
def NumberScan.step (st : NumberScan) (started : Bool) (prev c : UInt8) (left : Nat) :
    Except GoError NumberScan :=
  if c = 105 ∧ started ∧ ¬ (st.isInt ∨ st.isUnsigned) then .ok { st with isInt := true }
  else if c = 117 ∧ started ∧ ¬ (st.isInt ∨ st.isUnsigned) then .ok { st with isUnsigned := true }
  else if c = Byte.dot ∧ st.decimal then .error errInvalidNumber
  else
    let st := if c = Byte.dot then { st with decimal := true } else st
    if started ∧ (c = 101 ∨ c = 69) then .ok { st with scientific := true }
    else if (c = 43 ∨ c = Byte.minus) ∧ (prev = 101 ∨ prev = 69) then .ok st
    else if 2 ≤ left ∧ (c = 78 ∨ c = 110) then .error errInvalidNumber
    else if isNumeric c then .ok st
    else .error errInvalidNumber

/-- The loop of `scanNumber`: what was seen, and the text from the comma or space on. -/
def scanNumberLoop (st : NumberScan) (started : Bool) (prev : UInt8) :
    Bytes → Except GoError (NumberScan × Bytes)
  | [] => .ok (st, [])
  | c :: buf =>
    if c = Byte.comma ∨ c = Byte.space then .ok (st, c :: buf)
    else do
      let st ← st.step started prev c buf.length
      scanNumberLoop st true c buf

/-- The text between two positions. -/
def upTo (buf rest : Bytes) : Bytes := buf.take (buf.length - rest.length)

/-- The checks behind the loop, on the whole text of the number. Long numbers are parsed to see
whether they are in range. -/
def Parser.checkNumber (P : Parser) (st : NumberScan) (text : Bytes) : Except GoError Unit := do
  if (st.isInt ∨ st.isUnsigned) ∧ (st.decimal ∨ st.scientific) then .error errInvalidNumber
  let negative := text.head? = some Byte.minus
  let numericDigits := text.length - st.isInt.toNat - st.decimal.toNat - (decide negative).toNat
  if numericDigits = 0 then .error errInvalidNumber
  if st.isInt then
    if text.getLast? ≠ some 105 then .error errInvalidNumber
    if 19 ≤ text.dropLast.length then
      match parseInt text.dropLast with
      | .ok _ => pure ()
      | .error e =>
        .error (.text (str "unable to parse integer " ++ text.dropLast ++ str ": " ++ errorText e))
  else if st.isUnsigned then
    if ¬ P.enableUint64Support then .error errInvalidNumber
    if text.getLast? ≠ some 117 then .error errInvalidNumber
    if negative then .error errInvalidNumber
    if 20 ≤ text.dropLast.length then
      match parseUint text.dropLast with
      | .ok _ => pure ()
      | .error e =>
        .error (.text (str "unable to parse unsigned " ++ text.dropLast ++ str ": " ++
          numErrorText "ParseUint" text.dropLast e))
  else if st.scientific ∨ 25 ≤ text.length then
    if P.parseFloat text = none then .error (.text (str "invalid float"))

/-- The text behind the number. -/
def Parser.scanNumber (P : Parser) (buf : Bytes) : Except GoError Bytes := do
  let negative := buf.head? = some Byte.minus
  if negative ∧ buf.tail = [] then .error errInvalidNumber
  let (st, rest) ←
    if negative then scanNumberLoop {} true Byte.minus buf.tail
    else scanNumberLoop {} false Byte.equals buf
  P.checkNumber st (upTo buf rest)
  pure rest

/-! ## Booleans -/

/-- The text behind the boolean. -/
def scanBoolean (buf : Bytes) : Except GoError Bytes :=
  let text := buf.head?.toList ++ buf.tail.takeWhile fun c => c != Byte.comma && c != Byte.space
  let words := [str "t", str "f", str "T", str "F", str "true", str "false", str "TRUE", str "True",
    str "FALSE", str "False"]
  if words.contains text then .ok (buf.drop text.length) else .error (.text (str "invalid boolean"))

/-! ## The fields of a line -/

/-- What has been seen of the fields. -/
structure FieldsScan where
  quoted : Bool := false
  equals : Nat := 0
  commas : Nat := 0
  deriving DecidableEq

/-- What follows an equals sign outside quotes: the text behind a number or a boolean, or the text
from the quote of a string on. `back` are the bytes before the sign. -/
def Parser.scanFieldStart (P : Parser) (back buf : Bytes) : Except GoError Bytes := do
  let before := back.head?
  if (before = some Byte.space ∨ before = some Byte.comma) ∧
      back.tail.head? ≠ some Byte.backslash then
    .error (.text (str "missing field key"))
  match buf with
  | [] => .error (.text (str "missing field value"))
  | c :: _ =>
    if c = Byte.comma ∨ c = Byte.space then .error (.text (str "missing field value"))
    if isNumeric c ∨ c = Byte.minus ∨ c = 78 ∨ c = 110 then P.scanNumber buf
    else if c ≠ Byte.quote then scanBoolean buf
    else pure buf

/-- The loop of `scanFields`. Every turn takes a byte. -/
def Parser.scanFieldsLoop (P : Parser) :
    Nat → FieldsScan → Bytes → Bytes → Except GoError (FieldsScan × Bytes)
  | 0, st, _, buf => .ok (st, buf)
  | _ + 1, st, _, [] => .ok (st, [])
  | fuel + 1, st, back, c :: buf =>
    if c = Byte.backslash ∧ buf ≠ [] then
      P.scanFieldsLoop fuel st (buf.take 1 ++ c :: back) (buf.drop 1)
    else if c = Byte.quote ∧ st.commas < st.equals then
      P.scanFieldsLoop fuel { st with quoted := !st.quoted } (c :: back) buf
    else if c = Byte.equals ∧ st.quoted = false then do
      let rest ← P.scanFieldStart back buf
      P.scanFieldsLoop fuel { st with equals := st.equals + 1 }
        ((upTo buf rest).reverse ++ c :: back) rest
    else if c = Byte.comma ∧ st.quoted = false then
      P.scanFieldsLoop fuel { st with commas := st.commas + 1 } (c :: back) buf
    else if c = Byte.space ∧ st.quoted = false then .ok (st, c :: buf)
    else P.scanFieldsLoop fuel st (c :: back) buf

/-- The fields and the text behind them; `back` are the bytes of the line before the position. -/
def Parser.scanFields (P : Parser) (back buf : Bytes) : Except GoError (Bytes × Bytes) := do
  let fields := skipWhitespace buf
  let (st, rest) ←
    P.scanFieldsLoop fields.length {} ((upTo buf fields).reverse ++ back) fields
  if st.quoted then .error (.text (str "unbalanced quotes"))
  if st.equals = 0 ∨ st.commas ≠ st.equals - 1 then .error (.text (str "invalid field format"))
  pure (upTo fields rest, rest)

/-- `walkFields` with the check of `parsePoint` that the series key of every field fits. -/
def walkFields (key : Bytes) : Nat → Bytes → Except GoError Unit
  | 0, _ => .ok ()
  | fuel + 1, buf =>
    if buf = [] then .ok ()
    else do
      let (k, rest) := scanTo Byte.equals none buf
      if rest.length < 2 then .error (.text (str "invalid value: field-key=" ++ k))
      let (_, rest) := scanFieldValue false rest.tail
      checkKeySize key k
      walkFields key fuel rest.tail

/-! ## The time of a line -/

/-- The digits of a timestamp, and the text behind them; `first` is whether a sign may come. -/
def scanTimeLoop (first : Bool) : Bytes → Except GoError (Bytes × Bytes)
  | [] => .ok ([], [])
  | c :: buf =>
    if c = Byte.newline ∨ c = Byte.space then .ok ([], c :: buf)
    else if first ∧ c = Byte.minus ∨ isDigit c then do
      let (ts, rest) ← scanTimeLoop false buf
      pure (c :: ts, rest)
    else .error (.text (str "bad timestamp"))

def scanTime (buf : Bytes) : Except GoError (Bytes × Bytes) :=
  scanTimeLoop true (skipWhitespace buf)

/-- `point.SetPrecision`. -/
def setPrecision (t : Time) (precision : Bytes) : Time :=
  if precision = str "u" then t.truncate 1000
  else if precision = str "ms" then t.truncate 1000000
  else if precision = str "s" then t.truncate 1000000000
  else if precision = str "m" then t.truncate 60000000000
  else if precision = str "h" then t.truncate 3600000000000
  else t

/-- The time of a line from its digits, the default if there are none. -/
def lineTime (ts rest : Bytes) (defaultTime : Time) (precision : Bytes) : Except GoError Time :=
  if ts = [] then .ok (setPrecision defaultTime precision)
  else do
    let n ← parseInt ts
    let t ← safeCalcTime n precision
    if rest.all (· == Byte.space) then pure t else .error errInvalidPoint

/-! ## Lines -/

/-- What `parsePoint` does with the key and the text behind it; `back` are the bytes before that
text. -/
def Parser.parseBehindKey (P : Parser) (back key rest : Bytes) (defaultTime : Time)
    (precision : Bytes) : Except GoError Point := do
  if key = [] then .error (.text (str "missing measurement"))
  if maxKeyLength < key.length then
    .error (.text (str "max key length exceeded: " ++ formatUint key.length ++ str " > " ++
      formatUint maxKeyLength))
  let (fields, rest) ← P.scanFields back rest
  if fields = [] then .error (.text (str "missing fields"))
  walkFields key fields.length fields
  let (ts, rest) ← scanTime rest
  let time ← lineTime ts rest defaultTime precision
  pure ⟨key, time, fields⟩

def Parser.parsePoint (P : Parser) (buf : Bytes) (defaultTime : Time) (precision : Bytes) :
    Except ScanFailure Point := do
  let (key, rest) ← scanKey buf
  ScanFailure.check (P.parseBehindKey (upTo buf rest).reverse key rest defaultTime precision)

/-- What has been seen of a line. -/
structure LineScan where
  fields : Bool := false
  quoted : Bool := false
  equals : Nat := 0
  commas : Nat := 0
  deriving DecidableEq

/-- What a byte that is not escaped does; nothing at the newline that ends the line. -/
def LineScan.step (st : LineScan) (c : UInt8) : Option LineScan :=
  let st := if c = Byte.space then { st with fields := true } else st
  if st.fields ∧ st.quoted = false ∧ c = Byte.equals then some { st with equals := st.equals + 1 }
  else if st.fields ∧ st.quoted = false ∧ c = Byte.comma then
    some { st with commas := st.commas + 1 }
  else if st.fields ∧ c = Byte.quote ∧ st.commas < st.equals then
    some { st with quoted := !st.quoted }
  else if c = Byte.newline ∧ st.quoted = false then none
  else some st

/-- The line at the front and the text from its newline on; `escaped` is whether the byte before was
a backslash that counts. -/
def scanLine (st : LineScan) (escaped : Bool) : Bytes → Bytes × Bytes
  | [] => ([], [])
  | c :: buf =>
    if escaped then (c :: (scanLine st false buf).1, (scanLine st false buf).2)
    else if c = Byte.backslash ∧ 2 ≤ buf.length then
      (c :: (scanLine st true buf).1, (scanLine st true buf).2)
    else match st.step c with
      | none => ([], c :: buf)
      | some st => (c :: (scanLine st false buf).1, (scanLine st false buf).2)

section
variable (P : Parser) (defaultTime : Time) (precision : Bytes)

/-- What becomes of a line: nothing if it is blank or a comment, else a point or a message, or a
panic. -/
def Parser.readBlock (block : Bytes) : Option (Except ScanFailure Point) :=
  let line := skipWhitespace block
  if line = [] ∨ line.head? = some Byte.hash then none
  else
    let line := if block.getLast? = some Byte.newline then line.dropLast else line
    match P.parsePoint line defaultTime precision with
    | .ok pt => some (.ok pt)
    | .error (.err e) =>
      some (.error (.err (.text (str "unable to parse '" ++ line ++ str "': " ++ errorText e))))
    | .error .indexOutOfRange => some (.error .indexOutOfRange)

/-- The loop over the lines of a body. Every turn takes a byte. -/
def Parser.readBlocks : Nat → Bytes → List (Except ScanFailure Point)
  | 0, _ => []
  | fuel + 1, buf =>
    if buf = [] then []
    else
      let (block, rest) := scanLine {} false buf
      (P.readBlock defaultTime precision block).toList ++ Parser.readBlocks fuel rest.tail

/-- The messages of the lines that failed. -/
def failedLines (blocks : List (Except ScanFailure Point)) : List Bytes :=
  blocks.filterMap fun b => match b with
    | .error (.err e) => some (errorText e)
    | _ => none

/-- The points and the messages, which the loop collects. If a line panics, nothing is left of the
others. -/
def collectBlocks (blocks : List (Except ScanFailure Point)) : Option (List Point × Option Bytes) :=
  if .error .indexOutOfRange ∈ blocks then none
  else some (blocks.filterMap Except.toOption,
    if failedLines blocks = [] then none else some (join (failedLines blocks) [Byte.newline]))

/-- The points of a body, and the error with the messages of the lines that failed; nothing if the
goroutine panics. -/
def Parser.parsePointsWithPrecision (buf : Bytes) : Option (List Point × Option Bytes) :=
  collectBlocks (P.readBlocks defaultTime precision buf.length buf)

end

end InfluxHandler.Influx
