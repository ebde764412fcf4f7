import InfluxHandler.Go.Strconv

/-!
# strconv: printing floating-point numbers

`formatFloat v` is `strconv.AppendFloat(nil, v, 'f', -1, 64)`: the least number of digits that
reads back as `v`, written without an exponent. The search is over exact integers; reading back
is `Float.ofScientific`, which rounds to nearest even as `strconv.ParseFloat` does.
-/
namespace InfluxHandler.Go
open Numeral Float.Model

/-- A positive number `num / den`. -/
structure Ratio where
  num : Nat
  den : Nat

/-- The number `m * 2 ^ e`. -/
def Ratio.ofBinary (m : Nat) (e : Int) : Ratio :=
  if 0 ≤ e then ⟨m * 2 ^ e.toNat, 1⟩ else ⟨m, 2 ^ (-e).toNat⟩

/-- The position of the decimal point: the least `p` with `r < 10 ^ p`. -/
def Ratio.point (r : Ratio) : Int :=
  if r.den ≤ r.num then (numeral 10 (r.num / r.den)).length
  else 1 - (numeral 10 (r.den / r.num)).length

/-- The numerator and denominator of `r * 10 ^ k`. -/
def Ratio.shift (r : Ratio) (k : Int) : Ratio :=
  if 0 ≤ k then ⟨r.num * 10 ^ k.toNat, r.den⟩ else ⟨r.num, r.den * 10 ^ (-k).toNat⟩

/-- `r` rounded to the nearest integer, ties to even. -/
def Ratio.round (r : Ratio) : Nat :=
  let q := r.num / r.den
  let twice := 2 * (r.num % r.den)
  if r.den < twice ∨ r.den = twice ∧ q % 2 = 1 then q + 1 else q

/-- The integer `c` with `n` digits for which `c / 10 ^ k` reads back as the number, if there is
one: the one below, the one above, or the nearer when both do. -/
def decimalOfLength (readsBack : Nat → Int → Bool) (r : Ratio) (n : Nat) : Option (Nat × Int) :=
  let k := n - r.point
  let scaled := r.shift k
  let down := scaled.num / scaled.den
  match readsBack down k, readsBack (down + 1) k with
  | true, true => some (scaled.round, k)
  | true, false => some (down, k)
  | false, true => some (down + 1, k)
  | false, false => none

/-- The shortest decimal; seventeen digits determine every `float64`. -/
def shortestDecimal (readsBack : Nat → Int → Bool) (r : Ratio) : Nat × Int :=
  ((List.range' 1 17).findSome? (decimalOfLength readsBack r)).getD
    ((r.shift (17 - r.point)).round, 17 - r.point)

/-- The digits before the decimal point of `0.d₁d₂… * 10 ^ point`. -/
def wholeDigits (ds : List Nat) (point : Int) : List Nat :=
  if point ≤ 0 then [0] else ds.take point.toNat ++ List.replicate (point.toNat - ds.length) 0

/-- The digits behind it. -/
def fractionDigits (ds : List Nat) (point : Int) : List Nat :=
  if point ≤ 0 then List.replicate (-point).toNat 0 ++ ds else ds.drop point.toNat

def fixedForm (ds : List Nat) (point : Int) : Bytes :=
  (wholeDigits ds point).map digitByte ++
    if ds = [] ∨ fractionDigits ds point = [] then []
    else Byte.dot :: (fractionDigits ds point).map digitByte

/-- The `%f` form of `c / 10 ^ k` without trailing zeros. -/
def formatDecimal (c : Nat) (k : Int) : Bytes :=
  fixedForm ((numeral 10 c).reverse.dropWhile (· == 0)).reverse ((numeral 10 c).length - k)

def formatSign : UnpackedFloat.Sign → Bytes
  | .positive => []
  | .negative => [Byte.minus]

/-- The text of an unpacked number, given how decimals are read back. -/
def formatUnpacked (readsBack : Nat → Int → Bool) : UnpackedFloat → Bytes
  | .notANumber => str "NaN"
  | .infinity .positive => str "+Inf"
  | .infinity .negative => str "-Inf"
  | .zero s => formatSign s ++ fixedForm [] 0
  | .finite s m e _ =>
    let (c, k) := shortestDecimal readsBack (.ofBinary m e)
    formatSign s ++ formatDecimal c k

def readFloat (c : Nat) (k : Int) : Float :=
  if 0 ≤ k then Float.ofScientific c true k.toNat else Float.ofScientific c false (-k).toNat

def formatFloat (v : Float) : Bytes :=
  formatUnpacked (fun c k => readFloat c k == v.abs) v.toModel.unpack

def readFloat32 (c : Nat) (k : Int) : Float32 :=
  if 0 ≤ k then Float32.ofScientific c true k.toNat else Float32.ofScientific c false (-k).toNat

def formatFloat32 (v : Float32) : Bytes :=
  formatUnpacked (fun c k => readFloat32 c k == v.abs) v.toModel.unpack

/-! ## The bytes of a printed number -/

/-- The bytes that a printed floating-point number is made of. -/
def floatBytes : Bytes := str "+-.0123456789INafn"

theorem digitByte_mem_floatBytes {d : Nat} (h : d < 10) : digitByte d ∈ floatBytes := by
  interval_cases d <;> decide

theorem map_digitByte_mem {ds : List Nat} (hd : ∀ d ∈ ds, d < 10) {c : UInt8}
    (h : c ∈ ds.map digitByte) : c ∈ floatBytes := by
  obtain ⟨d, hd', rfl⟩ := List.mem_map.mp h
  exact digitByte_mem_floatBytes (hd d hd')

theorem lt_ten_of_mem_zeros {n d : Nat} (h : d ∈ List.replicate n 0) : d < 10 := by
  rw [List.eq_of_mem_replicate h]
  norm_num

section
variable {ds : List Nat} {point : Int}

theorem wholeDigits_lt (hd : ∀ d ∈ ds, d < 10) : ∀ d ∈ wholeDigits ds point, d < 10 := by
  intro d h
  unfold wholeDigits at h
  split_ifs at h
  · rw [List.mem_singleton.mp h]
    norm_num
  · rcases List.mem_append.mp h with h | h
    · exact hd d (List.mem_of_mem_take h)
    · exact lt_ten_of_mem_zeros h

theorem fractionDigits_lt (hd : ∀ d ∈ ds, d < 10) : ∀ d ∈ fractionDigits ds point, d < 10 := by
  intro d h
  unfold fractionDigits at h
  split_ifs at h
  · rcases List.mem_append.mp h with h | h
    · exact lt_ten_of_mem_zeros h
    · exact hd d h
  · exact hd d (List.mem_of_mem_drop h)

theorem mem_fixedForm (hd : ∀ d ∈ ds, d < 10) {c : UInt8} (h : c ∈ fixedForm ds point) :
    c ∈ floatBytes := by
  rcases List.mem_append.mp h with h | h
  · exact map_digitByte_mem (wholeDigits_lt hd) h
  · split_ifs at h
    · cases h
    · rcases List.mem_cons.mp h with rfl | h
      · decide
      · exact map_digitByte_mem (fractionDigits_lt hd) h

end

theorem mem_formatDecimal {n : Nat} {k : Int} {c : UInt8} (h : c ∈ formatDecimal n k) :
    c ∈ floatBytes := by
  refine mem_fixedForm ?_ h
  intro d hd
  have hd := (List.dropWhile_suffix _).subset (List.mem_reverse.mp hd)
  exact lt_base_of_mem_numeral (by norm_num) (List.mem_reverse.mp hd)

theorem mem_formatSign {s : UnpackedFloat.Sign} {c : UInt8} (h : c ∈ formatSign s) :
    c ∈ floatBytes := by
  cases s with
  | positive => cases h
  | negative =>
    rw [List.mem_singleton.mp h]
    decide

theorem mem_floatBytes_of_all {s : Bytes} (hs : s.all floatBytes.contains = true) {c : UInt8}
    (h : c ∈ s) : c ∈ floatBytes :=
  List.contains_iff_mem.mp (List.all_eq_true.mp hs c h)

theorem mem_formatUnpacked {readsBack : Nat → Int → Bool} {u : UnpackedFloat} {c : UInt8}
    (h : c ∈ formatUnpacked readsBack u) : c ∈ floatBytes := by
  cases u with
  | notANumber => exact mem_floatBytes_of_all (s := str "NaN") (by decide) h
  | infinity s =>
    cases s with
    | positive => exact mem_floatBytes_of_all (s := str "+Inf") (by decide) h
    | negative => exact mem_floatBytes_of_all (s := str "-Inf") (by decide) h
  | zero s =>
    rcases List.mem_append.mp h with h | h
    · exact mem_formatSign h
    · exact mem_fixedForm (by simp) h
  | finite s m e hm =>
    rcases List.mem_append.mp h with h | h
    · exact mem_formatSign h
    · exact mem_formatDecimal h

/-- A printed number stays on its line. -/
theorem newline_not_mem_formatFloat (v : Float) : Byte.newline ∉ formatFloat v := fun h =>
  absurd (mem_formatUnpacked h) (by decide)

/-! ## The shape of a printed number -/

/-- Digits, perhaps with a sign before them and a point and more digits behind. -/
structure DecimalText (s : Bytes) : Prop where
  shape : ∃ (sign : UnpackedFloat.Sign) (whole fraction : List Nat), whole ≠ [] ∧
    (∀ d ∈ whole, d < 10) ∧ (∀ d ∈ fraction, d < 10) ∧
    s = formatSign sign ++ (whole.map digitByte ++
      if fraction = [] then [] else Byte.dot :: fraction.map digitByte)

theorem wholeDigits_ne_nil (ds : List Nat) (point : Int) : wholeDigits ds point ≠ [] := by
  unfold wholeDigits
  split_ifs with h
  · simp
  · intro empty
    have length := congrArg List.length empty
    simp only [List.length_append, List.length_take, List.length_replicate, List.length_nil] at length
    omega

theorem decimalText_fixedForm (sign : UnpackedFloat.Sign) {ds : List Nat} (hd : ∀ d ∈ ds, d < 10)
    (point : Int) : DecimalText (formatSign sign ++ fixedForm ds point) := by
  refine ⟨sign, wholeDigits ds point, if ds = [] then [] else fractionDigits ds point,
    wholeDigits_ne_nil ds point, wholeDigits_lt hd, ?_, ?_⟩
  · split_ifs
    · simp
    · exact fractionDigits_lt hd
  · unfold fixedForm
    by_cases h : ds = []
    · simp [h]
    · simp only [h, false_or, if_false]

theorem decimalText_formatFloat {v : Float} (hinf : v.isInf = false) (hnan : v.isNaN = false) :
    DecimalText (formatFloat v) := by
  have inf : v.toModel.unpack.isInf = false := hinf
  have nan : v.toModel.unpack.isNaN = false := hnan
  unfold formatFloat
  generalize v.toModel.unpack = u at inf nan
  cases u with
  | notANumber => cases nan
  | infinity s => cases inf
  | zero s => exact decimalText_fixedForm s (by simp) 0
  | finite s m e hm =>
    refine decimalText_fixedForm s (fun d hd => ?_) _
    have hd := (List.dropWhile_suffix _).subset (List.mem_reverse.mp hd)
    exact lt_base_of_mem_numeral (by norm_num) (List.mem_reverse.mp hd)

end InfluxHandler.Go
