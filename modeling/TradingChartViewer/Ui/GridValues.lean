import Mathlib.Algebra.Order.Floor.Ring
import Mathlib.Data.Rat.Floor
import TradingChartViewer.Lib.Loop

/-!
# The price grid

`ui::GridValues`: the horizontal lines of the chart, in cents. `float` and
`double` are exact: they are rationals. `rangeInCents` is an `int`, to which a
number is converted that need not fit (`toInt`); the cents of a line are exact.
What only draws (texts, colours) is left out. The loop of `redefineValuesVector`
runs for at most `n` passes.
-/

namespace TCV.Ui

open Lib.Loop

/-- What a conversion to `int` keeps. -/
def truncate (x : Rat) : Int := x.num.tdiv x.den

/-- `std::numeric_limits<int>::min()`. -/
def kIntMin : Int := -2 ^ 31

/-- A conversion to an `int` of 32 bits. Of a number that does not fit the standard
leaves it undefined; here it gives the least `int`, as on x86-64. -/
def toInt (x : Rat) : Int :=
  if kIntMin ≤ truncate x ∧ truncate x < 2 ^ 31 then truncate x else kIntMin

/-- `std::round`: halves go away from zero. -/
def stdRound (x : Rat) : Int := if 0 ≤ x then ⌊x + 1 / 2⌋ else -⌊-x + 1 / 2⌋

/-- `std::numeric_limits<float>::max()`. -/
def kFloatMax : Rat := (2 ^ 24 - 1) * 2 ^ 104

structure GridValue where
  value : Int
  positionX : Rat
  positionY : Rat
deriving DecidableEq, Repr

/-- The constructor does not set `minRealValue`. -/
structure GridValues where
  minRealValue : Rat
  jumpValue : Int := 0
  minVal : Rat := -kFloatMax
  maxVal : Rat := kFloatMax
  rangeInCents : Int := 0
  centsperpixel : Rat := 0
  values : List GridValue := []
deriving DecidableEq, Repr

/-- The loop of `redefineValuesVector`. -/
structure Fill where
  contador : Nat
  values : List GridValue

namespace GridValues

variable (n : Nat) (s : GridValues)

def getValuePosY (value : Int) : Rat := 960 - (value - s.minRealValue) / s.centsperpixel

/-- The first divisor whose quotient is even. -/
def divisor : Option Int :=
  ([10, 11, 12, 13, 14, 15, 16, 17, 18, 19] : List Int).find? fun i =>
    (s.rangeInCents.tdiv i).tmod 2 = 0

/-- The step that `redefineValuesVector` takes. -/
def nextJump : Int :=
  let jumpValue :=
    match s.divisor with
    | some i => s.rangeInCents.tdiv i
    | none => s.jumpValue
  if jumpValue < 1 then 1 else jumpValue

def fillBody (f : Fill) : Fill ⊕ List GridValue :=
  if s.minRealValue + f.contador * s.jumpValue ≤ s.minRealValue + s.rangeInCents then
    let value := truncate (s.minRealValue + f.contador * s.jumpValue)
    .inl ⟨f.contador + 1, f.values ++ [⟨value, 1850, s.getValuePosY value⟩]⟩
  else .inr f.values

def redefineValuesVector : Option GridValues :=
  let s := { s with jumpValue := s.nextJump }
  if s.jumpValue ≠ 0 then (runFor s.fillBody n ⟨0, []⟩).map fun values => { s with values := values }
  else some { s with values := [] }

/-- The end of the four handlers. -/
def setRange (range : Rat) : GridValues :=
  let rangeInCents := toInt range
  let posiblevaluesinrange := toInt (rangeInCents + 1)
  { s with rangeInCents := rangeInCents, centsperpixel := posiblevaluesinrange / 960 }

def onMaxPriceLimitChanged (newMax : Rat) : Option GridValues :=
  let maxVal := newMax * 100
  let maxVal := maxVal + maxVal * (1 / 1000)
  let s := { s with maxVal := maxVal }
  (s.setRange (s.maxVal - s.minVal)).redefineValuesVector n

def onMinPriceLimitChanged (newMin : Rat) : Option GridValues :=
  let minVal := newMin * 100
  let minVal := minVal - minVal * (1 / 1000)
  let s := { s with minVal := minVal, minRealValue := minVal }
  (s.setRange (s.maxVal - s.minVal)).redefineValuesVector n

def zoomOut : Option GridValues :=
  if s.jumpValue < 1000000 then
    let minRealValue := s.minRealValue - stdRound (1 / 10 * s.rangeInCents)
    let s := { s with minRealValue := minRealValue }
    (s.setRange (s.rangeInCents + stdRound (1 / 5 * s.rangeInCents))).redefineValuesVector n
  else some s

def zoomIn : Option GridValues :=
  if s.jumpValue > 1 then
    let minRealValue := s.minRealValue + stdRound (1 / 10 * s.rangeInCents)
    let s := { s with minRealValue := minRealValue }
    (s.setRange (s.rangeInCents - stdRound (1 / 5 * s.rangeInCents))).redefineValuesVector n
  else some s

end GridValues

/-- A call on the grid. -/
inductive GridCall
  | maxPriceLimitChanged (newMax : Rat)
  | minPriceLimitChanged (newMin : Rat)
  | zoomOut
  | zoomIn
deriving DecidableEq, Repr

def GridValues.call (n : Nat) (s : GridValues) : GridCall → Option GridValues
  | .maxPriceLimitChanged newMax => s.onMaxPriceLimitChanged n newMax
  | .minPriceLimitChanged newMin => s.onMinPriceLimitChanged n newMin
  | .zoomOut => s.zoomOut n
  | .zoomIn => s.zoomIn n

end TCV.Ui
