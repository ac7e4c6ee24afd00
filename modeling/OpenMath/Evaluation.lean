/-
  Numeric evaluation.

  Leaves evaluate to their payloads, a few variables and symbols to constants,
  and an application of a known operator to the result of its operation on as
  many operands as that takes; any further operands are not looked at.  An
  operator is known by the compact text of the head.

  An evaluation has a message.  Where a value was rounded or a unit dropped, a
  note says so, and the notes on the operands go before that on the operator.
  What has no value says so instead, whatever was said on the way.

  * `Evaluation.apply`: the evaluation of an operation on operands;
  * `Evaluation.ofApplication`: that of an operator that is given by its text;
  * `Tree.evaluate`: that of a tree.
-/
import OpenMath.Compact.Printer
import OpenMath.Double.Text

namespace OpenMath

/-! ## Values -/

/-- What a tree may evaluate to. -/
inductive Value where
  | number (x : Double)
  | bool (b : Bool)
  | text (s : String)
  | bytes (bs : List UInt8)
deriving DecidableEq

namespace Value

/-- A number that was computed. -/
def ofFloat (x : Float) : Value := number (Double.ofFloat x)

/-- A value as a number; truth values are one and zero. -/
def toFloat? : Value → Option Float
  | number x => some x.toFloat
  | bool true => some 1
  | bool false => some 0
  | _ => none

/-- Whether a value counts as true: any number but zero and NaN, any bytes, and
    any text but the empty one. -/
def isTruthy : Value → Bool
  | number x => !x.isZero && !x.isNaN
  | bool b => b
  | text s => !s.isEmpty
  | bytes _ => true

/-- Equality of values of one sort; numbers are equal as numbers. -/
def equals : Value → Value → Bool
  | number x, number y => x.numericEq y
  | v, w => v == w

/-- A test on two values as numbers; it fails if one of them is none. -/
def comparing (test : Float → Float → Bool) (v w : Value) : Bool :=
  match v.toFloat?, w.toFloat? with
  | some x, some y => test x y
  | _, _ => false

/-- A list of bytes, in square brackets. -/
def bytesText (bs : List UInt8) : String :=
  "[" ++ ", ".intercalate (bs.map fun b => String.ofList (Digits.chars b.toNat)) ++ "]"

/-- A value as it stands in messages. -/
def toText : Value → String
  | number x => x.plainText
  | bool true => "true"
  | bool false => "false"
  | text s => s
  | bytes bs => bytesText bs

end Value

/-! ## Operations -/

/-- What an operator does with its operands. -/
inductive Operation where
  /-- a function of one number -/
  | unary (f : Float → Float)
  /-- a function of two numbers -/
  | binary (f : Float → Float → Float)
  /-- a test on two values -/
  | compare (test : Value → Value → Bool)
  /-- the negation of a truth value -/
  | negation

namespace Operation

/-- How many operands an operation takes. -/
def arity : Operation → Nat
  | unary _ | negation => 1
  | binary _ | compare _ => 2

/-- The result of an operation on values, if they are of its sort. -/
def result? : Operation → List Value → Option Value
  | unary f, [v] => v.toFloat?.map fun x => .ofFloat (f x)
  | binary f, [v, w] => v.toFloat?.bind fun x => w.toFloat?.map fun y => .ofFloat (f x y)
  | compare test, [v, w] => some (.bool (test v w))
  | negation, [v] => some (.bool !v.isTruthy)
  | _, _ => none

end Operation

/-! ## Constants and operators -/

/-- The ratio of a circle's circumference to its diameter. -/
def circleRatio : Float := (Double.mk 0x400921FB54442D18).toFloat

/-- The base of the natural logarithm. -/
def logarithmBase : Float := (Double.mk 0x4005BF0A8B145769).toFloat

/-- The factorial of a number rounded down: one up to one, infinite from twenty
    on. -/
def factorial (x : Float) : Float :=
  if x ≤ 1 then 1
  else if 20 ≤ x then (Double.infinity false).toFloat
  else (List.range x.toUInt64.toNat).foldl (fun p i => p * (i + 1).toFloat) 1

/-- How close two numbers are that count as approximately equal. -/
def closeness : Float := 0.01

/-- The operation of an operator, which is given by its compact text. -/
def operation? : String → Option Operation
  | "arith1.plus" => some <| .binary fun x y => x + y
  | "arith1.minus" => some <| .binary fun x y => x - y
  | "arith1.times" => some <| .binary fun x y => x * y
  | "arith1.divide" => some <| .binary fun x y => x / y
  | "arith1.power" => some <| .binary fun x y => x.pow y
  | "arith1.root" => some <| .binary fun x y => y.pow (1 / x)
  | "arith1.abs" => some <| .unary Float.abs
  | "arith1.unary_minus" => some <| .unary fun x => -x
  | "relation1.eq" => some <| .compare Value.equals
  | "relation1.approx" =>
    some <| .compare <| Value.comparing fun x y => (x - y).abs < closeness
  | "relation1.neq" => some <| .compare fun v w => !v.equals w
  | "relation1.lt" => some <| .compare <| Value.comparing fun x y => x < y
  | "relation1.gt" => some <| .compare <| Value.comparing fun x y => y < x
  | "relation1.le" => some <| .compare <| Value.comparing fun x y => x ≤ y
  | "relation1.ge" => some <| .compare <| Value.comparing fun x y => y ≤ x
  | "logic1.not" => some .negation
  | "transc1.sin" => some <| .unary Float.sin
  | "transc1.cos" => some <| .unary Float.cos
  | "transc1.tan" => some <| .unary Float.tan
  | "transc1.cot" => some <| .unary fun x => 1 / x.tan
  | "transc1.sec" => some <| .unary fun x => 1 / x.cos
  | "transc1.csc" => some <| .unary fun x => 1 / x.sin
  | "transc1.arcsin" => some <| .unary Float.asin
  | "transc1.arccos" => some <| .unary Float.acos
  | "transc1.arctan" => some <| .unary Float.atan
  | "transc1.arccot" => some <| .unary fun x => (1 / x).atan
  | "transc1.arcsec" => some <| .unary fun x => (1 / x).acos
  | "transc1.arccsc" => some <| .unary fun x => (1 / x).asin
  | "transc1.ln" => some <| .unary Float.log
  | "transc1.log" => some <| .binary fun base x => x.log / base.log
  | "integer1.factorial" => some <| .unary factorial
  | _ => none

/-- What is said about an approximate comparison. -/
def approximationNote : String :=
  "Values were rounded to two decimal places for approximate comparison."

/-! ## Evaluations -/

/-- The result of an evaluation: a value, if there is one, and a message, if
    there is something to say. -/
structure Evaluation where
  value : Option Value := none
  message : Option String := none

namespace Evaluation

/-- A value about which there is nothing to say. -/
def ofValue (v : Value) : Evaluation := { value := some v }

/-- A number that came to be by rounding. -/
def noted (x : Float) (note : String) : Evaluation where
  value := some (.ofFloat x)
  message := some note

/-- One more note, on a line of its own. -/
def note (e : Evaluation) (note : String) : Evaluation :=
  match e.message with
  | some message => { e with message := some (message ++ "\n" ++ note) }
  | none => { e with message := some note }

/-- The same with the message of another evaluation, if it has one. -/
def noteMessage (e : Evaluation) : Option String → Evaluation
  | some message => e.note message
  | none => e

/-- What has no value, with the message that says so. -/
def failed (e : Evaluation) (compact : String) : Evaluation :=
  { e with message := some ("Could not evaluate " ++ compact) }

/-! ### Leaves -/

/-- The variables that stand for constants; the others have no value. -/
def ofVar : String → Evaluation
  | "π" => noted circleRatio "The actual value of π has been rounded."
  | "e" => noted logarithmBase "The actual value of e has been rounded."
  | _ => {}

/-- The symbols that have a value by themselves. -/
def ofSymbol (s : Symbol) : Evaluation :=
  match s.toText with
  | "units.degrees" =>
    noted (circleRatio / 180) "Converting to degrees used an approximation of π."
  | "units.percent" => ofValue (.ofFloat 0.01)
  | "units.dollars" => noted 1 "Dollar units were dropped"
  | _ => {}

/-! ### Applications -/

/-- The values of the first operands, and `notes` with the messages about them;
    or the result as a whole, if an operand is missing or has no value. -/
def operandValues : Nat → List Evaluation → (notes : Evaluation) →
    Except Evaluation (List Value × Evaluation)
  | 0, _, notes => .ok ([], notes)
  | _ + 1, [], _ => .error {}
  | n + 1, operand :: operands, notes =>
    match operand.value with
    | none => .error operand
    | some v => do
      let (vs, notes) ← operandValues n operands (notes.noteMessage operand.message)
      return (v :: vs, notes)

/-- An operation on operands; those that it does not take are not looked at. -/
def apply (op : Operation) (operands : List Evaluation) : Evaluation :=
  match operandValues op.arity operands {} with
  | .ok (args, notes) => { value := op.result? args, message := notes.message }
  | .error result => result

/-- An operator on operands. -/
def ofApplication (operator : String) (operands : List Evaluation) : Evaluation :=
  match operation? operator with
  | some op =>
    let result := apply op operands
    if operator = "relation1.approx" ∧ result.value.isSome then result.note approximationNote
    else result
  | none => {}

end Evaluation

/-! ## Trees -/

namespace Tree

variable {ι : Type}

/-- The evaluation at a node, given those at its owned trees. -/
def evaluateNode (k : Kind) (ss : Slots (Tree ι × Evaluation)) : Evaluation :=
  match k with
  | .integer v => .ofValue (.number v.toDouble)
  | .float x => .ofValue (.number x)
  | .string s => .ofValue (.text s)
  | .byteArray bs => .ofValue (.bytes bs)
  | .symbol s => .ofSymbol s
  | .var name => .ofVar name
  | .application =>
    match ss.children with
    | [] => {}
    | head :: operands => .ofApplication head.1.compact (operands.map (·.2))
  | .binding | .error => {}

/-- The same, with a message that says so if there is no value. -/
def evaluateStep (t : Tree ι) (ss : Slots (Tree ι × Evaluation)) : Evaluation :=
  let result := evaluateNode t.kind ss
  if result.value.isNone then result.failed t.compact else result

/-- The value of a tree, if it has one, and what is said about it. -/
def evaluate : Tree ι → Evaluation := recurse evaluateStep

theorem evaluate_eq (t : Tree ι) :
    t.evaluate = evaluateStep t (t.slots.mapContent fun u => (u, evaluate u)) := by
  rw [evaluate, recurse_eq]

end Tree

end OpenMath
