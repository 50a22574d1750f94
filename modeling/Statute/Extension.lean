import Statute.Arithmetic

/-!
# The standard library

Ten functions that every program can call. Arguments arrive without boxes and in a number that the
arity of the function accepts.
-/

namespace Statute

namespace Primitive

/-- The name of a function of the standard library. -/
def name : Primitive → String
  | abs => "abs"
  | round => "round"
  | min => "min"
  | max => "max"
  | pi => "pi"
  | length => "length"
  | size => "size"
  | text => "text"
  | list => "list"
  | item => "item"

/-- The numbers of arguments of a function of the standard library. -/
def arity : Primitive → Arity
  | abs | length | size | text => .exact 1
  | round => .range 1 2
  | min | max => .atLeast 1
  | pi => .none
  | list => .atLeast 0
  | item => .exact 2

/-- All functions of the standard library. -/
def all : List Primitive :=
  [abs, round, min, max, pi, length, size, text, list, item]

/-- A function of the standard library as an extension. -/
def toExtension (p : Primitive) : Extension :=
  ⟨p.name, p.arity, some p⟩

/-- A numeric argument as a double. -/
def numeric (name : String) (v : Value) : Except Failure Float :=
  match v.toFloat? with
  | some x => .ok x
  | none => .error (.invalidType (name ++ " expects a number, got " ++ v.typeName))

/-- The absolute value. -/
def absOf (v : Value) : Except Failure Value :=
  match v with
  | .int i =>
      match int64? i.toInt.natAbs with
      | some a => .ok (.int a)
      | none => .error (.new .overflow "integer overflow in abs")
  | _ => (numeric "abs" v).map fun x => .number x.abs

/-- A number rounded to the closest integer, a half away from zero; it stays a number if it does
not fit 64 bits. -/
def roundWhole (x : Float) : Value :=
  let r := x.round
  if r.abs < 9223372036854775808.0 then .int r.toInt64 else .number r

/-- Rounding to a whole number, or to a number of decimal places between zero and fifteen. -/
def roundOf (h : Heap) (v : Value) (places : Option Value) : Except Failure Value := do
  let x ← numeric "round" v
  match places with
  | none =>
      match v with
      | .int i => return .int i
      | _ => return roundWhole x
  | some d =>
      let refused : Failure :=
        .invalidType ("round expects a number of digits between 0 and 15, got " ++ h.text d)
      match d with
      | .int i =>
          if 0 ≤ i.toInt ∧ i.toInt ≤ 15 then
            let factor := Float.ofNat (Nat.pow 10 i.toInt.toNat)
            return .number ((x * factor).round / factor)
          else throw refused
      | _ => throw refused

def choices : List Value → List Value
  | [.list items] => items
  | args => args

/-- The best of the remaining values, given the best one so far with its size. -/
def extremeFrom (name : String) (better : Float → Float → Bool) :
    Value → Float → List Value → Except Failure Value
  | best, _, [] => .ok best
  | best, x, v :: vs => do
      let y ← numeric name v
      if better y x then extremeFrom name better v y vs else extremeFrom name better best x vs

/-- The first of the best values. -/
def extreme (name : String) (better : Float → Float → Bool) (args : List Value) :
    Except Failure Value :=
  match choices args with
  | [] => .error (.invalidType (name ++ " of an empty list"))
  | v :: vs => do
      let x ← numeric name v
      extremeFrom name better v x vs

/-- The number of characters of a string or of items of a list. -/
def lengthOf (v : Value) : Except Failure Value :=
  match v with
  | .text s => .ok (.int (Int64.ofNat s.length))
  | .list items => .ok (.int (Int64.ofNat items.length))
  | _ => .error (.invalidType ("length expects a string or a list, got " ++ v.typeName))

/-- The number of items of a list or of fields of a record; the empty value has none. -/
def sizeOfValue (h : Heap) (v : Value) : Except Failure Value :=
  match v with
  | .list items => .ok (.int (Int64.ofNat items.length))
  | .record r => .ok (.int (Int64.ofNat (h.record r).fields.length))
  | .empty => .ok (.int 0)
  | _ => .error (.invalidType ("size expects a list or a record, got " ++ v.typeName))

/-- The item of a list at an index, counted from zero. -/
def itemOf (v index : Value) : Except Failure Value :=
  match v with
  | .list items =>
      match index with
      | .int i =>
          let found := if 0 ≤ i.toInt then items[i.toInt.toNat]? else none
          match found with
          | some w => .ok w
          | none =>
              .error (.new .indexOutOfRange
                ("index " ++ toString i.toInt ++ " is out of range for a list of " ++
                  toString items.length))
      | _ => .error (.invalidType ("item index must be an integer, got " ++ index.typeName))
  | _ => .error (.invalidType ("item expects a list, got " ++ v.typeName))

/-- The ratio of the circumference of a circle to its diameter, as a double. -/
def piValue : Value :=
  .number 3.141592653589793

/-- A call of a function of the standard library. The arity keeps missing arguments out; were one
missing it would count as empty. -/
def call (h : Heap) (p : Primitive) (args : List Value) : Except Failure Value :=
  let first := args.headD .empty
  let second := args.tail.head?
  match p with
  | abs => absOf first
  | round => roundOf h first second
  | min => extreme "min" (fun y x => y < x) args
  | max => extreme "max" (fun y x => x < y) args
  | pi => .ok piValue
  | length => lengthOf first
  | size => sizeOfValue h first
  | text => .ok (.text (h.text first))
  | list => .ok (.list args)
  | item => itemOf first (second.getD .empty)

end Primitive

/-- How a function of the host ends: with a value, with a failure, or not at all. -/
inductive HostAnswer where
  | value (v : Value)
  | failure (f : Failure)
  /-- The host itself broke down, possibly leaving a message. -/
  | crash (message : Option String)
deriving Inhabited

/-- The functions of the host by name. They are given the arguments and the text of each value. -/
abbrev Host := String → List Value → (Value → String) → HostAnswer

def Host.none : Host := fun name _ _ =>
  .failure (.new .internal ("extension '" ++ name ++ "' has no implementation"))

/-- A call of an extension, once the number of arguments has been checked. -/
def Extension.call (host : Host) (h : Heap) (e : Extension) (args : List Value) : HostAnswer :=
  match e.primitive with
  | some p =>
      match p.call h args with
      | .ok v => .value v
      | .error f => .failure f
  | none => host e.name args h.text

/-- A call of an extension that first checks the number of arguments. -/
def Extension.checkedCall (host : Host) (h : Heap) (e : Extension) (args : List Value) :
    HostAnswer :=
  match e.arity.check e.name args.length with
  | .ok () => e.call host h args
  | .error f => .failure f

end Statute
