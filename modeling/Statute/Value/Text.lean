import Statute.Decimal.Shortest
import Statute.Heap

/-!
# Values as text, and their equality

How a value prints, and when two values are equal. Both look through the boxes of fields. A chain of
boxes cannot be longer than the number of boxes unless it runs in a circle, so that number is the
fuel for looking through them.

Lists are equal item by item, an integer equals the number of the same size, and things with an
identity (objects, classes, procedures, records, tasks) equal only themselves.
-/

namespace Statute

/-- The identity of a task as text: thirty-six characters in five groups. -/
def taskId (t : TaskRef) : String :=
  let ds := Nat.toDigits 16 t
  "00000000-0000-4000-8000-" ++ String.ofList (List.replicate (12 - ds.length) '0' ++ ds)

namespace Heap

/-- A value without the boxes around it, looking through at most `fuel` of them. -/
def unboxWith (h : Heap) : Nat → Value → Value
  | fuel + 1, .field b => h.unboxWith fuel (h.box b)
  | _, v => v

def unbox (h : Heap) (v : Value) : Value :=
  h.unboxWith (h.boxes.size + 1) v

mutual

/-- The text of a value, given the text of each box. -/
def textWith (h : Heap) (boxText : BoxRef → String) : Value → String
  | .empty => "empty"
  | .bool b => if b then "true" else "false"
  | .int i => toString i.toInt
  | .number x => numberText x
  | .text s => s
  | .list items => "[" ++ ", ".intercalate (h.textsWith boxText items) ++ "]"
  | .field b => boxText b
  | .object r => "<" ++ (h.object r).cls.name ++ " instance>"
  | .classDef c => "<class " ++ c.name ++ ">"
  | .procedure p => "<procedure " ++ p.name ++ ">"
  | .method r p => "<method " ++ (h.object r).cls.name ++ "." ++ p.name ++ ">"
  | .extension e => "<extension " ++ e.name ++ ">"
  | .record r => "<" ++ (h.record r).kind ++ " " ++ (h.record r).name ++ ">"
  | .task t => "<task " ++ taskId t ++ ">"
  | .deferred _ _ => "<deferred call>"

def textsWith (h : Heap) (boxText : BoxRef → String) : List Value → List String
  | [] => []
  | v :: vs => h.textWith boxText v :: h.textsWith boxText vs

end

/-- The text of a box, looking through at most `fuel` further boxes. -/
def boxText (h : Heap) : Nat → BoxRef → String
  | 0, _ => ""
  | fuel + 1, b => h.textWith (h.boxText fuel) (h.box b)

def text (h : Heap) (v : Value) : String :=
  h.textWith (h.boxText (h.boxes.size + 1)) v

mutual

/-- Whether two values are equal, given how a box on either side compares with a value. -/
def equalWith (left : BoxRef → Value → Bool) (right : Value → BoxRef → Bool) :
    Value → Value → Bool
  | .field a, .field b => a = b || left a (.field b)
  | .field a, v => left a v
  | v, .field b => right v b
  | .empty, .empty => true
  | .bool a, .bool b => a = b
  | .int a, .int b => a = b
  | .number x, .number y => x == y
  | .int a, .number y => Binary.nearestTo a == y
  | .number x, .int b => Binary.nearestTo b == x
  | .text s, .text t => s = t
  | .list as, .list bs => equalLists left right as bs
  | .object a, .object b => a = b
  | .classDef c, .classDef d => c.name = d.name
  | .procedure p, .procedure q => p.name = q.name
  | .method a p, .method b q => a = b && p.name = q.name
  | .extension e, .extension f => e.name = f.name
  | .record a, .record b => a = b
  | .task a, .task b => a = b
  | _, _ => false

/-- Whether two lists of values are equal item by item. -/
def equalLists (left : BoxRef → Value → Bool) (right : Value → BoxRef → Bool) :
    List Value → List Value → Bool
  | [], [] => true
  | a :: as, b :: bs => equalWith left right a b && equalLists left right as bs
  | _, _ => false

end

/-- Whether two values are equal, looking through at most `fuel` boxes. -/
def equalFuel (h : Heap) : Nat → Value → Value → Bool
  | 0 => equalWith (fun _ _ => false) (fun _ _ => false)
  | fuel + 1 =>
      equalWith (fun a v => h.equalFuel fuel (h.box a) v) (fun v b => h.equalFuel fuel v (h.box b))

def equal (h : Heap) (v w : Value) : Bool :=
  h.equalFuel (2 * h.boxes.size + 2) v w

end Heap

end Statute
