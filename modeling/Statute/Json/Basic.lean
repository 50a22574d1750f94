/-!
# Documents

Programs, settings and the records inside programs are exchanged as JSON documents. An integer
literal that fits 64 bits is kept apart from every other number, because the language has integers
and numbers; the members of an object keep the order and the repetitions of the text, because a
declaration that gives one key twice is refused while a plain map lets the last one win.
-/

namespace Statute

/-- A document. -/
inductive Json where
  | null
  | bool (b : Bool)
  | int (n : Int)
  | number (x : Float)
  | str (s : String)
  | arr (items : List Json)
  | obj (members : List (String × Json))
deriving Inhabited

namespace Json

/-- The value that a list of members gives to a key: the last one wins. -/
def lookup (key : String) (members : List (String × Json)) : Option Json :=
  members.foldl (fun found m => if m.1 = key then some m.2 else found) none

def occurrences (key : String) (members : List (String × Json)) : Nat :=
  members.countP fun m => m.1 = key

/-- The members of an object that no later member of the same key follows. -/
def lastMembers : List (String × Json) → List (String × Json)
  | [] => []
  | m :: rest => if rest.any (fun r => r.1 = m.1) then lastMembers rest else m :: lastMembers rest

mutual

/-- The document with every object read as a map: of repeated keys the last one stays. -/
def asMap : Json → Json
  | .arr items => .arr (asMapItems items)
  | .obj members => .obj (lastMembers (asMapMembers members))
  | j => j

def asMapItems : List Json → List Json
  | [] => []
  | j :: rest => asMap j :: asMapItems rest

def asMapMembers : List (String × Json) → List (String × Json)
  | [] => []
  | (k, j) :: rest => (k, asMap j) :: asMapMembers rest

end

mutual

/-- How deep containers are nested in a document. -/
def depth : Json → Nat
  | .arr items => depthItems items + 1
  | .obj members => depthMembers members + 1
  | _ => 0

/-- The greatest depth among the items of an array. -/
def depthItems : List Json → Nat
  | [] => 0
  | j :: rest => max (depth j) (depthItems rest)

/-- The greatest depth among the members of an object. -/
def depthMembers : List (String × Json) → Nat
  | [] => 0
  | (_, j) :: rest => max (depth j) (depthMembers rest)

end

/-- The value of a key in a document, when the document is an object that has it. -/
def get? (j : Json) (key : String) : Option Json :=
  match j with
  | .obj members => lookup key members
  | _ => none

def str? : Json → Option String
  | .str s => some s
  | _ => none

def bool? : Json → Option Bool
  | .bool b => some b
  | _ => none

def nat? : Json → Option Nat
  | .int n => if 0 ≤ n then some n.toNat else none
  | _ => none

def arr? : Json → Option (List Json)
  | .arr items => some items
  | _ => none

def obj? : Json → Option (List (String × Json))
  | .obj members => some members
  | _ => none

end Json

end Statute
