import Statute.Proofs.Expression.Precedence

/-!
# Reading trees

Tokens are read from the left, one at a time. What has been begun and still waits for a tree to its
right is kept with the latest first: operators, brackets around a tree and brackets around
arguments. The reader itself stands before an operand, after one, or behind the point of a field
access.

`Tree.read?` accepts exactly the written forms of the trees that are precedence-correct, and gives
back the tree. So the tokens of such a tree determine it.
-/

namespace Statute

/-- What a bracket around arguments belongs to. -/
inductive Callee where
  | name (n : String)
  | method (p : Primary) (f : String)

namespace Callee

def apply (args : List Tree) : Callee → Primary
  | name n => .call n args
  | method p f => .invoke p f args

/-- What is written up to the opening bracket. -/
def tokens : Callee → List Token
  | name n => [.word n, .opening]
  | method p f => p.tokens ++ [.dot, .word f, .opening]

/-- The trees inside a callee show their structure. -/
def PrecedenceCorrect : Callee → Prop
  | name _ => True
  | method p _ => p.PrecedenceCorrect

end Callee

/-- What has been begun and waits for the tree to its right. -/
inductive Opened where
  | unary (o : Operator.Unary)
  | binary (o : Operator.Binary) (l : Tree)
  | group
  /-- A bracket around arguments, of which some have been read. -/
  | args (c : Callee) (done : List Tree)

/-- Where the reader stands. -/
inductive Position where
  | before
  | after (p : Primary)
  /-- Behind the point of a field access. -/
  | field (p : Primary)

/-- What has been read so far. -/
structure Reader where
  opened : List Opened
  position : Position

namespace Opened

/-- Applies the waiting operators that yield to a tree, as long as nothing else is scheduled than
calls. -/
def settle (yields : Operator → Bool) : List Opened → Tree → Option (List Opened × Tree)
  | .unary o :: zs, t =>
      if yields o then
        if o.1 = .background ∧ t.isSchedulable = false then none
        else settle yields zs (.unary o t)
      else some (.unary o :: zs, t)
  | .binary o l :: zs, t =>
      if yields o then settle yields zs (.binary o l t) else some (.binary o l :: zs, t)
  | zs, t => some (zs, t)

/-- Closes the latest bracket around a tree. -/
def close : List Opened × Tree → Option Reader
  | (.group :: zs, t) => some ⟨zs, .after (.group t)⟩
  | (.args c done :: zs, t) => some ⟨zs, .after (c.apply (done ++ [t]))⟩
  | _ => none

def closeEmpty : List Opened → Option Reader
  | .args c [] :: zs => some ⟨zs, .after (c.apply [])⟩
  | _ => none

def endArgument : List Opened × Tree → Option Reader
  | (.args c done :: zs, t) => some ⟨.args c (done ++ [t]) :: zs, .before⟩
  | _ => none

/-- The tree of an expression that has been read to its end. -/
def only : List Opened × Tree → Option Tree
  | ([], t) => some t
  | _ => none

end Opened

namespace Reader

def start : Reader := ⟨[], .before⟩

/-- Reads one token. -/
def step (r : Reader) (token : Token) : Option Reader :=
  match r.position, token with
  | .before, .literal l => some ⟨r.opened, .after (.literal l)⟩
  | .before, .word n => some ⟨r.opened, .after (.name n)⟩
  | .before, .opening => some ⟨.group :: r.opened, .before⟩
  | .before, .closing => Opened.closeEmpty r.opened
  | .before, .unary o =>
      if h : o.isUnary = true then some ⟨.unary ⟨o, h⟩ :: r.opened, .before⟩ else none
  | .field p, .word f => some ⟨r.opened, .after (.field p f)⟩
  | .after p, .dot => some ⟨r.opened, .field p⟩
  | .after (.name n), .opening => some ⟨.args (.name n) [] :: r.opened, .before⟩
  | .after (.field p f), .opening => some ⟨.args (.method p f) [] :: r.opened, .before⟩
  | .after p, .closing =>
      (Opened.settle (fun _ => true) r.opened (.operand p)).bind Opened.close
  | .after p, .comma =>
      (Opened.settle (fun _ => true) r.opened (.operand p)).bind Opened.endArgument
  | .after p, .binary o =>
      if h : o.isUnary = false ∧ o ≠ .dot then
        (Opened.settle (Pending.yieldsTo · o) r.opened (.operand p)).map fun (zs, t) =>
          ⟨.binary ⟨o, h⟩ t :: zs, .before⟩
      else none
  | _, _ => none

theorem step_unary (zs : List Opened) (o : Operator.Unary) :
    step ⟨zs, .before⟩ (.unary o) = some ⟨.unary o :: zs, .before⟩ := by
  simp [step, o.2]

theorem step_binary (zs : List Opened) (p : Primary) (o : Operator.Binary) :
    step ⟨zs, .after p⟩ (.binary o) =
      (Opened.settle (Pending.yieldsTo · o) zs (.operand p)).map fun (zs, t) =>
        ⟨.binary o t :: zs, .before⟩ := by
  simp [step, o.2]

theorem step_closing (zs : List Opened) (p : Primary) :
    step ⟨zs, .after p⟩ .closing =
      (Opened.settle (fun _ => true) zs (.operand p)).bind Opened.close := rfl

theorem step_comma (zs : List Opened) (p : Primary) :
    step ⟨zs, .after p⟩ .comma =
      (Opened.settle (fun _ => true) zs (.operand p)).bind Opened.endArgument := rfl

/-- What reading one token can do. -/
inductive Reads : Reader → Token → Reader → Prop
  | literal (zs : List Opened) (l : Literal) :
      Reads ⟨zs, .before⟩ (.literal l) ⟨zs, .after (.literal l)⟩
  | name (zs : List Opened) (n : String) :
      Reads ⟨zs, .before⟩ (.word n) ⟨zs, .after (.name n)⟩
  | point (zs : List Opened) (p : Primary) :
      Reads ⟨zs, .after p⟩ .dot ⟨zs, .field p⟩
  | field (zs : List Opened) (p : Primary) (f : String) :
      Reads ⟨zs, .field p⟩ (.word f) ⟨zs, .after (.field p f)⟩
  | group (zs : List Opened) :
      Reads ⟨zs, .before⟩ .opening ⟨.group :: zs, .before⟩
  | call (zs : List Opened) (n : String) :
      Reads ⟨zs, .after (.name n)⟩ .opening ⟨.args (.name n) [] :: zs, .before⟩
  | invoke (zs : List Opened) (p : Primary) (f : String) :
      Reads ⟨zs, .after (.field p f)⟩ .opening ⟨.args (.method p f) [] :: zs, .before⟩
  | unary (zs : List Opened) (o : Operator.Unary) :
      Reads ⟨zs, .before⟩ (.unary o) ⟨.unary o :: zs, .before⟩
  | binary {zs zs' : List Opened} {p : Primary} {t : Tree} (o : Operator.Binary)
      (h : Opened.settle (Pending.yieldsTo · o) zs (.operand p) = some (zs', t)) :
      Reads ⟨zs, .after p⟩ (.binary o) ⟨.binary o t :: zs', .before⟩
  | comma {zs zs' : List Opened} {p : Primary} {c : Callee} {done : List Tree} {t : Tree}
      (h : Opened.settle (fun _ => true) zs (.operand p) = some (.args c done :: zs', t)) :
      Reads ⟨zs, .after p⟩ .comma ⟨.args c (done ++ [t]) :: zs', .before⟩
  | closeGroup {zs zs' : List Opened} {p : Primary} {t : Tree}
      (h : Opened.settle (fun _ => true) zs (.operand p) = some (.group :: zs', t)) :
      Reads ⟨zs, .after p⟩ .closing ⟨zs', .after (.group t)⟩
  | closeArgs {zs zs' : List Opened} {p : Primary} {c : Callee} {done : List Tree} {t : Tree}
      (h : Opened.settle (fun _ => true) zs (.operand p) = some (.args c done :: zs', t)) :
      Reads ⟨zs, .after p⟩ .closing ⟨zs', .after (c.apply (done ++ [t]))⟩
  | closeEmpty (zs : List Opened) (c : Callee) :
      Reads ⟨.args c [] :: zs, .before⟩ .closing ⟨zs, .after (c.apply [])⟩

theorem reads_of_close {zs : List Opened} {p : Primary} {r : Reader}
    (h : step ⟨zs, .after p⟩ .closing = some r) : Reads ⟨zs, .after p⟩ .closing r := by
  rw [step_closing] at h
  obtain ⟨⟨zs', t⟩, hsettle, hclose⟩ := Option.bind_eq_some_iff.mp h
  unfold Opened.close at hclose
  split at hclose
  · next heq =>
      obtain ⟨rfl, rfl⟩ := Prod.mk.inj heq
      obtain rfl := Option.some.inj hclose
      exact .closeGroup hsettle
  · next heq =>
      obtain ⟨rfl, rfl⟩ := Prod.mk.inj heq
      obtain rfl := Option.some.inj hclose
      exact .closeArgs hsettle
  · contradiction

theorem reads_of_comma {zs : List Opened} {p : Primary} {r : Reader}
    (h : step ⟨zs, .after p⟩ .comma = some r) : Reads ⟨zs, .after p⟩ .comma r := by
  rw [step_comma] at h
  obtain ⟨⟨zs', t⟩, hsettle, hend⟩ := Option.bind_eq_some_iff.mp h
  unfold Opened.endArgument at hend
  split at hend
  · next heq =>
      obtain ⟨rfl, rfl⟩ := Prod.mk.inj heq
      obtain rfl := Option.some.inj hend
      exact .comma hsettle
  · contradiction

theorem reads_of_binary {zs : List Opened} {p : Primary} {o : Operator} {r : Reader}
    (h : step ⟨zs, .after p⟩ (.binary o) = some r) : Reads ⟨zs, .after p⟩ (.binary o) r := by
  by_cases ho : o.isUnary = false ∧ o ≠ .dot
  · rw [step_binary zs p ⟨o, ho⟩] at h
    obtain ⟨⟨zs', t⟩, hsettle, rfl⟩ := Option.map_eq_some_iff.mp h
    exact .binary ⟨o, ho⟩ hsettle
  · simp [step, ho] at h

theorem reads_of_unary {zs : List Opened} {o : Operator} {r : Reader}
    (h : step ⟨zs, .before⟩ (.unary o) = some r) : Reads ⟨zs, .before⟩ (.unary o) r := by
  by_cases ho : o.isUnary = true
  · rw [step_unary zs ⟨o, ho⟩] at h
    obtain rfl := Option.some.inj h
    exact .unary zs ⟨o, ho⟩
  · simp [step, ho] at h

theorem reads_of_closeEmpty {zs : List Opened} {r : Reader}
    (h : step ⟨zs, .before⟩ .closing = some r) : Reads ⟨zs, .before⟩ .closing r := by
  change Opened.closeEmpty zs = some r at h
  unfold Opened.closeEmpty at h
  split at h
  · obtain rfl := Option.some.inj h
    exact .closeEmpty _ _
  · contradiction

theorem reads_of_opening {zs : List Opened} {p : Primary} {r : Reader}
    (h : step ⟨zs, .after p⟩ .opening = some r) : Reads ⟨zs, .after p⟩ .opening r := by
  cases p with
  | name n =>
      obtain rfl := Option.some.inj h
      exact .call zs n
  | field p f =>
      obtain rfl := Option.some.inj h
      exact .invoke zs p f
  | _ => contradiction

/-- A step reads a token in one of these ways. -/
theorem reads_of_step {r r' : Reader} {token : Token} (h : r.step token = some r') :
    Reads r token r' := by
  obtain ⟨zs, position⟩ := r
  match position, token, h with
  | .before, .literal l, h => exact Option.some.inj h ▸ .literal zs l
  | .before, .word n, h => exact Option.some.inj h ▸ .name zs n
  | .before, .opening, h => exact Option.some.inj h ▸ .group zs
  | .before, .closing, h => exact reads_of_closeEmpty h
  | .before, .unary o, h => exact reads_of_unary h
  | .field p, .word f, h => exact Option.some.inj h ▸ .field zs p f
  | .after p, .dot, h => exact Option.some.inj h ▸ .point zs p
  | .after p, .opening, h => exact reads_of_opening h
  | .after p, .closing, h => exact reads_of_close h
  | .after p, .comma, h => exact reads_of_comma h
  | .after p, .binary o, h => exact reads_of_binary h

/-- The tree that a reader has read, if nothing is left open. -/
def finish (r : Reader) : Option Tree :=
  match r.position with
  | .after p => (Opened.settle (fun _ => true) r.opened (.operand p)).bind Opened.only
  | _ => none

theorem finish_after (zs : List Opened) (p : Primary) :
    finish ⟨zs, .after p⟩ =
      (Opened.settle (fun _ => true) zs (.operand p)).bind Opened.only := rfl

end Reader

def Tree.read? (ts : List Token) : Option Tree :=
  (ts.foldlM Reader.step Reader.start).bind Reader.finish

end Statute
