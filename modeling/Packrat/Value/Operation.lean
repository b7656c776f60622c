import Packrat.Value

/-!
# Functions on values

A function value collects its arguments one by one and is evaluated when it has
as many as it takes. Arguments of another shape than it needs give unit, and
integers wrap at 64 bits.

- `Operation.arity`, `Operation.name`, `Operation.ofName?`;
- `Operation.eval`: the result of a function on all its arguments;
- `Value.call`: one more argument.
-/

namespace Packrat

namespace Operation

def all : List Operation :=
  [id, const, add, sub, mul, neg, inc, pair, triple, cons, append, fst, snd, swap, some, isSome,
    len, str, digit, code, sum, calculate]

def name : Operation → String
  | id => "id"
  | const => "const"
  | add => "add"
  | sub => "sub"
  | mul => "mul"
  | neg => "neg"
  | inc => "inc"
  | pair => "pair"
  | triple => "triple"
  | cons => "cons"
  | append => "append"
  | fst => "fst"
  | snd => "snd"
  | swap => "swap"
  | some => "some"
  | isSome => "is_some"
  | len => "len"
  | str => "str"
  | digit => "digit"
  | code => "code"
  | sum => "sum"
  | calculate => "calc"

def ofName? (name : String) : Option Operation :=
  all.find? fun f => f.name == name

/-- How many arguments a function takes. -/
def arity : Operation → Nat
  | triple => 3
  | const | add | sub | mul | pair | cons | append => 2
  | _ => 1

/-- The value of a decimal digit, and zero for any other character. -/
def digitValue (c : Char) : Nat :=
  if c.isDigit then c.toNat - '0'.toNat else 0

/-- The sum of the integers among some values. -/
def sumOf (vs : List Value) : Int64 :=
  vs.foldl (fun total v => match v with | .int n => total + n | _ => total) 0

/-- One step of a calculation: a pair of an operator and an integer is applied,
and any other value is passed over. -/
def operate (total : Int64) : Value → Int64
  | .pair operator (.int n) =>
    if operator.str = "+" then total + n
    else if operator.str = "-" then total - n
    else if operator.str = "*" then total * n
    else total
  | _ => total

/-- How many elements, bytes or characters a value holds. -/
def length? : Value → Option Nat
  | .list vs => Option.some vs.length
  | .bytes bs => Option.some bs.length
  | .chars cs => Option.some cs.length
  | .text s => Option.some s.length
  | _ => Option.none

/-- The result of a function on all its arguments. -/
def eval : Operation → List Value → Value
  | id, x :: _ => x
  | const, x :: _ :: _ => x
  | add, .int m :: .int n :: _ => .int (m + n)
  | sub, .int m :: .int n :: _ => .int (m - n)
  | mul, .int m :: .int n :: _ => .int (m * n)
  | neg, .int n :: _ => .int (-n)
  | inc, .int n :: _ => .int (n + 1)
  | pair, x :: y :: _ => .pair x y
  | triple, x :: y :: z :: _ => .list [x, y, z]
  | cons, x :: .list vs :: _ => .list (x :: vs)
  | append, .list vs :: x :: _ => .list (vs ++ [x])
  | fst, .pair x _ :: _ => x
  | snd, .pair _ y :: _ => y
  | swap, .pair x y :: _ => .pair y x
  | some, x :: _ => .some x
  | isSome, .some _ :: _ => .bool true
  | isSome, _ :: _ => .bool false
  | len, x :: _ => ((length? x).map fun n => Value.int (Int64.ofNat n)).getD .unit
  | str, x :: _ => .text x.str
  | digit, x :: _ => (x.token?.map fun c => Value.int (Int64.ofNat (digitValue c))).getD .unit
  | code, x :: _ => (x.token?.map fun c => Value.int (Int64.ofNat c.toNat)).getD .unit
  | sum, .list vs :: _ => .int (sumOf vs)
  | calculate, .pair (.int n) (.list vs) :: _ => .int (vs.foldl operate n)
  | _, _ => .unit

end Operation

namespace Value

/-- One more argument for a function value. A value that is no function gives
unit. -/
def call (f x : Value) : Value :=
  match f with
  | function f args =>
    let args := args ++ [x]
    if args.length < f.arity then function f args else f.eval args
  | _ => unit

end Value

end Packrat
