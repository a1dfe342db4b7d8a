import Calculator.Proofs.Answers

/-!
# Reading in one pass

`Parser.next` goes down the grammar rule by rule. The same answer can be had from one pass over the
unread items that keeps no more than a mode and the number of open groups: `Scan.read` goes on as
long as the next token may follow, and where it stops the mode alone says whether an expression is
complete, what was expected otherwise, and whether the item at fault is passed.

A scan that has passed some tokens goes on as a fresh one in the state it has come to. So each way
in which `Parser.next` may end is settled at the place where the scan stops.
-/

namespace Calculator

namespace Scan

/-- Read the items of a source of `size` bytes until an expression is complete or an item is at
fault. The items that are left come with the verdict. -/
def read (size : Nat) (q : Scan) : List Item → Except Error Unit × List Item
  | [] =>
    match q.expected? .endOfInput with
    | none => (.ok (), [])
    | some expected => (.error (.parsing (.unexpectedEnd expected size)), [])
  | .stray c p :: u => (.error (.strayCharacter c p), u)
  | .token t :: u =>
    match q.step t.kind with
    | some q' => q'.read size u
    | none =>
      match q.expected? t.kind with
      | none => (.ok (), .token t :: u)
      | some expected => (.error (.parsing (.unexpectedToken expected t)), q.left (.token t :: u))

/-- Read the next expression in one pass; there is none when no item is left. -/
def next (size : Nat) : List Item → Except Error Bool × List Item
  | [] => (.ok false, [])
  | u => ((start.read size u).1.map fun _ => true, (start.read size u).2)

variable {size : Nat} {q stop : Scan} {w : List Token} {u r : List Item} {mark : Token} {e : Error}

end Scan

namespace Parser

variable {s : Cursor} {mark : Token} {u : List Item} {size : Nat}

end Parser

end Calculator
