import Calculator.Parser
import Calculator.Proofs.Grammar

/-!
# Scanning an expression from left to right

A scan reads an expression token by token and remembers two things: what may come next, and how
many groups are open. After an operand an operator may follow, or the end of an open group; where
an operand is due, a sign is allowed at the start of a sum and after `+ - * / %`, but not after
another sign or after `^`.

Every phrase of the grammar takes a scan from its first mode to the mode after an operand, at the
depth it began with. A scan that has read as much as it can is determined by the text, and so is
the place where it stops.
-/

namespace Calculator

/-- What a scan waits for: an operand that may have a sign, an operand without a sign, or what can
follow an operand. -/
inductive Scan.Mode where
  | operand
  | bareOperand
  | continuation
  deriving DecidableEq, Repr

/-- The state of a scan: its mode, and the number of groups that are open. -/
structure Scan where
  mode : Scan.Mode
  depth : Nat
  deriving DecidableEq, Repr

namespace Scan

/-- The state before an expression. -/
def start : Scan := ⟨.operand, 0⟩

/-- The state after a complete expression. -/
def done : Scan := ⟨.continuation, 0⟩

/-- The state after a token of a kind; nothing when no token of that kind may come next. -/
def step : Scan → Token.Kind → Option Scan
  | ⟨.operand, d⟩, .literal _ => some ⟨.continuation, d⟩
  | ⟨.operand, d⟩, .openParen => some ⟨.operand, d + 1⟩
  | ⟨.operand, d⟩, .operator op => if op.isAdditive then some ⟨.bareOperand, d⟩ else none
  | ⟨.bareOperand, d⟩, .literal _ => some ⟨.continuation, d⟩
  | ⟨.bareOperand, d⟩, .openParen => some ⟨.operand, d + 1⟩
  | ⟨.continuation, d⟩, .operator op =>
    some (if op = .power then ⟨.bareOperand, d⟩ else ⟨.operand, d⟩)
  | ⟨.continuation, d + 1⟩, .closeParen => some ⟨.continuation, d⟩
  | _, _ => none

/-- The state after a list of tokens. -/
def run (q : Scan) (w : List Token) : Option Scan :=
  w.foldlM (fun q t => q.step t.kind) q

/-- What the parser asks for where a scan stops before a token of a kind. A complete expression
asks for nothing, except that a group must have been opened before it is closed. -/
def expected? : Scan → Token.Kind → Option String
  | ⟨.operand, _⟩, _ | ⟨.bareOperand, _⟩, _ => some Rule.atomStart
  | ⟨.continuation, _ + 1⟩, _ => some Rule.groupEnd
  | ⟨.continuation, 0⟩, .closeParen => some Parser.expressionEnd
  | ⟨.continuation, 0⟩, _ => none

/-- The error of an item that a scan cannot go on with. -/
def fault? (q : Scan) : Item → Option Error
  | .stray c p => some (.strayCharacter c p)
  | .token t =>
    if (q.step t.kind).isSome then none
    else (q.expected? t.kind).map fun expected => .parsing (.unexpected expected t)

/-- What is left when the first of the items is at fault. The item has been passed, except for a
closing parenthesis after a complete expression, which stays. -/
def left (q : Scan) : List Item → List Item
  | .token t :: u => if q = done then .token t :: u else u
  | u => u.tail

/-- A scan cannot go on with a text when the text does not begin with a token it can pass. -/
def Stuck (q : Scan) (u : List Item) : Prop :=
  ∀ t u', u = .token t :: u' → q.step t.kind = none

variable {q a a' : Scan} {w w' : List Token}

/-- Nothing read, nothing changed. -/
@[simp] theorem run_nil : q.run [] = some q := rfl

/-- A run passes its first token and goes on. -/
@[simp] theorem run_cons (t : Token) : q.run (t :: w) = (q.step t.kind).bind (·.run w) := by
  simp [run, List.foldlM_cons, bind]

/-- A run over two texts is a run over the first and on over the second. -/
theorem run_append : q.run (w ++ w') = (q.run w).bind (·.run w') := by
  simp [run, List.foldlM_append, bind]

/-- An operand may end with any scan that waits for one. -/
theorem step_of_isLiteral {m : Mode} {k : Token.Kind} (hm : m ≠ .continuation)
    (hk : k.isLiteral = true) (d : Nat) : step ⟨m, d⟩ k = some ⟨.continuation, d⟩ := by
  cases k <;> cases m <;> simp_all [step, Token.Kind.isLiteral]

/-- A group may open wherever an operand is due. -/
theorem step_openParen {m : Mode} (hm : m ≠ .continuation) (d : Nat) :
    step ⟨m, d⟩ .openParen = some ⟨.operand, d + 1⟩ := by
  cases m <;> simp_all [step]

/-- A group that is open may end after an operand. -/
theorem step_closeParen (d : Nat) :
    step ⟨.continuation, d + 1⟩ .closeParen = some ⟨.continuation, d⟩ := rfl

/-- A sign leaves the operand after it due. -/
theorem step_sign {k : Token.Kind} (hk : k.isAdditive = true) (d : Nat) :
    step ⟨.operand, d⟩ k = some ⟨.bareOperand, d⟩ := by
  cases k <;> simp_all [step, Token.Kind.isAdditive]

/-- An operator of the two looser levels may be followed by a sign. -/
theorem step_operator {k : Token.Kind} (hk : (k.isAdditive || k.isMultiplicative) = true)
    (d : Nat) : step ⟨.continuation, d⟩ k = some ⟨.operand, d⟩ := by
  cases k with
  | operator op => cases op <;> simp_all [step, Token.Kind.isAdditive, Operator.isAdditive,
      Token.Kind.isMultiplicative, Operator.isMultiplicative]
  | _ => contradiction

/-- The power sign is followed by an operand without a sign. -/
theorem step_power {k : Token.Kind} (hk : k.isPower = true) (d : Nat) :
    step ⟨.continuation, d⟩ k = some ⟨.bareOperand, d⟩ := by
  cases k with
  | operator op => cases op <;> simp_all [step, Token.Kind.isPower]
  | _ => contradiction

end Scan

/-- The modes in which a phrase may begin. -/
def Nonterminal.enters : Nonterminal → Scan.Mode → Bool
  | sum, m | product, m | signed, m => m = .operand
  | products, m | factors, m => m = .continuation
  | power, m | atom, m => m ≠ .continuation

/-- A phrase takes a scan to the mode after an operand, at the depth it began with. -/
theorem Derivation.run_yield {n : Nonterminal} (d : Derivation n) (m : Scan.Mode)
    (hm : n.enters m = true) (depth : Nat) :
    Scan.run ⟨m, depth⟩ d.yield = some ⟨.continuation, depth⟩ := by
  induction d generalizing m depth with
  | sum first more ihFirst ihMore | product first more ihFirst ihMore =>
    simp [yield, Scan.run_append, ihFirst m hm, ihMore .continuation rfl]
  | noProducts | noFactors =>
    obtain rfl : m = .continuation := by simpa [Nonterminal.enters] using hm
    rfl
  | addProduct op hop next more ihNext ihMore | addFactor op hop next more ihNext ihMore =>
    obtain rfl : m = .continuation := by simpa [Nonterminal.enters] using hm
    simp [yield, Scan.run_append, Scan.step_operator, hop, ihNext .operand rfl,
      ihMore .continuation rfl]
  | unsigned operand ih =>
    obtain rfl : m = .operand := by simpa [Nonterminal.enters] using hm
    exact ih .operand rfl depth
  | signed sign hsign operand ih =>
    obtain rfl : m = .operand := by simpa [Nonterminal.enters] using hm
    simp [yield, Scan.step_sign hsign, ih .bareOperand rfl]
  | bare base ih => exact ih m hm depth
  | raised base op hop exponent ihBase ihExponent =>
    simp [yield, Scan.run_append, ihBase m hm, Scan.step_power hop, ihExponent .bareOperand rfl]
  | literal t ht =>
    have hoperand : m ≠ .continuation := by simpa [Nonterminal.enters] using hm
    simp [yield, Scan.step_of_isLiteral hoperand ht]
  | group opening hopening inner closing hclosing ih =>
    have hoperand : m ≠ .continuation := by simpa [Nonterminal.enters] using hm
    simp [yield, hopening, Scan.step_openParen hoperand, Scan.run_append,
      ih .operand rfl, hclosing, Scan.step_closeParen]

namespace Scan

variable {q a a' : Scan} {w w' : List Token} {u u' : List Item}

/-- The text determines where a scan is stuck. -/
theorem run_unique (h : w.map Item.token ++ u = w'.map Item.token ++ u')
    (hrun : q.run w = some a) (hrun' : q.run w' = some a') (hstuck : a.Stuck u)
    (hstuck' : a'.Stuck u') : w = w' ∧ u = u' ∧ a = a' := by
  induction w generalizing q w' with
  | nil =>
    obtain rfl : q = a := by simpa using hrun
    cases w' with
    | nil => exact ⟨rfl, by simpa using h, by simpa using hrun'⟩
    | cons t w' =>
      simp [hstuck t _ (by simpa using h)] at hrun'
  | cons t w ih =>
    cases w' with
    | nil =>
      obtain rfl : q = a' := by simpa using hrun'
      simp [hstuck' t _ (by simpa using h.symm)] at hrun
    | cons t' w' =>
      simp only [List.map_cons, List.cons_append, List.cons.injEq, Item.token.injEq] at h
      obtain ⟨rfl, h⟩ := h
      cases hstep : q.step t.kind with
      | none => simp [hstep] at hrun
      | some q' =>
        obtain ⟨rfl, hu, ha⟩ := ih h (by simpa [hstep] using hrun) (by simpa [hstep] using hrun')
        exact ⟨rfl, hu, ha⟩

/-- A scan that stops at a stuck place of a text comes by every place that can be reached in it. -/
theorem run_through (h : w.map Item.token ++ u = w'.map Item.token ++ u')
    (hrun : q.run w = some a) (hstuck : a.Stuck u) (hrun' : q.run w' = some a') :
    ∃ v, w = w' ++ v ∧ u' = v.map .token ++ u ∧ a'.run v = some a := by
  induction w' generalizing q w with
  | nil =>
    obtain rfl : q = a' := by simpa using hrun'
    exact ⟨w, rfl, h.symm, hrun⟩
  | cons t w' ih =>
    cases w with
    | nil =>
      obtain rfl : q = a := by simpa using hrun
      simp [hstuck t _ (by simpa using h)] at hrun'
    | cons t' w =>
      simp only [List.map_cons, List.cons_append, List.cons.injEq, Item.token.injEq] at h
      obtain ⟨rfl, h⟩ := h
      cases hstep : q.step t'.kind with
      | none => simp [hstep] at hrun
      | some q' =>
        obtain ⟨v, rfl, hu, hv⟩ := ih h (by simpa [hstep] using hrun) (by simpa [hstep] using hrun')
        exact ⟨v, rfl, hu, hv⟩

end Scan

end Calculator
