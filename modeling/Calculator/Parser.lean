import Calculator.Expr
import Calculator.Parser.Step

/-!
# The parser

Expressions are read by one function for each level of the grammar, from the loosest to the
tightest:

    sum     = product (("+" | "-") product)*
    product = signed (("*" | "/" | "%") signed)*
    signed  = ("+" | "-")? power
    power   = atom ("^" power)?
    atom    = literal | "(" sum ")"

Sums and products group to the left and powers to the right, and a sign applies to a whole
power. The rules are defined as steps that make progress; the equations after them say that each
rule is the plain parser one would write from its line of the grammar.

A source holds any number of expressions after one another. `Parser.next` reads one of them and
looks at what follows: the end, or something a further expression can begin with.
-/

namespace Calculator

namespace Rule

open Token.Kind (isAdditive isMultiplicative isPower)

/-- What an atom can begin with, in messages. -/
def atomStart : String :=
  "a number or '('"

/-- What ends a group, in messages. -/
def groupEnd : String :=
  "')'"

mutual

/-- Products joined by `+` and `-`. -/
def sum (s : Cursor) : Step s.unread.length Expr :=
  (product s).andThen fun left s' h => (moreProducts left s').weaken h
termination_by 5 * s.unread.length + 4

/-- The rest of a sum after its first products. -/
def moreProducts (left : Expr) (s : Cursor) : Step (s.unread.length + 1) Expr :=
  .optional isAdditive rfl s (Nat.le_succ _)
    (fun op s' h =>
      ((product s').andThen fun right s'' h' =>
        (moreProducts (.binary op left right) s'').weaken h').weaken (by omega))
    (fun s' h => .done left s' (by omega))
termination_by 5 * s.unread.length

/-- Signed powers joined by `*`, `/` and `%`. -/
def product (s : Cursor) : Step s.unread.length Expr :=
  (signed s).andThen fun left s' h => (moreFactors left s').weaken h
termination_by 5 * s.unread.length + 3

/-- The rest of a product after its first factors. -/
def moreFactors (left : Expr) (s : Cursor) : Step (s.unread.length + 1) Expr :=
  .optional isMultiplicative rfl s (Nat.le_succ _)
    (fun op s' h =>
      ((signed s').andThen fun right s'' h' =>
        (moreFactors (.binary op left right) s'').weaken h').weaken (by omega))
    (fun s' h => .done left s' (by omega))
termination_by 5 * s.unread.length

/-- A power with at most one sign before it. -/
def signed (s : Cursor) : Step s.unread.length Expr :=
  .optional isAdditive rfl s (Nat.le_refl _)
    (fun sign s' h => ((power s').map (.signed sign)).weaken (Nat.le_of_lt h))
    (fun s' h => (power s').weaken (Nat.le_of_eq h))
termination_by 5 * s.unread.length + 2

/-- An atom, raised to a power if `^` follows. -/
def power (s : Cursor) : Step s.unread.length Expr :=
  (atom s).andThen fun base s' h =>
    .optional isPower rfl s' (Nat.le_of_lt h)
      (fun op s'' h' => ((power s'').map (.binary op base)).weaken (by omega))
      (fun s'' h' => .done base s'' (by omega))
termination_by 5 * s.unread.length + 1

/-- A literal, or a sum in parentheses. -/
def atom (s : Cursor) : Step s.unread.length Expr :=
  match h : Cursor.advance s with
  | .ok t s' =>
    match hkind : t.kind with
    | .literal _ => .done (.leaf t) s' (by simp [Cursor.advance_ok h, hkind])
    | .openParen =>
      have hlt : s'.unread.length < s.unread.length := by simp [Cursor.advance_ok h, hkind]
      ((sum s').andThen fun inner s'' h' =>
        .close .closeParen groupEnd inner s'' h').weaken (Nat.le_of_lt hlt)
    | _ => .fail (.parsing (.unexpected atomStart t)) s' (Cursor.advance_length_le h)
  | .error e s' => .fail e s' (Nat.le_of_lt (Cursor.advance_length_lt h))
termination_by 5 * s.unread.length

end

end Rule

namespace Parser

open Token.Kind (isAdditive isMultiplicative isPower)

/-- Read a sum, which is a whole expression. -/
def sum : Parser Expr := fun s => (Rule.sum s).result

/-- Read the rest of a sum after its first products. -/
def moreProducts (left : Expr) : Parser Expr := fun s => (Rule.moreProducts left s).result

/-- Read a product. -/
def product : Parser Expr := fun s => (Rule.product s).result

/-- Read the rest of a product after its first factors. -/
def moreFactors (left : Expr) : Parser Expr := fun s => (Rule.moreFactors left s).result

/-- Read a power with at most one sign before it. -/
def signed : Parser Expr := fun s => (Rule.signed s).result

/-- Read a power. -/
def power : Parser Expr := fun s => (Rule.power s).result

/-- Read a literal or a group. -/
def atom : Parser Expr := fun s => (Rule.atom s).result

/-- A sum is a product and more products. -/
theorem sum_eq : sum = product >>= moreProducts := by
  funext s
  rw [sum, Rule.sum]
  exact Step.andThen_result rfl fun _ _ _ => rfl

/-- More products follow as long as there is a `+` or `-`; they group to the left. -/
theorem moreProducts_eq (left : Expr) :
    moreProducts left =
      Cursor.accept? isAdditive >>= fun
        | some op => product >>= fun right => moreProducts (.binary op left right)
        | none => pure left := by
  funext s
  rw [moreProducts, Rule.moreProducts]
  refine Step.optional_result (fun op s' h => ?_) (fun s' h => rfl)
  rw [Step.weaken_result]
  exact Step.andThen_result rfl fun _ _ _ => rfl

/-- A product is a signed power and more of them. -/
theorem product_eq : product = signed >>= moreFactors := by
  funext s
  rw [product, Rule.product]
  exact Step.andThen_result rfl fun _ _ _ => rfl

/-- More factors follow as long as there is a `*`, `/` or `%`; they group to the left. -/
theorem moreFactors_eq (left : Expr) :
    moreFactors left =
      Cursor.accept? isMultiplicative >>= fun
        | some op => signed >>= fun right => moreFactors (.binary op left right)
        | none => pure left := by
  funext s
  rw [moreFactors, Rule.moreFactors]
  refine Step.optional_result (fun op s' h => ?_) (fun s' h => rfl)
  rw [Step.weaken_result]
  exact Step.andThen_result rfl fun _ _ _ => rfl

/-- A sign applies to the power after it. -/
theorem signed_eq :
    signed =
      Cursor.accept? isAdditive >>= fun
        | some sign => power >>= fun operand => pure (.signed sign operand)
        | none => power := by
  funext s
  rw [signed, Rule.signed]
  refine Step.optional_result (fun sign s' h => ?_) (fun s' h => rfl)
  rw [Step.weaken_result]
  exact Step.map_result rfl

/-- A power groups to the right. -/
theorem power_eq :
    power =
      atom >>= fun base =>
        Cursor.accept? isPower >>= fun
          | some op => power >>= fun exponent => pure (.binary op base exponent)
          | none => pure base := by
  funext s
  rw [power, Rule.power]
  refine Step.andThen_result rfl fun base s' h => ?_
  refine Step.optional_result (fun op s'' h' => ?_) (fun s'' h' => rfl)
  rw [Step.weaken_result]
  exact Step.map_result rfl

/-- An atom is a literal, or a sum up to its closing parenthesis. -/
theorem atom_eq :
    atom =
      Cursor.advance >>= fun t =>
        match t.kind with
        | .literal _ => pure (.leaf t)
        | .openParen =>
          sum >>= fun inner =>
            Cursor.expect .closeParen Rule.groupEnd >>= fun _ => pure inner
        | _ => throw (.parsing (.unexpected Rule.atomStart t)) := by
  funext s
  rw [atom, Rule.atom]
  simp only [bind, EStateM.bind]
  split
  · rename_i t s' h
    simp only [h]
    split <;> rename_i hkind
    · simp [hkind, Step.done, pure, EStateM.pure]
    · simp only [hkind]
      rw [Step.weaken_result]
      exact Step.andThen_result rfl fun inner s'' h' => Step.close_result _ _ _ _ _
    · cases hk : t.kind <;> simp_all [Step.fail]
  · rename_i e s' h
    simp [h, Step.fail]

/-- An expression that is read has passed something, and a failure brings nothing back. -/
theorem sum_progress (s : Cursor) : Progress s.unread.length (sum s) :=
  (Rule.sum s).progress

/-- What may follow an expression, in messages. -/
def expressionEnd : String :=
  "an operator or end of input"

/-- What follows the last expression, in messages. -/
def inputEnd : String :=
  "end of input"

/-- Read the next expression; there is none when only the end is left. What follows it must be
the end or begin another expression, and stays unread. -/
def next : Parser (Option Expr) := do
  let first ← Cursor.peek
  if first.kind = .endOfInput then return none
  let e ← sum
  let follow ← Cursor.peek
  if follow.kind = .endOfInput ∨ follow.kind.startsExpression then return some e
  else throw (.parsing (.unexpected expressionEnd follow))

/-- An expression that is returned is a sum that was read after a first look, and the token after
it has been looked at. -/
theorem next_some {s s' : Cursor} {e : Expr} (h : next s = .ok (some e) s') :
    ∃ first s₁ s₂ follow, Cursor.peek s = .ok first s₁ ∧ sum s₁ = .ok e s₂ ∧
      Cursor.peek s₂ = .ok follow s' := by
  simp only [next, bind, EStateM.bind] at h
  cases hpeek : Cursor.peek s with
  | error e₁ s₁ => simp [hpeek] at h
  | ok first s₁ =>
    simp only [hpeek] at h
    split at h
    · simp [pure, EStateM.pure] at h
    · simp only [EStateM.bind] at h
      cases hread : sum s₁ with
      | error e₂ s₂ => simp [hread] at h
      | ok e₂ s₂ =>
        simp only [hread] at h
        cases hfollow : Cursor.peek s₂ with
        | error e₃ s₃ => simp [hfollow] at h
        | ok follow s₃ =>
          simp only [hfollow] at h
          split at h
          · simp only [pure, EStateM.pure, EStateM.Result.ok.injEq, Option.some.injEq] at h
            obtain ⟨rfl, rfl⟩ := h
            exact ⟨first, s₁, s₂, follow, rfl, hread, hfollow⟩
          · simp at h

/-- Succeed only when the end is left, and otherwise leave what is left unread. -/
def expectEnd : Parser Unit := do
  let t ← Cursor.peek
  if t.kind = .endOfInput then return ()
  else throw (.parsing (.unexpected inputEnd t))

end Parser

end Calculator
