import Calculator.Expr.Value
import Calculator.Proofs.Position

/-!
# Trees at other places

A tree says the same wherever its tokens stand, and it has the same value there. Both are relations
between trees that every node carries from its operands to the whole and that no token's place makes
a difference to. Any such relation holds between a tree and the same tree moved.

Forgetting where the tokens of a tree stand is moving all of them to the start.
-/

namespace Calculator

/-- The tree with every token at the place that a map of positions gives for its own. -/
def Expr.move (f : Nat → Nat) : Expr → Expr
  | leaf t => leaf (t.move f)
  | signed t e => signed (t.move f) (e.move f)
  | binary t l r => binary (t.move f) (l.move f) (r.move f)

/-- A relation between trees that goes from operands to trees and ignores where tokens stand. -/
structure Expr.Congruent (f : Nat → Nat) (R : Expr → Expr → Prop) : Prop where
  leaf (t : Token) : R (.leaf t) (.leaf (t.move f))
  signed (t : Token) {e e' : Expr} : R e e' → R (.signed t e) (.signed (t.move f) e')
  binary (t : Token) {l l' r r' : Expr} :
    R l l' → R r r' → R (.binary t l r) (.binary (t.move f) l' r')

namespace Expr

variable {f : Nat → Nat} {R : Expr → Expr → Prop} {a b : Expr} {t t' : Token}

/-- Such a relation holds between a tree and the tree moved. -/
theorem Congruent.move (hR : Congruent f R) (e : Expr) : R e (e.move f) := by
  induction e with
  | leaf t => exact hR.leaf t
  | signed t e ih => exact hR.signed t ih
  | binary t l r ihl ihr => exact hR.binary t ihl ihr

/-- Leaves say the same when their tokens do. -/
theorem same_leaf : (leaf t).Same (leaf t') ↔ t.Same t' := by
  simp [Same, unplaced, Token.Same]

/-- Signed trees say the same when their signs and operands do. -/
theorem same_signed : (signed t a).Same (signed t' b) ↔ t.Same t' ∧ a.Same b := by
  simp [Same, unplaced, Token.Same]

/-- Joined trees say the same when their operators and operands do. -/
theorem same_binary {l r l' r' : Expr} :
    (binary t l r).Same (binary t' l' r') ↔ t.Same t' ∧ l.Same l' ∧ r.Same r' := by
  simp [Same, unplaced, Token.Same]

/-- Trees that say the same as each other are built alike from such trees. -/
theorem congruent_same (f : Nat → Nat) : Congruent f fun e e' => e'.Same e where
  leaf _ := same_leaf.mpr rfl
  signed _ {_ _} h := same_signed.mpr ⟨rfl, h⟩
  binary _ {_ _ _ _} hl hr := same_binary.mpr ⟨rfl, hl, hr⟩

/-- Two trees having the same value is such a relation. -/
theorem congruent_value (f : Nat → Nat) : Congruent f fun e e' => e'.value = e.value where
  leaf _ := rfl
  signed _ {_ _} h := by simp only [value, h, Token.move_kind]
  binary _ {_ _ _ _} hl hr := by simp only [value, hl, hr, Token.move_kind]

/-- A tree says the same wherever its tokens stand. -/
theorem move_same (e : Expr) : (e.move f).Same e :=
  (congruent_same f).move e

/-- Where the tokens of a tree stand makes no difference to its value. -/
theorem value_move (e : Expr) : (e.move f).value = e.value :=
  (congruent_value f).move e

/-- Forgetting where the tokens of a tree stand is moving them to the start. -/
theorem unplaced_eq_move (e : Expr) : e.unplaced = e.move fun _ => 0 := by
  induction e with
  | leaf t => rfl
  | signed t e ih => rw [unplaced, move, ih, Token.unplaced, Token.move]
  | binary t l r ihl ihr => rw [unplaced, move, ihl, ihr, Token.unplaced, Token.move]

/-- Trees that say the same have the same value. -/
theorem Same.value_eq (h : a.Same b) : a.value = b.value := by
  have hunplaced : a.unplaced = b.unplaced := h
  rw [unplaced_eq_move, unplaced_eq_move] at hunplaced
  rw [← value_move a, hunplaced, value_move]

end Expr

end Calculator
