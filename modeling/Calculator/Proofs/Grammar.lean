import Calculator.Expr
import Mathlib.Data.List.Basic

/-!
# The grammar of expressions

The grammar is given on its own, apart from the rules that read it:

    sum     = product (("+" | "-") product)*
    product = signed (("*" | "/" | "%") signed)*
    signed  = ("+" | "-")? power
    power   = atom ("^" power)?
    atom    = literal | "(" sum ")"

A derivation is a piece of data, one constructor for each way to use a line. Its yield is the
phrase it derives, and its tree is what the phrase means: sums and products group to the left,
powers to the right, a sign covers a whole power, and parentheses leave no node.

The grammar is unambiguous: a phrase has at most one derivation. For the induction this is said
of a phrase together with what follows it, which must not be a token the phrase could take up.
There is one lemma for each way to build a phrase, and the repeated ends of the first two lines,
which differ in their operands and operators alone, have theirs together, as a `Chain`.
-/

namespace Calculator

/-- What the grammar derives; `products` and `factors` are the repeated ends of its first two
lines. -/
inductive Nonterminal where
  | sum
  | products
  | product
  | factors
  | signed
  | power
  | atom
  deriving DecidableEq, Repr

/-- A phrase of the grammar together with how it is derived. -/
inductive Derivation : Nonterminal → Type where
  | sum (first : Derivation .product) (more : Derivation .products) : Derivation .sum
  | noProducts : Derivation .products
  | addProduct (op : Token) (hop : op.kind.isAdditive = true) (next : Derivation .product)
      (more : Derivation .products) : Derivation .products
  | product (first : Derivation .signed) (more : Derivation .factors) : Derivation .product
  | noFactors : Derivation .factors
  | addFactor (op : Token) (hop : op.kind.isMultiplicative = true) (next : Derivation .signed)
      (more : Derivation .factors) : Derivation .factors
  | unsigned (operand : Derivation .power) : Derivation .signed
  | signed (sign : Token) (hsign : sign.kind.isAdditive = true) (operand : Derivation .power) :
      Derivation .signed
  | bare (base : Derivation .atom) : Derivation .power
  | raised (base : Derivation .atom) (op : Token) (hop : op.kind.isPower = true)
      (exponent : Derivation .power) : Derivation .power
  | literal (t : Token) (ht : t.kind.isLiteral = true) : Derivation .atom
  | group (opening : Token) (hopening : opening.kind = .openParen) (inner : Derivation .sum)
      (closing : Token) (hclosing : closing.kind = .closeParen) : Derivation .atom

/-- A sentence is an expression with its derivation. -/
abbrev Sentence := Derivation .sum

/-- What a phrase stands for: a tree, or for the end of a repetition what it makes of the tree
before it. -/
abbrev Nonterminal.Meaning : Nonterminal → Type
  | .products | .factors => Expr → Expr
  | _ => Expr

namespace Derivation

/-- The tokens of the phrase, in order. -/
def yield : {n : Nonterminal} → Derivation n → List Token
  | _, .sum first more => first.yield ++ more.yield
  | _, .noProducts => []
  | _, .addProduct op _ next more => op :: (next.yield ++ more.yield)
  | _, .product first more => first.yield ++ more.yield
  | _, .noFactors => []
  | _, .addFactor op _ next more => op :: (next.yield ++ more.yield)
  | _, .unsigned operand => operand.yield
  | _, .signed sign _ operand => sign :: operand.yield
  | _, .bare base => base.yield
  | _, .raised base op _ exponent => base.yield ++ op :: exponent.yield
  | _, .literal t _ => [t]
  | _, .group opening _ inner closing _ => opening :: (inner.yield ++ [closing])

/-- The tree of the phrase. -/
def tree : {n : Nonterminal} → Derivation n → n.Meaning
  | _, .sum first more => more.tree first.tree
  | _, .noProducts => fun left => left
  | _, .addProduct op _ next more => fun left => more.tree (.binary op left next.tree)
  | _, .product first more => more.tree first.tree
  | _, .noFactors => fun left => left
  | _, .addFactor op _ next more => fun left => more.tree (.binary op left next.tree)
  | _, .unsigned operand => operand.tree
  | _, .signed sign _ operand => .signed sign operand.tree
  | _, .bare base => base.tree
  | _, .raised base op _ exponent => .binary op base.tree exponent.tree
  | _, .literal t _ => .leaf t
  | _, .group _ _ inner _ _ => inner.tree

end Derivation

namespace Token.Kind

/-- Whether an operand without a sign begins with a token of this kind. -/
def startsOperand : Kind → Bool
  | literal _ | openParen => true
  | _ => false

/-- An operator is of one of the three levels. -/
theorem isOperator_eq (k : Kind) :
    k.isOperator = (k.isAdditive || k.isMultiplicative || k.isPower) := by
  cases k with
  | operator op => cases op <;> rfl
  | _ => rfl

/-- A sign is an operator. -/
theorem isOperator_of_isAdditive {k : Kind} (h : k.isAdditive = true) : k.isOperator = true := by
  simp [isOperator_eq, h]

/-- What joins factors is an operator. -/
theorem isOperator_of_isMultiplicative {k : Kind} (h : k.isMultiplicative = true) :
    k.isOperator = true := by
  simp [isOperator_eq, h]

/-- The power sign is an operator. -/
theorem isOperator_of_isPower {k : Kind} (h : k.isPower = true) : k.isOperator = true := by
  simp [isOperator_eq, h]

/-- A sign is not of the two tighter levels. -/
theorem levels_of_isAdditive {k : Kind} (h : k.isAdditive = true) :
    k.isMultiplicative = false ∧ k.isPower = false := by
  cases k with
  | operator op => cases op <;> first | exact ⟨rfl, rfl⟩ | contradiction
  | _ => contradiction

/-- What joins factors is not of the two other levels. -/
theorem levels_of_isMultiplicative {k : Kind} (h : k.isMultiplicative = true) :
    k.isAdditive = false ∧ k.isPower = false := by
  cases k with
  | operator op => cases op <;> first | exact ⟨rfl, rfl⟩ | contradiction
  | _ => contradiction

/-- An operand can begin with a literal. -/
theorem startsOperand_of_isLiteral {k : Kind} (h : k.isLiteral = true) :
    k.startsOperand = true := by
  cases k <;> simp_all [isLiteral, startsOperand]

/-- An operand does not begin with a sign. -/
theorem startsOperand_of_isAdditive {k : Kind} (h : k.isAdditive = true) :
    k.startsOperand = false := by
  cases k <;> simp_all [isAdditive, startsOperand]

/-- What an operand begins with is not an operator. -/
theorem isOperator_of_startsOperand {k : Kind} (h : k.startsOperand = true) :
    k.isOperator = false := by
  cases k <;> simp_all [startsOperand, isOperator]

/-- An expression begins with an operand or with a sign. -/
theorem startsExpression_eq (k : Kind) :
    k.startsExpression = (k.startsOperand || k.isAdditive) := by
  cases k <;> rfl

end Token.Kind

namespace Nonterminal

/-- The kinds of token that a phrase can begin with. -/
def begins : Nonterminal → Token.Kind → Bool
  | sum, k | product, k | signed, k => k.startsExpression
  | products, k => k.isAdditive
  | factors, k => k.isMultiplicative
  | power, k | atom, k => k.startsOperand

/-- The kinds of token that a phrase takes up when they follow it. -/
def continues : Nonterminal → Token.Kind → Bool
  | sum, k | products, k => k.isOperator
  | product, k | factors, k => k.isMultiplicative || k.isPower
  | signed, k | power, k => k.isPower
  | atom, _ => false

/-- A text that a phrase ends before: its first token is not one the phrase would take up. -/
def Stops (n : Nonterminal) (r : List Token) : Prop :=
  ∀ t ∈ r.head?, n.continues t.kind = false

end Nonterminal

namespace Derivation

variable {n : Nonterminal}

/-- Only a repetition can derive nothing. -/
theorem yield_ne_nil (d : Derivation n) (hproducts : n ≠ .products) (hfactors : n ≠ .factors) :
    d.yield ≠ [] := by
  induction d with
  | sum first _ ihFirst _ | product first _ ihFirst _ => simp [yield, ihFirst]
  | noProducts | addProduct => contradiction
  | noFactors | addFactor => contradiction
  | unsigned _ ih | bare _ ih => simpa [yield] using ih
  | signed | raised | literal | group => simp [yield]

/-- A phrase begins as its nonterminal says. -/
theorem begins_of_head (d : Derivation n) : ∀ t ∈ d.yield.head?, n.begins t.kind = true := by
  induction d with
  | sum first more ihFirst _ | product first more ihFirst _ =>
    have hfirst := first.yield_ne_nil (by simp) (by simp)
    simpa [yield, Nonterminal.begins, List.head?_append_of_ne_nil _ hfirst] using ihFirst
  | noProducts | noFactors => simp [yield]
  | addProduct op hop | addFactor op hop => simpa [yield, Nonterminal.begins] using hop
  | unsigned operand ih =>
    intro t ht
    simp [Nonterminal.begins, Token.Kind.startsExpression_eq, show t.kind.startsOperand = true from
      ih t ht]
  | signed sign hsign =>
    simp [yield, Nonterminal.begins, Token.Kind.startsExpression_eq, hsign]
  | bare base ih => exact ih
  | raised base op hop exponent ihBase _ =>
    have hbase := base.yield_ne_nil (by simp) (by simp)
    simpa [yield, Nonterminal.begins, List.head?_append_of_ne_nil _ hbase] using ihBase
  | literal t ht =>
    simp [yield, Nonterminal.begins, Token.Kind.startsOperand_of_isLiteral ht]
  | group opening hopening =>
    simp [yield, Nonterminal.begins, hopening, Token.Kind.startsOperand]

/-- A phrase that is no repetition has a first token, which begins as its nonterminal says. -/
theorem exists_head (d : Derivation n) (hproducts : n ≠ .products) (hfactors : n ≠ .factors) :
    ∃ t w, d.yield = t :: w ∧ n.begins t.kind = true := by
  obtain ⟨t, w, hyield⟩ := List.exists_cons_of_ne_nil (d.yield_ne_nil hproducts hfactors)
  exact ⟨t, w, hyield, d.begins_of_head t (by simp [hyield])⟩

/-- No phrase begins with a token of a kind that its nonterminal does not allow. -/
theorem yield_append_ne_cons (d : Derivation n) (hproducts : n ≠ .products)
    (hfactors : n ≠ .factors) {t : Token} (ht : n.begins t.kind = false) (r w : List Token) :
    d.yield ++ r ≠ t :: w := by
  obtain ⟨head, tail, hyield, hbegins⟩ := d.exists_head hproducts hfactors
  intro heq
  simp only [hyield, List.cons_append, List.cons.injEq] at heq
  simp [← heq.1, hbegins] at ht

/-- A phrase that any text it begins determines together with its derivation, as long as neither it
nor another phrase of its nonterminal could go on there. -/
def Determined (d : Derivation n) : Prop :=
  ∀ (d' : Derivation n) ⦃r r' : List Token⦄, d.yield ++ r = d'.yield ++ r' → n.Stops r →
    n.Stops r' → d = d' ∧ r = r'

end Derivation

/-- What a phrase stops before is no token that it would take up. -/
theorem Nonterminal.Stops.ne_cons {n : Nonterminal} {r w : List Token} {t : Token} (hr : n.Stops r)
    (ht : n.continues t.kind = true) : r ≠ t :: w := by
  rintro rfl
  simp [hr t rfl] at ht

/-- The repeated end of a line of the grammar: operands of one nonterminal, each with an operator of
a class before it. The grammar has two of these, which differ in the data given here. -/
structure Chain (n more : Nonterminal) where
  joins : Token.Kind → Bool
  tree : Derivation n → Expr
  apply : Derivation more → Expr → Expr
  stop : Derivation more
  add (op : Token) (hop : joins op.kind = true) (next : Derivation n) (later : Derivation more) :
    Derivation more
  stop_or_add (d : Derivation more) : d = stop ∨ ∃ op hop next later, d = add op hop next later
  yield_stop : stop.yield = []
  apply_stop (left : Expr) : apply stop left = left
  yield_add (op : Token) (hop : joins op.kind = true) (next : Derivation n)
    (later : Derivation more) : (add op hop next later).yield = op :: (next.yield ++ later.yield)
  apply_add (op : Token) (hop : joins op.kind = true) (next : Derivation n)
    (later : Derivation more) (left : Expr) :
    apply (add op hop next later) left = apply later (.binary op left (tree next))
  continues_eq (k : Token.Kind) : more.continues k = (joins k || n.continues k)
  apart (k : Token.Kind) : joins k = true → n.continues k = false

namespace Chain

/-- Signed powers joined by `*`, `/` and `%`. -/
def factors : Chain .signed .factors where
  joins := Token.Kind.isMultiplicative
  tree := Derivation.tree
  apply := Derivation.tree
  stop := .noFactors
  add := .addFactor
  stop_or_add
    | .noFactors => .inl rfl
    | .addFactor op hop next later => .inr ⟨op, hop, next, later, rfl⟩
  yield_stop := rfl
  apply_stop _ := rfl
  yield_add _ _ _ _ := rfl
  apply_add _ _ _ _ _ := rfl
  continues_eq _ := rfl
  apart _ hk := (Token.Kind.levels_of_isMultiplicative hk).2

/-- Products joined by `+` and `-`. -/
def products : Chain .product .products where
  joins := Token.Kind.isAdditive
  tree := Derivation.tree
  apply := Derivation.tree
  stop := .noProducts
  add := .addProduct
  stop_or_add
    | .noProducts => .inl rfl
    | .addProduct op hop next later => .inr ⟨op, hop, next, later, rfl⟩
  yield_stop := rfl
  apply_stop _ := rfl
  yield_add _ _ _ _ := rfl
  apply_add _ _ _ _ _ := rfl
  continues_eq k := by simp [Nonterminal.continues, Token.Kind.isOperator_eq, Bool.or_assoc]
  apart k hk := by simp [Nonterminal.continues, Token.Kind.levels_of_isAdditive hk]

variable {n more : Nonterminal} (chain : Chain n more) {op : Token} {r r' : List Token}

include chain

/-- What holds of no operands, and of one more operand when it holds of the later ones, holds of any
number of operands. -/
theorem induct {motive : Derivation more → Prop} (hstop : motive chain.stop)
    (hadd : ∀ op hop next later, motive later → motive (chain.add op hop next later))
    (d : Derivation more) : motive d := by
  rcases chain.stop_or_add d with hd | ⟨op, hop, next, later, hd⟩
  · exact hd ▸ hstop
  · exact hd ▸ hadd op hop next later (induct hstop hadd later)
termination_by d.yield.length
decreasing_by
  rw [hd, chain.yield_add, List.length_cons, List.length_append]
  omega

/-- An operand is kept apart from what follows by the operands after it. -/
theorem stops (later : Derivation more) (hr : more.Stops r) : n.Stops (later.yield ++ r) := by
  intro t ht
  rcases chain.stop_or_add later with rfl | ⟨op, hop, next, later, rfl⟩
  · have hstop := hr t (by simpa [chain.yield_stop] using ht)
    rw [chain.continues_eq, Bool.or_eq_false_iff] at hstop
    exact hstop.2
  · obtain rfl : op = t := by simpa [chain.yield_add] using ht
    exact chain.apart _ hop

/-- An operand and those after it are determined when each part is. -/
theorem eq_of_pair {first first' : Derivation n} {later later' : Derivation more}
    (hfirst : first.Determined) (hlater : later.Determined)
    (h : first.yield ++ later.yield ++ r = first'.yield ++ later'.yield ++ r')
    (hr : more.Stops r) (hr' : more.Stops r') : first = first' ∧ later = later' ∧ r = r' := by
  rw [List.append_assoc, List.append_assoc] at h
  obtain ⟨hsame, hrest⟩ := hfirst first' h (chain.stops later hr) (chain.stops later' hr')
  exact ⟨hsame, hlater later' hrest hr hr'⟩

/-- No further operand begins where a chain stops. -/
theorem stop_ne_add (hop : chain.joins op.kind = true) (next : Derivation n)
    (later : Derivation more) (hr : more.Stops r) :
    chain.stop.yield ++ r ≠ (chain.add op hop next later).yield ++ r' := by
  rw [chain.yield_stop, chain.yield_add, List.nil_append, List.cons_append]
  exact hr.ne_cons (by rw [chain.continues_eq, hop, Bool.true_or])

/-- The end of a chain is determined. -/
theorem determined_stop : chain.stop.Determined := by
  intro d' r r' h hr _
  rcases chain.stop_or_add d' with rfl | ⟨op, hop, next, later, rfl⟩
  · exact ⟨rfl, List.append_cancel_left h⟩
  · exact absurd h (chain.stop_ne_add hop next later hr)

/-- One more operand is determined when it and the later ones are. -/
theorem determined_add (hop : chain.joins op.kind = true) {next : Derivation n}
    {later : Derivation more} (hnext : next.Determined) (hlater : later.Determined) :
    (chain.add op hop next later).Determined := by
  intro d' r r' h hr hr'
  rcases chain.stop_or_add d' with rfl | ⟨op', hop', next', later', rfl⟩
  · exact absurd h.symm (chain.stop_ne_add hop next later hr')
  · simp only [chain.yield_add, List.cons_append, List.cons.injEq] at h
    obtain ⟨rfl, hrest⟩ := h
    obtain ⟨rfl, rfl, rfl⟩ := chain.eq_of_pair hnext hlater hrest hr hr'
    exact ⟨rfl, rfl⟩

/-- A line of the grammar that ends with a chain is determined when its parts are. -/
theorem determined_line {whole : Nonterminal}
    {build : Derivation n → Derivation more → Derivation whole}
    (hbuild : ∀ d, ∃ first later, d = build first later)
    (hyield : ∀ first later, (build first later).yield = first.yield ++ later.yield)
    (hcontinues : whole.continues = more.continues) {first : Derivation n}
    {later : Derivation more} (hfirst : first.Determined) (hlater : later.Determined) :
    (build first later).Determined := by
  intro d' r r' h hr hr'
  obtain ⟨first', later', rfl⟩ := hbuild d'
  rw [hyield, hyield] at h
  rw [Nonterminal.Stops, hcontinues] at hr hr'
  obtain ⟨rfl, rfl, rfl⟩ := chain.eq_of_pair hfirst hlater h hr hr'
  exact ⟨rfl, rfl⟩

end Chain

namespace Derivation

/-- A power does not begin with a sign. -/
theorem unsigned_ne_signed (operand : Derivation .power) {sign : Token}
    (hsign : sign.kind.isAdditive = true) (r w : List Token) :
    operand.yield ++ r ≠ sign :: w :=
  operand.yield_append_ne_cons (by simp) (by simp)
    (Token.Kind.startsOperand_of_isAdditive hsign) r w

/-- A power without a sign is determined. -/
theorem Determined.unsigned {operand : Derivation .power} (hoperand : operand.Determined) :
    (Derivation.unsigned operand).Determined := by
  intro d' r r' h hr hr'
  cases d' with
  | unsigned operand' =>
    obtain ⟨rfl, rfl⟩ := hoperand operand' h hr hr'
    exact ⟨rfl, rfl⟩
  | signed sign hsign operand' => exact absurd h (operand.unsigned_ne_signed hsign _ _)

/-- A power with a sign is determined. -/
theorem Determined.signed {sign : Token} (hsign : sign.kind.isAdditive = true)
    {operand : Derivation .power} (hoperand : operand.Determined) :
    (Derivation.signed sign hsign operand).Determined := by
  intro d' r r' h hr hr'
  cases d' with
  | unsigned operand' => exact absurd h.symm (operand'.unsigned_ne_signed hsign _ _)
  | signed sign' hsign' operand' =>
    simp only [yield, List.cons_append, List.cons.injEq] at h
    obtain ⟨rfl, hrest⟩ := h
    obtain ⟨rfl, rfl⟩ := hoperand operand' hrest hr hr'
    exact ⟨rfl, rfl⟩

/-- An atom takes up nothing, so it is determined whatever follows it. -/
theorem Determined.eq_of_atom {base base' : Derivation .atom} (hbase : base.Determined)
    {r r' : List Token} (h : base.yield ++ r = base'.yield ++ r') : base = base' ∧ r = r' :=
  hbase base' h (fun _ _ => rfl) (fun _ _ => rfl)

/-- An atom alone is determined as a power. -/
theorem Determined.bare {base : Derivation .atom} (hbase : base.Determined) :
    (Derivation.bare base).Determined := by
  intro d' r r' h hr _
  cases d' with
  | bare base' =>
    obtain ⟨rfl, rfl⟩ := hbase.eq_of_atom h
    exact ⟨rfl, rfl⟩
  | raised base' op hop exponent =>
    simp only [yield, List.append_assoc] at h
    exact absurd (hbase.eq_of_atom h).2 (hr.ne_cons hop)

/-- A power of an atom is determined. -/
theorem Determined.raised {base : Derivation .atom} {op : Token} (hop : op.kind.isPower = true)
    {exponent : Derivation .power} (hbase : base.Determined) (hexponent : exponent.Determined) :
    (Derivation.raised base op hop exponent).Determined := by
  intro d' r r' h hr hr'
  simp only [yield, List.append_assoc] at h
  cases d' with
  | bare base' => exact absurd (hbase.eq_of_atom h).2.symm (hr'.ne_cons hop)
  | raised base' op' hop' exponent' =>
    simp only [yield, List.append_assoc] at h
    obtain ⟨rfl, hrest⟩ := hbase.eq_of_atom h
    obtain ⟨rfl, hlater⟩ := List.cons.inj hrest
    obtain ⟨rfl, rfl⟩ := hexponent exponent' hlater hr hr'
    exact ⟨rfl, rfl⟩

/-- A literal opens no group. -/
theorem literal_ne_group {t opening : Token} (ht : t.kind.isLiteral = true)
    (hopening : opening.kind = .openParen) (w w' : List Token) : t :: w ≠ opening :: w' := by
  intro h
  obtain ⟨rfl, -⟩ := List.cons.inj h
  simp [hopening, Token.Kind.isLiteral] at ht

/-- A literal is determined. -/
theorem determined_literal {t : Token} (ht : t.kind.isLiteral = true) :
    (Derivation.literal t ht).Determined := by
  intro d' r r' h _ _
  cases d' with
  | literal t' ht' =>
    obtain ⟨rfl, rfl⟩ := List.cons.inj h
    exact ⟨rfl, rfl⟩
  | group opening hopening => exact absurd h (literal_ne_group ht hopening _ _)

/-- A group is determined when what is inside is, because its end takes up nothing. -/
theorem Determined.group {opening closing : Token} (hopening : opening.kind = .openParen)
    (hclosing : closing.kind = .closeParen) {inner : Sentence} (hinner : inner.Determined) :
    (Derivation.group opening hopening inner closing hclosing).Determined := by
  have hstops {c : Token} (hc : c.kind = .closeParen) (w : List Token) :
      Nonterminal.sum.Stops (c :: w) := by
    simp [Nonterminal.Stops, hc, Nonterminal.continues, Token.Kind.isOperator]
  intro d' r r' h _ _
  cases d' with
  | literal t ht => exact absurd h.symm (literal_ne_group ht hopening _ _)
  | group opening' hopening' inner' closing' hclosing' =>
    simp only [yield, List.cons_append, List.append_assoc, List.nil_append, List.cons.injEq] at h
    obtain ⟨rfl, hinside⟩ := h
    obtain ⟨rfl, hrest⟩ := hinner inner' hinside (hstops hclosing _) (hstops hclosing' _)
    obtain ⟨rfl, rfl⟩ := List.cons.inj hrest
    exact ⟨rfl, rfl⟩

/-- Two phrases of one nonterminal at the start of a text, neither of which could go on, are the
same phrase with the same derivation. -/
theorem determined (d : Derivation n) : d.Determined := by
  induction d with
  | sum first more ihFirst ihMore =>
    exact Chain.products.determined_line (fun | .sum first later => ⟨first, later, rfl⟩)
      (fun _ _ => rfl) rfl ihFirst ihMore
  | noProducts => exact Chain.products.determined_stop
  | addProduct op hop next more ihNext ihMore =>
    exact Chain.products.determined_add hop ihNext ihMore
  | product first more ihFirst ihMore =>
    exact Chain.factors.determined_line (fun | .product first later => ⟨first, later, rfl⟩)
      (fun _ _ => rfl) rfl ihFirst ihMore
  | noFactors => exact Chain.factors.determined_stop
  | addFactor op hop next more ihNext ihMore =>
    exact Chain.factors.determined_add hop ihNext ihMore
  | unsigned operand ih => exact ih.unsigned
  | signed sign hsign operand ih => exact ih.signed hsign
  | bare base ih => exact ih.bare
  | raised base op hop exponent ihBase ihExponent => exact ihBase.raised hop ihExponent
  | literal t ht => exact determined_literal ht
  | group opening hopening inner closing hclosing ih => exact ih.group hopening hclosing

/-- The grammar is unambiguous. -/
theorem yield_injective {d d' : Derivation n} (h : d.yield = d'.yield) : d = d' := by
  have hstops : n.Stops [] := by simp [Nonterminal.Stops]
  exact (d.determined d' (congrArg (· ++ []) h) hstops hstops).1

end Derivation

end Calculator
