import Calculator.Proofs.WellFormed

/-!
# The first fault of a tree

A node has a fault when its token is none that a node of its shape can hold: a leaf that is no
literal or a numeral that is not spelled as its form asks, a sign that is neither `+` nor `-`, an
operator that is none. Faults are a matter of tokens alone. The values of the operands have no part
in them, so division by zero, NaN and infinities neither bring one about nor hide one.

A tree has a value exactly when none of its nodes has a fault. Otherwise its error is the fault that
comes first when the nodes are listed in the order of evaluation.
-/

namespace Calculator

namespace Expr

/-- The nodes of a tree in the order of evaluation, each as the tree below it: operands before what
joins them, and the left operand before the right one. -/
def postorder : Expr → List Expr
  | leaf t => [leaf t]
  | signed t e => e.postorder ++ [signed t e]
  | binary t l r => l.postorder ++ (r.postorder ++ [binary t l r])

/-- The fault of a node, whatever its operands are. -/
inductive Fault : Expr → EvalError → Prop where
  | leaf {t : Token} (h : t.kind.isLiteral = false) : Fault (.leaf t) (.unknownLeaf t.kind)
  | numeral {t : Token} {form : LiteralForm} (hkind : t.kind = .literal form)
      (hform : form.isNumeral = true) (h : ¬ form.Spells t.text.toList) :
      Fault (.leaf t) (.malformedLiteral t.text)
  | sign {t : Token} {e : Expr} (h : t.kind.isAdditive = false) :
      Fault (.signed t e) (.unknownSign t.kind)
  | operator {t : Token} {l r : Expr} (h : t.kind.isOperator = false) :
      Fault (.binary t l r) (.unknownOperator t.kind)

/-- A node that has no fault. -/
def Sound (node : Expr) : Prop :=
  ∀ error, ¬ node.Fault error

/-- The first of some nodes that has a fault has this one. -/
def FirstFault (nodes : List Expr) (error : EvalError) : Prop :=
  ∃ before node after, nodes = before ++ node :: after ∧ (∀ n ∈ before, n.Sound) ∧
    node.Fault error

/-- A tree amounts to a number: literals have their values, and signs and operators are applied to
what their operands amount to. -/
inductive Evaluates : Expr → Float → Prop where
  | leaf {t : Token} {x : Float} (h : t.value = .ok x) : Evaluates (.leaf t) x
  | signed {t : Token} {e : Expr} {x y : Float} (he : e.Evaluates x)
      (h : t.kind.applySign x = .ok y) : Evaluates (.signed t e) y
  | binary {t : Token} {l r : Expr} {x y z : Float} (hl : l.Evaluates x) (hr : r.Evaluates y)
      (h : t.kind.applyBinary x y = .ok z) : Evaluates (.binary t l r) z

variable {e node : Expr} {t : Token} {error error' : EvalError} {x y z : Float}
  {nodes nodes' : List Expr}

/-- A node has at most one fault. -/
theorem Fault.unique (h : node.Fault error) (h' : node.Fault error') : error = error' := by
  cases h with
  | leaf hliteral =>
    cases h' with
    | leaf => rfl
    | numeral hkind => simp [hkind, Token.Kind.isLiteral] at hliteral
  | numeral hkind =>
    cases h' with
    | leaf hliteral => simp [hkind, Token.Kind.isLiteral] at hliteral
    | numeral => rfl
  | sign => cases h'; rfl
  | operator => cases h'; rfl

namespace FirstFault

/-- The first fault stays the first one when more nodes follow. -/
theorem append (h : FirstFault nodes error) (nodes' : List Expr) :
    FirstFault (nodes ++ nodes') error := by
  obtain ⟨before, node, after, rfl, hsound, hfault⟩ := h
  exact ⟨before, node, after ++ nodes', by simp, hsound, hfault⟩

/-- Nodes without a fault may come before. -/
theorem after_sound (hsound : ∀ n ∈ nodes, n.Sound) (h : FirstFault nodes' error) :
    FirstFault (nodes ++ nodes') error := by
  obtain ⟨before, node, after, rfl, hbefore, hfault⟩ := h
  refine ⟨nodes ++ before, node, after, by simp, fun n hn => ?_, hfault⟩
  exact (List.mem_append.mp hn).elim (hsound n) (hbefore n)

/-- A single node that has a fault is the first one. -/
theorem singleton (h : node.Fault error) : FirstFault [node] error :=
  ⟨[], node, [], rfl, by simp, h⟩

/-- Some node has a fault. -/
theorem exists_fault (h : FirstFault nodes error) : ∃ node ∈ nodes, ∃ f, node.Fault f := by
  obtain ⟨before, node, after, rfl, -, hfault⟩ := h
  exact ⟨node, by simp, error, hfault⟩

/-- There is only one first fault. -/
theorem unique (h : FirstFault nodes error) (h' : FirstFault nodes error') : error = error' := by
  induction nodes with
  | nil =>
    obtain ⟨before, node, after, hnodes, -, -⟩ := h
    simp at hnodes
  | cons head nodes ih =>
    obtain ⟨before, node, after, hnodes, hsound, hfault⟩ := h
    obtain ⟨before', node', after', hnodes', hsound', hfault'⟩ := h'
    cases before with
    | nil =>
      obtain ⟨rfl, -⟩ := List.cons.inj hnodes
      cases before' with
      | nil =>
        obtain ⟨rfl, -⟩ := List.cons.inj hnodes'
        exact hfault.unique hfault'
      | cons first before' =>
        obtain ⟨rfl, -⟩ := List.cons.inj hnodes'
        exact absurd hfault (hsound' _ (by simp) _)
    | cons first before =>
      obtain ⟨rfl, hrest⟩ := List.cons.inj hnodes
      cases before' with
      | nil =>
        obtain ⟨rfl, -⟩ := List.cons.inj hnodes'
        exact absurd hfault' (hsound _ (by simp) _)
      | cons first' before' =>
        obtain ⟨-, hrest'⟩ := List.cons.inj hnodes'
        exact ih ⟨before, node, after, hrest, fun n hn => hsound n (by simp [hn]), hfault⟩
          ⟨before', node', after', hrest', fun n hn => hsound' n (by simp [hn]), hfault'⟩

end FirstFault

/-- What is computed at some nodes: a number if none of them has a fault, and otherwise the first
fault. -/
inductive Reports (nodes : List Expr) : Except EvalError Float → Prop where
  | number {x : Float} (hsound : ∀ n ∈ nodes, n.Sound) : Reports nodes (.ok x)
  | fault {error : EvalError} (hfault : FirstFault nodes error) : Reports nodes (.error error)

namespace Reports

/-- A node without a fault gives a number. -/
theorem of_sound (h : node.Sound) : Reports [node] (.ok x) :=
  .number (List.forall_mem_singleton.mpr h)

/-- A node with a fault reports it. -/
theorem of_fault (h : node.Fault error) : Reports [node] (.error error) :=
  .fault (.singleton h)

/-- What is computed at some nodes and then at others is computed at all of them. -/
theorem bind {r : Except EvalError Float} {f : Float → Except EvalError Float}
    (h : Reports nodes r) (hf : ∀ x, Reports nodes' (f x)) :
    Reports (nodes ++ nodes') (r >>= f) := by
  cases h with
  | @number x hsound =>
    have hthen := hf x
    simp only [Bind.bind, Except.bind]
    generalize f x = r' at hthen
    cases hthen with
    | number hsound' => exact .number (List.forall_mem_append.mpr ⟨hsound, hsound'⟩)
    | fault hfault => exact .fault (hfault.after_sound hsound)
  | fault hfault => exact .fault (hfault.append nodes')

/-- At a leaf the value of its token is computed. -/
theorem leaf (t : Token) : Reports [.leaf t] t.value := by
  cases hkind : t.kind with
  | literal form =>
    simp only [Token.value, hkind]
    cases hmagnitude : form.magnitude? t.text.toList with
    | some code =>
      refine of_sound fun error hfault => ?_
      cases hfault with
      | leaf hliteral => simp [hkind, Token.Kind.isLiteral] at hliteral
      | numeral hform hnumeral hspells =>
        obtain rfl := Token.Kind.literal.inj (hkind.symm.trans hform)
        exact hspells (LiteralForm.spells_of_magnitude? hnumeral hmagnitude)
    | none =>
      obtain ⟨hnumeral, hspells⟩ := LiteralForm.magnitude?_eq_none_iff.mp hmagnitude
      exact of_fault (.numeral hkind hnumeral hspells)
  | operator | openParen | closeParen | endOfInput =>
    simp only [Token.value, hkind]
    rw [← hkind]
    exact of_fault (.leaf (by simp [hkind, Token.Kind.isLiteral]))

/-- At a sign it is applied to its operand, whatever the value of this is. -/
theorem signed (t : Token) (e : Expr) (x : Float) :
    Reports [.signed t e] (t.kind.applySign x) := by
  cases hsign : t.kind.isAdditive with
  | true =>
    have hsound : (Expr.signed t e).Sound := by
      intro error hfault
      cases hfault with
      | sign h => simp [hsign] at h
    rcases Token.Kind.eq_of_isAdditive hsign with hkind | hkind <;>
      simpa only [hkind, Token.Kind.applySign] using of_sound hsound
  | false =>
    have herror : t.kind.applySign x = .error (.unknownSign t.kind) := by
      cases hkind : t.kind with
      | operator op =>
        cases op <;>
          simp_all [Token.Kind.isAdditive, Operator.isAdditive, Token.Kind.applySign]
      | _ => rfl
    rw [herror]
    exact of_fault (.sign hsign)

/-- At an operator it is applied to its operands, whatever their values are. -/
theorem binary (t : Token) (l r : Expr) (x y : Float) :
    Reports [.binary t l r] (t.kind.applyBinary x y) := by
  cases hop : t.kind.isOperator with
  | true =>
    obtain ⟨op, hkind⟩ := t.kind.exists_operator hop
    simp only [hkind, Token.Kind.applyBinary]
    refine of_sound fun error hfault => ?_
    cases hfault with
    | operator h => simp [hop] at h
  | false =>
    have herror : t.kind.applyBinary x y = .error (.unknownOperator t.kind) := by
      cases hkind : t.kind with
      | operator op => simp [hkind, Token.Kind.isOperator] at hop
      | _ => rfl
    rw [herror]
    exact of_fault (.operator hop)

end Reports

/-- The value of a tree is computed at its nodes, one after the other. -/
theorem reports_value (e : Expr) : Reports e.postorder e.value := by
  induction e with
  | leaf t => exact .leaf t
  | signed t e ih => exact ih.bind fun x => .signed t e x
  | binary t l r ihl ihr => exact ihl.bind fun x => ihr.bind fun y => .binary t l r x y

/-- The value of a tree is the number that it amounts to. -/
theorem value_eq_ok_iff : e.value = .ok x ↔ e.Evaluates x := by
  constructor
  · intro h
    induction e generalizing x with
    | leaf t => exact .leaf h
    | signed t e ih =>
      simp only [value, bind, Except.bind] at h
      split at h
      · simp at h
      · rename_i y hy
        exact .signed (ih hy) h
    | binary t l r ihl ihr =>
      simp only [value, bind, Except.bind] at h
      split at h
      · simp at h
      · rename_i y hy
        split at h
        · simp at h
        · rename_i z hz
          exact .binary (ihl hy) (ihr hz) h
  · intro h
    induction h with
    | leaf h => exact h
    | signed he h ih => simpa only [value, ih, bind, Except.bind] using h
    | binary hl hr h ihl ihr => simpa only [value, ihl, ihr, bind, Except.bind] using h

/-- A tree has an error exactly when one of its nodes has a fault, and then its error is the first
fault in the order of evaluation, whatever the values of the operands are. Every other tree has the
value that it amounts to. -/
theorem value_first_fault (e : Expr) :
    (∀ error, e.value = .error error ↔ FirstFault e.postorder error) ∧
    ((∃ error, e.value = .error error) ↔ ∃ node ∈ e.postorder, ∃ error, node.Fault error) ∧
    (∀ x, e.value = .ok x ↔ e.Evaluates x) ∧
    ((∃ x, e.Evaluates x) ↔ ∀ node ∈ e.postorder, node.Sound) := by
  have hvalue := e.reports_value
  simp only [← value_eq_ok_iff]
  generalize e.value = r at hvalue
  cases hvalue with
  | @number x hsound =>
    have hnone (error : EvalError) : ¬ FirstFault e.postorder error := by
      intro hfault
      obtain ⟨node, hmem, f, hf⟩ := hfault.exists_fault
      exact hsound node hmem f hf
    have hall (node : Expr) (hmem : node ∈ e.postorder) (error : EvalError) : ¬ node.Fault error :=
      hsound node hmem error
    simp_all
  | @fault error hfault =>
    obtain ⟨node, hmem, f, hf⟩ := hfault.exists_fault
    refine ⟨fun error' => ⟨?_, fun h => ?_⟩, ?_, by simp, ?_⟩
    · rintro ⟨⟩
      exact hfault
    · rw [hfault.unique h]
    · exact ⟨fun _ => ⟨node, hmem, f, hf⟩, fun _ => ⟨error, rfl⟩⟩
    · refine ⟨by simp, fun hsound => ?_⟩
      exact absurd hf (hsound node hmem f)

/-- A literal that is malformed is reported before the sign in front of it and the operator, which
are none, and whatever comes to the right. -/
example (r : Expr) :
    (binary (.symbol .openParen 3) (signed (.symbol .closeParen 0)
      (leaf ⟨.literal .integer, "1e5", 1⟩)) r).value = .error (.malformedLiteral "1e5") := by
  rfl

end Expr

end Calculator
