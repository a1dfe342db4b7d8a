import Calculator.Proofs.Alike
import Calculator.Proofs.OneExpression

/-!
# A group stands for its value

What is inside a pair of parentheses matters only through its value. Two sources that differ in what
is inside one group, an expression of the same value each time, evaluate alike: to the same values,
or to the same error, which has moved if it stands after the group. This holds whatever is before
and after the group, whether or not it can be read at all.
-/

namespace Calculator

variable {source : String} {x : Float} {f : Nat → Nat}

/-- Where a byte comes to stand when the `old` bytes before the byte `bound` become `new` ones. -/
def placeAfter (bound old new : Nat) (n : Nat) : Nat :=
  if n < bound then n else n - old + new

/-- What stands before the bound stays. -/
theorem placeAfter_of_lt {bound old new n : Nat} (h : n < bound) :
    placeAfter bound old new n = n :=
  if_pos h

/-- What stands after the bound keeps its distance from it. -/
theorem placeAfter_add {bound old new : Nat} (h : old ≤ bound) (n : Nat) :
    placeAfter bound old new (n + bound) = n + (bound - old + new) := by
  rw [placeAfter, if_neg (by omega)]
  omega

/-- A sentence may stand at other places, and has a related tree there. -/
theorem Derivation.exists_move {R : Expr → Expr → Prop} (hR : Expr.Congruent f R) (d : Sentence) :
    ∃ d' : Sentence, (d.yield.map Item.token).map (Item.move f) = d'.yield.map .token ∧
      R d.tree d'.tree := by
  have hmove := Alike.move (R := R) (f := f) (d.yield.map Item.token)
  rw [← List.append_nil (d.yield.map Item.token)] at hmove
  obtain ⟨d', r', hitems, hnil, hrelated⟩ := Alike.matched hR d hmove
  obtain rfl := hnil.nil_iff.mpr rfl
  exact ⟨d', by simpa using hitems, hrelated⟩

/-- A source of one sentence is a sentence with a related tree wherever the source stands. -/
theorem exists_sentence_at {R : Expr → Expr → Prop} {p : Nat} {d : Sentence}
    (hR : Expr.Congruent (· + p) R) (h : (Lexer.ofString source).items = d.yield.map .token) :
    ∃ d' : Sentence, Lexer.items ⟨source.toList, p⟩ = d'.yield.map .token ∧
      R d.tree d'.tree := by
  obtain ⟨d', hmoved, hrelated⟩ := d.exists_move hR
  have hplace := Lexer.items_move source.toList 0 p
  rw [Nat.zero_add] at hplace
  refine ⟨d', ?_, hrelated⟩
  rw [hplace, ← hmoved, ← h]
  rfl

/-- A source of one value is a sentence of this value wherever the source stands. -/
theorem exists_sentence_of_evaluate (h : evaluate source = .ok (some x)) (p : Nat) :
    ∃ d : Sentence, Lexer.items ⟨source.toList, p⟩ = d.yield.map .token ∧
      Expr.value d.tree = .ok x := by
  obtain ⟨d, hitems, hvalue⟩ := evaluate_eq_some_iff.mp h
  obtain ⟨d', hitems', hsame⟩ := exists_sentence_at (Expr.congruent_value (· + p)) hitems
  exact ⟨d', hitems', hsame.trans hvalue⟩

/-- A map of positions that changes none up to the end of a text keeps its items. -/
theorem Lexer.map_move_items {cs : List Char} {p : Nat}
    (h : ∀ n, n ≤ p + byteCount cs → f n = n) :
    (items ⟨cs, p⟩).map (Item.move f) = items ⟨cs, p⟩ := by
  have hkeep : ∀ item ∈ items ⟨cs, p⟩, item.move f = item := by
    intro item hitem
    have hplace : f item.position = id item.position := h _ (position_le_of_mem_items hitem)
    rw [Item.move_congr hplace, Item.move_id]
  exact (List.map_congr_left hkeep).trans (List.map_id _)

/-- A map of positions that takes the start of a text from one byte to another one, and what
follows along with it, takes its items from the one place to the other. -/
theorem Lexer.map_move_items_shift {cs : List Char} {p q : Nat} (h : ∀ n, f (n + p) = n + q) :
    (items ⟨cs, p⟩).map (Item.move f) = items ⟨cs, q⟩ := by
  have hp := items_move cs 0 p
  have hq := items_move cs 0 q
  have hcomp : Item.move f ∘ Item.move (· + p) = Item.move (· + q) := by
    funext item
    exact (Item.move_move item).trans (Item.move_congr (h item.position))
  rw [Nat.zero_add] at hp hq
  rw [hp, hq, List.map_map, hcomp]

/-- The items of a text with a pair of parentheses in it. -/
theorem Lexer.items_around (front inside rest : List Char) :
    items ⟨front ++ '(' :: (inside ++ ')' :: rest), 0⟩ =
      items ⟨front, 0⟩ ++ .token (.symbol .openParen (byteCount front)) ::
        (items ⟨inside, byteCount front + 1⟩ ++
          .token (.symbol .closeParen (byteCount front + 1 + byteCount inside)) ::
            items ⟨rest, byteCount front + 1 + byteCount inside + 1⟩) := by
  have hopen : ∀ c ∈ ('(' :: (inside ++ ')' :: rest)).head?, endsLexeme c = true := by
    simp [endsLexeme, Token.Kind.ofSymbol?]
  rw [items_append hopen, items_parentheses, Nat.zero_add]

/-- The end of a text with a pair of parentheses in it. -/
theorem Lexer.endMark_around (front inside rest : List Char) :
    endMark ⟨front ++ '(' :: (inside ++ ')' :: rest), 0⟩ =
      .symbol .endOfInput (byteCount rest + (byteCount front + 1 + byteCount inside + 1)) := by
  simp only [endMark, byteCount_append, byteCount, show '('.utf8Size = 1 from rfl,
    show ')'.utf8Size = 1 from rfl]
  congr 1
  omega

/-- Two texts are alike that differ in what is inside one group, when it has the same value and the
positions outside the group go from the one text to the other. -/
theorem alike_around {front inside inside' rest : List Char} {d d' : Sentence}
    (hitems : Lexer.items ⟨inside, byteCount front + 1⟩ = d.yield.map .token)
    (hitems' : Lexer.items ⟨inside', byteCount front + 1⟩ = d'.yield.map .token)
    (hvalue : Expr.value d'.tree = Expr.value d.tree)
    (hbefore : ∀ n, n ≤ byteCount front → f n = n)
    (hafter : ∀ n, f (n + (byteCount front + 1 + byteCount inside + 1)) =
      n + (byteCount front + 1 + byteCount inside' + 1)) :
    Alike f (fun e e' => e'.value = e.value)
      (Lexer.items ⟨front ++ '(' :: (inside ++ ')' :: rest), 0⟩)
      (Lexer.items ⟨front ++ '(' :: (inside' ++ ')' :: rest), 0⟩) := by
  let opening : Token := .symbol .openParen (byteCount front)
  let closing (text : List Char) : Token :=
    .symbol .closeParen (byteCount front + 1 + byteCount text)
  have hopening : opening.move f = opening := by
    simp [opening, Token.move, Token.symbol, hbefore]
  have hlater (u : List Item) : Alike f (fun e e' => e'.value = e.value)
      (.token opening :: (d.yield.map .token ++ .token (closing inside) :: u))
      (.token (opening.move f) ::
        (d'.yield.map .token ++ .token (closing inside') :: u.map (Item.move f))) :=
    .group opening rfl hvalue rfl rfl (.move u)
  have hboth := Alike.append (Lexer.items ⟨front, 0⟩)
    (hlater (Lexer.items ⟨rest, byteCount front + 1 + byteCount inside + 1⟩))
  rw [Lexer.map_move_items fun n hn => hbefore n (by simpa using hn), hopening,
    Lexer.map_move_items_shift hafter] at hboth
  simpa only [Lexer.items_around, hitems, hitems'] using hboth

/-- A group may be replaced by another one of the same value, whatever stands before and after it.
The values of the source stay the same. So does its error, except that its position and that of the
token it found are further on by the difference in length when they lie after the group. -/
theorem evaluateAll_replace_group (before after inside inside' : String) (x : Float)
    (h : evaluate inside = .ok (some x)) (h' : evaluate inside' = .ok (some x)) :
    evaluateAll (before ++ "(" ++ inside' ++ ")" ++ after) =
      (evaluateAll (before ++ "(" ++ inside ++ ")" ++ after)).mapError
        (Error.move (placeAfter (before ++ "(" ++ inside ++ ")").utf8ByteSize
          inside.utf8ByteSize inside'.utf8ByteSize)) := by
  have hlist (text : String) : (before ++ "(" ++ text ++ ")" ++ after).toList =
      before.toList ++ '(' :: (text.toList ++ ')' :: after.toList) := by
    simp
  have hsize : (before ++ "(" ++ inside ++ ")").utf8ByteSize =
      byteCount before.toList + 1 + byteCount inside.toList + 1 := by
    rw [← byteCount_toList]
    simp only [String.toList_append, byteCount_append]
    rfl
  obtain ⟨d, hitems, hvalue⟩ := exists_sentence_of_evaluate h (byteCount before.toList + 1)
  obtain ⟨d', hitems', hvalue'⟩ := exists_sentence_of_evaluate h' (byteCount before.toList + 1)
  rw [hsize, ← byteCount_toList inside, ← byteCount_toList inside']
  generalize hf : placeAfter (byteCount before.toList + 1 + byteCount inside.toList + 1)
    (byteCount inside.toList) (byteCount inside'.toList) = f
  have hbefore (n : Nat) (hn : n ≤ byteCount before.toList) : f n = n := by
    rw [← hf, placeAfter_of_lt (by omega)]
  have hafter (n : Nat) : f (n + (byteCount before.toList + 1 + byteCount inside.toList + 1)) =
      n + (byteCount before.toList + 1 + byteCount inside'.toList + 1) := by
    rw [← hf, placeAfter_add (by omega)]
    omega
  refine evaluateAll_alike (Expr.congruent_value f) (fun _ _ hsame => hsame) ?_ ?_
  · simp only [Lexer.ofString, hlist]
    exact alike_around hitems hitems' (hvalue'.trans hvalue.symm) hbefore hafter
  · simp only [Lexer.ofString, hlist, Lexer.endMark_around, Token.move, Token.symbol, hafter]

/-- An error after the group moves by the one byte that the second group is longer. -/
theorem evaluateAll_replace_group_longer :
    evaluateAll "2 ^ (1))" = .error (.parsing (.unexpectedToken "an operator or end of input"
      (.symbol .closeParen 7))) ∧
    evaluateAll "2 ^ (01))" = .error (.parsing (.unexpectedToken "an operator or end of input"
      (.symbol .closeParen 8))) := by
  have hone : evaluate "1" = .ok (some (Magnitude.toFloat false (Magnitude.nearest 1 1))) := by
    decide +kernel
  have hsame : evaluate "01" = .ok (some (Magnitude.toFloat false (Magnitude.nearest 1 1))) := by
    decide +kernel
  have herror : evaluateAll "2 ^ (1))" = .error (.parsing (.unexpectedToken
      "an operator or end of input" (.symbol .closeParen 7))) := by
    decide +kernel
  have hreplace := evaluateAll_replace_group "2 ^ " ")" "1" "01" _ hone hsame
  rw [show "2 ^ " ++ "(" ++ "1" ++ ")" ++ ")" = "2 ^ (1))" from rfl,
    show "2 ^ " ++ "(" ++ "01" ++ ")" ++ ")" = "2 ^ (01))" from rfl, herror] at hreplace
  exact ⟨herror, hreplace⟩

end Calculator
