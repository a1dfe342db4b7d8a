import Calculator.CommandLine
import Calculator.Proofs.ReadBack
import Calculator.Proofs.Results

/-!
# Lists of results read back

Results printed one after another are a source of several expressions. In parentheses each of them
stays an expression of its own, with any blanks between them or none. Printed on lines they do not
all: a line that begins with a minus sign continues the expression before it, and every such line
makes the list that is read back shorter by one.

`Entry.Reads` says of one text what is needed of it wherever it stands, and `evaluateAll_entries`
reads a list of such texts.
-/

namespace Calculator

open Magnitude (isNegative)

/-- A text, the value it is to be read as, and whether it is to begin with a sign. -/
structure Entry where
  text : List Char
  value : Float
  signed : Bool

/-- Wherever the text of an entry stands, it is one sentence as the entry has it. -/
def Entry.Reads (x : Entry) : Prop :=
  ∀ p, ∃ d : Sentence, Lexer.items ⟨x.text, p⟩ = d.yield.map .token ∧
    Expr.value d.tree = .ok x.value ∧ d.beginsSign = x.signed

/-- Whether a double is printed with a minus sign before it. -/
def printsMinus (x : Float) : Bool :=
  (formatNumber x).toList.head? == some '-'

variable {w : List Char} {entries : List Entry}

/-- A literal does not begin with a minus sign. -/
theorem LiteralForm.Spells.head?_ne_minus {form : LiteralForm} (h : form.Spells w) :
    w.head? ≠ some '-' := by
  intro hhead
  obtain ⟨rest, rfl⟩ : ∃ rest, w = '-' :: rest := by simpa [List.head?_eq_some_iff] using hhead
  have hliteral := Lexer.items_of_lexeme (show (Token.Kind.literal form).Spells _ from h) 0
  rw [Lexer.items_of_symbol (c := '-') rfl] at hliteral
  simp [Token.symbol] at hliteral

/-- The doubles with a sign are printed with it. -/
theorem printsMinus_eq (x : Float) : printsMinus x = isNegative x := by
  obtain ⟨form, w, h⟩ := exists_printedAs x
  have hw := h.spells.head?_ne_minus
  rw [printsMinus, h.text]
  cases isNegative x <;> simp [hw]

namespace Entry

/-- Blanks before an entry make no difference. -/
theorem Reads.blanks {x : Entry} (h : x.Reads) {blanks : List Char}
    (hblanks : ∀ c ∈ blanks, isBlank c = true) : Reads { x with text := blanks ++ x.text } := by
  intro p
  rw [Lexer.items_blanks hblanks]
  exact h (p + byteCount blanks)

/-- A printed double is an entry. -/
theorem reads_printed (x : Float) : Reads ⟨(formatNumber x).toList, x, isNegative x⟩ := by
  intro p
  obtain ⟨form, w, h⟩ := exists_printedAs x
  obtain ⟨d, hitems, htree⟩ := h.exists_sentence p
  refine ⟨d, hitems, by rw [htree, h.value_printedTree], ?_⟩
  have hfirst {t : Token}
      (ht : (Lexer.items ⟨(formatNumber x).toList, p⟩).head? = some (.token t)) :
      d.beginsSign = !t.kind.startsOperand := Derivation.beginsSign_of_head (hitems ▸ ht)
  rw [h.text] at hfirst
  cases hsign : isNegative x with
  | false =>
    have hliteral := Lexer.items_of_lexeme (show (Token.Kind.literal form).Spells w from h.spells) p
    exact hfirst (t := ⟨.literal form, .ofList w, p⟩)
      (by simp [hsign, hliteral, Token.Kind.isLiteral])
  | true =>
    have hminus : Lexer.items ⟨'-' :: w, p⟩ =
        .token (.symbol (.operator .minus) p) :: Lexer.items ⟨w, p + 1⟩ :=
      Lexer.items_of_symbol rfl w p
    exact hfirst (t := .symbol (.operator .minus) p) (by simp [hsign, hminus])

/-- A printed double in parentheses is an entry, and it has no sign. -/
theorem reads_enclosed (x : Float) :
    Reads ⟨'(' :: ((formatNumber x).toList ++ [')']), x, false⟩ := by
  intro p
  obtain ⟨form, w, h⟩ := exists_printedAs x
  obtain ⟨inner, hinner, htree⟩ := h.exists_sentence (p + 1)
  refine ⟨(inner.enclosed p (p + 1 + byteCount (formatNumber x).toList)).alone, ?_, ?_, rfl⟩
  · rw [Lexer.items_enclosed hinner]
    simp [Derivation.alone, Derivation.yield]
  · show Expr.value inner.tree = .ok x
    rw [htree, h.value_printedTree]

/-- Entries after one another are sentences after one another, if every lexeme has ended where one
of them begins. -/
theorem exists_sentences (hreads : ∀ x ∈ entries, x.Reads)
    (hends : ∀ x ∈ entries.tail, ∃ c ∈ x.text.head?, endsLexeme c = true) (p : Nat) :
    ∃ ds : List Sentence,
      Lexer.items ⟨entries.flatMap text, p⟩ = (yields ds).map .token ∧
        ds.map (fun d => Expr.value d.tree) = (entries.map value).map .ok ∧
        ds.map Derivation.beginsSign = entries.map signed := by
  induction entries generalizing p with
  | nil => exact ⟨[], Lexer.items_nil p, rfl, rfl⟩
  | cons x entries ih =>
    have hends' : ∀ c ∈ (entries.flatMap text).head?, endsLexeme c = true := by
      cases entries with
      | nil => simp
      | cons y entries =>
        obtain ⟨c, hc, hend⟩ := hends y (by simp)
        obtain ⟨cs, hcs⟩ := List.head?_eq_some_iff.mp hc
        simpa [hcs] using hend
    obtain ⟨d, hitems, hvalue, hsign⟩ := hreads x (by simp) p
    obtain ⟨ds, hitems', hvalues, hsigns⟩ := ih (fun y hy => hreads y (List.mem_cons_of_mem x hy))
      (fun y hy => hends y (List.mem_of_mem_tail hy)) (p + byteCount x.text)
    refine ⟨d :: ds, ?_, by simp [hvalue, hvalues], by simp [hsign, hsigns]⟩
    rw [List.flatMap_cons, Lexer.items_append hends', hitems, hitems', yields_cons, List.map_append]

end Entry

/-- Entries after one another are evaluated, whatever blanks are at the end. Each entry after the
first that begins with a sign makes the list of results shorter by one; when there is none, the
results are the values. -/
theorem evaluateAll_entries (hreads : ∀ x ∈ entries, x.Reads)
    (hends : ∀ x ∈ entries.tail, ∃ c ∈ x.text.head?, endsLexeme c = true) :
    ∃ ws,
      (∀ (source : String) (last : List Char), source.toList = entries.flatMap Entry.text ++ last →
        (∀ c ∈ last, isBlank c = true) → evaluateAll source = .ok ws) ∧
      ws.length + entries.tail.countP Entry.signed = entries.length ∧
      (entries.tail.countP Entry.signed = 0 → ws = entries.map Entry.value) := by
  obtain ⟨ds, hitems, hvalues, hsigns⟩ := Entry.exists_sentences hreads hends 0
  obtain ⟨ds', hds', hyields, hshorter⟩ := exists_separated_length ds
  rw [← hyields] at hitems
  obtain ⟨ws, hws⟩ := exists_values_of_items (hitems.trans (List.append_nil _).symm)
  have hcount : ds.tail.countP Derivation.beginsSign = entries.tail.countP Entry.signed := by
    have htail := congrArg (fun signs => signs.tail.countP id) hsigns
    simpa only [← List.map_tail, List.countP_map, Function.id_comp] using htail
  refine ⟨ws, fun source last hsource hlast => ?_, ?_, fun hnone => ?_⟩
  · have hnone (p : Nat) : Lexer.items ⟨last, p⟩ = [] :=
      Lexer.items_of_none (Lexer.next?_eq_none_iff.mpr hlast)
    have hends : ∀ c ∈ last.head?, endsLexeme c = true :=
      fun c hc => endsLexeme_of_isBlank (hlast c (List.mem_of_mem_head? hc))
    apply evaluateAll_of_separated hds' _ hws
    rw [Lexer.ofString, hsource, Lexer.items_append hends, hnone, hitems, List.append_nil]
  · have hlength : ds.length = entries.length := by simpa using congrArg List.length hvalues
    have hlength' : ds'.length = ws.length := by simpa using congrArg List.length hws
    omega
  · have hds : Separated ds := by
      intro d hd
      rw [← Derivation.beginsSign_eq_false_iff]
      simpa using List.countP_eq_zero.mp (hcount.trans hnone) d hd
    obtain rfl : ds' = ds := hds'.longestFirst.unique hds.longestFirst hyields
    rw [hws] at hvalues
    exact List.map_injective_iff.mpr (fun _ _ => Except.ok.inj) hvalues

/-- The entries of doubles on lines. A line break is counted to the line after it. -/
def lineEntries : List Float → List Entry
  | [] => []
  | v :: vs =>
    ⟨(formatNumber v).toList, v, isNegative v⟩ ::
      vs.map fun v => ⟨'\n' :: (formatNumber v).toList, v, isNegative v⟩

/-- The values of lines are the doubles. -/
theorem values_lineEntries (vs : List Float) : (lineEntries vs).map Entry.value = vs := by
  cases vs <;> simp [lineEntries, Function.comp_def]

/-- The lines after the first that begin with a sign are those of doubles printed with one. -/
theorem countP_lineEntries (vs : List Float) :
    (lineEntries vs).tail.countP Entry.signed = vs.tail.countP printsMinus := by
  cases vs <;> simp [lineEntries, List.countP_map, Function.comp_def, ← printsMinus_eq]

/-- Lines joined by line breaks are the texts of their entries. -/
theorem toList_intercalate (vs : List Float) :
    (String.intercalate "\n" (vs.map formatNumber)).toList =
      (lineEntries vs).flatMap Entry.text := by
  rw [String.toList_intercalate]
  induction vs with
  | nil => rfl
  | cons v vs ih =>
    cases vs with
    | nil => simp [lineEntries]
    | cons v' vs =>
      simp only [List.map_cons] at ih ⊢
      rw [List.intercalate_cons_cons, ih]
      simp [lineEntries]

/-- The result lines have one line break more, if there are any. -/
theorem toList_resultLines (vs : List Float) :
    (CommandLine.resultLines vs).toList =
      (lineEntries vs).flatMap Entry.text ++ (if vs = [] then [] else ['\n']) := by
  rw [CommandLine.resultLines, String.toList_join]
  induction vs with
  | nil => rfl
  | cons v vs ih =>
    cases vs with
    | nil => simp [lineEntries]
    | cons v' vs =>
      rw [List.map_cons, List.flatMap_cons, ih]
      simp [lineEntries]

/-- Lines are entries, and every lexeme has ended where a line after the first begins. -/
theorem reads_lineEntries (vs : List Float) :
    (∀ x ∈ lineEntries vs, x.Reads) ∧
      ∀ x ∈ (lineEntries vs).tail, ∃ c ∈ x.text.head?, endsLexeme c = true := by
  cases vs with
  | nil => simp [lineEntries]
  | cons v vs =>
    have hblank : ∀ c ∈ ['\n'], isBlank c = true := by simp [isBlank]
    constructor
    · intro x hx
      rcases List.mem_cons.mp hx with rfl | hx
      · exact Entry.reads_printed v
      · obtain ⟨v', -, rfl⟩ := List.mem_map.mp hx
        exact (Entry.reads_printed v').blanks hblank
    · intro x hx
      obtain ⟨v', -, rfl⟩ := List.mem_map.mp hx
      exact ⟨'\n', rfl, rfl⟩

/-- Doubles in parentheses are read back, with any blanks around them. -/
theorem evaluateAll_groups (groups : List (String × Float)) (last : String)
    (hgaps : ∀ g ∈ groups, ∀ c ∈ g.1.toList, isBlank c = true)
    (hlast : ∀ c ∈ last.toList, isBlank c = true) :
    evaluateAll
        (String.join (groups.map fun (gap, v) => gap ++ "(" ++ formatNumber v ++ ")") ++ last) =
      .ok (groups.map Prod.snd) := by
  let entry (g : String × Float) : Entry :=
    ⟨g.1.toList ++ '(' :: ((formatNumber g.2).toList ++ [')']), g.2, false⟩
  have hreads : ∀ x ∈ groups.map entry, x.Reads := by
    intro x hx
    obtain ⟨g, hg, rfl⟩ := List.mem_map.mp hx
    exact (Entry.reads_enclosed g.2).blanks (hgaps g hg)
  have hends : ∀ x ∈ (groups.map entry).tail, ∃ c ∈ x.text.head?, endsLexeme c = true := by
    intro x hx
    obtain ⟨g, hg, rfl⟩ := List.mem_map.mp (List.mem_of_mem_tail hx)
    cases hgap : g.1.toList with
    | nil => exact ⟨'(', by simp [entry, hgap], rfl⟩
    | cons c cs =>
      exact ⟨c, by simp [entry, hgap], endsLexeme_of_isBlank (hgaps g hg c (by simp [hgap]))⟩
  obtain ⟨ws, hok, -, hvalues⟩ := evaluateAll_entries hreads hends
  have hsource : (String.join (groups.map fun (gap, v) => gap ++ "(" ++ formatNumber v ++ ")") ++
      last).toList = (groups.map entry).flatMap Entry.text ++ last.toList := by
    simp [List.flatMap_map, entry]
  rw [hok _ _ hsource hlast, hvalues, List.map_map]
  · rfl
  · rw [List.countP_eq_zero]
    intro x hx
    obtain ⟨g, -, rfl⟩ := List.mem_map.mp (List.mem_of_mem_tail hx)
    simp [entry]

/-- Doubles on lines are read back as a list that is shorter by the number of minus signs at the
start of a line after the first. -/
theorem evaluateAll_lines (vs : List Float) :
    ∃ ws, evaluateAll (String.intercalate "\n" (vs.map formatNumber)) = .ok ws ∧
      evaluateAll (CommandLine.resultLines vs) = .ok ws ∧
      ws.length + vs.tail.countP printsMinus = vs.length ∧
      (ws = vs ↔ ∀ v ∈ vs.tail, printsMinus v = false) := by
  obtain ⟨hreads, hends⟩ := reads_lineEntries vs
  obtain ⟨ws, hok, hlength, hvalues⟩ := evaluateAll_entries hreads hends
  have hlines : (lineEntries vs).length = vs.length := by
    simpa using congrArg List.length (values_lineEntries vs)
  rw [countP_lineEntries, hlines] at hlength
  rw [countP_lineEntries, values_lineEntries] at hvalues
  have hnone : vs.tail.countP printsMinus = 0 ↔ ∀ v ∈ vs.tail, printsMinus v = false := by
    simp [List.countP_eq_zero]
  refine ⟨ws, hok _ [] ?_ (by simp), hok _ _ (toList_resultLines vs) ?_, hlength, ?_⟩
  · rw [toList_intercalate, List.append_nil]
  · split <;> simp [isBlank]
  · rw [← hnone]
    constructor
    · intro hsame
      rw [hsame] at hlength
      omega
    · exact hvalues

/-- A list of doubles is read back from the doubles in parentheses. From lines it is read back
exactly when no element after the first is printed with a minus sign, and otherwise as a list that
is shorter by the number of those that are. -/
theorem evaluateAll_printed :
    (∀ (groups : List (String × Float)) (last : String),
      (∀ g ∈ groups, ∀ c ∈ g.1.toList, isBlank c = true) → (∀ c ∈ last.toList, isBlank c = true) →
        evaluateAll
            (String.join (groups.map fun (gap, v) => gap ++ "(" ++ formatNumber v ++ ")") ++ last) =
          .ok (groups.map Prod.snd)) ∧
    (∀ vs : List Float, ∃ ws,
      evaluateAll (String.intercalate "\n" (vs.map formatNumber)) = .ok ws ∧
      evaluateAll (CommandLine.resultLines vs) = .ok ws ∧
      ws.length + vs.tail.countP printsMinus = vs.length ∧
      (ws = vs ↔ ∀ v ∈ vs.tail, printsMinus v = false)) ∧
    ∀ v, printsMinus v = true ↔ v < 0 ∨ v = -0 := by
  refine ⟨evaluateAll_groups, evaluateAll_lines, fun v => ?_⟩
  rw [printsMinus_eq, Magnitude.isNegative_iff]

end Calculator
