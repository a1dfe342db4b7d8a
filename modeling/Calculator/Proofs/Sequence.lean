import Calculator.Proofs.Scan

/-!
# Sentences after one another

The tokens of a source are cut into sentences without separators between them. There can be several
ways to do so, since a sign may continue one sentence or begin the next. A split is separated when
no sentence after the first begins with a sign. Every split can be turned into a separated one by
joining a sentence that begins with a sign to the one before it, and a separated split takes the
longest sentence that there is each time. So the tokens determine it.

Reading from left to right finds the sentences of a separated split: where a scan is stuck, the
sentences before that place are the first ones of every separated split of a longer text.
-/

namespace Calculator

/-- The tokens of sentences after one another. -/
def yields (ds : List Sentence) : List Token :=
  ds.flatMap Derivation.yield

/-- A sentence that begins with a literal or an opening parenthesis. -/
def Derivation.BeginsOperand (d : Sentence) : Prop :=
  ∃ t w, d.yield = t :: w ∧ t.kind.startsOperand = true

/-- Whether a sentence begins with a sign. -/
def Derivation.beginsSign (d : Sentence) : Bool :=
  d.yield.head?.any fun t => !t.kind.startsOperand

/-- Sentences of which only the first may begin with a sign. -/
def Separated (ds : List Sentence) : Prop :=
  ∀ d ∈ ds.tail, d.BeginsOperand

/-- Sentences each of which is the longest one at the start of what is left. -/
def LongestFirst : List Sentence → Prop
  | [] => True
  | d :: ds =>
    (∀ d' : Sentence, d'.yield <+: d.yield ++ yields ds → d'.yield.length ≤ d.yield.length) ∧
      LongestFirst ds

/-- A text that may follow a sentence as far as its first item tells: nothing, or what begins
with an operand. -/
def Follows (u : List Item) : Prop :=
  ∀ item ∈ u.head?, ∃ t, item = .token t ∧ t.kind.startsOperand = true

/-- Sentences before a text, each of them with something after it that may follow a sentence. -/
def Parted : List Sentence → List Item → Prop
  | [], _ => True
  | _ :: ds, r => Follows ((yields ds).map .token ++ r) ∧ Parted ds r

variable {ds ds' : List Sentence} {d d' : Sentence} {r u : List Item} {w : List Token}
  {a q stop : Scan}

/-- No sentences, no tokens. -/
@[simp] theorem yields_nil : yields [] = [] := rfl

/-- The tokens of the first sentence come first. -/
@[simp] theorem yields_cons : yields (d :: ds) = d.yield ++ yields ds := by
  simp [yields]

/-- The tokens of one sequence come before those of the next. -/
theorem yields_append : yields (ds ++ ds') = yields ds ++ yields ds' := by
  simp [yields]

/-- Only no sentences have no tokens. -/
theorem yields_eq_nil_iff : yields ds = [] ↔ ds = [] := by
  cases ds with
  | nil => simp
  | cons d ds => simp [d.yield_ne_nil (by simp) (by simp)]

/-- The end of a separated sequence is separated. -/
theorem Separated.tail (h : Separated (d :: ds)) : Separated ds :=
  fun d' hd' => h d' (List.mem_of_mem_tail hd')

/-- The tokens after the first sentence of a separated sequence begin with an operand. -/
theorem Separated.follows (h : Separated (d :: ds)) : Follows ((yields ds).map .token) := by
  cases ds with
  | nil => simp [Follows]
  | cons d' ds =>
    obtain ⟨t, w, hyield, ht⟩ := h d' (by simp)
    simpa [Follows, hyield] using ht

/-- What follows the first of two texts shows in the first item of both. -/
theorem Follows.append (h : Follows u) (hr : Follows r) : Follows (u ++ r) := by
  cases u with
  | nil => exact hr
  | cons item u => exact h

/-- A separated sequence is parted before a text that may follow a sentence. -/
theorem Separated.parted (h : Separated ds) (hr : Follows r) : Parted ds r := by
  induction ds with
  | nil => trivial
  | cons d ds ih => exact ⟨h.follows.append hr, ih h.tail⟩

/-- A separated sequence is one that is parted with nothing after it. -/
theorem parted_nil_iff : Parted ds [] ↔ Separated ds := by
  refine ⟨fun h => ?_, fun h => h.parted (by simp [Follows])⟩
  induction ds with
  | nil => simp [Separated]
  | cons d ds ih =>
    obtain ⟨hfollows, hds⟩ := h
    intro d' hd'
    cases ds with
    | nil => simp at hd'
    | cons d₂ ds =>
      rcases List.mem_cons.mp hd' with rfl | hd'
      · obtain ⟨t, w, hyield, -⟩ := d'.exists_head (by simp) (by simp)
        obtain ⟨t', ht', hoperand⟩ := hfollows (.token t) (by simp [hyield])
        obtain rfl := Item.token.inj ht'
        exact ⟨t, w, hyield, hoperand⟩
      · exact ih hds d' hd'

/-- Further products may be continued by further products. -/
theorem exists_products_append :
    ∀ more more' : Derivation .products,
      ∃ both : Derivation .products, both.yield = more.yield ++ more'.yield
  | .noProducts, more' => ⟨more', rfl⟩
  | .addProduct op hop next more, more' => by
    obtain ⟨both, hboth⟩ := exists_products_append more more'
    exact ⟨.addProduct op hop next both, by simp [Derivation.yield, hboth]⟩

/-- A sentence that does not begin with an operand continues the one before it: its sign then
joins two products. -/
theorem exists_joined (d d' : Sentence) (h : ¬ d'.BeginsOperand) :
    ∃ both : Sentence, both.yield = d.yield ++ d'.yield := by
  match d, d' with
  | .sum first more, .sum (.product (.signed sign hsign operand) factors) products =>
    let next : Derivation .product := .product (.unsigned operand) factors
    obtain ⟨both, hboth⟩ := exists_products_append more (.addProduct sign hsign next products)
    exact ⟨.sum first both, by simp [Derivation.yield, hboth, next]⟩
  | d, .sum (.product (.unsigned operand) factors) products =>
    obtain ⟨t, w, hyield, ht⟩ := operand.exists_head (by simp) (by simp)
    refine absurd ⟨t, w ++ (factors.yield ++ products.yield), ?_, ht⟩ h
    simp [Derivation.yield, hyield]

/-- The first token of a sentence is a sign exactly when it begins no operand. -/
theorem Derivation.beginsSign_eq_false_iff : d.beginsSign = false ↔ d.BeginsOperand := by
  obtain ⟨t, w, hyield, -⟩ := d.exists_head (by simp) (by simp)
  simp [beginsSign, BeginsOperand, hyield]

/-- The first item of a sentence tells whether it begins with a sign. -/
theorem Derivation.beginsSign_of_head {t : Token}
    (h : (d.yield.map Item.token).head? = some (.token t)) :
    d.beginsSign = !t.kind.startsOperand := by
  obtain ⟨t', ht', heq⟩ : ∃ t', d.yield.head? = some t' ∧ Item.token t' = .token t := by
    simpa [Option.map_eq_some_iff] using h
  simp [beginsSign, ht', Item.token.inj heq]

/-- The tokens of a sequence tell whether its first sentence begins with a sign. -/
theorem beginsSign_of_yields (h : yields (d :: ds) = yields (d' :: ds')) :
    d.beginsSign = d'.beginsSign := by
  obtain ⟨t, w, hyield, -⟩ := d.exists_head (by simp) (by simp)
  obtain ⟨t', w', hyield', -⟩ := d'.exists_head (by simp) (by simp)
  simp only [yields_cons, hyield, hyield', List.cons_append, List.cons.injEq] at h
  simp only [Derivation.beginsSign, hyield, hyield', h.1, List.head?_cons]

/-- A sentence goes before a separated sequence, or is joined to the first sentence of it when that
one begins with a sign. -/
theorem Separated.exists_cons (h : Separated (d' :: ds')) (d : Sentence) :
    ∃ ds, Separated ds ∧ yields ds = yields (d :: d' :: ds') ∧
      ds.length + (if d'.beginsSign then 1 else 0) = (d :: d' :: ds').length := by
  by_cases hoperand : d'.BeginsOperand
  · refine ⟨d :: d' :: ds', ?_, rfl, by simp [Derivation.beginsSign_eq_false_iff.mpr hoperand]⟩
    intro d₂ hd₂
    rcases List.mem_cons.mp hd₂ with rfl | hd₂
    · exact hoperand
    · exact h d₂ hd₂
  · obtain ⟨both, hboth⟩ := exists_joined d d' hoperand
    rw [← Derivation.beginsSign_eq_false_iff, Bool.not_eq_false] at hoperand
    exact ⟨both :: ds', h, by simp [hboth], by simp [hoperand]⟩

/-- Every split can be turned into a separated one, and this takes away as many sentences as begin
with a sign and have one before them. -/
theorem exists_separated_length (ds : List Sentence) :
    ∃ ds', Separated ds' ∧ yields ds' = yields ds ∧
      ds'.length + ds.tail.countP Derivation.beginsSign = ds.length := by
  induction ds with
  | nil => exact ⟨[], by simp [Separated], rfl, rfl⟩
  | cons d ds ih =>
    obtain ⟨ds', hseparated, hyields, hlength⟩ := ih
    cases ds with
    | nil => exact ⟨[d], by simp [Separated], rfl, rfl⟩
    | cons d₁ ds =>
      cases ds' with
      | nil => exact absurd (yields_eq_nil_iff.mp hyields.symm) (by simp)
      | cons d' ds' =>
        obtain ⟨both, hboth, hyields', hlength'⟩ := hseparated.exists_cons d
        rw [beginsSign_of_yields hyields] at hlength'
        refine ⟨both, hboth, by rw [hyields']; simpa using hyields, ?_⟩
        simp only [List.tail_cons, List.countP_cons, List.length_cons] at hlength hlength' ⊢
        omega

/-- Every split can be turned into a separated one. -/
theorem exists_separated (ds : List Sentence) :
    ∃ ds', Separated ds' ∧ yields ds' = yields ds := by
  obtain ⟨ds', hseparated, hyields, -⟩ := exists_separated_length ds
  exact ⟨ds', hseparated, hyields⟩

/-- A sentence takes a scan from its first state to its last. -/
theorem Derivation.run_sentence (d : Sentence) : Scan.start.run d.yield = some .done :=
  d.run_yield .operand rfl 0

/-- After a complete expression only an operator lets a scan go on. -/
theorem Scan.step_done {k : Token.Kind} (h : k.isOperator = false) : Scan.done.step k = none := by
  cases k <;> simp_all [done, step, Token.Kind.isOperator]

/-- After a complete expression a scan is stuck at what may follow it. -/
theorem Follows.stuck (h : Follows u) : Scan.done.Stuck u := by
  intro t u' heq
  obtain rfl := heq
  obtain ⟨t', ht', hoperand⟩ := h (.token t) (by simp)
  obtain rfl := Item.token.inj ht'
  exact Scan.step_done (Token.Kind.isOperator_of_startsOperand hoperand)

/-- No longer sentence begins where one begins that an operand or the end follows. -/
theorem length_le_of_follows (hfollows : Follows (w.map .token))
    (hbegin : d'.yield <+: d.yield ++ w) : d'.yield.length ≤ d.yield.length := by
  rcases List.prefix_or_prefix_of_prefix hbegin (List.prefix_append d.yield w) with h | h
  · exact h.length_le
  · obtain ⟨v, hv⟩ := h
    cases v with
    | nil => simp [← hv]
    | cons t v =>
      -- the scan would have to go on after the end of `d`
      rw [← hv, List.prefix_append_right_inj] at hbegin
      obtain ⟨w', rfl⟩ := hbegin
      have hstep := hfollows.stuck t _ rfl
      have hrun := d'.run_sentence
      simp [← hv, Scan.run_append, d.run_sentence, hstep] at hrun

/-- A separated split takes the longest sentence each time. -/
theorem Separated.longestFirst (h : Separated ds) : LongestFirst ds := by
  induction ds with
  | nil => trivial
  | cons d ds ih =>
    exact ⟨fun d' hbegin => length_le_of_follows h.follows hbegin, ih h.tail⟩

/-- There is one split that takes the longest sentence each time. -/
theorem LongestFirst.unique (h : LongestFirst ds) (h' : LongestFirst ds')
    (hyields : yields ds = yields ds') : ds = ds' := by
  induction ds generalizing ds' with
  | nil => exact (yields_eq_nil_iff.mp hyields.symm).symm
  | cons d ds ih =>
    cases ds' with
    | nil => exact yields_eq_nil_iff.mp hyields
    | cons d' ds' =>
      simp only [yields_cons] at hyields
      have hle := h'.1 d (hyields ▸ List.prefix_append _ _)
      have hge := h.1 d' (hyields ▸ List.prefix_append _ _)
      obtain ⟨hyield, hrest⟩ := List.append_inj hyields (Nat.le_antisymm hle hge)
      obtain rfl := Derivation.yield_injective hyield
      rw [ih h.2 h'.2 hrest]

/-- The separated splits are those that take the longest sentence each time. -/
theorem separated_iff_longestFirst : Separated ds ↔ LongestFirst ds := by
  constructor
  · exact Separated.longestFirst
  · intro h
    obtain ⟨ds', hseparated, hyields⟩ := exists_separated ds
    exact hseparated.longestFirst.unique h hyields ▸ hseparated

/-- What may follow a sentence shows in the first item. -/
theorem Follows.of_head {us : List Item} {r' : List Item} (h : Follows (us ++ r))
    (hhead : r'.head? = r.head?) : Follows (us ++ r') := by
  cases us with
  | nil => simpa only [Follows, List.nil_append, hhead] using h
  | cons item us => exact h

/-- What may follow sentences shows in the first item. -/
theorem Parted.of_head {r' : List Item} (h : Parted ds r) (hhead : r'.head? = r.head?) :
    Parted ds r' := by
  induction ds with
  | nil => trivial
  | cons d ds ih => exact ⟨h.1.of_head hhead, ih h.2⟩

/-- A separated split of a text begins with the sentences that are found from the left. Where the
scan of the next sentence is stuck, that sentence is complete and another may follow it. -/
theorem Separated.stuck (h : Separated ds') (hparted : Parted ds (w.map .token ++ r))
    (hyields : (yields ds').map Item.token = (yields ds).map .token ++ (w.map .token ++ r))
    (hsome : w.map .token ++ r ≠ []) (hrun : Scan.start.run w = some stop)
    (hstuck : stop.Stuck r) : stop = .done ∧ Follows r := by
  induction ds generalizing ds' with
  | nil =>
    cases ds' with
    | nil => exact absurd hyields.symm hsome
    | cons d' ds' =>
      simp only [yields_cons, yields_nil, List.map_append, List.map_nil, List.nil_append]
        at hyields
      obtain ⟨-, hr, hstop⟩ :=
        Scan.run_unique hyields d'.run_sentence hrun h.follows.stuck hstuck
      exact ⟨hstop.symm, hr ▸ h.follows⟩
  | cons d ds ih =>
    cases ds' with
    | nil =>
      have hyield := d.yield_ne_nil (by simp) (by simp)
      simp [hyield] at hyields
    | cons d' ds' =>
      simp only [yields_cons, List.map_append, List.append_assoc] at hyields
      obtain ⟨-, hrest, -⟩ := Scan.run_unique hyields d'.run_sentence d.run_sentence
        h.follows.stuck hparted.1.stuck
      exact ih h.tail hparted.2 hrest

end Calculator
