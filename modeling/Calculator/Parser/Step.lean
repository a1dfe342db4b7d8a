import Calculator.Cursor

/-!
# Steps that make progress

The rules of the grammar call each other without end in sight: a rule may call itself through
a parenthesis, or call a tighter rule before anything has been read. What makes them end is that
a rule which succeeds has passed at least one item, and that a failure never brings one back.
A `Step n` is a result that carries this fact for a cursor with `n` unread items, so that the
rules can be defined by recursion on the number of unread items.

The fact costs nothing when a program runs. `Step.result` forgets it, and one lemma for each
combinator says which plain parser its result is.
-/

namespace Calculator

variable {α β : Type} {n m : Nat}

/-- A success has fewer than `n` unread items, a failure at most `n`. -/
def Progress (n : Nat) : EStateM.Result Error Cursor α → Prop
  | .ok _ s => s.unread.length < n
  | .error _ s => s.unread.length ≤ n

/-- A success that makes progress has fewer unread items. -/
theorem Progress.lt_of_ok {p : Parser α} {s s' : Cursor} {a : α} (h : Progress n (p s))
    (hp : p s = .ok a s') : s'.unread.length < n := by
  rw [hp] at h
  exact h

/-- The outcome of a rule at a cursor with `n` unread items. -/
structure Step (n : Nat) (α : Type) where
  result : EStateM.Result Error Cursor α
  progress : Progress n result

namespace Step

/-- Succeed at a cursor that has moved on. -/
@[inline] def done (a : α) (s : Cursor) (h : s.unread.length < n) : Step n α :=
  ⟨.ok a s, h⟩

/-- Fail at a cursor that has not gone back. -/
@[inline] def fail (e : Error) (s : Cursor) (h : s.unread.length ≤ n) : Step n α :=
  ⟨.error e s, h⟩

/-- Progress from fewer unread items is progress from more. -/
@[inline] def weaken (h : m ≤ n) (x : Step m α) : Step n α :=
  ⟨x.result, match x with
    | ⟨.ok _ _, p⟩ => Nat.lt_of_lt_of_le p h
    | ⟨.error _ _, p⟩ => Nat.le_trans p h⟩

/-- Go on from a success, with the fact that it has passed something. -/
@[inline] def andThen (x : Step n α)
    (f : α → (s : Cursor) → s.unread.length < n → Step n β) : Step n β :=
  match x with
  | ⟨.ok a s, h⟩ => f a s h
  | ⟨.error e s, h⟩ => fail e s h

/-- Change what a success returns. -/
@[inline] def map (f : α → β) (x : Step n α) : Step n β :=
  match x with
  | ⟨.ok a s, h⟩ => done (f a) s h
  | ⟨.error e s, h⟩ => fail e s h

/-- Pass a token of a class and go on after it, or go on without one. -/
@[inline] def optional (allowed : Token.Kind → Bool) (hend : allowed .endOfInput = false)
    (s : Cursor) (hs : s.unread.length ≤ n)
    (found : Token → (s' : Cursor) → s'.unread.length < s.unread.length → Step n β)
    (missing : (s' : Cursor) → s'.unread.length = s.unread.length → Step n β) : Step n β :=
  match h : Cursor.accept? allowed s with
  | .ok (some t) s' => found t s' (Cursor.accept?_length_lt hend h)
  | .ok none s' => missing s' (by rw [(Cursor.accept?_none h).1])
  | .error e s' => fail e s' (by
      obtain ⟨c, p, -, hunread⟩ := Cursor.accept?_error h
      simp only [hunread, List.length_cons] at hs
      omega)

/-- Pass a token of the given kind and succeed after it. -/
@[inline] def close (kind : Token.Kind) (expected : String) (a : α) (s : Cursor)
    (hs : s.unread.length < n) : Step n α :=
  match h : Cursor.expect kind expected s with
  | .ok _ s' => done a s' (Nat.lt_of_le_of_lt (Cursor.expect_length_le h) hs)
  | .error e s' => fail e s' (Nat.le_trans (Cursor.expect_error_length_le h) (Nat.le_of_lt hs))

/-- Weakening changes no result. -/
theorem weaken_result (h : m ≤ n) (x : Step m α) : (x.weaken h).result = x.result :=
  rfl

/-- Going on from a step is binding the parser whose result it is. -/
theorem andThen_result {x : Step n α}
    {f : α → (s : Cursor) → s.unread.length < n → Step n β} {s : Cursor} {p : Parser α}
    {g : α → Parser β} (hx : x.result = p s) (hf : ∀ a s' h, (f a s' h).result = g a s') :
    (x.andThen f).result = (p >>= g) s := by
  simp only [bind, EStateM.bind, ← hx]
  obtain ⟨r, h⟩ := x
  cases r with
  | ok a s' => exact hf a s' h
  | error e s' => rfl

/-- Changing what a step returns is changing what its parser returns. -/
theorem map_result {f : α → β} {x : Step n α} {s : Cursor} {p : Parser α}
    (hx : x.result = p s) : (x.map f).result = (p >>= fun a => pure (f a)) s := by
  simp only [bind, EStateM.bind, ← hx]
  obtain ⟨r, h⟩ := x
  cases r <;> rfl

/-- An optional token is what the cursor accepts. -/
theorem optional_result {allowed : Token.Kind → Bool} {hend : allowed .endOfInput = false}
    {s : Cursor} {hs : s.unread.length ≤ n}
    {found : Token → (s' : Cursor) → s'.unread.length < s.unread.length → Step n β}
    {missing : (s' : Cursor) → s'.unread.length = s.unread.length → Step n β}
    {g : Option Token → Parser β} (hfound : ∀ t s' h, (found t s' h).result = g (some t) s')
    (hmissing : ∀ s' h, (missing s' h).result = g none s') :
    (optional allowed hend s hs found missing).result = (Cursor.accept? allowed >>= g) s := by
  simp only [optional, bind, EStateM.bind]
  split <;> rename_i heq
  · simp [heq, hfound]
  · simp [heq, hmissing]
  · simp [heq, fail]

/-- Closing is expecting a token and returning what was there before it. -/
theorem close_result (kind : Token.Kind) (expected : String) (a : α) (s : Cursor)
    (hs : s.unread.length < n) :
    (close kind expected a s hs).result =
      (Cursor.expect kind expected >>= fun _ => pure a) s := by
  simp only [close, bind, EStateM.bind]
  split <;> rename_i heq <;> simp [heq, done, fail, pure, EStateM.pure]

end Step

end Calculator
