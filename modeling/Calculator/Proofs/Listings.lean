import Calculator.Proofs.Locality

/-!
# Two ways to take items from one lexer

A lexer can be pulled, and it can be listed. A pull delivers the mark of the end as often as it is
asked for; a list has it once, as its last entry. Both take from the same items, and the calls may
be mixed in any way.

What a listing still delivers is the invariant, together with the fact that a list that has ended
has nothing left to deliver. The answer of a call depends on these alone: it is the next item or the
end mark, except that a list that has ended has no more entries. So over any run the items that were
delivered and those that are left are the items of the source, and the list has ended exactly when
it has come to its end mark, whatever the pulls have met before.

A listing may also note that its lexer has come to the end and read no more of the text from then
on. No call can tell the difference.
-/

namespace Calculator

namespace Listing

/-- The calls that a listing answers. -/
inductive Call where
  | pull
  | next
  deriving DecidableEq, Repr

/-- What a listing answers to a call; nothing when its list has ended. -/
def Call.answer : Call → Listing → Option Item
  | pull, s => some s.pull.1
  | next, s => s.next?.map Prod.fst

/-- Where a call leaves a listing. -/
def Call.leave : Call → Listing → Listing
  | pull, s => s.pull.2
  | next, s => (s.next?.map Prod.snd).getD s

/-- Where calls leave a listing. -/
def after (calls : List Call) (s : Listing) : Listing :=
  calls.foldl (fun s call => call.leave s) s

/-- The calls with their answers. -/
def transcript : List Call → Listing → List (Call × Option Item)
  | [], _ => []
  | call :: calls, s => (call, call.answer s) :: transcript calls (call.leave s)

/-- The items that were delivered, by whichever call, without the marks of the end. -/
def delivered (entries : List (Call × Option Item)) : List Item :=
  (entries.filterMap Prod.snd).filter fun item => !item.isEndMark

/-- The entry of a list for the mark of the end. -/
def lastEntry (mark : Token) : Call × Option Item :=
  (.next, some (.token mark))

/-- What a listing still delivers before the end mark; when its list has ended, this is nothing. -/
structure Shows (s : Listing) (mark : Token) (u : List Item) : Prop where
  items : s.lexer.items = u
  endMark : s.lexer.endMark = mark
  nothing : s.ended = true → u = []

variable {s : Listing} {mark : Token} {u : List Item}

/-- A list that has not ended goes on with what a pull delivers, and it ends with the end mark. -/
theorem next?_of_open (hopen : s.ended = false) :
    s.next? = some (s.pull.1, { s.pull.2 with ended := s.pull.1.isEndMark }) := by
  cases hnext : s.lexer.next? with
  | none =>
    simp [next?, pull, Lexer.pull, hopen, hnext, Item.isEndMark, Lexer.endMark, Token.symbol]
  | some found =>
    simp [next?, pull, Lexer.pull, hopen, hnext, Lexer.isEndMark_of_next? hnext]

/-- A fresh listing delivers what its lexer does. -/
theorem shows_ofLexer (l : Lexer) : (ofLexer l).Shows l.endMark l.items :=
  ⟨rfl, rfl, by simp [ofLexer]⟩

namespace Shows

/-- The end mark stands for the end. -/
theorem mark_kind (h : s.Shows mark u) : mark.kind = .endOfInput := by
  rw [← h.endMark]
  rfl

/-- The next item is a mark of the end exactly when no item is left. -/
theorem isEndMark_nextItem (h : s.Shows mark u) : (nextItem mark u).isEndMark = u.isEmpty :=
  Calculator.isEndMark_nextItem h.mark_kind fun _ hmem =>
    Lexer.isEndMark_of_mem_items (h.items ▸ hmem)

/-- The end mark comes next exactly when no item is left. -/
theorem nextItem_eq_mark_iff (h : s.Shows mark u) : nextItem mark u = .token mark ↔ u = [] := by
  constructor
  · intro hnext
    simpa [hnext, Item.isEndMark, h.mark_kind] using h.isEndMark_nextItem
  · rintro rfl
    rfl

/-- A pull takes the next item and lists nothing. -/
theorem pull (h : s.Shows mark u) :
    s.pull.1 = nextItem mark u ∧ s.pull.2.Shows mark u.tail ∧ s.pull.2.ended = s.ended := by
  obtain ⟨l, hpull, hitems, hmark⟩ := s.lexer.pull_eq
  rw [h.items, h.endMark] at hpull
  rw [h.items] at hitems
  simp only [Listing.pull, hpull, true_and, and_true]
  exact ⟨hitems, hmark.trans h.endMark, fun hended => by simp [h.nothing hended]⟩

/-- An entry of a list that has not ended takes the next item, and the list ends with the mark. -/
theorem next (h : s.Shows mark u) (hopen : s.ended = false) :
    Call.next.answer s = some (nextItem mark u) ∧ (Call.next.leave s).Shows mark u.tail ∧
      (Call.next.leave s).ended = u.isEmpty := by
  obtain ⟨hitem, hshows, -⟩ := h.pull
  simp only [Call.answer, Call.leave, next?_of_open hopen, hitem, h.isEndMark_nextItem,
    Option.map_some, Option.getD_some, true_and, and_true]
  exact ⟨hshows.items, hshows.endMark, fun hended => by simp [List.isEmpty_iff.mp hended]⟩

/-- A list that has ended has no more entries, and asking for one changes nothing. -/
theorem next_of_ended (hended : s.ended = true) :
    Call.next.answer s = none ∧ Call.next.leave s = s := by
  simp [Call.answer, Call.leave, next?, hended]

/-- A call is answered with the next item, except by a list that has ended. -/
theorem answer_eq (h : s.Shows mark u) (call : Call) :
    call.answer s = if call = .next ∧ s.ended = true then none else some (nextItem mark u) := by
  cases call with
  | pull => simp [Call.answer, h.pull.1]
  | next =>
    cases hended : s.ended with
    | true => simpa using (next_of_ended hended).1
    | false => simpa using (h.next hended).1

/-- A call takes the next item off, if there is one. -/
theorem leave (h : s.Shows mark u) (call : Call) : (call.leave s).Shows mark u.tail := by
  cases call with
  | pull => exact h.pull.2.1
  | next =>
    cases hended : s.ended with
    | true =>
      obtain rfl := h.nothing hended
      rwa [(next_of_ended hended).2]
    | false => exact (h.next hended).2.1

/-- The last entry is listed when an entry is asked for at the end, for the first time. -/
theorem eq_lastEntry_iff (h : s.Shows mark u) (call : Call) :
    (call, call.answer s) = lastEntry mark ↔ call = .next ∧ s.ended = false ∧ u = [] := by
  rw [h.answer_eq, lastEntry, Prod.mk.injEq]
  refine and_congr_right fun hcall => ?_
  cases hended : s.ended <;> simp [hcall, h.nextItem_eq_mark_iff]

/-- A list has ended after a call if it had ended before, or if the call has listed the last
entry. -/
theorem ended_leave (h : s.Shows mark u) (call : Call) :
    (call.leave s).ended = true ↔ s.ended = true ∨ (call, call.answer s) = lastEntry mark := by
  rw [h.eq_lastEntry_iff]
  cases call with
  | pull => simp [Call.leave, h.pull.2.2]
  | next =>
    cases hended : s.ended with
    | true => simp [(next_of_ended hended).2, hended]
    | false => simp [(h.next hended).2.2]

/-- A mark of the end is the one that is shown. -/
theorem eq_mark (h : s.Shows mark u) {call : Call} {item : Item} (hitem : call.answer s = some item)
    (hmark : item.isEndMark = true) : item = .token mark := by
  rw [h.answer_eq] at hitem
  split at hitem
  · contradiction
  · obtain rfl := Option.some.inj hitem
    rw [h.isEndMark_nextItem, List.isEmpty_iff] at hmark
    exact h.nextItem_eq_mark_iff.mpr hmark

/-- A pull delivers the end mark exactly when nothing else is left. -/
theorem pull_eq_mark_iff (h : s.Shows mark u) :
    Call.pull.answer s = some (.token mark) ↔ u = [] := by
  simp [h.answer_eq, h.nextItem_eq_mark_iff]

/-- The end mark is the next entry exactly when nothing else is left and the list goes on. -/
theorem next_eq_mark_iff (h : s.Shows mark u) :
    Call.next.answer s = some (.token mark) ↔ u = [] ∧ s.ended = false := by
  cases hended : s.ended <;> simp [h.answer_eq, hended, h.nextItem_eq_mark_iff]

/-- There is no entry any more exactly when the list has ended. -/
theorem next_eq_none_iff (h : s.Shows mark u) : Call.next.answer s = none ↔ s.ended = true := by
  simp [h.answer_eq]

/-- The list goes on after a stray character, whichever call has delivered it. -/
theorem ended_of_stray (h : s.Shows mark u) {call : Call} {c : Char} {p : Nat}
    (hstray : call.answer s = some (.stray c p)) : (call.leave s).ended ≠ true := by
  intro hended
  rcases (h.ended_leave call).mp hended with hbefore | hlast
  · -- after the end of the list only the end mark is left to be delivered
    have hmark := h.nextItem_eq_mark_iff.mpr (h.nothing hbefore)
    rw [h.answer_eq, hmark] at hstray
    split at hstray <;> simp at hstray
  · simp [hstray, lastEntry] at hlast

/-- What a call delivers and what is left after it is what was left before. -/
theorem delivered_append_tail (h : s.Shows mark u) (call : Call) :
    delivered [(call, call.answer s)] ++ u.tail = u := by
  rw [h.answer_eq]
  split
  · rename_i hended
    simp [delivered, h.nothing hended.2]
  · cases u with
    | nil => simp [delivered, h.isEndMark_nextItem]
    | cons item u =>
      have hitem : item.isEndMark = false := h.isEndMark_nextItem
      simp [delivered, nextItem, hitem]

end Shows

/-- What is delivered by a run is delivered by its first call and by the others. -/
theorem delivered_cons (entry : Call × Option Item) (entries : List (Call × Option Item)) :
    delivered (entry :: entries) = delivered [entry] ++ delivered entries := by
  simp only [delivered, ← List.filter_append, ← List.filterMap_append, List.singleton_append]

/-- A run delivers items in order and leaves the others. -/
theorem Shows.after (h : s.Shows mark u) (calls : List Call) :
    ∃ u', u = delivered (transcript calls s) ++ u' ∧ (after calls s).Shows mark u' := by
  induction calls generalizing s u with
  | nil => exact ⟨u, rfl, h⟩
  | cons call calls ih =>
    obtain ⟨u', htail, hshows⟩ := ih (h.leave call)
    refine ⟨u', ?_, hshows⟩
    rw [transcript, delivered_cons, List.append_assoc, ← htail, h.delivered_append_tail]

/-- The list has ended after a run if it had ended before, or if it has come to its end mark. -/
theorem Shows.ended_after (h : s.Shows mark u) (calls : List Call) :
    (Listing.after calls s).ended = true ↔
      s.ended = true ∨ lastEntry mark ∈ transcript calls s := by
  induction calls generalizing s u with
  | nil => simp [Listing.after, transcript]
  | cons call calls ih =>
    have hrest := ih (h.leave call)
    rw [h.ended_leave call, or_assoc] at hrest
    rw [transcript, List.mem_cons, eq_comm (a := lastEntry mark)]
    exact hrest

/-- A list has its last entry at most once, and not again after it has ended. -/
theorem Shows.count_lastEntry_le (h : s.Shows mark u) (calls : List Call) :
    (transcript calls s).count (lastEntry mark) ≤ if s.ended = true then 0 else 1 := by
  induction calls generalizing s u with
  | nil => simp [transcript]
  | cons call calls ih =>
    have hrest := ih (h.leave call)
    have hended := h.ended_leave call
    rw [transcript]
    by_cases hlast : (call, call.answer s) = lastEntry mark
    · obtain ⟨-, hopen, -⟩ := (h.eq_lastEntry_iff call).mp hlast
      rw [if_pos (hended.mpr (.inr hlast))] at hrest
      rw [hlast, List.count_cons_self, hopen]
      exact Nat.succ_le_succ hrest
    · rw [List.count_cons_of_ne hlast]
      simpa only [hended, hlast, or_false] using hrest

/-- A listing that also notes that its lexer has come to the end. -/
structure Latched where
  listing : Listing
  exhausted : Bool
  deriving DecidableEq, Repr

namespace Latched

/-- A latched listing that has not begun. -/
def ofLexer (lexer : Lexer) : Latched :=
  ⟨.ofLexer lexer, false⟩

/-- Deliver the next item. After the first end mark the text is not read any more. -/
def pull (s : Latched) : Item × Latched :=
  if s.exhausted then (.token s.listing.lexer.endMark, s)
  else
    match s.listing.lexer.next? with
    | some (item, lexer) => (item, ⟨{ s.listing with lexer }, false⟩)
    | none => (.token s.listing.lexer.endMark, { s with exhausted := true })

/-- List what a pull delivers, up to the first end mark that is listed. -/
def next? (s : Latched) : Option (Item × Latched) :=
  if s.listing.ended then none
  else
    let (item, s') := s.pull
    some (item, { s' with listing := { s'.listing with ended := item.isEndMark } })

/-- The calls with their answers. -/
def transcript : List Call → Latched → List (Call × Option Item)
  | [], _ => []
  | .pull :: calls, s => (.pull, some s.pull.1) :: transcript calls s.pull.2
  | .next :: calls, s =>
    (.next, s.next?.map Prod.fst) :: transcript calls ((s.next?.map Prod.snd).getD s)

/-- The note is right: when the end was met, the lexer delivers nothing more. -/
def Sound (s : Latched) : Prop :=
  s.exhausted = true → s.listing.lexer.next? = none

variable {s : Latched}

/-- A pull delivers the same with the note and without it, and the note stays right. -/
theorem Sound.pull (h : s.Sound) :
    s.pull.1 = s.listing.pull.1 ∧ s.pull.2.listing = s.listing.pull.2 ∧ s.pull.2.Sound := by
  obtain ⟨⟨lexer, ended⟩, exhausted⟩ := s
  cases exhausted with
  | true => simp_all [Sound, Latched.pull, Listing.pull, Lexer.pull]
  | false =>
    cases hnext : lexer.next? with
    | none => simp [Sound, Latched.pull, Listing.pull, Lexer.pull, hnext]
    | some found => simp [Sound, Latched.pull, Listing.pull, Lexer.pull, hnext]

/-- An entry of the list is the same with the note and without it, and the note stays right. -/
theorem Sound.next (h : s.Sound) :
    s.next?.map Prod.fst = s.listing.next?.map Prod.fst ∧
      ((s.next?.map Prod.snd).getD s).listing = (s.listing.next?.map Prod.snd).getD s.listing ∧
      ((s.next?.map Prod.snd).getD s).Sound := by
  obtain ⟨hitem, hlisting, hsound⟩ := h.pull
  cases hended : s.listing.ended with
  | true => simp [Latched.next?, Listing.next?, hended, h]
  | false =>
    simp only [Latched.next?, next?_of_open hended, hended, Bool.false_eq_true, if_false,
      Option.map_some, Option.getD_some, hitem, hlisting, true_and]
    exact hlisting ▸ hsound

/-- Calls are answered the same with the note and without it. -/
theorem Sound.transcript_eq (h : s.Sound) (calls : List Call) :
    transcript calls s = Listing.transcript calls s.listing := by
  induction calls generalizing s with
  | nil => rfl
  | cons call calls ih =>
    cases call with
    | pull =>
      obtain ⟨hitem, hlisting, hsound⟩ := h.pull
      rw [transcript, ih hsound, hitem, hlisting]
      rfl
    | next =>
      obtain ⟨hitem, hlisting, hsound⟩ := h.next
      rw [transcript, ih hsound, hitem, hlisting]
      rfl

end Latched

/-- Pulls and the list share the items of a source, each of which is delivered once. After them a
pull delivers the end mark for ever; the list has it once, however often it was pulled, and ends
with it alone. A note that the end was met changes no answer. -/
theorem calls_share_items (source : String) (calls : List Call) :
    let items := (Lexer.ofString source).items
    let mark : Token := .symbol .endOfInput source.utf8ByteSize
    let entries := transcript calls (ofLexer (.ofString source))
    let s := after calls (ofLexer (.ofString source))
    delivered entries <+: items ∧
    (∀ item rest, items = delivered entries ++ item :: rest →
      ∀ call : Call, call.answer s = some item) ∧
    (∀ (call : Call) item, call.answer s = some item → item.isEndMark = true →
      item = .token mark) ∧
    (Call.pull.answer s = some (.token mark) ↔ delivered entries = items) ∧
    (delivered entries = items →
      ∀ later, Call.pull.answer (after later s) = some (.token mark)) ∧
    entries.count (lastEntry mark) ≤ 1 ∧
    (Call.next.answer s = some (.token mark) ↔
      delivered entries = items ∧ lastEntry mark ∉ entries) ∧
    (Call.next.answer s = none ↔ lastEntry mark ∈ entries) ∧
    (∀ (call : Call) c p, call.answer s = some (.stray c p) →
      Call.next.answer (call.leave s) ≠ none) ∧
    Latched.transcript calls (.ofLexer (.ofString source)) = entries := by
  intro items mark entries s
  have hstart : (ofLexer (.ofString source)).Shows mark items := by
    rw [show mark = _ from (Lexer.endMark_ofString source).symm]
    exact shows_ofLexer _
  obtain ⟨u, hsplit, hs⟩ : ∃ u, items = delivered entries ++ u ∧ s.Shows mark u :=
    hstart.after calls
  have hall : delivered entries = items ↔ u = [] := by
    rw [hsplit, List.self_eq_append_right]
  have hended : s.ended = true ↔ lastEntry mark ∈ entries :=
    (hstart.ended_after calls).trans (or_iff_right (by simp [ofLexer]))
  refine ⟨⟨u, hsplit.symm⟩, fun item rest hnext call => ?_, fun call item => hs.eq_mark, ?_,
    fun hdone later => ?_, hstart.count_lastEntry_le calls, ?_, ?_, fun call c p hstray => ?_, ?_⟩
  · obtain rfl : u = item :: rest := List.append_cancel_left (hsplit.symm.trans hnext)
    have hopen : s.ended ≠ true := fun hended => by simpa using hs.nothing hended
    rw [hs.answer_eq, if_neg fun h => hopen h.2]
    rfl
  · rw [hall, hs.pull_eq_mark_iff]
  · obtain ⟨u', hleft, hlater⟩ := hs.after later
    have hnone : u' = [] := (List.append_eq_nil_iff.mp (hleft.symm.trans (hall.mp hdone))).2
    exact hlater.pull_eq_mark_iff.mpr hnone
  · rw [hall, ← hended, Bool.not_eq_true]
    exact hs.next_eq_mark_iff
  · rw [← hended]
    exact hs.next_eq_none_iff
  · exact mt (hs.leave call).next_eq_none_iff.mp (hs.ended_of_stray hstray)
  · have hsound : (Latched.ofLexer (.ofString source)).Sound := fun h => by contradiction
    exact hsound.transcript_eq calls

/-- A mark of the end that was pulled is still the last entry of the list. -/
example :
    let mark : Item := .token (.symbol .endOfInput 2)
    (transcript [.next, .pull, .pull, .next, .next] (ofLexer (.ofString "1?"))).map Prod.snd =
      [some (.token ⟨.literal .integer, "1", 0⟩), some (.stray '?' 1), some mark, some mark,
        none] := by
  decide +kernel

end Listing

end Calculator
