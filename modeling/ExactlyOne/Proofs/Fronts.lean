import ExactlyOne.Json.Skip
import ExactlyOne.Proofs.Expansion

/-!
# Fronts of a text

A reader takes a value from the front of a text and leaves what stands behind it. What it takes does
not depend on the rest, or on the first byte of it at most: a number ends in front of a byte that is
none of its own. The marks between the parts of an array or an object are bytes with spaces in front
of them.
-/
namespace ExactlyOne

theorem pure_eq_ok_iff {ε α : Type} {a b : α} : (pure a : Except ε α) = .ok b ↔ b = a := by
  simp [pure, Except.pure, eq_comm]

/-! ## What is taken from a text -/

section

variable {ε α : Type} {read : List UInt8 → Except ε (α × List UInt8)}
  {skip skip' : List UInt8 → Except ε (List UInt8)} {front next other s t : List UInt8} {a : α}

/-- These bytes are read for a value, whatever stands behind them. -/
def Reads (read : List UInt8 → Except ε (α × List UInt8)) (front : List UInt8) (a : α) : Prop :=
  ∀ rest, read (front ++ rest) = .ok (a, rest)

/-- These bytes are read for a value where what stands behind them begins like `next`. -/
def ReadsBefore (read : List UInt8 → Except ε (α × List UInt8)) (front : List UInt8) (a : α)
    (next : List UInt8) : Prop :=
  ∀ rest, rest.head? = next.head? → read (front ++ rest) = .ok (a, rest)

theorem Reads.before (h : Reads read front a) (next : List UInt8) :
    ReadsBefore read front a next :=
  fun rest _ => h rest

theorem ReadsBefore.congr (h : ReadsBefore read front a next) (hnext : next.head? = other.head?) :
    ReadsBefore read front a other :=
  fun rest hrest => h rest (hrest.trans hnext.symm)

def Passes (skip : List UInt8 → Except ε (List UInt8)) (front : List UInt8) : Prop :=
  ∀ rest, skip (front ++ rest) = .ok rest

def PassesBefore (skip : List UInt8 → Except ε (List UInt8)) (front next : List UInt8) : Prop :=
  ∀ rest, rest.head? = next.head? → skip (front ++ rest) = .ok rest

theorem head?_append_congr (h : s.head? = t.head?) (front : List UInt8) :
    (front ++ s).head? = (front ++ t).head? := by
  rw [List.head?_append, List.head?_append, h]

/-- What is passed begins alike, so it is enough to know the reader on texts that do. -/
theorem PassesBefore.congr (h : PassesBefore skip' front next)
    (hskip : ∀ t, t.head? = (front ++ next).head? → skip t = skip' t) :
    PassesBefore skip front next := by
  intro rest hrest
  rw [hskip _ (head?_append_congr hrest front)]
  exact h rest hrest

end

namespace Json

variable {s t rest space mark : List UInt8} {b : UInt8}

/-! ## Spaces -/

def Spaces (s : List UInt8) : Prop := ∀ b ∈ s, Byte.isSpace b = true

theorem skipSpace_append (h : Spaces space) (s : List UInt8) :
    skipSpace (space ++ s) = skipSpace s :=
  List.dropWhile_append_of_pos h

theorem skipSpace_cons (h : Byte.isSpace b = false) (s : List UInt8) :
    skipSpace (b :: s) = b :: s :=
  List.dropWhile_cons_of_neg (by simp [h])

theorem exists_spaces (s : List UInt8) : ∃ space, Spaces space ∧ s = space ++ skipSpace s := by
  induction s with
  | nil => exact ⟨[], List.forall_mem_nil _, rfl⟩
  | cons b s ih =>
    cases hb : Byte.isSpace b with
    | true =>
      obtain ⟨space, hspace, hs⟩ := ih
      refine ⟨b :: space, List.forall_mem_cons.mpr ⟨hb, hspace⟩, ?_⟩
      rw [skipSpace, List.dropWhile_cons_of_pos hb, List.cons_append, ← skipSpace, ← hs]
    | false => exact ⟨[], List.forall_mem_nil _, (skipSpace_cons hb s).symm⟩

theorem isSpace_of_skipSpace (h : skipSpace s = b :: rest) : Byte.isSpace b = false := by
  have hhead := List.head?_dropWhile_not Byte.isSpace s
  rw [← skipSpace, h] at hhead
  exact hhead

/-- A byte with spaces in front of it. -/
def Mark (b : UInt8) (mark : List UInt8) : Prop :=
  Byte.isSpace b = false ∧ ∃ space, Spaces space ∧ mark = space ++ [b]

theorem Mark.length_pos (h : Mark b mark) : 0 < mark.length := by
  obtain ⟨-, space, -, rfl⟩ := h
  rw [List.length_append]
  exact Nat.add_pos_right _ Nat.one_pos

theorem Mark.exists_fuel {n fuel : Nat} (h : Mark b mark) (hfuel : n + mark.length ≤ fuel) :
    ∃ k, fuel = k + 1 ∧ n ≤ k := by
  have hpos := h.length_pos
  exact ⟨fuel - 1, by omega, by omega⟩

theorem Mark.head?_append (h : Mark b mark) (t : List UInt8) : (mark ++ t).head? = mark.head? := by
  obtain ⟨c, mark, rfl⟩ := List.exists_cons_of_length_pos h.length_pos
  rfl

theorem Mark.skipSpace (h : Mark b mark) (rest : List UInt8) :
    skipSpace (mark ++ rest) = b :: rest := by
  obtain ⟨hb, space, hspace, rfl⟩ := h
  rw [List.append_assoc, skipSpace_append hspace, List.singleton_append, skipSpace_cons hb]

theorem exists_mark (h : skipSpace s = b :: rest) : ∃ mark, Mark b mark ∧ s = mark ++ rest := by
  obtain ⟨space, hspace, hs⟩ := exists_spaces s
  refine ⟨space ++ [b], ⟨isSpace_of_skipSpace h, space, hspace, rfl⟩, ?_⟩
  rw [hs, h, List.append_assoc]
  rfl

/-! ## The marks of arrays and objects -/

/-- Where an item may begin. -/
def Begins (s : List UInt8) : Prop :=
  ∃ b tail, s = b :: tail ∧ Byte.isSpace b = false ∧ b ≠ Byte.closeBracket

theorem Begins.append (h : Begins s) (t : List UInt8) : Begins (s ++ t) := by
  obtain ⟨b, tail, rfl, hb⟩ := h
  exact ⟨b, tail ++ t, rfl, hb⟩

theorem Begins.of_append (h : Begins (s ++ t)) (hs : s ≠ []) : Begins s := by
  obtain ⟨b, tail, hst, hb⟩ := h
  obtain ⟨c, s, rfl⟩ := List.exists_cons_of_ne_nil hs
  rw [List.cons_append, List.cons.injEq] at hst
  exact ⟨c, s, rfl, hst.1 ▸ hb⟩

theorem Begins.skipSpace (h : Begins s) : skipSpace s = s := by
  obtain ⟨b, tail, rfl, hb, -⟩ := h
  exact skipSpace_cons hb tail

theorem begins_of_skipSpace (h : skipSpace s = b :: t) (hb : b ≠ Byte.closeBracket) :
    Begins (b :: t) :=
  ⟨b, t, rfl, isSpace_of_skipSpace h, hb⟩

theorem AfterItem.exists_iff {p : AfterItem → Prop} : (∃ next, p next) ↔ p .done ∨ p .another := by
  constructor
  · rintro ⟨next, h⟩
    cases next with
    | done => exact .inl h
    | another => exact .inr h
  · rintro (h | h)
    · exact ⟨.done, h⟩
    · exact ⟨.another, h⟩

theorem readColon_eq_ok_iff : readColon s = .ok rest ↔ skipSpace s = Byte.colon :: rest := by
  rw [readColon]
  rcases skipSpace s with _ | ⟨b, t⟩
  · simp
  · by_cases hb : b = Byte.colon <;> simp [hb]

theorem readFirstItem_done_iff :
    readFirstItem s = .ok (.done, rest) ↔ skipSpace s = Byte.closeBracket :: rest := by
  rw [readFirstItem]
  rcases skipSpace s with _ | ⟨b, t⟩
  · simp
  · by_cases hb : b = Byte.closeBracket <;> simp [hb]

theorem readFirstItem_another_iff :
    readFirstItem s = .ok (.another, rest) ↔ skipSpace s = rest ∧ Begins rest := by
  rw [readFirstItem]
  constructor
  · intro h
    split at h
    · cases h
    · rename_i b t hs
      split at h
      · cases h
      · rename_i hb
        cases h
        exact ⟨hs, begins_of_skipSpace hs hb⟩
  · rintro ⟨hs, b, t, rfl, -, hb⟩
    simp [hs, hb]

theorem readAfterItem_done_iff :
    readAfterItem s = .ok (.done, rest) ↔ skipSpace s = Byte.closeBracket :: rest := by
  rw [readAfterItem]
  rcases skipSpace s with _ | ⟨b, t⟩
  · simp
  · grind

theorem readAfterItem_another_iff :
    readAfterItem s = .ok (.another, rest) ↔
      ∃ t, skipSpace s = Byte.comma :: t ∧ skipSpace t = rest ∧ Begins rest := by
  rw [readAfterItem]
  constructor
  · intro h
    split at h
    · cases h
    · grind [begins_of_skipSpace]
  · rintro ⟨t, hs, ht, b, tail, rfl, -, hb⟩
    have hcomma : Byte.comma ≠ Byte.closeBracket := by decide
    simp [hs, ht, hb, hcomma]

theorem readFirstItem_append (hspace : Spaces space) (h : Begins s) :
    readFirstItem (space ++ s) = .ok (.another, s) :=
  readFirstItem_another_iff.mpr ⟨(skipSpace_append hspace s).trans h.skipSpace, h⟩

theorem readAfterItem_append (hmark : Mark Byte.comma mark) (hspace : Spaces space)
    (h : Begins s) : readAfterItem (mark ++ (space ++ s)) = .ok (.another, s) :=
  readAfterItem_another_iff.mpr
    ⟨_, hmark.skipSpace _, (skipSpace_append hspace s).trans h.skipSpace, h⟩

theorem exists_spaces_of_readFirstItem (h : readFirstItem s = .ok (.another, rest)) :
    ∃ space, Spaces space ∧ Begins rest ∧ s = space ++ rest := by
  obtain ⟨hspace, hbegins⟩ := readFirstItem_another_iff.mp h
  obtain ⟨space, hspaces, hs⟩ := exists_spaces s
  exact ⟨space, hspaces, hbegins, hspace ▸ hs⟩

theorem exists_mark_of_readAfterItem (h : readAfterItem s = .ok (.another, rest)) :
    ∃ mark space, Mark Byte.comma mark ∧ Spaces space ∧ Begins rest ∧
      s = mark ++ (space ++ rest) := by
  obtain ⟨t, hcomma, hspace, hbegins⟩ := readAfterItem_another_iff.mp h
  obtain ⟨mark, hmark, rfl⟩ := exists_mark hcomma
  obtain ⟨space, hspaces, ht⟩ := exists_spaces t
  exact ⟨mark, space, hmark, hspaces, hbegins, by rw [ht, hspace]⟩

theorem readFirstEntry_done_iff :
    readFirstEntry s = .ok (.done, rest) ↔ skipSpace s = Byte.closeBrace :: rest := by
  rw [readFirstEntry]
  rcases skipSpace s with _ | ⟨b, t⟩
  · simp
  · grind

theorem readFirstEntry_another_iff :
    readFirstEntry s = .ok (.another, rest) ↔ skipSpace s = Byte.quote :: rest := by
  have hquote : Byte.quote ≠ Byte.closeBrace := by decide
  rw [readFirstEntry]
  rcases skipSpace s with _ | ⟨b, t⟩
  · simp
  · grind

theorem readAfterEntry_done_iff :
    readAfterEntry s = .ok (.done, rest) ↔ skipSpace s = Byte.closeBrace :: rest := by
  rw [readAfterEntry]
  rcases skipSpace s with _ | ⟨b, t⟩
  · simp
  · grind

theorem readAfterEntry_another_iff :
    readAfterEntry s = .ok (.another, rest) ↔
      ∃ t, skipSpace s = Byte.comma :: t ∧ skipSpace t = Byte.quote :: rest := by
  have hcomma : Byte.comma ≠ Byte.closeBrace := by decide
  rw [readAfterEntry]
  rcases skipSpace s with _ | ⟨b, t⟩
  · simp
  · grind

theorem exists_marks_of_readAfterEntry (h : readAfterEntry s = .ok (.another, rest)) :
    ∃ mark quote, Mark Byte.comma mark ∧ Mark Byte.quote quote ∧ s = mark ++ (quote ++ rest) := by
  obtain ⟨_, hcomma, hquote⟩ := readAfterEntry_another_iff.mp h
  obtain ⟨mark, hmark, rfl⟩ := exists_mark hcomma
  obtain ⟨quote, hmarkQuote, rfl⟩ := exists_mark hquote
  exact ⟨mark, quote, hmark, hmarkQuote, rfl⟩

end Json

end ExactlyOne
