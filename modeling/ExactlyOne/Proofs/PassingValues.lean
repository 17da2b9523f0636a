import ExactlyOne.Proofs.Passing

/-!
# Passing over a value

What is passed as an array or an object is passed part by part, each with the mark behind it. So the
bytes that are passed as one value are passed as one value in front of every text that begins alike,
however much fuel there is beyond twice their number.
-/
namespace ExactlyOne

namespace Json

variable {s t rest front next others space opening mark item value text colon quote : List UInt8}
  {b : UInt8} {fuel : Nat}

/-! ## One step -/

theorem skipAfterItem_done_iff :
    skipAfterItem s = .ok (.done, rest) ↔ skipSpace s = Byte.closeBracket :: rest := by
  rw [skipAfterItem]
  rcases skipSpace s with _ | ⟨b, t⟩
  · simp
  · grind

theorem skipAfterItem_another_iff :
    skipAfterItem s = .ok (.another, rest) ↔ skipSpace s = Byte.comma :: rest := by
  have hcomma : Byte.comma ≠ Byte.closeBracket := by decide
  rw [skipAfterItem]
  rcases skipSpace s with _ | ⟨b, t⟩
  · simp
  · grind

theorem skipToKey_eq_ok_iff : skipToKey s = .ok rest ↔ skipSpace s = Byte.quote :: rest := by
  rw [skipToKey]
  rcases skipSpace s with _ | ⟨b, t⟩
  · simp
  · by_cases hb : b = Byte.quote <;> simp [hb]

theorem skipAfterEntry_done_iff :
    skipAfterEntry s = .ok (.done, rest) ↔ skipSpace s = Byte.closeBrace :: rest := by
  have hcomma : Byte.comma ≠ Byte.closeBrace := by decide
  rw [skipAfterEntry]
  rcases skipSpace s with _ | ⟨b, t⟩
  · simp
  by_cases hb : b = Byte.closeBrace
  · simp [hb]
  by_cases hc : b = Byte.comma
  · simp only [hc, hcomma, if_true, if_false, bind_eq_ok, pure_eq_ok_iff]
    simp [hcomma]
  · simp [hb, hc]

theorem skipAfterEntry_another_iff :
    skipAfterEntry s = .ok (.another, rest) ↔
      ∃ t, skipSpace s = Byte.comma :: t ∧ skipSpace t = Byte.quote :: rest := by
  have hcomma : Byte.comma ≠ Byte.closeBrace := by decide
  rw [skipAfterEntry]
  rcases skipSpace s with _ | ⟨b, t⟩
  · simp
  by_cases hb : b = Byte.closeBrace
  · simp [hb, hcomma.symm]
  by_cases hc : b = Byte.comma
  · simp only [hc, hcomma, if_true, if_false, bind_eq_ok, pure_eq_ok_iff, skipToKey_eq_ok_iff]
    simp
  · simp [hb, hc]

theorem skipItems_eq_ok_iff :
    skipItems (fuel + 1) s = .ok rest ↔ ∃ t, skipValue fuel s = .ok t ∧
      (skipSpace t = Byte.closeBracket :: rest ∨
        ∃ next, skipSpace t = Byte.comma :: next ∧ skipItems fuel next = .ok rest) := by
  simp only [skipItems, bind_eq_ok, Prod.exists, AfterItem.exists_iff, pure_eq_ok_iff,
    skipAfterItem_done_iff, skipAfterItem_another_iff, exists_eq_right']

theorem skipPairs_eq_ok_iff :
    skipPairs (fuel + 1) s = .ok rest ↔ ∃ text, skipText .plain s = .ok text ∧
      ∃ value, skipSpace text = Byte.colon :: value ∧ ∃ t, skipValue fuel value = .ok t ∧
        (skipSpace t = Byte.closeBrace :: rest ∨
          ∃ next, (∃ key, skipSpace t = Byte.comma :: key ∧ skipSpace key = Byte.quote :: next) ∧
            skipPairs fuel next = .ok rest) := by
  simp only [skipPairs, bind_eq_ok, readColon_eq_ok_iff, Prod.exists, AfterItem.exists_iff,
    pure_eq_ok_iff, skipAfterEntry_done_iff, skipAfterEntry_another_iff, exists_eq_right']

theorem skipValue_eq_ok_iff :
    skipValue (fuel + 1) s = .ok rest ↔ ∃ b t, skipSpace s = b :: t ∧
      (b = Byte.openBracket ∧ (readFirstItem t = .ok (.done, rest) ∨
          ∃ first, readFirstItem t = .ok (.another, first) ∧ skipItems fuel first = .ok rest) ∨
        b = Byte.openBrace ∧ (readFirstEntry t = .ok (.done, rest) ∨
          ∃ first, readFirstEntry t = .ok (.another, first) ∧ skipPairs fuel first = .ok rest) ∨
        b ≠ Byte.openBracket ∧ b ≠ Byte.openBrace ∧ skipScalar b t = .ok rest) := by
  have hopen : Byte.openBrace ≠ Byte.openBracket := by decide
  rw [skipValue]
  rcases skipSpace s with _ | ⟨b, t⟩
  · simp
  by_cases hbracket : b = Byte.openBracket
  · subst hbracket
    simp [hopen.symm, and_assoc, bind_eq_ok, AfterItem.exists_iff, pure_eq_ok_iff]
  by_cases hbrace : b = Byte.openBrace
  · subst hbrace
    simp [hopen, and_assoc, bind_eq_ok, AfterItem.exists_iff, pure_eq_ok_iff]
  · simp [hbracket, hbrace, and_assoc]

/-! ## Values -/

/-- These bytes are passed as one value where what stands behind them begins like `next`. -/
def PassesValue (front next : List UInt8) : Prop :=
  ∀ fuel, 2 * front.length ≤ fuel → PassesBefore (skipValue fuel) front next

/-- These bytes are passed as the items of an array, from some item on, and the closing bracket. -/
def PassesItems (front : List UInt8) : Prop :=
  ∀ fuel, 2 * front.length ≤ fuel → Passes (skipItems fuel) front

/-- These bytes are passed as the entries of an object, behind the quote of a key, and the closing
brace. -/
def PassesPairs (front : List UInt8) : Prop :=
  ∀ fuel, 2 * front.length ≤ fuel → Passes (skipPairs fuel) front

theorem PassesValue.congr (h : PassesValue front next) (hnext : next.head? = t.head?) :
    PassesValue front t :=
  fun fuel hfuel rest hrest => h fuel hfuel rest (hrest.trans hnext.symm)

theorem PassesItems.ne_nil (h : PassesItems front) : front ≠ [] := by
  rintro rfl
  cases h 0 (Nat.le_refl 0) []

theorem PassesValue.ne_nil (h : PassesValue front next) : front ≠ [] := by
  rintro rfl
  cases h 0 (Nat.le_refl 0) next rfl

theorem skipValue_spaces (hspace : Spaces space) :
    skipValue fuel (space ++ s) = .ok rest ↔ skipValue fuel s = .ok rest := by
  cases fuel with
  | zero => simp [skipValue]
  | succ fuel => rw [skipValue_eq_ok_iff, skipValue_eq_ok_iff, skipSpace_append hspace]

theorem PassesItems.spaced (hspace : Spaces space) (h : PassesItems front) :
    PassesItems (space ++ front) := by
  intro fuel hfuel rest
  rw [List.length_append] at hfuel
  have hfront := h fuel (by omega) rest
  cases fuel with
  | zero => cases hfront
  | succ fuel =>
    rw [skipItems_eq_ok_iff] at hfront
    rw [List.append_assoc, skipItems_eq_ok_iff]
    simpa only [skipValue_spaces hspace] using hfront

theorem passesItems_last (hitem : PassesValue item mark) (hmark : Mark Byte.closeBracket mark) :
    PassesItems (item ++ mark) := by
  intro fuel hfuel rest
  rw [List.length_append] at hfuel
  obtain ⟨fuel, rfl, hle⟩ : ∃ k, fuel = k + 1 ∧ 2 * item.length ≤ k := hmark.exists_fuel (by omega)
  rw [List.append_assoc]
  exact skipItems_eq_ok_iff.mpr ⟨mark ++ rest,
    hitem fuel (by omega) _ (hmark.head?_append rest), .inl (hmark.skipSpace rest)⟩

theorem passesItems_next (hitem : PassesValue item mark) (hmark : Mark Byte.comma mark)
    (h : PassesItems others) : PassesItems (item ++ (mark ++ others)) := by
  intro fuel hfuel rest
  simp only [List.length_append] at hfuel
  obtain ⟨fuel, rfl, hle⟩ : ∃ k, fuel = k + 1 ∧ 2 * (item.length + others.length) ≤ k :=
    hmark.exists_fuel (by omega)
  simp only [List.append_assoc]
  exact skipItems_eq_ok_iff.mpr ⟨_, hitem fuel (by omega) _ (hmark.head?_append _),
    .inr ⟨others ++ rest, hmark.skipSpace _, h fuel (by omega) rest⟩⟩

theorem passesPairs_last (hkey : Passes (skipText .plain) text) (hcolon : Mark Byte.colon colon)
    (hvalue : PassesValue value mark) (hmark : Mark Byte.closeBrace mark) :
    PassesPairs (text ++ (colon ++ (value ++ mark))) := by
  intro fuel hfuel rest
  simp only [List.length_append] at hfuel
  obtain ⟨fuel, rfl, hle⟩ : ∃ k, fuel = k + 1 ∧ 2 * value.length ≤ k :=
    hmark.exists_fuel (by omega)
  simp only [List.append_assoc]
  exact skipPairs_eq_ok_iff.mpr ⟨_, hkey _, _, hcolon.skipSpace _, _,
    hvalue fuel (by omega) _ (hmark.head?_append rest), .inl (hmark.skipSpace rest)⟩

theorem passesPairs_next (hkey : Passes (skipText .plain) text) (hcolon : Mark Byte.colon colon)
    (hvalue : PassesValue value mark) (hmark : Mark Byte.comma mark)
    (hquote : Mark Byte.quote quote) (h : PassesPairs others) :
    PassesPairs (text ++ (colon ++ (value ++ (mark ++ (quote ++ others))))) := by
  intro fuel hfuel rest
  simp only [List.length_append] at hfuel
  obtain ⟨fuel, rfl, hle⟩ : ∃ k, fuel = k + 1 ∧ 2 * (value.length + others.length) ≤ k :=
    hmark.exists_fuel (by omega)
  simp only [List.append_assoc]
  exact skipPairs_eq_ok_iff.mpr ⟨_, hkey _, _, hcolon.skipSpace _, _,
    hvalue fuel (by omega) _ (hmark.head?_append _), .inr ⟨others ++ rest,
      ⟨_, hmark.skipSpace _, hquote.skipSpace _⟩, h fuel (by omega) rest⟩⟩

theorem passesValue_array_nil (hopening : Mark Byte.openBracket opening)
    (hmark : Mark Byte.closeBracket mark) (next : List UInt8) :
    PassesValue (opening ++ mark) next := by
  intro fuel hfuel rest _
  rw [List.length_append] at hfuel
  obtain ⟨fuel, rfl, -⟩ : ∃ k, fuel = k + 1 ∧ 0 ≤ k := hmark.exists_fuel (by omega)
  rw [List.append_assoc]
  refine skipValue_eq_ok_iff.mpr ⟨_, _, hopening.skipSpace _, .inl ⟨rfl, .inl ?_⟩⟩
  exact readFirstItem_done_iff.mpr (hmark.skipSpace rest)

theorem passesValue_array (hopening : Mark Byte.openBracket opening) (hspace : Spaces space)
    (hbegins : Begins front) (h : PassesItems front) (next : List UInt8) :
    PassesValue (opening ++ (space ++ front)) next := by
  intro fuel hfuel rest _
  simp only [List.length_append] at hfuel
  obtain ⟨fuel, rfl, hle⟩ : ∃ k, fuel = k + 1 ∧ 2 * front.length ≤ k :=
    hopening.exists_fuel (by omega)
  simp only [List.append_assoc]
  exact skipValue_eq_ok_iff.mpr ⟨_, _, hopening.skipSpace _, .inl ⟨rfl, .inr ⟨front ++ rest,
    readFirstItem_append hspace (hbegins.append rest), h fuel (by omega) rest⟩⟩⟩

theorem passesValue_object_nil (hopening : Mark Byte.openBrace opening)
    (hmark : Mark Byte.closeBrace mark) (next : List UInt8) :
    PassesValue (opening ++ mark) next := by
  intro fuel hfuel rest _
  rw [List.length_append] at hfuel
  obtain ⟨fuel, rfl, -⟩ : ∃ k, fuel = k + 1 ∧ 0 ≤ k := hmark.exists_fuel (by omega)
  rw [List.append_assoc]
  refine skipValue_eq_ok_iff.mpr ⟨_, _, hopening.skipSpace _, .inr (.inl ⟨rfl, .inl ?_⟩)⟩
  exact readFirstEntry_done_iff.mpr (hmark.skipSpace rest)

theorem passesValue_object (hopening : Mark Byte.openBrace opening)
    (hquote : Mark Byte.quote quote) (h : PassesPairs front) (next : List UInt8) :
    PassesValue (opening ++ (quote ++ front)) next := by
  intro fuel hfuel rest _
  simp only [List.length_append] at hfuel
  obtain ⟨fuel, rfl, hle⟩ : ∃ k, fuel = k + 1 ∧ 2 * front.length ≤ k :=
    hopening.exists_fuel (by omega)
  simp only [List.append_assoc]
  refine skipValue_eq_ok_iff.mpr ⟨_, _, hopening.skipSpace _, .inr (.inl ⟨rfl,
    .inr ⟨front ++ rest, ?_, h fuel (by omega) rest⟩⟩)⟩
  exact readFirstEntry_another_iff.mpr (hquote.skipSpace _)

theorem passesValue_scalar (hmark : Mark b mark) (hbracket : b ≠ Byte.openBracket)
    (hbrace : b ≠ Byte.openBrace) (h : PassesBefore (skipScalar b) front next) :
    PassesValue (mark ++ front) next := by
  intro fuel hfuel rest hrest
  rw [List.length_append] at hfuel
  obtain ⟨fuel, rfl, -⟩ : ∃ k, fuel = k + 1 ∧ 0 ≤ k := hmark.exists_fuel (by omega)
  rw [List.append_assoc]
  exact skipValue_eq_ok_iff.mpr ⟨b, _, hmark.skipSpace _,
    .inr (.inr ⟨hbracket, hbrace, h rest hrest⟩)⟩

/-! ## All that is passed -/

/-- What a reader passes for one value, for items or for entries is a front that is passed wherever
it stands. -/
structure PassesFronts (fuel : Nat) : Prop where
  value : ∀ s rest, skipValue fuel s = .ok rest →
    ∃ front, s = front ++ rest ∧ PassesValue front rest
  items : ∀ s rest, skipItems fuel s = .ok rest → ∃ front, s = front ++ rest ∧ PassesItems front
  pairs : ∀ s rest, skipPairs fuel s = .ok rest → ∃ front, s = front ++ rest ∧ PassesPairs front

theorem PassesFronts.items_succ (ih : PassesFronts fuel) (h : skipItems (fuel + 1) s = .ok rest) :
    ∃ front, s = front ++ rest ∧ PassesItems front := by
  obtain ⟨t, hskip, hafter⟩ := skipItems_eq_ok_iff.mp h
  obtain ⟨item, rfl, hitem⟩ := ih.value _ _ hskip
  obtain hend | ⟨next, hnext, hmore⟩ := hafter
  · obtain ⟨mark, hmark, rfl⟩ := exists_mark hend
    refine ⟨item ++ mark, (List.append_assoc ..).symm, ?_⟩
    exact passesItems_last (hitem.congr (hmark.head?_append rest)) hmark
  · obtain ⟨mark, hmark, rfl⟩ := exists_mark hnext
    obtain ⟨others, rfl, hothers⟩ := ih.items _ _ hmore
    refine ⟨item ++ (mark ++ others), by simp only [List.append_assoc], ?_⟩
    exact passesItems_next (hitem.congr (hmark.head?_append _)) hmark hothers

theorem PassesFronts.pairs_succ (ih : PassesFronts fuel) (h : skipPairs (fuel + 1) s = .ok rest) :
    ∃ front, s = front ++ rest ∧ PassesPairs front := by
  obtain ⟨_, hkey, _, hcolon, t, hskip, hafter⟩ := skipPairs_eq_ok_iff.mp h
  obtain ⟨text, rfl, htext⟩ := exists_passes_skipText hkey
  obtain ⟨colon, hmarkColon, rfl⟩ := exists_mark hcolon
  obtain ⟨value, rfl, hvalue⟩ := ih.value _ _ hskip
  obtain hend | ⟨next, ⟨_, hcomma, hquote⟩, hmore⟩ := hafter
  · obtain ⟨mark, hmark, rfl⟩ := exists_mark hend
    refine ⟨text ++ (colon ++ (value ++ mark)), by simp only [List.append_assoc], ?_⟩
    exact passesPairs_last htext hmarkColon (hvalue.congr (hmark.head?_append rest)) hmark
  · obtain ⟨mark, hmark, rfl⟩ := exists_mark hcomma
    obtain ⟨quote, hmarkQuote, rfl⟩ := exists_mark hquote
    obtain ⟨others, rfl, hothers⟩ := ih.pairs _ _ hmore
    refine ⟨text ++ (colon ++ (value ++ (mark ++ (quote ++ others)))),
      by simp only [List.append_assoc], ?_⟩
    exact passesPairs_next htext hmarkColon (hvalue.congr (hmark.head?_append _)) hmark
      hmarkQuote hothers

theorem PassesFronts.value_succ (ih : PassesFronts fuel) (h : skipValue (fuel + 1) s = .ok rest) :
    ∃ front, s = front ++ rest ∧ PassesValue front rest := by
  obtain ⟨b, t, hs, hskip⟩ := skipValue_eq_ok_iff.mp h
  obtain ⟨opening, hopening, rfl⟩ := exists_mark hs
  obtain ⟨rfl, hend | ⟨first, hfirst, hitems⟩⟩ | ⟨rfl, hend | ⟨first, hfirst, hpairs⟩⟩ |
    ⟨hbracket, hbrace, hscalar⟩ := hskip
  · obtain ⟨mark, hmark, rfl⟩ := exists_mark (readFirstItem_done_iff.mp hend)
    exact ⟨opening ++ mark, (List.append_assoc ..).symm, passesValue_array_nil hopening hmark rest⟩
  · obtain ⟨space, hspaces, hbegins, rfl⟩ := exists_spaces_of_readFirstItem hfirst
    obtain ⟨front, rfl, hfront⟩ := ih.items _ _ hitems
    exact ⟨opening ++ (space ++ front), by simp only [List.append_assoc],
      passesValue_array hopening hspaces (hbegins.of_append hfront.ne_nil) hfront rest⟩
  · obtain ⟨mark, hmark, rfl⟩ := exists_mark (readFirstEntry_done_iff.mp hend)
    exact ⟨opening ++ mark, (List.append_assoc ..).symm, passesValue_object_nil hopening hmark rest⟩
  · obtain ⟨quote, hquote, rfl⟩ := exists_mark (readFirstEntry_another_iff.mp hfirst)
    obtain ⟨front, rfl, hfront⟩ := ih.pairs _ _ hpairs
    exact ⟨opening ++ (quote ++ front), by simp only [List.append_assoc],
      passesValue_object hopening hquote hfront rest⟩
  · obtain ⟨front, rfl, hfront⟩ := exists_passes_skipScalar hscalar
    exact ⟨opening ++ front, (List.append_assoc ..).symm,
      passesValue_scalar hopening hbracket hbrace hfront⟩

theorem passesFronts (fuel : Nat) : PassesFronts fuel := by
  induction fuel with
  | zero => exact ⟨fun _ _ h => (nomatch h), fun _ _ h => (nomatch h), fun _ _ h => (nomatch h)⟩
  | succ fuel ih =>
    exact ⟨fun _ _ => ih.value_succ, fun _ _ => ih.items_succ, fun _ _ => ih.pairs_succ⟩

theorem exists_passesValue (h : skipValue fuel s = .ok rest) :
    ∃ front, s = front ++ rest ∧ PassesValue front rest :=
  (passesFronts fuel).value s rest h

/-! ## Whole texts -/

/-- One value, and nothing else. -/
def IsValue (s : List UInt8) : Prop := skipValue (enoughFuel s) s = .ok []

/-- One value, and nothing but spaces behind it. -/
def IsText (s : List UInt8) : Prop :=
  ∃ value space, s = value ++ space ∧ IsValue value ∧ Spaces space

theorem isValue_of_passes (h : PassesValue front []) : IsValue front := by
  have hfront := h (enoughFuel front) (Nat.le_add_right _ _) [] rfl
  rwa [List.append_nil] at hfront

/-- Where a text begins with a value that is passed in front of everything, the text is one value
just if nothing but spaces is left. -/
theorem isText_append_iff (h : ∀ next, PassesValue front next) :
    IsText (front ++ rest) ↔ Spaces rest := by
  constructor
  · rintro ⟨value, space, hs, hvalue, hspace⟩
    obtain ⟨more, rfl, rfl⟩ | ⟨more, rfl, rfl⟩ := List.append_eq_append_iff.mp hs
    · -- The value would be longer, but no more of it is passed.
      have hmore := h more (enoughFuel (front ++ more)) (by
        rw [enoughFuel, List.length_append]
        omega) more rfl
      rw [IsValue, hmore] at hvalue
      cases hvalue
      exact hspace
    · exact fun b hb => hspace b (List.mem_append_right more hb)
  · exact fun hspace => ⟨front, rest, rfl, isValue_of_passes (h []), hspace⟩

end Json
end ExactlyOne
