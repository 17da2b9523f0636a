import ExactlyOne.Proofs.Fronts

/-!
# Passing over a front of a text

What is passed over as a value is a front of the text. A string, an array or an object ends with a
byte of its own, so the same is passed whatever stands behind it. A number ends where none of its
bytes follows: there the next byte matters, and that byte alone.
-/
namespace ExactlyOne

namespace Json

variable {s t rest : List UInt8} {b : UInt8}

/-! ## Words and strings -/

theorem readWord_eq_ok_iff {word : List UInt8} : readWord word s = .ok rest ↔ s = word ++ rest := by
  induction word generalizing s with
  | nil => rw [readWord, List.nil_append, Except.ok.injEq]
  | cons w word ih =>
    cases s with
    | nil => simp [readWord]
    | cons b s =>
      rw [readWord, List.cons_append, List.cons.injEq]
      by_cases hb : b = w <;> simp [hb, ih]

theorem closeText_eq_ok_iff {bytes fromQuote : List UInt8} {a : String} :
    closeText bytes fromQuote = .ok a ↔ ofUtf8? bytes = some a := by
  rw [closeText]
  cases ofUtf8? bytes <;> simp

/-- A byte in a string that is passed over is the closing quote, or leads to another state whatever
stands behind it. -/
theorem skipText_step {state : SkipState} (h : skipText state (b :: s) = .ok rest) :
    (s = rest ∧ ∀ t, skipText state (b :: t) = .ok t) ∨
      ∃ state', ∀ t, skipText state (b :: t) = skipText state' t := by
  cases state with
  | plain =>
    by_cases hquote : b = Byte.quote
    · rw [skipText, if_pos hquote] at h
      exact .inl ⟨Except.ok.inj h, fun t => by rw [skipText, if_pos hquote]⟩
    by_cases hslash : b = Byte.backslash
    · exact .inr ⟨.escape, fun t => by rw [skipText, if_neg hquote, if_pos hslash]⟩
    by_cases hcontrol : Byte.isControl b = true
    · rw [skipText, if_neg hquote, if_neg hslash, if_pos hcontrol] at h
      cases h
    · exact .inr ⟨.plain, fun t => by
        rw [skipText, if_neg hquote, if_neg hslash, if_neg hcontrol]⟩
  | escape =>
    by_cases hu : b = Byte.ofChar 'u'
    · exact .inr ⟨.hex 0 true, fun t => by rw [skipText, if_pos hu]⟩
    by_cases hshort : (shortEscape? b).isSome = true
    · exact .inr ⟨.plain, fun t => by rw [skipText, if_neg hu, if_pos hshort]⟩
    · rw [skipText, if_neg hu, if_neg hshort] at h
      cases h
  | hex digits good =>
    by_cases hdigits : digits < 3
    · exact .inr ⟨.hex (digits + 1) (good && (Byte.hexValue? b).isSome), fun t => by
        simp only [skipText, if_pos hdigits]⟩
    by_cases hgood : (good && (Byte.hexValue? b).isSome) = true
    · exact .inr ⟨.plain, fun t => by simp only [skipText, if_neg hdigits, if_pos hgood]⟩
    · simp only [skipText, if_neg hdigits, if_neg hgood] at h
      cases h

theorem exists_passes_skipText {state : SkipState} (h : skipText state s = .ok rest) :
    ∃ front, s = front ++ rest ∧ Passes (skipText state) front := by
  induction s generalizing state with
  | nil => cases h
  | cons b s ih =>
    obtain ⟨rfl, hclose⟩ | ⟨state', hstep⟩ := skipText_step h
    · exact ⟨[b], rfl, hclose⟩
    · rw [hstep] at h
      obtain ⟨front, rfl, hfront⟩ := ih h
      exact ⟨b :: front, rfl, fun rest => (hstep _).trans (hfront rest)⟩

/-- Where a reader that passes over a string is when one that reads it is at some place in it. -/
def TextState.passing : TextState → SkipState
  | .plain => .plain
  | .escape => .escape
  | .hex _ digits value => .hex digits value.isSome
  | .pairBackslash _ => .plain
  | .pairMark _ => .escape

/-- A byte leads from one place in a string to another, whatever stands behind it, and does so for
a reader that passes over the string. -/
structure TextState.Leads (state : TextState) (passed : List UInt8) (b : UInt8)
    (state' : TextState) (passed' : List UInt8) : Prop where
  reads : ∀ t, readText state passed (b :: t) = readText state' passed' t
  passes : ∀ t, skipText state.passing (b :: t) = skipText state'.passing t

section

variable {passed : List UInt8} {r : String × List UInt8}

theorem leads_plain (hquote : b ≠ Byte.quote) (h : readText .plain passed (b :: s) = .ok r) :
    ∃ state' passed', TextState.plain.Leads passed b state' passed' := by
  by_cases hslash : b = Byte.backslash
  · refine ⟨.escape, passed, fun t => ?_, fun t => ?_⟩
    · rw [readText, if_neg hquote, if_pos hslash]
    · simp only [TextState.passing, skipText, if_neg hquote, if_pos hslash]
  by_cases hcontrol : Byte.isControl b = true
  · rw [readText, if_neg hquote, if_neg hslash, if_pos hcontrol] at h
    cases h
  · refine ⟨.plain, b :: passed, fun t => ?_, fun t => ?_⟩
    · rw [readText, if_neg hquote, if_neg hslash, if_neg hcontrol]
    · simp only [TextState.passing, skipText, if_neg hquote, if_neg hslash, if_neg hcontrol]

theorem leads_escape (h : readText .escape passed (b :: s) = .ok r) :
    ∃ state' passed', TextState.escape.Leads passed b state' passed' := by
  by_cases hu : b = Byte.ofChar 'u'
  · refine ⟨.hex none 0 (some 0), passed, fun t => ?_, fun t => ?_⟩
    · rw [readText, if_pos hu]
    · simp only [TextState.passing, skipText, if_pos hu, Option.isSome_some]
  cases hshort : shortEscape? b with
  | none =>
    simp only [readText, if_neg hu, hshort] at h
    cases h
  | some c =>
    refine ⟨.plain, c :: passed, fun t => ?_, fun t => ?_⟩
    · simp only [readText, if_neg hu, hshort]
    · simp only [TextState.passing, skipText, if_neg hu, hshort, Option.isSome_some, if_true]

theorem leads_hex {lead value : Option Nat} {digits : Nat}
    (h : readText (.hex lead digits value) passed (b :: s) = .ok r) :
    ∃ state' passed', (TextState.hex lead digits value).Leads passed b state' passed' := by
  have hgood : (value.bind fun v => (Byte.hexValue? b).map (16 * v + ·)).isSome =
      (value.isSome && (Byte.hexValue? b).isSome) := by
    cases value <;> simp
  by_cases hdigits : digits < 3
  · refine ⟨.hex lead (digits + 1) (value.bind fun v => (Byte.hexValue? b).map (16 * v + ·)),
      passed, fun t => ?_, fun t => ?_⟩
    · simp only [readText, if_pos hdigits]
    · simp only [TextState.passing, skipText, if_pos hdigits, hgood]
  cases hvalue : value.bind fun v => (Byte.hexValue? b).map (16 * v + ·) with
  | none =>
    simp only [readText, if_neg hdigits, hvalue] at h
    cases h
  | some unit =>
    -- The last digit: a reader that passes over the string is at a plain place whatever it reads.
    have hskip : ∀ t, skipText (.hex digits value.isSome) (b :: t) = skipText .plain t := by
      intro t
      rw [hvalue] at hgood
      simp only [skipText, if_neg hdigits, ← hgood, Option.isSome_some, if_true]
    cases lead with
    | none =>
      by_cases htrail : isTrailing unit = true
      · simp only [readText, if_neg hdigits, hvalue, if_pos htrail] at h
        cases h
      by_cases hlead : isLeading unit = true
      · refine ⟨.pairBackslash unit, passed, fun t => ?_, hskip⟩
        simp only [readText, if_neg hdigits, hvalue, if_neg htrail, if_pos hlead]
      · refine ⟨.plain, bytesBackwards (Char.ofNat unit) ++ passed, fun t => ?_, hskip⟩
        simp only [readText, if_neg hdigits, hvalue, if_neg htrail, if_neg hlead]
    | some lead =>
      by_cases htrail : isTrailing unit = true
      · refine ⟨.plain, bytesBackwards (Char.ofNat (joinSurrogates lead unit)) ++ passed,
          fun t => ?_, hskip⟩
        simp only [readText, if_neg hdigits, hvalue, if_pos htrail]
      · simp only [readText, if_neg hdigits, hvalue, if_neg htrail] at h
        cases h

theorem leads_pairBackslash {lead : Nat}
    (h : readText (.pairBackslash lead) passed (b :: s) = .ok r) :
    ∃ state' passed', (TextState.pairBackslash lead).Leads passed b state' passed' := by
  by_cases hslash : b = Byte.backslash
  · have hquote : b ≠ Byte.quote := hslash ▸ by decide
    refine ⟨.pairMark lead, passed, fun t => ?_, fun t => ?_⟩
    · rw [readText, if_pos hslash]
    · simp only [TextState.passing, skipText, if_neg hquote, if_pos hslash]
  · rw [readText, if_neg hslash] at h
    cases h

theorem leads_pairMark {lead : Nat} (h : readText (.pairMark lead) passed (b :: s) = .ok r) :
    ∃ state' passed', (TextState.pairMark lead).Leads passed b state' passed' := by
  by_cases hu : b = Byte.ofChar 'u'
  · refine ⟨.hex (some lead) 0 (some 0), passed, fun t => ?_, fun t => ?_⟩
    · rw [readText, if_pos hu]
    · simp only [TextState.passing, skipText, if_pos hu, Option.isSome_some]
  · rw [readText, if_neg hu] at h
    cases h

theorem readText_step {state : TextState} {a : String}
    (h : readText state passed (b :: s) = .ok (a, rest)) :
    (s = rest ∧ (∀ t, readText state passed (b :: t) = .ok (a, t)) ∧
        ∀ t, skipText state.passing (b :: t) = .ok t) ∨
      ∃ state' passed', state.Leads passed b state' passed' := by
  cases state with
  | plain =>
    by_cases hquote : b = Byte.quote
    · rw [readText, if_pos hquote] at h
      obtain ⟨text, htext, h⟩ := bind_eq_ok.mp h
      cases h
      refine .inl ⟨rfl, fun t => ?_, fun t => ?_⟩
      · rw [readText, if_pos hquote, closeText_eq_ok_iff.mpr (closeText_eq_ok_iff.mp htext)]
        rfl
      · rw [TextState.passing, skipText, if_pos hquote]
    · exact .inr (leads_plain hquote h)
  | escape => exact .inr (leads_escape h)
  | hex lead digits value => exact .inr (leads_hex h)
  | pairBackslash lead => exact .inr (leads_pairBackslash h)
  | pairMark lead => exact .inr (leads_pairMark h)

/-- A string that is read is a front of the text, and is passed over as well. -/
theorem exists_reads_readText {state : TextState} {a : String}
    (h : readText state passed s = .ok (a, rest)) :
    ∃ front, s = front ++ rest ∧ Reads (readText state passed) front a ∧
      Passes (skipText state.passing) front := by
  induction s generalizing state passed with
  | nil => cases state <;> cases h
  | cons b s ih =>
    obtain ⟨rfl, hread, hpass⟩ | ⟨state', passed', hleads⟩ := readText_step h
    · exact ⟨[b], rfl, hread, hpass⟩
    · rw [hleads.reads] at h
      obtain ⟨front, rfl, hfront, hpass⟩ := ih h
      exact ⟨b :: front, rfl, fun rest => (hleads.reads _).trans (hfront rest),
        fun rest => (hleads.passes _).trans (hpass rest)⟩

end

/-! ## Numbers -/

def NoDigit (s : List UInt8) : Prop := ∀ b ∈ s.head?, Byte.isDigit b = false

theorem NoDigit.congr (h : NoDigit s) (hhead : t.head? = s.head?) : NoDigit t := by
  rwa [NoDigit, hhead]

theorem exists_digits (s : List UInt8) :
    ∃ digits, (∀ b ∈ digits, Byte.isDigit b = true) ∧ s = digits ++ skipDigits s ∧
      NoDigit (skipDigits s) := by
  refine ⟨s.takeWhile Byte.isDigit, fun b hb => ?_, List.takeWhile_append_dropWhile.symm, ?_⟩
  · exact List.all_eq_true.mp (List.all_takeWhile) b hb
  · intro b hb
    have hhead := List.head?_dropWhile_not Byte.isDigit s
    rw [skipDigits] at hb
    rw [Option.mem_def.mp hb] at hhead
    exact hhead

variable {digits : List UInt8}

theorem NoDigit.takeWhile_eq_nil (h : NoDigit s) : s.takeWhile Byte.isDigit = [] := by
  cases s with
  | nil => rfl
  | cons b s => rw [List.takeWhile_cons_of_neg (by simp [h b rfl])]

theorem takeWhile_digits (hd : ∀ b ∈ digits, Byte.isDigit b = true) (h : NoDigit s) :
    (digits ++ s).takeWhile Byte.isDigit = digits := by
  rw [List.takeWhile_append_of_pos hd, h.takeWhile_eq_nil, List.append_nil]

theorem skipDigits_append (hd : ∀ b ∈ digits, Byte.isDigit b = true) (h : NoDigit s) :
    skipDigits (digits ++ s) = s := by
  rw [skipDigits, List.dropWhile_append_of_pos hd]
  cases s with
  | nil => rfl
  | cons b s => rw [List.dropWhile_cons_of_neg (by simp [h b rfl])]

theorem skipExponent_eq_ok_iff :
    skipExponent s = .ok rest ↔
      ∃ sign d t, (sign = [] ∨ sign = [Byte.plus] ∨ sign = [Byte.minus]) ∧
      Byte.isDigit d = true ∧ s = sign ++ d :: t ∧ rest = skipDigits t := by
  constructor
  · intro h
    cases s with
    | nil => cases h
    | cons b s =>
      by_cases hb : b = Byte.plus ∨ b = Byte.minus
      · simp only [skipExponent, if_pos hb] at h
        cases s with
        | nil => cases h
        | cons d t =>
          simp only at h
          split at h
          · rename_i hd
            cases h
            exact ⟨[b], d, t, .inr (by simpa using hb), hd, rfl, rfl⟩
          · cases h
      · simp only [skipExponent, if_neg hb] at h
        split at h
        · rename_i hd
          cases h
          exact ⟨[], b, s, .inl rfl, hd, rfl, rfl⟩
        · cases h
  · rintro ⟨sign, d, t, rfl | rfl | rfl, hd, rfl, rfl⟩
    · have hsign : ¬ (d = Byte.plus ∨ d = Byte.minus) := by
        rintro (rfl | rfl) <;> exact absurd hd (by decide)
      simp only [List.nil_append, skipExponent, if_neg hsign, if_pos hd]
    · simp [skipExponent, hd]
    · simp [skipExponent, hd]

theorem exists_passes_skipExponent (h : skipExponent s = .ok rest) :
    ∃ front, s = front ++ rest ∧ PassesBefore skipExponent front rest := by
  obtain ⟨sign, d, t, hsign, hd, rfl, rfl⟩ := skipExponent_eq_ok_iff.mp h
  obtain ⟨digits, hdigits, ht, hstop⟩ := exists_digits t
  refine ⟨sign ++ d :: digits, ?_, fun rest hrest => ?_⟩
  · rw [List.append_assoc, List.cons_append, ← ht]
  · refine skipExponent_eq_ok_iff.mpr ⟨sign, d, digits ++ rest, hsign, hd, ?_, ?_⟩
    · rw [List.append_assoc, List.cons_append]
    · rw [skipDigits_append hdigits (hstop.congr hrest)]

theorem exists_passes_skipOptionalExponent (h : skipOptionalExponent s = .ok rest) :
    ∃ front, s = front ++ rest ∧ PassesBefore skipOptionalExponent front rest := by
  cases s with
  | nil =>
    cases h
    refine ⟨[], rfl, fun rest hrest => ?_⟩
    rw [List.head?_nil, List.head?_eq_none_iff] at hrest
    rw [hrest]
    rfl
  | cons b s =>
    simp only [skipOptionalExponent] at h
    split at h
    · rename_i hb
      obtain ⟨front, rfl, hfront⟩ := exists_passes_skipExponent h
      refine ⟨b :: front, rfl, fun rest hrest => ?_⟩
      simp only [List.cons_append, skipOptionalExponent, if_pos hb]
      exact hfront rest hrest
    · rename_i hb
      cases h
      refine ⟨[], rfl, fun rest hrest => ?_⟩
      obtain ⟨t, rfl⟩ := List.head?_eq_some_iff.mp hrest
      simp only [List.nil_append, skipOptionalExponent, if_neg hb]

theorem exists_passes_skipNumberTail (h : skipNumberTail s = .ok rest) :
    ∃ front, s = front ++ rest ∧ PassesBefore skipNumberTail front rest := by
  cases s with
  | nil =>
    cases h
    refine ⟨[], rfl, fun rest hrest => ?_⟩
    rw [List.head?_nil, List.head?_eq_none_iff] at hrest
    rw [hrest]
    rfl
  | cons b s =>
    simp only [skipNumberTail] at h
    split at h
    · rename_i hb
      obtain ⟨digits, hdigits, hs, hstop⟩ := exists_digits s
      split at h
      · cases h
      · rename_i hsome
        obtain ⟨front, hfront, hpass⟩ := exists_passes_skipOptionalExponent h
        have htake : s.takeWhile Byte.isDigit = digits := by
          rw [hs]
          exact takeWhile_digits hdigits hstop
        rw [htake] at hsome
        refine ⟨b :: (digits ++ front), ?_, fun rest hrest => ?_⟩
        · rw [List.cons_append, List.append_assoc, ← hfront, ← hs]
        · have hnext : NoDigit (front ++ rest) :=
            hstop.congr (hfront ▸ head?_append_congr hrest front)
          simp only [List.cons_append, List.append_assoc, skipNumberTail, if_pos hb,
            takeWhile_digits hdigits hnext, if_neg hsome, skipDigits_append hdigits hnext]
          exact hpass rest hrest
    · rename_i hb
      obtain ⟨front, hfront, hpass⟩ := exists_passes_skipOptionalExponent h
      refine ⟨front, hfront, hpass.congr fun t ht => ?_⟩
      rw [← hfront] at ht
      obtain ⟨t, rfl⟩ := List.head?_eq_some_iff.mp ht
      simp only [skipNumberTail, if_neg hb]

theorem skipNumber_zero (h : NoDigit s) :
    skipNumber (Byte.ofChar '0' :: s) = skipNumberTail s := by
  cases s with
  | nil => rfl
  | cons d s => simp [skipNumber, h d rfl]

theorem skipNumber_digit (hb : Byte.isDigit b = true) (h0 : b ≠ Byte.ofChar '0') :
    skipNumber (b :: s) = skipNumberTail (skipDigits s) := by
  simp only [skipNumber, if_neg h0, if_pos hb]

theorem exists_passes_skipNumber (h : skipNumber (b :: s) = .ok rest) :
    ∃ front, s = front ++ rest ∧ PassesBefore (fun t => skipNumber (b :: t)) front rest := by
  by_cases h0 : b = Byte.ofChar '0'
  · subst h0
    have hstop : NoDigit s := by
      intro d hd
      obtain ⟨t, rfl⟩ := List.head?_eq_some_iff.mp hd
      cases hdigit : Byte.isDigit d with
      | false => rfl
      | true => simp [skipNumber, hdigit] at h
    rw [skipNumber_zero hstop] at h
    obtain ⟨front, hfront, hpass⟩ := exists_passes_skipNumberTail h
    refine ⟨front, hfront, hpass.congr fun t ht => ?_⟩
    rw [← hfront] at ht
    exact skipNumber_zero (hstop.congr ht)
  · by_cases hb : Byte.isDigit b = true
    · rw [skipNumber_digit hb h0] at h
      obtain ⟨digits, hdigits, hs, hstop⟩ := exists_digits s
      obtain ⟨front, hfront, hpass⟩ := exists_passes_skipNumberTail h
      refine ⟨digits ++ front, ?_, fun rest hrest => ?_⟩
      · rw [List.append_assoc, ← hfront, ← hs]
      · have hnext : NoDigit (front ++ rest) :=
          hstop.congr (hfront ▸ head?_append_congr hrest front)
        simp only [skipNumber_digit hb h0, List.append_assoc, skipDigits_append hdigits hnext]
        exact hpass rest hrest
    · simp [skipNumber, h0, hb] at h

theorem exists_passes_skipScalar (h : skipScalar b s = .ok rest) :
    ∃ front, s = front ++ rest ∧ PassesBefore (skipScalar b) front rest := by
  have word : ∀ word, (∀ t, skipScalar b t = readWord word t) →
      ∃ front, s = front ++ rest ∧ PassesBefore (skipScalar b) front rest := by
    intro word hword
    rw [hword] at h
    exact ⟨word, readWord_eq_ok_iff.mp h,
      fun rest _ => (hword _).trans (readWord_eq_ok_iff.mpr rfl)⟩
  by_cases hn : b = Byte.ofChar 'n'
  · exact word (utf8 "ull") fun t => by rw [skipScalar, if_pos hn]
  by_cases ht : b = Byte.ofChar 't'
  · exact word (utf8 "rue") fun t => by rw [skipScalar, if_neg hn, if_pos ht]
  by_cases hf : b = Byte.ofChar 'f'
  · exact word (utf8 "alse") fun t => by rw [skipScalar, if_neg hn, if_neg ht, if_pos hf]
  by_cases hminus : b = Byte.minus
  · have hscalar : ∀ t, skipScalar b t = skipNumber t := fun t => by
      rw [skipScalar, if_neg hn, if_neg ht, if_neg hf, if_pos hminus]
    rw [hscalar] at h
    cases s with
    | nil => cases h
    | cons c s =>
      obtain ⟨front, rfl, hfront⟩ := exists_passes_skipNumber h
      exact ⟨c :: front, rfl, fun rest hrest => (hscalar _).trans (hfront rest hrest)⟩
  by_cases hdigit : Byte.isDigit b = true
  · have hscalar : ∀ t, skipScalar b t = skipNumber (b :: t) := fun t => by
      rw [skipScalar, if_neg hn, if_neg ht, if_neg hf, if_neg hminus, if_pos hdigit]
    rw [hscalar] at h
    obtain ⟨front, rfl, hfront⟩ := exists_passes_skipNumber h
    exact ⟨front, rfl, fun rest hrest => (hscalar _).trans (hfront rest hrest)⟩
  by_cases hquote : b = Byte.quote
  · have hscalar : ∀ t, skipScalar b t = skipText .plain t := fun t => by
      rw [skipScalar, if_neg hn, if_neg ht, if_neg hf, if_neg hminus, if_neg hdigit, if_pos hquote]
    rw [hscalar] at h
    obtain ⟨front, rfl, hfront⟩ := exists_passes_skipText h
    exact ⟨front, rfl, fun rest _ => (hscalar _).trans (hfront rest)⟩
  · rw [skipScalar, if_neg hn, if_neg ht, if_neg hf, if_neg hminus, if_neg hdigit,
      if_neg hquote] at h
    cases h

end Json
end ExactlyOne
