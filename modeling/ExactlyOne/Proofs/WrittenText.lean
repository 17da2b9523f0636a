import ExactlyOne.Json.Printer
import ExactlyOne.Json.Reader

/-!
# Texts, written and read

The bytes of a text are those of its characters, one character after the other. Between quotes some
characters stand as escapes; read again, every character leaves its own bytes, whether it stood for
itself or not. So a quoted text reads back as itself, and its end is the closing quote.
-/
namespace ExactlyOne

/-! ## The bytes of a text -/

theorem byteArray_loop_eq (bytes : ByteArray) (left i : Nat) (passed : List UInt8)
    (h : bytes.size = left + i) :
    ByteArray.toList.loop bytes i passed = passed.reverse ++ bytes.data.toList.drop i := by
  induction left generalizing i passed with
  | zero =>
    have hend : bytes.data.toList.length ≤ i := by
      simpa using Nat.le_of_eq (h.trans (Nat.zero_add i))
    rw [ByteArray.toList.loop, if_neg (by omega), List.drop_of_length_le hend, List.append_nil]
  | succ left ih =>
    have hi : i < bytes.size := by omega
    have hget : bytes.get! i = bytes.data.toList[i] := getElem!_pos bytes.data i hi
    rw [ByteArray.toList.loop, if_pos hi, ih (i + 1) _ (by omega), hget, List.reverse_cons,
      List.append_assoc, List.drop_eq_getElem_cons hi]
    rfl

theorem byteArray_toList_eq (bytes : ByteArray) : bytes.toList = bytes.data.toList :=
  byteArray_loop_eq bytes bytes.size 0 [] rfl

theorem utf8_eq_flatMap (s : String) : utf8 s = s.toList.flatMap String.utf8EncodeChar := by
  rw [utf8, byteArray_toList_eq, String.toUTF8_eq_toByteArray, ← String.utf8Encode_toList,
    List.utf8Encode, List.toList_data_toByteArray]

theorem utf8_append (s t : String) : utf8 (s ++ t) = utf8 s ++ utf8 t := by
  simp only [utf8_eq_flatMap, String.toList_append, List.flatMap_append]

theorem ofUtf8?_utf8 (s : String) : ofUtf8? (utf8 s) = some s := by
  have hbytes : (⟨(utf8 s).toArray⟩ : ByteArray) = s.toByteArray := by
    rw [utf8, byteArray_toList_eq]
    rfl
  rw [ofUtf8?, hbytes, String.fromUTF8?, dif_pos s.isValidUTF8]
  rfl

theorem utf8EncodeChar_of_lt {c : Char} (h : c.toNat < 0x80) :
    String.utf8EncodeChar c = [Byte.ofChar c] := by
  have hval : c.val.toNat ≤ 127 := Nat.le_of_lt_succ h
  simp only [String.utf8EncodeChar, hval, if_true]
  rfl

/-- The bytes of every other character lie above those of the ASCII characters. -/
theorem le_of_mem_utf8EncodeChar {c : Char} (h : 0x80 ≤ c.toNat) :
    ∀ b ∈ String.utf8EncodeChar c, 0x80 ≤ b.toNat := by
  have hval : ¬ c.val.toNat ≤ 127 := Nat.not_le_of_lt h
  intro b hb
  simp only [String.utf8EncodeChar, hval, if_false] at hb
  split at hb
  · simp only [List.mem_cons, List.not_mem_nil, or_false] at hb
    rcases hb with rfl | rfl <;> simp only [UInt8.toNat_ofNat'] <;> omega
  · split at hb
    · simp only [List.mem_cons, List.not_mem_nil, or_false] at hb
      rcases hb with rfl | rfl | rfl <;> simp only [UInt8.toNat_ofNat'] <;> omega
    · simp only [List.mem_cons, List.not_mem_nil, or_false] at hb
      rcases hb with rfl | rfl | rfl | rfl <;> simp only [UInt8.toNat_ofNat'] <;> omega

namespace Json

/-! ## Characters between quotes -/

variable {b : UInt8} {c : Char}

theorem hexValue?_hexDigit : ∀ n < 16, Byte.hexValue? (Byte.ofChar (hexDigit n)) = some n := by
  decide

theorem readText_plain (hq : b ≠ Byte.quote) (hs : b ≠ Byte.backslash)
    (hc : Byte.isControl b = false) (passed rest : List UInt8) :
    readText .plain passed (b :: rest) = readText .plain (b :: passed) rest := by
  rw [readText, if_neg hq, if_neg hs, if_neg (by simp [hc])]

theorem readText_of_high {bytes : List UInt8} (h : ∀ b ∈ bytes, 0x80 ≤ b.toNat)
    (passed rest : List UInt8) :
    readText .plain passed (bytes ++ rest) = readText .plain (bytes.reverse ++ passed) rest := by
  induction bytes generalizing passed with
  | nil => rfl
  | cons b bytes ih =>
    obtain ⟨hb, hbytes⟩ := List.forall_mem_cons.mp h
    have hq : b ≠ Byte.quote := by
      rintro rfl
      exact absurd hb (by decide)
    have hs : b ≠ Byte.backslash := by
      rintro rfl
      exact absurd hb (by decide)
    have hc : Byte.isControl b = false := by
      simp only [Byte.isControl, UInt8.lt_iff_toNat_lt, decide_eq_false_iff_not]
      have : (0x20 : UInt8).toNat = 32 := rfl
      omega
    rw [List.cons_append, readText_plain hq hs hc, ih hbytes, List.reverse_cons, List.append_assoc]
    rfl

theorem readText_numbered {n : Nat} (h : n < 0x20) (passed rest : List UInt8) :
    readText .plain passed (Byte.backslash :: Byte.ofChar 'u' :: Byte.ofChar '0' ::
      Byte.ofChar '0' :: Byte.ofChar (hexDigit (n / 16)) :: Byte.ofChar (hexDigit (n % 16)) ::
      rest) = readText .plain (bytesBackwards (Char.ofNat n) ++ passed) rest := by
  have hzero : Byte.hexValue? (Byte.ofChar '0') = some 0 := by decide
  have hhigh : Byte.hexValue? (Byte.ofChar (hexDigit (n / 16))) = some (n / 16) :=
    hexValue?_hexDigit _ (by omega)
  have hlow : Byte.hexValue? (Byte.ofChar (hexDigit (n % 16))) = some (n % 16) :=
    hexValue?_hexDigit _ (by omega)
  have hn : 16 * (n / 16) + n % 16 = n := by omega
  have hlead : isLeading n = false := by
    simp only [isLeading, Bool.and_eq_false_iff, decide_eq_false_iff_not]
    omega
  have htrail : isTrailing n = false := by
    simp only [isTrailing, Bool.and_eq_false_iff, decide_eq_false_iff_not]
    omega
  have hq : Byte.backslash ≠ Byte.quote := by decide
  simp only [readText, hq, hzero, hhigh, hlow, if_true, if_false, Option.bind_some,
    Option.map_some, Nat.reduceAdd, Nat.reduceLT, Nat.mul_zero, Nat.zero_add, hn, hlead, htrail]
  rfl

theorem toNat_ofChar (h : c.toNat < 0x80) : (Byte.ofChar c).toNat = c.toNat := by
  rw [Byte.ofChar, Nat.toUInt8, UInt8.toNat_ofNat', Nat.mod_eq_of_lt (by omega)]

theorem ofChar_ne {d : Char} (hc : c.toNat < 0x80) (hd : d.toNat < 0x80) (h : c ≠ d) :
    Byte.ofChar c ≠ Byte.ofChar d := by
  intro hbyte
  have hnat := congrArg UInt8.toNat hbyte
  rw [toNat_ofChar hc, toNat_ofChar hd] at hnat
  exact h (Char.toNat_inj.mp hnat)

theorem readText_itself (hquote : c ≠ '"') (hslash : c ≠ '\\') (hc : 0x20 ≤ c.toNat)
    (passed rest : List UInt8) :
    readText .plain passed (String.utf8EncodeChar c ++ rest) =
      readText .plain (bytesBackwards c ++ passed) rest := by
  by_cases hlow : c.toNat < 0x80
  · have hcontrol : Byte.isControl (Byte.ofChar c) = false := by
      have hspace : (0x20 : UInt8).toNat = 0x20 := rfl
      simp only [Byte.isControl, UInt8.lt_iff_toNat_lt, toNat_ofChar hlow, hspace,
        decide_eq_false_iff_not]
      omega
    rw [bytesBackwards, utf8EncodeChar_of_lt hlow]
    exact readText_plain (ofChar_ne hlow (by decide) hquote) (ofChar_ne hlow (by decide) hslash)
      hcontrol passed rest
  · exact readText_of_high (le_of_mem_utf8EncodeChar (Nat.le_of_not_lt hlow)) passed rest

/-- However a character stands between quotes, it leaves its own bytes. -/
theorem readText_escaped (c : Char) (passed rest : List UInt8) :
    readText .plain passed ((escaped c).flatMap String.utf8EncodeChar ++ rest) =
      readText .plain (bytesBackwards c ++ passed) rest := by
  unfold escaped
  split
  case h_8 _ hquote hslash _ _ _ _ _ =>
    split
    · rename_i hc
      have hdigit : ∀ n < 16, String.utf8EncodeChar (hexDigit n) = [Byte.ofChar (hexDigit n)] := by
        decide
      have hnumbered := readText_numbered hc passed rest
      rw [Char.ofNat_toNat] at hnumbered
      rw [← hnumbered]
      simp only [List.flatMap_cons, List.flatMap_nil, hdigit (c.toNat / 16) (by omega),
        hdigit (c.toNat % 16) (by omega)]
      rfl
    · rename_i hc
      rw [List.flatMap_singleton]
      exact readText_itself hquote hslash (Nat.le_of_not_lt hc) passed rest
  -- The characters with an escape of their own.
  all_goals rfl

theorem readText_written (cs : List Char) (passed rest : List UInt8) :
    readText .plain passed ((cs.flatMap escaped).flatMap String.utf8EncodeChar ++ rest) =
      readText .plain ((cs.flatMap String.utf8EncodeChar).reverse ++ passed) rest := by
  induction cs generalizing passed with
  | nil => rfl
  | cons c cs ih =>
    rw [List.flatMap_cons, List.flatMap_append, List.append_assoc, readText_escaped, ih,
      List.flatMap_cons, List.reverse_append, List.append_assoc, bytesBackwards]

/-! ## Quoted texts -/

def quotedTail (s : String) : List UInt8 :=
  (s.toList.flatMap escaped).flatMap String.utf8EncodeChar ++ [Byte.quote]

theorem utf8_quoted (s : String) : utf8 (quoted s) = Byte.quote :: quotedTail s := by
  rw [utf8_eq_flatMap, quoted, String.toList_ofList, List.cons_append, List.flatMap_cons,
    List.flatMap_append, quotedTail]
  rfl

/-- A text that was quoted is read back as itself, up to its closing quote. -/
theorem readString_quotedTail (s : String) (rest : List UInt8) :
    readString (quotedTail s ++ rest) = .ok (s, rest) := by
  have hbytes : ((s.toList.flatMap String.utf8EncodeChar).reverse ++ []).reverse = utf8 s := by
    rw [List.append_nil, List.reverse_reverse, utf8_eq_flatMap]
  rw [readString, quotedTail, List.append_assoc, readText_written, List.singleton_append, readText,
    if_pos rfl, hbytes, closeText, ofUtf8?_utf8]
  rfl

end Json

end ExactlyOne
