import Petscii.Proofs.Text.Numeral

/-!
# Texts of ASCII characters

An ASCII character is one byte of UTF-8, and a byte of any other character lies outside ASCII. So a name,
which is defined by its bytes, is a text of letters, digits and underscores that does not start with a
digit.
-/

namespace Petscii

theorem utf8EncodeChar_of_ascii {c : Char} (hc : c.toNat < 128) :
    String.utf8EncodeChar c = [UInt8.ofNat c.toNat] := by
  have hsmall : c.val.toNat ≤ 0x7F := Nat.le_of_lt_succ hc
  rw [String.utf8EncodeChar, if_pos hsmall]
  rfl

theorem utf8EncodeChar_of_wide {c : Char} (hc : ¬ c.toNat < 128) :
    ∃ b rest, String.utf8EncodeChar c = b :: rest ∧ 128 ≤ b.toNat := by
  have hlarge : ¬ c.val.toNat ≤ 0x7F := fun hle => hc (Nat.lt_succ_of_le hle)
  have hhigh : ∀ n, n < 0x100 → 128 ≤ n → 128 ≤ (UInt8.ofNat n).toNat := by
    intro n hn hle
    rw [UInt8.toNat_ofNat_of_lt' hn]
    exact hle
  rw [String.utf8EncodeChar, if_neg hlarge]
  split
  · exact ⟨_, _, rfl, hhigh _ (by omega) (by omega)⟩
  · split
    · exact ⟨_, _, rfl, hhigh _ (by omega) (by omega)⟩
    · exact ⟨_, _, rfl, hhigh _ (by omega) (by omega)⟩

theorem utf8_ofList {chars : List Char} (hascii : ∀ c ∈ chars, c.toNat < 128) :
    utf8 (String.ofList chars) = chars.map fun c => UInt8.ofNat c.toNat := by
  rw [utf8, String.toList_ofList]
  induction chars with
  | nil => rfl
  | cons c chars ih =>
    rw [List.flatMap_cons, utf8EncodeChar_of_ascii (hascii c List.mem_cons_self),
      ih fun d hd => hascii d (List.mem_cons_of_mem c hd)]
    rfl

namespace Source

def isWordChar (c : Char) : Bool :=
  c.isAlphanum || c == '_'

theorem isNameByte_ofNat : ∀ n, n < 128 → isNameByte (UInt8.ofNat n) = isWordChar (Char.ofNat n) := by
  decide

theorem isNameStart_ofNat : ∀ n, n < 128 →
    isNameStart (UInt8.ofNat n) = (isWordChar (Char.ofNat n) && !(Char.ofNat n).isDigit) := by
  decide

theorem isNameByte_lt {b : UInt8} (h : isNameByte b = true) : b.toNat < 128 := by
  simp only [isNameByte, isNameStart, isDigit, Bool.or_eq_true, Bool.and_eq_true, decide_eq_true_eq,
    beq_iff_eq, UInt8.le_iff_toNat_le, ← UInt8.toNat_inj, UInt8.reduceToNat] at h
  omega

theorem isNameByte_of_isNameStart {b : UInt8} (h : isNameStart b = true) : isNameByte b = true := by
  rw [isNameByte, h, Bool.true_or]

theorem toNat_lt_of_isWordChar {c : Char} (h : isWordChar c = true) : c.toNat < 128 := by
  have hranges : ((decide ('A'.val ≤ c.val ∧ c.val ≤ 'Z'.val) ||
      (decide ('a'.val ≤ c.val) && decide (c.val ≤ 'z'.val))) ||
      (decide ('0'.val ≤ c.val) && decide (c.val ≤ '9'.val)) || c == '_') = true := h
  simp only [Bool.or_eq_true, Bool.and_eq_true, decide_eq_true_eq, beq_iff_eq] at hranges
  rcases hranges with ((h | h) | h) | h
  · exact Nat.lt_of_le_of_lt (UInt32.le_iff_toNat_le.1 h.2) (by decide)
  · exact Nat.lt_of_le_of_lt (UInt32.le_iff_toNat_le.1 h.2) (by decide)
  · exact Nat.lt_of_le_of_lt (UInt32.le_iff_toNat_le.1 h.2) (by decide)
  · rw [h]
    decide

/-- The bytes of a character are bytes of a name exactly when the character is a letter, a digit or an
underscore. -/
theorem all_isNameByte_encode (c : Char) :
    (String.utf8EncodeChar c).all isNameByte = isWordChar c := by
  by_cases hc : c.toNat < 128
  · rw [utf8EncodeChar_of_ascii hc, List.all_cons, List.all_nil, Bool.and_true, isNameByte_ofNat _ hc,
      Char.ofNat_toNat]
  · obtain ⟨b, rest, hencode, hhigh⟩ := utf8EncodeChar_of_wide hc
    have hbyte : isNameByte b = false := by
      rw [Bool.eq_false_iff]
      intro h
      have := isNameByte_lt h
      omega
    have hword : isWordChar c = false := by
      rw [Bool.eq_false_iff]
      exact fun h => hc (toNat_lt_of_isWordChar h)
    rw [hencode, List.all_cons, hbyte, hword, Bool.false_and]

theorem all_isNameByte_utf8 (chars : List Char) :
    (chars.flatMap String.utf8EncodeChar).all isNameByte = chars.all isWordChar := by
  induction chars with
  | nil => rfl
  | cons c chars ih =>
    rw [List.flatMap_cons, List.all_append, all_isNameByte_encode, ih, List.all_cons]

theorem isName_iff {text : String} :
    isName text = true ↔ ∃ c rest, text.toList = c :: rest ∧ c.isDigit = false ∧
      ∀ d ∈ c :: rest, isWordChar d = true := by
  have hbytes : isName text = true ↔ ∃ b rest, utf8 text = b :: rest ∧ isNameStart b = true ∧
      rest.all isNameByte = true := by
    rw [isName]
    cases utf8 text with
    | nil => simp
    | cons b rest => simp [and_assoc]
  rw [hbytes, utf8]
  cases hchars : text.toList with
  | nil => simp
  | cons c chars =>
    have hall := all_isNameByte_utf8 (c :: chars)
    constructor
    · rintro ⟨b, rest, hutf8, hstart, hrest⟩
      rw [hutf8, List.all_cons, isNameByte_of_isNameStart hstart, hrest] at hall
      have hwords : ∀ d ∈ c :: chars, isWordChar d = true := List.all_eq_true.1 hall.symm
      have hc := toNat_lt_of_isWordChar (hwords c List.mem_cons_self)
      rw [List.flatMap_cons, utf8EncodeChar_of_ascii hc] at hutf8
      cases hutf8
      rw [isNameStart_ofNat _ hc, Char.ofNat_toNat, Bool.and_eq_true, Bool.not_eq_true'] at hstart
      exact ⟨c, chars, rfl, hstart.2, hwords⟩
    · rintro ⟨d, rest, heq, hdigit, hwords⟩
      cases heq
      have hc := toNat_lt_of_isWordChar (hwords c List.mem_cons_self)
      refine ⟨UInt8.ofNat c.toNat, chars.flatMap String.utf8EncodeChar, ?_, ?_, ?_⟩
      · rw [List.flatMap_cons, utf8EncodeChar_of_ascii hc]
        rfl
      · rw [isNameStart_ofNat _ hc, Char.ofNat_toNat, hwords c List.mem_cons_self, hdigit]
        rfl
      · rw [all_isNameByte_utf8, List.all_eq_true]
        exact fun d hd => hwords d (List.mem_cons_of_mem c hd)

theorem isName_append {a b : String} (ha : isName a = true) (hb : ∀ c ∈ b.toList, isWordChar c = true) :
    isName (a ++ b) = true := by
  obtain ⟨c, rest, hlist, hdigit, hwords⟩ := isName_iff.1 ha
  refine isName_iff.2 ⟨c, rest ++ b.toList, ?_, hdigit, fun d hd => ?_⟩
  · rw [String.toList_append, hlist, List.cons_append]
  · rw [← List.cons_append, List.mem_append] at hd
    exact hd.elim (hwords d) (hb d)

theorem isWordChar_of_isDigit {c : Char} (h : c.isDigit = true) : isWordChar c = true := by
  rw [isWordChar, Char.isAlphanum, h, Bool.or_true, Bool.true_or]

theorem isWordChar_of_isName {text : String} (h : isName text = true) :
    ∀ c ∈ text.toList, isWordChar c = true := by
  obtain ⟨c, rest, hlist, _, hwords⟩ := isName_iff.1 h
  rw [hlist]
  exact hwords

theorem isWordChar_of_isUpperHex {c : Char} (h : Numeral.isUpperHex c = true) : isWordChar c = true := by
  rw [Numeral.isUpperHex, Bool.or_eq_true] at h
  rcases h with h | h
  · exact isWordChar_of_isDigit h
  · rw [Bool.and_eq_true, decide_eq_true_eq, decide_eq_true_eq] at h
    have hupper : c.isUpper = true := decide_eq_true ⟨h.1, UInt32.le_trans h.2 (by decide)⟩
    have halpha : (c.isUpper || c.isLower) = c.isAlpha := rfl
    rw [isWordChar, Char.isAlphanum, ← halpha, hupper]
    rfl

end Source

end Petscii
