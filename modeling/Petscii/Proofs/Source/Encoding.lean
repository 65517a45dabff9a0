import Petscii.Proofs.Source.Decoders
import Petscii.Source.Parse

/-!
# The encoding of a source text does not matter

A text can be stored as UTF-8, with or without a byte order mark, and as UTF-16 in either byte order behind
its mark. `Encoding.encode` writes it in each of these ways, and decoders that do what is documented bring all
of them back to the UTF-8 bytes of the text, one character after the other. A text without a mark must not start
with U+FEFF, whose bytes are the mark.
-/

namespace Petscii

namespace Utf8

/-- No character starts with a byte of the marks of UTF-16. -/
theorem encodeChar_lead (c : Char) : ∃ n more, String.utf8EncodeChar c = UInt8.ofNat n :: more ∧ n < 0xF8 := by
  have hscalar := toNat_scalar c
  rw [String.utf8EncodeChar, Char.toNat_val]
  split
  · exact ⟨_, _, rfl, by omega⟩
  split
  · exact ⟨_, _, rfl, by omega⟩
  split
  · exact ⟨_, _, rfl, by omega⟩
  · exact ⟨_, _, rfl, by omega⟩

theorem eq_of_encodeChar_append {c d : Char} {rest tail : Bytes}
    (h : String.utf8EncodeChar c ++ rest = String.utf8EncodeChar d ++ tail) : c = d := by
  have hfirst := congrArg (fun bytes : Bytes => bytes.toByteArray.utf8DecodeChar? 0) h
  simpa only [List.toByteArray_append, ByteArray.utf8DecodeChar?_utf8EncodeChar_append, Option.some.injEq]
    using hfirst

end Utf8

namespace Utf16

/-- The code units of a character: one, or a high and a low surrogate. -/
def charUnits (c : Char) : List Nat :=
  if c.toNat < 0x10000 then [c.toNat]
  else [0xD800 + (c.toNat - 0x10000) / 0x400, 0xDC00 + (c.toNat - 0x10000) % 0x400]

def encode (order : ByteOrder) (chars : List Char) : Bytes :=
  chars.flatMap fun c => (charUnits c).flatMap order.bytes

end Utf16

namespace Source

/-! ### Decoded texts -/

theorem KeepsUtf8.text {decode : Bytes → Bytes} (h : KeepsUtf8 decode) (text : String) :
    decode (Petscii.utf8 text) = Petscii.utf8 text := by
  rw [Petscii.utf8]
  induction text.toList with
  | nil => exact h.nil
  | cons c chars ih => rw [List.flatMap_cons, h.char, ih]

section Utf16

variable {order : Utf16.ByteOrder} {decode : Bytes → Bytes} (h : ReadsUtf16 order decode)
include h

/-- The units of a character are read as this character, whatever comes behind them. -/
theorem ReadsUtf16.char (c : Char) (rest : Bytes) :
    decode ((Utf16.charUnits c).flatMap order.bytes ++ rest) = String.utf8EncodeChar c ++ decode rest := by
  have hscalar := toNat_scalar c
  rw [Utf16.charUnits]
  split
  · next hone =>
    have hsingle : ¬ Utf16.IsSurrogate c.toNat := by
      rw [Utf16.IsSurrogate]
      omega
    rw [List.flatMap_singleton, h.single hone hsingle, Char.ofNat_toNat]
  · have hhigh : Utf16.IsSurrogate (0xD800 + (c.toNat - 0x10000) / 0x400) := by
      rw [Utf16.IsSurrogate]
      omega
    have hnotLow : ¬ Utf16.IsLowSurrogate (0xD800 + (c.toNat - 0x10000) / 0x400) := by
      rw [Utf16.IsLowSurrogate]
      omega
    have hlow : Utf16.IsLowSurrogate (0xDC00 + (c.toNat - 0x10000) % 0x400) := by
      rw [Utf16.IsLowSurrogate]
      omega
    have hjoined : 0x10000 + (0xD800 + (c.toNat - 0x10000) / 0x400 - 0xD800) * 0x400 +
        (0xDC00 + (c.toNat - 0x10000) % 0x400 - 0xDC00) = c.toNat := by
      omega
    rw [List.flatMap_cons, List.flatMap_singleton, List.append_assoc, h.pair hhigh hnotLow hlow, hjoined,
      Char.ofNat_toNat]

theorem ReadsUtf16.encoded (chars : List Char) :
    decode (Utf16.encode order chars) = chars.flatMap String.utf8EncodeChar := by
  induction chars with
  | nil => exact h.nil
  | cons c chars ih =>
    rw [Utf16.encode, List.flatMap_cons, h.char, List.flatMap_cons]
    exact congrArg _ ih

end Utf16

/-! ### Every encoding -/

inductive Encoding where
  | plain
  | marked
  | utf16 (order : Utf16.ByteOrder)

/-- A text as it is stored, behind its byte order mark if there is one. -/
def Encoding.encode (e : Encoding) (text : String) : Bytes :=
  match e with
  | .plain => utf8 text
  | .marked => Utf8.mark ++ utf8 text
  | .utf16 order => order.mark ++ Utf16.encode order text.toList

/-- Without a mark the text must not look like one that has it. -/
def Encoding.Suits (e : Encoding) (text : String) : Prop :=
  match e with
  | .plain => text.toList.head? ≠ some (Char.ofNat 0xFEFF)
  | _ => True

/-- A text that does not start with U+FEFF starts with none of the marks. -/
theorem unmarked_utf8 {text : String} (h : Encoding.plain.Suits text) :
    ¬ Utf8.mark <+: utf8 text ∧ ∀ order : Utf16.ByteOrder, ¬ order.mark <+: utf8 text := by
  rw [Encoding.Suits] at h
  rw [utf8]
  cases hchars : text.toList with
  | nil => exact ⟨by decide, fun order => by cases order <;> decide⟩
  | cons c chars =>
    rw [hchars] at h
    rw [List.flatMap_cons]
    constructor
    · rintro ⟨tail, htail⟩
      have hmark : Utf8.mark = String.utf8EncodeChar (Char.ofNat 0xFEFF) := by decide
      rw [hmark] at htail
      exact h (congrArg some (Utf8.eq_of_encodeChar_append htail).symm)
    · rintro order ⟨tail, htail⟩
      obtain ⟨n, more, hlead, hn⟩ := Utf8.encodeChar_lead c
      have hfirst := congrArg (fun bytes : Bytes => bytes.head?.map UInt8.toNat) htail
      rw [hlead] at hfirst
      simp only [List.cons_append, List.head?_cons, Option.map_some,
        UInt8.toNat_ofNat_of_lt' (Nat.lt_trans hn (by decide : 0xF8 < UInt8.size))] at hfirst
      cases order with
      | little =>
        cases hfirst
        exact absurd hn (by decide)
      | big =>
        cases hfirst
        exact absurd hn (by decide)

theorem Decoders.Documented.normalize_encode {d : Decoders} (h : d.Documented) {e : Encoding} {text : String}
    (hsuits : e.Suits text) : d.normalize (e.encode text) = Petscii.utf8 text := by
  cases e with
  | plain =>
    obtain ⟨hmark, hmark16⟩ := unmarked_utf8 hsuits
    exact (h.unmarked d.utf8 hmark hmark16).trans (h.utf8.text text)
  | marked =>
    obtain ⟨decode, hdecode, hmarked⟩ := h.marked d.utf8
    exact (hmarked _).trans (hdecode.text text)
  | utf16 order =>
    obtain ⟨decode, hdecode, hmarked⟩ := h.marked16 d.utf8 order
    exact (hmarked _).trans (hdecode.encoded text.toList)

/-- A source is read alike in every encoding: it gives the frames of its text, or the error of its text with
the same place and the same message. -/
theorem load_encode {d : Decoders} (hd : d.Documented) {ε : Type} (causeMessage : ε → String) {e : Encoding}
    {text : String} (h : e.Suits text) :
    load d (.ok (e.encode text)) = (parseMemoized (utf8 text)).mapError (@LoadError.rejected ε) ∧
      (load d (.ok (e.encode text))).mapError (LoadError.message causeMessage) =
        (parseMemoized (utf8 text)).mapError ParseError.message := by
  rw [load, hd.normalize_encode h]
  refine ⟨rfl, ?_⟩
  cases parseMemoized (utf8 text) with
  | error e => rfl
  | ok parsed => rfl

/-- A text of one character from each length of UTF-8. -/
def clef : String := "Aé€𝄞"

theorem load_encode_clef :
    Decoders.unicode.Documented ∧
      Encoding.plain.encode clef = [0x41, 0xC3, 0xA9, 0xE2, 0x82, 0xAC, 0xF0, 0x9D, 0x84, 0x9E] ∧
      (Encoding.utf16 .little).encode clef =
        [0xFF, 0xFE, 0x41, 0, 0xE9, 0, 0xAC, 0x20, 0x34, 0xD8, 0x1E, 0xDD] ∧
      (Encoding.utf16 .big).encode clef =
        [0xFE, 0xFF, 0, 0x41, 0, 0xE9, 0x20, 0xAC, 0xD8, 0x34, 0xDD, 0x1E] ∧
      Encoding.plain.Suits clef ∧
      ∀ e ∈ [Encoding.plain, .marked, .utf16 .little, .utf16 .big],
        load .unicode (.ok (e.encode clef)) = (parseMemoized (utf8 clef)).mapError (@LoadError.rejected Empty) ∧
          (load .unicode (.ok (e.encode clef))).mapError (LoadError.message Empty.elim) =
            (parseMemoized (utf8 clef)).mapError ParseError.message := by
  have hplain : Encoding.plain.Suits clef := by
    rw [Encoding.Suits]
    decide
  refine ⟨unicode_documented, by decide, by decide, by decide, hplain, ?_⟩
  simp only [List.forall_mem_cons]
  exact ⟨load_encode unicode_documented Empty.elim hplain, load_encode unicode_documented Empty.elim trivial,
    load_encode unicode_documented Empty.elim trivial, load_encode unicode_documented Empty.elim trivial, by simp⟩

end Source

end Petscii
