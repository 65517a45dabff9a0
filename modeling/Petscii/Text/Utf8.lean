/-!
# Texts as UTF-8 bytes

Files, streams and source texts are byte lists, names and generated code are strings, and `utf8` is
the way from one to the other.

`Utf8.repair` makes any byte list well formed. Bytes that begin a character but cannot be completed
by what follows, and bytes that can begin no character, each give one U+FFFD: the longest piece that
could still have become a character is replaced as a whole, and reading goes on at the byte that
ruled it out.
-/

namespace Petscii

abbrev Bytes := List UInt8

def utf8 (text : String) : Bytes :=
  text.toList.flatMap String.utf8EncodeChar

@[simp] theorem utf8_empty : utf8 "" = [] := rfl

@[simp] theorem utf8_append (a b : String) : utf8 (a ++ b) = utf8 a ++ utf8 b := by
  simp [utf8]

namespace Utf8

/-- U+FFFD in UTF-8, written in place of bytes that form no character. -/
def replacement : Bytes := [0xEF, 0xBF, 0xBD]

/-- A character under way: its bytes so far, last first, how many it still lacks, and the range the
next of them must lie in. -/
structure Unfinished where
  seen : Bytes
  owed : Nat
  low : UInt8
  high : UInt8

/-- What a byte at the start of a character can be. -/
inductive Lead where
  | whole
  | opens (rest : Unfinished)
  | stray

def lead (b : UInt8) : Lead :=
  if b ≤ 0x7F then .whole
  else if b < 0xC2 then .stray
  else if b ≤ 0xDF then .opens ⟨[b], 1, 0x80, 0xBF⟩
  else if b = 0xE0 then .opens ⟨[b], 2, 0xA0, 0xBF⟩
  else if b = 0xED then .opens ⟨[b], 2, 0x80, 0x9F⟩
  else if b ≤ 0xEF then .opens ⟨[b], 2, 0x80, 0xBF⟩
  else if b = 0xF0 then .opens ⟨[b], 3, 0x90, 0xBF⟩
  else if b ≤ 0xF3 then .opens ⟨[b], 3, 0x80, 0xBF⟩
  else if b = 0xF4 then .opens ⟨[b], 3, 0x80, 0x8F⟩
  else .stray

/-- The text repaired so far, last byte first, and the character under way. -/
structure Repair where
  done : Bytes
  pending : Option Unfinished

def Repair.start (done : Bytes) (b : UInt8) : Repair :=
  match lead b with
  | .whole => ⟨b :: done, none⟩
  | .opens rest => ⟨done, some rest⟩
  | .stray => ⟨replacement.reverse ++ done, none⟩

def Repair.step (r : Repair) (b : UInt8) : Repair :=
  match r.pending with
  | none => Repair.start r.done b
  | some u =>
    if u.low ≤ b ∧ b ≤ u.high then
      if u.owed = 1 then ⟨b :: u.seen ++ r.done, none⟩
      else ⟨r.done, some ⟨b :: u.seen, u.owed - 1, 0x80, 0xBF⟩⟩
    else Repair.start (replacement.reverse ++ r.done) b

/-- The repaired text. A character that the end cuts short is replaced too. -/
def Repair.finish (r : Repair) : Bytes :=
  match r.pending with
  | none => r.done.reverse
  | some _ => (replacement.reverse ++ r.done).reverse

/-- The bytes with every ill-formed piece replaced; well-formed UTF-8 is unchanged. -/
def repair (bytes : Bytes) : Bytes :=
  (bytes.foldl Repair.step ⟨[], none⟩).finish

end Utf8

end Petscii
