import Petscii.Program.Builder
import Petscii.Proofs.Text.Name

/-!
# Names in a compiled program

Labels are numbered and routines are named after the frame they lead to. All these names are different,
whatever the program is called: behind its last character that is no digit of base sixteen a label has a
number only, and there it ends in `l`, where a routine's name ends in `e` or `t`.
-/

namespace Petscii.Program

def routine (target : Target) (suffix : String) : String :=
  "animation_" ++ target.name ++ "_" ++ suffix

/-- The name of the routine that leads to frame `k`. -/
def frameRoutine (target : Target) (k : Nat) : String :=
  routine target ("frame" ++ Nat.repr k)

/-- The name of the routine that draws the first frame. -/
def initRoutine (target : Target) : String :=
  routine target "init"

theorem label_injective {target : Target} {m n : Nat} (h : label target m = label target n) : m = n :=
  Numeral.append_padded_injective (by decide) (by decide) h

theorem frameRoutine_injective {target : Target} {j k : Nat}
    (h : frameRoutine target j = frameRoutine target k) : j = k := by
  have hlist := congrArg String.toList h
  simp only [frameRoutine, routine, String.toList_append] at hlist
  have hframe := List.append_cancel_left (List.append_cancel_left hlist)
  exact Asm.repr_nat_injective (String.toList_inj.1 hframe)

/-! ### The last character that is no digit -/

/-- The last character of a name in front of digits of base sixteen. -/
def tip (name : String) : Option Char :=
  (name.toList.reverse.dropWhile Numeral.isUpperHex).head?

theorem tip_append {digits : String} (hdigits : ∀ c ∈ digits.toList, Numeral.isUpperHex c = true)
    (name : String) : tip (name ++ digits) = tip name := by
  rw [tip, String.toList_append, List.reverse_append,
    List.dropWhile_append_of_pos fun c hc => hdigits c (List.mem_reverse.1 hc)]
  rfl

theorem tip_of_concat {name : String} {c : Char} (front : List Char) (hlist : name.toList = front ++ [c])
    (hc : Numeral.isUpperHex c = false) : tip name = some c := by
  rw [tip, hlist, List.reverse_append]
  change ((c :: front.reverse).dropWhile _).head? = _
  rw [List.dropWhile_cons_of_neg (by rw [hc]; exact Bool.false_ne_true)]
  rfl

theorem tip_label (target : Target) (n : Nat) : tip (label target n) = some 'l' := by
  rw [label, tip_append fun c hc => Numeral.isUpperHex_of_mem_padded (by decide) (by decide) hc]
  apply tip_of_concat (target.name.toList ++ "_labe".toList) _ (by decide)
  rw [String.toList_append, List.append_assoc]
  rfl

theorem tip_frameRoutine (target : Target) (k : Nat) : tip (frameRoutine target k) = some 'e' := by
  have hdigits : ∀ c ∈ (Nat.repr k).toList, Numeral.isUpperHex c = true := fun c hc => by
    rw [Numeral.isUpperHex, isDigit_of_mem_repr hc, Bool.true_or]
  rw [frameRoutine, routine, ← String.append_assoc, tip_append hdigits]
  apply tip_of_concat (("animation_" ++ target.name ++ "_").toList ++ "fram".toList) _ (by decide)
  rw [String.toList_append, List.append_assoc]
  rfl

theorem tip_initRoutine (target : Target) : tip (initRoutine target) = some 't' := by
  apply tip_of_concat (("animation_" ++ target.name ++ "_").toList ++ "ini".toList) _ (by decide)
  rw [initRoutine, routine, String.toList_append, List.append_assoc]
  rfl

theorem label_ne_frameRoutine (target : Target) (n k : Nat) : label target n ≠ frameRoutine target k := by
  intro h
  have htip := congrArg tip h
  rw [tip_label, tip_frameRoutine] at htip
  exact absurd htip (by decide)

theorem label_ne_initRoutine (target : Target) (n : Nat) : label target n ≠ initRoutine target := by
  intro h
  have htip := congrArg tip h
  rw [tip_label, tip_initRoutine] at htip
  exact absurd htip (by decide)

theorem frameRoutine_ne_initRoutine (target : Target) (k : Nat) :
    frameRoutine target k ≠ initRoutine target := by
  intro h
  have htip := congrArg tip h
  rw [tip_frameRoutine, tip_initRoutine] at htip
  exact absurd htip (by decide)

/-! ### Symbols an assembler accepts -/

/-- The names that a target gives are symbols. -/
structure Named (target : Target) : Prop where
  name : Source.isName target.name = true
  screen : Source.isName target.screen = true

section Names

variable {target : Target} (hnamed : Named target)
include hnamed

theorem isName_label (n : Nat) : Source.isName (label target n) = true := by
  refine Source.isName_append (Source.isName_append hnamed.name (List.all_eq_true.1 (by decide))) fun c hc => ?_
  exact Source.isWordChar_of_isUpperHex (Numeral.isUpperHex_of_mem_padded (by decide) (by decide) hc)

theorem isName_routine {suffix : String} (hsuffix : ∀ c ∈ suffix.toList, Source.isWordChar c = true) :
    Source.isName (routine target suffix) = true := by
  refine Source.isName_append (Source.isName_append (Source.isName_append (by decide) ?_)
    (List.all_eq_true.1 (by decide))) hsuffix
  exact Source.isWordChar_of_isName hnamed.name

theorem isName_frameRoutine (k : Nat) : Source.isName (frameRoutine target k) = true := by
  apply isName_routine hnamed
  intro c hc
  rw [String.toList_append, List.mem_append] at hc
  rcases hc with hc | hc
  · exact List.all_eq_true.1 (by decide : "frame".toList.all Source.isWordChar = true) c hc
  · exact Source.isWordChar_of_isDigit (isDigit_of_mem_repr hc)

theorem isName_initRoutine : Source.isName (initRoutine target) = true :=
  isName_routine hnamed (List.all_eq_true.1 (by decide))

end Names

end Petscii.Program
