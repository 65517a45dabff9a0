import Petscii.Asm.Read

/-!
# Numerals read back

Numbers are written in base ten, file numbers with zeros in front, and addresses and label numbers in base
sixteen with zeros in front. Each of these spellings is read back as the number it was written for, so
different numbers are written differently.
-/

namespace Petscii

namespace Numeral

/-! ### Padded numbers -/

theorem digitValue_digitChar : ∀ d, d < 16 → digitValue (Nat.digitChar d).toUpper = some d := by
  decide

/-- Without underscores a numeral is read from the left. -/
theorem value_append {base max n m : Nat} {front : List Char}
    (h : value base max false n front = .ok m) (back : List Char) :
    value base max false n (front ++ back) = value base max false m back := by
  induction front generalizing n with
  | nil =>
    cases h
    rfl
  | cons c front ih =>
    simp only [List.cons_append, value, Bool.false_eq_true, and_false, if_false] at h ⊢
    cases hdigit : digitValue c with
    | none =>
      rw [hdigit] at h
      cases h
    | some d =>
      simp only [hdigit] at h ⊢
      split at h
      · cases h
      · split at h
        · cases h
        · next hbase hmax =>
          rw [if_neg hbase, if_neg hmax]
          exact ih h

def isUpperHex (c : Char) : Bool :=
  c.isDigit || ('A' ≤ c && c ≤ 'F')

theorem isUpperHex_digitChar : ∀ d, d < 16 → isUpperHex (Nat.digitChar d).toUpper = true := by
  decide

section Base

variable {base : Nat} (hlow : 1 < base) (hhigh : base ≤ 16)
include hhigh

theorem value_singleton (max n : Nat) {d : Nat} (hd : d < base) (hmax : n * base + d ≤ max) :
    value base max false n [(Nat.digitChar d).toUpper] = .ok (n * base + d) := by
  simp only [value, Bool.false_eq_true, and_false, if_false, digitValue_digitChar d (by omega)]
  rw [if_neg (by omega), if_neg (by omega)]

include hlow

theorem value_toDigits {max : Nat} (n : Nat) (hmax : n ≤ max) :
    value base max false 0 ((Nat.toDigits base n).map Char.toUpper) = .ok n := by
  induction n using Nat.strongRecOn with
  | _ n ih =>
    rw [Nat.toDigits_eq_if hlow]
    split
    · next hsmall =>
      rw [List.map_singleton, value_singleton hhigh max 0 hsmall (by omega), Nat.zero_mul, Nat.zero_add]
    · next hlarge =>
      have hdiv : n / base < n := Nat.div_lt_self (by omega) hlow
      have hmod : n % base < base := Nat.mod_lt n (by omega)
      have hsum : n / base * base + n % base = n := Nat.div_add_mod' n base
      rw [List.map_append, value_append (ih (n / base) hdiv (by omega)), List.map_singleton,
        value_singleton hhigh max _ hmod (by omega), hsum]

omit hhigh in
theorem value_zeros (max k : Nat) : value base max false 0 (List.replicate k '0') = .ok 0 := by
  induction k with
  | zero => rfl
  | succ k ih =>
    have hzero : digitValue '0' = some 0 := rfl
    rw [List.replicate_succ]
    simp only [value, Bool.false_eq_true, and_false, if_false, hzero]
    rw [if_neg (by omega), if_neg (by omega), Nat.zero_mul]
    exact ih

theorem value_padded (max : Nat) {n : Nat} (hmax : n ≤ max) :
    value base max false 0 (padded base n).toList = .ok n := by
  rw [padded, String.toList_ofList, List.leftpad, value_append (value_zeros hlow _ _)]
  exact value_toDigits hlow hhigh n hmax

theorem padded_injective {m n : Nat} (h : padded base m = padded base n) : m = n := by
  have hm := value_padded hlow hhigh (max m n) (Nat.le_max_left m n)
  rw [h, value_padded hlow hhigh (max m n) (Nat.le_max_right m n)] at hm
  cases hm
  rfl

theorem append_padded_injective {front : String} {m n : Nat} (h : front ++ padded base m = front ++ padded base n) :
    m = n := by
  have hlist := congrArg String.toList h
  rw [String.toList_append, String.toList_append] at hlist
  exact padded_injective hlow hhigh (String.toList_inj.1 (List.append_cancel_left hlist))

theorem isUpperHex_of_mem_toDigits {n : Nat} {c : Char} (hc : c ∈ (Nat.toDigits base n).map Char.toUpper) :
    isUpperHex c = true := by
  induction n using Nat.strongRecOn with
  | _ n ih =>
    rw [Nat.toDigits_eq_if hlow] at hc
    split at hc
    · next hsmall =>
      cases List.mem_singleton.1 hc
      exact isUpperHex_digitChar n (by omega)
    · rw [List.map_append, List.mem_append, List.map_singleton, List.mem_singleton] at hc
      have hdiv : n / base < n := Nat.div_lt_self (by omega) hlow
      have hmod : n % base < base := Nat.mod_lt n (by omega)
      rcases hc with hc | rfl
      · exact ih (n / base) hdiv hc
      · exact isUpperHex_digitChar _ (by omega)

theorem isUpperHex_of_mem_padded {n : Nat} {c : Char} (hc : c ∈ (padded base n).toList) :
    isUpperHex c = true := by
  rw [padded, String.toList_ofList, List.leftpad, List.mem_append] at hc
  rcases hc with hc | hc
  · rw [List.eq_of_mem_replicate hc]
    decide
  · exact isUpperHex_of_mem_toDigits hlow hhigh hc

end Base

theorem padded_ne_nil (base n : Nat) : (padded base n).toList ≠ [] := by
  rw [padded, String.toList_ofList, List.leftpad]
  simp [Nat.toDigits_ne_nil]

end Numeral

/-! ### Base ten -/

theorem isDigit_of_mem_repr {n : Nat} {c : Char} (hc : c ∈ (Nat.repr n).toList) : c.isDigit = true := by
  rw [Nat.toList_repr] at hc
  exact Nat.isDigit_of_mem_toDigits (by decide) (by decide) hc

theorem toList_repr_ne_nil (n : Nat) : (Nat.repr n).toList ≠ [] := by
  rw [Nat.toList_repr]
  exact Nat.toDigits_ne_nil

namespace Asm

theorem readNat_repr (n : Nat) : readNat (Nat.repr n).toList = some n := by
  have hdigits : ¬ ((Nat.repr n).toList.any fun c => !c.isDigit) = true := by
    rw [List.any_eq_true]
    rintro ⟨c, hc, hno⟩
    rw [isDigit_of_mem_repr hc] at hno
    cases hno
  rw [readNat, if_neg (not_or.2 ⟨toList_repr_ne_nil n, hdigits⟩), Nat.toList_repr,
    Nat.ofDigitChars_ten_toDigits]

theorem repr_nat_injective {m n : Nat} (h : Nat.repr m = Nat.repr n) : m = n := by
  have hm := readNat_repr m
  rw [h, readNat_repr] at hm
  cases hm
  rfl

theorem readInt_repr (z : Int) : readInt (Int.repr z).toList = some z := by
  cases z with
  | ofNat n =>
    change readInt (Nat.repr n).toList = _
    obtain ⟨c, rest, hlist⟩ := List.exists_cons_of_ne_nil (toList_repr_ne_nil n)
    have hdigit : c.isDigit = true := isDigit_of_mem_repr (hlist ▸ List.mem_cons_self)
    have hminus : c ≠ '-' := by
      rintro rfl
      cases hdigit
    have hread := readNat_repr n
    rw [hlist] at hread ⊢
    rw [readInt, hread]
    · rfl
    · rintro _ ⟨⟩
      exact hminus rfl
  | negSucc n =>
    have htext : (Int.repr (.negSucc n)).toList = '-' :: (Nat.repr (n + 1)).toList := by
      rw [Int.repr_eq_if, if_neg (by omega), String.toList_append]
      rfl
    rw [htext, readInt, readNat_repr]
    rfl

theorem readAtom_address (a : UInt16) : readAtom (Numeral.address a).toList = some (.address a) := by
  have hlt := a.toNat_lt
  have hvalue : Numeral.value 16 0xFFFF false 0 (Numeral.padded 16 a.toNat).toList = .ok a.toNat :=
    Numeral.value_padded (by decide) (by decide) 0xFFFF (by omega)
  rw [Numeral.address, String.toList_append]
  change readAtom ('$' :: (Numeral.padded 16 a.toNat).toList) = _
  rw [readAtom, hvalue]
  simp only [if_neg (Numeral.padded_ne_nil 16 a.toNat)]
  rw [Nat.toUInt16, UInt16.ofNat_toNat]

end Asm

end Petscii
