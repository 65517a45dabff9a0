import Mathlib.Data.Nat.Digits.Defs
import Petscii.Proofs.Text.Numeral

/-!
# The addresses that are read

An address is to be written in hexadecimal digits behind `$`, `0x` or `0X`, or in decimal digits. These texts are
described without the reader, by the place of each digit among the digits, and so are all the texts that it takes:
without a dollar sign it also takes binary and octal numerals and underscores between digits, and a zero in front
makes a numeral octal. So a text is read as it is to be written unless it is one of these.
-/

namespace Petscii.Numeral

/-! ### How numbers are written -/

/-- The place of a character among the digits. What is no digit has the place behind the last. -/
def place (c : Char) : Nat :=
  min ("0123456789abcdef".toList.idxOf c) ("0123456789ABCDEF".toList.idxOf c)

/-- One or more digits of a base that stand for a number. -/
structure Spells (base : Nat) (digits : List Char) (n : Nat) : Prop where
  ne_nil : digits ≠ []
  lt_base : ∀ c ∈ digits, place c < base
  ofDigits_eq : Nat.ofDigits base (digits.map place).reverse = n

/-- How an address is to be written. -/
inductive Proper : List Char → Nat → Prop
  | dollar {digits : List Char} {n : Nat} : Spells 16 digits n → Proper ('$' :: digits) n
  | hexadecimal {mark : Char} {digits : List Char} {n : Nat} :
    mark = 'x' ∨ mark = 'X' → Spells 16 digits n → Proper ('0' :: mark :: digits) n
  | decimal {digits : List Char} {n : Nat} : Spells 10 digits n → Proper digits n

/-- The underscores of a text stand between other characters. -/
structure Spaced (text : List Char) : Prop where
  head : text.head? ≠ some '_'
  last : text.getLast? ≠ some '_'
  apart : text.IsChain fun c d => c ≠ '_' ∨ d ≠ '_'

def bare (text : List Char) : List Char :=
  text.filter (· ≠ '_')

/-- The marks behind a zero, and the bases that they announce. -/
def marks : List (Char × Nat) :=
  [('b', 2), ('B', 2), ('o', 8), ('O', 8), ('x', 16), ('X', 16)]

/-- Numerals that announce their own base. The digits of an octal one may stand behind the zero without a mark. -/
inductive Announces : List Char → Nat → Prop
  | marked {mark : Char} {base : Nat} {digits : List Char} {n : Nat} :
    (mark, base) ∈ marks → Spaced ('0' :: mark :: digits) → Spells base (bare digits) n →
      Announces ('0' :: mark :: digits) n
  | octal {digits : List Char} {n : Nat} :
    Spaced ('0' :: digits) → Spells 8 (bare ('0' :: digits)) n → Announces ('0' :: digits) n
  | decimal {digits : List Char} {n : Nat} :
    digits.head? ≠ some '0' → Spaced digits → Spells 10 (bare digits) n → Announces digits n

/-- The texts that are read as addresses, and what they are read as. -/
inductive Taken : List Char → Nat → Prop
  | dollar {digits : List Char} {n : Nat} : Spells 16 digits n → Taken ('$' :: digits) n
  | numeral {digits : List Char} {n : Nat} : Announces digits n → Taken digits n

/-- The texts that are not read as they are to be written. -/
inductive Misread : List Char → Prop
  | underscore {text : List Char} {n : Nat} : '_' ∈ text → Taken text n → n ≤ 0xFFFF → Misread text
  | marked {mark : Char} {digits : List Char} {n : Nat} :
    mark ∈ ['b', 'B', 'o', 'O'] → Taken ('0' :: mark :: digits) n → n ≤ 0xFFFF → Misread ('0' :: mark :: digits)
  /-- Behind a zero, more than one significant digit is read in the wrong base. -/
  | octal {digits : List Char} {m n : Nat} :
    Spells 8 ('0' :: digits) m → m ≤ 0xFFFF → Spells 10 ('0' :: digits) n → 8 ≤ n → Misread ('0' :: digits)
  /-- Behind a zero, eight and nine are not read at all. -/
  | refused {c : Char} {digits : List Char} {n : Nat} :
    c ∈ digits → 8 ≤ place c → Spells 10 ('0' :: digits) n → n ≤ 0xFFFF → Misread ('0' :: digits)

/-! ### Digits -/

theorem place_ofNat : ∀ n, n < 128 →
    place (Char.ofNat n) = min ((digitValue (Char.ofNat n)).getD 16) 16 := by
  decide +kernel

theorem place_eq (c : Char) : place c = min ((digitValue c).getD 16) 16 := by
  by_cases hc : c.toNat < 128
  · have h := place_ofNat c.toNat hc
    rwa [Char.ofNat_toNat] at h
  · have hwide : ∀ {d : Char}, d.toNat < 128 → ¬ c ≤ d := by
      intro d hd hle
      have := UInt32.le_iff_toNat_le.1 hle
      exact hc (Nat.lt_of_le_of_lt this hd)
    have hvalue : digitValue c = none := by
      rw [digitValue, if_neg fun h => hwide (by decide) h.2, if_neg fun h => hwide (by decide) h.2,
        if_neg fun h => hwide (by decide) h.2]
    have hnone : ∀ digits : List Char, digits.all (·.toNat < 128) = true → digits.idxOf c = digits.length := by
      intro digits hdigits
      exact List.idxOf_eq_length fun hmem => hc (of_decide_eq_true (List.all_eq_true.1 hdigits c hmem))
    rw [place, hvalue, hnone _ (by decide), hnone _ (by decide)]
    rfl

theorem place_underscore : place '_' = 16 := by
  decide

section Value

variable {base : Nat} (hhigh : base ≤ 16)
include hhigh

theorem value_cons (max n : Nat) (c : Char) (rest : List Char) :
    value base max false n (c :: rest) =
      if base ≤ place c then .error .malformed
      else if max < n * base + place c then .error .outOfRange
      else value base max false (n * base + place c) rest := by
  have hplace := place_eq c
  simp only [value, Bool.false_eq_true, and_false, if_false]
  cases hdigit : digitValue c with
  | none =>
    have hlast : place c = 16 := by rw [hplace, hdigit]; rfl
    rw [if_pos (by omega)]
  | some d =>
    have hmin : place c = min d 16 := by rw [hplace, hdigit]; rfl
    by_cases hd : base ≤ d
    · simp only [if_pos hd]
      rw [if_pos (by omega)]
    · have heq : place c = d := by omega
      simp only [heq]

variable (hlow : 0 < base)
include hlow

omit hhigh in
theorem le_foldl (digits : List Nat) (n : Nat) : n ≤ digits.foldl (fun n d => n * base + d) n := by
  induction digits generalizing n with
  | nil => exact Nat.le_refl n
  | cons d digits ih =>
    calc n ≤ n * base := Nat.le_mul_of_pos_right n hlow
      _ ≤ n * base + d := Nat.le_add_right _ _
      _ ≤ _ := ih _

/-- The digits behind a part that is worth `n` are read in their places. -/
theorem value_eq_ok_iff {max n m : Nat} (hn : n ≤ max) (digits : List Char) :
    value base max false n digits = .ok m ↔
      (∀ c ∈ digits, place c < base) ∧ (digits.map place).foldl (fun n d => n * base + d) n = m ∧ m ≤ max := by
  induction digits generalizing n with
  | nil =>
    simp only [value, List.not_mem_nil, false_implies, implies_true, List.map_nil, List.foldl_nil, true_and,
      Except.ok.injEq]
    exact ⟨fun h => ⟨h, h ▸ hn⟩, And.left⟩
  | cons c digits ih =>
    rw [value_cons hhigh, List.forall_mem_cons, List.map_cons, List.foldl_cons]
    by_cases hc : base ≤ place c
    · rw [if_pos hc]
      exact iff_of_false (by simp) fun h => absurd h.1.1 (Nat.not_lt.2 hc)
    · rw [if_neg hc]
      by_cases hmax : max < n * base + place c
      · rw [if_pos hmax]
        -- the rest cannot make the number smaller
        have hle := le_foldl hlow (digits.map place) (n * base + place c)
        exact iff_of_false (by simp) fun h => absurd h.2.2 (by omega)
      · rw [if_neg hmax, ih (Nat.not_lt.1 hmax), and_assoc]
        exact ⟨fun h => ⟨Nat.not_le.1 hc, h⟩, And.right⟩

omit hhigh hlow in
theorem ofDigits_reverse (digits : List Nat) :
    Nat.ofDigits base digits.reverse = digits.foldl (fun n d => n * base + d) 0 := by
  rw [Nat.ofDigits_eq_foldr, List.foldr_reverse]
  congr
  funext n d
  rw [Nat.cast_id, Nat.add_comm, Nat.mul_comm]

theorem value_eq_ok_iff_spells {max n : Nat} {digits : List Char} (hne : digits ≠ []) :
    value base max false 0 digits = .ok n ↔ Spells base digits n ∧ n ≤ max := by
  rw [value_eq_ok_iff hhigh hlow (Nat.zero_le max), ← ofDigits_reverse]
  exact ⟨fun h => ⟨⟨hne, h.1, h.2.1⟩, h.2.2⟩, fun h => ⟨h.1.lt_base, h.1.ofDigits_eq, h.2⟩⟩

end Value

theorem exists_spells {base : Nat} {digits : List Char} (hne : digits ≠ []) (hlt : ∀ c ∈ digits, place c < base) :
    ∃ n, Spells base digits n :=
  ⟨_, hne, hlt, rfl⟩

theorem Spells.unique {base m n : Nat} {digits : List Char} (hm : Spells base digits m) (hn : Spells base digits n) :
    m = n :=
  hm.ofDigits_eq.symm.trans hn.ofDigits_eq

theorem Spells.notMem {base n : Nat} {digits : List Char} (h : Spells base digits n) {c : Char} (hc : base ≤ place c) :
    c ∉ digits :=
  fun hmem => absurd (h.lt_base c hmem) (Nat.not_lt.2 hc)

/-- Octal digits are worth the same in base ten only if there is no more than one that counts. -/
theorem ofDigits_eight_ten {digits : List Nat} (hlt : ∀ d ∈ digits, d < 8) :
    Nat.ofDigits 8 digits ≤ Nat.ofDigits 10 digits ∧
      (Nat.ofDigits 8 digits = Nat.ofDigits 10 digits ↔ Nat.ofDigits 10 digits < 8) := by
  cases digits with
  | nil => simp
  | cons d digits =>
    have hd := hlt d List.mem_cons_self
    have hle := Nat.ofDigits_monotone digits (show 8 ≤ 10 by omega)
    simp only [Nat.ofDigits_cons]
    omega

theorem Spells.eight_ten {m n : Nat} {digits : List Char} (hm : Spells 8 digits m) (hn : Spells 10 digits n) :
    m ≤ n ∧ (m = n ↔ n < 8) := by
  have hlt : ∀ d ∈ (digits.map place).reverse, d < 8 := by
    intro d hd
    rw [List.mem_reverse, List.mem_map] at hd
    obtain ⟨c, hc, heq⟩ := hd
    exact heq ▸ hm.lt_base c hc
  rw [← hm.ofDigits_eq, ← hn.ofDigits_eq]
  exact ofDigits_eight_ten hlt

/-! ### Underscores -/

theorem value_bare (base max n : Nat) (text : List Char) :
    value base max true n text = value base max false n (bare text) := by
  induction text generalizing n with
  | nil => rfl
  | cons c text ih =>
    by_cases hc : c = '_'
    · have hbare : bare (c :: text) = bare text := by simp [bare, hc]
      rw [hbare, value, if_pos ⟨hc, rfl⟩, ih]
    · have hbare : bare (c :: text) = c :: bare text := by simp [bare, hc]
      simp only [hbare, value, hc, false_and, if_false, Bool.false_eq_true, and_false, ih]

theorem bare_of_notMem {text : List Char} (h : '_' ∉ text) : bare text = text := by
  rw [bare, List.filter_eq_self]
  intro c hc
  exact decide_eq_true fun heq => h (heq ▸ hc)

theorem bare_ne_nil {text : List Char} (hne : text ≠ []) (hlast : text.getLast? ≠ some '_') : bare text ≠ [] := by
  have hmem : text.getLast hne ∈ bare text := by
    refine List.mem_filter.2 ⟨List.getLast_mem hne, decide_eq_true fun heq => hlast ?_⟩
    rw [List.getLast?_eq_some_getLast hne, heq]
  exact List.ne_nil_of_mem hmem

theorem spaced_of_notMem {text : List Char} (h : '_' ∉ text) : Spaced text where
  head hhead := h (List.mem_of_head? hhead)
  last hlast := h (List.mem_of_getLast? hlast)
  apart := by
    induction text with
    | nil => exact .nil
    | cons c text ih =>
      rw [List.mem_cons, not_or] at h
      cases text with
      | nil => exact .singleton c
      | cons d text => exact .cons_cons (.inl (Ne.symm h.1)) (ih h.2)

/-- A character in front is as good as any other. -/
theorem spaced_cons {c d : Char} (hc : c ≠ '_') (hd : d ≠ '_') (text : List Char) :
    Spaced (c :: d :: text) ↔ Spaced (d :: text) := by
  constructor
  · intro h
    refine ⟨by simpa using hd, ?_, (List.isChain_cons_cons.1 h.apart).2⟩
    rw [← List.getLast?_cons_cons]
    exact h.last
  · intro h
    refine ⟨by simpa using hc, ?_, List.isChain_cons_cons.2 ⟨.inl hc, h.apart⟩⟩
    rw [List.getLast?_cons_cons]
    exact h.last

/-- Behind a digit, an underscore may follow if another digit comes behind it. -/
theorem spaced_cons_underscore {c d : Char} (hc : c ≠ '_') (text : List Char) :
    Spaced (c :: '_' :: d :: text) ↔ Spaced (d :: text) := by
  constructor
  · intro h
    obtain ⟨_, hchain⟩ := List.isChain_cons_cons.1 h.apart
    obtain ⟨hd, hrest⟩ := List.isChain_cons_cons.1 hchain
    refine ⟨by simpa using hd, ?_, hrest⟩
    rw [← List.getLast?_cons_cons, ← List.getLast?_cons_cons]
    exact h.last
  · intro h
    have hd : d ≠ '_' := by simpa using h.head
    refine ⟨by simpa using hc, ?_, ?_⟩
    · rw [List.getLast?_cons_cons, List.getLast?_cons_cons]
      exact h.last
    · exact List.isChain_cons_cons.2 ⟨.inl hc, List.isChain_cons_cons.2 ⟨.inr hd, h.apart⟩⟩

theorem separated_iff {c : Char} (hc : c ≠ '_') (afterDigit : Bool) (text : List Char) :
    separated afterDigit text = true ↔ Spaced (if afterDigit then c :: text else text) := by
  fun_induction separated afterDigit text generalizing c with
  | case1 afterDigit =>
    refine iff_of_true rfl (spaced_of_notMem ?_)
    cases afterDigit with
    | true => simpa using hc.symm
    | false => simp
  | case2 afterDigit =>
    refine iff_of_false Bool.false_ne_true fun h => h.last ?_
    cases afterDigit <;> rfl
  | case3 afterDigit rest hrest ih =>
    cases afterDigit with
    | true =>
      obtain ⟨d, rest, heq⟩ := List.exists_cons_of_ne_nil hrest
      subst heq
      rw [Bool.true_and, ih hc]
      exact (spaced_cons_underscore hc rest).symm
    | false => exact iff_of_false (by simp) fun h => h.head rfl
  | case4 afterDigit d rest _ hd ih =>
    rw [ih hd]
    cases afterDigit with
    | true => exact (spaced_cons hc hd rest).symm
    | false => exact Iff.rfl

/-! ### Numerals that announce their base -/

theorem toLower_ofNat : ∀ n, n < 128 → ∀ p ∈ [('b', 'B'), ('o', 'O'), ('x', 'X')],
    (Char.ofNat n).toLower = p.1 ↔ Char.ofNat n = p.1 ∨ Char.ofNat n = p.2 := by
  decide

theorem toLower_eq_iff {lower upper : Char} (hmem : (lower, upper) ∈ [('b', 'B'), ('o', 'O'), ('x', 'X')])
    (mark : Char) : mark.toLower = lower ↔ mark = lower ∨ mark = upper := by
  by_cases hmark : mark.toNat < 128
  · have h := toLower_ofNat mark.toNat hmark _ hmem
    rwa [Char.ofNat_toNat] at h
  · have hascii : ∀ p ∈ [('b', 'B'), ('o', 'O'), ('x', 'X')], p.1.toNat < 128 ∧ p.2.toNat < 128 := by decide
    have hlower : mark.toLower = mark := by
      apply dif_neg
      intro h
      exact hmark (Nat.lt_of_le_of_lt (UInt32.le_iff_toNat_le.1 h.2) (by decide))
    rw [hlower]
    refine ⟨.inl, fun h => h.elim id fun heq => absurd ?_ hmark⟩
    rw [heq]
    exact (hascii _ hmem).2

theorem mem_marks_iff {mark : Char} {base : Nat} :
    (mark, base) ∈ marks ↔ mark.toLower = 'b' ∧ base = 2 ∨ mark.toLower = 'o' ∧ base = 8 ∨
      mark.toLower = 'x' ∧ base = 16 := by
  rw [toLower_eq_iff (by decide : ('b', 'B') ∈ _), toLower_eq_iff (by decide : ('o', 'O') ∈ _),
    toLower_eq_iff (by decide : ('x', 'X') ∈ _)]
  simp only [marks, List.mem_cons, Prod.mk.injEq, List.not_mem_nil, or_false, or_and_right, or_assoc]

theorem marks_unique {mark : Char} {b b' : Nat} (h : (mark, b) ∈ marks) (h' : (mark, b') ∈ marks) : b = b' := by
  have hall : ∀ p ∈ marks, ∀ q ∈ marks, p.1 = q.1 → p.2 = q.2 := by decide
  exact hall _ h _ h' rfl

/-- A mark announces a base up to sixteen, and is no decimal digit. -/
theorem marks_bounds {mark : Char} {base : Nat} (h : (mark, base) ∈ marks) :
    0 < base ∧ base ≤ 16 ∧ mark ≠ '_' ∧ 10 ≤ place mark := by
  have hall : ∀ p ∈ marks, 0 < p.2 ∧ p.2 ≤ 16 ∧ p.1 ≠ '_' ∧ 10 ≤ place p.1 := by decide
  exact hall _ h

theorem marks_hexadecimal {mark : Char} {base : Nat} (h : (mark, base) ∈ marks) (hother : mark ∉ ['b', 'B', 'o', 'O']) :
    (mark = 'x' ∨ mark = 'X') ∧ base = 16 := by
  have hall : ∀ p ∈ marks, p.1 ∉ ['b', 'B', 'o', 'O'] → (p.1 = 'x' ∨ p.1 = 'X') ∧ p.2 = 16 := by decide
  exact hall _ h hother

/-- The start of a numeral: a mark behind a zero, a zero alone, or none. -/
theorem radix_cases (digits : List Char) :
    (∃ mark base body, digits = '0' :: mark :: body ∧ (mark, base) ∈ marks ∧ body ≠ [] ∧
      radix digits = (base, body, true)) ∨
    (∃ body, digits = '0' :: body ∧ (∀ mark base rest, body = mark :: rest → (mark, base) ∈ marks → rest = []) ∧
      radix digits = (8, body, true)) ∨
    digits.head? ≠ some '0' ∧ radix digits = (10, digits, false) := by
  fun_cases radix digits with
  | case1 mark d rest hmark => exact .inl ⟨mark, 2, d :: rest, rfl, mem_marks_iff.2 (.inl ⟨hmark, rfl⟩), nofun, rfl⟩
  | case2 mark d rest _ hmark =>
    exact .inl ⟨mark, 8, d :: rest, rfl, mem_marks_iff.2 (.inr (.inl ⟨hmark, rfl⟩)), nofun, rfl⟩
  | case3 mark d rest _ _ hmark =>
    exact .inl ⟨mark, 16, d :: rest, rfl, mem_marks_iff.2 (.inr (.inr ⟨hmark, rfl⟩)), nofun, rfl⟩
  | case4 mark d rest hb ho hx =>
    refine .inr (.inl ⟨mark :: d :: rest, rfl, ?_, rfl⟩)
    intro _ _ _ heq hmem
    cases heq
    obtain ⟨h, _⟩ | ⟨h, _⟩ | ⟨h, _⟩ := mem_marks_iff.1 hmem
    · exact absurd h hb
    · exact absurd h ho
    · exact absurd h hx
  | case5 body hbody =>
    refine .inr (.inl ⟨body, rfl, ?_, rfl⟩)
    intro mark base rest heq _
    cases rest with
    | nil => rfl
    | cons d rest => exact absurd heq (hbody mark d rest)
  | case6 _ _ hzero =>
    refine .inr (.inr ⟨?_, rfl⟩)
    intro hhead
    obtain ⟨rest, heq⟩ := List.head?_eq_some_iff.1 hhead
    exact hzero rest heq

theorem unsigned_of_radix {digits body : List Char} {base max n : Nat} {marked : Bool} (hne : digits ≠ [])
    (hradix : radix digits = (base, body, marked)) :
    unsigned max digits = .ok n ↔ value base max false 0 (bare body) = .ok n ∧ separated marked body = true := by
  simp only [unsigned, if_neg hne, hradix, ← value_bare]
  cases value base max true 0 body with
  | error fault => simp
  | ok m => cases separated marked body <;> simp

/-- Digits of a text with its underscores in place. -/
theorem value_spaced_iff {base max n : Nat} (hlow : 0 < base) (hhigh : base ≤ 16) {text digits : List Char}
    (hne : Spaced text → digits ≠ []) :
    value base max false 0 digits = .ok n ∧ Spaced text ↔ (Spaced text ∧ Spells base digits n) ∧ n ≤ max := by
  rw [and_comm, and_assoc]
  exact and_congr_right fun hspaced => value_eq_ok_iff_spells hhigh hlow (hne hspaced)

theorem announces_marked_iff {mark : Char} {base n : Nat} {body : List Char} (hmark : (mark, base) ∈ marks) :
    Announces ('0' :: mark :: body) n ↔ Spaced ('0' :: mark :: body) ∧ Spells base (bare body) n := by
  constructor
  · intro h
    obtain ⟨hmark', hspaced, hspells⟩ | ⟨_, hspells⟩ | ⟨hhead, _⟩ := h
    · exact ⟨hspaced, marks_unique hmark hmark' ▸ hspells⟩
    · obtain ⟨_, _, hline, hplace⟩ := marks_bounds hmark
      refine absurd ?_ (hspells.notMem (by omega : 8 ≤ place mark))
      exact List.mem_filter.2 ⟨by simp, decide_eq_true hline⟩
    · exact absurd rfl hhead
  · intro ⟨hspaced, hspells⟩
    exact .marked hmark hspaced hspells

theorem announces_zero_iff {n : Nat} {body : List Char}
    (hnone : ∀ mark base rest, body = mark :: rest → (mark, base) ∈ marks → rest = []) :
    Announces ('0' :: body) n ↔ Spaced ('0' :: body) ∧ Spells 8 (bare ('0' :: body)) n := by
  constructor
  · intro h
    cases h with
    | marked hmark _ hspells =>
      -- a mark announces nothing if no digit follows
      cases hnone _ _ _ rfl hmark
      exact absurd rfl hspells.ne_nil
    | octal hspaced hspells => exact ⟨hspaced, hspells⟩
    | decimal hhead => exact absurd rfl hhead
  · intro ⟨hspaced, hspells⟩
    exact .octal hspaced hspells

theorem announces_decimal_iff {n : Nat} {digits : List Char} (hhead : digits.head? ≠ some '0') :
    Announces digits n ↔ Spaced digits ∧ Spells 10 (bare digits) n := by
  constructor
  · intro h
    cases h with
    | marked => exact absurd rfl hhead
    | octal => exact absurd rfl hhead
    | decimal _ hspaced hspells => exact ⟨hspaced, hspells⟩
  · intro ⟨hspaced, hspells⟩
    exact .decimal hhead hspaced hspells

/-- The numerals that are read are those that announce their base and are small enough. -/
theorem unsigned_eq_ok_iff {max n : Nat} {digits : List Char} :
    unsigned max digits = .ok n ↔ Announces digits n ∧ n ≤ max := by
  by_cases hne : digits = []
  · subst hne
    rw [announces_decimal_iff (by simp)]
    exact iff_of_false nofun fun h => h.1.2.ne_nil rfl
  · have hzero : '0' ≠ '_' := by decide
    obtain ⟨mark, base, body, rfl, hmark, hbody, hradix⟩ | ⟨body, rfl, hnone, hradix⟩ | ⟨hhead, hradix⟩ :=
      radix_cases digits
    · obtain ⟨hlow, hhigh, hline, _⟩ := marks_bounds hmark
      rw [unsigned_of_radix hne hradix, separated_iff hline, if_pos rfl, announces_marked_iff hmark,
        spaced_cons hzero hline]
      apply value_spaced_iff hlow hhigh
      intro hspaced
      apply bare_ne_nil hbody
      obtain ⟨d, rest, rfl⟩ := List.exists_cons_of_ne_nil hbody
      exact hspaced.last
    · have hbare : bare ('0' :: body) = '0' :: bare body := rfl
      have hvalue : value 8 max false 0 (bare body) = value 8 max false 0 (bare ('0' :: body)) := by
        rw [hbare, value_cons (by decide)]
        rfl
      rw [unsigned_of_radix hne hradix, separated_iff hzero, if_pos rfl, announces_zero_iff hnone, hvalue]
      exact value_spaced_iff (by decide) (by decide) fun _ => List.cons_ne_nil _ _
    · rw [unsigned_of_radix hne hradix, separated_iff hzero, if_neg Bool.false_ne_true, announces_decimal_iff hhead]
      exact value_spaced_iff (by decide) (by decide) fun hspaced => bare_ne_nil hne hspaced.last

/-! ### Addresses -/

theorem toUInt16_eq_iff {n : Nat} (hn : n ≤ 0xFFFF) {v : UInt16} : n.toUInt16 = v ↔ n = v.toNat := by
  rw [← UInt16.toNat_inj, Nat.toUInt16, UInt16.toNat_ofNat_of_lt' (Nat.lt_succ_of_le hn)]

theorem taken_dollar_iff {digits : List Char} {n : Nat} : Taken ('$' :: digits) n ↔ Spells 16 digits n := by
  constructor
  · intro h
    cases h with
    | dollar hspells => exact hspells
    | numeral h =>
      rw [announces_decimal_iff (by simp)] at h
      exact absurd List.mem_cons_self (h.2.notMem (by decide : 10 ≤ place '$'))
  · exact .dollar

theorem taken_numeral_iff {digits : List Char} {n : Nat} (hdollar : digits.head? ≠ some '$') :
    Taken digits n ↔ Announces digits n := by
  constructor
  · intro h
    cases h with
    | dollar => exact absurd rfl hdollar
    | numeral h => exact h
  · exact .numeral

theorem readAddress_eq_ok_iff {text : String} {v : UInt16} :
    readAddress text = .ok v ↔ Taken text.toList v.toNat := by
  have hv : v.toNat ≤ 0xFFFF := Nat.le_of_lt_succ v.toNat_lt
  rw [readAddress]
  split
  · next digits hdigits =>
    rw [hdigits, taken_dollar_iff]
    by_cases hne : digits = []
    · rw [if_pos hne]
      exact iff_of_false nofun fun h => h.ne_nil hne
    · have hread : ∀ {n : Nat}, value 16 0xFFFF false 0 digits = .ok n ↔ Spells 16 digits n ∧ n ≤ 0xFFFF :=
        value_eq_ok_iff_spells (by decide) (by decide) hne
      rw [if_neg hne, ← and_iff_left hv (a := Spells 16 digits v.toNat), ← hread]
      cases hvalue : value 16 0xFFFF false 0 digits with
      | error fault => exact iff_of_false nofun nofun
      | ok n => simp only [Except.ok.injEq, toUInt16_eq_iff (hread.1 hvalue).2]
  · next hdollar =>
    have hhead : text.toList.head? ≠ some '$' := by
      intro hhead
      obtain ⟨rest, heq⟩ := List.head?_eq_some_iff.1 hhead
      exact hdollar rest heq
    rw [taken_numeral_iff hhead, ← and_iff_left hv (a := Announces text.toList v.toNat), ← unsigned_eq_ok_iff]
    cases hvalue : unsigned 0xFFFF text.toList with
    | error fault => exact iff_of_false nofun nofun
    | ok n => simp only [Except.ok.injEq, toUInt16_eq_iff (unsigned_eq_ok_iff.1 hvalue).2]

/-! ### Addresses as they are to be written -/

theorem Proper.underscore_notMem {text : List Char} {n : Nat} (h : Proper text n) : '_' ∉ text := by
  have hline : ∀ {base : Nat} {digits : List Char} {n : Nat}, base ≤ 16 → Spells base digits n → '_' ∉ digits :=
    fun hbase hspells => hspells.notMem (place_underscore ▸ hbase)
  cases h with
  | dollar hspells => simpa using hline (by decide) hspells
  | hexadecimal hmark hspells =>
    have hline := hline (by decide) hspells
    obtain rfl | rfl := hmark <;> simpa using hline
  | decimal hspells => exact hline (by decide) hspells

/-- What starts with a zero is decimal, unless the mark of base sixteen follows. -/
theorem Proper.spells_ten {digits : List Char} {n : Nat} (h : Proper ('0' :: digits) n)
    (hlower : digits.head? ≠ some 'x') (hupper : digits.head? ≠ some 'X') : Spells 10 ('0' :: digits) n := by
  cases h with
  | hexadecimal hmark =>
    obtain rfl | rfl := hmark
    · exact absurd rfl hlower
    · exact absurd rfl hupper
  | decimal hspells => exact hspells

theorem Taken.octal {digits : List Char} {n : Nat} (h : Spells 8 ('0' :: digits) n) : Taken ('0' :: digits) n := by
  have hline : '_' ∉ '0' :: digits := h.notMem (by decide)
  apply Taken.numeral
  apply Announces.octal (spaced_of_notMem hline)
  rwa [bare_of_notMem hline]

/-- What is to be written is read as it should be, unless it is decimal with a zero in front. -/
theorem Proper.taken {text : List Char} {v : Nat} (hv : v ≤ 0xFFFF) (hno : ¬ Misread text)
    (h : Proper text v) : Taken text v := by
  have hline := h.underscore_notMem
  cases h with
  | dollar hspells => exact .dollar hspells
  | @hexadecimal mark digits _ hmark hspells =>
    have hmem : (mark, 16) ∈ marks := by
      obtain rfl | rfl := hmark <;> decide
    have hdigits : '_' ∉ digits := fun hmem => hline (by simp [hmem])
    refine .numeral (.marked hmem (spaced_of_notMem hline) ?_)
    rwa [bare_of_notMem hdigits]
  | decimal hspells =>
    by_cases hhead : text.head? = some '0'
    · obtain ⟨digits, rfl⟩ := List.head?_eq_some_iff.1 hhead
      have hlt : ∀ c ∈ '0' :: digits, place c < 8 := by
        intro c hc
        by_contra hlarge
        obtain rfl | hc := List.mem_cons.1 hc
        · exact hlarge (by decide)
        · exact hno (.refused hc (Nat.not_lt.1 hlarge) hspells hv)
      obtain ⟨m, height⟩ := exists_spells (List.cons_ne_nil _ _) hlt
      obtain ⟨hle, heq⟩ := height.eight_ten hspells
      by_cases hsmall : v < 8
      · rw [← heq.2 hsmall]
        exact .octal height
      · exact absurd (.octal height (by omega) hspells (by omega)) hno
    · refine .numeral (.decimal hhead (spaced_of_notMem hline) ?_)
      rwa [bare_of_notMem hline]

theorem Taken.proper {text : List Char} {v : Nat} (hv : v ≤ 0xFFFF) (hno : ¬ Misread text)
    (h : Taken text v) : Proper text v := by
  have hline : '_' ∉ text := fun hmem => hno (.underscore hmem h hv)
  cases h with
  | dollar hspells => exact .dollar hspells
  | numeral hnumeral =>
    cases hnumeral with
    | @marked mark base digits _ hmark hspaced hspells =>
      by_cases hother : mark ∈ ['b', 'B', 'o', 'O']
      · exact absurd (.marked hother (.numeral (.marked hmark hspaced hspells)) hv) hno
      · obtain ⟨hx, rfl⟩ := marks_hexadecimal hmark hother
        rw [bare_of_notMem fun hmem => hline (by simp [hmem])] at hspells
        exact .hexadecimal hx hspells
    | octal _ hspells =>
      rw [bare_of_notMem hline] at hspells
      have hlt : ∀ c ∈ _, place c < 10 := fun c hc => Nat.lt_trans (hspells.lt_base c hc) (by decide)
      obtain ⟨n, hten⟩ := exists_spells hspells.ne_nil hlt
      obtain ⟨_, heq⟩ := hspells.eight_ten hten
      by_cases hsmall : n < 8
      · rw [heq.2 hsmall]
        exact .decimal hten
      · exact absurd (.octal hspells hv hten (Nat.not_lt.1 hsmall)) hno
    | decimal _ _ hspells =>
      rw [bare_of_notMem hline] at hspells
      exact .decimal hspells

theorem not_taken {c : Char} {digits : List Char} {m n : Nat} (hc : c ∈ digits) (hplace : 8 ≤ place c)
    (hten : Spells 10 ('0' :: digits) m) : ¬ Taken ('0' :: digits) n := by
  rw [taken_numeral_iff (by simp)]
  intro h
  cases h with
  | marked hmark =>
    obtain ⟨_, _, _, hlarge⟩ := marks_bounds hmark
    exact hten.notMem hlarge (by simp)
  | octal _ hspells =>
    have hline : '_' ∉ '0' :: digits := hten.notMem (by decide)
    rw [bare_of_notMem hline] at hspells
    exact hspells.notMem hplace (List.mem_cons_of_mem _ hc)
  | decimal hhead => exact hhead rfl

theorem Misread.differs {text : List Char} (h : Misread text) :
    ∃ v ≤ 0xFFFF, ¬ (Taken text v ↔ Proper text v) := by
  cases h with
  | underscore hmem htaken hn => exact ⟨_, hn, fun hiff => (hiff.1 htaken).underscore_notMem hmem⟩
  | @marked mark digits n hmark htaken hn =>
    have hall : ['b', 'B', 'o', 'O'].all (fun c => c ≠ 'x' ∧ c ≠ 'X' ∧ 10 ≤ place c) = true := by decide
    obtain ⟨hlower, hupper, hplace⟩ := of_decide_eq_true (List.all_eq_true.1 hall mark hmark)
    refine ⟨n, hn, fun hiff => ?_⟩
    have hten := (hiff.1 htaken).spells_ten (by simpa using hlower) (by simpa using hupper)
    exact hten.notMem hplace (by simp)
  | @octal digits m n height hm hten hlarge =>
    refine ⟨m, hm, fun hiff => ?_⟩
    have hhead : ∀ {c : Char}, 8 ≤ place c → digits.head? ≠ some c :=
      fun hc hhead => height.notMem hc (List.mem_cons_of_mem _ (List.mem_of_head? hhead))
    have hsame := (hiff.1 (.octal height)).spells_ten (hhead (by decide)) (hhead (by decide))
    have hlt := (height.eight_ten hten).2.1 (hsame.unique hten)
    omega
  | refused hc hplace hten hn => exact ⟨_, hn, fun hiff => not_taken hc hplace hten (hiff.2 (.decimal hten))⟩

/-- Addresses are read as they are to be written, but for the texts that announce another base or have underscores.
The reader takes no other text, and takes each as the number that it announces. -/
theorem readAddress_proper_iff (text : String) :
    (∀ v : UInt16, readAddress text = .ok v ↔ Taken text.toList v.toNat) ∧
      ((∀ v : UInt16, readAddress text = .ok v ↔ Proper text.toList v.toNat) ↔ ¬ Misread text.toList) := by
  refine ⟨fun v => readAddress_eq_ok_iff, fun hagree hmisread => ?_, fun hno v => ?_⟩
  · obtain ⟨n, hn, hdiffers⟩ := hmisread.differs
    have hv : (UInt16.ofNat n).toNat = n := UInt16.toNat_ofNat_of_lt' (Nat.lt_succ_of_le hn)
    have hiff := readAddress_eq_ok_iff.symm.trans (hagree (UInt16.ofNat n))
    rw [hv] at hiff
    exact hdiffers hiff
  · have hv : v.toNat ≤ 0xFFFF := Nat.le_of_lt_succ v.toNat_lt
    rw [readAddress_eq_ok_iff]
    exact ⟨Taken.proper hv hno, Proper.taken hv hno⟩

/-- A zero in front of ten makes it eight. -/
theorem readAddress_zero_ten :
    readAddress "010" = .ok 8 ∧ Proper "010".toList 10 ∧ ¬ Proper "010".toList 8 := by
  have hvalue : value 10 0xFFFF false 0 "010".toList = .ok 10 := rfl
  have hten := ((value_eq_ok_iff_spells (by decide) (by decide) (by decide)).1 hvalue).1
  refine ⟨rfl, .decimal hten, fun h => ?_⟩
  have height := h.spells_ten (by decide) (by decide)
  exact absurd (height.unique hten) (by decide)

end Petscii.Numeral
