import Mathlib.Data.List.TakeWhile
import Petscii.Proofs.Text.Name

/-!
# Reading instructions

An instruction is one word and an operand behind a tab. Neither has a gap in it, so the words come apart
where they were put together, and an operand is cut into its atoms at the operators alone. What is needed
for this is that symbols are names and that the numbers in address expressions are not negative.
-/

namespace Petscii.Asm

/-! ### Gaps -/

/-- There are no gaps at either end. -/
def Tight (cs : List Char) : Prop :=
  cs.dropWhile isGap = cs ∧ cs.reverse.dropWhile isGap = cs.reverse

def Gapless (cs : List Char) : Prop :=
  ∀ c ∈ cs, isGap c = false

theorem dropWhile_isGap {c : Char} (hc : isGap c = false) (rest : List Char) :
    (c :: rest).dropWhile isGap = c :: rest := by
  rw [List.dropWhile_cons_of_neg (by rw [hc]; simp)]

theorem Gapless.dropWhile_append {a : List Char} (ha : Gapless a) (hne : a ≠ []) (rest : List Char) :
    (a ++ rest).dropWhile isGap = a ++ rest := by
  obtain ⟨c, tail, rfl⟩ := List.exists_cons_of_ne_nil hne
  rw [List.cons_append, dropWhile_isGap (ha c List.mem_cons_self)]

theorem Gapless.reverse {a : List Char} (ha : Gapless a) : Gapless a.reverse := fun c hc =>
  ha c (List.mem_reverse.1 hc)

theorem Gapless.tight {a : List Char} (ha : Gapless a) : Tight a := by
  by_cases hne : a = []
  · rw [hne]
    exact ⟨rfl, rfl⟩
  · have hfront := ha.dropWhile_append hne []
    have hback := ha.reverse.dropWhile_append (by simpa using hne) []
    rw [List.append_nil] at hfront hback
    exact ⟨hfront, hback⟩

theorem tight_append {a b : List Char} (ha : Gapless a) (hane : a ≠ []) (hb : Gapless b) (hbne : b ≠ [])
    (middle : List Char) : Tight (a ++ (middle ++ b)) := by
  refine ⟨ha.dropWhile_append hane _, ?_⟩
  rw [List.reverse_append, List.reverse_append, List.append_assoc]
  exact hb.reverse.dropWhile_append (by simpa using hbne) _

theorem Tight.trim {cs : List Char} (hcs : Tight cs) : Asm.trim cs = cs := by
  rw [Asm.trim, hcs.1, hcs.2, List.reverse_reverse]

theorem trim_append {gaps cs : List Char} (hgaps : ∀ c ∈ gaps, isGap c = true) (hcs : Tight cs) :
    trim (gaps ++ cs) = cs := by
  rw [trim, List.dropWhile_append_of_pos hgaps]
  exact hcs.trim

theorem trim_cons {c : Char} (hc : isGap c = true) (cs : List Char) : Asm.trim (c :: cs) = Asm.trim cs := by
  rw [Asm.trim, Asm.trim, List.dropWhile_cons_of_pos hc]

theorem firstWord_gap {word rest : List Char} (hword : Gapless word) {gap : Char} (hgap : isGap gap = true)
    (hrest : Tight rest) : firstWord (word ++ gap :: rest) = (word, rest) := by
  have hall : ∀ c ∈ word, (!isGap c) = true := fun c hc => by rw [hword c hc]; rfl
  rw [firstWord, List.takeWhile_append_of_pos hall, List.dropWhile_append_of_pos hall,
    List.takeWhile_cons_of_neg (by rw [hgap]; decide), List.dropWhile_cons_of_neg (by rw [hgap]; decide),
    List.append_nil, trim_cons hgap, hrest.trim]

theorem firstWord_append {word rest : List Char} (hword : Gapless word) (hrest : Tight rest) :
    firstWord (word ++ '\t' :: rest) = (word, rest) :=
  firstWord_gap hword rfl hrest

theorem firstWord_alone {word : List Char} (hword : Gapless word) : firstWord word = (word, []) := by
  have hall : ∀ c ∈ word, (!isGap c) = true := fun c hc => by rw [hword c hc]; rfl
  rw [firstWord, List.takeWhile_eq_self_iff.2 hall, List.dropWhile_eq_nil_iff.2 hall]
  rfl

/-! ### Expressions -/

def Atom.Legible : Atom → Prop
  | .number value => 0 ≤ value
  | .address _ => True
  | .symbol name => Source.isName name = true

def Term.Legible : Term → Prop
  | .plus a => a.Legible
  | .plusProduct a b => a.Legible ∧ b.Legible
  | .minus a => a.Legible

def Expr.Legible (e : Expr) : Prop :=
  e.base.Legible ∧ ∀ t ∈ e.terms, t.Legible

def isAtomChar (c : Char) : Bool :=
  Source.isWordChar c || c == '$'

theorem repr_of_nonneg {value : Int} (h : 0 ≤ value) : Int.repr value = Nat.repr value.toNat := by
  rw [Int.repr_eq_if, if_pos h]

theorem Atom.Legible.isAtomChar {a : Atom} (ha : a.Legible) :
    ∀ c ∈ a.text.toList, isAtomChar c = true := by
  intro c hc
  rw [Asm.isAtomChar]
  cases a with
  | number value =>
    rw [Atom.text, repr_of_nonneg ha] at hc
    rw [Source.isWordChar_of_isDigit (isDigit_of_mem_repr hc), Bool.true_or]
  | address value =>
    rw [Atom.text, Numeral.address, String.toList_append, List.mem_append] at hc
    rcases hc with hc | hc
    · rw [List.mem_singleton.1 hc]
      decide
    · have hhex := Numeral.isUpperHex_of_mem_padded (by decide) (by decide) hc
      rw [Source.isWordChar_of_isUpperHex hhex, Bool.true_or]
  | symbol name => rw [Source.isWordChar_of_isName ha c hc, Bool.true_or]

theorem Atom.Legible.text_ne_nil {a : Atom} (ha : a.Legible) : a.text.toList ≠ [] := by
  cases a with
  | number value =>
    rw [Atom.text, repr_of_nonneg ha]
    exact toList_repr_ne_nil _
  | address value => simp [Atom.text, Numeral.address]
  | symbol name =>
    obtain ⟨c, rest, hlist, _⟩ := Source.isName_iff.1 ha
    rw [Atom.text, hlist]
    exact List.cons_ne_nil c rest

theorem readAtom_text {a : Atom} (ha : a.Legible) : readAtom a.text.toList = some a := by
  cases a with
  | number value =>
    rw [Atom.text, repr_of_nonneg ha]
    obtain ⟨c, rest, hlist⟩ := List.exists_cons_of_ne_nil (toList_repr_ne_nil value.toNat)
    have hdigit : c.isDigit = true := isDigit_of_mem_repr (hlist ▸ List.mem_cons_self)
    have hread := readNat_repr value.toNat
    rw [hlist] at hread ⊢
    have hname : ¬ Source.isName (String.ofList (c :: rest)) = true := by
      rw [Source.isName_iff]
      rintro ⟨d, more, heq, hno, _⟩
      rw [String.toList_ofList, List.cons.injEq] at heq
      rw [← heq.1, hdigit] at hno
      cases hno
    rw [readAtom, if_neg hname, hread]
    · change some (Atom.number value.toNat) = _
      rw [Int.toNat_of_nonneg ha]
    · rintro _ ⟨⟩
      cases hdigit
  | address value => exact readAtom_address value
  | symbol name =>
    obtain ⟨c, rest, hlist, _, hwords⟩ := Source.isName_iff.1 ha
    have hback : String.ofList (c :: rest) = name := by rw [← hlist, String.ofList_toList]
    have hname : Source.isName name = true := ha
    rw [Atom.text, hlist, readAtom, hback, if_pos hname]
    rintro _ ⟨⟩
    exact absurd (hwords '$' List.mem_cons_self) (by decide)

/-- A character that stands between the atoms of an expression. -/
def isOperator (c : Char) : Bool :=
  c == '+' || c == '-' || c == '*'

theorem not_isOperator_of_isAtomChar {c : Char} (hc : isAtomChar c = true) : isOperator c = false := by
  rw [Bool.eq_false_iff]
  intro h
  rw [isOperator, Bool.or_eq_true, Bool.or_eq_true, beq_iff_eq, beq_iff_eq, beq_iff_eq] at h
  rcases h with (rfl | rfl) | rfl <;> exact absurd hc (by decide)

/-- Characters of an atom belong to the atom that follows them. -/
theorem exprTokens_append {a rest : List Char} (ha : ∀ c ∈ a, isAtomChar c = true) {b : List Char}
    {more : List ExprToken} (hrest : exprTokens rest = .atom b :: more) :
    exprTokens (a ++ rest) = .atom (a ++ b) :: more := by
  induction a with
  | nil => exact hrest
  | cons c a ih =>
    have hop := not_isOperator_of_isAtomChar (ha c List.mem_cons_self)
    simp only [isOperator, Bool.or_eq_false_iff, beq_eq_false_iff_ne, ne_eq] at hop
    rw [List.cons_append, exprTokens, ih fun d hd => ha d (List.mem_cons_of_mem c hd)]
    simp only [if_neg hop.1.1, if_neg hop.1.2, if_neg hop.2, List.cons_append]

def Term.tokens : Term → List ExprToken
  | .plus a => [.plus, .atom a.text.toList]
  | .plusProduct a b => [.plus, .atom a.text.toList, .times, .atom b.text.toList]
  | .minus a => [.minus, .atom a.text.toList]

theorem exprTokens_terms {terms : List Term} (hterms : ∀ t ∈ terms, t.Legible) :
    exprTokens (terms.flatMap fun t => t.text.toList) = .atom [] :: terms.flatMap Term.tokens := by
  induction terms with
  | nil => rfl
  | cons t terms ih =>
    have ht := hterms t List.mem_cons_self
    have hrest := ih fun u hu => hterms u (List.mem_cons_of_mem t hu)
    rw [List.flatMap_cons, List.flatMap_cons]
    cases t with
    | plus a =>
      have hatom := exprTokens_append ht.isAtomChar hrest
      rw [List.append_nil] at hatom
      have htext : (Term.plus a).text.toList = '+' :: a.text.toList := by
        rw [Term.text, String.toList_append]
        rfl
      rw [htext, List.cons_append, exprTokens, hatom]
      rfl
    | plusProduct a b =>
      have hsecond := exprTokens_append ht.2.isAtomChar hrest
      rw [List.append_nil] at hsecond
      have hproduct : exprTokens ('*' :: (b.text.toList ++ terms.flatMap fun t => t.text.toList)) =
          .atom [] :: .times :: .atom b.text.toList :: terms.flatMap Term.tokens := by
        rw [exprTokens, hsecond]
        rfl
      have hfirst := exprTokens_append ht.1.isAtomChar hproduct
      rw [List.append_nil] at hfirst
      have htext : (Term.plusProduct a b).text.toList =
          '+' :: (a.text.toList ++ '*' :: b.text.toList) := by
        simp only [Term.text, String.toList_append, List.append_assoc]
        rfl
      rw [htext, List.cons_append, List.append_assoc, List.cons_append, exprTokens, hfirst]
      rfl
    | minus a =>
      have hatom := exprTokens_append ht.isAtomChar hrest
      rw [List.append_nil] at hatom
      have htext : (Term.minus a).text.toList = '-' :: a.text.toList := by
        rw [Term.text, String.toList_append]
        rfl
      rw [htext, List.cons_append, exprTokens, hatom]
      rfl

theorem readTerms_tokens {terms : List Term} (hterms : ∀ t ∈ terms, t.Legible) :
    readTerms (terms.flatMap Term.tokens) = some terms := by
  induction terms with
  | nil => rfl
  | cons t terms ih =>
    have ht := hterms t List.mem_cons_self
    have hrest := ih fun u hu => hterms u (List.mem_cons_of_mem t hu)
    rw [List.flatMap_cons]
    cases t with
    | plus a =>
      change readTerms (.plus :: .atom a.text.toList :: terms.flatMap Term.tokens) = _
      rw [readTerms, readAtom_text ht, hrest]
      · rfl
      · -- The product rule does not apply: a term does not start with a multiplication sign.
        intro b more heq
        cases terms with
        | nil => cases heq
        | cons u terms => cases u <;> cases heq
    | plusProduct a b =>
      change readTerms (.plus :: .atom a.text.toList :: .times :: .atom b.text.toList ::
        terms.flatMap Term.tokens) = _
      rw [readTerms, readAtom_text ht.1, readAtom_text ht.2, hrest]
      rfl
    | minus a =>
      change readTerms (.minus :: .atom a.text.toList :: terms.flatMap Term.tokens) = _
      rw [readTerms, readAtom_text ht, hrest]
      rfl

theorem Expr.toList_text (e : Expr) :
    e.text.toList = e.base.text.toList ++ e.terms.flatMap fun t => t.text.toList := by
  rw [Expr.text, String.toList_append, String.toList_join, List.flatMap_map]

theorem readExpr_text {e : Expr} (he : e.Legible) : readExpr e.text.toList = some e := by
  have htokens := exprTokens_append he.1.isAtomChar (exprTokens_terms he.2)
  rw [List.append_nil] at htokens
  rw [Expr.toList_text, readExpr, htokens]
  simp only [readAtom_text he.1, readTerms_tokens he.2]
  rfl

def isExprChar (c : Char) : Bool :=
  isAtomChar c || isOperator c

theorem isExprChar_of_isAtomChar {c : Char} (hc : isAtomChar c = true) : isExprChar c = true := by
  rw [isExprChar, hc]
  rfl

theorem Term.Legible.isExprChar {t : Term} (ht : t.Legible) :
    ∀ c ∈ t.text.toList, isExprChar c = true := by
  intro c hc
  cases t with
  | plus a =>
    rw [Term.text, String.toList_append, List.mem_append] at hc
    rcases hc with hc | hc
    · rw [List.mem_singleton.1 hc]
      decide
    · exact isExprChar_of_isAtomChar (Atom.Legible.isAtomChar ht c hc)
  | plusProduct a b =>
    simp only [Term.text, String.toList_append, List.mem_append] at hc
    rcases hc with ((hc | hc) | hc) | hc
    · rw [List.mem_singleton.1 hc]
      decide
    · exact isExprChar_of_isAtomChar (ht.1.isAtomChar c hc)
    · rw [List.mem_singleton.1 hc]
      decide
    · exact isExprChar_of_isAtomChar (ht.2.isAtomChar c hc)
  | minus a =>
    rw [Term.text, String.toList_append, List.mem_append] at hc
    rcases hc with hc | hc
    · rw [List.mem_singleton.1 hc]
      decide
    · exact isExprChar_of_isAtomChar (Atom.Legible.isAtomChar ht c hc)

theorem Expr.Legible.isExprChar {e : Expr} (he : e.Legible) :
    ∀ c ∈ e.text.toList, isExprChar c = true := by
  intro c hc
  rw [Expr.toList_text, List.mem_append, List.mem_flatMap] at hc
  rcases hc with hc | ⟨t, ht, hc⟩
  · exact isExprChar_of_isAtomChar (he.1.isAtomChar c hc)
  · exact (he.2 t ht).isExprChar c hc

/-! ### Instructions -/

def isOperandChar (c : Char) : Bool :=
  isExprChar c || c == ',' || c == '#'

theorem isOperandChar_of_isExprChar {c : Char} (hc : isExprChar c = true) : isOperandChar c = true := by
  rw [isOperandChar, hc]
  rfl

theorem isOperandChar_of_isWordChar {c : Char} (hc : Source.isWordChar c = true) :
    isOperandChar c = true := by
  apply isOperandChar_of_isExprChar
  apply isExprChar_of_isAtomChar
  rw [isAtomChar, hc, Bool.true_or]

theorem isOperandChar_of_isName {name : String} (hname : Source.isName name = true) :
    ∀ c ∈ name.toList, isOperandChar c = true := fun c hc =>
  isOperandChar_of_isWordChar (Source.isWordChar_of_isName hname c hc)

theorem gapless_of_isOperandChar {cs : List Char} (hcs : ∀ c ∈ cs, isOperandChar c = true) :
    Gapless cs := by
  intro c hc
  rw [Bool.eq_false_iff]
  intro hgap
  rw [isGap, Bool.or_eq_true, beq_iff_eq, beq_iff_eq] at hgap
  rcases hgap with rfl | rfl <;> exact absurd (hcs _ hc) (by decide)

theorem isOperandChar_repr (z : Int) : ∀ c ∈ (Int.repr z).toList, isOperandChar c = true := by
  have hdigits : ∀ n : Nat, ∀ c ∈ (Nat.repr n).toList, isOperandChar c = true := fun n c hc =>
    isOperandChar_of_isWordChar (Source.isWordChar_of_isDigit (isDigit_of_mem_repr hc))
  intro c hc
  rw [Int.repr_eq_if] at hc
  split at hc
  · exact hdigits _ c hc
  · rw [String.toList_append, List.mem_append] at hc
    rcases hc with hc | hc
    · rw [List.mem_singleton.1 hc]
      decide
    · exact hdigits _ c hc

theorem toList_repr_int_ne_nil (z : Int) : (Int.repr z).toList ≠ [] := by
  rw [Int.repr_eq_if]
  split
  · exact toList_repr_ne_nil _
  · simp

def Instruction.Legible : Instruction Expr → Prop
  | .lda e => e.Legible
  | .ldaIndexed e => e.Legible
  | .sta e => e.Legible
  | .staIndexed e => e.Legible
  | .bne label => Source.isName label = true
  | .bpl label => Source.isName label = true
  | _ => True

def Instruction.mnemonic : Instruction Expr → String
  | .ldaImmediate _ => "lda"
  | .lda _ => "lda"
  | .ldaIndexed _ => "lda"
  | .sta _ => "sta"
  | .staIndexed _ => "sta"
  | .ldx _ => "ldx"
  | .inx => "inx"
  | .dex => "dex"
  | .cpx _ => "cpx"
  | .bne _ => "bne"
  | .bpl _ => "bpl"
  | .rts => "rts"

def Instruction.operand : Instruction Expr → List Char
  | .ldaImmediate value => '#' :: (Int.repr value).toList
  | .lda e => e.text.toList
  | .ldaIndexed e => e.text.toList ++ [',', 'x']
  | .sta e => e.text.toList
  | .staIndexed e => e.text.toList ++ [',', 'x']
  | .ldx value => '#' :: (Int.repr value).toList
  | .cpx value => '#' :: (Int.repr value).toList
  | .bne label => label.toList
  | .bpl label => label.toList
  | _ => []

theorem Expr.Legible.text_ne_nil {e : Expr} (he : e.Legible) : e.text.toList ≠ [] := by
  rw [Expr.toList_text]
  exact List.append_ne_nil_of_left_ne_nil he.1.text_ne_nil _

namespace Instruction

variable {i : Instruction Expr}

theorem isName_mnemonic (i : Instruction Expr) : Source.isName i.mnemonic = true := by
  cases i <;> rw [mnemonic] <;> decide

theorem gapless_mnemonic (i : Instruction Expr) : Gapless i.mnemonic.toList :=
  gapless_of_isOperandChar (isOperandChar_of_isName (isName_mnemonic i))

theorem Legible.isOperandChar (hi : i.Legible) : ∀ c ∈ i.operand, isOperandChar c = true := by
  have himmediate : ∀ value : Int, ∀ c ∈ '#' :: (Int.repr value).toList, Asm.isOperandChar c = true := by
    intro value c hc
    rcases List.mem_cons.1 hc with rfl | hc
    · decide
    · exact isOperandChar_repr value c hc
  have hplain : ∀ e : Expr, e.Legible → ∀ c ∈ e.text.toList, Asm.isOperandChar c = true :=
    fun e he c hc => isOperandChar_of_isExprChar (he.isExprChar c hc)
  have hindexed : ∀ e : Expr, e.Legible → ∀ c ∈ e.text.toList ++ [',', 'x'], Asm.isOperandChar c = true := by
    intro e he c hc
    rcases List.mem_append.1 hc with hc | hc
    · exact hplain e he c hc
    · simp only [List.mem_cons, List.not_mem_nil, or_false] at hc
      rcases hc with rfl | rfl <;> decide
  cases i with
  | ldaImmediate value => exact himmediate value
  | lda e => exact hplain e hi
  | ldaIndexed e => exact hindexed e hi
  | sta e => exact hplain e hi
  | staIndexed e => exact hindexed e hi
  | ldx value => exact himmediate value
  | cpx value => exact himmediate value
  | bne label => exact isOperandChar_of_isName hi
  | bpl label => exact isOperandChar_of_isName hi
  | _ => exact fun c hc => absurd hc List.not_mem_nil

theorem toList_text (hi : i.Legible) :
    (i.text Expr.text).toList = i.mnemonic.toList ∧ i.operand = [] ∨
      (i.text Expr.text).toList = i.mnemonic.toList ++ '\t' :: i.operand ∧ i.operand ≠ [] := by
  have hname : ∀ {name : String}, Source.isName name = true → name.toList ≠ [] := by
    intro name hname
    obtain ⟨c, rest, hlist, _⟩ := Source.isName_iff.1 hname
    rw [hlist]
    exact List.cons_ne_nil c rest
  cases i with
  | ldaImmediate value => exact Or.inr ⟨by simp [text, mnemonic, operand], by simp [operand]⟩
  | lda e => exact Or.inr ⟨by simp [text, mnemonic, operand], Expr.Legible.text_ne_nil hi⟩
  | ldaIndexed e => exact Or.inr ⟨by simp [text, mnemonic, operand], by simp [operand]⟩
  | sta e => exact Or.inr ⟨by simp [text, mnemonic, operand], Expr.Legible.text_ne_nil hi⟩
  | staIndexed e => exact Or.inr ⟨by simp [text, mnemonic, operand], by simp [operand]⟩
  | ldx value => exact Or.inr ⟨by simp [text, mnemonic, operand], by simp [operand]⟩
  | inx => exact Or.inl ⟨rfl, rfl⟩
  | dex => exact Or.inl ⟨rfl, rfl⟩
  | cpx value => exact Or.inr ⟨by simp [text, mnemonic, operand], by simp [operand]⟩
  | bne label => exact Or.inr ⟨by simp [text, mnemonic, operand], hname hi⟩
  | bpl label => exact Or.inr ⟨by simp [text, mnemonic, operand], hname hi⟩
  | rts => exact Or.inl ⟨rfl, rfl⟩

theorem firstWord_text (hi : i.Legible) :
    firstWord (i.text Expr.text).toList = (i.mnemonic.toList, i.operand) := by
  rcases toList_text hi with ⟨htext, hoperand⟩ | ⟨htext, _⟩
  · rw [htext, hoperand, firstWord_alone (gapless_mnemonic i)]
  · rw [htext, firstWord_append (gapless_mnemonic i) (gapless_of_isOperandChar hi.isOperandChar).tight]

end Instruction

theorem readAddressed_plain {e : Expr} (he : e.Legible) (plain indexed : Expr → Instruction Expr) :
    readAddressed plain indexed e.text.toList = some (plain e) := by
  rw [readAddressed]
  split
  · next base heq =>
    have hcomma : ',' ∈ e.text.toList := by
      rw [← List.mem_reverse, heq]
      simp
    exact absurd (he.isExprChar ',' hcomma) (by decide)
  · rw [readExpr_text he]
    rfl

theorem readAddressed_indexed {e : Expr} (he : e.Legible) (plain indexed : Expr → Instruction Expr) :
    readAddressed plain indexed (e.text.toList ++ [',', 'x']) = some (indexed e) := by
  rw [readAddressed, List.reverse_append]
  change (readExpr e.text.toList.reverse.reverse).map indexed = _
  rw [List.reverse_reverse, readExpr_text he]
  rfl

/-- An operand that does not start like a value is an address. -/
theorem readInstruction_lda {cs operand : List Char} (hword : firstWord cs = ("lda".toList, operand))
    (haddress : ∀ value, operand ≠ '#' :: value) :
    readInstruction cs = readAddressed .lda .ldaIndexed operand := by
  simp only [readInstruction, hword, String.ofList_toList]

theorem Expr.Legible.ne_value {e : Expr} (he : e.Legible) (back value : List Char) :
    e.text.toList ++ back ≠ '#' :: value := by
  obtain ⟨c, rest, hlist⟩ := List.exists_cons_of_ne_nil he.text_ne_nil
  rw [hlist, List.cons_append]
  rintro ⟨⟩
  exact absurd (he.isExprChar '#' (hlist ▸ List.mem_cons_self)) (by decide)

theorem readInstruction_text {i : Instruction Expr} (hi : i.Legible) :
    readInstruction (i.text Expr.text).toList = some i := by
  have hword := Instruction.firstWord_text hi
  cases i with
  | lda e =>
    have haddress : ∀ value, e.text.toList ≠ '#' :: value := fun value => by
      simpa using Expr.Legible.ne_value hi [] value
    rw [readInstruction_lda hword haddress]
    exact readAddressed_plain hi _ _
  | ldaIndexed e =>
    rw [readInstruction_lda hword (Expr.Legible.ne_value hi _)]
    exact readAddressed_indexed hi _ _
  | sta e =>
    simp only [readInstruction, hword, String.ofList_toList]
    exact readAddressed_plain hi _ _
  | staIndexed e =>
    simp only [readInstruction, hword, String.ofList_toList]
    exact readAddressed_indexed hi _ _
  | ldaImmediate value =>
    simp only [readInstruction, hword, String.ofList_toList]
    change (readInt (Int.repr value).toList).map _ = _
    rw [readInt_repr]
    rfl
  | ldx value =>
    simp only [readInstruction, hword, String.ofList_toList]
    change (readInt (Int.repr value).toList).map _ = _
    rw [readInt_repr]
    rfl
  | cpx value =>
    simp only [readInstruction, hword, String.ofList_toList]
    change (readInt (Int.repr value).toList).map _ = _
    rw [readInt_repr]
    rfl
  | bne label =>
    simp only [readInstruction, hword, String.ofList_toList]
    exact congrArg (fun l => some (Instruction.bne l)) String.ofList_toList
  | bpl label =>
    simp only [readInstruction, hword, String.ofList_toList]
    exact congrArg (fun l => some (Instruction.bpl l)) String.ofList_toList
  | _ =>
    simp only [readInstruction, hword, String.ofList_toList]
    rfl

end Petscii.Asm
