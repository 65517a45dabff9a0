import Mathlib.Data.List.Nodup
import Petscii.Proofs.Asm.ReadBack
import Petscii.Proofs.Image.Files
import Petscii.Proofs.Source.RoundTrip

/-!
# The symbols of a listing

A listing is read line by line, as an assembler reads it: a line defines a symbol by its value or as a label, and
refers to the symbols among its operands. The symbols that are defined are always different, since frames have
different names, the ends of the symbols tell apart what they stand for, and numbers are written differently.
Whether all symbols are names depends on the output alone. Its characters are replaced one by one, so a digit at
the front of a file's name stays there, and no symbol can begin with one.
-/

namespace Petscii.Image

open Asm Session

/-! ### Reading a listing -/

/-- The symbols that a line defines, and those that it refers to. -/
structure Mentions where
  defined : List String := []
  referred : List String := []

/-- The symbols among operands: what is no number. -/
def operandSymbols (operands : List (List Char)) : List String :=
  ((operands.map trim).filter fun cs => (readNat cs).isNone).map String.ofList

/-- The symbols of a directive. Only a table of words refers to symbols. -/
def directiveMentions (directive : List Char) : Mentions :=
  if (firstWord directive).1 = ".word".toList then
    { referred := operandSymbols (pieces ',' (firstWord directive).2) }
  else {}

/-- The symbols of a line that is no directive: it gives the value of a symbol, or is a label. -/
def plainMentions (line : List Char) : Mentions :=
  match (firstWord line).2, (firstWord line).1.reverse with
  | '=' :: value, _ =>
    { defined := [String.ofList (firstWord line).1], referred := operandSymbols (pieces '+' value) }
  | _, ':' :: name => { defined := [String.ofList name.reverse] }
  | _, _ => {}

/-- The symbols of a line. A directive stands behind a tab. -/
def lineMentions : List Char → Mentions
  | '\t' :: directive => directiveMentions directive
  | line => plainMentions line

def mentions (listed : String) : List Mentions :=
  (pieces '\n' listed.toList).map lineMentions

def definedSymbols (listed : String) : List String :=
  (mentions listed).flatMap Mentions.defined

def referredSymbols (listed : String) : List String :=
  (mentions listed).flatMap Mentions.referred

theorem mentions_line {line : String} (hline : '\n' ∉ line.toList) (rest : String) :
    mentions (line ++ "\n" ++ rest) = lineMentions line.toList :: mentions rest := by
  have hlist : (line ++ "\n" ++ rest).toList = line.toList ++ '\n' :: rest.toList := by simp
  rw [mentions, hlist, pieces_append hline, List.map_cons]
  rfl

/-! ### The lines of a listing -/

/-- The text of a symbol: letters, digits and underscores, one of these at least. -/
structure SymbolText (symbol : String) : Prop where
  chars : ∀ c ∈ symbol.toList, Source.isWordChar c = true
  underscore : '_' ∈ symbol.toList

section SymbolText

variable {symbol a b : String}

theorem symbolText_append (ha : ∀ c ∈ a.toList, Source.isWordChar c = true)
    (hb : ∀ c ∈ b.toList, Source.isWordChar c = true) (hunderscore : '_' ∈ b.toList) : SymbolText (a ++ b) where
  chars c hc := by
    rw [String.toList_append, List.mem_append] at hc
    exact hc.elim (ha c) (hb c)
  underscore := by
    rw [String.toList_append]
    exact List.mem_append_right _ hunderscore

theorem SymbolText.argument (h : SymbolText symbol) : Argument symbol.toList where
  nonempty := List.ne_nil_of_mem h.underscore
  chars c hc := isOperandChar_of_isWordChar (h.chars c hc)
  comma hcomma := absurd (h.chars _ hcomma) (by decide)

theorem SymbolText.notMem (h : SymbolText symbol) {c : Char} (hc : Source.isWordChar c = false) :
    c ∉ symbol.toList := by
  intro hmem
  rw [h.chars c hmem] at hc
  cases hc

theorem SymbolText.readNat (h : SymbolText symbol) : Asm.readNat symbol.toList = none := by
  apply if_pos
  right
  rw [List.any_eq_true]
  exact ⟨'_', h.underscore, by decide⟩

theorem trim_concat {cs : List Char} (hcs : Gapless cs) (hne : cs ≠ []) {gap : Char} (hgap : isGap gap = true) :
    trim (cs ++ [gap]) = cs := by
  rw [trim, hcs.dropWhile_append hne, List.reverse_append, List.reverse_singleton, List.singleton_append,
    List.dropWhile_cons_of_pos hgap, hcs.tight.2, List.reverse_reverse]

@[simp]
theorem operandSymbols_nil : operandSymbols [] = [] :=
  rfl

theorem operandSymbols_of_readNat {operand : List Char} {n : Nat} (h : readNat (trim operand) = some n)
    (rest : List (List Char)) : operandSymbols (operand :: rest) = operandSymbols rest := by
  rw [operandSymbols, List.map_cons, List.filter_cons_of_neg (by simp [h])]
  rfl

theorem operandSymbols_of_symbol (h : SymbolText symbol) {operand : List Char} (hoperand : trim operand = symbol.toList)
    (rest : List (List Char)) : operandSymbols (operand :: rest) = symbol :: operandSymbols rest := by
  rw [operandSymbols, List.map_cons, hoperand, List.filter_cons_of_pos (by rw [h.readNat]; rfl), List.map_cons,
    String.ofList_toList]
  rfl

/-- A line that begins with a symbol is no directive. -/
theorem lineMentions_symbol (h : SymbolText symbol) (rest : List Char) :
    lineMentions (symbol.toList ++ rest) = plainMentions (symbol.toList ++ rest) := by
  rw [lineMentions]
  intro directive heq
  obtain ⟨c, more, hlist⟩ := List.exists_cons_of_ne_nil h.argument.nonempty
  rw [hlist, List.cons_append, List.cons.injEq] at heq
  exact absurd (h.chars c (hlist ▸ List.mem_cons_self)) (by rw [heq.1]; decide)

theorem lineMentions_value (h : SymbolText symbol) {front last : List Char} (hlast : Gapless last) (hne : last ≠ []) :
    lineMentions (symbol.toList ++ ' ' :: '=' :: ' ' :: (front ++ last)) =
      { defined := [symbol], referred := operandSymbols (pieces '+' (' ' :: (front ++ last))) } := by
  have hequals : Gapless ['='] := by
    intro c hc
    rw [List.mem_singleton.1 hc]
    decide
  have htight : Tight ('=' :: ' ' :: (front ++ last)) :=
    tight_append hequals (List.cons_ne_nil _ _) hlast hne (' ' :: front)
  have hword : firstWord (symbol.toList ++ ' ' :: '=' :: ' ' :: (front ++ last)) =
      (symbol.toList, '=' :: ' ' :: (front ++ last)) := firstWord_gap h.argument.gapless rfl htight
  rw [lineMentions_symbol h, plainMentions, hword]
  show Mentions.mk [String.ofList symbol.toList] _ = _
  rw [String.ofList_toList]

theorem lineMentions_number (h : SymbolText symbol) (n : Nat) :
    lineMentions (symbol ++ " = " ++ Nat.repr n).toList = { defined := [symbol] } := by
  have hdigits : ∀ c ∈ (Nat.repr n).toList, isOperandChar c = true := fun c hc =>
    isOperandChar_of_isWordChar (Source.isWordChar_of_isDigit (isDigit_of_mem_repr hc))
  have hgapless := gapless_of_isOperandChar hdigits
  have hplus : '+' ∉ ' ' :: (Nat.repr n).toList := by
    rw [List.mem_cons, not_or]
    exact ⟨by decide, fun hmem => absurd (isDigit_of_mem_repr hmem) (by decide)⟩
  have hread : readNat (trim (' ' :: (Nat.repr n).toList)) = some n := by
    rw [trim_cons rfl, hgapless.tight.trim, readNat_repr]
  have hline := @lineMentions_value symbol h [] _ hgapless (toList_repr_ne_nil n)
  rw [List.nil_append, pieces_of_notMem hplus, operandSymbols_of_readNat hread] at hline
  simpa using hline

theorem lineMentions_sum (h : SymbolText symbol) (ha : SymbolText a) (hb : SymbolText b) :
    lineMentions (symbol ++ " = " ++ a ++ " + " ++ b).toList = { defined := [symbol], referred := [a, b] } := by
  have hplus : '+' ∉ ' ' :: (a.toList ++ [' ']) := by
    simp only [List.mem_cons, List.mem_append, not_or]
    exact ⟨by decide, ha.notMem (by decide), by decide, by decide⟩
  have hplus' : '+' ∉ ' ' :: b.toList := by
    rw [List.mem_cons, not_or]
    exact ⟨by decide, hb.notMem (by decide)⟩
  have htrim : trim (' ' :: (a.toList ++ [' '])) = a.toList := by
    rw [trim_cons rfl, trim_concat ha.argument.gapless ha.argument.nonempty rfl]
  have htrim' : trim (' ' :: b.toList) = b.toList := by
    rw [trim_cons rfl, hb.argument.gapless.tight.trim]
  have hvalue : ' ' :: (a.toList ++ [' ', '+', ' '] ++ b.toList) =
      ' ' :: (a.toList ++ [' ']) ++ '+' :: (' ' :: b.toList) := by simp
  have hline := @lineMentions_value symbol h (a.toList ++ [' ', '+', ' ']) _ hb.argument.gapless hb.argument.nonempty
  rw [hvalue, pieces_append hplus, pieces_of_notMem hplus', operandSymbols_of_symbol ha htrim,
    operandSymbols_of_symbol hb htrim'] at hline
  simpa using hline

theorem lineMentions_label (h : SymbolText symbol) :
    lineMentions (symbol ++ ":").toList = { defined := [symbol] } := by
  have hgapless : Gapless (symbol.toList ++ [':']) := by
    intro c hc
    rw [List.mem_append, List.mem_singleton] at hc
    obtain hc | hc := hc
    · exact h.argument.gapless c hc
    · rw [hc]
      decide
  have hlist : (symbol ++ ":").toList = symbol.toList ++ [':'] := by simp
  rw [hlist, lineMentions_symbol h, plainMentions, firstWord_alone hgapless, List.reverse_append]
  show Mentions.mk [String.ofList symbol.toList.reverse.reverse] [] = _
  rw [List.reverse_reverse, String.ofList_toList]

end SymbolText

theorem argument_of_symbols {labels : List String} (hlabels : ∀ l ∈ labels, SymbolText l) :
    ∀ a ∈ labels.map String.toList, Argument a := by
  intro a ha
  obtain ⟨l, hl, heq⟩ := List.mem_map.1 ha
  rw [← heq]
  exact (hlabels l hl).argument

theorem lineMentions_words {labels : List String} (hne : labels ≠ []) (hlabels : ∀ l ∈ labels, SymbolText l) :
    lineMentions ("\t.word\t" ++ String.intercalate ", " labels).toList = { referred := labels } := by
  have harguments := argument_of_symbols hlabels
  have hlist : ("\t.word\t" ++ String.intercalate ", " labels).toList =
      '\t' :: (".word".toList ++ '\t' :: spread (labels.map String.toList)) := by
    simp [spread]
  have hdirective : ".word".toList.all (!isGap ·) = true := by decide
  have hword : firstWord (".word".toList ++ '\t' :: spread (labels.map String.toList)) =
      (".word".toList, spread (labels.map String.toList)) :=
    firstWord_append (fun c hc => by simpa using List.all_eq_true.1 hdirective c hc) (tight_spread harguments)
  have hsymbols : (labels.map String.toList).filter (fun cs => (readNat cs).isNone) = labels.map String.toList := by
    apply List.filter_eq_self.2
    intro cs hcs
    obtain ⟨l, hl, heq⟩ := List.mem_map.1 hcs
    rw [← heq, (hlabels l hl).readNat]
    rfl
  rw [hlist, lineMentions, directiveMentions, hword, if_pos rfl, operandSymbols,
    map_trim_pieces_spread (by simpa using hne) harguments, hsymbols, List.map_map]
  simp [Function.comp_def]

theorem lineMentions_file (path : String) : lineMentions ("\t.incbin\t" ++ path).toList = {} := by
  rw [String.toList_append]
  rfl

/-! ### Listings -/

theorem newline_notMem_hexDigits (count n : Nat) : '\n' ∉ Quoted.hexDigits count n := by
  have hdigit : ∀ d, d < 16 → '\n' ≠ Nat.digitChar d := by decide
  induction count generalizing n with
  | zero => exact List.not_mem_nil
  | succ count ih =>
    rw [Quoted.hexDigits, List.mem_append, List.mem_singleton, not_or]
    exact ⟨ih _, hdigit _ (Nat.mod_lt n (by decide))⟩

theorem newline_notMem_escape (c : Char) : '\n' ∉ Quoted.escape '"' c := by
  rw [Quoted.escape]
  split
  · next hc =>
    obtain hc | hc := hc <;> rw [hc] <;> decide
  · split
    · next hprintable =>
      rw [List.mem_singleton]
      intro hc
      rw [← hc] at hprintable
      revert hprintable
      decide
    · split
      any_goals decide
      split
      · simp [newline_notMem_hexDigits]
      · split <;> simp [newline_notMem_hexDigits]

/-- Quoted text stands on one line. -/
theorem newline_notMem_quoted (text : String) : '\n' ∉ (Quoted.text text).toList := by
  rw [Quoted.text, String.toList_ofList]
  simp only [List.mem_append, List.mem_cons, List.mem_flatMap, List.not_mem_nil, or_false, not_or, not_exists, not_and]
  exact ⟨⟨by decide, fun c _ => newline_notMem_escape c⟩, by decide⟩

section Lines

variable {symbol a b : String}

theorem mentions_number (h : SymbolText symbol) (n : Nat) (rest : String) :
    mentions (symbol ++ " = " ++ Nat.repr n ++ "\n" ++ rest) = { defined := [symbol] } :: mentions rest := by
  have hline : '\n' ∉ (symbol ++ " = " ++ Nat.repr n).toList := by
    simp only [String.toList_append, List.mem_append, not_or]
    exact ⟨⟨h.notMem (by decide), by decide⟩, fun hmem => absurd (isDigit_of_mem_repr hmem) (by decide)⟩
  rw [mentions_line hline, lineMentions_number h]

theorem mentions_sum (h : SymbolText symbol) (ha : SymbolText a) (hb : SymbolText b) (rest : String) :
    mentions (symbol ++ " = " ++ a ++ " + " ++ b ++ "\n" ++ rest) =
      { defined := [symbol], referred := [a, b] } :: mentions rest := by
  have hline : '\n' ∉ (symbol ++ " = " ++ a ++ " + " ++ b).toList := by
    simp only [String.toList_append, List.mem_append, not_or]
    exact ⟨⟨⟨⟨h.notMem (by decide), by decide⟩, ha.notMem (by decide)⟩, by decide⟩, hb.notMem (by decide)⟩
  rw [mentions_line hline, lineMentions_sum h ha hb]

theorem mentions_label (h : SymbolText symbol) (rest : String) :
    mentions (symbol ++ ":" ++ "\n" ++ rest) = { defined := [symbol] } :: mentions rest := by
  have hline : '\n' ∉ (symbol ++ ":").toList := by
    rw [String.toList_append, List.mem_append, not_or]
    exact ⟨h.notMem (by decide), by decide⟩
  rw [mentions_line hline, lineMentions_label h]

theorem mentions_file (path rest : String) :
    mentions ("\t.incbin\t" ++ Quoted.text path ++ "\n" ++ rest) = {} :: mentions rest := by
  have hline : '\n' ∉ ("\t.incbin\t" ++ Quoted.text path).toList := by
    rw [String.toList_append, List.mem_append, not_or]
    exact ⟨by decide, newline_notMem_quoted path⟩
  rw [mentions_line hline, lineMentions_file]

theorem newline_notMem_intercalate {labels : List String} (hlabels : ∀ l ∈ labels, SymbolText l) :
    '\n' ∉ (String.intercalate ", " labels).toList := by
  have hlist : (String.intercalate ", " labels).toList = spread (labels.map String.toList) := by
    simp [spread]
  rw [hlist]
  exact fun hmem => absurd (isLineChar_of_mem_spread (argument_of_symbols hlabels) _ hmem) (by decide)

theorem mentions_words {labels : List String} (hne : labels ≠ []) (hlabels : ∀ l ∈ labels, SymbolText l)
    (rest : String) :
    mentions ("\t.word\t" ++ String.intercalate ", " labels ++ "\n" ++ rest) =
      { referred := labels } :: mentions rest := by
  have hline : '\n' ∉ ("\t.word\t" ++ String.intercalate ", " labels).toList := by
    rw [String.toList_append, List.mem_append, not_or]
    exact ⟨by decide, newline_notMem_intercalate hlabels⟩
  rw [mentions_line hline, lineMentions_words hne hlabels]

end Lines

theorem isWordChar_symbolBase (output : String) : ∀ c ∈ (symbolBase output).toList, Source.isWordChar c = true := by
  intro c hc
  rw [symbolBase, String.toList_ofList] at hc
  obtain ⟨d, _, heq⟩ := List.mem_map.1 hc
  rw [← heq]
  split
  · next halnum => rw [Source.isWordChar, halnum, Bool.true_or]
  · decide

theorem mentions_symbols {base : String} (hbase : ∀ c ∈ base.toList, Source.isWordChar c = true) (offset : Nat)
    {frames : List Frame} (hframes : ∀ f ∈ frames, Source.isName f.name = true) :
    mentions (symbols base offset frames) =
      frames.flatMap (fun f => [⟨[f.name ++ "_offset"], []⟩,
        ⟨[f.name ++ "_addr"], [base ++ "_base", f.name ++ "_offset"]⟩]) ++
      [⟨[base ++ "_end"], []⟩, ⟨[], []⟩] := by
  have hsymbol : ∀ {front tail : String}, (∀ c ∈ front.toList, Source.isWordChar c = true) →
      tail.toList.all Source.isWordChar = true → '_' ∈ tail.toList → SymbolText (front ++ tail) :=
    fun hfront htail hunderscore => symbolText_append hfront (List.all_eq_true.1 htail) hunderscore
  induction frames generalizing offset with
  | nil =>
    have htext : symbols base offset [] = base ++ "_end" ++ " = " ++ Nat.repr offset ++ "\n" ++ "" := by
      rw [symbols, ← String.toList_inj]
      simp
    rw [htext, mentions_number (hsymbol hbase (by decide) (by decide))]
    rfl
  | cons f rest ih =>
    obtain ⟨hf, hrest⟩ := List.forall_mem_cons.1 hframes
    have hname := Source.isWordChar_of_isName hf
    have htext : symbols base offset (f :: rest) =
        f.name ++ "_offset" ++ " = " ++ Nat.repr offset ++ "\n" ++
          (f.name ++ "_addr" ++ " = " ++ (base ++ "_base") ++ " + " ++ (f.name ++ "_offset") ++ "\n" ++
            symbols base (offset + f.bytes.length) rest) := by
      rw [symbols, ← String.toList_inj]
      simp
    rw [htext, mentions_number (hsymbol hname (by decide) (by decide)),
      mentions_sum (hsymbol hname (by decide) (by decide)) (hsymbol hbase (by decide) (by decide))
        (hsymbol hname (by decide) (by decide)), ih _ hrest, List.flatMap_cons]
    rfl

theorem isWordChar_number (i : Nat) : ∀ c ∈ ("_" ++ Numeral.padded 10 i).toList, Source.isWordChar c = true := by
  intro c hc
  rw [String.toList_append, List.mem_append] at hc
  obtain hc | hc := hc
  · rw [List.mem_singleton.1 hc]
    decide
  · exact Source.isWordChar_of_isUpperHex (Numeral.isUpperHex_of_mem_padded (by decide) (by decide) hc)

theorem symbolText_fileLabel (output : String) (i : Nat) : SymbolText (fileLabel output i) := by
  rw [fileLabel, String.append_assoc]
  apply symbolText_append (isWordChar_symbolBase output) (isWordChar_number i)
  rw [String.toList_append]
  exact List.mem_append_left _ (by decide)

theorem mentions_files (output : String) (indices : List Nat) :
    mentions (String.join (indices.map fun i =>
        fileLabel output i ++ ":\n\t.incbin\t" ++ Quoted.text (fileName output i) ++ "\n") ++ "\n") =
      indices.flatMap (fun i => [⟨[fileLabel output i], []⟩, ⟨[], []⟩]) ++ [⟨[], []⟩, ⟨[], []⟩] := by
  induction indices with
  | nil =>
    rw [List.map_nil, String.join_nil, String.empty_append]
    rfl
  | cons i indices ih =>
    have htext : ∀ rest : String,
        fileLabel output i ++ ":\n\t.incbin\t" ++ Quoted.text (fileName output i) ++ "\n" ++ rest =
          fileLabel output i ++ ":" ++ "\n" ++ ("\t.incbin\t" ++ Quoted.text (fileName output i) ++ "\n" ++ rest) := by
      intro rest
      rw [← String.toList_inj]
      simp
    rw [List.map_cons, String.join_cons, String.append_assoc, htext, mentions_label (symbolText_fileLabel output i),
      mentions_file, ih, List.flatMap_cons]
    rfl

theorem mentions_separateListing (output : String) {count : Nat} (hcount : 0 < count) :
    mentions (separateListing output count) =
      ⟨[], (List.range count).map (fileLabel output)⟩ :: ⟨[], []⟩ ::
        ((List.range count).flatMap (fun i => [⟨[fileLabel output i], []⟩, ⟨[], []⟩]) ++ [⟨[], []⟩, ⟨[], []⟩]) := by
  have htext : separateListing output count =
      "\t.word\t" ++ String.intercalate ", " ((List.range count).map (fileLabel output)) ++ "\n" ++
        ("\t.word\t0" ++ "\n" ++ (String.join ((List.range count).map fun i =>
          fileLabel output i ++ ":\n\t.incbin\t" ++ Quoted.text (fileName output i) ++ "\n") ++ "\n")) := by
    rw [separateListing, ← String.toList_inj]
    simp
  have hlabels : ∀ l ∈ (List.range count).map (fileLabel output), SymbolText l := by
    intro l hl
    obtain ⟨i, _, heq⟩ := List.mem_map.1 hl
    rw [← heq]
    exact symbolText_fileLabel output i
  rw [htext, mentions_words (by simp; omega) hlabels, mentions_line (by decide), mentions_files]
  rfl

def ownSymbols (output : String) (separate : Bool) (frames : List Frame) : List String :=
  if separate then (List.range frames.length).map (fileLabel output)
  else frames.flatMap (fun f => [f.name ++ "_offset", f.name ++ "_addr"]) ++ [symbolBase output ++ "_end"]

def usedSymbols (output : String) (separate : Bool) (frames : List Frame) : List String :=
  if separate then (List.range frames.length).map (fileLabel output)
  else frames.flatMap fun f => [symbolBase output ++ "_base", f.name ++ "_offset"]

theorem symbols_text (output : String) (options : Options) {frames : List Frame} (hne : frames ≠ [])
    (hframes : ∀ f ∈ frames, Source.isName f.name = true) :
    definedSymbols (text output options frames) = ownSymbols output options.separate frames ∧
      referredSymbols (text output options frames) = usedSymbols output options.separate frames := by
  rw [definedSymbols, referredSymbols, text, ownSymbols, usedSymbols]
  cases options.separate with
  | true =>
    simp only [if_true, mentions_separateListing output (List.length_pos_iff.2 hne)]
    simp [List.flatMap_assoc, List.map_eq_flatMap]
  | false =>
    simp only [Bool.false_eq_true, if_false, listing, mentions_symbols (isWordChar_symbolBase output) _ hframes]
    simp [List.flatMap_assoc]

/-! ### Different symbols -/

section Apart

variable {a b t u : String}

theorem eq_of_append_eq (h : a ++ t = b ++ t) : a = b := by
  have hlist := congrArg String.toList h
  rw [String.toList_append, String.toList_append] at hlist
  exact String.toList_inj.1 (List.append_cancel_right hlist)

/-- Symbols whose last characters differ are different. -/
theorem append_ne (h : t.toList.getLast? ≠ u.toList.getLast?) (ht : t ≠ "") (hu : u ≠ "") : a ++ t ≠ b ++ u := by
  have hlast : ∀ {front tail : String}, tail ≠ "" → (front ++ tail).toList.getLast? = tail.toList.getLast? := by
    intro front tail htail
    rw [String.toList_append, List.getLast?_append_of_ne_nil _ (by simpa using htail)]
  intro heq
  apply h
  rw [← hlast ht, heq, hlast hu]

end Apart

theorem nodup_ownSymbols (output : String) (separate : Bool) {frames : List Frame}
    (hnames : (frames.map Frame.name).Nodup) : (ownSymbols output separate frames).Nodup := by
  rw [ownSymbols]
  cases separate with
  | true => exact List.nodup_range.map fun i j => Numeral.append_padded_injective (by decide) (by decide)
  | false =>
    rw [if_neg Bool.false_ne_true, List.nodup_append]
    refine ⟨List.nodup_flatMap.2 ⟨fun f _ => ?_, ?_⟩, List.nodup_singleton _, fun s hs e he => ?_⟩
    · rw [List.nodup_cons, List.mem_singleton]
      exact ⟨append_ne (by decide) (by decide) (by decide), List.nodup_singleton _⟩
    · refine (List.pairwise_map.1 hnames).imp fun {f g} hne s hs hs' => ?_
      simp only [List.mem_cons, List.not_mem_nil, or_false] at hs hs'
      obtain hs | hs := hs <;> obtain hs' | hs' := hs' <;> rw [hs] at hs'
      · exact hne (eq_of_append_eq hs')
      · exact append_ne (by decide) (by decide) (by decide) hs'
      · exact append_ne (by decide) (by decide) (by decide) hs'
      · exact hne (eq_of_append_eq hs')
    · obtain ⟨f, _, hf⟩ := List.mem_flatMap.1 hs
      rw [List.mem_singleton.1 he]
      simp only [List.mem_cons, List.not_mem_nil, or_false] at hf
      obtain hf | hf := hf <;> rw [hf]
      · exact append_ne (by decide) (by decide) (by decide)
      · exact append_ne (by decide) (by decide) (by decide)

/-! ### Symbols that are names -/

def startsWithDigit (output : String) : Bool :=
  output.toList.head?.any Char.isDigit

/-- A symbol made of a file's name is a name unless the file's name begins with a digit. -/
theorem isName_symbolBase_append (output : String) {tail : String} {rest : List Char}
    (htail : tail.toList = '_' :: rest) (hchars : ∀ c ∈ tail.toList, Source.isWordChar c = true) :
    Source.isName (symbolBase output ++ tail) = true ↔ startsWithDigit output = false := by
  have hwords : ∀ c ∈ (symbolBase output ++ tail).toList, Source.isWordChar c = true := by
    intro c hc
    rw [String.toList_append, List.mem_append] at hc
    exact hc.elim (isWordChar_symbolBase output c) (hchars c)
  have hhead : (symbolBase output ++ tail).toList.head?.any Char.isDigit = startsWithDigit output := by
    rw [startsWithDigit, String.toList_append, symbolBase, String.toList_ofList, htail]
    cases output.toList with
    | nil => rfl
    | cons c cs =>
      show Char.isDigit (if c.isAlphanum then c else '_') = c.isDigit
      split
      · rfl
      · next hno =>
        rw [Char.isAlphanum, Bool.or_eq_true, not_or] at hno
        rw [Bool.eq_false_iff.2 hno.2]
        rfl
  rw [← hhead, Source.isName_iff]
  cases hlist : (symbolBase output ++ tail).toList with
  | nil =>
    rw [String.toList_append, htail] at hlist
    exact absurd hlist (List.append_ne_nil_of_right_ne_nil _ (List.cons_ne_nil _ _))
  | cons c cs =>
    rw [hlist] at hwords
    constructor
    · intro h
      obtain ⟨d, more, heq, hdigit, _⟩ := h
      cases heq
      exact hdigit
    · intro hdigit
      exact ⟨c, cs, rfl, hdigit, hwords⟩

theorem isName_fileLabel (output : String) (i : Nat) :
    Source.isName (fileLabel output i) = true ↔ startsWithDigit output = false := by
  have hlist : ("_" ++ Numeral.padded 10 i).toList = '_' :: (Numeral.padded 10 i).toList := by simp
  rw [fileLabel, String.append_assoc]
  exact isName_symbolBase_append output hlist (isWordChar_number i)

/-- All symbols of a listing are names exactly if the name of the file does not begin with a digit. -/
theorem isName_symbols_iff (output : String) (separate : Bool) {frames : List Frame} (hne : frames ≠ [])
    (hframes : ∀ f ∈ frames, Source.isName f.name = true) :
    (∀ s ∈ ownSymbols output separate frames ++ usedSymbols output separate frames, Source.isName s = true) ↔
      startsWithDigit output = false := by
  rw [ownSymbols, usedSymbols]
  cases separate with
  | true =>
    have hlength := List.length_pos_iff.2 hne
    simp only [if_true, List.mem_append, or_self, List.forall_mem_map, isName_fileLabel]
    exact ⟨fun h => h 0 (List.mem_range.2 hlength), fun h _ _ => h⟩
  | false =>
    have hend : Source.isName (symbolBase output ++ "_end") = true ↔ startsWithDigit output = false :=
      isName_symbolBase_append output rfl (List.all_eq_true.1 (by decide))
    have hbase : Source.isName (symbolBase output ++ "_base") = true ↔ startsWithDigit output = false :=
      isName_symbolBase_append output rfl (List.all_eq_true.1 (by decide))
    have hframe : ∀ {f tail}, f ∈ frames → tail.toList.all Source.isWordChar = true →
        Source.isName (f.name ++ tail) = true := fun hf htail =>
      Source.isName_append (hframes _ hf) (List.all_eq_true.1 htail)
    simp only [Bool.false_eq_true, if_false, List.mem_append, List.mem_flatMap, List.mem_cons, List.not_mem_nil,
      or_false]
    constructor
    · exact fun h => hend.1 (h _ (.inl (.inr rfl)))
    · intro hdigit s hs
      obtain (⟨f, hf, hs | hs⟩ | hs) | ⟨f, hf, hs | hs⟩ := hs <;> rw [hs]
      · exact hframe hf (by decide)
      · exact hframe hf (by decide)
      · exact hend.2 hdigit
      · exact hbase.2 hdigit
      · exact hframe hf (by decide)

/-! ### Listings that are delivered -/

section Runs

variable {output : String} {options : Options} {frames : List Frame} {d d' : Desk}

theorem layout_of_full (hlayout : options.separate = true ∨ options.combined = false)
    (hfull : ∀ f ∈ frames, f.Full) : options.separate = true ∧ (∀ f ∈ frames, f.Full) ∨
      options.separate = false ∧ options.combined = false := by
  cases hseparate : options.separate with
  | true => exact .inl ⟨rfl, hfull⟩
  | false =>
    rw [hseparate] at hlayout
    exact .inr ⟨rfl, hlayout.resolve_left Bool.false_ne_true⟩

/-- No listing is delivered if the files cannot be written. -/
theorem run_writeListing_error {e : Error} (h : Ends (write output options frames) d (.error e) d') :
    StateT.run (writeListing (m := StateM Desk) none output options frames) d = (([], .error e), d') := by
  obtain ⟨records, hrun⟩ := h.run
  rw [writeListing, StateT.run_bind, hrun]
  rfl

theorem eq_text_of_run (hfull : ∀ f ∈ frames, f.Full) {bytes : Bytes}
    (hrun : StateT.run (writeListing (m := StateM Desk) none output options frames) d = ((bytes, .ok ()), d')) :
    bytes = utf8 (text output options frames) := by
  by_cases hlayout : options.separate = true ∨ options.combined = false
  · have hends := ends_write (layout_of_full hlayout hfull) output d
    cases hwritten : Write.carryAll d ((files output options frames).map Write.ofFile) with
    | mk outcome d₁ =>
      simp only [hwritten] at hends
      cases outcome with
      | ok _ =>
        rw [run_writeListing hends] at hrun
        cases hrun
        rfl
      | error e =>
        rw [run_writeListing_error hends] at hrun
        cases hrun
  · rw [not_or, Bool.not_eq_true, Bool.not_eq_false] at hlayout
    rw [run_writeListing_error (rests_write_combined hlayout.1 hlayout.2 frames output d)] at hrun
    cases hrun

theorem exists_run (hlayout : options.separate = true ∨ options.combined = false) (hfull : ∀ f ∈ frames, f.Full)
    (haccepts : ∀ w ∈ files output options frames, d.files.Accepts w.1) :
    ∃ files, StateT.run (writeListing (m := StateM Desk) none output options frames) d =
      ((utf8 (text output options frames), .ok ()), { d with files }) := by
  obtain ⟨tree, hends, _⟩ := exists_written (layout_of_full hlayout hfull) haccepts
  exact ⟨tree, run_writeListing hends⟩

theorem accepts_files (hopen : d.files.Accepts output) : ∀ w ∈ files output {} frames, d.files.Accepts w.1 := by
  intro w hw
  cases List.mem_singleton.1 hw
  exact hopen

end Runs

/-- A reel was read, and its frames have different names. The listing of its images is delivered if every file can
be written, and defines different symbols. All of its symbols are names exactly if the name of the output does not
begin with a digit. -/
theorem writeListing_names_iff {source : Bytes} {reel : Reel} (hparse : Source.parse source = .ok reel)
    (hnames : (reel.frames.map Frame.name).Nodup) (output : String) (options : Options) :
    ∃ listed,
      (∀ {d d' : Desk} {bytes : Bytes},
        StateT.run (writeListing (m := StateM Desk) none output options reel.frames) d = ((bytes, .ok ()), d') →
          bytes = utf8 listed) ∧
      (options.separate = true ∨ options.combined = false →
        ∀ {d : Desk}, (∀ w ∈ files output options reel.frames, d.files.Accepts w.1) →
          ∃ files, StateT.run (writeListing (m := StateM Desk) none output options reel.frames) d =
            ((utf8 listed, .ok ()), { d with files })) ∧
      definedSymbols listed = ownSymbols output options.separate reel.frames ∧
      referredSymbols listed = usedSymbols output options.separate reel.frames ∧
      (definedSymbols listed).Nodup ∧
      ((∀ s ∈ definedSymbols listed ++ referredSymbols listed, Source.isName s = true) ↔
        startsWithDigit output = false) := by
  have hreadable := Source.readable_of_parse hparse
  have hframes : ∀ f ∈ reel.frames, Source.isName f.name = true := fun f hf => (hreadable.frames f hf).isName_name
  have hfull : ∀ f ∈ reel.frames, f.Full := fun f hf => (hreadable.frames f hf).full
  obtain ⟨hdefined, hreferred⟩ := symbols_text output options hreadable.frames_ne_nil hframes
  refine ⟨text output options reel.frames, eq_text_of_run hfull, fun hlayout _ => exists_run hlayout hfull, hdefined,
    hreferred, ?_, ?_⟩
  · rw [hdefined]
    exact nodup_ownSymbols output options.separate hnames
  · rw [hdefined, hreferred]
    exact isName_symbols_iff output options.separate hreadable.frames_ne_nil hframes

/-- A reel whose second name is what the first one's offset is called. -/
def harbor : Reel where
  frames := [Source.uniform "_quay" 0 6 32 14, Source.uniform "_quay_offset" 6 0 160 1]
  canvasWidth := 40
  canvasHeight := 25

theorem readable_harbor : Source.Readable harbor := by
  have hquay : Source.ReadableFrame (Source.uniform "_quay" 0 6 32 14) :=
    @Source.readable_uniform (utf8 "quay") ⟨113, utf8 "uay", rfl, rfl, List.all_eq_true.1 (by decide)⟩ _ _ _ _
      (by decide)
  have hoffset : Source.ReadableFrame (Source.uniform "_quay_offset" 6 0 160 1) :=
    @Source.readable_uniform (utf8 "quay_offset") ⟨113, utf8 "uay_offset", rfl, rfl, List.all_eq_true.1 (by decide)⟩
      _ _ _ _ (by decide)
  refine ⟨?_, List.cons_ne_nil _ _, some ⟨40, 25⟩, rfl, ?_⟩
  · simp only [harbor, List.forall_mem_cons]
    exact ⟨hquay, hoffset, by simp⟩
  · simp [Source.canvasItems, Source.Item.numbers, Source.Terminal.numberLimit]

theorem writeListing_names_iff_harbor :
    Source.parse (Source.write none harbor).1 = .ok harbor ∧ (harbor.frames.map Frame.name).Nodup ∧
      ∃ listed files,
        StateT.run (writeListing (m := StateM Desk) none "c64.prg" {} harbor.frames) {} =
          ((utf8 listed, .ok ()), { files }) ∧
        definedSymbols listed =
          ["_quay_offset", "_quay_addr", "_quay_offset_offset", "_quay_offset_addr", "c64_prg_end"] ∧
        (definedSymbols listed).Nodup ∧
        ∀ s ∈ definedSymbols listed ++ referredSymbols listed, Source.isName s = true := by
  have hnames : (harbor.frames.map Frame.name).Nodup := by decide
  have hparse := readable_harbor.parse_write
  obtain ⟨listed, _, hexists, hdefined, _, hnodup, hiff⟩ := writeListing_names_iff hparse hnames "c64.prg" {}
  have hopen : ({} : Desk).files.Accepts "c64.prg" := FileTree.accepts_iff.2 ⟨["c64.prg"], rfl, by decide, by decide⟩
  obtain ⟨files, hrun⟩ := hexists (.inr rfl) (accepts_files hopen)
  have hown : ownSymbols "c64.prg" false harbor.frames =
      ["_quay_offset", "_quay_addr", "_quay_offset_offset", "_quay_offset_addr", "c64_prg_end"] := by decide
  exact ⟨hparse, hnames, listed, files, hrun, hdefined.trans hown, hnodup, hiff.2 (by decide)⟩

/-- The listing for an output that is named after the machine defines a symbol that is no name. -/
theorem writeListing_unnamed_harbor :
    Source.parse (Source.write none harbor).1 = .ok harbor ∧ (harbor.frames.map Frame.name).Nodup ∧
      ∃ listed files,
        StateT.run (writeListing (m := StateM Desk) none "64.prg" {} harbor.frames) {} =
          ((utf8 listed, .ok ()), { files }) ∧
        "64_prg_end" ∈ definedSymbols listed ∧ Source.isName "64_prg_end" = false := by
  have hopen : ({} : Desk).files.Accepts "64.prg" := FileTree.accepts_iff.2 ⟨["64.prg"], rfl, by decide, by decide⟩
  have hfull : ∀ f ∈ harbor.frames, f.Full := fun f hf => (readable_harbor.frames f hf).full
  obtain ⟨files, hrun⟩ := exists_run (.inr rfl) hfull (accepts_files hopen)
  refine ⟨readable_harbor.parse_write, by decide, _, files, hrun, ?_, by decide⟩
  rw [(symbols_text "64.prg" {} readable_harbor.frames_ne_nil fun f hf => (readable_harbor.frames f hf).isName_name).1]
  decide

end Petscii.Image
