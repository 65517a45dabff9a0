import Petscii.Proofs.Asm.Layout
import Petscii.Proofs.Asm.ReadInstruction

/-!
# Reading what was rendered

An assembler that reads a rendered text gets the lines it was rendered from, comments apart. The arguments
of directives are cut apart at commas and the lines of a text at line feeds, and no line holds a character
that would cut it in another place. The module assembles to the same without its comments.
-/

namespace Petscii.Asm

/-! ### Pieces of a text -/

section Pieces

variable {sep : Char}

theorem pieces_of_notMem {a : List Char} (ha : sep ∉ a) : pieces sep a = [a] := by
  induction a with
  | nil => rfl
  | cons c a ih =>
    rw [List.mem_cons, not_or] at ha
    rw [pieces, ih ha.2]
    simp only [if_neg (Ne.symm ha.1)]

theorem pieces_ne_nil (sep : Char) (cs : List Char) : pieces sep cs ≠ [] := by
  induction cs with
  | nil => simp [pieces]
  | cons c cs ih =>
    rw [pieces]
    split
    · next heq => exact absurd heq ih
    · split <;> simp

theorem pieces_append {a : List Char} (ha : sep ∉ a) (rest : List Char) :
    pieces sep (a ++ sep :: rest) = a :: pieces sep rest := by
  induction a with
  | nil =>
    obtain ⟨piece, more, hrest⟩ := List.exists_cons_of_ne_nil (pieces_ne_nil sep rest)
    rw [List.nil_append, pieces, hrest]
    simp
  | cons c a ih =>
    rw [List.mem_cons, not_or] at ha
    rw [List.cons_append, pieces, ih ha.2]
    simp only [if_neg (Ne.symm ha.1)]

end Pieces

/-! ### Directives -/

def Directive.Legible : Directive → Prop
  | .importSymbol name => Source.isName name = true
  | .exportSymbol name => Source.isName name = true
  | .proc name => Source.isName name = true
  | .repeated _ counter => Source.isName counter = true
  | _ => True

/-- Arguments with commas and blanks between them. -/
def spread (arguments : List (List Char)) : List Char :=
  [',', ' '].intercalate arguments

theorem spread_singleton (a : List Char) : spread [a] = a :=
  List.intercalate_singleton

theorem spread_cons_cons (a b : List Char) (rest : List (List Char)) :
    spread (a :: b :: rest) = a ++ ',' :: ' ' :: spread (b :: rest) := by
  rw [spread, List.intercalate_cons_cons, List.append_assoc]
  rfl

/-- An argument: an operand without a comma. -/
structure Argument (a : List Char) : Prop where
  nonempty : a ≠ []
  chars : ∀ c ∈ a, isOperandChar c = true
  comma : ',' ∉ a

theorem Argument.gapless {a : List Char} (ha : Argument a) : Gapless a :=
  gapless_of_isOperandChar ha.chars

theorem map_trim_pieces_space (cs : List Char) :
    (pieces ',' (' ' :: cs)).map trim = (pieces ',' cs).map trim := by
  obtain ⟨piece, more, hcs⟩ := List.exists_cons_of_ne_nil (pieces_ne_nil ',' cs)
  rw [pieces, hcs]
  simp only [if_neg (show (' ' : Char) ≠ ',' by decide), List.map_cons]
  rw [trim_cons (by decide)]

theorem map_trim_pieces_spread {arguments : List (List Char)} (hne : arguments ≠ [])
    (harguments : ∀ a ∈ arguments, Argument a) :
    (pieces ',' (spread arguments)).map trim = arguments := by
  induction arguments with
  | nil => exact absurd rfl hne
  | cons a rest ih =>
    have ha := harguments a List.mem_cons_self
    cases rest with
    | nil => rw [spread_singleton, pieces_of_notMem ha.comma, List.map_singleton, ha.gapless.tight.trim]
    | cons b rest =>
      rw [spread_cons_cons, pieces_append ha.comma, List.map_cons, map_trim_pieces_space,
        ih (List.cons_ne_nil b rest) fun x hx => harguments x (List.mem_cons_of_mem a hx),
        ha.gapless.tight.trim]

theorem spread_eq {arguments : List (List Char)} (hne : arguments ≠ [])
    (harguments : ∀ a ∈ arguments, Argument a) :
    ∃ front a, spread arguments = front ++ a ∧ Argument a := by
  induction arguments with
  | nil => exact absurd rfl hne
  | cons a rest ih =>
    cases rest with
    | nil => exact ⟨[], a, spread_singleton a, harguments a List.mem_cons_self⟩
    | cons b rest =>
      obtain ⟨front, z, heq, hz⟩ := ih (List.cons_ne_nil b rest) fun x hx =>
        harguments x (List.mem_cons_of_mem a hx)
      refine ⟨a ++ ',' :: ' ' :: front, z, ?_, hz⟩
      rw [spread_cons_cons, heq, List.append_assoc]
      rfl

theorem tight_spread {arguments : List (List Char)} (harguments : ∀ a ∈ arguments, Argument a) :
    Tight (spread arguments) := by
  cases arguments with
  | nil => exact ⟨rfl, rfl⟩
  | cons a rest =>
    have ha := harguments a List.mem_cons_self
    cases rest with
    | nil =>
      rw [spread_singleton]
      exact ha.gapless.tight
    | cons b rest =>
      obtain ⟨front, z, heq, hz⟩ := spread_eq (List.cons_ne_nil b rest) fun x hx =>
        harguments x (List.mem_cons_of_mem a hx)
      rw [spread_cons_cons, heq]
      exact tight_append ha.gapless ha.nonempty hz.gapless hz.nonempty (',' :: ' ' :: front)

theorem argument_of_isName {name : String} (hname : Source.isName name = true) :
    Argument name.toList where
  nonempty := by
    obtain ⟨c, rest, hlist, _⟩ := Source.isName_iff.1 hname
    rw [hlist]
    exact List.cons_ne_nil c rest
  chars := isOperandChar_of_isName hname
  comma hcomma := absurd (Source.isWordChar_of_isName hname ',' hcomma) (by decide)

theorem argument_repr (z : Int) : Argument (Int.repr z).toList where
  nonempty := toList_repr_int_ne_nil z
  chars := isOperandChar_repr z
  comma hcomma := by
    rw [Int.repr_eq_if] at hcomma
    split at hcomma
    · exact absurd (isDigit_of_mem_repr hcomma) (by decide)
    · rw [String.toList_append, List.mem_append] at hcomma
      rcases hcomma with hcomma | hcomma
      · exact absurd hcomma (by decide)
      · exact absurd (isDigit_of_mem_repr hcomma) (by decide)

namespace Directive

variable {d : Directive}

theorem Legible.arguments (hd : d.Legible) : ∀ a ∈ d.arguments.map String.toList, Argument a := by
  have hone : ∀ {name : String}, Source.isName name = true →
      ∀ a ∈ [name].map String.toList, Argument a := by
    intro name hname a ha
    rw [List.map_singleton, List.mem_singleton] at ha
    rw [ha]
    exact argument_of_isName hname
  cases d with
  | importSymbol name => exact hone hd
  | exportSymbol name => exact hone hd
  | proc name => exact hone hd
  | repeated times counter =>
    intro a ha
    simp only [Directive.arguments, List.map_cons, List.map_nil, List.mem_cons, List.not_mem_nil,
      or_false] at ha
    rcases ha with rfl | rfl
    · exact argument_repr times
    · exact argument_of_isName hd
  | byte values =>
    intro a ha
    obtain ⟨text, htext, rfl⟩ := List.mem_map.1 ha
    obtain ⟨c, _, rfl⟩ := List.mem_map.1 htext
    exact argument_repr c.toInt
  | _ => exact fun a ha => absurd ha List.not_mem_nil

def body (d : Directive) : List Char :=
  d.name.toList ++
    if d.arguments = [] then [] else '\t' :: spread (d.arguments.map String.toList)

theorem toList_directiveText (d : Directive) :
    (directiveText d.name d.arguments).toList = '\t' :: (d.body ++ ['\n']) := by
  rw [directiveText, body]
  split
  · simp
  · simp [spread]

theorem toList_name (d : Directive) :
    ∃ word, d.name.toList = '.' :: word ∧ ∀ c ∈ word, isOperandChar c = true := by
  refine ⟨d.name.toList.tail, ?_, List.all_eq_true.1 ?_⟩
  all_goals cases d <;> rw [name] <;> decide

theorem gapless_name (d : Directive) : Gapless d.name.toList := by
  obtain ⟨word, hname, hword⟩ := d.toList_name
  rw [hname]
  intro c hc
  rcases List.mem_cons.1 hc with rfl | hc
  · rfl
  · exact gapless_of_isOperandChar hword c hc

theorem Legible.firstWord_body (hd : d.Legible) :
    firstWord d.body = (d.name.toList, spread (d.arguments.map String.toList)) := by
  rw [body]
  split
  · next hnone => rw [List.append_nil, firstWord_alone d.gapless_name, hnone]; rfl
  · exact firstWord_append d.gapless_name (tight_spread hd.arguments)

theorem Legible.pieces_eq (hd : d.Legible) :
    (if spread (d.arguments.map String.toList) = [] then []
      else (pieces ',' (spread (d.arguments.map String.toList))).map trim) =
      d.arguments.map String.toList := by
  by_cases hnone : d.arguments.map String.toList = []
  · rw [hnone]
    rfl
  · obtain ⟨front, a, heq, ha⟩ := spread_eq hnone hd.arguments
    have hne : spread (d.arguments.map String.toList) ≠ [] := by
      rw [heq]
      exact List.append_ne_nil_of_right_ne_nil front ha.nonempty
    rw [if_neg hne, map_trim_pieces_spread hnone hd.arguments]

end Directive

theorem mapM_readInt (values : List Cell) :
    ((values.map Cell.text).map String.toList).mapM readInt = some (values.map Int64.toInt) := by
  induction values with
  | nil => rfl
  | cons c values ih =>
    rw [List.map_cons, List.map_cons, List.mapM_cons, ih, Cell.text, readInt_repr]
    rfl

theorem readDirective_body {d : Directive} (hd : d.Legible) : readDirective d.body = some d := by
  simp only [readDirective, hd.firstWord_body, hd.pieces_eq, String.ofList_toList]
  cases d with
  | importSymbol name =>
    exact congrArg (fun n => some (Directive.importSymbol n)) String.ofList_toList
  | exportSymbol name =>
    exact congrArg (fun n => some (Directive.exportSymbol n)) String.ofList_toList
  | proc name => exact congrArg (fun n => some (Directive.proc n)) String.ofList_toList
  | repeated times counter =>
    change (readNat (Nat.repr times).toList).bind
      (fun n => some (Directive.repeated n (String.ofList counter.toList))) = _
    rw [readNat_repr, String.ofList_toList]
    rfl
  | byte values =>
    change (((values.map Cell.text).map String.toList).mapM readInt).bind
      (fun ints => some (Directive.byte (ints.map Int64.ofInt))) = _
    rw [mapM_readInt]
    simp [Function.comp_def]
  | _ => rfl

/-! ### Lines -/

def Line.Legible : Line → Prop
  | .blank => True
  | .comment text => '\n' ∉ text.toList
  | .label name => Source.isName name = true
  | .directive d => d.Legible
  | .instruction i => i.Legible

/-- A line as an assembler sees it. -/
def Line.bare : Line → Line
  | .comment _ => .blank
  | line => line

def isLineChar (c : Char) : Bool :=
  isOperandChar c || isGap c || c == '.'

theorem isLineChar_of_isOperandChar {c : Char} (hc : isOperandChar c = true) : isLineChar c = true := by
  rw [isLineChar, hc]
  rfl

theorem isLineChar_of_mem_spread {arguments : List (List Char)} (harguments : ∀ a ∈ arguments, Argument a) :
    ∀ c ∈ spread arguments, isLineChar c = true := by
  induction arguments with
  | nil => exact fun c hc => absurd hc List.not_mem_nil
  | cons a rest ih =>
    have ha := harguments a List.mem_cons_self
    have hrest := ih fun x hx => harguments x (List.mem_cons_of_mem a hx)
    intro c hc
    cases rest with
    | nil =>
      rw [spread_singleton] at hc
      exact isLineChar_of_isOperandChar (ha.chars c hc)
    | cons b rest =>
      rw [spread_cons_cons, List.mem_append, List.mem_cons, List.mem_cons] at hc
      rcases hc with hc | rfl | rfl | hc
      · exact isLineChar_of_isOperandChar (ha.chars c hc)
      · decide
      · decide
      · exact hrest c hc

theorem Directive.Legible.isLineChar {d : Directive} (hd : d.Legible) :
    ∀ c ∈ d.body, isLineChar c = true := by
  obtain ⟨word, hname, hword⟩ := d.toList_name
  intro c hc
  rw [Directive.body, hname, List.mem_append, List.mem_cons] at hc
  rcases hc with (rfl | hc) | hc
  · decide
  · exact isLineChar_of_isOperandChar (hword c hc)
  · split at hc
    · exact absurd hc List.not_mem_nil
    · rcases List.mem_cons.1 hc with rfl | hc
      · decide
      · exact isLineChar_of_mem_spread hd.arguments c hc

theorem Directive.Legible.tight_body {d : Directive} (hd : d.Legible) : Tight d.body := by
  obtain ⟨word, hname, _⟩ := d.toList_name
  rw [Directive.body]
  split
  · rw [List.append_nil]
    exact d.gapless_name.tight
  · next hsome =>
    obtain ⟨front, a, heq, ha⟩ := spread_eq (by simpa using hsome) hd.arguments
    rw [heq]
    exact tight_append d.gapless_name (by rw [hname]; exact List.cons_ne_nil _ _) ha.gapless ha.nonempty
      ('\t' :: front)

theorem Instruction.Legible.isLineChar {i : Instruction Expr} (hi : i.Legible) :
    ∀ c ∈ (i.text Expr.text).toList, isLineChar c = true := by
  have hword : ∀ c ∈ i.mnemonic.toList, Asm.isLineChar c = true := fun c hc =>
    isLineChar_of_isOperandChar (isOperandChar_of_isName i.isName_mnemonic c hc)
  intro c hc
  rcases toList_text hi with ⟨htext, _⟩ | ⟨htext, _⟩
  · rw [htext] at hc
    exact hword c hc
  · rw [htext, List.mem_append, List.mem_cons] at hc
    rcases hc with hc | rfl | hc
    · exact hword c hc
    · decide
    · exact isLineChar_of_isOperandChar (hi.isOperandChar c hc)

theorem Instruction.Legible.tight_text {i : Instruction Expr} (hi : i.Legible) :
    Tight (i.text Expr.text).toList := by
  have hne : i.mnemonic.toList ≠ [] := (argument_of_isName i.isName_mnemonic).nonempty
  rcases toList_text hi with ⟨htext, _⟩ | ⟨htext, hoperand⟩
  · rw [htext]
    exact i.gapless_mnemonic.tight
  · rw [htext]
    exact tight_append i.gapless_mnemonic hne (gapless_of_isOperandChar hi.isOperandChar) hoperand ['\t']

/-- Indentation is left out, and a semicolon is what ends a line early. -/
theorem trim_takeWhile {g body : List Char} (hgaps : ∀ c ∈ g, isGap c = true) (hbody : Tight body)
    (hsemicolon : ';' ∉ body) : trim ((g ++ body).takeWhile (· != ';')) = body := by
  have hall : ∀ c ∈ g ++ body, (c != ';') = true := by
    intro c hc
    rw [bne_iff_ne]
    rintro rfl
    rcases List.mem_append.1 hc with hc | hc
    · exact absurd (hgaps _ hc) (by decide)
    · exact hsemicolon hc
  rw [List.takeWhile_eq_self_iff.2 hall, trim_append hgaps hbody]

theorem readLine_label {name : String} (hname : Source.isName name = true) :
    readLine (name.toList ++ [':']) = some (.label name) := by
  have hargument := argument_of_isName hname
  have hword := Source.isWordChar_of_isName hname
  have htight : Tight (name.toList ++ [':']) := by
    apply tight_append hargument.gapless hargument.nonempty (b := [':']) _ (by simp) []
    intro c hc
    rw [List.mem_singleton.1 hc]
    rfl
  have hsemicolon : ';' ∉ name.toList ++ [':'] := by
    rw [List.mem_append, not_or]
    exact ⟨fun h => absurd (hword _ h) (by decide), by decide⟩
  have hshown : trim ((name.toList ++ [':']).takeWhile (· != ';')) = name.toList ++ [':'] := by
    simpa using trim_takeWhile (g := []) (by simp) htight hsemicolon
  rw [readLine, hshown]
  split
  · next heq => simp at heq
  · next rest heq =>
    obtain ⟨c, more, hlist⟩ := List.exists_cons_of_ne_nil hargument.nonempty
    rw [hlist, List.cons_append, List.cons.injEq] at heq
    exact absurd (hword c (hlist ▸ List.mem_cons_self)) (by rw [heq.1]; decide)
  · rw [List.reverse_append]
    change some (Line.label (String.ofList name.toList.reverse.reverse)) = _
    rw [List.reverse_reverse, String.ofList_toList]

theorem readLine_directive {g : List Char} (hgaps : ∀ c ∈ g, isGap c = true) {d : Directive}
    (hd : d.Legible) : readLine (g ++ d.body) = some (.directive d) := by
  have hsemicolon : ';' ∉ d.body := fun h => absurd (hd.isLineChar _ h) (by decide)
  have hread := readDirective_body hd
  obtain ⟨word, hname, _⟩ := d.toList_name
  rw [readLine, trim_takeWhile hgaps hd.tight_body hsemicolon]
  rw [Directive.body, hname, List.cons_append] at hread ⊢
  simp only [hread]
  rfl

theorem readLine_instruction {gaps : List Char} (hgaps : ∀ c ∈ gaps, isGap c = true)
    {i : Instruction Expr} (hi : i.Legible) :
    readLine (gaps ++ (i.text Expr.text).toList) = some (.instruction i) := by
  have hsemicolon : ';' ∉ (i.text Expr.text).toList := fun h => absurd (hi.isLineChar _ h) (by decide)
  have hcolon : ':' ∉ (i.text Expr.text).toList := fun h => absurd (hi.isLineChar _ h) (by decide)
  have hread := readInstruction_text hi
  obtain ⟨c, rest, hword⟩ := List.exists_cons_of_ne_nil (argument_of_isName i.isName_mnemonic).nonempty
  have hfirst : ∃ more, (i.text Expr.text).toList = c :: more := by
    rcases Instruction.toList_text hi with ⟨htext, _⟩ | ⟨htext, _⟩
    · exact ⟨rest, htext.trans hword⟩
    · exact ⟨rest ++ '\t' :: i.operand, by rw [htext, hword, List.cons_append]⟩
  have hdot : c ≠ '.' := by
    rintro rfl
    exact absurd (Source.isWordChar_of_isName i.isName_mnemonic '.' (hword ▸ List.mem_cons_self))
      (by decide)
  rw [readLine, trim_takeWhile hgaps hi.tight_text hsemicolon]
  obtain ⟨more, htext⟩ := hfirst
  split
  · next heq =>
    rw [htext] at heq
    cases heq
  · next rest heq =>
    rw [htext, List.cons.injEq] at heq
    exact absurd heq.1 hdot
  · split
    · next name heq =>
      refine absurd ?_ hcolon
      rw [← List.mem_reverse, heq]
      exact List.mem_cons_self
    · rw [hread]
      rfl

theorem readLine_text {indent : String} (hindent : ∀ c ∈ indent.toList, isGap c = true) {line : Line}
    (hline : line.Legible) :
    ∃ body, (line.text indent).toList = body ++ ['\n'] ∧ '\n' ∉ body ∧ readLine body = some line.bare := by
  have hline' : ∀ {cs : List Char}, (∀ c ∈ cs, isLineChar c = true) → '\n' ∉ cs := fun h hmem =>
    absurd (h _ hmem) (by decide)
  cases line with
  | blank => exact ⟨[], by simp [Line.text], List.not_mem_nil, rfl⟩
  | comment text =>
    refine ⟨';' :: text.toList, by simp [Line.text], ?_, rfl⟩
    rw [List.mem_cons, not_or]
    exact ⟨by decide, hline⟩
  | label name =>
    refine ⟨name.toList ++ [':'], by simp [Line.text, labelText], ?_, readLine_label hline⟩
    rw [List.mem_append, not_or]
    exact ⟨fun h => absurd (Source.isWordChar_of_isName hline _ h) (by decide), by decide⟩
  | directive d =>
    refine ⟨'\t' :: d.body, ?_, ?_, readLine_directive (g := ['\t']) (List.all_eq_true.1 rfl) hline⟩
    · rw [Line.text, Directive.toList_directiveText, List.cons_append]
    · rw [List.mem_cons, not_or]
      exact ⟨by decide, hline' (Directive.Legible.isLineChar hline)⟩
  | instruction i =>
    refine ⟨indent.toList ++ (i.text Expr.text).toList, ?_, ?_, readLine_instruction hindent hline⟩
    · simp [Line.text, instructionText]
    · rw [List.mem_append, not_or]
      exact ⟨fun h => absurd (hindent _ h) (by decide),
        hline' (Instruction.Legible.isLineChar hline)⟩

theorem render_append (indent : String) (lines more : List Line) :
    render indent (lines ++ more) = render indent lines ++ render indent more := by
  rw [render, List.map_append, String.join_append]
  rfl

theorem render_cons (indent : String) (line : Line) (lines : List Line) :
    render indent (line :: lines) = line.text indent ++ render indent lines := by
  rw [render, List.map_cons, String.join_cons]
  rfl

/-- A rendered text is read back, comments as empty lines. -/
theorem read_render {indent : String} (hindent : ∀ c ∈ indent.toList, isGap c = true) {lines : List Line}
    (hlines : ∀ line ∈ lines, line.Legible) : read (render indent lines) = some (lines.map Line.bare) := by
  have hcut : ∀ lines : List Line, (∀ line ∈ lines, line.Legible) →
      ∃ bodies, pieces '\n' (render indent lines).toList = bodies ++ [[]] ∧
        bodies.mapM readLine = some (lines.map Line.bare) := by
    intro lines hlines
    induction lines with
    | nil => exact ⟨[], rfl, rfl⟩
    | cons line lines ih =>
      obtain ⟨body, htext, hnewline, hread⟩ := readLine_text hindent (hlines line List.mem_cons_self)
      obtain ⟨bodies, hpieces, hbodies⟩ := ih fun l hl => hlines l (List.mem_cons_of_mem line hl)
      refine ⟨body :: bodies, ?_, ?_⟩
      · rw [render_cons, String.toList_append, htext, List.append_assoc, List.singleton_append,
          pieces_append hnewline, hpieces, List.cons_append]
      · rw [List.mapM_cons, hread, hbodies]
        rfl
  obtain ⟨bodies, hpieces, hbodies⟩ := hcut lines hlines
  rw [read, hpieces, List.dropLast_concat, hbodies]

/-! ### A module without its comments -/

def BoundLine.bare (c : BoundLine) : BoundLine :=
  { c with line := c.line.bare }

theorem Line.Single.bare {line : Line} (h : line.Single) : line.bare.Single := by
  cases line with
  | comment text => trivial
  | _ => exact h

theorem Repetition.copies_bare (r : Repetition) :
    Repetition.copies { r with body := r.body.map Line.bare } = r.copies.map BoundLine.bare := by
  rw [copies, copies, List.map_flatMap]
  simp only [← List.map_reverse, List.map_map]
  rfl

theorem expandFrom_bare (lines : List Line) :
    expandFrom none (lines.map Line.bare) = (expandFrom none lines).map (List.map BoundLine.bare) ∧
    ∀ r : Repetition, expandFrom (some { r with body := r.body.map Line.bare }) (lines.map Line.bare) =
      (expandFrom (some r) lines).map (List.map BoundLine.bare) := by
  induction lines with
  | nil => exact ⟨rfl, fun r => rfl⟩
  | cons line lines ih =>
    have hsingle (h : line.Single) :
        expandFrom none ((line :: lines).map Line.bare) =
            (expandFrom none (line :: lines)).map (List.map BoundLine.bare) ∧
          ∀ r : Repetition,
            expandFrom (some { r with body := r.body.map Line.bare }) ((line :: lines).map Line.bare) =
              (expandFrom (some r) (line :: lines)).map (List.map BoundLine.bare) := by
      rw [List.map_cons, expandFrom_none_cons h, expandFrom_none_cons h.bare, ih.1, Option.map_map,
        Option.map_map]
      refine ⟨rfl, fun r => ?_⟩
      rw [expandFrom_some_cons h, expandFrom_some_cons h.bare]
      exact ih.2 { r with body := line :: r.body }
    cases line with
    | directive d =>
      cases d with
      | repeated times counter => exact ⟨ih.2 ⟨times, counter, []⟩, fun r => rfl⟩
      | endrepeat =>
        refine ⟨rfl, fun r => ?_⟩
        simp only [List.map_cons, Line.bare, expandFrom, ih.1, r.copies_bare, Option.map_map]
        congr 1
        funext rest
        exact List.map_append.symm
      | _ => exact hsingle trivial
    | _ => exact hsingle trivial

theorem layoutFrom_bare (p : Position) (lines : List BoundLine) :
    layoutFrom p (lines.map BoundLine.bare) = layoutFrom p lines := by
  induction lines generalizing p with
  | nil => rfl
  | cons c lines ih =>
    obtain ⟨line, counters⟩ := c
    cases line with
    | comment text => exact ih p
    | directive d => cases d <;> simp only [List.map_cons, BoundLine.bare, Line.bare, layoutFrom, ih]
    | _ => simp only [List.map_cons, BoundLine.bare, Line.bare, layoutFrom, ih]

/-- Comments do not change what a module assembles to. -/
theorem assemble_bare (imports : Symbols) (origin : Nat) (lines : List Line) :
    assemble imports origin (lines.map Line.bare) = assemble imports origin lines := by
  rw [assemble, assemble, expand, expand, (expandFrom_bare lines).1]
  cases expandFrom none lines with
  | none => rfl
  | some bound =>
    simp only [Option.map_some, Option.bind_eq_bind, Option.bind_some]
    rw [layoutFrom_bare]

theorem label_mem_bare {name : String} {lines : List Line} :
    Line.label name ∈ lines.map Line.bare ↔ Line.label name ∈ lines := by
  constructor
  · intro h
    obtain ⟨line, hline, heq⟩ := List.mem_map.1 h
    cases line <;> cases heq
    exact hline
  · exact fun h => List.mem_map.2 ⟨_, h, rfl⟩

end Petscii.Asm
