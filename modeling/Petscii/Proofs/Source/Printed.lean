import Petscii.Proofs.Source.Accept
import Petscii.Source.Print

/-!
# Printed texts

The text printed for a reel is a file of the grammar that means this reel, if every frame is full, has a name
behind an underscore and no negative value. Numbers, rows, frames and comments are derived one after the
other, each in front of whatever follows it.
-/

namespace Petscii.Source

/-! ### Numerals -/

theorem isDigit_ofNat : ∀ n, n < 128 → isDigit (UInt8.ofNat n) = (Char.ofNat n).isDigit := by
  decide

theorem utf8_repr (n : Nat) : utf8 (Nat.repr n) = (Nat.toDigits 10 n).map fun c => UInt8.ofNat c.toNat := by
  have hascii : ∀ c ∈ (Nat.repr n).toList, c.toNat < 128 :=
    fun c hc => toNat_lt_of_isWordChar (isWordChar_of_isDigit (isDigit_of_mem_repr hc))
  rw [← Nat.toList_repr, ← utf8_ofList hascii, String.ofList_toList]

theorem numberText_repr (n : Nat) : NumberText (utf8 (Nat.repr n)) := by
  rw [utf8_repr]
  refine ⟨by simp [Nat.toDigits_ne_nil], ?_⟩
  intro d hd
  obtain ⟨c, hc, rfl⟩ := List.mem_map.1 hd
  rw [← Nat.toList_repr] at hc
  have hdigit := isDigit_of_mem_repr hc
  rw [isDigit_ofNat _ (toNat_lt_of_isWordChar (isWordChar_of_isDigit hdigit)), Char.ofNat_toNat, hdigit]

theorem decimal_repr (n : Nat) : decimal (utf8 (Nat.repr n)) = n := by
  have hfold : ∀ (chars : List Char) (k : Nat), (∀ c ∈ chars, c.toNat < 128) →
      (chars.map fun c => UInt8.ofNat c.toNat).foldl (fun n d => 10 * n + (d.toNat - 48)) k =
        Nat.ofDigitChars 10 chars k := by
    intro chars
    induction chars with
    | nil => exact fun _ _ => rfl
    | cons c chars ih =>
      intro k hascii
      obtain ⟨hc, hchars⟩ := List.forall_mem_cons.1 hascii
      rw [List.map_cons, List.foldl_cons, ih _ hchars, Nat.ofDigitChars_cons,
        UInt8.toNat_ofNat_of_lt' (Nat.lt_trans hc (by decide))]
      rfl
  rw [decimal, utf8_repr, hfold, Nat.ofDigitChars_ten_toDigits]
  intro c hc
  rw [← Nat.toList_repr] at hc
  exact toNat_lt_of_isWordChar (isWordChar_of_isDigit (isDigit_of_mem_repr hc))

def number (v : Cell) : Nat :=
  v.toInt.toNat

theorem number_lt (v : Cell) : number v < Terminal.numberLimit := by
  have hlt := v.toInt_lt
  simp only [number, Terminal.numberLimit]
  omega

theorem ofNat_number {v : Cell} (h : 0 ≤ v.toInt) : Int64.ofNat (number v) = v := by
  apply Int64.toInt_inj.1
  rw [Int64.toInt_ofNat_of_lt (number_lt v), number, Int.toNat_of_nonneg h]

theorem text_eq_repr {v : Cell} (h : 0 ≤ v.toInt) : Cell.text v = Nat.repr (number v) := by
  rw [Cell.text, Int.repr_eq_if, if_pos h, number]

/-! ### Rows -/

theorem Spaced.space {text s t : Bytes} {b : UInt8} (hb : isSpace b = true) (h : Spaced text s t) :
    Spaced text (b :: s) t := by
  obtain ⟨space, hspace, rfl⟩ := h
  exact ⟨b :: space, List.forall_mem_cons.2 ⟨hb, hspace⟩, rfl⟩

theorem ReadsData.space {ns : List Nat} {s t : Bytes} {b : UInt8} (hb : isSpace b = true)
    (h : ReadsData ns s t) : ReadsData ns (b :: s) t := by
  obtain ⟨n, more, u, rfl, ⟨digits, hspaced, hdigits⟩, hmore⟩ := h
  exact ⟨n, more, u, rfl, ⟨digits, hspaced.space hb, hdigits⟩, hmore⟩

theorem ReadsMore.append {ns ms : List Nat} {s t u : Bytes} (h : ReadsMore ns s t) (h' : ReadsMore ms t u) :
    ReadsMore (ns ++ ms) s u := by
  induction h with
  | done => exact h'
  | next hcomma hnumber _ ih => exact ReadsMore.next hcomma hnumber (ih h')

theorem ReadsData.append {ns ms : List Nat} {s t t' u : Bytes} (h : ReadsData ns s t)
    (hcomma : ReadsMark .comma t t') (h' : ReadsData ms t' u) : ReadsData (ns ++ ms) s u := by
  obtain ⟨n, more, v, rfl, hnumber, hmore⟩ := h
  obtain ⟨m, more', v', rfl, hnumber', hmore'⟩ := h'
  exact ⟨n, more ++ m :: more', v, rfl, hnumber, hmore.append (ReadsMore.next hcomma hnumber' hmore')⟩

theorem readsData_text {v : Cell} (hv : 0 ≤ v.toInt) {u : Bytes} (hu : Off isDigit u) :
    ReadsData [number v] (utf8 (Cell.text v) ++ u) u := by
  refine ⟨number v, [], u, rfl, ⟨utf8 (Cell.text v), ⟨[], by simp, rfl⟩, ?_⟩, ReadsMore.done⟩
  rw [text_eq_repr hv]
  exact ⟨numberText_repr _, decimal_repr _, hu⟩

theorem readsData_values {row : List Cell} (hne : row ≠ []) (hrow : ∀ v ∈ row, 0 ≤ v.toInt) {u : Bytes}
    (hu : Off isDigit u) :
    ReadsData (row.map number) (utf8 (String.intercalate "," (row.map Cell.text)) ++ u) u := by
  induction row with
  | nil => exact absurd rfl hne
  | cons v row ih =>
    obtain ⟨hv, hrest⟩ := List.forall_mem_cons.1 hrow
    cases row with
    | nil => exact readsData_text hv hu
    | cons w row =>
      have htail := ih (List.cons_ne_nil w row) hrest
      simp only [List.map_cons] at htail ⊢
      rw [String.intercalate_cons_cons, utf8_append, utf8_append, List.append_assoc, List.append_assoc]
      have hoff : ∀ s, Off isDigit (utf8 "," ++ s) := fun s => rfl
      have hcomma : ∀ s, ReadsMark .comma (utf8 "," ++ s) s := fun s => ⟨[], by simp, rfl⟩
      exact (readsData_text hv (hoff _)).append (hcomma _) htail

theorem readsData_line {row : List Cell} (hne : row ≠ []) (hrow : ∀ v ∈ row, 0 ≤ v.toInt) {ms : List Nat}
    {s t : Bytes} (h : ReadsData ms s t) :
    ReadsData (row.map number ++ ms) (utf8 (valuesText row true) ++ s) t := by
  rw [valuesText, utf8_append, List.append_assoc]
  have hoff : Off isDigit (utf8 ",\n" ++ s) := rfl
  have hcomma : ReadsMark .comma (utf8 ",\n" ++ s) (newline :: s) := ⟨[], by simp, rfl⟩
  exact (readsData_values hne hrow hoff).append hcomma (h.space rfl)

theorem readsData_lines {rows : List (List Cell)} (hne : ∀ row ∈ rows, row ≠ [])
    (hrows : ∀ v ∈ rows.flatten, 0 ≤ v.toInt) {ms : List Nat} {s t : Bytes} (h : ReadsData ms s t) :
    ReadsData (rows.flatten.map number ++ ms)
      (utf8 (String.join (rows.map fun row => valuesText row true)) ++ s) t := by
  induction rows with
  | nil => exact h
  | cons row rows ih =>
    obtain ⟨hrow, hne⟩ := List.forall_mem_cons.1 hne
    obtain ⟨hvalues, hrows⟩ := List.forall_mem_append.1 hrows
    rw [List.flatten_cons, List.map_append, List.append_assoc, List.map_cons, String.join_cons, utf8_append,
      List.append_assoc]
    exact readsData_line hrow hvalues (ih hne hrows)

theorem readsData_lastLines {rows : List (List Cell)} {k height : Nat} (hlength : k + rows.length = height)
    (hsome : rows ≠ []) (hne : ∀ row ∈ rows, row ≠ []) (hrows : ∀ v ∈ rows.flatten, 0 ≤ v.toInt)
    (s : Bytes) :
    ReadsData (rows.flatten.map number) (utf8 (String.join ((rows.zipIdx k).map fun (row, r) =>
      valuesText row (decide ((r : Int) + 1 < height)))) ++ s) (newline :: s) := by
  induction rows generalizing k with
  | nil => exact absurd rfl hsome
  | cons row rows ih =>
    obtain ⟨hrow, hne⟩ := List.forall_mem_cons.1 hne
    obtain ⟨hvalues, hrows⟩ := List.forall_mem_append.1 hrows
    rw [List.length_cons] at hlength
    rw [List.zipIdx_cons, List.map_cons, String.join_cons, utf8_append, List.append_assoc,
      List.flatten_cons, List.map_append]
    cases rows with
    | nil =>
      have hlast : decide ((k : Int) + 1 < height) = false := by
        rw [decide_eq_false_iff_not]
        simp only [List.length_nil] at hlength
        omega
      simp only [hlast, List.zipIdx_nil, List.map_nil, List.flatten_nil, List.append_nil]
      rw [valuesText, utf8_append, List.append_assoc]
      exact readsData_values hrow hvalues rfl
    | cons next rows =>
      have hmore : decide ((k : Int) + 1 < height) = true := by
        rw [decide_eq_true_iff]
        simp only [List.length_cons] at hlength
        omega
      simp only [hmore]
      exact readsData_line hrow hvalues (ih (by omega) (by simp) hne hrows)

/-! ### Comments and frames -/

theorem readsComment_line {numbers : List Nat} {body : Bytes} (hbody : newline ∉ body)
    (htag : ReadsTag numbers body) (t : Bytes) :
    ReadsComment numbers (utf8 "//" ++ (body ++ newline :: t)) t :=
  ReadsComment.line ⟨[], by simp, rfl⟩ hbody htag

theorem readsTag_meta (width height : Nat) :
    ReadsTag [width, height] (utf8 (" META: " ++ Nat.repr width ++ " " ++ Nat.repr height)) := by
  have hblank : ∀ b ∈ utf8 " ", isBlank b = true := List.all_eq_true.1 (by decide)
  have htext : utf8 " META: " = utf8 " " ++ tagText ++ utf8 " " := rfl
  have htag := @ReadsTag.two (utf8 " ") (utf8 " ") (utf8 " ") _ _ [] hblank hblank hblank (by decide)
    (numberText_repr width) (numberText_repr height) rfl
  rw [decimal_repr, decimal_repr, List.append_nil] at htag
  simpa only [utf8_append, htext] using htag

theorem newline_notMem_repr (n : Nat) : newline ∉ utf8 (Nat.repr n) := by
  intro hmem
  exact absurd ((numberText_repr n).2 newline hmem) (by decide)

theorem toNat_ofNat_char : ∀ n, n < 128 → (Char.ofNat n).toNat = n := by
  decide

theorem utf8_asciiText {name : Bytes} (h : NameText name) : utf8 (asciiText name) = name := by
  have hsmall : ∀ b ∈ name, (Char.ofNat b.toNat).toNat = b.toNat ∧ b.toNat < 128 := by
    intro b hb
    have hlt := isNameByte_lt (h.isNameByte b hb)
    exact ⟨toNat_ofNat_char _ hlt, hlt⟩
  rw [asciiText, utf8_ofList, List.map_map]
  · conv_rhs => rw [← List.map_id name]
    refine List.map_congr_left fun b hb => ?_
    simp only [Function.comp_apply, (hsmall b hb).1, UInt8.ofNat_toNat, id_eq]
  · intro c hc
    obtain ⟨b, hb, rfl⟩ := List.mem_map.1 hc
    rw [(hsmall b hb).1]
    exact (hsmall b hb).2

theorem bareName_underscore (name : String) : bareName ("_" ++ name) = name := by
  have hlist : ("_" ++ name).toList = '_' :: name.toList := by
    rw [String.toList_append]
    rfl
  rw [bareName, hlist]
  exact String.ofList_toList

theorem readsHead_text {name : Bytes} (hname : NameText name) (t : Bytes) :
    ReadsHead name (utf8 "unsigned char " ++ (name ++ (utf8 "[]=\x7b" ++ t))) t := by
  have hblank : ∀ b ∈ utf8 " ", isSpace b = true := List.all_eq_true.1 (by decide)
  refine ⟨utf8 " char " ++ (name ++ (utf8 "[]=\x7b" ++ t)), utf8 " " ++ (name ++ (utf8 "[]=\x7b" ++ t)),
    utf8 "[]=\x7b" ++ t, utf8 "]=\x7b" ++ t, utf8 "=\x7b" ++ t, utf8 "\x7b" ++ t, ?_, ?_, ?_, ?_, ?_, ?_, ?_⟩
  · exact ⟨⟨[], by simp, rfl⟩, rfl⟩
  · exact ⟨⟨utf8 " ", hblank, rfl⟩, rfl⟩
  · exact ⟨⟨utf8 " ", hblank, rfl⟩, hname, rfl⟩
  · exact ⟨[], by simp, rfl⟩
  · exact ⟨[], by simp, rfl⟩
  · exact ⟨[], by simp, rfl⟩
  · exact ⟨[], by simp, rfl⟩

def production (f : Frame) : Production :=
  ⟨utf8 (bareName f.name), some [], f.payload.map number⟩

/-- What a frame read from a source text is like. -/
structure ReadableFrame (f : Frame) : Prop where
  full : f.Full
  name : ∃ name, NameText name ∧ f.name = "_" ++ asciiText name
  values : ∀ v ∈ f.payload, 0 ≤ v.toInt

theorem ReadableFrame.isName_name {f : Frame} (h : ReadableFrame f) : isName f.name = true := by
  obtain ⟨name, hname, heq⟩ := h.name
  have hbytes : utf8 f.name = 95 :: name := by
    rw [heq, utf8_append, utf8_asciiText hname]
    rfl
  have hall : name.all isNameByte = true := List.all_eq_true.2 hname.isNameByte
  rw [isName, hbytes]
  simp only [hall, Bool.and_true]
  decide

theorem ReadableFrame.builds {f : Frame} (h : ReadableFrame f) : Builds (production f) f := by
  obtain ⟨name, hname, heq⟩ := h.name
  refine Frame.ofPayload_eq_ok.2 ⟨h.full, ?_, ?_⟩
  · rw [production, heq, bareName_underscore, utf8_asciiText hname]
  · rw [production, List.map_map]
    conv_lhs => rw [← List.map_id f.payload]
    exact List.map_congr_left fun v hv => (ofNat_number (h.values v hv)).symm

/-- A frame is printed as its production, and a line ends behind it. -/
theorem ReadableFrame.readsFrame {f : Frame} (h : ReadableFrame f) :
    ∃ text, frameText f = .ok text ∧ ∀ s, ReadsFrame (production f) (utf8 text ++ s) (newline :: s) := by
  obtain ⟨name, hname, heq⟩ := h.name
  obtain ⟨chars, hchars, _, hflat, hne⟩ := h.full.rows_eq .chars
  obtain ⟨colors, hcolors, hlength, hflat', hne'⟩ := h.full.rows_eq .colors
  have hbare : bareName f.name = asciiText name := by rw [heq, bareName_underscore]
  refine ⟨_, by rw [frameText, hchars, hcolors]; rfl, fun s => ?_⟩
  have hopen : utf8 "[]=\x7b// border,bg,chars,colors\n" =
      utf8 "[]=\x7b" ++ (utf8 "//" ++ (utf8 " border,bg,chars,colors" ++ [newline])) := rfl
  have hpayload : f.payload.map number = [f.border, f.background].map number ++
      (chars.flatten.map number ++ colors.flatten.map number) := by
    rw [hflat, hflat', ← List.map_append, ← List.map_append]
    rfl
  have hvalues : ∀ v ∈ [f.border, f.background] ++ (chars.flatten ++ colors.flatten), 0 ≤ v.toInt := by
    rw [hflat, hflat']
    exact h.values
  obtain ⟨hheader, hplanes⟩ := List.forall_mem_append.1 hvalues
  obtain ⟨hcharValues, hcolorValues⟩ := List.forall_mem_append.1 hplanes
  have hsome : colors ≠ [] := by
    rintro rfl
    cases hlength
  have hdata := readsData_line (List.cons_ne_nil _ _) hheader (readsData_lines hne hcharValues
    (readsData_lastLines ((Nat.zero_add _).trans hlength) hsome hne' hcolorValues (utf8 "\x7d;\n" ++ s)))
  rw [← hpayload] at hdata
  have hremark := @readsComment_line [] (utf8 " border,bg,chars,colors") (by decide)
    (readsTag_iff.2 (by decide))
  have hhead := readsHead_text hname
  simp only [utf8_append, hbare, hopen, utf8_asciiText hname, List.append_assoc, List.singleton_append,
    h.full.height]
  refine ⟨_, _, _, ?_, ReadsRemark.present (hremark _), hdata, ?_⟩
  · rw [production, hbare, utf8_asciiText hname]
    exact hhead _
  · exact ⟨_, ⟨[newline], List.all_eq_true.1 rfl, rfl⟩, ⟨[], by simp, rfl⟩⟩

/-! ### Files -/

theorem ReadsItems.space {its : List Item} {s : Bytes} {b : UInt8} (hb : isSpace b = true)
    (h : ReadsItems its s) : ReadsItems its (b :: s) := by
  cases h with
  | done hspace => exact ReadsItems.done (List.forall_mem_cons.2 ⟨hb, hspace⟩)
  | comment hreads hrest =>
    obtain ⟨rest, hmark, hnumbers, ht⟩ := readsComment_iff.1 hreads
    exact ReadsItems.comment (readsComment_iff.2 ⟨rest, Spaced.space hb hmark, hnumbers, ht⟩) hrest
  | frame hreads hrest =>
    obtain ⟨t₁, t₂, t₃, ⟨s₁, s₂, s₃, s₄, s₅, s₆, ⟨hunsigned, hoff⟩, hhead⟩, hbody⟩ := hreads
    exact ReadsItems.frame ⟨t₁, t₂, t₃, ⟨s₁, s₂, s₃, s₄, s₅, s₆, ⟨hunsigned.space hb, hoff⟩, hhead⟩, hbody⟩ hrest

theorem readsItems_frames {fs : List Frame} {texts : List String} {its : List Item} {s : Bytes}
    (hfs : List.Forall₂ (fun f text => ∀ s, ReadsFrame (production f) (utf8 text ++ s) (newline :: s)) fs texts)
    (h : ReadsItems its s) :
    ReadsItems (fs.map (fun f => .frame (production f)) ++ its) (utf8 (String.join texts) ++ s) := by
  induction hfs with
  | nil => exact h
  | cons hf _ ih =>
    -- a frame leaves its line end to the item behind it
    rw [String.join_cons, utf8_append, List.append_assoc]
    exact ReadsItems.frame (hf _) (ih.space rfl)

def canvasItems : Option Canvas → List Item
  | none => []
  | some size => [.comment [size.width, size.height]]

/-- What a reel read from a source text is like. -/
structure Readable (reel : Reel) : Prop where
  frames : ∀ f ∈ reel.frames, ReadableFrame f
  frames_ne_nil : reel.frames ≠ []
  canvas : ∃ size, (reel.canvasWidth, reel.canvasHeight) = declaredSize size ∧
    ∀ item ∈ canvasItems size, ∀ n ∈ item.numbers, n < Terminal.numberLimit

theorem readsItems_canvas {reel : Reel} {size : Option Canvas}
    (h : (reel.canvasWidth, reel.canvasHeight) = declaredSize size) :
    ReadsItems (canvasItems size) (utf8 (if reel.hasCanvas then
      "// META: " ++ Int.repr reel.canvasWidth ++ " " ++ Int.repr reel.canvasHeight ++ "\n" else "")) := by
  obtain ⟨hwidth, hheight⟩ := Prod.mk.inj h
  cases size with
  | none =>
    rw [Reel.hasCanvas, hwidth, hheight]
    exact ReadsItems.done (by simp)
  | some size =>
    have hcanvas : reel.hasCanvas = true := by
      rw [Reel.hasCanvas, hwidth, hheight]
      simp
    have hbody : newline ∉ utf8 (" META: " ++ Nat.repr size.width ++ " " ++ Nat.repr size.height) := by
      simp only [utf8_append, List.mem_append, not_or]
      exact ⟨⟨⟨by decide, newline_notMem_repr _⟩, by decide⟩, newline_notMem_repr _⟩
    have hreads := readsComment_line hbody (readsTag_meta size.width size.height) []
    have hbegin : utf8 "// META: " = utf8 "//" ++ utf8 " META: " := rfl
    have hend : utf8 "\n" = [newline] := rfl
    have hrepr : ∀ n : Nat, Int.repr n = Nat.repr n := fun n => rfl
    rw [if_pos hcanvas, hwidth, hheight]
    refine ReadsItems.comment (t := []) ?_ (ReadsItems.done (by simp))
    simpa only [utf8_append, hbegin, hend, hrepr, List.append_assoc] using hreads

def printedItems (fs : List Frame) (size : Option Canvas) : List Item :=
  .comment [] :: (fs.map (fun f => .frame (production f)) ++ canvasItems size)

theorem productions_printedItems (fs : List Frame) (size : Option Canvas) :
    productions (printedItems fs size) = fs.map production := by
  rw [printedItems, productions]
  induction fs with
  | nil => cases size <;> rfl
  | cons f fs ih =>
    rw [List.map_cons, List.cons_append, productions, ih]
    rfl

theorem lastCanvas_printedItems (fs : List Frame) (size : Option Canvas) :
    lastCanvas (printedItems fs size) = size := by
  have hframes : ∀ f, (Item.frame (production f)).canvas = none := fun f => rfl
  have hitems : (printedItems fs size).filterMap Item.canvas = (canvasItems size).filterMap Item.canvas := by
    rw [printedItems, List.filterMap_cons_none rfl, List.filterMap_append, List.filterMap_map]
    simp [hframes]
  rw [lastCanvas, hitems]
  cases size <;> rfl

theorem Readable.means {reel : Reel} (h : Readable reel) {size : Option Canvas}
    (hsize : (reel.canvasWidth, reel.canvasHeight) = declaredSize size) :
    Means (printedItems reel.frames size) reel := by
  have hbuilds : List.Forall₂ Builds (productions (printedItems reel.frames size)) reel.frames := by
    rw [productions_printedItems, List.forall₂_map_left_iff, List.forall₂_same]
    exact fun f hf => (h.frames f hf).builds
  obtain ⟨hfull, hframes⟩ := builds_iff.1 hbuilds
  exact ⟨hfull, hframes, by rw [lastCanvas_printedItems, hsize]⟩

theorem Readable.fitting {reel : Reel} (h : Readable reel) {size : Option Canvas}
    (hsize : ∀ item ∈ canvasItems size, ∀ n ∈ item.numbers, n < Terminal.numberLimit) :
    Fitting (printedItems reel.frames size) where
  numbers := by
    refine List.forall_mem_cons.2 ⟨by simp [Item.numbers], List.forall_mem_append.2 ⟨?_, hsize⟩⟩
    intro item hitem n hn
    obtain ⟨f, _, rfl⟩ := List.mem_map.1 hitem
    obtain ⟨v, _, rfl⟩ := List.mem_map.1 hn
    exact number_lt v
  data := by
    intro p hp
    rw [productions_printedItems] at hp
    obtain ⟨f, hf, rfl⟩ := List.mem_map.1 hp
    rw [production, List.length_map]
    exact (h.frames f hf).full.length_payload

theorem Readable.parse_print {reel : Reel} (h : Readable reel) :
    ∃ text, print reel = .ok text ∧ parse (utf8 text) = .ok reel := by
  obtain ⟨size, hsize, hfits⟩ := h.canvas
  obtain ⟨texts, htexts, hframes⟩ := Frame.mapM_ok fun f hf => (h.frames f hf).readsFrame
  refine ⟨_, by rw [print, htexts]; rfl, parse_complete ⟨?_, ?_⟩ (h.fitting hfits) (h.means hsize)⟩
  · have hline : utf8 "// PETSCII memory image\n" =
        utf8 "//" ++ (utf8 " PETSCII memory image" ++ [newline]) := rfl
    have hcomment := @readsComment_line [] (utf8 " PETSCII memory image") (by decide)
      (readsTag_iff.2 (by decide))
    rw [utf8_append, utf8_append, hline]
    simp only [List.append_assoc, List.singleton_append]
    exact ReadsItems.comment (hcomment _) (readsItems_frames hframes (readsItems_canvas hsize))
  · rw [productions_printedItems]
    simpa using h.frames_ne_nil

end Petscii.Source
