import Petscii.Proofs.Program.Transition

/-!
# The routine for the first frame

The first routine writes both registers and copies both planes from tables, four chunks of each at once.
The lines that copy a chunk are repeated with a counter, and together the chunks make up the planes, so
this routine draws its frame whatever is there before. It returns the number of the other routines.
-/

namespace Petscii.Program

open Asm Machine

/-! ### Its parts -/

section Parts

variable (b : Builder)

def initialLoop : String :=
  label b.target (b.labels + 2)

def initialTables : List Table :=
  [(label b.target b.labels, b.initial.chars), (label b.target (b.labels + 1), b.initial.colors)]

def initialWrites : Writes :=
  [(b.target.backgroundRegister, b.initial.background), (b.target.borderRegister, b.initial.border)]

def initialHead : List Line :=
  writesLines (initialWrites b) ++ [.instruction (.ldx 0), .label (initialLoop b)]

/-- The repeated lines: one cell of a chunk on each plane. -/
def initialChunk : List Line :=
  Builder.chunkLines (label b.target b.labels) (destination b.target .chars) ++
    Builder.chunkLines (label b.target (b.labels + 1)) (destination b.target .colors)

def initialTail : List Line :=
  [.instruction .inx, .instruction (.cpx Builder.chunkSize), .instruction (.bne (initialLoop b)),
    .instruction (.ldaImmediate (b.frames % 256 : Nat)), .instruction (.ldx (b.frames / 256 : Nat))]

def initialRoutine : Routine where
  name := initRoutine b.target
  body := initialHead b ++ .directive (.repeated Builder.chunks Builder.counter) ::
    (initialChunk b ++ .directive .endrepeat :: initialTail b)
  copied := under [] (initialHead b) ++
    (((List.range Builder.chunks).flatMap fun (i : Nat) =>
      under [(Builder.counter, (i : Int))] (initialChunk b)) ++ under [] (initialTail b))

variable {b}

theorem plain_initialHead : ∀ line ∈ initialHead b, line.Plain := by
  intro line hline
  rcases List.mem_append.1 hline with hline | hline
  · exact plain_writesLines _ line hline
  · simp only [List.mem_cons, List.not_mem_nil, or_false] at hline
    rcases hline with rfl | rfl <;> trivial

theorem plain_initialChunk : ∀ line ∈ initialChunk b, line.Plain := by
  intro line hline
  simp only [initialChunk, Builder.chunkLines, List.mem_append, List.mem_cons, List.not_mem_nil,
    or_false] at hline
  rcases hline with (rfl | rfl) | (rfl | rfl) <;> trivial

theorem plain_initialTail : ∀ line ∈ initialTail b, line.Plain := by
  intro line hline
  simp only [initialTail, List.mem_cons, List.not_mem_nil, or_false] at hline
  rcases hline with rfl | rfl | rfl | rfl | rfl <;> trivial

theorem initialRoutine_sound : (initialRoutine b).Sound where
  expands rest := by
    simp only [initialRoutine, List.append_assoc, List.cons_append]
    rw [expandFrom_append fun line hline => (plain_initialHead line hline).single,
      expandFrom_repeated fun line hline => (plain_initialChunk line hline).single,
      expandFrom_append fun line hline => (plain_initialTail line hline).single, Option.map_map,
      Option.map_map]
    simp only [Function.comp_def]
  plain c hc := by
    simp only [initialRoutine, List.mem_append, List.mem_flatMap, under, List.mem_map] at hc
    rcases hc with ⟨line, hline, rfl⟩ | ⟨i, _, line, hline, rfl⟩ | ⟨line, hline, rfl⟩
    · exact plain_initialHead line hline
    · exact plain_initialChunk line hline
    · exact plain_initialTail line hline
  labels := rfl

theorem legible_initialRoutine (hnamed : Named b.target) : ∀ line ∈ (initialRoutine b).body, line.Legible := by
  have hcounter : Source.isName Builder.counter = true := by decide
  have hchunk : ∀ {name : String} {a : Atom}, Source.isName name = true → a.Legible →
      ∀ line ∈ Builder.chunkLines name a, line.Legible := by
    intro name a hname ha line hline
    have hterms : ∀ t ∈ [Term.plusProduct (.symbol Builder.counter) (.number Builder.chunkSize)],
        t.Legible := by
      intro t ht
      rw [List.mem_singleton.1 ht]
      exact ⟨hcounter, Int.natCast_nonneg _⟩
    simp only [Builder.chunkLines, List.mem_cons, List.not_mem_nil, or_false] at hline
    rcases hline with rfl | rfl
    · exact ⟨hname, hterms⟩
    · exact ⟨ha, hterms⟩
  intro line hline
  simp only [initialRoutine, initialHead, initialChunk, initialTail, List.mem_append, List.mem_cons,
    List.not_mem_nil, or_false] at hline
  rcases hline with (hline | rfl | rfl) | rfl | (hline | hline) | rfl | rfl | rfl | rfl | rfl | rfl
  · exact legible_writesLines _ line hline
  · trivial
  · exact isName_label hnamed _
  · exact hcounter
  · exact hchunk (isName_label hnamed _) (legible_destination hnamed .chars) line hline
  · exact hchunk (isName_label hnamed _) (legible_destination hnamed .colors) line hline
  · trivial
  · trivial
  · trivial
  · exact isName_label hnamed _
  · trivial
  · trivial

theorem close_code : b.close.code = b.code ++ (initialRoutine b).lines := by
  simp only [Builder.close, Builder.extend, Builder.openRoutine, Builder.initialBlock, Routine.lines,
    initialRoutine, initialHead, initialChunk, initialTail, initialLoop, Builder.routineName, initRoutine,
    routine, List.append_assoc, List.cons_append, List.nil_append]
  rfl

theorem close_data : b.close.data = b.data ++ tablesLines (initialTables b) := by
  simp only [Builder.close, Builder.extend, Builder.openRoutine, Builder.initialBlock, initialTables,
    tablesLines, List.flatMap_cons, List.flatMap_nil, List.append_nil]

theorem close_adds (hnarrow : b.initial.Narrow) :
    Adds b b.close (initialRoutine b) (initialTables b) where
  target := rfl
  initial := rfl
  code := close_code
  data := close_data
  exports := rfl
  size := by
    simp only [Builder.close, Builder.extend, Builder.openRoutine, Builder.initialBlock, initialTables,
      List.flatMap_cons, List.flatMap_nil, List.append_nil, List.length_append, Stats.add]
  labels := by
    refine ⟨3, rfl, ?_⟩
    exact List.perm_append_comm
  sound := initialRoutine_sound
  legible := legible_initialRoutine
  narrow t ht v hv := by
    simp only [initialTables, List.mem_cons, List.not_mem_nil, or_false] at ht
    rcases ht with rfl | rfl
    · exact hnarrow.plane (p := .chars) hv
    · exact hnarrow.plane (p := .colors) hv

end Parts

/-! ### What it does -/

section Behaviour

variable {b : Builder}

/-- The counter hides nothing but the symbol of its name. -/
theorem symbols_under_counter {l : Layout} {imports : Symbols} {origin : Nat} {scope : Option String} {name : String}
    (hname : name ≠ Builder.counter) (i : Int) :
    l.symbols imports origin scope [(Builder.counter, i)] name = l.symbols imports origin scope [] name := by
  rw [Layout.symbols, Layout.symbols, List.lookup_cons, beq_eq_false_iff_ne.2 hname]

theorem label_ne_counter (target : Target) (n : Nat) : label target n ≠ Builder.counter := by
  intro h
  have htip := congrArg tip h
  rw [tip_label] at htip
  exact absurd htip (by decide)

theorem eval_chunk {symbols : Symbols} {a : Atom} {value i : Int} (ha : a.eval symbols = some value)
    (hcounter : symbols Builder.counter = some i) :
    Expr.eval symbols ⟨a, [.plusProduct (.symbol Builder.counter) (.number Builder.chunkSize)]⟩ =
      some (value + i * Builder.chunkSize) := by
  have hatom : (Atom.symbol Builder.counter).eval symbols = some i := hcounter
  rw [eval_eq_termsEval ha, termsEval_product hatom rfl, termsEval_nil]

/-- The stretches that the repeated lines copy, with the tables at given addresses. -/
def initialCopies (chars colors : Nat) : List Copy :=
  (List.range Builder.chunks).flatMap fun i =>
    [⟨.chars, i * Builder.chunkSize, chars + i * Builder.chunkSize⟩,
      ⟨.colors, i * Builder.chunkSize, colors + i * Builder.chunkSize⟩]

/-- The repeated lines link to the copying of one cell of every chunk. -/
theorem links_initialChunk (site : Site b.target) (hscreen : b.target.screen ≠ Builder.counter)
    {chars colors : Nat} (hchars : site.symbols (label b.target b.labels) = some (chars : Int))
    (hcolors : site.symbols (label b.target (b.labels + 1)) = some (colors : Int)) :
    Asm.Links site.layout site.imports site.origin
      (drafts none ((List.range Builder.chunks).flatMap fun (i : Nat) =>
        under [(Builder.counter, (i : Int))] (initialChunk b)))
      ((initialCopies chars colors).flatMap (Copy.items site.display 0)) := by
  have hother : ∀ (i : Nat) {name : String}, name ≠ Builder.counter →
      site.layout.symbols site.imports site.origin none [(Builder.counter, (i : Int))] name =
        site.symbols name := fun i _ hname => symbols_under_counter hname i
  have heval : ∀ (i : Nat) {a : Atom} {value : Nat},
      a.eval (site.layout.symbols site.imports site.origin none [(Builder.counter, (i : Int))]) =
        some (value : Int) →
      Expr.eval (site.layout.symbols site.imports site.origin none [(Builder.counter, (i : Int))])
        ⟨a, [.plusProduct (.symbol Builder.counter) (.number Builder.chunkSize)]⟩ =
          some ((value : Int) + (i * Builder.chunkSize : Nat)) := by
    intro i a value ha
    rw [eval_chunk ha (Layout.symbols_of_counter List.lookup_cons_self), Int.natCast_mul]
  have hdestination : ∀ (i : Nat) (p : Plane),
      (destination b.target p).eval (site.layout.symbols site.imports site.origin none
        [(Builder.counter, (i : Int))]) = some (site.display.start p : Int) := by
    intro i p
    rw [← site.reaches p]
    cases p with
    | colors => rfl
    | _ => exact hother i hscreen
  rw [drafts, List.filterMap_flatMap, initialCopies, List.flatMap_assoc]
  refine Asm.Links.flatMap fun i _ => ?_
  have hcharsLoad := heval i (a := .symbol _) ((hother i (label_ne_counter _ _)).trans hchars)
  have hcolorsLoad := heval i (a := .symbol _) ((hother i (label_ne_counter _ _)).trans hcolors)
  refine Asm.Links.cons ?_ (Asm.Links.cons ?_ (Asm.Links.cons ?_ (Asm.Links.cons ?_ Asm.Links.nil)))
  · rw [link_ldaIndexed hcharsLoad]
    simp
  · rw [link_staIndexed (heval i (hdestination i .chars))]
    simp
  · rw [link_ldaIndexed hcolorsLoad]
    simp
  · rw [link_staIndexed (heval i (hdestination i .colors))]
    simp

/-- A part of a plane whose whole table stands in memory. -/
theorem Site.Provides.readyPart {target : Target} {site : Site target} {memory : Memory} {name : String}
    {f : Frame} {p : Plane} (h : site.Provides memory (name, f.plane p)) (hf : f.Full) {first count : Nat}
    (hinside : first + count ≤ Screen.cells) :
    (⟨p, first, site.address name + first⟩ : Copy).Ready site.display f count memory := by
  have hlength := hf.length_plane p
  obtain ⟨_, hfits, hapart, hholds⟩ := h
  simp only [hlength, Region.Fits] at hfits hapart
  refine ⟨?_, fun q => (hapart q).part ?_ ?_, hinside, fun i hi => ?_⟩
  · simp only [Region.Fits]
    omega
  · simp only
    omega
  · simp only
    omega
  · have hbyte := hholds (first + i) (by rw [List.length_map, hlength]; omega)
    simp only at hbyte ⊢
    rw [Nat.add_assoc, hbyte, List.getElem_map, Frame.cellAt_eq_getElem (by omega)]

theorem ready_initialCopies {target : Target} {site : Site target} {memory : Memory} {f : Frame}
    (hf : f.Full) {chars colors : String} (hchars : site.Provides memory (chars, f.chars))
    (hcolors : site.Provides memory (colors, f.colors)) :
    ∀ c ∈ initialCopies (site.address chars) (site.address colors),
      c.Ready site.display f Builder.chunkSize memory := by
  intro c hc
  obtain ⟨i, hi, hc⟩ := List.mem_flatMap.1 hc
  have hinside : i * Builder.chunkSize + Builder.chunkSize ≤ Screen.cells := by
    have hi := List.mem_range.1 hi
    simp only [Builder.chunks, Builder.chunkSize, Screen.cells, Screen.width, Screen.height] at hi ⊢
    omega
  simp only [List.mem_cons, List.not_mem_nil, or_false] at hc
  rcases hc with rfl | rfl
  · exact Site.Provides.readyPart (p := .chars) hchars hf hinside
  · exact Site.Provides.readyPart (p := .colors) hcolors hf hinside

theorem cells_initialCopies (chars colors : Nat) {p : Plane} (hp : p = .chars ∨ p = .colors) {j : Nat}
    (hj : j < Screen.cells) :
    Copy.cells (initialCopies chars colors) 0 Builder.chunkSize p j := by
  have hchunk : j / Builder.chunkSize < Builder.chunks := by
    simp only [Builder.chunks, Builder.chunkSize, Screen.cells, Screen.width, Screen.height] at hj ⊢
    omega
  have hlow : j / Builder.chunkSize * Builder.chunkSize ≤ j := Nat.div_mul_le_self _ _
  have hhigh : j < j / Builder.chunkSize * Builder.chunkSize + Builder.chunkSize :=
    Nat.lt_div_mul_add (by decide)
  have hfirst : j / Builder.chunkSize * Builder.chunkSize + 0 ≤ j := by
    rw [Nat.add_zero]
    exact hlow
  rcases hp with rfl | rfl
  · exact ⟨⟨.chars, _, _⟩, List.mem_flatMap.2 ⟨_, List.mem_range.2 hchunk, List.mem_cons_self⟩, rfl,
      hfirst, hhigh⟩
  · exact ⟨⟨.colors, _, _⟩, List.mem_flatMap.2 ⟨_, List.mem_range.2 hchunk,
      List.mem_cons_of_mem _ List.mem_cons_self⟩, rfl, hfirst, hhigh⟩

/-- The code behind the registers: copy both planes and load the number of routines. -/
def initialItems (d : Display) (copies : List Copy) : List Item :=
  .instruction (.ldx 0) :: ((.label (initialLoop b) :: (copies.flatMap (Copy.items d 0) ++
    [.instruction .inx, .instruction (.cpx Builder.chunkSize)]) ++ [.instruction (.bne (initialLoop b))]) ++
    [.instruction (.ldaImmediate (b.frames % 256 : Nat)), .instruction (.ldx (b.frames / 256 : Nat))])

theorem performs_initialItems {d : Display} (hd : d.Clear) {f : Frame} {copies : List Copy} {s : State}
    (hready : ∀ c ∈ copies, c.Ready d f Builder.chunkSize s.memory) (hframes : b.frames < 0x10000) :
    Performs (initialItems (b := b) d copies) (fun u => u = s) fun t =>
      Painted d f (Copy.cells copies 0 Builder.chunkSize) s t ∧ t.a.toNat + 256 * t.x.toNat = b.frames := by
  have hloop := performs_upTo hd hready (by decide) (by decide) (initialLoop b) fun _ _ => False
  refine Performs.append (a := [_]) (Performs.instruction (fun _ => rfl) ?_)
    (hloop.append (Performs.append (a := [_]) (b := [_])
      (Q := fun t => Painted d f (Copy.cells copies 0 Builder.chunkSize) s t ∧ t.a = .ofNat (b.frames % 256))
      (Performs.instruction (fun _ => rfl) ?_) (Performs.instruction (fun _ => rfl) ?_)))
  · rintro u rfl
    exact ⟨rfl, (Painted.refl d f _).congr rfl rfl fun _ _ => Iff.rfl⟩
  · intro u hu
    exact ⟨hu.congr rfl rfl fun p j => by simp, rfl⟩
  · rintro u ⟨hu, ha⟩
    refine ⟨hu.congr rfl rfl fun _ _ => Iff.rfl, ?_⟩
    change u.a.toNat + 256 * (UInt8.ofNat (b.frames / 256)).toNat = b.frames
    rw [ha, toNat_ofNat_byte (by omega), toNat_ofNat_byte (by omega)]
    omega

theorem links_initialHead (ground : Ground b.target)
    (hnarrow : ∀ w ∈ initialWrites b, 0 ≤ w.2.toInt ∧ w.2.toInt ≤ 0xFF) :
    ground.Links (initialHead b)
      (writesItems (initialWrites b) ++ [.instruction (.ldx 0), .label (initialLoop b)]) :=
  Ground.Links.append (links_writesLines ground hnarrow) (Asm.Links.cons (link_ldx (by decide) (by decide)) rfl)

theorem links_initialTail (ground : Ground b.target) (hframes : b.frames < 0x10000) :
    ground.Links (initialTail b) [.instruction .inx, .instruction (.cpx Builder.chunkSize),
      .instruction (.bne (initialLoop b)), .instruction (.ldaImmediate (b.frames % 256 : Nat)),
      .instruction (.ldx (b.frames / 256 : Nat))] := by
  refine Asm.Links.cons rfl (Asm.Links.cons (link_cpx (by decide) (by decide)) (Asm.Links.cons rfl
    (Asm.Links.cons (link_ldaImmediate ?_ ?_) (Asm.Links.cons (link_ldx ?_ ?_) Asm.Links.nil)))) <;> omega

/-- The first routine draws the first frame whatever was there, and returns the number of the others. -/
theorem initialRoutine_does (hfull : b.initial.Full) (hnarrow : b.initial.Narrow)
    (hscreen : b.target.screen ≠ Builder.counter) (hframes : b.frames < 0x10000) :
    (initialRoutine b).Does b.target (initialTables b) (fun _ _ => True) fun screen s t =>
      Draws b.target screen b.initial s t ∧ t.a.toNat + 256 * t.x.toNat = b.frames := by
  intro site screen data s₀ hdisplay hsep hstocked
  have hof : (initialWrites b).Of b.target b.initial := by
    intro w hw
    simpa [initialWrites] using hw
  have hchars := hstocked.provides _ List.mem_cons_self
  have hcolors := hstocked.provides _ (List.mem_cons_of_mem _ List.mem_cons_self)
  have hchunk := links_initialChunk site hscreen hchars.named hcolors.named
  have hhead : site.Links (initialHead b) _ := links_initialHead site.ground (hof.narrow hnarrow)
  have htail : site.Links (initialTail b) _ := links_initialTail site.ground hframes
  have hlinks : Asm.Links site.layout site.imports site.origin (drafts none (initialRoutine b).copied)
      (writesItems (initialWrites b) ++ initialItems (b := b) site.display
        (initialCopies (site.address (label b.target b.labels))
          (site.address (label b.target (b.labels + 1))))) := by
    have hall := Asm.Links.append hhead (Asm.Links.append hchunk htail)
    rw [← drafts_append, ← drafts_append] at hall
    simpa only [initialRoutine, initialItems, List.append_assoc, List.cons_append, List.nil_append] using hall
  refine ⟨_, hlinks, fun _ => (performs_writes (hof.narrow hnarrow) s₀).append ?_⟩
  rintro before after hdistinct s ⟨hmemory, _⟩
  have hstocked' := hstocked.tint hsep hof
  rw [← hmemory] at hstocked'
  have hready := ready_initialCopies hfull (hstocked'.provides _ List.mem_cons_self)
    (hstocked'.provides _ (List.mem_cons_of_mem _ List.mem_cons_self))
  obtain ⟨t, hreach, ht, hcount⟩ := performs_initialItems site.clear hready hframes before after hdistinct
    s rfl
  rw [hdisplay] at ht
  refine ⟨t, hreach, draws hsep hfull hof hmemory ht ?_ ?_ fun p i hp hi => ?_, hcount⟩
  · exact Or.inl List.mem_cons_self
  · exact Or.inl (List.mem_cons_of_mem _ List.mem_cons_self)
  · exact Or.inl (cells_initialCopies _ _ hp hi)

end Behaviour

end Petscii.Program
