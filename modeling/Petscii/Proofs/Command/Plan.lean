import Petscii.Command.Run
import Petscii.Proofs.Image.Files
import Petscii.Proofs.Source.RoundTrip

/-!
# What a run of the command writes

A run has a plan: the files and the output that it writes, in order. The plan is made from the options and from
what the host gives as source before anything is written, or there is none and the run fails. Carrying it out
fails at the first write that the host refuses. The text comes last, and only binary images put files in front
of it.
-/

namespace Petscii.Command

open Session

/-- What is made of a reel: a text, and the files of its images if they are asked for. -/
structure Product where
  files : List (String × Bytes)
  text : String

/-! ### Making a plan -/

/-- What the options ask for, checked before anything is read. -/
def checkedTarget (o : Options) (count : Nat) : Except Failure Target := do
  (o.validate count).mapError .usage
  o.target.mapError .target

def reelOf (d : Source.Decoders) (path : String) (bytes : Except ReadError Bytes) : Except Failure Reel :=
  ((Source.load d bytes).mapError (.loading (if path = "" then "<stdin>" else path))).map Source.Parsed.reel

def keptReel (o : Options) (reel : Reel) : Except Failure Reel := do
  (reel.select o.first o.last).2.mapError .range
  return (reel.select o.first o.last).1

def startAddress (o : Options) : Except Failure (Option UInt16) :=
  if o.startAddr = "" then .ok none else ((Numeral.readAddress o.startAddr).mapError .startAddress).map some

def imageProduct (o : Options) (reel : Reel) (start : Option UInt16) : Except Failure Product :=
  let options : Image.Options := ⟨start, o.separateFrames, o.xorPrevious⟩
  if o.separateFrames = false ∧ o.xorPrevious = true then .error (.image .combinedInOneFile)
  else .ok ⟨Image.files o.outputBin options reel.frames, Image.text o.outputBin options reel.frames⟩

def product (o : Options) (target : Target) (reel : Reel) : Except Failure Product :=
  if o.generateCode then
    (((Program.transitions target reel).mapError .program).map fun built => built.1.close.text).map (.mk [])
  else if o.outputBin ≠ "" then startAddress o >>= imageProduct o reel
  else if o.exportC then ((Source.print reel).mapError .source).map (.mk [])
  else (((Patch.script target o.pingPong reel).mapError .patch).map Patch.Script.text).map (.mk [])

/-- A text goes to the file that the options name or to the standard output. -/
def Options.textWrite (o : Options) (text : String) : Write :=
  if o.output = "" ∨ o.output = "-" then .output (utf8 text) else .file o.output (utf8 text)

/-- The files are written first, and then the text. -/
def Options.place (o : Options) (p : Product) : List Write :=
  p.files.map Write.ofFile ++ [o.textWrite p.text]

def writesFor (o : Options) (target : Target) (reel : Reel) : Except Failure (List Write) := do
  let kept ← keptReel o reel
  (product o target kept).map o.place

section Plan

variable {σ : Type} [Host (StateM σ)]

/-- The bytes of the source, where reading them may have failed, and the state behind it. -/
def sourceAt (path : String) (s : σ) : Except Failure (Except ReadError Bytes) × σ :=
  if path = "" then
    match Host.act Host.isInteractive s with
    | (true, s') => (.error .interactive, s')
    | (false, s') => ((.ok ((Host.act Host.readInput s').1.mapError .input)), (Host.act Host.readInput s').2)
  else
    match Host.act (Host.readFile path) s with
    | (.ok bytes, s') => (.ok (.ok bytes), s')
    | (.error e, s') =>
      match e.action with
      | .opening => (.error (.opening e), s')
      | .reading => (.ok (.error (.file e)), s')

def reelAt (d : Source.Decoders) (path : String) (s : σ) : Except Failure Reel × σ :=
  ((sourceAt path s).1 >>= reelOf d path, (sourceAt path s).2)

/-- The plan of a run with the given options, and the state from which it is carried out. -/
def plan (d : Source.Decoders) (o : Options) (operands : List String) (s : σ) :
    Except Failure (List Write) × σ :=
  match checkedTarget o operands.length with
  | .error f => (.error f, s)
  | .ok target =>
    ((reelAt d (operands.headD "") s).1 >>= writesFor o target, (reelAt d (operands.headD "") s).2)

end Plan

/-! ### Reading -/

theorem bind_eq_ok {ε α β : Type} {x : Except ε α} {f : α → Except ε β} {b : β} (h : (x >>= f) = .ok b) :
    ∃ a, x = .ok a ∧ f a = .ok b := by
  cases x with
  | error e => cases h
  | ok a => exact ⟨a, rfl, h⟩

theorem map_eq_ok {ε α β : Type} {x : Except ε α} {f : α → β} {b : β} (h : x.map f = .ok b) :
    ∃ a, x = .ok a ∧ f a = b := by
  cases x with
  | error e => cases h
  | ok a => exact ⟨a, rfl, Except.ok.inj h⟩

theorem mapError_eq_ok {ε δ α : Type} {x : Except ε α} {g : ε → δ} {a : α} (h : x.mapError g = .ok a) :
    x = .ok a := by
  cases x with
  | error e => cases h
  | ok b =>
    cases h
    rfl

theorem full_of_kept {d : Source.Decoders} {path : String} {bytes : Except ReadError Bytes} {o : Options}
    {reel kept : Reel} (hreel : reelOf d path bytes = .ok reel) (hkept : keptReel o reel = .ok kept) :
    ∀ f ∈ kept.frames, f.Full := by
  obtain ⟨parsed, hload, rfl⟩ := map_eq_ok hreel
  have hload := mapError_eq_ok hload
  cases bytes with
  | error e => cases hload
  | ok bytes =>
    have hparse : Source.parse (d.normalize bytes) = .ok parsed.reel := by
      rw [Source.parse, mapError_eq_ok hload]
      rfl
    obtain ⟨_, hselect, hkept⟩ := bind_eq_ok hkept
    cases hkept
    have hselected := (Source.readable_of_parse hparse).select (Prod.ext rfl (mapError_eq_ok hselect))
    exact fun f hf => (hselected.frames f hf).full

section Read

variable {σ : Type}

theorem rests_selectReel (o : Options) (reel : Reel) (s : σ) :
    Rests (selectReel o reel) s (keptReel o reel) := by
  rw [selectReel, keptReel]
  generalize reel.select o.first o.last = selected
  obtain ⟨kept, outcome⟩ := selected
  cases outcome with
  | error e => exact Ends.fail (rests_throw _)
  | ok _ =>
    refine Ends.bind (rests_pure ()) ?_
    by_cases hbounds : 0 ≤ o.first ∨ 0 ≤ o.last
    · simp only [if_pos hbounds]
      exact Ends.bind (rests_log _) (rests_pure _)
    · simp only [if_neg hbounds]
      exact rests_pure _

variable [Host (StateM σ)]

theorem ends_sourceBytes (path : String) (s : σ) :
    Ends (sourceBytes path) s (sourceAt path s).1 (sourceAt path s).2 := by
  rw [sourceBytes, sourceAt]
  split
  · cases hasked : Host.act Host.isInteractive s with
    | mk asked s' =>
      have hends := @ends_isInteractive Failure _ _ s
      rw [hasked] at hends
      cases asked with
      | true => exact hends.bind (Ends.fail (rests_throw _))
      | false =>
        exact hends.bind (Ends.bind (rests_log _) (Ends.bind (ends_readInput s') (rests_pure _)))
  · refine Ends.bind (rests_log _) ?_
    cases hread : Host.act (Host.readFile path) s with
    | mk result s' =>
      have hends := @ends_readFile Failure _ _ s path
      rw [hread] at hends
      cases result with
      | ok bytes => exact hends.bind (rests_pure _)
      | error e =>
        refine hends.bind ?_
        cases haction : e.action with
        | opening =>
          simp only [haction]
          exact rests_throw _
        | reading =>
          simp only [haction]
          exact rests_pure _

theorem ends_readReel (d : Source.Decoders) (path : String) (s : σ) :
    Ends (readReel d path) s (reelAt d path s).1 (reelAt d path s).2 := by
  have hsource := ends_sourceBytes path s
  rw [readReel, reelAt]
  cases hbytes : (sourceAt path s).1 with
  | error f =>
    rw [hbytes] at hsource
    exact hsource.fail
  | ok bytes =>
    rw [hbytes] at hsource
    refine hsource.bind ((rests_ofExcept _ _).map fun parsed => ?_)
    exact Ends.bind (rests_log _) (rests_pure _)

end Read

/-! ### Making the text -/

section Make

variable {σ : Type}

theorem rests_programText (target : Target) (reel : Reel) (s : σ) :
    Rests (programText target reel) s
      (((Program.transitions target reel).mapError .program).map fun built => built.1.close.text) := by
  refine (rests_ofExcept _ _).map fun built => ?_
  refine Ends.bind (rests_forIn fun entry => ?_) (Ends.bind (rests_log _) (rests_pure _))
  exact Ends.bind (rests_log _) (rests_pure _)

theorem rests_patchText (target : Target) (pingPong : Bool) (reel : Reel) (s : σ) :
    Rests (patchText target pingPong reel) s
      (((Patch.script target pingPong reel).mapError .patch).map Patch.Script.text) := by
  refine Ends.bind (rests_forIn fun t => ?_) ((rests_ofExcept _ _).map fun script => ?_)
  · split
    · exact Ends.bind (rests_log _) (rests_pure _)
    · exact rests_pure _
  · refine Ends.bind (rests_forIn fun name => ?_) (Ends.bind (rests_log _) (rests_pure _))
    exact Ends.bind (rests_log _) (rests_pure _)

variable [Host (StateM σ)]

/-- A session makes a product: it writes the files and gives the text, unless one of the files is refused. -/
def Makes (x : Session (StateM σ) Failure String) (s : σ) : Except Failure Product → Prop
  | .error f => Rests x s (.error f)
  | .ok p => ∃ g : Write.Refusal → Failure,
      let result := Write.carryAll s (p.files.map Write.ofFile)
      Ends x s ((result.1.mapError g).map fun _ => p.text) result.2

theorem Makes.of_rests {x : Session (StateM σ) Failure String} {s : σ} {outcome : Except Failure String}
    (h : Rests x s outcome) : Makes x s (outcome.map (.mk [])) := by
  cases outcome with
  | ok text => exact ⟨fun _ => .interactive, h⟩
  | error f => exact h

theorem Makes.of_images {x : Session (StateM σ) Image.Error String} {s : σ} {p : Product}
    (h : let result := Write.carryAll s (p.files.map Write.ofFile)
      Ends x s ((Image.outcome result.1).map fun _ => p.text) result.2) :
    Makes (ExceptT.adapt .image x) s (.ok p) := by
  refine ⟨fun e => .image (.ofRefusal e), ?_⟩
  have hadapted := Ends.adapt Failure.image h
  cases hall : (Write.carryAll s (p.files.map Write.ofFile)).1 with
  | ok _ =>
    simp only [hall] at hadapted ⊢
    exact hadapted
  | error e =>
    simp only [hall] at hadapted ⊢
    exact hadapted

theorem makes_writeImages {o : Options} {reel : Reel} (hfull : ∀ f ∈ reel.frames, f.Full)
    (start : Option UInt16) (s : σ) :
    Makes (ExceptT.adapt .image
      (Image.write o.outputBin ⟨start, o.separateFrames, o.xorPrevious⟩ reel.frames)) s
      (imageProduct o reel start) := by
  rw [imageProduct]
  cases hseparate : o.separateFrames with
  | true => exact .of_images (Image.ends_write_separate rfl hfull o.outputBin s)
  | false =>
    cases hcombined : o.xorPrevious with
    | true => exact Ends.adapt Failure.image (Image.rests_write_combined rfl rfl _ _ s)
    | false => exact .of_images (Image.ends_write_single rfl rfl reel.frames o.outputBin s)

theorem Makes.bind {α : Type} {x : Session (StateM σ) Failure α} {f : α → Session (StateM σ) Failure String}
    {s : σ} {outcome : Except Failure α} {g : α → Except Failure Product} (hx : Rests x s outcome)
    (hf : ∀ a, Makes (f a) s (g a)) : Makes (x >>= f) s (outcome >>= g) := by
  cases outcome with
  | error e => exact Ends.fail hx
  | ok a =>
    have hnext := hf a
    change Makes (x >>= f) s (g a)
    cases hg : g a with
    | error e =>
      rw [hg] at hnext
      exact Ends.bind hx hnext
    | ok p =>
      rw [hg] at hnext
      obtain ⟨h, hnext⟩ := hnext
      exact ⟨h, Ends.bind hx hnext⟩

theorem makes_imageText {o : Options} {reel : Reel} (hfull : ∀ f ∈ reel.frames, f.Full) (s : σ) :
    Makes (imageText o reel) s (startAddress o >>= imageProduct o reel) := by
  rw [imageText, startAddress]
  split
  · exact .bind (rests_pure none) fun start => makes_writeImages hfull start s
  · refine .bind ?_ fun start => makes_writeImages hfull start s
    rw [map_eq_pure_bind]
    exact (rests_ofExcept _ _).map fun a => rests_pure _

theorem makes_makeText {o : Options} {target : Target} {reel : Reel} (hfull : ∀ f ∈ reel.frames, f.Full)
    (s : σ) : Makes (makeText o target reel) s (product o target reel) := by
  rw [makeText, product]
  split
  · exact .of_rests (rests_programText target reel s)
  · split
    · exact makes_imageText hfull s
    · split
      · exact .of_rests (rests_ofExcept _ _)
      · exact .of_rests (rests_patchText target o.pingPong reel s)

end Make

/-! ### Carrying out a plan -/

section Follow

variable {σ : Type} [Host (StateM σ)]

/-- A session follows a plan: it carries out the writes, and fails if one of them is refused. Without a plan it
fails and writes nothing. -/
def Follows (x : Session (StateM σ) Failure Unit) (s : σ) : Except Failure (List Write) × σ → Prop
  | (.error f, s') => Ends x s (.error f) s'
  | (.ok ws, s') => ∃ g : Write.Refusal → Failure,
      Ends x s ((Write.carryAll s' ws).1.mapError g) (Write.carryAll s' ws).2

theorem Follows.bind {α : Type} {x : Session (StateM σ) Failure α} {f : α → Session (StateM σ) Failure Unit}
    {s s' : σ} {a : α} {p : Except Failure (List Write) × σ} (hx : Ends x s (.ok a) s') (hf : Follows (f a) s' p) :
    Follows (x >>= f) s p := by
  obtain ⟨outcome, s''⟩ := p
  cases outcome with
  | error e => exact Ends.bind hx hf
  | ok ws =>
    obtain ⟨g, hf⟩ := hf
    exact ⟨g, Ends.bind hx hf⟩

def Failure.ofRefusal : Write.Refusal → Failure
  | .file _ cause => .output cause
  | .output cause => .stdout cause

theorem ends_writeText (o : Options) (text : String) (s : σ) :
    Ends (writeText o text) s (((o.textWrite text).carry s).1.mapError .ofRefusal)
      ((o.textWrite text).carry s).2 := by
  rw [writeText, Options.textWrite]
  split
  · refine Ends.bind (ends_writeOutput s _) ?_
    rw [Write.carry]
    cases (Host.act (Host.writeOutput (utf8 text)) s).1 with
    | ok _ => exact rests_pure ()
    | error e => exact rests_throw _
  · refine Ends.bind (ends_writeFile s _ _) ?_
    rw [Write.carry]
    cases (Host.act (Host.writeFile o.output (utf8 text)) s).1 with
    | ok _ => exact rests_pure ()
    | error e => exact rests_throw _

theorem Makes.place {x : Session (StateM σ) Failure String} {s : σ} {made : Except Failure Product}
    (h : Makes x s made) (o : Options) : Follows (x >>= writeText o) s (made.map o.place, s) := by
  cases made with
  | error f => exact Ends.fail h
  | ok p =>
    obtain ⟨g, h⟩ := h
    change ∃ g, Ends _ _ ((Write.carryAll s (o.place p)).1.mapError g) (Write.carryAll s (o.place p)).2
    rw [Options.place, Write.carryAll_append]
    cases hall : Write.carryAll s (p.files.map Write.ofFile) with
    | mk outcome s' =>
      simp only [hall] at h
      cases outcome with
      | error e => exact ⟨g, Ends.fail h⟩
      | ok _ =>
        refine ⟨.ofRefusal, ?_⟩
        simp only [Write.carryAll_singleton]
        exact Ends.bind h (ends_writeText o p.text s')

theorem follows_writesFor {d : Source.Decoders} {path : String} {bytes : Except ReadError Bytes} {reel : Reel}
    (hreel : reelOf d path bytes = .ok reel) (o : Options) (target : Target) (s : σ) :
    Follows (selectReel o reel >>= fun kept => makeText o target kept >>= writeText o) s
      (writesFor o target reel, s) := by
  have hselect := rests_selectReel o reel s
  rw [writesFor]
  cases hkept : keptReel o reel with
  | error f =>
    rw [hkept] at hselect
    exact Ends.fail hselect
  | ok kept =>
    rw [hkept] at hselect
    exact .bind hselect ((makes_makeText (full_of_kept hreel hkept) s).place o)

theorem follows_perform (d : Source.Decoders) (o : Options) (operands : List String) (s : σ) :
    Follows (perform d o operands) s (plan d o operands s) := by
  rw [perform, plan, checkedTarget]
  cases o.validate operands.length with
  | error e => exact Ends.fail (rests_throw _)
  | ok _ =>
    refine .bind (rests_pure ()) ?_
    cases o.target with
    | error e => exact Ends.fail (rests_throw _)
    | ok target =>
      refine .bind (rests_pure target) ?_
      have hread := ends_readReel d (operands.headD "") s
      cases hreel : (reelAt d (operands.headD "") s).1 with
      | error f =>
        rw [hreel] at hread
        exact hread.fail
      | ok reel =>
        rw [hreel] at hread
        obtain ⟨bytes, _, hreel⟩ := bind_eq_ok hreel
        exact .bind hread (.bind (rests_log _) (follows_writesFor hreel o target _))

end Follow

end Petscii.Command
