import Petscii.Proofs.Command.Plan
import Petscii.Proofs.Source.Decoders
import Petscii.Source.Unicode

/-!
# What a failed run leaves

On a host that is all or nothing, a failed run leaves the files and the standard output as they were, unless it
is interrupted: a write is refused behind files that it has written and that were not there, or the standard
output takes a part of the text. Files are left only by binary images, which are written one by one before their
listing, and what is left of them is whole.
-/

namespace Petscii.Command

open Session

section Failed

variable {σ Place : Type} [Host (StateM σ)]

def runAt (d : Source.Decoders) (arguments : List String) (s : σ) : Report × σ :=
  Host.act (run d arguments) s

/-- The options of a run and everything that it is going to write. -/
def Planned (d : Source.Decoders) (arguments : List String) (s : σ) (o : Options) (ws : List Write) (s₀ : σ) :
    Prop :=
  ∃ operands, Options.read {} arguments = .ok (o, operands) ∧ plan d o operands s = (.ok ws, s₀)

/-- A run has carried out some of its writes, which leaves `s₁`, when the next is refused, which leaves `s₂`. -/
def Stops (d : Source.Decoders) (arguments : List String) (s : σ) (done : List Write) (next : Write)
    (s₁ s₂ : σ) : Prop :=
  ∃ o rest s₀ e, Planned d arguments s o (done ++ next :: rest) s₀ ∧
    Write.carryAll s₀ done = (.ok (), s₁) ∧ next.carry s₁ = (.error e, s₂)

/-- A run stops behind a file that it has changed, or within the standard output. -/
def Interrupted (v : View σ Place) (d : Source.Decoders) (arguments : List String) (s : σ) : Prop :=
  ∃ done next s₁ s₂, Stops d arguments s done next s₁ s₂ ∧
    ((∃ place, v.file s₁ place ≠ v.file s place) ∨ v.output s₂ ≠ v.output s₁)

/-- A place has changed only to a file of binary images, and the standard output has taken the text from the
front. -/
structure Remains (v : View σ Place) (d : Source.Decoders) (arguments : List String) (s s' : σ) : Prop where
  files : ∀ place, v.file s' place ≠ v.file s place → ∃ o ws s₀ path data, Planned d arguments s o ws s₀ ∧
    o.outputBin ≠ "" ∧ Write.file path data ∈ ws ∧ v.file s' place = some data
  output : v.output s' ≠ v.output s → ∃ o ws s₀ text part, Planned d arguments s o ws s₀ ∧
    (o.output = "" ∨ o.output = "-") ∧ Write.output text ∈ ws ∧ part <+: text ∧
      v.output s' = v.output s ++ part

/-! ### Runs and plans -/

theorem number_eq_zero {e : ExitCode} : e.number = 0 ↔ e = .ok := by
  cases e <;> simp [ExitCode.number]

theorem Failure.exitCode_ne_ok (f : Failure) : f.exitCode ≠ .ok := by
  cases f <;> simp [Failure.exitCode]

variable {d : Source.Decoders} {arguments : List String} {s s' s₀ s₁ s₂ : σ}

section Run

variable {o : Options} {operands : List String} (hread : Options.read {} arguments = .ok (o, operands))
include hread

theorem run_of_failure {f : Failure} (h : Ends (perform d o operands) s (.error f) s') :
    (runAt d arguments s).1.exit.number ≠ 0 ∧ (runAt d arguments s).2 = s' := by
  obtain ⟨records, hrun⟩ := h.run
  have hresult : ∃ said, runAt d arguments s = (⟨f.exitCode, said⟩, s') :=
    ⟨_, by rw [runAt, Host.act, run, hread, StateT.run_bind, hrun]; rfl⟩
  obtain ⟨said, hresult⟩ := hresult
  rw [hresult, Ne, number_eq_zero]
  exact ⟨f.exitCode_ne_ok, rfl⟩

theorem run_of_success (h : Ends (perform d o operands) s (.ok ()) s') :
    (runAt d arguments s).1.exit.number = 0 := by
  obtain ⟨records, hrun⟩ := h.run
  rw [runAt, Host.act, run, hread, StateT.run_bind, hrun]
  rfl

end Run

theorem Stops.run {done : List Write} {next : Write} (h : Stops d arguments s done next s₁ s₂) :
    (runAt d arguments s).1.exit.number ≠ 0 ∧ (runAt d arguments s).2 = s₂ := by
  obtain ⟨o, rest, s₀, e, ⟨operands, hread, hplan⟩, hdone, hnext⟩ := h
  have hfollows := follows_perform d o operands s
  rw [hplan] at hfollows
  obtain ⟨g, hends⟩ := hfollows
  have hall : Write.carryAll s₀ (done ++ next :: rest) = (.error e, s₂) := by
    rw [Write.carryAll_append, hdone]
    simp only [Write.carryAll, hnext]
  rw [hall] at hends
  exact run_of_failure hread hends

/-- A failed run has no options or no plan, or it stops. -/
theorem failed_cases (hfailed : (runAt d arguments s).1.exit.number ≠ 0) :
    (runAt d arguments s).2 = s ∨ (∃ o operands, (runAt d arguments s).2 = (plan d o operands s).2) ∨
      ∃ done next s₁, Stops d arguments s done next s₁ (runAt d arguments s).2 := by
  cases hread : Options.read {} arguments with
  | error refusal =>
    refine .inl ?_
    rw [runAt, Host.act, run, hread]
    cases refusal <;> rfl
  | ok parsed =>
    obtain ⟨o, operands⟩ := parsed
    have hfollows := follows_perform d o operands s
    refine .inr ?_
    cases hplan : plan d o operands s with
    | mk outcome s₀ =>
      rw [hplan] at hfollows
      cases outcome with
      | error f => exact .inl ⟨o, operands, by rw [hplan, (run_of_failure hread hfollows).2]⟩
      | ok ws =>
        obtain ⟨g, hends⟩ := hfollows
        cases hall : Write.carryAll s₀ ws with
        | mk written s₂ =>
          rw [hall] at hends
          cases written with
          | ok _ => exact absurd (run_of_success hread hends) hfailed
          | error e =>
            obtain ⟨done, next, rest, s₁, rfl, hdone, hnext⟩ := Write.stops_of_carryAll hall
            rw [(run_of_failure hread hends).2]
            exact .inr ⟨done, next, s₁, o, rest, s₀, e, ⟨operands, hread, hplan⟩, hdone, hnext⟩

/-! ### The writes of a plan -/

theorem product_files {o : Options} {target : Target} {reel : Reel} {p : Product}
    (h : product o target reel = .ok p) : p.files = [] ∨ o.outputBin ≠ "" := by
  have htext : ∀ {x : Except Failure String}, x.map (Product.mk []) = .ok p → p.files = [] := by
    intro x hx
    obtain ⟨text, _, rfl⟩ := map_eq_ok hx
    rfl
  rw [product] at h
  split at h
  · exact .inl (htext h)
  · split at h
    · next hbinary => exact .inr hbinary
    · split at h
      · exact .inl (htext h)
      · exact .inl (htext h)

/-- The files of images come first in a plan, and then the text. -/
theorem Planned.writes {o : Options} {ws : List Write} (h : Planned d arguments s o ws s₀) :
    ∃ images text, ws = images.map Write.ofFile ++ [o.textWrite text] ∧ (images = [] ∨ o.outputBin ≠ "") := by
  obtain ⟨operands, _, hplan⟩ := h
  rw [plan] at hplan
  split at hplan
  · cases hplan
  · obtain ⟨reel, _, hwrites⟩ := bind_eq_ok (congrArg Prod.fst hplan)
    obtain ⟨kept, _, hwrites⟩ := bind_eq_ok hwrites
    obtain ⟨made, hmade, rfl⟩ := map_eq_ok hwrites
    exact ⟨made.files, made.text, rfl, product_files hmade⟩

/-- The writes in front of another are files, and the last is the text. -/
theorem Planned.split {o : Options} {done rest : List Write} {next : Write}
    (h : Planned d arguments s o (done ++ next :: rest) s₀) :
    (∀ w ∈ done, o.outputBin ≠ "" ∧ w.bytes = []) ∧
      (next.bytes = [] ∨ (o.output = "" ∨ o.output = "-") ∧ ∃ text, next = .output text) := by
  obtain ⟨images, text, hws, himages⟩ := h.writes
  have hfile : ∀ w ∈ images.map Write.ofFile, o.outputBin ≠ "" ∧ w.bytes = [] := by
    intro w hw
    obtain ⟨image, himage, rfl⟩ := List.mem_map.1 hw
    exact ⟨himages.resolve_left (List.ne_nil_of_mem himage), rfl⟩
  have hlast : (o.textWrite text).bytes = [] ∨
      (o.output = "" ∨ o.output = "-") ∧ ∃ text', o.textWrite text = .output text' := by
    rw [Options.textWrite]
    split
    · next hstdout => exact .inr ⟨hstdout, _, rfl⟩
    · exact .inl rfl
  have hfront : done <+: images.map Write.ofFile ∧
      (next ∈ images.map Write.ofFile ∨ next = o.textWrite text) := by
    rcases List.append_eq_append_iff.1 hws with ⟨more, himages, hmore⟩ | ⟨more, hdone, hmore⟩
    · refine ⟨⟨more, himages.symm⟩, ?_⟩
      cases more with
      | nil => exact .inr (List.cons.inj hmore).1
      | cons w more =>
        rw [himages]
        exact .inl (List.mem_append_right _ (List.mem_cons.2 (.inl (List.cons.inj hmore).1)))
    · cases more with
      | nil =>
        rw [List.append_nil] at hdone
        exact ⟨⟨[], by rw [hdone, List.append_nil]⟩, .inr (List.cons.inj hmore).1.symm⟩
      | cons w more => simp at hmore
  refine ⟨fun w hw => hfile w (hfront.1.subset hw), ?_⟩
  rcases hfront.2 with hnext | rfl
  · exact .inl (hfile next hnext).2
  · exact hlast

/-! ### Failed runs -/

variable {v : View σ Place} (h : v.AllOrNothing)
include h

theorem same_sourceAt (path : String) (s : σ) : v.Same s (sourceAt path s).2 := by
  rw [sourceAt]
  split
  · have hasked := h.isInteractive s
    cases hresult : Host.act Host.isInteractive s with
    | mk asked s' =>
      rw [hresult] at hasked
      cases asked with
      | true => exact hasked
      | false => exact hasked.trans (h.readInput s')
  · have hread := h.readFile path s
    cases hresult : Host.act (Host.readFile path) s with
    | mk result s' =>
      rw [hresult] at hread
      cases result with
      | ok bytes => exact hread
      | error e => cases haction : e.action <;> simpa only [haction] using hread

/-- Making a plan changes nothing. -/
theorem same_plan (d : Source.Decoders) (o : Options) (operands : List String) (s : σ) :
    v.Same s (plan d o operands s).2 := by
  rw [plan]
  split
  · exact .refl v s
  · exact same_sourceAt h _ s

theorem Planned.same {o : Options} {ws : List Write} (hplanned : Planned d arguments s o ws s₀) : v.Same s s₀ := by
  obtain ⟨operands, _, hplan⟩ := hplanned
  have hsame := same_plan h d o operands s
  rwa [hplan] at hsame

section Stops

variable {done : List Write} {next : Write} (hstops : Stops d arguments s done next s₁ s₂)
include hstops

theorem Stops.output_eq : v.output s₁ = v.output s := by
  obtain ⟨o, rest, s₀, e, hplanned, hdone, _⟩ := hstops
  have hsilent : done.flatMap Write.bytes = [] :=
    List.flatMap_eq_nil_iff.2 fun w hw => (hplanned.split.1 w hw).2
  rw [(h.carriedAll hdone).output, hsilent, List.append_nil, (hplanned.same h).output]

theorem Stops.file_eq (place : Place) : v.file s₂ place = v.file s₁ place := by
  obtain ⟨o, rest, s₀, e, _, _, hnext⟩ := hstops
  exact (h.refused hnext).1 place

theorem Stops.remains : Remains v d arguments s s₂ := by
  have houtput := hstops.output_eq h
  have hfile := hstops.file_eq h
  obtain ⟨o, rest, s₀, e, hplanned, hdone, hnext⟩ := hstops
  refine ⟨fun place hchanged => ?_, fun hchanged => ?_⟩
  · rw [hfile place] at hchanged ⊢
    rcases (h.carriedAll hdone).file place with heq | ⟨path, data, hmem, hdata⟩
    · exact absurd (heq.trans ((hplanned.same h).file place)) hchanged
    · exact ⟨o, _, s₀, path, data, hplanned, (hplanned.split.1 _ hmem).1, List.mem_append_left _ hmem, hdata⟩
  · obtain ⟨_, part, hpart, hstdout⟩ := h.refused hnext
    rw [houtput] at hstdout
    rcases hplanned.split.2 with hsilent | ⟨hoption, text, rfl⟩
    · rw [hsilent, List.prefix_nil] at hpart
      rw [hpart, List.append_nil] at hstdout
      exact absurd hstdout hchanged
    · exact ⟨o, _, s₀, text, part, hplanned, hoption, by simp, hpart, hstdout⟩

end Stops

theorem same_or_stops (hfailed : (runAt d arguments s).1.exit.number ≠ 0) :
    v.Same s (runAt d arguments s).2 ∨
      ∃ done next s₁, Stops d arguments s done next s₁ (runAt d arguments s).2 := by
  rcases failed_cases hfailed with heq | ⟨o, operands, heq⟩ | hstops
  · rw [heq]
    exact .inl (.refl v s)
  · rw [heq]
    exact .inl (same_plan h d o operands s)
  · exact .inr hstops

/-- A failed run changes nothing exactly when it is not interrupted, and what it leaves are whole files of
binary images and a part of the text. -/
theorem failed_run_spares_iff (d : Source.Decoders) (arguments : List String) (s : σ) :
    (((runAt d arguments s).1.exit.number ≠ 0 → v.Same s (runAt d arguments s).2) ↔
        ¬ Interrupted v d arguments s) ∧
      ((runAt d arguments s).1.exit.number ≠ 0 → Remains v d arguments s (runAt d arguments s).2) := by
  refine ⟨⟨?_, fun hwhole hfailed => ?_⟩, fun hfailed => ?_⟩
  · rintro hspares ⟨done, next, s₁, s₂, hstops, hchanged⟩
    obtain ⟨hfailed, hstate⟩ := hstops.run
    have hsame := hspares hfailed
    rw [hstate] at hsame
    rcases hchanged with ⟨place, hfile⟩ | houtput
    · exact hfile ((hstops.file_eq h place).symm.trans (hsame.file place))
    · exact houtput (hsame.output.trans (hstops.output_eq h).symm)
  · rcases same_or_stops h hfailed with hsame | ⟨done, next, s₁, hstops⟩
    · exact hsame
    · refine ⟨fun place => ?_, ?_⟩
      · by_contra hchanged
        rw [hstops.file_eq h] at hchanged
        exact hwhole ⟨done, next, s₁, _, hstops, .inl ⟨place, hchanged⟩⟩
      · by_contra hchanged
        rw [← hstops.output_eq h] at hchanged
        exact hwhole ⟨done, next, s₁, _, hstops, .inr hchanged⟩
  · rcases same_or_stops h hfailed with hsame | ⟨done, next, s₁, hstops⟩
    · exact ⟨fun place hchanged => absurd (hsame.file place) hchanged,
        fun hchanged => absurd hsame.output hchanged⟩
    · exact hstops.remains h

end Failed

/-! ### Images without their listing -/

def mooring : Reel where
  frames := [Source.uniform "_tide" 0 6 32 14]

/-- A desk without files. The reel is in the input, behind a byte order mark. -/
def jetty (room : Option Nat) : Desk where
  input := { bytes := Utf8.mark ++ (Source.write none mooring).1 }
  room := room

theorem readable_mooring : Source.Readable mooring := by
  have hframe : Source.ReadableFrame (Source.uniform "_tide" 0 6 32 14) :=
    @Source.readable_uniform (utf8 "tide") ⟨116, utf8 "ide", rfl, rfl, List.all_eq_true.1 (by decide)⟩ _ _ _ _
      (by decide)
  exact ⟨List.forall_mem_singleton.2 hframe, List.cons_ne_nil _ _, none, rfl, by simp [Source.canvasItems]⟩

theorem reelAt_marked {bytes : Bytes} {parsed : Source.Parsed} (h : Source.parseMemoized bytes = .ok parsed)
    (room : Option Nat) :
    reelAt .unicode "" ({ input := { bytes := Utf8.mark ++ bytes }, room } : Desk) =
      (.ok parsed.reel, { room }) := by
  have hmark : Source.Decoders.unicode.normalize (Utf8.mark ++ bytes) = bytes := rfl
  have hof : reelOf .unicode "" (.ok (Utf8.mark ++ bytes)) = .ok parsed.reel := by
    rw [reelOf, Source.load, hmark, h]
    rfl
  rw [← hof]
  rfl

theorem reelAt_jetty (room : Option Nat) : reelAt .unicode "" (jetty room) = (.ok mooring, { room }) := by
  have hparse := readable_mooring.parse_write
  rw [Source.parse] at hparse
  obtain ⟨parsed, hmemoized, hreel⟩ := map_eq_ok hparse
  rw [jetty, reelAt_marked hmemoized, hreel]

theorem planned_jetty {arguments : List String} {o : Options} (room : Option Nat)
    (hread : Options.read {} arguments = .ok (o, [])) (hvalid : o.validate 0 = .ok ()) (htarget : o.target = .ok {})
    (hkept : ∀ reel, keptReel o reel = .ok reel) (hproduct : ∀ reel, product o {} reel = .ok
      ⟨[("tide.bin", Image.file none reel.frames)], Image.listing "tide.bin" none reel.frames⟩) :
    Planned .unicode arguments (jetty room) o
      [.file "tide.bin" (Image.file none mooring.frames),
        o.textWrite (Image.listing "tide.bin" none mooring.frames)] { room } := by
  have hwrites : writesFor o {} mooring = .ok [.file "tide.bin" (Image.file none mooring.frames),
      o.textWrite (Image.listing "tide.bin" none mooring.frames)] := by
    rw [writesFor, hkept]
    change (product o {} mooring).map o.place = _
    rw [hproduct]
    rfl
  have hchecked : checkedTarget o 0 = .ok {} := by
    rw [checkedTarget, hvalid, htarget]
    rfl
  refine ⟨[], hread, ?_⟩
  rw [plan, List.length_nil, hchecked]
  simp only [List.headD_nil, reelAt_jetty]
  exact congrArg (·, _) hwrites

-- the image is there when the standard output turns out to be full
theorem failed_run_spares_iff_full :
    Desk.view.AllOrNothing ∧
      (runAt .unicode ["-output-bin", "tide.bin"] (jetty (some 4))).1.exit.number ≠ 0 ∧
      Interrupted Desk.view .unicode ["-output-bin", "tide.bin"] (jetty (some 4)) := by
  let o : Options := { outputBin := "tide.bin" }
  have hread : Options.read {} ["-output-bin", "tide.bin"] = .ok (o, []) := by decide +kernel
  have hplanned := planned_jetty (some 4) hread rfl (by decide +kernel) (fun _ => rfl) (fun _ => rfl)
  have htext : ∀ text, o.textWrite text = .output (utf8 text) := fun _ => rfl
  rw [htext] at hplanned
  have hcarry : ∀ image : Bytes, Write.carryAll ({ room := some 4 } : Desk) [.file "tide.bin" image] =
      (.ok (), { files := { nodes := [(["tide.bin"], .file image)] }, room := some 4 }) := fun _ => rfl
  have hrefused : ∀ {image listing : Bytes}, 4 < listing.length →
      ∃ d', (Write.output listing).carry
        ({ files := { nodes := [(["tide.bin"], .file image)] }, room := some 4 } : Desk) =
          (.error (.output .sinkFull), d') ∧ Desk.view.file d' ["tide.bin"] = some image := by
    intro image listing hlong
    have hfull : (Stream.deliver (some 4) listing).outcome = .error .sinkFull := by
      rw [Stream.deliver, if_neg (Nat.not_le.2 hlong)]
    exact ⟨_, Prod.ext (congrArg (Except.mapError Write.Refusal.output) hfull) rfl, rfl⟩
  have hlong : 4 < (utf8 (Image.listing "tide.bin" none mooring.frames)).length := by
    have hname : (utf8 (Source.uniform "_tide" 0 6 32 14).name).length = 5 := rfl
    simp only [Image.listing, mooring, Image.symbols, utf8_append, List.length_append, hname]
    omega
  obtain ⟨d', hnext, hthere⟩ := hrefused hlong
  obtain ⟨hexit, hstate⟩ := Stops.run ⟨o, [], _, _, hplanned, hcarry _, hnext⟩
  refine ⟨Desk.allOrNothing, hexit, ?_⟩
  by_contra hwhole
  have hsame := (failed_run_spares_iff Desk.allOrNothing .unicode _ (jetty (some 4))).1.2 hwhole hexit
  have hfile := hsame.file ["tide.bin"]
  rw [hstate, hthere] at hfile
  cases hfile

-- the image is there when the directory of the listing turns out to be missing
theorem failed_run_leaves_tide :
    let result := runAt .unicode ["-output-bin", "tide.bin", "-o", "log/tide.s"] (jetty none)
    result.1.exit.number ≠ 0 ∧ Desk.view.file (jetty none) ["tide.bin"] = none ∧
      Desk.view.file result.2 ["tide.bin"] = some (Image.file none mooring.frames) := by
  let o : Options := { outputBin := "tide.bin", output := "log/tide.s" }
  have hread : Options.read {} ["-output-bin", "tide.bin", "-o", "log/tide.s"] = .ok (o, []) := by decide +kernel
  have hplanned := planned_jetty none hread rfl (by decide +kernel) (fun _ => rfl) (fun _ => rfl)
  have htext : ∀ text, o.textWrite text = .file "log/tide.s" (utf8 text) := fun _ => rfl
  rw [htext] at hplanned
  have hcarry : ∀ image : Bytes, Write.carryAll ({} : Desk) [.file "tide.bin" image] =
      (.ok (), { files := { nodes := [(["tide.bin"], .file image)] } }) := fun _ => rfl
  have hrefused : ∀ image listing : Bytes,
      (Write.file "log/tide.s" listing).carry ({ files := { nodes := [(["tide.bin"], .file image)] } } : Desk) =
        (.error (.file "log/tide.s" ⟨.opening, "log/tide.s", .noEntry⟩),
          { files := { nodes := [(["tide.bin"], .file image)] } }) := fun _ _ => rfl
  have hthere : ∀ image : Bytes, Desk.view.file { files := { nodes := [(["tide.bin"], .file image)] } }
      ["tide.bin"] = some image := fun _ => rfl
  obtain ⟨hexit, hstate⟩ := Stops.run ⟨o, [], _, _, hplanned, hcarry _, hrefused _ _⟩
  refine ⟨hexit, ?_, ?_⟩
  · rfl
  · rw [hstate]
    exact hthere _

end Petscii.Command
