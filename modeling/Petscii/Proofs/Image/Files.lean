import Petscii.Image
import Petscii.Proofs.FileTree
import Petscii.Proofs.Frame
import Petscii.Proofs.Session
import Petscii.Proofs.Text.Numeral

/-!
# The files of binary images

Writing images comes down to a list of files that are written one after the other: one file for all frames, or
one for each under its number. Numbered files have names of their own, however many there are, and so places of
their own in every tree. Images that fill the screen can always be combined, byte by byte.
-/

namespace Petscii.Image

open Session

/-! ### Combined images -/

def combine (a b : Bytes) : Bytes :=
  List.zipWith (· ^^^ ·) a b

theorem byte_xor (a b : Cell) : (a ^^^ b).byte = a.byte ^^^ b.byte := by
  rw [Cell.byte, Int64.toUInt64_xor, UInt64.toUInt8_xor]
  rfl

/-- The image of a combination is the combination of the images. -/
theorem xor_bytes {a b : Frame} (ha : a.Full) (hb : b.Full) :
    ∃ delta, a.xor b = .ok delta ∧ delta.bytes = combine a.bytes b.bytes := by
  have hsame : ¬ (a.width ≠ b.width ∨ a.height ≠ b.height ∨ a.chars.length ≠ b.chars.length ∨
      a.colors.length ≠ b.colors.length) := by
    simp [ha.width, hb.width, ha.height, hb.height, ha.chars, hb.chars, ha.colors, hb.colors]
  have hbytes : ∀ xs ys : List Cell, (List.zipWith (· ^^^ ·) xs ys).map Cell.byte =
      combine (xs.map Cell.byte) (ys.map Cell.byte) := by
    intro xs ys
    simp only [combine, List.map_zipWith, List.zipWith_map, byte_xor]
  refine ⟨_, by rw [Frame.xor, if_neg hsame, if_neg (by rw [ha.colors, ha.chars]; omega)], ?_⟩
  have hpayload : List.zipWith (· ^^^ ·) a.payload b.payload = (a.border ^^^ b.border) ::
      (a.background ^^^ b.background) :: (List.zipWith (· ^^^ ·) a.chars b.chars ++
        List.zipWith (· ^^^ ·) a.colors b.colors) := by
    rw [Frame.payload, Frame.payload, List.zipWith_cons_cons, List.zipWith_cons_cons,
      List.zipWith_append (by rw [ha.chars, hb.chars])]
  rw [Frame.bytes, Frame.bytes, Frame.bytes, ← hbytes, hpayload]
  simp only [Frame.payload, ha.chars, ha.colors, Nat.sub_self, List.replicate_zero, List.append_nil]
  rw [List.take_of_length_le (Nat.le_of_eq ha.colors), List.take_of_length_le (Nat.le_of_eq hb.colors)]

/-- The frame before each frame, and the last before the first. -/
def previous (frames : List Frame) : List Frame :=
  frames.getLast?.toList ++ frames.dropLast

def separateBytes (combined : Bool) (frames : List Frame) : List Bytes :=
  if combined then List.zipWith (fun f prev => combine f.bytes prev.bytes) frames (previous frames)
  else frames.map Frame.bytes

theorem mem_previous {frames : List Frame} {f : Frame} (hf : f ∈ previous frames) : f ∈ frames := by
  rcases List.mem_append.1 hf with hf | hf
  · exact List.mem_of_getLast? (Option.mem_toList.1 hf)
  · exact (List.dropLast_sublist frames).subset hf

theorem length_previous (frames : List Frame) : (previous frames).length = frames.length := by
  cases frames with
  | nil => rfl
  | cons f frames => simp [previous, List.getLast?_cons]

theorem zipWith_xor_eq {fs prevs : List Frame} (hfs : ∀ f ∈ fs, f.Full) (hprevs : ∀ f ∈ prevs, f.Full) :
    List.zipWith (fun f prev => (f.xor prev).map Frame.bytes) fs prevs =
      (List.zipWith (fun f prev => combine f.bytes prev.bytes) fs prevs).map .ok := by
  induction fs generalizing prevs with
  | nil => rfl
  | cons f fs ih =>
    cases prevs with
    | nil => rfl
    | cons prev prevs =>
      obtain ⟨hf, hfs⟩ := List.forall_mem_cons.1 hfs
      obtain ⟨hprev, hprevs⟩ := List.forall_mem_cons.1 hprevs
      obtain ⟨delta, hxor, hbytes⟩ := xor_bytes hf hprev
      rw [List.zipWith_cons_cons, List.zipWith_cons_cons, List.map_cons, ih hfs hprevs, hxor, ← hbytes]
      rfl

theorem contents_eq {frames : List Frame} (hfull : ∀ f ∈ frames, f.Full) (combined : Bool) :
    contents combined frames = (separateBytes combined frames).map .ok := by
  cases combined with
  | true => exact zipWith_xor_eq hfull fun f hf => hfull f (mem_previous hf)
  | false =>
    change frames.map _ = (frames.map Frame.bytes).map _
    rw [List.map_map]
    rfl

theorem length_separateBytes (combined : Bool) (frames : List Frame) :
    (separateBytes combined frames).length = frames.length := by
  cases combined with
  | true =>
    change (List.zipWith _ frames (previous frames)).length = _
    rw [List.length_zipWith, length_previous, Nat.min_self]
  | false => exact List.length_map _

/-! ### Numbered files -/

/-- Files under their numbers, from `index` on. -/
def numbered (output : String) (index : Nat) : List Bytes → List (String × Bytes)
  | [] => []
  | data :: rest => (fileName output index, data) :: numbered output (index + 1) rest

theorem mem_numbered {output : String} {index : Nat} {datas : List Bytes} {w : String × Bytes} :
    w ∈ numbered output index datas ↔ ∃ i, datas[i]? = some w.2 ∧ w.1 = fileName output (index + i) := by
  induction datas generalizing index with
  | nil => simp [numbered]
  | cons data datas ih =>
    rw [numbered, List.mem_cons, ih]
    constructor
    · rintro (rfl | ⟨i, hdata, hname⟩)
      · exact ⟨0, rfl, rfl⟩
      · exact ⟨i + 1, hdata, by rw [hname]; congr 1; omega⟩
    · rintro ⟨i, hdata, hname⟩
      cases i with
      | zero => exact .inl (Prod.ext hname (Option.some.inj hdata).symm)
      | succ i => exact .inr ⟨i, hdata, by rw [hname]; congr 1; omega⟩

/-- Different numbers give a name of its own in its directory to each file. -/
theorem leads_fileName_injective {t : FileTree} {output : String} {i j : Nat} {place : List String}
    (hi : t.Leads (fileName output i) place) (hj : t.Leads (fileName output j) place) : i = j := by
  obtain ⟨piece, hlast⟩ := FileTree.getLast?_parts_append output
  have hname : ∀ k, (FileTree.parts (fileName output k)).getLast? =
      some (piece ++ "." ++ Numeral.padded 10 k) := by
    intro k
    rw [fileName, String.append_assoc, String.append_assoc]
    refine hlast _ ?_ ?_
    · rw [Ne, ← String.toList_inj, String.toList_append]
      exact List.cons_ne_nil _ _
    · rw [String.toList_append, List.mem_append, not_or]
      refine ⟨by decide, fun hmem => ?_⟩
      have hdigit := Numeral.isUpperHex_of_mem_padded (by decide) (by decide) hmem
      exact absurd hdigit (by decide)
  have heq := hi.getLast?.symm.trans hj.getLast?
  rw [hname, hname] at heq
  exact Numeral.append_padded_injective (by decide) (by decide) (Option.some.inj heq)

theorem apart_numbered (t : FileTree) (output : String) (index : Nat) (datas : List Bytes) :
    t.Apart (numbered output index datas) := by
  induction datas generalizing index with
  | nil => exact List.Pairwise.nil
  | cons data datas ih =>
    refine List.pairwise_cons.2 ⟨fun w hw place hfirst hother => ?_, ih (index + 1)⟩
    obtain ⟨i, _, hname⟩ := mem_numbered.1 hw
    rw [hname] at hother
    have hsame := leads_fileName_injective hfirst hother
    omega

/-! ### Writing the files -/

def Error.ofRefusal : Write.Refusal → Error
  | .file path cause => .writing path cause
  | .output cause => .stream cause

def outcome (x : Except Write.Refusal Unit) : Except Error Unit :=
  x.mapError .ofRefusal

section Write

variable {σ : Type} [Host (StateM σ)]

theorem ends_writing (path : String) (data : Bytes) (s : σ) :
    Ends (writeFile path data >>= fun written => Session.ofExcept (.writing path) written) s
      (outcome ((Write.file path data).carry s).1) ((Write.file path data).carry s).2 := by
  have houtcome : outcome ((Write.file path data).carry s).1 =
      (Host.act (Host.writeFile path data) s).1.mapError (.writing path) := by
    rw [Write.carry, outcome]
    cases (Host.act (Host.writeFile path data) s).1 <;> rfl
  rw [houtcome]
  exact Ends.bind (ends_writeFile s path data) (rests_ofExcept _ _)

theorem ends_writeFrame (output : String) (index : Nat) (data : Bytes) (s : σ) :
    Ends (writeFrame output index (.ok data)) s (outcome ((Write.file (fileName output index) data).carry s).1)
      ((Write.file (fileName output index) data).carry s).2 :=
  Ends.bind (rests_log _) (Ends.bind (rests_ofExcept _ (.ok data)) (ends_writing _ _ _))

theorem ends_writeFrames (output : String) (index : Nat) (datas : List Bytes) (s : σ) :
    let result := Write.carryAll s ((numbered output index datas).map Write.ofFile)
    Ends (writeFrames output index (datas.map .ok)) s (outcome result.1) result.2 := by
  induction datas generalizing index s with
  | nil => exact rests_pure ()
  | cons data datas ih =>
    have hwrite := ends_writeFrame output index data s
    rw [List.map_cons, writeFrames, numbered, List.map_cons, Write.ofFile, Write.carryAll]
    cases hcarry : (Write.file (fileName output index) data).carry s with
    | mk written s' =>
      rw [hcarry] at hwrite
      cases written with
      | ok _ => exact hwrite.bind (ih (index + 1) s')
      | error e => exact hwrite.fail

end Write

def files (output : String) (options : Options) (frames : List Frame) : List (String × Bytes) :=
  if options.separate then numbered output 0 (separateBytes options.combined frames)
  else [(output, file options.startAddress frames)]

def text (output : String) (options : Options) (frames : List Frame) : String :=
  if options.separate then separateListing output frames.length
  else listing output options.startAddress frames

section Write

variable {σ : Type} [Host (StateM σ)] {options : Options}

theorem ends_write_separate (hseparate : options.separate = true) {frames : List Frame}
    (hfull : ∀ f ∈ frames, f.Full) (output : String) (s : σ) :
    let result := Write.carryAll s ((files output options frames).map Write.ofFile)
    Ends (write output options frames) s ((outcome result.1).map fun _ => text output options frames)
      result.2 := by
  have hframes := ends_writeFrames output 0 (separateBytes options.combined frames) s
  rw [← contents_eq hfull] at hframes
  have hlast := Ends.map (fun _ => separateListing output frames.length) hframes
  rw [text, if_pos hseparate, files, if_pos hseparate, write]
  cases hstart : options.startAddress with
  | none =>
    simp only [hseparate, if_true, Option.isSome_none]
    exact hlast
  | some a =>
    simp only [hseparate, if_true, Option.isSome_some]
    exact Ends.bind (rests_log _) (Ends.bind (rests_log _) hlast)

theorem ends_write_single (hseparate : options.separate = false) (hplain : options.combined = false)
    (frames : List Frame) (output : String) (s : σ) :
    let result := Write.carryAll s ((files output options frames).map Write.ofFile)
    Ends (write output options frames) s ((outcome result.1).map fun _ => text output options frames)
      result.2 := by
  have hlast := Ends.map (fun _ => listing output options.startAddress frames)
    (ends_writing output (file options.startAddress frames) s)
  rw [bind_assoc] at hlast
  have hfiles : (files output options frames).map Write.ofFile =
      [.file output (file options.startAddress frames)] := by
    rw [files, hseparate]
    rfl
  rw [text, hseparate, hfiles, Write.carryAll_singleton, write]
  cases hstart : options.startAddress with
  | none =>
    rw [hstart] at hlast
    simp only [hseparate, hplain, Bool.false_eq_true, if_false]
    exact hlast
  | some a =>
    rw [hstart] at hlast
    simp only [hseparate, hplain, Bool.false_eq_true, if_false]
    exact Ends.bind (rests_log _) hlast

/-- Combined images need files of their own. -/
theorem rests_write_combined (hseparate : options.separate = false) (hcombined : options.combined = true)
    (frames : List Frame) (output : String) (s : σ) :
    Rests (write output options frames) s (.error .combinedInOneFile) := by
  rw [write]
  cases options.startAddress with
  | none =>
    simp only [hseparate, hcombined, Bool.false_eq_true, if_false, if_true]
    exact rests_throw _
  | some a =>
    simp only [hseparate, hcombined, Bool.false_eq_true, if_false, if_true]
    exact Ends.bind (rests_log _) (rests_throw _)

/-- Images are written one by one if they fill the screen, or together if they are not to be combined. -/
theorem ends_write {frames : List Frame} (hlayout : options.separate = true ∧ (∀ f ∈ frames, f.Full) ∨
      options.separate = false ∧ options.combined = false) (output : String) (s : σ) :
    let result := Write.carryAll s ((files output options frames).map Write.ofFile)
    Ends (write output options frames) s ((outcome result.1).map fun _ => text output options frames)
      result.2 := by
  rcases hlayout with ⟨hseparate, hfull⟩ | ⟨hseparate, hplain⟩
  · exact ends_write_separate hseparate hfull output s
  · exact ends_write_single hseparate hplain frames output s

theorem exists_written {frames : List Frame} (hlayout : options.separate = true ∧ (∀ f ∈ frames, f.Full) ∨
      options.separate = false ∧ options.combined = false) {output : String} {d : Desk}
    (haccepts : ∀ w ∈ files output options frames, d.files.Accepts w.1) :
    ∃ tree, Ends (write output options frames) d (.ok (text output options frames)) { d with files := tree } ∧
      d.files.Written (files output options frames) tree := by
  obtain ⟨tree, hall, hwritten⟩ := FileTree.writeAll_eq_ok haccepts
  have hends := ends_write hlayout output d
  rw [Desk.carryAll_files, Desk.save, hall] at hends
  exact ⟨tree, hends, hwritten⟩

end Write

theorem run_writeListing {output : String} {options : Options} {frames : List Frame} {d d' : Desk}
    {listed : String} (h : Ends (write output options frames) d (.ok listed) d') :
    StateT.run (writeListing (m := StateM Desk) none output options frames) d = ((utf8 listed, .ok ()), d') := by
  obtain ⟨records, hrun⟩ := h.run
  rw [writeListing, StateT.run_bind, hrun]
  rfl

end Petscii.Image
