import Petscii.Proofs.Image.Files
import Petscii.Proofs.Source.RoundTrip

/-!
# The one file and its listing

The listing of the one file is made beside the file and describes it: every offset that it gives is where the
frame's image stands, the images follow each other from the address in front to the end that the listing gives,
and an image that fills a screen is read back as its frame with every value modulo 256.
-/

namespace Petscii.Image

open Session

/-- Pieces, each given by offset and size, that lie one behind the other from `start` to `stop`. -/
def Tiles (start stop : Nat) : List (Nat × Nat) → Prop
  | [] => start = stop
  | (offset, size) :: rest => offset = start ∧ Tiles (offset + size) stop rest

/-- What a listing says of a frame: the offset of its image, and its address by the offset. -/
def frameSymbols (base : String) (f : Frame) (offset : Nat) : String :=
  f.name ++ "_offset = " ++ Nat.repr offset ++ "\n" ++
    f.name ++ "_addr = " ++ base ++ "_base + " ++ f.name ++ "_offset\n"

/-- A file of frames' images, and a listing with the offsets `offsets`, say the same. -/
structure Describes (base : String) (start : Option UInt16) (frames : List Frame) (image : Bytes)
    (offsets : List Nat) (listed : String) : Prop where
  length_offsets : offsets.length = frames.length
  listed_eq : listed = String.join (List.zipWith (frameSymbols base) frames offsets) ++
    base ++ "_end = " ++ Nat.repr image.length ++ "\n"
  /-- A start address stands in front, low byte first. -/
  address : ∀ a, start = some a → ∃ low high rest, image = low :: high :: rest ∧
    low.toNat + 256 * high.toNat = a.toNat
  /-- Behind the address, if there is one, the images fill the file. -/
  tiles : Tiles (if start.isSome then 2 else 0) image.length
    (offsets.zip (frames.map fun f => f.bytes.length))
  found : ∀ (i : Nat) (f : Frame) (k : Nat), frames[i]? = some f → offsets[i]? = some k →
    (image.drop k).take f.bytes.length = f.bytes
  /-- A frame that was built from its values is built again, modulo 256, from the bytes at its offset. -/
  rebuilt : ∀ (i : Nat) (f : Frame) (k : Nat), frames[i]? = some f → offsets[i]? = some k →
    (∃ values, Frame.ofPayload f.name values = .ok f) →
      Frame.ofPayload f.name (((image.drop k).take 2002).map Cell.ofByte) = .ok f.low

/-! ### Bytes and values -/

theorem ofPayload_bytes {f : Frame} (hf : f.Full) :
    Frame.ofPayload f.name (f.bytes.map Cell.ofByte) = .ok f.low := by
  have hvalues : f.bytes.map Cell.ofByte = f.low.payload := by
    rw [Frame.payload_low, Frame.bytes, List.map_map]
    exact List.map_congr_left fun v _ => Cell.ofByte_byte v
  rw [hvalues]
  exact Frame.ofPayload_eq_ok.2 ⟨hf.low, rfl, rfl⟩

theorem header_value (a : UInt16) : a.toUInt8.toNat + 256 * (a >>> 8).toUInt8.toNat = a.toNat := by
  have := a.toNat_lt
  rw [UInt16.toNat_toUInt8, UInt16.toNat_toUInt8, UInt16.toNat_shiftRight, Nat.shiftRight_eq_div_pow]
  simp
  omega

theorem length_header (start : Option UInt16) :
    (header start).length = if start.isSome then 2 else 0 := by
  cases start <;> rfl

/-! ### Offsets -/

def imageOffsets (offset : Nat) : List Frame → List Nat
  | [] => []
  | f :: rest => offset :: imageOffsets (offset + f.bytes.length) rest

theorem length_imageOffsets (offset : Nat) (frames : List Frame) :
    (imageOffsets offset frames).length = frames.length := by
  induction frames generalizing offset with
  | nil => rfl
  | cons f frames ih => rw [imageOffsets, List.length_cons, List.length_cons, ih]

theorem symbols_eq (base : String) (offset : Nat) (frames : List Frame) :
    symbols base offset frames =
      String.join (List.zipWith (frameSymbols base) frames (imageOffsets offset frames)) ++
        base ++ "_end = " ++ Nat.repr (offset + (frames.flatMap Frame.bytes).length) ++ "\n" := by
  induction frames generalizing offset with
  | nil => simp [symbols, imageOffsets]
  | cons f frames ih =>
    rw [symbols, ih, imageOffsets, List.zipWith_cons_cons, List.flatMap_cons, List.length_append,
      String.join_cons, frameSymbols, Nat.add_assoc]
    simp only [String.append_assoc]

theorem tiles_imageOffsets (offset : Nat) (frames : List Frame) :
    Tiles offset (offset + (frames.flatMap Frame.bytes).length)
      ((imageOffsets offset frames).zip (frames.map fun f => f.bytes.length)) := by
  induction frames generalizing offset with
  | nil => exact rfl
  | cons f frames ih =>
    refine ⟨rfl, ?_⟩
    rw [List.flatMap_cons, List.length_append, ← Nat.add_assoc]
    exact ih _

theorem found_imageOffsets (front : Bytes) (frames : List Frame) {i : Nat} {f : Frame} {k : Nat}
    (hf : frames[i]? = some f) (hk : (imageOffsets front.length frames)[i]? = some k) :
    ((front ++ frames.flatMap Frame.bytes).drop k).take f.bytes.length = f.bytes := by
  induction frames generalizing front i with
  | nil => cases hf
  | cons g frames ih =>
    rw [List.flatMap_cons]
    cases i with
    | zero =>
      cases hf
      cases hk
      rw [List.drop_left, List.take_left]
    | succ i =>
      rw [imageOffsets, List.getElem?_cons_succ, ← List.length_append] at hk
      rw [← List.append_assoc]
      exact ih (front ++ g.bytes) hf hk

theorem describes_file (base : String) (start : Option UInt16) (frames : List Frame) :
    Describes base start frames (file start frames) (imageOffsets (header start).length frames)
      (symbols base (header start).length frames) where
  length_offsets := length_imageOffsets _ _
  listed_eq := by rw [symbols_eq, file, List.length_append]
  address := by
    rintro a rfl
    exact ⟨_, _, _, rfl, header_value a⟩
  tiles := by
    rw [← length_header, file, List.length_append]
    exact tiles_imageOffsets _ _
  found i f k hf hk := found_imageOffsets (header start) frames hf hk
  rebuilt i f k hf hk hbuilt := by
    obtain ⟨values, hvalues⟩ := hbuilt
    have hfull := (Frame.ofPayload_eq_ok.1 hvalues).1
    have hlength : f.bytes.length = 2002 := hfull.length_bytes
    rw [← hlength, file, found_imageOffsets (header start) frames hf hk]
    exact ofPayload_bytes hfull

/-- The one file and its listing describe each other, whatever the frames are, if only the file can be
written. Nothing else is written. -/
theorem writeListing_describes {output : String} {d : Desk} (start : Option UInt16) (frames : List Frame)
    (hopen : d.files.Accepts output) :
    ∃ image offsets listed files,
      StateT.run (writeListing (m := StateM Desk) none output { startAddress := start } frames) d =
        ((utf8 listed, .ok ()), { d with files }) ∧
      files.read output = .ok image ∧
      (∀ q, files.node? q ≠ d.files.node? q → d.files.Leads output q) ∧
      Describes (symbolBase output) start frames image offsets listed := by
  have haccepts : ∀ w ∈ [(output, file start frames)], d.files.Accepts w.1 := by
    simpa using hopen
  obtain ⟨files, hends, hwritten⟩ :=
    @exists_written { startAddress := start } frames (.inr ⟨rfl, rfl⟩) output d haccepts
  refine ⟨_, _, _, files, run_writeListing hends, ?_, fun q hq => ?_, describes_file _ start frames⟩
  · exact hwritten.read_eq (List.pairwise_singleton _ _) haccepts _ (List.mem_singleton_self _)
  · obtain ⟨w, hw, hleads, _⟩ := hwritten.changed q hq
    cases List.mem_singleton.1 hw
    exact hleads

-- the second frame fills no screen, and no value of the first is a byte
theorem writeListing_describes_fog :
    let frames := [Source.uniform "_fog" 300 (-1) 256 1023, ⟨"_wisp", 1, 2, 1, 1, [160, 161], [14]⟩]
    ({} : Desk).files.Accepts "fog.prg" ∧
      ∃ image offsets listed files,
        StateT.run (writeListing (m := StateM Desk) none "fog.prg" { startAddress := some 0xC0DE } frames) {} =
          ((utf8 listed, .ok ()), { files }) ∧
        files.read "fog.prg" = .ok image ∧
        (∀ q, files.node? q ≠ ({} : Desk).files.node? q → ({} : Desk).files.Leads "fog.prg" q) ∧
        Describes "fog_prg" (some 0xC0DE) frames image offsets listed := by
  intro frames
  have hopen : ({} : Desk).files.Accepts "fog.prg" := FileTree.accepts_iff.2 ⟨["fog.prg"], rfl, by decide, by decide⟩
  exact ⟨hopen, writeListing_describes (some 0xC0DE) frames hopen⟩

end Petscii.Image
