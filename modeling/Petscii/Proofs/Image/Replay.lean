import Petscii.Proofs.Image.Files
import Petscii.Proofs.Source.RoundTrip

/-!
# Playing combined images

A player that shows the last frame combines the screen with one separate file after the other, and begins again
behind the last. Each file is the combination of its frame with the frame before, so the screen passes through
the frames' images in order, as often as the player goes around. Values are combined before they are cut down to
bytes, which makes no difference.
-/

namespace Petscii.Image

open Session

/-- The screen of a player after `k` steps. -/
def replay (files : List Bytes) (screen : Bytes) : Nat → Bytes
  | 0 => screen
  | k + 1 => combine (replay files screen k) (files.getD (k % files.length) [])

/-- What combined files under numbered names do for a list of frames, the last of which is `last`: `t` is the
tree before they are written, and `t'` the tree after. -/
structure Replays (output : String) (frames : List Frame) (last : Frame) (t t' : FileTree) : Prop where
  /-- Each name ends in the number of its frame, in at least four digits. -/
  name_eq : ∀ i, fileName output i = output ++ "." ++ String.ofList ((Nat.repr i).toList.leftpad 4 '0')
  name_injective : ∀ i j, fileName output i = fileName output j → i = j
  /-- Every file is there, and the files show the frames one after the other, again and again. -/
  shows : ∃ files : List Bytes, files.length = frames.length ∧
    (∀ i data, files[i]? = some data → t'.read (fileName output i) = .ok data) ∧
    ∀ k f, frames[k % frames.length]? = some f → replay files last.bytes (k + 1) = f.bytes
  /-- Nothing else has changed. -/
  kept : ∀ q, t'.node? q ≠ t.node? q → ∃ i, i < frames.length ∧ t.Leads (fileName output i) q

/-! ### Names -/

theorem toUpper_of_isDigit {c : Char} (hc : c.isDigit = true) : c.toUpper = c := by
  have hlow : ¬ c.val ≥ 'a'.val := by
    intro h
    simp only [Char.isDigit, Bool.and_eq_true, decide_eq_true_eq] at hc
    have hnine := hc.2
    simp only [UInt32.le_iff_toNat_le, ge_iff_le] at h hnine
    exact absurd (Nat.le_trans h hnine) (by decide)
  exact dif_neg fun h => hlow h.1

theorem padded_ten (n : Nat) : Numeral.padded 10 n = String.ofList ((Nat.repr n).toList.leftpad 4 '0') := by
  have hdigits : (Nat.toDigits 10 n).map Char.toUpper = (Nat.repr n).toList := by
    rw [Nat.toList_repr]
    refine (List.map_congr_left fun c hc => ?_).trans (List.map_id _)
    exact toUpper_of_isDigit (Nat.isDigit_of_mem_toDigits (by decide) (by decide) hc)
  rw [Numeral.padded, hdigits]

/-! ### The frames in turn -/

theorem combine_combine {a b : Bytes} (h : a.length = b.length) : combine a (combine b a) = b := by
  induction a generalizing b with
  | nil =>
    cases b with
    | nil => rfl
    | cons y b => cases h
  | cons x a ih =>
    cases b with
    | nil => cases h
    | cons y b =>
      have hbyte : x ^^^ (y ^^^ x) = y := by
        rw [UInt8.xor_comm y x, ← UInt8.xor_assoc, UInt8.xor_self, UInt8.zero_xor]
      have hrest := ih (Nat.succ.inj h)
      simp only [combine, List.zipWith_cons_cons] at hrest ⊢
      rw [hbyte, hrest]

theorem getElem?_previous {frames : List Frame} {i : Nat} (hi : i < frames.length) :
    (previous frames)[(i + 1) % frames.length]? = frames[i]? := by
  have hne : frames ≠ [] := List.ne_nil_of_length_pos (by omega)
  rw [previous, List.getLast?_eq_some_getLast hne, Option.toList_some]
  rcases Nat.lt_or_ge (i + 1) frames.length with hnext | hlast
  · rw [Nat.mod_eq_of_lt hnext, List.singleton_append, List.getElem?_cons_succ,
      List.getElem?_dropLast, if_pos (by omega)]
  · have heq : i + 1 = frames.length := by omega
    rw [heq, Nat.mod_self, List.singleton_append, List.getElem?_cons_zero, List.getLast_eq_getElem,
      List.getElem?_eq_getElem hi]
    congr 2
    omega

section Replay

variable {frames : List Frame} (hfull : ∀ f ∈ frames, f.Full)
include hfull

/-- One step of the player: from the frame before a frame to the frame itself. -/
theorem combine_separateBytes {i : Nat} {f prev : Frame} (hf : frames[i]? = some f)
    (hprev : (previous frames)[i]? = some prev) :
    combine prev.bytes ((separateBytes true frames).getD i []) = f.bytes := by
  have hfile : (separateBytes true frames)[i]? = some (combine f.bytes prev.bytes) := by
    rw [separateBytes, if_pos rfl, List.getElem?_zipWith, hf, hprev]
  rw [List.getD_eq_getElem?_getD, hfile, Option.getD_some]
  apply combine_combine
  rw [(hfull prev (mem_previous (List.mem_of_getElem? hprev))).length_bytes,
    (hfull f (List.mem_of_getElem? hf)).length_bytes]

/-- After any number of steps the screen shows the frame before the one whose turn it is. -/
theorem replay_eq_previous {last : Frame} (hlast : frames.getLast? = some last) (k : Nat) :
    ∃ prev, (previous frames)[k % frames.length]? = some prev ∧
      replay (separateBytes true frames) last.bytes k = prev.bytes := by
  induction k with
  | zero =>
    refine ⟨last, ?_, rfl⟩
    rw [Nat.zero_mod, previous, hlast]
    rfl
  | succ k ih =>
    obtain ⟨prev, hprev, hscreen⟩ := ih
    have hlt : k % frames.length < frames.length := by
      rw [← length_previous]
      rw [← length_previous] at hprev
      exact (List.getElem?_eq_some_iff.1 hprev).1
    have hf := List.getElem?_eq_getElem hlt
    refine ⟨frames[k % frames.length], ?_, ?_⟩
    · rw [← Nat.mod_add_mod, getElem?_previous hlt, hf]
    · rw [replay, hscreen, length_separateBytes, combine_separateBytes hfull hf hprev]

theorem replay_eq {last : Frame} (hlast : frames.getLast? = some last) {k : Nat} {f : Frame}
    (hf : frames[k % frames.length]? = some f) :
    replay (separateBytes true frames) last.bytes (k + 1) = f.bytes := by
  obtain ⟨prev, hprev, hscreen⟩ := replay_eq_previous hfull hlast k
  rw [replay, hscreen, length_separateBytes, combine_separateBytes hfull hf hprev]

end Replay

/-- Combined images of any frames that were built from their values are written into files of their own, and
replay the frames for ever, if only each of the files can be written. -/
theorem writeListing_replays {frames : List Frame} {last : Frame} {output : String} {d : Desk}
    (start : Option UInt16) (hbuilt : ∀ f ∈ frames, ∃ values, Frame.ofPayload f.name values = .ok f)
    (hlast : frames.getLast? = some last)
    (hopen : ∀ i, i < frames.length → d.files.Accepts (fileName output i)) :
    ∃ files, StateT.run (writeListing (m := StateM Desk) none output
        { startAddress := start, separate := true, combined := true } frames) d =
          ((utf8 (separateListing output frames.length), .ok ()), { d with files }) ∧
      Replays output frames last d.files files := by
  have hfull : ∀ f ∈ frames, f.Full := fun f hf =>
    (hbuilt f hf).elim fun _ hvalues => (Frame.ofPayload_eq_ok.1 hvalues).1
  have hlength : (separateBytes true frames).length = frames.length := length_separateBytes true frames
  have haccepts : ∀ w ∈ numbered output 0 (separateBytes true frames), d.files.Accepts w.1 := by
    intro w hw
    obtain ⟨i, hdata, hname⟩ := mem_numbered.1 hw
    obtain ⟨hi, _⟩ := List.getElem?_eq_some_iff.1 hdata
    rw [hname, Nat.zero_add]
    exact hopen i (by omega)
  obtain ⟨files, hends, hwritten⟩ := @exists_written ⟨start, true, true⟩ _ (.inl ⟨rfl, hfull⟩) _ _ haccepts
  refine ⟨files, run_writeListing hends, fun i => by rw [fileName, padded_ten],
    fun i j => Numeral.append_padded_injective (by decide) (by decide), ⟨_, hlength, fun i data hdata => ?_, fun k f => replay_eq hfull hlast⟩,
    fun q hq => ?_⟩
  · exact hwritten.read_eq (apart_numbered _ _ _ _) haccepts (fileName output i, data)
      (mem_numbered.2 ⟨i, hdata, by rw [Nat.zero_add]⟩)
  · obtain ⟨w, hw, hleads, _⟩ := hwritten.changed q hq
    obtain ⟨i, hdata, hname⟩ := mem_numbered.1 hw
    obtain ⟨hi, _⟩ := List.getElem?_eq_some_iff.1 hdata
    rw [hname, Nat.zero_add] at hleads
    exact ⟨i, Nat.lt_of_lt_of_eq hi hlength, hleads⟩

theorem ofPayload_uniform (name : String) (border background char color : Cell) :
    ∃ values, Frame.ofPayload name values = .ok (Source.uniform name border background char color) := by
  refine ⟨_, Frame.ofPayload_eq_ok.2 ⟨⟨rfl, rfl, ?_, ?_⟩, rfl, rfl⟩⟩
  · exact List.length_replicate
  · exact List.length_replicate

def studio : Desk where
  files := { nodes := [(["reel"], .directory)] }

-- values beyond a byte on both sides, the smallest of all among them
theorem writeListing_replays_ember :
    let frames := [Source.uniform "_glow" (-1) 300 160 2, Source.uniform "_ash" 0 6 32 (-9223372036854775808)]
    (∀ f ∈ frames, ∃ values, Frame.ofPayload f.name values = .ok f) ∧
      frames.getLast? = some (Source.uniform "_ash" 0 6 32 (-9223372036854775808)) ∧
      (∀ i, i < 2 → studio.files.Accepts (fileName "reel/ember" i)) ∧
      ∃ files, StateT.run (writeListing (m := StateM Desk) none "reel/ember"
          { startAddress := some 0x0801, separate := true, combined := true } frames) studio =
            ((utf8 (separateListing "reel/ember" 2), .ok ()), { studio with files }) ∧
        Replays "reel/ember" frames (Source.uniform "_ash" 0 6 32 (-9223372036854775808)) studio.files files := by
  intro frames
  have hbuilt : ∀ f ∈ frames, ∃ values, Frame.ofPayload f.name values = .ok f := by
    simp only [frames, List.forall_mem_cons]
    exact ⟨ofPayload_uniform _ _ _ _ _, ofPayload_uniform _ _ _ _ _, by simp⟩
  have hopen : ∀ i, i < 2 → studio.files.Accepts (fileName "reel/ember" i) := by
    intro i hi
    obtain rfl | rfl : i = 0 ∨ i = 1 := by omega
    · exact FileTree.accepts_iff.2 ⟨["reel", "ember.0000"], rfl, by decide, by decide⟩
    · exact FileTree.accepts_iff.2 ⟨["reel", "ember.0001"], rfl, by decide, by decide⟩
  exact ⟨hbuilt, rfl, hopen, writeListing_replays (some 0x0801) hbuilt rfl hopen⟩

end Petscii.Image
