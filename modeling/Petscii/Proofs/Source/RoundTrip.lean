import Petscii.Proofs.Reel
import Petscii.Proofs.Source.Printed

/-!
# Writing and reading back

Every reel that was read from a source text, and every piece selected from it, can be written, and the
written text is read back as the same reel. Reading leaves only readable reels, selecting keeps them
readable, and a readable reel is printed as a file that means it.
-/

namespace Petscii.Source

/-! ### Reels that were read -/

theorem ReadsItems.nameText {its : List Item} {s : Bytes} (h : ReadsItems its s) :
    ∀ p ∈ productions its, NameText p.name := by
  induction h with
  | done => simp [productions]
  | comment _ _ ih => exact ih
  | frame hreads _ ih =>
    obtain ⟨_, _, _, ⟨_, _, _, _, _, _, _, _, ⟨_, hname, _⟩, _⟩, _⟩ := hreads
    exact List.forall_mem_cons.2 ⟨hname, ih⟩

theorem Fitting.data_lt {its : List Item} (h : Fitting its) :
    ∀ p ∈ productions its, ∀ n ∈ p.data, n < Terminal.numberLimit := by
  have hitems : ∀ its : List Item, ∀ p ∈ productions its, .frame p ∈ its := by
    intro its
    induction its with
    | nil => simp [productions]
    | cons item its ih =>
      cases item with
      | comment numbers => exact fun p hp => List.mem_cons_of_mem _ (ih p hp)
      | frame q =>
        refine List.forall_mem_cons.2 ⟨List.mem_cons_self, ?_⟩
        exact fun p hp => List.mem_cons_of_mem _ (ih p hp)
  exact fun p hp n hn => h.numbers _ (hitems its p hp) n (List.mem_append_right _ hn)

theorem Builds.readable {p : Production} {f : Frame} (h : Builds p f) (hname : NameText p.name)
    (hdata : ∀ n ∈ p.data, n < Terminal.numberLimit) : ReadableFrame f := by
  obtain ⟨hfull, hnameEq, hpayload⟩ := Frame.ofPayload_eq_ok.1 h
  refine ⟨hfull, ⟨p.name, hname, hnameEq⟩, ?_⟩
  intro v hv
  rw [hpayload] at hv
  obtain ⟨n, hn, rfl⟩ := List.mem_map.1 hv
  rw [Int64.toInt_ofNat_of_lt (hdata n hn)]
  exact Int.natCast_nonneg n

theorem readable_of_builds {ps : List Production} {fs : List Frame} (h : List.Forall₂ Builds ps fs)
    (hname : ∀ p ∈ ps, NameText p.name) (hdata : ∀ p ∈ ps, ∀ n ∈ p.data, n < Terminal.numberLimit) :
    ∀ f ∈ fs, ReadableFrame f := by
  induction h with
  | nil => simp
  | cons hbuilds _ ih =>
    obtain ⟨hname₁, hname⟩ := List.forall_mem_cons.1 hname
    obtain ⟨hdata₁, hdata⟩ := List.forall_mem_cons.1 hdata
    exact List.forall_mem_cons.2 ⟨hbuilds.readable hname₁ hdata₁, ih hname hdata⟩

theorem Item.numbers_of_canvas {item : Item} {size : Canvas} (h : item.canvas = some size) :
    ∀ n ∈ [size.width, size.height], n ∈ item.numbers := by
  have hcanvas : ∀ {numbers}, canvasOf numbers = some size → numbers = [size.width, size.height] := by
    intro numbers hsize
    match numbers, hsize with
    | [_, _], rfl => rfl
  cases item with
  | comment numbers =>
    rw [Item.numbers, hcanvas h]
    exact fun n hn => hn
  | frame p =>
    obtain ⟨numbers, hremark, hsize⟩ := Option.bind_eq_some_iff.1 h
    rw [Item.numbers, hremark, Option.getD_some, hcanvas hsize]
    exact fun n hn => List.mem_append_left _ hn

theorem Fitting.lastCanvas_lt {its : List Item} (h : Fitting its) :
    ∀ item ∈ canvasItems (lastCanvas its), ∀ n ∈ item.numbers, n < Terminal.numberLimit := by
  cases hlast : lastCanvas its with
  | none => simp [canvasItems]
  | some size =>
    obtain ⟨item, hitem, hcanvas⟩ := List.mem_filterMap.1 (List.mem_of_getLast? hlast)
    intro item' hitem' n hn
    cases List.mem_singleton.1 hitem'
    exact h.numbers item hitem n (Item.numbers_of_canvas hcanvas n hn)

theorem readable_of_parse {source : Bytes} {reel : Reel} (h : parse source = .ok reel) : Readable reel := by
  obtain ⟨its, ⟨hreads, hne⟩, hfitting, hmeans⟩ := parse_sound h
  have hbuilds := builds_iff.2 ⟨hmeans.full, hmeans.frames⟩
  refine ⟨readable_of_builds hbuilds hreads.nameText hfitting.data_lt, ?_,
    lastCanvas its, hmeans.canvas, hfitting.lastCanvas_lt⟩
  intro hnil
  rw [hnil, List.forall₂_nil_right_iff] at hbuilds
  exact hne hbuilds

/-! ### Selected pieces -/

theorem Readable.piece {reel kept : Reel} (h : Readable reel) (hkept : kept.PieceOf reel) : Readable kept := by
  have hne := hkept.frames_ne_nil h.frames_ne_nil
  obtain ⟨start, count, _, _, rfl⟩ := hkept
  exact ⟨fun f hf => h.frames f (Reel.mem_of_mem_piece hf), hne, h.canvas⟩

theorem Readable.select {reel kept : Reel} {first last : Int} (h : Readable reel)
    (hselect : reel.select first last = (kept, .ok ())) : Readable kept := by
  have hpiece := reel.select_pieceOf first last
  rw [hselect] at hpiece
  exact h.piece hpiece

/-! ### The round trip -/

/-- Every sink with room enough takes a reel as this text. -/
def Writes (reel : Reel) (text : Bytes) : Prop :=
  ∀ room : Option Nat, (∀ n ∈ room, text.length ≤ n) → write room reel = (text, .ok ())

theorem writes_of_print {reel : Reel} {text : String} (h : print reel = .ok text) : Writes reel (utf8 text) := by
  intro room hroom
  cases room with
  | none =>
    rw [write, h]
    rfl
  | some n =>
    have hfits : (utf8 text).length ≤ n := hroom n rfl
    simp only [write, h, Stream.deliver, if_pos hfits]
    rfl

theorem Readable.parse_write {reel : Reel} (h : Readable reel) : parse (write none reel).1 = .ok reel := by
  obtain ⟨text, hprint, hback⟩ := h.parse_print
  rw [writes_of_print hprint none (by simp)]
  exact hback

/-- What was read and selected is written as a text that is read back as the same reel, and this reel is
written as the same text again. -/
theorem write_parse_select {source : Bytes} {reel kept : Reel} {first last : Int}
    (hparse : parse source = .ok reel) (hselect : reel.select first last = (kept, .ok ())) :
    ∃ text, Writes kept text ∧ parse text = .ok kept ∧ ∀ again, parse text = .ok again → Writes again text := by
  obtain ⟨text, hprint, hback⟩ := ((readable_of_parse hparse).select hselect).parse_print
  refine ⟨utf8 text, writes_of_print hprint, hback, ?_⟩
  intro again hagain
  rw [hback] at hagain
  cases hagain
  exact writes_of_print hprint

def uniform (name : String) (border background char color : Cell) : Frame :=
  ⟨name, border, background, 40, 25, List.replicate 1000 char, List.replicate 1000 color⟩

theorem readable_uniform {name : Bytes} (hname : NameText name) {border background char color : Cell}
    (hvalues : [border, background, char, color].all (fun v => decide (0 ≤ v.toInt)) = true) :
    ReadableFrame (uniform ("_" ++ asciiText name) border background char color) := by
  refine ⟨⟨rfl, rfl, List.length_replicate, List.length_replicate⟩, ⟨name, hname, rfl⟩, fun v hv => ?_⟩
  simp only [uniform, Frame.payload, List.mem_cons, List.mem_append, List.mem_replicate] at hv
  rw [List.all_eq_true] at hvalues
  rcases hv with rfl | rfl | ⟨_, rfl⟩ | ⟨_, rfl⟩ <;> exact of_decide_eq_true (hvalues _ (by simp))

/-- A reel with a second underscore in a name and the largest value there is. -/
def weather : Reel where
  frames := [uniform "_Storm9" 0 300 160 1, uniform "__calm" 6 0x7FFFFFFFFFFFFFFF 32 14,
    uniform "_Storm9" 0 300 160 1]
  canvasWidth := 40
  canvasHeight := 0

theorem readable_weather : Readable weather := by
  have hstorm : ReadableFrame (uniform "_Storm9" 0 300 160 1) :=
    @readable_uniform (utf8 "Storm9") ⟨83, utf8 "torm9", rfl, rfl, List.all_eq_true.1 (by decide)⟩ _ _ _ _
      (by decide)
  have hcalm : ReadableFrame (uniform "__calm" 6 0x7FFFFFFFFFFFFFFF 32 14) :=
    @readable_uniform (utf8 "_calm") ⟨95, utf8 "calm", rfl, rfl, List.all_eq_true.1 (by decide)⟩ _ _ _ _
      (by decide)
  refine ⟨?_, List.cons_ne_nil _ _, some ⟨40, 0⟩, rfl, ?_⟩
  · simp only [weather, List.forall_mem_cons]
    exact ⟨hstorm, hcalm, hstorm, by simp⟩
  · simp [canvasItems, Item.numbers, Terminal.numberLimit]

theorem write_parse_select_weather :
    parse (write none weather).1 = .ok weather ∧
      weather.select 1 (-1) = ({ weather with frames := weather.frames.drop 1 }, .ok ()) ∧
      ∃ text, Writes { weather with frames := weather.frames.drop 1 } text ∧
        parse text = .ok { weather with frames := weather.frames.drop 1 } ∧
        ∀ again, parse text = .ok again → Writes again text := by
  obtain ⟨text, hprint, hback⟩ := readable_weather.parse_print
  have hparse : parse (write none weather).1 = .ok weather := by
    rw [writes_of_print hprint none (by simp)]
    exact hback
  have hselect : weather.select 1 (-1) = ({ weather with frames := weather.frames.drop 1 }, .ok ()) := rfl
  exact ⟨hparse, hselect, write_parse_select hparse hselect⟩

end Petscii.Source
