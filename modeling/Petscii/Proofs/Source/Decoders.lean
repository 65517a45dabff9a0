import Mathlib.Tactic.IntervalCases
import Petscii.Source.Unicode

/-!
# What decoders do

A source text relies on its decoders for this: UTF-8 that is well formed goes through unchanged, UTF-16 is read
unit by unit with surrogate pairs joined, one byte order mark in front is dropped and chooses between them, and
a text without a mark goes to the decoder given for it. `Decoders.Documented` says so, one character at a time.
The decoders that the command runs with do all this.
-/

namespace Petscii

def Utf16.ByteOrder.bytes (order : ByteOrder) (unit : Nat) : Bytes :=
  match order with
  | .little => [UInt8.ofNat (unit % 256), UInt8.ofNat (unit / 256)]
  | .big => [UInt8.ofNat (unit / 256), UInt8.ofNat (unit % 256)]

def Utf16.ByteOrder.mark : ByteOrder → Bytes
  | .little => [0xFF, 0xFE]
  | .big => [0xFE, 0xFF]

def Utf8.mark : Bytes := [0xEF, 0xBB, 0xBF]

namespace Source

/-- A character in UTF-8 goes through unchanged, whatever comes behind it. -/
structure KeepsUtf8 (decode : Bytes → Bytes) : Prop where
  nil : decode [] = []
  char : ∀ c rest, decode (String.utf8EncodeChar c ++ rest) = String.utf8EncodeChar c ++ decode rest

/-- A unit outside the surrogates is a character, and a high surrogate joins the low one behind it. -/
structure ReadsUtf16 (order : Utf16.ByteOrder) (decode : Bytes → Bytes) : Prop where
  nil : decode [] = []
  single : ∀ {u}, u < 0x10000 → ¬ Utf16.IsSurrogate u → ∀ rest,
    decode (order.bytes u ++ rest) = String.utf8EncodeChar (Char.ofNat u) ++ decode rest
  pair : ∀ {high low}, Utf16.IsSurrogate high → ¬ Utf16.IsLowSurrogate high → Utf16.IsLowSurrogate low → ∀ rest,
    decode (order.bytes high ++ (order.bytes low ++ rest)) =
      String.utf8EncodeChar (Char.ofNat (0x10000 + (high - 0xD800) * 0x400 + (low - 0xDC00))) ++ decode rest

/-- The behaviour that a source text relies on. Only the marks of UTF-8 and UTF-16 are considered. -/
structure Decoders.Documented (d : Decoders) : Prop where
  utf8 : KeepsUtf8 d.utf8
  marked : ∀ fallback, ∃ decode, KeepsUtf8 decode ∧ ∀ rest, d.override fallback (Utf8.mark ++ rest) = decode rest
  marked16 : ∀ fallback order, ∃ decode, ReadsUtf16 order decode ∧
    ∀ rest, d.override fallback (order.mark ++ rest) = decode rest
  unmarked : ∀ fallback {bytes}, ¬ Utf8.mark <+: bytes → (∀ order : Utf16.ByteOrder, ¬ order.mark <+: bytes) →
    d.override fallback bytes = fallback bytes

end Source

/-! ### Repaired UTF-8 -/

theorem toNat_scalar (c : Char) : c.toNat < 0xD800 ∨ 0xDFFF < c.toNat ∧ c.toNat < 0x110000 :=
  c.valid

namespace Utf8

theorem within {low high : UInt8} {n : Nat} (hlow : low.toNat ≤ n) (hhigh : n ≤ high.toNat) :
    low ≤ UInt8.ofNat n ∧ UInt8.ofNat n ≤ high := by
  have hn : (UInt8.ofNat n).toNat = n := UInt8.toNat_ofNat_of_lt' (Nat.lt_of_le_of_lt hhigh high.toNat_lt)
  rw [UInt8.le_iff_toNat_le, UInt8.le_iff_toNat_le, hn]
  exact ⟨hlow, hhigh⟩

theorem lead_whole {n : Nat} (hn : n ≤ 0x7F) : lead (UInt8.ofNat n) = .whole :=
  if_pos (@within 0 0x7F n (Nat.zero_le n) hn).2

theorem lead_two {n : Nat} (hlow : 0xC2 ≤ n) (hhigh : n ≤ 0xDF) :
    lead (UInt8.ofNat n) = .opens ⟨[UInt8.ofNat n], 1, 0x80, 0xBF⟩ := by
  interval_cases n <;> rfl

/-- Behind `E0` the range leaves out the long forms, behind `ED` the surrogates. -/
theorem lead_three {n : Nat} (hlow : 0xE0 ≤ n) (hhigh : n ≤ 0xEF) :
    ∃ low high, lead (UInt8.ofNat n) = .opens ⟨[UInt8.ofNat n], 2, low, high⟩ ∧
      (low.toNat = 0x80 ∨ n = 0xE0 ∧ low.toNat = 0xA0) ∧ (high.toNat = 0xBF ∨ n = 0xED ∧ high.toNat = 0x9F) := by
  interval_cases n <;> exact ⟨_, _, rfl, by decide, by decide⟩

/-- Behind `F0` the range leaves out the long forms, behind `F4` what is beyond the last code point. -/
theorem lead_four {n : Nat} (hlow : 0xF0 ≤ n) (hhigh : n ≤ 0xF4) :
    ∃ low high, lead (UInt8.ofNat n) = .opens ⟨[UInt8.ofNat n], 3, low, high⟩ ∧
      (low.toNat = 0x80 ∨ n = 0xF0 ∧ low.toNat = 0x90) ∧ (high.toNat = 0xBF ∨ n = 0xF4 ∧ high.toNat = 0x8F) := by
  interval_cases n <;> exact ⟨_, _, rfl, by decide, by decide⟩

variable {done seen : Bytes} {b low high : UInt8}

theorem step_opens {u : Unfinished} (h : lead b = .opens u) : Repair.step ⟨done, none⟩ b = ⟨done, some u⟩ := by
  simp only [Repair.step, Repair.start, h]

theorem step_more {owed : Nat} (h : low ≤ b ∧ b ≤ high) :
    Repair.step ⟨done, some ⟨seen, owed + 2, low, high⟩⟩ b = ⟨done, some ⟨b :: seen, owed + 1, 0x80, 0xBF⟩⟩ := by
  simp only [Repair.step, if_pos h]
  rfl

theorem step_last (h : low ≤ b ∧ b ≤ high) :
    Repair.step ⟨done, some ⟨seen, 1, low, high⟩⟩ b = ⟨b :: seen ++ done, none⟩ := by
  simp only [Repair.step, if_pos h]
  rfl

/-- The last six bits of a code point, as the bytes behind the first hold them. -/
theorem within_tail (n : Nat) : 0x80 ≤ UInt8.ofNat (n % 0x40 + 0x80) ∧ UInt8.ofNat (n % 0x40 + 0x80) ≤ 0xBF :=
  within (by simp) (by simp only [UInt8.reduceToNat]; omega)

theorem foldl_step_char (done : Bytes) (c : Char) :
    (String.utf8EncodeChar c).foldl Repair.step ⟨done, none⟩ =
      ⟨(String.utf8EncodeChar c).reverse ++ done, none⟩ := by
  have hscalar := toNat_scalar c
  rw [String.utf8EncodeChar, Char.toNat_val]
  split
  · next hone =>
    simp only [List.foldl_cons, List.foldl_nil, Repair.step, Repair.start, lead_whole hone]
    rfl
  split
  · next htwo =>
    simp only [List.foldl_cons, List.foldl_nil]
    rw [step_opens (lead_two (by omega) (by omega)), step_last (within_tail _)]
    rfl
  split
  · next hthree =>
    obtain ⟨low, high, hlead, hlow, hhigh⟩ := lead_three (n := c.toNat / 4096 % 0x10 + 0xE0) (by omega) (by omega)
    simp only [List.foldl_cons, List.foldl_nil]
    rw [step_opens hlead, step_more (within (by omega) (by omega)),
      step_last (within_tail _)]
    rfl
  · obtain ⟨low, high, hlead, hlow, hhigh⟩ := lead_four (n := c.toNat / 262144 % 0x08 + 0xF0) (by omega) (by omega)
    simp only [List.foldl_cons, List.foldl_nil]
    rw [step_opens hlead, step_more (within (by omega) (by omega)),
      step_more (within_tail _), step_last (within_tail _)]
    rfl

/-- The text repaired so far, behind another one. -/
def Repair.behind (r : Repair) (done : Bytes) : Repair :=
  ⟨r.done ++ done, r.pending⟩

theorem start_behind (x done : Bytes) (b : UInt8) : Repair.start (x ++ done) b = (Repair.start x b).behind done := by
  rw [Repair.start, Repair.start]
  cases lead b <;> simp [Repair.behind]

theorem step_behind (r : Repair) (done : Bytes) (b : UInt8) : (r.behind done).step b = (r.step b).behind done := by
  obtain ⟨x, pending⟩ := r
  cases pending with
  | none => exact start_behind x done b
  | some u =>
    simp only [Repair.step, Repair.behind]
    split
    · split
      · simp
      · rfl
    · rw [← List.append_assoc]
      exact start_behind _ done b

theorem foldl_step_behind (r : Repair) (done bytes : Bytes) :
    bytes.foldl Repair.step (r.behind done) = (bytes.foldl Repair.step r).behind done := by
  induction bytes generalizing r with
  | nil => rfl
  | cons b bytes ih => rw [List.foldl_cons, List.foldl_cons, step_behind, ih]

theorem finish_behind (r : Repair) (done : Bytes) : (r.behind done).finish = done.reverse ++ r.finish := by
  obtain ⟨x, pending⟩ := r
  cases pending <;> simp [Repair.behind, Repair.finish]

theorem keepsUtf8_repair : Source.KeepsUtf8 repair where
  nil := rfl
  char c rest := by
    have hchar : (⟨(String.utf8EncodeChar c).reverse ++ [], none⟩ : Repair) =
        Repair.behind ⟨[], none⟩ (String.utf8EncodeChar c).reverse := by
      rw [Repair.behind, List.append_nil, List.nil_append]
    rw [repair, repair, List.foldl_append, foldl_step_char, hchar, foldl_step_behind, finish_behind,
      List.reverse_reverse]

end Utf8

/-! ### UTF-16 -/

namespace Utf16

theorem units_behind (order : ByteOrder) (acc more : List Nat) (bytes : Bytes) :
    units order (acc ++ more) bytes = ((units order acc bytes).1 ++ more, (units order acc bytes).2) := by
  fun_induction units order acc bytes with
  | case1 acc => rfl
  | case2 acc b => rfl
  | case3 acc a b rest ih => exact ih

theorem characters_behind (acc more : List Char) (us : List Nat) :
    characters (acc ++ more) us = characters acc us ++ more := by
  fun_induction characters acc us with
  | case1 acc => rfl
  | case2 acc u => rfl
  | case3 acc u v rest hu hv ih =>
    rw [characters, if_pos hu, if_pos hv]
    exact ih
  | case4 acc u v rest hu hv ih =>
    rw [characters, if_pos hu, if_neg hv]
    exact ih
  | case5 acc u v rest hu ih =>
    rw [characters, if_neg hu]
    exact ih

theorem units_bytes (order : ByteOrder) {u : Nat} (hu : u < 0x10000) (acc : List Nat) (rest : Bytes) :
    units order acc (order.bytes u ++ rest) = units order (u :: acc) rest := by
  have hlow : (UInt8.ofNat (u % 256)).toNat = u % 256 := UInt8.toNat_ofNat_of_lt' (Nat.mod_lt u (by decide))
  have hhigh : (UInt8.ofNat (u / 256)).toNat = u / 256 := UInt8.toNat_ofNat_of_lt' (Nat.div_lt_of_lt_mul hu)
  cases order with
  | little =>
    rw [ByteOrder.bytes, List.cons_append, List.cons_append, List.nil_append, units, ByteOrder.unit, hlow, hhigh,
      Nat.mod_add_div]
  | big =>
    rw [ByteOrder.bytes, List.cons_append, List.cons_append, List.nil_append, units, ByteOrder.unit, hlow, hhigh,
      Nat.div_add_mod]

/-- Units that are read as one character in front of any others are decoded as this character. -/
theorem decode_append {order : ByteOrder} {front : Bytes} {us : List Nat} {c : Char}
    (hunits : ∀ rest, units order [] (front ++ rest) = units order us.reverse rest)
    (hchar : ∀ rest, characters [] (us ++ rest) = characters [c] rest) (rest : Bytes) :
    decode order (front ++ rest) = c :: decode order rest := by
  have hread : ∀ more, characters [] (us ++ more) = characters [] more ++ [c] := fun more =>
    (hchar more).trans (characters_behind [] [c] more)
  simp only [decode]
  rw [hunits, ← List.nil_append us.reverse, units_behind, List.reverse_append, List.reverse_reverse, hread]
  cases (units order [] rest).2 <;> simp

theorem decode_single {order : ByteOrder} {u : Nat} (hu : u < 0x10000) (hsingle : ¬ IsSurrogate u) (rest : Bytes) :
    decode order (order.bytes u ++ rest) = Char.ofNat u :: decode order rest := by
  refine @decode_append order _ [u] _ (units_bytes order hu []) (fun more => ?_) rest
  cases more with
  | nil => simp only [List.append_nil, characters, if_neg hsingle]
  | cons v more => simp only [List.cons_append, List.nil_append, characters, if_neg hsingle]

theorem decode_pair {order : ByteOrder} {u v : Nat} (hu : IsSurrogate u) (hhigh : ¬ IsLowSurrogate u)
    (hv : IsLowSurrogate v) (rest : Bytes) :
    decode order (order.bytes u ++ (order.bytes v ++ rest)) =
      Char.ofNat (0x10000 + (u - 0xD800) * 0x400 + (v - 0xDC00)) :: decode order rest := by
  have hunits : ∀ more, units order [] ((order.bytes u ++ order.bytes v) ++ more) = units order [v, u] more := by
    intro more
    rw [List.append_assoc, units_bytes order (Nat.lt_of_le_of_lt hu.2 (by decide)),
      units_bytes order (Nat.lt_of_le_of_lt hv.2 (by decide))]
  rw [← List.append_assoc]
  refine @decode_append order _ [u, v] _ hunits (fun more => ?_) rest
  rw [List.cons_append, List.cons_append, List.nil_append, characters, if_pos hu, if_pos hv, pair, if_neg hhigh]

theorem readsUtf16_decode (order : ByteOrder) :
    Source.ReadsUtf16 order fun bytes => (decode order bytes).flatMap String.utf8EncodeChar where
  nil := rfl
  single hu hsingle rest := by rw [decode_single hu hsingle, List.flatMap_cons]
  pair hu hhigh hv rest := by rw [decode_pair hu hhigh hv, List.flatMap_cons]

end Utf16

theorem Source.unicode_documented : Source.Decoders.unicode.Documented where
  utf8 := Utf8.keepsUtf8_repair
  marked fallback := ⟨id, ⟨rfl, fun _ _ => rfl⟩, fun _ => rfl⟩
  marked16 fallback order := by
    refine ⟨_, Utf16.readsUtf16_decode order, fun rest => ?_⟩
    cases order <;> rfl
  unmarked fallback {bytes} hmark hmark16 := by
    simp only [Source.Decoders.unicode]
    split
    · next rest => exact absurd ⟨rest, rfl⟩ (hmark16 .little)
    · next rest => exact absurd ⟨rest, rfl⟩ (hmark16 .big)
    · next rest => exact absurd ⟨rest, rfl⟩ hmark
    · rfl

end Petscii
