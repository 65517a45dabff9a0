import Petscii.Proofs.Machine.Display

/-!
# Copying to a display

Longer stretches of cells are copied from memory by loops. A round of a loop moves one cell of each
stretch, with X as the distance from the first one, and the three ways in which generated code counts X
visit every cell of the stretches once.
-/

namespace Petscii.Machine

open Asm

/-- A stretch of cells of a plane, and where its values stand. -/
structure Copy where
  plane : Plane
  first : Nat
  source : Nat

namespace Copy

/-- The values of `count` cells stand ready, away from the display. -/
structure Ready (c : Copy) (d : Display) (f : Frame) (count : Nat) (memory : Memory) : Prop where
  fits : (⟨c.source, count⟩ : Region).Fits
  apart : ∀ p, (⟨c.source, count⟩ : Region).Apart (d.region p)
  inside : c.first + count ≤ Screen.cells
  values : ∀ i, i < count → memory (.ofNat (c.source + i)) = (f.cellAt c.plane (c.first + i)).byte

/-- Move the cell at distance X, where both addresses are shifted. -/
def items (d : Display) (shift : Int) (c : Copy) : List Item :=
  [.instruction (.ldaIndexed (.ofInt (c.source + shift))),
    .instruction (.staIndexed (.ofInt (d.start c.plane + c.first + shift)))]

/-- The cells of stretches from distance `low` up to `high`. -/
def cells (copies : List Copy) (low high : Nat) (p : Plane) (j : Nat) : Prop :=
  ∃ c ∈ copies, p = c.plane ∧ c.first + low ≤ j ∧ j < c.first + high

end Copy

section Rounds

variable {d : Display} {f : Frame} {s₀ : State} {count : Nat}

theorem Copy.Ready.value {c : Copy} (hc : c.Ready d f count s₀.memory) (hd : d.Clear)
    {painted : Plane → Nat → Prop} {s : State} (hs : Painted d f painted s₀ s) {i : Nat} (hi : i < count) :
    s.memory (.ofNat (c.source + i)) = (f.cellAt c.plane (c.first + i)).byte := by
  have hcontains := Region.contains_ofNat hc.fits hi
  rw [hs.outside hd ((hc.apart .chars).not_contains hcontains) ((hc.apart .colors).not_contains hcontains)]
  exact hc.values i hi

theorem performs_round (hd : d.Clear) {copies : List Copy}
    (hready : ∀ c ∈ copies, c.Ready d f count s₀.memory) (shift : Int) {x : UInt8} {i : Nat}
    (hi : i < count) (hx : (x.toNat : Int) + shift = i) (painted : Plane → Nat → Prop) :
    Performs (copies.flatMap (Copy.items d shift)) (fun s => s.x = x ∧ Painted d f painted s₀ s)
      fun t => t.x = x ∧
        Painted d f (fun p j => painted p j ∨ Copy.cells copies i (i + 1) p j) s₀ t := by
  induction copies generalizing painted with
  | nil =>
    apply Performs.nil
    rintro s ⟨hsx, hs⟩
    exact ⟨hsx, hs.congr rfl rfl fun p j => by simp [Copy.cells]⟩
  | cons c copies ih =>
    rw [List.flatMap_cons]
    have hc := hready c List.mem_cons_self
    have hcell : c.first + i < Screen.cells := by have := hc.inside; omega
    have hput : Performs (Copy.items d shift c) (fun s => s.x = x ∧ Painted d f painted s₀ s)
        fun t => t.x = x ∧
          Painted d f (fun p j => painted p j ∨ p = c.plane ∧ j = c.first + i) s₀ t := by
      apply performs_put hd _ _ hcell (fun _ => ⟨rfl, rfl⟩)
      · intro s hsx hs
        rw [State.step, State.indexed, hsx, ofInt_add_index (n := c.source + i) (by push_cast; omega),
          hc.value hd hs hi]
      · intro s hsx
        rw [State.step, State.indexed, hsx, Display.address,
          ofInt_add_index (n := d.start c.plane + (c.first + i)) (by push_cast; omega)]
    refine hput.append ((ih (fun c' hc' => hready c' (List.mem_cons_of_mem c hc')) _).mono
      (fun _ h => h) fun t ht => ⟨ht.1, ht.2.congr rfl rfl fun p j => ?_⟩)
    have hhere : c.first + i ≤ j ∧ j < c.first + (i + 1) ↔ j = c.first + i := by omega
    simp only [Copy.cells, List.mem_cons, exists_eq_or_imp, hhere, or_assoc]

theorem Copy.cells_step {copies : List Copy} {low high : Nat} (mid : Nat) (hlow : low ≤ mid) (hhigh : mid ≤ high)
    (p : Plane) (j : Nat) :
    Copy.cells copies low high p j ↔ Copy.cells copies mid high p j ∨ Copy.cells copies low mid p j := by
  constructor
  · rintro ⟨c, hc, hp, hfirst, hlast⟩
    rcases Nat.lt_or_ge j (c.first + mid) with hj | hj
    · exact Or.inr ⟨c, hc, hp, hfirst, hj⟩
    · exact Or.inl ⟨c, hc, hp, hj, hlast⟩
  · rintro (⟨c, hc, hp, hfirst, hlast⟩ | ⟨c, hc, hp, hfirst, hlast⟩)
    · exact ⟨c, hc, hp, by omega, hlast⟩
    · exact ⟨c, hc, hp, hfirst, by omega⟩

theorem Copy.not_cells_self {copies : List Copy} {n : Nat} (p : Plane) (j : Nat) :
    ¬ Copy.cells copies n n p j := by
  rintro ⟨c, _, _, hfirst, hlast⟩
  omega

end Rounds

/-! ### The three ways to count -/

section Loops

variable {d : Display} {f : Frame} {s₀ : State} {count : Nat} {copies : List Copy}

theorem toNat_ofNat_byte {k : Nat} (hk : k < 256) : (UInt8.ofNat k).toNat = k :=
  UInt8.toNat_ofNat_of_lt' hk

theorem ofNat_beq_zero {k : Nat} (hk : k < 256) : (UInt8.ofNat k == 0) = decide (k = 0) := by
  rw [Bool.eq_iff_iff, beq_iff_eq, decide_eq_true_eq, ← UInt8.toNat_inj, toNat_ofNat_byte hk]
  rfl

theorem ofNat_succ_sub_one (k : Nat) : UInt8.ofNat (k + 1) - 1 = UInt8.ofNat k := by
  rw [UInt8.ofNat_add]
  exact UInt8.add_sub_cancel _ _

/-- A loop that counts X down to zero. `J k` holds before a round when `k` rounds are left, whatever X is. -/
theorem performs_countdown {body : List Item} {J : Nat → State → Prop} (hpos : 0 < count) (hcount : count < 256)
    (name : String) (hindex : ∀ k s x, J k s → J k (s.setX x))
    (hbody : ∀ k, k < count → Performs body (fun s => s.x = .ofNat (k + 1) ∧ J (k + 1) s)
      fun t => t.x = .ofNat (k + 1) ∧ J k t) :
    Performs (.label name :: (body ++ [.instruction .dex]) ++ [.instruction (.bne name)])
      (fun s => s.x = .ofNat count ∧ J count s) (J 0) := by
  let Inv (k : Nat) (s : State) : Prop := k ≤ count ∧ s.x = .ofNat k ∧ J k s
  obtain ⟨n, rfl⟩ : ∃ n, count = n + 1 := ⟨count - 1, by omega⟩
  refine (Performs.loop (I := Inv) (fun k => ?_) n).mono ?_ fun t ht => ht.2.2
  · intro before after hdistinct s ⟨hk, hx, hs⟩
    refine (hbody k hk).append (Performs.instruction (fun _ => rfl) ?_) before after hdistinct s ⟨hx, hs⟩
    rintro t ⟨htx, ht⟩
    have hdex : (t.step .dex).x = .ofNat k := by
      rw [State.step, State.setX_x, htx, ofNat_succ_sub_one]
    refine ⟨⟨by omega, hdex, hindex k t _ ht⟩, ?_⟩
    rw [State.step, State.flow, State.setX_zero, htx, ofNat_succ_sub_one, ofNat_beq_zero (by omega)]
    simp only [decide_eq_true_eq]
  · rintro s ⟨hx, hs⟩
    exact ⟨Nat.le_refl _, hx, hs⟩

/-- X counts from the number of cells down to one, and the addresses are those of the cells before. -/
theorem performs_untilZero (hd : d.Clear) (hready : ∀ c ∈ copies, c.Ready d f count s₀.memory)
    (hpos : 0 < count) (hcount : count < 256) (name : String) (painted : Plane → Nat → Prop) :
    Performs (.label name :: (copies.flatMap (Copy.items d (-1)) ++ [.instruction .dex]) ++
        [.instruction (.bne name)])
      (fun s => s.x = .ofNat count ∧ Painted d f painted s₀ s)
      fun t => Painted d f (fun p j => painted p j ∨ Copy.cells copies 0 count p j) s₀ t := by
  -- With k rounds left the cells from distance k on are painted.
  let J (k : Nat) (s : State) : Prop :=
    Painted d f (fun p j => painted p j ∨ Copy.cells copies k count p j) s₀ s
  refine (performs_countdown (J := J) hpos hcount name ?_ fun k hk => ?_).mono ?_ fun t ht => ht
  · exact fun k s x hs => hs.congr rfl rfl fun _ _ => Iff.rfl
  · have hround := performs_round hd hready (-1) (x := .ofNat (k + 1)) (i := k) hk
      (by rw [toNat_ofNat_byte (by omega)]; omega)
      (fun p j => painted p j ∨ Copy.cells copies (k + 1) count p j)
    refine hround.mono (fun _ hs => hs) fun t ht => ⟨ht.1, ht.2.congr rfl rfl fun p j => ?_⟩
    rw [Copy.cells_step (k + 1) (by omega) hk, or_assoc]
  · rintro s ⟨hx, hs⟩
    exact ⟨hx, hs.congr rfl rfl fun p j => by simp [Copy.not_cells_self]⟩

/-- X counts from the distance of the last cell down to that of the first, which is zero. -/
theorem performs_pastZero (hd : d.Clear) (hready : ∀ c ∈ copies, c.Ready d f count s₀.memory)
    (hpos : 0 < count) (hcount : count ≤ 128) (name : String) (painted : Plane → Nat → Prop) :
    Performs (.label name :: (copies.flatMap (Copy.items d 0) ++ [.instruction .dex]) ++
        [.instruction (.bpl name)])
      (fun s => s.x = .ofNat (count - 1) ∧ Painted d f painted s₀ s)
      fun t => Painted d f (fun p j => painted p j ∨ Copy.cells copies 0 count p j) s₀ t := by
  -- With k rounds left X is k - 1, below zero at the end.
  let Inv (k : Nat) (s : State) : Prop := k ≤ count ∧ s.x = .ofNat k - 1 ∧
    Painted d f (fun p j => painted p j ∨ Copy.cells copies k count p j) s₀ s
  obtain ⟨n, rfl⟩ : ∃ n, count = n + 1 := ⟨count - 1, by omega⟩
  refine (Performs.loop (I := Inv) (fun k => ?_) n).mono ?_ fun t ht => ht.2.2
  · intro before after hdistinct s ⟨hk, hx, hs⟩
    rw [ofNat_succ_sub_one] at hx
    have hround := performs_round hd hready 0 (x := .ofNat k) (i := k) (by omega)
      (by rw [toNat_ofNat_byte (by omega)]; omega)
      (fun p j => painted p j ∨ Copy.cells copies (k + 1) (n + 1) p j)
    refine hround.append (Performs.instruction (fun _ => rfl) ?_) before after hdistinct s ⟨hx, hs⟩
    rintro t ⟨htx, ht⟩
    have hdex : (t.step .dex).x = .ofNat k - 1 := by rw [State.step, State.setX_x, htx]
    refine ⟨⟨by omega, hdex, ht.congr rfl rfl fun p j => ?_⟩, ?_⟩
    · rw [Copy.cells_step (k + 1) (by omega) hk, or_assoc]
    · rw [State.step, State.flow, State.setX_negative, htx]
      cases k with
      | zero => rfl
      | succ k =>
        have hsmall : ¬ (0x80 : UInt8) ≤ UInt8.ofNat k := by
          rw [UInt8.le_iff_toNat_le, toNat_ofNat_byte (by omega), show (0x80 : UInt8).toNat = 128 from rfl]
          omega
        rw [ofNat_succ_sub_one, decide_eq_false hsmall]
        rfl
  · rintro s ⟨hx, hs⟩
    refine ⟨Nat.le_refl _, ?_, hs.congr rfl rfl fun p j => by simp [Copy.not_cells_self]⟩
    rw [hx, ofNat_succ_sub_one, Nat.add_sub_cancel]

/-- X counts from zero up to the number of cells. -/
theorem performs_upTo (hd : d.Clear) (hready : ∀ c ∈ copies, c.Ready d f count s₀.memory)
    (hpos : 0 < count) (hcount : count < 256) (name : String) (painted : Plane → Nat → Prop) :
    Performs (.label name :: (copies.flatMap (Copy.items d 0) ++
        [.instruction .inx, .instruction (.cpx count)]) ++ [.instruction (.bne name)])
      (fun s => s.x = 0 ∧ Painted d f painted s₀ s)
      fun t => Painted d f (fun p j => painted p j ∨ Copy.cells copies 0 count p j) s₀ t := by
  -- With k rounds left X is k below the limit, and the cells before this distance are painted.
  let Inv (k : Nat) (s : State) : Prop := k ≤ count ∧ s.x = .ofNat (count - k) ∧
    Painted d f (fun p j => painted p j ∨ Copy.cells copies 0 (count - k) p j) s₀ s
  obtain ⟨n, hn⟩ : ∃ n, count = n + 1 := ⟨count - 1, by omega⟩
  refine (Performs.loop (I := Inv) (fun k => ?_) n).mono ?_ fun t ht => ht.2.2
  · intro before after hdistinct s ⟨hk, hx, hs⟩
    have hround := performs_round hd hready 0 (x := .ofNat (count - (k + 1)))
      (i := count - (k + 1)) (by omega) (by rw [toNat_ofNat_byte (by omega)]; omega)
      (fun p j => painted p j ∨ Copy.cells copies 0 (count - (k + 1)) p j)
    have hnext : UInt8.ofNat (count - (k + 1)) + 1 = UInt8.ofNat (count - k) := by
      rw [show count - k = count - (k + 1) + 1 by omega, UInt8.ofNat_add]
      rfl
    refine hround.append (Performs.append (a := [_]) (b := [_])
      (Q := fun t => t.x = .ofNat (count - k) ∧
        Painted d f (fun p j => painted p j ∨ Copy.cells copies 0 (count - k) p j) s₀ t)
      (Performs.instruction (fun _ => rfl) ?_) (Performs.instruction (fun _ => rfl) ?_))
      before after hdistinct s ⟨hx, hs⟩
    · rintro t ⟨htx, ht⟩
      refine ⟨by rw [State.step, State.setX_x, htx, hnext], ht.congr rfl rfl fun p j => ?_⟩
      rw [show count - (k + 1) + 1 = count - k by omega,
        Copy.cells_step (count - (k + 1)) (by omega) (by omega), or_assoc,
        or_comm (a := Copy.cells copies (count - (k + 1)) (count - k) p j)]
    · rintro t ⟨htx, ht⟩
      refine ⟨⟨by omega, htx, ht.congr rfl rfl fun p j => Iff.rfl⟩, ?_⟩
      have hequal : (UInt8.ofNat (count - k) - UInt8.ofNat count == 0) = decide (k = 0) := by
        rw [Bool.eq_iff_iff, beq_iff_eq, decide_eq_true_eq, UInt8.sub_eq_iff_eq_add, UInt8.zero_add,
          ← UInt8.toNat_inj, toNat_ofNat_byte (by omega), toNat_ofNat_byte hcount]
        omega
      rw [State.step, State.flow, State.flag_zero, htx]
      change (if (UInt8.ofNat (count - k) - UInt8.ofNat count == 0) = true then _ else _) = _
      rw [hequal]
      simp only [decide_eq_true_eq]
  · rintro s ⟨hx, hs⟩
    refine ⟨by omega, by rw [hx, hn, Nat.sub_self]; rfl, hs.congr rfl rfl fun p j => ?_⟩
    simp [hn, Copy.not_cells_self]

end Loops

end Petscii.Machine
