import Chip8.Proofs.Drawing

/-!
# Drawing in any order

Sprites that are drawn one after the other come to one long list of pixels to invert, and of that
list only how often each pixel is in it is seen in the end: on the screen, and in whether there was a
collision at all. So the order of the sprites does not show (`invertAll_perm`), although it shows in
which of them collided. Drawn twice, each pixel is inverted an even number of times, and the screen
is as before (`restored_of_perm`).
-/

namespace Chip8

/-- A sprite and the place of its upper left corner. -/
structure Stamp where
  column : Nat
  row : Nat
  sprite : List UInt8
  deriving DecidableEq

/-- The pixels under the set bits of a sprite at its place. -/
def Stamp.cells (s : Stamp) : List (Nat × Nat) := Screen.cells s.column s.row s.sprite

/-- Draws sprites one after the other, and tells whether one of them collided. -/
def Display.drawAll (d : Display) : List Stamp → Bool × Display
  | [] => (false, d)
  | s :: rest =>
    let (hit, d') := d.draw s.column s.row s.sprite
    let (later, d'') := d'.drawAll rest
    (hit || later, d'')

namespace Screen

variable {cs ds : List (Nat × Nat)} {s : Screen}

/-! ## Lists of pixels -/

theorem invertAll_append (cs ds : List (Nat × Nat)) (s : Screen) :
    invertAll (cs ++ ds) s =
      let first := invertAll cs s
      let second := invertAll ds first.2
      (first.1 || second.1, second.2) := by
  induction cs generalizing s with
  | nil => simp [invertAll]
  | cons c cs ih => simp [invertAll, ih, Bool.or_assoc]

theorem invertAll_perm (h : cs.Perm ds) (s : Screen) : invertAll cs s = invertAll ds s := by
  have hcount : ∀ i j, cs.countP (covers i j) = ds.countP (covers i j) := by
    intro i j
    exact h.countP_eq _
  apply Prod.ext
  · rw [Bool.eq_iff_iff, fst_invertAll_iff, fst_invertAll_iff]
    simp only [hcount]
  · apply Screen.ext
    intro i _ j _
    rw [get_invertAll, get_invertAll, hcount]

theorem restored_of_perm (h : cs.Perm ds) (s : Screen) :
    (invertAll ds (invertAll cs s).2).2 = s := by
  apply Screen.ext
  intro i _ j _
  have hcount : cs.countP (covers i j) = ds.countP (covers i j) := h.countP_eq _
  rw [get_invertAll, get_invertAll, hcount, Bool.xor_assoc, Bool.xor_self, Bool.xor_false]

theorem fst_invertAll_twice :
    (invertAll (cs ++ cs) s).1 = true ↔ cs ≠ [] := by
  rw [fst_invertAll_iff]
  constructor
  · rintro ⟨i, -, j, -, hmet⟩ rfl
    have hle := Bool.toNat_le (s.get i j)
    simp at hmet
    omega
  · intro hne
    obtain ⟨⟨x, y⟩, hmem⟩ := List.exists_mem_of_ne_nil cs hne
    refine ⟨x % 64, Nat.mod_lt _ (by decide), y % 32, Nat.mod_lt _ (by decide), ?_⟩
    have hcovers : covers (x % 64) (y % 32) (x, y) = true := by simp [covers]
    have hpos : 0 < cs.countP (covers (x % 64) (y % 32)) :=
      List.countP_pos_iff.mpr ⟨(x, y), hmem, hcovers⟩
    rw [List.countP_append]
    omega

/-! ## Sprites with a set bit -/

theorem exists_testBit {b : UInt8} (h : b ≠ 0) : ∃ d < 8, b.toNat.testBit (7 - d) = true := by
  have hne : b.toNat ≠ 0 := by
    intro h0
    exact h (UInt8.toNat_inj.mp h0)
  obtain ⟨k, hk⟩ := Nat.exists_testBit_of_ne_zero hne
  have hlt : k < 8 := by
    apply Nat.lt_of_not_le
    intro hle
    have hpow : b.toNat < 2 ^ k :=
      Nat.lt_of_lt_of_le b.toNat_lt (Nat.pow_le_pow_right (by decide) hle)
    rw [Nat.testBit_lt_two_pow hpow] at hk
    cases hk
  refine ⟨7 - k, by omega, ?_⟩
  rw [Nat.sub_sub_self (by omega), hk]

theorem columns_eq_nil_iff {x : Nat} {b : UInt8} : columns x b = [] ↔ b = 0 := by
  constructor
  · intro h
    apply Decidable.byContradiction
    intro hb
    obtain ⟨d, hd, hbit⟩ := exists_testBit hb
    have hnone : ∀ k < 8, b.toNat.testBit (7 - k) = false := by simpa [columns] using h
    rw [hnone d hd] at hbit
    cases hbit
  · rintro rfl
    simp [columns]

theorem cells_eq_nil_iff {x y : Nat} {sprite : List UInt8} :
    cells x y sprite = [] ↔ ∀ b ∈ sprite, b = 0 := by
  induction sprite generalizing y with
  | nil => simp [cells]
  | cons b bs ih => simp [cells, columns_eq_nil_iff, ih]

end Screen

namespace Display

variable {ss ts : List Stamp}

/-! ## Lists of sprites -/

/-- Drawing sprites is inverting the pixels of them all, and asking for a redraw if there is one. -/
theorem drawAll_eq (d : Display) (ss : List Stamp) :
    d.drawAll ss =
      let (hit, screen) := Screen.invertAll (ss.flatMap Stamp.cells) d.screen
      (hit, ⟨screen, d.redraw || !ss.isEmpty⟩) := by
  induction ss generalizing d with
  | nil => simp [drawAll, Screen.invertAll]
  | cons s ss ih =>
    simp only [drawAll, ih, draw, List.flatMap_cons, Screen.invertAll_append]
    simp [Screen.draw, Stamp.cells]

theorem drawAll_perm (h : ss.Perm ts) (d : Display) : d.drawAll ss = d.drawAll ts := by
  have hcells : (ss.flatMap Stamp.cells).Perm (ts.flatMap Stamp.cells) := h.flatMap_right _
  have hempty : ss.isEmpty = ts.isEmpty := by
    rw [Bool.eq_iff_iff, List.isEmpty_iff_length_eq_zero, List.isEmpty_iff_length_eq_zero,
      h.length_eq]
  rw [drawAll_eq, drawAll_eq, Screen.invertAll_perm hcells, hempty]

theorem screen_drawAll_twice (h : ss.Perm ts) (d : Display) :
    ((d.drawAll ss).2.drawAll ts).2.screen = d.screen := by
  have hcells : (ss.flatMap Stamp.cells).Perm (ts.flatMap Stamp.cells) := h.flatMap_right _
  rw [drawAll_eq, drawAll_eq]
  exact Screen.restored_of_perm hcells d.screen

theorem collides_twice (d : Display) (x y : Nat) (sprite : List UInt8) :
    ((d.draw x y sprite).1 || ((d.draw x y sprite).2.draw x y sprite).1) = true ↔
      ∃ b ∈ sprite, b ≠ 0 := by
  have happend := Screen.invertAll_append (Screen.cells x y sprite) (Screen.cells x y sprite) d.screen
  have hhit : (Screen.invertAll (Screen.cells x y sprite ++ Screen.cells x y sprite) d.screen).1 =
      ((d.draw x y sprite).1 || ((d.draw x y sprite).2.draw x y sprite).1) := by
    rw [happend]
    rfl
  rw [← hhit, Screen.fst_invertAll_twice, Ne, Screen.cells_eq_nil_iff]
  simp

/-- **The order of sprites does not show, and drawing them again undoes it.** Sprites that are drawn
in another order leave the same display, and one of them collides exactly if one did in the first
order. Drawn once more, in any order, they leave the screen as it was before the first time. A sprite
that is drawn twice in one place collides at one of the two times exactly if it has a set bit. -/
theorem draws_commute (d : Display) :
    (∀ ss ts : List Stamp, ss.Perm ts →
      d.drawAll ts = d.drawAll ss ∧ ((d.drawAll ss).2.drawAll ts).2.screen = d.screen) ∧
    ∀ (x y : Nat) (sprite : List UInt8),
      ((d.draw x y sprite).1 || ((d.draw x y sprite).2.draw x y sprite).1) = true ↔
        ∃ b ∈ sprite, b ≠ 0 := by
  refine ⟨fun ss ts h => ⟨?_, ?_⟩, collides_twice d⟩
  · exact (drawAll_perm h d).symm
  · exact screen_drawAll_twice h d

/-- Two sprites that overlap, the first wrapping around both edges, and a third that wraps onto itself:
of the first two, the one that is drawn later collides. -/
theorem draws_commute_overlapping :
    let a : Stamp := ⟨62, 31, [0xF0, 0x90]⟩
    let b : Stamp := ⟨0, 0, [0xC0]⟩
    let c : Stamp := ⟨8, 0, List.replicate 33 0x80⟩
    let d := Display.initial
    [a, b, c].Perm [b, c, a] ∧ d.drawAll [b, c, a] = d.drawAll [a, b, c] ∧
      ((d.drawAll [a, b, c]).2.drawAll [b, c, a]).2.screen = d.screen ∧
      (d.drawAll [a]).1 = false ∧ (d.drawAll [a, b]).1 = true ∧
      (d.drawAll [b]).1 = false ∧ (d.drawAll [b, a]).1 = true := by
  intro a b c d
  have hperm : [a, b, c].Perm [b, c, a] := by decide
  obtain ⟨hsame, hrestored⟩ := (draws_commute d).1 _ _ hperm
  exact ⟨hperm, hsame, hrestored, by decide +kernel, by decide +kernel, by decide +kernel,
    by decide +kernel⟩

end Display

end Chip8
