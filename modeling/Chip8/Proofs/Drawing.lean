import Chip8.Proofs.Answer
import Chip8.Proofs.Outcome

/-!
# What drawing a sprite comes to

A sprite is drawn pixel by pixel, and a pixel may be inverted more than once: a sprite of more than
32 rows wraps onto itself. What comes out depends only on how many set bits of the sprite fall on
each pixel (`coverage`). A pixel is inverted if that number is odd, and the sprite collides if some
pixel, counted as a further bit where it is lit, is met twice. The loop takes the bits in an order
of its own, but in the end only their number is seen (`get_invertAll`, `fst_invertAll_iff`).
-/

namespace Chip8

namespace Screen

/-! ## How often a pixel is covered -/

/-- The places of the pixels in a sprite of `n` rows: the row and the column. -/
def places (n : Nat) : List (Nat × Nat) :=
  (List.range n).flatMap fun dy => (List.range 8).map fun dx => (dy, dx)

/-- Whether a sprite has a set bit at a place, the highest bit of a row being leftmost. -/
def isSet (sprite : List UInt8) (p : Nat × Nat) : Bool :=
  (sprite[p.1]?.getD 0).toNat.testBit (7 - p.2)

/-- How many set bits of a sprite fall on the pixel in the column `i` and the row `j`, if the upper
left corner of the sprite is in the column `x` and the row `y`. -/
def coverage (x y : Nat) (sprite : List UInt8) (i j : Nat) : Nat :=
  (places sprite.length).countP fun p =>
    isSet sprite p && (x + p.2) % 64 == i && (y + p.1) % 32 == j

theorem places_succ (n : Nat) :
    places (n + 1) =
      (List.range 8).map (fun dx => (0, dx)) ++ (places n).map fun p => (p.1 + 1, p.2) := by
  have hrange : List.range (n + 1) = 0 :: (List.range n).map Nat.succ := List.range_succ_eq_map
  rw [places, hrange, List.flatMap_cons, List.flatMap_map, places, List.map_flatMap]
  simp only [List.map_map]
  rfl

theorem cells_eq (x y : Nat) (sprite : List UInt8) :
    cells x y sprite =
      ((places sprite.length).filter (isSet sprite)).map
        fun p => ((x + p.2) % 64, (y + p.1) % 32) := by
  induction sprite generalizing y with
  | nil => rfl
  | cons b bs ih =>
    rw [cells, ih, List.length_cons, places_succ, List.filter_append, List.map_append]
    -- The first row, and then the others one row further down.
    congr 1
    · simp only [columns, List.filter_map, List.map_map]
      rfl
    · simp only [List.filter_map, List.map_map]
      have hset : isSet (b :: bs) ∘ (fun p => (p.1 + 1, p.2)) = isSet bs := by
        funext p
        simp [isSet]
      rw [hset]
      refine List.map_congr_left fun p _ => ?_
      simp only [Function.comp_apply]
      rw [show y + 1 + p.1 = y + (p.1 + 1) by omega]

/-- Whether a cell is the pixel in the column `i` and the row `j`; coordinates wrap around. -/
def covers (i j : Nat) (cell : Nat × Nat) : Bool := i % 64 == cell.1 % 64 && j % 32 == cell.2 % 32

theorem covers_iff {i j : Nat} {cell : Nat × Nat} :
    covers i j cell ↔ i % 64 = cell.1 % 64 ∧ j % 32 = cell.2 % 32 := by simp [covers]

theorem countP_cells {i j : Nat} (hi : i < 64) (hj : j < 32) (x y : Nat) (sprite : List UInt8) :
    (cells x y sprite).countP (covers i j) = coverage x y sprite i j := by
  rw [cells_eq, List.countP_map, List.countP_filter, coverage]
  refine List.countP_congr fun p _ => ?_
  simp only [Function.comp_apply, Bool.and_eq_true, beq_iff_eq, covers_iff, Nat.mod_mod,
    Nat.mod_eq_of_lt hi, Nat.mod_eq_of_lt hj]
  constructor
  · rintro ⟨⟨rfl, rfl⟩, hset⟩
    exact ⟨⟨hset, rfl⟩, rfl⟩
  · rintro ⟨⟨hset, rfl⟩, rfl⟩
    exact ⟨⟨rfl, rfl⟩, hset⟩

/-! ## Inverting pixels one after the other -/

/-- A pixel is inverted if it is met an odd number of times. -/
theorem get_invertAll (cs : List (Nat × Nat)) (s : Screen) (i j : Nat) :
    (invertAll cs s).2.get i j = (s.get i j ^^ cs.countP (covers i j) % 2 == 1) := by
  induction cs generalizing s with
  | nil => simp [invertAll]
  | cons c cs ih =>
    obtain ⟨x, y⟩ := c
    have hstep : (s.invert x y).get i j = (s.get i j ^^ covers i j (x, y)) := get_invert s x y i j
    rw [invertAll, ih, hstep, List.countP_cons]
    cases covers i j (x, y) with
    | false => simp
    | true =>
      generalize cs.countP (covers i j) = k
      have hk : ((k + 1) % 2 == 1) = !(k % 2 == 1) := by
        rcases Nat.mod_two_eq_zero_or_one k with h | h <;> simp [h, Nat.add_mod]
      simp [hk]

theorem toNat_xor_add_le (a b : Bool) (n : Nat) :
    (a ^^ b).toNat + n ≤ a.toNat + (b.toNat + n) := by
  cases a with
  | false => simp
  | true =>
    cases b with
    | false => simp
    | true =>
      show 0 + n ≤ 1 + (1 + n)
      omega

/-- There is a collision if a pixel, with one more for a lit one, is met twice. -/
theorem fst_invertAll_iff (cs : List (Nat × Nat)) (s : Screen) :
    (invertAll cs s).1 = true ↔
      ∃ i < 64, ∃ j < 32, 2 ≤ (s.get i j).toNat + cs.countP (covers i j) := by
  induction cs generalizing s with
  | nil =>
    have hle : ∀ i j, (s.get i j).toNat ≤ 1 := fun i j => Bool.toNat_le _
    simp only [invertAll, List.countP_nil]
    grind
  | cons c cs ih =>
    obtain ⟨x, y⟩ := c
    have hstep : ∀ i j, (s.invert x y).get i j = (s.get i j ^^ covers i j (x, y)) :=
      fun i j => get_invert s x y i j
    have hcount : ∀ i j, ((x, y) :: cs).countP (covers i j) =
        (covers i j (x, y)).toNat + cs.countP (covers i j) := by
      intro i j
      rw [List.countP_cons]
      cases covers i j (x, y) with
      | false => simp
      | true => simp [Nat.add_comm]
    simp only [invertAll, Bool.or_eq_true, ih, hcount, hstep]
    constructor
    · rintro (hlit | ⟨i, hi, j, hj, hmet⟩)
      · -- The pixel that is met now was lit.
        refine ⟨x % 64, Nat.mod_lt _ (by decide), y % 32, Nat.mod_lt _ (by decide), ?_⟩
        rw [get_mod, hlit]
        simp [covers]
        omega
      · exact ⟨i, hi, j, hj, Nat.le_trans hmet (toNat_xor_add_le _ _ _)⟩
    · rintro ⟨i, hi, j, hj, hmet⟩
      cases hc : covers i j (x, y) with
      | false =>
        refine .inr ⟨i, hi, j, hj, ?_⟩
        simpa [hc] using hmet
      | true =>
        cases hlit : s.get i j with
        | true =>
          left
          obtain ⟨hx, hy⟩ := covers_iff.mp hc
          rw [← get_mod, ← hx, ← hy, get_mod, hlit]
        | false =>
          -- Dark before, the pixel is lit now and met again later.
          refine .inr ⟨i, hi, j, hj, ?_⟩
          simp [hc, hlit] at hmet ⊢
          exact hmet

end Screen

/-! ## The display -/

/-- `hit` and `d'` are what the closed form says of a sprite drawn on `d`. -/
structure Display.Drawn (d : Display) (x y : Nat) (sprite : List UInt8) (hit : Bool)
    (d' : Display) : Prop where
  /-- A pixel is inverted if an odd number of set bits falls on it. -/
  pixels : ∀ i < 64, ∀ j < 32, d'.screen.get i j =
    (d.screen.get i j ^^ Screen.coverage x y sprite i j % 2 == 1)
  /-- There is a collision if a pixel, with one more for a lit one, is met twice. -/
  collision : hit = true ↔
    ∃ i < 64, ∃ j < 32, 2 ≤ (d.screen.get i j).toNat + Screen.coverage x y sprite i j
  redraw : d'.redraw = true

theorem Display.drawn_draw (d : Display) (x y : Nat) (sprite : List UInt8) :
    d.Drawn x y sprite (d.draw x y sprite).1 (d.draw x y sprite).2 where
  pixels := by
    intro i hi j hj
    rw [← Screen.countP_cells hi hj]
    exact Screen.get_invertAll (Screen.cells x y sprite) d.screen i j
  collision := by
    have hiff := Screen.fst_invertAll_iff (Screen.cells x y sprite) d.screen
    refine hiff.trans ⟨?_, ?_⟩
    · rintro ⟨i, hi, j, hj, hmet⟩
      rw [Screen.countP_cells hi hj] at hmet
      exact ⟨i, hi, j, hj, hmet⟩
    · rintro ⟨i, hi, j, hj, hmet⟩
      rw [← Screen.countP_cells hi hj] at hmet
      exact ⟨i, hi, j, hj, hmet⟩
  redraw := rfl

/-- Of 33 rows, the last falls on the first. -/
example : (Display.initial.draw 0 0 (List.replicate 33 0x80)).1 = true := by decide +kernel

/-! ## The instruction -/

/-- The `n` bytes from `I` on, those past the end of memory being zero. -/
def Machine.sprite (m : Machine) (n : UInt8) : List UInt8 :=
  (List.range n.toNat).map fun k => m.memory.byteAt (m.index.toNat + k)

namespace Work

theorem run_readBytes_of_le {m : Machine} {n : UInt8} (h : m.index.toNat + n.toNat ≤ Memory.size) :
    (readBytes n.toNat).run m = .ok (m.sprite n) m := by
  unfold readBytes
  rw [EStateM.run_bind, EStateM.run_get]
  simp only [Memory.read, Memory.check_of_le h]
  rfl

/-- The flag is cleared before the sprite is drawn, but after the coordinates are read. -/
theorem run_drawSprite {m : Machine} {x y n : UInt8} (hx : x.toNat < 16) (hy : y.toNat < 16)
    (hn : m.index.toNat + n.toNat ≤ Memory.size) :
    let drawn := m.display.draw m.registers[x.toNat].toNat m.registers[y.toNat].toNat (m.sprite n)
    (drawSprite x y n).run m = .ok () ({ m with display := drawn.2 }.setFlag drawn.1) := by
  intro drawn
  unfold drawSprite
  rw [EStateM.run_bind, run_register_of_lt hx]
  simp only
  rw [EStateM.run_bind, run_register_of_lt hy]
  simp only
  rw [EStateM.run_bind, run_readBytes_of_le hn]
  rw [← Machine.setFlag_setFlag { m with display := drawn.2 } false]
  rfl

end Work

namespace Machine

/-- **Drawing has a closed form.** A display is drawn on as the closed form says. So is that of a
machine which runs `DXYN`, with the coordinates that `VX` and `VY` hold before, also where one of
them is the flag register; the flag tells of a collision, and the machine stays as it is else. -/
theorem draw_exact :
    (∀ (d : Display) (x y : Nat) (sprite : List UInt8),
        d.Drawn x y sprite (d.draw x y sprite).1 (d.draw x y sprite).2) ∧
      ∀ (m : Machine) (c : Call) (x y n : UInt8) (hx : x.toNat < 16) (hy : y.toNat < 16),
        m.instruction? c = some (.draw x y n) → m.index.toNat + n.toNat ≤ 4096 →
        ∃ hit d, (m.call c).result = .ok c.reply ∧
          m.display.Drawn m.registers[x.toNat].toNat m.registers[y.toNat].toNat (m.sprite n) hit d ∧
          (m.call c).machine = { m.ready c with display := d }.setFlag hit := by
  refine ⟨Display.drawn_draw, ?_⟩
  intro m c x y n hx hy hi hn
  have hr := Work.run_drawSprite (m := m.ready c) (n := n) hx hy hn
  obtain ⟨hres, hmachine⟩ := call_of_effect hi hr
  exact ⟨_, _, hres, Display.drawn_draw _ _ _ _, hmachine⟩

/-- A glyph that is drawn at the place which the flag register names for both coordinates. -/
theorem draw_exact_flag :
    let m := { initial {} (Generator.ofSeed 0) with registers := Vector.replicate 16 62 }
    m.instruction? (.stepWith 0xDFF5) = some (.draw 15 15 5) ∧
      ∃ hit d, (m.call (.stepWith 0xDFF5)).result = .ok .done ∧
        m.display.Drawn 62 62 (m.sprite 5) hit d ∧
        (m.call (.stepWith 0xDFF5)).machine =
          { m.ready (.stepWith 0xDFF5) with display := d }.setFlag hit := by
  intro m
  have hi : m.instruction? (.stepWith 0xDFF5) = some (.draw 15 15 5) := rfl
  have hn : m.index.toNat + (5 : UInt8).toNat ≤ 4096 := by decide
  exact ⟨hi, draw_exact.2 m (.stepWith 0xDFF5) 15 15 5 (by decide) (by decide) hi hn⟩

end Machine

end Chip8
