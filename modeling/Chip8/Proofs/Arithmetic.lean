import Chip8.Proofs.Answer
import Chip8.Proofs.Coding
import Chip8.Proofs.Outcome

/-!
# What the arithmetic words compute

The words `7XNN` and `8XYN` read one or two registers, store a value in `VX`, and some of them set
the flag register `VF` after that. Here is what they compute, on numbers (`Word.Computes`), and what
storing it comes to, a register at a time (`Machine.Stores`). Operands are read before anything is
stored and the flag is stored last, so it makes no difference to the operands which of `X`, `Y` and
`F` are the same register, and a value that is stored in `VF` gives way to the flag.
-/

namespace Chip8

/-- From the values `a` of `VX`, `b` of `VY` and `s` of the register that a shift reads, the word `w`
computes a value for `VX`, and a flag if it sets one. -/
inductive Word.Computes (w : Word) (a b s : UInt8) : Nat → Option Bool → Prop
  /-- `7XNN`: the sum, without a carry. -/
  | addByte (hf : w.family = 0x7) : Computes w a b s ((a.toNat + w.byte.toNat) % 256) none
  /-- `8XY0`: a copy. -/
  | copy (hf : w.family = 0x8) (hn : w.nibble = 0x0) : Computes w a b s b.toNat none
  /-- `8XY1`: or, bit by bit. -/
  | bitOr (hf : w.family = 0x8) (hn : w.nibble = 0x1) : Computes w a b s (a.toNat ||| b.toNat) none
  /-- `8XY2`: and, bit by bit. -/
  | bitAnd (hf : w.family = 0x8) (hn : w.nibble = 0x2) : Computes w a b s (a.toNat &&& b.toNat) none
  /-- `8XY3`: exclusive or, bit by bit. -/
  | bitXor (hf : w.family = 0x8) (hn : w.nibble = 0x3) : Computes w a b s (a.toNat ^^^ b.toNat) none
  /-- `8XY4`: the sum and its carry. -/
  | add (hf : w.family = 0x8) (hn : w.nibble = 0x4) :
      Computes w a b s ((a.toNat + b.toNat) % 256) (some (256 ≤ a.toNat + b.toNat))
  /-- `8XY5`: the difference, and whether nothing was borrowed. -/
  | sub (hf : w.family = 0x8) (hn : w.nibble = 0x5) :
      Computes w a b s ((256 + a.toNat - b.toNat) % 256) (some (b.toNat ≤ a.toNat))
  /-- `8XY6`: half, and the bit shifted out. -/
  | shiftRight (hf : w.family = 0x8) (hn : w.nibble = 0x6) :
      Computes w a b s (s.toNat / 2) (some (s.toNat % 2 = 1))
  /-- `8XY7`: the difference the other way around, and whether nothing was borrowed. -/
  | subFrom (hf : w.family = 0x8) (hn : w.nibble = 0x7) :
      Computes w a b s ((256 + b.toNat - a.toNat) % 256) (some (a.toNat ≤ b.toNat))
  /-- `8XYE`: double, and the bit shifted out. -/
  | shiftLeft (hf : w.family = 0x8) (hn : w.nibble = 0xE) :
      Computes w a b s (2 * s.toNat % 256) (some (s.toNat / 128 = 1))

namespace Machine

/-- The value of the register `r`, or `0` where there is no such register. -/
def value (m : Machine) (r : UInt8) : UInt8 := (m.register? r).getD 0

/-- The register that a shift of `VX` with `VY` reads. -/
def shiftRegister (m : Machine) (x y : UInt8) : UInt8 :=
  match m.dialect.shiftSource with
  | .vx => x
  | .vy => y

/-- `m'` is the machine `m` with `v` in the register `x` and then the flag in `VF`, if there is
one. -/
structure Stores (m : Machine) (x : UInt8) (v : Nat) (flag : Option Bool) (m' : Machine) :
    Prop where
  /-- The flag is in `VF`, also where that is the register `x`. -/
  flagged : ∀ f, flag = some f → (m'.value 0xF).toNat = f.toNat
  /-- The value is in the register `x`, unless the flag is. -/
  stored : x ≠ 0xF ∨ flag = none → (m'.value x).toNat = v
  /-- The other registers are as before, and so is `VF` without a flag. -/
  others : ∀ r, r ≠ x → r ≠ 0xF ∨ flag = none → m'.value r = m.value r
  rest : m' = { m with registers := m'.registers }

variable {m : Machine} {x y r v : UInt8}

/-! ## Values of registers -/

theorem value_of_lt (hx : x.toNat < 16) : m.value x = m.registers[x.toNat] := by
  rw [value, m.register?_of_lt hx, Option.getD_some]

theorem value_set (hx : x.toNat < 16) :
    value { m with registers := m.registers.set x.toNat v } r = if r = x then v else m.value r := by
  by_cases h : r = x
  · subst h
    simp [value, register?, hx]
  · have hne : x.toNat ≠ r.toNat := fun heq => h (UInt8.toNat_inj.mp heq.symm)
    simp [value, register?, h, hne]

theorem value_setFlag (f : Bool) :
    (m.setFlag f).value r = if r = 0xF then (if f then 1 else 0) else m.value r :=
  value_set (m := m) (x := 0xF) (by decide)

theorem stores_set (hx : x.toNat < 16) :
    m.Stores x v.toNat none { m with registers := m.registers.set x.toNat v } where
  flagged := nofun
  stored := by
    intro _
    rw [value_set hx, if_pos rfl]
  others := by
    intro r hr _
    rw [value_set hx, if_neg hr]
  rest := rfl

theorem stores_setFlag (hx : x.toNat < 16) (f : Bool) :
    m.Stores x v.toNat (some f)
      ({ m with registers := m.registers.set x.toNat v }.setFlag f) where
  flagged := by
    rintro _ ⟨⟩
    rw [value_setFlag, if_pos rfl]
    cases f <;> rfl
  stored := by
    intro h
    have hne : x ≠ 0xF := h.resolve_right nofun
    rw [value_setFlag, if_neg hne, value_set hx, if_pos rfl]
  others := by
    intro r hr h
    have hne : r ≠ 0xF := h.resolve_right nofun
    rw [value_setFlag, if_neg hne, value_set hx, if_neg hr]
  rest := rfl

end Machine

namespace Work

open Machine

variable {m : Machine} {x y v : UInt8} {n : Nat} {flag : Option Bool}

/-! ## Work that stores a value -/

/-- `w` ends and stores a value, and a flag if there is one. -/
def Storing (w : Work Unit) (m : Machine) (x : UInt8) (n : Nat) (flag : Option Bool) : Prop :=
  ∃ m', w.run m = .ok () m' ∧ m.Stores x n flag m'

theorem run_shiftOperand_eq (m : Machine) (x y : UInt8) :
    (shiftOperand x y).run m = (register (m.shiftRegister x y)).run m := by
  unfold shiftOperand shiftRegister
  rw [EStateM.run_bind, EStateM.run_get]
  dsimp only
  cases m.dialect.shiftSource <;> rfl

namespace Storing

theorem put (hx : x.toNat < 16) (hn : v.toNat = n) : Storing (put x v) m x n none := by
  refine ⟨{ m with registers := m.registers.set x.toNat v }, ?_, hn ▸ stores_set hx⟩
  rw [run_put, dif_pos hx]

theorem putWithFlag {f : Bool} (hx : x.toNat < 16) (hn : v.toNat = n) (hf : some f = flag) :
    Storing (putWithFlag x v f) m x n flag := by
  refine ⟨({ m with registers := m.registers.set x.toNat v } : Machine).setFlag f, ?_, ?_⟩
  · unfold Work.putWithFlag
    rw [EStateM.run_bind, run_put, dif_pos hx]
    rfl
  · rw [← hn, ← hf]
    exact stores_setFlag hx f

theorem register {k : UInt8 → Work Unit} (hy : y.toNat < 16)
    (h : Storing (k (m.value y)) m x n flag) :
    Storing (do let v ← register y; k v) m x n flag := by
  unfold Storing
  rw [EStateM.run_bind, run_register_of_lt hy, ← value_of_lt hy]
  exact h

theorem shiftOperand {k : UInt8 → Work Unit} (hx : x.toNat < 16) (hy : y.toNat < 16)
    (h : Storing (k (m.value (m.shiftRegister x y))) m x n flag) :
    Storing (do let v ← shiftOperand x y; k v) m x n flag := by
  have hlt : (m.shiftRegister x y).toNat < 16 := by
    unfold shiftRegister
    split <;> assumption
  have hregister := register hlt h
  unfold Storing at hregister ⊢
  rw [EStateM.run_bind] at hregister ⊢
  rwa [run_shiftOperand_eq]

theorem combine {g : UInt8 → UInt8 → UInt8} (hx : x.toNat < 16) (hy : y.toNat < 16)
    (hn : (g (m.value x) (m.value y)).toNat = n) : Storing (combine g x y) m x n none :=
  register hx (register hy (put hx hn))

theorem combineWithFlag {g : UInt8 → UInt8 → UInt8} {c : UInt8 → UInt8 → Bool}
    (hx : x.toNat < 16) (hy : y.toNat < 16) (hn : (g (m.value x) (m.value y)).toNat = n)
    (hf : some (c (m.value x) (m.value y)) = flag) : Storing (combineWithFlag g c x y) m x n flag :=
  register hx (register hy (putWithFlag hx hn hf))

end Storing

end Work

/-! ## The operations on numbers -/

theorem toNat_sub_eq_mod (a b : UInt8) : (a - b).toNat = (256 + a.toNat - b.toNat) % 256 := by
  have hb := b.toNat_lt
  have hsum : 256 + a.toNat - b.toNat = 256 - b.toNat + a.toNat := by omega
  rw [UInt8.toNat_sub, hsum]

theorem mod_two_beq_one (s : UInt8) : (s % 2 == 1) = decide (s.toNat % 2 = 1) := by
  rw [Bool.eq_iff_iff, beq_iff_eq, decide_eq_true_iff, ← UInt8.toNat_inj]
  rfl

theorem div_beq_one (s : UInt8) : (s / 128 == 1) = decide (s.toNat / 128 = 1) := by
  rw [Bool.eq_iff_iff, beq_iff_eq, decide_eq_true_iff, ← UInt8.toNat_inj]
  rfl

/-! ## Words -/

namespace Word

variable {w : Word} {m : Machine} {n : Nat} {flag : Option Bool}

theorem toNat_x_lt (w : Word) : w.x.toNat < 16 := Operand.toNat_lt_of_fits (Instruction.fits_x w)

theorem toNat_y_lt (w : Word) : w.y.toNat < 16 := Operand.toNat_lt_of_fits (Instruction.fits_y w)

theorem ofWord?_arithmetic (hf : w.family = 0x8) :
    Instruction.ofWord? w = Instruction.arithmetic? w.nibble w.x w.y := by
  simp [Instruction.ofWord?, hf]

/-- What a word computes is what its instruction stores. -/
theorem storing_of_computes
    (h : w.Computes (m.value w.x) (m.value w.y) (m.value (m.shiftRegister w.x w.y)) n flag) :
    ∃ i, Instruction.ofWord? w = some i ∧ i.effect.Storing m w.x n flag := by
  have hx := toNat_x_lt w
  have hy := toNat_y_lt w
  cases h with
  | addByte hf =>
    refine ⟨.addByte w.x w.byte, by simp [Instruction.ofWord?, hf], ?_⟩
    exact .register hx (.put hx (UInt8.toNat_add _ _))
  | copy hf hn =>
    refine ⟨.copy w.x w.y, by rw [ofWord?_arithmetic hf, hn]; rfl, ?_⟩
    exact .register hy (.put hx rfl)
  | bitOr hf hn =>
    refine ⟨.bitOr w.x w.y, by rw [ofWord?_arithmetic hf, hn]; rfl, ?_⟩
    exact .combine hx hy (UInt8.toNat_or _ _)
  | bitAnd hf hn =>
    refine ⟨.bitAnd w.x w.y, by rw [ofWord?_arithmetic hf, hn]; rfl, ?_⟩
    exact .combine hx hy (UInt8.toNat_and _ _)
  | bitXor hf hn =>
    refine ⟨.bitXor w.x w.y, by rw [ofWord?_arithmetic hf, hn]; rfl, ?_⟩
    exact .combine hx hy (UInt8.toNat_xor _ _)
  | add hf hn =>
    refine ⟨.add w.x w.y, by rw [ofWord?_arithmetic hf, hn]; rfl, ?_⟩
    exact .combineWithFlag hx hy (UInt8.toNat_add _ _) rfl
  | sub hf hn =>
    refine ⟨.sub w.x w.y, by rw [ofWord?_arithmetic hf, hn]; rfl, ?_⟩
    exact .combineWithFlag hx hy (toNat_sub_eq_mod _ _) rfl
  | shiftRight hf hn =>
    refine ⟨.shiftRight w.x w.y, by rw [ofWord?_arithmetic hf, hn]; rfl, ?_⟩
    exact .shiftOperand hx hy
      (.putWithFlag hx (UInt8.toNat_div _ _) (congrArg some (mod_two_beq_one _)))
  | subFrom hf hn =>
    refine ⟨.subFrom w.x w.y, by rw [ofWord?_arithmetic hf, hn]; rfl, ?_⟩
    exact .combineWithFlag hx hy (toNat_sub_eq_mod _ _) rfl
  | shiftLeft hf hn =>
    refine ⟨.shiftLeft w.x w.y, by rw [ofWord?_arithmetic hf, hn]; rfl, ?_⟩
    exact .shiftOperand hx hy
      (.putWithFlag hx (UInt8.toNat_mul _ _) (congrArg some (div_beq_one _)))

end Word

namespace Machine

/-- **The arithmetic words.** A call that fetches such a word or is given it succeeds. It stores what
the word computes from the values that its registers have before: the value in `VX`, and the flag, if
the word sets one, in `VF`, where it wins if `X` is `F`. Nothing else changes, but that the machine
is past the word. -/
theorem arithmetic_exact (m : Machine) (c : Call) (w : Word) (v : Nat) (flag : Option Bool)
    (ha : m.admits c) (hw : m.word? c = some w)
    (h : w.Computes (m.value w.x) (m.value w.y) (m.value (m.shiftRegister w.x w.y)) v flag) :
    (m.call c).result = .ok c.reply ∧
      Stores { m with lastWord := some w, awaiting := none, pc := m.pc + 2 } w.x v flag
        (m.call c).machine := by
  -- Operands are the same on the machine past the word, which has the same registers and dialect.
  have hready : w.Computes ((m.ready c).value w.x) ((m.ready c).value w.y)
      ((m.ready c).value ((m.ready c).shiftRegister w.x w.y)) v flag := h
  obtain ⟨i, hi, m', hrun, hstores⟩ := Word.storing_of_computes hready
  have hinstruction : m.instruction? c = some i := by
    rw [instruction?, if_pos ha, choice?_of_word hw, hi]
  obtain ⟨hresult, hmachine⟩ := call_of_effect hinstruction hrun
  rw [ready_of_word hw] at hstores
  exact ⟨hresult, hmachine ▸ hstores⟩

/-- In the dialect of the COSMAC VIP, a shift of `V1` with `V2`, and a sum of the flag register with
itself, of which only the carry remains. -/
theorem arithmetic_exact_flag :
    let m : Machine :=
      { initial .cosmacVip (Generator.ofSeed 0) with
        registers := (Vector.replicate 16 0x81).setIfInBounds 1 7 }
    (m.admits (.stepWith 0x8126) = true ∧ m.word? (.stepWith 0x8126) = some 0x8126 ∧
      ((m.call (.stepWith 0x8126)).machine.value 1).toNat = 0x40 ∧
      ((m.call (.stepWith 0x8126)).machine.value 0xF).toNat = 1) ∧
    ((m.call (.stepWith 0x8FF4)).result = .ok .done ∧
      ((m.call (.stepWith 0x8FF4)).machine.value 0xF).toNat = 1 ∧
      (m.call (.stepWith 0x8FF4)).machine.value 1 = 7) := by
  intro m
  have hhalf : Word.Computes 0x8126 7 0x81 0x81 0x40 (some true) := .shiftRight rfl rfl
  have htwice : Word.Computes 0x8FF4 0x81 0x81 0x81 2 (some true) := .add rfl rfl
  obtain ⟨-, hshift⟩ := arithmetic_exact m (.stepWith 0x8126) 0x8126 _ _ rfl rfl hhalf
  obtain ⟨hresult, hsum⟩ := arithmetic_exact m (.stepWith 0x8FF4) 0x8FF4 _ _ rfl rfl htwice
  refine ⟨⟨rfl, rfl, hshift.stored (.inl (by decide)), hshift.flagged true rfl⟩, hresult,
    hsum.flagged true rfl, ?_⟩
  exact hsum.others 1 (by decide) (.inl (by decide))

end Machine

end Chip8
