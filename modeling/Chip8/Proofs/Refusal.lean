import Chip8.Machine.Turn
import Chip8.Proofs.Work

/-!
# Refused work has changed nothing

Work that stops is not undone, so an instruction that is refused must not have changed the machine
before. Each instruction first checks and then commits: the checks change nothing (`Keeps id`), and
what follows them is never refused (`Granted`). Work of this shape is `Atomic`, and every
instruction has it (`atomic_effect`). Only the instructions that `Instruction.fallible` names are
ever refused (`granted_effect`).
-/

namespace Chip8

namespace Work

variable {α β : Type}

/-- `w` is never refused. -/
def Granted (w : Work α) : Prop := ∀ m f m', w.run m ≠ .error (.fault f) m'

/-- Where `w` is refused, it has changed nothing. -/
def Atomic (w : Work α) : Prop := ∀ m f m', w.run m = .error (.fault f) m' → m' = m

namespace Granted

theorem pure (a : α) : Granted (Pure.pure a : Work α) := fun _ _ _ h => nomatch h

theorem get : Granted (get : Work Machine) := fun _ _ _ h => nomatch h

theorem crash : Granted (crash : Work α) := fun _ _ _ h => nomatch h

theorem modify (g : Machine → Machine) : Granted (modify g : Work PUnit) :=
  fun _ _ _ h => nomatch h

theorem bind {x : Work α} {g : α → Work β} (hx : Granted x) (hg : ∀ a, Granted (g a)) :
    Granted (x >>= g) := by
  intro m f m' h
  rw [EStateM.run_bind] at h
  cases hr : x.run m with
  | ok a m₁ =>
    rw [hr] at h
    exact hg a m₁ f m' h
  | error stop m₁ =>
    rw [hr] at h
    cases h
    exact hx m f m' hr

theorem ite {c : Prop} [Decidable c] {x y : Work α} (hx : Granted x) (hy : Granted y) :
    Granted (if c then x else y) := by
  split
  · exact hx
  · exact hy

theorem orCrash (o : Option α) : Granted (orCrash o) := by
  cases o with
  | none => exact crash
  | some a => exact pure a

theorem register (r : UInt8) : Granted (register r) := bind get fun _ => orCrash _

theorem put (r v : UInt8) : Granted (put r v) := by
  intro m f m' h
  rw [run_put] at h
  split at h <;> cases h

theorem putFlag (b : Bool) : Granted (putFlag b) := modify _

theorem putWithFlag (r v : UInt8) (b : Bool) : Granted (putWithFlag r v b) :=
  bind (put r v) fun _ => putFlag b

theorem shiftOperand (x y : UInt8) : Granted (shiftOperand x y) := by
  refine bind get fun m => ?_
  cases m.dialect.shiftSource with
  | vx => exact register x
  | vy => exact register y

theorem combine (g : UInt8 → UInt8 → UInt8) (x y : UInt8) : Granted (combine g x y) :=
  bind (register x) fun _ => bind (register y) fun _ => put _ _

theorem combineWithFlag (g : UInt8 → UInt8 → UInt8) (c : UInt8 → UInt8 → Bool) (x y : UInt8) :
    Granted (combineWithFlag g c x y) :=
  bind (register x) fun _ => bind (register y) fun _ => putWithFlag _ _ _

theorem putRandom (x n : UInt8) : Granted (putRandom x n) :=
  bind get fun _ => bind (modify _) fun _ => put _ _

theorem pollKey (x : UInt8) : Granted (pollKey x) := by
  refine bind get fun m => ?_
  cases m.keypad.takeFirst? with
  | none => exact modify _
  | some found => exact bind (modify _) fun _ => put _ _

theorem skipIf (c : Bool) : Granted (skipIf c) := modify _

theorem skipBy (c : UInt8 → UInt8 → Bool) (x y : UInt8) : Granted (skipBy c x y) :=
  bind (register x) fun _ => bind (register y) fun _ => skipIf _

theorem advanceIndex (x : UInt8) : Granted (advanceIndex x) :=
  bind (register x) fun _ => bind get fun _ => ite crash (modify _)

end Granted

namespace Atomic

theorem of_granted {w : Work α} (h : Granted w) : Atomic w :=
  fun m f m' hr => absurd hr (h m f m')

theorem refuse (r : Fault) : Atomic (refuse r : Work α) := by
  intro m f m' h
  cases h
  rfl

/-- A check changes nothing, so what it is followed by may still be refused. -/
theorem check {x : Work α} {g : α → Work β} (hx : Keeps id x) (hg : ∀ a, Atomic (g a)) :
    Atomic (x >>= g) := by
  intro m f m' h
  have hm := hx m
  rw [EStateM.run_bind] at h
  cases hr : x.run m with
  | ok a m₁ =>
    rw [hr] at h hm
    have : m₁ = m := hm
    subst this
    exact hg a m₁ f m' h
  | error stop m₁ =>
    rw [hr] at h hm
    cases h
    exact hm

theorem ite {c : Prop} [Decidable c] {x y : Work α} (hx : Atomic x) (hy : Atomic y) :
    Atomic (if c then x else y) := by
  split
  · exact hx
  · exact hy

theorem leaveCall : Atomic leaveCall := by
  refine check .get fun m => ?_
  cases m.stack.pop? with
  | none => exact refuse _
  | some top => exact of_granted (.bind (.modify _) fun _ => .modify _)

theorem enterCall (a : UInt16) : Atomic (enterCall a) := by
  refine check .get fun m => ?_
  cases m.stack.push? m.pc with
  | none => exact refuse _
  | some s => exact of_granted (.bind (.modify _) fun _ => .modify _)

theorem jumpOffset (a : UInt16) : Atomic (jumpOffset a) :=
  check .get fun _ => ite (of_granted .crash) (ite (refuse _) (of_granted (.modify _)))

/-- Both registers and the sprite are read before the flag is cleared. -/
theorem drawSprite (x y n : UInt8) : Atomic (drawSprite x y n) :=
  check (.register x) fun _ => check (.register y) fun _ => check (.readBytes _) fun _ =>
    of_granted (.bind (.putFlag _) fun _ => .bind .get fun _ => .bind (.modify _) fun _ =>
      .putFlag _)

/-- The three bytes are checked before the first is written. -/
theorem storeDecimal (x : UInt8) : Atomic (storeDecimal x) :=
  check (.register x) fun _ => check .get fun _ => check (.orRefuse _) fun _ =>
    of_granted (.modify _)

theorem storeRegisters (x : UInt8) : Atomic (storeRegisters x) :=
  check .get fun _ => check (.orRefuse _) fun _ => check (.orCrash _) fun _ =>
    of_granted (.modify _)

theorem loadRegisters (x : UInt8) : Atomic (loadRegisters x) := by
  refine check (.readBytes _) fun vs => of_granted ?_
  intro m f m' h
  rw [EStateM.run_bind, EStateM.run_get] at h
  by_cases hl : vs.length ≤ 16 <;> simp [Machine.setFirstRegisters?, hl] at h

end Atomic

end Work

/-- Whether an instruction is refused on some machine. -/
def Instruction.fallible : Instruction → Bool
  | ret | call _ | jumpOffset _ | draw _ _ _ | decimal _ | store _ | load _ => true
  | _ => false

namespace Work

theorem granted_effect (i : Instruction) (h : i.fallible = false) : Granted i.effect := by
  cases i with
  | ret | call | jumpOffset | draw | decimal | store | load => cases h
  | sys a => exact .pure _
  | clearScreen => exact .modify _
  | jump a => exact .modify _
  | skipEqByte x n => exact .bind (.register x) fun _ => .skipIf _
  | skipNeByte x n => exact .bind (.register x) fun _ => .skipIf _
  | skipEq x y => exact .skipBy _ x y
  | skipNe x y => exact .skipBy _ x y
  | setByte x n => exact .put x n
  | addByte x n => exact .bind (.register x) fun _ => .put x _
  | copy x y => exact .bind (.register y) fun _ => .put x _
  | bitOr x y => exact .combine _ x y
  | bitAnd x y => exact .combine _ x y
  | bitXor x y => exact .combine _ x y
  | add x y => exact .combineWithFlag _ _ x y
  | sub x y => exact .combineWithFlag _ _ x y
  | subFrom x y => exact .combineWithFlag _ _ x y
  | shiftRight x y => exact .bind (.shiftOperand x y) fun _ => .putWithFlag x _ _
  | shiftLeft x y => exact .bind (.shiftOperand x y) fun _ => .putWithFlag x _ _
  | setIndex a => exact .modify _
  | random x n => exact .putRandom x n
  | skipPressed x => exact .bind (.register x) fun _ => .bind .get fun _ => .skipIf _
  | skipReleased x => exact .bind (.register x) fun _ => .bind .get fun _ => .skipIf _
  | getDelay x => exact .bind .get fun _ => .put x _
  | awaitKey x => exact .pollKey x
  | setDelay x => exact .bind (.register x) fun _ => .modify _
  | setSound x => exact .bind (.register x) fun _ => .modify _
  | addIndex x => exact .advanceIndex x
  | glyph x => exact .bind (.register x) fun _ => .modify _

/-- An instruction that is refused has changed nothing. -/
theorem atomic_effect (i : Instruction) : Atomic i.effect := by
  cases h : i.fallible with
  | false => exact .of_granted (granted_effect i h)
  | true =>
    cases i with
    | ret => exact .leaveCall
    | call a => exact .enterCall a
    | jumpOffset a => exact .jumpOffset a
    | draw x y n => exact .drawSprite x y n
    | decimal x => exact .storeDecimal x
    | store x => exact .storeRegisters x
    | load x => exact .loadRegisters x
    | _ => cases h

end Work

end Chip8
