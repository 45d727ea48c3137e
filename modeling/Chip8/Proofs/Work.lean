import Chip8.Machine.Effect

/-!
# What work leaves alone

`Keeps f w` says that the work `w` leaves what `f` sees of the machine as it was, whether `w` ends
or stops. It is closed under the ways in which work is put together, so each piece of work needs
one short lemma; what follows it then holds of every instruction (`keeps_effect`): an instruction
changes no part of the machine but those that it touches.
-/

namespace Chip8

namespace Work

variable {α β γ : Type} {f : Machine → γ}

/-- The machine that work leaves, ended or stopped. -/
def left : EStateM.Result Stop Machine α → Machine
  | .ok _ m | .error _ m => m

/-- `w` leaves what `f` sees of the machine as it was. -/
def Keeps (f : Machine → γ) (w : Work α) : Prop := ∀ m, f (left (w.run m)) = f m

theorem left_of_ok {w : Work α} {m m' : Machine} {a : α} (h : w.run m = .ok a m') :
    left (w.run m) = m' := congrArg left h

theorem left_of_error {w : Work α} {m m' : Machine} {stop : Stop} (h : w.run m = .error stop m') :
    left (w.run m) = m' := congrArg left h

namespace Keeps

theorem of_ok {w : Work α} {m m' : Machine} {a : α} (h : Keeps f w) (hr : w.run m = .ok a m') :
    f m' = f m := left_of_ok hr ▸ h m

theorem of_error {w : Work α} {m m' : Machine} {stop : Stop} (h : Keeps f w)
    (hr : w.run m = .error stop m') : f m' = f m := left_of_error hr ▸ h m

theorem pure (a : α) : Keeps f (Pure.pure a : Work α) := fun _ => rfl

theorem get : Keeps f (get : Work Machine) := fun _ => rfl

theorem refuse (r : Fault) : Keeps f (refuse r : Work α) := fun _ => rfl

theorem crash : Keeps f (crash : Work α) := fun _ => rfl

theorem modify {g : Machine → Machine} (h : ∀ m, f (g m) = f m) :
    Keeps f (modify g : Work PUnit) := fun m => h m

theorem bind {x : Work α} {g : α → Work β} (hx : Keeps f x) (hg : ∀ a, Keeps f (g a)) :
    Keeps f (x >>= g) := by
  intro m
  have hm := hx m
  rw [EStateM.run_bind]
  cases hr : x.run m with
  | ok a m' =>
    rw [hr] at hm
    exact (hg a m').trans hm
  | error stop m' =>
    rw [hr] at hm
    exact hm

theorem ite {c : Prop} [Decidable c] {x y : Work α} (hx : Keeps f x) (hy : Keeps f y) :
    Keeps f (if c then x else y) := by
  split
  · exact hx
  · exact hy

theorem orCrash (o : Option α) : Keeps f (orCrash o) := by
  cases o with
  | none => exact crash
  | some a => exact pure a

theorem orRefuse (e : Except Fault α) : Keeps f (orRefuse e) := by
  cases e with
  | error r => exact refuse r
  | ok a => exact pure a

theorem register (r : UInt8) : Keeps f (register r) := bind get fun _ => orCrash _

theorem readBytes (n : Nat) : Keeps f (readBytes n) := bind get fun _ => orRefuse _

theorem shiftOperand (x y : UInt8) : Keeps f (shiftOperand x y) := by
  refine bind get fun m => ?_
  cases m.dialect.shiftSource with
  | vx => exact register x
  | vy => exact register y

end Keeps

theorem run_put (r v : UInt8) (m : Machine) :
    (put r v).run m =
      if h : r.toNat < 16 then .ok () { m with registers := m.registers.set r.toNat v }
      else .error .crash m := by
  unfold put
  rw [EStateM.run_bind, EStateM.run_get]
  by_cases h : r.toNat < 16 <;> simp [Machine.setRegister?, h]

end Work

/-! ## The parts that an instruction changes -/

/-- A part of the machine. -/
inductive Part where
  | registers
  | index
  | pc
  | stack
  | delay
  | sound
  | keypad
  | awaiting
  | generator
  | display
  | memory
  deriving DecidableEq

/-- What a part of the machine holds. -/
def Part.Content : Part → Type
  | registers => Registers
  | index | pc => UInt16
  | stack => Stack
  | delay | sound => UInt8
  | keypad => Keypad
  | awaiting => Option UInt8
  | generator => Generator
  | display => Display
  | memory => Memory

/-- The content of a part of the machine. -/
def Part.content : (p : Part) → Machine → p.Content
  | registers => Machine.registers
  | index => Machine.index
  | pc => Machine.pc
  | stack => Machine.stack
  | delay => Machine.delay
  | sound => Machine.sound
  | keypad => Machine.keypad
  | awaiting => Machine.awaiting
  | generator => Machine.generator
  | display => Machine.display
  | memory => Machine.memory

/-- `f` does not depend on a part of the machine. -/
def Part.Unseen {γ : Type} (f : Machine → γ) : Part → Prop
  | registers => ∀ m v, f { m with registers := v } = f m
  | index => ∀ m v, f { m with index := v } = f m
  | pc => ∀ m v, f { m with pc := v } = f m
  | stack => ∀ m v, f { m with stack := v } = f m
  | delay => ∀ m v, f { m with delay := v } = f m
  | sound => ∀ m v, f { m with sound := v } = f m
  | keypad => ∀ m v, f { m with keypad := v } = f m
  | awaiting => ∀ m v, f { m with awaiting := v } = f m
  | generator => ∀ m v, f { m with generator := v } = f m
  | display => ∀ m v, f { m with display := v } = f m
  | memory => ∀ m v, f { m with memory := v } = f m

theorem Part.unseen_content {p q : Part} (h : q ≠ p) : q.Unseen p.content := by
  cases p <;> cases q <;> first | exact absurd rfl h | exact fun _ _ => rfl

/-- The parts that the effect of an instruction may change. -/
def Instruction.parts : Instruction → List Part
  | sys _ => []
  | clearScreen => [.display]
  | ret | call _ => [.stack, .pc]
  | jump _ | jumpOffset _ | skipEqByte _ _ | skipNeByte _ _ | skipEq _ _ | skipNe _ _
  | skipPressed _ | skipReleased _ => [.pc]
  | setByte _ _ | addByte _ _ | copy _ _ | bitOr _ _ | bitAnd _ _ | bitXor _ _ | add _ _ | sub _ _
  | shiftRight _ _ | subFrom _ _ | shiftLeft _ _ | getDelay _ | load _ => [.registers]
  | setIndex _ | addIndex _ | glyph _ => [.index]
  | random _ _ => [.generator, .registers]
  | draw _ _ _ => [.registers, .display]
  | awaitKey _ => [.keypad, .registers, .pc, .awaiting]
  | setDelay _ => [.delay]
  | setSound _ => [.sound]
  | decimal _ | store _ => [.memory]

/-- Whether an instruction may change a part of the machine. -/
def Instruction.touches (i : Instruction) (p : Part) : Bool := i.parts.contains p

/-- The instruction may store a value in the register `r`. -/
def Instruction.Targets (r : UInt8) : Instruction → Prop
  | setByte x _ | addByte x _ | copy x _ | bitOr x _ | bitAnd x _ | bitXor x _ | random x _
  | getDelay x | awaitKey x => r = x
  | add x _ | sub x _ | shiftRight x _ | subFrom x _ | shiftLeft x _ => r = x ∨ r = 0xF
  | draw _ _ _ => r = 0xF
  | load x => r ≤ x
  | _ => False

namespace Work

variable {γ : Type} {f : Machine → γ}

namespace Keeps

theorem put {r : UInt8} (h : ∀ m rs, (∀ j : UInt8, j ≠ r → rs[j.toNat]? = m.registers[j.toNat]?) →
    f { m with registers := rs } = f m) (v : UInt8) : Keeps f (put r v) := by
  intro m
  rw [run_put]
  split
  · refine h m _ fun j hj => Vector.getElem?_set_ne _ fun heq => hj ?_
    exact UInt8.toNat_inj.mp heq.symm
  · rfl

theorem putFlag (hf : ∀ v, Keeps f (Work.put 0xF v)) (b : Bool) : Keeps f (putFlag b) :=
  hf (if b then 1 else 0)

section Registers

variable {x : UInt8} (hx : ∀ v, Keeps f (Work.put x v)) (hf : ∀ v, Keeps f (Work.put 0xF v))

include hx

theorem combine (g : UInt8 → UInt8 → UInt8) (y : UInt8) : Keeps f (combine g x y) :=
  bind (register x) fun _ => bind (register y) fun _ => hx _

theorem putRandom (hg : Part.generator.Unseen f) (n : UInt8) : Keeps f (putRandom x n) :=
  bind get fun _ => bind (modify fun m => hg m _) fun _ => hx _

theorem pollKey (hk : Part.keypad.Unseen f) (hp : Part.pc.Unseen f) (ha : Part.awaiting.Unseen f) :
    Keeps f (pollKey x) := by
  refine bind get fun m => ?_
  cases m.keypad.takeFirst? with
  | none => exact modify fun m => (ha { m with pc := m.pc - 2 } _).trans (hp m _)
  | some found => exact bind (modify fun m => hk m _) fun _ => hx _

include hf

theorem putWithFlag (v : UInt8) (b : Bool) : Keeps f (putWithFlag x v b) :=
  bind (hx v) fun _ => putFlag hf b

theorem combineWithFlag (g : UInt8 → UInt8 → UInt8) (c : UInt8 → UInt8 → Bool) (y : UInt8) :
    Keeps f (combineWithFlag g c x y) :=
  bind (register x) fun _ => bind (register y) fun _ => putWithFlag hx hf _ _

end Registers

theorem goTo (h : Part.pc.Unseen f) (a : UInt16) : Keeps f (goTo a) := modify fun m => h m _

theorem skipIf (h : Part.pc.Unseen f) (c : Bool) : Keeps f (skipIf c) := by
  refine modify fun m => ?_
  cases c with
  | false => rfl
  | true => exact h m _

theorem skipBy (h : Part.pc.Unseen f) (c : UInt8 → UInt8 → Bool) (x y : UInt8) :
    Keeps f (skipBy c x y) :=
  bind (register x) fun _ => bind (register y) fun _ => skipIf h _

theorem leaveCall (hs : Part.stack.Unseen f) (hp : Part.pc.Unseen f) : Keeps f leaveCall := by
  refine bind get fun m => ?_
  cases m.stack.pop? with
  | none => exact refuse _
  | some top => exact bind (modify fun m => hs m _) fun _ => goTo hp _

theorem enterCall (hs : Part.stack.Unseen f) (hp : Part.pc.Unseen f) (a : UInt16) :
    Keeps f (enterCall a) := by
  refine bind get fun m => ?_
  cases m.stack.push? m.pc with
  | none => exact refuse _
  | some s => exact bind (modify fun m => hs m _) fun _ => goTo hp _

theorem jumpOffset (h : Part.pc.Unseen f) (a : UInt16) : Keeps f (jumpOffset a) :=
  bind get fun _ => ite crash (ite (refuse _) (goTo h _))

theorem advanceIndex (h : Part.index.Unseen f) (x : UInt8) : Keeps f (advanceIndex x) :=
  bind (register x) fun _ => bind get fun _ => ite crash (modify fun m => h m _)

theorem drawSprite (hf : ∀ v, Keeps f (Work.put 0xF v)) (hd : Part.display.Unseen f)
    (x y n : UInt8) : Keeps f (drawSprite x y n) :=
  bind (register x) fun _ => bind (register y) fun _ => bind (readBytes _) fun _ =>
    bind (putFlag hf _) fun _ => bind get fun _ => bind (modify fun m => hd m _) fun _ =>
      putFlag hf _

theorem storeDecimal (h : Part.memory.Unseen f) (x : UInt8) : Keeps f (storeDecimal x) :=
  bind (register x) fun _ => bind get fun _ => bind (orRefuse _) fun _ => modify fun m => h m _

theorem storeRegisters (h : Part.memory.Unseen f) (x : UInt8) : Keeps f (storeRegisters x) :=
  bind get fun _ => bind (orRefuse _) fun _ => bind (orCrash _) fun _ => modify fun m => h m _

theorem loadRegisters {x : UInt8} (h : ∀ m rs,
    (∀ j : UInt8, ¬ j ≤ x → rs[j.toNat]? = m.registers[j.toNat]?) →
      f { m with registers := rs } = f m) : Keeps f (loadRegisters x) := by
  intro m
  unfold Work.loadRegisters Work.readBytes
  simp only [EStateM.run_bind, EStateM.run_get]
  cases hread : m.memory.read m.index.toNat (x.toNat + 1) with
  | error r => rfl
  | ok vs =>
    have hlength := Memory.length_of_read hread
    by_cases hl : vs.length ≤ 16
    · have hset : m.setFirstRegisters? vs = some _ := if_pos hl
      simp only [orRefuse_ok, EStateM.run_pure, hset, orCrash_some]
      refine h m _ fun j hj => ?_
      have hpast : vs.length ≤ j.toNat := hlength ▸ UInt8.not_le.mp hj
      have hj := Machine.register?_of_setFirstRegisters? hset j
      rwa [List.getElem?_eq_none hpast, Option.none_or] at hj
    · simp [Machine.setFirstRegisters?, hl, left]

end Keeps

/-- An instruction changes no part of the machine but those that it touches, and of the registers
none but those that it targets. -/
theorem keeps_effect_of_targets (i : Instruction)
    (h : ∀ p, i.touches p → p ≠ .registers → p.Unseen f)
    (hr : i.touches .registers → ∀ m rs,
      (∀ j, ¬ i.Targets j → rs[j.toNat]? = m.registers[j.toNat]?) →
        f { m with registers := rs } = f m) : Keeps f i.effect := by
  have hpart : ∀ p, (i.touches p && p != .registers) = true → p.Unseen f := by
    intro p hp
    rw [Bool.and_eq_true, bne_iff_ne] at hp
    exact h p hp.1 hp.2
  have hput : ∀ x, i.Targets x → i.touches .registers → ∀ v, Keeps f (put x v) := by
    intro x hx ht
    refine Keeps.put fun m rs hrs => hr ht m rs fun j hj => hrs j ?_
    rintro rfl
    exact hj hx
  cases i with
  | sys a => exact .pure _
  | clearScreen => exact .modify fun m => hpart .display rfl m _
  | ret => exact .leaveCall (hpart .stack rfl) (hpart .pc rfl)
  | jump a => exact .goTo (hpart .pc rfl) a
  | call a => exact .enterCall (hpart .stack rfl) (hpart .pc rfl) a
  | skipEqByte x n => exact .bind (.register x) fun _ => .skipIf (hpart .pc rfl) _
  | skipNeByte x n => exact .bind (.register x) fun _ => .skipIf (hpart .pc rfl) _
  | skipEq x y => exact .skipBy (hpart .pc rfl) _ x y
  | setByte x n => exact hput x rfl rfl n
  | addByte x n => exact .bind (.register x) fun _ => hput x rfl rfl _
  | copy x y => exact .bind (.register y) fun _ => hput x rfl rfl _
  | bitOr x y => exact .combine (hput x rfl rfl) _ y
  | bitAnd x y => exact .combine (hput x rfl rfl) _ y
  | bitXor x y => exact .combine (hput x rfl rfl) _ y
  | add x y => exact .combineWithFlag (hput x (.inl rfl) rfl) (hput _ (.inr rfl) rfl) _ _ y
  | sub x y => exact .combineWithFlag (hput x (.inl rfl) rfl) (hput _ (.inr rfl) rfl) _ _ y
  | shiftRight x y =>
    exact .bind (.shiftOperand x y) fun _ =>
      .putWithFlag (hput x (.inl rfl) rfl) (hput _ (.inr rfl) rfl) _ _
  | subFrom x y => exact .combineWithFlag (hput x (.inl rfl) rfl) (hput _ (.inr rfl) rfl) _ _ y
  | shiftLeft x y =>
    exact .bind (.shiftOperand x y) fun _ =>
      .putWithFlag (hput x (.inl rfl) rfl) (hput _ (.inr rfl) rfl) _ _
  | skipNe x y => exact .skipBy (hpart .pc rfl) _ x y
  | setIndex a => exact .modify fun m => hpart .index rfl m _
  | jumpOffset a => exact .jumpOffset (hpart .pc rfl) a
  | random x n => exact .putRandom (hput x rfl rfl) (hpart .generator rfl) n
  | draw x y n => exact .drawSprite (hput _ rfl rfl) (hpart .display rfl) x y n
  | skipPressed x =>
    exact .bind (.register x) fun _ => .bind .get fun _ => .skipIf (hpart .pc rfl) _
  | skipReleased x =>
    exact .bind (.register x) fun _ => .bind .get fun _ => .skipIf (hpart .pc rfl) _
  | getDelay x => exact .bind .get fun _ => hput x rfl rfl _
  | awaitKey x =>
    exact .pollKey (hput x rfl rfl) (hpart .keypad rfl) (hpart .pc rfl)
      (hpart .awaiting rfl)
  | setDelay x => exact .bind (.register x) fun _ => .modify fun m => hpart .delay rfl m _
  | setSound x => exact .bind (.register x) fun _ => .modify fun m => hpart .sound rfl m _
  | addIndex x => exact .advanceIndex (hpart .index rfl) x
  | glyph x => exact .bind (.register x) fun _ => .modify fun m => hpart .index rfl m _
  | decimal x => exact .storeDecimal (hpart .memory rfl) x
  | store x => exact .storeRegisters (hpart .memory rfl) x
  | load x => exact .loadRegisters (hr rfl)

theorem keeps_effect (i : Instruction) (h : ∀ p, i.touches p → p.Unseen f) : Keeps f i.effect :=
  keeps_effect_of_targets i (fun p hp _ => h p hp) fun ht m rs _ => h .registers ht m rs

theorem keeps_part (p : Part) {i : Instruction} (h : i.touches p = false) :
    Keeps p.content i.effect := by
  refine keeps_effect i fun q hq => Part.unseen_content ?_
  rintro rfl
  rw [h] at hq
  cases hq

/-- No instruction pauses, resumes or halts the machine; that is done where a call ends. -/
theorem keeps_mode (i : Instruction) : Keeps Machine.mode i.effect := by
  refine keeps_effect i fun p _ => ?_
  cases p <;> exact fun _ _ => rfl

theorem keeps_dialect (i : Instruction) : Keeps Machine.dialect i.effect := by
  refine keeps_effect i fun p _ => ?_
  cases p <;> exact fun _ _ => rfl

theorem keeps_register {i : Instruction} {r : UInt8} (h : ¬ i.Targets r) :
    Keeps (fun m => m.register? r) i.effect := by
  refine keeps_effect_of_targets i (fun p _ hp => ?_) fun _ m rs hrs => hrs r h
  cases p <;> first | exact absurd rfl hp | exact fun _ _ => rfl

/-! ## A wait for a key -/

theorem run_pollKey_of_some {m : Machine} {x k : UInt8} {p : Keypad}
    (h : m.keypad.takeFirst? = some (k, p)) :
    (pollKey x).run m = (put x k).run { m with keypad := p } := by
  unfold pollKey
  rw [EStateM.run_bind, EStateM.run_get]
  simp only [h]
  rfl

theorem run_pollKey_of_none {m : Machine} {x : UInt8} (h : m.keypad.takeFirst? = none) :
    (pollKey x).run m = .ok () { m with pc := m.pc - 2, awaiting := some x } := by
  unfold pollKey
  rw [EStateM.run_bind, EStateM.run_get]
  simp only [h]
  rfl

/-- Only a wait for a key that finds none is remembered, and then the program counter goes back. -/
theorem awaiting_of_effect {i : Instruction} {m m' : Machine} {x : UInt8} (hm : m.awaiting = none)
    (hl : left (i.effect.run m) = m') (hx : m'.awaiting = some x) :
    i = .awaitKey x ∧ m.keypad.takeFirst? = none ∧
      m' = { m with pc := m.pc - 2, awaiting := some x } := by
  subst hl
  cases i with
  | awaitKey y =>
    rw [Instruction.effect] at hx ⊢
    cases hk : m.keypad.takeFirst? with
    | none =>
      rw [run_pollKey_of_none hk] at hx ⊢
      cases hx
      exact ⟨rfl, rfl, rfl⟩
    | some found =>
      have hp : Keeps Machine.awaiting (put y found.1) := .put (fun _ _ _ => rfl) _
      rw [run_pollKey_of_some hk, hp] at hx
      exact absurd (hm.symm.trans hx) nofun
  | _ =>
    -- No other instruction touches the wait.
    exact absurd (hm.symm.trans ((keeps_part .awaiting (by rfl) m).symm.trans hx)) nofun

theorem awaiting_of_stop {i : Instruction} {m m' : Machine} {stop : Stop} (hm : m.awaiting = none)
    (hr : i.effect.run m = .error stop m') : m'.awaiting = none := by
  cases hx : m'.awaiting with
  | none => rfl
  | some x =>
    obtain ⟨rfl, hk, -⟩ := awaiting_of_effect hm (left_of_error hr) hx
    rw [Instruction.effect, run_pollKey_of_none hk] at hr
    cases hr

end Work

end Chip8
