import Chip8.Machine.Turn
import Chip8.Proofs.Work

/-!
# Two machines side by side

Two machines that agree on all that an instruction uses come to the same when they run it, and what
the instruction does not use stays as different as it was. `R` is any relation between such machines.
A part of the machine is common to them (`Part.Common`) if related machines hold the same there and
stay related when the same is put there. `Alike R w` says that the work `w` comes to the same on
related machines and leaves related machines. It is closed under the ways in which work is put
together, and holds of each instruction that uses common parts only (`alike_effect`).
-/

namespace Chip8

/-- The machine with another content of a part. -/
def Part.put : (p : Part) → Machine → p.Content → Machine
  | registers, m, v => { m with registers := v }
  | index, m, v => { m with index := v }
  | pc, m, v => { m with pc := v }
  | stack, m, v => { m with stack := v }
  | delay, m, v => { m with delay := v }
  | sound, m, v => { m with sound := v }
  | keypad, m, v => { m with keypad := v }
  | awaiting, m, v => { m with awaiting := v }
  | generator, m, v => { m with generator := v }
  | display, m, v => { m with display := v }
  | memory, m, v => { m with memory := v }

/-- Related machines hold the same in a part, and stay related when the same is put there. -/
structure Part.Common (R : Machine → Machine → Prop) (p : Part) : Prop where
  same : ∀ {m m' : Machine}, R m m' → p.content m = p.content m'
  put : ∀ {m m' : Machine} (v : p.Content), R m m' → R (p.put m v) (p.put m' v)

theorem Part.Common.put_congr {R : Machine → Machine → Prop} {p : Part} (hp : p.Common R)
    {m m' : Machine} {v v' : p.Content} (h : R m m') (hv : v = v') : R (p.put m v) (p.put m' v') :=
  hv ▸ hp.put v h

theorem Part.Common.screen {R : Machine → Machine → Prop} (hd : Part.display.Common R)
    {m m' : Machine} (h : R m m') : m.display.screen = m'.display.screen :=
  congrArg Display.screen (hd.same h)

/-- The machine with bytes written from `I` on. -/
def Machine.overlaid (m : Machine) (vs : List UInt8) : Machine :=
  { m with memory := m.memory.overlay m.index.toNat vs }

theorem Part.Common.overlaid {R : Machine → Machine → Prop} (hi : Part.index.Common R)
    (hm : Part.memory.Common R) {m m' : Machine} (vs : List UInt8) (h : R m m') :
    R (m.overlaid vs) (m'.overlaid vs) := by
  have hindex : m.index = m'.index := hi.same h
  have hmemory : m.memory = m'.memory := hm.same h
  exact hm.put_congr h (by rw [hindex, hmemory])

/-- The parts that the effect of an instruction reads or changes. -/
def Instruction.uses : Instruction → List Part
  | sys _ => []
  | clearScreen => [.display]
  | ret | call _ => [.stack, .pc]
  | jump _ => [.pc]
  | jumpOffset _ | skipEqByte _ _ | skipNeByte _ _ | skipEq _ _ | skipNe _ _ => [.registers, .pc]
  | skipPressed _ | skipReleased _ => [.registers, .keypad, .pc]
  | setByte _ _ | addByte _ _ | copy _ _ | bitOr _ _ | bitAnd _ _ | bitXor _ _ | add _ _ | sub _ _
  | shiftRight _ _ | subFrom _ _ | shiftLeft _ _ => [.registers]
  | setIndex _ => [.index]
  | addIndex _ | glyph _ => [.registers, .index]
  | random _ _ => [.generator, .registers]
  | draw _ _ _ => [.registers, .index, .memory, .display]
  | awaitKey _ => [.keypad, .registers, .pc, .awaiting]
  | getDelay _ | setDelay _ => [.registers, .delay]
  | setSound _ => [.registers, .sound]
  | decimal _ | store _ | load _ => [.registers, .index, .memory]

/-- Whether the effect of an instruction depends on the dialect. -/
def Instruction.shifts : Instruction → Bool
  | shiftRight _ _ | shiftLeft _ _ => true
  | _ => false

namespace Work

variable {α β : Type} {R : Machine → Machine → Prop}

/-- Two runs came to the same and left related machines. -/
inductive Match (R : Machine → Machine → Prop) :
    EStateM.Result Stop Machine α → EStateM.Result Stop Machine α → Prop
  | ok {m m' : Machine} (a : α) (h : R m m') : Match R (.ok a m) (.ok a m')
  | error {m m' : Machine} (stop : Stop) (h : R m m') : Match R (.error stop m) (.error stop m')

theorem Match.mono {R' : Machine → Machine → Prop} (hR : ∀ {m m' : Machine}, R' m m' → R m m')
    {r r' : EStateM.Result Stop Machine α} (h : Match R' r r') : Match R r r' := by
  cases h with
  | ok a h => exact .ok a (hR h)
  | error stop h => exact .error stop (hR h)

/-- `w` comes to the same on related machines and leaves related machines. -/
def Alike (R : Machine → Machine → Prop) (w : Work α) : Prop :=
  ∀ m m' : Machine, R m m' → Match R (w.run m) (w.run m')

namespace Alike

theorem pure (a : α) : Alike R (Pure.pure a : Work α) := fun _ _ h => .ok a h

theorem refuse (f : Fault) : Alike R (refuse f : Work α) := fun _ _ h => .error _ h

theorem crash : Alike R (crash : Work α) := fun _ _ h => .error _ h

theorem modify {g : Machine → Machine} (hg : ∀ {m m' : Machine}, R m m' → R (g m) (g m')) :
    Alike R (modify g : Work PUnit) := fun _ _ h => .ok _ (hg h)

theorem bind {x : Work α} {g : α → Work β} (hx : Alike R x) (hg : ∀ a, Alike R (g a)) :
    Alike R (x >>= g) := by
  intro m m' h
  have hm := hx m m' h
  rw [EStateM.run_bind, EStateM.run_bind]
  generalize x.run m = r, x.run m' = r' at hm
  cases hm with
  | ok a h => exact hg a _ _ h
  | error stop h => exact .error stop h

theorem get_bind {k : Machine → Work β} (hsame : ∀ {m m' : Machine}, R m m' → k m = k m')
    (hk : ∀ m, Alike R (k m)) : Alike R (get >>= k) := by
  intro m m' h
  rw [EStateM.run_bind, EStateM.run_bind, EStateM.run_get, EStateM.run_get]
  simp only
  rw [← hsame h]
  exact hk m m m' h

theorem ite {c : Prop} [Decidable c] {x y : Work α} (hx : Alike R x) (hy : Alike R y) :
    Alike R (if c then x else y) := by
  split
  · exact hx
  · exact hy

theorem orCrash (o : Option α) : Alike R (orCrash o) := by
  cases o with
  | none => exact crash
  | some a => exact pure a

theorem orRefuse (e : Except Fault α) : Alike R (orRefuse e) := by
  cases e with
  | error f => exact refuse f
  | ok a => exact pure a

/-! ## The pieces of an instruction -/

section Registers

variable (hr : Part.registers.Common R)
include hr

theorem register (r : UInt8) : Alike R (register r) := by
  refine get_bind (fun {m m'} h => ?_) fun _ => orCrash _
  have hsame : m.registers = m'.registers := hr.same h
  simp only [Machine.register?, hsame]

theorem put (r v : UInt8) : Alike R (put r v) := by
  intro m m' h
  have hsame : m.registers = m'.registers := hr.same h
  rw [run_put, run_put]
  split
  · exact .ok () (hr.put_congr h (by rw [hsame]))
  · exact .error _ h

theorem putFlag (b : Bool) : Alike R (putFlag b) := by
  refine modify fun {m m'} h => ?_
  have hsame : m.registers = m'.registers := hr.same h
  exact hr.put_congr h (by rw [hsame])

theorem putWithFlag (r v : UInt8) (b : Bool) : Alike R (putWithFlag r v b) :=
  bind (put hr r v) fun _ => putFlag hr b

theorem combine (g : UInt8 → UInt8 → UInt8) (x y : UInt8) : Alike R (combine g x y) :=
  bind (register hr x) fun _ => bind (register hr y) fun _ => put hr _ _

theorem combineWithFlag (g : UInt8 → UInt8 → UInt8) (c : UInt8 → UInt8 → Bool) (x y : UInt8) :
    Alike R (combineWithFlag g c x y) :=
  bind (register hr x) fun _ => bind (register hr y) fun _ => putWithFlag hr _ _ _

theorem shiftOperand (hd : ∀ {m m' : Machine}, R m m' → m.dialect = m'.dialect) (x y : UInt8) :
    Alike R (shiftOperand x y) := by
  refine get_bind (fun h => ?_) fun m => ?_
  · simp only [hd h]
  · cases m.dialect.shiftSource with
    | vx => exact register hr x
    | vy => exact register hr y

theorem putRandom (hg : Part.generator.Common R) (x n : UInt8) : Alike R (putRandom x n) := by
  refine get_bind (fun {m m'} h => ?_) fun m => ?_
  · have hsame : m.generator = m'.generator := hg.same h
    simp only [hsame]
  · exact bind (modify fun h => hg.put _ h) fun _ => put hr _ _

end Registers

section Jumps

variable (hp : Part.pc.Common R)
include hp

theorem goTo (a : UInt16) : Alike R (goTo a) := modify fun h => hp.put a h

theorem skipIf (c : Bool) : Alike R (skipIf c) := by
  refine modify fun {m m'} h => ?_
  have hsame : m.pc = m'.pc := hp.same h
  cases c with
  | false => exact h
  | true => exact hp.put_congr h (congrArg (· + 2) hsame)

theorem skipBy (hr : Part.registers.Common R) (c : UInt8 → UInt8 → Bool) (x y : UInt8) :
    Alike R (skipBy c x y) :=
  bind (register hr x) fun _ => bind (register hr y) fun _ => skipIf hp _

theorem leaveCall (hs : Part.stack.Common R) : Alike R leaveCall := by
  refine get_bind (fun {m m'} h => ?_) fun m => ?_
  · have hsame : m.stack = m'.stack := hs.same h
    rw [hsame]
  · cases m.stack.pop? with
    | none => exact refuse _
    | some top => exact bind (modify fun h => hs.put _ h) fun _ => goTo hp _

theorem enterCall (hs : Part.stack.Common R) (a : UInt16) : Alike R (enterCall a) := by
  refine get_bind (fun {m m'} h => ?_) fun m => ?_
  · have hstack : m.stack = m'.stack := hs.same h
    have hpc : m.pc = m'.pc := hp.same h
    rw [hstack, hpc]
  · cases m.stack.push? m.pc with
    | none => exact refuse _
    | some s => exact bind (modify fun h => hs.put _ h) fun _ => goTo hp _

theorem jumpOffset (hr : Part.registers.Common R) (a : UInt16) : Alike R (jumpOffset a) := by
  refine get_bind (fun {m m'} h => ?_) fun m => ite crash (ite (refuse _) (goTo hp _))
  have hsame : m.registers = m'.registers := hr.same h
  have htarget : m.jumpTarget a = m'.jumpTarget a := by
    rw [Machine.jumpTarget, hsame]
    rfl
  rw [htarget]

theorem pollKey (hr : Part.registers.Common R) (hk : Part.keypad.Common R)
    (ha : Part.awaiting.Common R) (x : UInt8) : Alike R (pollKey x) := by
  refine get_bind (fun {m m'} h => ?_) fun m => ?_
  · have hsame : m.keypad = m'.keypad := hk.same h
    rw [hsame]
  · cases m.keypad.takeFirst? with
    | some found => exact bind (modify fun h => hk.put _ h) fun _ => put hr _ _
    | none =>
      refine modify fun {m m'} h => ?_
      have hsame : m.pc = m'.pc := hp.same h
      have hback := hp.put_congr h (congrArg (· - 2) hsame)
      exact ha.put (some x) hback

end Jumps

section Index

variable (hr : Part.registers.Common R) (hi : Part.index.Common R)
include hr hi

theorem advanceIndex (x : UInt8) : Alike R (advanceIndex x) := by
  refine bind (register hr x) fun v => get_bind (fun {m m'} h => ?_) fun m => ?_
  · have hsame : m.index = m'.index := hi.same h
    simp only [hsame]
  · exact ite crash (modify fun h => hi.put _ h)

variable (hm : Part.memory.Common R)
include hm

omit hr in
theorem readBytes (n : Nat) : Alike R (readBytes n) := by
  refine get_bind (fun {m m'} h => ?_) fun m => orRefuse _
  have hindex : m.index = m'.index := hi.same h
  have hmemory : m.memory = m'.memory := hm.same h
  rw [hindex, hmemory]

end Index

section Memory

variable (hr : Part.registers.Common R)
include hr

/-- What is drawn depends on the screen, and not on whether a redraw is asked for already. -/
theorem drawSprite (hs : ∀ {m m' : Machine}, R m m' → m.display.screen = m'.display.screen)
    (hd : ∀ {m m' : Machine} (d : Display), R m m' →
      R { m with display := d } { m' with display := d })
    {n : UInt8} (hread : Alike R (Work.readBytes n.toNat)) (x y : UInt8) :
    Alike R (drawSprite x y n) := by
  refine bind (register hr x) fun _ => bind (register hr y) fun _ => bind hread fun _ =>
    bind (putFlag hr _) fun _ => get_bind (fun {m m'} h => ?_) fun m => ?_
  · simp only [Display.draw, hs h]
  · exact bind (modify fun h => hd _ h) fun _ => putFlag hr _

theorem loadRegisters {x : UInt8} (hread : Alike R (Work.readBytes (x.toNat + 1))) :
    Alike R (loadRegisters x) := by
  refine bind hread fun vs => ?_
  intro m m' h
  have hsame : m.registers = m'.registers := hr.same h
  rw [EStateM.run_bind, EStateM.run_bind, EStateM.run_get, EStateM.run_get]
  by_cases hl : vs.length ≤ 16
  · simp only [Machine.setFirstRegisters?, if_pos hl, orCrash_some]
    exact .ok () (hr.put_congr h (by rw [hsame]))
  · simp only [Machine.setFirstRegisters?, if_neg hl, orCrash_none]
    exact .error _ h

variable (hi : Part.index.Common R)
  (hwrite : ∀ {m m' : Machine} (vs : List UInt8), R m m' → R (m.overlaid vs) (m'.overlaid vs))
include hi hwrite

theorem storeDecimal (x : UInt8) : Alike R (storeDecimal x) := by
  refine bind (register hr x) fun v => ?_
  intro m m' h
  have hindex : m.index = m'.index := hi.same h
  have hcheck : Memory.check m'.index.toNat (decimalDigits v).length =
      Memory.check m.index.toNat (decimalDigits v).length := by rw [hindex]
  rw [EStateM.run_bind, EStateM.run_bind, EStateM.run_get, EStateM.run_get]
  simp only [Memory.write, hcheck]
  cases Memory.check m.index.toNat (decimalDigits v).length with
  | error f => exact .error _ h
  | ok u => exact .ok () (hwrite _ h)

theorem storeRegisters (x : UInt8) : Alike R (storeRegisters x) := by
  refine get_bind (fun {m m'} h => ?_) fun m => ?_
  · have hindex : m.index = m'.index := hi.same h
    have hregisters : m.registers = m'.registers := hr.same h
    simp only [Machine.firstRegisters?, hindex, hregisters]
  · exact bind (orRefuse _) fun _ => bind (orCrash _) fun vs => modify fun h => hwrite vs h

end Memory

end Alike

/-! ## The instructions -/

/-- An instruction that uses common parts only comes to the same on related machines. -/
theorem alike_effect (i : Instruction) (h : ∀ p, i.uses.contains p → p.Common R)
    (hd : i.shifts → ∀ {m m' : Machine}, R m m' → m.dialect = m'.dialect) : Alike R i.effect := by
  cases i with
  | sys a => exact .pure _
  | clearScreen =>
    have hclear : ∀ d d' : Display, d.clear = d'.clear := fun _ _ => rfl
    exact .modify fun hm => (h .display rfl).put_congr hm (hclear _ _)
  | ret => exact .leaveCall (h .pc rfl) (h .stack rfl)
  | call a => exact .enterCall (h .pc rfl) (h .stack rfl) a
  | jump a => exact .goTo (h .pc rfl) a
  | jumpOffset a => exact .jumpOffset (h .pc rfl) (h .registers rfl) a
  | skipEqByte x n => exact .bind (.register (h .registers rfl) x) fun _ => .skipIf (h .pc rfl) _
  | skipNeByte x n => exact .bind (.register (h .registers rfl) x) fun _ => .skipIf (h .pc rfl) _
  | skipEq x y => exact .skipBy (h .pc rfl) (h .registers rfl) _ x y
  | skipNe x y => exact .skipBy (h .pc rfl) (h .registers rfl) _ x y
  | skipPressed x | skipReleased x =>
    refine .bind (.register (h .registers rfl) x) fun _ =>
      .get_bind (fun {m m'} hm => ?_) fun _ => .skipIf (h .pc rfl) _
    have hsame : m.keypad = m'.keypad := (h .keypad rfl).same hm
    rw [hsame]
  | setByte x n => exact .put (h .registers rfl) x n
  | addByte x n => exact .bind (.register (h .registers rfl) x) fun _ => .put (h .registers rfl) x _
  | copy x y => exact .bind (.register (h .registers rfl) y) fun _ => .put (h .registers rfl) x _
  | bitOr x y => exact .combine (h .registers rfl) _ x y
  | bitAnd x y => exact .combine (h .registers rfl) _ x y
  | bitXor x y => exact .combine (h .registers rfl) _ x y
  | add x y => exact .combineWithFlag (h .registers rfl) _ _ x y
  | sub x y => exact .combineWithFlag (h .registers rfl) _ _ x y
  | subFrom x y => exact .combineWithFlag (h .registers rfl) _ _ x y
  | shiftRight x y | shiftLeft x y =>
    exact .bind (.shiftOperand (h .registers rfl) (hd rfl) x y) fun _ =>
      .putWithFlag (h .registers rfl) x _ _
  | setIndex a => exact .modify fun hm => (h .index rfl).put a hm
  | addIndex x => exact .advanceIndex (h .registers rfl) (h .index rfl) x
  | glyph x =>
    exact .bind (.register (h .registers rfl) x) fun _ => .modify fun hm => (h .index rfl).put _ hm
  | random x n => exact .putRandom (h .registers rfl) (h .generator rfl) x n
  | draw x y n =>
    exact .drawSprite (h .registers rfl) (h .display rfl).screen (h .display rfl).put
      (.readBytes (h .index rfl) (h .memory rfl) _) x y
  | awaitKey x =>
    exact .pollKey (h .pc rfl) (h .registers rfl) (h .keypad rfl) (h .awaiting rfl) x
  | getDelay x =>
    refine .get_bind (fun {m m'} hm => ?_) fun _ => .put (h .registers rfl) x _
    have hsame : m.delay = m'.delay := (h .delay rfl).same hm
    rw [hsame]
  | setDelay x =>
    exact .bind (.register (h .registers rfl) x) fun _ => .modify fun hm => (h .delay rfl).put _ hm
  | setSound x =>
    exact .bind (.register (h .registers rfl) x) fun _ => .modify fun hm => (h .sound rfl).put _ hm
  | decimal x =>
    exact .storeDecimal (h .registers rfl) (h .index rfl) ((h .index rfl).overlaid (h .memory rfl)) x
  | store x =>
    exact .storeRegisters (h .registers rfl) (h .index rfl)
      ((h .index rfl).overlaid (h .memory rfl)) x
  | load x =>
    exact .loadRegisters (h .registers rfl) (.readBytes (h .index rfl) (h .memory rfl) _)

variable {i : Instruction}

theorem Alike.perform (hi : Alike R i.effect) (ha : Part.awaiting.Common R) :
    Alike R (perform i) := .bind (.modify fun h => ha.put none h) fun _ => hi

theorem Match.advance (hp : Part.pc.Common R) {m m' : Machine} (h : R m m')
    (hi : Match R ((perform i).run m.pastInstruction) ((perform i).run m'.pastInstruction)) :
    Match R ((Work.advance i).run m) ((Work.advance i).run m') := by
  have hsame : m.pc = m'.pc := hp.same h
  simp only [EStateM.run, Work.advance] at hi ⊢
  generalize Work.perform i m.pastInstruction = r, Work.perform i m'.pastInstruction = r' at hi ⊢
  cases hi with
  | ok a h => exact .ok () h
  | error stop h => exact .error stop (hp.put_congr h hsame)

theorem Alike.advance (hi : Alike R i.effect) (ha : Part.awaiting.Common R)
    (hp : Part.pc.Common R) : Alike R (advance i) := by
  intro m m' h
  have hsame : m.pc = m'.pc := hp.same h
  have hpast : R m.pastInstruction m'.pastInstruction :=
    hp.put_congr h (congrArg (· + 2) hsame)
  exact .advance hp h (hi.perform ha _ _ hpast)

end Work

end Chip8
