import Chip8.Instruction.Encode
import Chip8.Proofs.Refusal

/-!
# When an instruction is refused

Whether an instruction is refused, and with which fault, can be told from the machine before it runs
(`Instruction.refusal?`): a return and a call look at the depth of the stack, an indexed jump at its
target, and the instructions that read or write memory at the end of what they cover. An
instruction whose operands fit into a word, on a machine whose `I` is an address of twelve bits, is
refused just so and has then changed nothing, or it runs to its end (`answers_effect`). It never
stops without a meaning.
-/

namespace Chip8

/-! ## The fault of an instruction -/

/-- The number of bytes from `I` on that an instruction reads or writes. -/
def Instruction.span : Instruction → Nat
  | draw _ _ n => n.toNat
  | decimal _ => 3
  | store x | load x => x.toNat + 1
  | _ => 0

/-- The fault of an access to `n` bytes from the address `a` on, if it reaches past the end. -/
def Memory.refusal? (a n : Nat) : Option Fault :=
  if size < a + n then some (.outOfRange (UInt32.ofNat (a + n - 1))) else none

/-- The fault with which a machine refuses an instruction, if it does. -/
def Instruction.refusal? (i : Instruction) (m : Machine) : Option Fault :=
  match i with
  | ret => if m.stack.depth = 0 then some .stackUnderflow else none
  | call _ => if m.stack.depth = 16 then some .stackOverflow else none
  | jumpOffset a =>
    if 0xFFF < m.jumpTarget a then some (.outOfRange (UInt32.ofNat (m.jumpTarget a))) else none
  | draw _ _ _ | decimal _ | store _ | load _ => Memory.refusal? m.index.toNat i.span
  | _ => none

theorem Operand.toNat_lt_of_fits {x : UInt8} (h : (Operand.register x).Fits) : x.toNat < 16 :=
  UInt8.lt_iff_toNat_lt.mp h

theorem Operand.address_lt_of_fits {a : UInt16} (h : (Operand.address a).Fits) : a.toNat < 4096 :=
  UInt16.lt_iff_toNat_lt.mp h

theorem Machine.jumpTarget_le (m : Machine) {a : UInt16} (ha : a.toNat < 4096) :
    m.jumpTarget a ≤ 0x10FE := by
  have hvalue := m.registers[0].toNat_lt
  unfold jumpTarget
  omega

theorem Instruction.span_le (i : Instruction) : i.span ≤ 256 := by
  cases i with
  | draw x y n => exact Nat.le_of_lt n.toNat_lt
  | store x | load x => exact x.toNat_lt
  | _ => simp [span]

/-- The faults with which an instruction of a word is refused: an address that is out of range lies
not far beyond the end of memory. -/
theorem Instruction.refusal?_eq_some {i : Instruction} {m : Machine} {f : Fault}
    (ho : ∀ o ∈ i.operands, o.Fits) (hm : m.index ≤ 0xFFF) (h : i.refusal? m = some f) :
    f = .stackUnderflow ∨ f = .stackOverflow ∨
      ∃ k, f = .outOfRange (UInt32.ofNat k) ∧ 0x1000 ≤ k ∧ k ≤ 0x10FE := by
  have hindex : m.index.toNat ≤ 0xFFF := UInt16.le_iff_toNat_le.mp hm
  have haccess : ∀ n, n ≤ 256 → Memory.refusal? m.index.toNat n = some f →
      ∃ k, f = .outOfRange (UInt32.ofNat k) ∧ 0x1000 ≤ k ∧ k ≤ 0x10FE := by
    intro n hn hf
    unfold Memory.refusal? Memory.size at hf
    split at hf
    · cases hf
      exact ⟨_, rfl, by omega, by omega⟩
    · cases hf
  cases i with
  | ret =>
    simp only [refusal?] at h
    split at h <;> cases h
    exact .inl rfl
  | call a =>
    simp only [refusal?] at h
    split at h <;> cases h
    exact .inr (.inl rfl)
  | jumpOffset a =>
    have htarget := m.jumpTarget_le (Operand.address_lt_of_fits (ho _ (.head _)))
    simp only [refusal?] at h
    split at h
    · cases h
      exact .inr (.inr ⟨_, rfl, by omega, htarget⟩)
    · cases h
  | draw | decimal | store | load => exact .inr (.inr (haccess _ (span_le _) h))
  | _ => cases h

namespace Work

variable {α β : Type} {m : Machine} {o : Option Fault}

/-! ## Runs of the pieces that may stop -/

theorem run_register_of_lt {r : UInt8} (h : r.toNat < 16) :
    (register r).run m = .ok m.registers[r.toNat] m := by
  unfold register
  rw [EStateM.run_bind, EStateM.run_get]
  simp only [m.register?_of_lt h, orCrash_some]
  rfl

theorem run_leaveCall (m : Machine) :
    leaveCall.run m = match m.stack.pop? with
      | none => .error (.fault .stackUnderflow) m
      | some (a, s) => .ok () { m with stack := s, pc := a } := by
  unfold leaveCall
  rw [EStateM.run_bind, EStateM.run_get]
  cases h : m.stack.pop? with
  | none =>
    simp only [h]
    rfl
  | some top =>
    simp only [h]
    rfl

theorem run_enterCall (m : Machine) (a : UInt16) :
    (enterCall a).run m = match m.stack.push? m.pc with
      | none => .error (.fault .stackOverflow) m
      | some s => .ok () { m with stack := s, pc := a } := by
  unfold enterCall
  rw [EStateM.run_bind, EStateM.run_get]
  cases h : m.stack.push? m.pc with
  | none =>
    simp only [h]
    rfl
  | some s =>
    simp only [h]
    rfl

theorem toList_of_call {m' : Machine} {a : UInt16}
    (hr : (Instruction.call a).effect.run m = .ok () m') :
    m'.stack.toList = m.stack.toList ++ [m.pc] := by
  rw [Instruction.effect, run_enterCall] at hr
  cases hs : m.stack.push? m.pc with
  | none =>
    rw [hs] at hr
    cases hr
  | some s =>
    rw [hs] at hr
    cases hr
    exact Stack.toList_push hs

theorem toList_of_ret {m' : Machine} (hr : Instruction.ret.effect.run m = .ok () m') :
    m.stack.toList = m'.stack.toList ++ [m'.pc] := by
  rw [Instruction.effect, run_leaveCall] at hr
  cases hs : m.stack.pop? with
  | none =>
    rw [hs] at hr
    cases hr
  | some top =>
    rw [hs] at hr
    cases hr
    exact Stack.toList_pop hs

theorem run_jumpOffset (m : Machine) (a : UInt16) :
    (jumpOffset a).run m =
      if 0xFFFF < m.jumpTarget a then .error .crash m
      else if 0xFFF < m.jumpTarget a then
        .error (.fault (.outOfRange (UInt32.ofNat (m.jumpTarget a)))) m
      else .ok () { m with pc := UInt16.ofNat (m.jumpTarget a) } := by
  unfold jumpOffset
  rw [EStateM.run_bind, EStateM.run_get]
  simp only
  split
  · rfl
  · split <;> rfl

theorem run_advanceIndex {x : UInt8} (h : x.toNat < 16) :
    (advanceIndex x).run m =
      let sum := m.index.toNat + m.registers[x.toNat].toNat
      if 0xFFFF < sum then .error .crash m
      else .ok () { m with index := UInt16.ofNat (sum % 4096) } := by
  unfold advanceIndex
  rw [EStateM.run_bind, run_register_of_lt h]
  simp only
  rw [EStateM.run_bind, EStateM.run_get]
  simp only
  split <;> rfl

theorem run_storeDecimal {x : UInt8} (hx : x.toNat < 16)
    (h : m.index.toNat + 3 ≤ Memory.size) :
    (storeDecimal x).run m = .ok () { m with
      memory := m.memory.overlay m.index.toNat (decimalDigits m.registers[x.toNat]) } := by
  have hcheck : Memory.check m.index.toNat (decimalDigits m.registers[x.toNat]).length = .ok () :=
    Memory.check_of_le h
  unfold storeDecimal
  rw [EStateM.run_bind, run_register_of_lt hx]
  simp only [EStateM.run_bind, EStateM.run_get, Memory.write, hcheck]
  rfl

theorem run_storeRegisters {x : UInt8} (hx : x.toNat < 16)
    (h : m.index.toNat + (x.toNat + 1) ≤ Memory.size) :
    (storeRegisters x).run m = .ok () { m with
      memory := m.memory.overlay m.index.toNat (m.registers.toList.take (x.toNat + 1)) } := by
  have hread : m.firstRegisters? (x.toNat + 1) = some (m.registers.toList.take (x.toNat + 1)) :=
    if_pos hx
  unfold storeRegisters
  simp only [EStateM.run_bind, EStateM.run_get, Memory.check_of_le h, orRefuse_ok, EStateM.run_pure,
    hread, orCrash_some]
  rfl

/-! ## Work that ends -/

/-- `w` runs to its end on every machine. -/
def Ends (w : Work α) : Prop := ∀ m, ∃ a m', w.run m = .ok a m'

namespace Ends

theorem pure (a : α) : Ends (Pure.pure a : Work α) := fun m => ⟨a, m, rfl⟩

theorem get : Ends (get : Work Machine) := fun m => ⟨m, m, rfl⟩

theorem modify (g : Machine → Machine) : Ends (modify g : Work PUnit) := fun m => ⟨⟨⟩, g m, rfl⟩

theorem bind {x : Work α} {g : α → Work β} (hx : Ends x) (hg : ∀ a, Ends (g a)) :
    Ends (x >>= g) := by
  intro m
  obtain ⟨a, m₁, hr⟩ := hx m
  obtain ⟨b, m₂, hs⟩ := hg a m₁
  refine ⟨b, m₂, ?_⟩
  rw [EStateM.run_bind, hr]
  exact hs

theorem register {r : UInt8} (h : r.toNat < 16) : Ends (register r) :=
  fun m => ⟨_, m, run_register_of_lt h⟩

theorem put {r : UInt8} (h : r.toNat < 16) (v : UInt8) : Ends (put r v) := by
  intro m
  rw [run_put, dif_pos h]
  exact ⟨_, _, rfl⟩

theorem putFlag (b : Bool) : Ends (putFlag b) := modify _

theorem putWithFlag {r : UInt8} (h : r.toNat < 16) (v : UInt8) (b : Bool) :
    Ends (putWithFlag r v b) := bind (put h v) fun _ => putFlag b

variable {x y : UInt8}

theorem shiftOperand (hx : x.toNat < 16) (hy : y.toNat < 16) : Ends (shiftOperand x y) := by
  refine bind get fun m => ?_
  cases m.dialect.shiftSource with
  | vx => exact register hx
  | vy => exact register hy

theorem combine (g : UInt8 → UInt8 → UInt8) (hx : x.toNat < 16) (hy : y.toNat < 16) :
    Ends (combine g x y) :=
  bind (register hx) fun _ => bind (register hy) fun _ => put hx _

theorem combineWithFlag (g : UInt8 → UInt8 → UInt8) (c : UInt8 → UInt8 → Bool)
    (hx : x.toNat < 16) (hy : y.toNat < 16) : Ends (combineWithFlag g c x y) :=
  bind (register hx) fun _ => bind (register hy) fun _ => putWithFlag hx _ _

theorem putRandom (hx : x.toNat < 16) (n : UInt8) : Ends (putRandom x n) :=
  bind get fun _ => bind (modify _) fun _ => put hx _

theorem pollKey (hx : x.toNat < 16) : Ends (pollKey x) := by
  refine bind get fun m => ?_
  cases m.keypad.takeFirst? with
  | none => exact modify _
  | some found => exact bind (modify _) fun _ => put hx _

theorem skipIf (c : Bool) : Ends (skipIf c) := modify _

theorem skipBy (c : UInt8 → UInt8 → Bool) (hx : x.toNat < 16) (hy : y.toNat < 16) :
    Ends (skipBy c x y) :=
  bind (register hx) fun _ => bind (register hy) fun _ => skipIf _

end Ends

/-! ## Work that is refused or ends -/

/-- On `m` the work `w` is refused with the fault `o` and has changed nothing, or it ends if there
is no such fault. -/
def Answers (w : Work α) (m : Machine) : Option Fault → Prop
  | some f => w.run m = .error (.fault f) m
  | none => ∃ a m', w.run m = .ok a m'

namespace Answers

theorem of_ends {w : Work α} (h : Ends w) : Answers w m none := h m

theorem congr {w w' : Work α} (hrun : w.run m = w'.run m) (h : Answers w' m o) :
    Answers w m o := by
  unfold Answers at h ⊢
  rw [hrun]
  exact h

theorem bind {x : Work α} {g : α → Work β} {a : α} (hx : x.run m = .ok a m)
    (hg : Answers (g a) m o) : Answers (x >>= g) m o := by
  refine congr ?_ hg
  rw [EStateM.run_bind, hx]

theorem get {g : Machine → Work β} (hg : Answers (g m) m o) : Answers (get >>= g) m o :=
  bind (EStateM.run_get m) hg

theorem access {γ : Type} {a n : Nat} {h : Unit → β} {g : β → Work γ} (hg : Ends (g (h ()))) :
    Answers (orRefuse ((Memory.check a n).map h) >>= g) m (Memory.refusal? a n) := by
  unfold Memory.refusal?
  split
  · rename_i hlt
    rw [Memory.check_of_lt hlt]
    rfl
  · rename_i hle
    rw [Memory.check_of_le (Nat.le_of_not_lt hle)]
    exact hg m

theorem fits_of_ok {w : Work α} {m' : Machine} {a n : Nat} {u : α}
    (h : Answers w m (Memory.refusal? a n)) (hr : w.run m = .ok u m') : a + n ≤ Memory.size := by
  unfold Memory.refusal? at h
  split at h
  · cases h.symm.trans hr
  · omega

theorem readBytes {n : Nat} {g : List UInt8 → Work β} (hg : ∀ vs, vs.length = n → Ends (g vs)) :
    Answers (readBytes n >>= g) m (Memory.refusal? m.index.toNat n) := by
  have hassoc : (Work.readBytes n >>= g).run m =
      (orRefuse (m.memory.read m.index.toNat n) >>= g).run m := rfl
  refine congr hassoc (access (hg _ ?_))
  simp

variable {x y n : UInt8}

theorem drawSprite (hx : x.toNat < 16) (hy : y.toNat < 16) :
    Answers (drawSprite x y n) m (Memory.refusal? m.index.toNat n.toNat) := by
  refine bind (run_register_of_lt hx) (bind (run_register_of_lt hy) (readBytes fun _ _ => ?_))
  exact .bind (.putFlag _) fun _ => .bind .get fun _ => .bind (.modify _) fun _ => .putFlag _

theorem storeDecimal (hx : x.toNat < 16) :
    Answers (storeDecimal x) m (Memory.refusal? m.index.toNat 3) :=
  bind (run_register_of_lt hx) (get (access (.modify _)))

theorem storeRegisters (hx : x.toNat < 16) :
    Answers (storeRegisters x) m (Memory.refusal? m.index.toNat (x.toNat + 1)) := by
  have hread : m.firstRegisters? (x.toNat + 1) = some (m.registers.toList.take (x.toNat + 1)) :=
    if_pos hx
  have hends : Ends (orCrash (m.firstRegisters? (x.toNat + 1)) >>= fun vs =>
      modify fun m : Machine => { m with memory := m.memory.overlay m.index.toNat vs }) := by
    rw [hread]
    exact .bind (.pure _) fun _ => .modify _
  have hcheck : Memory.check m.index.toNat (x.toNat + 1) =
      (Memory.check m.index.toNat (x.toNat + 1)).map id := by
    cases Memory.check m.index.toNat (x.toNat + 1) <;> rfl
  refine get ?_
  rw [hcheck]
  exact access hends

theorem loadRegisters (hx : x.toNat < 16) :
    Answers (loadRegisters x) m (Memory.refusal? m.index.toNat (x.toNat + 1)) := by
  refine readBytes fun vs hl m => ?_
  have hfit : vs.length ≤ 16 := hl ▸ hx
  rw [EStateM.run_bind, EStateM.run_get]
  simp only [Machine.setFirstRegisters?, hfit, if_true]
  exact ⟨_, _, rfl⟩

end Answers

variable {i : Instruction}

/-- Of the instructions that are never refused, `addIndex` alone may stop, which depends on `I`. -/
theorem ends_effect (hi : i.fallible = false) (hx : ∀ x, i ≠ .addIndex x)
    (hr : ∀ r, Operand.register r ∈ i.operands → r.toNat < 16) : Ends i.effect := by
  cases i with
  | ret | call | jumpOffset | draw | decimal | store | load => cases hi
  | addIndex x => exact absurd rfl (hx x)
  | sys a => exact .pure _
  | clearScreen => exact .modify _
  | jump a => exact .modify _
  | skipEqByte x n => exact .bind (.register (hr x (.head _))) fun _ => .skipIf _
  | skipNeByte x n => exact .bind (.register (hr x (.head _))) fun _ => .skipIf _
  | skipEq x y => exact .skipBy _ (hr x (.head _)) (hr y (.tail _ (.head _)))
  | skipNe x y => exact .skipBy _ (hr x (.head _)) (hr y (.tail _ (.head _)))
  | setByte x n => exact .put (hr x (.head _)) n
  | addByte x n => exact .bind (.register (hr x (.head _))) fun _ => .put (hr x (.head _)) _
  | copy x y =>
    exact .bind (.register (hr y (.tail _ (.head _)))) fun _ => .put (hr x (.head _)) _
  | bitOr x y => exact .combine _ (hr x (.head _)) (hr y (.tail _ (.head _)))
  | bitAnd x y => exact .combine _ (hr x (.head _)) (hr y (.tail _ (.head _)))
  | bitXor x y => exact .combine _ (hr x (.head _)) (hr y (.tail _ (.head _)))
  | add x y => exact .combineWithFlag _ _ (hr x (.head _)) (hr y (.tail _ (.head _)))
  | sub x y => exact .combineWithFlag _ _ (hr x (.head _)) (hr y (.tail _ (.head _)))
  | subFrom x y => exact .combineWithFlag _ _ (hr x (.head _)) (hr y (.tail _ (.head _)))
  | shiftRight x y =>
    exact .bind (.shiftOperand (hr x (.head _)) (hr y (.tail _ (.head _)))) fun _ =>
      .putWithFlag (hr x (.head _)) _ _
  | shiftLeft x y =>
    exact .bind (.shiftOperand (hr x (.head _)) (hr y (.tail _ (.head _)))) fun _ =>
      .putWithFlag (hr x (.head _)) _ _
  | setIndex a => exact .modify _
  | random x n => exact .putRandom (hr x (.head _)) n
  | skipPressed x =>
    exact .bind (.register (hr x (.head _))) fun _ => .bind .get fun _ => .skipIf _
  | skipReleased x =>
    exact .bind (.register (hr x (.head _))) fun _ => .bind .get fun _ => .skipIf _
  | getDelay x => exact .bind .get fun _ => .put (hr x (.head _)) _
  | awaitKey x => exact .pollKey (hr x (.head _))
  | setDelay x => exact .bind (.register (hr x (.head _))) fun _ => .modify _
  | setSound x => exact .bind (.register (hr x (.head _))) fun _ => .modify _
  | glyph x => exact .bind (.register (hr x (.head _))) fun _ => .modify _

theorem answers_advanceIndex {x : UInt8} (hx : x.toNat < 16) (hm : m.index ≤ 0xFFF) :
    Answers (advanceIndex x) m none := by
  have hindex : m.index.toNat ≤ 0xFFF := UInt16.le_iff_toNat_le.mp hm
  have hvalue := m.registers[x.toNat].toNat_lt
  -- An `I` of twelve bits leaves room for any byte in sixteen.
  exact ⟨_, _, (run_advanceIndex hx).trans (if_neg (by omega))⟩

theorem answers_jumpOffset {a : UInt16} (ha : a.toNat < 4096) :
    Answers (jumpOffset a) m ((Instruction.jumpOffset a).refusal? m) := by
  have htarget := m.jumpTarget_le ha
  have hrun := run_jumpOffset m a
  have hfit : ¬ 0xFFFF < m.jumpTarget a := by omega
  simp only [hfit, if_false] at hrun
  simp only [Instruction.refusal?]
  split at hrun
  · rename_i hlt
    rw [if_pos hlt]
    exact hrun
  · rename_i hle
    rw [if_neg hle]
    exact ⟨_, _, hrun⟩

theorem answers_leaveCall (m : Machine) : Answers leaveCall m (Instruction.ret.refusal? m) := by
  have hrun := run_leaveCall m
  simp only [Instruction.refusal?]
  split
  · rename_i hd
    rw [Stack.pop?_eq_none_iff.mpr hd] at hrun
    exact hrun
  · rename_i hd
    cases hp : m.stack.pop? with
    | none => exact absurd (Stack.pop?_eq_none_iff.mp hp) hd
    | some top =>
      rw [hp] at hrun
      exact ⟨_, _, hrun⟩

theorem answers_enterCall (m : Machine) (a : UInt16) :
    Answers (enterCall a) m ((Instruction.call a).refusal? m) := by
  have hrun := run_enterCall m a
  simp only [Instruction.refusal?]
  split
  · rename_i hd
    rw [Stack.push?_eq_none_iff.mpr hd] at hrun
    exact hrun
  · rename_i hd
    cases hp : m.stack.push? m.pc with
    | none => exact absurd (Stack.push?_eq_none_iff.mp hp) hd
    | some s =>
      rw [hp] at hrun
      exact ⟨_, _, hrun⟩

/-- An instruction whose operands fit into a word is refused with its fault, or it runs to its
end. -/
theorem answers_effect (ho : ∀ o ∈ i.operands, o.Fits) (hm : m.index ≤ 0xFFF) :
    Answers i.effect m (i.refusal? m) := by
  have hr : ∀ r, Operand.register r ∈ i.operands → r.toNat < 16 :=
    fun r h => Operand.toNat_lt_of_fits (ho _ h)
  cases i with
  | ret => exact answers_leaveCall m
  | call a => exact answers_enterCall m a
  | jumpOffset a => exact answers_jumpOffset (Operand.address_lt_of_fits (ho _ (.head _)))
  | addIndex x => exact answers_advanceIndex (hr x (.head _)) hm
  | draw x y n => exact .drawSprite (hr x (.head _)) (hr y (.tail _ (.head _)))
  | decimal x => exact .storeDecimal (hr x (.head _))
  | store x => exact .storeRegisters (hr x (.head _))
  | load x => exact .loadRegisters (hr x (.head _))
  | _ => exact .of_ends (ends_effect rfl nofun hr)

theorem refusal?_of_stop {m' : Machine} {stop : Stop} (ho : ∀ o ∈ i.operands, o.Fits)
    (hm : m.index ≤ 0xFFF) (hr : i.effect.run m = .error stop m') :
    ∃ f, stop = .fault f ∧ i.refusal? m = some f := by
  have hanswers := answers_effect ho hm
  cases hf : i.refusal? m with
  | none =>
    rw [hf] at hanswers
    obtain ⟨a, m₁, hok⟩ := hanswers
    rw [hr] at hok
    cases hok
  | some f =>
    rw [hf] at hanswers
    cases hr.symm.trans hanswers
    exact ⟨f, rfl, rfl⟩

theorem refusal?_of_ok {m' : Machine} {u : Unit} (ho : ∀ o ∈ i.operands, o.Fits)
    (hm : m.index ≤ 0xFFF) (hr : i.effect.run m = .ok u m') : i.refusal? m = none := by
  have hanswers := answers_effect ho hm
  cases hf : i.refusal? m with
  | none => rfl
  | some f =>
    rw [hf] at hanswers
    cases hr.symm.trans hanswers

end Work

end Chip8
