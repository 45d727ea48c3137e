import Chip8.Proofs.CallStack
import Chip8.Proofs.KeyWait
import Chip8.Proofs.Safety

/-!
# The addresses of a run from memory

Where instructions come from memory alone, an instruction is run only if both of its bytes lie in
memory. So the program counter gets two instructions past the last byte at most, by a skip at the
very end, and the addresses that are stored for a return lie within memory or right behind it
(`Confined`). No addition to the program counter wraps around, and a fault names an address that is
not far beyond the end (`addresses_confined`).
-/

namespace Chip8

/-- If a fault names an address, alone or as the reason of a halt, it lies not far beyond the end of
memory. -/
def Fault.Near : Fault → Prop
  | outOfRange a => 0x1000 ≤ a ∧ a ≤ 0x10FE
  | halted reason => reason.Near
  | _ => True

theorem Fault.near_outOfRange {k : Nat} (hlo : 0x1000 ≤ k) (hhi : k ≤ 0x10FE) :
    (Fault.outOfRange (UInt32.ofNat k)).Near := by
  have hk : k < UInt32.size := Nat.lt_of_le_of_lt hhi (by decide)
  exact ⟨(UInt32.le_ofNat_iff hk).mpr hlo, (UInt32.ofNat_le_iff hk).mpr hhi⟩

theorem Instruction.near_of_refusal? {i : Instruction} {m : Machine} {f : Fault}
    (ho : ∀ o ∈ i.operands, o.Fits) (hm : m.index ≤ 0xFFF) (h : i.refusal? m = some f) :
    f.Near := by
  rcases refusal?_eq_some ho hm h with rfl | rfl | ⟨k, rfl, hlo, hhi⟩
  · trivial
  · trivial
  · exact Fault.near_outOfRange hlo hhi

/-! ## The moves of the program counter -/

/-- Where an instruction may leave the program counter. -/
inductive Machine.PcMove (m : Machine) : UInt16 → Prop
  | kept : PcMove m m.pc
  | skipped : PcMove m (m.pc + 2)
  | jumped {a : UInt16} (ha : a ≤ 0xFFF) : PcMove m a
  | returned {a : UInt16} (ha : a ∈ m.stack.toList) : PcMove m a
  | rewound : PcMove m (m.pc - 2)

namespace Work

variable {α β : Type} {i : Instruction} {m m' : Machine}

/-- `w` leaves the program counter where it is, or one instruction further. -/
def Skips (w : Work α) : Prop :=
  ∀ m, (left (w.run m)).pc = m.pc ∨ (left (w.run m)).pc = m.pc + 2

namespace Skips

theorem skipIf (c : Bool) : Skips (skipIf c) := by
  intro m
  cases c with
  | false => exact .inl rfl
  | true => exact .inr rfl

theorem bind {x : Work α} {g : α → Work β} (hx : Keeps Machine.pc x) (hg : ∀ a, Skips (g a)) :
    Skips (x >>= g) := by
  intro m
  have hm := hx m
  rw [EStateM.run_bind]
  cases hr : x.run m with
  | ok a m₁ =>
    rw [hr] at hm
    rw [← show m₁.pc = m.pc from hm]
    exact hg a m₁
  | error stop m₁ =>
    rw [hr] at hm
    exact .inl hm

theorem skipBy (c : UInt8 → UInt8 → Bool) (x y : UInt8) : Skips (skipBy c x y) :=
  bind (.register x) fun _ => bind (.register y) fun _ => skipIf _

theorem pcMove {w : Work α} {a : α} (h : Skips w) (hr : w.run m = .ok a m') : m.PcMove m'.pc := by
  have hm := h m
  rw [left_of_ok hr] at hm
  rcases hm with hm | hm
  · rw [hm]
    exact .kept
  · rw [hm]
    exact .skipped

end Skips

/-- An instruction of a word moves the program counter in one of five ways. -/
theorem pcMove_effect (ho : ∀ o ∈ i.operands, o.Fits) (hr : i.effect.run m = .ok () m') :
    m.PcMove m'.pc := by
  cases i with
  | ret =>
    rw [Instruction.effect, run_leaveCall] at hr
    cases hs : m.stack.pop? with
    | none =>
      rw [hs] at hr
      cases hr
    | some top =>
      rw [hs] at hr
      cases hr
      refine .returned ?_
      rw [Stack.toList_pop hs]
      exact List.mem_append_right _ List.mem_cons_self
  | call a =>
    rw [Instruction.effect, run_enterCall] at hr
    split at hr
    · cases hr
    · cases hr
      exact .jumped (Nat.le_of_lt_succ (Operand.address_lt_of_fits (ho _ (.head _))))
  | jump a =>
    cases hr
    exact .jumped (Nat.le_of_lt_succ (Operand.address_lt_of_fits (ho _ (.head _))))
  | jumpOffset a =>
    rw [Instruction.effect, run_jumpOffset] at hr
    split at hr
    · cases hr
    · split at hr
      · cases hr
      · rename_i hle
        cases hr
        refine .jumped ((UInt16.ofNat_le_iff ?_).mpr (Nat.le_of_not_lt hle))
        exact Nat.lt_of_le_of_lt (Nat.le_of_not_lt hle) (by decide)
  | awaitKey x =>
    rw [Instruction.effect] at hr
    cases hk : m.keypad.takeFirst? with
    | none =>
      rw [run_pollKey_of_none hk] at hr
      cases hr
      exact .rewound
    | some found =>
      rw [run_pollKey_of_some hk] at hr
      have hp : Keeps Machine.pc (put x found.1) := .put (fun _ _ _ => rfl) _
      have hkept : m'.pc = m.pc := hp.of_ok (m := { m with keypad := found.2 }) hr
      exact hkept ▸ .kept
  | skipEqByte x n | skipNeByte x n =>
    exact (Skips.bind (.register x) fun _ => .skipIf _).pcMove hr
  | skipEq x y | skipNe x y => exact (Skips.skipBy _ x y).pcMove hr
  | skipPressed x | skipReleased x =>
    exact (Skips.bind (.register x) fun _ => .bind .get fun _ => .skipIf _).pcMove hr
  | _ =>
    have hkept : m'.pc = m.pc := (keeps_part .pc (by rfl)).of_ok hr
    exact hkept ▸ .kept

end Work

/-! ## What every call keeps -/

namespace Machine

variable {m m' : Machine} {c : Call} {i : Instruction}

/-- The addresses of a machine lie within memory or right behind it. -/
structure Confined (m : Machine) : Prop where
  sound : m.Sound
  pc_le : m.pc ≤ 0x1002
  stack : ∀ a ∈ m.stack.toList, 0x002 ≤ a ∧ a ≤ 0x1000
  /-- A wait for a key can be fetched again. -/
  awaiting : ∀ x, m.awaiting = some x → m.pc ≤ 0xFFE
  reason : ∀ f, m.mode = .halted f → f.Near

theorem confined_initial (dialect : Dialect) (generator : Generator) :
    (initial dialect generator).Confined where
  sound := sound_initial dialect generator
  pc_le := by
    show UInt16.ofNat Memory.programStart ≤ 0x1002
    decide
  stack := by
    show ∀ a ∈ Stack.empty.toList, _
    rw [Stack.toList_empty]
    nofun
  awaiting := nofun
  reason := nofun

theorem fromWords_of_fromMemory (h : c.fromMemory) : c.FromWords := by
  cases c with
  | execute | executeAll => cases h
  | _ =>
    intro i hi
    cases hi

theorem pc_le_of_instruction? (h : m.Confined) (hc : c.fromMemory)
    (hi : m.instruction? c = some i) : m.pc ≤ 0xFFE := by
  have hchoice := choice?_of_instruction? hi
  cases c with
  | step | cycle =>
    cases hx : m.awaiting with
    | some x => exact h.awaiting x hx
    | none =>
      simp only [choice?, hx] at hchoice
      obtain ⟨w, hw, -⟩ := Option.bind_eq_some_iff.mp hchoice
      exact pc_le_of_fetched? hw
  | stepWith | execute => cases hc
  | _ => cases hchoice

theorem toNat_ready_pc (h : m.Confined) (hc : c.fromMemory) (hi : m.instruction? c = some i) :
    (m.ready c).pc.toNat = m.pc.toNat + 2 := by
  have hle : m.pc.toNat ≤ 0xFFE := UInt16.le_iff_toNat_le.mp (pc_le_of_instruction? h hc hi)
  have hpc : (m.ready c).pc = m.pc + 2 := by
    cases c with
    | execute => cases hc
    | _ => rfl
  rw [hpc, UInt16.toNat_add]
  show (m.pc.toNat + 2) % 65536 = m.pc.toNat + 2
  omega

/-- A step stores no address for a return but the one right behind it. -/
theorem stack_of_call (h : m.Confined) (hc : c.fromMemory) (hs : c.single) :
    ∀ a ∈ (m.call c).machine.stack.toList, 0x002 ≤ a ∧ a ≤ 0x1000 := by
  have hmove := stackMove_call (m := m) hs
  generalize (m.call c).machine = m' at hmove ⊢
  cases hmove with
  | kept hkept =>
    rw [hkept]
    exact h.stack
  | pushed hi hpushed =>
    have hle : m.pc.toNat ≤ 0xFFE := UInt16.le_iff_toNat_le.mp (pc_le_of_instruction? h hc hi.1)
    have hready := toNat_ready_pc h hc hi.1
    intro a ha
    rw [Stack.toList_push hpushed] at ha
    rcases List.mem_append.mp ha with ha | ha
    · exact h.stack a ha
    · obtain rfl := List.mem_singleton.mp ha
      rw [UInt16.le_iff_toNat_le, UInt16.le_iff_toNat_le, hready]
      exact ⟨Nat.le_add_left _ _, Nat.add_le_add_right hle 2⟩
  | popped hi hpopped =>
    intro a ha
    refine h.stack a ?_
    rw [Stack.toList_pop hpopped]
    exact List.mem_append_left _ ha

/-- An instruction that lies in memory leaves the program counter at most two instructions past the
last byte. -/
theorem pc_le_of_effect (h : m.Confined) (hc : c.fromMemory) (hi : m.instruction? c = some i)
    (hr : i.effect.run (m.ready c) = .ok () m') :
    m'.pc ≤ 0x1002 ∧ ∀ x, m'.awaiting = some x → m'.pc ≤ 0xFFE := by
  have hfits := fits_of_instruction? h.sound (fromWords_of_fromMemory hc) hi
  have hle : m.pc.toNat ≤ 0xFFE := UInt16.le_iff_toNat_le.mp (pc_le_of_instruction? h hc hi)
  have hready := toNat_ready_pc h hc hi
  have hrewound : ((m.ready c).pc - 2).toNat = m.pc.toNat := by
    rw [UInt16.toNat_sub_of_le, hready]
    · rfl
    · rw [UInt16.le_iff_toNat_le, hready]
      exact Nat.le_add_left _ _
  constructor
  · rw [UInt16.le_iff_toNat_le]
    have hmove := Work.pcMove_effect hfits hr
    generalize m'.pc = a at hmove ⊢
    cases hmove with
    | kept =>
      rw [hready]
      exact Nat.le_trans (Nat.add_le_add_right hle 2) (by decide)
    | skipped =>
      rw [UInt16.toNat_add, hready]
      exact Nat.le_trans (Nat.mod_le _ _) (Nat.add_le_add_right (Nat.add_le_add_right hle 2) 2)
    | jumped ha => exact Nat.le_trans (UInt16.le_iff_toNat_le.mp ha) (by decide)
    | returned ha => exact Nat.le_trans (UInt16.le_iff_toNat_le.mp (h.stack a ha).2) (by decide)
    | rewound =>
      rw [hrewound]
      exact Nat.le_trans hle (by decide)
  · -- A wait that found no key has gone back to where it was fetched.
    intro x hx
    obtain ⟨-, -, rfl⟩ := Work.awaiting_of_effect (m := m.ready c) rfl (Work.left_of_ok hr) hx
    exact UInt16.le_iff_toNat_le.mpr (hrewound ▸ hle)

theorem confined_run (h : m.Confined) (hc : c.fromMemory) (hr : c.runs) :
    (m.call c).machine.Confined ∧ ∀ f, (m.call c).result = .error (.fault f) → f.Near := by
  have hwords := fromWords_of_fromMemory hc
  have hsingle : c.single := by cases c <;> first | rfl | cases hr
  obtain ⟨hsound, hcrash⟩ := sound_call h.sound hwords
  have hstack := stack_of_call h hc hsingle
  have ho := outcome_call m hr
  generalize (m.call c).result = r, (m.call c).machine = m' at ho hsound hcrash hstack ⊢
  cases ho with
  | refused hm =>
    have hnear := h.reason _ hm
    refine ⟨h, ?_⟩
    rintro f ⟨⟩
    exact hnear
  | idle => exact ⟨h, nofun⟩
  | unfetched _ _ _ hf =>
    have hle : m.pc.toNat ≤ 0x1002 := UInt16.le_iff_toNat_le.mp h.pc_le
    obtain ⟨hlt, rfl⟩ := Memory.word_eq_error hf
    unfold Memory.size at hlt
    have hnear : (Fault.outOfRange (UInt32.ofNat (m.pc.toNat + 1))).Near :=
      Fault.near_outOfRange (by omega) (by omega)
    refine ⟨⟨hsound, h.pc_le, hstack, h.awaiting, ?_⟩, ?_⟩
    · rintro f ⟨⟩
      exact hnear
    · rintro f ⟨⟩
      exact hnear
  | undecoded =>
    refine ⟨⟨hsound, h.pc_le, hstack, h.awaiting, ?_⟩, ?_⟩
    · rintro f ⟨⟩
      trivial
    · rintro f ⟨⟩
      trivial
  | ended hi hr =>
    obtain ⟨hpc, hawaiting⟩ := pc_le_of_effect h hc hi hr
    exact ⟨⟨hsound, hpc, hstack, hawaiting, mode_of_ended hr ▸ h.reason⟩, nofun⟩
  | failed hi hr =>
    have hfits := fits_of_instruction? h.sound hwords hi
    obtain ⟨f, hf, hrefusal⟩ :=
      Work.refusal?_of_stop (m := m.ready c) hfits h.sound.index_le hr
    cases hf
    have hnear := Instruction.near_of_refusal? (m := m.ready c) hfits h.sound.index_le hrefusal
    refine ⟨⟨hsound, h.pc_le, hstack, nofun, ?_⟩, ?_⟩
    · rintro f ⟨⟩
      exact hnear
    · rintro f ⟨⟩
      exact hnear
  | crashed => exact absurd rfl hcrash

theorem confined_host (h : m.Confined) (hc : c.fromMemory) (hs : c.single) (hr : c.runs = false) :
    (m.call c).machine.Confined ∧ ∀ f, (m.call c).result = .error (.fault f) → f.Near := by
  have hsound := (sound_call h.sound (fromWords_of_fromMemory hc)).1
  obtain ⟨memory, keypad, mode, delay, sound, display, hm, -⟩ := machine_of_host m hs hr
  have hreason := reason?_of_host m hs hr
  constructor
  · rw [hm] at hsound hreason ⊢
    refine ⟨hsound, h.pc_le, h.stack, h.awaiting, fun f hf => h.reason f ?_⟩
    rw [← Mode.reason?_eq_some_iff, ← hreason]
    exact Mode.reason?_eq_some_iff.mpr hf
  · intro f hf
    rcases result_of_host m hs hr with ⟨reply, h⟩ | ⟨size, room, h⟩ | ⟨k, h⟩ <;>
      rw [h] at hf <;> cases hf <;> trivial

/-- Every call keeps the addresses of a machine confined, and its fault is near. -/
theorem confined_call (h : m.Confined) (hc : c.fromMemory) :
    (m.call c).machine.Confined ∧ ∀ f, (m.call c).result = .error (.fault f) → f.Near := by
  cases hr : c.runs with
  | true => exact confined_run h hc hr
  | false =>
    cases c with
    | executeAll => cases hc
    | reset => exact ⟨confined_initial _ _, nofun⟩
    | _ => exact confined_host h hc rfl hr

/-- **Addresses are confined.** On a run from power-on that takes instructions from memory alone,
the addresses of the machine are confined at any time; the program counter is moved past an instruction,
past another and back again without wrapping around; and a fault that a call returns is near. -/
theorem addresses_confined (dialect : Dialect) (generator : Generator) (cs : List Call)
    (hcs : ∀ c ∈ cs, c.fromMemory) :
    let m := (initial dialect generator).after cs
    m.Confined ∧
      (∀ c i, c.fromMemory → m.instruction? c = some i →
        (m.ready c).pc.toNat = m.pc.toNat + 2 ∧
        ((m.ready c).pc + 2).toNat = (m.ready c).pc.toNat + 2 ∧ 2 ≤ (m.ready c).pc) ∧
      ∀ t ∈ (initial dialect generator).calls cs, ∀ f, t.result = .error (.fault f) → f.Near := by
  intro m
  have h₀ := confined_initial dialect generator
  have hstep : ∀ m : Machine, ∀ c ∈ cs, m.Confined → (m.call c).machine.Confined :=
    fun m c hc hm => (confined_call hm (hcs c hc)).1
  have h : m.Confined := after_induction h₀ hstep
  refine ⟨h, ?_, calls_induction h₀ hstep fun m c hc hm => (confined_call hm (hcs c hc)).2⟩
  intro c i hc hi
  have hle : m.pc.toNat ≤ 0xFFE := UInt16.le_iff_toNat_le.mp (pc_le_of_instruction? h hc hi)
  have hready := toNat_ready_pc h hc hi
  refine ⟨hready, ?_, ?_⟩
  · rw [UInt16.toNat_add]
    show ((m.ready c).pc.toNat + 2) % 65536 = (m.ready c).pc.toNat + 2
    omega
  · rw [UInt16.le_iff_toNat_le, hready]
    exact Nat.le_add_left _ _

/-- A program that writes a skip into the last word of memory and jumps there. The fetch after the
skip fails. -/
theorem addresses_confined_end :
    let m := initial {} (Generator.ofSeed 0)
    let cs : List Call := [.load [0xAF, 0xFE, 0x60, 0x40, 0xF1, 0x55, 0x1F, 0xFE], .step, .step,
      .step, .cycle, .step, .step]
    (∀ c ∈ cs, c.fromMemory) ∧ (m.after cs).mode = .halted (.outOfRange 0x1003) ∧
      (m.after cs).Confined := by
  intro m cs
  have hcs : ∀ c ∈ cs, c.fromMemory := by decide
  have hmode : (m.after cs).mode = .halted (.outOfRange 0x1003) := by decide +kernel
  obtain ⟨hconfined, -, -⟩ := addresses_confined {} (Generator.ofSeed 0) cs hcs
  exact ⟨hcs, hmode, hconfined⟩

end Machine

end Chip8
