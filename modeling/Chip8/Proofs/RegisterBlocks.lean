import Chip8.Proofs.Arithmetic

/-!
# Registers in memory

A store copies `V0` to `VX` to memory from `I` on (`Machine.Stored`), and a load copies them back
(`Machine.Loaded`). Both count the registers up to `VX` itself, lowest first, touch nothing around
the block that they copy, and leave `I` as it is. So either undoes the other, and the digits that
`FX33` stores are loaded back as the number they spell (`blocks_copied_back`).
-/

namespace Chip8

namespace Machine

/-- `m'` is the machine `m` with `V0` to `VX` copied to memory from `I` on. -/
structure Stored (m : Machine) (x : UInt8) (m' : Machine) : Prop where
  index : m'.index = m.index
  registers : m'.registers = m.registers
  stored : ∀ r ≤ x, m'.memory.byteAt (m.index.toNat + r.toNat) = m.value r
  /-- Bytes that differ lie in the block. -/
  within : ∀ a, m'.memory.byteAt a ≠ m.memory.byteAt a →
    m.index.toNat ≤ a ∧ a ≤ m.index.toNat + x.toNat

/-- `m'` is the machine `m` with `V0` to `VX` copied from memory from `I` on. -/
structure Loaded (m : Machine) (x : UInt8) (m' : Machine) : Prop where
  index : m'.index = m.index
  memory : m'.memory = m.memory
  loaded : ∀ r ≤ x, m'.value r = m.memory.byteAt (m.index.toNat + r.toNat)
  others : ∀ r, x < r → m'.value r = m.value r

/-- `m'` is the machine `m` with the digits of the number `n` in memory from `I` on. -/
structure Spelled (m : Machine) (n : Nat) (m' : Machine) : Prop where
  index : m'.index = m.index
  digits : ∀ k < 3, (m'.memory.byteAt (m.index.toNat + k)).toNat ≤ 9
  spelled : 100 * (m'.memory.byteAt m.index.toNat).toNat +
    10 * (m'.memory.byteAt (m.index.toNat + 1)).toNat +
      (m'.memory.byteAt (m.index.toNat + 2)).toNat = n
  /-- Bytes that differ are those of the digits. -/
  within : ∀ a, m'.memory.byteAt a ≠ m.memory.byteAt a →
    m.index.toNat ≤ a ∧ a ≤ m.index.toNat + 2

variable {m m' : Machine} {r : UInt8}

theorem value_of_setFirstRegisters? {vs : List UInt8} (h : m.setFirstRegisters? vs = some m') :
    m'.value r = if hr : r.toNat < vs.length then vs[r.toNat] else m.value r := by
  rw [value, register?_of_setFirstRegisters? h]
  split
  · rename_i hr
    rw [List.getElem?_eq_getElem hr]
    rfl
  · rename_i hr
    rw [List.getElem?_eq_none (Nat.le_of_not_lt hr)]
    rfl

end Machine

namespace Work

open Machine

variable {m : Machine} {x : UInt8}

/-! ## The effect of an instruction -/

theorem stored_storeRegisters (hx : x.toNat < 16)
    (hfit : m.index.toNat + (x.toNat + 1) ≤ Memory.size) :
    ∃ m', (storeRegisters x).run m = .ok () m' ∧ m.Stored x m' := by
  have hlength : (m.registers.toList.take (x.toNat + 1)).length = x.toNat + 1 := by
    simp
    omega
  refine ⟨_, run_storeRegisters hx hfit, rfl, rfl, fun r hr => ?_, fun a ha => ?_⟩
  · have hle : r.toNat ≤ x.toNat := UInt8.le_iff_toNat_le.mp hr
    rw [Memory.byteAt_overlay_add (by omega) (by omega), value_of_lt (by omega)]
    simp
  · have hcovered := Memory.covers_of_byteAt_overlay (by omega) ha
    omega

theorem loaded_loadRegisters (hx : x.toNat < 16)
    (hfit : m.index.toNat + (x.toNat + 1) ≤ Memory.size) :
    ∃ m', (loadRegisters x).run m = .ok () m' ∧ m.Loaded x m' := by
  let vs := (List.range (x.toNat + 1)).map fun k => m.memory.byteAt (m.index.toNat + k)
  have hread : m.memory.read m.index.toNat (x.toNat + 1) = .ok vs := by
    rw [Memory.read, Memory.check_of_le hfit]
    rfl
  have hlength : vs.length = x.toNat + 1 := by simp [vs]
  let m' : Machine :=
    { m with registers := Vector.ofFn fun k => vs[k.val]?.getD (m.registers.get k) }
  have hset : m.setFirstRegisters? vs = some m' := if_pos (by omega)
  refine ⟨m', ?_, rfl, rfl, fun r hr => ?_, fun r hr => ?_⟩
  · unfold loadRegisters readBytes
    simp only [EStateM.run_bind, EStateM.run_get, hread, orRefuse_ok, EStateM.run_pure, hset,
      orCrash_some]
    rfl
  · have hlt : r.toNat < vs.length := by
      have hle := UInt8.le_iff_toNat_le.mp hr
      omega
    rw [value_of_setFirstRegisters? hset, dif_pos hlt]
    simp [vs]
  · have hge : ¬ r.toNat < vs.length := by
      have hlt := UInt8.lt_iff_toNat_lt.mp hr
      omega
    rw [value_of_setFirstRegisters? hset, dif_neg hge]

theorem spelled_digits (v : UInt8) :
    (∀ d ∈ decimalDigits v, d.toNat ≤ 9) ∧
      100 * (v / 100).toNat + 10 * (v / 10 % 10).toNat + (v % 10).toNat = v.toNat := by
  have hv := v.toNat_lt
  refine ⟨?_, ?_⟩
  · simp [decimalDigits]
    omega
  · simp
    omega

theorem spelled_storeDecimal (hx : x.toNat < 16) (hfit : m.index.toNat + 3 ≤ Memory.size) :
    ∃ m', (storeDecimal x).run m = .ok () m' ∧ m.Spelled (m.value x).toNat m' := by
  have hbyte : ∀ k, (hk : k < 3) → (m.memory.overlay m.index.toNat
      (decimalDigits (m.value x))).byteAt (m.index.toNat + k) = (decimalDigits (m.value x))[k] :=
    fun k hk => Memory.byteAt_overlay_add hfit hk
  rw [run_storeDecimal hx hfit, ← value_of_lt hx]
  refine ⟨_, rfl, rfl, fun k hk => ?_, ?_, fun a ha => ?_⟩
  · rw [hbyte k hk]
    exact (spelled_digits _).1 _ (List.getElem_mem _)
  · have hzero := hbyte 0 (by decide)
    rw [Nat.add_zero] at hzero
    rw [hzero, hbyte 1 (by decide), hbyte 2 (by decide)]
    exact (spelled_digits _).2
  · have hcovered := Memory.covers_of_byteAt_overlay hfit ha
    simp [decimalDigits] at hcovered
    omega

end Work

namespace Machine

variable {m : Machine} {c : Call} {x : UInt8}

/-! ## Calls -/

theorem stored_call (hi : m.instruction? c = some (.store x)) (hx : x < 16)
    (hfit : m.index.toNat + x.toNat ≤ 4095) :
    (m.call c).result = .ok c.reply ∧ m.Stored x (m.call c).machine := by
  obtain ⟨m', hrun, hstored⟩ := Work.stored_storeRegisters (m := m.ready c)
    (UInt8.lt_iff_toNat_lt.mp hx) (Nat.succ_le_succ hfit)
  obtain ⟨hresult, hmachine⟩ := call_of_effect hi hrun
  rw [hmachine]
  exact ⟨hresult, hstored.index, hstored.registers, hstored.stored, hstored.within⟩

theorem loaded_call (hi : m.instruction? c = some (.load x)) (hx : x < 16)
    (hfit : m.index.toNat + x.toNat ≤ 4095) :
    (m.call c).result = .ok c.reply ∧ m.Loaded x (m.call c).machine := by
  obtain ⟨m', hrun, hloaded⟩ := Work.loaded_loadRegisters (m := m.ready c)
    (UInt8.lt_iff_toNat_lt.mp hx) (Nat.succ_le_succ hfit)
  obtain ⟨hresult, hmachine⟩ := call_of_effect hi hrun
  rw [hmachine]
  exact ⟨hresult, hloaded.index, hloaded.memory, hloaded.loaded, hloaded.others⟩

theorem spelled_call (hi : m.instruction? c = some (.decimal x)) (hx : x < 16)
    (hfit : m.index.toNat ≤ 4093) :
    (m.call c).result = .ok c.reply ∧ m.Spelled (m.value x).toNat (m.call c).machine := by
  obtain ⟨m', hrun, hspelled⟩ := Work.spelled_storeDecimal (m := m.ready c)
    (UInt8.lt_iff_toNat_lt.mp hx) (Nat.add_le_add_right hfit 3)
  obtain ⟨hresult, hmachine⟩ := call_of_effect hi hrun
  rw [hmachine]
  exact ⟨hresult, hspelled.index, hspelled.digits, hspelled.spelled, hspelled.within⟩

theorem memory_of_loaded_stored {m₁ m₂ : Machine} (hloaded : m.Loaded x m₁)
    (hstored : m₁.Stored x m₂) : m₂.memory = m.memory := by
  rw [← hloaded.memory]
  refine Memory.ext fun a _ => Decidable.byContradiction fun hne => hne ?_
  -- A byte that differs would be that of a register, which was loaded from there.
  obtain ⟨hle, hge⟩ := hstored.within a hne
  have hx := x.toNat_lt
  have hr : (UInt8.ofNat (a - m₁.index.toNat)).toNat = a - m₁.index.toNat :=
    UInt8.toNat_ofNat_of_lt' (by rw [UInt8.size]; omega)
  have hrx : UInt8.ofNat (a - m₁.index.toNat) ≤ x := UInt8.le_iff_toNat_le.mpr (by omega)
  have ha : a = m₁.index.toNat + (UInt8.ofNat (a - m₁.index.toNat)).toNat := by omega
  calc m₂.memory.byteAt a
      = m₁.value (UInt8.ofNat (a - m₁.index.toNat)) := by rw [← hstored.stored _ hrx, ← ha]
    _ = m.memory.byteAt (m.index.toNat + (UInt8.ofNat (a - m₁.index.toNat)).toNat) :=
      hloaded.loaded _ hrx
    _ = m₁.memory.byteAt a := by rw [← hloaded.memory, ← hloaded.index, ← ha]

/-- What a store has copied to memory, a load from there copies back, whatever the registers hold
meanwhile. -/
theorem value_of_stored_loaded {m₁ m₂ m₃ : Machine} {r : UInt8} (hstored : m.Stored x m₁)
    (hindex : m₂.index = m₁.index) (hmemory : m₂.memory = m₁.memory) (hloaded : m₂.Loaded x m₃)
    (hr : r ≤ x) : m₃.value r = m.value r := by
  rw [hloaded.loaded r hr, hmemory, hindex, hstored.index, hstored.stored r hr]

theorem spelled_of_loaded {m₁ m₂ : Machine} {n : Nat} (hspelled : m.Spelled n m₁)
    (hloaded : m₁.Loaded 2 m₂) :
    let v := fun r => (m₂.value r).toNat
    v 0 ≤ 9 ∧ v 1 ≤ 9 ∧ v 2 ≤ 9 ∧ 100 * v 0 + 10 * v 1 + v 2 = n := by
  have hdigit : ∀ r ≤ (2 : UInt8),
      m₂.value r = m₁.memory.byteAt (m.index.toNat + r.toNat) := by
    intro r hr
    rw [hloaded.loaded r hr, hspelled.index]
  simp only [hdigit 0 (by decide), hdigit 1 (by decide), hdigit 2 (by decide)]
  exact ⟨hspelled.digits 0 (by decide), hspelled.digits 1 (by decide),
    hspelled.digits 2 (by decide), hspelled.spelled⟩

/-- **Registers are copied to memory and back.** A store whose block is in memory succeeds, and a
load from there gives `V0` to `VX` their values back, whatever else has changed but `I` and memory. A
load and then a store leave memory as it was. The digits of `VX` are loaded back into `V0` to `V2`,
where they spell its value. None of these moves `I`. -/
theorem blocks_copied_back (m : Machine) (c : Call) (x : UInt8) (hx : x < 16) :
    let m₁ := (m.call c).machine
    (m.instruction? c = some (.store x) → m.index.toNat + x.toNat ≤ 4095 →
      (m.call c).result = .ok c.reply ∧ m.Stored x m₁ ∧
      ∀ (m₂ : Machine) (d : Call), m₂.index = m₁.index → m₂.memory = m₁.memory →
        m₂.instruction? d = some (.load x) →
        (m₂.call d).result = .ok d.reply ∧ m₂.Loaded x (m₂.call d).machine ∧
          ∀ r ≤ x, (m₂.call d).machine.value r = m.value r) ∧
    (m.instruction? c = some (.load x) → m.index.toNat + x.toNat ≤ 4095 →
      (m.call c).result = .ok c.reply ∧ m.Loaded x m₁ ∧
      ∀ d, m₁.instruction? d = some (.store x) →
        (m₁.call d).result = .ok d.reply ∧ m₁.Stored x (m₁.call d).machine ∧
          (m₁.call d).machine.memory = m.memory) ∧
    (m.instruction? c = some (.decimal x) → m.index.toNat ≤ 4093 →
      (m.call c).result = .ok c.reply ∧ m.Spelled (m.value x).toNat m₁ ∧
      ∀ d, m₁.instruction? d = some (.load 2) →
        (m₁.call d).result = .ok d.reply ∧ m₁.Loaded 2 (m₁.call d).machine ∧
          let v := fun r => ((m₁.call d).machine.value r).toNat
          v 0 ≤ 9 ∧ v 1 ≤ 9 ∧ v 2 ≤ 9 ∧
            100 * v 0 + 10 * v 1 + v 2 = (m.value x).toNat) := by
  intro m₁
  refine ⟨fun hi hfit => ?_, fun hi hfit => ?_, fun hi hfit => ?_⟩
  · obtain ⟨hresult, hstored⟩ := stored_call hi hx hfit
    refine ⟨hresult, hstored, fun m₂ d hindex hmemory hd => ?_⟩
    have hfit₂ : m₂.index.toNat + x.toNat ≤ 4095 := by rwa [hindex, hstored.index]
    obtain ⟨hresult₂, hloaded⟩ := loaded_call hd hx hfit₂
    exact ⟨hresult₂, hloaded, fun r => value_of_stored_loaded hstored hindex hmemory hloaded⟩
  · obtain ⟨hresult, hloaded⟩ := loaded_call hi hx hfit
    refine ⟨hresult, hloaded, fun d hd => ?_⟩
    have hfit₁ : m₁.index.toNat + x.toNat ≤ 4095 := by rwa [hloaded.index]
    obtain ⟨hresult₁, hstored⟩ := stored_call hd hx hfit₁
    exact ⟨hresult₁, hstored, memory_of_loaded_stored hloaded hstored⟩
  · obtain ⟨hresult, hspelled⟩ := spelled_call hi hx hfit
    refine ⟨hresult, hspelled, fun d hd => ?_⟩
    have hfit₁ : m₁.index.toNat + (2 : UInt8).toNat ≤ 4095 := by
      rw [hspelled.index]
      exact Nat.add_le_add_right hfit 2
    obtain ⟨hresult₁, hloaded⟩ := loaded_call hd (by decide) hfit₁
    exact ⟨hresult₁, hloaded, spelled_of_loaded hspelled hloaded⟩

/-- At the end of memory, `V0` to `V3` are stored and loaded back after all registers have changed,
loaded and stored back, and the digits of `V3` are stored and loaded back. -/
theorem blocks_copied_back_end :
    let m : Machine :=
      { initial {} (Generator.ofSeed 0) with
        registers := Vector.ofFn fun k => 50 * k.val.toUInt8, index := 0xFFC }
    let changed (m : Machine) : Machine := { m with registers := Vector.replicate 16 0xAA }
    let stored := changed (m.call (.stepWith 0xF355)).machine
    let loaded := (m.call (.stepWith 0xF365)).machine
    let spelled := (m.call (.stepWith 0xF333)).machine
    m.instruction? (.stepWith 0xF355) = some (.store 3) ∧ m.index.toNat + 3 = 4095 ∧
      (stored.call (.stepWith 0xF365)).machine.value 3 = 150 ∧
      (stored.call (.stepWith 0xF365)).machine.value 4 = 0xAA ∧
      (loaded.call (.stepWith 0xF355)).machine.memory = m.memory ∧
      (m.value 3).toNat = 150 ∧
      ((spelled.call (.stepWith 0xF265)).machine.value 1).toNat ≤ 9 := by
  intro m changed stored loaded spelled
  obtain ⟨hstore, -, -⟩ := blocks_copied_back m (.stepWith 0xF355) 3 (by decide)
  obtain ⟨-, hload, -⟩ := blocks_copied_back m (.stepWith 0xF365) 3 (by decide)
  obtain ⟨-, -, hspell⟩ := blocks_copied_back m (.stepWith 0xF333) 3 (by decide)
  obtain ⟨-, -, hback⟩ := hstore rfl (by decide)
  obtain ⟨-, hloaded, hvalue⟩ := hback stored (.stepWith 0xF365) rfl rfl rfl
  obtain ⟨-, -, hkept⟩ := hload rfl (by decide)
  obtain ⟨-, -, hmemory⟩ := hkept (.stepWith 0xF355) rfl
  obtain ⟨-, -, hdigits⟩ := hspell rfl (by decide)
  obtain ⟨-, -, -, hone, -⟩ := hdigits (.stepWith 0xF265) rfl
  exact ⟨rfl, rfl, hvalue 3 (by decide), hloaded.others 4 (by decide), hmemory, rfl, hone⟩

end Machine

end Chip8
