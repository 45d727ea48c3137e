import Chip8.Proofs.Lockstep

/-!
# The random numbers of a run

The random instructions of a run take the words of the stream one after the other, and nothing else
takes any: the position in the stream is the number of random instructions run so far, since each
call moves it by those that it runs to their end (`generator_call`). A return to power-on keeps it.
So the result of a random instruction is known from the seed and from how many came before, and a
run without one does not depend on the seed (`random_numbers`).
-/

namespace Chip8

namespace ChaCha

/-- The first blocks of the stream, one behind the other. -/
def stream (key : Key) (blocks : Nat) : List UInt32 :=
  (List.range blocks).flatMap fun n => (block key n).toList

variable {key : Key} {blocks k : Nat}

theorem stream_succ (key : Key) (blocks : Nat) :
    stream key (blocks + 1) = stream key blocks ++ (block key blocks).toList := by
  simp [stream, List.range_succ]

theorem length_stream (key : Key) (blocks : Nat) : (stream key blocks).length = 16 * blocks := by
  induction blocks with
  | zero => rfl
  | succ n ih => rw [stream_succ, List.length_append, ih, Vector.length_toList, Nat.mul_succ]

theorem getElem?_block {n j : Nat} (hj : j < 16) :
    (block key n).toList[j]? = some (word key (16 * n + j)) := by
  have hdiv : (16 * n + j) / 16 = n := by omega
  have hmod : (16 * n + j) % 16 = j := by omega
  simp only [word, hdiv, hmod]
  simp [hj]

/-- Addressed by its position alone, a word is the one that stands there in the blocks. -/
theorem getElem?_stream (h : k < 16 * blocks) : (stream key blocks)[k]? = some (word key k) := by
  induction blocks with
  | zero => omega
  | succ n ih =>
    rw [stream_succ]
    rcases Nat.lt_or_ge k (16 * n) with hlt | hge
    · rw [List.getElem?_append_left (by rwa [length_stream]), ih hlt]
    · obtain ⟨j, rfl⟩ := Nat.exists_eq_add_of_le hge
      rw [List.getElem?_append_right (by rwa [length_stream]), length_stream, Nat.add_sub_cancel_left,
        getElem?_block (by omega)]

end ChaCha

/-- Whether an instruction asks for a random number. -/
def Instruction.isRandom : Instruction → Bool
  | random _ _ => true
  | _ => false

/-- How many random instructions a run has run to their end. -/
def Machine.draws (m : Machine) (cs : List Call) : Nat :=
  (m.performed cs).countP Instruction.isRandom

/-- `m'` is the machine `m` with the generator of `seed`. -/
def Machine.Reseeded (seed : UInt64) (m m' : Machine) : Prop := m' = m.withSeed seed

/-! ## The position in the stream -/

namespace Work

variable {m m' : Machine} {i : Instruction} {x n : UInt8}

theorem run_putRandom (m : Machine) (n : UInt8) (hx : x.toNat < 16) :
    (putRandom x n).run m = .ok () { m with
      generator := m.generator.nextByte.2
      registers := m.registers.set x.toNat (m.generator.nextByte.1 &&& n) } := by
  unfold putRandom
  rw [EStateM.run_bind, EStateM.run_get]
  exact (run_put x _ _).trans (dif_pos hx)

end Work

namespace Machine

variable {m : Machine} {c : Call} {cs : List Call} {i : Instruction} {x n : UInt8}

theorem generator_of_ended {m' : Machine} (hi : i.RegistersValid)
    (hr : i.effect.run (m.ready c) = .ok () m') :
    m'.generator =
      { m.generator with drawn := m.generator.drawn + [i].countP Instruction.isRandom } := by
  cases i with
  | random x n =>
    rw [Instruction.effect, Work.run_putRandom _ _ (Operand.toNat_lt_of_fits (hi x (.head _)))] at hr
    cases hr
    rfl
  | _ => exact (Work.keeps_part .generator (by rfl)).of_ok (m := m.ready c) hr

theorem generator_of_stopped {m' : Machine} {stop : Stop} (hi : i.RegistersValid)
    (hr : i.effect.run (m.ready c) = .error stop m') : m'.generator = m.generator := by
  cases i with
  | random x n =>
    rw [Instruction.effect, Work.run_putRandom _ _ (Operand.toNat_lt_of_fits (hi x (.head _)))] at hr
    cases hr
  | _ => exact (Work.keeps_part .generator (by rfl)).of_error (m := m.ready c) hr

theorem generator_of_runs (h : m.WaitsForRegister) (hc : c.RegistersValid) (hr : c.runs) :
    (m.call c).machine.generator = { m.generator with
      drawn := m.generator.drawn + (m.performed? c).toList.countP Instruction.isRandom } := by
  have ho := outcome_call m hr
  unfold performed?
  generalize (m.call c).result = r, (m.call c).machine = m' at ho ⊢
  cases ho with
  | refused | unfetched | undecoded | failed => rfl
  | idle hcycle hm =>
    rw [hcycle, instruction?_of_paused hm]
    rfl
  | ended hi hr =>
    rw [hi]
    exact generator_of_ended (registersValid_of_instruction? h hc hi) hr
  | crashed hi hr =>
    have hstopped := generator_of_stopped (registersValid_of_instruction? h hc hi) hr
    exact hstopped

theorem generator_call (h : m.WaitsForRegister) (hc : c.RegistersValid) (hone : c.isMany = false) :
    (m.call c).machine.generator = { m.generator with
      drawn := m.generator.drawn + (m.performed? c).toList.countP Instruction.isRandom } := by
  cases hr : c.runs with
  | true => exact generator_of_runs h hc hr
  | false =>
    rw [performed?_of_host m hr]
    cases c with
    | executeAll is => cases hone
    | reset => rfl
    | _ =>
      obtain ⟨memory, keypad, mode, delay, sound, display, hm, -⟩ := machine_of_host m rfl hr
      rw [hm]
      rfl

/-- A run moves the generator on by the number of random instructions that it runs to their end. -/
theorem generator_after (h : m.WaitsForRegister)
    (hcs : ∀ c ∈ cs, c.isMany = false ∧ c.RegistersValid) :
    (m.after cs).generator = { m.generator with drawn := m.generator.drawn + m.draws cs } := by
  induction cs generalizing m with
  | nil => rfl
  | cons c cs ih =>
    obtain ⟨hone, hc⟩ := hcs c List.mem_cons_self
    have hrest := ih (waitsForRegister_call h hc) fun d hd => hcs d (List.mem_cons_of_mem c hd)
    rw [generator_call h hc hone] at hrest
    simp only [after, hrest, draws, performed, List.countP_append, Nat.add_assoc]

theorem register?_of_random (hx : x < 16) (h : m.Performs c (.random x n)) :
    (m.call c).machine.register? x =
      some ((ChaCha.word m.generator.key m.generator.drawn).toUInt8 &&& n) := by
  have hlt : x.toNat < 16 := Operand.toNat_lt_of_fits hx
  have hr := h.run_effect
  rw [Instruction.effect, Work.run_putRandom _ _ hlt] at hr
  generalize (m.call c).machine = m' at hr ⊢
  cases hr
  rw [register?_of_lt _ hlt]
  simp [Generator.nextByte, ready]

theorem performs_random (hx : x < 16) (hi : m.instruction? c = some (.random x n)) :
    m.Performs c (.random x n) :=
  ⟨hi, (call_of_effect hi (Work.run_putRandom _ n (Operand.toNat_lt_of_fits hx))).1⟩

end Machine

/-! ## Two seeds -/

theorem Part.common_reseeded {seed : UInt64} {p : Part} (h : p ≠ .generator) :
    p.Common (Machine.Reseeded seed) where
  same := by
    rintro m _ rfl
    cases p <;> first | exact absurd rfl h | rfl
  put := by
    rintro m _ v rfl
    cases p <;> first | exact absurd rfl h | rfl

theorem Instruction.isRandom_of_uses {i : Instruction} (h : i.uses.contains .generator) :
    i.isRandom := by
  cases i <;> first | rfl | exact absurd h Bool.false_ne_true

namespace Machine

variable {m m' : Machine} {c : Call} {cs : List Call} {seed : UInt64}

theorem steady_reseeded : Steady (Reseeded seed) where
  reason := by
    rintro m _ rfl
    rfl
  paused := by
    rintro m _ rfl
    rfl
  halt := by
    rintro m _ f rfl
    rfl
  lastWord := by
    rintro m _ w rfl
    rfl
  awaiting := Part.common_reseeded nofun
  pc := Part.common_reseeded nofun

theorem alike_call (h : Reseeded seed m m') (hone : c.isMany = false)
    (hc : ∀ i, m.instruction? c = some i → i.isRandom = false) :
    Turn.Alike (Reseeded seed) (m.call c) (m'.call c) := by
  cases hr : c.runs with
  | false =>
    have hpart : ∀ p, c.part? = some p → p ≠ .generator := by
      rintro _ hp rfl
      cases c <;> cases hp
    refine alike_host h hr hone (fun p hp => Part.common_reseeded (hpart p hp)) ?_ (fun mode => ?_) ?_
    all_goals
      subst h
      rfl
  | true =>
    refine alike_runs steady_reseeded h hr (fun _ => ?_) fun i hi => ?_
    · rw [h]
      rfl
    · refine Work.alike_effect i (fun p hp => Part.common_reseeded ?_) fun _ {m m'} hm => ?_
      · rintro rfl
        have hrandom := Instruction.isRandom_of_uses hp
        rw [hc i hi] at hrandom
        cases hrandom
      · rw [hm]
        rfl

/-- Where no random instruction is run to its end, none is run. -/
theorem along_of_draws (h : m.WaitsForRegister)
    (hcs : ∀ c ∈ cs, c.isMany = false ∧ c.RegistersValid) (hd : m.draws cs = 0) :
    m.Along (fun m c => ∀ i, m.instruction? c = some i → i.isRandom = false) cs := by
  induction cs generalizing m with
  | nil => trivial
  | cons c cs ih =>
    have hc := (hcs c List.mem_cons_self).2
    simp only [draws, performed, List.countP_append, Nat.add_eq_zero_iff] at hd
    refine ⟨fun i hi => ?_, ih (waitsForRegister_call h hc) (fun d hd => hcs d (.tail _ hd)) hd.2⟩
    cases i with
    | random x n =>
      have hx := registersValid_of_instruction? h hc hi x (.head _)
      have hp := performed?_eq_some_iff.mpr (performs_random hx hi)
      rw [hp] at hd
      cases hd.1
    | _ => rfl

/-- **The random numbers of a run.** On a machine with the generator of a seed, whatever was done
before, the position in the stream is the number of random instructions run since; each of them puts
the low byte of the word there, masked, into its register; and a run without one comes to the same
for any seed, but for the generator. -/
theorem random_numbers (dialect : Dialect) (generator : Generator) (seed : UInt64)
    (past cs : List Call) (hpast : ∀ c ∈ past, c.RegistersValid)
    (hcs : ∀ c ∈ cs, c.RegistersValid) :
    let m := ((initial dialect generator).after past).withSeed seed
    (m.after cs).generator = ⟨Generator.keyOfSeed seed, m.draws (m.unroll cs)⟩ ∧
    (∀ before c rest x n, m.unroll cs = before ++ c :: rest →
      (m.after before).Performs c (.random x n) →
        ∃ w, (ChaCha.stream (Generator.keyOfSeed seed) (m.draws before / 16 + 1))[m.draws before]? =
            some w ∧
          ((m.after before).call c).machine.register? x = some (w.toUInt8 &&& n)) ∧
    (m.draws (m.unroll cs) = 0 → ∀ other : UInt64,
      List.Forall₂ (fun t t' => t'.result = t.result ∧ t'.machine = t.machine.withSeed other)
        (m.calls cs) ((m.withSeed other).calls cs)) := by
  intro m
  have hm : m.WaitsForRegister :=
    waitsForRegister_after (waitsForRegister_initial dialect generator) hpast
  have hvalid := valid_of_mem_unroll (m := m) hcs
  refine ⟨?_, ?_, ?_⟩
  · rw [← after_unroll, generator_after hm hvalid]
    simp [m, withSeed, Generator.ofSeed]
  · intro before c rest x n hsplit hp
    rw [hsplit] at hvalid
    have hbefore : ∀ d ∈ before, d.isMany = false ∧ d.RegistersValid :=
      fun d hd => hvalid d (List.mem_append_left _ hd)
    have hc := (hvalid c (List.mem_append_right _ List.mem_cons_self)).2
    have hwaits := waitsForRegister_after hm fun d hd => (hbefore d hd).2
    have hx := registersValid_of_instruction? hwaits hc hp.1 x (.head _)
    refine ⟨_, ChaCha.getElem?_stream (by omega), ?_⟩
    rw [register?_of_random hx hp, generator_after hm hbefore]
    simp [m, withSeed, Generator.ofSeed]
  · intro hd other
    have hruns : List.Forall₂ (Turn.Alike (Reseeded other)) (m.calls cs)
        ((m.withSeed other).calls cs) :=
      alike_calls (fun h hone hc => alike_call h hone hc) rfl (along_of_draws hm hvalid hd)
    exact hruns.imp fun t t' h => ⟨h.1.symm, h.2⟩

/-- Sixteen random numbers that a mask hides and a return to power-on: the next one is taken from the
first word of the second block. -/
theorem random_numbers_second_block :
    let m := ((initial {} (Generator.ofSeed 7)).after [.stepWith 0xC1FF]).withSeed 42
    let before : List Call := List.replicate 16 (.execute (.random 1 0)) ++ [.reset]
    let cs := before ++ [.stepWith 0xC2FF]
    (∀ c ∈ cs, c.RegistersValid) ∧ (m.after before).Performs (.stepWith 0xC2FF) (.random 2 0xFF) ∧
      (m.after cs).generator = ⟨Generator.keyOfSeed 42, 17⟩ ∧
      ((m.after before).call (.stepWith 0xC2FF)).machine.register? 2 = some 0xA2 := by
  intro m before cs
  have hpast : ∀ c ∈ [Call.stepWith 0xC1FF], c.RegistersValid := by
    simp [Call.RegistersValid, Call.instructions]
  have hcs : ∀ c ∈ cs, c.RegistersValid := by
    simp [cs, before, Call.RegistersValid, Call.instructions, Instruction.RegistersValid,
      Instruction.operands]
  have hperforms : (m.after before).Performs (.stepWith 0xC2FF) (.random 2 0xFF) := ⟨rfl, rfl⟩
  obtain ⟨hgenerator, hvalue, -⟩ :=
    random_numbers {} (Generator.ofSeed 7) 42 [.stepWith 0xC1FF] cs hpast hcs
  obtain ⟨w, hw, hregister⟩ := hvalue before _ [] 2 0xFF rfl hperforms
  have hword : ChaCha.word (Generator.keyOfSeed 42) 16 = 0x79C72CA2 := by
    decide +kernel
  have hdraws : m.draws before = 16 := by decide +kernel
  have hall : m.draws (m.unroll cs) = 17 := by decide +kernel
  rw [hall] at hgenerator
  rw [hdraws, ChaCha.getElem?_stream (by decide), hword] at hw
  cases hw
  exact ⟨hcs, hperforms, hgenerator, hregister⟩

end Machine

end Chip8
