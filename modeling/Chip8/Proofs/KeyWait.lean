import Chip8.Proofs.Coding
import Chip8.Proofs.Outcome

/-!
# Polling a key wait is fetching it again

While a key is awaited, a machine polls the keypad and fetches nothing. Where instructions come from
memory alone, and programs are loaded only while no key is awaited, the word under the program
counter is still the one that began the wait (`WaitsAtWord`): nothing that can happen during a wait
changes memory, the program counter or the last word. So the register that a wait remembers is not
needed at all. A machine without it, which fetches and decodes in every step, agrees with the real
one on every result and on all else (`waits_are_refetches`).
-/

namespace Chip8

namespace Turn

theorem conclude_result (log log' : List Event) (r : EStateM.Result Stop Machine Unit) :
    (conclude log r).result = (conclude log' r).result := by
  cases r with
  | ok u m => rfl
  | error stop m => cases stop <;> rfl

theorem conclude_machine (log log' : List Event) (r : EStateM.Result Stop Machine Unit) :
    (conclude log r).machine = (conclude log' r).machine := by
  cases r with
  | ok u m => rfl
  | error stop m => cases stop <;> rfl

end Turn

/-! ## A machine that does not remember a wait -/

/-- A machine without the register that a pending wait remembers. -/
structure Refetcher where
  registers : Registers
  index : UInt16
  pc : UInt16
  stack : Stack
  delay : UInt8
  sound : UInt8
  keypad : Keypad
  lastWord : Option Word
  mode : Mode
  dialect : Dialect
  generator : Generator
  display : Display
  memory : Memory
  deriving DecidableEq

/-- All of a machine but the register that a pending wait remembers. -/
def Machine.refetcher (m : Machine) : Refetcher := { m with }

namespace Refetcher

/-- The machine that awaits no key and is otherwise the same. -/
def machine (r : Refetcher) : Machine := { r with awaiting := none }

/-- What a turn leaves of a machine, with its result. -/
def ofTurn (t : Turn Reply) : Except Stop Reply × Refetcher := (t.result, t.machine.refetcher)

/-- Fetches and runs the word at the program counter. -/
def step (r : Refetcher) : Turn Unit := r.machine.unlessHalted r.machine.fetch

/-- Makes a call. What runs no instruction is done as the machine does it. -/
def call (r : Refetcher) : Call → Except Stop Reply × Refetcher
  | .step => ofTurn (r.step.map fun _ => .done)
  | .cycle =>
    if r.mode = .paused then (.ok (.flag false), r) else ofTurn (r.step.map fun _ => .flag true)
  | c => ofTurn (r.machine.call c)

/-- The results of calls that are made one after the other, and what they leave. -/
def calls (r : Refetcher) : List Call → List (Except Stop Reply × Refetcher)
  | [] => []
  | c :: cs => r.call c :: (r.call c).2.calls cs

end Refetcher

/-! ## The word of a pending wait -/

/-- Whether a call takes instructions from nowhere but memory. -/
def Call.fromMemory : Call → Bool
  | .stepWith _ | .execute _ | .executeAll _ => false
  | _ => true

namespace Machine

/-- Programs are loaded only while no key is awaited. -/
def LoadsUnawaited (m : Machine) : List Call → Prop
  | [] => True
  | c :: cs => (∀ program, c = .load program → m.awaiting = none) ∧
      (m.call c).machine.LoadsUnawaited cs

/-- A pending wait is that of the word under the program counter, which was the last one. -/
def WaitsAtWord (m : Machine) : Prop :=
  ∀ x, m.awaiting = some x →
    x < 16 ∧ m.pc ≤ 0xFFE ∧ m.memory.word m.pc.toNat = .ok (0xF00A + 256 * x.toUInt16) ∧
      m.lastWord = some (0xF00A + 256 * x.toUInt16)

theorem waitsAtWord_of_awaiting {m : Machine} (h : m.awaiting = none) : m.WaitsAtWord := by
  intro x hx
  rw [h] at hx
  cases hx

theorem WaitsAtWord.congr {m m' : Machine} (h : m.WaitsAtWord) (ha : m'.awaiting = m.awaiting)
    (hp : m'.pc = m.pc) (hm : m'.memory = m.memory) (hl : m'.lastWord = m.lastWord) :
    m'.WaitsAtWord := by
  intro x hx
  rw [hp, hm, hl]
  exact h x (ha ▸ hx)

/-! ## A step -/

variable {m : Machine} {c : Call} {x : UInt8}

/-- Fetching the word of a pending wait again comes to the same as polling. -/
theorem fetch_forgetWait (h : m.WaitsAtWord) (hx : m.awaiting = some x) :
    m.forgetWait.fetch.result = (m.poll x).result ∧
      m.forgetWait.fetch.machine = (m.poll x).machine := by
  obtain ⟨hlt, -, hword, hlast⟩ := h x hx
  have hrun : m.forgetWait.fetch = m.forgetWait.run (0xF00A + 256 * x.toUInt16) := by
    unfold fetch
    rw [show m.forgetWait.memory.word m.forgetWait.pc.toNat = _ from hword]
  have hdecode : Instruction.decode (0xF00A + 256 * x.toUInt16) = .ok (.awaitKey x) :=
    Instruction.decode_eq_ok_iff.mpr (Instruction.ofWord?_awaitKey hlt)
  -- The last word is that word already, so fetching it again records nothing new.
  have hsame : ({ m.forgetWait with lastWord := some (0xF00A + 256 * x.toUInt16) } : Machine) =
      m.forgetWait := by
    rw [← hlast]
    rfl
  rw [hrun, run]
  simp only [hdecode, hsame]
  exact ⟨Turn.conclude_result _ _ _, Turn.conclude_machine _ _ _⟩

theorem step_refetcher (h : m.WaitsAtWord) :
    m.refetcher.step.result = m.step.result ∧
      m.refetcher.step.machine.refetcher = m.step.machine.refetcher := by
  cases hr : m.mode.reason? with
  | some f =>
    have hm : m.mode = .halted f := Mode.reason?_eq_some_iff.mp hr
    rw [Refetcher.step, step, unlessHalted_of_halted (show m.refetcher.machine.mode = _ from hm),
      unlessHalted_of_halted hm]
    exact ⟨rfl, rfl⟩
  | none =>
    rw [Refetcher.step, step,
      unlessHalted_of_reason?_eq_none (show m.refetcher.machine.mode.reason? = none from hr),
      unlessHalted_of_reason?_eq_none hr]
    cases hx : m.awaiting with
    | none =>
      have hm : m.refetcher.machine = m := by
        show { m with awaiting := none } = m
        rw [← hx]
      rw [hm]
      exact ⟨rfl, rfl⟩
    | some x =>
      obtain ⟨hresult, hmachine⟩ := fetch_forgetWait h hx
      exact ⟨hresult, congrArg refetcher hmachine⟩

theorem call_forgetWait (hc : c.fromMemory) (hr : c.runs = false) :
    Refetcher.ofTurn (m.forgetWait.call c) = Refetcher.ofTurn (m.call c) := by
  cases c with
  | load program =>
    rw [call, call, load, load, show m.forgetWait.memory = m.memory from rfl]
    cases m.memory.load program <;> rfl
  | setKey k b =>
    rw [call, call, setKey, setKey, show m.forgetWait.keypad = m.keypad from rfl]
    cases m.keypad.set k b <;> rfl
  | pause =>
    rw [call, call, pause, pause, show m.forgetWait.mode = m.mode from rfl]
    cases m.mode <;> rfl
  | resume =>
    rw [call, call, resume, resume, show m.forgetWait.mode = m.mode from rfl]
    cases m.mode <;> rfl
  | togglePause =>
    cases hm : m.mode <;>
      simp [call, togglePause, pause, resume, forgetWait, hm, Refetcher.ofTurn, Turn.done,
        refetcher]
  | tickDelay | tickSound | takeRedraw | reset => rfl
  | step | cycle => cases hr
  | stepWith | execute | executeAll => cases hc

/-- Each call comes to the same on a machine and on the one that does not remember the wait. -/
theorem call_refetcher (h : m.WaitsAtWord) (hc : c.fromMemory) :
    m.refetcher.call c = Refetcher.ofTurn (m.call c) := by
  obtain ⟨hresult, hmachine⟩ := step_refetcher h
  cases c with
  | step =>
    unfold Refetcher.call call Refetcher.ofTurn Turn.map
    rw [hresult, hmachine]
  | cycle =>
    unfold Refetcher.call
    by_cases hp : m.mode = .paused
    · rw [if_pos (show m.refetcher.mode = _ from hp), call, cycle, if_pos hp]
      rfl
    · rw [if_neg (show m.refetcher.mode ≠ _ from hp), cycle_of_not_paused hp]
      unfold Refetcher.ofTurn Turn.map
      rw [hresult, hmachine]
  | stepWith | execute | executeAll => cases hc
  | _ => exact call_forgetWait hc rfl

/-! ## What a call keeps -/

theorem fetched?_eq_some {w : Word} (h : m.fetched? = some w) :
    m.memory.word m.pc.toNat = .ok w := by
  unfold fetched? at h
  cases hw : m.memory.word m.pc.toNat with
  | error f => rw [hw] at h; cases h
  | ok v => rw [hw] at h; cases h; rfl

theorem pc_le_of_fetched? {w : Word} (h : m.fetched? = some w) : m.pc ≤ 0xFFE := by
  have hw := fetched?_eq_some h
  have hcheck : m.pc.toNat + 2 ≤ Memory.size := by
    rcases Nat.lt_or_ge Memory.size (m.pc.toNat + 2) with hlt | hle
    · rw [Memory.word, Memory.check_of_lt hlt] at hw
      cases hw
    · exact hle
  rw [UInt16.le_iff_toNat_le]
  unfold Memory.size at hcheck
  simp
  omega

/-- The wait that a step runs is that of the word under the program counter. -/
theorem word_of_awaitKey (h : m.WaitsAtWord) (hc : c = .step ∨ c = .cycle)
    (hi : m.instruction? c = some (.awaitKey x)) :
    x < 16 ∧ m.pc ≤ 0xFFE ∧ m.memory.word m.pc.toNat = .ok (0xF00A + 256 * x.toUInt16) ∧
      m.wordAfter c = some (0xF00A + 256 * x.toUInt16) := by
  have hchoice := choice?_of_instruction? hi
  cases ha : m.awaiting with
  | some y =>
    -- The wait was pending before, and polling it fetches no other word.
    have hy : m.choice? c = some (.awaitKey y) := by rcases hc with rfl | rfl <;> simp [choice?, ha]
    have hlast : m.wordAfter c = m.lastWord := by
      rcases hc with rfl | rfl <;> simp [wordAfter, word?, ha]
    rw [hy] at hchoice
    cases hchoice
    rw [hlast]
    exact h x ha
  | none =>
    -- The wait has just been fetched, and no other word encodes it.
    have hy : m.choice? c = m.fetched?.bind Instruction.ofWord? := by
      rcases hc with rfl | rfl <;> simp [choice?, ha]
    rw [hy] at hchoice
    obtain ⟨w, hf, hw⟩ := Option.bind_eq_some_iff.mp hchoice
    obtain ⟨hlt, rfl⟩ := Instruction.eq_of_ofWord?_awaitKey hw
    refine ⟨hlt, pc_le_of_fetched? hf, fetched?_eq_some hf, ?_⟩
    rcases hc with rfl | rfl <;> simp [wordAfter, word?, ha, hf]

theorem waitsAtWord_run (h : m.WaitsAtWord) (hc : c = .step ∨ c = .cycle) :
    (m.call c).machine.WaitsAtWord := by
  have hruns : c.runs := by rcases hc with rfl | rfl <;> rfl
  have ho := outcome_call m hruns
  generalize (m.call c).result = r, (m.call c).machine = m' at ho ⊢
  cases ho with
  | refused | idle => exact h
  | unfetched => exact h.congr rfl rfl rfl rfl
  | undecoded ha hw =>
    refine waitsAtWord_of_awaiting (m := { m with lastWord := _, mode := _ }) ?_
    cases hx : m.awaiting with
    | none => rfl
    | some x => rcases hc with rfl | rfl <;> simp [word?, hx] at hw
  | failed => exact waitsAtWord_of_awaiting rfl
  | ended hi hr =>
    intro x hx
    -- A wait is pending only if one found no key, and it has gone back to its word.
    obtain ⟨rfl, -, rfl⟩ :=
      Work.awaiting_of_effect (m := m.ready c) rfl (Work.left_of_ok hr) hx
    have hp : (m.ready c).pc - 2 = m.pc := by
      rcases hc with rfl | rfl <;> exact UInt16.add_sub_cancel _ _
    obtain ⟨hlt, hle, hword, hlast⟩ := word_of_awaitKey h hc hi
    show x < 16 ∧ (m.ready c).pc - 2 ≤ 0xFFE ∧ m.memory.word ((m.ready c).pc - 2).toNat = _ ∧
      m.wordAfter c = _
    rw [hp]
    exact ⟨hlt, hle, hword, hlast⟩
  | crashed hi hr =>
    have hnone := Work.awaiting_of_stop (m := m.ready c) rfl hr
    exact waitsAtWord_of_awaiting hnone

theorem waitsAtWord_host (h : m.WaitsAtWord) (hc : c.fromMemory) (hr : c.runs = false)
    (hl : ∀ program, c = .load program → m.awaiting = none) : (m.call c).machine.WaitsAtWord := by
  cases c with
  | load program =>
    obtain ⟨memory, keypad, mode, delay, sound, display, hm, -⟩ := machine_of_host m rfl hr
    rw [hm]
    exact waitsAtWord_of_awaiting (hl program rfl)
  | reset => exact waitsAtWord_of_awaiting rfl
  | executeAll => cases hc
  | _ =>
    obtain ⟨memory, keypad, mode, delay, sound, display, hm, hmemory⟩ := machine_of_host m rfl hr
    rw [hm]
    exact h.congr rfl rfl (hmemory nofun) rfl

theorem waitsAtWord_call (h : m.WaitsAtWord) (hc : c.fromMemory)
    (hl : ∀ program, c = .load program → m.awaiting = none) : (m.call c).machine.WaitsAtWord := by
  cases hr : c.runs with
  | false => exact waitsAtWord_host h hc hr hl
  | true =>
    refine waitsAtWord_run h ?_
    cases c with
    | step => exact .inl rfl
    | cycle => exact .inr rfl
    | stepWith | execute => cases hc
    | _ => cases hr

/-! ## Runs -/

theorem waitsAtWord_after {cs : List Call} (h : m.WaitsAtWord) (hc : ∀ c ∈ cs, c.fromMemory)
    (hl : m.LoadsUnawaited cs) : (m.after cs).WaitsAtWord := by
  induction cs generalizing m with
  | nil => exact h
  | cons c cs ih =>
    refine ih (waitsAtWord_call h (hc c List.mem_cons_self) hl.1) ?_ hl.2
    exact fun d hd => hc d (List.mem_cons_of_mem c hd)

theorem calls_refetcher {cs : List Call} (h : m.WaitsAtWord) (hc : ∀ c ∈ cs, c.fromMemory)
    (hl : m.LoadsUnawaited cs) :
    m.refetcher.calls cs = (m.calls cs).map Refetcher.ofTurn := by
  -- Each call comes to the same, and leaves a machine that the invariant holds of.
  induction cs generalizing m with
  | nil => rfl
  | cons c cs ih =>
    have hcall := call_refetcher h (hc c List.mem_cons_self)
    have hnext := waitsAtWord_call h (hc c List.mem_cons_self) hl.1
    have hrest := ih hnext (fun d hd => hc d (List.mem_cons_of_mem c hd)) hl.2
    rw [Refetcher.calls, calls, List.map_cons, hcall]
    exact congrArg _ hrest

theorem loadsUnawaited_take {cs : List Call} (n : Nat) (hl : m.LoadsUnawaited cs) :
    m.LoadsUnawaited (cs.take n) := by
  induction cs generalizing m n with
  | nil => rw [List.take_nil]; exact hl
  | cons c cs ih =>
    cases n with
    | zero => trivial
    | succ n => exact ⟨hl.1, ih n hl.2⟩

/-- **Polling a key wait is fetching it again.** In a run from power-on that takes instructions from
memory alone and loads programs only while no key is awaited, a pending wait is at any time that of
the word under the program counter; and call by call a machine that does not remember the wait, but
fetches and decodes in every step, returns the same and has the same in all other fields. -/
theorem waits_are_refetches (dialect : Dialect) (generator : Generator) (cs : List Call)
    (hc : ∀ c ∈ cs, c.fromMemory) (hl : (initial dialect generator).LoadsUnawaited cs) :
    (∀ n, ((initial dialect generator).after (cs.take n)).WaitsAtWord) ∧
      (initial dialect generator).refetcher.calls cs =
        ((initial dialect generator).calls cs).map Refetcher.ofTurn := by
  have h₀ : (initial dialect generator).WaitsAtWord := waitsAtWord_of_awaiting rfl
  refine ⟨fun n => ?_, calls_refetcher h₀ hc hl⟩
  exact waitsAtWord_after h₀ (fun c hm => hc c (List.mem_of_mem_take hm)) (loadsUnawaited_take n hl)

/-- A wait that is polled across a pause, with a key pressed before the last poll. -/
theorem waits_are_refetches_pressed :
    let m := initial {} (Generator.ofSeed 0)
    let cs : List Call := [.load [0xF3, 0x0A], .step, .step, .tickDelay, .togglePause, .step,
      .resume, .setKey 5 true, .cycle]
    (∀ c ∈ cs, c.fromMemory) ∧ m.LoadsUnawaited cs ∧ (m.after (cs.take 6)).awaiting = some 3 ∧
      (∀ n, (m.after (cs.take n)).WaitsAtWord) ∧
      m.refetcher.calls cs = (m.calls cs).map Refetcher.ofTurn := by
  intro m cs
  have hc : ∀ c ∈ cs, c.fromMemory := by decide
  have hl : m.LoadsUnawaited cs := by
    refine ⟨fun _ _ => rfl, ?_⟩
    iterate 8 refine ⟨nofun, ?_⟩
    trivial
  have ha : (m.after (cs.take 6)).awaiting = some 3 := by decide +kernel
  obtain ⟨hw, hr⟩ := waits_are_refetches {} (Generator.ofSeed 0) cs hc hl
  exact ⟨hc, hl, ha, hw, hr⟩

end Machine

end Chip8
