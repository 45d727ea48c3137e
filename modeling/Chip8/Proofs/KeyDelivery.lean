import Chip8.Proofs.History

/-!
# Key presses are neither lost nor delivered twice

A key is pressed if the last thing that happened to it is a press; what can happen to it is that
the host presses or releases it, that it is delivered to a wait, and a return to power-on
(`keyEvents`). This follows from what a single call has to do with the keys (`HandlesKeys`): a wait
takes the lowest pressed key and leaves the others, no other instruction changes any, and neither
does a call that fails, unless it runs several instructions and a wait before the failure completed.
-/

namespace Chip8

/-- Whether a call changes keys without an instruction. -/
def Call.setsKeys : Call → Bool
  | .setKey _ _ | .reset => true
  | _ => false

namespace Machine

/-- The key that a call stores in a register, if it completes a wait for one. -/
def delivered? (m : Machine) (c : Call) : Option UInt8 :=
  match m.performed? c with
  | some (.awaitKey x) =>
    if (m.call c).machine.awaiting = none then (m.call c).machine.register? x else none
  | _ => none

/-- What a call makes of the key `k`, if it is about that key: whether it is pressed. -/
def keyEvent? (m : Machine) (k : UInt8) : Call → Option Bool
  | .setKey j b => if j = k then some b else none
  | .reset => some false
  | c => if m.delivered? c = some k then some false else none

/-- What happens to the key `k` in a run, in order: `true` for a press. -/
def keyEvents (m : Machine) (k : UInt8) : List Call → List Bool
  | [] => []
  | c :: cs => (m.keyEvent? k c).toList ++ (m.call c).machine.keyEvents k cs

/-- The keys that a run delivers. -/
def deliveries (m : Machine) : List Call → List UInt8
  | [] => []
  | c :: cs => (m.delivered? c).toList ++ (m.call c).machine.deliveries cs

/-- What the call `c` has to do with the keys of the machine `m`. -/
structure HandlesKeys (m : Machine) (c : Call) : Prop where
  /-- The key that a wait stores is the lowest pressed one, and it alone is released. -/
  delivers : ∀ k, m.delivered? c = some k →
    (∃ x, m.Performs c (.awaitKey x) ∧ (m.call c).machine.register? x = some k) ∧
      m.keypad.isPressed k ∧ (∀ j, m.keypad.isPressed j → k ≤ j) ∧
      ∀ j, (m.call c).machine.keypad.isPressed j = (m.keypad.isPressed j && j != k)
  /-- A wait that is run while some key is pressed completes. -/
  completes : ∀ x j, m.instruction? c = some (.awaitKey x) → m.keypad.isPressed j →
    ∃ k, m.delivered? c = some k
  /-- Otherwise no instruction changes a key, nor does the host, but where it is about keys. -/
  keeps : m.delivered? c = none → c ≠ .reset → (∀ j b, c = .setKey j b → 16 ≤ j) →
    (m.call c).machine.keypad = m.keypad
  /-- What fails changes no key. -/
  fails : ∀ stop, (m.call c).result = .error stop → (m.call c).machine.keypad = m.keypad

variable {m : Machine} {c : Call} {cs ds : List Call} {i : Instruction} {x k : UInt8}

/-! ## Events -/

theorem keyEvent?_setKey (m : Machine) (k j : UInt8) (b : Bool) :
    m.keyEvent? k (.setKey j b) = if j = k then some b else none := rfl

theorem keyEvent?_of_not_setsKeys (hc : c.setsKeys = false) :
    m.keyEvent? k c = if m.delivered? c = some k then some false else none := by
  cases c with
  | setKey | reset => cases hc
  | _ => rfl

theorem eq_setKey_of_keyEvent? (h : m.keyEvent? k c = some true) : c = .setKey k true := by
  cases c with
  | setKey j b =>
    rw [keyEvent?_setKey] at h
    split at h
    · subst j
      cases h
      rfl
    · cases h
  | reset => cases h
  | _ =>
    have hevent := (keyEvent?_of_not_setsKeys rfl).symm.trans h
    split at hevent <;> cases hevent

theorem mem_of_mem_keyEvents (h : true ∈ m.keyEvents k cs) : .setKey k true ∈ cs := by
  induction cs generalizing m with
  | nil => cases h
  | cons c cs ih =>
    rcases List.mem_append.mp h with h | h
    · rw [eq_setKey_of_keyEvent? (Option.mem_toList.mp h)]
      exact List.mem_cons_self
    · exact List.mem_cons_of_mem c (ih h)

/-! ## A wait -/

theorem delivered?_of_performed? (hp : m.performed? c = some (.awaitKey x)) :
    m.delivered? c =
      if (m.call c).machine.awaiting = none then (m.call c).machine.register? x else none := by
  rw [delivered?, hp]

theorem delivered?_of_some {p : Keypad} (hx : x < 16) (hi : m.instruction? c = some (.awaitKey x))
    (hk : m.keypad.takeFirst? = some (k, p)) :
    m.Performs c (.awaitKey x) ∧ m.delivered? c = some k ∧ (m.call c).machine.keypad = p ∧
      (m.call c).machine.register? x = some k := by
  have hlt : x.toNat < 16 := Operand.toNat_lt_of_fits hx
  have hready : (m.ready c).keypad.takeFirst? = some (k, p) := hk
  have hr := Work.run_pollKey_of_some (x := x) hready
  rw [Work.run_put, dif_pos hlt] at hr
  obtain ⟨hresult, hmachine⟩ := call_of_effect hi hr
  have hregister : (m.call c).machine.register? x = some k := by
    rw [hmachine, register?_of_lt _ hlt]
    simp
  have hdelivered := delivered?_of_performed? (performed?_eq_some_iff.mpr ⟨hi, hresult⟩)
  rw [hregister, hmachine] at hdelivered
  exact ⟨⟨hi, hresult⟩, hdelivered, by rw [hmachine], hregister⟩

theorem delivered?_of_none (hi : m.instruction? c = some (.awaitKey x))
    (hk : m.keypad.takeFirst? = none) :
    m.delivered? c = none ∧ (m.call c).result = .ok c.reply ∧
      (m.call c).machine.keypad = m.keypad := by
  have hready : (m.ready c).keypad.takeFirst? = none := hk
  obtain ⟨hresult, hmachine⟩ := call_of_effect hi (Work.run_pollKey_of_none (x := x) hready)
  have hdelivered := delivered?_of_performed? (performed?_eq_some_iff.mpr ⟨hi, hresult⟩)
  rw [hmachine] at hdelivered
  exact ⟨hdelivered, hresult, by rw [hmachine]; rfl⟩

theorem handlesKeys_of_awaitKey (hx : x < 16) (hi : m.instruction? c = some (.awaitKey x)) :
    m.HandlesKeys c := by
  cases hk : m.keypad.takeFirst? with
  | some found =>
    obtain ⟨k, p⟩ := found
    obtain ⟨hpressed, hlowest, hreleased⟩ := Keypad.of_takeFirst? hk
    obtain ⟨hperforms, hdelivered, hkeypad, hregister⟩ := delivered?_of_some hx hi hk
    refine ⟨fun j hj => ?_, fun _ _ _ _ => ⟨k, hdelivered⟩, fun hnone => ?_, fun stop hstop => ?_⟩
    · cases hdelivered.symm.trans hj
      exact ⟨⟨x, hperforms, hregister⟩, hpressed, hlowest, hkeypad ▸ hreleased⟩
    · cases hdelivered.symm.trans hnone
    · cases hperforms.2.symm.trans hstop
  | none =>
    obtain ⟨hdelivered, hresult, hkeypad⟩ := delivered?_of_none hi hk
    refine ⟨fun k hk => ?_, fun _ j _ hj => ?_, fun _ _ _ => hkeypad, fun stop hstop => ?_⟩
    · cases hdelivered.symm.trans hk
    · have hsome := Keypad.isSome_takeFirst? hj
      rw [hk] at hsome
      cases hsome
    · cases hresult.symm.trans hstop

/-! ## Other calls -/

theorem delivered?_of_ne (h : ∀ x, m.instruction? c ≠ some (.awaitKey x)) :
    m.delivered? c = none := by
  unfold delivered?
  split
  · rename_i x hp
    exact absurd (performed?_eq_some_iff.mp hp).1 (h x)
  · rfl

theorem keypad_of_ne (hr : c.runs) (h : ∀ x, m.instruction? c ≠ some (.awaitKey x)) :
    (m.call c).machine.keypad = m.keypad := by
  refine kept_of_runs hr (fun _ _ _ _ _ => rfl) fun i hi => Work.keeps_part .keypad ?_
  cases i with
  | awaitKey x => exact absurd hi (h x)
  | _ => rfl

/-- Of the calls that run no instruction, those that press keys and a return to power-on alone have
to do with keys. -/
theorem keypad_of_host (hr : c.runs = false) (hone : c.isMany = false) (hreset : c ≠ .reset)
    (hset : ∀ j b, c = .setKey j b → 16 ≤ j) : (m.call c).machine.keypad = m.keypad := by
  cases c with
  | load program =>
    rw [call, load]
    cases m.memory.load program <;> rfl
  | setKey j b =>
    have hj : ¬ j.toNat < 16 := Nat.not_lt.mpr (hset j b rfl)
    rw [call, setKey, Keypad.set, dif_neg hj]
    rfl
  | pause | resume | togglePause =>
    cases hm : m.mode <;> simp [call, togglePause, pause, resume, hm, Turn.done]
  | tickDelay | tickSound | takeRedraw => rfl
  | reset => exact absurd rfl hreset
  | step | cycle | stepWith | execute => cases hr
  | executeAll => cases hone

theorem handlesKeys_of_ne (hone : c.isMany = false)
    (h : ∀ x, m.instruction? c ≠ some (.awaitKey x)) : m.HandlesKeys c where
  delivers := by
    intro k hk
    cases (delivered?_of_ne h).symm.trans hk
  completes := fun x _ hi _ => absurd hi (h x)
  keeps := by
    intro _ hreset hset
    cases hr : c.runs with
    | true => exact keypad_of_ne hr h
    | false => exact keypad_of_host hr hone hreset hset
  fails := by
    intro stop hstop
    cases hr : c.runs with
    | true => exact keypad_of_ne hr h
    | false =>
      refine keypad_of_host hr hone (fun hreset => ?_) fun j b hset => ?_
      · subst hreset
        cases hstop
      · subst hset
        refine UInt8.not_lt.mp fun hj => ?_
        have hlt : j.toNat < 16 := hj
        rw [call, setKey, Keypad.set, dif_pos hlt] at hstop
        cases hstop

theorem handlesKeys (h : m.WaitsForRegister) (hone : c.isMany = false) (hc : c.RegistersValid) :
    m.HandlesKeys c := by
  by_cases hi : ∃ x, m.instruction? c = some (.awaitKey x)
  · obtain ⟨x, hi⟩ := hi
    exact handlesKeys_of_awaitKey (registersValid_of_instruction? h hc hi x (.head _)) hi
  · exact handlesKeys_of_ne hone fun x hx => hi ⟨x, hx⟩

/-! ## Runs -/

namespace HandlesKeys

variable (H : m.HandlesKeys c)
include H

theorem isPressed_of_delivered? (hc : c.setsKeys = false) :
    (m.call c).machine.keypad.isPressed k =
      (if m.delivered? c = some k then some false else none).getD (m.keypad.isPressed k) := by
  have hreset : c ≠ .reset := fun h => by
    subst h
    cases hc
  have hset : ∀ j b, c = .setKey j b → 16 ≤ j := fun j b h => by
    subst h
    cases hc
  cases hd : m.delivered? c with
  | none =>
    rw [H.keeps hd hreset hset]
    rfl
  | some j =>
    rw [(H.delivers j hd).2.2.2 k]
    by_cases hj : j = k
    · simp [hj]
    · simp [hj, Ne.symm hj]

/-- After a call a key is as the call leaves it, if the call is about that key, or as before. -/
theorem isPressed_call (hk : k < 16) :
    (m.call c).machine.keypad.isPressed k = (m.keyEvent? k c).getD (m.keypad.isPressed k) := by
  cases c with
  | setKey j b =>
    by_cases hj : j.toNat < 16
    · have hset : m.keypad.set j b = .ok ⟨m.keypad.keys.set j.toNat b⟩ := dif_pos hj
      have hpressed := Keypad.isPressed_set hset k
      rw [call, setKey, hset]
      refine hpressed.trans ?_
      rw [keyEvent?_setKey]
      by_cases hjk : j = k
      · rw [if_pos hjk, if_pos hjk.symm]
        rfl
      · rw [if_neg hjk, if_neg (Ne.symm hjk)]
        rfl
    · have hne : j ≠ k := fun h => hj (h ▸ hk)
      rw [H.fails (.fault (.noSuchKey j)) (by rw [call, setKey, Keypad.set, dif_neg hj]; rfl),
        keyEvent?_setKey, if_neg hne]
      rfl
  | reset => exact Keypad.isPressed_released k
  | _ => exact H.isPressed_of_delivered? rfl

end HandlesKeys

/-- A key is as the last event that concerns it leaves it. -/
theorem isPressed_after (hk : k < 16) (h : m.WaitsForRegister)
    (hcs : ∀ c ∈ cs, c.isMany = false ∧ c.RegistersValid) :
    (m.after cs).keypad.isPressed k =
      (m.keyEvents k cs).getLast?.getD (m.keypad.isPressed k) := by
  induction cs generalizing m with
  | nil => rfl
  | cons c cs ih =>
    obtain ⟨hone, hc⟩ := hcs c List.mem_cons_self
    have hrest := ih (waitsForRegister_call h hc) fun d hd => hcs d (List.mem_cons_of_mem c hd)
    rw [(handlesKeys h hone hc).isPressed_call hk] at hrest
    rw [after, hrest, keyEvents, List.getLast?_append]
    cases (m.call c).machine.keyEvents k cs |>.getLast? <;> cases m.keyEvent? k c <;> rfl

/-- A key that is delivered twice has been pressed in between. -/
theorem mem_of_delivered? {between : List Call} {d : Call} (h : m.WaitsForRegister)
    (hone : c.isMany = false) (hc : c.RegistersValid)
    (hbetween : ∀ e ∈ between, e.isMany = false ∧ e.RegistersValid)
    (hd : d.isMany = false ∧ d.RegistersValid) (hfirst : m.delivered? c = some k)
    (hsecond : ((m.call c).machine.after between).delivered? d = some k) :
    .setKey k true ∈ between := by
  have hwaits := waitsForRegister_call h hc
  have hwaits' := waitsForRegister_after hwaits fun e he => (hbetween e he).2
  obtain ⟨-, -, -, hreleased⟩ := (handlesKeys h hone hc).delivers k hfirst
  obtain ⟨-, hpressed, -⟩ := (handlesKeys hwaits' hd.1 hd.2).delivers k hsecond
  have hevents := isPressed_after (Keypad.lt_of_isPressed hpressed) hwaits hbetween
  rw [hpressed, hreleased k] at hevents
  apply mem_of_mem_keyEvents (m := (m.call c).machine)
  apply List.mem_of_getLast?
  cases hlast : ((m.call c).machine.keyEvents k between).getLast? with
  | none =>
    rw [hlast] at hevents
    simp at hevents
  | some b =>
    rw [hlast] at hevents
    exact congrArg some hevents.symm

theorem isPressed_executeAll {is : List Instruction} (h : m.WaitsForRegister)
    (his : ∀ i ∈ is, i.RegistersValid) :
    (m.after (is.map .execute)).keypad.isPressed k =
      (m.keypad.isPressed k && !(m.deliveries (is.map .execute)).contains k) := by
  induction is generalizing m with
  | nil => simp [after, deliveries]
  | cons i is ih =>
    have hi : (Call.execute i).RegistersValid := by
      intro j hj
      obtain rfl := List.mem_singleton.mp hj
      exact his j List.mem_cons_self
    have hrest := ih (waitsForRegister_call h hi) fun j hj => his j (List.mem_cons_of_mem i hj)
    rw [(handlesKeys h rfl hi).isPressed_of_delivered? rfl] at hrest
    rw [List.map_cons, after, hrest, deliveries]
    cases hd : m.delivered? (.execute i) with
    | none => simp
    | some j => by_cases hj : j = k <;> simp [hj, Ne.symm]

/-- A call that fails changes the keys that were delivered before it did, and no other. -/
theorem isPressed_of_error {stop : Stop} (h : m.WaitsForRegister) (hc : c.RegistersValid)
    (hstop : (m.call c).result = .error stop) :
    (m.call c).machine.keypad.isPressed k =
      (m.keypad.isPressed k && !(m.deliveries (m.unrolled c)).contains k) := by
  cases hone : c.isMany with
  | true =>
    cases c with
    | executeAll is =>
      rw [← after_unrolled]
      exact isPressed_executeAll h fun i hi => hc i (tried_subset m is hi)
    | _ => cases hone
  | false =>
    have hd : m.delivered? c = none := by rw [delivered?, performed?, hstop]
    have hunrolled : m.unrolled c = [c] := by
      cases c with
      | executeAll is => cases hone
      | _ => rfl
    rw [(handlesKeys h hone hc).fails stop hstop, hunrolled]
    simp [deliveries, hd]

/-- **Key presses are neither lost nor delivered twice.** After any run from power-on a key is
pressed exactly if the last event that concerns it is a press. At any moment of the run a wait takes
the lowest pressed key and no other, and it completes if there is one; no other instruction changes a
key, and no call that fails, but that instructions which are run at once may deliver keys before one
of them fails. So between two deliveries of a key there is a press of it. -/
theorem keys_delivered_once (dialect : Dialect) (generator : Generator) (cs : List Call)
    (hcs : ∀ c ∈ cs, c.RegistersValid) :
    let m := initial dialect generator
    (∀ k < 16, (m.after cs).keypad.isPressed k = true ↔
      (m.keyEvents k (m.unroll cs)).getLast? = some true) ∧
    (∀ before c rest, m.unroll cs = before ++ c :: rest → (m.after before).HandlesKeys c) ∧
    (∀ before c rest stop, cs = before ++ c :: rest →
      ((m.after before).call c).result = .error stop →
        (c.isMany = false → ((m.after before).call c).machine.keypad = (m.after before).keypad) ∧
        ∀ k, ((m.after before).call c).machine.keypad.isPressed k =
          ((m.after before).keypad.isPressed k &&
            !((m.after before).deliveries ((m.after before).unrolled c)).contains k)) ∧
    ∀ k before c between d rest, m.unroll cs = before ++ c :: (between ++ d :: rest) →
      (m.after before).delivered? c = some k →
        (m.after (before ++ c :: between)).delivered? d = some k → .setKey k true ∈ between := by
  intro m
  have hm : m.WaitsForRegister := waitsForRegister_initial dialect generator
  have hvalid := valid_of_mem_unroll (m := m) hcs
  have hwaits : ∀ before rest, m.unroll cs = before ++ rest → (m.after before).WaitsForRegister := by
    intro before rest hsplit
    refine waitsForRegister_after hm fun d hd => (hvalid d ?_).2
    rw [hsplit]
    exact List.mem_append_left rest hd
  refine ⟨fun k hk => ?_, fun before c rest hsplit => ?_, fun before c rest stop hsplit hstop => ?_,
    fun k before c between d rest hsplit hfirst hsecond => ?_⟩
  · have hreleased : m.keypad.isPressed k = false := Keypad.isPressed_released k
    rw [← after_unroll, isPressed_after hk hm hvalid, hreleased]
    cases (m.keyEvents k (m.unroll cs)).getLast? <;> simp
  · have hc := hvalid c (by simp [hsplit])
    exact handlesKeys (hwaits before _ hsplit) hc.1 hc.2
  · have hbefore : (m.after before).WaitsForRegister :=
      waitsForRegister_after hm fun d hd => hcs d (by simp [hsplit, hd])
    have hc : c.RegistersValid := hcs c (by simp [hsplit])
    exact ⟨fun hone => (handlesKeys hbefore hone hc).fails stop hstop,
      fun k => isPressed_of_error hbefore hc hstop⟩
  · have hc := hvalid c (by simp [hsplit])
    rw [after_append] at hsecond
    refine mem_of_delivered? (hwaits before _ hsplit) hc.1 hc.2 (fun e he => hvalid e ?_)
      (hvalid d (by simp [hsplit])) hfirst hsecond
    simp [hsplit, he]

/-- Two keys are pressed; the lower one is delivered, pressed again and delivered again. -/
theorem keys_delivered_once_twice :
    let m := initial {} (Generator.ofSeed 0)
    let before : List Call := [.setKey 9 true, .setKey 4 true, .setKey 16 true]
    let between : List Call := [.step, .setKey 4 true]
    let cs := before ++ .stepWith 0xF30A :: (between ++ [.execute (.awaitKey 15)])
    (∀ c ∈ cs, c.RegistersValid) ∧
      (m.after cs).keypad.isPressed 9 = true ∧ (m.after cs).keypad.isPressed 4 ≠ true ∧
      (m.after before).HandlesKeys (.stepWith 0xF30A) ∧
      (m.after before).delivered? (.stepWith 0xF30A) = some 4 ∧ .setKey 4 true ∈ between := by
  intro m before between cs
  have hcs : ∀ c ∈ cs, c.RegistersValid := by
    simp [cs, before, between, Call.RegistersValid, Call.instructions, Instruction.RegistersValid,
      Instruction.operands]
  have hunroll : m.unroll cs = cs := rfl
  obtain ⟨hevents, hhandles, -, hpress⟩ := keys_delivered_once {} (Generator.ofSeed 0) cs hcs
  have hfirst : (m.after before).delivered? (.stepWith 0xF30A) = some 4 := by decide +kernel
  refine ⟨hcs, (hevents 9 (by decide)).mpr (by decide +kernel), fun h => ?_,
    hhandles before _ _ hunroll, hfirst, ?_⟩
  · exact absurd ((hevents 4 (by decide)).mp h) (by decide +kernel)
  · exact hpress 4 before _ between _ [] hunroll hfirst (by decide +kernel)

/-- A call that fails may change a key: a wait takes one, and a return without a call fails then. -/
theorem key_delivered_by_failing_call :
    let m := (initial {} (Generator.ofSeed 0)).after [.setKey 4 true]
    let c := Call.executeAll [.awaitKey 0, .ret]
    c.RegistersValid ∧ (m.call c).result = .error (.fault .stackUnderflow) ∧
      m.keypad.isPressed 4 = true ∧ (m.call c).machine.keypad.isPressed 4 = false := by
  refine ⟨?_, rfl, rfl, rfl⟩
  simp [Call.RegistersValid, Call.instructions, Instruction.RegistersValid, Instruction.operands]

end Machine

end Chip8
