import Chip8.Fault
import Chip8.Word

/-!
# Memory

Memory is 4096 bytes. The glyphs of the sixteen hexadecimal digits lie at its bottom, five bytes
each, and programs are loaded at `0x200`.

Every access names a start address and a number of bytes, and is refused with the address of its
last byte if it reaches past the end. `byteAt` is the view of memory that the laws below are stated
on: a write changes exactly the bytes it covers.
-/

namespace Chip8

/-- The memory of the machine. -/
structure Memory where
  bytes : Vector UInt8 4096
  deriving DecidableEq

namespace Memory

/-- The number of bytes. -/
def size : Nat := 4096

/-- Where programs start. -/
def programStart : Nat := 0x200

/-- How many bytes a program may have. -/
def room : Nat := size - programStart

/-- The number of bytes of a glyph. -/
def glyphSize : Nat := 5

/-- The glyphs of the digits `0` to `F`, one after the other. -/
def glyphs : List UInt8 :=
  [0xF0, 0x90, 0x90, 0x90, 0xF0,
   0x20, 0x60, 0x20, 0x20, 0x70,
   0xF0, 0x10, 0xF0, 0x80, 0xF0,
   0xF0, 0x10, 0xF0, 0x10, 0xF0,
   0x90, 0x90, 0xF0, 0x10, 0x10,
   0xF0, 0x80, 0xF0, 0x10, 0xF0,
   0xF0, 0x80, 0xF0, 0x90, 0xF0,
   0xF0, 0x10, 0x20, 0x40, 0x40,
   0xF0, 0x90, 0xF0, 0x90, 0xF0,
   0xF0, 0x90, 0xF0, 0x10, 0xF0,
   0xF0, 0x90, 0xF0, 0x90, 0x90,
   0xE0, 0x90, 0xE0, 0x90, 0xE0,
   0xF0, 0x80, 0x80, 0x80, 0xF0,
   0xE0, 0x90, 0x90, 0x90, 0xE0,
   0xF0, 0x80, 0xF0, 0x80, 0xF0,
   0xF0, 0x80, 0xF0, 0x80, 0x80]

/-- The byte at the address `a`, or `0` past the end. -/
def byteAt (m : Memory) (a : Nat) : UInt8 := m.bytes[a]?.getD 0

/-- The memory with `b` at the address `a`; an address past the end is ignored. -/
def setByte (m : Memory) (a : Nat) (b : UInt8) : Memory := ⟨m.bytes.setIfInBounds a b⟩

/-- The memory with `bs` laid over the bytes from the address `a` on. -/
def overlay (m : Memory) (a : Nat) : List UInt8 → Memory
  | [] => m
  | b :: bs => overlay (m.setByte a b) (a + 1) bs

/-- A new memory holds the glyphs and is zero elsewhere. -/
def initial : Memory := overlay ⟨Vector.replicate 4096 0⟩ 0 glyphs

/-- Refuses an access to `n` bytes from the address `a` that reaches past the end. -/
def check (a n : Nat) : Except Fault Unit :=
  if a + n ≤ size then .ok () else .error (.outOfRange (UInt32.ofNat (a + n - 1)))

/-- The `n` bytes from the address `a` on. -/
def read (m : Memory) (a n : Nat) : Except Fault (List UInt8) :=
  (check a n).map fun _ => (List.range n).map fun k => m.byteAt (a + k)

/-- The memory with `bs` written from the address `a` on. -/
def write (m : Memory) (a : Nat) (bs : List UInt8) : Except Fault Memory :=
  (check a bs.length).map fun _ => m.overlay a bs

/-- The word at the address `a`, the high byte first. -/
def word (m : Memory) (a : Nat) : Except Fault Word :=
  (check a 2).map fun _ => Word.ofBytes (m.byteAt a) (m.byteAt (a + 1))

/-- The memory with a program at `programStart`; a program without room is refused. -/
def load (m : Memory) (program : List UInt8) : Except Fault Memory :=
  if program.length ≤ room then .ok (m.overlay programStart program)
  else .error (.tooLarge program.length room)

theorem length_of_read {m : Memory} {a n : Nat} {bs : List UInt8} (h : m.read a n = .ok bs) :
    bs.length = n := by
  unfold read at h
  cases hc : check a n with
  | error f =>
    rw [hc] at h
    cases h
  | ok u =>
    rw [hc] at h
    cases h
    simp

/-! ## What is read after a write -/

@[ext] theorem ext {m m' : Memory} (h : ∀ a < 4096, m.byteAt a = m'.byteAt a) : m = m' := by
  obtain ⟨bs⟩ := m
  obtain ⟨bs'⟩ := m'
  refine congrArg Memory.mk (Vector.ext fun a ha => ?_)
  have := h a ha
  simpa [byteAt, ha] using this

theorem byteAt_setByte (m : Memory) (a k : Nat) (b : UInt8) :
    (m.setByte a b).byteAt k = if a = k ∧ a < size then b else m.byteAt k := by
  unfold byteAt setByte size
  by_cases hk : k < 4096 <;> by_cases h : a = k
  · subst h; simp [hk]
  · simp [hk, h]
  · subst h; simp [hk]
  · simp [hk, h]

/-- An overlay is read back where it lies, and the rest is as before. -/
theorem byteAt_overlay (bs : List UInt8) : ∀ (m : Memory) (a k : Nat), a + bs.length ≤ size →
    (m.overlay a bs).byteAt k =
      if h : a ≤ k ∧ k < a + bs.length then bs[k - a] else m.byteAt k := by
  induction bs with
  | nil =>
    intro m a k _
    have : ¬ (a ≤ k ∧ k < a + ([] : List UInt8).length) := by simp
    rw [overlay, dif_neg this]
  | cons b bs ih =>
    intro m a k hl
    simp only [List.length_cons] at hl
    rw [overlay, ih _ _ _ (by omega), byteAt_setByte]
    by_cases h : a = k
    · subst h
      have h1 : ¬ (a + 1 ≤ a ∧ a < a + 1 + bs.length) := by omega
      have h2 : a ≤ a ∧ a < a + (b :: bs).length := by simp
      have h3 : a < size := by omega
      rw [dif_neg h1, dif_pos h2]
      simp [h3]
    · by_cases h1 : a + 1 ≤ k ∧ k < a + 1 + bs.length
      · have h2 : a ≤ k ∧ k < a + (b :: bs).length := by simp; omega
        have h3 : k - a = k - (a + 1) + 1 := by omega
        simp only [h1, h2, and_self, dif_pos]
        simp [h3]
      · have h2 : ¬ (a ≤ k ∧ k < a + (b :: bs).length) := by simp; omega
        rw [dif_neg h1, dif_neg h2]
        simp [h]

theorem byteAt_overlay_add {m : Memory} {a k : Nat} {bs : List UInt8}
    (hl : a + bs.length ≤ size) (hk : k < bs.length) :
    (m.overlay a bs).byteAt (a + k) = bs[k] := by
  have hcovered : a ≤ a + k ∧ a + k < a + bs.length :=
    ⟨Nat.le_add_right a k, Nat.add_lt_add_left hk a⟩
  rw [byteAt_overlay bs _ _ _ hl, dif_pos hcovered]
  simp only [Nat.add_sub_cancel_left]

theorem covers_of_byteAt_overlay {m : Memory} {a k : Nat} {bs : List UInt8}
    (hl : a + bs.length ≤ size) (hne : (m.overlay a bs).byteAt k ≠ m.byteAt k) :
    a ≤ k ∧ k < a + bs.length := by
  rw [byteAt_overlay bs _ _ _ hl] at hne
  by_cases h : a ≤ k ∧ k < a + bs.length
  · exact h
  · rw [dif_neg h] at hne
    exact absurd rfl hne

theorem check_eq_ok_iff {a n : Nat} : check a n = .ok () ↔ a + n ≤ size := by
  unfold check
  split <;> simp_all

theorem check_of_le {a n : Nat} (h : a + n ≤ size) : check a n = .ok () := check_eq_ok_iff.mpr h

theorem check_of_lt {a n : Nat} (h : size < a + n) :
    check a n = .error (.outOfRange (UInt32.ofNat (a + n - 1))) := by
  unfold check
  rw [if_neg (by omega)]

end Memory

end Chip8
