import Chip8.Memory

/-!
# Memory is a byte store

Programs are loaded, bytes are written and read, in any order and with any overlap, and some of it
reaches past the end and is refused. After all that a byte is the one that the latest use which went
through and covers its address put there, and the glyph byte or zero if there was none (`held`,
`byteAt_after`). A shorter program leaves the end of a longer one, and a refused use leaves everything.

From this, every use of such a memory is answered exactly (`faithful_byte_store`).
-/

namespace Chip8.Memory

/-- A use of memory. -/
inductive Access where
  /-- Load a program. -/
  | load (program : List UInt8)
  /-- Write bytes from the address `a` on. -/
  | write (a : UInt16) (bs : List UInt8)
  /-- Read `n` bytes from the address `a` on. -/
  | read (a : UInt16) (n : Nat)
  /-- Read the word at the address `a`. -/
  | word (a : UInt16)

/-- What a use of memory answers. -/
inductive Answer where
  /-- Nothing but that it succeeded. -/
  | done
  | bytes (bs : List UInt8)
  | word (w : Word)

namespace Access

/-- The first address of an access. -/
def start : Access → Nat
  | load _ => programStart
  | write a _ | read a _ | word a => a.toNat

/-- The number of bytes that an access covers. -/
def count : Access → Nat
  | load program => program.length
  | write _ bs => bs.length
  | read _ n => n
  | word _ => 2

/-- The bytes that an access puts from its first address on. -/
def contents : Access → List UInt8
  | load program => program
  | write _ bs => bs
  | read _ _ | word _ => []

/-- The access covers no address past the end of memory. -/
def Fits (u : Access) : Prop := u.start + u.count ≤ size

instance (u : Access) : Decidable u.Fits := by
  unfold Fits
  infer_instance

/-- The byte that an access puts at the address `k`, if it goes through and covers it. -/
def put? (u : Access) (k : Nat) : Option UInt8 :=
  if u.Fits ∧ u.start ≤ k then u.contents[k - u.start]? else none

end Access

/-- What a change of memory answers, and the memory after it: a refused one is not made. -/
def settle (m : Memory) : Except Fault Memory → Except Fault Answer × Memory
  | .ok m' => (.ok .done, m')
  | .error f => (.error f, m)

/-- What a use of memory answers, and the memory after it. -/
def perform (m : Memory) : Access → Except Fault Answer × Memory
  | .load program => m.settle (m.load program)
  | .write a bs => m.settle (m.write a.toNat bs)
  | .read a n => ((m.read a.toNat n).map .bytes, m)
  | .word a => ((m.word a.toNat).map .word, m)

/-- The memory after uses, whether they succeed or not. -/
def after (m : Memory) (us : List Access) : Memory := us.foldl (fun m u => (m.perform u).2) m

/-- The byte at the address `k` according to the uses of a new memory: the one that the latest of
them put there that goes through and covers it, and if there is none the byte of a glyph or zero. -/
def held (us : List Access) (k : Nat) : UInt8 :=
  (us.reverse.findSome? fun u => u.put? k).getD (glyphs[k]?.getD 0)

/-- The use `u` is refused with the address `last`, and changes nothing. -/
def Refuses (m : Memory) (u : Access) (last : Nat) : Prop :=
  ∃ f : UInt32, f.toNat = last ∧ m.perform u = (.error (.outOfRange f), m)

/-- The memory answers every use as one does whose bytes are `content`. -/
structure Serves (m : Memory) (content : Nat → UInt8) : Prop where
  reads : ∀ (a : UInt16) (n : Nat), a.toNat + n ≤ 4096 →
    m.perform (.read a n) = (.ok (.bytes ((List.range n).map fun k => content (a.toNat + k))), m)
  words : ∀ a : UInt16, a.toNat + 2 ≤ 4096 →
    ∃ w : Word, w.toNat = 256 * (content a.toNat).toNat + (content (a.toNat + 1)).toNat ∧
      m.perform (.word a) = (.ok (.word w), m)
  writes : ∀ (a : UInt16) (bs : List UInt8), a.toNat + bs.length ≤ 4096 →
    (m.perform (.write a bs)).1 = .ok .done
  loads : ∀ program : List UInt8, program.length ≤ 3584 →
    (m.perform (.load program)).1 = .ok .done
  refusesRead : ∀ (a : UInt16) (n : Nat), 4096 < a.toNat + n → a.toNat + n ≤ UInt32.size →
    m.Refuses (.read a n) (a.toNat + n - 1)
  refusesWord : ∀ a : UInt16, 4096 < a.toNat + 2 → m.Refuses (.word a) (a.toNat + 1)
  refusesWrite : ∀ (a : UInt16) (bs : List UInt8), 4096 < a.toNat + bs.length →
    a.toNat + bs.length ≤ UInt32.size → m.Refuses (.write a bs) (a.toNat + bs.length - 1)
  refusesLoad : ∀ program : List UInt8, 3584 < program.length →
    m.perform (.load program) = (.error (.tooLarge program.length 3584), m)

variable {m : Memory}

/-! ## One use -/

/-- What a use that fits answers. -/
def answer (m : Memory) : Access → Answer
  | .load _ | .write _ _ => .done
  | .read a n => .bytes ((List.range n).map fun k => m.byteAt (a.toNat + k))
  | .word a => .word (Word.ofBytes (m.byteAt a.toNat) (m.byteAt (a.toNat + 1)))

/-- The fault with which a use is refused that does not fit. -/
def Access.fault : Access → Fault
  | .load program => .tooLarge program.length room
  | u => .outOfRange (UInt32.ofNat (u.start + u.count - 1))

theorem fits_load_iff {program : List UInt8} :
    (Access.load program).Fits ↔ program.length ≤ room := by
  change 512 + program.length ≤ 4096 ↔ program.length ≤ 3584
  omega

/-- A use that fits lays its bytes over the memory. -/
theorem perform_of_fits (m : Memory) {u : Access} (h : u.Fits) :
    m.perform u = (.ok (m.answer u), m.overlay u.start u.contents) := by
  cases u with
  | load program =>
    have hload : m.load program = .ok (m.overlay programStart program) := if_pos (fits_load_iff.mp h)
    rw [perform, hload]
    rfl
  | write a bs =>
    have hcheck : check a.toNat bs.length = .ok () := check_of_le h
    rw [perform, write, hcheck]
    rfl
  | read a n =>
    have hcheck : check a.toNat n = .ok () := check_of_le h
    rw [perform, read, hcheck]
    rfl
  | word a =>
    have hcheck : check a.toNat 2 = .ok () := check_of_le h
    rw [perform, word, hcheck]
    rfl

theorem perform_of_not_fits (m : Memory) {u : Access} (h : ¬u.Fits) :
    m.perform u = (.error u.fault, m) := by
  have hpast : size < u.start + u.count := Nat.lt_of_not_le h
  cases u with
  | load program =>
    have hload : m.load program = .error (.tooLarge program.length room) :=
      if_neg fun hle => h (fits_load_iff.mpr hle)
    rw [perform, hload]
    rfl
  | write a bs =>
    have hcheck : check a.toNat bs.length = .error _ := check_of_lt hpast
    rw [perform, write, hcheck]
    rfl
  | read a n =>
    have hcheck : check a.toNat n = .error _ := check_of_lt hpast
    rw [perform, read, hcheck]
    rfl
  | word a =>
    have hcheck : check a.toNat 2 = .error _ := check_of_lt hpast
    rw [perform, word, hcheck]
    rfl

theorem Access.length_contents_le (u : Access) : u.contents.length ≤ u.count := by
  cases u with
  | load | write => exact Nat.le_refl _
  | read | word => exact Nat.zero_le _

/-- After a use a byte is the one that the use puts there, if it puts one, or as before. -/
theorem byteAt_perform (m : Memory) (u : Access) (k : Nat) :
    (m.perform u).2.byteAt k = (u.put? k).getD (m.byteAt k) := by
  by_cases hfits : u.Fits
  · have hend : u.start + u.contents.length ≤ size :=
      Nat.le_trans (Nat.add_le_add_left u.length_contents_le _) hfits
    rw [perform_of_fits m hfits, byteAt_overlay _ _ _ _ hend, Access.put?]
    by_cases hstart : u.start ≤ k
    · have hindex : k - u.start < u.contents.length ↔ k < u.start + u.contents.length := by omega
      simp only [hfits, hstart, true_and, and_self, if_true, ← hindex]
      by_cases hlt : k - u.start < u.contents.length
      · simp [hlt]
      · simp [hlt]
    · simp [hstart]
  · rw [perform_of_not_fits m hfits, Access.put?, if_neg fun h => hfits h.1]
    rfl

/-! ## Any number of uses -/

theorem byteAt_initial (k : Nat) : initial.byteAt k = glyphs[k]?.getD 0 := by
  have hzero : byteAt ⟨Vector.replicate 4096 0⟩ k = 0 := by
    unfold byteAt
    by_cases hk : k < 4096 <;> simp [hk]
  have hend : 0 + glyphs.length ≤ size := by decide
  rw [initial, byteAt_overlay _ _ _ _ hend, hzero]
  by_cases hk : k < glyphs.length
  · simp [hk]
  · simp [hk]

theorem after_concat (m : Memory) (us : List Access) (u : Access) :
    m.after (us ++ [u]) = ((m.after us).perform u).2 := by
  rw [after, List.foldl_append]
  rfl

theorem held_concat (us : List Access) (u : Access) (k : Nat) :
    held (us ++ [u]) k = (u.put? k).getD (held us k) := by
  unfold held
  rw [List.reverse_concat, List.findSome?_cons]
  cases u.put? k <;> rfl

theorem byteAt_after (us : List Access) (k : Nat) : (initial.after us).byteAt k = held us k := by
  -- The latest use decides, so the induction takes uses away from the end.
  rw [← us.reverse_reverse]
  induction us.reverse with
  | nil => exact byteAt_initial k
  | cons u us ih => rw [List.reverse_cons, after_concat, held_concat, byteAt_perform, ih]

theorem refuses_of_fault {u : Access} {last : Nat} (hfits : ¬u.Fits)
    (hfault : u.fault = .outOfRange (UInt32.ofNat last)) (hlast : last < UInt32.size) :
    m.Refuses u last := by
  refine ⟨_, UInt32.toNat_ofNat_of_lt' hlast, ?_⟩
  rw [perform_of_not_fits m hfits, hfault]

/-- **Memory is a faithful bounded byte store.** After any uses of a new memory, reads and writes go
through exactly if they end within its 4096 bytes, and programs exactly if they have at most 3584.
What is refused changes nothing and is told with its last address, or with its size. A byte that is
read is the one that was put there last, by a use that went through, or else the byte of a glyph or
zero. -/
theorem faithful_byte_store (us : List Access) : (initial.after us).Serves (held us) where
  reads := by
    intro a n hfits
    rw [perform_of_fits (u := .read a n) _ hfits]
    simp only [answer, byteAt_after]
    rfl
  words := by
    intro a hfits
    refine ⟨_, ?_, perform_of_fits (u := .word a) _ hfits⟩
    rw [Word.toNat_ofBytes, byteAt_after, byteAt_after]
  writes := by
    intro a bs hfits
    rw [perform_of_fits (u := .write a bs) _ hfits]
    rfl
  loads := by
    intro program hfits
    rw [perform_of_fits _ (fits_load_iff.mpr hfits)]
    rfl
  refusesRead := fun _ _ hpast hsize => refuses_of_fault (Nat.not_le_of_lt hpast) rfl (by omega)
  refusesWord := by
    intro a hpast
    have hlt : a.toNat < 65536 := a.toNat_lt
    exact refuses_of_fault (Nat.not_le_of_lt hpast) rfl (Nat.lt_of_le_of_lt hlt (by decide))
  refusesWrite := fun _ _ hpast hsize => refuses_of_fault (Nat.not_le_of_lt hpast) rfl (by omega)
  refusesLoad := by
    intro program hpast
    exact perform_of_not_fits _ fun h => Nat.not_le_of_lt hpast (fits_load_iff.mp h)

/-- A shorter program over a longer one, a write over both and one that is refused; then a read of all
three, a read of nothing at the end of memory, and a word of which half lies past it. -/
theorem faithful_byte_store_overlapping :
    let us : List Access := [.load [1, 2, 3], .load [9], .write 0x201 [7], .write 0xFFF [4, 4]]
    let m := initial.after us
    m.perform (.read 0x200 3) = (.ok (.bytes [9, 7, 3]), m) ∧
      m.perform (.read 0x1000 0) = (.ok (.bytes []), m) ∧
      m.perform (.read 0x4E 3) = (.ok (.bytes [0x80, 0x80, 0]), m) ∧
      m.Refuses (.word 0xFFF) 0x1000 ∧ m.Refuses (.write 0xFFF [4, 4]) 0x1000 := by
  intro us m
  have hserves := faithful_byte_store us
  exact ⟨hserves.reads 0x200 3 (by decide), hserves.reads 0x1000 0 (by decide),
    hserves.reads 0x4E 3 (by decide), hserves.refusesWord 0xFFF (by decide),
    hserves.refusesWrite 0xFFF [4, 4] (by decide) (by decide)⟩

end Chip8.Memory
