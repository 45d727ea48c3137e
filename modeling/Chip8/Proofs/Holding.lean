import Chip8.Keyboard.Hold

/-!
# Held keys and their history

What a keyboard holds is a matter of its history: `lastStroke?` finds the last stroke of a key of
the keypad in what was typed. After some keys a key is held if it is among them or was held before
(`pressedAt?_translateAll`), and what has been held for too long at a poll is let go and released
(`pressedAt?_expire`, `mem_expire`).
-/

namespace Chip8.Keyboard

/-- The key of the keypad that a key strikes, unless it controls the session. -/
def Key.stroke? (key : Key) : Option UInt8 := if key.control?.isSome then none else key.pad?

/-- When the key `k` of the keypad was struck last. -/
def lastStroke? (k : UInt8) : List (Key × Nat) → Option Nat
  | [] => none
  | (key, now) :: rest => (lastStroke? k rest).or (if key.stroke? = some k then some now else none)

theorem lastStroke?_append (k : UInt8) (events events' : List (Key × Nat)) :
    lastStroke? k (events ++ events') = (lastStroke? k events').or (lastStroke? k events) := by
  induction events with
  | nil => simp [lastStroke?]
  | cons e es ih => simp [lastStroke?, ih, Option.or_assoc]

/-! ## Keys of the keypad -/

theorem toNat_lt_of_padOfChar? {c : Char} {k : UInt8} (h : padOfChar? c = some k) :
    k.toNat < 16 := by
  unfold padOfChar? at h
  split at h <;> cases h <;> decide

theorem toNat_lt_of_pad? {key : Key} {k : UInt8} (h : key.pad? = some k) : k.toNat < 16 := by
  cases key with
  | char c => exact toNat_lt_of_padOfChar? h
  | escape | other => cases h

theorem toNat_lt_of_stroke? {key : Key} {k : UInt8} (h : key.stroke? = some k) : k.toNat < 16 := by
  unfold Key.stroke? at h
  split at h
  · cases h
  · exact toNat_lt_of_pad? h

namespace Held

variable {h : Held} {key : Key} {k : UInt8} {now : Nat} {events : List (Key × Nat)}

theorem toNat_lt_of_pressedAt? {t : Nat} (hk : h.pressedAt? k = some t) : k.toNat < 16 := by
  apply Decidable.byContradiction
  intro hge
  simp [pressedAt?, hge] at hk

/-! ## What is typed -/

theorem translate_of_stroke (hk : key.stroke? = some k) :
    h.translate key now = (some (.press k),
      { h with lastPressed := h.lastPressed.setIfInBounds k.toNat (some now) }) := by
  unfold Key.stroke? at hk
  unfold translate
  cases hc : key.control? with
  | some c =>
    rw [hc] at hk
    cases hk
  | none =>
    rw [hc] at hk
    have hpad : key.pad? = some k := hk
    simp only [hpad]

theorem translate_of_no_stroke (hk : key.stroke? = none) :
    (∀ k, (h.translate key now).1 ≠ some (.press k)) ∧
      (∀ k, (h.translate key now).1 ≠ some (.release k)) ∧ (h.translate key now).2 = h := by
  unfold Key.stroke? at hk
  unfold translate
  cases hc : key.control? with
  | some c => exact ⟨nofun, nofun, rfl⟩
  | none =>
    rw [hc] at hk
    have hpad : key.pad? = none := hk
    rw [hpad]
    exact ⟨nofun, nofun, rfl⟩

theorem pressedAt?_set {j : UInt8} (hk : k.toNat < 16) (t : Option Nat) :
    ({ h with lastPressed := h.lastPressed.setIfInBounds k.toNat t } : Held).pressedAt? j =
      if j = k then t else h.pressedAt? j := by
  unfold pressedAt?
  by_cases hj : j = k
  · subst hj
    simp [hk]
  · have hne : k.toNat ≠ j.toNat := fun h => hj (UInt8.toNat_inj.mp h.symm)
    simp [hj, hne]

theorem pressedAt?_translate (h : Held) (key : Key) (now : Nat) (k : UInt8) :
    (h.translate key now).2.pressedAt? k =
      (if key.stroke? = some k then some now else none).or (h.pressedAt? k) := by
  cases hs : key.stroke? with
  | none =>
    rw [(translate_of_no_stroke hs).2.2]
    rfl
  | some j =>
    rw [translate_of_stroke hs, pressedAt?_set (toNat_lt_of_stroke? hs)]
    by_cases hj : k = j
    · simp [hj]
    · simp [hj, Ne.symm hj]

/-- A key is held since its last stroke, and if it was not struck, since it was held before. -/
theorem pressedAt?_translateAll (h : Held) (events : List (Key × Nat)) (k : UInt8) :
    (h.translateAll events).2.pressedAt? k = (lastStroke? k events).or (h.pressedAt? k) := by
  induction events generalizing h with
  | nil => rfl
  | cons e es ih =>
    obtain ⟨key, now⟩ := e
    simp only [translateAll, lastStroke?, ih, pressedAt?_translate, Option.or_assoc]

theorem lastStroke?_of_press {k : UInt8} (hk : .press k ∈ (h.translateAll events).1) :
    (lastStroke? k events).isSome := by
  induction events generalizing h with
  | nil => cases hk
  | cons e es ih =>
    obtain ⟨key, now⟩ := e
    simp only [translateAll, List.mem_append, Option.mem_toList] at hk
    simp only [lastStroke?, Option.isSome_or, Bool.or_eq_true]
    rcases hk with hfirst | hrest
    · right
      cases hs : key.stroke? with
      | none => exact absurd hfirst ((translate_of_no_stroke hs).1 k)
      | some j =>
        rw [translate_of_stroke hs] at hfirst
        cases hfirst
        simp
    · exact .inl (ih hrest)

theorem isSome_of_press (hk : .press k ∈ (h.translateAll events).1) :
    ((h.translateAll events).2.pressedAt? k).isSome := by
  rw [pressedAt?_translateAll, Option.isSome_or, lastStroke?_of_press hk, Bool.true_or]

theorem not_mem_translateAll_release (k : UInt8) : .release k ∉ (h.translateAll events).1 := by
  induction events generalizing h with
  | nil => exact List.not_mem_nil
  | cons e es ih =>
    obtain ⟨key, now⟩ := e
    simp only [translateAll, List.mem_append, Option.mem_toList, not_or]
    refine ⟨?_, ih⟩
    cases hs : key.stroke? with
    | none => exact (translate_of_no_stroke hs).2.1 k
    | some j =>
      rw [translate_of_stroke hs]
      nofun

/-! ## What is released -/

theorem isSome_of_overdue {t? : Option Nat} (ht : h.overdue now t?) : t?.isSome := by
  cases t? with
  | none => cases ht
  | some t => rfl

theorem pressedAt?_expire (h : Held) (now : Nat) (k : UInt8) :
    (h.expire now).2.pressedAt? k =
      if h.overdue now (h.pressedAt? k) then none else h.pressedAt? k := by
  unfold expire pressedAt?
  by_cases hk : k.toNat < 16
  · simp [hk]
  · simp [hk]

theorem mem_expire (h : Held) (now : Nat) (i : Input) :
    i ∈ (h.expire now).1 ↔ ∃ k, h.overdue now (h.pressedAt? k) ∧ i = .release k := by
  unfold expire
  rw [List.mem_map]
  constructor
  · rintro ⟨k, hk, rfl⟩
    exact ⟨k, (List.mem_filter.mp hk).2, rfl⟩
  · rintro ⟨k, hk, rfl⟩
    refine ⟨k, List.mem_filter.mpr ⟨?_, hk⟩, rfl⟩
    obtain ⟨t, ht⟩ := Option.isSome_iff_exists.mp (isSome_of_overdue hk)
    have hlt := toNat_lt_of_pressedAt? ht
    exact List.mem_map.mpr ⟨k.toNat, List.mem_range.mpr hlt, UInt8.ofNat_toNat⟩

/-! ## A poll -/

/-- What is held after a poll has been held since its last stroke, in what was typed now or before,
and not for too long. -/
theorem pressedAt?_poll {t : Nat} (hk : (h.poll events now).2.pressedAt? k = some t) :
    (lastStroke? k events).or (h.pressedAt? k) = some t ∧
      (h.translateAll events).2.overdue now (some t) = false := by
  have hexpire : (h.poll events now).2 = ((h.translateAll events).2.expire now).2 := rfl
  rw [hexpire, pressedAt?_expire, pressedAt?_translateAll] at hk
  split at hk
  · cases hk
  · rename_i hfresh
    rw [hk] at hfresh
    exact ⟨hk, Bool.eq_false_iff.mpr hfresh⟩

theorem hold_translate (h : Held) (key : Key) (now : Nat) :
    (h.translate key now).2.hold = h.hold := by
  cases hs : key.stroke? with
  | none => rw [(translate_of_no_stroke hs).2.2]
  | some k => rw [translate_of_stroke hs]

theorem hold_translateAll (h : Held) (events : List (Key × Nat)) :
    (h.translateAll events).2.hold = h.hold := by
  induction events generalizing h with
  | nil => rfl
  | cons e es ih => exact (ih _).trans (hold_translate h e.1 e.2)

theorem hold_poll (h : Held) (events : List (Key × Nat)) (now : Nat) :
    (h.poll events now).2.hold = h.hold := hold_translateAll h events

theorem toNat_lt_of_poll
    (hk : .press k ∈ (h.poll events now).1 ∨ .release k ∈ (h.poll events now).1) :
    k.toNat < 16 := by
  have hheld : ((h.translateAll events).2.pressedAt? k).isSome := by
    change .press k ∈ (h.translateAll events).1 ++ ((h.translateAll events).2.expire now).1 ∨
      .release k ∈ (h.translateAll events).1 ++ ((h.translateAll events).2.expire now).1 at hk
    rw [List.mem_append, List.mem_append, mem_expire, mem_expire] at hk
    rcases hk with (hpress | ⟨j, -, hj⟩) | (hrelease | ⟨j, hj, hkj⟩)
    · exact isSome_of_press hpress
    · cases hj
    · exact absurd hrelease (not_mem_translateAll_release k)
    · cases hkj
      exact isSome_of_overdue hj
  obtain ⟨t, ht⟩ := Option.isSome_iff_exists.mp hheld
  exact toNat_lt_of_pressedAt? ht

end Held

end Chip8.Keyboard
