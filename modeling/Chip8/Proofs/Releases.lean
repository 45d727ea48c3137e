import Chip8.Proofs.Holding

/-!
# Which keys are let go, and when

What a keyboard answers while it is used is its record. A key waits to be released since its last
press in the record if it was not released after that (`Pending`). What is held is just what waits
(`tracks_record`), so what lets go of held keys releases those that have waited for the hold or
longer, and no others, the lowest first (`releases_exact`).

Times may be in any order. One that comes before the press of a key counts as the time of the
press, as truncated subtraction has it.
-/

namespace Chip8.Keyboard.Held

/-- A use of what is held. -/
inductive Use where
  /-- A key of the keyboard comes in. -/
  | translate (key : Key) (now : Nat)
  /-- What has been held for too long is let go. -/
  | expire (now : Nat)
  deriving DecidableEq, Repr

/-- What a use answers, and what is held after it. -/
def use (h : Held) : Use → List Input × Held
  | .translate key now =>
    let (input?, h) := h.translate key now
    (input?.toList, h)
  | .expire now => h.expire now

/-- What is held after some uses. -/
def afterUses (h : Held) (us : List Use) : Held := us.foldl (fun h u => (h.use u).2) h

/-- Each use, with what it answers. -/
def record (h : Held) : List Use → List (Use × List Input)
  | [] => []
  | u :: us => (u, (h.use u).1) :: (h.use u).2.record us

/-- The key `k` was pressed at the time `t`, and since then it was neither pressed nor released. -/
def Pending (past : List (Use × List Input)) (k : UInt8) (t : Nat) : Prop :=
  ∃ before key after, past = before ++ (.translate key t, [.press k]) :: after ∧
    ∀ e ∈ after, .press k ∉ e.2 ∧ .release k ∉ e.2

/-- What is held is what waits to be released. -/
def Tracks (h : Held) (past : List (Use × List Input)) : Prop :=
  ∀ k t, h.pressedAt? k = some t ↔ Pending past k t

variable {h : Held} {u : Use} {us : List Use} {past : List (Use × List Input)} {k : UInt8}
  {now t : Nat} {key : Key}

/-! ## The record -/

theorem exists_of_record {before after : List (Use × List Input)} {e : Use × List Input}
    (hr : h.record us = before ++ e :: after) :
    ∃ us₁ u us₂, us = us₁ ++ u :: us₂ ∧ before = h.record us₁ ∧
      e = (u, ((h.afterUses us₁).use u).1) := by
  induction before generalizing h us with
  | nil =>
    cases us with
    | nil => cases hr
    | cons u us =>
      cases hr
      exact ⟨[], u, us, rfl, rfl, rfl⟩
  | cons b bs ih =>
    cases us with
    | nil => cases hr
    | cons u us =>
      obtain ⟨hb, hbs⟩ := List.cons_eq_cons.mp hr
      obtain ⟨us₁, v, us₂, rfl, rfl, he⟩ := ih hbs
      exact ⟨u :: us₁, v, us₂, rfl, congrArg (· :: _) hb.symm, he⟩

/-! ## What waits -/

theorem not_pending_nil : ¬ Pending [] k t := by
  rintro ⟨before, key, after, hpast, -⟩
  exact List.append_ne_nil_of_right_ne_nil before (List.cons_ne_nil _ _) hpast.symm

/-- After one more use, a key waits since that use, or still. -/
theorem pending_concat (e : Use × List Input) :
    Pending (past ++ [e]) k t ↔
      (∃ key, e = (.translate key t, [.press k])) ∨
        Pending past k t ∧ .press k ∉ e.2 ∧ .release k ∉ e.2 := by
  constructor
  · rintro ⟨before, key, after, hpast, hsince⟩
    rcases List.eq_nil_or_concat after with rfl | ⟨after, last, rfl⟩
    · obtain ⟨-, hlast⟩ := List.append_inj' hpast rfl
      exact .inl ⟨key, List.singleton_inj.mp hlast⟩
    · rw [List.concat_eq_append, ← List.cons_append, ← List.append_assoc] at hpast
      obtain ⟨rfl, hlast⟩ := List.append_inj' hpast rfl
      cases hlast
      refine .inr ⟨⟨before, key, after, rfl, fun e he => hsince e ?_⟩, hsince _ ?_⟩
      · simp [he]
      · simp
  · rintro (⟨key, rfl⟩ | ⟨⟨before, key, after, rfl, hsince⟩, hlast⟩)
    · exact ⟨past, key, [], rfl, nofun⟩
    · refine ⟨before, key, after ++ [e], by simp, fun e' he' => ?_⟩
      rcases List.mem_append.mp he' with hmem | hmem
      · exact hsince e' hmem
      · rw [List.mem_singleton.mp hmem]
        exact hlast

theorem exists_press_of_pending {before between : List (Use × List Input)} {e : Use × List Input}
    (hp : Pending (before ++ e :: between) k t) (he : .release k ∈ e.2) :
    ∃ e' ∈ between, .press k ∈ e'.2 := by
  obtain ⟨b, key, after, hsplit, hsince⟩ := hp
  -- The press lies after the entry `e`, since nothing after the press releases the key.
  rcases List.append_eq_append_iff.mp hsplit with ⟨mid, rfl, hrest⟩ | ⟨mid, rfl, hrest⟩
  · cases mid with
    | nil =>
      cases hrest
      simp at he
    | cons m ms =>
      obtain ⟨-, rfl⟩ := List.cons_eq_cons.mp hrest
      exact ⟨_, List.mem_append_right _ List.mem_cons_self, List.mem_cons_self⟩
  · cases mid with
    | nil =>
      cases hrest
      simp at he
    | cons m ms =>
      obtain ⟨-, rfl⟩ := List.cons_eq_cons.mp hrest
      exact absurd he (hsince e (List.mem_append_right _ List.mem_cons_self)).2

/-! ## What is held -/

theorem tracks_empty (hold : Nat) : (empty hold).Tracks [] := by
  intro k t
  refine iff_of_false ?_ not_pending_nil
  by_cases hk : k.toNat < 16 <;> simp [empty, pressedAt?, hk]

theorem tracks_use (ht : h.Tracks past) (u : Use) :
    (h.use u).2.Tracks (past ++ [(u, (h.use u).1)]) := by
  intro k t
  rw [pending_concat, ← ht k t]
  cases u with
  | translate key now =>
    change (h.translate key now).2.pressedAt? k = some t ↔ _
    rw [pressedAt?_translate]
    cases hs : key.stroke? with
    | none =>
      obtain ⟨hpress, hrelease, -⟩ := @translate_of_no_stroke h key now hs
      simp [use, hpress, hrelease]
    | some j =>
      rw [use, translate_of_stroke hs]
      by_cases hj : k = j
      · simp [hj, eq_comm]
      · simp [hj, Ne.symm hj]
  | expire now =>
    have hpress : .press k ∉ (h.expire now).1 := by
      rw [mem_expire]
      rintro ⟨j, -, hj⟩
      cases hj
    have hrelease : .release k ∈ (h.expire now).1 ↔ h.overdue now (h.pressedAt? k) := by
      simp [mem_expire]
    change (h.expire now).2.pressedAt? k = some t ↔ _
    rw [pressedAt?_expire]
    cases ho : h.overdue now (h.pressedAt? k) <;> simp [use, hpress, hrelease, ho]

theorem tracks_uses (ht : h.Tracks past) (us : List Use) :
    (h.afterUses us).Tracks (past ++ h.record us) := by
  induction us generalizing h past with
  | nil => rwa [record, List.append_nil]
  | cons u us ih =>
    have hrest := ih (tracks_use ht u)
    rwa [List.append_assoc] at hrest

theorem tracks_record (hold : Nat) (us : List Use) :
    ((empty hold).afterUses us).Tracks ((empty hold).record us) :=
  tracks_uses (tracks_empty hold) us

theorem hold_use (h : Held) (u : Use) : (h.use u).2.hold = h.hold := by
  cases u with
  | translate key now => exact hold_translate h key now
  | expire now => rfl

theorem hold_afterUses (h : Held) (us : List Use) : (h.afterUses us).hold = h.hold := by
  induction us generalizing h with
  | nil => rfl
  | cons u us ih => exact (ih _).trans (hold_use h u)

/-! ## What is released -/

theorem overdue_eq_true_iff {t? : Option Nat} :
    h.overdue now t? = true ↔ ∃ t, t? = some t ∧ h.hold ≤ now - t := by
  cases t? <;> simp [overdue]

theorem exists_released (h : Held) (now : Nat) :
    ∃ ks : List UInt8, (h.expire now).1 = ks.map .release ∧ ks.Pairwise (· < ·) ∧
      ∀ k, k ∈ ks ↔ ∃ t, h.pressedAt? k = some t ∧ h.hold ≤ now - t := by
  refine ⟨_, rfl, List.Pairwise.filter _ (by decide), fun k => ?_⟩
  have hmem := mem_expire h now (.release k)
  rw [expire, List.mem_map] at hmem
  simpa [overdue_eq_true_iff] using hmem

theorem exists_pending {hold : Nat} {us : List Use}
    (hr : .release k ∈ (((empty hold).afterUses us).use u).1) :
    ∃ t, Pending ((empty hold).record us) k t := by
  cases u with
  | translate key now =>
    cases hs : key.stroke? with
    | none =>
      rw [use, Option.mem_toList] at hr
      exact absurd hr ((translate_of_no_stroke hs).2.1 k)
    | some j =>
      rw [use, translate_of_stroke hs] at hr
      simp at hr
  | expire now =>
    obtain ⟨j, hj, hkj⟩ := (mem_expire _ now _).mp hr
    cases hkj
    obtain ⟨t, ht, -⟩ := overdue_eq_true_iff.mp hj
    exact ⟨t, (tracks_record hold us k t).mp ht⟩

theorem expire_expire (h : Held) (now : Nat) : ((h.expire now).2.expire now).1 = [] := by
  refine List.eq_nil_iff_forall_not_mem.mpr fun i hi => ?_
  obtain ⟨k, hk, -⟩ := (mem_expire _ now i).mp hi
  rw [pressedAt?_expire] at hk
  split at hk
  · cases hk
  · rename_i hfresh
    exact hfresh hk

theorem release_iff_of_press (hp : (h.translate key t).1 = some (.press k)) :
    .release k ∈ ((h.translate key t).2.expire now).1 ↔ h.hold ≤ now - t := by
  have hs : key.stroke? = some k := by
    cases hs : key.stroke? with
    | none => exact absurd hp ((translate_of_no_stroke hs).1 k)
    | some j =>
      rw [translate_of_stroke hs] at hp
      cases hp
      rfl
  have hkey : (h.translate key t).2.pressedAt? k = some t := by
    rw [pressedAt?_translate, if_pos hs]
    rfl
  have hrelease := mem_expire (h.translate key t).2 now (.release k)
  simpa [hkey, overdue_eq_true_iff, hold_translate] using hrelease

theorem exists_press_between {hold : Nat} {us : List Use}
    {before between after : List (Use × List Input)} {e e' : Use × List Input}
    (hr : (empty hold).record us = before ++ e :: between ++ e' :: after)
    (he : .release k ∈ e.2) (he' : .release k ∈ e'.2) : ∃ p ∈ between, .press k ∈ p.2 := by
  obtain ⟨us₁, u, us₂, -, hbefore, rfl⟩ := exists_of_record hr
  obtain ⟨t, ht⟩ := exists_pending he'
  rw [← hbefore] at ht
  exact exists_press_of_pending ht he

theorem translate_of_other (hk : key.control?.isSome ∨ key.pad? = none) :
    (h.translate key now).2 = h := by
  have hs : key.stroke? = none := by
    unfold Key.stroke?
    rcases hk with hc | hp
    · exact if_pos hc
    · rw [hp, ite_self]
  exact (translate_of_no_stroke hs).2.2

/-- **Releases.** After any uses at any times, letting go of what is held releases just the keys
that have waited for the hold or longer, the lowest first and each once. So a key is pressed between
two releases of it, a press starts the hold of its key anew, other keys of the keyboard hold and
release nothing, and nothing is left to release at the same time once more. -/
theorem releases_exact (hold : Nat) (us : List Use) :
    let h := (empty hold).afterUses us
    let past := (empty hold).record us
    (∀ now, ∃ ks : List UInt8, (h.expire now).1 = ks.map .release ∧ ks.Pairwise (· < ·) ∧
      ∀ k, k ∈ ks ↔ ∃ t, Pending past k t ∧ hold ≤ now - t) ∧
    (∀ k before e between e' after, past = before ++ e :: between ++ e' :: after →
      .release k ∈ e.2 → .release k ∈ e'.2 → ∃ p ∈ between, .press k ∈ p.2) ∧
    (∀ key k t now, (h.translate key t).1 = some (.press k) →
      (.release k ∈ ((h.translate key t).2.expire now).1 ↔ hold ≤ now - t)) ∧
    (∀ key t, key.control?.isSome ∨ key.pad? = none → (h.translate key t).2 = h) ∧
    ∀ now, ((h.expire now).2.expire now).1 = [] := by
  intro h past
  have hhold : h.hold = hold := hold_afterUses (empty hold) us
  refine ⟨fun now => ?_, fun k before e between e' after hpast => exists_press_between hpast,
    fun key k t now hp => ?_, fun key t => translate_of_other, expire_expire h⟩
  · obtain ⟨ks, hreleased, hsorted, hmem⟩ := h.exists_released now
    refine ⟨ks, hreleased, hsorted, fun k => (hmem k).trans (exists_congr fun t => ?_)⟩
    rw [hhold]
    exact and_congr_left' (tracks_record hold us k t)
  · rw [release_iff_of_press hp, hhold]

/-- The key `5` is pressed again under a clock that goes backwards, let go just when the hold since
then is over, and pressed and let go once more. The key `4` is pressed after that, and so is
Escape. -/
theorem releases_exact_boundary :
    let us : List Use := [.translate (.char 'w') 400, .translate (.char 'W') 300, .expire 399,
      .expire 400, .translate (.char 'w') 500, .expire 600]
    let before : List (Use × List Input) := [(.translate (.char 'w') 400, [.press 5]),
      (.translate (.char 'W') 300, [.press 5]), (.expire 399, [])]
    let between : List (Use × List Input) := [(.translate (.char 'w') 500, [.press 5])]
    let h := (empty 100).afterUses us
    ((empty 100).record us =
        before ++ (.expire 400, [.release 5]) :: between ++ (.expire 600, [.release 5]) :: [] ∧
      ∃ p ∈ between, .press 5 ∈ p.2) ∧
    ((h.translate (.char 'q') 700).1 = some (.press 4) ∧
      .release 4 ∈ ((h.translate (.char 'q') 700).2.expire 800).1) ∧
    (Key.escape.control?.isSome ∧ (h.translate .escape 900).2 = h) := by
  intro us before between h
  obtain ⟨-, hbetween, hpress, hother, -⟩ := releases_exact 100 us
  have hrecord : (empty 100).record us =
      before ++ (.expire 400, [.release 5]) :: between ++ (.expire 600, [.release 5]) :: [] := by
    decide +kernel
  have hfour : (h.translate (.char 'q') 700).1 = some (.press 4) := by decide +kernel
  refine ⟨⟨hrecord, hbetween 5 _ _ _ _ _ hrecord (.head _) (.head _)⟩, ⟨hfour, ?_⟩, rfl,
    hother .escape 900 (.inl rfl)⟩
  exact (hpress (.char 'q') 4 700 800 hfour).mpr (by decide)

end Chip8.Keyboard.Held
