import Mathlib.Tactic.Common

/-!
# Loops with a condition

`whileDo c f` is `while (c s) s = f s`, for at most a number of tests. The body may fail, for
instance because a loop inside it does not end in time, and then the loop fails.
-/

namespace CountedLoop

variable {σ : Type*} {c : σ → Bool} {f : σ → Option σ}

/-- `while (c s) s = f s`, with at most `fuel` tests of the condition. -/
def whileDo (c : σ → Bool) (f : σ → Option σ) : ℕ → σ → Option σ
  | 0, _ => none
  | fuel + 1, s => if c s then (f s).bind (whileDo c f fuel) else some s

/-- An invariant with a bound on the rounds that are left: the loop ends, and the invariant
holds at its end. -/
theorem whileDo_total (I : ℕ → σ → Prop)
    (hstep : ∀ k s, I k s → c s = true → ∃ j t, j < k ∧ f s = some t ∧ I j t)
    {k fuel : ℕ} {s : σ} (h : I k s) (hk : k < fuel) :
    ∃ j t, whileDo c f fuel s = some t ∧ c t = false ∧ I j t := by
  induction fuel generalizing k s with
  | zero => omega
  | succ fuel ih =>
    by_cases hc : c s = true
    · obtain ⟨j, t, hj, hf, ht⟩ := hstep k s h hc
      have hloop : whileDo c f (fuel + 1) s = whileDo c f fuel t := by
        simp [whileDo, hc, hf]
      rw [hloop]
      exact ih ht (by omega)
    · exact ⟨k, s, by simp [whileDo, hc], by simpa using hc, h⟩

/-- An invariant of the body holds where the loop ends. -/
theorem whileDo_invariant (I : σ → Prop) (hstep : ∀ s t, I s → c s = true → f s = some t → I t)
    {fuel : ℕ} {s t : σ} (h : I s) (hloop : whileDo c f fuel s = some t) : I t := by
  induction fuel generalizing s with
  | zero => simp [whileDo] at hloop
  | succ fuel ih =>
    by_cases hc : c s = true
    · rw [whileDo, if_pos hc] at hloop
      obtain ⟨u, hu, hrest⟩ := Option.bind_eq_some_iff.mp hloop
      exact ih (hstep s u h hc hu) hrest
    · rw [whileDo, if_neg hc, Option.some.injEq] at hloop
      exact hloop ▸ h

theorem whileDo_done {s : σ} (hc : c s = false) {fuel : ℕ} (hfuel : 0 < fuel) :
    whileDo c f fuel s = some s := by
  cases fuel with
  | zero => omega
  | succ fuel => simp [whileDo, hc]

end CountedLoop
