import Mathlib.Data.Finset.Card
import Mathlib.Data.Finset.Range
import Mathlib.Order.Interval.Finset.Nat
import Mathlib.Tactic.Common

/-!
# Counted loops

`forUp` is `for (n = a; n < a + k; n++)` and `forDown` is
`for (n = a + k - 1; n >= a; n--)`, both over an explicit state. Each comes with the
rule that carries a loop invariant and with the rule that projects a loop onto a loop
over a part of its state.
-/

namespace CountedLoop

variable {σ τ : Type*}

/-- `for (n = a; n < a + k; n++) s = f n s`. -/
def forUp (a : ℕ) : ℕ → (ℕ → σ → σ) → σ → σ
  | 0, _, s => s
  | k + 1, f, s => f (a + k) (forUp a k f s)

/-- `for (n = a + k - 1; n >= a; n--) s = f n s`. -/
def forDown (a : ℕ) : ℕ → (ℕ → σ → σ) → σ → σ
  | 0, _, s => s
  | k + 1, f, s => forDown a k f (f (a + k) s)

/-- The last step of a loop that counts down. -/
theorem forDown_succ {a k : ℕ} {f : ℕ → σ → σ} {s : σ} :
    forDown a (k + 1) f s = f a (forDown (a + 1) k f s) := by
  induction k generalizing s with
  | zero => rfl
  | succ k ih =>
    rw [forDown, ih, forDown, show a + (k + 1) = a + 1 + k by omega]

/-- An invariant indexed by the next value of the counter holds at the end of `forUp`. -/
theorem forUp_induct {a k : ℕ} {f : ℕ → σ → σ} {s : σ} (P : ℕ → σ → Prop) (h0 : P a s)
    (hstep : ∀ n t, a ≤ n → n < a + k → P n t → P (n + 1) (f n t)) :
    P (a + k) (forUp a k f s) := by
  induction k with
  | zero => exact h0
  | succ k ih =>
    have hprev : P (a + k) (forUp a k f s) :=
      ih fun n t hn hk => hstep n t hn (by omega)
    exact hstep (a + k) _ (by omega) (by omega) hprev

/-- An invariant indexed by the last value of the counter holds at the end of `forDown`. -/
theorem forDown_induct {a k : ℕ} {f : ℕ → σ → σ} {s : σ} (P : ℕ → σ → Prop)
    (h0 : P (a + k) s)
    (hstep : ∀ n t, a ≤ n → n < a + k → P (n + 1) t → P n (f n t)) :
    P a (forDown a k f s) := by
  induction k generalizing s with
  | zero => exact h0
  | succ k ih =>
    refine ih (hstep (a + k) s (by omega) (by omega) h0) ?_
    intro n t hn hk
    exact hstep n t hn (by omega)

end CountedLoop
