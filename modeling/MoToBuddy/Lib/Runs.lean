import Mathlib.Tactic.TypeStar

/-!
# Programs that may exit

A program changes a state and returns a value, unless it exits on the way. It may also have no
outcome at all, when it runs out of the fuel of a recursion. `Runs` is a triple for total
correctness: there is an outcome, a returned value satisfies the postcondition, and an exit only
happens in a state that satisfies `E`.
-/

namespace Exiting

/-- A program over the states `σ`. -/
abbrev Prog (σ : Type) := OptionT (StateT σ Option)

variable {σ α β γ : Type} {E : σ → Prop} {s s' : σ}

namespace Prog

/-- The outcome from a state: nothing, or a value or an exit, with the state it leaves. -/
def exec (m : Prog σ α) (s : σ) : Option (Option α × σ) := StateT.run (OptionT.run m) s

/-- A step, given by its outcome. -/
def step (f : σ → Option (Option α × σ)) : Prog σ α := OptionT.mk f

/-- No outcome. -/
def stuck : Prog σ α := step fun _ => none

@[simp] theorem exec_step (f : σ → Option (Option α × σ)) (s : σ) : (step f).exec s = f s := rfl

@[simp] theorem exec_pure (a : α) (s : σ) : (pure a : Prog σ α).exec s = some (some a, s) := rfl

theorem exec_bind (m : Prog σ α) (f : α → Prog σ β) (s : σ) : (m >>= f).exec s =
    (m.exec s).bind fun o => o.1.elim (some (none, o.2)) fun a => (f a).exec o.2 := by
  unfold exec
  rw [OptionT.run_bind, Option.elimM, StateT.run_bind]
  refine congrArg _ (funext fun o => ?_)
  rcases o with ⟨_ | a, s'⟩ <;> rfl

theorem exec_bind_return {m : Prog σ α} {a : α} (h : m.exec s = some (some a, s'))
    (f : α → Prog σ β) : (m >>= f).exec s = (f a).exec s' := by
  rw [exec_bind, h]
  rfl

theorem exec_bind_stuck {m : Prog σ α} (h : m.exec s = none) (f : α → Prog σ β) :
    (m >>= f).exec s = none := by
  rw [exec_bind, h]
  rfl

end Prog

/-- The program has an outcome: a value and a state in `Q`, or an exit with a state in `E`. -/
def Runs (E : σ → Prop) (m : Prog σ α) (s : σ) (Q : α → σ → Prop) : Prop :=
  ∃ o s', m.exec s = some (o, s') ∧ (o = none ∧ E s' ∨ ∃ a, o = some a ∧ Q a s')

variable {m : Prog σ α} {f : α → Prog σ β} {Q : α → σ → Prop} {R : β → σ → Prop}

theorem Runs.pure {a : α} (h : Q a s) : Runs E (pure a) s Q :=
  ⟨_, _, Prog.exec_pure a s, Or.inr ⟨a, rfl, h⟩⟩

theorem Runs.bind (h : Runs E m s Q) (hf : ∀ a s', Q a s' → Runs E (f a) s' R) :
    Runs E (m >>= f) s R := by
  obtain ⟨o, s', hm, ⟨rfl, he⟩ | ⟨a, rfl, hq⟩⟩ := h
  · refine ⟨none, s', ?_, Or.inl ⟨rfl, he⟩⟩
    rw [Prog.exec_bind, hm]
    rfl
  · obtain ⟨o, s'', hfa, ho⟩ := hf a s' hq
    refine ⟨o, s'', ?_, ho⟩
    rw [Prog.exec_bind_return hm, hfa]

theorem Runs.mono {Q' : α → σ → Prop} (h : Runs E m s Q) (hq : ∀ a s', Q a s' → Q' a s') :
    Runs E m s Q' := by
  obtain ⟨o, s', hm, ho⟩ := h
  exact ⟨o, s', hm, ho.imp_right fun ⟨a, ha, hQ⟩ => ⟨a, ha, hq a s' hQ⟩⟩

/-- A program that exits does so in a state in `E`, and one that returns does so in one in `Q`. -/
theorem Runs.outcome {o : Option α} (h : Runs E m s Q) (hm : m.exec s = some (o, s')) :
    o = none ∧ E s' ∨ ∃ a, o = some a ∧ Q a s' := by
  obtain ⟨o', s'', hm', ho⟩ := h
  rw [hm] at hm'
  simp only [Option.some.injEq, Prod.mk.injEq] at hm'
  rw [hm'.1, hm'.2]
  exact ho

end Exiting
