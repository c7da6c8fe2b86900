import MoToBuddy.Lib.Yields

/-!
# What a program spends

`Rich k` says that there is enough of a resource for `k` steps that need it. A program that costs
`k` runs from globals that are rich enough without leaving the good globals `A` and without a jump,
and what it does not need is left. Costs add up along a program.
-/

namespace Jumping

variable {G L C α β : Type} {A : G → Prop} {Rich : ℕ → G → Prop}

/-- What a result has to satisfy for a program that has used up all but `j`. -/
structure Result.Left (A : G → Prop) (Rich : ℕ → G → Prop) (j : ℕ) (r : Result G L C α) : Prop where
  stays : r.machine.Stays A
  jump : ∀ m, r ≠ .jump m
  rich : ∀ a m, r = .value a m → Rich j m.globals

namespace Prog

/-- A run of `p` needs at most `k`. -/
def Costs (A : G → Prop) (Rich : ℕ → G → Prop) (k : ℕ) (p : Prog G L C α) : Prop :=
  ∀ (m : Machine G L C) (j : ℕ), m.Stays A → Rich (k + j) m.globals → (p.run m).Left A Rich j

variable {p : Prog G L C α} {f : α → Prog G L C β} {k k' : ℕ}

theorem Costs.ret (a : α) : (Prog.ret a : Prog G L C α).Costs A Rich 0 := by
  intro m j hm hrich
  refine ⟨hm, fun _ h => (by cases h), fun a' m' h => ?_⟩
  obtain ⟨-, rfl⟩ := Result.value.inj h
  rwa [Nat.zero_add] at hrich

theorem Costs.stuck : (Prog.stuck : Prog G L C α).Costs A Rich k := fun _ _ hm _ =>
  ⟨hm, fun _ h => (by cases h), fun _ _ h => (by cases h)⟩

/-- A step, by what it does to globals that are rich enough for it. -/
theorem Costs.step {γ : Type} {c : C} {s : G → Outcome G γ}
    (h : ∀ g j, A g → Rich (k + j) g → ∃ b g', s g = .done b g' ∧ A g' ∧ Rich j g') :
    (Prog.step c s .ret : Prog G L C γ).Costs A Rich k := by
  intro m j hm hrich
  obtain ⟨b, g', hs, hA, hleft⟩ := h m.globals j hm.1 hrich
  have hrun : (Prog.step c s .ret : Prog G L C γ).run m =
      .value b { m.log (m.now c) with globals := g' } := by
    unfold run
    rw [hs]
    rfl
  rw [hrun]
  refine ⟨⟨hA, fun e he => ?_⟩, fun _ h => (by cases h), fun a' m' h => ?_⟩
  · rcases List.mem_cons.mp he with rfl | he
    · exact hm.1
    · exact hm.2 e he
  · obtain ⟨-, rfl⟩ := Result.value.inj h
    exact hleft

theorem Costs.bind (h : p.Costs A Rich k) (hf : ∀ a, (f a).Costs A Rich k') :
    (p >>= f).Costs A Rich (k + k') := by
  intro m j hm hrich
  rw [Nat.add_assoc] at hrich
  have hp := h m (k' + j) hm hrich
  rw [run_bind]
  revert hp
  generalize p.run m = r
  intro hp
  cases r with
  | value a m' => exact hf a m' j hp.stays (hp.rich a m' rfl)
  | jump m' => exact absurd rfl (hp.jump m')
  | stuck m' => exact ⟨hp.stays, fun _ h => (by cases h), fun _ _ h => (by cases h)⟩

/-- A part that needs nothing. -/
theorem Costs.free (h : p.Costs A Rich 0) (hf : ∀ a, (f a).Costs A Rich k) :
    (p >>= f).Costs A Rich k := by
  rw [← Nat.zero_add k]
  exact h.bind hf

/-- After which nothing is needed. -/
theorem Costs.last (h : p.Costs A Rich k) (hf : ∀ a, (f a).Costs A Rich 0) :
    (p >>= f).Costs A Rich k := h.bind hf

theorem Costs.mono (hless : ∀ i j g, i ≤ j → Rich j g → Rich i g) (h : p.Costs A Rich k)
    (hk : k ≤ k') : p.Costs A Rich k' := by
  intro m j hm hrich
  obtain ⟨d, rfl⟩ := Nat.exists_eq_add_of_le hk
  rw [Nat.add_assoc] at hrich
  have hp := h m (d + j) hm hrich
  exact ⟨hp.stays, hp.jump, fun a m' hv => hless _ _ _ (Nat.le_add_left j d) (hp.rich a m' hv)⟩

end Prog

end Jumping
