import MoToBuddy.Lib.Jump

/-!
# What a program returns

`Yields` is a triple for programs that are run from given globals: a value satisfies the
postcondition, and nothing is asked of a jump. The program may get stuck only if `E` holds, so with
`False` for `E` it is total correctness, and partial correctness with `True`.

All of it is under the condition that the globals stay in `A` during the whole run, so that a proof
may use this of every state on the way.
-/

namespace Jumping

variable {G L C α β : Type} {A : G → Prop}

/-- The globals that an event sees. -/
def Event.globals : Event G L C → G
  | .entered f => f.found
  | .stepped _ _ _ g => g
  | .returned _ left => left

/-- The globals are in `A`, and always were. -/
def Machine.Stays (A : G → Prop) (m : Machine G L C) : Prop :=
  A m.globals ∧ ∀ e ∈ m.history, A e.globals

/-- What a result has to satisfy: a value `Q`, and no value `E`. -/
def Result.Yields (r : Result G L C α) (Q : α → G → Prop) (E : Prop) : Prop :=
  match r with
  | .value a m => Q a m.globals
  | .jump _ => True
  | .stuck _ => E

namespace Prog

/-- The globals that a program found were in `A` if all that it saw are. -/
theorem run_stays (p : Prog G L C α) {m : Machine G L C} (h : (p.run m).machine.Stays A) :
    m.Stays A := by
  have hmem : ∀ e ∈ m.history, A e.globals := fun e he => h.2 e ((run_history p m).subset he)
  refine ⟨?_, hmem⟩
  induction p generalizing m with
  | ret a => exact h.1
  | step c f k ih =>
    have hnow : m.now c :: m.history <:+ ((Prog.step c f k).run m).machine.history := by
      unfold run
      cases f m.globals with
      | done b g => exact run_history (k b) { m.log (m.now c) with globals := g }
      | jump g => exact List.suffix_rfl
    exact h.2 _ (hnow.subset List.mem_cons_self)
  | save body handler k ihb ihh ihk =>
    have hbody := run_history body { m with target := m.self }
    have hstays : (body.run { m with target := m.self }).machine.Stays A := by
      unfold run at h
      generalize body.run { m with target := m.self } = r at h hbody ⊢
      have hk : ∀ b (m' : Machine G L C), ((k b).run m').machine.Stays A → m'.Stays A := by
        intro b m' hb
        have hall : ∀ e ∈ m'.history, A e.globals := fun e he =>
          hb.2 e ((run_history (k b) m').subset he)
        exact ⟨ihk b hb hall, hall⟩
      cases r with
      | value b m' => exact hk b m' h
      | stuck m' => exact h
      | jump m' =>
        dsimp only [Result.caught] at h
        by_cases hself : m'.target = m.self
        · rw [if_pos hself] at h
          have hhandler : (handler.run { m' with active := m.active }).machine.Stays A := by
            generalize handler.run { m' with active := m.active } = r at h ⊢
            cases r with
            | value b m'' => exact hk b m'' h
            | stuck m'' => exact h
            | jump m'' => exact h
          have hall : ∀ e ∈ m'.history, A e.globals := fun e he => hhandler.2 e
            ((run_history handler { m' with active := m.active }).subset he)
          exact ⟨@ihh { m' with active := m.active } hhandler hall, hall⟩
        · rw [if_neg hself] at h
          exact h
    exact @ihb { m with target := m.self } hstays hmem
  | call l body k ihb ihk =>
    -- the event of the call has the globals
    have hentered : (m.enter l).history <:+ ((Prog.call l body k).run m).machine.history := by
      have hbody := run_history body (m.enter l)
      unfold run
      generalize body.run (m.enter l) = r at hbody ⊢
      cases r with
      | value b m' =>
        have hleave : m'.history <:+ (m.leave l m').history := List.suffix_cons _ _
        exact hbody.trans (hleave.trans (run_history (k b) _))
      | stuck m' => exact hbody
      | jump m' => exact hbody
    exact h.2 (.entered (m.frame l)) (hentered.subset List.mem_cons_self)
  | stuck => exact h.1

/-- As long as the globals stay in `A`, a run of `p` from `g` returns a value and globals in `Q`,
or jumps, or, if `E` holds, gets stuck. -/
def Yields (A : G → Prop) (p : Prog G L C α) (g : G) (Q : α → G → Prop) (E : Prop) : Prop :=
  ∀ m : Machine G L C, m.globals = g → (p.run m).machine.Stays A → (p.run m).Yields Q E

variable {p : Prog G L C α} {f : α → Prog G L C β} {g : G} {Q : α → G → Prop} {E : Prop}

theorem Yields.ret {a : α} (h : A g → Q a g) : (Prog.ret a : Prog G L C α).Yields A g Q E := by
  rintro m rfl hm
  exact h hm.1

theorem Yields.stuck (h : E) : (Prog.stuck : Prog G L C α).Yields A g Q E := fun _ _ _ => h

theorem Yields.mono {Q' : α → G → Prop} {E' : Prop} (h : p.Yields A g Q E)
    (hQ : ∀ a g', A g' → Q a g' → Q' a g') (hE : E → E') : p.Yields A g Q' E' := by
  intro m hg hm
  have h := h m hg hm
  revert h hm
  generalize p.run m = r
  intro hm h
  cases r with
  | value a m' => exact hQ a _ hm.1 h
  | jump m' => trivial
  | stuck m' => exact hE h

theorem Yields.bind {Q' : β → G → Prop} (h : p.Yields A g Q E)
    (hf : ∀ a g', A g' → Q a g' → (f a).Yields A g' Q' E) : (p >>= f).Yields A g Q' E := by
  intro m hg hm
  rw [run_bind] at hm ⊢
  have h := h m hg
  revert h hm
  generalize p.run m = r
  intro hm h
  cases r with
  | value a m' =>
    have hm' := (f a).run_stays hm
    exact hf a _ hm'.1 (h hm') m' rfl hm
  | jump m' => trivial
  | stuck m' => exact h hm

/-- A step that does not leave. -/
theorem Yields.step {γ : Type} {c : C} {s : G → Outcome G γ} {k : γ → Prog G L C α}
    (h : ∀ b g', s g = .done b g' → (k b).Yields A g' Q E) :
    (Prog.step c s k).Yields A g Q E := by
  rintro m rfl hm
  unfold run at hm ⊢
  cases hs : s m.globals with
  | done b g' =>
    rw [hs] at hm
    exact h b g' hs _ rfl hm
  | jump g' => trivial

/-- A program that never gets stuck and does not jump returns a value. -/
theorem Yields.run_value (h : p.Yields A g Q False) {m : Machine G L C} (hg : m.globals = g)
    (hm : (p.run m).machine.Stays A) (hjump : ∀ m', p.run m ≠ .jump m') :
    ∃ a m', p.run m = .value a m' ∧ Q a m'.globals := by
  have h := h m hg hm
  revert h hjump
  generalize p.run m = r
  intro hjump h
  cases r with
  | value a m' => exact ⟨a, m', rfl, h⟩
  | jump m' => exact absurd rfl (hjump m')
  | stuck m' => exact h.elim

end Prog

end Jumping
