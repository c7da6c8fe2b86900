import MoToBuddy.Lib.Jump

/-!
# Hooks

Callbacks of the user run inside the steps of a program. `Prog.hooked` is the program with its hooks:
they work on the globals before a step decides how it goes on, and when it is done. As long as they
do nothing the run is that of the program itself.
-/

namespace Jumping

/-- What the hooks do that run during a step. When it is done they may also look at what it found. -/
structure Hooks (G C : Type) where
  before : C → G → G
  after : C → G → G → G

variable {G L C α β : Type}

/-- The hooks that run during the step of an event do nothing. -/
def Hooks.Idle (H : Hooks G C) : Event G L C → List (Event G L C) → Prop
  | .stepped c _ _ g, _ => H.before c g = g ∧ H.after c g = id
  | .entered _, _ | .returned _ _, _ => True

def Outcome.map (h : G → G) : Outcome G β → Outcome G β
  | .done b g => .done b (h g)
  | .jump g => .jump (h g)

@[simp] theorem Outcome.map_id (o : Outcome G β) : o.map id = o := by
  cases o <;> rfl

namespace Prog

def hooked (H : Hooks G C) : {α : Type} → Prog G L C α → Prog G L C α
  | _, .ret a => .ret a
  | _, .step c f k =>
    .step c (fun g => (f (H.before c g)).map (H.after c g)) fun b => (k b).hooked H
  | _, .save body handler k => .save (body.hooked H) (handler.hooked H) fun b => (k b).hooked H
  | _, .call l body k => .call l (body.hooked H) fun b => (k b).hooked H
  | _, .stuck => .stuck

/-- If no hook did anything in a run, it was a run without hooks. -/
theorem run_hooked {H : Hooks G C} {p : Prog G L C α} {m : Machine G L C}
    (h : Throughout H.Idle ((p.hooked H).run m).machine.history) : (p.hooked H).run m = p.run m := by
  induction p generalizing m with
  | ret a => rfl
  | step c f k ih =>
    have hsuffix : m.now c :: m.history <:+
        (((Prog.step c f k).hooked H).run m).machine.history := by
      unfold hooked run
      dsimp only
      cases (f (H.before c m.globals)).map (H.after c m.globals) with
      | done b g => exact run_history ((k b).hooked H) { m.log (m.now c) with globals := g }
      | jump g => exact List.suffix_rfl
    obtain ⟨hbefore, hafter⟩ := h.head hsuffix
    unfold hooked run at h ⊢
    dsimp only at h ⊢
    rw [hbefore, hafter, Outcome.map_id] at h ⊢
    cases hf : f m.globals with
    | done b g =>
      rw [hf] at h
      exact ih b h
    | jump g => rfl
  | save body handler k ihb ihh ihk =>
    unfold hooked run at h ⊢
    have hbody := @ihb { m with target := m.self }
    generalize (body.hooked H).run { m with target := m.self } = r at h hbody ⊢
    cases r with
    | value b m' =>
      rw [← hbody (h.mono (run_history _ m'))]
      exact ihk b h
    | stuck m' =>
      rw [← hbody h]
      rfl
    | jump m' =>
      dsimp only [Result.caught] at h ⊢
      by_cases hself : m'.target = m.self
      · rw [if_pos hself] at h ⊢
        have hhandler := @ihh { m' with active := m.active }
        have hpast := run_history (handler.hooked H) { m' with active := m.active }
        generalize (handler.hooked H).run { m' with active := m.active } = r at h hhandler hpast ⊢
        cases r with
        | value b m'' =>
          have hall := h.mono (run_history _ m'')
          rw [← hbody (hall.mono hpast)]
          dsimp only
          rw [if_pos hself, ← hhandler hall]
          exact ihk b h
        | jump m'' =>
          rw [← hbody (h.mono hpast)]
          dsimp only
          rw [if_pos hself, ← hhandler h]
          rfl
        | stuck m'' =>
          rw [← hbody (h.mono hpast)]
          dsimp only
          rw [if_pos hself, ← hhandler h]
          rfl
      · rw [if_neg hself] at h ⊢
        rw [← hbody h]
        dsimp only
        rw [if_neg hself]
        rfl
  | call l body k ihb ihk =>
    unfold hooked run at h ⊢
    have hbody := @ihb (m.enter l)
    generalize (body.hooked H).run (m.enter l) = r at h hbody ⊢
    cases r with
    | value b m' =>
      have hpast := (List.suffix_cons _ _).trans (run_history ((k b).hooked H) (m.leave l m'))
      rw [← hbody (h.mono hpast)]
      exact ihk b h
    | jump m' =>
      rw [← hbody h]
      rfl
    | stuck m' =>
      rw [← hbody h]
      rfl
  | stuck => rfl

end Prog

end Jumping
