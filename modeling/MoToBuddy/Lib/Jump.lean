import Mathlib.Data.List.Infix

/-!
# Programs with nested calls and non-local exits

A program is the tree of what it does to the globals next. A call is entered and left, a step may
go on or leave for the environment that was saved last, and that environment belongs to the call
that saved it. The machine remembers the calls that have not returned and all that has happened,
so that conditions on a run and its results are both predicates on events.
-/

namespace Jumping

/-- What a step does: it goes on with a value, or leaves for the saved environment. -/
inductive Outcome (G β : Type)
  | done (b : β) (g : G)
  | jump (g : G)

def Outcome.globals {G β : Type} : Outcome G β → G
  | .done _ g | .jump g => g

/-- Programs over the globals `G`, with calls labelled in `L` and steps in `C`. -/
inductive Prog (G L C : Type) : Type → Type 1
  | ret {α : Type} (a : α) : Prog G L C α
  | step {α β : Type} (c : C) (f : G → Outcome G β) (k : β → Prog G L C α) : Prog G L C α
  /-- Save the environment and run `body`; a jump out of `body` to it goes on with `handler`. -/
  | save {α β : Type} (body handler : Prog G L C β) (k : β → Prog G L C α) : Prog G L C α
  | call {α β : Type} (l : L) (body : Prog G L C β) (k : β → Prog G L C α) : Prog G L C α
  /-- No result: the program runs forever, or out of the fuel of a recursion. -/
  | stuck {α : Type} : Prog G L C α

/-- A call that has not returned, with the globals it found. -/
structure Frame (G L : Type) where
  id : ℕ
  label : L
  found : G

inductive Event (G L C : Type)
  | entered (f : Frame G L)
  | stepped (c : C) (running : List (Frame G L)) (target : ℕ) (g : G)
  | returned (f : Frame G L) (left : G)

structure Machine (G L C : Type) where
  globals : G
  /-- The call that saved the environment last. -/
  target : ℕ
  /-- The number of calls made so far; the calls are numbered from `1`. -/
  calls : ℕ
  active : List (Frame G L)
  history : List (Event G L C)

inductive Result (G L C α : Type)
  | value (a : α) (m : Machine G L C)
  /-- The control has left for the saved environment. -/
  | jump (m : Machine G L C)
  | stuck (m : Machine G L C)

variable {G L C α β : Type}

def Result.machine : Result G L C α → Machine G L C
  | .value _ m | .jump m | .stuck m => m

def Result.bind : Result G L C α → (α → Machine G L C → Result G L C β) → Result G L C β
  | .value a m, f => f a m
  | .jump m, _ => .jump m
  | .stuck m, _ => .stuck m

def Result.caught : Result G L C α → (Machine G L C → Result G L C α) → Result G L C α
  | .jump m, handler => handler m
  | r, _ => r

namespace Machine

variable (m : Machine G L C)

/-- The call that is running. -/
def self : ℕ := (m.active.head?.map Frame.id).getD 0

def log (e : Event G L C) : Machine G L C := { m with history := e :: m.history }

def frame (l : L) : Frame G L := ⟨m.calls + 1, l, m.globals⟩

/-- The event of a step. -/
def now (c : C) : Event G L C := .stepped c m.active m.target m.globals

def enter (l : L) : Machine G L C :=
  { m.log (.entered (m.frame l)) with
    calls := m.calls + 1
    active := m.frame l :: m.active }

/-- Leave the call that was entered from `m`. -/
def leave (l : L) (m' : Machine G L C) : Machine G L C :=
  { m'.log (.returned (m.frame l) m'.globals) with active := m.active }

end Machine

namespace Prog

def bind : Prog G L C α → (α → Prog G L C β) → Prog G L C β
  | .ret a, f => f a
  | .step c g k, f => .step c g fun b => (k b).bind f
  | .save body handler k, f => .save body handler fun b => (k b).bind f
  | .call l body k, f => .call l body fun b => (k b).bind f
  | .stuck, _ => .stuck

instance : Monad (Prog G L C) where
  pure := .ret
  bind := .bind

def run : {α : Type} → Prog G L C α → Machine G L C → Result G L C α
  | _, .ret a, m => .value a m
  | _, .step c f k, m =>
    match f m.globals with
    | .done b g => (k b).run { m.log (m.now c) with globals := g }
    | .jump g => .jump { m.log (m.now c) with globals := g }
  | _, .save body handler k, m =>
    ((body.run { m with target := m.self }).caught fun m' =>
      if m'.target = m.self then handler.run { m' with active := m.active }
      else .jump m').bind fun b m' => (k b).run m'
  | _, .call l body k, m => (body.run (m.enter l)).bind fun b m' => (k b).run (m.leave l m')
  | _, .stuck, m => .stuck m

/-- The weakest condition under which, as long as every event meets `Meets`, every event satisfies
`Fine`, a result satisfies `Q` and a jump `J`. Both see the events before. -/
def wp (Meets Fine : Event G L C → List (Event G L C) → Prop) : {α : Type} → Prog G L C α →
    (α → Machine G L C → Prop) → (Machine G L C → Prop) → Machine G L C → Prop
  | _, .ret a, Q, _, m => Q a m
  | _, .step c f k, Q, J, m =>
    Meets (m.now c) m.history → Fine (m.now c) m.history ∧
      match f m.globals with
      | .done b g => (k b).wp Meets Fine Q J { m.log (m.now c) with globals := g }
      | .jump g => J { m.log (m.now c) with globals := g }
  | _, .save body handler k, Q, J, m =>
    body.wp Meets Fine (fun b m' => (k b).wp Meets Fine Q J m')
      (fun m' => (m'.target = m.self → handler.wp Meets Fine
          (fun b m'' => (k b).wp Meets Fine Q J m'') J { m' with active := m.active }) ∧
        (m'.target ≠ m.self → J m')) { m with target := m.self }
  | _, .call l body k, Q, J, m =>
    Meets (.entered (m.frame l)) m.history → Fine (.entered (m.frame l)) m.history ∧
      body.wp Meets Fine (fun b m' => Meets (.returned (m.frame l) m'.globals) m'.history →
        Fine (.returned (m.frame l) m'.globals) m'.history ∧
          (k b).wp Meets Fine Q J (m.leave l m')) J (m.enter l)
  | _, .stuck, _, _, _ => True

theorem bind_ret (p : Prog G L C α) : p >>= .ret = p := by
  show p.bind .ret = p
  induction p with
  | ret a => rfl
  | step c g k ih => exact congrArg _ (funext ih)
  | save body handler k ihb ihh ihk => exact congrArg _ (funext ihk)
  | call l body k ihb ihk => exact congrArg _ (funext ihk)
  | stuck => rfl

theorem run_bind (p : Prog G L C α) (f : α → Prog G L C β) (m : Machine G L C) :
    (p >>= f).run m = (p.run m).bind fun a m' => (f a).run m' := by
  show (p.bind f).run m = _
  induction p generalizing m with
  | ret a => rfl
  | step c g k ih =>
    simp only [Prog.bind, run]
    cases g m.globals with
    | done b g' => exact ih b f { m.log (m.now c) with globals := g' }
    | jump g' => rfl
  | save body handler k ihb ihh ihk =>
    simp only [Prog.bind, run]
    generalize Result.caught _ _ = r
    cases r with
    | value b m' => exact ihk b f m'
    | jump m' => rfl
    | stuck m' => rfl
  | call l body k ihb ihk =>
    simp only [Prog.bind, run]
    generalize body.run (m.enter l) = r
    cases r with
    | value b m' => exact ihk b f (m.leave l m')
    | jump m' => rfl
    | stuck m' => rfl
  | stuck => rfl

/-- What has happened stays in the history. -/
theorem run_history (p : Prog G L C α) (m : Machine G L C) :
    m.history <:+ (p.run m).machine.history := by
  induction p generalizing m with
  | ret a => exact List.suffix_rfl
  | step c f k ih =>
    have hlog : m.history <:+ (m.log (m.now c)).history := List.suffix_cons _ _
    unfold run
    cases f m.globals with
    | done b g =>
      dsimp only
      exact hlog.trans (ih b { m.log (m.now c) with globals := g })
    | jump g => exact hlog
  | save body handler k ihb ihh ihk =>
    have hbody := ihb { m with target := m.self }
    unfold run
    generalize body.run { m with target := m.self } = r at hbody ⊢
    cases r with
    | value b m' => exact hbody.trans (ihk b m')
    | stuck m' => exact hbody
    | jump m' =>
      dsimp only [Result.caught]
      by_cases hself : m'.target = m.self
      · rw [if_pos hself]
        have hhandler := hbody.trans (ihh { m' with active := m.active })
        generalize handler.run { m' with active := m.active } = r at hhandler ⊢
        cases r with
        | value b m'' => exact hhandler.trans (ihk b m'')
        | jump m'' => exact hhandler
        | stuck m'' => exact hhandler
      · rw [if_neg hself]
        exact hbody
  | call l body k ihb ihk =>
    have hbody := (List.suffix_cons _ _).trans (ihb (m.enter l))
    unfold run
    generalize body.run (m.enter l) = r at hbody ⊢
    cases r with
    | value b m' =>
      have hleave : m'.history <:+ (m.leave l m').history := List.suffix_cons _ _
      exact hbody.trans (hleave.trans (ihk b _))
    | stuck m' => exact hbody
    | jump m' => exact hbody
  | stuck => exact List.suffix_rfl

section Rules

variable {Meets Fine : Event G L C → List (Event G L C) → Prop}

theorem wp_mono {p : Prog G L C α} {Q Q' : α → Machine G L C → Prop} {J J' : Machine G L C → Prop}
    {m : Machine G L C} (hQ : ∀ a m', Q a m' → Q' a m') (hJ : ∀ m', J m' → J' m')
    (h : p.wp Meets Fine Q J m) : p.wp Meets Fine Q' J' m := by
  induction p generalizing m J J' with
  | ret a => exact hQ a m h
  | step c f k ih =>
    intro hmeets
    obtain ⟨hfine, hnext⟩ := h hmeets
    refine ⟨hfine, ?_⟩
    cases hf : f m.globals with
    | done b g =>
      rw [hf] at hnext
      exact ih b hQ hJ hnext
    | jump g =>
      rw [hf] at hnext
      exact hJ _ hnext
  | save body handler k ihb ihh ihk =>
    apply ihb _ _ h
    · intro b m' hb
      exact ihk b hQ hJ hb
    · intro m' hm'
      refine ⟨fun hself => ?_, fun hself => hJ m' (hm'.2 hself)⟩
      exact ihh (fun b m'' hb => ihk b hQ hJ hb) hJ (hm'.1 hself)
  | call l body k ihb ihk =>
    intro hmeets
    obtain ⟨hfine, hbody⟩ := h hmeets
    refine ⟨hfine, ?_⟩
    apply ihb _ hJ hbody
    intro b m' hb hreturned
    obtain ⟨hleft, hk⟩ := hb hreturned
    exact ⟨hleft, ihk b hQ hJ hk⟩
  | stuck => trivial

theorem wp_bind {p : Prog G L C α} {f : α → Prog G L C β} {Q : β → Machine G L C → Prop}
    {J : Machine G L C → Prop} {m : Machine G L C}
    (h : p.wp Meets Fine (fun a m' => (f a).wp Meets Fine Q J m') J m) :
    (p >>= f).wp Meets Fine Q J m := by
  show (p.bind f).wp Meets Fine Q J m
  induction p generalizing m with
  | ret a => exact h
  | step c g k ih =>
    intro hmeets
    obtain ⟨hfine, hnext⟩ := h hmeets
    refine ⟨hfine, ?_⟩
    cases hg : g m.globals with
    | done b g' =>
      rw [hg] at hnext
      exact ih b hnext
    | jump g' =>
      rw [hg] at hnext
      exact hnext
  | save body handler k ihb ihh ihk =>
    unfold wp at h
    unfold Prog.bind wp
    apply wp_mono _ _ h
    · intro b m' hb
      exact ihk b hb
    · intro m' hm'
      refine ⟨fun hself => ?_, hm'.2⟩
      exact wp_mono (fun b m'' hb => ihk b hb) (fun _ hj => hj) (hm'.1 hself)
  | call l body k ihb ihk =>
    intro hmeets
    obtain ⟨hfine, hbody⟩ := h hmeets
    refine ⟨hfine, ?_⟩
    apply wp_mono _ (fun _ hJ => hJ) hbody
    intro b m' hb hreturned
    obtain ⟨hleft, hk⟩ := hb hreturned
    exact ⟨hleft, ihk b hk⟩
  | stuck => trivial

theorem wp_save {body handler : Prog G L C β} {k : β → Prog G L C α}
    {Q : α → Machine G L C → Prop} {J : Machine G L C → Prop} {m : Machine G L C}
    (h : body.wp Meets Fine (fun b m' => (k b).wp Meets Fine Q J m')
      (fun m' => (m'.target = m.self → handler.wp Meets Fine
          (fun b m'' => (k b).wp Meets Fine Q J m'') J { m' with active := m.active }) ∧
        (m'.target ≠ m.self → J m')) { m with target := m.self }) :
    (Prog.save body handler k).wp Meets Fine Q J m := h

theorem wp_call {l : L} {body : Prog G L C β} {k : β → Prog G L C α}
    {Q : α → Machine G L C → Prop} {J : Machine G L C → Prop} {m : Machine G L C}
    (h : Meets (.entered (m.frame l)) m.history → Fine (.entered (m.frame l)) m.history ∧
      body.wp Meets Fine (fun b m' => Meets (.returned (m.frame l) m'.globals) m'.history →
        Fine (.returned (m.frame l) m'.globals) m'.history ∧
          (k b).wp Meets Fine Q J (m.leave l m')) J (m.enter l)) :
    (Prog.call l body k).wp Meets Fine Q J m := h

/-- `Holds` holds of every event of a history and the events before it. -/
def Throughout (Holds : Event G L C → List (Event G L C) → Prop) (history : List (Event G L C)) :
    Prop :=
  ∀ e older, e :: older <:+ history → Holds e older

theorem Throughout.mono {Holds : Event G L C → List (Event G L C) → Prop}
    {h h' : List (Event G L C)} (hh : Throughout Holds h') (hs : h <:+ h') : Throughout Holds h :=
  fun e older he => hh e older (he.trans hs)

theorem Throughout.imp {Holds Holds' : Event G L C → List (Event G L C) → Prop}
    {h : List (Event G L C)} (hh : Throughout Holds h)
    (himp : ∀ e older, Holds e older → Holds' e older) : Throughout Holds' h :=
  fun e older hs => himp e older (hh e older hs)

theorem Throughout.head {Holds : Event G L C → List (Event G L C) → Prop} {e : Event G L C}
    {h h' : List (Event G L C)} (hh : Throughout Holds h') (hs : e :: h <:+ h') : Holds e h :=
  hh e h hs

theorem Throughout.cons {Holds : Event G L C → List (Event G L C) → Prop} {e : Event G L C}
    {h : List (Event G L C)} (hh : Throughout Holds h) (he : Holds e h) :
    Throughout Holds (e :: h) := by
  intro e' older hs
  rcases List.suffix_cons_iff.mp hs with heq | hs
  · obtain ⟨rfl, rfl⟩ := List.cons.inj heq
    exact he
  · exact hh e' older hs

theorem throughout_cons {Holds : Event G L C → List (Event G L C) → Prop} {e : Event G L C}
    {h : List (Event G L C)} : Throughout Holds (e :: h) ↔ Holds e h ∧ Throughout Holds h :=
  ⟨fun hh => ⟨hh.head List.suffix_rfl, hh.mono (List.suffix_cons e h)⟩, fun hh => hh.2.cons hh.1⟩

theorem throughout_nil (Holds : Event G L C → List (Event G L C) → Prop) : Throughout Holds [] :=
  fun e older hs => absurd (List.suffix_nil.mp hs) (List.cons_ne_nil e older)

instance decidableThroughout {Holds : Event G L C → List (Event G L C) → Prop}
    [∀ e older, Decidable (Holds e older)] :
    (h : List (Event G L C)) → Decidable (Throughout Holds h)
  | [] => .isTrue (throughout_nil Holds)
  | e :: h =>
    have : Decidable (Throughout Holds h) := decidableThroughout h
    decidable_of_iff (Holds e h ∧ Throughout Holds h) throughout_cons.symm

/-- In a run whose events all meet `Meets`, the weakest condition gives what it promises. -/
theorem wp_run {p : Prog G L C α} {Q : α → Machine G L C → Prop} {J : Machine G L C → Prop}
    {m : Machine G L C} (h : p.wp Meets Fine Q J m)
    (hmeets : Throughout Meets (p.run m).machine.history) (hfine : Throughout Fine m.history) :
    Throughout Fine (p.run m).machine.history ∧
      match p.run m with
      | .value a m' => Q a m'
      | .jump m' => J m'
      | .stuck _ => True := by
  induction p generalizing m J with
  | ret a => exact ⟨hfine, h⟩
  | step c f k ih =>
    unfold run at hmeets ⊢
    unfold wp at h
    cases hf : f m.globals with
    | done b g =>
      rw [hf] at hmeets h
      dsimp only at hmeets h ⊢
      have hnow := hmeets.head (run_history (k b) { m.log (m.now c) with globals := g })
      obtain ⟨hdone, hnext⟩ := h hnow
      exact ih b hnext hmeets (hfine.cons hdone)
    | jump g =>
      rw [hf] at hmeets h
      obtain ⟨hdone, hnext⟩ := h (hmeets.head List.suffix_rfl)
      exact ⟨hfine.cons hdone, hnext⟩
  | save body handler k ihb ihh ihk =>
    unfold run at hmeets ⊢
    unfold wp at h
    have hbody := @ihb _ _ _ h
    have hrun := run_history body { m with target := m.self }
    generalize body.run { m with target := m.self } = r at hmeets hbody hrun ⊢
    cases r with
    | value b m' =>
      obtain ⟨hfine', hk⟩ := hbody (hmeets.mono (run_history (k b) m')) hfine
      exact ihk b hk hmeets hfine'
    | stuck m' => exact hbody hmeets hfine
    | jump m' =>
      dsimp only [Result.caught] at hmeets ⊢
      by_cases hself : m'.target = m.self
      · rw [if_pos hself] at hmeets ⊢
        have hhistory := run_history handler { m' with active := m.active }
        have hhandler := @ihh (fun b m'' => (k b).wp Meets Fine Q J m'') J
          { m' with active := m.active }
        generalize handler.run { m' with active := m.active } = r at hmeets hhandler hhistory ⊢
        cases r with
        | value b m'' =>
          have hmid := hmeets.mono (run_history (k b) m'')
          obtain ⟨hfine', hj⟩ := hbody (hmid.mono hhistory) hfine
          obtain ⟨hfine'', hk⟩ := hhandler (hj.1 hself) hmid hfine'
          exact ihk b hk hmeets hfine''
        | jump m'' =>
          obtain ⟨hfine', hj⟩ := hbody (hmeets.mono hhistory) hfine
          exact hhandler (hj.1 hself) hmeets hfine'
        | stuck m'' =>
          obtain ⟨hfine', hj⟩ := hbody (hmeets.mono hhistory) hfine
          exact hhandler (hj.1 hself) hmeets hfine'
      · rw [if_neg hself] at hmeets ⊢
        obtain ⟨hfine', hj⟩ := hbody hmeets hfine
        exact ⟨hfine', hj.2 hself⟩
  | call l body k ihb ihk =>
    unfold run at hmeets ⊢
    unfold wp at h
    have hrun := run_history body (m.enter l)
    have hbody := @ihb (fun b m' => Meets (.returned (m.frame l) m'.globals) m'.history →
      Fine (.returned (m.frame l) m'.globals) m'.history ∧
        (k b).wp Meets Fine Q J (m.leave l m')) J (m.enter l)
    generalize body.run (m.enter l) = r at hmeets hbody hrun ⊢
    cases r with
    | value b m' =>
      have hleft := hmeets.mono (run_history (k b) (m.leave l m'))
      have hmid := hleft.mono (List.suffix_cons _ _)
      obtain ⟨hentered, hwp⟩ := h (hmid.head hrun)
      obtain ⟨hfine', hreturned⟩ := hbody hwp hmid (hfine.cons hentered)
      obtain ⟨hret, hk⟩ := hreturned (hleft.head List.suffix_rfl)
      exact ihk b hk hmeets (hfine'.cons hret)
    | jump m' =>
      obtain ⟨hentered, hwp⟩ := h (hmeets.head hrun)
      exact hbody hwp hmeets (hfine.cons hentered)
    | stuck m' =>
      obtain ⟨hentered, hwp⟩ := h (hmeets.head hrun)
      exact hbody hwp hmeets (hfine.cons hentered)
  | stuck => exact ⟨hfine, trivial⟩

end Rules

/-! ## Programs without calls -/

/-- `p` calls nothing and saves nothing, all steps are in `I`, and a step that jumps is in `Jumps`. -/
def Quiet (I : G → G → Prop) (Jumps : C → G → Prop) : {α : Type} → Prog G L C α → Prop
  | _, .ret _ => True
  | _, .step c f k => (∀ g, I g (f g).globals ∧ ∀ g', f g = .jump g' → Jumps c g) ∧
      ∀ b, (k b).Quiet I Jumps
  | _, .save _ _ _ => False
  | _, .call _ _ _ => False
  | _, .stuck => True

section Quiet

variable {I : G → G → Prop} {Jumps : C → G → Prop} {Meets Fine : Event G L C → List (Event G L C) → Prop}

theorem Quiet.bind {p : Prog G L C α} {f : α → Prog G L C β} (hp : p.Quiet I Jumps)
    (hf : ∀ a, (f a).Quiet I Jumps) : (p >>= f).Quiet I Jumps := by
  show (p.bind f).Quiet I Jumps
  induction p with
  | ret a => exact hf a
  | step c g k ih => exact ⟨hp.1, fun b => ih b (hp.2 b) hf⟩
  | save body handler k => exact hp.elim
  | call l body k => exact hp.elim
  | stuck => trivial

theorem Quiet.mono {I' : G → G → Prop} (hI : ∀ g g', I g g' → I' g g') {p : Prog G L C α}
    (hp : p.Quiet I Jumps) : p.Quiet I' Jumps := by
  induction p with
  | ret a => trivial
  | step c f k ih => exact ⟨fun g => ⟨hI _ _ (hp.1 g).1, (hp.1 g).2⟩, fun b => ih b (hp.2 b)⟩
  | save body handler k => exact hp.elim
  | call l body k => exact hp.elim
  | stuck => trivial

/-- What steps have done to a machine. -/
structure Since (I : G → G → Prop) (m m' : Machine G L C) : Prop where
  globals : I m.globals m'.globals
  target : m'.target = m.target
  active : m'.active = m.active
  calls : m'.calls = m.calls
  history : ∃ steps, m'.history = steps ++ m.history ∧
    ∀ e ∈ steps, ∃ c g, e = .stepped c m.active m.target g

theorem Since.refl (hrefl : ∀ g, I g g) (m : Machine G L C) : Since I m m :=
  ⟨hrefl _, rfl, rfl, rfl, [], rfl, fun _ he => absurd he List.not_mem_nil⟩

theorem Since.step (htrans : ∀ g g' g'', I g g' → I g' g'' → I g g'') {m m' : Machine G L C}
    (h : Since I m m') (c : C) {g : G} (hg : I m'.globals g) :
    Since I m { m'.log (m'.now c) with globals := g } := by
  obtain ⟨steps, hsteps, hall⟩ := h.history
  refine ⟨htrans _ _ _ h.globals hg, h.target, h.active, h.calls, m'.now c :: steps, ?_, ?_⟩
  · rw [List.cons_append, ← hsteps]
    rfl
  · intro e he
    rcases List.mem_cons.mp he with rfl | he
    · exact ⟨c, m'.globals, by rw [Machine.now, h.active, h.target]⟩
    · exact hall e he

/-- The rule for quiet programs: each step only has to be fine. -/
theorem Quiet.wp (hrefl : ∀ g, I g g) (htrans : ∀ g g' g'', I g g' → I g' g'' → I g g'')
    {p : Prog G L C α} {Q : α → Machine G L C → Prop} {J : Machine G L C → Prop}
    {m : Machine G L C} (h : p.Quiet I Jumps)
    (hfine : ∀ c m', Since I m m' → Meets (m'.now c) m'.history → Fine (m'.now c) m'.history)
    (hQ : ∀ a m', Since I m m' → Q a m')
    (hJ : ∀ c m' g, Since I m m' → Meets (m'.now c) m'.history → Jumps c m'.globals →
      I m'.globals g → J { m'.log (m'.now c) with globals := g }) : p.wp Meets Fine Q J m := by
  have hrun : ∀ m', Since I m m' → p.wp Meets Fine Q J m' := by
    clear hrefl
    induction p with
    | ret a => exact hQ a
    | step c f k ih =>
      intro m' hm' hmeets
      refine ⟨hfine c m' hm' hmeets, ?_⟩
      obtain ⟨hI, hjump⟩ := h.1 m'.globals
      cases hf : f m'.globals with
      | done b g =>
        rw [hf] at hI
        exact ih b (h.2 b) hQ _ (hm'.step htrans c hI)
      | jump g =>
        rw [hf] at hI
        exact hJ c m' g hm' hmeets (hjump g hf) hI
    | save body handler k => exact h.elim
    | call l body k => exact h.elim
    | stuck => exact fun _ _ => trivial
  exact hrun m (Since.refl hrefl m)

end Quiet

end Prog

end Jumping
