import MoToBuddy.Bdd.Plain
import MoToBuddy.Bdd.Quiet
import MoToBuddy.Lib.Hooks

/-!
# The reordering switch

`bdd_disable_reorder` and `bdd_enable_reorder` are for the user, and the library calls them too. The
operators put the switch back: their environment is only left while reordering is enabled.
`bdd_setvarnum`, `bdd_support` and the functions for satisfying assignments enable reordering in the
end whatever the user wants, and `bdd_setvarnum` has exits where reordering stays disabled.

The hooks of the user may call the two functions as well. What they ask for in the middle of one of
these functions, or between the two tries of an operator, is lost.
-/

namespace MoToBuddy.Bdd

open Jumping Code

variable {P : Type} (D : MtbddDomain P) (isPrime : ℕ → Bool)

abbrev Happening (P : Type) : Type := Event (Globals P) (Entry P) Command

/-- What a call says about the switch. -/
def Entry.choice : Entry P → Option Bool
  | .disableReorder => some true
  | .enableReorder => some false
  | _ => none

/-- What the hooks ask for in a step, by calling `bdd_disable_reorder` (`true`) or
`bdd_enable_reorder`: the hook of the collection runs before `bdd_makenode` decides whether to
reorder, the other ones after it. -/
abbrev Requests (P : Type) : Type := Command → Globals P → Option Bool × Option Bool

def noRequests : Requests P := fun _ _ => (none, none)

def Globals.switch (g : Globals P) (b : Option Bool) : Globals P :=
  { g with reorderdisabled := b.getD g.reorderdisabled }

def Requests.hooks (A : Requests P) : Hooks (Globals P) Command where
  before c g := g.switch (A c g).1
  after c g g' := g'.switch (A c g).2

section Requests

variable (A : Requests P)

/-- What the user asked for last, in a call or in a hook; reordering is enabled at first. -/
def userChoice : List (Happening P) → Bool
  | [] => false
  | .entered f :: older => f.label.choice.getD (userChoice older)
  | .stepped c _ _ g :: older => ((A c g).2.or (A c g).1).getD (userChoice older)
  | .returned _ _ :: older => userChoice older

/-- Between the calls the switch is where the user put it. -/
def SwitchKept : Happening P → List (Happening P) → Prop
  | .entered f, older => f.found.reorderdisabled = userChoice A older
  | .returned _ left, older => left.reorderdisabled = userChoice A older
  | .stepped _ _ _ _, _ => True

end Requests

/-- `bdd_setvarnum` gets to its loop. -/
def Globals.AddsVars (g : Globals P) (num : ℤ) (memory : Allocation) : Prop :=
  1 ≤ num ∧ num < maxvar ∧ g.kernel.env.bddvarnum < num ∧ memory.arrays = true ∧
    memory.refstack = true

/-- The switch is as the function is going to leave it. `bdd_setvarnum` leaves it off unless it adds
all variables, and the free slots suffice for that. -/
def Entry.KeepsSwitch : Entry P → Globals P → Prop
  | .setvarnum num memory, g => g.bddrunning = true →
    if g.reorderdisabled = true then
      g.AddsVars num memory → g.kernel.bdderrorcond = true
    else
      g.AddsVars num memory ∧ g.kernel.bdderrorcond = false ∧
        g.kernel.Room (2 * (num.toNat - g.kernel.env.bddvarnum))
  | .support r memory, g => g.check r = none → 2 ≤ r →
    memory = true ∨ g.kernel.env.bddvarnum ≤ g.supportSize → g.reorderdisabled = false
  | .satone r, g => g.check r = none → 2 ≤ r → g.reorderdisabled = false
  | .satoneset r _ pol, g => g.check r = none → r ≠ 0 → pol < 2 → g.reorderdisabled = false
  | .fullsatone r, g => g.check r = none → r ≠ 0 → g.reorderdisabled = false
  | _, _ => True

/-- A call keeps the switch, and no hook asks for anything. -/
def KeepsSwitch (A : Requests P) : Happening P → List (Happening P) → Prop
  | .entered f, _ => f.label.KeepsSwitch f.found
  | .stepped c _ _ g, _ => A c g = (none, none)
  | .returned _ _, _ => True

instance (g : Globals P) (num : ℤ) (memory : Allocation) : Decidable (g.AddsVars num memory) :=
  inferInstanceAs (Decidable (_ ∧ _))

instance (l : Entry P) (g : Globals P) : Decidable (l.KeepsSwitch g) :=
  match l with
  | .setvarnum _ _ => inferInstanceAs (Decidable (_ → _))
  | .support _ _ => inferInstanceAs (Decidable (_ → _))
  | .satone _ => inferInstanceAs (Decidable (_ → _))
  | .satoneset _ _ _ => inferInstanceAs (Decidable (_ → _))
  | .fullsatone _ => inferInstanceAs (Decidable (_ → _))
  | .disableReorder | .enableReorder | .extvarnum _ | .operator _ | .reorder | .mtbdd | .kernel =>
    inferInstanceAs (Decidable True)

instance (A : Requests P) (e : Happening P) (older : List (Happening P)) :
    Decidable (SwitchKept A e older) :=
  match e with
  | .entered _ | .returned _ _ => inferInstanceAs (Decidable (_ = _))
  | .stepped _ _ _ _ => inferInstanceAs (Decidable True)

instance (A : Requests P) (e : Happening P) (older : List (Happening P)) :
    Decidable (KeepsSwitch A e older) :=
  match e with
  | .entered f => inferInstanceAs (Decidable (f.label.KeepsSwitch f.found))
  | .stepped c _ _ g => inferInstanceAs (Decidable (A c g = (none, none)))
  | .returned _ _ => inferInstanceAs (Decidable True)

variable {D isPrime} {R : Reordering P isPrime} {α β : Type} {m : Process P}

/-! ## Steps and recursions -/

/-- The switch is where the user put it. -/
def Chosen (m : Process P) : Prop := m.globals.reorderdisabled = userChoice noRequests m.history

/-- Neither the switch nor the user's choice has changed. -/
structure SameSwitch (m m' : Process P) : Prop where
  reorderdisabled : m'.globals.reorderdisabled = m.globals.reorderdisabled
  userChoice : userChoice noRequests m'.history = userChoice noRequests m.history

theorem SameSwitch.chosen {m m' : Process P} (h : SameSwitch m m') (hm : Chosen m) : Chosen m' :=
  h.reorderdisabled.trans (hm.trans h.userChoice.symm)

theorem SameSwitch.trans {m m' m'' : Process P} (h : SameSwitch m m') (h' : SameSwitch m' m'') :
    SameSwitch m m'' :=
  ⟨h'.reorderdisabled.trans h.reorderdisabled, h'.userChoice.trans h.userChoice⟩

/-- What is shown of programs without hooks. -/
abbrev Code.wpSwitch (x : Code P α) (Q : α → Process P → Prop) (J : Process P → Prop)
    (m : Process P) : Prop :=
  x.wp (KeepsSwitch noRequests) (SwitchKept noRequests) Q J m

/-- Steps are no choices. -/
theorem userChoice_steps {steps older : List (Happening P)}
    (h : ∀ e ∈ steps, ∃ c running target g, e = .stepped c running target g) :
    userChoice noRequests (steps ++ older) = userChoice noRequests older := by
  induction steps with
  | nil => rfl
  | cons e steps ih =>
    obtain ⟨c, running, target, g, rfl⟩ := h e List.mem_cons_self
    exact ih fun e he => h e (List.mem_cons_of_mem _ he)

section Switch

variable {Q : α → Process P → Prop} {J : Process P → Prop}

/-- A recursion keeps the switch, and leaves only if reordering is enabled. -/
theorem Code.Calm.wp_switch {x : Code P α} (hx : Calm D x)
    (hQ : ∀ a m', SameSwitch m m' → Q a m')
    (hJ : m.globals.reorderdisabled = false → ∀ m', SameSwitch m m' → J m') :
    x.wpSwitch Q J m := by
  have hsame : ∀ m', Prog.Since Steady m m' → SameSwitch m m' := by
    intro m' h
    obtain ⟨steps, hsteps, hall⟩ := h.history
    refine ⟨h.globals.reorderdisabled, ?_⟩
    rw [hsteps]
    apply userChoice_steps
    intro e he
    obtain ⟨c, g, hg⟩ := hall e he
    exact ⟨c, _, _, g, hg⟩
  apply Prog.Quiet.wp Steady.refl Steady.trans hx
  · exact fun _ _ _ _ => trivial
  · exact fun a m' h => hQ a m' (hsame m' h)
  · intro c m' g h _ hjumps hg
    have hon := Command.enabled_of_jumps hjumps
    rw [h.globals.reorderdisabled] at hon
    apply hJ hon
    have h' := hsame m' h
    exact ⟨hg.reorderdisabled.trans h'.reorderdisabled, h'.userChoice⟩

theorem wp_look_switch {γ : Type} {h : Globals P → γ} {f : γ → Code P α}
    (hf : ∀ m', SameSwitch m m' → m'.globals = m.globals →
      (f (h m.globals)).wpSwitch Q J m') :
    (look h >>= f).wpSwitch Q J m :=
  fun _ => ⟨trivial, hf _ ⟨rfl, rfl⟩ rfl⟩

theorem wp_setGlobals_switch {h : Globals P → Globals P} {f : Unit → Code P α}
    (hf : (f ()).wpSwitch Q J
      { m.log (m.now .kernel) with globals := h m.globals }) :
    (setGlobals h >>= f).wpSwitch Q J m :=
  fun _ => ⟨trivial, hf⟩

/-- While reordering is disabled `bdd_makenode` does not jump. -/
theorem wp_makenode_switch {level low high : ℕ} {f : ℕ → Code P α}
    (hoff : m.globals.reorderdisabled = true)
    (hf : ∀ m', SameSwitch m m' →
      m'.globals.kernel = (bddMakenode D isPrime m.globals.kernel level low high).2 →
      (f (bddMakenode D isPrime m.globals.kernel level low high).1).wpSwitch Q J m') :
    (makenode D isPrime level low high >>= f).wpSwitch Q J m := by
  intro _
  refine ⟨trivial, ?_⟩
  have hno : ¬ m.globals.interrupts D level low high = true := by
    intro hint
    have hon := Globals.enabled_of_ready (Globals.ready_of_interrupts hint)
    rw [hoff] at hon
    exact nomatch hon
  unfold makenodeStep
  rw [if_neg hno]
  exact hf _ ⟨rfl, rfl⟩ rfl

theorem wp_update_switch {h : BddState P → BddState P} {f : Unit → Code P α}
    (hf : ∀ m', SameSwitch m m' → m'.globals.kernel = h m.globals.kernel →
      (f ()).wpSwitch Q J m') :
    (update h >>= f).wpSwitch Q J m :=
  wp_setGlobals_switch (hf _ ⟨rfl, rfl⟩ rfl)

theorem wp_checkreorder_switch {f : Unit → Code P α}
    (hf : (f ()).wpSwitch Q J
      { m.log (m.now .reorder) with globals := m.globals.bddCheckreorder R }) :
    (checkreorder R >>= f).wpSwitch Q J m :=
  fun _ => ⟨trivial, hf⟩

end Switch

/-! ## Operators -/

/-- The part with the switch on `disabled`, at a point where the user wants reordering. -/
theorem wp_disabled_switch {rec : Code P α} {f : α → Code P β} {Q : β → Process P → Prop}
    {J : Process P → Prop} (hrec : Calm D rec)
    (hf : ∀ a m', m'.globals.reorderdisabled = false →
      userChoice noRequests m'.history = userChoice noRequests m.history →
      (f a).wpSwitch Q J m') :
    (do
      disableReorder
      let a ← rec
      enableReorder
      f a).wpSwitch Q J m := by
  apply wp_setGlobals_switch
  apply Prog.wp_bind
  apply hrec.wp_switch
  · intro a m' h
    apply wp_setGlobals_switch
    exact hf a _ rfl h.userChoice
  · intro hon
    exact absurd hon Bool.true_eq_false_eq_False

/-- An operator leaves its environment only while reordering is enabled, so enabling it after the
second try puts the switch back. -/
theorem restart_switch {rec : Code P ℕ} (hrec : Calm D rec) (hm : Chosen m) :
    (restart isPrime R rec).wpSwitch (fun _ m' => Chosen m')
      (fun _ => True) m := by
  have hdone : ∀ (res : ℕ) (m' : Process P), Chosen m' → (do
      update (checkresize isPrime)
      pure res).wpSwitch (fun _ m' => Chosen m') (fun _ => True)
        m' := fun res m' hm' => wp_setGlobals_switch hm'
  have hfirst : Calm D (do
      initref
      rec) := .bind (.update fun _ => rfl) fun _ => hrec
  apply hfirst.wp_switch
  · intro res m' h
    exact hdone res m' (h.chosen hm)
  · intro hon m' h
    refine ⟨fun _ => ?_, fun _ => trivial⟩
    apply wp_checkreorder_switch
    apply Prog.wp_save
    apply wp_setGlobals_switch
    apply wp_disabled_switch hrec
    intro res m'' hon' hchoice
    apply hdone
    calc m''.globals.reorderdisabled = m.globals.reorderdisabled := hon'.trans hon.symm
      _ = userChoice noRequests m.history := hm
      _ = userChoice noRequests m''.history := (hchoice.trans h.userChoice).symm

/-- A call of a function that is not one of the two for the switch. -/
theorem call_switch {l : Entry P} {body : Code P α} {k : α → Code P β}
    {Q : β → Process P → Prop} {J : Process P → Prop} (hm : Chosen m)
    (hl : l.choice = none)
    (hbody : l.KeepsSwitch m.globals → ∀ m', Chosen m' → m'.globals = m.globals →
      body.wpSwitch (fun _ m' => Chosen m') J m')
    (hk : ∀ a m', Chosen m' → (k a).wpSwitch Q J m') :
    Code.wpSwitch (.call l body k) Q J m := by
  apply Prog.wp_call
  intro hmeets
  refine ⟨hm, ?_⟩
  have henter : Chosen (m.enter l) := by
    show _ = l.choice.getD (userChoice noRequests m.history)
    rw [hl]
    exact hm
  apply Prog.wp_mono _ (fun _ h => h) (hbody hmeets (m.enter l) henter rfl)
  intro a m' hm' _
  exact ⟨hm', hk a _ hm'⟩

/-- A call of one of the two. -/
theorem choice_switch {l : Entry P} {disabled : Bool} (hm : Chosen m)
    (hl : l.choice = some disabled) :
    Code.wpSwitch (.call l (setGlobals fun g => { g with reorderdisabled := disabled }) .ret)
      (fun _ m' => Chosen m') (fun _ => True) m := by
  apply Prog.wp_call
  intro _
  refine ⟨hm, fun _ => ⟨trivial, fun _ => ?_⟩⟩
  have hchoice : userChoice noRequests (m.enter l).history = disabled := by
    show l.choice.getD (userChoice noRequests m.history) = disabled
    rw [hl]
    rfl
  exact ⟨hchoice.symm, hchoice.symm⟩

theorem operator_switch {op : Operator P} (hrec : ∀ s, Calm D (op.recursion s)) (hm : Chosen m) :
    (op.body isPrime R).wpSwitch (fun _ m' => Chosen m')
      (fun _ => True) m := by
  unfold Operator.body
  apply wp_look_switch
  intro m1 h1 _
  cases op.early m.globals with
  | some r => exact wp_update_switch fun m2 h2 _ => (h1.trans h2).chosen hm
  | none =>
    apply wp_look_switch
    intro m2 h2 _
    apply wp_update_switch
    intro m3 h3 _
    exact restart_switch (hrec _) ((h1.trans (h2.trans h3)).chosen hm)

/-! ## Sections -/

section Sections

/-- What is shown of the bodies of the functions. -/
abbrev BodyKeeps (x : Code P α) (m : Process P) : Prop :=
  x.wpSwitch (fun _ m' => Chosen m') (fun _ => True) m

theorem checka_switch {r : ℕ} {body : Code P ℕ} (hm : Chosen m)
    (hbody : m.globals.check r = none → ∀ m', Chosen m' → m'.globals = m.globals →
      BodyKeeps body m') : BodyKeeps (Code.checka r body) m := by
  unfold Code.checka
  apply wp_look_switch
  intro m1 h1 hg1
  cases hc : m.globals.check r with
  | some e => exact wp_update_switch fun m2 h2 _ => (h1.trans h2).chosen hm
  | none => exact hbody hc m1 (h1.chosen hm) hg1

theorem section_switch {body : Code P ℕ} (hbody : Calm D body)
    (hoff : userChoice noRequests m.history = false) :
    BodyKeeps (uninterrupted isPrime body) m := by
  apply wp_setGlobals_switch
  apply wp_setGlobals_switch
  apply Prog.wp_bind
  apply hbody.wp_switch
  · intro res m' h
    apply wp_setGlobals_switch
    apply wp_setGlobals_switch
    exact (h.userChoice.trans hoff).symm
  · exact fun _ _ _ => trivial

theorem bddSatone_switch {r : ℕ} (hm : Chosen m)
    (hon : m.globals.check r = none → 2 ≤ r → m.globals.reorderdisabled = false) :
    BodyKeeps (bddSatone D isPrime r) m := by
  apply checka_switch hm
  intro hc m' hm' hg
  split_ifs with hr
  · exact hm'
  · have hoff := hon hc (by omega)
    rw [← hg, hm'] at hoff
    exact section_switch (satoneRec_calm depth r) hoff

theorem bddSatoneset_switch {r var pol : ℕ} (hm : Chosen m)
    (hon : m.globals.check r = none → r ≠ 0 → pol < 2 → m.globals.reorderdisabled = false) :
    BodyKeeps (bddSatoneset D isPrime r var pol) m := by
  apply checka_switch hm
  intro hc m' hm' hg
  split_ifs with hr hpol
  · exact hm'
  · exact wp_update_switch fun m'' h _ => h.chosen hm'
  · have hoff := hon hc hr (by omega)
    rw [← hg, hm'] at hoff
    exact section_switch (satonesetRec_calm pol depth r var) hoff

theorem bddFullsatone_switch {r : ℕ} (hm : Chosen m)
    (hon : m.globals.check r = none → r ≠ 0 → m.globals.reorderdisabled = false) :
    BodyKeeps (bddFullsatone D isPrime r) m := by
  apply checka_switch hm
  intro hc m' hm' hg
  split_ifs with hr
  · exact hm'
  · have hoff := hon hc hr
    rw [← hg, hm'] at hoff
    apply section_switch (D := D) _ hoff
    exact .bind (fullsatoneRec_calm depth r) fun res => .bind (.look _) fun level =>
      negateLevels_calm 0 level res

theorem bddSupport_switch {r : ℕ} {memory : Bool} (hm : Chosen m)
    (hon : m.globals.check r = none → 2 ≤ r →
      memory = true ∨ m.globals.kernel.env.bddvarnum ≤ m.globals.supportSize →
      m.globals.reorderdisabled = false) :
    BodyKeeps (bddSupport D isPrime r memory) m := by
  have hrest : ∀ m' : Process P, userChoice noRequests m'.history = false →
      BodyKeeps (Code.supportWalk D isPrime r) m' := by
    intro m1 hoff
    unfold Code.supportWalk
    apply wp_look_switch
    intro m2 h2 _
    apply wp_look_switch
    intro m3 h3 _
    apply wp_update_switch
    intro m4 h4 _
    apply wp_update_switch
    intro m5 h5 _
    have h := h2.trans (h3.trans (h4.trans h5))
    apply wp_disabled_switch (supportNodes_calm _ _ _ 1)
    intro res m' hon' hchoice
    exact hon'.trans (hchoice.trans (h.userChoice.trans hoff)).symm
  apply checka_switch hm
  intro hc m' hm' hg
  split
  · exact hm'
  · rename_i hr
    have hoff : memory = true ∨ m.globals.kernel.env.bddvarnum ≤ m.globals.supportSize →
        userChoice noRequests m'.history = false := by
      intro hmem
      rw [← hm', hg]
      exact hon hc (by omega) hmem
    apply wp_look_switch
    intro m1 h1 hg1
    split_ifs with hsmall hmem
    · exact wp_update_switch fun m2 h2 _ => (h1.trans h2).chosen hm'
    · apply wp_setGlobals_switch
      apply hrest
      apply h1.userChoice.trans
      apply hoff
      left
      simpa using hmem
    · apply hrest
      apply h1.userChoice.trans
      apply hoff
      right
      rw [hg] at hsmall
      simpa using hsmall

/-! ## The number of variables -/

/-- With reordering disabled the loop is the one of the kernel. -/
theorem addVars_switch (bdv k : ℕ) (hoff : m.globals.reorderdisabled = true) :
    (Code.addVars D isPrime bdv k).wpSwitch
      (fun ok m' => ok = (Bdd.addVars D isPrime bdv k m.globals.kernel).1 ∧ SameSwitch m m')
      (fun _ => True) m := by
  induction k generalizing m with
  | zero => exact ⟨rfl, rfl, rfl⟩
  | succ k ih =>
    unfold Code.addVars Bdd.addVars
    apply wp_look_switch
    intro m0 h0 hg0
    apply wp_makenode_switch (h0.reorderdisabled.trans hoff)
    intro m1 h1 hpos
    apply wp_update_switch
    intro m2 h2 hpush
    apply wp_makenode_switch ((h0.trans (h1.trans h2)).reorderdisabled.trans hoff)
    intro m3 h3 hneg
    apply wp_update_switch
    intro m4 h4 hpop
    apply wp_look_switch
    intro m5 h5 hg5
    have hm5 := h0.trans (h1.trans (h2.trans (h3.trans (h4.trans h5))))
    rw [hg0] at hpos hpush
    dsimp only
    rw [← hpos, ← hpush, ← hneg, ← hpop]
    split_ifs with hfail
    · exact wp_update_switch fun m6 h6 _ => ⟨rfl, hm5.trans h6⟩
    · apply wp_update_switch
      intro m6 h6 hadd
      have hm6 := hm5.trans h6
      apply Prog.wp_mono _ (fun _ h => h) (ih (hm6.reorderdisabled.trans hoff))
      intro ok m' h
      rw [hadd, hg5, hg0] at h
      exact ⟨h.1, hm6.trans h.2⟩

theorem room_congr {s s' : BddState P} (h : s'.links = s.links) {k : ℕ} (hroom : s.Room k) :
    s'.Room k := by
  unfold BddState.Room BddState.freeSlots
  rw [h]
  exact hroom

theorem links_saturate (s : BddState P) (n : ℕ) : (s.saturate n).links = s.links := by
  unfold BddState.saturate
  exact links_setNode s rfl rfl

/-- The loop adds all variables if there are free slots for their nodes. -/
theorem addVars_room {bdv k : ℕ} {s : BddState P} (hok : s.bdderrorcond = false)
    (hroom : s.Room (2 * k)) : (Bdd.addVars D isPrime bdv k s).1 = true := by
  induction k generalizing s with
  | zero => rfl
  | succ k ih =>
    unfold Bdd.addVars
    dsimp only
    have hpos := @bddMakenode_room _ D isPrime _ (2 * k + 1) hok hroom s.env.bddvarnum 0 1
    generalize bddMakenode D isPrime s s.env.bddvarnum 0 1 = pos at hpos ⊢
    obtain ⟨hok1, hroom1⟩ := hpos
    have hneg := @bddMakenode_room _ D isPrime (pos.2.pushref pos.1) (2 * k) hok1
      (room_congr rfl hroom1) s.env.bddvarnum 1 0
    generalize bddMakenode D isPrime (pos.2.pushref pos.1) s.env.bddvarnum 1 0 = neg at hneg ⊢
    obtain ⟨hok2, hroom2⟩ := hneg
    have hok3 : (neg.2.popref 1).bdderrorcond = false := hok2
    rw [hok3, if_neg Bool.false_ne_true]
    have hok4 : ((neg.2.popref 1).addVar pos.1 neg.1).bdderrorcond = false := hok3
    apply ih hok4
    have hlinks : ((neg.2.saturate pos.1).saturate neg.1).links = neg.2.links :=
      (links_saturate _ neg.1).trans (links_saturate neg.2 pos.1)
    exact room_congr hlinks hroom2

theorem bddMakenode_failed {s : BddState P} (hfail : s.bdderrorcond = true) (level low high : ℕ) :
    (bddMakenode D isPrime s level low high).2.bdderrorcond = true := by
  unfold bddMakenode
  dsimp only
  split_ifs <;> exact hfail

/-- After a report the loop stops at once. -/
theorem addVars_failed {bdv k : ℕ} {s : BddState P} (hfail : s.bdderrorcond = true) (hk : 0 < k) :
    (Bdd.addVars D isPrime bdv k s).1 = false := by
  obtain ⟨k, rfl⟩ := Nat.exists_eq_succ_of_ne_zero hk.ne'
  unfold Bdd.addVars
  dsimp only
  have hpos := @bddMakenode_failed _ D isPrime s hfail s.env.bddvarnum 0 1
  generalize bddMakenode D isPrime s s.env.bddvarnum 0 1 = pos at hpos ⊢
  have hneg := @bddMakenode_failed _ D isPrime (pos.2.pushref pos.1) hpos s.env.bddvarnum 1 0
  generalize bddMakenode D isPrime (pos.2.pushref pos.1) s.env.bddvarnum 1 0 = neg at hneg ⊢
  have hneg : (neg.2.popref 1).bdderrorcond = true := hneg
  rw [if_pos hneg]

/-- `bdd_setvarnum` gets to the end of its loop. -/
def Globals.AddsAll (D : MtbddDomain P) (isPrime : ℕ → Bool) (g : Globals P) (num : ℤ)
    (memory : Allocation) : Prop :=
  g.AddsVars num memory ∧ (Bdd.addVars D isPrime g.kernel.env.bddvarnum
    (num.toNat - g.kernel.env.bddvarnum) g.kernel.initref).1 = true

/-- If `bdd_setvarnum` keeps the switch, it adds the variables exactly while reordering is enabled. -/
theorem addsAll_iff {g : Globals P} {num : ℤ} {memory : Allocation} (hrunning : g.bddrunning = true)
    (hkeep : (Entry.setvarnum num memory).KeepsSwitch g) :
    g.AddsAll D isPrime num memory ↔ g.reorderdisabled = false := by
  have hkeep := hkeep hrunning
  cases hoff : g.reorderdisabled with
  | false =>
    rw [hoff, if_neg Bool.false_ne_true] at hkeep
    obtain ⟨hadds, hok, hroom⟩ := hkeep
    refine iff_of_true ⟨hadds, ?_⟩ rfl
    exact addVars_room hok (room_congr rfl hroom)
  | true =>
    rw [hoff, if_pos rfl] at hkeep
    refine iff_of_false (fun h => ?_) (Ne.symm Bool.false_ne_true)
    obtain ⟨hadds, hall⟩ := h
    have hvars := hadds.2.2.1
    have hnone : (Bdd.addVars D isPrime g.kernel.env.bddvarnum
        (num.toNat - g.kernel.env.bddvarnum) g.kernel.initref).1 = false :=
      addVars_failed (hkeep hadds) (by omega)
    exact Bool.false_ne_true (hnone.symm.trans hall)

theorem bddError_switch {e : BddError} (hm : Chosen m) :
    BodyKeeps (bddError e : Code P ℤ) m :=
  wp_update_switch fun _ h _ => h.chosen hm

theorem bddSetvarnum_switch {num : ℤ} {memory : Allocation} (hm : Chosen m)
    (hkeep : (Entry.setvarnum num memory).KeepsSwitch m.globals) :
    BodyKeeps (Code.bddSetvarnum D isPrime num memory) m := by
  unfold Code.bddSetvarnum
  apply wp_look_switch
  intro m1 h1 hg1
  split
  · exact bddError_switch (h1.chosen hm)
  rename_i hrunning
  have hrunning : m.globals.bddrunning = true := by simpa using hrunning
  have hadds := @addsAll_iff _ D isPrime _ _ _ hrunning hkeep
  -- from here on reordering is disabled
  apply wp_setGlobals_switch
  generalize hm2 : { m1.log (m1.now .kernel) with
    globals := { m1.globals with reorderdisabled := true } } = m2
  have hoff2 : m2.globals.reorderdisabled = true := by rw [← hm2]
  have hchoice2 : userChoice noRequests m2.history = userChoice noRequests m.history := by
    rw [← hm2]
    exact h1.userChoice
  have hkernel2 : m2.globals.kernel = m.globals.kernel := by rw [← hm2, ← hg1]
  apply wp_look_switch
  intro m3 h3 hg3
  rw [hkernel2]
  have hstay : ∀ m' : Process P, SameSwitch m2 m' →
      ¬ m.globals.AddsAll D isPrime num memory → Chosen m' := by
    intro m' h hno
    have hoff : m.globals.reorderdisabled = true := by
      simpa using fun hon => hno (hadds.mpr hon)
    apply h.chosen
    show m2.globals.reorderdisabled = _
    rw [hoff2, hchoice2, ← hm, hoff]
  split_ifs with hrange hless hsame harrays hstack
  · exact wp_update_switch fun m4 h4 _ => hstay m4 (h3.trans h4) fun h => by
      obtain ⟨⟨hlow, hhigh, -⟩, -⟩ := h
      omega
  · exact wp_update_switch fun m4 h4 _ => hstay m4 (h3.trans h4) fun h => by
      have := h.1.2.2.1
      omega
  · exact hstay m3 h3 fun h => by
      have := h.1.2.2.1
      omega
  · exact wp_update_switch fun m4 h4 _ => hstay m4 (h3.trans h4) fun h => by
      simp [h.1.2.2.2.1] at harrays
  · apply wp_update_switch
    intro m4 h4 _
    exact wp_update_switch fun m5 h5 _ => hstay m5 (h3.trans (h4.trans h5)) fun h => by
      simp [h.1.2.2.2.2] at hstack
  · apply wp_update_switch
    intro m4 h4 hinit
    apply Prog.wp_bind
    have hoff4 := (h3.trans h4).reorderdisabled.trans hoff2
    have hloop := @addVars_switch _ D isPrime _ m.globals.kernel.env.bddvarnum
      (num.toNat - m.globals.kernel.env.bddvarnum) hoff4
    rw [hinit, hg3, hkernel2] at hloop
    apply Prog.wp_mono _ (fun _ h => h) hloop
    intro ok m5 h
    obtain ⟨hok, h5⟩ := h
    have hm5 := h3.trans (h4.trans h5)
    cases ok with
    | true =>
      have hvars : m.globals.AddsVars num memory :=
        ⟨by omega, by omega, by omega, by simpa using harrays, by simpa using hstack⟩
      apply wp_update_switch
      intro m6 h6 _
      apply wp_setGlobals_switch
      show false = userChoice noRequests m6.history
      rw [(hm5.trans h6).userChoice, hchoice2, ← hm, hadds.mp ⟨hvars, hok.symm⟩]
    | false =>
      apply hstay m5 hm5
      intro h
      have hfit := h.2
      rw [← hok] at hfit
      exact nomatch hfit

theorem bddExtvarnum_switch {num : ℤ} {memory : Allocation} (hm : Chosen m) :
    BodyKeeps (Code.bddExtvarnum D isPrime num memory) m := by
  unfold Code.bddExtvarnum
  apply wp_look_switch
  intro m1 h1 _
  split_ifs
  · exact bddError_switch (h1.chosen hm)
  · apply call_switch (h1.chosen hm) rfl
    · intro hkeeps m2 hm2 hg2
      apply bddSetvarnum_switch hm2
      rw [hg2]
      exact hkeeps
    · exact fun _ _ h => h

end Sections

/-! ## Programs -/

theorem Code.Calm.keeps {x : Code P α} (hx : Calm D x) (hm : Chosen m) : BodyKeeps x m :=
  hx.wp_switch (fun _ _ h => h.chosen hm) fun _ _ _ => trivial

theorem virtualNode_switch (level child : ℕ) (hm : Chosen m) :
    BodyKeeps (Code.virtualNode D isPrime level child) m := by
  apply wp_update_switch
  intro m1 h1 _
  apply Prog.wp_bind
  apply (Calm.makenode level child child).wp_switch
  · intro res m2 h2
    exact wp_update_switch fun m3 h3 _ => (h1.trans (h2.trans h3)).chosen hm
  · exact fun _ _ _ => trivial

theorem virtualTarget_switch (control operand : ℕ) (hm : Chosen m) :
    BodyKeeps (Code.virtualTarget D isPrime control operand) m := by
  apply wp_look_switch
  intro m1 h1 _
  split_ifs
  · apply wp_update_switch
    intro m2 h2 _
    apply wp_update_switch
    intro m3 h3 _
    apply wp_look_switch
    intro m4 h4 _
    apply Prog.wp_bind
    apply (Calm.makenode control _ _).wp_switch
    · intro res m5 h5
      apply wp_update_switch
      intro m6 h6 _
      apply wp_update_switch
      intro m7 h7 _
      exact (h1.trans (h2.trans (h3.trans (h4.trans (h5.trans (h6.trans h7)))))).chosen hm
    · exact fun _ _ _ => trivial
  · exact h1.chosen hm

theorem Disciplined.switch {c : Bool} {n : ℕ} {p : α → ℕ} {x : Code P α}
    (h : Disciplined D isPrime R c n p x) (hm : Chosen m) : BodyKeeps x m := by
  have hdone : ∀ {γ : Type} (a : γ) (m' : Process P), Chosen m' →
      BodyKeeps (.ret a) m' := fun a m' hm' => hm'
  induction h generalizing m with
  | ret a => exact hm
  | stuck => trivial
  | bind hx hf ihx ihf =>
    exact Prog.wp_bind (Prog.wp_mono (fun a m' => ihf a) (fun _ h => h) (ihx hm))
  | look h => exact (Calm.look (D := D) h).keeps hm
  | update hh => exact (Calm.update (D := D) fun s => (hh s).checkSameChildren).keeps hm
  | makenode level low high => exact (Calm.makenode level low high).keeps hm
  | pushref x => exact (Calm.update (D := D) fun _ => rfl).keeps hm
  | popref k => exact (Calm.update (D := D) fun _ => rfl).keeps hm
  | virtualNode level child hf hchild ihf ihchild =>
    apply Prog.wp_bind
    apply Prog.wp_mono _ (fun _ h => h) (virtualNode_switch level child hm)
    intro res m' hm'
    by_cases hres : res = child
    · rw [hres]
      exact ihchild hm'
    · exact ihf res hres hm'
  | virtualTarget control operand => exact virtualTarget_switch control operand hm
  | mtbdd h ih => exact call_switch hm rfl (fun _ m' hm' _ => ih hm') hdone
  | operator op hearly hprepare hrec ih =>
    exact call_switch hm rfl (fun _ m' hm' _ => operator_switch (fun s => (hrec s).calm) hm') hdone
  | reorder method => exact call_switch hm rfl (fun _ m' hm' _ _ => ⟨trivial, hm'⟩) hdone
  | disableReorder => exact choice_switch hm rfl
  | enableReorder => exact choice_switch hm rfl
  | setvarnum num memory =>
    apply call_switch hm rfl _ hdone
    intro hkeeps m' hm' hg
    apply bddSetvarnum_switch hm'
    rw [hg]
    exact hkeeps
  | extvarnum num memory =>
    exact call_switch hm rfl (fun _ m' hm' _ => bddExtvarnum_switch hm') hdone
  | support r memory =>
    apply call_switch hm rfl _ hdone
    intro hkeeps m' hm' hg
    apply bddSupport_switch hm'
    rw [hg]
    exact hkeeps
  | satone r =>
    apply call_switch hm rfl _ hdone
    intro hkeeps m' hm' hg
    apply bddSatone_switch hm'
    rw [hg]
    exact hkeeps
  | satoneset r var pol =>
    apply call_switch hm rfl _ hdone
    intro hkeeps m' hm' hg
    apply bddSatoneset_switch hm'
    rw [hg]
    exact hkeeps
  | fullsatone r =>
    apply call_switch hm rfl _ hdone
    intro hkeeps m' hm' hg
    apply bddFullsatone_switch hm'
    rw [hg]
    exact hkeeps
  | gbc => exact call_switch hm rfl (fun _ m' hm' _ _ => ⟨trivial, hm'⟩) hdone
  | kernel hh =>
    apply call_switch hm rfl _ hdone
    intro _ m' hm' _ _
    refine ⟨trivial, ?_⟩
    exact (hh m'.globals).reorderdisabled.trans hm'

/-! ## Main results -/

/-- Without hooks, as long as no call finds the switch the other way round than it leaves it, the
switch is where the user put it between any two calls of a session. -/
theorem Disciplined.switch_kept {n : ℕ} {p : α → ℕ} {x : Code P α}
    (h : Disciplined D isPrime R true n p x) (g : Globals P) (hon : g.reorderdisabled = false)
    (hkeeps : Prog.Throughout (KeepsSwitch noRequests) (x.run g.start).machine.history) :
    Prog.Throughout (SwitchKept noRequests) (x.run g.start).machine.history := by
  have hstart : Chosen g.start := hon
  exact (Prog.wp_run (h.switch hstart) hkeeps (Prog.throughout_nil (SwitchKept noRequests))).1

/-! ### Hooks -/

section Hooks

variable {A : Requests P} {e : Happening P} {older history : List (Happening P)}

theorem KeepsSwitch.idle (h : KeepsSwitch A e older) : A.hooks.Idle e older := by
  cases e with
  | stepped c running target g =>
    have hnone : A c g = (none, none) := h
    unfold Hooks.Idle Requests.hooks
    dsimp only
    rw [hnone]
    exact ⟨rfl, rfl⟩
  | entered f => trivial
  | returned f left => trivial

theorem KeepsSwitch.without (h : KeepsSwitch A e older) : KeepsSwitch noRequests e older := by
  cases e with
  | stepped c running target g => rfl
  | entered f => exact h
  | returned f left => trivial

/-- If no hook asked for anything, the user chose in calls only. -/
theorem userChoice_without (h : Prog.Throughout (KeepsSwitch A) history) :
    userChoice A history = userChoice noRequests history := by
  induction history with
  | nil => rfl
  | cons e older ih =>
    obtain ⟨he, hpast⟩ := Prog.throughout_cons.mp h
    cases e with
    | stepped c running target g =>
      have hnone : A c g = (none, none) := he
      unfold userChoice
      rw [hnone, ih hpast]
      rfl
    | entered f => exact congrArg _ (ih hpast)
    | returned f left => exact ih hpast

theorem SwitchKept.of_without (hsame : userChoice A older = userChoice noRequests older)
    (h : SwitchKept noRequests e older) : SwitchKept A e older := by
  cases e with
  | stepped c running target g => trivial
  | entered f => exact Eq.trans h hsame.symm
  | returned f left => exact Eq.trans h hsame.symm

end Hooks

/-- As long as no call finds the switch the other way round than it leaves it, and no hook asks for
another choice in the middle of a call, the switch is where the user put it between any two calls of
a session. -/
theorem reorderSwitch_kept {n : ℕ} {p : α → ℕ} {x : Code P α}
    (h : Disciplined D isPrime R true n p x) (A : Requests P) (g : Globals P)
    (hon : g.reorderdisabled = false)
    (hkeeps : Prog.Throughout (KeepsSwitch A) ((x.hooked A.hooks).run g.start).machine.history) :
    Prog.Throughout (SwitchKept A) ((x.hooked A.hooks).run g.start).machine.history := by
  have hsame : (x.hooked A.hooks).run g.start = x.run g.start :=
    Prog.run_hooked (hkeeps.imp fun _ _ => KeepsSwitch.idle)
  rw [hsame] at hkeeps ⊢
  have hkept := h.switch_kept g hon (hkeeps.imp fun _ _ => KeepsSwitch.without)
  intro e older hsuffix
  have hpast := hkeeps.mono ((List.suffix_cons e older).trans hsuffix)
  exact SwitchKept.of_without (userChoice_without hpast) (hkept e older hsuffix)

/-! ### Sessions -/

/-- Reordering that finds no better order. -/
def sameOrder : Reordering P isPrime where
  run _ s := s
  gain _ _ := 0
  refstack _ _ := rfl
  checkSameChildren _ _ := rfl
  nodesize _ _ h := h

/-- Reordering is on, and all slots are taken: `2` to `5` by the variables and `6` by their
conjunction. -/
def fullSession : Code UInt32 ℕ := do
  let _ ← .call (.setvarnum 2 ⟨true, true⟩)
    (Code.bddSetvarnum intDomain trialDivision 2 ⟨true, true⟩) .ret
  .call .kernel (setGlobals fun g => { g with
    bddreordermethod := 1
    vartree := true
    bddreordertimes := -1 }) .ret
  let both ← .call (.operator (Code.bddApply intDomain trialDivision 2 4 0).leaves)
    ((Code.bddApply intDomain trialDivision 2 4 0).body trialDivision sameOrder) .ret
  .call .kernel (update (bddAddref · both)) .ret
  pure both

theorem fullSession_disciplined :
    Disciplined intDomain trialDivision sameOrder true 0 (fun _ => 0) fullSession := by
  refine .bind (.setvarnum 2 ⟨true, true⟩) fun _ => .bind (.kernel fun g => ?_) fun _ => ?_
  · exact ⟨.of_nodes rfl rfl rfl rfl, rfl⟩
  · refine .bind (bddApply_disciplined 2 4 0) fun both => .bind (.kernel fun g => ?_) fun _ => ?_
    · exact ⟨bddAddref_untouched g.kernel both, rfl⟩
    · exact .pure both

/-- An operator is interrupted and starts again. -/
def interruptedXor : Code UInt32 ℕ := do
  let _ ← fullSession
  .call (.operator (Code.bddApply intDomain trialDivision 2 4 1).leaves)
    ((Code.bddApply intDomain trialDivision 2 4 1).body trialDivision sameOrder) .ret

theorem interruptedXor_disciplined :
    Disciplined intDomain trialDivision sameOrder true 0 (fun _ => 0) interruptedXor :=
  .bind fullSession_disciplined fun _ => bddApply_disciplined 2 4 1

/-- An assignment that satisfies the first variable. -/
def satoneOfVariable : Code UInt32 ℕ :=
  .call (.satone 2) (bddSatone intDomain trialDivision 2) .ret

/-- The user disables reordering after an operator with a restart and `bdd_satone`. -/
def satoneThenDisable : Code UInt32 Unit := do
  let _ ← interruptedXor
  let _ ← satoneOfVariable
  .call .disableReorder disableReorder .ret

/-- The user disables reordering and calls `bdd_satone`. -/
def disableThenSatone : Code UInt32 ℕ := do
  let _ ← fullSession
  .call .disableReorder disableReorder .ret
  satoneOfVariable

/-- A hook of the user that disables reordering after it. -/
def disableInHook : Requests P
  | .reorder, g => if g.bddReorderReady then (none, some true) else (none, none)
  | _, _ => (none, none)

theorem satoneThenDisable_disciplined :
    Disciplined intDomain trialDivision sameOrder true 0 (fun _ => 0) satoneThenDisable :=
  .bind interruptedXor_disciplined fun _ => .bind (.satone 2) fun _ => .disableReorder

theorem disableThenSatone_disciplined :
    Disciplined intDomain trialDivision sameOrder true 0 (fun _ => 0) disableThenSatone :=
  .bind fullSession_disciplined fun _ => .bind .disableReorder fun _ => .satone 2

theorem reorderSwitch_kept_satone :
    Prog.Throughout (KeepsSwitch noRequests) ((satoneThenDisable.hooked noRequests.hooks).run
        (Globals.init (bddInit 7 3)).start).machine.history ∧
      Prog.Throughout (SwitchKept noRequests) ((satoneThenDisable.hooked noRequests.hooks).run
        (Globals.init (bddInit 7 3)).start).machine.history := by
  have hkeeps : Prog.Throughout (KeepsSwitch noRequests)
      ((satoneThenDisable.hooked noRequests.hooks).run
        (Globals.init (bddInit 7 3)).start).machine.history := by
    decide +kernel
  exact ⟨hkeeps, reorderSwitch_kept satoneThenDisable_disciplined noRequests _ rfl hkeeps⟩

/-- Reordering is enabled again though the user disabled it: by a call before `bdd_satone`, or in the
hook between the two tries of an operator. -/
theorem reorderSwitch_notKept :
    Disciplined intDomain trialDivision sameOrder true 0 (fun _ => 0) disableThenSatone ∧
      (¬ Prog.Throughout (SwitchKept noRequests) ((disableThenSatone.hooked noRequests.hooks).run
        (Globals.init (bddInit 7 3)).start).machine.history) ∧
      Disciplined intDomain trialDivision sameOrder true 0 (fun _ => 0) interruptedXor ∧
      ¬ Prog.Throughout (SwitchKept disableInHook) ((interruptedXor.hooked disableInHook.hooks).run
        (Globals.init (bddInit 7 3)).start).machine.history :=
  ⟨disableThenSatone_disciplined, by decide +kernel, interruptedXor_disciplined, by decide +kernel⟩

end MoToBuddy.Bdd
