import MoToBuddy.Bdd.Switch

/-!
# Jumps out of `bdd_makenode`

An operator that is running has saved its environment, so a jump goes to it. The functions of
`mtbdd.c` and `mtbddop.cxx` save no environment: a jump out of one of them goes to a call that has
returned, or to none at all. The functions that disable reordering never jump.
-/

namespace MoToBuddy.Bdd

open Jumping Code

variable {P : Type}

def Entry.isOperator : Entry P → Bool
  | .operator _ => true
  | _ => false

/-- Only operators are interrupted. -/
def OnlyOperators (D : MtbddDomain P) : Happening P → List (Happening P) → Prop
  | .stepped (.makenode level low high) running _ g, _ =>
    g.interrupts D level low high = true → (running.head?.any (·.label.isOperator)) = true
  | _, _ => True

/-- A jump goes to a call that has not returned, and the check of the children is on between the
calls. -/
def ExitScoped (D : MtbddDomain P) : Happening P → List (Happening P) → Prop
  | .stepped (.makenode level low high) running target g, _ =>
    g.interrupts D level low high = true → target ∈ running.map Frame.id
  | .entered f, _ => f.found.kernel.checkSameChildren = true
  | .returned _ left, _ => left.kernel.checkSameChildren = true
  | _, _ => True

instance (D : MtbddDomain P) (e : Happening P) (older : List (Happening P)) :
    Decidable (OnlyOperators D e older) :=
  match e with
  | .stepped (.makenode _ _ _) _ _ _ => inferInstanceAs (Decidable (_ → _))
  | .stepped .kernel _ _ _ | .stepped .gbc _ _ _ | .stepped .reorder _ _ _ | .entered _
    | .returned _ _ => inferInstanceAs (Decidable True)

instance (D : MtbddDomain P) (e : Happening P) (older : List (Happening P)) :
    Decidable (ExitScoped D e older) :=
  match e with
  | .stepped (.makenode _ _ _) _ _ _ => inferInstanceAs (Decidable (_ → _))
  | .entered _ | .returned _ _ => inferInstanceAs (Decidable (_ = _))
  | .stepped .kernel _ _ _ | .stepped .gbc _ _ _ | .stepped .reorder _ _ _ =>
    inferInstanceAs (Decidable True)

variable {D : MtbddDomain P} {isPrime : ℕ → Bool} {R : Reordering P isPrime} {α β : Type}
  {m : Process P}

/-! ## Between the calls -/

/-- The check of the children is on, and no operator is running. -/
structure Outside (m : Process P) : Prop where
  check : m.globals.kernel.checkSameChildren = true
  apart : m.active.head?.any (·.label.isOperator) = false

/-- The check of the children is as it was. -/
def SameCheck (g g' : Globals P) : Prop :=
  g'.kernel.checkSameChildren = g.kernel.checkSameChildren

theorem SameCheck.refl (g : Globals P) : SameCheck g g := rfl

theorem SameCheck.trans (g g' g'' : Globals P) (h : SameCheck g g') (h' : SameCheck g' g'') :
    SameCheck g g'' := Eq.trans h' h

abbrev Code.Checked (D : MtbddDomain P) (x : Code P α) : Prop :=
  x.Quiet SameCheck (Command.jumps D)

theorem Code.Calm.checked {x : Code P α} (hx : Calm D x) : Checked D x :=
  Prog.Quiet.mono (fun _ _ h => h.checkSameChildren) hx

theorem setGlobals_checked {h : Globals P → Globals P} (hh : ∀ g, SameCheck g (h g)) :
    Checked D (setGlobals h) :=
  ⟨fun g => ⟨hh g, fun _ he => nomatch he⟩, fun _ => trivial⟩

section Rules

variable {Q : α → Process P → Prop} {J : Process P → Prop}

/-- Outside of the operators nothing jumps. -/
theorem Code.Checked.wp_outside {x : Code P α} (hx : Checked D x)
    (hm : m.active.head?.any (·.label.isOperator) = false)
    (hQ : ∀ a m', SameCheck m.globals m'.globals → m'.active = m.active → Q a m') :
    x.wp (OnlyOperators D) (ExitScoped D) Q J m := by
  have hno : ∀ (c : Command) (m' : Process P), m'.active = m.active →
      OnlyOperators D (m'.now c) m'.history → ¬ c.jumps D m'.globals := by
    intro c m' hactive honly hjumps
    cases c with
    | makenode level low high =>
      have hop := honly hjumps
      rw [hactive, hm] at hop
      exact nomatch hop
    | kernel | gbc | reorder => exact hjumps
  apply Prog.Quiet.wp SameCheck.refl SameCheck.trans hx
  · intro c m' h honly
    cases c with
    | makenode level low high => exact fun hint => absurd hint (hno _ m' h.active honly)
    | kernel | gbc | reorder => trivial
  · exact fun a m' h => hQ a m' h.globals h.active
  · exact fun c m' g h honly hjumps _ => absurd hjumps (hno c m' h.active honly)

/-- The operator that is running has saved its environment. -/
theorem Code.Checked.wp_inside {x : Code P α} (hx : Checked D x)
    (hm : m.target ∈ m.active.map Frame.id)
    (hQ : ∀ a m', SameCheck m.globals m'.globals → Q a m')
    (hJ : ∀ m', SameCheck m.globals m'.globals → m'.target = m.target → J m') :
    x.wp (OnlyOperators D) (ExitScoped D) Q J m := by
  apply Prog.Quiet.wp SameCheck.refl SameCheck.trans hx
  · intro c m' h _
    cases c with
    | makenode level low high =>
      intro _
      rw [h.active, h.target]
      exact hm
    | kernel | gbc | reorder => trivial
  · exact fun a m' h => hQ a m' h.globals
  · exact fun c m' g h _ _ hg => hJ _ (SameCheck.trans _ _ _ h.globals hg) h.target

theorem wp_look_exit {γ : Type} {h : Globals P → γ} {f : γ → Code P α}
    (hf : ∀ m', m'.globals = m.globals → m'.active = m.active →
      (f (h m.globals)).wp (OnlyOperators D) (ExitScoped D) Q J m') :
    (look h >>= f).wp (OnlyOperators D) (ExitScoped D) Q J m :=
  fun _ => ⟨trivial, hf _ rfl rfl⟩

theorem wp_setGlobals_exit {h : Globals P → Globals P} {f : Unit → Code P α}
    (hf : ∀ m', m'.globals = h m.globals → m'.active = m.active →
      (f ()).wp (OnlyOperators D) (ExitScoped D) Q J m') :
    (setGlobals h >>= f).wp (OnlyOperators D) (ExitScoped D) Q J m :=
  fun _ => ⟨trivial, hf _ rfl rfl⟩

end Rules

/-! ## Calls -/

/-- What is shown of a program between the calls. -/
abbrev StaysOutside (D : MtbddDomain P) (x : Code P α) (m : Process P) : Prop :=
  x.wp (OnlyOperators D) (ExitScoped D) (fun _ m' => Outside m') (fun _ => False) m

theorem Code.Checked.outside {x : Code P α} (hx : Checked D x) (hm : Outside m) :
    StaysOutside D x m := by
  apply hx.wp_outside hm.apart
  intro a m' hcheck hactive
  exact ⟨Eq.trans hcheck hm.check, by rw [hactive, hm.apart]⟩

/-- A call of a function that is not an operator. -/
theorem call_exit {l : Entry P} {body : Code P α} {k : α → Code P β}
    {Q : β → Process P → Prop} {J : Process P → Prop} (hm : Outside m) (hl : l.isOperator = false)
    (hbody : Outside (m.enter l) →
      body.wp (OnlyOperators D) (ExitScoped D) (fun _ m' => Outside m') J (m.enter l))
    (hk : ∀ a m', Outside m' → (k a).wp (OnlyOperators D) (ExitScoped D) Q J m') :
    (Prog.call l body k).wp (OnlyOperators D) (ExitScoped D) Q J m := by
  apply Prog.wp_call
  intro _
  refine ⟨hm.check, ?_⟩
  apply Prog.wp_mono _ (fun _ h => h) (hbody ⟨hm.check, hl⟩)
  intro a m' hm' _
  exact ⟨hm'.check, hk a _ ⟨hm'.check, hm.apart⟩⟩

theorem bddCheckreorder_check (g : Globals P) : SameCheck g (g.bddCheckreorder R) := by
  have hauto : SameCheck g (g.bddReorderAuto R) := by
    unfold Globals.bddReorderAuto
    split_ifs
    · exact R.checkSameChildren _ _
    · rfl
  exact hauto

theorem checkreorder_checked : Checked D (checkreorder R) :=
  ⟨fun g => ⟨bddCheckreorder_check g, fun _ he => nomatch he⟩, fun _ => trivial⟩

/-- A jump out of the recursion of an operator goes to the operator. -/
theorem restart_exit {rec : Code P ℕ} (hrec : Calm D rec)
    (hself : m.self ∈ m.active.map Frame.id) (hm : m.globals.kernel.checkSameChildren = true) :
    (restart isPrime R rec).wp (OnlyOperators D) (ExitScoped D)
      (fun _ m' => m'.globals.kernel.checkSameChildren = true) (fun _ => False) m := by
  have hdone : ∀ (res : ℕ) (m' : Process P), m'.globals.kernel.checkSameChildren = true → (do
      update (checkresize isPrime)
      pure res).wp (OnlyOperators D) (ExitScoped D)
        (fun _ m' => m'.globals.kernel.checkSameChildren = true) (fun _ => False) m' :=
    fun res m' hm' _ => ⟨trivial, (checkresize_untouched m'.globals.kernel).checkSameChildren.trans hm'⟩
  have hfirst : Checked D (do
      initref
      rec) := Calm.checked (.bind (.update fun _ => rfl) fun _ => hrec)
  have hagain : Checked D (do
      initref
      disableReorder
      let res ← rec
      enableReorder
      pure res) := by
    refine .bind (Calm.checked (.update fun _ => rfl)) fun _ => ?_
    refine .bind (setGlobals_checked fun _ => rfl) fun _ => .bind hrec.checked fun res => ?_
    exact .bind (setGlobals_checked fun _ => rfl) fun _ => Calm.checked (.ret res)
  have hagainAt : ∀ m' : Process P, m'.self ∈ m'.active.map Frame.id →
      m'.globals.kernel.checkSameChildren = true → (Prog.save (do
          initref
          disableReorder
          let res ← rec
          enableReorder
          pure res)
        (do
          checkreorder R
          pure 0)
        .ret).wp (OnlyOperators D) (ExitScoped D)
          (fun _ m' => m'.globals.kernel.checkSameChildren = true) (fun _ => False) m' := by
    intro m' hself' hm'
    apply Prog.wp_save
    apply hagain.wp_inside hself'
    · exact fun res m'' h => Eq.trans h hm'
    · intro m'' h htarget
      refine ⟨fun _ _ => ⟨trivial, ?_⟩, fun hne => hne htarget⟩
      exact Eq.trans (bddCheckreorder_check m''.globals) (Eq.trans h hm')
  apply Prog.wp_save
  apply hfirst.wp_inside hself
  · exact fun res m' h => hdone res m' (Eq.trans h hm)
  · intro m' h htarget
    refine ⟨fun _ _ => ⟨trivial, ?_⟩, fun hne => hne htarget⟩
    apply Prog.wp_mono hdone (fun _ h => h)
    apply hagainAt
    · exact hself
    · exact Eq.trans (bddCheckreorder_check m'.globals) (Eq.trans h hm)

theorem operator_exit {op : Operator P}
    (hearly : ∀ g res s, op.early g = some (res, s) → Untouched isPrime g.kernel s)
    (hprepare : ∀ s, Untouched isPrime s (op.prepare s)) (hrec : ∀ s, Calm D (op.recursion s))
    (hm : Outside m) :
    StaysOutside D (.call (.operator op.leaves) (op.body isPrime R) .ret) m := by
  apply Prog.wp_call
  intro _
  refine ⟨hm.check, ?_⟩
  have hbody : (op.body isPrime R).wp (OnlyOperators D) (ExitScoped D)
      (fun _ m' => m'.globals.kernel.checkSameChildren = true) (fun _ => False)
      (m.enter (.operator op.leaves)) := by
    unfold Operator.body
    apply wp_look_exit
    intro m1 hg1 ha1
    cases hop : op.early m.globals with
    | some r =>
      rw [show op.early (m.enter (.operator op.leaves)).globals = _ from hop]
      apply wp_setGlobals_exit
      intro m2 hg2 _
      show m2.globals.kernel.checkSameChildren = true
      rw [hg2]
      exact (hearly _ r.1 r.2 hop).checkSameChildren.trans hm.check
    | none =>
      rw [show op.early (m.enter (.operator op.leaves)).globals = _ from hop]
      apply wp_look_exit
      intro m2 hg2 ha2
      apply wp_setGlobals_exit
      intro m3 hg3 ha3
      apply restart_exit (hrec _)
      · rw [Machine.self, ha3, ha2, ha1]
        exact List.mem_cons_self
      · rw [hg3, hg2, hg1]
        exact (hprepare _).checkSameChildren.trans hm.check
  apply Prog.wp_mono _ (fun _ h => h) hbody
  intro a m' hm' _
  exact ⟨hm', hm', hm.apart⟩

/-! ## Functions that save no environment -/

theorem checka_checked {r : ℕ} {body : Code P ℕ} (h : Checked D body) :
    Checked D (Code.checka r body) := by
  refine .bind (Calm.look _).checked fun o => ?_
  cases o with
  | some e => exact .bind (setGlobals_checked fun _ => rfl) fun _ => (Calm.ret 0).checked
  | none => exact h

theorem uninterrupted_checked {body : Code P ℕ} (h : Calm D body) :
    Checked D (uninterrupted isPrime body) := by
  refine .bind (setGlobals_checked fun _ => rfl) fun _ => ?_
  refine .bind (setGlobals_checked fun _ => rfl) fun _ => .bind h.checked fun res => ?_
  refine .bind (setGlobals_checked fun _ => rfl) fun _ => .bind (Calm.update ?_).checked fun _ => ?_
  · intro s
    have hresize : Untouched isPrime s (checkresize isPrime s) := checkresize_untouched s
    exact hresize.checkSameChildren
  · exact (Calm.ret res).checked

theorem bddSatone_checked (r : ℕ) : Checked D (bddSatone D isPrime r) := by
  apply checka_checked
  split_ifs
  · exact (Calm.ret r).checked
  · exact uninterrupted_checked (satoneRec_calm depth r)

theorem bddSatoneset_checked (r var pol : ℕ) : Checked D (bddSatoneset D isPrime r var pol) := by
  apply checka_checked
  split_ifs
  · exact (Calm.ret r).checked
  · exact .bind (setGlobals_checked fun _ => rfl) fun _ => (Calm.ret 0).checked
  · exact uninterrupted_checked (satonesetRec_calm pol depth r var)

theorem bddFullsatone_checked (r : ℕ) : Checked D (bddFullsatone D isPrime r) := by
  apply checka_checked
  split_ifs
  · exact (Calm.ret 0).checked
  · apply uninterrupted_checked
    exact .bind (fullsatoneRec_calm depth r) fun res => .bind (.look _) fun level =>
      negateLevels_calm 0 level res

theorem bddSupport_checked (r : ℕ) (memory : Bool) : Checked D (bddSupport D isPrime r memory) := by
  have hmarks : ∀ supportMin, Checked D (update fun s => (supportFrom r supportMin s).1) :=
    fun supportMin => (Calm.update fun s => supportRec_check _ r _).checked
  have hunmark : Checked D (update fun s => bddUnmark (s.bddnodesize + 1) r s) :=
    (Calm.update fun s => bddUnmark_check _ r s).checked
  have hrest : Checked D (Code.supportWalk D isPrime r) := by
    unfold Code.supportWalk
    refine .bind (Calm.look _).checked fun supportMin => .bind (Calm.look _).checked fun found => ?_
    refine .bind (hmarks supportMin) fun _ => .bind hunmark fun _ => ?_
    refine .bind (setGlobals_checked fun _ => rfl) fun _ => ?_
    refine .bind (supportNodes_calm _ supportMin _ 1).checked fun res => ?_
    exact .bind (setGlobals_checked fun _ => rfl) fun _ => (Calm.ret res).checked
  apply checka_checked
  split
  · exact (Calm.ret 0).checked
  · refine .bind (Calm.look _).checked fun small => ?_
    split_ifs
    · exact .bind (setGlobals_checked fun _ => rfl) fun _ => (Calm.ret 0).checked
    · exact .bind (setGlobals_checked fun _ => rfl) fun _ => hrest
    · exact hrest

theorem bddError_checked (e : BddError) : Checked D (bddError e : Code P ℤ) :=
  .bind (setGlobals_checked fun _ => rfl) fun _ => (Calm.ret _).checked

theorem bddSetvarnum_checked (num : ℤ) (memory : Allocation) :
    Checked D (Code.bddSetvarnum D isPrime num memory) := by
  unfold Code.bddSetvarnum
  refine .bind (Calm.look _).checked fun running => ?_
  split
  · exact bddError_checked .running
  refine .bind (setGlobals_checked fun _ => rfl) fun _ => .bind (Calm.look _).checked fun bdv => ?_
  split_ifs
  · exact .bind (setGlobals_checked fun _ => rfl) fun _ => (Calm.ret 0).checked
  · exact bddError_checked .decvnum
  · exact (Calm.ret 0).checked
  · exact bddError_checked .memory
  · exact .bind (setGlobals_checked fun _ => rfl) fun _ => bddError_checked .memory
  refine .bind (setGlobals_checked fun _ => rfl) fun _ => ?_
  refine .bind (addVars_calm _ _).checked fun ok => ?_
  split_ifs
  · refine .bind (setGlobals_checked fun _ => rfl) fun _ => ?_
    exact .bind (setGlobals_checked fun _ => rfl) fun _ => (Calm.ret 0).checked
  · exact (Calm.ret _).checked

theorem bddExtvarnum_exit (num : ℤ) (memory : Allocation) (hm : Outside m) :
    StaysOutside D (Code.bddExtvarnum D isPrime num memory) m := by
  apply wp_look_exit
  intro m1 hg1 ha1
  have hm1 : Outside m1 := ⟨by rw [hg1, hm.check], by rw [ha1, hm.apart]⟩
  split_ifs
  · exact (bddError_checked .range).outside hm1
  · apply call_exit hm1 rfl
    · exact (bddSetvarnum_checked _ memory).outside
    · exact fun _ _ h => h

theorem virtualNode_exit (level child : ℕ) (hm : Outside m) :
    StaysOutside D (Code.virtualNode D isPrime level child) m := by
  apply wp_setGlobals_exit
  intro m1 _ ha1
  apply Prog.wp_bind
  apply (Calm.makenode level child child).checked.wp_outside
  · rw [ha1, hm.apart]
  · intro res m2 _ ha2
    apply wp_setGlobals_exit
    intro m3 hg3 ha3
    exact ⟨by rw [hg3], by rw [ha3, ha2, ha1, hm.apart]⟩

theorem virtualTarget_exit (control operand : ℕ) (hm : Outside m) :
    StaysOutside D (Code.virtualTarget D isPrime control operand) m := by
  apply wp_look_exit
  intro m1 hg1 ha1
  split_ifs
  · apply wp_setGlobals_exit
    intro m2 _ ha2
    apply wp_setGlobals_exit
    intro m3 _ ha3
    apply wp_look_exit
    intro m4 _ ha4
    apply Prog.wp_bind
    apply (Calm.makenode control _ _).checked.wp_outside
    · rw [ha4, ha3, ha2, ha1, hm.apart]
    · intro res m5 _ ha5
      apply wp_setGlobals_exit
      intro m6 hg6 ha6
      apply wp_setGlobals_exit
      intro m7 hg7 ha7
      refine ⟨?_, by rw [ha7, ha6, ha5, ha4, ha3, ha2, ha1, hm.apart]⟩
      show m7.globals.kernel.checkSameChildren = true
      rw [hg7]
      show m6.globals.kernel.checkSameChildren = true
      rw [hg6]
  · exact ⟨by rw [hg1, hm.check], by rw [ha1, hm.apart]⟩

/-! ## Programs -/

theorem Disciplined.outside {c : Bool} {n : ℕ} {p : α → ℕ} {x : Code P α}
    (h : Disciplined D isPrime R c n p x) (hm : Outside m) : StaysOutside D x m := by
  have hdone : ∀ {γ : Type} (a : γ) (m' : Process P), Outside m' →
      StaysOutside D (.ret a) m' := fun a m' hm' => hm'
  have hgbc : Checked D (Code.gbc D) :=
    ⟨fun g => ⟨(bddGbc_rest D g.kernel).checkSameChildren, fun _ he => nomatch he⟩, fun _ => trivial⟩
  have hreorder : ∀ method, Checked D (Code.bddReorder R method) := fun method =>
    ⟨fun g => ⟨R.checkSameChildren method g.kernel, fun _ he => nomatch he⟩, fun _ => trivial⟩
  induction h generalizing m with
  | ret a => exact hm
  | stuck => trivial
  | bind hx hf ihx ihf =>
    apply Prog.wp_bind
    exact Prog.wp_mono (fun a m' => ihf a) (fun _ h => h) (ihx hm)
  | look h => exact (Calm.look h).checked.outside hm
  | update hh => exact (Calm.update fun s => (hh s).checkSameChildren).checked.outside hm
  | makenode level low high => exact (Calm.makenode level low high).checked.outside hm
  | pushref x => exact Checked.outside (x := Code.pushref x) (setGlobals_checked fun _ => rfl) hm
  | popref k => exact Checked.outside (x := Code.popref k) (setGlobals_checked fun _ => rfl) hm
  | virtualNode level child hf hchild ihf ihchild =>
    apply Prog.wp_bind
    apply Prog.wp_mono _ (fun _ h => h) (virtualNode_exit level child hm)
    intro res m' hm'
    by_cases hres : res = child
    · rw [hres]
      exact ihchild hm'
    · exact ihf res hres hm'
  | virtualTarget control operand => exact virtualTarget_exit control operand hm
  | mtbdd h ih => exact call_exit hm rfl ih hdone
  | operator op hearly hprepare hrec ih =>
    exact operator_exit hearly hprepare (fun s => (hrec s).calm) hm
  | reorder method => exact call_exit hm rfl (hreorder method).outside hdone
  | disableReorder =>
    have hset : Checked D (Code.disableReorder : Code P Unit) := setGlobals_checked fun _ => rfl
    exact call_exit hm rfl hset.outside hdone
  | enableReorder =>
    have hset : Checked D (Code.enableReorder : Code P Unit) := setGlobals_checked fun _ => rfl
    exact call_exit hm rfl hset.outside hdone
  | setvarnum num memory => exact call_exit hm rfl (bddSetvarnum_checked num memory).outside hdone
  | extvarnum num memory => exact call_exit hm rfl (bddExtvarnum_exit num memory) hdone
  | support r memory => exact call_exit hm rfl (bddSupport_checked r memory).outside hdone
  | satone r => exact call_exit hm rfl (bddSatone_checked r).outside hdone
  | satoneset r var pol => exact call_exit hm rfl (bddSatoneset_checked r var pol).outside hdone
  | fullsatone r => exact call_exit hm rfl (bddFullsatone_checked r).outside hdone
  | gbc => exact call_exit hm rfl hgbc.outside hdone
  | kernel hh =>
    exact call_exit hm rfl (setGlobals_checked fun g => (hh g).kernel.checkSameChildren).outside hdone

/-! ## Main results -/

/-- As long as no function but an operator is interrupted, every jump goes to the operator that is
running, the check of the children is on between any two calls, and no jump leaves the program. -/
theorem exits_scoped {n : ℕ} {p : α → ℕ} {x : Code P α}
    (h : Disciplined D isPrime R true n p x) (g : Globals P)
    (hcheck : g.kernel.checkSameChildren = true)
    (honly : Prog.Throughout (OnlyOperators D) (x.run g.start).machine.history) :
    Prog.Throughout (ExitScoped D) (x.run g.start).machine.history ∧
      ∀ m, x.run g.start ≠ .jump m := by
  have hstart : Outside g.start := ⟨hcheck, rfl⟩
  obtain ⟨hscoped, hres⟩ := Prog.wp_run (h.outside hstart) honly (Prog.throughout_nil (ExitScoped D))
  refine ⟨hscoped, fun m hjump => ?_⟩
  rw [hjump] at hres
  exact hres

/-! ### A session with a full table -/

/-- `mtbdd_operation` needs a node for the level above its operand. -/
def interruptedOperation : Code UInt32 ℕ := do
  let _ ← fullSession
  .call .mtbdd (Code.mtbddOperation intDomain trialDivision 4 0 []
    (some (0, fun _ low _ => pure low))) .ret

theorem exits_scoped_xor :
    Prog.Throughout (OnlyOperators intDomain)
        (interruptedXor.run (Globals.init (bddInit 7 3)).start).machine.history ∧
      Prog.Throughout (ExitScoped intDomain)
        (interruptedXor.run (Globals.init (bddInit 7 3)).start).machine.history := by
  have honly : Prog.Throughout (OnlyOperators intDomain)
      (interruptedXor.run (Globals.init (bddInit 7 3)).start).machine.history := by
    decide +kernel
  exact ⟨honly, (exits_scoped interruptedXor_disciplined _ rfl honly).1⟩

/-- The jump goes to the conjunction, which has returned long ago, and the check stays off. -/
theorem interruptedOperation_notScoped :
    Disciplined intDomain trialDivision sameOrder true 0 (fun _ => 0) interruptedOperation ∧
      (¬ Prog.Throughout (ExitScoped intDomain)
        (interruptedOperation.run (Globals.init (bddInit 7 3)).start).machine.history) ∧
      (interruptedOperation.run
        (Globals.init (bddInit 7 3)).start).machine.globals.kernel.checkSameChildren = false := by
  refine ⟨.bind fullSession_disciplined fun _ => .mtbdd ?_, by decide +kernel, by decide +kernel⟩
  apply mtbddOperation_disciplined
  intro f hf
  obtain rfl := Option.some.inj hf
  exact fun n c l r => .pure l

end MoToBuddy.Bdd
