import MoToBuddy.Bdd.Exits

/-!
# Nested calls and the reference stack

Two disciplines share one stack. The MTBDD functions push and pop above what they find, so that they
can be called from each other's callbacks. The plain operators and `bdd_setvarnum` empty the stack
first, and the functions for satisfying assignments leave their nodes on it: these can only be called
while nothing is on the stack, or must leave before they touch it.
-/

namespace MoToBuddy.Bdd

open Jumping Code

variable {P : Type}

/-- The entries of the reference stack are still there, and so are their nodes. -/
structure Protected (found now : BddState P) : Prop where
  stack : found.bddrefstack <:+ now.bddrefstack
  live : ∀ i ∈ found.bddrefstack, i < found.bddnodesize → found.live i = true → now.live i = true

/-- The entries of the callers stay below those of the call that is running, no collection frees
their nodes, and a call returns with the stack that it found. -/
def StackKept (D : MtbddDomain P) : Happening P → List (Happening P) → Prop
  | .stepped c running _ g, _ => (∀ f ∈ running, Protected f.found.kernel g.kernel) ∧
    match c with
    | .kernel => True
    | .gbc | .makenode _ _ _ => ∀ f ∈ running, ∀ i ∈ f.found.kernel.bddrefstack,
      g.kernel.live i = true → (bddGbc D g.kernel).key i = g.kernel.key i
    | .reorder => ∀ f ∈ running, f.found.kernel.bddrefstack = []
  | .returned f left, _ =>
    left.kernel.bddrefstack = f.found.kernel.bddrefstack ∧ Protected f.found.kernel left.kernel
  | .entered _, _ => True

/-- `bdd_setvarnum` returns before it empties the stack. -/
def Globals.LeavesSetvarnum (g : Globals P) (num : ℤ) (memory : Allocation) : Prop :=
  g.bddrunning = false ∨ num < 1 ∨ num ≥ maxvar ∨ num ≤ g.kernel.env.bddvarnum ∨
    memory.arrays = false

/-- The function finds nothing on the stack, or does not touch it. -/
def Entry.Nests : Entry P → Globals P → Prop
  | .operator leaves, g => leaves g = true ∨ g.kernel.bddrefstack = []
  | .setvarnum num memory, g => g.LeavesSetvarnum num memory ∨ g.kernel.bddrefstack = []
  | .reorder, g => g.kernel.bddrefstack = []
  | .satone r, g => g.check r ≠ none ∨ r < 2
  | .satoneset r _ pol, g => g.check r ≠ none ∨ r = 0 ∨ 2 ≤ pol
  | .fullsatone r, g => g.check r ≠ none ∨ r = 0
  | _, _ => True

/-- The calls nest, and a node for a skipped level is a new node. -/
def NestsWell (D : MtbddDomain P) (isPrime : ℕ → Bool) :
    Happening P → List (Happening P) → Prop
  | .entered f, _ => f.label.Nests f.found
  | .stepped (.makenode level low high) _ _ g, _ =>
    g.kernel.checkSameChildren = false → low = high →
      (bddMakenode D isPrime g.kernel level low high).1 ≠ low
  | _, _ => True

instance (found now : BddState P) : Decidable (Protected found now) :=
  decidable_of_iff (found.bddrefstack <:+ now.bddrefstack ∧ ∀ i ∈ found.bddrefstack,
      i < found.bddnodesize → found.live i = true → now.live i = true)
    ⟨fun h => ⟨h.1, h.2⟩, fun h => ⟨h.stack, h.live⟩⟩

instance (D : MtbddDomain P) (e : Happening P) (older : List (Happening P)) :
    Decidable (StackKept D e older) :=
  match e with
  | .stepped .kernel _ _ _ | .stepped .gbc _ _ _ | .stepped .reorder _ _ _
    | .stepped (.makenode _ _ _) _ _ _ | .returned _ _ => inferInstanceAs (Decidable (_ ∧ _))
  | .entered _ => inferInstanceAs (Decidable True)

instance (g : Globals P) (num : ℤ) (memory : Allocation) :
    Decidable (g.LeavesSetvarnum num memory) := inferInstanceAs (Decidable (_ ∨ _))

instance (e : Entry P) (g : Globals P) : Decidable (e.Nests g) :=
  match e with
  | .operator _ | .setvarnum _ _ | .satone _ | .satoneset _ _ _ | .fullsatone _ =>
    inferInstanceAs (Decidable (_ ∨ _))
  | .reorder => inferInstanceAs (Decidable (_ = _))
  | .disableReorder | .enableReorder | .extvarnum _ | .support _ _ | .mtbdd | .kernel =>
    inferInstanceAs (Decidable True)

instance (D : MtbddDomain P) (isPrime : ℕ → Bool) (e : Happening P) (older : List (Happening P)) :
    Decidable (NestsWell D isPrime e older) :=
  match e with
  | .entered f => inferInstanceAs (Decidable (f.label.Nests f.found))
  | .stepped (.makenode _ _ _) _ _ _ => inferInstanceAs (Decidable (_ → _))
  | .stepped .kernel _ _ _ | .stepped .gbc _ _ _ | .stepped .reorder _ _ _ | .returned _ _ =>
    inferInstanceAs (Decidable True)

variable {D : MtbddDomain P} {isPrime : ℕ → Bool} {R : Reordering P isPrime} {α β : Type}
  {m : Process P} {act : List (Frame (Globals P) (Entry P))} {b : List ℕ} {n : ℕ}

/-! ## Where a call stands -/

/-- The calls that run are `act`, and the call on top has `n` entries above the stack `b` that it
found. -/
structure Standing (isPrime : ℕ → Bool) (act : List (Frame (Globals P) (Entry P))) (b : List ℕ)
    (n : ℕ) (m : Process P) : Prop where
  active : m.active = act
  stack : ∃ own, own.length = n ∧ m.globals.kernel.bddrefstack = own ++ b
  below : ∀ f ∈ act, f.found.kernel.bddrefstack <:+ b
  live : ∀ f ∈ act, ∀ i ∈ f.found.kernel.bddrefstack, i < f.found.kernel.bddnodesize →
    f.found.kernel.live i = true →
      i < m.globals.kernel.bddnodesize ∧ m.globals.kernel.live i = true
  size : PrimeSize isPrime m.globals.kernel.bddnodesize

namespace Standing

theorem isProtected (h : Standing isPrime act b n m) :
    ∀ f ∈ act, Protected f.found.kernel m.globals.kernel := by
  intro f hf
  obtain ⟨own, -, hown⟩ := h.stack
  refine ⟨?_, fun i hi hlt hl => (h.live f hf i hi hlt hl).2⟩
  rw [hown]
  exact (h.below f hf).trans (List.suffix_append own b)

theorem mem_stack (h : Standing isPrime act b n m) {f : Frame (Globals P) (Entry P)} (hf : f ∈ act)
    {i : ℕ} (hi : i ∈ f.found.kernel.bddrefstack) : i ∈ m.globals.kernel.bddrefstack :=
  (h.isProtected f hf).stack.subset hi

/-- A step that is no reordering is fine. -/
theorem fine (h : Standing isPrime act b n m) {c : Command} (hc : c ≠ .reorder) :
    StackKept D (m.now c) m.history := by
  unfold Machine.now StackKept
  rw [h.active]
  refine ⟨h.isProtected, ?_⟩
  cases c with
  | kernel => trivial
  | gbc | makenode => exact fun f hf i hi hl => bddGbc_key m.globals.kernel (h.mem_stack hf hi) hl
  | reorder => exact absurd rfl hc

/-- The state may change without touching the stack and its nodes. -/
theorem change (h : Standing isPrime act b n m) {m' : Process P} (hactive : m'.active = m.active)
    (hk : Untouched isPrime m.globals.kernel m'.globals.kernel) :
    Standing isPrime act b n m' := by
  obtain ⟨hle, hsize⟩ := hk.nodesize h.size
  refine ⟨hactive.trans h.active, ?_, h.below, fun f hf i hi hlt hl => ?_, hsize⟩
  · rw [hk.refstack]
    exact h.stack
  · obtain ⟨hlt', hl'⟩ := h.live f hf i hi hlt hl
    exact ⟨by omega, hk.live h.size i (h.mem_stack hf hi) hlt' hl'⟩

/-- Entries above those of the callers come and go. -/
theorem restack (h : Standing isPrime act b n m) {m' : Process P} (hactive : m'.active = m.active)
    {l own : List ℕ} (hl : l = own ++ b)
    (hk : m'.globals.kernel = { m.globals.kernel with bddrefstack := l }) :
    Standing isPrime act b own.length m' := by
  refine ⟨hactive.trans h.active, ⟨own, rfl, ?_⟩, h.below, fun f hf i hi hlt hlive => ?_, ?_⟩
  · rw [hk]
    exact hl
  · rw [hk]
    exact h.live f hf i hi hlt hlive
  · rw [hk]
    exact h.size

end Standing

/-! ## Recursions -/

/-- The switch and the saved environment are those of the call, too. -/
structure Working (isPrime : ℕ → Bool) (act : List (Frame (Globals P) (Entry P))) (b : List ℕ)
    (t : ℕ) (d : Bool) (n : ℕ) (m : Process P) : Prop extends Standing isPrime act b n m where
  target : m.target = t
  reorderdisabled : m.globals.reorderdisabled = d

section Recursions

variable {t : ℕ} {d : Bool}

/-- What is shown of a recursion with `n` entries, which leaves `p a` with the result `a`. It jumps
only if reordering is enabled. -/
abbrev Works (D : MtbddDomain P) (isPrime : ℕ → Bool) (act : List (Frame (Globals P) (Entry P)))
    (b : List ℕ) (t : ℕ) (d : Bool) (p : α → ℕ) (x : Code P α) (m : Process P) : Prop :=
  x.wp (NestsWell D isPrime) (StackKept D) (fun a m' => Working isPrime act b t d (p a) m')
    (fun m' => d = false ∧ ∃ k, Working isPrime act b t d k m') m

theorem update_works {h : BddState P → BddState P} (hm : Working isPrime act b t d n m)
    (hh : Untouched isPrime m.globals.kernel (h m.globals.kernel)) :
    Works D isPrime act b t d (fun _ => n) (update h) m :=
  fun _ => ⟨hm.fine nofun, hm.change rfl hh, hm.target, hm.reorderdisabled⟩

theorem pushref_works (x : ℕ) (hm : Working isPrime act b t d n m) :
    Works D isPrime act b t d (fun _ => n + 1) (Code.pushref x) m := by
  obtain ⟨own, hlen, hown⟩ := hm.stack
  refine fun _ => ⟨hm.fine nofun, ?_, hm.target, hm.reorderdisabled⟩
  have hpush : (x :: m.globals.kernel.bddrefstack) = (x :: own) ++ b := by rw [hown, List.cons_append]
  rw [← hlen]
  apply hm.restack _ hpush
  · rfl
  · rfl

theorem popref_works {k : ℕ} (hk : k ≤ n) (hm : Working isPrime act b t d n m) :
    Works D isPrime act b t d (fun _ => n - k) (Code.popref k) m := by
  obtain ⟨own, hlen, hown⟩ := hm.stack
  refine fun _ => ⟨hm.fine nofun, ?_, hm.target, hm.reorderdisabled⟩
  have hpop : m.globals.kernel.bddrefstack.drop k = own.drop k ++ b := by
    rw [hown, List.drop_append_of_le_length (by omega)]
  have hn : n - k = (own.drop k).length := by rw [List.length_drop, hlen]
  rw [hn]
  apply hm.restack _ hpop
  · rfl
  · rfl

theorem makenode_works (level low high : ℕ) (hm : Working isPrime act b t d n m) :
    Works D isPrime act b t d (fun _ => n) (Code.makenode D isPrime level low high) m := by
  refine fun _ => ⟨hm.fine nofun, ?_⟩
  unfold makenodeStep
  by_cases hint : m.globals.interrupts D level low high = true
  · rw [if_pos hint]
    have hon := Globals.enabled_of_ready (Globals.ready_of_interrupts hint)
    rw [hm.reorderdisabled] at hon
    refine ⟨hon, n, ?_, hm.target, hm.reorderdisabled⟩
    exact hm.change rfl (bddGbc_untouched D m.globals.kernel)
  · rw [if_neg hint]
    refine ⟨?_, hm.target, hm.reorderdisabled⟩
    exact hm.change rfl (bddMakenode_untouched D m.globals.kernel level low high)

theorem Disciplined.works {p : α → ℕ} {x : Code P α} (h : Disciplined D isPrime R false n p x)
    (hm : Working isPrime act b t d n m) : Works D isPrime act b t d p x m := by
  generalize hc : false = c at h
  induction h generalizing m with
  | ret a hp =>
    show Working isPrime act b t d _ m
    rw [hp]
    exact hm
  | stuck => trivial
  | bind hx hf ihx ihf =>
    apply Prog.wp_bind
    exact Prog.wp_mono (fun a m' hm' => ihf a hm' hc) (fun _ h => h) (ihx hm hc)
  | look h =>
    exact fun _ => ⟨hm.fine nofun, hm.change rfl (.refl _), hm.target, hm.reorderdisabled⟩
  | update hh => exact update_works hm (hh _)
  | makenode level low high => exact makenode_works level low high hm
  | pushref x => exact pushref_works x hm
  | popref k hk => exact popref_works hk hm
  | virtualNode | virtualTarget | mtbdd | operator | reorder | disableReorder | enableReorder |
      setvarnum | extvarnum | support | satone | satoneset | fullsatone | gbc | kernel =>
    exact nomatch hc

end Recursions

/-! ## Calls -/

/-- What is shown of the other programs: `p a` entries are left with the result `a`. -/
abbrev Stands (D : MtbddDomain P) (isPrime : ℕ → Bool) (act : List (Frame (Globals P) (Entry P)))
    (b : List ℕ) (p : α → ℕ) (x : Code P α) (m : Process P) : Prop :=
  x.wp (NestsWell D isPrime) (StackKept D) (fun a m' => Standing isPrime act b (p a) m')
    (fun _ => True) m

theorem Works.stands {t : ℕ} {d : Bool} {p : α → ℕ} {x : Code P α}
    (h : Works D isPrime act b t d p x m) : Stands D isPrime act b p x m :=
  Prog.wp_mono (fun _ _ hm' => hm'.toStanding) (fun _ _ => trivial) h

/-- Without a word about the switch and the environment. -/
theorem Standing.working (hm : Standing isPrime act b n m) :
    Working isPrime act b m.target m.globals.reorderdisabled n m :=
  { hm with
    target := rfl
    reorderdisabled := rfl }

theorem Disciplined.stands {p : α → ℕ} {x : Code P α} (h : Disciplined D isPrime R false n p x)
    (hm : Standing isPrime act b n m) : Stands D isPrime act b p x m :=
  (h.works hm.working).stands

/-- The call that is entered has no entries yet. -/
theorem Standing.enter (hm : Standing isPrime act b n m) (l : Entry P) :
    Standing isPrime (m.frame l :: act) m.globals.kernel.bddrefstack 0 (m.enter l) := by
  refine ⟨by rw [← hm.active]; rfl, ⟨[], rfl, rfl⟩, fun f hf => ?_, fun f hf i hi hlt hl => ?_,
    hm.size⟩
  · rcases List.mem_cons.mp hf with rfl | hf
    · exact List.suffix_rfl
    · exact (hm.isProtected f hf).stack
  · rcases List.mem_cons.mp hf with rfl | hf
    · exact ⟨hlt, hl⟩
    · exact hm.live f hf i hi hlt hl

/-- A call that has no entries left can return. -/
theorem Standing.leave {l : Entry P} {m' : Process P} (hm : Standing isPrime act b n m)
    (hm' : Standing isPrime (m.frame l :: act) m.globals.kernel.bddrefstack 0 m') :
    StackKept D (.returned (m.frame l) m'.globals) m'.history ∧
      Standing isPrime act b n (m.leave l m') := by
  have hstack : m'.globals.kernel.bddrefstack = m.globals.kernel.bddrefstack := by
    obtain ⟨own, hlen, hown⟩ := hm'.stack
    rw [hown, List.length_eq_zero_iff.mp hlen, List.nil_append]
  refine ⟨⟨hstack, hm'.isProtected (m.frame l) List.mem_cons_self⟩, hm.active, ?_, hm.below, ?_,
    hm'.size⟩
  · obtain ⟨own, hlen, hown⟩ := hm.stack
    exact ⟨own, hlen, hstack.trans hown⟩
  · exact fun f hf => hm'.live f (List.mem_cons_of_mem _ hf)

theorem call_stack {l : Entry P} {body : Code P α} {k : α → Code P β} {Q : β → Process P → Prop}
    {J : Process P → Prop} (hm : Standing isPrime act b n m)
    (hbody : l.Nests m.globals →
      Standing isPrime (m.frame l :: act) m.globals.kernel.bddrefstack 0 (m.enter l) →
      body.wp (NestsWell D isPrime) (StackKept D) (fun _ m' =>
        Standing isPrime (m.frame l :: act) m.globals.kernel.bddrefstack 0 m') J (m.enter l))
    (hk : ∀ a m', Standing isPrime act b n m' →
      (k a).wp (NestsWell D isPrime) (StackKept D) Q J m') :
    (Prog.call l body k).wp (NestsWell D isPrime) (StackKept D) Q J m := by
  apply Prog.wp_call
  intro hnests
  refine ⟨trivial, ?_⟩
  apply Prog.wp_mono _ (fun _ h => h) (hbody hnests (hm.enter l))
  intro a m' hm' _
  obtain ⟨hreturned, hleave⟩ := hm.leave hm'
  exact ⟨hreturned, hk a _ hleave⟩

/-- What is shown of the body of a call: no entry is left above the stack that it found. -/
abbrev GivesBack (D : MtbddDomain P) (isPrime : ℕ → Bool) (act : List (Frame (Globals P) (Entry P)))
    (b : List ℕ) (x : Code P α) (m : Process P) : Prop := Stands D isPrime act b (fun _ => 0) x m

theorem call_stands {l : Entry P} {body : Code P α} (hm : Standing isPrime act b n m)
    (hbody : l.Nests m.globals →
      Standing isPrime (m.frame l :: act) m.globals.kernel.bddrefstack 0 (m.enter l) →
      GivesBack D isPrime (m.frame l :: act) m.globals.kernel.bddrefstack body (m.enter l)) :
    Stands D isPrime act b (fun _ => n) (.call l body .ret) m :=
  call_stack hm hbody fun _ _ h => h

theorem setGlobals_stands {h : Globals P → Globals P} (hm : Standing isPrime act b n m)
    (hh : Untouched isPrime m.globals.kernel (h m.globals).kernel) :
    Stands D isPrime act b (fun _ => n) (setGlobals h) m :=
  fun _ => ⟨hm.fine nofun, hm.change rfl hh⟩

section Rules

variable {Q : α → Process P → Prop} {J : Process P → Prop}

theorem wp_look_stack {γ : Type} {h : Globals P → γ} {f : γ → Code P α}
    (hm : Standing isPrime act b n m)
    (hf : ∀ m', m'.globals = m.globals → m'.target = m.target → Standing isPrime act b n m' →
      (f (h m.globals)).wp (NestsWell D isPrime) (StackKept D) Q J m') :
    (look h >>= f).wp (NestsWell D isPrime) (StackKept D) Q J m :=
  fun _ => ⟨hm.fine nofun, hf _ rfl rfl (hm.change rfl (.refl _))⟩

theorem wp_setGlobals_stack {h : Globals P → Globals P} {f : Unit → Code P α}
    (hm : Standing isPrime act b n m)
    (hh : Untouched isPrime m.globals.kernel (h m.globals).kernel)
    (hf : ∀ m', m'.globals = h m.globals → m'.target = m.target → Standing isPrime act b n m' →
      (f ()).wp (NestsWell D isPrime) (StackKept D) Q J m') :
    (setGlobals h >>= f).wp (NestsWell D isPrime) (StackKept D) Q J m :=
  fun _ => ⟨hm.fine nofun, hf _ rfl rfl (hm.change rfl hh)⟩

/-- `INITREF` where nothing is on the stack. -/
theorem wp_initref_stack {f : Unit → Code P α} (hm : Standing isPrime act [] n m)
    (hf : ∀ m', m'.globals = { m.globals with kernel := m.globals.kernel.initref } →
      m'.target = m.target → Standing isPrime act [] 0 m' →
      (f ()).wp (NestsWell D isPrime) (StackKept D) Q J m') :
    (initref >>= f).wp (NestsWell D isPrime) (StackKept D) Q J m := by
  refine fun _ => ⟨hm.fine nofun, hf _ rfl rfl ?_⟩
  have hnil : ([] : List ℕ) = [] ++ [] := rfl
  apply hm.restack _ hnil
  · rfl
  · rfl

/-- Reordering where nothing is on the stack of any caller. -/
theorem wp_reorder_stack {h : Globals P → Globals P} {f : Unit → Code P α}
    (hm : Standing isPrime act [] n m)
    (hstack : (h m.globals).kernel.bddrefstack = m.globals.kernel.bddrefstack)
    (hsize : PrimeSize isPrime (h m.globals).kernel.bddnodesize)
    (hf : ∀ m', m'.globals = h m.globals → Standing isPrime act [] n m' →
      (f ()).wp (NestsWell D isPrime) (StackKept D) Q J m') :
    (Prog.step .reorder (fun g => .done () (h g)) .ret >>= f).wp (NestsWell D isPrime)
      (StackKept D) Q J m := by
  have hnil : ∀ f ∈ act, f.found.kernel.bddrefstack = [] := fun f hf =>
    List.suffix_nil.mp (hm.below f hf)
  refine fun _ => ⟨?_, hf _ rfl ⟨hm.active, ?_, hm.below, fun f hf i hi => ?_, hsize⟩⟩
  · unfold Machine.now StackKept
    rw [hm.active]
    exact ⟨hm.isProtected, hnil⟩
  · show ∃ own, own.length = n ∧ (h m.globals).kernel.bddrefstack = own ++ []
    rw [hstack]
    exact hm.stack
  · rw [hnil f hf] at hi
    exact absurd hi List.not_mem_nil

end Rules

theorem bddCheckreorder_kernel (g : Globals P) : (g.bddCheckreorder R).kernel = g.kernel ∨
    (g.bddCheckreorder R).kernel = R.run g.bddreordermethod g.kernel := by
  have hauto : (g.bddCheckreorder R).kernel = (g.bddReorderAuto R).kernel := rfl
  rw [hauto]
  unfold Globals.bddReorderAuto
  split_ifs
  · exact Or.inr rfl
  · exact Or.inl rfl

theorem wp_checkreorder_stack {f : Unit → Code P α} {Q : α → Process P → Prop}
    {J : Process P → Prop} (hm : Standing isPrime act [] n m)
    (hf : ∀ m', Standing isPrime act [] n m' →
      (f ()).wp (NestsWell D isPrime) (StackKept D) Q J m') :
    (checkreorder R >>= f).wp (NestsWell D isPrime) (StackKept D) Q J m := by
  apply wp_reorder_stack hm _ _ fun m' _ hm' => hf m' hm'
  · rcases bddCheckreorder_kernel (R := R) m.globals with h | h
    · rw [h]
    · rw [h, R.refstack]
  · rcases bddCheckreorder_kernel (R := R) m.globals with h | h
    · rw [h]
      exact hm.size
    · rw [h]
      exact R.nodesize _ _ hm.size

/-! ## Operators -/

/-- An operator may start where nothing is on the stack of any caller. -/
theorem restart_stack {rec : Code P ℕ} (hrec : Disciplined D isPrime R false 0 (fun _ => 0) rec)
    (hm : Standing isPrime act [] n m) :
    Stands D isPrime act [] (fun _ => 0) (restart isPrime R rec) m := by
  have hdone : ∀ (res : ℕ) (m' : Process P), Standing isPrime act [] 0 m' →
      Stands D isPrime act [] (fun _ => 0) (do
        update (checkresize isPrime)
        pure res) m' := fun res m' hm' =>
    wp_setGlobals_stack hm' (checkresize_untouched _) fun _ _ _ hm'' => hm''
  apply Prog.wp_save
  have hm0 : Standing isPrime act [] n { m with target := m.self } := hm.change rfl (.refl _)
  apply wp_initref_stack hm0
  intro m1 _ _ hm1
  apply Prog.wp_mono _ _ (hrec.works hm1.working)
  · exact fun res m2 hm2 => hdone res m2 hm2.toStanding
  · rintro m2 ⟨-, k, hm2⟩
    refine ⟨fun _ => ?_, fun _ => trivial⟩
    have hm2' : Standing isPrime act [] k { m2 with active := m.active } :=
      hm2.change (hm.active.trans hm2.active.symm) (.refl _)
    apply wp_checkreorder_stack hm2'
    intro m3 hm3
    apply Prog.wp_save
    have hm3' : Standing isPrime act [] k { m3 with target := m3.self } := hm3.change rfl (.refl _)
    apply wp_initref_stack hm3'
    intro m4 _ _ hm4
    apply wp_setGlobals_stack hm4 (.refl _)
    intro m5 hg5 _ hm5
    have hoff : m5.globals.reorderdisabled = true := by rw [hg5]
    apply Prog.wp_bind
    apply Prog.wp_mono _ _ (hrec.works hm5.working)
    · intro res m6 hm6
      apply wp_setGlobals_stack hm6.toStanding (.refl _)
      exact fun m7 _ _ hm7 => hdone res m7 hm7
    · -- with reordering disabled the second try is not interrupted
      rintro m6 ⟨hon, -⟩
      rw [hoff] at hon
      exact nomatch hon

theorem operator_stack {op : Operator P}
    (hearly : ∀ g res s, op.early g = some (res, s) → Untouched isPrime g.kernel s)
    (hprepare : ∀ s, Untouched isPrime s (op.prepare s))
    (hrec : ∀ s, Disciplined D isPrime R false 0 (fun _ => 0) (op.recursion s))
    (hm : Standing isPrime act b n m) :
    Stands D isPrime act b (fun _ => n) (.call (.operator op.leaves) (op.body isPrime R) .ret) m := by
  apply call_stands hm
  intro hnests henter
  unfold Operator.body
  apply wp_look_stack henter
  intro m1 hg1 _ hm1
  cases hop : op.early m.globals with
  | some r =>
    rw [show op.early (m.enter (.operator op.leaves)).globals = _ from hop]
    apply wp_setGlobals_stack hm1
    · rw [hg1]
      exact hearly _ r.1 r.2 hop
    · exact fun m2 _ _ hm2 => hm2
  | none =>
    rw [show op.early (m.enter (.operator op.leaves)).globals = _ from hop]
    have hnil : m.globals.kernel.bddrefstack = [] := by
      rcases hnests with hleaves | hnil
      · rw [Operator.leaves, hop] at hleaves
        exact nomatch hleaves
      · exact hnil
    rw [hnil] at hm1 ⊢
    apply wp_look_stack hm1
    intro m2 _ _ hm2
    apply wp_setGlobals_stack hm2 (hprepare _)
    intro m3 _ _ hm3
    exact restart_stack (hrec _) hm3

/-! ## Functions that disable reordering -/

theorem addVar_untouched (s : BddState P) (pos neg : ℕ) :
    Untouched isPrime s (s.addVar pos neg) := by
  have hpos : Untouched isPrime s (s.saturate pos) := .setNode (.inr rfl)
  have hneg : Untouched isPrime (s.saturate pos) ((s.saturate pos).saturate neg) :=
    .setNode (.inr rfl)
  exact (hpos.trans hneg).trans (.of_nodes rfl rfl rfl rfl)

theorem finishVars_untouched (s : BddState P) (num : ℕ) : Untouched isPrime s (s.finishVars num) := by
  have h0 : Untouched isPrime s (s.setNode 0 { s.bddnodes 0 with level := num }) :=
    .setNode (.inr rfl)
  generalize ht : s.setNode 0 { s.bddnodes 0 with level := num } = t at h0
  have h1 : Untouched isPrime t (t.setNode 1 { t.bddnodes 1 with level := num }) :=
    .setNode (.inr rfl)
  unfold BddState.finishVars
  dsimp only
  rw [ht]
  exact (h0.trans h1).trans (.of_nodes rfl rfl rfl rfl)

theorem addVars_disciplined (bdv k n : ℕ) :
    Disciplined D isPrime R false n (fun _ => n) (Code.addVars D isPrime bdv k) := by
  induction k with
  | zero => exact .pure true
  | succ k ih =>
    unfold Code.addVars
    refine .bind (.look _) fun v => .bind (.makenode v 0 1) fun pos => ?_
    refine .bind (.pushref pos) fun _ => .bind (.makenode v 1 0) fun neg => ?_
    refine .bind (.popref 1 (by omega)) fun _ => .bind (.look _) fun failed => ?_
    split_ifs
    · exact .bind (.update fun _ => .of_nodes rfl rfl rfl rfl) fun _ => .pure false
    · exact .bind (.update fun s => addVar_untouched s pos neg) fun _ => ih

theorem supportRec_untouched (fuel r : ℕ) (acc : BddState P × (ℕ → Bool) × ℕ) :
    Untouched isPrime acc.1 (supportRec fuel r acc).1 := by
  induction fuel generalizing r acc with
  | zero => exact .refl _
  | succ fuel ih =>
    unfold supportRec
    dsimp only
    split_ifs
    · exact .refl _
    · exact .refl _
    · have hmark : Untouched isPrime acc.1 (acc.1.setNode r { acc.1.bddnodes r with mark := true }) :=
        .setNode (.inr rfl)
      exact hmark.trans ((ih _ (_, _, _)).trans (ih _ _))

theorem bddUnmark_untouched (fuel i : ℕ) (s : BddState P) :
    Untouched isPrime s (bddUnmark fuel i s) := by
  induction fuel generalizing i s with
  | zero => exact .refl s
  | succ fuel ih =>
    unfold bddUnmark
    dsimp only
    split_ifs
    · exact .refl s
    · exact .refl s
    · have hmark : Untouched isPrime s (s.setNode i { s.bddnodes i with mark := false }) :=
        .setNode (.inr rfl)
      exact hmark.trans ((ih _ _).trans (ih _ _))

theorem supportNodes_disciplined (support : ℕ → Bool) (supportMin k res n : ℕ) :
    Disciplined D isPrime R false n (fun _ => n)
      (Code.supportNodes D isPrime support supportMin k res) := by
  induction k generalizing res with
  | zero => exact .pure res
  | succ k ih =>
    unfold Code.supportNodes
    split_ifs
    · refine .bind (.update fun s => bddAddref_untouched s res) fun _ => ?_
      refine .bind (.makenode _ 0 res) fun tmp => ?_
      exact .bind (.update fun s => bddDelref_untouched s res) fun _ => ih tmp
    · exact ih res

section Sections

theorem checka_stack {r : ℕ} {body : Code P ℕ} (hm : Standing isPrime act b 0 m)
    (hbody : m.globals.check r = none → ∀ m', m'.globals = m.globals →
      Standing isPrime act b 0 m' → GivesBack D isPrime act b body m') :
    GivesBack D isPrime act b (Code.checka r body) m := by
  unfold Code.checka
  apply wp_look_stack hm
  intro m1 hg1 _ hm1
  cases hc : m.globals.check r with
  | some e => exact wp_setGlobals_stack hm1 (.of_nodes rfl rfl rfl rfl) fun m2 _ _ hm2 => hm2
  | none => exact hbody hc m1 hg1 hm1

theorem bddSatone_stack {r : ℕ} (hm : Standing isPrime act b 0 m)
    (hnests : m.globals.check r ≠ none ∨ r < 2) :
    GivesBack D isPrime act b (bddSatone D isPrime r) m := by
  apply checka_stack hm
  intro hc m' _ hm'
  rw [if_pos (hnests.resolve_left (not_not_intro hc))]
  exact hm'

theorem bddSatoneset_stack {r var pol : ℕ} (hm : Standing isPrime act b 0 m)
    (hnests : m.globals.check r ≠ none ∨ r = 0 ∨ 2 ≤ pol) :
    GivesBack D isPrime act b (bddSatoneset D isPrime r var pol) m := by
  apply checka_stack hm
  intro hc _ _ hm'
  split_ifs with hr hpol
  · exact hm'
  · exact wp_setGlobals_stack hm' (.of_nodes rfl rfl rfl rfl) fun m2 _ _ hm2 => hm2
  · rcases hnests with h | h | h
    · exact absurd hc h
    · exact absurd h hr
    · exact absurd h hpol

theorem bddFullsatone_stack {r : ℕ} (hm : Standing isPrime act b 0 m)
    (hnests : m.globals.check r ≠ none ∨ r = 0) :
    GivesBack D isPrime act b (bddFullsatone D isPrime r) m := by
  apply checka_stack hm
  intro hc m' _ hm'
  rw [if_pos (hnests.resolve_left (not_not_intro hc))]
  exact hm'

theorem bddSupport_stack {r : ℕ} {memory : Bool} (hm : Standing isPrime act b 0 m) :
    GivesBack D isPrime act b (bddSupport D isPrime r memory) m := by
  have hrest : ∀ m' : Process P, Standing isPrime act b 0 m' → 
      GivesBack D isPrime act b (Code.supportWalk D isPrime r) m' := by
    intro m1 hm1
    unfold Code.supportWalk
    apply wp_look_stack hm1
    intro m2 _ _ hm2
    apply wp_look_stack hm2
    intro m3 _ _ hm3
    have hmark : Untouched isPrime m3.globals.kernel
        (supportFrom r (m1.globals.kernel.level r) m3.globals.kernel).1 := by
      unfold supportFrom
      exact supportRec_untouched _ r (m3.globals.kernel, fun _ => false, m1.globals.kernel.level r)
    apply wp_setGlobals_stack hm3 hmark
    intro m4 _ _ hm4
    apply wp_setGlobals_stack hm4 (bddUnmark_untouched _ r _)
    intro m5 _ _ hm5
    apply wp_setGlobals_stack hm5 (.refl _)
    intro m6 _ _ hm6
    apply Prog.wp_bind
    apply Prog.wp_mono _ (fun _ h => h) ((supportNodes_disciplined (R := sameOrder) _ _ _ 1 0).stands hm6)
    exact fun res m7 hm7 => wp_setGlobals_stack hm7 (.refl _) fun m8 _ _ hm8 => hm8
  apply checka_stack hm
  intro _ m' _ hm'
  split
  · exact hm'
  · apply wp_look_stack hm'
    intro m1 _ _ hm1
    split_ifs
    · exact wp_setGlobals_stack hm1 (.of_nodes rfl rfl rfl rfl) fun m2 _ _ hm2 => hm2
    · exact wp_setGlobals_stack hm1 (.refl _) fun m2 _ _ hm2 => hrest m2 hm2
    · exact hrest m1 hm1

theorem bddError_stack {e : BddError} (hm : Standing isPrime act b 0 m) :
    GivesBack D isPrime act b (bddError e : Code P ℤ) m :=
  wp_setGlobals_stack hm (.of_nodes rfl rfl rfl rfl) fun _ _ _ hm' => hm'

theorem bddSetvarnum_stack {num : ℤ} {memory : Allocation} (hm : Standing isPrime act b 0 m)
    (hnests : m.globals.LeavesSetvarnum num memory ∨ b = []) :
    GivesBack D isPrime act b (Code.bddSetvarnum D isPrime num memory) m := by
  unfold Code.bddSetvarnum
  apply wp_look_stack hm
  intro m1 hg1 _ hm1
  split
  · exact bddError_stack hm1
  rename_i hrunning
  apply wp_setGlobals_stack hm1 (.refl _)
  intro m2 hg2 _ hm2
  have hkernel : m2.globals.kernel = m.globals.kernel := by rw [hg2, hg1]
  apply wp_look_stack hm2
  intro m3 _ _ hm3
  rw [hkernel]
  split_ifs with hrange hless hsame harrays hstack
  · exact wp_setGlobals_stack hm3 (.of_nodes rfl rfl rfl rfl) fun m4 _ _ hm4 => hm4
  · exact bddError_stack hm3
  · exact hm3
  · exact bddError_stack hm3
  all_goals
    have hnil : b = [] := by
      rcases hnests with h | h
      · have harrays : memory.arrays = true := by simpa using harrays
        have hrunning : m.globals.bddrunning = true := by simpa using hrunning
        rcases h with h | h | h | h | h
        · exact absurd h (by simp [hrunning])
        · omega
        · omega
        · omega
        · exact absurd h (by simp [harrays])
      · exact h
    subst hnil
    apply wp_initref_stack hm3
    intro m4 _ _ hm4
  · exact bddError_stack hm4
  · apply Prog.wp_bind
    apply Prog.wp_mono _ (fun _ h => h) ((addVars_disciplined (R := sameOrder) _ _ 0).stands hm4)
    intro ok m5 hm5
    cases ok with
    | true =>
      apply wp_setGlobals_stack hm5 (finishVars_untouched _ _)
      exact fun m6 _ _ hm6 => wp_setGlobals_stack hm6 (.refl _) fun m7 _ _ hm7 => hm7
    | false => exact hm5

theorem bddExtvarnum_stack {num : ℤ} {memory : Allocation} (hm : Standing isPrime act b 0 m) :
    GivesBack D isPrime act b (Code.bddExtvarnum D isPrime num memory) m := by
  unfold Code.bddExtvarnum
  apply wp_look_stack hm
  intro m1 _ _ hm1
  split_ifs
  · exact bddError_stack hm1
  · apply call_stack hm1
    · exact fun hnests henter => bddSetvarnum_stack henter hnests
    · exact fun _ _ h => h

/-! ## Nodes for skipped levels -/

/-- The check of the children is nothing that a call stands on. -/
theorem wp_check_stack {check : Bool} {f : Unit → Code P α} {Q : α → Process P → Prop}
    {J : Process P → Prop} (hm : Standing isPrime act b n m)
    (hf : ∀ m', m'.globals = { m.globals with kernel :=
        { m.globals.kernel with checkSameChildren := check } } → Standing isPrime act b n m' →
      (f ()).wp (NestsWell D isPrime) (StackKept D) Q J m') :
    (update (fun s => { s with checkSameChildren := check }) >>= f).wp (NestsWell D isPrime)
      (StackKept D) Q J m :=
  fun _ => ⟨hm.fine nofun, hf _ rfl ⟨hm.active, hm.stack, hm.below, hm.live, hm.size⟩⟩

theorem virtualNode_stack (level child : ℕ) (hm : Standing isPrime act b n m) :
    (virtualNode D isPrime level child).wp (NestsWell D isPrime) (StackKept D)
      (fun res m' => res ≠ child ∧ Standing isPrime act b n m') (fun _ => True) m := by
  unfold virtualNode
  apply wp_check_stack hm
  intro m1 hg1 hm1 hnests
  refine ⟨hm1.fine nofun, ?_⟩
  have hnew := hnests (by rw [hg1]) rfl
  unfold makenodeStep
  by_cases hint : m1.globals.interrupts D level child child = true
  · rw [if_pos hint]
    trivial
  · rw [if_neg hint]
    refine wp_check_stack (hm1.change rfl ?_) fun m2 _ hm2 => ⟨hnew, hm2⟩
    exact bddMakenode_untouched D m1.globals.kernel level child child

theorem virtualTarget_stack (control operand : ℕ) (hm : Standing isPrime act b n m) :
    Stands D isPrime act b (fun _ => n) (virtualTarget D isPrime control operand) m := by
  unfold virtualTarget
  apply wp_look_stack hm
  intro m1 _ _ hm1
  split_ifs
  · apply wp_check_stack hm1
    intro m2 _ hm2
    apply Prog.wp_bind
    apply Prog.wp_mono _ (fun _ h => h)
      (Disciplined.stands (R := sameOrder) (.pushref operand) hm2)
    intro _ m3 hm3
    apply wp_look_stack hm3
    intro m4 _ _ hm4
    apply Prog.wp_bind
    apply Prog.wp_mono _ (fun _ h => h)
      (Disciplined.stands (R := sameOrder) (.makenode control _ _) hm4)
    intro target m5 hm5
    apply wp_check_stack hm5
    intro m6 _ hm6
    have hpop : Disciplined D isPrime (sameOrder (P := P)) false (n + 1) (fun _ => n) (do
        popref 1
        Pure.pure target) := .bind (.popref 1 (by omega)) fun _ => .pure target
    exact hpop.stands hm6
  · exact hm1

end Sections

/-! ## Main results -/

theorem Disciplined.nests {c : Bool} {p : α → ℕ} {x : Code P α}
    (h : Disciplined D isPrime R c n p x) (hm : Standing isPrime act b n m) :
    Stands D isPrime act b p x m := by
  induction h generalizing m act b with
  | ret a hp =>
    show Standing isPrime act b _ m
    rw [hp]
    exact hm
  | stuck => trivial
  | bind hx hf ihx ihf =>
    apply Prog.wp_bind
    exact Prog.wp_mono (fun a m' hm' => ihf a hm') (fun _ h => h) (ihx hm)
  | look h => exact Disciplined.stands (R := R) (.look h) hm
  | update hh => exact Disciplined.stands (R := R) (.update hh) hm
  | makenode level low high => exact Disciplined.stands (R := R) (.makenode level low high) hm
  | pushref x => exact Disciplined.stands (R := R) (.pushref x) hm
  | popref k hk => exact Disciplined.stands (R := R) (.popref k hk) hm
  | virtualNode level child hf hchild ihf ihchild =>
    apply Prog.wp_bind
    apply Prog.wp_mono _ (fun _ h => h) (virtualNode_stack level child hm)
    rintro res m' ⟨hnew, hm'⟩
    exact ihf res hnew hm'
  | virtualTarget control operand => exact virtualTarget_stack control operand hm
  | mtbdd h ih => exact call_stands hm fun _ henter => ih henter
  | operator op hearly hprepare hrec ih => exact operator_stack hearly hprepare hrec hm
  | reorder method =>
    apply call_stands hm
    intro hnests henter
    have hnil : m.globals.kernel.bddrefstack = [] := hnests
    rw [hnil] at henter ⊢
    rw [← Prog.bind_ret (bddReorder R method)]
    apply wp_reorder_stack henter
    · exact R.refstack _ _
    · exact R.nodesize _ _ henter.size
    · exact fun m' _ hm' => hm'
  | disableReorder | enableReorder =>
    exact call_stands hm fun _ henter => setGlobals_stands henter (.refl _)
  | setvarnum num memory =>
    exact call_stands hm fun hnests henter => bddSetvarnum_stack henter hnests
  | extvarnum num memory => exact call_stands hm fun _ henter => bddExtvarnum_stack henter
  | support r memory => exact call_stands hm fun _ henter => bddSupport_stack henter
  | satone r => exact call_stands hm fun hnests henter => bddSatone_stack henter hnests
  | satoneset r var pol =>
    exact call_stands hm fun hnests henter => bddSatoneset_stack henter hnests
  | fullsatone r => exact call_stands hm fun hnests henter => bddFullsatone_stack henter hnests
  | gbc =>
    apply call_stands hm
    intro _ henter _
    exact ⟨henter.fine nofun, henter.change rfl (bddGbc_untouched D _)⟩
  | kernel hh => exact call_stands hm fun _ henter => setGlobals_stands henter (hh _).kernel

/-- In a session whose calls nest, every call keeps the entries of its callers with their nodes,
and returns with the reference stack that it found. -/
theorem stack_kept {p : α → ℕ} {x : Code P α} (h : Disciplined D isPrime R true 0 p x)
    (g : Globals P) (hsize : PrimeSize isPrime g.kernel.bddnodesize)
    (hnests : Prog.Throughout (NestsWell D isPrime) (x.run g.start).machine.history) :
    Prog.Throughout (StackKept D) (x.run g.start).machine.history := by
  have hstart : Standing isPrime [] g.kernel.bddrefstack 0 g.start :=
    ⟨rfl, ⟨[], rfl, rfl⟩, fun _ hf => absurd hf List.not_mem_nil,
      fun _ hf => absurd hf List.not_mem_nil, hsize⟩
  exact (Prog.wp_run (h.nests hstart) hnests (Prog.throughout_nil _)).1

/-! ### Callbacks that call the library -/

def oneVariable : Code UInt32 ℤ :=
  .call (.setvarnum 1 ⟨true, true⟩) (Code.bddSetvarnum intDomain trialDivision 1 ⟨true, true⟩)
    .ret

/-- `mtbdd_operation` on the variable, with a callback that calls `mtbdd_ite`. -/
def iteInCallback : Code UInt32 ℕ := do
  let _ ← oneVariable
  .call .mtbdd (Code.mtbddOperation intDomain trialDivision 2 0 []
    (some (0, fun _ low high => .call .mtbdd (Code.mtbddIte intDomain trialDivision 2 high low)
      .ret))) .ret

/-- The same with `bdd_not`. -/
def notInCallback : Code UInt32 ℕ := do
  let _ ← oneVariable
  .call .mtbdd (Code.mtbddOperation intDomain trialDivision 2 0 []
    (some (0, fun _ _ _ => .call (.operator (Code.bddNot intDomain trialDivision 2).leaves)
      ((Code.bddNot intDomain trialDivision 2).body trialDivision sameOrder) .ret))) .ret

theorem iteInCallback_disciplined :
    Disciplined intDomain trialDivision sameOrder true 0 (fun _ => 0) iteInCallback := by
  refine .bind (.setvarnum 1 ⟨true, true⟩) fun _ => .mtbdd ?_
  apply mtbddOperation_disciplined
  intro f hf
  obtain rfl := Option.some.inj hf
  exact fun n c l r => .mtbdd (mtbddIte_disciplined 2 r l)

theorem notInCallback_disciplined :
    Disciplined intDomain trialDivision sameOrder true 0 (fun _ => 0) notInCallback := by
  refine .bind (.setvarnum 1 ⟨true, true⟩) fun _ => .mtbdd ?_
  apply mtbddOperation_disciplined
  intro f hf
  obtain rfl := Option.some.inj hf
  exact fun n c l r => bddNot_disciplined 2

theorem stack_kept_ite :
    Prog.Throughout (NestsWell intDomain trialDivision)
        (iteInCallback.run (Globals.init (bddInit 7 3)).start).machine.history ∧
      Prog.Throughout (StackKept intDomain)
        (iteInCallback.run (Globals.init (bddInit 7 3)).start).machine.history := by
  have hnests : Prog.Throughout (NestsWell intDomain trialDivision)
      (iteInCallback.run (Globals.init (bddInit 7 3)).start).machine.history := by
    decide +kernel
  have hsize : PrimeSize trialDivision 7 := ⟨by decide, by decide, by decide⟩
  exact ⟨hnests, stack_kept iteInCallback_disciplined _ hsize hnests⟩

/-- `bdd_not` empties the stack on which `mtbdd_operation` has the children of the variable. -/
theorem notInCallback_notKept :
    Disciplined intDomain trialDivision sameOrder true 0 (fun _ => 0) notInCallback ∧
      ¬ Prog.Throughout (StackKept intDomain)
        (notInCallback.run (Globals.init (bddInit 7 3)).start).machine.history :=
  ⟨notInCallback_disciplined, by decide +kernel⟩

end MoToBuddy.Bdd
