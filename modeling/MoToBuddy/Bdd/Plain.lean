import MoToBuddy.Bdd.Session

/-!
# Sessions of the plain package

`Call` lists the calls of a session: the operations that are modelled, and the steps that any
other operation consists of (nodes, references, recursions on nodes that are held, entries in
caches under tags of its own). A call keeps the session well formed (`Call.good`), so that it is
well formed in every state that calls lead to (`Reachable.good`).

* `bddQuantifiers_canonical`: the quantifications return the only node with their function, by
  themselves and fused with an operator.
-/

namespace MoToBuddy.Bdd

open Decision BoolFun

variable {P : Type*} {D : MtbddDomain P} {isPrime : ℕ → Bool} {T : Theory P} {S : Setting P}
  {s s' : BddState P}

/-! ## Collections and references -/

theorem Good.gbc (h : Good T s) : Good T (bddGbc T.D s) := by
  obtain ⟨hc, he⟩ := bddGbc_core h.inv.toCore
  exact h.evo hc he

/-- Another count for a node whose count is not saturated. -/
theorem Good.recount (h : Good T s) {n c : ℕ} (hn : s.IsNode n)
    (hne : (s.bddnodes n).refcou ≠ maxref) :
    Good T (s.setNode n { s.bddnodes n with refcou := c }) := by
  obtain ⟨flight, hi, -⟩ := h.inv.table
  have hnode : ∀ m, (s.setNode n { s.bddnodes n with refcou := c }).bddnodes m =
      if m = n then { s.bddnodes n with refcou := c } else s.bddnodes m := fun m =>
    Function.update_apply ..
  have hkey : ∀ m, (s.setNode n { s.bddnodes n with refcou := c }).key m = s.key m := by
    intro m
    unfold BddState.key
    rw [hnode]
    split
    · rename_i hm
      rw [hm]
      rfl
    · rfl
  refine h.alike (alike_refcou hi h.inv.graph.stack hn) rfl
    (fun m _ => congrArg BddKey.level (hkey m)) h.marks ?_
  refine h.order.congr rfl rfl rfl rfl fun {m _ _ _} hp =>
    ⟨(BddState.live_congr (hkey m)).trans hp.live, (hkey m).trans hp.key, ?_⟩
  have hmn : m ≠ n := fun he => hne (he ▸ hp.refcou)
  rw [hnode, if_neg hmn]
  exact hp.refcou

theorem Good.incref (h : Good T s) {n : ℕ} (hn : s.IsNode n) : Good T (incref s n) := by
  unfold Bdd.incref
  dsimp only
  split
  · rename_i hlt
    exact h.recount hn (Nat.ne_of_lt hlt)
  · exact h

theorem Good.decref (h : Good T s) {n : ℕ} (hn : s.IsNode n) : Good T (decref s n) := by
  unfold Bdd.decref
  dsimp only
  split
  · rename_i hne
    exact h.recount hn hne.1
  · exact h

/-- Reference counts are changed for nodes only. -/
theorem Good.changeref (h : Good T s) {count : BddState P → ℕ → BddState P}
    (hcount : ∀ n, s.IsNode n → Good T (count s n)) (root : ℕ) :
    Good T (changeref count s root) := by
  unfold Bdd.changeref
  by_cases h2 : root < 2
  · rw [if_pos h2]
    exact h
  rw [if_neg h2]
  by_cases hsize : root ≥ s.bddnodesize
  · rw [if_pos hsize]
    exact h.error _
  rw [if_neg hsize]
  by_cases hfree : s.isFree root = true
  · rw [if_pos hfree]
    exact h.error _
  · rw [if_neg hfree]
    refine hcount root (Or.inr ?_)
    rw [isFree_eq (by omega)] at hfree
    simpa using hfree

theorem Good.addref (h : Good T s) (root : ℕ) : Good T (bddAddref s root) :=
  h.changeref (fun _ hn => h.incref hn) root

theorem Good.delref (h : Good T s) (root : ℕ) : Good T (bddDelref s root) := by
  refine h.changeref (fun n hn => ?_) root
  split
  · exact (h.error _).decref hn
  · exact h.decref hn

/-! ## Calls -/

/-- What the caller passes: a node that is referenced, with its function, or no node at all. -/
def BddState.Fit (D : MtbddDomain P) (s : BddState P) (n : ℕ) : Prop :=
  s.IsNode n → ∃ f, s.Usable D n f

/-- The same for sets, with the bound that keeps the tags apart. -/
def BddState.FitSet (D : MtbddDomain P) (s : BddState P) (n : ℕ) : Prop :=
  s.IsNode n → n < 2 ^ 22 ∧ ∃ V : List ℕ, s.Usable D n fun a => V.all a

/-- A node in use by an operation: it is held, and its diagram is a plain one. -/
def BddState.InUse (D : MtbddDomain P) (s : BddState P) (n : ℕ) : Prop :=
  (n < 2 ∨ s.Held n) ∧ ∃ t, s.Reads D n t ∧ IsBool t

/-- An entry that the plain operations do not look at. -/
def Foreign (k : CacheId) (e : BddCacheData) : Prop :=
  match k with
  | .apply | .ite => False
  | .quant => ∀ b var, var < 2 ^ 22 → ¬ QuantTag b var e.c
  | .appex => ∀ b var op, var < 2 ^ 22 → ¬ AppexTag b var op e.c
  | _ => True

/-- A reordering that succeeded: any well-formed table in which the referenced nodes still have
their functions, with empty caches. -/
structure Reordered (T : Theory P) (s s' : BddState P) : Prop where
  ok : s'.Ok → s.Ok
  good : Good T s'
  flushed : ∀ k i, (s'.caches k).isValid i = false
  varnum : s'.env.bddvarnum = s.env.bddvarnum
  usable : ∀ n f, s.Usable T.D n f → s'.Usable T.D n f

/-- A call of a session, or a step of one. -/
inductive Call (D : MtbddDomain P) (isPrime : ℕ → Bool) (s : BddState P) : BddState P → Prop
  | setvarnum (num : ℕ) : Call D isPrime s (bddSetvarnum D isPrime s num)
  | limits (maxnodesize maxnodeincrease minfreenodes : ℕ) :
      Call D isPrime s { s with env := { s.env with
        bddmaxnodesize := maxnodesize
        bddmaxnodeincrease := maxnodeincrease
        minfreenodes := minfreenodes } }
  | cacheratio (ratio : ℕ) : Call D isPrime s
      (operatorNoderesize isPrime { s with env := { s.env with cacheratio := ratio } })
  | addref (n : ℕ) : Call D isPrime s (bddAddref s n)
  | delref (n : ℕ) : Call D isPrime s (bddDelref s n)
  | gbc : Call D isPrime s (bddGbc D s)
  | reorder (s' : BddState P) (h : Reordered (plain D isPrime) s s') : Call D isPrime s s'
  | not (r res : ℕ) (s' : BddState P) (hr : s.Fit D r)
      (h : bddNot D isPrime r s = some (res, s')) : Call D isPrime s s'
  | apply (l r op res : ℕ) (s' : BddState P) (hl : s.Fit D l) (hr : s.Fit D r)
      (h : bddApply D isPrime l r op s = some (res, s')) : Call D isPrime s s'
  | ite (f g h res : ℕ) (s' : BddState P) (hf : s.Fit D f) (hg : s.Fit D g) (hh : s.Fit D h)
      (h : bddIte D isPrime f g h s = some (res, s')) : Call D isPrime s s'
  | quant (b : Bool) (r var res : ℕ) (s' : BddState P) (hr : s.Fit D r) (hvar : s.FitSet D var)
      (h : bddQuant D isPrime (quantifier b) r var s = some (res, s')) : Call D isPrime s s'
  | appquant (b : Bool) (l r opr var res : ℕ) (s' : BddState P) (hl : s.Fit D l)
      (hr : s.Fit D r) (hvar : s.FitSet D var)
      (h : bddAppquant D isPrime (quantifier b) l r opr var s = some (res, s')) :
      Call D isPrime s s'
  -- the steps of the operations that are not modelled
  | initref : Call D isPrime s s.initref
  | pushref (n : ℕ) (hn : s.IsNode n) : Call D isPrime s (s.pushref n)
  | popref (k : ℕ) : Call D isPrime s (s.popref k)
  | makenode (level low high : ℕ) (hlevel : level < s.env.bddvarnum)
      (hchild : ∀ m ∈ [low, high], (m < 2 ∨ s.Held m) ∧ (m < 2 ∨ level < s.level m)) :
      Call D isPrime s (bddMakenode D isPrime s level low high).2
  | notRec (r res : ℕ) (s' : BddState P) (hr : s.InUse D r)
      (h : notRec D isPrime depth r s = some (res, s')) : Call D isPrime s s'
  | applyRec (op : BddOp) (l r res : ℕ) (s' : BddState P) (hl : s.InUse D l) (hr : s.InUse D r)
      (h : applyRec D isPrime op depth l r s = some (res, s')) : Call D isPrime s s'
  | iteRec (f g h res : ℕ) (s' : BddState P) (hf : s.InUse D f) (hg : s.InUse D g)
      (hh : s.InUse D h) (h : iteRec D isPrime depth f g h s = some (res, s')) :
      Call D isPrime s s'
  | store (k : CacheId) (i : ℕ) (e : BddCacheData) (he : Foreign k e) :
      Call D isPrime s (s.store k i e)
  | checkresize : Call D isPrime s (checkresize isPrime s)
  | error (e : BddError) : Call D isPrime s (s.error e)

/-- A call with an id that is no node reports an error. -/
theorem checka_good (h : Good T s) {n res : ℕ} {body : BddState P → Option (ℕ × BddState P)}
    (hbody : s.IsNode n → body s = some (res, s') → Good T s')
    (hc : checka n body s = some (res, s')) : Good T s' := by
  by_cases hn : s.IsNode n
  · rw [checka_node h hn] at hc
    exact hbody hn hc
  · rw [checka_not_node hn] at hc
    have heq : s.error .illbdd = s' := congrArg Prod.snd (Option.some.inj hc)
    exact heq ▸ h.error .illbdd

/-- A result that an operation is known to have. -/
theorem Called.good_of_eq {f : (ℕ → Bool) → Bool} {o : Option (ℕ × BddState P)} {res : ℕ}
    (h : ∃ r, o = some r ∧ Called T s f r) (heq : o = some (res, s')) : Good T s' := by
  obtain ⟨r, hr, hc⟩ := h
  rw [hr] at heq
  have hrs : r = (res, s') := Option.some.inj heq
  rw [hrs] at hc
  exact hc.good

/-- A recursion on nodes that are held. -/
theorem Returns.good_of_eq (h : Good T s) {Q : Prop → DTree (Leaf P) → Prop}
    {o : Option (ℕ × BddState P)} {res : ℕ}
    (hret : Returns (T.setting s.env.bddvarnum h.num) s Q o) (heq : o = some (res, s')) :
    Good T s' := by
  obtain ⟨r, hr, hp⟩ := hret
  rw [hr] at heq
  have hrs : r = (res, s') := Option.some.inj heq
  rw [hrs] at hp
  exact h.evo hp.inv.toCore hp.evo

theorem BddOp.code_of_ofCode {c : ℕ} {op : BddOp} (h : BddOp.ofCode c = some op) :
    c = op.code := by
  unfold BddOp.ofCode at h
  split at h <;> first
    | exact absurd h.symm (Option.some_ne_none op)
    | exact Option.some.inj h ▸ rfl

theorem bddApply_good (hs : Good (plain D isPrime) s) {l r op res : ℕ} (hl : s.Fit D l)
    (hr : s.Fit D r) (h : bddApply D isPrime l r op s = some (res, s')) :
    Good (plain D isPrime) s' := by
  refine checka_good hs (fun hnl => checka_good hs fun hnr hc => ?_) h
  cases hop : BddOp.ofCode op with
  | none =>
    rw [hop] at hc
    have heq : s.error .op = s' := congrArg Prod.snd (Option.some.inj hc)
    exact heq ▸ hs.error .op
  | some o =>
    obtain ⟨f, hf⟩ := hl hnl
    obtain ⟨g, hg⟩ := hr hnr
    rw [BddOp.code_of_ofCode hop] at h
    exact (bddApply_called hs o hf hg).elim fun _ hc => Called.good_of_eq ⟨_, hc⟩ h

theorem bddIte_good (hs : Good (plain D isPrime) s) {f g h res : ℕ} (hf : s.Fit D f)
    (hg : s.Fit D g) (hh : s.Fit D h) (heq : bddIte D isPrime f g h s = some (res, s')) :
    Good (plain D isPrime) s' := by
  refine checka_good hs (fun hnf => checka_good hs fun hng => checka_good hs fun hnh _ => ?_) heq
  obtain ⟨ff, hff⟩ := hf hnf
  obtain ⟨fg, hfg⟩ := hg hng
  obtain ⟨fh, hfh⟩ := hh hnh
  exact Called.good_of_eq (bddIte_called hs hff hfg hfh) heq

theorem bddQuant_good (hs : Good (plain D isPrime) s) {b : Bool} {r var res : ℕ}
    (hr : s.Fit D r) (hvar : s.FitSet D var)
    (h : bddQuant D isPrime (quantifier b) r var s = some (res, s')) :
    Good (plain D isPrime) s' := by
  refine checka_good hs (fun hnr => checka_good hs fun hnv _ => ?_) h
  obtain ⟨f, hf⟩ := hr hnr
  obtain ⟨hsmall, V, hV⟩ := hvar hnv
  exact Called.good_of_eq (bddQuant_called hs b hf hV hsmall) h

theorem bddAppquant_good (hs : Good (plain D isPrime) s) {b : Bool} {l r opr var res : ℕ}
    (hl : s.Fit D l) (hr : s.Fit D r) (hvar : s.FitSet D var)
    (h : bddAppquant D isPrime (quantifier b) l r opr var s = some (res, s')) :
    Good (plain D isPrime) s' := by
  refine checka_good hs (fun hnl => checka_good hs fun hnr => checka_good hs fun hnv hc => ?_) h
  cases hop : BddOp.ofCode opr with
  | none =>
    rw [hop] at hc
    have heq : s.error .op = s' := congrArg Prod.snd (Option.some.inj hc)
    exact heq ▸ hs.error .op
  | some o =>
    obtain ⟨f, hf⟩ := hl hnl
    obtain ⟨g, hg⟩ := hr hnr
    obtain ⟨hsmall, V, hV⟩ := hvar hnv
    rw [BddOp.code_of_ofCode hop] at h
    exact Called.good_of_eq (bddAppquant_called hs b o hf hg hV hsmall) h

theorem BddState.InUse.operand {n : ℕ} (h : s.InUse S.D n) (hs : Inv S s) :
    ∃ t, Operand S s n t ∧ IsBool t := by
  obtain ⟨hheld, t, hr, hb⟩ := h
  exact ⟨t, hs.operand_of_reads hheld hr, hb⟩

theorem Good.store (h : Good (plain D isPrime) s) {k : CacheId} {e : BddCacheData}
    (he : Foreign k e) (i : ℕ) : Good (plain D isPrime) (s.store k i e) := by
  have hpost : Post ((plain D isPrime).setting s.env.bddvarnum h.num) s (fun _ _ => True)
      (0, s) := .const h.inv false trivial
  have hstore := hpost.store k i (e := e) fun g => by
    show plainEntry D s _ k
    cases k with
    | apply => exact he.elim
    | ite => exact he.elim
    | quant => exact fun b var hvar htag => absurd htag (he b var hvar)
    | appex => exact fun b var op hvar htag => absurd htag (he b var op hvar)
    | replace | misc | mtbddApply | mtbddIte | mtbddOperation => trivial
  exact h.evo hstore.inv.toCore hstore.evo

/-- Changing the caches' sizes keeps sessions well formed. -/
theorem Good.recache (h : Good T s) {C : Caches} {resized : Bool}
    (ha : Alike s { s with
      caches := C
      bddresized := resized }) : Good T { s with
        caches := C
        bddresized := resized } :=
  h.alike ha rfl (fun _ _ => rfl) h.marks
    (h.order.congr rfl rfl rfl rfl fun hp => ⟨hp.live, hp.key, hp.refcou⟩)

theorem Good.limits (h : Good T s) (maxnodesize maxnodeincrease minfreenodes ratio : ℕ) :
    Good T { s with env := { s.env with
      bddmaxnodesize := maxnodesize
      bddmaxnodeincrease := maxnodeincrease
      minfreenodes := minfreenodes
      cacheratio := ratio } } :=
  h.alike (h.inv.toCore.alike_rest _ s.errors) rfl (fun _ _ => rfl) h.marks
    (h.order.congr rfl rfl rfl rfl fun hp => ⟨hp.live, hp.key, hp.refcou⟩)

theorem Good.noderesize (h : Good T s) : Good T (operatorNoderesize T.isPrime s) := by
  have halike := h.inv.toCore.alike_noderesize
  have heq : ∃ C : Caches, operatorNoderesize T.isPrime s =
      { s with
        caches := C
        bddresized := s.bddresized } := by
    unfold operatorNoderesize
    split
    · exact ⟨_, rfl⟩
    · exact ⟨_, rfl⟩
  obtain ⟨C, hC⟩ := heq
  have halike' : Alike s (operatorNoderesize T.isPrime s) := halike
  rw [hC] at halike' ⊢
  exact h.recache halike'

theorem Good.checkresize (h : Good T s) : Good T (checkresize T.isPrime s) := by
  obtain ⟨C, hC⟩ := checkresize_eq T.isPrime s
  have halike : Alike s (Bdd.checkresize T.isPrime s) := h.inv.toCore.alike_checkresize
  rw [hC] at halike ⊢
  exact h.recache halike

/-- A call keeps the session well formed, as long as nothing was reported. -/
theorem Call.good (hs : Good (plain D isPrime) s) (hc : Call D isPrime s s') (hok : s'.Ok) :
    Good (plain D isPrime) s' := by
  have hplain := (@plain_plainQuant P D isPrime _ hs.num).toPlain
  cases hc with
  | setvarnum num => exact (bddSetvarnum_good hs num hok).2
  | limits a b c => exact hs.limits a b c s.env.cacheratio
  | cacheratio ratio => exact (hs.limits _ _ _ ratio).noderesize
  | addref n => exact hs.addref n
  | delref n => exact hs.delref n
  | gbc => exact hs.gbc
  | reorder _ h => exact h.good
  | not r res _ hr h =>
    refine checka_good hs (fun hn _ => ?_) h
    obtain ⟨f, hf⟩ := hr hn
    exact Called.good_of_eq (bddNot_called hs hf) h
  | apply l r op res _ hl hr h => exact bddApply_good hs hl hr h
  | ite f g h res _ hf hg hh heq => exact bddIte_good hs hf hg hh heq
  | quant b r var res _ hr hvar h => exact bddQuant_good hs hr hvar h
  | appquant b l r opr var res _ hl hr hvar h => exact bddAppquant_good hs hl hr hvar h
  | initref => exact hs.initref_good
  | pushref n hn =>
    refine hs.restack fun m hm => ?_
    rcases List.mem_cons.mp hm with rfl | hm
    · exact hn
    · exact hs.inv.graph.stack m hm
  | popref k => exact hs.restack fun n hn => hs.inv.graph.stack n (List.mem_of_mem_drop hn)
  | makenode level low high hlevel hchild =>
    obtain ⟨hcore, flight, hm⟩ := bddMakenode_core hs.inv.toCore hlevel hchild
    exact hs.evo hcore hm.evo
  | notRec r res _ hr h =>
    obtain ⟨t, ho, hb⟩ := hr.operand hs.inv
    exact Returns.good_of_eq hs
      (notRec_returns hplain hs.inv ho hb t.above_zero (Setting.depth_bound _ 0)) h
  | applyRec op l r res _ hl hr h =>
    obtain ⟨tl, hol, hbl⟩ := hl.operand hs.inv
    obtain ⟨tr, hor, hbr⟩ := hr.operand hs.inv
    exact Returns.good_of_eq hs (applyRec_returns hplain op hs.inv hol hor hbl hbr tl.above_zero
      tr.above_zero (Setting.depth_bound _ 0)) h
  | iteRec f g h res _ hf hg hh heq =>
    obtain ⟨tf, hof, hbf⟩ := hf.operand hs.inv
    obtain ⟨tg, hog, hbg⟩ := hg.operand hs.inv
    obtain ⟨th, hoh, hbh⟩ := hh.operand hs.inv
    exact Returns.good_of_eq hs (iteRec_returns hplain hs.inv hof hog hoh hbf hbg hbh
      tf.above_zero tg.above_zero th.above_zero (Setting.depth_bound _ 0)) heq
  | store k i e he => exact hs.store he i
  | checkresize => exact hs.checkresize
  | error e => exact hs.error e

/-- The states of a session in which nothing was reported so far. -/
inductive Reachable (D : MtbddDomain P) (isPrime : ℕ → Bool) : BddState P → Prop
  | init (size cachesize : ℕ) (h : GoodSize isPrime size) :
      Reachable D isPrime (bddInit size cachesize)
  | call {s s' : BddState P} (hs : Reachable D isPrime s) (hc : Call D isPrime s s')
      (hok : s'.Ok) : Reachable D isPrime s'

theorem Reachable.good (h : Reachable D isPrime s) : Good (plain D isPrime) s := by
  induction h with
  | init size cachesize h => exact bddInit_good cachesize h
  | call _ hc hok ih => exact hc.good ih hok

theorem Reachable.ok (h : Reachable D isPrime s) : s.Ok := by
  cases h with
  | init size cachesize h => rfl
  | call _ _ hok => exact hok

/-! ## References of results -/

theorem Called.canonical {f : (ℕ → Bool) → Bool} {r : ℕ × BddState P}
    (h : Called (plain D isPrime) s f r) (hok : r.2.Ok) : r.2.Canonical D r.1 f :=
  ⟨h.result hok, fun _ hm => h.good.canonical (h.result hok) hm⟩

/-- `bdd_addref`, for a node. -/
theorem bddAddref_eq (hs : Good T s) {n : ℕ} (hn : s.IsNode n) :
    bddAddref s n = if n < 2 then s else incref s n := by
  unfold bddAddref changeref
  by_cases h2 : n < 2
  · rw [if_pos h2, if_pos h2]
  · obtain ⟨flight, hi, -⟩ := hs.inv.table
    have hl := hn.resolve_left h2
    rw [if_neg h2, if_neg h2, if_neg (Nat.not_le.mpr (hi.live_lt hl)), if_neg]
    rw [isFree_eq (by omega), hl]
    exact Bool.false_ne_true

/-- A referenced node stays, and so does all that was referenced before. -/
theorem addref_keeps (hs : Good T s) {n : ℕ} (hn : s.IsNode n) :
    Keeps D s (bddAddref s n) ∧ (bddAddref s n).Referenced n ∧
      ∀ m t, s.Reads D m t → (bddAddref s n).Reads D m t := by
  rw [bddAddref_eq hs hn]
  by_cases h2 : n < 2
  · rw [if_pos h2]
    exact ⟨.refl s, Or.inl h2, fun _ _ hr => hr⟩
  rw [if_neg h2]
  have hl := hn.resolve_left h2
  unfold incref
  dsimp only
  by_cases hmax : (s.bddnodes n).refcou < maxref
  · rw [if_pos hmax]
    have hnode : ∀ m, (s.setNode n { s.bddnodes n with
        refcou := (s.bddnodes n).refcou + 1 }).bddnodes m =
        if m = n then { s.bddnodes n with refcou := (s.bddnodes n).refcou + 1 }
        else s.bddnodes m := fun m => Function.update_apply ..
    generalize hs' : s.setNode n { s.bddnodes n with
      refcou := (s.bddnodes n).refcou + 1 } = s' at hnode ⊢
    have hrest : s'.env = s.env ∧ s'.bdderrorcond = s.bdderrorcond ∧
        s'.terminals = s.terminals := by
      rw [← hs']
      exact ⟨rfl, rfl, rfl⟩
    have hkey : ∀ m, s'.key m = s.key m := by
      intro m
      unfold BddState.key
      rw [hnode]
      split
      · rename_i hm
        rw [hm]
        rfl
      · rfl
    have hcount : ∀ m, (s.bddnodes m).refcou ≤ (s'.bddnodes m).refcou := by
      intro m
      rw [hnode]
      split
      · rename_i hm
        rw [hm]
        exact Nat.le_succ _
      · exact Nat.le_refl _
    have hreads : ∀ m t, s.Reads D m t → s'.Reads D m t := fun m t hr =>
      hr.congr fun k _ => ⟨hkey k, fun _ _ => by rw [hrest.2.2]⟩
    refine ⟨⟨fun he => hrest.2.1.symm.trans he, fun m hm => hm.imp_right fun hh => ?_,
      fun m t _ hr => hreads m t hr, fun m _ => hcount m,
      fun m _ => congrArg BddKey.level (hkey m), by rw [hrest.1]; exact ⟨rfl, rfl, rfl⟩,
      by rw [hrest.1], fun hm => ?_⟩, Or.inr ⟨n, Or.inl ?_, .refl ?_⟩, hreads⟩
    · refine @BddState.Held.congr P s.initref s'.initref m (fun k _ => hkey k)
        (fun r hr hlr => ⟨r, ?_, .refl ?_⟩) hh
      · rcases hr with hr | hr
        · exact Or.inl (Nat.lt_of_lt_of_le hr (hcount r))
        · exact absurd hr List.not_mem_nil
      · exact (BddState.live_congr (hkey r)).trans hlr
    · unfold BddState.Signed
      rw [hrest.1]
      exact hm
    · show 0 < (s'.bddnodes n).refcou
      rw [hnode, if_pos rfl]
      exact Nat.succ_pos _
    · exact (BddState.live_congr (hkey n)).trans hl
  · rw [if_neg hmax]
    refine ⟨.refl s, Or.inr ⟨n, Or.inl ?_, .refl hl⟩, fun _ _ hr => hr⟩
    have hpos : 0 < maxref := by decide
    show 0 < (s.bddnodes n).refcou
    omega

/-- A result that got a reference is usable. -/
theorem Called.addref {f : (ℕ → Bool) → Bool} {r : ℕ × BddState P} (h : Called T s f r)
    (hok : r.2.Ok) : Good T (bddAddref r.2 r.1) ∧ Keeps T.D s (bddAddref r.2 r.1) ∧
      (bddAddref r.2 r.1).Usable T.D r.1 f := by
  obtain ⟨t, hr, hb, hf⟩ := h.result hok
  obtain ⟨hk, href, hreads⟩ := addref_keeps (D := T.D) h.good hr.isNode
  refine ⟨h.good.addref r.1, h.keeps.trans hk, href, t, hreads r.1 t hr, hb, fun a => ?_⟩
  have hassign : (bddAddref r.2 r.1).assign a = r.2.assign a := by
    unfold BddState.assign
    rw [hk.level2var]
  rw [hassign]
  exact hf a

/-! ## The variables -/

/-- The node that `bdd_ithvar` returns can be used, as its variable. -/
theorem bddIthvar_usable (hs : Reachable D isPrime s) {v : ℕ} (hv : v < s.env.bddvarnum) :
    s.Usable D (bddIthvar s v).1 fun a => a v := by
  have hpin := hs.good.order.pos v hv
  have hlevel := hs.good.order.level v hv
  have hvar : (bddIthvar s v).1 = s.env.bddvarset (2 * v) := by
    unfold bddIthvar
    rw [if_neg (Nat.not_le.mpr hv)]
  rw [hvar]
  have hdec : s.env.bddvar2level v ≠ maxlevel := by
    have := hs.good.num
    omega
  have hpin' : Pinned s.initref (s.env.bddvarset (2 * v)) (s.env.bddvar2level v) 0 1 :=
    ⟨hpin.live, hpin.key, hpin.refcou⟩
  refine ⟨Or.inr hpin'.held, _, .node (BddState.live_iff.mp hpin.live).1 hpin.key hdec
    (.const false) (.const true), ⟨trivial, trivial⟩, fun a => ?_⟩
  rw [evalBool_node]
  show (if a (s.env.bddlevel2var (s.env.bddvar2level v)) then true else false) = a v
  rw [hlevel.2]
  cases a v <;> rfl

/-! ## A session with two variables -/

/-- Terminals of the domain `INT`. -/
def intDomain : MtbddDomain UInt32 where
  domaintype := .intval
  word := id
  ofWord := id
  halves v := (v, 0)
  equal v w := v == w
  typeNumber := 0
  hashfun _ := none
  comparefun _ := none

/-- The variables are nodes `2` and `4`. -/
def twoVariables : BddState UInt32 := bddSetvarnum intDomain trialDivision (bddInit 11 3) 2

theorem twoVariables_data : twoVariables.bdderrorcond = false ∧ twoVariables.bddnodesize = 11 ∧
    twoVariables.env.bddvarnum = 2 ∧ (∀ i < 4, twoVariables.env.bddvarset i = i + 2) ∧
    (∀ v < 3, twoVariables.env.bddvar2level v = v ∧ twoVariables.env.bddlevel2var v = v) ∧
    (∀ v < 2, twoVariables.key (2 * v + 2) = ⟨some 0, 1, v⟩ ∧
      0 < (twoVariables.bddnodes (2 * v + 2)).refcou) ∧
    ∀ n < 11, twoVariables.live n = true → n < 6 := by
  decide +kernel

theorem twoVariables_ok : twoVariables.Ok := twoVariables_data.1

@[simp] theorem twoVariables_varnum : twoVariables.env.bddvarnum = 2 := twoVariables_data.2.2.1

theorem twoVariables_varset : ∀ i < 4, twoVariables.env.bddvarset i = i + 2 :=
  twoVariables_data.2.2.2.1

theorem twoVariables_level {v : ℕ} (hv : v < 3) : twoVariables.env.bddvar2level v = v :=
  (twoVariables_data.2.2.2.2.1 v hv).1

theorem twoVariables_var {l : ℕ} (hl : l < 3) : twoVariables.env.bddlevel2var l = l :=
  (twoVariables_data.2.2.2.2.1 l hl).2

theorem twoVariables_nodes : ∀ v < 2, twoVariables.key (2 * v + 2) = ⟨some 0, 1, v⟩ ∧
    0 < (twoVariables.bddnodes (2 * v + 2)).refcou :=
  twoVariables_data.2.2.2.2.2.1

theorem twoVariables_live : ∀ n < 11, twoVariables.live n = true → n < 6 :=
  twoVariables_data.2.2.2.2.2.2

theorem twoVariables_reachable : Reachable intDomain trialDivision twoVariables :=
  .call (.init 11 3 ⟨by decide, by decide, by decide⟩) (.setvarnum 2) twoVariables_ok

theorem twoVariables_usable :
    twoVariables.Usable intDomain 2 (fun a => a 0) ∧
      twoVariables.Usable intDomain 4 (fun a => a 1) ∧
      twoVariables.Usable intDomain 2 fun a => [0].all a := by
  have h0 := bddIthvar_usable twoVariables_reachable (v := 0) (by simp)
  have h1 := bddIthvar_usable twoVariables_reachable (v := 1) (by simp)
  have hn0 : (bddIthvar twoVariables 0).1 = 2 := by
    simp [bddIthvar, twoVariables_varset]
  have hn1 : (bddIthvar twoVariables 1).1 = 4 := by
    simp [bddIthvar, twoVariables_varset]
  rw [hn0] at h0
  rw [hn1] at h1
  have hset : (fun a : ℕ → Bool => [0].all a) = fun a => a 0 := funext fun a => Bool.and_true _
  rw [hset]
  exact ⟨h0, h1, h0⟩

/-! ## Main results -/

/-- An operator and a quantification of its result, with a reference to either result, return the
node that the fused operation returns. -/
def FusedSame (D : MtbddDomain P) (isPrime : ℕ → Bool) (b : Bool) (op : BddOp) (l r var : ℕ)
    (s : BddState P) : Prop :=
  ∃ a s₁, bddApply D isPrime l r op.code s = some (a, s₁) ∧ (s₁.Ok →
    ∃ e s₂, bddQuant D isPrime (quantifier b) a var (bddAddref s₁ a) = some (e, s₂) ∧ (s₂.Ok →
      ∃ x s₃, bddAppquant D isPrime (quantifier b) l r op.code var (bddAddref s₂ e) =
        some (x, s₃) ∧ (s₃.Ok → x = e)))

theorem Good.fusedSame (hs : Good (plain D isPrime) s) (b : Bool) (op : BddOp) {l r var : ℕ}
    {f g : (ℕ → Bool) → Bool} {V : List ℕ} (hl : s.Usable D l f) (hr : s.Usable D r g)
    (hvar : s.Usable D var fun a => V.all a) (hsmall : var < 2 ^ 22) :
    FusedSame D isPrime b op l r var s := by
  obtain ⟨⟨a, s₁⟩, h₁, hc₁⟩ := bddApply_called hs op hl hr
  refine ⟨a, s₁, h₁, fun hok₁ => ?_⟩
  obtain ⟨hs₁, hk₁, ha⟩ := hc₁.addref hok₁
  obtain ⟨⟨e, s₂⟩, h₂, hc₂⟩ := bddQuant_called hs₁ b ha (hk₁.usable hvar) hsmall
  refine ⟨e, s₂, h₂, fun hok₂ => ?_⟩
  obtain ⟨hs₂, hk₂, he⟩ := hc₂.addref hok₂
  have hk := hk₁.trans hk₂
  obtain ⟨⟨x, s₃⟩, h₃, hc₃⟩ := bddAppquant_called hs₂ b op (hk.usable hl) (hk.usable hr)
    (hk.usable hvar) hsmall
  refine ⟨x, s₃, h₃, fun hok₃ => ?_⟩
  -- both are the node of one function
  have hx := hc₃.canonical hok₃
  exact (hx.2 e (hc₃.keeps.usable he).2).symm

/-- The quantifications return the canonical node of the disjunction, respectively conjunction, of
all cofactors over the set, of an operand or of an operator's result. -/
theorem bddQuantifiers_canonical (hs : Reachable D isPrime s) {l r var : ℕ}
    {f g : (ℕ → Bool) → Bool} {V : List ℕ} (hl : s.Usable D l f) (hr : s.Usable D r g)
    (hvar : s.Usable D var fun a => V.all a) (hsmall : var < 2 ^ 22) :
    (∃ res s', bddExist D isPrime r var s = some (res, s') ∧
      (s'.Ok → s'.Canonical D res (quantify (· ∈ V) true g))) ∧
    (∃ res s', bddForall D isPrime r var s = some (res, s') ∧
      (s'.Ok → s'.Canonical D res (quantify (· ∈ V) false g))) ∧
    ∀ op : BddOp,
      (∃ res s', bddAppex D isPrime l r op.code var s = some (res, s') ∧
        (s'.Ok → s'.Canonical D res (quantify (· ∈ V) true fun a => op.fn (f a) (g a)))) ∧
      (∃ res s', bddAppall D isPrime l r op.code var s = some (res, s') ∧
        (s'.Ok → s'.Canonical D res (quantify (· ∈ V) false fun a => op.fn (f a) (g a)))) ∧
      FusedSame D isPrime true op l r var s ∧ FusedSame D isPrime false op l r var s := by
  have hgood := hs.good
  have hquant : ∀ b, ∃ res s', bddQuant D isPrime (quantifier b) r var s = some (res, s') ∧
      (s'.Ok → s'.Canonical D res (quantify (· ∈ V) b g)) := by
    intro b
    obtain ⟨⟨res, s'⟩, heq, hc⟩ := bddQuant_called hgood b hr hvar hsmall
    exact ⟨res, s', heq, hc.canonical⟩
  have hfused : ∀ b (op : BddOp), ∃ res s',
      bddAppquant D isPrime (quantifier b) l r op.code var s = some (res, s') ∧
        (s'.Ok → s'.Canonical D res (quantify (· ∈ V) b fun a => op.fn (f a) (g a))) := by
    intro b op
    obtain ⟨⟨res, s'⟩, heq, hc⟩ := bddAppquant_called hgood b op hl hr hvar hsmall
    exact ⟨res, s', heq, hc.canonical⟩
  exact ⟨hquant true, hquant false, fun op => ⟨hfused true op, hfused false op,
    hgood.fusedSame true op hl hr hvar hsmall, hgood.fusedSame false op hl hr hvar hsmall⟩⟩

theorem bddQuantifiers_canonical_two :
    (∃ res s', bddExist intDomain trialDivision 4 2 twoVariables = some (res, s') ∧
      (s'.Ok → s'.Canonical intDomain res (quantify (· ∈ [0]) true fun a => a 1))) ∧
    (∃ res s', bddForall intDomain trialDivision 4 2 twoVariables = some (res, s') ∧
      (s'.Ok → s'.Canonical intDomain res (quantify (· ∈ [0]) false fun a => a 1))) ∧
    ∀ op : BddOp,
      (∃ res s', bddAppex intDomain trialDivision 2 4 op.code 2 twoVariables = some (res, s') ∧
        (s'.Ok → s'.Canonical intDomain res
          (quantify (· ∈ [0]) true fun a => op.fn (a 0) (a 1)))) ∧
      (∃ res s', bddAppall intDomain trialDivision 2 4 op.code 2 twoVariables =
          some (res, s') ∧
        (s'.Ok → s'.Canonical intDomain res
          (quantify (· ∈ [0]) false fun a => op.fn (a 0) (a 1)))) ∧
      FusedSame intDomain trialDivision true op 2 4 2 twoVariables ∧
      FusedSame intDomain trialDivision false op 2 4 2 twoVariables :=
  bddQuantifiers_canonical twoVariables_reachable twoVariables_usable.1 twoVariables_usable.2.1
    twoVariables_usable.2.2 (by decide)

end MoToBuddy.Bdd
