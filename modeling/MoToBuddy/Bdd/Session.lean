import MoToBuddy.Bdd.Quant

/-!
# Operations on functions of the variables

A plain diagram stands for a function of the variables (`BddState.Represents`), and it is the only
one that does (`Good.canonical`). The entry points return diagrams of the functions that they are
said to compute (`Called`), in any theory whose caches hold results of the operators
(`Theory.Operates`); `plain` is one that says nothing about other entries.
-/

namespace MoToBuddy.Bdd

open Decision BoolFun

variable {P : Type*} {D : MtbddDomain P} {isPrime : ℕ → Bool} {T : Theory P} {S : Setting P}
  {s s' : BddState P}

/-! ## The theory of the plain operations -/

/-- The caches of the plain operations hold their results. -/
def plainEntry (D : MtbddDomain P) (s : BddState P) (e : BddCacheData) : CacheId → Prop
  | .apply => ApplyEntry D s e
  | .ite => IteEntry D s e
  | .quant => QuantEntry D s e
  | .appex => AppexEntry D s e
  | _ => True

/-- The theory of the plain operations. -/
def plain (D : MtbddDomain P) (isPrime : ℕ → Bool) : Theory P where
  D := D
  isPrime := isPrime
  cache s k e := plainEntry D s e k
  stable s s' k e hsame hok h := by
    cases k with
    | apply => exact ApplyEntry.stable h hsame hok
    | ite => exact EntryFor.stable h hsame hok
    | quant => exact QuantEntry.stable h hsame hok
    | appex => exact AppexEntry.stable h hsame hok
    | replace | misc | mtbddApply | mtbddIte | mtbddOperation => trivial
  reduced := True

theorem plain_plainQuant (top : ℕ) (htop : top ≤ maxlevel) :
    ((plain D isPrime).setting top htop).PlainQuant :=
  ⟨⟨fun _ _ => Iff.rfl, fun _ _ => Iff.rfl⟩, fun _ _ => Iff.rfl, fun _ _ => Iff.rfl⟩

/-- A theory in which the operators and the quantifications work. -/
structure Theory.Operates (T : Theory P) : Prop where
  reduced : T.reduced
  quantifiers : ∀ top htop, (T.setting top htop).Quantifiers

theorem plain_operates (D : MtbddDomain P) (isPrime : ℕ → Bool) : (plain D isPrime).Operates :=
  ⟨trivial, fun top htop => (plain_plainQuant top htop).quantifiers⟩

/-! ## Functions of the variables -/

/-- The assignment of the levels that an assignment of the variables is. -/
def BddState.assign (s : BddState P) (a : ℕ → Bool) (l : ℕ) : Bool := a (s.env.bddlevel2var l)

/-- Node `n` is a plain diagram of a function of the variables. -/
def BddState.Represents (D : MtbddDomain P) (s : BddState P) (n : ℕ)
    (f : (ℕ → Bool) → Bool) : Prop :=
  ∃ t, s.Reads D n t ∧ IsBool t ∧ ∀ a, evalBool t (s.assign a) = f a

/-- Node `n` is the only one with its function. -/
def BddState.Canonical (D : MtbddDomain P) (s : BddState P) (n : ℕ)
    (f : (ℕ → Bool) → Bool) : Prop :=
  s.Represents D n f ∧ ∀ m, s.Represents D m f → m = n

/-- A node that the user holds a reference to, or that is below one. -/
def BddState.Referenced (s : BddState P) (n : ℕ) : Prop := n < 2 ∨ s.initref.Held n

/-- A referenced node with its function. -/
def BddState.Usable (D : MtbddDomain P) (s : BddState P) (n : ℕ) (f : (ℕ → Bool) → Bool) : Prop :=
  s.Referenced n ∧ s.Represents D n f

/-- The diagram and the variables are well formed, whatever the marks of the sets are. -/
structure Sane (T : Theory P) (s : BddState P) : Prop where
  num : s.env.bddvarnum ≤ maxlevel
  inv : Inv (T.setting s.env.bddvarnum num) s
  order : OrderInv s

theorem Good.sane (h : Good T s) : Sane T s := ⟨h.num, h.inv, h.order⟩

/-- Every assignment of the levels is one of the variables. -/
theorem OrderInv.assign_level (h : OrderInv s) (x : ℕ → Bool) {l : ℕ} (hl : l < s.env.bddvarnum) :
    s.assign (fun v => x (s.env.bddvar2level v)) l = x l := by
  show x (s.env.bddvar2level (s.env.bddlevel2var l)) = x l
  rw [(h.var l hl).2]

theorem Good.assign_level (h : Good T s) (x : ℕ → Bool) {l : ℕ} (hl : l < s.env.bddvarnum) :
    s.assign (fun v => x (s.env.bddvar2level v)) l = x l := h.order.assign_level x hl

theorem GraphInv.reduced_reads (hg : GraphInv S s) (hred : S.reduced) {n : ℕ}
    {t : DTree (Leaf P)} {flight : List ℕ} (hi : TableInv S.D S.isPrime flight s)
    (hr : s.Reads S.D n t) (hb : IsBool t) : t.Reduced := by
  induction hr with
  | const b => trivial
  | terminal _ _ _ _ => trivial
  | @node n low high level tl th inner key decision below above ihl ihh =>
    refine ⟨fun heq => ?_, ihl hb.1, ihh hb.2⟩
    subst heq
    have hlow : low = high := below.inj hi (Or.inr hb.1) above
    have hno := (hg.reduced hred).2 n (BddState.Reads.live_of_key inner key) (by
      show (s.key n).level ≠ maxlevel
      rw [key]
      exact decision)
    rw [key] at hno
    exact hno (congrArg some hlow)

/-- An operand's tree is reduced. -/
theorem Inv.reduced (hs : Inv S s) (hred : S.reduced) {n : ℕ} {t : DTree (Leaf P)}
    (hn : Operand S s n t) (hb : IsBool t) : t.Reduced := by
  obtain ⟨flight, hi, -⟩ := hs.table
  exact hs.graph.reduced_reads hred hi hn.reads hb

/-- Functions that agree on the variables have one tree. -/
theorem Sane.tree_unique (hred : T.reduced) (h : Sane T s) {n m : ℕ} {tn tm : DTree (Leaf P)}
    {f : (ℕ → Bool) → Bool} (hrn : s.Reads T.D n tn) (hbn : IsBool tn)
    (hfn : ∀ a, evalBool tn (s.assign a) = f a) (hrm : s.Reads T.D m tm) (hbm : IsBool tm)
    (hfm : ∀ a, evalBool tm (s.assign a) = f a) : tm = tn := by
  obtain ⟨flight, hi, -⟩ := h.inv.table
  have hg := h.inv.graph
  obtain ⟨hsn, -⟩ := hg.sorted hrn
  obtain ⟨hsm, -⟩ := hg.sorted hrm
  have heval : ∀ x, tm.eval x = tn.eval x := by
    intro x
    have hagree : ∀ j, 0 ≤ j → j < s.env.bddvarnum →
        x j = s.assign (fun v => x (s.env.bddvar2level v)) j := fun j _ hj =>
      (h.order.assign_level x hj).symm
    rw [DTree.eval_congr hsm tm.above_zero hagree, DTree.eval_congr hsn tn.above_zero hagree,
      eval_of_isBool hbm, eval_of_isBool hbn, hfm, hfn]
  exact DTree.ext hsm (hg.reduced_reads hred hi hrm hbm) hsn (hg.reduced_reads hred hi hrn hbn) heval

/-- A node is the only one with its function. -/
theorem Sane.only (hred : T.reduced) (h : Sane T s) {n m : ℕ} {f : (ℕ → Bool) → Bool}
    (hn : s.Represents T.D n f) (hm : s.Represents T.D m f) : m = n := by
  obtain ⟨tn, hrn, hbn, hfn⟩ := hn
  obtain ⟨tm, hrm, hbm, hfm⟩ := hm
  obtain ⟨flight, hi, -⟩ := h.inv.table
  have htree := h.tree_unique hred hrn hbn hfn hrm hbm hfm
  exact (htree ▸ hrm).inj hi (Or.inr hbn) hrn

theorem Good.only (hred : T.reduced) (h : Good T s) {n m : ℕ} {f : (ℕ → Bool) → Bool}
    (hn : s.Represents T.D n f) (hm : s.Represents T.D m f) : m = n := h.sane.only hred hn hm

theorem Good.canonical (h : Good (plain D isPrime) s) {n m : ℕ} {f : (ℕ → Bool) → Bool}
    (hn : s.Represents D n f) (hm : s.Represents D m f) : m = n :=
  h.only (plain_operates D isPrime).reduced hn hm

/-! ## Entry points -/

/-- What a call keeps: references, the nodes below them, and the variables. -/
structure Keeps (D : MtbddDomain P) (s s' : BddState P) : Prop where
  ok : s'.Ok → s.Ok
  referenced : ∀ n, s.Referenced n → s'.Referenced n
  reads : ∀ n t, s.Referenced n → s.Reads D n t → s'.Reads D n t
  refcou : ∀ n, 2 ≤ n → (s.bddnodes n).refcou ≤ (s'.bddnodes n).refcou
  const : ∀ n, n < 2 → s'.level n = s.level n
  order : s'.env.bddlevel2var = s.env.bddlevel2var ∧ s'.env.bddvar2level = s.env.bddvar2level ∧
    s'.env.bddvarset = s.env.bddvarset
  varnum : s'.env.bddvarnum = s.env.bddvarnum
  signed : s.Signed → s'.Signed

theorem Keeps.level2var {s s' : BddState P} (h : Keeps D s s') :
    s'.env.bddlevel2var = s.env.bddlevel2var := h.order.1

theorem Keeps.usable (h : Keeps D s s') {n : ℕ} {f : (ℕ → Bool) → Bool}
    (hn : s.Usable D n f) : s'.Usable D n f := by
  obtain ⟨href, t, hr, hb, hf⟩ := hn
  refine ⟨h.referenced n href, t, h.reads n t href hr, hb, fun a => ?_⟩
  have hassign : s'.assign a = s.assign a := by
    unfold BddState.assign
    rw [h.level2var]
  rw [hassign]
  exact hf a

/-- The contract of an operation: the session stays well formed, and the result is the function
`f` of the variables. -/
structure Called (T : Theory P) (s : BddState P) (f : (ℕ → Bool) → Bool)
    (r : ℕ × BddState P) : Prop where
  good : Good T r.2
  keeps : Keeps T.D s r.2
  result : r.2.Ok → r.2.Represents T.D r.1 f

/-- Resizing the caches empties them, and changes nothing else. -/
theorem Core.alike_noderesize (h : Core S s) : Alike s (operatorNoderesize S.isPrime s) := by
  obtain ⟨flight, hi, -⟩ := h.table
  unfold operatorNoderesize
  by_cases hratio : s.env.cacheratio > 0
  · rw [if_pos hratio]
    refine ⟨⟨fun _ _ => rfl, fun n _ => hi.level n, hi.refcou, fun _ => rfl, rfl, rfl, rfl,
      fun k => BddCache.inv_resize _ _⟩, rfl, id, fun k i hv => ?_, h.graph.stack⟩
    rw [BddCache.resize_isValid] at hv
    exact absurd hv Bool.false_ne_true
  · rw [if_neg hratio]
    exact h.alike_rest s.env s.errors

theorem Core.alike_checkresize (h : Core S s) : Alike s (Bdd.checkresize S.isPrime s) := by
  have hresized : ∀ t : BddState P, Alike s t → Alike s { t with bddresized := false } :=
    fun t ht => ⟨⟨ht.key, ht.const, ht.refcou, ht.mark, ht.links, ht.nodesize, ht.terminals,
      ht.caches⟩, ht.checkSameChildren, ht.ok, ht.valid, ht.stack⟩
  unfold Bdd.checkresize
  apply hresized
  split
  · exact h.alike_noderesize
  · exact h.alike_rest s.env s.errors

/-- Resizing the caches only changes the caches. -/
theorem checkresize_eq (isPrime : ℕ → Bool) (s : BddState P) : ∃ C : Caches, Bdd.checkresize isPrime s =
    { s with
      caches := C
      bddresized := false } := by
  unfold Bdd.checkresize operatorNoderesize
  split
  · split
    · exact ⟨_, rfl⟩
    · exact ⟨_, rfl⟩
  · exact ⟨_, rfl⟩

theorem Post.checkresize {Q : Prop → DTree (Leaf P) → Prop} {r : ℕ × BddState P}
    (h : Post S s Q r) : Post S s Q (r.1, Bdd.checkresize S.isPrime r.2) := by
  have halike := h.inv.toCore.alike_checkresize
  obtain ⟨C, heq⟩ := checkresize_eq S.isPrime r.2
  rw [heq] at halike ⊢
  refine ⟨⟨h.inv.toCore.alike halike, h.inv.top⟩, ?_, h.refstack, ?_⟩
  · exact ⟨h.evo.errorcond, h.evo.held, fun n hn =>
      ⟨(h.evo.same n hn).key, (h.evo.same n hn).value⟩, h.evo.const, h.evo.refcou, h.evo.env,
      h.evo.checkSameChildren, h.evo.constKey, h.evo.told⟩
  · obtain ⟨t, hr, hQ⟩ := h.result
    exact ⟨t, hr.congr fun m _ => ⟨rfl, fun _ _ => rfl⟩, hQ⟩

theorem Keeps.refl (s : BddState P) : Keeps D s s :=
  ⟨id, fun _ hn => hn, fun _ _ _ hr => hr, fun _ _ => Nat.le_refl _, fun _ _ => rfl,
    ⟨rfl, rfl, rfl⟩, rfl, id⟩

theorem Keeps.trans {s'' : BddState P} (h : Keeps D s s') (h' : Keeps D s' s'') :
    Keeps D s s'' :=
  ⟨fun he => h.ok (h'.ok he), fun n hn => h'.referenced n (h.referenced n hn),
    fun n t hn hr => h'.reads n t (h.referenced n hn) (h.reads n t hn hr),
    fun n hn => Nat.le_trans (h.refcou n hn) (h'.refcou n hn),
    fun n hn => (h'.const n hn).trans (h.const n hn),
    ⟨h'.order.1.trans h.order.1, h'.order.2.1.trans h.order.2.1, h'.order.2.2.trans h.order.2.2⟩,
    h'.varnum.trans h.varnum, fun hm => h'.signed (h.signed hm)⟩

theorem Called.trans {f : (ℕ → Bool) → Bool} {r : ℕ × BddState P} (hk : Keeps T.D s s')
    (h : Called T s' f r) : Called T s f r := ⟨h.good, hk.trans h.keeps, h.result⟩

/-- What a recursion that starts with an empty stack keeps. -/
theorem Evo.keeps (h : Evo D s.initref s') (hst : s'.bddrefstack = []) : Keeps D s s' := by
  have hself : s'.initref = s' := by
    unfold BddState.initref
    rw [← hst]
  refine ⟨fun he => h.errorcond he, fun n hn => hn.imp_right fun hh => ?_, fun n t hn hr => ?_,
    fun n hn => (h.refcou n hn).ge, fun n hn => h.const n hn,
    by rw [h.env]; exact ⟨rfl, rfl, rfl⟩, by rw [h.env]; rfl, fun hm => ?_⟩
  · rw [hself]
    exact h.held n hh
  · have hr' : s.initref.Reads D n t := hr.congr fun m _ => ⟨rfl, fun _ _ => rfl⟩
    refine hr'.congr fun m hm => ?_
    rcases hn with h2 | hh
    · have hl := hm.live_left
      have := (BddState.live_iff.mp hl).1
      omega
    · obtain ⟨r, hr, hrn⟩ := hh
      exact h.same m ⟨r, hr, hrn.trans hm⟩
  · unfold BddState.Signed
    rw [h.env]
    exact hm

theorem Good.initref_good (h : Good T s) : Good T s.initref :=
  h.restack fun _ hn => absurd hn List.not_mem_nil

theorem Sane.initref (h : Sane T s) : Inv (T.setting s.env.bddvarnum h.num) s.initref :=
  h.inv.restack fun _ hn => absurd hn List.not_mem_nil

theorem Good.initref (h : Good T s) : Inv (T.setting s.env.bddvarnum h.num) s.initref :=
  h.sane.initref

/-- A referenced node is still an operand after a call. -/
theorem Sane.operand_keeps (h : Sane T s') (hk : Keeps T.D s s') {r : ℕ} {t : DTree (Leaf P)}
    (href : s.Referenced r) (hr : s.Reads T.D r t) :
    Operand (T.setting s'.env.bddvarnum h.num) s'.initref r t := by
  have hr' : s'.initref.Reads T.D r t :=
    (hk.reads r t href hr).congr fun m _ => ⟨rfl, fun _ _ => rfl⟩
  exact h.initref.operand_of_reads (hk.referenced r href) hr'

theorem Good.operand_keeps (h : Good T s') (hk : Keeps T.D s s') {r : ℕ} {t : DTree (Leaf P)}
    (href : s.Referenced r) (hr : s.Reads T.D r t) :
    Operand (T.setting s'.env.bddvarnum h.num) s'.initref r t := h.sane.operand_keeps hk href hr

/-- A usable node is an operand of a recursion. -/
theorem Good.operand (h : Good T s) {r : ℕ} {f : (ℕ → Bool) → Bool} (hr : s.Usable T.D r f) :
    ∃ t, Operand (T.setting s.env.bddvarnum h.num) s.initref r t ∧ IsBool t ∧
      ∀ a, evalBool t (s.assign a) = f a := by
  obtain ⟨href, t, hr, hb, hf⟩ := hr
  exact ⟨t, h.operand_keeps (.refl s) href hr, hb, hf⟩

/-- What an operation keeps, and what is known of the tree of its result. -/
structure Finished (T : Theory P) (s : BddState P) (Q : Prop → DTree (Leaf P) → Prop)
    (r : ℕ × BddState P) : Prop where
  sane : Sane T r.2
  keeps : Keeps T.D s r.2
  env : r.2.env = s.env
  told : r.2.Ok → r.2.told = s.told
  refcou : ∀ n, 2 ≤ n → (r.2.bddnodes n).refcou = (s.bddnodes n).refcou
  result : ∃ t, r.2.Reads T.D r.1 t ∧ Q r.2.Ok t

theorem operation_finished (h : Sane T s) {rec : BddState P → Option (ℕ × BddState P)}
    {Q : Prop → DTree (Leaf P) → Prop}
    (hrec : Returns (T.setting s.env.bddvarnum h.num) s.initref Q (rec s.initref)) :
    ∃ r, operation T.isPrime rec s = some r ∧ Finished T s Q r := by
  obtain ⟨r, hr, hp⟩ := hrec
  have hp' := hp.checkresize
  refine ⟨(r.1, checkresize T.isPrime r.2), ?_, ?_⟩
  · unfold operation
    rw [hr]
    rfl
  · generalize hs' : (r.1, Bdd.checkresize (T.setting s.env.bddvarnum h.num).isPrime r.2) = r' at hp'
    have hs'' : (r.1, checkresize T.isPrime r.2) = r' := hs'
    rw [hs'']
    have henv : r'.2.env = s.env := hp'.evo.env
    have hnum : r'.2.env.bddvarnum = s.env.bddvarnum := by rw [henv]
    have hle : r'.2.env.bddvarnum ≤ maxlevel := hnum ▸ h.num
    have horder : OrderInv s.initref :=
      h.order.congr rfl rfl rfl rfl fun hp => ⟨hp.live, hp.key, hp.refcou⟩
    refine ⟨⟨hle, ⟨hp'.inv.toCore.mono (Nat.le_of_eq hnum.symm) hle, fun n hn => ?_⟩,
      horder.evo hp'.evo⟩, hp'.evo.keeps hp'.refstack, henv, hp'.evo.told, hp'.evo.refcou,
      hp'.result⟩
    exact Nat.le_trans (Nat.le_of_eq hnum) (hp'.inv.top n hn)

section

variable {Q : Prop → DTree (Leaf P) → Prop} {r : ℕ × BddState P}

theorem Finished.good (h : Finished T s Q r) (hm : MarksInv s s.env.bddvarnum) : Good T r.2 := by
  refine ⟨h.sane.num, h.sane.inv, ?_, h.sane.order⟩
  unfold MarksInv at hm ⊢
  rw [h.env]
  exact hm

theorem Finished.mono {Q' : Prop → DTree (Leaf P) → Prop} (h : Finished T s Q r)
    (hQ : ∀ ok t, Q ok t → Q' ok t) : Finished T s Q' r :=
  ⟨h.sane, h.keeps, h.env, h.told, h.refcou, h.result.imp fun t ht => ⟨ht.1, hQ _ t ht.2⟩⟩

/-- The result is a function of the variables, if a condition holds. -/
theorem Finished.represents {ops : List (DTree (Leaf P))} {F f : (ℕ → Bool) → Bool} {A : Prop}
    (h : Finished T s (fun ok t => Computes ops F (ok ∧ A) t) r) (hok : r.2.Ok) (hA : A)
    (hF : ∀ a, F (s.assign a) = f a) : r.2.Represents T.D r.1 f := by
  obtain ⟨t, hreads, hc⟩ := h.result
  refine ⟨t, hreads, hc.isBool, fun a => ?_⟩
  have hassign : r.2.assign a = s.assign a := by
    unfold BddState.assign
    rw [h.env]
  rw [hassign, hc.eval ⟨hok, hA⟩]
  exact hF a

end

theorem operation_called (h : Good T s) {rec : BddState P → Option (ℕ × BddState P)}
    {ops : List (DTree (Leaf P))} {F f : (ℕ → Bool) → Bool}
    (hrec : Returns (T.setting s.env.bddvarnum h.num) s.initref (Computes ops F) (rec s.initref))
    (hF : ∀ a, F (s.assign a) = f a) :
    ∃ r, operation T.isPrime rec s = some r ∧ Called T s f r := by
  obtain ⟨r, hr, hfin⟩ := operation_finished h.sane hrec
  have hfin' := hfin.mono fun ok t hc =>
    (⟨hc.isBool, hc.above, fun hok => hc.eval hok.1⟩ : Computes ops F (ok ∧ True) t)
  exact ⟨r, hr, hfin.good h.marks, hfin.keeps, fun hok => hfin'.represents hok trivial hF⟩

/-- A node passes the checks of an operand. -/
theorem Good.checked (h : Good T s) {n : ℕ} (hn : s.IsNode n) :
    ¬ n ≥ s.bddnodesize ∧ ¬ (2 ≤ n ∧ s.isFree n = true) := by
  obtain ⟨flight, hi, -⟩ := h.inv.table
  have hsize := hi.size.1
  rcases hn with h2 | hl
  · exact ⟨by omega, by omega⟩
  · have hlt := hi.live_lt hl
    refine ⟨by omega, ?_⟩
    rintro ⟨-, hfree⟩
    obtain ⟨-, low, hlow⟩ := BddState.live_iff.mp hl
    have hlow' : (s.bddnodes n).low = some low := hlow
    unfold BddState.isFree at hfree
    rw [hlow'] at hfree
    exact Bool.false_ne_true hfree

/-- `CHECKa` lets nodes through. -/
theorem checka_node (h : Good T s) {n : ℕ} (hn : s.IsNode n)
    (body : BddState P → Option (ℕ × BddState P)) : checka n body s = body s := by
  obtain ⟨hsize, hfree⟩ := h.checked hn
  unfold checka
  rw [if_neg hsize, if_neg hfree]

/-- Any other id is an error. -/
theorem checka_not_node {n : ℕ} (hn : ¬ s.IsNode n)
    (body : BddState P → Option (ℕ × BddState P)) :
    checka n body s = some (0, s.error .illbdd) := by
  unfold checka
  by_cases hsize : n ≥ s.bddnodesize
  · rw [if_pos hsize]
  · rw [if_neg hsize, if_pos]
    have h2 : 2 ≤ n := by
      by_contra hlt
      exact hn (Or.inl (by omega))
    refine ⟨h2, ?_⟩
    have hl : ¬ s.live n = true := fun hl => hn (Or.inr hl)
    unfold BddState.isFree
    cases hlow : (s.bddnodes n).low with
    | none => rfl
    | some low => exact absurd (BddState.live_iff.mpr ⟨h2, low, hlow⟩) hl

theorem BddState.Usable.isNode {n : ℕ} {f : (ℕ → Bool) → Bool} (h : s.Usable D n f) :
    s.IsNode n := by
  obtain ⟨-, t, hr, -⟩ := h
  exact hr.isNode

/-! ## The operations -/

section

variable {f g h : (ℕ → Bool) → Bool} {l r n : ℕ}

theorem Theory.Operates.not_called (hT : T.Operates) (hs : Good T s) (hr : s.Usable T.D r f) :
    ∃ res, bddNot T.D T.isPrime r s = some res ∧ Called T s (fun a => !f a) res := by
  unfold bddNot
  rw [checka_node hs hr.isNode]
  obtain ⟨t, ho, hb, hf⟩ := hs.operand hr
  exact operation_called hs (notRec_computes (hT.quantifiers _ _).toOperators hs.initref ho hb
    t.above_zero (Setting.depth_bound _ 0)) fun a => by rw [hf]

theorem Theory.Operates.apply_called (hT : T.Operates) (hs : Good T s) (op : BddOp)
    (hl : s.Usable T.D l f) (hr : s.Usable T.D r g) :
    ∃ res, bddApply T.D T.isPrime l r op.code s = some res ∧
      Called T s (fun a => op.fn (f a) (g a)) res := by
  unfold bddApply
  rw [checka_node hs hl.isNode, checka_node hs hr.isNode, op.ofCode_code]
  obtain ⟨tl, hol, hbl, hfl⟩ := hs.operand hl
  obtain ⟨tr, hor, hbr, hfr⟩ := hs.operand hr
  exact operation_called hs (applyRec_computes (hT.quantifiers _ _).toOperators op hs.initref hol
    hor hbl hbr tl.above_zero tr.above_zero (Setting.depth_bound _ 0)) fun a => by rw [hfl, hfr]

theorem Theory.Operates.ite_called (hT : T.Operates) (hs : Good T s) (hl : s.Usable T.D l f)
    (hr : s.Usable T.D r g) (hn : s.Usable T.D n h) :
    ∃ res, bddIte T.D T.isPrime l r n s = some res ∧
      Called T s (fun a => if f a then g a else h a) res := by
  unfold bddIte
  rw [checka_node hs hl.isNode, checka_node hs hr.isNode, checka_node hs hn.isNode]
  obtain ⟨tf, hof, hbf, hff⟩ := hs.operand hl
  obtain ⟨tg, hog, hbg, hfg⟩ := hs.operand hr
  obtain ⟨th, hoh, hbh, hfh⟩ := hs.operand hn
  exact operation_called hs (iteRec_computes (hT.quantifiers _ _).toOperators hs.initref hof hog
    hoh hbf hbg hbh tf.above_zero tg.above_zero th.above_zero (Setting.depth_bound _ 0))
    fun a => by rw [hff, hfg, hfh]

theorem bddNot_called (hs : Good (plain D isPrime) s) (hr : s.Usable D r f) :
    ∃ res, bddNot D isPrime r s = some res ∧
      Called (plain D isPrime) s (fun a => !f a) res :=
  (plain_operates D isPrime).not_called hs hr

theorem bddApply_called (hs : Good (plain D isPrime) s) (op : BddOp) (hl : s.Usable D l f)
    (hr : s.Usable D r g) :
    ∃ res, bddApply D isPrime l r op.code s = some res ∧
      Called (plain D isPrime) s (fun a => op.fn (f a) (g a)) res :=
  (plain_operates D isPrime).apply_called hs op hl hr

theorem bddIte_called (hs : Good (plain D isPrime) s) (hl : s.Usable D l f)
    (hr : s.Usable D r g) (hn : s.Usable D n h) :
    ∃ res, bddIte D isPrime l r n s = some res ∧
      Called (plain D isPrime) s (fun a => if f a then g a else h a) res :=
  (plain_operates D isPrime).ite_called hs hl hr hn

end

/-! ## Sets of variables -/

/-- The levels of a set that is given by the conjunction of its variables. -/
theorem highPath_iff {t : DTree (Leaf P)} {M : ℕ} {L : ℕ → Prop} (hs : t.Sorted M)
    (hred : t.Reduced) (hb : IsBool t)
    (h : ∀ x, evalBool t x = true ↔ ∀ k, L k → x k = true) (k : ℕ) :
    k ∈ t.highPath ↔ L k := by
  induction t generalizing L with
  | leaf l =>
    obtain ⟨b, rfl⟩ : ∃ b, l = .const b := by
      cases l with
      | const b => exact ⟨b, rfl⟩
      | value _ _ => exact hb.elim
    have hno : ∀ j, ¬ L j := by
      have htrue : evalBool (.leaf (.const b) : DTree (Leaf P)) (fun _ => true) = true :=
        (h _).mpr fun _ _ => rfl
      intro j hj
      exact Bool.false_ne_true ((h fun _ => false).mp htrue j hj)
    exact ⟨fun hk => absurd hk List.not_mem_nil, fun hk => absurd hk (hno k)⟩
  | node level low high ihl ihh =>
    obtain ⟨-, hal, hah, hsl, hsh⟩ := hs
    have hhigh : ∀ x, evalBool high x =
        evalBool (.node level low high) (Function.update x level true) := by
      intro x
      rw [evalBool_node, Function.update_self, if_pos rfl]
      unfold evalBool
      rw [DTree.eval_congr hsh hah fun j hj _ =>
        (Function.update_of_ne (Nat.ne_of_gt hj) _ _).symm]
    have hlow : ∀ x, evalBool low x =
        evalBool (.node level low high) (Function.update x level false) := by
      intro x
      rw [evalBool_node, Function.update_self, if_neg Bool.false_ne_true]
      unfold evalBool
      rw [DTree.eval_congr hsl hal fun j hj _ =>
        (Function.update_of_ne (Nat.ne_of_gt hj) _ _).symm]
    -- the function depends on the root's level, which is in the set therefore
    have hroot : L level := by
      by_contra hno
      refine hred.1 (DTree.ext hsl hred.2.1 hsh hred.2.2 fun x => ?_)
      rw [eval_of_isBool hb.1, eval_of_isBool hb.2, hlow, hhigh]
      refine congrArg Leaf.const (Bool.eq_iff_iff.mpr ?_)
      rw [h, h]
      refine forall₂_congr fun j hj => ?_
      have hne : j ≠ level := fun he => hno (he ▸ hj)
      rw [Function.update_of_ne hne, Function.update_of_ne hne]
    have hrest : ∀ x, evalBool high x = true ↔ ∀ j, (L j ∧ j ≠ level) → x j = true := by
      intro x
      rw [hhigh, h]
      constructor
      · intro hx j hj
        have := hx j hj.1
        rwa [Function.update_of_ne hj.2] at this
      · intro hx j hj
        rw [Function.update_apply]
        split
        · rfl
        · exact hx j ⟨hj, ‹_›⟩
    show k ∈ level :: high.highPath ↔ L k
    rw [List.mem_cons, ihh hsh hred.2.2 hb.2 hrest]
    constructor
    · rintro (rfl | hk)
      · exact hroot
      · exact hk.1
    · intro hk
      by_cases he : k = level
      · exact Or.inl he
      · exact Or.inr ⟨hk, he⟩

/-- A tree with levels below the bound does not depend on the others. -/
theorem evalBool_congr {t : DTree (Leaf P)} {M : ℕ} (h : t.Sorted M) {x y : ℕ → Bool}
    (hxy : ∀ l < M, x l = y l) : evalBool t x = evalBool t y := by
  unfold evalBool
  rw [DTree.eval_congr h t.above_zero fun j _ hj => hxy j hj]

/-- No other variable matters. -/
theorem OrderInv.set_lt (h : OrderInv s) {tv : DTree (Leaf P)} (hs : tv.Sorted s.env.bddvarnum)
    {V : List ℕ} (hf : ∀ a, evalBool tv (s.assign a) = V.all a) :
    ∀ v ∈ V, v < s.env.bddvarnum := by
  intro v hv
  by_contra hno
  have heq := evalBool_congr hs (x := s.assign fun _ => true)
    (y := s.assign fun w => decide (w ≠ v)) fun l hl => by
      have hlt := (h.var l hl).1
      exact (decide_eq_true (by omega : s.env.bddlevel2var l ≠ v)).symm
  rw [hf, hf, List.all_eq_true.mpr fun _ _ => rfl] at heq
  have := List.all_eq_true.mp heq.symm v hv
  rw [decide_eq_true_eq] at this
  exact this rfl

/-- The variables of a set, and their levels. -/
theorem Good.varset (hred : T.reduced) (h : Good T s) {var : ℕ} {V : List ℕ}
    {tv : DTree (Leaf P)} (hr : s.Reads T.D var tv) (hb : IsBool tv)
    (hf : ∀ a, evalBool tv (s.assign a) = V.all a) :
    ∀ k < s.env.bddvarnum, k ∈ tv.highPath ↔ s.env.bddlevel2var k ∈ V := by
  obtain ⟨flight, hi, -⟩ := h.inv.table
  have hg := h.inv.graph
  obtain ⟨hs, -⟩ := hg.sorted hr
  have hvars := h.order.set_lt hs hf
  have hconj : ∀ x, evalBool tv x = true ↔ ∀ k, (∃ v ∈ V, s.env.bddvar2level v = k) → x k = true := by
    intro x
    rw [evalBool_congr hs (y := s.assign fun v => x (s.env.bddvar2level v)) fun l hl =>
      (h.assign_level x hl).symm, hf, List.all_eq_true]
    constructor
    · rintro hx k ⟨v, hv, rfl⟩
      exact hx v hv
    · exact fun hx v hv => hx _ ⟨v, hv, rfl⟩
  intro k hk
  rw [highPath_iff hs (hg.reduced_reads hred hi hr hb) hb hconj]
  constructor
  · rintro ⟨v, hv, rfl⟩
    rw [(h.order.level v (hvars v hv)).2]
    exact hv
  · exact fun hv => ⟨_, hv, (h.order.var k hk).2⟩

/-- Quantifying over levels is quantifying over their variables. -/
theorem OrderInv.quantify (h : OrderInv s) {b : Bool} {F f : (ℕ → Bool) → Bool} {L V : ℕ → Prop}
    (hf : ∀ a, F (s.assign a) = f a)
    (hF : ∀ x y : ℕ → Bool, (∀ l < s.env.bddvarnum, x l = y l) → F x = F y)
    (hL : ∀ l < s.env.bddvarnum, L l ↔ V (s.env.bddlevel2var l)) (a : ℕ → Bool) :
    quantify L b F (s.assign a) = quantify V b f a := by
  apply eq_of_iff (b := b)
  rw [quantify_eq_iff, quantify_eq_iff]
  constructor
  · -- the assignment of the variables that a given one of the levels stands for
    rintro ⟨y, hy, hFy⟩
    let a' : ℕ → Bool := fun v => if v < s.env.bddvarnum then y (s.env.bddvar2level v) else a v
    refine ⟨a', fun v hv => ?_, ?_⟩
    · show (if v < s.env.bddvarnum then _ else _) = a v
      split
      · rename_i hlt
        obtain ⟨hl, hinv⟩ := h.level v hlt
        rw [hy _ (by rwa [hL _ hl, hinv])]
        show a (s.env.bddlevel2var (s.env.bddvar2level v)) = a v
        rw [hinv]
      · rfl
    · rw [← hf, hF _ y fun l hl => ?_]
      · exact hFy
      · obtain ⟨hlt, hinv⟩ := h.var l hl
        show (if s.env.bddlevel2var l < s.env.bddvarnum then _ else _) = y l
        rw [if_pos hlt, hinv]
  · rintro ⟨a', ha', hfa⟩
    let y : ℕ → Bool := fun l => if l < s.env.bddvarnum then s.assign a' l else s.assign a l
    refine ⟨y, fun l hl => ?_, ?_⟩
    · show (if l < s.env.bddvarnum then _ else _) = s.assign a l
      split
      · rename_i hlt
        exact ha' _ fun hv => hl ((hL l hlt).mpr hv)
      · rfl
    · rw [hF y (s.assign a') fun l hl => if_pos hl, hf]
      exact hfa

/-! ## The quantifications -/

/-- Marking the levels of a set leaves the diagram alone. -/
theorem Good.setMarks (h : Good T s) {marks : ℕ → ℤ} {id : ℤ}
    (hm : MarksInv (s.setMarks marks id) s.env.bddvarnum) : Good T (s.setMarks marks id) := by
  refine h.alike (h.inv.toCore.alike_rest _ s.errors) rfl (fun _ _ => rfl) hm ?_
  exact h.order.congr rfl rfl rfl rfl fun hp => ⟨hp.live, hp.key, hp.refcou⟩

theorem keeps_setMarks {marks : ℕ → ℤ} {id : ℤ} (h : s.Signed → (s.setMarks marks id).Signed) :
    Keeps D s (s.setMarks marks id) := by
  refine ⟨fun he => he, fun n hn => hn.imp_right fun hh => ?_, fun n t _ hr => ?_,
    fun _ _ => Nat.le_refl _, fun _ _ => rfl, ⟨rfl, rfl, rfl⟩, rfl, h⟩
  · exact BddState.Held.keep (fun _ _ => rfl) (fun _ _ => rfl) (List.Subset.refl _) hh
  · exact hr.congr fun m _ => ⟨rfl, fun _ _ => rfl⟩

theorem BddState.Referenced.held {n : ℕ} (h : s.Referenced n) : n < 2 ∨ s.Held n :=
  h.imp_right fun hh =>
    @BddState.Held.keep P s.initref s (fun _ _ => rfl) (fun _ _ => rfl) (List.nil_subset _) n hh

/-- What the marks of a set are good for: a recursion over the set that is right for the levels
is right for the variables. -/
theorem Theory.Operates.set_called (hT : T.Operates) (hs : Good T s) {var : ℕ} {V : List ℕ}
    {f : (ℕ → Bool) → Bool} (hvar : s.Usable T.D var fun a => V.all a) (hsmall : var < 2 ^ 22)
    (rec : ℕ → BddState P → Option (ℕ × BddState P)) {ops : List (DTree (Leaf P))}
    {F : DTree (Leaf P) → (ℕ → Bool) → Bool}
    (hrec : ∀ (s' : BddState P) (quantlast : ℕ) (tv : DTree (Leaf P)) (hs' : Good T s'),
      Keeps T.D s s' →
      VarSet (T.setting s'.env.bddvarnum hs'.num) s'.initref var tv quantlast →
      Returns (T.setting s'.env.bddvarnum hs'.num) s'.initref (Computes ops (F tv))
        (rec quantlast s'.initref))
    (hf : ∀ tv : DTree (Leaf P), tv.Sorted s.env.bddvarnum →
      (∀ k < s.env.bddvarnum, k ∈ tv.highPath ↔ s.env.bddlevel2var k ∈ V) →
      ∀ a, F tv (s.assign a) = f a) :
    ∃ p res, varset2vartable s var = some p ∧ operation T.isPrime (rec p.1) p.2 = some res ∧
      Called T s f res := by
  obtain ⟨href, tv, hreads, hb, hfun⟩ := hvar
  have hov := hs.inv.operand_of_reads href.held hreads
  obtain ⟨quantlast, marks, id, heq, hm, hmarked, hlast, hsigned⟩ :=
    varset2vartable_spec hov hb hs.marks rfl
  have hgood := hs.setMarks hm
  have hkeeps : Keeps T.D s (s.setMarks marks id) := keeps_setMarks hsigned
  have hov' : Operand (T.setting s.env.bddvarnum hgood.num) (s.setMarks marks id).initref var tv :=
    hgood.initref.operand_of_reads (hkeeps.referenced var href)
      (hreads.congr fun m _ => ⟨rfl, fun _ _ => rfl⟩)
  have hset : VarSet (T.setting s.env.bddvarnum hgood.num) (s.setMarks marks id).initref var tv
      quantlast := ⟨hov', hsmall, hmarked, hlast⟩
  obtain ⟨res, hres, hcalled⟩ := operation_called hgood
    (hrec (s.setMarks marks id) quantlast tv hgood hkeeps hset)
    fun a => hf tv hov.sorted (hs.varset hT.reduced hreads hb hfun) a
  exact ⟨_, res, heq, hres, hcalled.trans hkeeps⟩

/-- The constant among the sets is the empty one. -/
theorem BddState.Usable.varset_nil {var : ℕ} {V : List ℕ} (h : s.Usable D var fun a => V.all a)
    (hvar : var < 2) : V = [] := by
  obtain ⟨-, t, hr, -, hf⟩ := h
  obtain ⟨c, rfl⟩ : ∃ c : Bool, var = c.toNat := by
    match var, hvar with
    | 0, _ => exact ⟨false, rfl⟩
    | 1, _ => exact ⟨true, rfl⟩
  have ht : t = .leaf (.const c) := hr.unique (.const c)
  rw [ht] at hf
  -- the value of the constant at two assignments
  have htrue : c = true := (hf fun _ => true).trans (List.all_eq_true.mpr fun _ _ => rfl)
  have hfalse : V.all (fun _ => false) = true := (hf fun _ => false).symm.trans htrue
  cases V with
  | nil => rfl
  | cons v V => exact absurd hfalse Bool.false_ne_true

theorem quantify_nil (b : Bool) (f : (ℕ → Bool) → Bool) : quantify (· ∈ []) b f = f := by
  funext a
  apply quantify_eq_self
  intro y hy
  rw [funext fun v => hy v List.not_mem_nil]

section

variable {f g : (ℕ → Bool) → Bool} {l r var : ℕ} {V : List ℕ}

theorem Theory.Operates.quant_called (hT : T.Operates) (hs : Good T s) (b : Bool)
    (hr : s.Usable T.D r f) (hvar : s.Usable T.D var fun a => V.all a) (hsmall : var < 2 ^ 22) :
    ∃ res, bddQuant T.D T.isPrime (quantifier b) r var s = some res ∧
      Called T s (quantify (· ∈ V) b f) res := by
  unfold bddQuant
  rw [checka_node hs hr.isNode, checka_node hs hvar.isNode]
  dsimp only
  by_cases hconst : var < 2
  · rw [if_pos hconst, hvar.varset_nil hconst, quantify_nil]
    exact ⟨_, rfl, hs, .refl s, fun _ => hr.2⟩
  · rw [if_neg hconst]
    obtain ⟨href, t, hreads, hb, hf⟩ := hr
    have hsorted := (hs.operand_keeps (.refl s) href hreads).sorted
    obtain ⟨p, res, hp, hres, hcalled⟩ := hT.set_called hs hvar hsmall
      (fun quantlast => quantRec T.D T.isPrime (quantifier b).applyop
        (quantid var (quantifier b).cacheid) quantlast depth r)
      (fun s' quantlast tv hs' hk hset =>
        quantRec_quantify (hT.quantifiers _ _) (Or.inl rfl) hs'.initref hset
          (hs'.operand_keeps hk href hreads) hb t.above_zero (Setting.depth_bound _ 0))
      fun tv _ hlevels a => hs.order.quantify hf (fun x y => evalBool_congr hsorted) hlevels a
    rw [hp]
    exact ⟨res, hres, hcalled⟩

theorem Theory.Operates.appquant_called (hT : T.Operates) (hs : Good T s) (b : Bool) (op : BddOp)
    (hl : s.Usable T.D l f) (hr : s.Usable T.D r g) (hvar : s.Usable T.D var fun a => V.all a)
    (hsmall : var < 2 ^ 22) :
    ∃ res, bddAppquant T.D T.isPrime (quantifier b) l r op.code var s = some res ∧
      Called T s (quantify (· ∈ V) b fun a => op.fn (f a) (g a)) res := by
  unfold bddAppquant
  rw [checka_node hs hl.isNode, checka_node hs hr.isNode, checka_node hs hvar.isNode,
    op.ofCode_code]
  dsimp only
  by_cases hconst : var < 2
  · rw [if_pos hconst, hvar.varset_nil hconst, quantify_nil]
    exact hT.apply_called hs op hl hr
  · rw [if_neg hconst]
    obtain ⟨hrefl, tl, hreadsl, hbl, hfl⟩ := hl
    obtain ⟨hrefr, tr, hreadsr, hbr, hfr⟩ := hr
    have hsl := (hs.operand_keeps (.refl s) hrefl hreadsl).sorted
    have hsr := (hs.operand_keeps (.refl s) hrefr hreadsr).sorted
    obtain ⟨p, res, hp, hres, hcalled⟩ := hT.set_called hs hvar hsmall
      (fun quantlast => appquantRec T.D T.isPrime (quantifier b).applyop op
        (appexid var op.code (quantifier b).appKind)
        (appexQuantid var op.code (quantifier b).appKind (quantifier b).appCacheid) quantlast
        depth l r)
      (fun s' quantlast tv hs' hk hset =>
        appquantRec_quantify (hT.quantifiers _ _) rfl (Or.inr ⟨op, rfl⟩) hs'.initref hset
          (hs'.operand_keeps hk hrefl hreadsl) (hs'.operand_keeps hk hrefr hreadsr) hbl hbr
          tl.above_zero tr.above_zero (Setting.depth_bound _ 0))
      fun tv _ hlevels a => hs.order.quantify
        (F := fun x => op.fn (evalBool tl x) (evalBool tr x)) (fun a => by rw [hfl, hfr])
        (fun x y hxy => by rw [evalBool_congr hsl hxy, evalBool_congr hsr hxy]) hlevels a
    rw [hp]
    exact ⟨res, hres, hcalled⟩

theorem bddQuant_called (hs : Good (plain D isPrime) s) (b : Bool) (hr : s.Usable D r f)
    (hvar : s.Usable D var fun a => V.all a) (hsmall : var < 2 ^ 22) :
    ∃ res, bddQuant D isPrime (quantifier b) r var s = some res ∧
      Called (plain D isPrime) s (quantify (· ∈ V) b f) res :=
  (plain_operates D isPrime).quant_called hs b hr hvar hsmall

theorem bddAppquant_called (hs : Good (plain D isPrime) s) (b : Bool) (op : BddOp)
    (hl : s.Usable D l f) (hr : s.Usable D r g) (hvar : s.Usable D var fun a => V.all a)
    (hsmall : var < 2 ^ 22) :
    ∃ res, bddAppquant D isPrime (quantifier b) l r op.code var s = some res ∧
      Called (plain D isPrime) s (quantify (· ∈ V) b fun a => op.fn (f a) (g a)) res :=
  (plain_operates D isPrime).appquant_called hs b op hl hr hvar hsmall

end

end MoToBuddy.Bdd
