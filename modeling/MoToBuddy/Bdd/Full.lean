import MoToBuddy.Bdd.Cofactor
import MoToBuddy.Bdd.Parity
import MoToBuddy.Bdd.Replace
import MoToBuddy.Bdd.Satcount
import MoToBuddy.Bdd.Steps

/-!
# All operations on plain diagrams

`full` is the theory in which the caches hold results of all operations: those that share a cache
are told apart by their tags. What the results of `bdd_replace` and `bdd_veccompose` mean depends
on the pairs that they are for, which is what a `PairTable` remembers; a table can be extended by
an id that is new (`Good.extend`).

`Act` lists the calls that leave the order of the variables and the references of the user alone.
Such a call keeps what is referenced (`Act.preserved`).
-/

namespace MoToBuddy.Bdd

open Decision BoolFun

variable {P : Type*} {D : MtbddDomain P} {isPrime : ℕ → Bool} {T : Theory P} {σ σ' : PairTable P}
  {M : ℕ} {s s' : BddState P}

/-! ## The theory -/

/-- The caches hold results of the operations, and counts for `M` variables. -/
def fullEntry (D : MtbddDomain P) (σ : PairTable P) (M : ℕ) (s : BddState P)
    (e : BddCacheData) : CacheId → Prop
  | .apply => ApplyEntry D s e ∧ SimplifyEntry D s e
  | .ite => IteEntry D s e
  | .quant => QuantEntry D s e ∧ UniqueEntry D s e
  | .appex => AppexEntry D s e ∧ AppuniEntry D s e
  | .replace => ReplaceEntry D σ s e ∧ ComposeEntry D s e ∧ VeccomposeEntry D σ s e
  | .misc => RestrictEntry D s e ∧ ConstrainEntry D s e ∧ SatcouEntry D M s e
  | _ => True

/-- The theory of all operations. -/
def full (D : MtbddDomain P) (isPrime : ℕ → Bool) (σ : PairTable P) (M : ℕ) : Theory P where
  D := D
  isPrime := isPrime
  cache s k e := fullEntry D σ M s e k
  stable s s' k e hsame hok h := by
    have hreads : ∀ (n : ℕ) (t : DTree (Leaf P)), s.Reads D n t → s'.Reads D n t :=
      fun n t hr => hr.stable hsame
    cases k with
    | apply =>
      exact ⟨h.1.stable hsame hok,
        h.2.stable (fun _ _ ts => agreesWhere_lasting ts) (fun _ _ h => h) hsame hok⟩
    | ite => exact EntryFor.stable h hsame hok
    | quant =>
      exact ⟨h.1.stable hsame hok,
        h.2.stable (fun _ _ _ => Computes.lasting _ _) (fun _ _ => hreads _ _) hsame hok⟩
    | appex =>
      exact ⟨h.1.stable hsame hok,
        h.2.stable (fun _ _ _ => Computes.lasting _ _) (fun _ _ => hreads _ _) hsame hok⟩
    | replace =>
      exact ⟨h.1.stable (fun _ θ ts => renamesWith_lasting θ ts) (fun _ _ h => h) hsame hok,
        h.2.1.stable (fun _ _ _ => Computes.lasting _ _) (fun _ _ h => h) hsame hok,
        h.2.2.stable (fun _ θ ts => substitutesWith_lasting θ ts) (fun _ _ h => h) hsame hok⟩
    | misc =>
      exact ⟨h.1.stable (fun _ _ _ => Computes.lasting _ _) (fun _ _ => hreads _ _) hsame hok,
        h.2.1.stable (fun _ _ _ => Computes.lasting _ _) (fun _ _ h => h) hsame hok,
        h.2.2.stable hsame⟩
    | mtbddApply | mtbddIte | mtbddOperation => trivial
  reduced := True

/-! ## Tags -/

/-- A tag that no request has says nothing. -/
theorem TaggedEntry.of_not {ι α : Type*} {tag : ι → ℕ → Prop} {means : BddState P → ι → α → Prop}
    {args : ℕ → ℕ → List ℕ} {Q : ι → α → List (DTree (Leaf P)) → Prop → DTree (Leaf P) → Prop}
    {e : BddCacheData} (h : ∀ i, ¬ tag i e.c) : TaggedEntry D tag means args Q s e :=
  fun i hi => absurd hi (h i)

section

variable {e : BddCacheData}

theorem simplifyEntry_of_le (h : e.c ≤ bddopNot) : SimplifyEntry D s e :=
  TaggedEntry.of_not fun _ htag => by
    rw [htag] at h
    exact absurd h (by decide)

theorem applyEntry_of_simplify (h : e.c = bddopSimplify) : ApplyEntry D s e := by
  refine ⟨fun hnot => absurd (hnot.symm.trans h) (by decide), fun op hop => ?_⟩
  have hlt := op.code_lt
  rw [← hop, h] at hlt
  exact absurd hlt (by decide)

/-- The other kinds of the miscellaneous cache are not kinds of restrictions. -/
theorem RestrictTag.decode_ne {var c : ℕ} (h : RestrictTag var e.c) (hc : c % 8 ≠ 1) :
    ¬ e.c = c := by
  have := h.decode
  omega

theorem restrictEntry_of_mod (h : e.c % 8 ≠ 1) : RestrictEntry D s e :=
  TaggedEntry.of_not fun _ htag => htag.decode_ne h rfl

theorem constrainEntry_of_ne (h : ¬ e.c = cacheidConstrain.toNat) : ConstrainEntry D s e :=
  TaggedEntry.of_not fun _ h0 => h h0

theorem replaceEntry_of_tag {k id : ℕ} (hk : k < 4) (hne : k ≠ 0)
    (h : PairTag (.ofNat k) id e.c) : ReplaceEntry D σ s e :=
  TaggedEntry.of_not fun i htag => by
    have := h.decode hk
    have := PairTag.decode (k := 0) (by decide) htag
    omega

theorem composeEntry_of_tag {k id : ℕ} (hk : k < 4) (hne : k ≠ 1)
    (h : PairTag (.ofNat k) id e.c) : ComposeEntry D s e :=
  TaggedEntry.of_not fun i htag => by
    have := h.decode hk
    have := PairTag.decode (k := 1) (by decide) htag
    omega

theorem veccomposeEntry_of_tag {k id : ℕ} (hk : k < 4) (hne : k ≠ 2)
    (h : PairTag (.ofNat k) id e.c) : VeccomposeEntry D σ s e :=
  TaggedEntry.of_not fun i htag => by
    have := h.decode hk
    have := PairTag.decode (k := 2) (by decide) htag
    omega

end

section

variable {top : ℕ} {htop : top ≤ maxlevel}

theorem full_operators : ((full D isPrime σ M).setting top htop).Operators :=
  ⟨fun _ _ h => h.1, fun _ _ hle h => ⟨h, simplifyEntry_of_le hle⟩, fun _ _ => Iff.rfl⟩

theorem full_quantifiers : ((full D isPrime σ M).setting top htop).Quantifiers :=
  ⟨full_operators, fun _ _ h => h.1,
    fun _ _ _ _ hvar htag h => ⟨h, TaggedEntry.of_not fun _ h' => h'.2.not_quantTag htag h'.1 hvar⟩,
    fun _ _ h => h.1, fun _ _ _ _ _ hvar htag h =>
      ⟨h, TaggedEntry.of_not fun _ h' => h'.2.not_appexTag htag h'.1 hvar⟩⟩

theorem full_uniques : ((full D isPrime σ M).setting top htop).Uniques :=
  ⟨full_operators, fun _ _ h => h.2,
    fun _ _ _ h' h => ⟨fun _ _ hvar htag => (h'.2.not_quantTag htag h'.1 hvar).elim, h⟩,
    fun _ _ h => h.2,
    fun _ _ _ h' h => ⟨fun _ _ _ hvar htag => (h'.2.not_appexTag htag h'.1 hvar).elim, h⟩⟩

theorem full_cofactoring : ((full D isPrime σ M).setting top htop).Cofactoring :=
  ⟨full_operators, fun _ _ h => h.1,
    fun _ _ _ htag h => ⟨h, constrainEntry_of_ne fun h0 => htag.decode_ne (by decide) h0,
      fun h2 => (htag.decode_ne (by decide) h2).elim⟩,
    fun _ _ h => h.2.1,
    fun _ _ _ h0 h => ⟨restrictEntry_of_mod (by rw [h0]; decide), h,
      fun h2 => absurd (h0.symm.trans h2) (by decide)⟩,
    fun _ _ h => h.2, fun _ _ _ h11 h => ⟨applyEntry_of_simplify h11, h⟩⟩

theorem full_counting (htop : M ≤ maxlevel) :
    ((full D isPrime σ M).setting M htop).Counting :=
  ⟨fun _ _ h => h.2.2, fun _ _ h2 h => ⟨restrictEntry_of_mod (by rw [h2]; decide),
    constrainEntry_of_ne fun h0 => absurd (h0.symm.trans h2) (by decide), h⟩⟩

theorem full_substituting : ((full D isPrime σ M).setting top htop).Substituting σ :=
  ⟨full_operators, fun _ _ h => h.1,
    fun _ _ _ htag h => ⟨h, composeEntry_of_tag (k := 0) (by decide) (by decide) htag,
      veccomposeEntry_of_tag (k := 0) (by decide) (by decide) htag⟩,
    fun _ _ h => h.2.1,
    fun _ _ _ htag h => ⟨replaceEntry_of_tag (k := 1) (by decide) (by decide) htag, h,
      veccomposeEntry_of_tag (k := 1) (by decide) (by decide) htag⟩,
    fun _ _ h => h.2.2,
    fun _ _ _ htag h => ⟨replaceEntry_of_tag (k := 2) (by decide) (by decide) htag,
      composeEntry_of_tag (k := 2) (by decide) (by decide) htag, h⟩⟩

end

theorem full_operates (D : MtbddDomain P) (isPrime : ℕ → Bool) (σ : PairTable P) (M : ℕ) :
    (full D isPrime σ M).Operates := ⟨trivial, fun _ _ => full_quantifiers⟩

/-! ## Tables of pairs -/

/-- The theory only depends on the table of pairs and the number of variables where the caches are
valid. -/
theorem Good.retable {M' : ℕ} (h : Good (full D isPrime σ M) s)
    (hcache : ∀ k i, (s.caches k).isValid i = true → fullEntry D σ M s (s.entry k i) k →
      fullEntry D σ' M' s (s.entry k i) k) : Good (full D isPrime σ' M') s := by
  obtain ⟨htable, hg, hsound⟩ := h.inv.toCore
  exact ⟨h.num, ⟨⟨htable, ⟨hg.child, hg.order, hg.value, hg.reduced, hg.stack⟩,
    fun k i hv => hcache k i hv (hsound k i hv)⟩, h.inv.top⟩, h.marks, h.order⟩

/-- There are no results for an id that is not in the table, so that it can be given to a pair. -/
theorem Good.extend (h : Good (full D isPrime σ M) s) (hσ : ∀ id θ, σ id = some θ → σ' id = some θ) :
    Good (full D isPrime σ' M) s := by
  refine h.retable fun k i _ he => ?_
  cases k with
  | replace =>
    obtain ⟨hr, hc, hv⟩ := he
    exact ⟨fun id htag => (hr id htag).imp fun θ hθ => ⟨hσ id θ hθ.1, hθ.2⟩, hc,
      fun id htag => (hv id htag).imp fun θ hθ => ⟨hσ id θ hθ.1, hθ.2⟩⟩
  | apply | ite | quant | appex | misc => exact he
  | mtbddApply | mtbddIte | mtbddOperation => trivial

/-- After a flush any table will do. -/
theorem Good.flushed (h : Good (full D isPrime σ M) s)
    (hflush : ∀ k i, (s.caches k).isValid i = false) (σ' : PairTable P) (M' : ℕ) :
    Good (full D isPrime σ' M') s :=
  h.retable fun k i hv => absurd (hv.symm.trans (hflush k i)) (by simp)

/-- Only the miscellaneous cache holds counts. -/
theorem Good.recounted (h : Good (full D isPrime σ M) s)
    (hflush : ∀ i, (s.caches .misc).isValid i = false) (M' : ℕ) :
    Good (full D isPrime σ M') s := by
  refine h.retable fun k i hv he => ?_
  cases k with
  | misc => exact absurd (hv.symm.trans (hflush i)) (by simp)
  | apply | ite | quant | appex | replace => exact he
  | mtbddApply | mtbddIte | mtbddOperation => trivial

/-- An entry that the operations do not look at. -/
theorem Good.storeForeign_full (h : Good (full D isPrime σ M) s) {k : CacheId} {e : BddCacheData}
    (he : (full D isPrime (fun _ => none) M).Foreign k e) (i : ℕ) :
    Good (full D isPrime σ M) (s.store k i e) := by
  refine h.storeForeign (T := full D isPrime σ M) (fun s g => ?_) i
  have hnone : fullEntry D (fun _ => none) M s { e with generation := g } k := he s g
  show fullEntry D σ M s { e with generation := g } k
  cases k with
  | replace =>
    obtain ⟨hr, hc, hv⟩ := hnone
    exact ⟨fun id htag => (hr id htag).elim fun _ hθ => absurd hθ.1 (by simp), hc,
      fun id htag => (hv id htag).elim fun _ hθ => absurd hθ.1 (by simp)⟩
  | apply | ite | quant | appex | misc => exact hnone
  | mtbddApply | mtbddIte | mtbddOperation => trivial

/-! ## What calls keep -/

/-- The session stays well formed, and what is referenced stays. -/
structure Preserved (T : Theory P) (s s' : BddState P) : Prop where
  good : Good T s'
  keeps : Keeps T.D s s'

theorem Called.preserved {f : (ℕ → Bool) → Bool} {r : ℕ × BddState P} (h : Called T s f r) :
    Preserved T s r.2 := ⟨h.good, h.keeps⟩

/-- Steps of a recursion keep what is referenced from outside of the stack. -/
theorem Evo.referenced (h : Evo D s s') : Keeps D s s' := by
  have hsub : ∀ {n : ℕ}, s.initref.Held n → s.Held n := fun hn =>
    @BddState.Held.keep P s.initref s (fun _ _ => rfl) (fun _ _ => rfl) (List.nil_subset _) _ hn
  have hheld : ∀ n, s.initref.Held n → s'.initref.Held n := fun n hn =>
    @BddState.Held.keep P s.initref s'.initref (fun m hm => (h.same m (hsub hm)).key) h.refcou
      (List.Subset.refl _) n hn
  refine ⟨h.errorcond, fun n hn => hn.imp_right (hheld n), fun n t hn hr => ?_,
    fun n hn => (h.refcou n hn).ge, h.const, by rw [h.env]; exact ⟨rfl, rfl, rfl⟩,
    by rw [h.env], fun hm => ?_⟩
  · refine hr.congr fun m hm => ?_
    rcases hn.held with h2 | hh
    · have hlive := (BddState.live_iff.mp hm.live_left).1
      omega
    · obtain ⟨r, hr, hrn⟩ := hh
      exact h.same m ⟨r, hr, hrn.trans hm⟩
  · unfold BddState.Signed
    rw [h.env]
    exact hm

theorem Good.preserved_evo (h : Good T s) (hc : Core (T.setting s.env.bddvarnum h.num) s')
    (he : Evo T.D s s') : Preserved T s s' := ⟨h.evo hc he, he.referenced⟩

/-- A change of what does not belong to the diagram, and is not read by the operations. -/
theorem Preserved.of_same (hg : Good T s') (hok : s'.bdderrorcond = s.bdderrorcond)
    (hnodes : s'.bddnodes = s.bddnodes) (hterminals : s'.terminals = s.terminals)
    (horder : s'.env.bddlevel2var = s.env.bddlevel2var ∧
      s'.env.bddvar2level = s.env.bddvar2level ∧ s'.env.bddvarset = s.env.bddvarset)
    (hnum : s'.env.bddvarnum = s.env.bddvarnum)
    (hmarks : s'.env.quantvarset = s.env.quantvarset ∧
      s'.env.quantvarsetID = s.env.quantvarsetID) : Preserved T s s' := by
  have hkey : ∀ n, s'.key n = s.key n := fun n => congrArg (fun f => (f n).key) hnodes
  have hrefcou : ∀ n, (s'.bddnodes n).refcou = (s.bddnodes n).refcou := fun n => by rw [hnodes]
  refine ⟨hg, fun he => hok.symm.trans he, fun n hn => hn.imp_right fun hh => ?_,
    fun n t _ hr => hr.congr fun m _ => ⟨hkey m, fun _ _ => by rw [hterminals]⟩,
    fun n _ => (hrefcou n).ge, fun n _ => congrArg BddKey.level (hkey n), horder, hnum,
    fun hm => ?_⟩
  · exact @BddState.Held.keep P s.initref s'.initref (fun m _ => hkey m) (fun m _ => hrefcou m)
      (List.Subset.refl _) n hh
  · unfold BddState.Signed at hm ⊢
    rw [hmarks.1, hmarks.2, hnum]
    exact hm

theorem Good.preserved_error (h : Good T s) (e : BddError) : Preserved T s (s.error e) :=
  .of_same (h.error e) rfl rfl rfl ⟨rfl, rfl, rfl⟩ rfl ⟨rfl, rfl⟩

theorem Good.preserved_stack (h : Good T s) {l : List ℕ} (hl : ∀ n ∈ l, s.IsNode n) :
    Preserved T s { s with bddrefstack := l } :=
  .of_same (h.restack hl) rfl rfl rfl ⟨rfl, rfl, rfl⟩ rfl ⟨rfl, rfl⟩

/-- A call with an id that is no node reports an error. -/
theorem checka_preserved (h : Good T s) {n res : ℕ} {body : BddState P → Option (ℕ × BddState P)}
    (hbody : s.IsNode n → body s = some (res, s') → Preserved T s s')
    (hc : checka n body s = some (res, s')) : Preserved T s s' := by
  by_cases hn : s.IsNode n
  · rw [checka_node h hn] at hc
    exact hbody hn hc
  · rw [checka_not_node hn] at hc
    have heq : s.error .illbdd = s' := congrArg Prod.snd (Option.some.inj hc)
    exact heq ▸ h.preserved_error .illbdd

/-- A result that an operation is known to have. -/
theorem Preserved.of_eq {res : ℕ} {o : Option (ℕ × BddState P)}
    (h : ∃ r, o = some r ∧ Preserved T s r.2) (heq : o = some (res, s')) : Preserved T s s' := by
  obtain ⟨r, hr, hk⟩ := h
  rw [hr] at heq
  have hrs : r = (res, s') := Option.some.inj heq
  rw [hrs] at hk
  exact hk

theorem Called.preserved_of_eq {f : (ℕ → Bool) → Bool} {res : ℕ} {o : Option (ℕ × BddState P)}
    (h : ∃ r, o = some r ∧ Called T s f r) (heq : o = some (res, s')) : Preserved T s s' :=
  Preserved.of_eq (h.imp fun _ hr => ⟨hr.1, hr.2.preserved⟩) heq

theorem Returns.preserved_of_eq (h : Good T s) {Q : Prop → DTree (Leaf P) → Prop} {res : ℕ}
    {o : Option (ℕ × BddState P)}
    (hret : Returns (T.setting s.env.bddvarnum h.num) s Q o) (heq : o = some (res, s')) :
    Preserved T s s' :=
  Preserved.of_eq (hret.imp fun _ hr => ⟨hr.1, h.preserved_evo hr.2.inv.toCore hr.2.evo⟩) heq

/-! ## Calls -/

/-- What the caller passes as a cube, with the bound that keeps the tags apart. -/
def BddState.FitCube (D : MtbddDomain P) (s : BddState P) (n : ℕ) : Prop :=
  s.IsNode n → n < 2 ^ 28 ∧ ∃ C : List (ℕ × Bool), (C.map Prod.fst).Nodup ∧
    s.Usable D n (Literals C)

/-- A call that leaves the order and the user's references alone, or a step of one. -/
inductive Act (D : MtbddDomain P) (isPrime : ℕ → Bool) (s : BddState P) : BddState P → Prop
  | limits (maxnodesize maxnodeincrease minfreenodes : ℕ) :
      Act D isPrime s { s with env := { s.env with
        bddmaxnodesize := maxnodesize
        bddmaxnodeincrease := maxnodeincrease
        minfreenodes := minfreenodes } }
  | cacheratio (ratio : ℕ) : Act D isPrime s
      (operatorNoderesize isPrime { s with env := { s.env with cacheratio := ratio } })
  | addref (n : ℕ) (hn : s.IsNode n) : Act D isPrime s (bddAddref s n)
  | gbc : Act D isPrime s (bddGbc D s)
  | not (r res : ℕ) (s' : BddState P) (hr : s.Fit D r)
      (h : bddNot D isPrime r s = some (res, s')) : Act D isPrime s s'
  | apply (l r op res : ℕ) (s' : BddState P) (hl : s.Fit D l) (hr : s.Fit D r)
      (h : bddApply D isPrime l r op s = some (res, s')) : Act D isPrime s s'
  | ite (f g h res : ℕ) (s' : BddState P) (hf : s.Fit D f) (hg : s.Fit D g) (hh : s.Fit D h)
      (h : bddIte D isPrime f g h s = some (res, s')) : Act D isPrime s s'
  | quant (q : Quantifier) (r var res : ℕ) (s' : BddState P) (hr : s.Fit D r)
      (hvar : s.FitSet D var) (h : bddQuant D isPrime q r var s = some (res, s')) :
      Act D isPrime s s'
  | appquant (q : Quantifier) (l r opr var res : ℕ) (s' : BddState P) (hl : s.Fit D l)
      (hr : s.Fit D r) (hvar : s.FitSet D var)
      (h : bddAppquant D isPrime q l r opr var s = some (res, s')) : Act D isPrime s s'
  | restrict (r var res : ℕ) (s' : BddState P) (hr : s.Fit D r) (hvar : s.FitCube D var)
      (hid : s.env.quantvarsetID + 1 < intMax)
      (h : bddRestrict D isPrime r var s = some (res, s')) : Act D isPrime s s'
  | constrain (f c res : ℕ) (s' : BddState P) (hf : s.Fit D f) (hc : s.Fit D c)
      (h : bddConstrain D isPrime f c s = some (res, s')) : Act D isPrime s s'
  | simplify (f d res : ℕ) (s' : BddState P) (hf : s.Fit D f) (hd : s.Fit D d)
      (h : bddSimplify D isPrime f d s = some (res, s')) : Act D isPrime s s'
  | compose (f g : ℕ) (var : ℤ) (res : ℕ) (s' : BddState P) (hf : s.Fit D f) (hg : s.Fit D g)
      (h : bddCompose D isPrime f g var s = some (res, s')) : Act D isPrime s s'
  | satcount (r count : ℕ) (s' : BddState P) (hr : s.IsNode r → ∃ f, s.Represents D r f)
      (h : bddSatcount r s = some (count, s')) : Act D isPrime s s'
  -- the steps of the operations that are not modelled
  | initref : Act D isPrime s s.initref
  | pushref (n : ℕ) (hn : s.IsNode n) : Act D isPrime s (s.pushref n)
  | popref (k : ℕ) : Act D isPrime s (s.popref k)
  | makenode (level low high : ℕ) (hlevel : level < s.env.bddvarnum)
      (hchild : ∀ m ∈ [low, high], (m < 2 ∨ s.Held m) ∧ (m < 2 ∨ level < s.level m)) :
      Act D isPrime s (bddMakenode D isPrime s level low high).2
  | notRec (r res : ℕ) (s' : BddState P) (hr : s.InUse D r)
      (h : notRec D isPrime depth r s = some (res, s')) : Act D isPrime s s'
  | applyRec (op : BddOp) (l r res : ℕ) (s' : BddState P) (hl : s.InUse D l) (hr : s.InUse D r)
      (h : applyRec D isPrime op depth l r s = some (res, s')) : Act D isPrime s s'
  | iteRec (f g h res : ℕ) (s' : BddState P) (hf : s.InUse D f) (hg : s.InUse D g)
      (hh : s.InUse D h) (h : iteRec D isPrime depth f g h s = some (res, s')) :
      Act D isPrime s s'
  | store (k : CacheId) (i : ℕ) (e : BddCacheData)
      (he : (full D isPrime (fun _ => none) s.env.bddvarnum).Foreign k e) :
      Act D isPrime s (s.store k i e)
  | checkresize : Act D isPrime s (checkresize isPrime s)
  | error (e : BddError) : Act D isPrime s (s.error e)

section

variable {res : ℕ}

theorem bddQuant_preserved (hs : Good (full D isPrime σ M) s) {q : Quantifier} {r var : ℕ}
    (hr : s.Fit D r) (hvar : s.FitSet D var)
    (h : bddQuant D isPrime q r var s = some (res, s')) : Preserved (full D isPrime σ M) s s' := by
  have hT := full_operates D isPrime σ M
  refine checka_preserved hs (fun hnr => checka_preserved hs fun hnv _ => ?_) h
  obtain ⟨f, hf⟩ := hr hnr
  obtain ⟨hsmall, V, hV⟩ := hvar hnv
  have hpair : ∀ b, bddQuant D isPrime (quantifier b) r var s = some (res, s') →
      Preserved (full D isPrime σ M) s s' := fun b =>
    Called.preserved_of_eq (hT.quant_called hs b hf hV hsmall)
  cases q with
  | exist => exact hpair true h
  | forall_ => exact hpair false h
  | unique =>
    obtain ⟨t, ht, -⟩ := hf.2
    exact Called.preserved_of_eq
      (hT.unique_called (fun _ _ => full_uniques) hs hf hV hsmall ht) h

theorem bddAppquant_preserved (hs : Good (full D isPrime σ M) s) {q : Quantifier}
    {l r opr var : ℕ} (hl : s.Fit D l) (hr : s.Fit D r) (hvar : s.FitSet D var)
    (h : bddAppquant D isPrime q l r opr var s = some (res, s')) :
    Preserved (full D isPrime σ M) s s' := by
  have hT := full_operates D isPrime σ M
  refine checka_preserved hs (fun hnl => checka_preserved hs fun hnr =>
    checka_preserved hs fun hnv hc => ?_) h
  cases hop : BddOp.ofCode opr with
  | none =>
    rw [hop] at hc
    have heq : s.error .op = s' := congrArg Prod.snd (Option.some.inj hc)
    exact heq ▸ hs.preserved_error .op
  | some o =>
    obtain ⟨f, hf⟩ := hl hnl
    obtain ⟨g, hg⟩ := hr hnr
    obtain ⟨hsmall, V, hV⟩ := hvar hnv
    rw [BddOp.code_of_ofCode hop] at h
    have hpair : ∀ b, bddAppquant D isPrime (quantifier b) l r o.code var s = some (res, s') →
        Preserved (full D isPrime σ M) s s' := fun b =>
      Called.preserved_of_eq (hT.appquant_called hs b o hf hg hV hsmall)
    cases q with
    | exist => exact hpair true h
    | forall_ => exact hpair false h
    | unique =>
      obtain ⟨t, ht, -⟩ := hf.2
      obtain ⟨u, hu, -⟩ := hg.2
      exact Called.preserved_of_eq
        (hT.appuni_called (fun _ _ => full_uniques) hs o hf hg hV hsmall ht hu) h

theorem bddRestrict_preserved (hs : Good (full D isPrime σ M) s) (hsigned : s.Signed) {r var : ℕ}
    (hr : s.Fit D r) (hvar : s.FitCube D var) (hid : s.env.quantvarsetID + 1 < intMax)
    (h : bddRestrict D isPrime r var s = some (res, s')) :
    Preserved (full D isPrime σ M) s s' := by
  refine checka_preserved hs (fun hnr => checka_preserved hs fun hnv _ => ?_) h
  obtain ⟨f, hf⟩ := hr hnr
  obtain ⟨hsmall, C, hC, hcube⟩ := hvar hnv
  obtain ⟨r', hr', hanswered, hgood⟩ := (full_operates D isPrime σ M).restrict_called
    (fun _ _ => full_cofactoring) hs hsigned hf hC hcube hsmall
  exact Preserved.of_eq ⟨r', hr', hgood hid, hanswered.keeps⟩ h

theorem bddConstrain_preserved (hs : Good (full D isPrime σ M) s) {f c : ℕ} (hf : s.Fit D f)
    (hc : s.Fit D c) (h : bddConstrain D isPrime f c s = some (res, s')) :
    Preserved (full D isPrime σ M) s s' := by
  refine checka_preserved hs (fun hnf => checka_preserved hs fun hnc hop => ?_) h
  obtain ⟨ff, hff⟩ := hf hnf
  obtain ⟨fc, hrefc, t, hreads, hb, -⟩ := hc hnc
  by_cases hz : c = 0
  · subst hz
    obtain ⟨b, hrec⟩ := constrainRec_zero D isPrime maxlevel f s.initref
    have hpost : Post ((full D isPrime σ M).setting s.env.bddvarnum hs.num) s.initref
        (fun _ _ => True) (b.toNat, s.initref) := .const hs.initref b trivial
    obtain ⟨r', hr', hfin⟩ := operation_finished (T := full D isPrime σ M) hs.sane
      ⟨_, hrec, hpost⟩
    exact Preserved.of_eq ⟨r', hr', hfin.good hs.marks, hfin.keeps⟩ hop
  · exact Called.preserved_of_eq ((full_operates D isPrime σ M).constrain_called
      (fun _ _ => full_cofactoring) hs hff hrefc hreads hb hz) h

theorem bddCompose_preserved (hs : Good (full D isPrime σ M) s) {f g : ℕ} {var : ℤ}
    (hf : s.Fit D f) (hg : s.Fit D g) (h : bddCompose D isPrime f g var s = some (res, s')) :
    Preserved (full D isPrime σ M) s s' := by
  refine checka_preserved hs (fun hnf => checka_preserved hs fun hng hop => ?_) h
  by_cases hvar : var < 0 ∨ var ≥ s.env.bddvarnum
  · rw [if_pos hvar] at hop
    have heq : s.error .var = s' := congrArg Prod.snd (Option.some.inj hop)
    exact heq ▸ hs.preserved_error .var
  · obtain ⟨ff, hff⟩ := hf hnf
    obtain ⟨fg, hfg⟩ := hg hng
    obtain ⟨v, rfl⟩ : ∃ v : ℕ, var = v := ⟨var.toNat, by omega⟩
    exact Called.preserved_of_eq (bddCompose_called (fun _ _ => full_substituting) hs hff hfg
      (by omega)) h

/-- A call keeps the session well formed and all that is referenced, as long as nothing was
reported. -/
theorem Act.preserved (hs : Good (full D isPrime σ s.env.bddvarnum) s) (hsigned : s.Signed)
    (hlev : s.Leveled) (ha : Act D isPrime s s') :
    Preserved (full D isPrime σ s.env.bddvarnum) s s' := by
  have hT := full_operates D isPrime σ s.env.bddvarnum
  have hops := @full_operators P D isPrime σ s.env.bddvarnum _ hs.num
  cases ha with
  | limits a b c =>
    exact .of_same (hs.limits a b c s.env.cacheratio) rfl rfl rfl ⟨rfl, rfl, rfl⟩ rfl ⟨rfl, rfl⟩
  | cacheratio ratio =>
    have hgood : Good (full D isPrime σ s.env.bddvarnum) _ := (hs.limits s.env.bddmaxnodesize
      s.env.bddmaxnodeincrease s.env.minfreenodes ratio).noderesize
    refine .of_same hgood ?_ ?_ ?_ ?_ ?_ ?_ <;> unfold operatorNoderesize <;> split <;>
      first | rfl | exact ⟨rfl, rfl, rfl⟩ | exact ⟨rfl, rfl⟩
  | addref n hn => exact ⟨hs.addref n, (addref_keeps hs hn).1⟩
  | gbc =>
    obtain ⟨hc, he⟩ := bddGbc_core hs.inv.toCore
    exact hs.preserved_evo hc he
  | not r res _ hr h =>
    refine checka_preserved hs (fun hn _ => ?_) h
    obtain ⟨f, hf⟩ := hr hn
    exact Called.preserved_of_eq (hT.not_called hs hf) h
  | apply l r op res _ hl hr h =>
    refine checka_preserved hs (fun hnl => checka_preserved hs fun hnr hc => ?_) h
    cases hop : BddOp.ofCode op with
    | none =>
      rw [hop] at hc
      have heq : s.error .op = s' := congrArg Prod.snd (Option.some.inj hc)
      exact heq ▸ hs.preserved_error .op
    | some o =>
      obtain ⟨f, hf⟩ := hl hnl
      obtain ⟨g, hg⟩ := hr hnr
      rw [BddOp.code_of_ofCode hop] at h
      exact Called.preserved_of_eq (hT.apply_called hs o hf hg) h
  | ite f g h res _ hf hg hh heq =>
    refine checka_preserved hs (fun hnf => checka_preserved hs fun hng =>
      checka_preserved hs fun hnh _ => ?_) heq
    obtain ⟨ff, hff⟩ := hf hnf
    obtain ⟨fg, hfg⟩ := hg hng
    obtain ⟨fh, hfh⟩ := hh hnh
    exact Called.preserved_of_eq (hT.ite_called hs hff hfg hfh) heq
  | quant q r var res _ hr hvar h => exact bddQuant_preserved hs hr hvar h
  | appquant q l r opr var res _ hl hr hvar h => exact bddAppquant_preserved hs hl hr hvar h
  | restrict r var res _ hr hvar hid h => exact bddRestrict_preserved hs hsigned hr hvar hid h
  | constrain f c res _ hf hc h => exact bddConstrain_preserved hs hf hc h
  | simplify f d res _ hf hd h =>
    refine checka_preserved hs (fun hnf => checka_preserved hs fun hnd _ => ?_) h
    obtain ⟨ff, hff⟩ := hf hnf
    obtain ⟨fd, hfd⟩ := hd hnd
    obtain ⟨r, k, hr, hc, -⟩ := bddSimplify_called (fun _ _ => full_cofactoring) hs hff hfd
    exact Called.preserved_of_eq ⟨r, hr, hc⟩ h
  | compose f g var res _ hf hg h => exact bddCompose_preserved hs hf hg h
  | satcount r count _ hr h =>
    refine checka_preserved hs (fun hn _ => ?_) h
    obtain ⟨f, t, hreads, hb, -⟩ := hr hn
    obtain ⟨r', hr', hgood, ⟨C, hC⟩, -⟩ := bddSatcount_counted (fun htop => full_counting htop) hs
      hlev hreads hb
    have hp : Preserved (full D isPrime σ s.env.bddvarnum) s r'.2 := .of_same hgood (by rw [hC])
      (by rw [hC]) (by rw [hC]) (by rw [hC]; exact ⟨rfl, rfl, rfl⟩) (by rw [hC])
      (by rw [hC]; exact ⟨rfl, rfl⟩)
    exact .of_eq ⟨r', hr', hp⟩ h
  | initref => exact hs.preserved_stack fun n hn => absurd hn List.not_mem_nil
  | pushref n hn =>
    refine hs.preserved_stack fun m hm => ?_
    rcases List.mem_cons.mp hm with rfl | hm
    · exact hn
    · exact hs.inv.graph.stack m hm
  | popref k =>
    exact hs.preserved_stack fun n hn => hs.inv.graph.stack n (List.mem_of_mem_drop hn)
  | makenode level low high hlevel hchild =>
    obtain ⟨hcore, flight, hm⟩ := bddMakenode_core hs.inv.toCore hlevel hchild
    exact hs.preserved_evo hcore hm.evo
  | notRec r res _ hr h =>
    obtain ⟨t, ho, hb⟩ := hr.operand hs.inv
    exact Returns.preserved_of_eq hs
      (notRec_computes hops hs.inv ho hb t.above_zero (Setting.depth_bound _ 0)) h
  | applyRec op l r res _ hl hr h =>
    obtain ⟨tl, hol, hbl⟩ := hl.operand hs.inv
    obtain ⟨tr, hor, hbr⟩ := hr.operand hs.inv
    exact Returns.preserved_of_eq hs (applyRec_computes hops op hs.inv hol hor hbl hbr
      tl.above_zero tr.above_zero (Setting.depth_bound _ 0)) h
  | iteRec f g h res _ hf hg hh heq =>
    obtain ⟨tf, hof, hbf⟩ := hf.operand hs.inv
    obtain ⟨tg, hog, hbg⟩ := hg.operand hs.inv
    obtain ⟨th, hoh, hbh⟩ := hh.operand hs.inv
    exact Returns.preserved_of_eq hs (iteRec_computes hops hs.inv hof hog hoh hbf hbg hbh
      tf.above_zero tg.above_zero th.above_zero (Setting.depth_bound _ 0)) heq
  | store k i e he =>
    exact .of_same (hs.storeForeign_full he i) rfl rfl rfl ⟨rfl, rfl, rfl⟩ rfl ⟨rfl, rfl⟩
  | checkresize =>
    have hgood := hs.checkresize
    obtain ⟨C, hC⟩ := checkresize_eq isPrime s
    have hC' : Bdd.checkresize (full D isPrime σ s.env.bddvarnum).isPrime s = _ := hC
    rw [hC'] at hgood
    rw [hC]
    exact .of_same hgood rfl rfl rfl ⟨rfl, rfl, rfl⟩ rfl ⟨rfl, rfl⟩
  | error e => exact hs.preserved_error e

end

end MoToBuddy.Bdd
