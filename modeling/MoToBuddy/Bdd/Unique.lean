import MoToBuddy.Bdd.Maketerminal

/-!
# The unique table in sessions with terminals

`TableCall` lists the calls that work on the node table, and `Session` the states that they lead
to, whatever errors they report on the way. `Sound` is what every call keeps.

* `session_uniqueTable`: chains, free list and nodes are as they should be, as long as no value
  that differs from itself is stored twice.
* `not_uniqueTable_nan`: `mtbdd_findterminal` compares with `==`, so it never finds a NaN.
-/

namespace MoToBuddy.Bdd

open Chained Slots

variable {P : Type*} {D : MtbddDomain P} {isPrime : ℕ → Bool} {flight : List ℕ}
  {s s' : BddState P}

/-! ## Calls -/

/-- The calls that work on the node table, and the limits that they obey. -/
inductive TableCall (P : Type*)
  | setvarnum (num : ℕ)
  | setmaxnodenum (size : ℤ)
  | setmaxincrease (size : ℤ)
  | setminfreenodes (mf : ℤ)
  | makenode (level low high : ℕ)
  | maketerminal (value : P) (type : ℕ)
  | addref (root : ℕ)
  | delref (root : ℕ)
  | gbc
  | noderesize
  | pushref (n : ℕ)
  | popref (k : ℕ)
  | clearError

/-- The state after a call. -/
def TableCall.apply (D : MtbddDomain P) (isPrime : ℕ → Bool) (s : BddState P) :
    TableCall P → BddState P
  | .setvarnum num => bddSetvarnum D isPrime s num
  | .setmaxnodenum size => bddSetmaxnodenum s size
  | .setmaxincrease size => bddSetmaxincrease s size
  | .setminfreenodes mf => bddSetminfreenodes s mf
  | .makenode level low high => (bddMakenode D isPrime s level low high).2
  | .maketerminal value type => ((mtbddMaketerminal D isPrime s value type).map Prod.snd).getD s
  | .addref root => bddAddref s root
  | .delref root => bddDelref s root
  | .gbc => bddGbc D s
  | .noderesize => bddNoderesize D isPrime s
  | .pushref n => s.pushref n
  | .popref k => s.popref k
  | .clearError => bddClearError s

/-- The levels from `MAXLEVEL` on are not for decisions, and the types of custom terminals are
those that were registered. -/
def TableCall.Valid (D : MtbddDomain P) : TableCall P → Prop
  | .makenode level _ _ => level < maxlevel
  | .maketerminal _ type => D.domaintype = .custom → type < D.typeNumber
  | _ => True

/-- The states that calls lead to, each of them made in a state that suits it. -/
inductive Session (D : MtbddDomain P) (isPrime : ℕ → Bool)
    (Suits : BddState P → TableCall P → Prop) : BddState P → Prop
  | init {size : ℕ} (cachesize : ℕ) (hsize : GoodSize isPrime size) :
      Session D isPrime Suits (bddInit size cachesize)
  | call {s : BddState P} (a : TableCall P) (before : Session D isPrime Suits s)
      (valid : a.Valid D) (suits : Suits s a) : Session D isPrime Suits (a.apply D isPrime s)

/-! ## The invariant -/

/-- What holds between any two calls. -/
structure Sound (D : MtbddDomain P) (isPrime : ℕ → Bool) (s : BddState P) : Prop where
  table : ∃ flight, TableInv D isPrime flight s
  check : s.checkSameChildren = true
  differ : ∀ n low high level, s.live n = true → s.key n = ⟨some low, high, level⟩ →
    level ≠ maxlevel → low ≠ high

/-- What a call keeps that makes no terminal: all terminals are from before. -/
structure Clean (D : MtbddDomain P) (isPrime : ℕ → Bool) (s s' : BddState P) : Prop where
  sound : Sound D isPrime s'
  old : ∀ n, s'.live n = true → (s'.key n).level = maxlevel →
    s.live n = true ∧ SameNode D s s' n

theorem Clean.refl (h : Sound D isPrime s) : Clean D isPrime s s :=
  ⟨h, fun n hn _ => ⟨hn, .refl s n⟩⟩

theorem Clean.trans {s'' : BddState P} (h : Clean D isPrime s s') (h' : Clean D isPrime s' s'') :
    Clean D isPrime s s'' := by
  refine ⟨h'.sound, fun n hn hlevel => ?_⟩
  obtain ⟨hn', hsame'⟩ := h'.old n hn hlevel
  rw [hsame'.key] at hlevel
  obtain ⟨hn'', hsame⟩ := h.old n hn' hlevel
  exact ⟨hn'', hsame.trans hsame'⟩

/-- A table that only has nodes that were there before, and perhaps one more. -/
theorem Sound.grow (h : Sound D isPrime s) (hi : ∃ flight, TableInv D isPrime flight s')
    (hcheck : s'.checkSameChildren = s.checkSameChildren) {r : ℕ}
    (hback : ∀ n, s'.live n = true → Kept D s s' n ∨ n = r)
    (hnew : ∀ low high level, s'.live r = true → s'.key r = ⟨some low, high, level⟩ →
      level ≠ maxlevel → low ≠ high) : Sound D isPrime s' := by
  refine ⟨hi, hcheck.trans h.check, fun n low high level hn hkey hlevel => ?_⟩
  rcases hback n hn with hk | rfl
  · exact h.differ n low high level hk.live (hk.same.key.symm.trans hkey) hlevel
  · exact hnew low high level hn hkey hlevel

/-- A table with some of the nodes. -/
theorem Sound.shrink (h : Sound D isPrime s) (hi : ∃ flight, TableInv D isPrime flight s')
    (hcheck : s'.checkSameChildren = s.checkSameChildren)
    (hback : ∀ n, s'.live n = true → s.live n = true ∧ SameNode D s s' n) :
    Clean D isPrime s s' := by
  refine ⟨⟨hi, hcheck.trans h.check, fun n low high level hn hkey => ?_⟩,
    fun n hn _ => hback n hn⟩
  obtain ⟨hn', hsame⟩ := hback n hn
  exact h.differ n low high level hn' (hsame.key.symm.trans hkey)

theorem Sound.sameTable (h : Sound D isPrime s) (ha : SameTable s s')
    (hcheck : s'.checkSameChildren = s.checkSameChildren) : Clean D isPrime s s' := by
  obtain ⟨flight, hi⟩ := h.table
  apply h.shrink ⟨flight, hi.alike ha⟩ hcheck
  intro n hn
  have hn' : s.live n = true := (ha.live n).symm.trans hn
  exact ⟨hn', ha.same hn'⟩

/-- Nothing but the limits, the stack, the caches and the reports changes. -/
theorem Sound.rest (h : Sound D isPrime s) (hnodes : s'.bddnodes = s.bddnodes)
    (hsize : s'.bddnodesize = s.bddnodesize) (hpos : s'.bddfreepos = s.bddfreepos)
    (hnum : s'.bddfreenum = s.bddfreenum) (hterm : s'.terminals = s.terminals)
    (hcaches : ∀ k, (s'.caches k).Inv) (hcheck : s'.checkSameChildren = s.checkSameChildren) :
    Clean D isPrime s s' := by
  obtain ⟨flight, hi⟩ := h.table
  have hlinks : s'.links = s.links := by
    unfold BddState.links
    rw [hnodes, hpos, hnum]
  have hkey : ∀ n, s'.key n = s.key n := fun n => congrArg (fun f => (f n).key) hnodes
  refine h.sameTable ⟨fun n _ => hkey n, fun n _ => (hkey n).symm ▸ hi.level n, fun n hn => ?_,
    fun n => by rw [hnodes], hlinks, hsize, hterm, hcaches⟩ hcheck
  rw [hnodes] at hn
  exact hi.refcou n hn

theorem Sound.caches (h : Sound D isPrime s) (k : CacheId) : (s.caches k).Inv := by
  obtain ⟨flight, hi⟩ := h.table
  exact hi.caches k

theorem bddInit_sound {size : ℕ} (cachesize : ℕ) (hsize : GoodSize isPrime size) :
    Sound D isPrime (bddInit size cachesize : BddState P) := by
  refine ⟨⟨[], bddInit_tableInv hsize cachesize⟩, rfl, fun n low high level hn => ?_⟩
  rw [bddInit_live] at hn
  exact absurd hn Bool.false_ne_true

/-! ## What the calls keep -/

theorem Sound.gbc (h : Sound D isPrime s) : Clean D isPrime s (bddGbc D s) ∧
    ∀ n, s.Held n → SameNode D s (bddGbc D s) n := by
  obtain ⟨flight, hi⟩ := h.table
  obtain ⟨hi', hc⟩ := bddGbc_spec hi
  have hevo : Evo D s (bddGbc D s) := hc.evo
  refine ⟨h.shrink ⟨flight, hi'⟩ hc.rest.checkSameChildren fun n hn => ?_, hevo.same⟩
  have hheld := (hc.live n).mp hn
  exact ⟨hheld.live, hevo.same n hheld⟩

theorem Sound.noderesize (h : Sound D isPrime s) :
    Clean D isPrime s (bddNoderesize D isPrime s) ∧
      ∀ n, s.Held n → SameNode D s (bddNoderesize D isPrime s) n := by
  obtain ⟨flight, hi⟩ := h.table
  obtain ⟨hi', hg⟩ := bddNoderesize_spec hi
  refine ⟨h.shrink ⟨flight, hi'⟩ hg.checkSameChildren fun n hn => ?_,
    fun n hn => hg.same (Or.inr hn.live)⟩
  have hn' : s.live n = true := (hg.live n).symm.trans hn
  exact ⟨hn', hg.same (Or.inr hn')⟩

theorem Sound.makenode (h : Sound D isPrime s) {level : ℕ} (low high : ℕ)
    (hlevel : level < maxlevel) :
    Clean D isPrime s (bddMakenode D isPrime s level low high).2 ∧
      ∃ flight, MakeSpec D isPrime flight s level low high
        (bddMakenode D isPrime s level low high) := by
  obtain ⟨flight, hi⟩ := h.table
  have hmax : maxlevel < 2 ^ 21 := by decide
  have hne : level ≠ maxlevel := Nat.ne_of_lt hlevel
  have hm : MakeSpec D isPrime flight s level low high (bddMakenode D isPrime s level low high) :=
    bddMakenode_spec hi (by omega) (Or.inl hne) fun hc => absurd hc hne
  refine ⟨⟨?_, fun n hn hterm => ?_⟩, flight, hm⟩
  · generalize bddMakenode D isPrime s level low high = r at hm ⊢
    have hgrow := fun r' hback hnew => @Sound.grow P D isPrime s r.2 h ⟨flight, hm.inv⟩
      hm.evo.checkSameChildren r' hback hnew
    cases hm.outcome with
    | skip _ _ _ _ state =>
      rw [state]
      exact h
    | full node _ =>
      refine hgrow 0 (fun n hn => (hm.back n hn).imp_right fun hr => hr.1.trans node)
        fun _ _ _ hn => ?_
      exact absurd (BddState.live_iff.mp hn).1 (by decide)
    | node differ live key _ _ =>
      refine hgrow r.1 (fun n hn => (hm.back n hn).imp_right And.left)
        fun low' high' level' _ hkey _ => ?_
      rw [key] at hkey
      injection hkey with hlow hhigh _
      rw [← Option.some.inj hlow, ← hhigh]
      exact differ h.check hne
  · rcases hm.back n hn with hk | ⟨-, hkey⟩
    · exact ⟨hk.live, hk.same⟩
    · rw [hkey] at hterm
      exact absurd hterm hne

/-- A terminal is made, unless the domain has none. -/
theorem Sound.maketerminal (h : Sound D isPrime s) (value : P) {type : ℕ}
    (htype : D.domaintype = .custom → type < D.typeNumber) :
    mtbddMaketerminal D isPrime s value type = none ∨
      ∃ r flight, mtbddMaketerminal D isPrime s value type = some r ∧ Sound D isPrime r.2 ∧
        TerminalSpec D isPrime flight s value type r := by
  by_cases hsupp : D.Supported
  · right
    obtain ⟨flight, hi⟩ := h.table
    obtain ⟨r, hr, hspec⟩ := mtbddMaketerminal_spec hi hsupp value htype
    obtain ⟨flight', hi', -⟩ := hspec.inv
    refine ⟨r, flight, hr, ?_, hspec⟩
    refine h.grow ⟨flight', hi'⟩ hspec.evo.checkSameChildren (r := r.1)
      (fun n hn => (hspec.back n hn).imp_right And.left) fun low high level hn hkey hne => ?_
    rcases hspec.back r.1 hn with hk | ⟨-, hlevel, -⟩
    · exact h.differ _ low high level hk.live (hk.same.key.symm.trans hkey) hne
    · rw [hkey] at hlevel
      exact absurd hlevel hne
  · left
    unfold MtbddDomain.Supported MtbddDomain.stored at hsupp
    unfold mtbddMaketerminal
    cases hd : D.domaintype <;> rw [hd] at hsupp <;> first
      | rfl
      | exact absurd (Or.inl rfl) hsupp
      | exact absurd (Or.inr rfl) hsupp

theorem Sound.recount (h : Sound D isPrime s) {n c : ℕ} (hn : s.IsNode n) :
    Clean D isPrime s (s.setNode n { s.bddnodes n with refcou := c }) := by
  obtain ⟨flight, hi⟩ := h.table
  exact h.sameTable (sameTable_refcou hi hn) rfl

theorem Sound.error (h : Sound D isPrime s) (e : BddError) : Clean D isPrime s (s.error e) :=
  h.rest rfl rfl rfl rfl rfl h.caches rfl

theorem Sound.changeref (h : Sound D isPrime s) {count : BddState P → ℕ → BddState P}
    (hcount : ∀ n, s.IsNode n → Clean D isPrime s (count s n)) (root : ℕ) :
    Clean D isPrime s (changeref count s root) := by
  unfold Bdd.changeref
  by_cases h2 : root < 2
  · rw [if_pos h2]
    exact .refl h
  rw [if_neg h2]
  by_cases hsize : root ≥ s.bddnodesize
  · rw [if_pos hsize]
    exact h.error _
  rw [if_neg hsize]
  by_cases hfree : s.isFree root = true
  · rw [if_pos hfree]
    exact h.error _
  · rw [if_neg hfree]
    apply hcount root
    right
    rw [isFree_eq (by omega)] at hfree
    simpa using hfree

theorem Sound.incref (h : Sound D isPrime s) {n : ℕ} (hn : s.IsNode n) :
    Clean D isPrime s (incref s n) := by
  unfold Bdd.incref
  dsimp only
  split
  · exact h.recount hn
  · exact .refl h

theorem Sound.decref (h : Sound D isPrime s) {n : ℕ} (hn : s.IsNode n) :
    Clean D isPrime s (decref s n) := by
  unfold Bdd.decref
  dsimp only
  split
  · exact h.recount hn
  · exact .refl h

theorem Sound.delref (h : Sound D isPrime s) (root : ℕ) :
    Clean D isPrime s (bddDelref s root) := by
  refine h.changeref (fun n hn => ?_) root
  split
  · exact (h.error .break).trans ((h.error .break).sound.decref hn)
  · exact h.decref hn

theorem Sound.restack (h : Sound D isPrime s) (l : List ℕ) :
    Clean D isPrime s { s with bddrefstack := l } :=
  h.rest rfl rfl rfl rfl rfl h.caches rfl

/-- The loop of `bdd_setvarnum`, whether it ends with a full table or not. -/
theorem Sound.addVars (h : Sound D isPrime s) {bdv k : ℕ}
    (hk : s.env.bddvarnum + k ≤ maxlevel) :
    Clean D isPrime s (addVars D isPrime bdv k s).2 := by
  induction k generalizing s with
  | zero => exact .refl h
  | succ k ih =>
    have hv : s.env.bddvarnum < maxlevel := by omega
    unfold Bdd.addVars
    dsimp only
    obtain ⟨h1, flight1, hm1⟩ := h.makenode 0 1 hv
    generalize bddMakenode D isPrime s s.env.bddvarnum 0 1 = r1 at h1 hm1 ⊢
    have hp : Clean D isPrime s (r1.2.pushref r1.1) := h1.trans (h1.sound.restack _)
    obtain ⟨h2, flight2, hm2⟩ := hp.sound.makenode 1 0 hv
    generalize bddMakenode D isPrime (r1.2.pushref r1.1) s.env.bddvarnum 1 0 = r2 at h2 hm2 ⊢
    have h3 : Clean D isPrime s (r2.2.popref 1) := (hp.trans h2).trans (h2.sound.restack _)
    by_cases herr : (r2.2.popref 1).bdderrorcond = true
    · rw [if_pos herr]
      exact h3.trans (h3.sound.rest rfl rfl rfl rfl rfl h3.sound.caches rfl)
    rw [if_neg herr]
    have hok2 : r2.2.bdderrorcond = false := (Bool.not_eq_true _).mp herr
    have hok1 : r1.2.bdderrorcond = false := hm2.evo.errorcond hok2
    -- nothing was reported, so that both nodes are there
    have hpos : r1.2.live r1.1 = true := by
      cases hm1.outcome with
      | skip _ _ same _ _ => exact absurd same (by decide)
      | full _ errorcond => exact absurd (hok1.symm.trans errorcond) (by decide)
      | node _ live _ _ _ => exact live
    have hneg : r2.2.live r2.1 = true := by
      cases hm2.outcome with
      | skip _ _ same _ _ => exact absurd same (by decide)
      | full _ errorcond => exact absurd (hok2.symm.trans errorcond) (by decide)
      | node _ live _ _ _ => exact live
    have hheld : (r1.2.pushref r1.1).Held r1.1 := ⟨r1.1, Or.inr List.mem_cons_self, .refl hpos⟩
    have hpos' : (r2.2.popref 1).live r1.1 = true := (hm2.evo.held _ hheld).live
    have h4 : Clean D isPrime (r2.2.popref 1) ((r2.2.popref 1).saturate r1.1) :=
      h3.sound.recount (Or.inr hpos')
    have hneg' : ((r2.2.popref 1).saturate r1.1).live r2.1 = true := by
      obtain ⟨flight, hi⟩ := h3.sound.table
      have ha : SameTable (r2.2.popref 1) ((r2.2.popref 1).saturate r1.1) :=
        sameTable_refcou hi (Or.inr hpos')
      exact (ha.live r2.1).trans hneg
    have h5 := h4.trans (h4.sound.recount (c := maxref) (Or.inr hneg'))
    have h6 : Clean D isPrime s ((r2.2.popref 1).addVar r1.1 r2.1) :=
      (h3.trans h5).trans (h5.sound.rest rfl rfl rfl rfl rfl h5.sound.caches rfl)
    have henv : r2.2.env = s.env := hm2.evo.env.trans hm1.evo.env
    apply h6.trans
    apply ih h6.sound
    show r2.2.env.bddvarnum + 1 + k ≤ maxlevel
    rw [henv]
    omega

theorem Sound.setvarnum (h : Sound D isPrime s) (num : ℕ) :
    Clean D isPrime s (bddSetvarnum D isPrime s num) := by
  unfold bddSetvarnum
  by_cases hrange : num < 1 ∨ num ≥ maxvar
  · rw [if_pos hrange]
    exact h.error _
  rw [if_neg hrange]
  by_cases hdec : num < s.env.bddvarnum
  · rw [if_pos hdec]
    exact h.error _
  rw [if_neg hdec]
  by_cases hsame : num = s.env.bddvarnum
  · rw [if_pos hsame]
    exact .refl h
  rw [if_neg hsame]
  dsimp only
  have hmax : maxvar = maxlevel := rfl
  have hinit : Clean D isPrime s s.initref := h.restack _
  have hadd : Clean D isPrime s (Bdd.addVars D isPrime s.initref.env.bddvarnum
      (num - s.initref.env.bddvarnum) s.initref).2 := by
    apply hinit.trans
    apply hinit.sound.addVars
    show s.env.bddvarnum + (num - s.env.bddvarnum) ≤ maxlevel
    omega
  generalize Bdd.addVars D isPrime s.initref.env.bddvarnum
    (num - s.initref.env.bddvarnum) s.initref = r at hadd ⊢
  obtain ⟨done, t⟩ := r
  cases done with
  | false => exact hadd
  | true =>
    have hlt : maxlevel < 2 ^ 21 := by decide
    obtain ⟨flight, hi⟩ := hadd.sound.table
    exact hadd.trans (hadd.sound.sameTable (finishVars_sameTable hi (by omega)) rfl)

/-- The calls that make no terminal. -/
theorem TableCall.apply_clean (h : Sound D isPrime s) {a : TableCall P} (ha : a.Valid D)
    (hterm : ∀ value type, a ≠ .maketerminal value type) :
    Clean D isPrime s (a.apply D isPrime s) := by
  cases a with
  | setvarnum num => exact h.setvarnum num
  | setmaxnodenum size =>
    show Clean D isPrime s (bddSetmaxnodenum s size)
    unfold bddSetmaxnodenum
    split
    · exact h.rest rfl rfl rfl rfl rfl h.caches rfl
    · exact h.error _
  | setmaxincrease size =>
    show Clean D isPrime s (bddSetmaxincrease s size)
    unfold bddSetmaxincrease
    split
    · exact h.error _
    · exact h.rest rfl rfl rfl rfl rfl h.caches rfl
  | setminfreenodes mf =>
    show Clean D isPrime s (bddSetminfreenodes s mf)
    unfold bddSetminfreenodes
    split
    · exact h.error _
    · exact h.rest rfl rfl rfl rfl rfl h.caches rfl
  | makenode level low high => exact (h.makenode low high ha).1
  | maketerminal value type => exact absurd rfl (hterm value type)
  | addref root => exact h.changeref (fun n hn => h.incref hn) root
  | delref root => exact h.delref root
  | gbc => exact h.gbc.1
  | noderesize => exact h.noderesize.1
  | pushref n => exact h.restack _
  | popref k => exact h.restack _
  | clearError => exact h.rest rfl rfl rfl rfl rfl (fun k => (h.caches k).reset) rfl

/-- A call makes no terminal, or it is `mtbdd_maketerminal`. -/
theorem TableCall.apply_cases (h : Sound D isPrime s) {a : TableCall P} (ha : a.Valid D) :
    Clean D isPrime s (a.apply D isPrime s) ∨
      ∃ value type n flight, a = .maketerminal value type ∧
        Sound D isPrime (a.apply D isPrime s) ∧
        TerminalSpec D isPrime flight s value type (n, a.apply D isPrime s) := by
  by_cases hterm : ∀ value type, a ≠ .maketerminal value type
  · exact Or.inl (apply_clean h ha hterm)
  simp only [not_forall, not_not] at hterm
  obtain ⟨value, type, rfl⟩ := hterm
  have happly : (TableCall.maketerminal value type).apply D isPrime s =
      ((mtbddMaketerminal D isPrime s value type).map Prod.snd).getD s := rfl
  rw [happly]
  rcases h.maketerminal value ha with hnone | ⟨r, flight, hr, hsound, hspec⟩
  · rw [hnone]
    exact Or.inl (.refl h)
  · rw [hr]
    exact Or.inr ⟨value, type, r.1, flight, rfl, hsound, hspec⟩

theorem TableCall.apply_sound (h : Sound D isPrime s) {a : TableCall P} (ha : a.Valid D) :
    Sound D isPrime (a.apply D isPrime s) := by
  rcases apply_cases h ha with hc | ⟨_, _, _, _, _, hs, _⟩
  · exact hc.sound
  · exact hs

theorem Session.sound {Suits : BddState P → TableCall P → Prop}
    (h : Session D isPrime Suits s) : Sound D isPrime s := by
  induction h with
  | init cachesize hsize => exact bddInit_sound cachesize hsize
  | call a before valid suits ih => exact TableCall.apply_sound ih valid

/-- Reference counts do not matter to the contents of a node. -/
theorem changeref_key {count : BddState P → ℕ → BddState P}
    (hcount : ∀ n m, (count s n).key m = s.key m ∧ (count s n).terminals = s.terminals)
    (root n : ℕ) : SameNode D s (changeref count s root) n := by
  have hsame : SameNode D s (count s root) n :=
    ⟨(hcount root n).1, fun i _ => by rw [(hcount root n).2]⟩
  unfold changeref
  split
  · exact .refl s n
  split
  · exact ⟨rfl, fun _ _ => rfl⟩
  split
  · exact ⟨rfl, fun _ _ => rfl⟩
  · exact hsame

theorem setNode_refcou_key (s : BddState P) (n c m : ℕ) :
    (s.setNode n { s.bddnodes n with refcou := c }).key m = s.key m := by
  unfold BddState.key BddState.setNode
  dsimp only
  rw [Function.update_apply]
  split
  · rename_i hm
    rw [hm]
    rfl
  · rfl

theorem incref_key (s : BddState P) (n m : ℕ) :
    (incref s n).key m = s.key m ∧ (incref s n).terminals = s.terminals := by
  unfold incref
  dsimp only
  split
  · exact ⟨setNode_refcou_key .., rfl⟩
  · exact ⟨rfl, rfl⟩

theorem decref_key (s : BddState P) (n m : ℕ) :
    (decref s n).key m = s.key m ∧ (decref s n).terminals = s.terminals := by
  unfold decref
  dsimp only
  split
  · exact ⟨setNode_refcou_key .., rfl⟩
  · exact ⟨rfl, rfl⟩

/-- Nodes in use keep their contents. `bdd_setvarnum` empties the stack before it makes nodes. -/
theorem TableCall.apply_same (h : Sound D isPrime s) (a : TableCall P) (ha : a.Valid D)
    (hvar : ∀ num, a ≠ .setvarnum num) {n : ℕ} (hn : s.Held n) :
    SameNode D s (a.apply D isPrime s) n := by
  cases a with
  | setvarnum num => exact absurd rfl (hvar num)
  | setmaxnodenum size =>
    show SameNode D s (bddSetmaxnodenum s size) n
    unfold bddSetmaxnodenum
    split <;> exact ⟨rfl, fun _ _ => rfl⟩
  | setmaxincrease size =>
    show SameNode D s (bddSetmaxincrease s size) n
    unfold bddSetmaxincrease
    split <;> exact ⟨rfl, fun _ _ => rfl⟩
  | setminfreenodes mf =>
    show SameNode D s (bddSetminfreenodes s mf) n
    unfold bddSetminfreenodes
    split <;> exact ⟨rfl, fun _ _ => rfl⟩
  | makenode level low high =>
    obtain ⟨-, flight, hm⟩ := h.makenode low high ha
    exact hm.evo.same n hn
  | maketerminal value type =>
    show SameNode D s (((mtbddMaketerminal D isPrime s value type).map Prod.snd).getD s) n
    rcases h.maketerminal value ha with hnone | ⟨r, flight, hr, -, hspec⟩
    · rw [hnone]
      exact .refl s n
    · rw [hr]
      exact hspec.evo.same n hn
  | addref root => exact changeref_key (fun n m => incref_key s n m) root n
  | delref root =>
    show SameNode D s (bddDelref s root) n
    unfold bddDelref
    refine changeref_key (fun n m => ?_) root n
    split
    · exact decref_key (s.error .break) n m
    · exact decref_key s n m
  | gbc => exact h.gbc.2 n hn
  | noderesize => exact h.noderesize.2 n hn
  | pushref m => exact ⟨rfl, fun _ _ => rfl⟩
  | popref k => exact ⟨rfl, fun _ _ => rfl⟩
  | clearError => exact ⟨rfl, fun _ _ => rfl⟩

/-! ## Values -/

/-- What the casts and the comparisons of the domains do: a `double` is its bits, `==` on `long` is
equality, and custom values that compare equal are hashed alike. -/
structure MtbddDomain.Values (D : MtbddDomain P) : Prop where
  ofWord : ∀ a b, D.ofWord a = D.ofWord b → a = b
  long : D.domaintype = .longval → ∀ v w, D.equal v w = true ↔ v = w
  double : D.domaintype = .doubleval → ∀ v w, D.halves v = D.halves w → v = w
  custom : D.domaintype = .custom → ∀ type v w, D.same type v w = true →
    terminalWords D type (some v) = terminalWords D type (some w)

/-- Equal values of one type: the same bits, except that custom values are compared. -/
def MtbddDomain.SameValue (D : MtbddDomain P) (type : ℕ) (v w : P) : Prop :=
  match D.domaintype with
  | .doubleval => D.halves v = D.halves w
  | .custom => D.same type v w = true ∧ D.same type w v = true
  | _ => v = w

/-- A `double` that differs from itself is stored once only. -/
def TableCall.Storable (D : MtbddDomain P) (s : BddState P) : TableCall P → Prop
  | .maketerminal value _ => D.domaintype = .doubleval → D.equal value value = true ∨
      ∀ n i v, s.slot D n = some i → s.terminals.values i = some v → D.halves v ≠ D.halves value
  | _ => True

/-- Two terminals of one type differ in their bits. -/
def DistinctBits (D : MtbddDomain P) (s : BddState P) : Prop :=
  D.domaintype = .doubleval → ∀ n m i j v w, s.slot D n = some i → s.slot D m = some j →
    (s.key n).low = (s.key m).low → s.terminals.values i = some v →
    s.terminals.values j = some w → D.halves v = D.halves w → n = m

/-- The slot of an old terminal, and its value. -/
theorem SameNode.slot (h : SameNode D s s' n) {i : ℕ} {v : P} (hn : s'.slot D n = some i)
    (hv : s'.terminals.values i = some v) :
    s.slot D n = some i ∧ s.terminals.values i = some v := by
  have hn' : s.slot D n = some i := (BddState.slot_congr h.key).symm.trans hn
  exact ⟨hn', (h.value i hn').symm.trans hv⟩

/-- All terminals but one are from before; the value of that one is not among theirs, unless
`mtbdd_findterminal` tells. -/
theorem DistinctBits.step (h : DistinctBits D s) (hi : TableInv D isPrime flight s')
    (hD : D.Values) {value : P} {r : ℕ}
    (hback : ∀ n i v, s'.slot D n = some i → s'.terminals.values i = some v →
      s.live n = true ∧ SameNode D s s' n ∨ n = r ∧ v = value)
    (hvalue : D.domaintype = .doubleval → D.equal value value = true ∨
      ∀ n i v, s.slot D n = some i → s.terminals.values i = some v →
        D.halves v ≠ D.halves value) : DistinctBits D s' := by
  intro hd n m i j v w hn hm hlow hv hw hhalves
  have hsame : ∀ {n m i j v w}, s'.slot D n = some i → s'.slot D m = some j →
      (s'.key n).low = (s'.key m).low → s'.terminals.values i = some v →
      s'.terminals.values j = some w → D.halves v = D.halves w → D.equal w w = true →
      n = m := by
    intro n m i j v w hn hm hlow hv hw hhalves hrefl
    obtain rfl := hD.double hd v w hhalves
    apply hi.termUnique n m i j v v hn hm hlow hv hw
    have heq : D.same ((s'.key n).low.getD 0) v v = true := by
      unfold MtbddDomain.same
      rw [hd]
      exact hrefl
    exact MtbddDomain.twins_iff.mpr ⟨heq, heq, rfl⟩
  rcases hback n i v hn hv with ⟨-, hsn⟩ | ⟨rfl, rfl⟩
  · obtain ⟨hn', hv'⟩ := hsn.slot hn hv
    rcases hback m j w hm hw with ⟨-, hsm⟩ | ⟨rfl, rfl⟩
    · obtain ⟨hm', hw'⟩ := hsm.slot hm hw
      apply h hd n m i j v w hn' hm' _ hv' hw' hhalves
      rw [← hsn.key, ← hsm.key]
      exact hlow
    · rcases hvalue hd with hrefl | hfresh
      · exact hsame hn hm hlow hv hw hhalves hrefl
      · exact absurd hhalves (hfresh n i v hn' hv')
  · rcases hback m j w hm hw with ⟨-, hsm⟩ | ⟨rfl, -⟩
    · obtain ⟨hm', hw'⟩ := hsm.slot hm hw
      rcases hvalue hd with hrefl | hfresh
      · exact (hsame hm hn hlow.symm hw hv hhalves.symm hrefl).symm
      · exact absurd hhalves.symm (hfresh m j w hm' hw')
    · rfl

theorem Session.distinctBits (hD : D.Values)
    (h : Session D isPrime (fun s a => a.Storable D s) s) : DistinctBits D s := by
  induction h with
  | init cachesize hsize =>
    intro _ n m i j v w hn
    have hl := (BddState.slot_live hn).1
    rw [bddInit_live] at hl
    exact absurd hl Bool.false_ne_true
  | @call s a before valid suits ih =>
    obtain ⟨flight, hi⟩ := (TableCall.apply_sound before.sound valid).table
    rcases TableCall.apply_cases before.sound valid with hc | ⟨value, type, r, _, rfl, -, hspec⟩
    · intro hd n m i j v w hn hm hlow hv hw
      obtain ⟨hln, hleveln, -, -⟩ := BddState.slot_live hn
      obtain ⟨hlm, hlevelm, -, -⟩ := BddState.slot_live hm
      obtain ⟨-, hsn⟩ := hc.old n hln hleveln
      obtain ⟨-, hsm⟩ := hc.old m hlm hlevelm
      obtain ⟨hn', hv'⟩ := hsn.slot hn hv
      obtain ⟨hm', hw'⟩ := hsm.slot hm hw
      apply ih hd n m i j v w hn' hm' _ hv' hw'
      rw [← hsn.key, ← hsm.key]
      exact hlow
    · apply @DistinctBits.step P D isPrime _ _ _ ih hi hD value r _ suits
      intro n i v hn hv
      obtain ⟨hl, -, hst, hhigh⟩ := BddState.slot_live hn
      rcases hspec.back n hl with hk | ⟨hnr, -, v', hv', hval⟩
      · exact Or.inl ⟨hk.live, hk.same⟩
      · right
        rw [hhigh, getvalue_stored hst] at hv'
        have hvv : v' = v := Option.some.inj (hv'.symm.trans hv)
        exact ⟨hnr, hvv ▸ hval hst⟩

/-! ## Main results -/

/-- Every node is in the chain of its bucket, and no two nodes are the same. -/
structure UniqueTable (D : MtbddDomain P) (s : BddState P) : Prop where
  chain : ∀ b < s.bddnodesize, ∃ l, IsChain (fun n => (s.bddnodes n).next) (s.bddnodes b).hash l ∧
    l.Nodup ∧ ∀ n, n ∈ l ↔ (2 ≤ n ∧ n < s.bddnodesize) ∧ s.live n = true ∧ s.bucket D n = b
  free : ∃ l, IsChain (fun n => (s.bddnodes n).next) s.bddfreepos l ∧ l.Nodup ∧
    l.length = s.bddfreenum ∧ ∀ n, n ∈ l ↔ (2 ≤ n ∧ n < s.bddnodesize) ∧ ¬ s.live n = true
  inside : ∀ n, s.live n = true → n < s.bddnodesize
  key : ∀ n m, s.live n = true → s.live m = true → (s.key n).level ≠ maxlevel →
    s.key n = s.key m → n = m
  children : ∀ n low high level, s.live n = true → s.key n = ⟨some low, high, level⟩ →
    level ≠ maxlevel → low ≠ high
  value : ∀ n m type v w, s.live n = true → s.live m = true → (s.key n).level = maxlevel →
    (s.key m).level = maxlevel → (s.key n).low = some type → (s.key m).low = some type →
    mtbddGetvalue D s (s.key n).high = some v → mtbddGetvalue D s (s.key m).high = some w →
    D.SameValue type v w → n = m

/-- Terminals with equal values are one terminal. -/
theorem TableInv.value_unique (h : TableInv D isPrime flight s) (hbits : DistinctBits D s)
    (hD : D.Values) {n m type : ℕ} {v w : P} (hn : s.live n = true) (hm : s.live m = true)
    (hleveln : (s.key n).level = maxlevel) (hlevelm : (s.key m).level = maxlevel)
    (hlown : (s.key n).low = some type) (hlowm : (s.key m).low = some type)
    (hv : mtbddGetvalue D s (s.key n).high = some v)
    (hw : mtbddGetvalue D s (s.key m).high = some w) (hsame : D.SameValue type v w) : n = m := by
  have hlow : (s.key n).low = (s.key m).low := hlown.trans hlowm.symm
  by_cases hst : D.stored = true
  · have hsn := BddState.slot_eq hn hleveln hst
    have hsm := BddState.slot_eq hm hlevelm hst
    rw [getvalue_stored hst] at hv hw
    have htwins := h.termUnique n m _ _ v w hsn hsm hlow hv hw
    rw [hlown] at htwins
    unfold MtbddDomain.SameValue at hsame
    unfold MtbddDomain.stored at hst
    cases hd : D.domaintype with
    | doubleval =>
      rw [hd] at hsame
      exact hbits hd n m _ _ v w hsn hsm hlow hv hw hsame
    | longval =>
      rw [hd] at hsame
      dsimp only at hsame
      subst hsame
      have heq : D.same type v v = true := by
        unfold MtbddDomain.same
        rw [hd]
        exact (hD.long hd v v).mpr rfl
      exact htwins (MtbddDomain.twins_iff.mpr ⟨heq, heq, rfl⟩)
    | custom =>
      rw [hd] at hsame
      exact htwins (MtbddDomain.twins_iff.mpr
        ⟨hsame.1, hsame.2, hD.custom hd type v w hsame.1⟩)
    | intval | floatval | charval | unsignedval | ldoubleval | ulongval | unset =>
      rw [hd] at hst
      exact absurd hst Bool.false_ne_true
  · -- the value is the word in the node
    unfold mtbddGetvalue at hv hw
    unfold MtbddDomain.stored at hst
    unfold MtbddDomain.SameValue at hsame
    have hword : D.domaintype.notShort = false → some (D.ofWord (.ofNat (s.key n).high)) =
        some v → some (D.ofWord (.ofNat (s.key m).high)) = some w → v = w → n = m := by
      intro hshort hv hw hvw
      have hwords : UInt32.ofNat (s.key n).high = UInt32.ofNat (s.key m).high := by
        apply hD.ofWord
        rw [Option.some.inj hv, Option.some.inj hw, hvw]
      obtain ⟨-, hltn⟩ := h.word hshort n hn hleveln
      obtain ⟨-, hltm⟩ := h.word hshort m hm hlevelm
      have hhigh : (s.key n).high = (s.key m).high := by
        have hmod := congrArg UInt32.toNat hwords
        rw [UInt32.toNat_ofNat_of_lt' hltn, UInt32.toNat_ofNat_of_lt' hltm] at hmod
        exact hmod
      apply h.unique n m hn hm (Or.inr hshort)
      calc s.key n = ⟨(s.key n).low, (s.key n).high, (s.key n).level⟩ := rfl
        _ = ⟨(s.key m).low, (s.key m).high, (s.key m).level⟩ := by
          rw [hlow, hhigh, hleveln, hlevelm]
        _ = s.key m := rfl
    cases hd : D.domaintype with
    | intval | floatval | unsignedval =>
      rw [hd] at hv hw hsame
      exact hword (by rw [hd]; rfl) hv hw hsame
    | longval | doubleval | custom =>
      rw [hd] at hst
      exact absurd rfl hst
    | charval | ldoubleval | ulongval | unset =>
      rw [hd] at hv
      exact absurd hv.symm (Option.some_ne_none v)

theorem Sound.uniqueTable (h : Sound D isPrime s) (hbits : DistinctBits D s) (hD : D.Values) :
    UniqueTable D s := by
  obtain ⟨flight, hi⟩ := h.table
  refine
    { chain := hi.threaded.chain
      free := hi.threaded.free
      inside := fun n hn => hi.live_lt hn
      key := fun n m hn hm hlevel hkey => hi.unique n m hn hm (Or.inl hlevel) hkey
      children := h.differ
      value := fun n m type v w hn hm hleveln hlevelm hlown hlowm hv hw =>
        hi.value_unique hbits hD hn hm hleveln hlevelm hlown hlowm hv hw }

/-- Whatever calls were made, the table is well formed, and no later call changes a node that is
in use. -/
theorem session_uniqueTable (hD : D.Values)
    (h : Session D isPrime (fun s a => a.Storable D s) s) :
    UniqueTable D s ∧ ∀ a : TableCall P, a.Valid D → (∀ num, a ≠ .setvarnum num) →
      ∀ n, s.Held n → SameNode D s (a.apply D isPrime s) n :=
  ⟨h.sound.uniqueTable (h.distinctBits hD) hD, fun a ha hvar _ hn =>
    TableCall.apply_same h.sound a ha hvar hn⟩

/-! ## Sessions with `double` terminals -/

/-- All bits of the exponent are set, and one of the mantissa. -/
def isNan (v : UInt64) : Bool := v <<< 1 > 0xFFE0000000000000

/-- `==` on `double`. -/
def doubleEq (v w : UInt64) : Bool := !isNan v && !isNan w && (v == w || (v ||| w) <<< 1 == 0)

/-- Terminals of the domain `DOUBLE`, as their bits. -/
def doubleDomain : MtbddDomain UInt64 where
  domaintype := .doubleval
  word v := v.toUInt32
  ofWord := UInt32.toUInt64
  halves v := (v.toUInt32, (v >>> 32).toUInt32)
  equal := doubleEq
  typeNumber := 0
  hashfun _ := none
  comparefun _ := none

theorem doubleDomain_values : doubleDomain.Values := by
  refine ⟨fun a b h => ?_, fun h => absurd h (by decide), fun _ v w h => ?_,
    fun h => absurd h (by decide)⟩
  · have heq := congrArg UInt64.toNat (show a.toUInt64 = b.toUInt64 from h)
    rw [UInt32.toNat_toUInt64, UInt32.toNat_toUInt64] at heq
    exact UInt32.toNat_inj.mp heq
  · obtain ⟨hlow, hhigh⟩ := Prod.mk.inj (show (v.toUInt32, (v >>> 32).toUInt32) =
      (w.toUInt32, (w >>> 32).toUInt32) from h)
    have hl := congrArg UInt32.toNat hlow
    have hh := congrArg UInt32.toNat hhigh
    simp only [UInt64.toNat_toUInt32, UInt64.toNat_shiftRight, UInt64.reduceToNat,
      Nat.reduceMod, Nat.shiftRight_eq_div_pow] at hl hh
    have hv := v.toNat_lt
    have hw := w.toNat_lt
    apply UInt64.toNat_inj.mp
    omega

/-- The state after calls at the start of a session. -/
def doubleSession (calls : List (TableCall UInt64)) : BddState UInt64 :=
  calls.foldl (TableCall.apply doubleDomain trialDivision) (bddInit 7 3)

theorem doubleSession_append (calls : List (TableCall UInt64)) (a : TableCall UInt64) :
    doubleSession (calls ++ [a]) = a.apply doubleDomain trialDivision (doubleSession calls) := by
  unfold doubleSession
  rw [List.foldl_append, List.foldl_cons, List.foldl_nil]

theorem doubleSession_session {Suits : BddState UInt64 → TableCall UInt64 → Prop} {v w : UInt64}
    (hv : Suits (doubleSession []) (.maketerminal v 0))
    (hw : Suits (doubleSession [.maketerminal v 0]) (.maketerminal w 0)) :
    Session doubleDomain trialDivision Suits
      (doubleSession [.maketerminal v 0, .maketerminal w 0]) := by
  have h0 : Session doubleDomain trialDivision Suits (doubleSession []) :=
    .init 3 ⟨by decide, by decide, by decide⟩
  have hcustom : ∀ value, TableCall.Valid doubleDomain (.maketerminal value 0) := fun _ hc =>
    absurd hc (by decide)
  have h1 : Session doubleDomain trialDivision Suits
      (doubleSession ([] ++ [.maketerminal v 0])) := by
    rw [doubleSession_append]
    exact .call _ h0 (hcustom v) hv
  have h2 : Session doubleDomain trialDivision Suits
      (doubleSession ([.maketerminal v 0] ++ [.maketerminal w 0])) := by
    rw [doubleSession_append]
    exact .call _ h1 (hcustom w) hw
  exact h2

/-- `1.0` and `2.0`. -/
theorem session_uniqueTable_double :
    UniqueTable doubleDomain
        (doubleSession [.maketerminal 0x3FF0000000000000 0, .maketerminal 0x4000000000000000 0]) ∧
      ∀ a : TableCall UInt64, a.Valid doubleDomain → (∀ num, a ≠ .setvarnum num) →
        ∀ n, (doubleSession [.maketerminal 0x3FF0000000000000 0,
            .maketerminal 0x4000000000000000 0]).Held n →
          SameNode doubleDomain (doubleSession [.maketerminal 0x3FF0000000000000 0,
            .maketerminal 0x4000000000000000 0]) (a.apply doubleDomain trialDivision
              (doubleSession [.maketerminal 0x3FF0000000000000 0,
                .maketerminal 0x4000000000000000 0])) n :=
  session_uniqueTable doubleDomain_values
    (doubleSession_session (fun _ => Or.inl (by decide)) fun _ => Or.inl (by decide))

/-- A NaN is not found again: two terminals with its bits. -/
theorem not_uniqueTable_nan :
    Session doubleDomain trialDivision (fun _ _ => True)
        (doubleSession [.maketerminal 0x7FF8000000000000 0, .maketerminal 0x7FF8000000000000 0]) ∧
      ¬ UniqueTable doubleDomain
        (doubleSession [.maketerminal 0x7FF8000000000000 0,
          .maketerminal 0x7FF8000000000000 0]) := by
  refine ⟨doubleSession_session trivial trivial, fun h => ?_⟩
  have h23 := h.value 2 3 0 0x7FF8000000000000 0x7FF8000000000000 (by decide +kernel)
    (by decide +kernel) (by decide +kernel) (by decide +kernel) (by decide +kernel)
    (by decide +kernel) (by decide +kernel) (by decide +kernel) rfl
  exact absurd h23 (by decide)

end MoToBuddy.Bdd
