import Mathlib.Data.List.Iterate
import MoToBuddy.Bdd.Table

/-!
# `bdd_makenode` and `mtbdd_maketerminal`

`Evo` is what every operation guarantees to its caller: held nodes stay held and keep their
contents. `bddMakenode_spec` and `mtbddMaketerminal_spec` give, in addition, the cases of the two
constructors: a skipped decision, a node with the given contents, or a report of exhaustion.
-/

namespace MoToBuddy.Bdd

open CountedLoop Chained Marking Slots

variable {P : Type*} {D : MtbddDomain P} {isPrime : ℕ → Bool} {flight : List ℕ}
  {s s' s'' : BddState P}

/-- The node in slot `n`, with its value, is as it was. -/
structure SameNode (D : MtbddDomain P) (s s' : BddState P) (n : ℕ) : Prop where
  key : s'.key n = s.key n
  value : ∀ i, s.slot D n = some i → s'.terminals.values i = s.terminals.values i

/-- What operations leave alone: held nodes, references, and what they only read. An error stays
reported; the constants are overwritten only then. -/
structure Evo (D : MtbddDomain P) (s s' : BddState P) : Prop where
  errorcond : s'.bdderrorcond = false → s.bdderrorcond = false
  held : ∀ n, s.Held n → s'.Held n
  same : ∀ n, s.Held n → SameNode D s s' n
  const : ∀ n, n < 2 → (s'.key n).level = (s.key n).level
  refcou : ∀ n, 2 ≤ n → (s'.bddnodes n).refcou = (s.bddnodes n).refcou
  env : s'.env = s.env
  checkSameChildren : s'.checkSameChildren = s.checkSameChildren
  constKey : s'.bdderrorcond = false → ∀ n, n < 2 → s'.key n = s.key n
  told : s'.bdderrorcond = false → s'.told = s.told

/-- The caches were flushed, or they are the same and no node was freed. -/
def CacheStable (D : MtbddDomain P) (s s' : BddState P) : Prop :=
  (∀ k i, (s'.caches k).isValid i = false) ∨
    s'.caches = s.caches ∧ ∀ n, s.live n = true → SameNode D s s' n

theorem told_congr (h : s'.errors = s.errors) : s'.told = s.told := by
  unfold BddState.told
  rw [h]

theorem SameNode.refl (s : BddState P) (n : ℕ) : SameNode D s s n := ⟨rfl, fun _ _ => rfl⟩

theorem SameNode.trans {n : ℕ} (h : SameNode D s s' n) (h' : SameNode D s' s'' n) :
    SameNode D s s'' n := by
  refine ⟨h'.key.trans h.key, fun i hi => ?_⟩
  have hi' : s'.slot D n = some i := (BddState.slot_congr h.key).trans hi
  exact (h'.value i hi').trans (h.value i hi)

theorem SameNode.live {n : ℕ} (h : SameNode D s s' n) (hn : s.live n = true) :
    s'.live n = true := (BddState.live_congr h.key).trans hn

theorem Evo.refl (s : BddState P) : Evo D s s :=
  ⟨id, fun _ h => h, fun n _ => .refl s n, fun _ _ => rfl, fun _ _ => rfl, rfl, rfl,
    fun _ _ _ => rfl, fun _ => rfl⟩

theorem Evo.trans (h : Evo D s s') (h' : Evo D s' s'') : Evo D s s'' :=
  ⟨fun he => h.errorcond (h'.errorcond he), fun n hn => h'.held n (h.held n hn),
    fun n hn => (h.same n hn).trans (h'.same n (h.held n hn)),
    fun n hn => (h'.const n hn).trans (h.const n hn),
    fun n hn => (h'.refcou n hn).trans (h.refcou n hn), h'.env.trans h.env,
    h'.checkSameChildren.trans h.checkSameChildren,
    fun he n hn => (h'.constKey he n hn).trans (h.constKey (h'.errorcond he) n hn),
    fun he => (h'.told he).trans (h.told (h'.errorcond he))⟩

theorem CacheStable.refl (s : BddState P) : CacheStable D s s :=
  Or.inr ⟨rfl, fun n _ => .refl s n⟩

theorem CacheStable.trans (h : CacheStable D s s') (h' : CacheStable D s' s'') :
    CacheStable D s s'' := by
  rcases h' with h' | ⟨hc', hk'⟩
  · exact Or.inl h'
  · rcases h with h | ⟨hc, hk⟩
    · left
      intro k i
      rw [hc']
      exact h k i
    · right
      refine ⟨hc'.trans hc, fun n hn => ?_⟩
      exact (hk n hn).trans (hk' n ((hk n hn).live hn))

/-- Held nodes stay held if their keys, references and the stack stay. -/
theorem BddState.Held.keep (hsame : ∀ n, s.Held n → s'.key n = s.key n)
    (hrefcou : ∀ n, 2 ≤ n → (s'.bddnodes n).refcou = (s.bddnodes n).refcou)
    (hstack : s.bddrefstack ⊆ s'.bddrefstack) {n : ℕ} (hn : s.Held n) : s'.Held n := by
  refine BddState.Held.congr hsame (fun r hr hl => ⟨r, ?_, .refl ?_⟩) hn
  · rcases hr with hr | hr
    · left
      rw [hrefcou r (BddState.live_iff.mp hl).1]
      exact hr
    · exact Or.inr (hstack hr)
  · rw [BddState.live_congr (hsame r ⟨r, hr, .refl hl⟩)]
    exact hl

/-- A stack with the entries that were there before keeps the protection they gave. -/
theorem Evo.restack (h : Evo D s s') {l : List ℕ} (hl : s.bddrefstack ⊆ l) :
    Evo D s { s' with bddrefstack := l } :=
  ⟨h.errorcond, fun _ hn => @BddState.Held.keep P s { s' with bddrefstack := l }
    (fun n hn => (h.same n hn).key) h.refcou hl _ hn,
    fun n hn => ⟨(h.same n hn).key, (h.same n hn).value⟩, h.const, h.refcou, h.env,
    h.checkSameChildren, h.constKey, h.told⟩

theorem Collected.evo (h : Collected D flight s s') : Evo D s s' := by
  have hheld : ∀ n, s.Held n → s'.Held n := fun n hn =>
    BddState.Held.keep h.key (fun n _ => h.refcou n) (by
      rw [h.rest.refstack]
      exact List.Subset.refl _) hn
  refine ⟨fun he => h.rest.errorcond.symm.trans he, hheld,
    fun n hn => ⟨h.key n hn, fun i hi => h.values i (Or.inl ⟨n, ?_⟩)⟩, fun n hn => ?_,
    fun n _ => h.refcou n, h.rest.env, h.rest.checkSameChildren, fun _ => h.const,
    fun _ => told_congr h.rest.errors⟩
  · rw [BddState.slot_congr (h.key n hn)]
    exact hi
  · rw [h.const n hn]

theorem Grown.same (h : Grown s s') {n : ℕ} (hn : s.IsNode n) : SameNode D s s' n :=
  ⟨h.key n hn, fun i _ => by rw [h.terminals]⟩

theorem Grown.evo (h : Grown s s') : Evo D s s' := by
  have hkey : ∀ n, s.Held n → s'.key n = s.key n := fun n hn => h.key n (Or.inr hn.live)
  refine ⟨fun he => h.errorcond.symm.trans he, fun n hn => BddState.Held.keep hkey
    (fun n _ => h.refcou n) (by
      rw [h.refstack]
      exact List.Subset.refl _) hn, fun n hn => h.same (Or.inr hn.live),
    fun n hn => ?_, fun n _ => h.refcou n, h.env, h.checkSameChildren,
    fun _ n hn => h.key n (Or.inl hn), fun _ => told_congr h.errors⟩
  rw [h.key n (Or.inl hn)]

/-! ## Making room -/

/-- What `makeRoom` may do: nothing that its caller sees but free or add slots. -/
structure Roomed (D : MtbddDomain P) (flight : List ℕ) (s s' : BddState P) : Prop where
  evo : Evo D s s'
  cache : ∀ k i, (s'.caches k).isValid i = false
  refstack : s'.bddrefstack = s.bddrefstack
  errors : s'.errors = s.errors
  errorcond : s'.bdderrorcond = s.bdderrorcond
  live : ∀ n, s'.live n = true ↔ s.Held n
  terminals : s'.terminals = sweptTerminals D s 2
  values : ∀ i, (∃ n, s'.slot D n = some i) ∨ i ∈ flight →
    s'.terminals.values i = s.terminals.values i

theorem makeRoom_spec (h : TableInv D isPrime flight s) :
    TableInv D isPrime flight (makeRoom D isPrime s) ∧
      Roomed D flight s (makeRoom D isPrime s) := by
  obtain ⟨hi, hc⟩ := bddGbc_spec h
  have hroom : Roomed D flight s (bddGbc D s) :=
    ⟨hc.evo, hc.cache, hc.rest.refstack, hc.rest.errors, hc.rest.errorcond, hc.live,
      hc.terminals, hc.values⟩
  unfold makeRoom
  dsimp only
  split
  · obtain ⟨hi', hg⟩ := bddNoderesize_spec hi
    have hslot : ∀ n i, (bddNoderesize D isPrime (bddGbc D s)).slot D n = some i →
        (bddGbc D s).slot D n = some i := by
      intro n i hn
      have hl := (BddState.slot_live hn).1
      rw [hg.live] at hl
      rw [← BddState.slot_congr (hg.key n (Or.inr hl))]
      exact hn
    refine ⟨hi', hroom.evo.trans hg.evo, fun k i => ?_, hg.refstack.trans hroom.refstack,
      hg.errors.trans hroom.errors, hg.errorcond.trans hroom.errorcond, fun n => ?_,
      hg.terminals.trans hroom.terminals, fun i hi => ?_⟩
    · rw [hg.caches]
      exact hroom.cache k i
    · rw [hg.live]
      exact hroom.live n
    · rw [hg.terminals]
      exact hroom.values i (hi.imp_left fun ⟨n, hn⟩ => ⟨n, hslot n i hn⟩)
  · exact ⟨hi, hroom⟩

/-! ## Inserting a node -/

/-- What `fill` does: one free slot becomes a node with the given key. -/
structure Inserted (s : BddState P) (key : BddKey) (n : ℕ) (s' : BddState P) : Prop where
  two_le : 2 ≤ n
  fresh : s.live n = false
  key : s'.key n = key
  other : ∀ m, m ≠ n → s'.key m = s.key m
  refcou : ∀ m, (s'.bddnodes m).refcou = (s.bddnodes m).refcou
  nodesize : s'.bddnodesize = s.bddnodesize
  refstack : s'.bddrefstack = s.bddrefstack
  checkSameChildren : s'.checkSameChildren = s.checkSameChildren
  errorcond : s'.bdderrorcond = s.bdderrorcond
  values : s'.terminals.values = s.terminals.values
  caches : s'.caches = s.caches
  env : s'.env = s.env
  errors : s'.errors = s.errors

section Inserted

variable {key : BddKey} {n : ℕ}

theorem Inserted.ne_of_live (h : Inserted s key n s') {m : ℕ} (hm : s.live m = true) : m ≠ n :=
  fun he => by
    rw [he, h.fresh] at hm
    exact Bool.false_ne_true hm

theorem Inserted.same (h : Inserted s key n s') {m : ℕ} (hm : s.live m = true) :
    SameNode D s s' m :=
  ⟨h.other m (h.ne_of_live hm), fun i _ => by rw [h.values]⟩

theorem Inserted.live_iff (h : Inserted s key n s') (hlow : key.low.isSome) (m : ℕ) :
    s'.live m = true ↔ s.live m = true ∨ m = n := by
  by_cases hm : m = n
  · subst hm
    have : s'.live m = true := by
      unfold BddState.live
      rw [h.key, hlow]
      simp [h.two_le]
    simp [this]
  · rw [BddState.live_congr (h.other m hm)]
    simp [hm]

theorem Inserted.evo (h : Inserted s key n s') : Evo D s s' := by
  have hkey : ∀ m, s.Held m → s'.key m = s.key m := fun m hm =>
    h.other m (h.ne_of_live hm.live)
  have hconst : ∀ m, m < 2 → s'.key m = s.key m := fun m hm => h.other m (by
    have := h.two_le
    omega)
  refine ⟨fun he => h.errorcond.symm.trans he, fun m hm => BddState.Held.keep hkey
    (fun m _ => h.refcou m) (by
      rw [h.refstack]
      exact List.Subset.refl _) hm, fun m hm => h.same hm.live, fun m hm => ?_,
    fun m _ => h.refcou m, h.env, h.checkSameChildren, fun _ => hconst,
    fun _ => told_congr h.errors⟩
  rw [hconst m hm]

theorem Inserted.cacheStable (h : Inserted s key n s') : CacheStable D s s' :=
  Or.inr ⟨h.caches, fun _ hm => h.same hm⟩

end Inserted

theorem fill_body (s : BddState P) (level low high b m : ℕ) :
    ((s.fill level low high b).bddnodes m).body =
      if m = s.bddfreepos then ⟨some low, high, 0, level, false, 0, 0⟩
      else (s.bddnodes m).body := by
  unfold BddState.fill
  rw [body_chainIn]
  simp only [BddState.setNode, Function.update_apply]
  split
  · rfl
  · rfl

theorem fill_links (s : BddState P) (level low high b : ℕ) :
    (s.fill level low high b).links = s.links.take.insert b s.bddfreepos := by
  unfold BddState.fill
  rw [links_chainIn]
  congr 1
  exact links_setNode _ rfl rfl

theorem fill_sameTerminals (s : BddState P) (level low high b : ℕ) :
    ({ s.fill level low high b with terminals := s.terminals } : BddState P) =
      s.fill level low high b := rfl

/-- Filling a slot: the new node, and everything else as it was but for the log. -/
theorem fill_inserted (h : TableInv D isPrime flight s) (hfree : s.bddfreepos ≠ 0)
    (level low high b : ℕ) {T : Terminals P} (hT : T.values = s.terminals.values) :
    Inserted s ⟨some low, high, level⟩ s.bddfreepos
      { s.fill level low high b with terminals := T } := by
  obtain ⟨hf2, -, hfl⟩ := h.threaded.free.head (L := s.links) hfree
  have hfresh : s.live s.bddfreepos = false := by
    have : s.live s.bddfreepos ≠ true := hfl
    simpa using this
  have hbody := fill_body s level low high b
  refine ⟨hf2, hfresh, ?_, fun m hm => BddNode.key_of_body ((hbody m).trans (if_neg hm)),
    fun m => ?_, rfl, rfl, rfl, rfl, hT, rfl, rfl, rfl⟩
  · have hk := congrArg BddNode.key (hbody s.bddfreepos)
    rw [if_pos rfl] at hk
    exact hk
  · have hr := congrArg BddNode.refcou (hbody m)
    by_cases hm : m = s.bddfreepos
    · rw [if_pos hm] at hr
      have h0 : ((s.fill level low high b).bddnodes m).refcou = 0 := hr
      rw [h0, hm]
      by_contra hne
      have hf2' : 2 ≤ s.bddfreepos := hf2
      have hl := (h.refcou s.bddfreepos (Nat.pos_of_ne_zero (Ne.symm hne))).resolve_left (by omega)
      rw [hfresh] at hl
      exact Bool.false_ne_true hl
    · rw [if_neg hm] at hr
      exact hr

/-- Filling a slot keeps the invariant if the node is put into its bucket and is new, and if the
value slots and the log are those of the new state. -/
theorem fill_spec (h : TableInv D isPrime flight s) (hfree : s.bddfreepos ≠ 0)
    {level low high b : ℕ} {flight' : List ℕ} {T : Terminals P}
    (hT : T.values = s.terminals.values) (hlevel : level < 2 ^ 21)
    (hb : b = ({ s.fill level low high b with terminals := T } : BddState P).bucket D s.bddfreepos)
    (hnew : level ≠ maxlevel ∨ D.domaintype.notShort = false →
      ∀ n, s.live n = true → s.key n ≠ ⟨some low, high, level⟩)
    (hterm : TermInv (({ s.fill level low high b with terminals := T } : BddState P).slot D)
      flight' T)
    (hword : D.domaintype.notShort = false → level = maxlevel → low = 42 ∧ high < 2 ^ 32)
    (htype : D.domaintype = .custom → level = maxlevel →
      low < D.typeNumber ∧ (D.comparefun low).isSome)
    (hvalue : level = maxlevel → D.stored = true → ∀ n i v w, s.slot D n = some i →
      (s.key n).low = some low → s.terminals.values i = some v →
      s.terminals.values high = some w → D.twins low w v = false) :
    TableInv D isPrime flight' { s.fill level low high b with terminals := T } := by
  have hins := fill_inserted h hfree level low high b hT
  obtain ⟨-, hfs, -⟩ := h.threaded.free.head (L := s.links) hfree
  have hmark : ∀ n, (({ s.fill level low high b with terminals := T } : BddState P).bddnodes
      n).body = if n = s.bddfreepos then ⟨some low, high, 0, level, false, 0, 0⟩
        else (s.bddnodes n).body := fill_body s level low high b
  have hlinks : ({ s.fill level low high b with terminals := T } : BddState P).links =
      s.links.take.insert b s.bddfreepos := fill_links s level low high b
  have hnodesize : ({ s.fill level low high b with terminals := T } : BddState P).bddnodesize =
      s.bddnodesize := rfl
  have hterminals : ({ s.fill level low high b with terminals := T } : BddState P).terminals = T :=
    rfl
  have hcaches : ({ s.fill level low high b with terminals := T } : BddState P).caches = s.caches :=
    rfl
  -- from here on the new state is known by these facts only
  generalize ({ s.fill level low high b with terminals := T } : BddState P) = u at *
  have hlive := hins.live_iff rfl
  have hne : ∀ n, s.live n = true → n ≠ s.bddfreepos := fun n hn => hins.ne_of_live hn
  have hslot : ∀ n, s.live n = true → u.slot D n = s.slot D n :=
    fun n hn => BddState.slot_congr (hins.other n (hne n hn))
  refine
    { size := by rw [hnodesize]; exact h.size, beyond := fun n hn => ?_,
      refcou := fun n hn => ?_, mark := fun n => ?_, level := fun n => ?_,
      free := fun n hn hl => ?_, threaded := ?_, unique := fun n m hn hm hp hnm => ?_,
      term := by rw [hterminals]; exact hterm, word := fun hD n hn hlev => ?_,
      type := fun hD n hn hlev => ?_,
      termUnique := fun n m i j v w hi hj hlow hv hw hsame => ?_,
      caches := by rw [hcaches]; exact h.caches }
  · rw [hnodesize] at hn
    have hfs' : s.bddfreepos < s.bddnodesize := hfs
    rw [BddState.live_congr (hins.other n (by omega))]
    exact h.beyond n hn
  · rw [hins.refcou] at hn
    exact (h.refcou n hn).imp_right fun hl => (hlive n).mpr (Or.inl hl)
  · have hm := congrArg BddNode.mark (hmark n)
    by_cases hn : n = s.bddfreepos
    · rw [if_pos hn] at hm
      exact hm
    · rw [if_neg hn] at hm
      exact Eq.trans hm (h.mark n)
  · by_cases hn : n = s.bddfreepos
    · rw [hn, hins.key]
      exact hlevel
    · rw [hins.other n hn]
      exact h.level n
  · have hn' : n ≠ s.bddfreepos := fun he => by
      rw [(hlive n).mpr (Or.inr he)] at hl
      exact Bool.false_ne_true hl.symm
    rw [hins.other n hn']
    rw [BddState.live_congr (hins.other n hn')] at hl
    exact h.free n hn hl
  · rw [hlinks, hnodesize]
    refine (h.threaded.alloc hfree b).congr (fun n _ _ => hlive n) fun n _ _ hn => ?_
    have hpos : s.links.free = s.bddfreepos := rfl
    rw [hpos]
    rcases hn with hn | hn
    · rw [Function.update_of_ne (hne n hn)]
      exact BddState.bucket_congr (hins.other n (hne n hn)) hnodesize fun _ _ => by
        rw [hins.values]
    · have hn' : n = s.bddfreepos := hn
      rw [hn', Function.update_self]
      exact hb.symm
  · rcases (hlive n).mp hn with hn | hn <;> rcases (hlive m).mp hm with hm | hm
    · rw [hins.other n (hne n hn)] at hp hnm
      rw [hins.other m (hne m hm)] at hnm
      exact h.unique n m hn hm hp hnm
    · rw [hins.other n (hne n hn)] at hp hnm
      rw [hm, hins.key] at hnm
      rw [hnm] at hp
      exact absurd hnm (hnew hp n hn)
    · rw [hn, hins.key] at hp hnm
      rw [hins.other m (hne m hm)] at hnm
      exact absurd hnm.symm (hnew hp m hm)
    · rw [hn, hm]
  · rcases (hlive n).mp hn with hn | hn
    · rw [hins.other n (hne n hn)] at hlev ⊢
      exact h.word hD n hn hlev
    · rw [hn, hins.key] at hlev ⊢
      obtain ⟨hlow, hhigh⟩ := hword hD hlev
      exact ⟨congrArg some hlow, hhigh⟩
  · rcases (hlive n).mp hn with hn | hn
    · rw [hins.other n (hne n hn)] at hlev ⊢
      exact h.type hD n hn hlev
    · rw [hn, hins.key] at hlev ⊢
      obtain ⟨hlt, hcmp⟩ := htype hD hlev
      exact ⟨low, hlt, rfl, hcmp⟩
  · obtain ⟨hn, hnlev, hst, hnhigh⟩ := BddState.slot_live hi
    obtain ⟨hm, hmlev, -, hmhigh⟩ := BddState.slot_live hj
    rw [hins.values] at hv hw
    rcases (hlive n).mp hn with hn | hn <;> rcases (hlive m).mp hm with hm | hm
    · rw [hslot n hn] at hi
      rw [hslot m hm] at hj
      rw [hins.other n (hne n hn)] at hlow hsame
      rw [hins.other m (hne m hm)] at hlow
      exact h.termUnique n m i j v w hi hj hlow hv hw hsame
    · rw [hslot n hn] at hi
      rw [hins.other n (hne n hn)] at hlow hsame
      rw [hm, hins.key] at hlow hmlev hmhigh
      have hj' : high = j := hmhigh
      have hw' : s.terminals.values high = some w := by rw [hj']; exact hw
      have hno := hvalue hmlev hst n i v w hi hlow hv hw'
      rw [hlow, Option.getD_some, MtbddDomain.twins_symm, hno] at hsame
      exact absurd hsame Bool.false_ne_true
    · rw [hslot m hm] at hj
      rw [hn, hins.key] at hlow hnlev hnhigh hsame
      rw [hins.other m (hne m hm)] at hlow
      have hi' : high = i := hnhigh
      have hv' : s.terminals.values high = some v := by rw [hi']; exact hv
      have hno := hvalue hnlev hst m j w v hj hlow.symm hw hv'
      rw [Option.getD_some, hno] at hsame
      exact absurd hsame Bool.false_ne_true
    · rw [hn, hm]

/-! ## `bdd_makenode` -/

/-- The cases of `bdd_makenode`. -/
inductive MakeOutcome (s : BddState P) (level low high : ℕ) (r : ℕ × BddState P) : Prop
  /-- Both children are the same node. -/
  | skip (check : s.checkSameChildren = true) (decision : level ≠ maxlevel) (same : low = high)
      (node : r.1 = low) (state : r.2 = s)
  /-- No slot could be had. -/
  | full (node : r.1 = 0) (errorcond : r.2.bdderrorcond = true)
  /-- The node was found or made. -/
  | node (differ : s.checkSameChildren = true → level ≠ maxlevel → low ≠ high) (live : r.2.live r.1 = true)
      (key : r.2.key r.1 = ⟨some low, high, level⟩)
      (errorcond : r.2.bdderrorcond = s.bdderrorcond) (errors : r.2.errors = s.errors)

/-- Node `n` was there before, and so were its children, which are still there. -/
structure Kept (D : MtbddDomain P) (s s' : BddState P) (n : ℕ) : Prop where
  same : SameNode D s s' n
  live : s.live n = true
  child : ∀ m ∈ s.succ n, s.live m = true → SameNode D s s' m

theorem Kept.refl {n : ℕ} (hn : s.live n = true) : Kept D s s n :=
  ⟨.refl s n, hn, fun m _ _ => .refl s m⟩

/-- What `bdd_makenode` guarantees for a decision. -/
structure MakeSpec (D : MtbddDomain P) (isPrime : ℕ → Bool) (flight : List ℕ) (s : BddState P)
    (level low high : ℕ) (r : ℕ × BddState P) : Prop where
  inv : TableInv D isPrime flight r.2
  evo : Evo D s r.2
  cache : CacheStable D s r.2
  refstack : r.2.bddrefstack = s.bddrefstack
  outcome : MakeOutcome s level low high r
  back : ∀ n, r.2.live n = true →
    Kept D s r.2 n ∨ n = r.1 ∧ r.2.key n = ⟨some low, high, level⟩

theorem keyMatches_iff {level low high n : ℕ} :
    keyMatches s level low high n = true ↔ s.key n = ⟨some low, high, level⟩ := by
  simp only [keyMatches, BddState.key, BddNode.key, BddKey.mk.injEq, Bool.and_eq_true,
    decide_eq_true_eq]
  tauto

/-- A decision owns no value slot. -/
theorem slot_decision {n : ℕ} {key : BddKey} (h : s.key n = key)
    (hp : key.level ≠ maxlevel ∨ D.stored = false) : s.slot D n = none := by
  unfold BddState.slot
  rw [if_neg]
  intro hc
  rw [h] at hc
  rcases hp with hp | hp
  · exact hp hc.2.1
  · rw [hp] at hc
    exact Bool.false_ne_true hc.2.2

theorem stored_of_notShort_false (h : D.domaintype.notShort = false) : D.stored = false := by
  unfold DomainTypes.notShort at h
  unfold MtbddDomain.stored
  cases hd : D.domaintype <;> rw [hd] at h <;> first | rfl | simp at h

/-- The bucket of a decision, or of a terminal that keeps its value in the node. -/
theorem bucket_decision {n level low high : ℕ} (h : s.key n = ⟨some low, high, level⟩)
    (hp : level ≠ maxlevel ∨ D.domaintype.notShort = false) :
    s.bucket D n = nodehash s.bddnodesize level low high := by
  have hlev : (s.bddnodes n).level = level := congrArg BddKey.level h
  have hlow : (s.bddnodes n).low = some low := congrArg BddKey.low h
  have hhigh : (s.bddnodes n).high = high := congrArg BddKey.high h
  unfold BddState.bucket
  simp only [hlev, hlow, hhigh, Option.getD_some]
  rw [if_neg]
  intro hc
  rcases hp with hp | hp
  · exact hp hc.1
  · rw [hp] at hc
    exact Bool.false_ne_true hc.2

/-- Inserting a decision, or a terminal that keeps its value in the node. -/
theorem bddInsert_spec (h : TableInv D isPrime flight s) (hfree : s.bddfreepos ≠ 0)
    {level low high : ℕ} (hlevel : level < 2 ^ 21)
    (hp : level ≠ maxlevel ∨ D.domaintype.notShort = false)
    (hword : level = maxlevel → low = 42 ∧ high < 2 ^ 32)
    (hnew : ∀ n, s.live n = true → s.key n ≠ ⟨some low, high, level⟩) :
    TableInv D isPrime flight (bddInsert s level low high).2 ∧
      Inserted s ⟨some low, high, level⟩ (bddInsert s level low high).1
        (bddInsert s level low high).2 := by
  unfold bddInsert
  rw [Nat.mod_eq_of_lt hlevel]
  have hins := fill_inserted h hfree level low high (nodehash s.bddnodesize level low high)
    (T := s.terminals) rfl
  have hspec := fun hb hterm =>
    @fill_spec P D isPrime flight s h hfree level low high
      (nodehash s.bddnodesize level low high) flight s.terminals rfl hlevel hb (fun _ => hnew)
      hterm (fun _ => hword)
  rw [fill_sameTerminals] at hins hspec
  have hstored : level ≠ maxlevel ∨ D.stored = false := hp.imp_right stored_of_notShort_false
  have hslot : (s.fill level low high (nodehash s.bddnodesize level low high)).slot D =
      s.slot D := by
    funext n
    by_cases hn : n = s.bddfreepos
    · rw [hn, slot_decision hins.key hstored]
      unfold BddState.slot
      rw [hins.fresh, if_neg (fun hc => Bool.false_ne_true hc.1)]
    · exact BddState.slot_congr (hins.other n hn)
  refine ⟨hspec ?_ (by rw [hslot]; exact h.term) (fun hD hlev => ?_) (fun hlev hst => ?_), hins⟩
  · exact (bucket_decision hins.key hp).symm
  · rcases hp with hp | hp
    · exact absurd hlev hp
    · rw [hD] at hp
      exact absurd hp.symm (by decide)
  · rcases hstored with hs | hs
    · exact absurd hlev hs
    · rw [hs] at hst
      exact absurd hst Bool.false_ne_true

theorem bddMakenode_spec (h : TableInv D isPrime flight s) {level low high : ℕ}
    (hlevel : level < 2 ^ 21) (hp : level ≠ maxlevel ∨ D.domaintype.notShort = false)
    (hword : level = maxlevel → low = 42 ∧ high < 2 ^ 32) :
    MakeSpec D isPrime flight s level low high (bddMakenode D isPrime s level low high) := by
  have hlookup : (decide (level ≠ maxlevel) || !D.domaintype.notShort) = true := by
    rcases hp with hp | hp <;> simp [hp]
  unfold bddMakenode
  dsimp only
  rw [hlookup]
  by_cases hskip : True ∧ s.checkSameChildren = true ∧ level ≠ maxlevel ∧ low = high
  · rw [if_pos (by simpa using hskip)]
    exact ⟨h, .refl s, .refl s, rfl, .skip hskip.2.1 hskip.2.2.1 hskip.2.2.2 rfl rfl,
      fun n hn => Or.inl (.refl hn)⟩
  rw [if_neg (by simpa using hskip), if_pos rfl]
  have hsearch := h.threaded.search_spec
    (nodehash_lt (by have := h.size.1; omega) level low high) (keyMatches s level low high)
  simp only [BddState.links] at hsearch
  set res := search (keyMatches s level low high) (fun n => (s.bddnodes n).next)
    (s.bddnodesize + 1) (s.bddnodes (nodehash s.bddnodesize level low high)).hash
  have hdiffer : s.checkSameChildren = true → level ≠ maxlevel → low ≠ high :=
    fun hc hl he => hskip ⟨trivial, hc, hl, he⟩
  rcases hsearch with ⟨h0, hmiss⟩ | ⟨hres, -, -, hlive, -, hmatch⟩
  · rw [if_neg (by simpa using h0)]
    have hnew : ∀ n, s.live n = true → s.key n ≠ ⟨some low, high, level⟩ := by
      intro n hn hkey
      have hno := hmiss n (BddState.live_iff.mp hn).1 (h.live_lt hn) hn (bucket_decision hkey hp)
      rw [keyMatches_iff.mpr hkey] at hno
      exact Bool.false_ne_true hno.symm
    by_cases hfree : s.bddfreepos ≠ 0
    · rw [if_pos hfree]
      obtain ⟨hi, hins⟩ := bddInsert_spec h hfree hlevel hp hword hnew
      -- from here on only `hins` matters: the slots of the new state are not to be computed
      generalize bddInsert s level low high = r at hi hins ⊢
      obtain ⟨n, t⟩ := r
      have hlive := hins.live_iff rfl
      refine ⟨hi, hins.evo, hins.cacheStable, hins.refstack,
        .node hdiffer ((hlive n).mpr (Or.inr rfl)) hins.key hins.errorcond hins.errors,
        fun m hm => ?_⟩
      rcases (hlive m).mp hm with hm | hm
      · exact Or.inl ⟨hins.same hm, hm, fun c _ hc => hins.same hc⟩
      · exact Or.inr ⟨hm, hm ▸ hins.key⟩
    · rw [if_neg hfree]
      by_cases herr : s.bdderrorcond = true
      · rw [if_pos herr]
        exact ⟨h, .refl s, .refl s, rfl, .full rfl herr, fun n hn => Or.inl (.refl hn)⟩
      rw [if_neg herr]
      obtain ⟨hi, hr⟩ := makeRoom_spec h
      generalize makeRoom D isPrime s = t at hi hr ⊢
      have hback : ∀ n, t.live n = true → Kept D s t n := fun n hn =>
        have hheld := (hr.live n).mp hn
        ⟨hr.evo.same n hheld, hheld.live, fun m hm hl => hr.evo.same m (hheld.child hm hl)⟩
      by_cases hfree' : t.bddfreepos = 0
      · rw [if_pos hfree']
        have hi' : TableInv D isPrime flight { t.error .nodenum with bdderrorcond := true } :=
          { hi with }
        have hevo : Evo D s { t.error .nodenum with bdderrorcond := true } :=
          ⟨fun he => absurd he.symm Bool.false_ne_true, hr.evo.held, fun n hn =>
            ⟨(hr.evo.same n hn).key, (hr.evo.same n hn).value⟩, hr.evo.const, hr.evo.refcou,
            hr.evo.env, hr.evo.checkSameChildren, fun he => absurd he.symm Bool.false_ne_true,
            fun he => absurd he.symm Bool.false_ne_true⟩
        refine ⟨hi', hevo, Or.inl hr.cache, hr.refstack, .full rfl rfl, fun n hn => ?_⟩
        have hk := hback n hn
        exact Or.inl ⟨⟨hk.same.key, hk.same.value⟩, hk.live, fun m hm hl =>
          ⟨(hk.child m hm hl).key, (hk.child m hm hl).value⟩⟩
      · rw [if_neg hfree']
        obtain ⟨hi', hins⟩ := bddInsert_spec hi hfree' hlevel hp hword fun n hn => by
          have hk := hback n hn
          rw [hk.same.key]
          exact hnew n hk.live
        generalize bddInsert t level low high = r at hi' hins ⊢
        obtain ⟨n, u⟩ := r
        have hlive := hins.live_iff rfl
        refine ⟨hi', hr.evo.trans hins.evo, Or.inl (fun k i => ?_), hins.refstack.trans hr.refstack,
          .node hdiffer ((hlive n).mpr (Or.inr rfl)) hins.key
            (hins.errorcond.trans hr.errorcond) (hins.errors.trans hr.errors),
          fun m hm => ?_⟩
        · rw [hins.caches]
          exact hr.cache k i
        · rcases (hlive m).mp hm with hm | hm
          · have hk := hback m hm
            exact Or.inl ⟨hk.same.trans (hins.same hm), hk.live,
              fun c hc hl => (hk.child c hc hl).trans (hins.same ((hk.child c hc hl).live hl))⟩
          · exact Or.inr ⟨hm, hm ▸ hins.key⟩
  · rw [if_pos hres]
    exact ⟨h, .refl s, .refl s, rfl, .node hdiffer hlive (keyMatches_iff.mp hmatch) rfl rfl,
      fun n hn => Or.inl (.refl hn)⟩

/-! ## Free slots -/

/-- The first `k` slots of the free list. -/
def BddState.freeSlots (s : BddState P) (k : ℕ) : List ℕ :=
  List.iterate s.links.next s.links.free k

/-- The free list has at least `k` slots. -/
def BddState.Room (s : BddState P) (k : ℕ) : Prop :=
  0 ∉ s.freeSlots k ∧ (s.freeSlots k).Nodup

instance (s : BddState P) (k : ℕ) : Decidable (s.Room k) := inferInstanceAs (Decidable (_ ∧ _))

section Room

variable {k : ℕ}

theorem BddState.Room.mono {j : ℕ} (h : s.Room k) (hj : j ≤ k) : s.Room j := by
  have htake : s.freeSlots j = (s.freeSlots k).take j := by
    unfold BddState.freeSlots
    rw [List.take_iterate, Nat.min_eq_left hj]
  unfold BddState.Room
  rw [htake]
  exact ⟨fun h0 => h.1 (List.mem_of_mem_take h0), h.2.sublist (List.take_sublist j _)⟩

theorem iterate_of_chain {next : ℕ → ℕ} {a : ℕ} {l : List ℕ} (hl : IsChain next a l) :
    List.iterate next a l.length = l := by
  induction l generalizing a with
  | nil => rfl
  | cons n l ih =>
    obtain ⟨rfl, -, hl⟩ := hl
    exact congrArg _ (ih hl)

theorem BddState.Room.of_chain {l : List ℕ} (hl : IsChain s.links.next s.links.free l)
    (hnodup : l.Nodup) : s.Room l.length := by
  unfold BddState.Room BddState.freeSlots
  rw [iterate_of_chain hl]
  exact ⟨fun h0 => hl.ne_zero_of_mem h0 rfl, hnodup⟩

theorem BddState.Room.freepos (h : s.Room (k + 1)) : s.bddfreepos ≠ 0 :=
  fun h0 => h.1 (h0 ▸ List.mem_cons_self)

theorem iterate_update {next : ℕ → ℕ} {m v a : ℕ} (h : m ∉ List.iterate next a k) :
    List.iterate (Function.update next m v) a k = List.iterate next a k := by
  induction k generalizing a with
  | zero => rfl
  | succ k ih =>
    obtain ⟨hne, hnot⟩ := not_or.mp (mt List.mem_cons.mpr h)
    unfold List.iterate
    rw [Function.update_of_ne (Ne.symm hne), ih hnot]

/-- The slot that is filled was the first of the free list. -/
theorem bddInsert_room (h : s.Room (k + 1)) (level low high : ℕ) :
    (bddInsert s level low high).2.Room k := by
  obtain ⟨h0, hnodup⟩ := h
  obtain ⟨hnot, hnodup⟩ := List.nodup_cons.mp hnodup
  have hslots : (bddInsert s level low high).2.freeSlots k =
      List.iterate s.links.next (s.links.next s.links.free) k := by
    unfold bddInsert BddState.freeSlots
    dsimp only
    rw [fill_links]
    exact iterate_update hnot
  unfold BddState.Room
  rw [hslots]
  exact ⟨fun hmem => h0 (List.mem_cons_of_mem _ hmem), hnodup⟩

/-- With a free slot `bdd_makenode` neither collects nor reports anything. -/
theorem bddMakenode_room (hok : s.bdderrorcond = false) (h : s.Room (k + 1))
    (level low high : ℕ) :
    (bddMakenode D isPrime s level low high).2.bdderrorcond = false ∧
      (bddMakenode D isPrime s level low high).2.Room k := by
  have hfree := h.freepos
  have hless : s.Room k := h.mono (Nat.le_succ k)
  unfold bddMakenode
  dsimp only
  split_ifs
  · exact ⟨hok, hless⟩
  · exact ⟨hok, hless⟩
  · exact ⟨hok, bddInsert_room h level low high⟩
  · exact ⟨hok, hless⟩
  · exact ⟨hok, bddInsert_room h level low high⟩

end Room

end MoToBuddy.Bdd
