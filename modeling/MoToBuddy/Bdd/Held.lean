import MoToBuddy.Bdd.SatcountLaws
import MoToBuddy.Bdd.Substitution

/-!
# Operations in a loop

A loop of operations holds a reference to what it has made so far while the next operation runs.
`Denotes` says what that is, the diagram of a function unless something was reported, and
`BddState.Covers` counts the references. `apply_held` is one operation of such a loop.
-/

namespace MoToBuddy.Bdd

open Decision BoolFun

variable {P : Type*} {D : MtbddDomain P} {isPrime : ℕ → Bool} {T : Theory P} {s s' s'' : BddState P}
  {f F G : (ℕ → Bool) → Bool} {L : List ℕ} {n r : ℕ}

/-- The diagram of a function, unless something was reported. -/
def Denotes (D : MtbddDomain P) (s : BddState P) (n : ℕ) (F : (ℕ → Bool) → Bool) : Prop :=
  ∃ G, s.Represents D n G ∧ (s.Ok → G = F)

/-- What leaves the variables and their order alone. -/
structure Proceeds (T : Theory P) (s s' : BddState P) : Prop where
  good : Good T s'
  ok : s'.Ok → s.Ok
  level2var : s'.env.bddlevel2var = s.env.bddlevel2var
  var2level : s'.env.bddvar2level = s.env.bddvar2level
  varnum : s'.env.bddvarnum = s.env.bddvarnum

/-- What was made of `s`: a diagram of `F`, with the references `L` still there. -/
structure Built (T : Theory P) (s : BddState P) (L : List ℕ) (F : (ℕ → Bool) → Bool)
    (r : ℕ × BddState P) : Prop where
  proceeds : Proceeds T s r.2
  covers : r.2.Covers L
  result : Denotes T.D r.2 r.1 F

theorem Denotes.isNode (h : Denotes D s n F) : s.IsNode n := by
  obtain ⟨G, ⟨t, hr, -⟩, -⟩ := h
  exact hr.isNode

theorem denotes_zero (s : BddState P) : Denotes D s 0 fun _ => false :=
  ⟨_, ⟨_, .const false, trivial, fun _ => rfl⟩, fun _ => rfl⟩

theorem denotes_one (s : BddState P) : Denotes D s 1 fun _ => true :=
  ⟨_, ⟨_, .const true, trivial, fun _ => rfl⟩, fun _ => rfl⟩

theorem Denotes.congr (h : Denotes D s n F) (hFG : ∀ a, F a = G a) : Denotes D s n G :=
  funext hFG ▸ h

theorem Denotes.survives (h : Denotes D s n F) (hs : Survives D s s') (hok : s'.Ok → s.Ok) :
    Denotes D s' n F := by
  obtain ⟨G, hG, hGF⟩ := h
  exact ⟨G, hs.represents hG, fun h => hGF (hok h)⟩

theorem Denotes.keeps (h : Denotes D s n F) (hs : Keeps D s s') (href : s.Referenced n) :
    Denotes D s' n F := by
  obtain ⟨G, hG, hGF⟩ := h
  exact ⟨G, (hs.usable ⟨href, hG⟩).2, fun h => hGF (hs.ok h)⟩

theorem Proceeds.refl (hs : Good T s) : Proceeds T s s := ⟨hs, id, rfl, rfl, rfl⟩

theorem Proceeds.trans (h : Proceeds T s s') (h' : Proceeds T s' s'') : Proceeds T s s'' :=
  ⟨h'.good, fun hok => h.ok (h'.ok hok), h'.level2var.trans h.level2var,
    h'.var2level.trans h.var2level, h'.varnum.trans h.varnum⟩

theorem Proceeds.of_survives (hs : Good T s') (h : Survives T.D s s') (hok : s'.Ok → s.Ok) :
    Proceeds T s s' := ⟨hs, hok, by rw [h.env], by rw [h.env], by rw [h.env]⟩

theorem Built.trans {r : ℕ × BddState P} (h : Proceeds T s s') (h' : Built T s' L F r) :
    Built T s L F r := ⟨h.trans h'.proceeds, h'.covers, h'.result⟩

theorem bddDelref_ok (s : BddState P) (n : ℕ) : (bddDelref s n).Ok ↔ s.Ok := by
  unfold bddDelref changeref decref BddState.Ok
  dsimp only
  split_ifs <;> rfl

theorem bddAddref_ok (s : BddState P) (n : ℕ) : (bddAddref s n).Ok ↔ s.Ok := by
  unfold bddAddref changeref incref BddState.Ok
  dsimp only
  split_ifs <;> rfl

theorem proceeds_addref (hs : Good T s) (n : ℕ) : Proceeds T s (bddAddref s n) :=
  .of_survives (hs.addref n) (survives_addref s n) (bddAddref_ok s n).mp

theorem proceeds_delref (hs : Good T s) (n : ℕ) : Proceeds T s (bddDelref s n) :=
  .of_survives (hs.delref n) (survives_delref s n) (bddDelref_ok s n).mp

theorem Denotes.addref (h : Denotes D s n F) (m : ℕ) : Denotes D (bddAddref s m) n F :=
  h.survives (survives_addref s m) (bddAddref_ok s m).mp

theorem Denotes.delref (h : Denotes D s n F) (m : ℕ) : Denotes D (bddDelref s m) n F :=
  h.survives (survives_delref s m) (bddDelref_ok s m).mp

/-- A reference that was taken is given back. -/
theorem Built.delref {r : ℕ × BddState P} {m : ℕ} (h : Built T s (m :: L) F r) :
    Built T s L F (r.1, bddDelref r.2 m) :=
  ⟨h.proceeds.trans (proceeds_delref h.proceeds.good m), h.covers.delref, h.result.delref m⟩

/-- A reference to the result is taken. -/
theorem Built.addref {r : ℕ × BddState P} (h : Built T s L F r) :
    Built T s (r.1 :: L) F (r.1, bddAddref r.2 r.1) :=
  ⟨h.proceeds.trans (proceeds_addref h.proceeds.good r.1),
    h.covers.addref h.proceeds.good h.result.isNode, h.result.addref r.1⟩

/-! ## One operation -/

/-- What an operation returns is a plain diagram, also after an error. -/
theorem Theory.Operates.apply_represents (hT : T.Operates) (hs : Good T s) (op : BddOp) {l : ℕ}
    {g : (ℕ → Bool) → Bool} (hl : s.Usable T.D l f) (hr : s.Usable T.D r g) :
    ∃ res, bddApply T.D T.isPrime l r op.code s = some res ∧ Good T res.2 ∧ Keeps T.D s res.2 ∧
      ∃ F, res.2.Represents T.D res.1 F ∧ (res.2.Ok → F = fun a => op.fn (f a) (g a)) := by
  obtain ⟨res, hres, hcall⟩ := hT.apply_called hs op hl hr
  refine ⟨res, hres, hcall.good, hcall.keeps, ?_⟩
  unfold bddApply at hres
  rw [checka_node hs hl.isNode, checka_node hs hr.isNode, op.ofCode_code] at hres
  obtain ⟨tl, hol, hbl, -⟩ := hs.operand hl
  obtain ⟨tr, hor, hbr, -⟩ := hs.operand hr
  obtain ⟨res', hres', hfin⟩ := operation_finished hs.sane (applyRec_computes
    (hT.quantifiers _ _).toOperators op hs.initref hol hor hbl hbr tl.above_zero tr.above_zero
    (Setting.depth_bound _ 0))
  have hsame : res' = res := Option.some.inj (hres'.symm.trans hres)
  obtain ⟨t, hreads, hc⟩ := hfin.result
  rw [hsame] at hreads hc
  refine ⟨_, ⟨t, hreads, hc.isBool, fun a => rfl⟩, fun hok => funext fun a => ?_⟩
  obtain ⟨t', hreads', -, hf⟩ := hcall.result hok
  rw [hreads.unique hreads', hf]

/-- The same for `bdd_ite`. -/
theorem Theory.Operates.ite_represents (hT : T.Operates) (hs : Good T s) {l r : ℕ}
    {g h : (ℕ → Bool) → Bool} (hl : s.Usable T.D l f) (hr : s.Usable T.D r g)
    (hn : s.Usable T.D n h) :
    ∃ res, bddIte T.D T.isPrime l r n s = some res ∧ Good T res.2 ∧ Keeps T.D s res.2 ∧
      ∃ F, res.2.Represents T.D res.1 F ∧ (res.2.Ok → F = fun a => if f a then g a else h a) := by
  obtain ⟨res, hres, hcall⟩ := hT.ite_called hs hl hr hn
  refine ⟨res, hres, hcall.good, hcall.keeps, ?_⟩
  unfold bddIte at hres
  rw [checka_node hs hl.isNode, checka_node hs hr.isNode, checka_node hs hn.isNode] at hres
  obtain ⟨tf, hof, hbf, -⟩ := hs.operand hl
  obtain ⟨tg, hog, hbg, -⟩ := hs.operand hr
  obtain ⟨th, hoh, hbh, -⟩ := hs.operand hn
  obtain ⟨res', hres', hfin⟩ := operation_finished hs.sane (iteRec_computes
    (hT.quantifiers _ _).toOperators hs.initref hof hog hoh hbf hbg hbh tf.above_zero
    tg.above_zero th.above_zero (Setting.depth_bound _ 0))
  have hsame : res' = res := Option.some.inj (hres'.symm.trans hres)
  obtain ⟨t, hreads, hc⟩ := hfin.result
  rw [hsame] at hreads hc
  refine ⟨_, ⟨t, hreads, hc.isBool, fun a => rfl⟩, fun hok => funext fun a => ?_⟩
  obtain ⟨t', hreads', -, hf⟩ := hcall.result hok
  rw [hreads.unique hreads', hf]

/-- The node of a variable can be used. -/
theorem Good.ithvar_usable (hs : Good T s) {v : ℕ} (hv : v < s.env.bddvarnum) :
    s.Usable T.D (s.env.bddvarset (2 * v)) fun a => a v := by
  have hpin := hs.order.pos v hv
  have hpin' : Pinned s.initref (s.env.bddvarset (2 * v)) (s.env.bddvar2level v) 0 1 :=
    ⟨hpin.live, hpin.key, hpin.refcou⟩
  exact ⟨Or.inr hpin'.held, hs.ithvar_represents hv⟩

/-- An operation keeps the references and what they are to. -/
theorem apply_built (hT : T.Operates) (hs : Good T s) (op : BddOp) {l r : ℕ}
    (hl : Denotes T.D s l F) (hrefl : s.Referenced l) (hr : Denotes T.D s r G)
    (hrefr : s.Referenced r) (hL : s.Covers L) :
    ∃ res, bddApply T.D T.isPrime l r op.code s = some res ∧
      Built T s L (fun a => op.fn (F a) (G a)) res ∧ Keeps T.D s res.2 := by
  obtain ⟨F', hF', hFF'⟩ := hl
  obtain ⟨G', hG', hGG'⟩ := hr
  obtain ⟨res, hres, hgood, hk, H, hH, hHok⟩ :=
    hT.apply_represents hs op ⟨hrefl, hF'⟩ ⟨hrefr, hG'⟩
  refine ⟨res, hres, ⟨⟨hgood, hk.ok, hk.level2var, hk.order.2.1, hk.varnum⟩,
    hL.of_le fun n hn => Or.inr (hk.refcou n hn), H, hH, fun hok => ?_⟩, hk⟩
  rw [hHok hok, hFF' (hk.ok hok), hGG' (hk.ok hok)]

/-- The node that decides on a variable between two diagrams. -/
theorem ite_built (hT : T.Operates) (hs : Good T s) {v l r : ℕ} (hv : v < s.env.bddvarnum)
    (hl : Denotes T.D s l F) (hrefl : s.Referenced l) (hr : Denotes T.D s r G)
    (hrefr : s.Referenced r) :
    ∃ res, bddIte T.D T.isPrime (s.env.bddvarset (2 * v)) l r s = some res ∧ Good T res.2 ∧
      Keeps T.D s res.2 ∧ Denotes T.D res.2 res.1 fun a => if a v then F a else G a := by
  obtain ⟨F', hF', hFF'⟩ := hl
  obtain ⟨G', hG', hGG'⟩ := hr
  obtain ⟨res, hres, hgood, hk, H, hH, hHok⟩ :=
    hT.ite_represents hs (hs.ithvar_usable hv) ⟨hrefl, hF'⟩ ⟨hrefr, hG'⟩
  refine ⟨res, hres, hgood, hk, H, hH, fun hok => ?_⟩
  rw [hHok hok, hFF' (hk.ok hok), hGG' (hk.ok hok)]

/-- The same, where the right operand is one that a loop holds. -/
theorem apply_held (hT : T.Operates) (hs : Good T s) (op : BddOp) {l r : ℕ}
    (hl : s.Usable T.D l F) (hr : Denotes T.D s r G) (hL : s.Covers (r :: L)) :
    ∃ res, bddApply T.D T.isPrime l r op.code s = some res ∧
      Built T s (r :: L) (fun a => op.fn (F a) (G a)) res := by
  obtain ⟨res, hres, hbuilt, -⟩ := apply_built hT hs op ⟨F, hl.2, fun _ => rfl⟩
    hl.1 hr (hL.referenced List.mem_cons_self hr.isNode) hL
  exact ⟨res, hres, hbuilt⟩

/-! ## The table -/

/-- Nothing is told unless the table is exhausted, and the counts of references stay. -/
structure Silent (s s' : BddState P) : Prop where
  told : s'.Ok → s'.told = s.told
  refcou : ∀ n, 2 ≤ n → (s'.bddnodes n).refcou = (s.bddnodes n).refcou

theorem operation_silent (hs : Good T s) {rec : BddState P → Option (ℕ × BddState P)}
    {Q : Prop → DTree (Leaf P) → Prop} {res : ℕ × BddState P}
    (hrec : Returns (T.setting s.env.bddvarnum hs.num) s.initref Q (rec s.initref))
    (heq : operation T.isPrime rec s = some res) : Silent s res.2 := by
  obtain ⟨res', hres', hfin⟩ := operation_finished hs.sane hrec
  obtain rfl : res' = res := Option.some.inj (hres'.symm.trans heq)
  exact ⟨hfin.told, hfin.refcou⟩

section

variable {h : (ℕ → Bool) → Bool} {l : ℕ} {res : ℕ × BddState P}

theorem Theory.Operates.not_silent (hT : T.Operates) (hs : Good T s) (hr : s.Usable T.D r F)
    (heq : bddNot T.D T.isPrime r s = some res) : Silent s res.2 := by
  unfold bddNot at heq
  rw [checka_node hs hr.isNode] at heq
  obtain ⟨t, ho, hb, -⟩ := hs.operand hr
  exact operation_silent hs (notRec_computes (hT.quantifiers _ _).toOperators hs.initref ho hb
    t.above_zero (Setting.depth_bound _ 0)) heq

theorem Theory.Operates.apply_silent (hT : T.Operates) (hs : Good T s) (op : BddOp)
    (hl : s.Usable T.D l F) (hr : s.Usable T.D r G)
    (heq : bddApply T.D T.isPrime l r op.code s = some res) : Silent s res.2 := by
  unfold bddApply at heq
  rw [checka_node hs hl.isNode, checka_node hs hr.isNode, op.ofCode_code] at heq
  obtain ⟨tl, hol, hbl, -⟩ := hs.operand hl
  obtain ⟨tr, hor, hbr, -⟩ := hs.operand hr
  exact operation_silent hs (applyRec_computes (hT.quantifiers _ _).toOperators op hs.initref hol
    hor hbl hbr tl.above_zero tr.above_zero (Setting.depth_bound _ 0)) heq

theorem Theory.Operates.ite_silent (hT : T.Operates) (hs : Good T s) (hf : s.Usable T.D l F)
    (hg : s.Usable T.D r G) (hh : s.Usable T.D n h)
    (heq : bddIte T.D T.isPrime l r n s = some res) : Silent s res.2 := by
  unfold bddIte at heq
  rw [checka_node hs hf.isNode, checka_node hs hg.isNode, checka_node hs hh.isNode] at heq
  obtain ⟨tf, hof, hbf, -⟩ := hs.operand hf
  obtain ⟨tg, hog, hbg, -⟩ := hs.operand hg
  obtain ⟨th, hoh, hbh, -⟩ := hs.operand hh
  exact operation_silent hs (iteRec_computes (hT.quantifiers _ _).toOperators hs.initref hof hog
    hoh hbf hbg hbh tf.above_zero tg.above_zero th.above_zero (Setting.depth_bound _ 0)) heq

end

/-! ## A session with a conjunction -/

/-- The conjunction of the two variables, with one reference. -/
def conjunction : BddState UInt32 :=
  bddAddref ((bddApply intDomain trialDivision 2 4 BddOp.and.code twoVariables).getD
    (0, twoVariables)).2 6

theorem conjunction_data :
    (bddApply intDomain trialDivision 2 4 BddOp.and.code twoVariables).map Prod.fst = some 6 ∧
      conjunction.bdderrorcond = false ∧ (conjunction.bddnodes 6).refcou = 1 ∧
      conjunction.env.bddvarnum = 2 := by
  decide +kernel

theorem conjunction_reached (reset : BddState UInt32 → Prop) :
    Package.Reached intDomain trialDivision reset ⟨conjunction, [], 0⟩ ∧
      conjunction.Usable intDomain 6 fun a => a 0 && a 1 := by
  have hw := Package.twoVariables_reached reset
  obtain ⟨⟨σ, hc⟩, -⟩ := hw.healthy
  obtain ⟨h0, h1, -⟩ := twoVariables_usable
  obtain ⟨hnode, hok, -, -⟩ := conjunction_data
  obtain ⟨⟨res, s'⟩, heq, hcall⟩ := (full_operates intDomain trialDivision σ
    twoVariables.env.bddvarnum).apply_called hc.good .and h0 h1
  have heq : bddApply intDomain trialDivision 2 4 BddOp.and.code twoVariables = some (res, s') := heq
  rw [heq] at hnode
  obtain rfl : res = 6 := Option.some.inj hnode
  have hs' : conjunction = bddAddref s' 6 := by
    unfold conjunction
    rw [heq]
    rfl
  rw [hs'] at hok ⊢
  have hok' : s'.Ok := (bddAddref_ok s' 6).mp hok
  have hreached := Package.Reached.step hw (.act s' (.apply 2 4 BddOp.and.code 6 s'
    (fun _ => ⟨_, h0⟩) (fun _ => ⟨_, h1⟩) heq)) hok'
  obtain ⟨t, hreads, -⟩ := hcall.result hok'
  exact ⟨.step hreached (.act _ (.addref 6 hreads.isNode)) hok, (hcall.addref hok').2.2⟩

end MoToBuddy.Bdd
