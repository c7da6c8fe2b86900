import MoToBuddy.Bddio.Header
import MoToBuddy.Bddio.LoadLaws

/-!
# Round trip (`bddio.c`)

* `bddLoad_describes`: from a file whose lines form the diagram of its root, in any order, `bdd_load`
  returns the only node of the function of the root. All references that the caller had are left.
* `bddSave_bddLoad`: a saved diagram can be loaded into any package, and is the same function there.
* `bddFnsave_bddFnload`: in the same session it is the same node, whatever the header says about the
  number of nodes.
-/

namespace MoToBuddy.Bddio

open Bdd Bdd.Counting Scanning Deferred CountedLoop Decision Marking Package

variable {P : Type*} {D : MtbddDomain P} {isPrime : ℕ → Bool} {T : Theory P} {malloc : ℕ → Bool}
  {s s₀ : BddState P} {L : List ℕ} {w : Package P} {xs done : List NodeLine} {nodenum r n : ℕ}
  {val : ℤ → (ℕ → Bool) → Bool} {node : ℤ → ℕ} {l : Loading P} {f : BddFile}

/-! ## The lines of a diagram -/

open Classical in
/-- The function of a node, by its id. -/
noncomputable def nodeFn (D : MtbddDomain P) (s : BddState P) (k : ℤ) (a : ℕ → Bool) : Bool :=
  decide (∃ t, s.Reads D k.toNat t ∧ evalBool t (s.assign a) = true)

open Classical in
theorem nodeFn_of_reads {t : DTree (Leaf P)} (h : s.Reads D n t) (a : ℕ → Bool) :
    nodeFn D s n a = evalBool t (s.assign a) := by
  refine Bool.eq_iff_iff.mpr (decide_eq_true_iff.trans ⟨fun ⟨t', h', ht'⟩ => ?_, fun ht => ⟨t, h, ht⟩⟩)
  rwa [BddState.Reads.unique h h']

/-- A node of a plain diagram: a decision between its children. -/
structure Inner (T : Theory P) (s : BddState P) (n : ℕ) (tl th : DTree (Leaf P)) : Prop where
  reads : s.Reads T.D n (.node (s.level n) tl th)
  isBool : IsBool tl ∧ IsBool th
  level : s.level n < s.env.bddvarnum
  succ : s.succ n = [s.low n, s.high n]
  low : s.Reads T.D (s.low n) tl
  high : s.Reads T.D (s.high n) th

theorem inner_of_reads (hs : Good T s) {t : DTree (Leaf P)} (h2 : 2 ≤ n) (h : s.Reads T.D n t)
    (hb : IsBool t) : ∃ tl th, Inner T s n tl th ∧ t = .node (s.level n) tl th := by
  cases t with
  | leaf l =>
    cases l with
    | const b =>
      generalize hn : n = m at h
      cases h with
      | const b => 
        have := BddState.Reads.toNat_lt b
        omega
    | value type v => exact hb.elim
  | node level tl th =>
    obtain ⟨low, high, inner, key, decision, below, above⟩ := h.children
    have hlevel : s.level n = level := congrArg BddKey.level key
    have hlow : s.low n = low := by
      unfold BddState.low
      rw [show (s.bddnodes n).low = some low from congrArg BddKey.low key]
      rfl
    have hhigh : s.high n = high := congrArg BddKey.high key
    refine ⟨tl, th, ⟨hlevel ▸ h, hb, ?_, ?_, hlow ▸ below, hhigh ▸ above⟩, by rw [hlevel]⟩
    · rw [hlevel]
      exact (hs.inv.graph.sorted h).1.1
    · rw [hlow, hhigh]
      unfold BddState.succ
      rw [key]
      exact if_neg decision

/-- All nodes of a plain diagram are decisions. -/
theorem inner_of_reach (hs : Good T s) {t : DTree (Leaf P)} (hr : s.Reads T.D r t) (hb : IsBool t)
    (h : Reach s.live s.succ r n) : ∃ tl th, Inner T s n tl th := by
  induction h with
  | refl hl =>
    obtain ⟨tl, th, h, -⟩ := inner_of_reads hs (BddState.live_iff.mp hl).1 hr hb
    exact ⟨tl, th, h⟩
  | @step n m _ hm hl ih =>
    obtain ⟨tl, th, h⟩ := ih
    have h2 := (BddState.live_iff.mp hl).1
    rw [h.succ] at hm
    simp only [List.mem_cons, List.not_mem_nil, or_false] at hm
    rcases hm with rfl | rfl
    · obtain ⟨tl, th, h, -⟩ := inner_of_reads hs h2 h.low h.isBool.1
      exact ⟨tl, th, h⟩
    · obtain ⟨tl, th, h, -⟩ := inner_of_reads hs h2 h.high h.isBool.2
      exact ⟨tl, th, h⟩

/-- The children of a decision are lower in the diagram. -/
theorem Inner.rank (hs : Good T s) {tl th : DTree (Leaf P)} (h : Inner T s n tl th) {c : ℕ}
    (hc : c ∈ s.succ n) (h2 : 2 ≤ c) :
    s.env.bddvarnum - s.level c < s.env.bddvarnum - s.level n := by
  have hsorted := (hs.inv.graph.sorted h.reads).1
  have hlevel := h.level
  have hbelow : ∀ u, s.Reads T.D c u → IsBool u → u.Above (s.level n + 1) →
      s.level n < s.level c := by
    intro u hu hb ha
    obtain ⟨_, _, -, rfl⟩ := inner_of_reads hs h2 hu hb
    exact ha
  rw [h.succ] at hc
  simp only [List.mem_cons, List.not_mem_nil, or_false] at hc
  have : s.level n < s.level c := by
    rcases hc with rfl | rfl
    · exact hbelow tl h.low h.isBool.1 hsorted.2.1
    · exact hbelow th h.high h.isBool.2 hsorted.2.2.1
  omega

/-- The lines of the nodes of a plain diagram form the diagram. -/
theorem describes_lineOf (hs : Good T s) {t : DTree (Leaf P)} (hr : s.Reads T.D r t) (hb : IsBool t)
    (hlive : s.live r = true) {ns : List ℕ} (hnodup : ns.Nodup)
    (hmem : ∀ n, n ∈ ns ↔ InCone s [r] n) :
    Describes s.env.bddvarnum (ns.map (lineOf s)) r (nodeFn T.D s) := by
  have hkeys : keys (ns.map (lineOf s)) = ns.map fun n : ℕ => (n : ℤ) := by
    rw [keys, List.map_map]
    rfl
  have hreach : ∀ n ∈ ns, Reach s.live s.succ r n := fun n hn => by
    obtain ⟨m, hm, h⟩ := (hmem n).mp hn
    exact List.mem_singleton.mp hm ▸ h
  have hin : ∀ n, Reach s.live s.succ r n → n ∈ ns := fun n hn =>
    (hmem n).mpr ⟨r, List.mem_singleton_self r, hn⟩
  have hinner : ∀ n ∈ ns, ∃ tl th, Inner T s n tl th := fun n hn =>
    inner_of_reach hs hr hb (hreach n hn)
  have hchild : ∀ n, ∀ c ∈ [(lineOf s n).low, (lineOf s n).high], ∀ tl th, Inner T s n tl th →
      ∃ m ∈ s.succ n, c = (m : ℤ) := fun n c hc tl th h => by
    rw [h.succ]
    simp only [List.mem_cons, List.not_mem_nil, or_false] at hc ⊢
    rcases hc with rfl | rfl
    · exact ⟨_, Or.inl rfl, rfl⟩
    · exact ⟨_, Or.inr rfl, rfl⟩
  have hlines : ∀ x ∈ ns.map (lineOf s), ∃ n ∈ ns, ∃ tl th, Inner T s n tl th ∧ lineOf s n = x :=
    fun x hx => by
      obtain ⟨n, hn, rfl⟩ := List.mem_map.mp hx
      obtain ⟨tl, th, h⟩ := hinner n hn
      exact ⟨n, hn, tl, th, h, rfl⟩
  refine {
    nodup := ?_
    key := fun x hx => ?_
    var := fun x hx => ?_
    child := fun x hx c hc => ?_
    acyclic := ⟨fun k => s.env.bddvarnum - s.level k.toNat, fun x hx c hc h2 => ?_⟩
    zero := fun a => (nodeFn_of_reads (n := 0) (.const false) a).trans rfl
    one := fun a => (nodeFn_of_reads (n := 1) (.const true) a).trans rfl
    val := fun x hx a => ?_
    mem_root := ?_
    whole := fun S hroot hS x hx => ?_ }
  · rw [hkeys]
    exact hnodup.map Int.ofNat_injective
  · obtain ⟨n, hn, -, -, -, rfl⟩ := hlines x hx
    have := (BddState.live_iff.mp (hreach n hn).live_right).1
    show 2 ≤ (n : ℤ)
    omega
  · obtain ⟨n, -, tl, th, h, rfl⟩ := hlines x hx
    have := (hs.order.var _ h.level).1
    exact ⟨Int.natCast_nonneg _, Int.ofNat_lt.mpr this⟩
  · obtain ⟨n, hn, tl, th, h, rfl⟩ := hlines x hx
    obtain ⟨m, hm, rfl⟩ := hchild n c hc tl th h
    by_cases h2 : m < 2
    · omega
    · have hnode : s.IsNode m := by
        rw [h.succ] at hm
        simp only [List.mem_cons, List.not_mem_nil, or_false] at hm
        rcases hm with rfl | rfl
        · exact h.low.isNode
        · exact h.high.isNode
      have hm := (hreach n hn).step hm (hnode.resolve_left h2)
      rw [hkeys]
      exact Or.inr (Or.inr (List.mem_map_of_mem (hin m hm)))
  · obtain ⟨n, -, tl, th, h, rfl⟩ := hlines x hx
    obtain ⟨m, hm, rfl⟩ := hchild n c hc tl th h
    exact h.rank hs hm (by omega)
  · obtain ⟨n, -, tl, th, h, rfl⟩ := hlines x hx
    show nodeFn T.D s (n : ℤ) a = if a (s.env.bddlevel2var (s.level n)) then
      nodeFn T.D s (s.high n : ℤ) a else nodeFn T.D s (s.low n : ℤ) a
    rw [nodeFn_of_reads h.reads, nodeFn_of_reads h.low, nodeFn_of_reads h.high, evalBool_node]
    rfl
  · rw [hkeys]
    exact List.mem_map_of_mem (hin r (.refl hlive))
  · obtain ⟨n, hn, -, -, -, rfl⟩ := hlines x hx
    have hall : ∀ n, Reach s.live s.succ r n → S n := by
      intro n hn
      induction hn with
      | refl _ => exact hroot
      | @step n m hn hm hl ih =>
        obtain ⟨tl, th, h⟩ := hinner n (hin n hn)
        have hm' := hm
        rw [h.succ] at hm'
        refine hS (lineOf s n) (List.mem_map_of_mem (hin n hn)) ih (m : ℤ) ?_ ?_
        · simp only [List.mem_cons, List.not_mem_nil, or_false] at hm' ⊢
          rcases hm' with rfl | rfl
          · exact Or.inl rfl
          · exact Or.inr rfl
        · have := (BddState.live_iff.mp hl).1
          omega
    exact hall n (hreach n hn)

/-! ## The references of the loader -/

/-- What is in the slots of the hash: the nodes that were built. -/
theorem Builds.slots (h : Builds T s₀ L nodenum val node done l) (hnodup : (keys done).Nodup) :
    l.bdd.Covers
      ((List.range l.table.nodenum).map (fun n => (l.table.table n).data.toNat) ++ L) := by
  classical
  obtain ⟨live, hholds⟩ := h.table
  have hperm : (((List.range l.table.nodenum).filter fun n => live (n + 1)).map fun n =>
      ((l.table.table n).key, (l.table.table n).data)).Perm
      (done.map fun x => (x.key, (node x.key : ℤ))) := by
    refine (List.perm_ext_iff_of_nodup ?_ ?_).mpr fun a => ?_
    · refine (List.nodup_range.filter _).map_on fun n hn m hm heq => ?_
      simp only [List.mem_filter, List.mem_range, decide_eq_true_eq] at hn hm
      exact hholds.inj n m hn.1 hm.1 hn.2 hm.2 (congrArg Prod.fst heq)
    · refine List.Nodup.of_map Prod.fst ?_
      rw [List.map_map]
      exact hnodup
    · rw [hholds.mem a, List.mem_map]
      simp only [List.mem_filter, List.mem_range, decide_eq_true_eq, and_assoc]
  intro n hn
  refine (h.covers n hn).imp_right fun hle => le_trans (le_of_eq ?_) hle
  rw [List.count_append, List.count_append]
  -- a slot that is not used has no node
  have hused : List.countP (fun k => (l.table.table k).data.toNat == n)
      (List.range l.table.nodenum) = List.countP (fun k => (l.table.table k).data.toNat == n)
      ((List.range l.table.nodenum).filter fun k => live (k + 1)) := by
    rw [List.countP_filter]
    refine List.countP_congr fun k _ => ?_
    simp only [beq_iff_eq, Bool.and_eq_true, decide_eq_true_eq]
    refine ⟨fun hk => ⟨hk, ?_⟩, And.left⟩
    by_contra hno
    rw [hholds.unused k hno] at hk
    exact absurd hk (by simp; omega)
  have hcount := (hperm.map fun e => e.2.toNat).count_eq n
  simp only [List.map_map, List.count_eq_countP, List.countP_map] at hcount ⊢
  refine congrArg (· + _) (Eq.trans hused (Eq.trans hcount ?_))
  rfl

/-! ## Loading -/

/-- The package with the variables of the file. -/
theorem withVars_spec (hw : w.Healthy D isPrime) {vnum : ℕ} (hmax : vnum < maxvar)
    (hok : (withVars D isPrime vnum w).bdd.Ok) :
    (withVars D isPrime vnum w).Healthy D isPrime ∧
      vnum ≤ (withVars D isPrime vnum w).bdd.env.bddvarnum ∧
      (∀ n g, w.bdd.Usable D n g → (withVars D isPrime vnum w).bdd.Usable D n g) ∧
      ∀ L, w.bdd.Covers L → (withVars D isPrime vnum w).bdd.Covers L := by
  unfold withVars at hok ⊢
  by_cases hlt : (vnum : ℤ) > w.bdd.env.bddvarnum
  · rw [if_pos hlt] at hok ⊢
    rw [Int.toNat_natCast] at hok ⊢
    have hw' := hw
    obtain ⟨⟨σ, hc⟩, -⟩ := hw'
    have hok' : (bddSetvarnum D isPrime w.bdd vnum).Ok := hok
    have hspec : SetvarnumSpec (full D isPrime σ w.bdd.env.bddvarnum) w.bdd
        (bddSetvarnum D isPrime w.bdd vnum) := bddSetvarnum_spec hc.good vnum hok'
    have hvarnum : (bddSetvarnum D isPrime w.bdd vnum).env.bddvarnum = vnum :=
      bddSetvarnum_varnum hc.good (by omega) hmax hok'
    exact ⟨hw.setvarnum vnum hok, hvarnum.ge,
      fun n g hn => ⟨hspec.referenced hn.1, hspec.represents hc.good hn.1 hn.2⟩,
      fun L hL => hspec.covers hL⟩
  · rw [if_neg hlt]
    exact ⟨hw, by omega, fun _ _ hn => hn, fun _ hL => hL⟩

theorem Describes.mono {num num' : ℕ} {root : ℤ} (h : Describes num xs root val)
    (hle : num ≤ num') : Describes num' xs root val :=
  { h with var := fun x hx => ⟨(h.var x hx).1, (h.var x hx).2.trans_le (Int.ofNat_le.mpr hle)⟩ }

/-- After the variables are there: the nodes are built, and their references given back. -/
theorem loaddata_delref (hw : w.Healthy D isPrime) {root : ℤ}
    (hd : Describes w.bdd.env.bddvarnum xs root val) (hpos : 0 < nodenum)
    (hgrows : Grows malloc nodenum xs.length) :
    ∃ (l : Loading P) (res : ℕ) (s' : BddState P),
      bddLoaddata D isPrime malloc (xs.map NodeLine.text) ⟨w.bdd, freshLoader nodenum, 0⟩ =
        some ((res : ℤ), l) ∧
      forUp 0 l.table.nodenum (fun n s => bddDelref s (l.table.table n).data.toNat) l.bdd = s' ∧
      Healthy D isPrime { w with bdd := s' } ∧ (s'.Ok → s'.Canonical D res (val root)) ∧
      (∀ n g, w.bdd.Usable D n g → s'.Represents D n g) ∧ ∀ L, w.bdd.Covers L → s'.Covers L := by
  obtain ⟨⟨σ, hc⟩, ho⟩ := hw
  have hT := full_operates D isPrime σ w.bdd.env.bddvarnum
  obtain ⟨l, node, done, hload, hl, hroot, hperm⟩ :=
    bddLoaddata_describes hT hc.good ho hd hpos hgrows
  have hnodup : (keys done).Nodup := (hperm.map NodeLine.key).nodup_iff.mpr hd.nodup
  obtain ⟨hg, hk, hcov⟩ :=
    delref_loop (fun n => (l.table.table n).data.toNat) l.table.nodenum hl.good (hl.slots hnodup)
  have hallcov : ∀ L, w.bdd.Covers L → (forUp 0 l.table.nodenum
      (fun n s => bddDelref s (l.table.table n).data.toNat) l.bdd).Covers L := fun L hL => by
    obtain ⟨l', node', done', hload', hl', -, hperm'⟩ :=
      bddLoaddata_describes hT hc.good hL hd hpos hgrows
    obtain ⟨-, rfl⟩ := Prod.mk.inj (Option.some.inj (hload.symm.trans hload'))
    exact (delref_loop _ _ hl'.good
      (hl'.slots ((hperm'.map NodeLine.key).nodup_iff.mpr hd.nodup))).2.2
  have hok : (forUp 0 l.table.nodenum (fun n s => bddDelref s (l.table.table n).data.toNat)
      l.bdd).Ok → l.bdd.Ok :=
    forUp_induct (f := fun n s => bddDelref s (l.table.table n).data.toNat)
      (fun _ s => s.Ok → l.bdd.Ok) id fun n s _ _ h hs => h ((bddDelref_ok s _).mp hs)
  generalize hs' : forUp 0 l.table.nodenum
    (fun n s => bddDelref s (l.table.table n).data.toNat) l.bdd = s' at hg hk hcov hallcov hok
  have hkeeps : Keeps D w.bdd l.bdd := hl.keeps
  have hc₁ : Consistent D isPrime σ { w with bdd := l.bdd } :=
    hc.rebase (Preserved.base ⟨hl.good, hkeeps⟩ hc.toBase) hkeeps.varnum hkeeps.level2var
      fun p hp k hk t ht => hkeeps.reads _ t (ho.referenced hp (hc.shaped p hp) hk) ht
  have hc₂ : Consistent D isPrime σ { w with bdd := s' } :=
    hc₁.survives hk (show Good (full D isPrime σ l.bdd.env.bddvarnum) s' from
      hkeeps.varnum.symm ▸ hg)
  have hentries : entries { w with bdd := s' } = w.entries :=
    entries_congr ((congrArg BddEnv.bddvarnum hk.env).trans hkeeps.varnum) rfl
  refine ⟨l, l.root, s', hload, hs', ⟨⟨σ, hc₂⟩, ?_⟩, fun hs => ?_, fun n g hn => ?_, hallcov⟩
  · unfold Owned
    rw [hentries]
    exact hcov
  · obtain ⟨x, hx, hkey⟩ := List.mem_map.mp hd.mem_root
    obtain ⟨G, hG, hGval⟩ := hl.denotes x (hperm.mem_iff.mpr hx)
    have hrep : s'.Represents D l.root (val root) := by
      rw [hroot, ← hkey, ← hGval (hok hs)]
      exact hk.represents hG
    exact ⟨hrep, fun m hm => hc₂.good.only trivial hrep hm⟩
  · exact hk.represents (hkeeps.usable hn).2

/-- `lh_nodenum` before the first node. -/
def hashSize (nodes : Option ℕ) : ℕ := max (nodes.getD lhInitValue.toNat) 1

/-- The nodes of a file are built in the package that has its variables, and their references given
back. The hash may grow. -/
theorem bddLoad_spec (hf : f.Wellformed) (hroot : 2 ≤ f.root)
    (hd : Describes f.vnum f.lines f.root val) {nodes : Option ℕ}
    (hgrows : Grows malloc (hashSize nodes) f.lines.length)
    (hw' : (withVars D isPrime f.vnum w).Healthy D isPrime)
    (hle : f.vnum ≤ (withVars D isPrime f.vnum w).bdd.env.bddvarnum) (junk : Header) :
    ∃ (res : ℕ) (s' : BddState P),
      bddFnload D isPrime malloc junk (f.textWith nodes) w =
        some ⟨0, res, { withVars D isPrime f.vnum w with bdd := s' }⟩ ∧
      Healthy D isPrime { withVars D isPrime f.vnum w with bdd := s' } ∧
      (s'.Ok → s'.Canonical D res (val f.root)) ∧
      (∀ n g, (withVars D isPrime f.vnum w).bdd.Usable D n g → s'.Represents D n g) ∧
      ∀ L, (withVars D isPrime f.vnum w).bdd.Covers L → s'.Covers L := by
  have hpos : 0 < hashSize nodes := Nat.lt_of_lt_of_le Nat.one_pos (le_max_right _ 1)
  obtain ⟨l, res, s', hload, hs', hhealthy, hcanonical, hrep, hcov⟩ :=
    loaddata_delref hw' (hd.mono hle) hpos hgrows
  refine ⟨res, s', ?_, hhealthy, hcanonical, hrep, hcov⟩
  unfold bddFnload bddLoad
  rw [hf.textLines, hf.readHeader rfl, if_neg (by omega)]
  have hnum : (max (nodes.elim lhInitValue fun n => (n : ℤ)) 1).toNat = hashSize nodes := by
    cases nodes with
    | none => rfl
    | some n =>
      show (max (n : ℤ) 1).toNat = max n 1
      omega
  have hconst : ¬ ((f.root : ℤ) = 0 ∨ (f.root : ℤ) = 1) := by omega
  simp only [BddFile.header, Bool.and_self, Bool.not_true, Bool.or_self, Bool.false_eq_true,
    if_false, hconst, hnum, hload, Option.map_some, hs', Int.not_ofNat_neg]

/-- From a file whose lines form the diagram of its root, in whatever order, `bdd_load` returns the
only node of the function of the root, unless something is reported. The package stays well formed,
nodes in use keep their functions, and all references that there were are left. -/
theorem bddLoad_describes (malloc : ℕ → Bool) {reset : BddState P → Prop} (hw : Reached D isPrime reset w)
    (hf : f.Wellformed) (hroot : 2 ≤ f.root) (hd : Describes f.vnum f.lines f.root val)
    (hlen : f.lines.length ≤ f.nodes) (hmax : f.vnum < maxvar)
    (hok : (withVars D isPrime f.vnum w).bdd.Ok) (junk : Header) :
    ∃ (res : ℕ) (w' : Package P),
      bddFnload D isPrime malloc junk f.text w = some ⟨0, res, w'⟩ ∧ w'.Healthy D isPrime ∧
      (w'.bdd.Ok → w'.bdd.Canonical D res (val f.root)) ∧
      (∀ n g, w.bdd.Usable D n g → w'.bdd.Represents D n g) ∧
      ∀ L, w.bdd.Covers L → w'.bdd.Covers L := by
  obtain ⟨hw', hle, husable, hcovers⟩ := withVars_spec hw.healthy hmax hok
  have hgrows : Grows malloc (hashSize (some f.nodes)) f.lines.length :=
    .of_le (hlen.trans (le_max_left _ 1))
  obtain ⟨res, s', hload, hhealthy, hcanonical, hrep, hcov⟩ :=
    bddLoad_spec hf hroot hd hgrows hw' hle junk
  exact ⟨res, _, hload, hhealthy, hcanonical, fun n g hn => hrep n g (husable n g hn),
    fun L hL => hcov L (hcovers L hL)⟩

/-- A file with the conjunction of two variables, the root before its child. -/
def conjunctionFile : BddFile :=
  ⟨"f".toList, "BDD".toList, 2, 2, 7, [0, 1], [⟨7, 0, 0, 9⟩, ⟨9, 1, 0, 1⟩]⟩

/-- The functions of its nodes. -/
def conjunctionVal (k : ℤ) (a : ℕ → Bool) : Bool :=
  if k = 7 then a 0 && a 1 else if k = 9 then a 1 else k = 1

/-- Flags that are not set, and no variables. -/
def noJunk : Header := ⟨false, false, false, false, false, false, 0, 0, 0⟩

theorem conjunctionFile_describes :
    Describes conjunctionFile.vnum conjunctionFile.lines conjunctionFile.root conjunctionVal where
  nodup := by decide
  key := by decide
  var := by decide
  child := by decide
  acyclic := ⟨fun k => if k = 7 then 1 else 0, by decide⟩
  zero _ := rfl
  one _ := rfl
  val x hx a := by
    simp only [conjunctionFile, List.mem_cons, List.not_mem_nil, or_false] at hx
    rcases hx with rfl | rfl
    · cases h0 : a 0 <;> simp [conjunctionVal, h0]
    · cases h1 : a 1 <;> simp [conjunctionVal, h1]
  mem_root := by decide
  whole S hroot hS x hx := by
    have h9 : S 9 := hS ⟨7, 0, 0, 9⟩ (by decide) hroot 9 (by decide) (by decide)
    simp only [conjunctionFile, List.mem_cons, List.not_mem_nil, or_false] at hx
    rcases hx with rfl | rfl
    · exact hroot
    · exact h9

theorem bddLoad_describes_conjunction :
    ∃ (res : ℕ) (w' : Package UInt32),
      bddFnload intDomain trialDivision (fun _ => true) noJunk conjunctionFile.text twoVariables =
        some ⟨0, res, w'⟩ ∧ w'.Healthy intDomain trialDivision ∧
      (w'.bdd.Ok → w'.bdd.Canonical intDomain res (conjunctionVal 7)) ∧
      (∀ n g, twoVariables.bdd.Usable intDomain n g → w'.bdd.Represents intDomain n g) ∧
      ∀ L, twoVariables.bdd.Covers L → w'.bdd.Covers L :=
  bddLoad_describes (fun _ => true) (f := conjunctionFile) (twoVariables_reached fun _ => True)
    ⟨by decide, by decide, rfl⟩ (by decide) conjunctionFile_describes (by decide) (by decide)
    (by
      unfold withVars
      rw [if_neg (by rw [show twoVariables.bdd = Bdd.twoVariables from rfl, twoVariables_varnum]; decide)]
      exact twoVariables_ok) noJunk

/-! ## Saving and loading -/

section

variable {P' : Type*} {D' : MtbddDomain P'} {isPrime' : ℕ → Bool} {v : Package P'}
  {g : (ℕ → Bool) → Bool} {bddname bddtype : List Char}

/-- The package `w'` after a load into `w`: its node `res` is the only one of the function `g`, and
all that was there before is still there. -/
structure Restored (D : MtbddDomain P) (isPrime : ℕ → Bool) (w : Package P) (g : (ℕ → Bool) → Bool)
    (res : ℕ) (w' : Package P) : Prop where
  healthy : w'.Healthy D isPrime
  canonical : w'.bdd.Ok → w'.bdd.Canonical D res g
  same : ∀ m, w.bdd.Usable D m g → w'.bdd.Ok → res = m
  usable : ∀ n h, w.bdd.Usable D n h → w'.bdd.Represents D n h
  covers : ∀ L, w.bdd.Covers L → w'.bdd.Covers L

/-- A constant is the same in every package. -/
theorem represents_const (h2 : r < 2) (hr : s.Represents D r g) {u : BddState P'} :
    u.Represents D' r g := by
  obtain ⟨t, hreads, hb, hg⟩ := hr
  cases hreads with
  | const b => exact ⟨_, .const b, trivial, fun a => hg a⟩
  | terminal live _ _ _ =>
    have := (BddState.live_iff.mp live).1
    omega
  | node inner _ _ _ _ => omega

/-- What `bdd_fnload` does with a constant. -/
theorem bddFnload_const (hf : f.Wellformed) (hroot : f.root < 2) (nodes : Option ℕ) (junk : Header)
    (w : Package P) :
    bddFnload D isPrime malloc junk (f.textWith nodes) w = some ⟨0, f.root, w⟩ := by
  have hconst : (f.root : ℤ) = 0 ∨ (f.root : ℤ) = 1 := by omega
  unfold bddFnload bddLoad
  rw [hf.textLines, hf.readHeader rfl, if_pos hroot]
  simp only [BddFile.header, Bool.and_self, Bool.not_true, Bool.or_self, Bool.false_eq_true, if_false,
    hconst, if_true]

/-- The file of a node: its lines form the diagram. -/
theorem bddFnsave_file (bddname bddtype : List Char) {reset : BddState P → Prop} (hw : Reached D isPrime reset w)
    (hr : w.bdd.Usable D r g) (h2 : 2 ≤ r) :
    ∃ (f : BddFile) (marks : ℕ → Bool) (val : ℤ → (ℕ → Bool) → Bool),
      bddFnsave w.bdd r bddname bddtype = some (f.title ++ f.body, marks) ∧
      (∀ n, marks n = false) ∧ f.bddname = bddname ∧ f.bddtype = bddtype ∧ f.root = r ∧
      f.vnum = w.bdd.env.bddvarnum ∧ f.order.length = f.vnum ∧ f.nodes = f.lines.length ∧
      Describes f.vnum f.lines r val ∧ val r = g := by
  obtain ⟨⟨σ, hc⟩, -⟩ := hw.healthy
  obtain ⟨href, t, hreads, hb, hg⟩ := hr
  have hlive : w.bdd.live r = true := hreads.isNode.resolve_left (by omega)
  have hlevel : ∀ n, InCone w.bdd [r] n → w.bdd.level n < w.bdd.env.bddvarnum := fun n hn => by
    obtain ⟨m, hm, hn⟩ := hn
    obtain ⟨tl, th, h⟩ := inner_of_reach hc.good hreads hb (List.mem_singleton.mp hm ▸ hn)
    exact h.level
  obtain ⟨ns, marks, hsave, hmarks, hnodup, hmem⟩ :=
    bddSave_lines (Diagrams.of_good hc.good) hlive hlevel hc.good.num
  refine ⟨⟨bddname, bddtype, w.bdd.env.bddvarnum, ns.length, r,
    (List.range w.bdd.env.bddvarnum).map w.bdd.env.bddvar2level, ns.map (lineOf w.bdd)⟩, marks,
    nodeFn D w.bdd, ?_, hmarks, rfl, rfl, rfl, rfl, by simp, by simp,
    describes_lineOf hc.good hreads hb hlive hnodup hmem, funext fun a => ?_⟩
  · unfold bddFnsave BddFile.title BddFile.body
    rw [hsave, if_neg (show ¬ r < 2 by omega), List.map_map]
    rfl
  · rw [nodeFn_of_reads hreads, hg]

/-- A diagram that was saved is loaded again, into any package of any session: the result is the only
node there of the same function, whatever the order of the variables is, and whatever the order of
the lines of the nodes is. If the function has a node in use there, then it is that node. -/
theorem bddSave_bddLoad (malloc : ℕ → Bool) {reset : BddState P → Prop} {reset' : BddState P' → Prop}
    (hw : Reached D isPrime reset w) (hv : Reached D' isPrime' reset' v)
    (hr : w.bdd.Usable D r g) (hname : '\n' ∉ bddname) (htype : '\n' ∉ bddtype)
    (hok : (withVars D' isPrime' w.bdd.env.bddvarnum v).bdd.Ok) (junk : Header) :
    ∃ (f : BddFile) (marks : ℕ → Bool),
      bddFnsave w.bdd r bddname bddtype = some (f.title ++ f.body, marks) ∧
      (∀ n, marks n = false) ∧ ∀ lines, lines.Perm f.lines → ∃ (res : ℕ) (v' : Package P'),
        bddFnload D' isPrime' malloc junk { f with lines := lines }.text v = some ⟨0, res, v'⟩ ∧
        Restored D' isPrime' v g res v' := by
  by_cases h2 : r < 2
  · obtain ⟨⟨σ, hc⟩, -⟩ := hw.healthy
    obtain ⟨⟨σ', hc'⟩, -⟩ := hv.healthy
    obtain ⟨flight, htable, -⟩ := hc.good.inv.table
    have hrep : v.bdd.Represents D' r g := represents_const h2 hr.2
    refine ⟨⟨bddname, bddtype, 0, 0, r, [], []⟩, w.bdd.marks, ?_, htable.mark, fun lines hperm =>
      ⟨r, v, ?_, hv.healthy, fun _ => ⟨hrep, fun m hm => hc'.good.only trivial hrep hm⟩,
        fun m hm _ => hc'.good.only trivial hm.2 hrep, fun n h hn => hn.2, fun L hL => hL⟩⟩
    · unfold bddFnsave bddSave BddFile.body
      rw [if_pos h2, if_pos h2]
      rfl
    · obtain rfl := List.perm_nil.mp hperm
      exact bddFnload_const ⟨hname, htype, rfl⟩ h2 (some 0) junk v
  · obtain ⟨f, marks, val, hsave, hmarks, rfl, rfl, hroot, hvnum, horder, hnodes, hd, hval⟩ :=
      bddFnsave_file bddname bddtype hw hr (not_lt.mp h2)
    refine ⟨f, marks, hsave, hmarks, fun lines hperm => ?_⟩
    obtain ⟨res, v', hload, hhealthy, hcanonical, husable, hcovers⟩ :=
      bddLoad_describes malloc (f := { f with lines := lines }) hv
        ⟨hname, htype, horder⟩ (by show 2 ≤ f.root; omega)
        (by show Describes f.vnum lines f.root val; rw [hroot]; exact hd.perm hperm)
        (by show lines.length ≤ f.nodes; rw [hperm.length_eq, hnodes])
        (by show f.vnum < maxvar; rw [hvnum]; exact hw.varnum_lt)
        (by show (withVars D' isPrime' f.vnum v).bdd.Ok; rw [hvnum]; exact hok) junk
    have hval' : val (f.root : ℤ) = g := by rw [hroot]; exact hval
    refine ⟨res, v', hload, hhealthy, fun h => hval' ▸ hcanonical h, fun m hm h => ?_, husable,
      hcovers⟩
    exact ((hval' ▸ hcanonical h).2 m (husable m g hm)).symm

end

/-- A conjunction is saved, and loaded into a session with the variables in the other order. -/
theorem bddSave_bddLoad_conjunction : ∃ (f : BddFile) (marks : ℕ → Bool),
    bddFnsave conjunction 6 "f".toList "BDD".toList = some (f.title ++ f.body, marks) ∧
    (∀ n, marks n = false) ∧ ∀ lines, lines.Perm f.lines → ∃ (res : ℕ) (v' : Package UInt32),
      bddFnload intDomain trialDivision (fun _ => true) noJunk { f with lines := lines }.text
        reversedPair = some ⟨0, res, v'⟩ ∧
      Restored intDomain trialDivision reversedPair (fun a => a 0 && a 1) res v' := by
  obtain ⟨hreached, husable⟩ := conjunction_reached fun _ => True
  have hnum : conjunction.env.bddvarnum = 2 := conjunction_data.2.2.2
  have hsame : reversedPair.bdd.env.bddvarnum = 2 := by decide +kernel
  refine bddSave_bddLoad (fun _ => true) hreached (reversedPair_reached fun _ => True) husable
    (by decide) (by decide) ?_ noJunk
  unfold withVars
  rw [hnum, hsame, if_neg (lt_irrefl _)]
  exact twoReversed_ok

/-! ## The same session -/

/-- A diagram that was saved is loaded again in the same session as the same node, whatever the order
of the lines of the nodes is, and if the header has too small a number of nodes or none. -/
theorem bddFnsave_bddFnload (malloc : ℕ → Bool) (hmalloc : ∀ size, malloc size = true)
    {reset : BddState P → Prop} (hw : Reached D isPrime reset w) {g : (ℕ → Bool) → Bool}
    (hr : w.bdd.Usable D r g) {bddname bddtype : List Char} (hname : '\n' ∉ bddname)
    (htype : '\n' ∉ bddtype) (junk : Header) :
    ∃ f : BddFile, bddFnsave w.bdd r bddname bddtype = some (f.title ++ f.body, w.bdd.marks) ∧
      f.nodes = f.lines.length ∧
      ∀ lines, lines.Perm f.lines → ∀ nodes : Option ℕ, (∀ n ∈ nodes, n ≤ f.nodes) →
        SizesFit (hashSize nodes) f.lines.length → ∃ (res : ℕ) (w' : Package P),
          bddFnload D isPrime malloc junk ({ f with lines := lines }.textWith nodes) w =
            some ⟨0, res, w'⟩ ∧
          (w'.bdd.Ok → res = r) ∧ w'.Healthy D isPrime ∧
          (∀ n h, w.bdd.Usable D n h → w'.bdd.Represents D n h) ∧
          ∀ L, w.bdd.Covers L → w'.bdd.Covers L := by
  obtain ⟨⟨σ, hc⟩, -⟩ := hw.healthy
  obtain ⟨flight, htable, -⟩ := hc.good.inv.table
  by_cases h2 : r < 2
  · refine ⟨⟨bddname, bddtype, 0, 0, r, [], []⟩, ?_, rfl, fun lines hperm nodes _ _ =>
      ⟨r, w, ?_, fun _ => rfl, hw.healthy, fun n h hn => hn.2, fun L hL => hL⟩⟩
    · unfold bddFnsave bddSave BddFile.body
      rw [if_pos h2, if_pos h2]
      rfl
    · exact bddFnload_const ⟨hname, htype, rfl⟩ h2 nodes junk w
  · obtain ⟨f, marks, val, hsave, hmarks, rfl, rfl, hroot, hvnum, horder, hnodes, hd, hval⟩ :=
      bddFnsave_file bddname bddtype hw hr (not_lt.mp h2)
    obtain rfl : marks = w.bdd.marks := funext fun n => (hmarks n).trans (htable.mark n).symm
    refine ⟨f, hsave, hnodes, fun lines hperm nodes _ hsizes => ?_⟩
    -- the variables of the file are those of the session
    have hsame : withVars D isPrime f.vnum w = w := if_neg (by rw [hvnum]; exact lt_irrefl _)
    have hgrows : Grows malloc (hashSize nodes) lines.length := fun k hk =>
      ⟨hmalloc _, hsizes k (hperm.length_eq ▸ hk)⟩
    obtain ⟨res, s', hload, hhealthy, hcanonical, hrep, hcov⟩ := bddLoad_spec
      (f := { f with lines := lines }) ⟨hname, htype, horder⟩ (by show 2 ≤ f.root; omega)
      (by show Describes f.vnum lines f.root val; rw [hroot]; exact hd.perm hperm) hgrows
      (by show (withVars D isPrime f.vnum w).Healthy D isPrime; rw [hsame]; exact hw.healthy)
      (by show f.vnum ≤ (withVars D isPrime f.vnum w).bdd.env.bddvarnum; rw [hsame, hvnum]) junk
    rw [show (withVars D isPrime ({ f with lines := lines } : BddFile).vnum w) = w from hsame]
      at hload hhealthy hrep hcov
    refine ⟨res, _, hload, fun hok => ?_, hhealthy, hrep, hcov⟩
    have hval' : val (f.root : ℤ) = g := by rw [hroot]; exact hval
    exact ((hcanonical hok).2 r (hval' ▸ hrep r g hr)).symm

/-- A table of one slot takes two nodes, the root first. -/
theorem bddFnsave_bddFnload_understated : ∃ f : BddFile,
    bddFnsave conjunction 6 "f".toList "BDD".toList =
      some (f.title ++ f.body, conjunction.marks) ∧
    f.nodes = 2 ∧ ∃ (res : ℕ) (w' : Package UInt32),
      bddFnload intDomain trialDivision (fun _ => true) noJunk
        ({ f with lines := f.lines.reverse }.textWith (some 1)) ⟨conjunction, [], 0⟩ =
          some ⟨0, res, w'⟩ ∧
      (w'.bdd.Ok → res = 6) := by
  obtain ⟨hreached, husable⟩ := conjunction_reached fun _ => True
  have hname : '\n' ∉ "f".toList := by decide
  have htype : '\n' ∉ "BDD".toList := by decide
  obtain ⟨f, hsave, hnodes, hload⟩ := bddFnsave_bddFnload (fun _ => true) (fun _ => rfl) hreached
    husable hname htype noJunk
  have hlength : (bddFnsave conjunction 6 "f".toList "BDD".toList).map
      (fun t => t.1.length) = some 8 := by decide +kernel
  have htwo : f.lines.length = 2 := by
    rw [show bddFnsave conjunction 6 "f".toList "BDD".toList = _ from hsave] at hlength
    have hlen := Option.some.inj hlength
    unfold BddFile.title BddFile.body at hlen
    split at hlen
    · simp at hlen
    · simpa using hlen
  obtain ⟨res, w', hres, hsame, -⟩ := hload f.lines.reverse (List.reverse_perm _) (some 1)
    (fun n hn => by
      obtain rfl := Option.some.inj hn
      omega)
    (fun k hk => by
      rw [htwo] at hk
      have hk0 : k = 0 := by
        by_contra hne
        have hpow : 2 ^ 1 ≤ 2 ^ k := Nat.pow_le_pow_right (by decide) (by omega)
        rw [show hashSize (some 1) = 1 from rfl, Nat.one_mul] at hk
        omega
      subst hk0
      decide)
  exact ⟨f, hsave, hnodes.trans htwo, res, w', hres, hsame⟩

end MoToBuddy.Bddio
