import MoToBuddy.Bdd.Held
import MoToBuddy.Bdd.UniqueLaws
import MoToBuddy.Lib.Bits
import MoToBuddy.Lib.Runs

/-!
# Programs that hold references

The functions of `bvec.c` are programs over the package: they take references to what they make and
give them back. A report ends a program, as the error handler that is there at the start does.

`Holds` is what is known between two calls of such a program: the nodes that it has references to,
with their functions, the nodes that it only reads, and that every count is the references that were
there before and those of the program. Each call has a rule for it.
-/

namespace MoToBuddy.Bvec

open Bdd BoolFun Exiting Package

variable {P α β : Type} {D : MtbddDomain P} {isPrime : ℕ → Bool}

/-! ## The calls -/

/-- What is left of the outcome of a call if it made a report. -/
def reporting (s : BddState P) (r : α × BddState P) : Option α × BddState P :=
  (if r.2.bdderrorcond = true ∨ r.2.told ≠ s.told then none else some r.1, r.2)

section

variable (D isPrime)

/-- `bdd_apply`. -/
def bddApply (l r : ℕ) (op : BddOp) : Prog (BddState P) ℕ :=
  .step fun s => (Bdd.bddApply D isPrime l r op.code s).map (reporting s)

/-- `bdd_not`. -/
def bddNot (r : ℕ) : Prog (BddState P) ℕ :=
  .step fun s => (Bdd.bddNot D isPrime r s).map (reporting s)

/-- `bdd_ite`. -/
def bddIte (f g h : ℕ) : Prog (BddState P) ℕ :=
  .step fun s => (Bdd.bddIte D isPrime f g h s).map (reporting s)

end

/-- `bdd_addref`, which returns the node. -/
def bddAddref (root : ℕ) : Prog (BddState P) ℕ :=
  .step fun s => some (reporting s (root, Bdd.bddAddref s root))

/-- `bdd_delref`. -/
def bddDelref (root : ℕ) : Prog (BddState P) Unit :=
  .step fun s => some (reporting s ((), Bdd.bddDelref s root))

/-- `bdd_error`, which does not return. -/
def bddError (e : BddError) : Prog (BddState P) α := .step fun s => some (none, s.error e)

/-! ## What is held -/

/-- Nodes with their functions. -/
abbrev Heap := List (ℕ × ((ℕ → Bool) → Bool))

abbrev nodes (H : Heap) : List ℕ := H.map Prod.fst

abbrev bits (H : Heap) : List ((ℕ → Bool) → Bool) := H.map Prod.snd

@[simp] theorem nodes_length (H : Heap) : (nodes H).length = H.length := List.length_map ..
@[simp] theorem bits_length (H : Heap) : (bits H).length = H.length := List.length_map ..

theorem nodes_append (H X : Heap) : nodes (H ++ X) = nodes H ++ nodes X := List.map_append ..
theorem bits_append (H X : Heap) : bits (H ++ X) = bits H ++ bits X := List.map_append ..

theorem nodes_take (n : ℕ) (H : Heap) : nodes (H.take n) = (nodes H).take n := List.map_take ..
theorem bits_take (n : ℕ) (H : Heap) : bits (H.take n) = (bits H).take n := List.map_take ..

theorem nodes_tail (H : Heap) : nodes H.tail = (nodes H).tail := List.map_tail ..
theorem bits_tail (H : Heap) : bits H.tail = (bits H).tail := List.map_tail ..

theorem nodes_replicate (n : ℕ) (p : ℕ × ((ℕ → Bool) → Bool)) :
    nodes (List.replicate n p) = List.replicate n p.1 := List.map_replicate ..
theorem bits_replicate (n : ℕ) (p : ℕ × ((ℕ → Bool) → Bool)) :
    bits (List.replicate n p) = List.replicate n p.2 := List.map_replicate ..

/-- The number of references to a node. -/
def refs (H : Heap) (n : ℕ) : ℕ := (nodes H).count n

@[simp] theorem refs_nil (n : ℕ) : refs [] n = 0 := rfl

theorem refs_append (H X : Heap) (n : ℕ) : refs (H ++ X) n = refs H n + refs X n := by
  unfold refs
  rw [nodes_append, List.count_append]

theorem refs_cons (p : ℕ × ((ℕ → Bool) → Bool)) (H : Heap) (n : ℕ) :
    refs (p :: H) n = (if p.1 = n then 1 else 0) + refs H n := by
  unfold refs nodes
  rw [List.map_cons, List.count_cons, Nat.add_comm]
  simp only [beq_iff_eq]

theorem refs_pos {H : Heap} {p : ℕ × ((ℕ → Bool) → Bool)} (h : p ∈ H) : 0 < refs H p.1 :=
  List.count_pos_iff.mpr (List.mem_map_of_mem h)

/-- The references `K` that a program leaves alone: they are enough for the pairs and for the nodes
`B` that it reads. -/
structure Frame (w : Package P) (K : ℕ → ℕ) (B : Heap) : Prop where
  owned : ∀ n, 2 ≤ n → maxref ≤ (w.bdd.bddnodes n).refcou ∨ w.entries.count n ≤ K n
  borrowed : ∀ p ∈ B, p.1 < 2 ∨ 0 < K p.1

/-- The program has the references `H`. -/
structure Holds (T : Theory P) (reset : BddState P → Prop) (w : Package P) (K : ℕ → ℕ) (B H : Heap)
    (s : BddState P) : Prop where
  good : Good T s
  ok : s.Ok
  varnum : s.env.bddvarnum = w.bdd.env.bddvarnum
  counts : ∀ n, 2 ≤ n → maxref ≤ (s.bddnodes n).refcou ∨
    (s.bddnodes n).refcou = refs H n + K n
  saturated : ∀ n, 2 ≤ n → maxref ≤ (w.bdd.bddnodes n).refcou → maxref ≤ (s.bddnodes n).refcou
  represents : ∀ p ∈ H ++ B, s.Represents T.D p.1 p.2
  told : s.told = w.bdd.told
  reached : Reached T.D T.isPrime reset { w with bdd := s }

/-- Nothing but the exhaustion of the table ends a program. -/
abbrev Spent (s : BddState P) : Prop := ¬ s.Ok

variable {T : Theory P} {reset : BddState P → Prop} {w : Package P} {K : ℕ → ℕ} {B H X : Heap}
  {s s' : BddState P} {n l r : ℕ} {F G : (ℕ → Bool) → Bool} {p : ℕ × ((ℕ → Bool) → Bool)}
  {k : ℕ → Prog (BddState P) β} {Q : β → BddState P → Prop}

/-- A call that makes no report of its own. -/
theorem reporting_runs {f : BddState P → Option (α × BddState P)} {r : α × BddState P}
    {Q : α → BddState P → Prop} (hf : f s = some r) (htold : r.2.Ok → r.2.told = s.told)
    (hQ : r.2.Ok → Q r.1 r.2) : Runs Spent (.step fun s => (f s).map (reporting s)) s Q := by
  refine ⟨(reporting s r).1, r.2, by rw [Prog.exec_step, hf]; rfl, ?_⟩
  unfold reporting
  by_cases hok : r.2.Ok
  · have hno : ¬ (r.2.bdderrorcond = true ∨ r.2.told ≠ s.told) := by
      rintro (h | h)
      · exact Bool.false_ne_true (hok.symm.trans h)
      · exact h (htold hok)
    exact Or.inr ⟨r.1, if_neg hno, hQ hok⟩
  · exact Or.inl ⟨if_pos (Or.inl (Bool.not_eq_false _ ▸ hok)), hok⟩

theorem Holds.isNode (h : Holds T reset w K B H s) (hp : p ∈ H ++ B) : s.IsNode p.1 := by
  obtain ⟨t, hr, -⟩ := h.represents p hp
  exact hr.isNode

/-- What is held or read has a reference. -/
theorem Holds.usable (hK : Frame w K B) (h : Holds T reset w K B H s) (hp : p ∈ H ++ B) :
    s.Usable T.D p.1 p.2 := by
  refine ⟨(h.isNode hp).imp_right fun hl => ⟨p.1, Or.inl ?_, .refl hl⟩, h.represents p hp⟩
  have h2 := (BddState.live_iff.mp hl).1
  have hmax : 0 < maxref := by decide
  have hpos : 0 < refs H p.1 + K p.1 := by
    rcases List.mem_append.mp hp with hp | hp
    · have := refs_pos hp
      omega
    · have := hK.borrowed p hp
      omega
  show 0 < (s.bddnodes p.1).refcou
  rcases h.counts p.1 h2 with h | h <;> omega

theorem Holds.perm {H' : Heap} (h : Holds T reset w K B H s) (hH : H.Perm H') :
    Holds T reset w K B H' s :=
  { h with
    counts := fun n hn => by
      have hrefs : refs H' n = refs H n := ((hH.map Prod.fst).count_eq n).symm
      rw [hrefs]
      exact h.counts n hn
    represents := fun p hp => h.represents p ((hH.append_right B).mem_iff.mpr hp) }

/-- What is read may be less. -/
theorem Holds.reads {B' : Heap} (h : Holds T reset w K B H s) (hB : B' ⊆ B ++ H) :
    Holds T reset w K B' H s :=
  { h with
    represents := fun p hp => h.represents p (by
      have hp' := List.mem_append.mp hp
      rcases hp' with hp' | hp'
      · exact List.mem_append_left B hp'
      · exact (List.perm_append_comm.mem_iff).mp (hB hp')) }

/-- The constants are there. -/
theorem Holds.const (h : Holds T reset w K B H s) (b : Bool) :
    Holds T reset w K B ((b.toNat, fun _ => b) :: H) s :=
  { h with
    counts := fun n hn => by
      have hb := Bool.toNat_le b
      rw [refs_cons, if_neg (by dsimp only; omega), Nat.zero_add]
      exact h.counts n hn
    represents := fun p hp => by
      rcases List.mem_cons.mp hp with rfl | hp
      · exact ⟨_, .const b, trivial, fun _ => rfl⟩
      · exact h.represents p hp }

theorem Holds.unconst {b : Bool} (h : Holds T reset w K B ((b.toNat, F) :: H) s) :
    Holds T reset w K B H s :=
  { h with
    counts := fun n hn => by
      have hb := Bool.toNat_le b
      have hc := h.counts n hn
      rw [refs_cons, if_neg (by dsimp only; omega), Nat.zero_add] at hc
      exact hc
    represents := fun p hp => h.represents p (.tail _ hp) }

/-! ## Rules -/

/-- The package after a call that keeps what is referenced, with the counts as they were. -/
theorem Holds.act (hK : Frame w K B) (h : Holds T reset w K B H s) (hgood : Good T s')
    (hkeeps : Keeps T.D s s') (hsilent : Silent s s') (hact : Act T.D T.isPrime s s')
    (hok : s'.Ok) : Holds T reset w K B H s' where
  good := hgood
  ok := hok
  varnum := hkeeps.varnum.trans h.varnum
  counts n hn := by
    rw [hsilent.refcou n hn]
    exact h.counts n hn
  saturated n hn hsat := by
    rw [hsilent.refcou n hn]
    exact h.saturated n hn hsat
  represents p hp := (hkeeps.usable (h.usable hK hp)).2
  told := (hsilent.told hok).trans h.told
  reached := .step h.reached (.act s' hact) hok

section

variable (hT : T.Operates) (hK : Frame w K B) (h : Holds T reset w K B H s)
include hT hK h

/-- An operator, on nodes that are held or read. -/
theorem apply_runs (op : BddOp) (hl : (l, F) ∈ H ++ B) (hr : (r, G) ∈ H ++ B) :
    Runs Spent (bddApply T.D T.isPrime l r op) s fun n s' =>
      Holds T reset w K B H s' ∧ s'.Represents T.D n fun a => op.fn (F a) (G a) := by
  have hl' := h.usable hK hl
  have hr' := h.usable hK hr
  obtain ⟨res, hres, hcall⟩ := hT.apply_called h.good op hl' hr'
  have hsilent := hT.apply_silent h.good op hl' hr' hres
  exact reporting_runs hres hsilent.told fun hok => ⟨h.act hK hcall.good hcall.keeps hsilent
    (.apply l r op.code res.1 res.2 (fun _ => ⟨_, hl'⟩) (fun _ => ⟨_, hr'⟩) hres) hok,
    hcall.result hok⟩

theorem not_runs (hr : (r, F) ∈ H ++ B) :
    Runs Spent (bddNot T.D T.isPrime r) s fun n s' =>
      Holds T reset w K B H s' ∧ s'.Represents T.D n fun a => !F a := by
  have hr' := h.usable hK hr
  obtain ⟨res, hres, hcall⟩ := hT.not_called h.good hr'
  have hsilent := hT.not_silent h.good hr' hres
  exact reporting_runs hres hsilent.told fun hok => ⟨h.act hK hcall.good hcall.keeps hsilent
    (.not r res.1 res.2 (fun _ => ⟨_, hr'⟩) hres) hok, hcall.result hok⟩

theorem ite_runs {f : (ℕ → Bool) → Bool} (hn : (n, f) ∈ H ++ B) (hl : (l, F) ∈ H ++ B)
    (hr : (r, G) ∈ H ++ B) :
    Runs Spent (bddIte T.D T.isPrime n l r) s fun m s' =>
      Holds T reset w K B H s' ∧ s'.Represents T.D m fun a => if f a then F a else G a := by
  have hn' := h.usable hK hn
  have hl' := h.usable hK hl
  have hr' := h.usable hK hr
  obtain ⟨res, hres, hcall⟩ := hT.ite_called h.good hn' hl' hr'
  have hsilent := hT.ite_silent h.good hn' hl' hr' hres
  exact reporting_runs hres hsilent.told fun hok => ⟨h.act hK hcall.good hcall.keeps hsilent
    (.ite n l r res.1 res.2 (fun _ => ⟨_, hn'⟩) (fun _ => ⟨_, hl'⟩) (fun _ => ⟨_, hr'⟩) hres) hok,
    hcall.result hok⟩

end

/-! ### References -/

theorem bddAddref_refcou (hs : Good T s) (hn : s.IsNode n) (h2 : 2 ≤ n) (m : ℕ) :
    ((Bdd.bddAddref s n).bddnodes m).refcou = if m = n ∧ (s.bddnodes n).refcou < maxref
      then (s.bddnodes n).refcou + 1 else (s.bddnodes m).refcou := by
  rw [bddAddref_eq hs hn, if_neg (by omega)]
  unfold incref
  dsimp only
  by_cases hlt : (s.bddnodes n).refcou < maxref
  · rw [if_pos hlt]
    by_cases hm : m = n
    · subst hm
      rw [if_pos ⟨rfl, hlt⟩]
      exact congrArg BddNode.refcou (Function.update_self m _ s.bddnodes)
    · rw [if_neg fun h => hm h.1]
      exact congrArg BddNode.refcou (Function.update_of_ne hm _ _)
  · rw [if_neg hlt, if_neg fun h => hlt h.2]

theorem bddDelref_node (hs : Good T s) (hn : s.IsNode n) (h2 : 2 ≤ n)
    (hpos : 0 < (s.bddnodes n).refcou) : Bdd.bddDelref s n = decref s n := by
  obtain ⟨hsize, hfree⟩ := hs.checked hn
  unfold Bdd.bddDelref changeref
  rw [if_neg (by omega), if_neg hsize, if_neg fun h => hfree ⟨h2, h⟩]
  dsimp only
  rw [if_neg (by omega)]

theorem bddDelref_refcou (hs : Good T s) (hn : s.IsNode n) (h2 : 2 ≤ n)
    (hpos : 0 < (s.bddnodes n).refcou) (m : ℕ) :
    ((Bdd.bddDelref s n).bddnodes m).refcou = if m = n ∧ (s.bddnodes n).refcou ≠ maxref
      then (s.bddnodes n).refcou - 1 else (s.bddnodes m).refcou := by
  rw [bddDelref_node hs hn h2 hpos]
  unfold decref
  dsimp only
  by_cases hne : (s.bddnodes n).refcou ≠ maxref
  · rw [if_pos ⟨hne, hpos⟩]
    by_cases hm : m = n
    · subst hm
      rw [if_pos ⟨rfl, hne⟩]
      exact congrArg BddNode.refcou (Function.update_self m _ s.bddnodes)
    · rw [if_neg fun h => hm h.1]
      exact congrArg BddNode.refcou (Function.update_of_ne hm _ _)
  · rw [if_neg fun h => hne h.1, if_neg fun h => hne h.2]

/-- Nothing is told when a reference that is there is given back. -/
theorem bddDelref_told (hs : Good T s) (hn : s.IsNode n)
    (hpos : 2 ≤ n → 0 < (s.bddnodes n).refcou) : (Bdd.bddDelref s n).told = s.told := by
  by_cases h2 : 2 ≤ n
  · rw [bddDelref_node hs hn h2 (hpos h2)]
    unfold decref
    dsimp only
    split_ifs <;> rfl
  · unfold Bdd.bddDelref changeref
    rw [if_pos (by omega)]

theorem bddAddref_told (hs : Good T s) (hn : s.IsNode n) : (Bdd.bddAddref s n).told = s.told := by
  rw [bddAddref_eq hs hn]
  unfold incref
  dsimp only
  split_ifs <;> rfl

/-- References to `up` were taken and those to `down` were given back. -/
structure Tallied (T : Theory P) (s : BddState P) (up down : Heap) (s' : BddState P) : Prop where
  good : Good T s'
  survives : Survives T.D s s'
  told : s'.told = s.told
  saturated : ∀ n, 2 ≤ n → maxref ≤ (s.bddnodes n).refcou → maxref ≤ (s'.bddnodes n).refcou
  counts : ∀ n, 2 ≤ n → maxref ≤ (s'.bddnodes n).refcou ∨
    (s'.bddnodes n).refcou + refs down n = (s.bddnodes n).refcou + refs up n

theorem Tallied.refl (hs : Good T s) : Tallied T s [] [] s :=
  ⟨hs, .refl s, rfl, fun _ _ h => h, fun _ _ => Or.inr rfl⟩

theorem Tallied.trans {s₁ s₂ : BddState P} {U U' D D' : Heap} (h : Tallied T s U D s₁)
    (h' : Tallied T s₁ U' D' s₂) : Tallied T s (U ++ U') (D ++ D') s₂ := by
  refine ⟨h'.good, h.survives.trans h'.survives, h'.told.trans h.told,
    fun n hn hsat => h'.saturated n hn (h.saturated n hn hsat), fun n hn => ?_⟩
  have := h.counts n hn
  have := h'.counts n hn
  have := h'.saturated n hn
  rw [refs_append, refs_append]
  omega

theorem isNode_of_represents (h : s.Represents T.D n F) : s.IsNode n := by
  obtain ⟨t, hr, -⟩ := h
  exact hr.isNode

theorem addref_tallied (hs : Good T s) (hn : s.Represents T.D n F) :
    Tallied T s [(n, F)] [] (Bdd.bddAddref s n) := by
  have hnode := isNode_of_represents hn
  have hcount : ∀ m, 2 ≤ m → ((Bdd.bddAddref s n).bddnodes m).refcou =
      if m = n ∧ (s.bddnodes n).refcou < maxref then (s.bddnodes n).refcou + 1
        else (s.bddnodes m).refcou := fun m hm => by
    by_cases h2 : 2 ≤ n
    · exact bddAddref_refcou hs hnode h2 m
    · rw [bddAddref_eq hs hnode, if_pos (by omega), if_neg (by omega)]
  refine ⟨hs.addref n, survives_addref s n, bddAddref_told hs hnode, fun m hm hsat => ?_,
    fun m hm => ?_⟩
  · rw [hcount m hm]
    split_ifs with hif
    · obtain ⟨rfl, hlt⟩ := hif
      omega
    · exact hsat
  · rw [hcount m hm, refs_cons, refs_nil]
    dsimp only
    by_cases hmn : n = m
    · subst hmn
      rw [if_pos rfl]
      split_ifs <;> omega
    · rw [if_neg hmn, if_neg fun h => hmn h.1.symm]
      omega

theorem delref_tallied (hs : Good T s) (hn : s.Represents T.D n F)
    (hpos : 2 ≤ n → 0 < (s.bddnodes n).refcou) :
    Tallied T s [] [(n, F)] (Bdd.bddDelref s n) := by
  have hnode := isNode_of_represents hn
  have hcount : ∀ m, 2 ≤ m → ((Bdd.bddDelref s n).bddnodes m).refcou =
      if m = n ∧ (s.bddnodes n).refcou ≠ maxref then (s.bddnodes n).refcou - 1
        else (s.bddnodes m).refcou := fun m hm => by
    by_cases h2 : 2 ≤ n
    · exact bddDelref_refcou hs hnode h2 (hpos h2) m
    · rw [show Bdd.bddDelref s n = s from if_pos (by omega), if_neg (by omega)]
  refine ⟨hs.delref n, survives_delref s n, bddDelref_told hs hnode hpos, fun m hm hsat => ?_,
    fun m hm => ?_⟩
  · rw [hcount m hm]
    split_ifs with hif
    · obtain ⟨rfl, hne⟩ := hif
      omega
    · exact hsat
  · rw [hcount m hm, refs_cons, refs_nil]
    dsimp only
    by_cases hmn : n = m
    · subst hmn
      have := hpos hm
      rw [if_pos rfl]
      split_ifs <;> omega
    · rw [if_neg hmn, if_neg fun h => hmn h.1.symm]
      omega

theorem addref_runs (h : Holds T reset w K B H s) (hn : s.Represents T.D n F) :
    Runs Spent (bddAddref n) s fun m s' => m = n ∧ Holds T reset w K B ((n, F) :: H) s' := by
  have htally := addref_tallied h.good hn
  have hok : (Bdd.bddAddref s n).Ok := (bddAddref_ok s n).mpr h.ok
  refine reporting_runs (f := fun s => some (n, Bdd.bddAddref s n)) rfl (fun _ => htally.told)
    fun _ => ⟨rfl, htally.good, hok, by rw [htally.survives.env, h.varnum], fun m hm => ?_,
      fun m hm hsat => htally.saturated m hm (h.saturated m hm hsat), fun p hp => ?_,
      htally.told.trans h.told, .step h.reached (.act _ (.addref n (isNode_of_represents hn))) hok⟩
  · have hc := htally.counts m hm
    have := h.counts m hm
    have := htally.saturated m hm
    rw [refs_cons, refs_nil] at hc
    rw [refs_cons]
    dsimp only at hc ⊢
    omega
  · rcases List.mem_cons.mp hp with rfl | hp
    · exact htally.survives.represents hn
    · exact htally.survives.represents (h.represents p hp)

/-- A reference is given back, wherever it is in the heap. -/
theorem delref_runs (hK : Frame w K B) {pre : Heap} (h : Holds T reset w K B (pre ++ p :: H) s) :
    Runs Spent (bddDelref p.1) s fun _ s' =>
      Holds T reset w K B (pre ++ H) s' ∧ Survives T.D s s' := by
  have hmem : p ∈ pre ++ p :: H := by simp
  have hrefs := refs_pos hmem
  have hpos : 2 ≤ p.1 → 0 < (s.bddnodes p.1).refcou := fun h2 => by
    have hmax : 0 < maxref := by decide
    have := h.counts p.1 h2
    omega
  have htally := delref_tallied h.good (h.represents p (List.mem_append_left B hmem)) hpos
  have hok : (Bdd.bddDelref s p.1).Ok := (bddDelref_ok s p.1).mpr h.ok
  have hentries : entries { w with bdd := s } = w.entries := entries_congr h.varnum rfl
  refine reporting_runs (f := fun s => some ((), Bdd.bddDelref s p.1)) rfl (fun _ => htally.told)
    fun _ => ⟨⟨htally.good, hok, by rw [htally.survives.env, h.varnum], fun m hm => ?_,
      fun m hm hsat => htally.saturated m hm (h.saturated m hm hsat), fun q hq => ?_,
      htally.told.trans h.told, .step h.reached (.delref p.1 fun _ => ?_) hok⟩, htally.survives⟩
  · have hc := h.counts m hm
    have hc' := htally.counts m hm
    have := htally.saturated m hm
    rw [refs_append, refs_cons] at hc
    rw [refs_cons, refs_nil] at hc'
    rw [refs_append]
    dsimp only at hc' ⊢
    omega
  · refine htally.survives.represents (h.represents q ?_)
    simp only [List.mem_append, List.mem_cons] at hq ⊢
    tauto
  · by_cases h2 : p.1 < 2
    · exact Or.inl h2
    have hc := h.counts p.1 (by omega)
    have hsat := h.saturated p.1 (by omega)
    have := hK.owned p.1 (by omega)
    rw [hentries]
    dsimp only
    omega

/-! ### A call and what comes after it -/

section

variable (hT : T.Operates) (hK : Frame w K B) (h : Holds T reset w K B H s)
include hT hK h

theorem apply_then {op : BddOp} (hl : (l, F) ∈ H ++ B) (hr : (r, G) ∈ H ++ B)
    (hk : ∀ n s', Holds T reset w K B ((n, fun a => op.fn (F a) (G a)) :: H) s' →
      Runs Spent (k n) s' Q) :
    Runs Spent (bddApply T.D T.isPrime l r op >>= fun n => bddAddref n >>= k) s Q :=
  (apply_runs hT hK h op hl hr).bind fun _ _ h' => (addref_runs h'.1 h'.2).bind fun m s' h'' => by
    rw [h''.1]
    exact hk _ s' h''.2

theorem ite_then {f : (ℕ → Bool) → Bool} (hn : (n, f) ∈ H ++ B) (hl : (l, F) ∈ H ++ B)
    (hr : (r, G) ∈ H ++ B)
    (hk : ∀ n s', Holds T reset w K B ((n, fun a => if f a then F a else G a) :: H) s' →
      Runs Spent (k n) s' Q) :
    Runs Spent (bddIte T.D T.isPrime n l r >>= fun n => bddAddref n >>= k) s Q :=
  (ite_runs hT hK h hn hl hr).bind fun _ _ h' => (addref_runs h'.1 h'.2).bind fun m s' h'' => by
    rw [h''.1]
    exact hk _ s' h''.2

end

theorem delref_then (hK : Frame w K B) (pre : Heap)
    (h : Holds T reset w K B (pre ++ (n, F) :: H) s) {k : Unit → Prog (BddState P) β}
    (hk : ∀ s', Holds T reset w K B (pre ++ H) s' → Survives T.D s s' → Runs Spent (k ()) s' Q) :
    Runs Spent (bddDelref n >>= k) s Q :=
  (delref_runs hK h).bind fun _ s' h' => hk s' h'.1 h'.2

end MoToBuddy.Bvec
