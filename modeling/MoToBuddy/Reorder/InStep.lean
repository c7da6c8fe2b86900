import MoToBuddy.Reorder.SiftLaws

/-!
# When sifting is safe (`reorder.c`)

`InStep` says of a list of blocks that it follows their levels, and that an exchange can jump what
lies between them. Such a list is `Laid`, and sifting never makes it worse.
-/

namespace MoToBuddy.Reorder

open Bdd (BddEnv)
open CountedLoop Interleaving

/-- The siblings of one level as the package has them: every block has its variables in sequence on
neighbouring levels, and no variable is in two of them. -/
structure Listed (bs : List ℕ) (s : Blocks) : Prop where
  tables : Tables s.env
  siblings : Siblings s.tree none bs none
  nodup : bs.Nodup
  bound : ∀ b ∈ bs, ∀ v ∈ (s.tree b).vars, v < s.env.bddvarnum
  contiguous : ∀ b ∈ bs, ∃ a, Placed s.env.bddvar2level a (s.tree b).vars
  disjoint : ∀ b ∈ bs, ∀ c ∈ bs, b ≠ c → List.Disjoint (s.tree b).vars (s.tree c).vars

def Single (s : Blocks) (b : ℕ) : Prop := (s.tree b).first = (s.tree b).last

/-- The level of the first variable. -/
def topLevel (s : Blocks) (b : ℕ) : ℕ := s.env.bddvar2level ((s.tree b).seq 0)

/-- The level of the last variable. -/
def bottomLevel (s : Blocks) (b : ℕ) : ℕ :=
  s.env.bddvar2level ((s.tree b).seq ((s.tree b).last - (s.tree b).first))

def Above (s : Blocks) (b c : ℕ) : Prop := bottomLevel s b < topLevel s c

/-- No variable lies between the blocks. -/
def Touches (s : Blocks) (b c : ℕ) : Prop := bottomLevel s b + 1 = topLevel s c

/-- The blocks follow each other in the list as in the order. If a variable that is in none of them
lies between two, then every block has one variable; or the first block does, and it is behind the
first block only that there are such variables. -/
structure InStep (bs : List ℕ) (s : Blocks) : Prop where
  above : bs.IsChain (Above s)
  close : bs.IsChain (Touches s) ∨ (∀ b ∈ bs, Single s b) ∨
    ∃ b cs, bs = b :: cs ∧ Single s b ∧ cs.IsChain (Touches s)

section

variable {bs cs : List ℕ} {b c a : ℕ} {s : Blocks}

theorem topLevel_eq (h : Placed s.env.bddvar2level a (s.tree b).vars) : topLevel s b = a :=
  placed_iff.mp h 0 _ ((s.tree b).getElem?_vars (by rw [BddTree.length_vars]; omega))

theorem bottomLevel_eq (h : Placed s.env.bddvar2level a (s.tree b).vars) :
    bottomLevel s b + 1 = a + (s.tree b).vars.length := by
  have hlast := placed_iff.mp h _ _ ((s.tree b).getElem?_vars
    (n := (s.tree b).last - (s.tree b).first) (by rw [BddTree.length_vars]; omega))
  unfold bottomLevel
  rw [hlast, BddTree.length_vars]
  omega

theorem Single.length (h : Single s b) : (s.tree b).vars.length = 1 := by
  rw [BddTree.length_vars]
  unfold Single at h
  omega

/-- Variables on neighbouring levels are a part of the order. -/
theorem Tables.drop_order {env : BddEnv} (h : Tables env) {xs : List ℕ}
    (hp : Placed env.bddvar2level a xs) (hb : ∀ v ∈ xs, v < env.bddvarnum) :
    (order env).drop a = xs ++ (order env).drop (a + xs.length) := by
  induction xs generalizing a with
  | nil => simp
  | cons v xs ih =>
    have hv := hb v List.mem_cons_self
    have hlevel := h.level v hv
    rw [hp.1] at hlevel
    have hlt : a < (order env).length := by
      rw [order, List.length_map, List.length_range]
      exact hlevel.1
    have hget : (order env)[a] = v := by
      simp [order, hlevel.2]
    rw [List.drop_eq_getElem_cons hlt, hget, ih hp.2 fun w hw => hb w (List.mem_cons_of_mem _ hw),
      List.length_cons, List.cons_append, show a + 1 + xs.length = a + (xs.length + 1) by omega]

/-- The order from the first of the blocks on. -/
theorem Listed.drop_order (ht : Tables s.env)
    (hplaced : ∀ d ∈ b :: cs, (∀ v ∈ (s.tree d).vars, v < s.env.bddvarnum) ∧
      ∃ a, Placed s.env.bddvar2level a (s.tree d).vars)
    (hnext : (b :: cs).IsChain fun b c => Above s b c ∧ (Touches s b c ∨ Single s b)) :
    ∃ gs Y, (b :: cs).length = gs.length ∧
      (order s.env).drop (topLevel s b) = lay ((b :: cs).map fun b => (s.tree b).vars) gs ++ Y ∧
      ((b :: cs).IsChain (Touches s) → ∀ g ∈ gs, g = []) ∧
      (cs.IsChain (Touches s) → ∀ g ∈ gs.tail, g = []) := by
  induction cs generalizing b with
  | nil =>
    obtain ⟨hb, a, ha⟩ := hplaced b List.mem_cons_self
    refine ⟨[[]], (order s.env).drop (a + (s.tree b).vars.length), rfl, ?_, by simp, by simp⟩
    rw [topLevel_eq ha, ht.drop_order ha hb]
    simp [lay]
  | cons c cs ih =>
    obtain ⟨hb, a, ha⟩ := hplaced b List.mem_cons_self
    obtain ⟨hhead, htail⟩ := List.isChain_cons_cons.mp hnext
    obtain ⟨gs, Y, hlen, hdrop, hempty, -⟩ :=
      ih (fun d hd => hplaced d (List.mem_cons_of_mem _ hd)) htail
    have hbottom := bottomLevel_eq ha
    have habove : bottomLevel s b < topLevel s c := hhead.1
    let g := ((order s.env).drop (a + (s.tree b).vars.length)).take
      (topLevel s c - (a + (s.tree b).vars.length))
    have hg : Touches s b c → g = [] := fun htouch => by
      unfold Touches at htouch
      have hnone : topLevel s c - (a + (s.tree b).vars.length) = 0 := by omega
      show List.take _ _ = _
      rw [hnone, List.take_zero]
    refine ⟨g :: gs, Y, congrArg Nat.succ hlen, ?_, fun hchain => ?_, hempty⟩
    · have hsplit := List.take_append_drop (topLevel s c - (a + (s.tree b).vars.length))
        ((order s.env).drop (a + (s.tree b).vars.length))
      rw [List.drop_drop, show a + (s.tree b).vars.length +
        (topLevel s c - (a + (s.tree b).vars.length)) = topLevel s c by omega] at hsplit
      show _ = lay ((s.tree b).vars :: (c :: cs).map fun b => (s.tree b).vars) (g :: gs) ++ Y
      rw [topLevel_eq ha, ht.drop_order ha hb, ← hsplit, hdrop, lay_cons,
        pull_eq_append (hhead.2.imp hg Single.length)]
      simp only [List.append_assoc]
      rfl
    · obtain ⟨htouch, hrest⟩ := List.isChain_cons_cons.mp hchain
      intro d hd
      rcases List.mem_cons.mp hd with rfl | hd
      · exact hg htouch
      · exact hempty hrest d hd

/-- Blocks that are in step determine the order. -/
theorem Listed.laid (h : Listed bs s) (hstep : InStep bs s) :
    ∃ X Y gs, Laid s.env.bddvarnum X Y gs (fun b => (s.tree b).vars) bs s := by
  cases bs with
  | nil =>
    refine ⟨order s.env, [], [], rfl, h.tables, h.siblings, h.nodup, fun _ => rfl, rfl, ?_, ?_⟩
    · simp [lay]
    · simp
  | cons b cs =>
    have hnext : (b :: cs).IsChain fun b c => Above s b c ∧ (Touches s b c ∨ Single s b) := by
      rw [List.isChain_iff_forall_rel_of_append_cons_cons]
      intro c d l₁ l₂ heq
      refine ⟨List.isChain_iff_forall_rel_of_append_cons_cons.mp hstep.above heq, ?_⟩
      rcases hstep.close with htouch | hsingle | ⟨b', cs', hcons, hone, htouch⟩
      · exact Or.inl (List.isChain_iff_forall_rel_of_append_cons_cons.mp htouch heq)
      · exact Or.inr (hsingle c (by rw [heq]; simp))
      · obtain ⟨rfl, rfl⟩ := List.cons.inj hcons
        cases l₁ with
        | nil =>
          obtain ⟨rfl, -⟩ := List.cons.inj heq
          exact Or.inr hone
        | cons e l₁ =>
          obtain ⟨-, rfl⟩ := List.cons.inj heq
          exact Or.inl (List.isChain_iff_forall_rel_of_append_cons_cons.mp htouch rfl)
    obtain ⟨gs, Y, hlen, hdrop, hempty, htail⟩ :=
      Listed.drop_order h.tables (fun c hc => ⟨h.bound c hc, h.contiguous c hc⟩) hnext
    refine ⟨(order s.env).take (topLevel s b), Y, gs, rfl, h.tables, h.siblings, h.nodup,
      fun _ => rfl, hlen, ?_, ?_⟩
    · rw [List.append_assoc, ← hdrop, List.take_append_drop]
    · rcases hstep.close with htouch | hsingle | ⟨b', cs', hcons, hone, htouch⟩
      · exact Or.inl fun g hg => hempty htouch g (List.mem_of_mem_tail hg)
      · exact Or.inr fun c hc => (hsingle c hc).length
      · obtain ⟨rfl, rfl⟩ := List.cons.inj hcons
        exact Or.inl (htail htouch)

end

/-- Sifting does not make things worse: each block is left in the best of the places it has tried,
`reorder_sift` does not end with more nodes, and `reorder_siftite` ends. -/
structure Sifts (nodenum : List ℕ → ℕ) (bs : List ℕ) (s : Blocks) : Prop where
  bestpos : ∀ blk ∈ bs, ∀ middlePos : ℤ, ∃ fuel w,
    reorderSiftBestpos nodenum fuel blk middlePos s = some w ∧ Settled nodenum bs blk s w
  sift : ∀ (levelnum : List ℕ → ℕ → ℕ) (qsort : List (ℤ × ℕ) → List (ℤ × ℕ)),
    (∀ p, (qsort p).Perm p) → ∀ t, bs.head? = some t → ∃ fuel first s',
      reorderSift nodenum levelnum qsort fuel t s = some (first, s') ∧
        reorderNodenum nodenum s' ≤ reorderNodenum nodenum s
  siftite : ∀ (levelnum : List ℕ → ℕ → ℕ) (qsort : List (ℤ × ℕ) → List (ℤ × ℕ)),
    (∀ p, (qsort p).Perm p) → ∀ t, bs.head? = some t → ∃ fuel rounds r,
      reorderSiftite nodenum levelnum qsort fuel rounds t s = some r

/-- Blocks that are in step can be sifted. -/
theorem Listed.sifts {bs : List ℕ} {s : Blocks} (h : Listed bs s) (hstep : InStep bs s)
    (nodenum : List ℕ → ℕ) : Sifts nodenum bs s := by
  obtain ⟨X, Y, gs, hlaid⟩ := h.laid hstep
  let fuel := s.env.bddvarnum * s.env.bddvarnum + bs.length + 1
  have hfuel : s.env.bddvarnum * s.env.bddvarnum < fuel := by omega
  have hlen : bs.length < fuel := by omega
  refine ⟨fun blk hblk middlePos => ?_, fun levelnum qsort hqsort t ht => ?_,
    fun levelnum qsort hqsort t ht => ?_⟩
  · obtain ⟨w, -, hrun, hset, -⟩ := hlaid.sift nodenum hblk middlePos hfuel hlen
    exact ⟨fuel, w, hrun, hset⟩
  · obtain ⟨first, s', -, hrun, -, -, -, hle⟩ :=
      hlaid.reorderSift nodenum levelnum ht hqsort hfuel hlen
    exact ⟨fuel, first, s', hrun, hle⟩
  · obtain ⟨r, hrun⟩ := hlaid.reorderSiftite ht hqsort hfuel hlen (Nat.lt_succ_self _)
    exact ⟨fuel, _, r, hrun⟩

/-- Three blocks of one variable, with a variable between the first two that is in none. -/
def fourVariables : Blocks where
  env := identityOrder 4
  tree t := {
    first := if t = 0 then 0 else t + 1
    last := if t = 0 then 0 else t + 1
    pos := t
    seq := fun n => if t = 0 then n else n + (t + 1)
    next := if t < 2 then some (t + 1) else none
    prev := if t = 0 then none else some (t - 1)
    le := Nat.le_refl _ }

theorem fourVariables_vars (b : ℕ) (hb : b ∈ [0, 1, 2]) :
    (fourVariables.tree b).vars = [if b = 0 then 0 else b + 1] := by
  simp only [List.mem_cons, List.not_mem_nil, or_false] at hb
  rcases hb with rfl | rfl | rfl <;> rfl

theorem fourVariables_listed : Listed [0, 1, 2] fourVariables where
  tables := identityOrder_tables 4
  siblings := ⟨rfl, rfl, rfl, rfl, rfl, rfl, trivial⟩
  nodup := by decide
  bound := by decide
  contiguous b hb := by
    rw [fourVariables_vars b hb]
    exact ⟨_, rfl, trivial⟩
  disjoint b hb c hc hne := by
    rw [fourVariables_vars b hb, fourVariables_vars c hc, List.singleton_disjoint,
      List.mem_singleton]
    intro heq
    split_ifs at heq <;> omega

theorem fourVariables_inStep : InStep [0, 1, 2] fourVariables where
  above := by simp [Above, bottomLevel, topLevel, fourVariables, identityOrder]
  close := Or.inr (Or.inl (by simp [Single, fourVariables]))

theorem sifts_four : Sifts (fun o => o.idxOf 3) [0, 1, 2] fourVariables :=
  fourVariables_listed.sifts fourVariables_inStep fun o => o.idxOf 3

/-- The blocks of the variables `0` and `1`, and of the variable `3`. The variable `2` is in none. -/
def strayVariable : Blocks where
  env := identityOrder 4
  tree t := {
    first := if t = 0 then 0 else 3
    last := if t = 0 then 1 else 3
    pos := t
    seq := fun n => if t = 0 then n else n + 3
    next := if t = 0 then some 1 else none
    prev := if t = 0 then none else some 0
    le := by split <;> decide }

/-- The order at the start is the best one. -/
def strayNodenum (o : List ℕ) : ℕ := if o = [0, 1, 2, 3] then 4 else 5

theorem strayVariable_listed : Listed [0, 1] strayVariable where
  tables := identityOrder_tables 4
  siblings := ⟨rfl, rfl, rfl, rfl, trivial⟩
  nodup := by decide
  bound := by decide
  contiguous := by
    intro b hb
    simp only [List.mem_cons, List.not_mem_nil, or_false] at hb
    rcases hb with rfl | rfl
    · exact ⟨0, rfl, rfl, trivial⟩
    · exact ⟨3, rfl, trivial⟩
  disjoint := by
    unfold List.Disjoint
    simp [strayVariable, BddTree.vars, List.range_succ]
    omega

end MoToBuddy.Reorder
