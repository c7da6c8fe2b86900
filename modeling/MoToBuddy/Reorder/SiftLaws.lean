import MoToBuddy.Reorder.Sift

/-!
# Sifting in step with the order (`reorder.c`)

Blocks whose list follows their levels, with nothing between them that an exchange cannot jump, stay
so: the order is a function of the list, and moving a block there and back is the identity.

* `Laid`: the order as it follows from the list of the blocks.
* `Laid.exchange`: `blockdown` exchanges two blocks in the list and in the order.
* `Tracked`: the invariant of the walk. The offset leads to the best position.
-/

namespace MoToBuddy.Reorder

open Bdd (BddEnv)
open CountedLoop Interleaving

/-- The order is that of the list of blocks. Each block is merged with the variables that lie behind
its place in the list; but these are behind the first place only, or the blocks have one variable
each. -/
structure Laid (num : ℕ) (X Y : List ℕ) (gs : List (List ℕ)) (vars : ℕ → List ℕ) (bs : List ℕ)
    (s : Blocks) : Prop where
  varnum : s.env.bddvarnum = num
  tables : Tables s.env
  siblings : Siblings s.tree none bs none
  nodup : bs.Nodup
  block : ∀ b, (s.tree b).vars = vars b
  length : bs.length = gs.length
  laid : order s.env = X ++ lay (bs.map vars) gs ++ Y
  shape : (∀ g ∈ gs.tail, g = []) ∨ ∀ b ∈ bs, (vars b).length = 1

section Laid

variable {num fuel : ℕ} {X Y : List ℕ} {gs : List (List ℕ)} {vars : ℕ → List ℕ}
  {A B bs : List ℕ} {s s' : Blocks} {l r : ℕ}

theorem Laid.congr (h : Laid num X Y gs vars bs s) (henv : s'.env = s.env)
    (heq : ∀ b, (s'.tree b).prev = (s.tree b).prev ∧ (s'.tree b).next = (s.tree b).next ∧
      (s'.tree b).vars = (s.tree b).vars) : Laid num X Y gs vars bs s' where
  varnum := henv ▸ h.varnum
  tables := henv ▸ h.tables
  siblings := h.siblings.congr fun b _ => ⟨(heq b).1, (heq b).2.1⟩
  nodup := h.nodup
  block b := (heq b).2.2.trans (h.block b)
  length := h.length
  laid := henv ▸ h.laid
  shape := h.shape

/-- The exchange of neighbours. -/
theorem Laid.exchange (h : Laid num X Y gs vars (A ++ l :: r :: B) s) (hfuel : num * num < fuel) :
    ∃ s', blockdown fuel l s = some s' ∧ Laid num X Y gs vars (A ++ r :: l :: B) s' := by
  have hgs : ∃ GA g g' GB, A.length = GA.length ∧ gs = GA ++ g :: g' :: GB := by
    have hlen := h.length
    rw [List.length_append, List.length_cons, List.length_cons] at hlen
    refine ⟨gs.take A.length, gs[A.length], gs[A.length + 1], gs.drop (A.length + 2), ?_, ?_⟩
    · rw [List.length_take]
      omega
    · rw [List.getElem_cons_drop, List.getElem_cons_drop, List.take_append_drop]
  obtain ⟨GA, g, g', GB, hA, rfl⟩ := hgs
  -- what lies behind the right block is not merged into it
  have hapart : ∀ b, b = l ∨ b = r → pull (vars b) g' = vars b ++ g' := by
    intro b hb
    refine pull_eq_append ?_
    rcases h.shape with hempty | hone
    · refine Or.inl (hempty g' ?_)
      cases GA <;> simp
    · exact Or.inr (hone b (by rcases hb with rfl | rfl <;> simp))
  have horder := h.laid
  rw [List.map_append, lay_append (by rw [List.length_map, hA]), List.map_cons, List.map_cons,
    lay_cons, lay_cons, hapart r (Or.inr rfl), ← h.block l, ← h.block r] at horder
  have horder' : order s.env = (X ++ lay (A.map vars) GA) ++ pull (s.tree l).vars g ++
      (s.tree r).vars ++ (g' ++ lay (B.map vars) GB ++ Y) := by
    rw [horder]
    simp only [List.append_assoc]
  have hlen := congrArg List.length horder'
  rw [order, List.length_map, List.length_range, h.varnum] at hlen
  simp only [List.length_append, (pull_perm _ _).length_eq] at hlen
  have hcost : (s.tree l).vars.length * (g ++ (s.tree r).vars).length ≤ num * num := by
    rw [List.length_append]
    exact Nat.mul_le_mul (by omega) (by omega)
  have hnext : (s.tree l).next = some r := by
    simpa using (siblings_append.mp h.siblings).2.2.1
  obtain ⟨env', hrun, hmoved, hnew⟩ :=
    blockdown_order hnext h.tables horder' (lt_of_le_of_lt hcost hfuel)
  refine ⟨_, hrun, hmoved.varnum.trans h.varnum, hmoved.tables, exchange_siblings h.siblings h.nodup,
    ?_, fun b => ?_, ?_, ?_, ?_⟩
  · have hperm : (A ++ l :: r :: B).Perm (A ++ r :: l :: B) := (List.Perm.swap r l B).append_left A
    exact hperm.nodup_iff.mp h.nodup
  · have hkept := exchange_kept h.siblings h.nodup b
    rw [← h.block b]
    unfold BddTree.vars
    rw [hkept.1, hkept.2.1, hkept.2.2]
  · simpa using h.length
  · rw [hnew, List.map_append, lay_append (by rw [List.length_map, hA]), List.map_cons,
      List.map_cons, lay_cons, lay_cons, hapart l (Or.inl rfl), h.block l, h.block r]
    simp only [List.append_assoc]
  · refine h.shape.imp_right fun hone b hb => hone b ?_
    simp only [List.mem_append, List.mem_cons] at hb ⊢
    tauto

end Laid

/-! ## One block among its siblings -/

section Walk

variable {num fuel : ℕ} {X Y : List ℕ} {gs : List (List ℕ)} {vars : ℕ → List ℕ}
  {rest : List ℕ} {blk : ℕ} {s : Blocks} {i : ℕ}

/-- The block in the `i`-th place of the list. -/
def place (rest : List ℕ) (blk i : ℕ) : List ℕ := rest.take i ++ blk :: rest.drop i

theorem place_above {r : ℕ} (hi : rest[i]? = some r) :
    place rest blk i = rest.take i ++ blk :: r :: rest.drop (i + 1) := by
  obtain ⟨hlt, heq⟩ := List.getElem?_eq_some_iff.mp hi
  rw [place, List.drop_eq_getElem_cons hlt, heq]

theorem place_below {r : ℕ} (hi : rest[i]? = some r) :
    place rest blk (i + 1) = rest.take i ++ r :: blk :: rest.drop (i + 1) := by
  obtain ⟨hlt, heq⟩ := List.getElem?_eq_some_iff.mp hi
  rw [place, List.take_succ_eq_append_getElem hlt, heq, List.append_assoc]
  rfl

/-- The block is in the `i`-th place, and the order says so. -/
def At (num : ℕ) (X Y : List ℕ) (gs : List (List ℕ)) (vars : ℕ → List ℕ) (rest : List ℕ)
    (blk i : ℕ) (s : Blocks) : Prop :=
  i ≤ rest.length ∧ Laid num X Y gs vars (place rest blk i) s

/-- The order with the block in the `i`-th place. -/
def orderAt (X Y : List ℕ) (gs : List (List ℕ)) (vars : ℕ → List ℕ) (rest : List ℕ)
    (blk i : ℕ) : List ℕ :=
  X ++ lay ((place rest blk i).map vars) gs ++ Y

theorem At.order_eq (h : At num X Y gs vars rest blk i s) :
    order s.env = orderAt X Y gs vars rest blk i := h.2.laid

theorem At.links (h : At num X Y gs vars rest blk i s) :
    (s.tree blk).prev = (rest.take i).getLast? ∧ (s.tree blk).next = rest[i]? := by
  have hi := h.1
  have hlen : (rest.take i).length = i := by
    rw [List.length_take]
    omega
  have hb : (place rest blk i)[i]? = some blk := by
    rw [place, List.getElem?_append_right (by omega), hlen, Nat.sub_self]
    rfl
  have hlinks := h.2.siblings.links hb
  rw [place, List.take_append_of_le_length (by omega), List.take_take, Nat.min_self,
    List.getElem?_append_right (by omega), hlen, Nat.add_sub_cancel_left, List.getElem?_cons_succ,
    List.getElem?_drop, Nat.add_zero] at hlinks
  exact hlinks

theorem At.down (h : At num X Y gs vars rest blk i s) (hi : i < rest.length)
    (hfuel : num * num < fuel) :
    ∃ s', blockdown fuel blk s = some s' ∧ At num X Y gs vars rest blk (i + 1) s' := by
  have hr : rest[i]? = some rest[i] := List.getElem?_eq_getElem hi
  have hlaid := h.2
  rw [place_above hr] at hlaid
  obtain ⟨s', hrun, hlaid'⟩ := hlaid.exchange hfuel
  exact ⟨s', hrun, hi, by rw [place_below hr]; exact hlaid'⟩

theorem At.up (h : At num X Y gs vars rest blk (i + 1) s) (hfuel : num * num < fuel) :
    ∃ left s', (s.tree blk).prev = some left ∧ blockdown fuel left s = some s' ∧
      At num X Y gs vars rest blk i s' := by
  have hi : i < rest.length := h.1
  have hr : rest[i]? = some rest[i] := List.getElem?_eq_getElem hi
  have hprev := h.links.1
  rw [List.take_succ_eq_append_getElem hi, List.getLast?_append] at hprev
  have hlaid := h.2
  rw [place_below hr] at hlaid
  obtain ⟨s', hrun, hlaid'⟩ := hlaid.exchange hfuel
  refine ⟨rest[i], s', by simpa using hprev, hrun, hi.le, ?_⟩
  rw [place_above hr]
  exact hlaid'

variable (nodenum : List ℕ → ℕ)

/-- The walk is in the `i`-th place, and the offset leads to the best of the places it has tried. -/
structure Tracked (num : ℕ) (X Y : List ℕ) (gs : List (List ℕ)) (vars : ℕ → List ℕ)
    (rest : List ℕ) (blk start i : ℕ) (w : Walk) : Prop where
  at_ : At num X Y gs vars rest blk i w.s
  best : ∃ b ≤ rest.length, w.bestpos = (i : ℤ) - b ∧
    w.best = nodenum (orderAt X Y gs vars rest blk b) ∧
    orderAt X Y gs vars rest blk b ∈ w.tried
  least : ∀ o ∈ w.tried, w.best ≤ nodenum o
  start : orderAt X Y gs vars rest blk start ∈ w.tried

variable {nodenum} {start j : ℕ} {w : Walk}

/-- A step into the `j`-th place. -/
theorem Tracked.step (h : Tracked nodenum num X Y gs vars rest blk start i w) (dirIsUp : Bool)
    {left : ℕ} {s' : Blocks}
    (hleft : (if dirIsUp then (w.s.tree blk).prev else some blk) = some left)
    (hrun : blockdown fuel left w.s = some s') (hat : At num X Y gs vars rest blk j s')
    (hj : (j : ℤ) = if dirIsUp then (i : ℤ) - 1 else i + 1) :
    ∃ w', walkStep nodenum fuel blk dirIsUp w = some w' ∧
      Tracked nodenum num X Y gs vars rest blk start j w' := by
  obtain ⟨b, hb, hpos, hbest, hmem⟩ := h.best
  have hcount : reorderNodenum nodenum s' = nodenum (orderAt X Y gs vars rest blk j) :=
    congrArg nodenum hat.order_eq
  have htried := hat.order_eq
  unfold walkStep
  simp only [hleft, hrun, Option.bind_eq_bind, Option.bind_some]
  by_cases hless : reorderNodenum nodenum s' < w.best
  · rw [if_pos hless]
    refine ⟨_, rfl, hat, ⟨j, hat.1, by simp, hcount, ?_⟩, fun o ho => ?_, ?_⟩
    · exact htried ▸ List.mem_cons_self
    · rcases List.mem_cons.mp ho with rfl | ho
      · exact (congrArg nodenum rfl).le
      · exact hless.le.trans (h.least o ho)
    · exact List.mem_cons_of_mem _ h.start
  · rw [if_neg hless]
    refine ⟨_, rfl, hat, ⟨b, hb, ?_, hbest, List.mem_cons_of_mem _ hmem⟩, fun o ho => ?_, ?_⟩
    · rw [hj]
      show (if dirIsUp then w.bestpos - 1 else w.bestpos + 1) = _
      cases dirIsUp <;> simp <;> omega
    · rcases List.mem_cons.mp ho with rfl | ho
      · exact not_lt.mp hless
      · exact h.least o ho
    · exact List.mem_cons_of_mem _ h.start

theorem Tracked.restart (h : Tracked nodenum num X Y gs vars rest blk start i w) :
    Tracked nodenum num X Y gs vars rest blk start i { w with first := true } :=
  ⟨h.at_, h.best, h.least, h.start⟩

/-- The walk in one direction ends. -/
theorem Tracked.walk (h : Tracked nodenum num X Y gs vars rest blk start i w) (dirIsUp : Bool)
    (hfuel : num * num < fuel) (hlen : rest.length < fuel) :
    ∃ j w', walk nodenum fuel blk dirIsUp w = some w' ∧
      Tracked nodenum num X Y gs vars rest blk start j w' := by
  -- as many places are left as there are in this direction
  let I (k : ℕ) (w : Walk) : Prop := ∃ i, (k = if dirIsUp then i else rest.length - i) ∧
    Tracked nodenum num X Y gs vars rest blk start i w
  have hstep : ∀ k w, I k w → walkOn nodenum blk dirIsUp w = true →
      ∃ j w', j < k ∧ walkStep nodenum fuel blk dirIsUp w = some w' ∧ I j w' := by
    intro k w hk hc
    obtain ⟨i, hki, ht⟩ := hk
    have hlinks := ht.at_.links
    have hle := ht.at_.1
    unfold walkOn at hc
    have hsome := (Bool.and_eq_true_iff.mp hc).1
    cases dirIsUp with
    | true =>
      cases i with
      | zero => simp [hlinks.1] at hsome
      | succ i =>
        obtain ⟨left, s', hprev, hrun, hat⟩ := ht.at_.up hfuel
        obtain ⟨w', hw, ht'⟩ := ht.step true (by simpa using hprev) hrun hat (by simp)
        exact ⟨i, w', by simp at hki; omega, hw, i, by simp, ht'⟩
    | false =>
      have hi : i < rest.length := by
        by_contra hge
        rw [hlinks.2, List.getElem?_eq_none (by omega)] at hsome
        simp at hsome
      obtain ⟨s', hrun, hat⟩ := ht.at_.down hi hfuel
      obtain ⟨w', hw, ht'⟩ := ht.step false (by simp) hrun hat (by simp)
      exact ⟨rest.length - (i + 1), w', by simp at hki; omega, hw, i + 1, by simp, ht'⟩
  have hbound : (if dirIsUp then i else rest.length - i) < fuel := by
    have hle := h.at_.1
    split_ifs <;> omega
  obtain ⟨k, w', hrun, -, j, -, ht⟩ := whileDo_total I hstep ⟨i, rfl, h.restart⟩ hbound
  exact ⟨j, w', hrun, ht⟩

variable {b : ℕ}

/-- The steps down, for a block that has to go down to the `b`-th place. -/
theorem At.moveDown_loop (h : At num X Y gs vars rest blk i w.s) (hb : b ≤ rest.length)
    (hpos : w.bestpos = (i : ℤ) - b) (hfuel : num * num < fuel) (hlen : rest.length < fuel) :
    ∃ w' j, whileDo (fun w => w.bestpos < 0) (moveDown fuel blk) fuel w = some w' ∧
      At num X Y gs vars rest blk j w'.s ∧ w'.bestpos = (j : ℤ) - b ∧ b ≤ j ∧
      w'.tried = w.tried := by
  let I (k : ℕ) (v : Walk) : Prop := ∃ i, k = b - i ∧ At num X Y gs vars rest blk i v.s ∧
    v.bestpos = (i : ℤ) - b ∧ v.tried = w.tried
  have hstep : ∀ k v, I k v → decide (v.bestpos < 0) = true →
      ∃ j v', j < k ∧ moveDown fuel blk v = some v' ∧ I j v' := by
    intro k v hk hc
    obtain ⟨i, hki, hat, hpos, htried⟩ := hk
    have hneg : v.bestpos < 0 := by simpa using hc
    obtain ⟨s', hrun, hat'⟩ := hat.down (by omega) hfuel
    have hmove : moveDown fuel blk v = some { v with s := s', bestpos := v.bestpos + 1 } := by
      simp [moveDown, hrun]
    refine ⟨b - (i + 1), _, by omega, hmove, i + 1, rfl, hat', ?_, htried⟩
    push_cast
    show v.bestpos + 1 = _
    omega
  obtain ⟨k, w', hrun, hexit, j, -, hat, hoff, htried⟩ :=
    whileDo_total I hstep ⟨i, rfl, h, hpos, rfl⟩ (show b - i < fuel by omega)
  have hnonneg : ¬ w'.bestpos < 0 := by simpa using hexit
  exact ⟨w', j, hrun, hat, hoff, by omega, htried⟩

/-- The steps up. -/
theorem At.moveUp_loop (h : At num X Y gs vars rest blk i w.s) (hbi : b ≤ i)
    (hpos : w.bestpos = (i : ℤ) - b) (hfuel : num * num < fuel) (hlen : rest.length < fuel) :
    ∃ w', whileDo (fun w => w.bestpos > 0) (moveUp fuel blk) fuel w = some w' ∧
      At num X Y gs vars rest blk b w'.s ∧ w'.tried = w.tried := by
  let I (k : ℕ) (v : Walk) : Prop := At num X Y gs vars rest blk (k + b) v.s ∧
    v.bestpos = k ∧ v.tried = w.tried
  have hstep : ∀ k v, I k v → decide (v.bestpos > 0) = true →
      ∃ j v', j < k ∧ moveUp fuel blk v = some v' ∧ I j v' := by
    intro k v hk hc
    obtain ⟨hat, hpos, htried⟩ := hk
    have hgt : v.bestpos > 0 := by simpa using hc
    cases k with
    | zero => omega
    | succ k =>
      rw [Nat.succ_add] at hat
      obtain ⟨left, s', hprev, hrun, hat'⟩ := hat.up hfuel
      have hmove : moveUp fuel blk v = some { v with s := s', bestpos := v.bestpos - 1 } := by
        simp [moveUp, hprev, hrun]
      refine ⟨k, _, Nat.lt_succ_self k, hmove, hat', ?_, htried⟩
      show v.bestpos - 1 = _
      push_cast at hpos
      omega
  have hi := h.1
  have hstart : I (i - b) w := by
    refine ⟨?_, by omega, rfl⟩
    rw [Nat.sub_add_cancel hbi]
    exact h
  obtain ⟨k, w', hrun, hexit, hat, hoff, htried⟩ :=
    whileDo_total I hstep hstart (show i - b < fuel by omega)
  have hnonpos : ¬ w'.bestpos > 0 := by simpa using hexit
  have hk : k = 0 := by omega
  rw [hk, Nat.zero_add] at hat
  exact ⟨w', hrun, hat, htried⟩

/-- The offset is walked back. -/
theorem Tracked.toBestpos (h : Tracked nodenum num X Y gs vars rest blk start i w)
    (hfuel : num * num < fuel) (hlen : rest.length < fuel) :
    ∃ b w', toBestpos fuel blk w = some w' ∧ At num X Y gs vars rest blk b w'.s ∧
      w'.tried = w.tried ∧ w.best = nodenum (orderAt X Y gs vars rest blk b) ∧
      orderAt X Y gs vars rest blk b ∈ w.tried := by
  obtain ⟨b, hb, hpos, hbest, hmem⟩ := h.best
  obtain ⟨v, j, hdown, hat, hoff, hbj, htried⟩ := h.at_.moveDown_loop hb hpos hfuel hlen
  obtain ⟨w', hup, hat', htried'⟩ := hat.moveUp_loop hbj hoff hfuel hlen
  refine ⟨b, w', ?_, hat', htried'.trans htried, hbest, hmem⟩
  unfold Reorder.toBestpos
  rw [hdown]
  exact hup

/-- The block ends in the best of the places that it has tried. -/
theorem At.sift (h : At num X Y gs vars rest blk start s) (middlePos : ℤ)
    (hfuel : num * num < fuel) (hlen : rest.length < fuel) :
    ∃ b w, reorderSiftBestpos nodenum fuel blk middlePos s = some w ∧
      At num X Y gs vars rest blk b w.s ∧ order s.env ∈ w.tried ∧ order w.s.env ∈ w.tried ∧
      ∀ o ∈ w.tried, nodenum (order w.s.env) ≤ nodenum o := by
  let w₀ : Walk :=
    { s, best := reorderNodenum nodenum s,
      maxAllowed := maxAllowed s.env (reorderNodenum nodenum s), bestpos := 0, first := true,
      tried := [order s.env] }
  have horder := h.order_eq
  have hstart : Tracked nodenum num X Y gs vars rest blk start start w₀ := by
    refine ⟨h, ⟨start, h.1, ?_, congrArg nodenum horder, ?_⟩, fun o ho => ?_, ?_⟩
    · show (0 : ℤ) = _
      omega
    · exact horder ▸ List.mem_singleton_self _
    · rw [List.mem_singleton.mp ho]
      exact (Nat.le_refl _ : nodenum (order s.env) ≤ nodenum (order s.env))
    · exact horder ▸ List.mem_singleton_self _
  have hwalk := fun {i w} (ht : Tracked nodenum num X Y gs vars rest blk start i w) dirIsUp =>
    ht.walk dirIsUp hfuel hlen
  obtain ⟨i, w₁, hrun₁, ht₁⟩ := hwalk hstart (decide ¬ (s.tree blk).pos > middlePos)
  obtain ⟨j, w₂, hrun₂, ht₂⟩ := hwalk ht₁ (!decide ¬ (s.tree blk).pos > middlePos)
  obtain ⟨b, w, hrun, hat, htried, hbest, hmem⟩ := ht₂.toBestpos hfuel hlen
  refine ⟨b, w, ?_, hat, ?_, ?_, fun o ho => ?_⟩
  · unfold reorderSiftBestpos
    simp only [Option.bind_eq_bind]
    rw [show walk nodenum fuel blk _ _ = some w₁ from hrun₁, Option.bind_some, hrun₂,
      Option.bind_some, hrun]
  · rw [htried, horder]
    exact ht₂.start
  · rw [htried, hat.order_eq]
    exact hmem
  · rw [hat.order_eq, ← hbest]
    exact ht₂.least o (htried ▸ ho)

end Walk

/-! ## All blocks -/

section Sift

variable {num fuel : ℕ} {X Y : List ℕ} {gs : List (List ℕ)} {vars : ℕ → List ℕ}
  {bs seq : List ℕ} {blk t : ℕ} {s : Blocks} (nodenum : List ℕ → ℕ)

/-- What sifting one block should do: the best of the orders that it has tried is left, and the
other blocks keep their order in the list. -/
structure Settled (bs : List ℕ) (blk : ℕ) (s : Blocks) (w : Walk) : Prop where
  start : order s.env ∈ w.tried
  place : order w.s.env ∈ w.tried
  least : ∀ o ∈ w.tried, nodenum (order w.s.env) ≤ nodenum o
  others : ∃ A B, Siblings w.s.tree none (A ++ blk :: B) none ∧ A ++ B = bs.erase blk

variable {nodenum}

theorem Laid.sift (nodenum : List ℕ → ℕ) (h : Laid num X Y gs vars bs s) (hblk : blk ∈ bs) (middlePos : ℤ)
    (hfuel : num * num < fuel) (hlen : bs.length < fuel) :
    ∃ w bs', reorderSiftBestpos nodenum fuel blk middlePos s = some w ∧
      Settled nodenum bs blk s w ∧ Laid num X Y gs vars bs' w.s ∧ bs'.Perm bs := by
  obtain ⟨A, B, rfl⟩ := List.append_of_mem hblk
  have hplace : place (A ++ B) blk A.length = A ++ blk :: B := by simp [place]
  have hat : At num X Y gs vars (A ++ B) blk A.length s :=
    ⟨by simp, hplace.symm ▸ h⟩
  obtain ⟨b, w, hrun, hat', hstart, hmem, hleast⟩ := hat.sift middlePos hfuel
    (by simp at hlen ⊢; omega)
  have hnot : blk ∉ A := fun hA =>
    (List.nodup_append.mp h.nodup).2.2 blk hA blk List.mem_cons_self rfl
  refine ⟨w, _, hrun, ⟨hstart, hmem, hleast, _, _, hat'.2.siblings, ?_⟩, hat'.2, ?_⟩
  · rw [List.take_append_drop, List.erase_append_right _ hnot, List.erase_cons_head]
  · refine List.perm_middle.trans ?_
    rw [List.take_append_drop]
    exact List.perm_middle.symm

theorem Laid.siftSeq (nodenum : List ℕ → ℕ) (h : Laid num X Y gs vars bs s) (hseq : ∀ b ∈ seq, b ∈ bs) (middlePos : ℤ)
    (hfuel : num * num < fuel) (hlen : bs.length < fuel) :
    ∃ s' bs', seq.foldlM (fun s blk => do
        let w ← reorderSiftBestpos nodenum fuel blk middlePos s
        return w.s) s = some s' ∧
      Laid num X Y gs vars bs' s' ∧ bs'.Perm bs ∧
      reorderNodenum nodenum s' ≤ reorderNodenum nodenum s := by
  induction seq generalizing s bs with
  | nil => exact ⟨s, bs, rfl, h, .refl _, Nat.le_refl _⟩
  | cons blk seq ih =>
    obtain ⟨w, bs₁, hrun, hset, hlaid, hperm⟩ :=
      h.sift nodenum (hseq blk List.mem_cons_self) middlePos hfuel hlen
    obtain ⟨s', bs', hrest, hlaid', hperm', hle⟩ := ih hlaid
      (fun b hb => hperm.mem_iff.mpr (hseq b (List.mem_cons_of_mem _ hb)))
      (hperm.length_eq ▸ hlen)
    refine ⟨s', bs', ?_, hlaid', hperm'.trans hperm, hle.trans (hset.least _ hset.start)⟩
    rw [List.foldlM_cons, hrun]
    exact hrest

/-- The first of the siblings is found along `prev`. -/
theorem Laid.first (h : Laid num X Y gs vars bs s) (ht : t ∈ bs) (hlen : bs.length < fuel) :
    ∃ first, whileDo (fun this => (s.tree this).prev.isSome) (fun this => (s.tree this).prev) fuel t
      = some first ∧ bs.head? = some first := by
  let I (k this : ℕ) : Prop := bs[k]? = some this
  obtain ⟨k, hk⟩ := List.mem_iff_getElem?.mp ht
  have hstep : ∀ k this, I k this → (s.tree this).prev.isSome = true →
      ∃ j prev, j < k ∧ (s.tree this).prev = some prev ∧ I j prev := by
    intro k this hk hsome
    have hprev := (h.siblings.links hk).1
    cases k with
    | zero => simp [hprev] at hsome
    | succ k =>
      have hlt := (List.getElem?_eq_some_iff.mp hk).1
      rw [List.take_succ_eq_append_getElem (by omega), List.getLast?_append] at hprev
      exact ⟨k, bs[k], Nat.lt_succ_self k, by simpa using hprev, List.getElem?_eq_getElem _⟩
  have hlt := (List.getElem?_eq_some_iff.mp hk).1
  obtain ⟨j, first, hrun, hexit, hj⟩ := whileDo_total I hstep hk (show k < fuel by omega)
  refine ⟨first, hrun, ?_⟩
  have hprev := (h.siblings.links hj).1
  cases j with
  | zero => rw [List.head?_eq_getElem?, hj]
  | succ j =>
    have hlt := (List.getElem?_eq_some_iff.mp hj).1
    rw [List.take_succ_eq_append_getElem (by omega), List.getLast?_append] at hprev
    simp [hprev] at hexit

theorem siblingsFrom_eq {tree : ℕ → BddTree} {p : Option ℕ} (h : Siblings tree p bs none)
    (hlen : bs.length < fuel) : siblingsFrom tree fuel bs.head? = some bs := by
  induction bs generalizing p fuel with
  | nil =>
    cases fuel with
    | zero => omega
    | succ fuel => rfl
  | cons b bs ih =>
    cases fuel with
    | zero => omega
    | succ fuel =>
      have hnext : (tree b).next = bs.head? := by simpa using h.2.1
      rw [List.head?_cons, siblingsFrom, hnext, ih h.2.2 (by simpa using hlen)]
      rfl

theorem numbered_kept (bs : List ℕ) (tree : ℕ → BddTree) (b : ℕ) :
    (numbered bs tree b).prev = (tree b).prev ∧ (numbered bs tree b).next = (tree b).next ∧
      (numbered bs tree b).vars = (tree b).vars := by
  unfold numbered
  generalize bs.zipIdx = l
  induction l generalizing tree with
  | nil => exact ⟨rfl, rfl, rfl⟩
  | cons c l ih =>
    have hc := ih (modify tree c.1 fun t => { t with pos := c.2 })
    rw [List.foldl_cons, hc.1, hc.2.1, hc.2.2]
    unfold modify
    split_ifs <;> exact ⟨rfl, rfl, rfl⟩

variable {levelnum : List ℕ → ℕ → ℕ} {qsort : List (ℤ × ℕ) → List (ℤ × ℕ)}

/-- `reorder_sift` ends, with as many nodes as before or fewer. -/
theorem Laid.reorderSift (nodenum : List ℕ → ℕ) (levelnum : List ℕ → ℕ → ℕ)
    (h : Laid num X Y gs vars bs s) (ht : bs.head? = some t)
    (hqsort : ∀ p, (qsort p).Perm p) (hfuel : num * num < fuel) (hlen : bs.length < fuel) :
    ∃ first s' bs', reorderSift nodenum levelnum qsort fuel t s = some (first, s') ∧
      Laid num X Y gs vars bs' s' ∧ bs'.head? = some first ∧ bs'.Perm bs ∧
      reorderNodenum nodenum s' ≤ reorderNodenum nodenum s := by
  have hlaid : Laid num X Y gs vars bs { s with tree := numbered bs s.tree } :=
    h.congr rfl fun b => numbered_kept bs s.tree b
  have hfrom := siblingsFrom_eq h.siblings hlen
  rw [ht] at hfrom
  generalize hp : bs.map (fun b => (-((List.range' ((numbered bs s.tree) b).first
    (((numbered bs s.tree) b).last - ((numbered bs s.tree) b).first + 1)).map
    fun v => (levelnum (order s.env) v : ℤ)).sum, b)) = p
  have hseq : ∀ b ∈ (qsort p).map Prod.snd, b ∈ bs := by
    intro b hb
    have hb := ((hqsort p).map Prod.snd).mem_iff.mp hb
    rw [← hp, List.map_map] at hb
    simpa using hb
  obtain ⟨s', bs', hrun, hlaid', hperm, hle⟩ := hlaid.siftSeq nodenum hseq
    ((((qsort p).map Prod.snd).length / 2 : ℕ) : ℤ) hfuel hlen
  have hlen' : bs'.length < fuel := hperm.length_eq ▸ hlen
  obtain ⟨first, hfirst, hhead⟩ :=
    hlaid'.first (hperm.mem_iff.mpr (List.mem_of_head? ht)) hlen'
  refine ⟨first, s', bs', ?_, hlaid', hhead, hperm, hle⟩
  unfold Reorder.reorderSift reorderSiftSeq
  simp only [hfrom, Option.bind_eq_bind, Option.bind_some, hp]
  simp only [Option.bind_eq_bind] at hrun
  rw [hrun, Option.bind_some, hfirst]
  rfl

/-- `reorder_siftite` ends. -/
theorem Laid.reorderSiftite (h : Laid num X Y gs vars bs s) (ht : bs.head? = some t)
    (hqsort : ∀ p, (qsort p).Perm p) (hfuel : num * num < fuel) (hlen : bs.length < fuel)
    {rounds : ℕ} (hrounds : reorderNodenum nodenum s < rounds) :
    ∃ r, reorderSiftite nodenum levelnum qsort fuel rounds t s = some r := by
  induction rounds generalizing s t bs with
  | zero => omega
  | succ rounds ih =>
    obtain ⟨first, s', bs', hrun, hlaid, hhead, hperm, hle⟩ :=
      h.reorderSift nodenum levelnum ht hqsort hfuel hlen
    unfold Reorder.reorderSiftite
    simp only [hrun, Option.bind_eq_bind, Option.bind_some]
    by_cases hsame : reorderNodenum nodenum s' ≠ reorderNodenum nodenum s
    · rw [if_pos hsame]
      exact ih hlaid hhead (hperm.length_eq ▸ hlen) (by omega)
    · rw [if_neg hsame]
      exact ⟨_, rfl⟩

end Sift

end MoToBuddy.Reorder
