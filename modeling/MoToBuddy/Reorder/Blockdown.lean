import MoToBuddy.Lib.Loop
import MoToBuddy.Lib.While
import MoToBuddy.Reorder.Order
import MoToBuddy.Reorder.Siblings
import Mathlib.Algebra.BigOperators.Group.Finset.Basic
import Mathlib.Algebra.Order.BigOperators.Group.Finset

/-!
# Exchange of two blocks (`reorder.c`)

`blockdown` first moves the variables of the left block down past the right block, one level at a
time, and then those of the right block up to where the left one started.

* `leftPast_loop`: the first loop ends with the left block below everything it had to pass.
* `rightUp_loop`: the second loop ends with the right block merged into what lies above it.
* `blockdown_moves`: both loops, for a right block that is not next to the left one.
* `blockdown_exchanges`: blocks next to each other are exchanged, and so are their structs.
-/

namespace MoToBuddy.Reorder

open Bdd (BddEnv)
open CountedLoop Interleaving

/-- The tables of the order, and the blocks by their addresses. -/
structure Blocks where
  env : BddEnv
  tree : ℕ → BddTree

/-- A round of the loop that moves the left block past the right one. -/
def leftRound (lseq : ℕ → ℕ) (leftsize bottom : ℕ) (env : BddEnv) : BddEnv :=
  let env := forUp 0 leftsize (fun n env =>
    if env.bddvar2level (lseq n) + 1 ≠ env.bddvar2level (lseq (n + 1)) ∧
        env.bddvar2level (lseq n) < env.bddvar2level bottom then
      reorderVardown env (lseq n)
    else env) env
  if env.bddvar2level (lseq leftsize) < env.bddvar2level bottom then
    reorderVardown env (lseq leftsize)
  else env

/-- A round of the loop that moves the right block to where the left one started. -/
def rightRound (rseq : ℕ → ℕ) (rightsize leftstart : ℕ) (env : BddEnv) : BddEnv :=
  let env := forDown 1 rightsize (fun n env =>
    if (env.bddvar2level (rseq n) : ℤ) - 1 ≠ env.bddvar2level (rseq (n - 1)) ∧
        env.bddvar2level (rseq n) > leftstart then
      reorderVarup env (rseq n)
    else env) env
  if env.bddvar2level (rseq 0) > leftstart then reorderVarup env (rseq 0) else env

/-- `blockdown`. There is no result if a loop needs more tests than `fuel`, or if the block has no
right neighbour. -/
def blockdown (fuel left : ℕ) (s : Blocks) : Option Blocks := do
  let right ← (s.tree left).next
  let leftsize := (s.tree left).last - (s.tree left).first
  let rightsize := (s.tree right).last - (s.tree right).first
  let lseq := (s.tree left).seq
  let rseq := (s.tree right).seq
  let leftstart := s.env.bddvar2level (lseq 0)
  let env ← whileDo (fun env => env.bddvar2level (lseq 0) < env.bddvar2level (rseq rightsize))
    (fun env => some (leftRound lseq leftsize (rseq rightsize) env)) fuel s.env
  let env ← whileDo (fun env => env.bddvar2level (rseq 0) > leftstart)
    (fun env => some (rightRound rseq rightsize leftstart env)) fuel env
  return { env, tree := exchange s.tree left right }

/-! ## The left block -/

section Left

variable {env env₀ : BddEnv} {a : ℕ} {L W : List ℕ} {c d c₀ d₀ : ℕ → ℕ} {i k : ℕ}

/-- A variable of the left block goes down past the next one that it has not passed. -/
theorem Interleaved.vardown (h : Interleaved env.bddvar2level a L W c d) (ht : Tables env)
    (hV : ∀ v ∈ L ++ W, v < env.bddvarnum) {n x y : ℕ} (hx : L[n]? = some x)
    (hy : W[c n]? = some y) (hd : d (c n) = n + 1) :
    Moved (L ++ W) env (reorderVardown env x) ∧
      Interleaved (reorderVardown env x).bddvar2level a L W
        (Function.update c n (c n + 1)) (Function.update d (c n) n) := by
  have hxmem := List.mem_of_getElem? hx
  have hymem := List.mem_of_getElem? hy
  have hlx := h.left n x hx
  have hly := h.right (c n) y hy
  obtain ⟨hmoved, hpx, hpy⟩ := reorderVardown_moved ht (hV x (List.mem_append_left _ hxmem))
    (hV y (List.mem_append_right _ hymem)) (by omega)
  have hsub : [x, y] ⊆ L ++ W := by
    simp [hxmem, hymem]
  refine ⟨hmoved.mono hsub, h.swap hx hy rfl hd hpx hpy fun z hzx hzy => ?_⟩
  exact hmoved.outside z (by simp [hzx, hzy])

/-- The first `k` variables of the left block have had their turn in this round, and the `i`-th
moves in it. -/
def Swept (L W : List ℕ) (a : ℕ) (env₀ : BddEnv) (c₀ : ℕ → ℕ) (i k : ℕ) (env : BddEnv) : Prop :=
  Moved (L ++ W) env₀ env ∧ ∃ c d, Interleaved env.bddvar2level a L W c d ∧
    (∀ j, k ≤ j → c j = c₀ j) ∧ (∀ j, c₀ j ≤ c j) ∧ (i < k → c₀ i < c i)

variable {lseq : ℕ → ℕ} {bottom : ℕ} (hL : ∀ n < L.length, L[n]? = some (lseq n))
  (hbottom : W[W.length - 1]? = some bottom)
include hL hbottom

/-- The turn of one variable: it moves unless its successor or the end is in the way. -/
theorem Swept.step (h : Swept L W a env₀ c₀ i k env) (hV : ∀ v ∈ L ++ W, v < env₀.bddvarnum)
    (hk : k < L.length) (hi : c₀ i < W.length)
    (hnext : i + 1 < L.length → c₀ (i + 1) = W.length) {G : Prop} [Decidable G]
    (hG : G ↔ (k + 1 < L.length →
        env.bddvar2level (lseq k) + 1 ≠ env.bddvar2level (lseq (k + 1))) ∧
      env.bddvar2level (lseq k) < env.bddvar2level bottom) :
    Swept L W a env₀ c₀ i (k + 1) (if G then reorderVardown env (lseq k) else env) := by
  obtain ⟨hmoved, c, d, hI, hlater, hle, hmove⟩ := h
  have hlevel := hI.left k _ (hL k hk)
  have hend : env.bddvar2level (lseq k) < env.bddvar2level bottom ↔ c k < W.length := by
    have hW := (List.getElem?_eq_some_iff.mp hbottom).1
    rw [hI.lt_iff (hL k hk) hbottom]
    omega
  have hway : (k + 1 < L.length →
      env.bddvar2level (lseq k) + 1 ≠ env.bddvar2level (lseq (k + 1))) ↔
      (k + 1 < L.length → c k ≠ c (k + 1)) := by
    refine imp_congr_right fun hk' => ?_
    have hsucc := hI.left (k + 1) _ (hL (k + 1) hk')
    omega
  rw [hend, hway] at hG
  by_cases hg : G
  · rw [if_pos hg]
    have hgo := hG.mp hg
    have hd := hI.behind hk hgo.2 hgo.1
    have hV' : ∀ v ∈ L ++ W, v < env.bddvarnum := fun v hv => hmoved.varnum ▸ hV v hv
    obtain ⟨hdown, hI'⟩ := Interleaved.vardown hI hmoved.tables hV' (hL k hk)
      (List.getElem?_eq_getElem hgo.2) hd
    refine ⟨hmoved.trans hdown, _, _, hI', fun j hj => ?_, fun j => ?_, fun hik => ?_⟩
    · rw [Function.update_of_ne (by omega)]
      exact hlater j (by omega)
    · have hj := hle j
      rw [Function.update_apply]
      split_ifs with hjk
      · subst hjk; omega
      · exact hj
    · have hj := hle i
      rw [Function.update_apply]
      split_ifs with heq
      · subst heq; omega
      · exact hmove (by omega)
  · rw [if_neg hg]
    refine ⟨hmoved, c, d, hI, fun j hj => hlater j (by omega), hle, fun hik => ?_⟩
    by_cases heq : i = k
    · -- nothing is in the way of the `i`-th
      refine absurd (hG.mpr ⟨fun hk' => ?_, ?_⟩) hg
      · have hthis := hlater k (by omega)
        have hsucc := hlater (k + 1) (by omega)
        have hfull := hnext (by omega)
        subst heq
        omega
      · have hthis := hlater k (by omega)
        subst heq
        omega
    · exact hmove (by omega)

/-- In a round of the first loop some variable moves. -/
theorem leftRound_swept (h : Interleaved env.bddvar2level a L W c₀ d₀) (ht : Tables env)
    (hV : ∀ v ∈ L ++ W, v < env.bddvarnum) {leftsize : ℕ} (hsize : L.length = leftsize + 1)
    (h0 : c₀ 0 < W.length) : ∃ i < L.length,
      Swept L W a env c₀ i (leftsize + 1) (leftRound lseq leftsize bottom env) := by
  obtain ⟨i, hiL, hi, hnext⟩ := h.front (by omega) h0
  refine ⟨i, hiL, ?_⟩
  have hloop := forUp_induct (a := 0) (k := leftsize)
    (f := fun n env =>
      if env.bddvar2level (lseq n) + 1 ≠ env.bddvar2level (lseq (n + 1)) ∧
          env.bddvar2level (lseq n) < env.bddvar2level bottom then
        reorderVardown env (lseq n)
      else env) (s := env) (fun k env' => Swept L W a env c₀ i k env')
    ⟨.refl ht, c₀, d₀, h, fun _ _ => rfl, fun _ => le_rfl, fun hlt => absurd hlt (by omega)⟩
    (fun k env' _ hk hswept => ?_)
  · rw [Nat.zero_add] at hloop
    refine Swept.step hL hbottom hloop hV (by omega) hi hnext ?_
    constructor
    · exact fun hlt => ⟨fun hk => absurd hk (by omega), hlt⟩
    · exact fun hgo => hgo.2
  · refine Swept.step hL hbottom hswept hV (by omega) hi hnext ?_
    constructor
    · exact fun hgo => ⟨fun _ => hgo.1, hgo.2⟩
    · exact fun hgo => ⟨hgo.1 (by omega), hgo.2⟩

/-- The first loop ends, and then the left block has passed all of `W`. -/
theorem leftPast_loop (h : Interleaved env.bddvar2level a L W c₀ d₀) (ht : Tables env)
    (hV : ∀ v ∈ L ++ W, v < env.bddvarnum) {leftsize : ℕ} (hsize : L.length = leftsize + 1)
    {fuel : ℕ} (hfuel : L.length * W.length < fuel) :
    ∃ env', whileDo (fun env => env.bddvar2level (lseq 0) < env.bddvar2level bottom)
        (fun env => some (leftRound lseq leftsize bottom env)) fuel env = some env' ∧
      Moved (L ++ W) env env' ∧ Placed env'.bddvar2level a W ∧
      Placed env'.bddvar2level (a + W.length) L := by
  let I (k : ℕ) (env' : BddEnv) : Prop := Moved (L ++ W) env env' ∧ ∃ c d,
    Interleaved env'.bddvar2level a L W c d ∧
      k = ∑ n ∈ Finset.range L.length, (W.length - c n)
  have hW := (List.getElem?_eq_some_iff.mp hbottom).1
  have hcond : ∀ {env' : BddEnv} {c d : ℕ → ℕ}, Interleaved env'.bddvar2level a L W c d →
      (env'.bddvar2level (lseq 0) < env'.bddvar2level bottom ↔ c 0 < W.length) := by
    intro env' c d hI
    rw [hI.lt_iff (hL 0 (by omega)) hbottom]
    omega
  have hstart : I (∑ n ∈ Finset.range L.length, (W.length - c₀ n)) env :=
    ⟨.refl ht, c₀, d₀, h, rfl⟩
  have hbound : ∑ n ∈ Finset.range L.length, (W.length - c₀ n) ≤ L.length * W.length := by
    have hsum := Finset.sum_le_card_nsmul (Finset.range L.length) (fun n => W.length - c₀ n)
      W.length fun n _ => Nat.sub_le _ _
    simpa using hsum
  have hstep : ∀ k env', I k env' →
      decide (env'.bddvar2level (lseq 0) < env'.bddvar2level bottom) = true →
      ∃ j env'', j < k ∧ some (leftRound lseq leftsize bottom env') = some env'' ∧ I j env'' := by
    intro k env' hk hc
    obtain ⟨hmoved, c, d, hI, hsum⟩ := hk
    have h0 : c 0 < W.length := (hcond hI).mp (by simpa using hc)
    have hV' : ∀ v ∈ L ++ W, v < env'.bddvarnum := fun v hv => hmoved.varnum ▸ hV v hv
    obtain ⟨i, hiL, hround, c', d', hI', -, hle, hmove⟩ :=
      leftRound_swept hL hbottom hI hmoved.tables hV' hsize h0
    refine ⟨_, _, ?_, rfl, hmoved.trans hround, c', d', hI', rfl⟩
    -- the sum goes down by the move of the `i`-th
    rw [hsum]
    refine Finset.sum_lt_sum (fun n _ => Nat.sub_le_sub_left (hle n) _)
      ⟨i, Finset.mem_range.mpr hiL, ?_⟩
    have hi := hmove (by omega)
    have hci := hI'.c_le i hiL
    omega
  obtain ⟨j, env', hrun, hexit, hmoved, c, d, hI, -⟩ :=
    whileDo_total I hstep hstart (lt_of_le_of_lt hbound hfuel)
  have hdone : ¬ c 0 < W.length := fun hlt => by
    have hcontinue := (hcond hI).mpr hlt
    simp [hcontinue] at hexit
  have hle := hI.c_le 0 (by omega)
  exact ⟨env', hrun, hmoved, hI.all (by omega)⟩

end Left

/-! ## The right block -/

section Right

variable {env env₀ : BddEnv} {a : ℕ} {G R : List ℕ} {c d : ℕ → ℕ} {j n : ℕ}

/-- A variable of the right block goes up past the last one that is still above it. -/
theorem Interleaved.varup (h : Interleaved env.bddvar2level a G R c d) (ht : Tables env)
    (hV : ∀ v ∈ G ++ R, v < env.bddvarnum) {y : ℕ} (hy : R[n]? = some y) (hd : 0 < d n)
    (hway : 0 < n → d n ≠ d (n - 1)) :
    Moved (G ++ R) env (reorderVarup env y) ∧ ∃ c',
      Interleaved (reorderVarup env y).bddvar2level a G R c' (Function.update d n (d n - 1)) := by
  have hn := (List.getElem?_eq_some_iff.mp hy).1
  have hdn := h.d_le n hn
  have hc : c (d n - 1) = n := by
    have hcle := h.c_le (d n - 1) (by omega)
    have hthis := h.passed (d n - 1) (by omega) n hn
    by_cases h0 : 0 < n
    · have hne := hway h0
      have hmono := h.mono_right (m := n - 1) (by omega)
      have hprev := h.passed (d n - 1) (by omega) (n - 1) (by omega)
      rw [show n - 1 + 1 = n by omega] at hmono
      omega
    · omega
  have hx : G[d n - 1]? = some G[d n - 1] := List.getElem?_eq_getElem (by omega)
  have hlx := h.left _ _ hx
  have hly := h.right n y hy
  have hup : reorderVarup env y = reorderVardown env G[d n - 1] :=
    reorderVarup_eq ht (hV _ (List.mem_append_left _ (List.mem_of_getElem? hx)))
      (hV _ (List.mem_append_right _ (List.mem_of_getElem? hy))) (by omega)
  obtain ⟨hmoved, hI⟩ := Interleaved.vardown h ht hV hx (by rw [hc]; exact hy) (by rw [hc]; omega)
  rw [hc] at hI
  rw [hup]
  exact ⟨hmoved, _, hI⟩

variable {rseq : ℕ → ℕ} (hR : ∀ n < R.length, R[n]? = some (rseq n))
include hR

/-- The turn of one variable of the right block. -/
theorem Interleaved.rightTurn (h : Interleaved env.bddvar2level a G R c d) (ht : Tables env)
    (hV : ∀ v ∈ G ++ R, v < env.bddvarnum) (hn : n < R.length) {B : Prop} [Decidable B]
    (hB : B ↔ (0 < n → (env.bddvar2level (rseq n) : ℤ) - 1 ≠ env.bddvar2level (rseq (n - 1))) ∧
      env.bddvar2level (rseq n) > a) :
    Moved (G ++ R) env (if B then reorderVarup env (rseq n) else env) ∧ ∃ c',
      Interleaved (if B then reorderVarup env (rseq n) else env).bddvar2level a G R c'
        (Function.update d n (if (0 < n → d n ≠ d (n - 1)) ∧ 0 < d n then d n - 1 else d n)) := by
  have hlevel := h.right n _ (hR n hn)
  have hgo : B ↔ (0 < n → d n ≠ d (n - 1)) ∧ 0 < d n := by
    rw [hB]
    by_cases h0 : 0 < n
    · have hprev := h.right (n - 1) _ (hR (n - 1) (by omega))
      have hmono := h.mono_right (m := n - 1) (by omega)
      rw [show n - 1 + 1 = n by omega] at hmono
      constructor
      · intro hb
        have hne := hb.1 h0
        exact ⟨fun _ => by omega, by omega⟩
      · intro hb
        have hne := hb.1 h0
        exact ⟨fun _ => by omega, by omega⟩
    · constructor
      · exact fun hb => ⟨fun hpos => absurd hpos h0, by omega⟩
      · exact fun hb => ⟨fun hpos => absurd hpos h0, by omega⟩
  by_cases hb : B
  · have hmove := hgo.mp hb
    rw [if_pos hb, if_pos hmove]
    exact Interleaved.varup h ht hV (hR n hn) hmove.2 hmove.1
  · rw [if_neg hb, if_neg fun hmove => hb (hgo.mpr hmove), Function.update_eq_self]
    exact ⟨.refl ht, c, h⟩

/-- In round `j` of the second loop the variables from the `n`-th on have had their turn. The
`m`-th starts to move `m` rounds after the first. -/
def Raised (G R : List ℕ) (a : ℕ) (env₀ : BddEnv) (j n : ℕ) (env : BddEnv) : Prop :=
  Moved (G ++ R) env₀ env ∧ ∃ c, Interleaved env.bddvar2level a G R c fun m =>
    if n ≤ m then G.length - (j + 1 - m) else G.length - (j - m)

theorem Raised.step (h : Raised G R a env₀ j (n + 1) env) (hV : ∀ v ∈ G ++ R, v < env₀.bddvarnum)
    (hn : n < R.length) (hj : j < G.length) {B : Prop} [Decidable B]
    (hB : B ↔ (0 < n → (env.bddvar2level (rseq n) : ℤ) - 1 ≠ env.bddvar2level (rseq (n - 1))) ∧
      env.bddvar2level (rseq n) > a) :
    Raised G R a env₀ j n (if B then reorderVarup env (rseq n) else env) := by
  obtain ⟨hmoved, c, hI⟩ := h
  have hV' : ∀ v ∈ G ++ R, v < env.bddvarnum := fun v hv => hmoved.varnum ▸ hV v hv
  obtain ⟨hturn, c', hI'⟩ := Interleaved.rightTurn hR hI hmoved.tables hV' hn hB
  refine ⟨hmoved.trans hturn, c', hI'.congr (fun m _ => ?_) fun _ _ => rfl⟩
  have hthis : ¬ n + 1 ≤ n := by omega
  have hprev : ¬ n + 1 ≤ n - 1 := by omega
  simp only [Function.update_apply, hthis, hprev, if_false]
  by_cases hmn : m = n
  · subst hmn
    rw [if_pos rfl, if_pos (Nat.le_refl m)]
    -- it moves from round `m` on
    by_cases hmj : m ≤ j
    · rw [if_pos ⟨fun _ => by omega, by omega⟩]
      omega
    · rw [if_neg fun hgo => by have hne := hgo.1 (by omega); omega]
      omega
  · rw [if_neg hmn]
    split_ifs <;> omega

/-- A round of the second loop. -/
theorem rightRound_raised {rightsize : ℕ} (hsize : R.length = rightsize + 1) (ht : Tables env)
    (hV : ∀ v ∈ G ++ R, v < env.bddvarnum) (hj : j < G.length)
    (h : Interleaved env.bddvar2level a G R c fun m => G.length - (j - m)) :
    Raised G R a env j 0 (rightRound rseq rightsize a env) := by
  have hstart : Raised G R a env j (1 + rightsize) env := by
    refine ⟨.refl ht, c, h.congr (fun m hm => ?_) fun _ _ => rfl⟩
    rw [if_neg (by omega)]
  have hloop := forDown_induct (a := 1) (k := rightsize) (f := fun n env =>
      if (env.bddvar2level (rseq n) : ℤ) - 1 ≠ env.bddvar2level (rseq (n - 1)) ∧
          env.bddvar2level (rseq n) > a then
        reorderVarup env (rseq n)
      else env) (fun n env' => Raised G R a env j n env') hstart
    fun n env' hn hle hraised => by
      refine Raised.step hR hraised hV (by omega) hj ?_
      constructor
      · exact fun hgo => ⟨fun _ => hgo.1, hgo.2⟩
      · exact fun hgo => ⟨hgo.1 (by omega), hgo.2⟩
  refine Raised.step hR hloop hV (by omega) hj ?_
  constructor
  · exact fun hgt => ⟨fun h0 => absurd h0 (by omega), hgt⟩
  · exact fun hgo => hgo.2

/-- The second loop ends, and then the right block is merged into `G` from its first level on. -/
theorem rightUp_loop {rightsize : ℕ} (hsize : R.length = rightsize + 1) (ht : Tables env)
    (hV : ∀ v ∈ G ++ R, v < env.bddvarnum) (hG : Placed env.bddvar2level a G)
    (hp : Placed env.bddvar2level (a + G.length) R) {fuel : ℕ} (hfuel : G.length < fuel) :
    ∃ env', whileDo (fun env => env.bddvar2level (rseq 0) > a)
        (fun env => some (rightRound rseq rightsize a env)) fuel env = some env' ∧
      Moved (G ++ R) env env' ∧ Placed env'.bddvar2level a (pull R G) := by
  let I (k : ℕ) (env' : BddEnv) : Prop := Moved (G ++ R) env env' ∧ ∃ j c, k + j = G.length ∧
    Interleaved env'.bddvar2level a G R c fun m => G.length - (j - m)
  have hstart : I G.length env := by
    refine ⟨.refl ht, 0, _, rfl, (hG.interleaved hp).congr (fun m _ => ?_) fun _ _ => rfl⟩
    omega
  have hstep : ∀ k env', I k env' → decide (env'.bddvar2level (rseq 0) > a) = true →
      ∃ i env'', i < k ∧ some (rightRound rseq rightsize a env') = some env'' ∧ I i env'' := by
    intro k env' hk hc
    obtain ⟨hmoved, j, c, hj, hI⟩ := hk
    have hlevel := hI.right 0 _ (hR 0 (by omega))
    have hgt : env'.bddvar2level (rseq 0) > a := by simpa using hc
    have hV' : ∀ v ∈ G ++ R, v < env'.bddvarnum := fun v hv => hmoved.varnum ▸ hV v hv
    obtain ⟨hround, c', hI'⟩ :=
      rightRound_raised hR hsize hmoved.tables hV' (show j < G.length by omega) hI
    refine ⟨k - 1, _, by omega, rfl, hmoved.trans hround, j + 1, c', by omega, ?_⟩
    exact hI'.congr (fun m _ => by rw [if_pos (Nat.zero_le m)]) fun _ _ => rfl
  obtain ⟨k, env', hrun, hexit, hmoved, j, c, hj, hI⟩ := whileDo_total I hstep hstart hfuel
  have hle : ¬ env'.bddvar2level (rseq 0) > a := fun hgt => by simp [hgt] at hexit
  have hlevel := hI.right 0 _ (hR 0 (by omega))
  have hdone : j = G.length := by omega
  refine ⟨env', hrun, hmoved, placed_pull.mpr ⟨fun n x hx => ?_, fun m y hy => ?_⟩⟩
  · have hx := hI.right n x hx
    omega
  · -- how many of the right block have passed the `m`-th
    have hm := (List.getElem?_eq_some_iff.mp hy).1
    have hy := hI.left m y hy
    have hle := hI.c_le m hm
    have hlast := hI.passed m hm (c m)
    have hthis := hI.passed m hm m
    have hnext := hI.passed m hm (m + 1)
    omega

end Right

/-! ## Both loops -/

section Blockdown

variable {s : Blocks} {left right a fuel : ℕ} {A B G : List ℕ} {c d : ℕ → ℕ}

/-- The left block, interleaved below its first variable with some others and with the right block,
ends below all of them, and the right block is merged into the others. -/
theorem blockdown_moves (hnext : (s.tree left).next = some right) (ht : Tables s.env)
    (hV : ∀ v ∈ (s.tree left).vars ++ (G ++ (s.tree right).vars), v < s.env.bddvarnum)
    (h : Interleaved s.env.bddvar2level a (s.tree left).vars (G ++ (s.tree right).vars) c d)
    (h0 : c 0 = 0)
    (hfuel : (s.tree left).vars.length * (G ++ (s.tree right).vars).length < fuel) :
    ∃ env', blockdown fuel left s = some { env := env', tree := exchange s.tree left right } ∧
      Moved ((s.tree left).vars ++ (G ++ (s.tree right).vars)) s.env env' ∧
      Placed env'.bddvar2level a (pull (s.tree right).vars G) ∧
      Placed env'.bddvar2level (a + (G ++ (s.tree right).vars).length) (s.tree left).vars := by
  have hL := fun n (hn : n < (s.tree left).vars.length) => (s.tree left).getElem?_vars hn
  have hR := fun n (hn : n < (s.tree right).vars.length) => (s.tree right).getElem?_vars hn
  have hsizeL := (s.tree left).length_vars
  have hsizeR := (s.tree right).length_vars
  have hstart : s.env.bddvar2level ((s.tree left).seq 0) = a := by
    have hlevel := h.left 0 _ (hL 0 (by omega))
    omega
  have hbottom : (G ++ (s.tree right).vars)[(G ++ (s.tree right).vars).length - 1]? =
      some ((s.tree right).seq ((s.tree right).last - (s.tree right).first)) := by
    rw [List.length_append, hsizeR, List.getElem?_append_right (by omega),
      show G.length + ((s.tree right).last - (s.tree right).first + 1) - 1 - G.length =
        (s.tree right).last - (s.tree right).first by omega]
    exact hR _ (by omega)
  obtain ⟨env₁, hrun₁, hmoved₁, hplaced, hdown⟩ := leftPast_loop hL hbottom h ht hV hsizeL hfuel
  have hplaced := (placed_append _ _ _).mp hplaced
  have hV₁ : ∀ v ∈ G ++ (s.tree right).vars, v < env₁.bddvarnum := fun v hv => by
    rw [hmoved₁.varnum]
    exact hV v (List.mem_append_right _ hv)
  have hfuelG : G.length < fuel := by
    have hle := Nat.le_mul_of_pos_left (G ++ (s.tree right).vars).length
      (show 0 < (s.tree left).vars.length by omega)
    rw [List.length_append] at hle hfuel
    omega
  obtain ⟨env₂, hrun₂, hmoved₂, hup⟩ :=
    rightUp_loop hR hsizeR hmoved₁.tables hV₁ hplaced.1 hplaced.2 hfuelG
  refine ⟨env₂, ?_, hmoved₁.trans (hmoved₂.mono (List.subset_append_right _ _)), hup, ?_⟩
  · unfold blockdown
    simp only [hnext, Option.bind_eq_bind, Option.bind_some, hstart, hrun₁, hrun₂]
    rfl
  · -- the second loop is all above the left block
    refine hdown.congr fun v hv => hmoved₂.outside v fun hmem => ?_
    exact h.ne hv hmem rfl

/-- The same for the order as a list. -/
theorem blockdown_order (hnext : (s.tree left).next = some right) (ht : Tables s.env)
    {X Y : List ℕ}
    (ho : order s.env = X ++ pull (s.tree left).vars G ++ (s.tree right).vars ++ Y)
    (hfuel : (s.tree left).vars.length * (G ++ (s.tree right).vars).length < fuel) :
    ∃ env', blockdown fuel left s = some { env := env', tree := exchange s.tree left right } ∧
      Moved ((s.tree left).vars ++ (G ++ (s.tree right).vars)) s.env env' ∧
      order env' = X ++ pull (s.tree right).vars G ++ (s.tree left).vars ++ Y := by
  have hplaced := ht.placed_order
  rw [ho, List.append_assoc, List.append_assoc, placed_append, ← List.append_assoc,
    placed_append] at hplaced
  obtain ⟨hX, hmid, hY⟩ := hplaced
  have hI := placed_pull_append hmid
  -- what is exchanged is a part of the order
  have hmem : ∀ v, v ∈ pull (s.tree left).vars G ++ (s.tree right).vars ↔
      v ∈ (s.tree left).vars ++ (G ++ (s.tree right).vars) := fun v => by
    rw [List.mem_append, (pull_perm _ _).mem_iff, List.mem_append, List.mem_append, List.mem_append]
    exact or_assoc
  have hV : ∀ v ∈ (s.tree left).vars ++ (G ++ (s.tree right).vars), v < s.env.bddvarnum := by
    intro v hv
    have hv := (hmem v).mpr hv
    refine ht.mem_order.mp ?_
    rw [ho]
    simp only [List.mem_append] at hv ⊢
    tauto
  obtain ⟨env', hrun, hmoved, hup, hdown⟩ := blockdown_moves hnext ht hV hI (Nat.zero_min _) hfuel
  refine ⟨env', hrun, hmoved, hmoved.order_eq ht ?_ ?_⟩
  · rw [ho]
    refine List.Perm.append_right _ ?_
    rw [List.append_assoc, List.append_assoc]
    refine List.Perm.append_left _ ?_
    have hbefore := (pull_perm (s.tree left).vars G).append_right (s.tree right).vars
    have hafter := (pull_perm (s.tree right).vars G).append_right (s.tree left).vars
    refine hafter.trans (.trans ?_ hbefore.symm)
    rw [List.append_assoc]
    exact List.perm_append_comm.trans (List.perm_append_comm.append_right _)
  · have hnd := ht.nodup_order
    rw [ho, List.append_assoc, List.append_assoc, ← List.append_assoc (pull _ _)] at hnd
    obtain ⟨-, hnd', hdisj⟩ := List.nodup_append.mp hnd
    obtain ⟨-, -, hdisj'⟩ := List.nodup_append.mp hnd'
    have hlen : (pull (s.tree right).vars G).length + (s.tree left).vars.length =
        (pull (s.tree left).vars G ++ (s.tree right).vars).length := by
      rw [List.length_append, (pull_perm _ _).length_eq, (pull_perm _ _).length_eq,
        List.length_append, List.length_append]
      omega
    rw [List.append_assoc, List.append_assoc, placed_append, placed_append, placed_append]
    refine ⟨hX.congr fun v hv => hmoved.outside v fun hmem' => ?_, ?_, ?_, ?_⟩
    · have hv' := (hmem v).mpr hmem'
      exact hdisj v hv v (List.mem_append_left _ hv') rfl
    · rw [Nat.zero_add]
      rw [Nat.zero_add] at hup
      exact hup
    · rw [(pull_perm _ _).length_eq, List.length_append]
      rw [List.length_append] at hdown
      rw [show 0 + X.length + ((s.tree right).vars.length + G.length) =
        0 + X.length + (G.length + (s.tree right).vars.length) by omega]
      exact hdown
    · rw [Nat.add_assoc, hlen]
      refine hY.congr fun v hv => hmoved.outside v fun hmem' => ?_
      exact hdisj' v ((hmem v).mpr hmem') v hv rfl

/-- What becomes of two blocks next to each other, of which the left one starts at level `a`. -/
structure Exchanged (A B : List ℕ) (left right a : ℕ) (s s' : Blocks) : Prop where
  rightLevel : ∀ m ≤ (s.tree right).last - (s.tree right).first,
    s'.env.bddvar2level ((s.tree right).seq m) = a + m
  leftLevel : ∀ n ≤ (s.tree left).last - (s.tree left).first,
    s'.env.bddvar2level ((s.tree left).seq n) = a + (s.tree right).vars.length + n
  others : ∀ v ∉ (s.tree left).vars ++ (s.tree right).vars,
    s'.env.bddvar2level v = s.env.bddvar2level v
  tables : Tables s'.env
  siblings : Siblings s'.tree none (A ++ right :: left :: B) none
  pos : (A ++ right :: left :: B).map (fun t => (s'.tree t).pos) =
    (A ++ left :: right :: B).map fun t => (s.tree t).pos
  kept : ∀ t, (s'.tree t).first = (s.tree t).first ∧ (s'.tree t).last = (s.tree t).last ∧
    (s'.tree t).seq = (s.tree t).seq

/-- `blockdown` of two neighbours whose variables lie in sequence, one block right below the
other. -/
theorem blockdown_exchanges (ht : Tables s.env)
    (hs : Siblings s.tree none (A ++ left :: right :: B) none)
    (hnd : (A ++ left :: right :: B).Nodup)
    (hl : ∀ n ≤ (s.tree left).last - (s.tree left).first,
      (s.tree left).seq n < s.env.bddvarnum ∧ s.env.bddvar2level ((s.tree left).seq n) = a + n)
    (hr : ∀ m ≤ (s.tree right).last - (s.tree right).first,
      (s.tree right).seq m < s.env.bddvarnum ∧
        s.env.bddvar2level ((s.tree right).seq m) = a + (s.tree left).vars.length + m)
    (hfuel : (s.tree left).vars.length * (s.tree right).vars.length < fuel) :
    ∃ s', blockdown fuel left s = some s' ∧ Exchanged A B left right a s s' := by
  have hplaced : ∀ {i} {t : BddTree}, (∀ n ≤ t.last - t.first, t.seq n < s.env.bddvarnum ∧
      s.env.bddvar2level (t.seq n) = i + n) → Placed s.env.bddvar2level i t.vars := by
    intro i t hlevel
    refine placed_iff.mpr fun n v hv => ?_
    have hn := (List.getElem?_eq_some_iff.mp hv).1
    rw [t.getElem?_vars hn, Option.some.injEq] at hv
    rw [t.length_vars] at hn
    rw [← hv]
    exact (hlevel n (by omega)).2
  have hI := (hplaced hl).interleaved (hplaced hr)
  have hV : ∀ v ∈ (s.tree left).vars ++ ([] ++ (s.tree right).vars), v < s.env.bddvarnum := by
    intro v hv
    rw [List.nil_append, List.mem_append, BddTree.mem_vars, BddTree.mem_vars] at hv
    rcases hv with ⟨n, hn, heq⟩ | ⟨n, hn, heq⟩
    · exact heq ▸ (hl n hn).1
    · exact heq ▸ (hr n hn).1
  have hnext : (s.tree left).next = some right := by
    simpa using (siblings_append.mp hs).2.2.1
  obtain ⟨env', hrun, hmoved, hright, hleft⟩ :=
    blockdown_moves (G := []) hnext ht hV hI rfl hfuel
  rw [pull_nil] at hright
  refine ⟨_, hrun, fun m hm => ?_, fun n hn => ?_, hmoved.outside, hmoved.tables,
    exchange_siblings hs hnd, exchange_pos hs hnd, exchange_kept hs hnd⟩
  · exact placed_iff.mp hright m _ ((s.tree right).getElem?_vars (by rw [BddTree.length_vars]; omega))
  · exact placed_iff.mp hleft n _ ((s.tree left).getElem?_vars (by rw [BddTree.length_vars]; omega))

/-- Three variables in their order: block 0 is of the first two, and block 1 of the last. -/
def threeVariables : Blocks where
  env := identityOrder 3
  tree t :=
    if t = 0 then ⟨0, 1, 0, id, some 1, none, by decide⟩
    else ⟨2, 2, 1, fun n => n + 2, none, some 0, by decide⟩

theorem blockdown_exchanges_three :
    ∃ s', blockdown 3 0 threeVariables = some s' ∧ Exchanged [] [] 0 1 0 threeVariables s' :=
  blockdown_exchanges (identityOrder_tables 3) ⟨rfl, rfl, rfl, rfl, trivial⟩ (by decide)
    (by decide) (by decide) (by decide)

end Blockdown

end MoToBuddy.Reorder
