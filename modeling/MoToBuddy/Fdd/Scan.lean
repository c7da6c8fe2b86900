import MoToBuddy.Fdd.Encode

/-!
# Scanning the domains (`fdd.c`)

`fdd_scanallvar` walks to the constant true, on the low branch wherever that is not the constant
false. What it writes to `store` is an assignment that satisfies the diagram
(`scanallLoop_spec`), and the values it returns are those of the domains under this assignment
(`fddScanallvar_spec`).
-/

namespace MoToBuddy.Fdd

open Bdd BoolFun CountedLoop Decision

variable {P : Type*} {D : MtbddDomain P} {T : Theory P} {s : BddState P}
  {f : (ℕ → Bool) → Bool} {V : List ℤ} {w : Domains P} {n r : ℕ}

/-! ## The walk -/

/-- Different levels have different variables, so that a write leaves the other levels alone. -/
theorem assign_update (ho : OrderInv s) (store : ℕ → Bool) (b : Bool) {l level : ℕ}
    (hl : l < s.env.bddvarnum) (hlevel : level < s.env.bddvarnum) :
    s.assign (Function.update store (s.env.bddlevel2var level) b) l =
      if l = level then b else s.assign store l := by
  unfold BddState.assign
  by_cases heq : l = level
  · rw [if_pos heq, heq, Function.update_self]
  · rw [if_neg heq, Function.update_of_ne]
    intro hvar
    have h1 := (ho.var l hl).2
    rw [hvar, (ho.var level hlevel).2] at h1
    exact heq h1.symm

/-- From a node with levels from `k` on, the walk only writes to these, and the assignment takes it
to the constant true. -/
theorem walk_spec (ho : OrderInv s) {k fuel : ℕ} {t : DTree (Leaf P)} (hr : s.Reads D n t)
    (hb : IsBool t) (hs : t.Sorted s.env.bddvarnum) (hred : t.Reduced) (ha : t.Above k)
    (hz : n ≠ 0) (hfuel : s.env.bddvarnum - k < fuel) (store : ℕ → Bool) :
    ∃ x, whileDo (fun x : ℕ × (ℕ → Bool) => decide (2 ≤ x.1)) (scanallStep s) fuel (n, store) =
        some x ∧ evalBool t (s.assign x.2) = true ∧
      ∀ l, l < k → l < s.env.bddvarnum → s.assign x.2 l = s.assign store l := by
  induction fuel generalizing n t k store with
  | zero => omega
  | succ fuel ih =>
    cases hr with
    | const b =>
      have htrue : b = true := by
        cases b with
        | false => exact absurd rfl hz
        | true => rfl
      subst htrue
      exact ⟨_, whileDo_done rfl (Nat.succ_pos fuel), rfl, fun _ _ _ => rfl⟩
    | terminal _ _ _ _ => exact hb.elim
    | @node _ low high level tl th inner key _ below above =>
      obtain ⟨hlt, hal, hah, hsl, hsh⟩ := hs
      have hle : k ≤ level := ha
      have hlow : s.low n = low := by
        unfold BddState.low
        rw [show (s.bddnodes n).low = some low from congrArg BddKey.low key]
        rfl
      have hhigh : s.high n = high := congrArg BddKey.high key
      have hlevel : s.level n = level := congrArg BddKey.level key
      -- the branch that is taken, and the bit that is written for it
      have hbranch : ∀ (b : Bool) (m : ℕ) (u : DTree (Leaf P)), s.Reads D m u → IsBool u →
          u.Sorted s.env.bddvarnum → u.Reduced → u.Above (level + 1) → m ≠ 0 →
          scanallStep s (n, store) =
            some (m, Function.update store (s.env.bddlevel2var level) b) →
          (∀ x : ℕ → Bool, x level = b → evalBool (.node level tl th) x = evalBool u x) →
          ∃ x, whileDo (fun x : ℕ × (ℕ → Bool) => decide (2 ≤ x.1)) (scanallStep s) (fuel + 1)
              (n, store) = some x ∧ evalBool (.node level tl th) (s.assign x.2) = true ∧
            ∀ l, l < k → l < s.env.bddvarnum → s.assign x.2 l = s.assign store l := by
        intro b m u hru hbu hsu hredu hau hm hstep heval
        obtain ⟨x, hloop, htrue, hkeep⟩ := ih hru hbu hsu hredu hau hm (by omega)
          (Function.update store (s.env.bddlevel2var level) b)
        refine ⟨x, ?_, ?_, fun l hl hlnum => ?_⟩
        · rw [whileDo, if_pos (by simpa using inner), hstep, Option.bind_some, hloop]
        · have hbit := hkeep level (by omega) hlt
          rw [assign_update ho store b hlt hlt, if_pos rfl] at hbit
          rw [heval _ hbit, htrue]
        · rw [hkeep l (by omega) hlnum, assign_update ho store b hlnum hlt, if_neg (by omega)]
      have hdiffer := hred.1
      by_cases hzlow : low = 0
      · have hzhigh : high ≠ 0 := fun hzhigh => by
          -- otherwise both branches are the constant false
          subst hzlow hzhigh
          exact hdiffer (below.unique above)
        refine hbranch true high th above hb.2 hsh hred.2.2 hah hzhigh ?_ fun x hx => ?_
        · unfold scanallStep
          dsimp only
          rw [hlow, hhigh, hlevel, if_neg (not_not.mpr hzlow)]
        · rw [evalBool_node, if_pos hx]
      · refine hbranch false low tl below hb.1 hsl hred.2.1 hal hzlow ?_ fun x hx => ?_
        · unfold scanallStep
          dsimp only
          rw [hlow, hlevel, if_pos hzlow]
        · rw [evalBool_node, if_neg (by rw [hx]; exact Bool.false_ne_true)]

theorem scanallLoop_spec (h : Good T s) (hred : T.reduced) (hr : s.Represents T.D r f)
    (hz : r ≠ 0) : ∃ store, scanallLoop s r = some store ∧ f store = true := by
  obtain ⟨t, hreads, hb, hf⟩ := hr
  obtain ⟨flight, hi, -⟩ := h.inv.table
  have hg := h.inv.graph
  obtain ⟨x, hloop, htrue, -⟩ := walk_spec h.order hreads hb (hg.sorted hreads).1
    (hg.reduced_reads hred hi hreads hb) t.above_zero hz
    (Setting.depth_bound (T.setting s.env.bddvarnum h.num) 0) fun _ => false
  refine ⟨x.2, ?_, by rw [← hf, htrue]⟩
  unfold scanallLoop
  rw [hloop]
  rfl

/-! ## The values -/

theorem decode_eq (hV : Exist s V) (store : ℕ → Bool) :
    decode s store V = some (number V store : ℤ) := by
  induction V with
  | nil => rfl
  | cons v V ih =>
    unfold decode
    rw [ih hV.tail]
    simp only [Option.bind_eq_bind, Option.bind_some, number_cons]
    rw [if_pos (hV v List.mem_cons_self)]
    refine congrArg some ?_
    cases store v.toNat <;> simp <;> ring

theorem mapM_eq_map {α β : Type*} {g : α → Option β} {h : α → β} {l : List α}
    (hl : ∀ x ∈ l, g x = some (h x)) : l.mapM g = some (l.map h) := by
  induction l with
  | nil => rfl
  | cons x l ih =>
    rw [List.mapM_cons, hl x List.mem_cons_self, ih fun y hy => hl y (List.mem_cons_of_mem x hy)]
    rfl

/-- The values that the domains have under an assignment. -/
def Domains.values (w : Domains P) (a : ℕ → Bool) : List ℤ :=
  w.domain.map fun d => (number d.vars a : ℤ)

/-- A diagram that is not the constant false is scanned: an assignment that satisfies it is found,
and the values under it are returned. -/
theorem fddScanallvar_spec (h : Good T w.package.bdd) (hred : T.reduced)
    (hw : ∀ d ∈ w.domain, Exist w.package.bdd d.vars) (hr : w.package.bdd.Represents T.D r f)
    (hz : r ≠ 0) :
    ∃ store, f store = true ∧ fddScanallvar r w = some (some (w.values store), w) := by
  obtain ⟨store, hloop, htrue⟩ := scanallLoop_spec h hred hr hz
  obtain ⟨t, hreads, -⟩ := hr
  obtain ⟨hsize, hfree⟩ := h.checked hreads.isNode
  refine ⟨store, htrue, ?_⟩
  unfold fddScanallvar
  dsimp only
  rw [if_neg hsize, if_neg hfree, if_neg hz, hloop, Option.bind_some,
    mapM_eq_map fun d hd => decode_eq (hw d hd) store]
  rfl

theorem fddScanvar_spec (h : Good T w.package.bdd) (hred : T.reduced)
    (hw : ∀ d ∈ w.domain, Exist w.package.bdd d.vars) (hr : w.package.bdd.Represents T.D r f)
    (hz : r ≠ 0) {i : ℕ} {d : Domain} (hd : w.domain[i]? = some d) :
    ∃ store, f store = true ∧ fddScanvar r i w = some ((number d.vars store : ℤ), w) := by
  obtain ⟨store, htrue, hall⟩ := fddScanallvar_spec h hred hw hr hz
  obtain ⟨t, hreads, -⟩ := hr
  obtain ⟨hsize, hfree⟩ := h.checked hreads.isNode
  obtain ⟨hi, -⟩ := List.getElem?_eq_some_iff.mp hd
  refine ⟨store, htrue, ?_⟩
  unfold fddScanvar
  dsimp only
  rw [if_neg hsize, if_neg hfree, if_neg hz, if_neg (by omega), hall, Option.bind_some,
    Option.bind_some, Int.toNat_natCast]
  simp [Domains.values, hd]

end MoToBuddy.Fdd
