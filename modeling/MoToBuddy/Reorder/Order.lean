import MoToBuddy.Bdd.Kernel
import MoToBuddy.Lib.Interleave

/-!
# Exchange of adjacent variables (`reorder.c`)

`reorder_vardown` and `reorder_varup` on the tables of the order. The exchange of the nodes, and of
the entries of the pairs, is left to the reordering as a whole.
-/

namespace MoToBuddy.Reorder

open Bdd (BddEnv)
open Interleaving

variable {env env' env'' : BddEnv} {V V' o : List ℕ} {v w : ℕ}

/-- `reorder_vardown`. Outside of the variables, and at the lowest level, nothing happens. -/
def reorderVardown (env : BddEnv) (var : ℕ) : BddEnv :=
  let level := env.bddvar2level var
  if var ≥ env.bddvarnum ∨ level + 1 ≥ env.bddvarnum then env
  else
    let n := env.bddlevel2var level
    let level2var := Function.update env.bddlevel2var level (env.bddlevel2var (level + 1))
    let level2var := Function.update level2var (level + 1) n
    let n := env.bddvar2level var
    let var2level := Function.update env.bddvar2level var (env.bddvar2level (level2var level))
    let var2level := Function.update var2level (level2var level) n
    { env with
      bddvar2level := var2level
      bddlevel2var := level2var }

/-- `reorder_varup`. -/
def reorderVarup (env : BddEnv) (var : ℕ) : BddEnv :=
  if var ≥ env.bddvarnum ∨ env.bddvar2level var = 0 then env
  else reorderVardown env (env.bddlevel2var (env.bddvar2level var - 1))

/-- The variables by their levels. -/
def order (env : BddEnv) : List ℕ := (List.range env.bddvarnum).map env.bddlevel2var

/-- The tables of the order are inverse to each other. -/
structure Tables (env : BddEnv) : Prop where
  level : ∀ v < env.bddvarnum,
    env.bddvar2level v < env.bddvarnum ∧ env.bddlevel2var (env.bddvar2level v) = v
  var : ∀ l < env.bddvarnum,
    env.bddlevel2var l < env.bddvarnum ∧ env.bddvar2level (env.bddlevel2var l) = l

/-- The order of the variables before any reordering. -/
def identityOrder (varnum : ℕ) : BddEnv where
  bddmaxnodesize := 0
  bddmaxnodeincrease := 50000
  minfreenodes := 20
  cacheratio := 0
  bddvarnum := varnum
  bddvarset := id
  bddvar2level := id
  bddlevel2var := id
  quantvarset _ := 0
  quantvarsetID := 0

theorem identityOrder_tables (varnum : ℕ) : Tables (identityOrder varnum) :=
  ⟨fun _ hv => ⟨hv, rfl⟩, fun _ hl => ⟨hl, rfl⟩⟩

theorem Tables.inj (h : Tables env) (hv : v < env.bddvarnum) (hw : w < env.bddvarnum)
    (heq : env.bddvar2level v = env.bddvar2level w) : v = w := by
  rw [← (h.level v hv).2, heq, (h.level w hw).2]

theorem Tables.mem_order (h : Tables env) : v ∈ order env ↔ v < env.bddvarnum := by
  rw [order, List.mem_map]
  constructor
  · intro hv
    obtain ⟨l, hl, heq⟩ := hv
    exact heq ▸ (h.var l (List.mem_range.mp hl)).1
  · intro hv
    exact ⟨env.bddvar2level v, List.mem_range.mpr (h.level v hv).1, (h.level v hv).2⟩

theorem Tables.placed_order (h : Tables env) : Placed env.bddvar2level 0 (order env) := by
  rw [placed_iff]
  intro n v hv
  rw [order, List.getElem?_map] at hv
  by_cases hn : n < env.bddvarnum
  · rw [List.getElem?_range hn] at hv
    have hv : env.bddlevel2var n = v := Option.some.inj hv
    rw [← hv, (h.var n hn).2, Nat.zero_add]
  · rw [List.getElem?_eq_none (by rw [List.length_range]; omega)] at hv
    exact absurd hv (by simp)

theorem Tables.nodup_order (h : Tables env) : (order env).Nodup := by
  refine List.Nodup.map_on (fun l hl k hk heq => ?_) List.nodup_range
  rw [← (h.var l (List.mem_range.mp hl)).2, heq, (h.var k (List.mem_range.mp hk)).2]

/-- The levels determine the order. -/
theorem Tables.order_eq (h : Tables env) (hlen : o.length = env.bddvarnum)
    (ho : ∀ v ∈ o, v < env.bddvarnum) (hp : Placed env.bddvar2level 0 o) : order env = o := by
  refine List.ext_getElem (by rw [order, List.length_map, List.length_range, hlen]) ?_
  intro n hn hn'
  have hlevel := placed_iff.mp hp n _ (List.getElem?_eq_getElem hn')
  have hvar := (h.level _ (ho _ (List.getElem_mem hn'))).2
  rw [← hvar, hlevel, Nat.zero_add]
  simp [order]

/-- Only variables of the list have been moved. -/
structure Moved (V : List ℕ) (env env' : BddEnv) : Prop where
  tables : Tables env'
  rest : env' = { env with
    bddvar2level := env'.bddvar2level
    bddlevel2var := env'.bddlevel2var }
  outside : ∀ v ∉ V, env'.bddvar2level v = env.bddvar2level v

theorem Moved.varnum (h : Moved V env env') : env'.bddvarnum = env.bddvarnum := by
  rw [h.rest]

theorem Moved.refl (h : Tables env) : Moved V env env := ⟨h, rfl, fun _ _ => rfl⟩

theorem Moved.trans (h : Moved V env env') (h' : Moved V env' env'') : Moved V env env'' where
  tables := h'.tables
  rest := by rw [h'.rest, h.rest]
  outside v hv := (h'.outside v hv).trans (h.outside v hv)

theorem Moved.mono (h : Moved V env env') (hV : V ⊆ V') : Moved V' env env' :=
  ⟨h.tables, h.rest, fun v hv => h.outside v fun hmem => hv (hV hmem)⟩

/-- A rearrangement of the order that fits the new levels is the new order. -/
theorem Moved.order_eq (h : Moved V env env') (ht : Tables env) (hp : o.Perm (order env))
    (hplaced : Placed env'.bddvar2level 0 o) : order env' = o := by
  refine h.tables.order_eq ?_ (fun v hv => ?_) hplaced
  · rw [hp.length_eq, h.varnum, order, List.length_map, List.length_range]
  · rw [h.varnum]
    exact ht.mem_order.mp (hp.subset hv)

/-- `reorder_vardown` exchanges the variable with the one below it. -/
theorem reorderVardown_moved (h : Tables env) (hv : v < env.bddvarnum) (hw : w < env.bddvarnum)
    (hlevel : env.bddvar2level w = env.bddvar2level v + 1) :
    Moved [v, w] env (reorderVardown env v) ∧
      (reorderVardown env v).bddvar2level v = env.bddvar2level v + 1 ∧
      (reorderVardown env v).bddvar2level w = env.bddvar2level v := by
  have hlw := h.level w hw
  have hlv := h.level v hv
  have hne : v ≠ w := by
    intro heq
    rw [heq] at hlevel
    omega
  have hcall : reorderVardown env v = { env with
      bddvar2level := Function.update (Function.update env.bddvar2level v (env.bddvar2level w)) w
        (env.bddvar2level v)
      bddlevel2var := Function.update (Function.update env.bddlevel2var (env.bddvar2level v) w)
        (env.bddvar2level w) v } := by
    rw [hlevel] at hlw
    unfold reorderVardown
    rw [if_neg (by omega), hlw.2, hlv.2]
    simp [hlevel]
  rw [hcall]
  refine ⟨⟨⟨fun u hu => ?_, fun l hl => ?_⟩, rfl, fun u hu => ?_⟩, ?_, ?_⟩
  · have hlu := h.level u hu
    simp only [Function.update_apply]
    by_cases huw : u = w
    · simp [huw, hlevel, hlv.1]
    by_cases huv : u = v
    · simp [huv, hne, hlw.1]
    -- the levels of the two are taken
    have hnew : env.bddvar2level u ≠ env.bddvar2level w := fun heq => huw (h.inj hu hw heq)
    have hnev : env.bddvar2level u ≠ env.bddvar2level v := fun heq => huv (h.inj hu hv heq)
    simp [huw, huv, hnew, hnev, hlu]
  · have hvl := h.var l hl
    simp only [Function.update_apply]
    by_cases hlw' : l = env.bddvar2level w
    · simp [hlw', hne, hv]
    by_cases hlv' : l = env.bddvar2level v
    · simp [hlv', hlevel, hw]
    have hnew : env.bddlevel2var l ≠ w := fun heq => hlw' (heq ▸ hvl.2.symm)
    have hnev : env.bddlevel2var l ≠ v := fun heq => hlv' (heq ▸ hvl.2.symm)
    simp [hlw', hlv', hnew, hnev, hvl]
  · have hu : u ≠ v ∧ u ≠ w := by simpa using hu
    simp [Function.update_apply, hu.1, hu.2]
  · simp [Function.update_apply, hne, hlevel]
  · simp [Function.update_apply]

/-- `reorder_varup` is `reorder_vardown` of the variable above. -/
theorem reorderVarup_eq (h : Tables env) (hv : v < env.bddvarnum) (hw : w < env.bddvarnum)
    (hlevel : env.bddvar2level w = env.bddvar2level v + 1) :
    reorderVarup env w = reorderVardown env v := by
  unfold reorderVarup
  rw [if_neg (by omega), hlevel, Nat.add_sub_cancel, (h.level v hv).2]

end MoToBuddy.Reorder
