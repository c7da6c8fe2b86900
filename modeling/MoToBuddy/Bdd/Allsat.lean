import MoToBuddy.Bdd.PackageRun
import MoToBuddy.Lib.Paths

/-!
# `bdd_allsat` (`bddop.c`)

One array is shared by all calls of the handler. On the way to a node the array is right for the
levels above it, and whatever an earlier branch left at the levels from the node on is overwritten
before the next call (`allsatRec_calls`). The model returns the arrays that the handler got, in
order; the handler does not use the package.
-/

namespace MoToBuddy.Bdd

open Decision BoolFun CountedLoop Package

variable {P : Type*} {D : MtbddDomain P} {isPrime : ℕ → Bool} {s : BddState P} {w : Package P}

/-- `allsatProfile`, by variable, and the arrays that the handler got. -/
structure Allsat where
  allsatProfile : ℕ → ℤ
  calls : List (ℕ → ℤ)

/-- `allsatProfile[bddlevel2var[level]] = value`. -/
def Allsat.set (s : BddState P) (level : ℕ) (value : ℤ) (w : Allsat) : Allsat :=
  { w with allsatProfile := Function.update w.allsatProfile (s.env.bddlevel2var level) value }

/-- `for (v = top - 1; v >= bottom; --v) allsatProfile[bddlevel2var[v]] = -1`. -/
def Allsat.clear (s : BddState P) (bottom top : ℕ) : Allsat → Allsat :=
  forDown bottom (top - bottom) fun v => Allsat.set s v (-1)

/-- `allsat_rec`. -/
def allsatRec (s : BddState P) : ℕ → ℕ → Allsat → Option Allsat
  | 0, _, _ => none
  | fuel + 1, r, w =>
    if r = 1 then some { w with calls := w.calls ++ [w.allsatProfile] }
    else if r = 0 then some w
    else do
      let w ← (if s.low r ≠ 0 then
          allsatRec s fuel (s.low r)
            ((w.set s (s.level r) 0).clear s (s.level r + 1) (s.level (s.low r)))
        else some w : Option Allsat)
      if s.high r ≠ 0 then
        allsatRec s fuel (s.high r)
          ((w.set s (s.level r) 1).clear s (s.level r + 1) (s.level (s.high r)))
      else some w

/-- `bdd_allsat`, for the array that `malloc` returned. -/
def bddAllsat (allsatProfile : ℕ → ℤ) (r : ℕ) (s : BddState P) :
    Option (List (ℕ → ℤ) × BddState P) :=
  if r ≥ s.bddnodesize then some ([], s.error .illbdd)
  else if 2 ≤ r ∧ s.isFree r then some ([], s.error .illbdd)
  else (allsatRec s depth r (Allsat.clear s 0 (s.level r) ⟨allsatProfile, []⟩)).map fun w =>
    (w.calls, s.initref)

/-! ## The array -/

/-- What is reported for a level by a path: the branch taken there, or `-1`. -/
def report (π : List (ℕ × Bool)) (l : ℕ) : ℤ :=
  match π.lookup l with
  | some b => b.toNat
  | none => -1

section

variable {π : List (ℕ × Bool)} {k l : ℕ}

theorem report_cons (level : ℕ) (b : Bool) (π : List (ℕ × Bool)) (l : ℕ) :
    report ((level, b) :: π) l = if l = level then (b.toNat : ℤ) else report π l := by
  unfold report
  rw [List.lookup_cons]
  by_cases h : l = level
  · simp [h]
  · rw [beq_false_of_ne h, if_neg h]

/-- A level that a path does not decide. -/
theorem report_of_lt (h : ∀ d ∈ π, k ≤ d.1) (hl : l < k) : report π l = -1 := by
  have hnone : π.lookup l = none := List.lookup_eq_none_iff.mpr fun d hd => by
    have := h d hd
    simp
    omega
  simp [report, hnone]

end

namespace Allsat

variable {a : Allsat} {l level bottom top M : ℕ} {value : ℤ}

@[simp] theorem calls_set : (a.set s level value).calls = a.calls := rfl

/-- An entry, by level. -/
def entry (s : BddState P) (a : Allsat) (l : ℕ) : ℤ := a.allsatProfile (s.env.bddlevel2var l)

theorem entry_set (hinj : ∀ l < M, s.env.bddvar2level (s.env.bddlevel2var l) = l) (hl : l < M)
    (hlevel : level < M) :
    (a.set s level value).entry s l = if l = level then value else a.entry s l := by
  show Function.update a.allsatProfile _ value _ = _
  rw [Function.update_apply]
  refine if_congr ⟨fun h => ?_, fun h => h ▸ rfl⟩ rfl rfl
  rw [← hinj l hl, h, hinj level hlevel]

@[simp] theorem calls_clear : (a.clear s bottom top).calls = a.calls :=
  forDown_induct (f := fun v => Allsat.set s v (-1)) (fun _ (b : Allsat) => b.calls = a.calls) rfl
    fun _ _ _ _ h => h

theorem entry_clear (hinj : ∀ l < M, s.env.bddvar2level (s.env.bddlevel2var l) = l)
    (htop : top ≤ M) (hl : l < M) :
    (a.clear s bottom top).entry s l =
      if bottom ≤ l ∧ l < top then -1 else a.entry s l := by
  -- the entries from the counter on are cleared
  have h := forDown_induct (a := bottom) (k := top - bottom)
    (f := fun v => Allsat.set s v (-1)) (s := a)
    (fun n b => b.entry s l = if n ≤ l ∧ l < top then -1 else a.entry s l)
    (by rw [if_neg (by omega)])
    (fun n b hn hk hb => by
      rw [entry_set hinj hl (by omega), hb]
      split_ifs <;> first | rfl | omega)
  exact h

end Allsat

/-! ## The walk -/

/-- The profiles are those of the paths at the levels from `k` on, and as they were above. -/
def Reports (s : BddState P) (M k : ℕ) (a : Allsat) (calls : List (ℕ → ℤ))
    (πs : List (List (ℕ × Bool))) : Prop :=
  List.Forall₂ (fun p π => ∀ l < M,
    p (s.env.bddlevel2var l) = if l < k then a.entry s l else report π l) calls πs

/-- A walk is done: the handler got the arrays of the paths. -/
def Enumerates (s : BddState P) (M k : ℕ) (a : Allsat) (πs : List (List (ℕ × Bool)))
    (o : Option Allsat) : Prop :=
  ∃ a' calls, o = some a' ∧ a'.calls = a.calls ++ calls ∧ Reports s M k a calls πs ∧
    ∀ l < k, l < M → a'.entry s l = a.entry s l

section

variable {M k : ℕ} {a : Allsat} {πs ρs : List (List (ℕ × Bool))} {o : Option Allsat}

theorem Enumerates.nothing : Enumerates s M k a [] (some a) :=
  ⟨a, [], rfl, (List.append_nil _).symm, .nil, fun _ _ _ => rfl⟩

theorem Enumerates.append {f : Allsat → Option Allsat} (h : Enumerates s M k a πs o)
    (hf : ∀ a', Enumerates s M k a' ρs (f a')) : Enumerates s M k a (πs ++ ρs) (o.bind f) := by
  obtain ⟨a₁, calls₁, rfl, hcalls₁, hreports₁, hrest₁⟩ := h
  obtain ⟨a₂, calls₂, hrec₂, hcalls₂, hreports₂, hrest₂⟩ := hf a₁
  refine ⟨a₂, calls₁ ++ calls₂, hrec₂, ?_, ?_, fun l hl hlM => ?_⟩
  · rw [hcalls₂, hcalls₁, List.append_assoc]
  · refine List.rel_append hreports₁ (hreports₂.imp fun p π hp l hl => ?_)
    rw [hp l hl]
    exact ite_congr rfl (fun hlt => hrest₁ l hlt hl) fun _ => rfl
  · rw [hrest₂ l hl hlM, hrest₁ l hl hlM]

variable {level m : ℕ} {u : DTree Bool} {rec : Allsat → Option Allsat}

/-- A branch: its entry is set, the levels that the edge skips are cleared, and the walk goes on. -/
theorem Enumerates.branch (hinj : ∀ l < M, s.env.bddvar2level (s.env.bddlevel2var l) = l)
    (hlt : level < m) (hle : m ≤ M) (hpaths : ∀ π ∈ u.paths, ∀ d ∈ π, m ≤ d.1) (b : Bool)
    (hrec : ∀ a, Enumerates s M m a u.paths (rec a)) : Enumerates s M level a
      (u.paths.map (List.cons (level, b)))
      (rec ((a.set s level b.toNat).clear s (level + 1) m)) := by
  obtain ⟨a', calls, ha', hcalls, hreports, hrest⟩ :=
    hrec ((a.set s level b.toNat).clear s (level + 1) m)
  have hentry : ∀ l < M, ((a.set s level b.toNat).clear s (level + 1) m).entry s l =
      if level + 1 ≤ l ∧ l < m then -1 else if l = level then (b.toNat : ℤ) else a.entry s l :=
    fun l hl => by rw [Allsat.entry_clear hinj hle hl, Allsat.entry_set hinj hl (by omega)]
  refine ⟨a', calls, ha', by simpa using hcalls, ?_, fun l hl hlM => ?_⟩
  · refine List.forall₂_map_right_iff.mpr (List.forall₂_iff_get.mpr ?_)
    obtain ⟨hlength, hget⟩ := List.forall₂_iff_get.mp hreports
    refine ⟨hlength, fun i hi hi' l hl => ?_⟩
    have habove := hpaths _ (List.get_mem u.paths ⟨i, hi'⟩)
    rw [hget i hi hi' l hl, hentry l hl, report_cons]
    by_cases hskip : l < m
    · have hfree := report_of_lt habove hskip
      rw [hfree]
      split_ifs <;> first | rfl | omega
    · split_ifs <;> first | rfl | omega
  · rw [hrest l (by omega) hlM, hentry l hlM, if_neg (by omega), if_neg (by omega)]

end

theorem allsatRec_walked {M : ℕ} (hconst : ∀ n, n < 2 → s.level n = M)
    (hinj : ∀ l < M, s.env.bddvar2level (s.env.bddlevel2var l) = l) {fuel n : ℕ}
    {t : DTree (Leaf P)} (hr : s.Reads D n t) (hb : IsBool t) (hs : t.Sorted M)
    (hfuel : M - s.level n < fuel) (a : Allsat) :
    Enumerates s M (s.level n) a (boolTree t).paths (allsatRec s fuel n a) := by
  induction fuel generalizing n t a with
  | zero => omega
  | succ fuel ih =>
    unfold allsatRec
    cases hr with
    | const b =>
      have hlevel := hconst b.toNat (BddState.Reads.toNat_lt b)
      cases b with
      | false => exact .nothing
      | true =>
        refine ⟨_, [a.allsatProfile], rfl, rfl, .cons (fun l hl => ?_) .nil, fun _ _ _ => rfl⟩
        rw [hlevel, if_pos hl]
        rfl
    | terminal _ _ _ _ => exact hb.elim
    | @node _ low high level tl th inner key decision below above =>
      have hlow : s.low n = low := congrArg (·.low.getD 0) key
      have hhigh : s.high n = high := congrArg BddKey.high key
      have hlevel : s.level n = level := congrArg BddKey.level key
      obtain ⟨hgtl, hgth⟩ := DTree.rootLevel_gt (sorted_boolTree.mpr hs)
      obtain ⟨hlt, hal, hah, hsl, hsh⟩ := hs
      rw [if_neg (by omega), if_neg (by omega), hlow, hhigh, hlevel]
      have hbranch : ∀ (b : Bool) (m : ℕ) (u : DTree (Leaf P)), s.Reads D m u → IsBool u →
          u.Sorted M → level < (boolTree u).rootLevel M → ∀ a : Allsat, Enumerates s M level a
            ((boolTree u).paths.map (List.cons (level, b)))
            (if m ≠ 0 then allsatRec s fuel m
              ((a.set s level b.toNat).clear s (level + 1) (s.level m)) else some a) := by
        intro b m u hm hbu hsu hgt a
        by_cases hz : m = 0
        · -- the constant false has no paths
          subst hz
          rw [hm.unique (BddState.Reads.const false), if_neg (by simp)]
          exact .nothing
        · rw [← rootLevel_eq hconst hm hbu] at hgt
          rw [if_pos hz]
          have hroot := rootLevel_eq hconst hm hbu
          have habove := DTree.above_rootLevel M (boolTree u)
          have hle := DTree.rootLevel_le (sorted_boolTree.mpr hsu)
          rw [← hroot] at habove hle
          refine Enumerates.branch hinj hgt hle (fun π hπ d hd => ?_) b
            fun a => ih hm hbu hsu (by omega) a
          exact ((DTree.paths_levels (sorted_boolTree.mpr hsu) habove hπ).2 d hd).1
      exact (hbranch false low tl below hb.1 hsl hgtl a).append
        (hbranch true high th above hb.2 hsh hgth)

/-! ## The call -/

/-- A path from a node to the constant true. -/
inductive BddState.Path (s : BddState P) : ℕ → List (ℕ × Bool) → Prop
  | one : s.Path 1 []
  | low {n : ℕ} {π : List (ℕ × Bool)} (inner : 2 ≤ n) (rest : s.Path (s.low n) π) :
      s.Path n ((s.level n, false) :: π)
  | high {n : ℕ} {π : List (ℕ × Bool)} (inner : 2 ≤ n) (rest : s.Path (s.high n) π) :
      s.Path n ((s.level n, true) :: π)

theorem BddState.Reads.path {n : ℕ} {t : DTree (Leaf P)} {π : List (ℕ × Bool)}
    (h : s.Reads D n t) (hb : IsBool t) (hπ : π ∈ (boolTree t).paths) : s.Path n π := by
  induction h generalizing π with
  | const b =>
    cases b with
    | false => simp at hπ
    | true =>
      have hnil : π = [] := by simpa using hπ
      exact hnil ▸ .one
  | terminal _ _ _ _ => exact hb.elim
  | @node n low high level tl th inner key _ _ _ ihl ihh =>
    have hlow : s.low n = low := congrArg (·.low.getD 0) key
    have hhigh : s.high n = high := congrArg BddKey.high key
    have hlevel : s.level n = level := congrArg BddKey.level key
    rw [← hlevel] at hπ
    rcases DTree.mem_paths_node.mp hπ with ⟨ρ, hρ, rfl⟩ | ⟨ρ, hρ, rfl⟩
    · exact .low inner (hlow ▸ ihl hb.1 hρ)
    · exact .high inner (hhigh ▸ ihh hb.2 hρ)

/-- The assignments that an array stands for: a `-1` leaves the variable free. -/
def Admits (n : ℕ) (p : ℕ → ℤ) (a : ℕ → Bool) : Prop := ∀ v < n, p v = -1 ∨ p v = (a v).toNat

/-- They are those that take the path. -/
theorem OrderInv.admits_iff (h : OrderInv s) {p : ℕ → ℤ} {π : List (ℕ × Bool)} {a : ℕ → Bool}
    (hπ : (π.map Prod.fst).Nodup) (hbound : ∀ d ∈ π, d.1 < s.env.bddvarnum)
    (hp : ∀ v < s.env.bddvarnum, p v = report π (s.env.bddvar2level v)) :
    Admits s.env.bddvarnum p a ↔ Takes (s.assign a) π := by
  constructor
  · intro ha d hd
    obtain ⟨hvar, hback⟩ := h.var d.1 (hbound d hd)
    have hlook : π.lookup d.1 = some d.2 := (lookup_iff hπ).mpr hd
    have hreport : report π d.1 = d.2.toNat := by simp [report, hlook]
    have hv := ha _ hvar
    rw [hp _ hvar, hback, hreport] at hv
    show a (s.env.bddlevel2var d.1) = d.2
    have hnat : d.2.toNat = (a (s.env.bddlevel2var d.1)).toNat := by omega
    revert hnat
    cases d.2 <;> cases a (s.env.bddlevel2var d.1) <;> decide
  · intro hx v hv
    obtain ⟨-, hback⟩ := h.level v hv
    rw [hp v hv]
    unfold report
    cases hlook : π.lookup (s.env.bddvar2level v) with
    | none => exact Or.inl rfl
    | some b =>
      have hb : a (s.env.bddlevel2var (s.env.bddvar2level v)) = b :=
        hx _ ((lookup_iff hπ).mp hlook)
      rw [hback] at hb
      exact Or.inr (by rw [hb])

/-- The handler gets one array for each path, in the order of the paths. -/
theorem bddAllsat_calls {σ : PairTable P} (h : Base D isPrime σ s) (hnum : 0 < s.env.bddvarnum)
    {r : ℕ} {t : DTree (Leaf P)} (hr : s.Reads D r t) (hb : IsBool t) (profile : ℕ → ℤ) :
    ∃ calls, bddAllsat profile r s = some (calls, s.initref) ∧
      List.Forall₂ (fun p π => ∀ v < s.env.bddvarnum, p v = report π (s.env.bddvar2level v))
        calls (boolTree t).paths := by
  have hconst : ∀ n, n < 2 → s.level n = s.env.bddvarnum := fun n hn => by
    rw [h.leveled n hn, if_neg (by omega)]
  have hinj : ∀ l < s.env.bddvarnum, s.env.bddvar2level (s.env.bddlevel2var l) = l := fun l hl =>
    (h.good.order.var l hl).2
  obtain ⟨hs, habove⟩ := h.good.inv.graph.sorted hr
  have hle : s.level r ≤ s.env.bddvarnum := by
    rw [rootLevel_eq hconst hr hb]
    exact DTree.rootLevel_le (sorted_boolTree.mpr hs)
  obtain ⟨a, calls, hrec, hcalls, hreports, -⟩ := allsatRec_walked hconst hinj hr hb hs
    (Setting.depth_bound ((full D isPrime σ s.env.bddvarnum).setting s.env.bddvarnum h.good.num) _)
    (Allsat.clear s 0 (s.level r) ⟨profile, []⟩)
  have hbody : bddAllsat profile r s = some (calls, s.initref) := by
    obtain ⟨hsize, hfree⟩ := h.good.checked hr.isNode
    unfold bddAllsat
    rw [if_neg hsize, if_neg hfree, hrec]
    simp [hcalls]
  obtain ⟨hlength, hget⟩ := List.forall₂_iff_get.mp hreports
  refine ⟨calls, hbody, List.forall₂_iff_get.mpr ⟨hlength, fun i hi hi' v hv => ?_⟩⟩
  obtain ⟨hl, hback⟩ := h.good.order.level v hv
  have hpv := hget i hi hi' _ hl
  rw [hback] at hpv
  rw [hpv]
  split
  · -- above the root, the entries were cleared first
    rename_i hlt
    have hpath := DTree.paths_levels (sorted_boolTree.mpr hs) (above_boolTree.mpr habove)
      (List.get_mem (boolTree t).paths ⟨i, hi'⟩)
    rw [Allsat.entry_clear hinj hle hl, if_pos ⟨Nat.zero_le _, hlt⟩,
      report_of_lt (fun d hd => (hpath.2 d hd).1) hlt]
  · rfl

/-- The arrays that the handler of `bdd_allsat` gets, in any session in which variables have been
declared, are disjoint cubes that imply the operand and cover it. Each is that of a path from the
operand to the constant true: a variable has the branch taken at its level, or is `-1` when its
level is not on the path. -/
theorem bddAllsat_enumerates {reset : BddState P → Prop} {f : (ℕ → Bool) → Bool} {r : ℕ}
    (hw : w.Reached D isPrime reset) (hnum : 0 < w.bdd.env.bddvarnum)
    (hr : w.bdd.Represents D r f) (profile : ℕ → ℤ) :
    ∃ calls, bddAllsat profile r w.bdd = some (calls, w.bdd.initref) ∧
      (calls.Pairwise fun p q => ∀ a, Admits w.bdd.env.bddvarnum p a →
        ¬ Admits w.bdd.env.bddvarnum q a) ∧
      (∀ p ∈ calls, ∀ a, Admits w.bdd.env.bddvarnum p a → f a = true) ∧
      (∀ a, f a = true → ∃ p ∈ calls, Admits w.bdd.env.bddvarnum p a) ∧
      ∀ p ∈ calls, ∃ π, w.bdd.Path r π ∧
        ∀ v < w.bdd.env.bddvarnum, p v = report π (w.bdd.env.bddvar2level v) := by
  obtain ⟨⟨σ, h⟩, -⟩ := hw.healthy
  obtain ⟨t, hreads, hb, hf⟩ := hr
  obtain ⟨hs, -⟩ := h.good.inv.graph.sorted hreads
  have hs' := sorted_boolTree.mpr hs
  obtain ⟨calls, hcall, hpaths⟩ := bddAllsat_calls h.toBase hnum hreads hb profile
  have hadmits : ∀ π ∈ (boolTree t).paths, ∀ p : ℕ → ℤ,
      (∀ v < w.bdd.env.bddvarnum, p v = report π (w.bdd.env.bddvar2level v)) → ∀ a,
        Admits w.bdd.env.bddvarnum p a ↔ Takes (w.bdd.assign a) π := fun π hπ p hp a =>
    h.good.order.admits_iff (DTree.paths_nodup hs' hπ)
      (fun d hd => ((DTree.paths_levels hs' (DTree.above_zero _) hπ).2 d hd).2) hp
  have hvalue : ∀ a, f a = (boolTree t).eval (w.bdd.assign a) := fun a => by
    rw [eval_boolTree, hf]
  obtain ⟨hlength, hget⟩ := List.forall₂_iff_get.mp hpaths
  have hmem : ∀ p ∈ calls, ∃ π ∈ (boolTree t).paths,
      ∀ v < w.bdd.env.bddvarnum, p v = report π (w.bdd.env.bddvar2level v) := fun p hp => by
    obtain ⟨⟨i, hi⟩, rfl⟩ := List.mem_iff_get.mp hp
    exact ⟨_, List.get_mem _ ⟨i, hlength ▸ hi⟩, hget i hi (hlength ▸ hi)⟩
  refine ⟨calls, hcall, ?_, fun p hp a ha => ?_, fun a ha => ?_, fun p hp => ?_⟩
  · refine List.pairwise_iff_get.mpr fun i j hij a hi hj => ?_
    have hi' : i.1 < (boolTree t).paths.length := hlength ▸ i.2
    have hj' : j.1 < (boolTree t).paths.length := hlength ▸ j.2
    -- an assignment takes one path only
    have happart := List.pairwise_iff_get.mp (boolTree t).paths_pairwise ⟨i.1, hi'⟩ ⟨j.1, hj'⟩ hij
    refine happart (w.bdd.assign a) ?_ ?_
    · exact (hadmits _ (List.get_mem _ _) _ (hget i.1 i.2 hi') a).mp hi
    · exact (hadmits _ (List.get_mem _ _) _ (hget j.1 j.2 hj') a).mp hj
  · obtain ⟨π, hπ, hpπ⟩ := hmem p hp
    rw [hvalue]
    exact DTree.eval_eq_true_iff.mpr ⟨π, hπ, (hadmits π hπ p hpπ a).mp ha⟩
  · rw [hvalue] at ha
    obtain ⟨π, hπ, hx⟩ := DTree.eval_eq_true_iff.mp ha
    obtain ⟨⟨i, hi⟩, rfl⟩ := List.mem_iff_get.mp hπ
    have hi' : i < calls.length := hlength ▸ hi
    exact ⟨calls.get ⟨i, hi'⟩, List.get_mem _ _,
      (hadmits _ (List.get_mem _ _) _ (hget i hi' hi) a).mpr hx⟩
  · obtain ⟨π, hπ, hpπ⟩ := hmem p hp
    exact ⟨π, hreads.path hb hπ, hpπ⟩

theorem bddAllsat_enumerates_two : ∃ calls,
    bddAllsat (fun _ => 7) 2 Bdd.twoVariables = some (calls, Bdd.twoVariables.initref) ∧
      (∀ a : ℕ → Bool, a 0 = true → ∃ p ∈ calls, Admits 2 p a) := by
  have hnum : Bdd.twoVariables.env.bddvarnum = 2 := twoVariables_varnum
  obtain ⟨calls, hcall, -, -, hcover, -⟩ := bddAllsat_enumerates
    (twoVariables_reached fun _ => True) (by show 0 < Bdd.twoVariables.env.bddvarnum; rw [hnum]; decide)
    twoVariables_usable.1.2 fun _ => 7
  refine ⟨calls, hcall, fun a ha => ?_⟩
  obtain ⟨p, hp, h⟩ := hcover a ha
  exact ⟨p, hp, hnum ▸ h⟩

end MoToBuddy.Bdd
