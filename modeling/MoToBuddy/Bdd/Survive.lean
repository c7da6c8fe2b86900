import MoToBuddy.Bdd.Full

/-!
# What outlives a change of references or of the variables

`Survives` says that all nodes stay, as they do when a reference is taken or given back or when the
caches are flushed. `BddState.Covers` says that the reference counts are enough for a list of
references; `Covers.delref` and `Covers.addref` are its rules.
-/

namespace MoToBuddy.Bdd

open Decision

variable {P : Type*} {D : MtbddDomain P} {isPrime : ℕ → Bool} {T : Theory P} {σ : PairTable P}
  {s s' s'' : BddState P}

/-! ## Nodes -/

/-- All nodes and the order of the variables stay. -/
structure Survives (D : MtbddDomain P) (s s' : BddState P) : Prop where
  reads : ∀ n t, s.Reads D n t → s'.Reads D n t
  level : ∀ n, n < 2 → s'.level n = s.level n
  env : s'.env = s.env

theorem Survives.trans (h : Survives D s s') (h' : Survives D s' s'') : Survives D s s'' :=
  ⟨fun n t hr => h'.reads n t (h.reads n t hr),
    fun n hn => (h'.level n hn).trans (h.level n hn), h'.env.trans h.env⟩

theorem Survives.assign (h : Survives D s s') : s'.assign = s.assign := by
  unfold BddState.assign
  rw [h.env]

theorem Survives.represents (h : Survives D s s') {n : ℕ} {f : (ℕ → Bool) → Bool}
    (hn : s.Represents D n f) : s'.Represents D n f := by
  obtain ⟨t, hr, hb, hf⟩ := hn
  exact ⟨t, h.reads n t hr, hb, fun a => by rw [h.assign]; exact hf a⟩

theorem Survives.signed (h : Survives D s s') (hs : s.Signed) : s'.Signed := by
  unfold BddState.Signed at hs ⊢
  rw [h.env]
  exact hs

/-- The same nodes, up to their reference counts. -/
theorem survives_of_key (hkey : ∀ n, s'.key n = s.key n) (hterminals : s'.terminals = s.terminals)
    (henv : s'.env = s.env) : Survives D s s' :=
  ⟨fun _ _ hr => hr.congr fun m _ => ⟨hkey m, fun _ _ => by rw [hterminals]⟩,
    fun n _ => congrArg BddKey.level (hkey n), henv⟩

theorem survives_refcou (s : BddState P) (n c : ℕ) :
    Survives D s (s.setNode n { s.bddnodes n with refcou := c }) := by
  refine survives_of_key (fun m => ?_) rfl rfl
  unfold BddState.key BddState.setNode
  dsimp only
  rw [Function.update_apply]
  split
  · rename_i hm
    rw [hm]
    rfl
  · rfl

theorem Survives.refl (s : BddState P) : Survives D s s := ⟨fun _ _ h => h, fun _ _ => rfl, rfl⟩

theorem survives_error (s : BddState P) (e : BddError) : Survives D s (s.error e) :=
  survives_of_key (fun _ => rfl) rfl rfl

theorem survives_incref (s : BddState P) (n : ℕ) : Survives D s (incref s n) := by
  unfold incref
  dsimp only
  split
  · exact survives_refcou s n _
  · exact .refl s

theorem survives_decref (s : BddState P) (n : ℕ) : Survives D s (decref s n) := by
  unfold decref
  dsimp only
  split
  · exact survives_refcou s n _
  · exact .refl s

theorem survives_changeref {count : BddState P → ℕ → BddState P}
    (hcount : ∀ n, Survives D s (count s n)) (root : ℕ) :
    Survives D s (changeref count s root) := by
  unfold changeref
  split_ifs
  · exact .refl s
  · exact survives_error s _
  · exact survives_error s _
  · exact hcount root

theorem survives_addref (s : BddState P) (n : ℕ) : Survives D s (bddAddref s n) :=
  survives_changeref (survives_incref s) n

theorem survives_delref (s : BddState P) (n : ℕ) : Survives D s (bddDelref s n) := by
  refine survives_changeref (fun m => ?_) n
  split
  · exact (survives_error s .break).trans (survives_decref _ m)
  · exact survives_decref s m

/-! ## References -/

/-- Every node has the references that are listed, or more than are counted. -/
def BddState.Covers (s : BddState P) (L : List ℕ) : Prop :=
  ∀ n, 2 ≤ n → maxref ≤ (s.bddnodes n).refcou ∨ L.count n ≤ (s.bddnodes n).refcou

section

variable {L L' : List ℕ} {n : ℕ}

theorem BddState.Covers.mono (h : s.Covers L) (hL : ∀ n, L'.count n ≤ L.count n) :
    s.Covers L' := fun n hn => (h n hn).imp_right (hL n).trans

theorem BddState.Covers.perm (h : s.Covers L) (hL : L.Perm L') : s.Covers L' :=
  h.mono fun n => (hL.count_eq n).ge

/-- Counts that do not decrease are still enough. -/
theorem BddState.Covers.of_le (h : s.Covers L) (hle : ∀ n, 2 ≤ n →
    maxref ≤ (s'.bddnodes n).refcou ∨ (s.bddnodes n).refcou ≤ (s'.bddnodes n).refcou) :
    s'.Covers L := by
  intro n hn
  rcases hle n hn with hmax | hle
  · exact Or.inl hmax
  · exact (h n hn).imp (fun h' => h'.trans hle) fun h' => h'.trans hle

/-- A reference in the list protects its node. -/
theorem BddState.Covers.referenced (h : s.Covers L) (hn : n ∈ L) (hnode : s.IsNode n) :
    s.Referenced n := by
  refine hnode.imp_right fun hl => ⟨n, Or.inl ?_, .refl hl⟩
  show 0 < (s.bddnodes n).refcou
  have hpos : 0 < L.count n := List.count_pos_iff.mpr hn
  have hmax : 0 < maxref := by decide
  rcases h n (BddState.live_iff.mp hl).1 with h | h <;> omega

/-- Giving a reference back. -/
theorem BddState.Covers.delref (h : s.Covers (n :: L)) : (bddDelref s n).Covers L := by
  have hrest : s.Covers L := h.mono fun m => List.count_le_count_cons
  unfold bddDelref changeref
  split_ifs with h2 hsize hfree
  · exact hrest
  · exact hrest
  · exact hrest
  · -- the error that may be told before does not matter
    have hdec : ∀ u : BddState P, u.bddnodes = s.bddnodes → (decref u n).Covers L := by
      intro u hu m hm
      unfold decref
      dsimp only
      split_ifs with hlt
      · show maxref ≤ (Function.update u.bddnodes n _ m).refcou ∨
          _ ≤ (Function.update u.bddnodes n _ m).refcou
        rw [Function.update_apply]
        split_ifs with hmn
        · subst hmn
          have := h m hm
          rw [List.count_cons_self] at this
          dsimp only
          rw [hu] at hlt ⊢
          omega
        · rw [hu]
          exact hrest m hm
      · rw [hu]
        exact hrest m hm
    exact hdec _ (by split_ifs <;> rfl)

/-- Taking a reference. -/
theorem BddState.Covers.addref (h : s.Covers L) (hs : Good T s) (hn : s.IsNode n) :
    (bddAddref s n).Covers (n :: L) := by
  rw [bddAddref_eq hs hn]
  intro m hm
  by_cases hmn : m = n
  · subst hmn
    have := h m hm
    rw [if_neg (by omega), List.count_cons_self]
    unfold incref
    dsimp only
    split_ifs with hlt
    · rw [show (s.setNode m _).bddnodes m = _ from Function.update_self ..]
      dsimp only
      omega
    · omega
  · rw [List.count_cons_of_ne (Ne.symm hmn)]
    split_ifs
    · exact h m hm
    · unfold incref
      dsimp only
      split_ifs
      · rw [show (s.setNode n _).bddnodes m = _ from Function.update_of_ne hmn _ _]
        exact h m hm
      · exact h m hm

/-- Giving back the references of a loop over an array. -/
theorem delref_loop (f : ℕ → ℕ) (k : ℕ) (hs : Good T s)
    (h : s.Covers ((List.range k).map f ++ L)) :
    Good T (CountedLoop.forUp 0 k (fun n s => bddDelref s (f n)) s) ∧
      Survives T.D s (CountedLoop.forUp 0 k (fun n s => bddDelref s (f n)) s) ∧
      (CountedLoop.forUp 0 k (fun n s => bddDelref s (f n)) s).Covers L := by
  induction k generalizing L with
  | zero => exact ⟨hs, .refl s, h⟩
  | succ k ih =>
    obtain ⟨hg, hk, hc⟩ := @ih (f k :: L) (h.perm (by
      rw [List.range_succ, List.map_append, List.append_assoc]
      rfl))
    unfold CountedLoop.forUp
    rw [Nat.zero_add]
    exact ⟨hg.delref _, hk.trans (survives_delref _ _), hc.delref⟩

end

/-! ## More variables -/

section

variable {num : ℕ}

theorem SetvarnumSpec.referenced (h : SetvarnumSpec T s s') {n : ℕ} (hn : s.Referenced n) :
    s'.Referenced n := hn.imp_right (h.grows.held n)

/-- What is referenced keeps its tree. -/
theorem SetvarnumSpec.reads (h : SetvarnumSpec T s s') {n : ℕ} {t : DTree (Leaf P)}
    (hn : s.Referenced n) (hr : s.Reads T.D n t) : s'.Reads T.D n t := by
  have hr' : s.initref.Reads T.D n t := hr.congr fun _ _ => ⟨rfl, fun _ _ => rfl⟩
  have hgrown : s'.initref.Reads T.D n t := hr'.congr fun m hm => by
    rcases hn with h2 | ⟨r, hroot, hrn⟩
    · have := (BddState.live_iff.mp hm.live_left).1
      omega
    · exact h.grows.same m ⟨r, hroot, hrn.trans hm⟩
  exact hgrown.congr fun _ _ => ⟨rfl, fun _ _ => rfl⟩

/-- It keeps its function, too. -/
theorem SetvarnumSpec.represents (h : SetvarnumSpec T s s') (hs : Good T s) {n : ℕ}
    {f : (ℕ → Bool) → Bool} (hn : s.Referenced n) (hf : s.Represents T.D n f) :
    s'.Represents T.D n f := by
  obtain ⟨t, hr, hb, hft⟩ := hf
  refine ⟨t, h.reads hn hr, hb, fun a => ?_⟩
  rw [← hft]
  refine evalBool_congr (hs.inv.graph.sorted hr).1 fun l hl => ?_
  show a (s'.env.bddlevel2var l) = a (s.env.bddlevel2var l)
  rw [show s'.env.bddlevel2var l = s.env.bddlevel2var l from (h.grows.old l hl).1]

theorem SetvarnumSpec.signed (h : SetvarnumSpec T s s') (hs : s.Signed) : s'.Signed := by
  unfold BddState.Signed at hs ⊢
  rcases h.cases with ⟨henv, -⟩ | ⟨-, -, hset, hid, -⟩
  · rw [henv]
    exact hs
  · rw [hset, hid]
    exact fun _ _ => Int.le_refl 0

theorem SetvarnumSpec.covers (h : SetvarnumSpec T s s') {L : List ℕ} (hc : s.Covers L) :
    s'.Covers L := hc.of_le h.grows.refcou

end

end MoToBuddy.Bdd
