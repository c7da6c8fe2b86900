import MoToBuddy.Evdd.Session

/-!
# The children of a new node (`evdd_kernel.c`)

`evdd_makenode` pushes both children onto the stack before it makes a node, and so they outlive
a collection inside. `evdd_makenode_raw` pushes nothing: when no slot is free, a child that
nobody else holds is swept, and the new node gets it, or takes its very slot.
-/

namespace MoToBuddy.Evdd

open Chained Marking

variable {P : Type*} [DecidableEq P] {T : ValueTypes P} {E : Policy P} {s t : EvddState P}
  {level : ℕ} {low high : EVDD}

/-- The node of `r` has the nodes of both edges as children, and they are what they were. -/
structure Adopts (s : EvddState P) (low high : EVDD) (r : EVDD × EvddState P) : Prop where
  lowChild : (r.2.key r.1.node).low = some low.node
  highChild : (r.2.key r.1.node).high = high.node
  kept : ∀ n, n = low.node ∨ n = high.node → r.2.IsNode n ∧ r.2.key n = s.key n

/-- A node was made. -/
def MadeNew (s : EvddState P) (r : EVDD × EvddState P) : Prop := s.evddproduced < r.2.evddproduced

/-- What `evdd_makenode_raw` relies on: it makes no node, it need not collect, or a collection
leaves both children. -/
def RawSafe (s : EvddState P) (level : ℕ) (low high : EVDD) : Prop :=
  (low.node = high.node ∧ low.w = high.w) ∨
    (∃ n, s.live n = true ∧ s.key n = rawKey level low high) ∨
    s.evddfreepos ≠ 0 ∨ ∀ n, n = low.node ∨ n = high.node → n = 0 ∨ s.Held n

/-! ## A miss -/

/-- What `evdd_makenode_raw` does for a node that is not there. -/
theorem evddMakenodeRaw_miss (h : TableInv True s) (hlevel : level < 2 ^ 21)
    (hdiffer : ¬ (low.node = high.node ∧ low.w = high.w))
    (hmiss : ∀ n, s.live n = true → s.key n ≠ rawKey level low high) :
    evddMakenodeRaw T E s level low high =
      if (makeRoom E s).evddfreepos = 0 then (evddFalse, (makeRoom E s).error .nodenum)
      else
        let t := evddInsert (makeRoom E s) level low high
        let u := evddValueUnitFromPair T t.2.values low.w high.w
        (⟨t.1, u.1⟩, { t.2 with values := u.2 }) := by
  obtain ⟨bucket, hthr, -⟩ := h.table
  have hlt : evddNodehash s.evddnodesize level low.node high.node low.w high.w <
      s.evddnodesize := by
    have hsize := h.size
    rw [evddNodehash]
    exact hashrange_lt _ (by omega)
  have hsearch := hthr.search_spec hlt (keyMatches s level low high)
  simp only [EvddState.links] at hsearch
  rw [evddMakenodeRaw, if_neg (by simp [h.running.1]), if_neg hdiffer]
  dsimp only
  generalize search (keyMatches s level low high) _ _ _ = res at hsearch ⊢
  rcases hsearch with ⟨h0, -⟩ | ⟨-, -, -, hlive, -, hmatch⟩
  · rw [if_neg (by simpa using h0)]
    rfl
  · have hkey := keyMatches_iff.mp hmatch
    refine absurd (hkey.trans ?_) (hmiss res hlive)
    rw [rawKey, Nat.mod_eq_of_lt hlevel]

/-- A node that is made after a miss. -/
theorem evddMakenodeRaw_made (h : TableInv True s) (hlevel : level < 2 ^ 21)
    (hdiffer : ¬ (low.node = high.node ∧ low.w = high.w))
    (hmiss : ∀ n, s.live n = true → s.key n ≠ rawKey level low high)
    (hfree : (makeRoom E s).evddfreepos ≠ 0) :
    ∀ r, evddMakenodeRaw T E s level low high = r →
      MadeNew s r ∧ r.2.key r.1.node = rawKey level low high ∧
      (makeRoom E s).live r.1.node = false ∧
      ∀ n, n ≠ r.1.node → r.2.key n = (makeRoom E s).key n := by
  obtain ⟨hi, hr⟩ := makeRoom_spec E h
  have hnew : True → ∀ n, (makeRoom E s).live n = true →
      (makeRoom E s).key n ≠ rawKey level low high := by
    intro _ n hn hkey
    obtain ⟨hn', hk⟩ := hr.back n hn
    exact hmiss n hn' (hk.symm.trans hkey)
  obtain ⟨-, hins⟩ := evddInsert_spec hi hfree low high (fun _ => hlevel) hnew
  intro r hraw
  rw [evddMakenodeRaw_miss h hlevel hdiffer hmiss, if_neg hfree] at hraw
  have hproduced := hr.produced
  -- neither the slots of the two states nor the values matter from here on
  generalize makeRoom E s = s₁ at hins hraw hproduced ⊢
  generalize evddInsert s₁ level low high = t at hins hraw
  obtain ⟨n, t⟩ := t
  dsimp only at hraw hins
  generalize evddValueUnitFromPair T t.values low.w high.w = u at hraw
  rw [← hraw]
  have hp : t.evddproduced = s.evddproduced + 1 := by rw [hins.produced, hproduced]
  exact ⟨Nat.lt_of_lt_of_eq (Nat.lt_succ_self _) hp.symm, hins.key, hins.fresh, hins.other⟩

/-! ## `evdd_makenode_raw` -/

variable {realloc : EvddState P → Bool} {isPrime : EvddState P → ℕ → Bool}

omit [DecidableEq P] in
/-- With a free slot there is room already. -/
theorem makeRoom_of_free (hfree : s.evddfreepos ≠ 0) :
    makeRoom (.onDemand realloc isPrime) s = s := by
  simp [makeRoom, Policy.onDemand, hfree]

omit [DecidableEq P] in
/-- A collection that sweeps a node makes enough room. -/
theorem makeRoom_of_swept (h : TableInv True s) (hfull : s.evddfreepos = 0) {n : ℕ}
    (hn : s.live n = true) (hheld : ¬ s.Held n) :
    makeRoom (.onDemand realloc isPrime) s = evddGbc s ∧ (evddGbc s).evddfreepos ≠ 0 ∧
      (evddGbc s).live n = false := by
  obtain ⟨hi, hc⟩ := evddGbc_spec h
  have hdead : (evddGbc s).live n = false := by
    rw [← Bool.not_eq_true, hc.live]
    exact hheld
  obtain ⟨_, hthr, -⟩ := hi.table
  obtain ⟨l, hchain, -, -, hmem⟩ := hthr.free
  have hnl : n ∈ l := by
    refine (hmem n).mpr ⟨⟨Nat.one_le_iff_ne_zero.mpr (EvddState.live_iff.mp hn).1, ?_⟩, ?_⟩
    · rw [hc.rest.nodesize]
      exact h.live_lt hn
    · intro hlive
      rw [hdead] at hlive
      exact nomatch hlive
  have hpos : (evddGbc s).evddfreepos ≠ 0 := by
    intro h0
    cases l with
    | nil => exact absurd hnl List.not_mem_nil
    | cons m l => exact hchain.2.1 (hchain.1.symm.trans h0)
  refine ⟨?_, hpos, hdead⟩
  simp [makeRoom, Policy.onDemand, hfull, hpos]

/-- Where a collection leaves both children, or there is none, the new node has them. -/
theorem adopts_of_room (h : TableInv True s) (hlevel : level < 2 ^ 21)
    (hdiffer : ¬ (low.node = high.node ∧ low.w = high.w))
    (hmiss : ∀ n, s.live n = true → s.key n ≠ rawKey level low high)
    (hfree : (makeRoom E s).evddfreepos ≠ 0)
    (hroom : ∀ n, n = low.node ∨ n = high.node →
      n = 0 ∨ (makeRoom E s).live n = true ∧ (makeRoom E s).key n = s.key n)
    {r : EVDD × EvddState P} (hraw : evddMakenodeRaw T E s level low high = r) :
    Adopts s low high r := by
  have hinv := (evddMakenodeRaw_spec T E h low high (fun _ => hlevel)).1.inv
  rw [hraw] at hinv
  obtain ⟨-, hkey, hfresh, hother⟩ := evddMakenodeRaw_made h hlevel hdiffer hmiss hfree r hraw
  refine ⟨by rw [hkey]; rfl, by rw [hkey]; rfl, fun n hn => ?_⟩
  rcases hroom n hn with h0 | ⟨hlive, hsame⟩
  · rw [h0]
    exact ⟨Or.inl rfl, hinv.terminal.trans h.terminal.symm⟩
  · have hne : n ≠ r.1.node := fun he => by
      rw [he, hfresh] at hlive
      exact Bool.false_ne_true hlive
    rw [hother n hne]
    refine ⟨Or.inr ?_, hsame⟩
    rw [EvddState.live_congr (hother n hne)]
    exact hlive

/-- Without room no node is made. -/
theorem room_of_madeNew (h : TableInv True s) (hlevel : level < 2 ^ 21)
    (hdiffer : ¬ (low.node = high.node ∧ low.w = high.w))
    (hmiss : ∀ n, s.live n = true → s.key n ≠ rawKey level low high)
    {r : EVDD × EvddState P} (hraw : evddMakenodeRaw T E s level low high = r)
    (hnew : MadeNew s r) : (makeRoom E s).evddfreepos ≠ 0 := by
  intro hfull
  rw [evddMakenodeRaw_miss h hlevel hdiffer hmiss, if_pos hfull] at hraw
  have hproduced := (makeRoom_spec E h).2.produced
  generalize makeRoom E s = s₁ at hraw hproduced
  rw [← hraw] at hnew
  have hlt : s.evddproduced < s₁.evddproduced := hnew
  omega

/-- A collection leaves children that somebody holds. -/
theorem adopts_of_held (h : TableInv True s) (hlevel : level < 2 ^ 21) {r : EVDD × EvddState P}
    (hraw : evddMakenodeRaw T E s level low high = r) (hnew : MadeNew s r)
    (hheld : ∀ n, n = low.node ∨ n = high.node → n = 0 ∨ s.Held n) :
    Adopts s low high r := by
  by_cases hdiffer : low.node = high.node ∧ low.w = high.w
  · rw [evddMakenodeRaw, if_neg (by simp [h.running.1]), if_pos hdiffer] at hraw
    rw [← hraw] at hnew
    exact absurd hnew (lt_irrefl _)
  by_cases hfound : ∃ n, s.live n = true ∧ s.key n = rawKey level low high
  · obtain ⟨n, hn, hkey⟩ := hfound
    rw [evddMakenodeRaw_found T _ h hlevel hdiffer hn hkey] at hraw
    rw [← hraw] at hnew
    exact absurd hnew (lt_irrefl _)
  push Not at hfound
  have hroom := room_of_madeNew h hlevel hdiffer hfound hraw hnew
  obtain ⟨-, hr⟩ := makeRoom_spec E h
  apply adopts_of_room h hlevel hdiffer hfound hroom _ hraw
  intro n hn
  exact (hheld n hn).imp_right fun hh => ⟨(hr.keeps.held n hh).live, hr.keeps.key n hh⟩

/-- `evdd_makenode_raw` gives its new node the children it was passed exactly if it may. -/
theorem evddMakenodeRaw_adopts_iff (h : TableInv True s) (hlevel : level < 2 ^ 21)
    (hlow : s.IsNode low.node) (hhigh : s.IsNode high.node) {r : EVDD × EvddState P}
    (hraw : evddMakenodeRaw T (.onDemand realloc isPrime) s level low high = r) :
    (MadeNew s r → Adopts s low high r) ↔ RawSafe s level low high := by
  by_cases hdiffer : low.node = high.node ∧ low.w = high.w
  · refine iff_of_true (fun hnew => ?_) (Or.inl hdiffer)
    rw [evddMakenodeRaw, if_neg (by simp [h.running.1]), if_pos hdiffer] at hraw
    rw [← hraw] at hnew
    exact absurd hnew (lt_irrefl _)
  by_cases hfound : ∃ n, s.live n = true ∧ s.key n = rawKey level low high
  · refine iff_of_true (fun hnew => ?_) (Or.inr (Or.inl hfound))
    obtain ⟨n, hn, hkey⟩ := hfound
    rw [evddMakenodeRaw_found T _ h hlevel hdiffer hn hkey] at hraw
    rw [← hraw] at hnew
    exact absurd hnew (lt_irrefl _)
  have hmiss : ∀ n, s.live n = true → s.key n ≠ rawKey level low high := fun n hn hkey =>
    hfound ⟨n, hn, hkey⟩
  have hnode : ∀ n, n = low.node ∨ n = high.node → s.IsNode n := by
    rintro n (rfl | rfl)
    · exact hlow
    · exact hhigh
  by_cases hfree : s.evddfreepos ≠ 0
  · have hroom : makeRoom (.onDemand realloc isPrime) s = s := makeRoom_of_free hfree
    refine iff_of_true (fun _ => ?_) (Or.inr (Or.inr (Or.inl hfree)))
    apply adopts_of_room h hlevel hdiffer hmiss (by rwa [hroom]) _ hraw
    intro n hn
    rw [hroom]
    exact (hnode n hn).imp_right fun hl => ⟨hl, rfl⟩
  rw [not_not] at hfree
  by_cases hheld : ∀ n, n = low.node ∨ n = high.node → n = 0 ∨ s.Held n
  · refine iff_of_true (fun hnew => ?_) (Or.inr (Or.inr (Or.inr hheld)))
    exact adopts_of_held h hlevel hraw hnew hheld
  · refine iff_of_false (fun hadopts => ?_) ?_
    · push Not at hheld
      obtain ⟨n, hn, h0, hheld⟩ := hheld
      have hlive := (hnode n hn).resolve_left h0
      obtain ⟨hroom, hpos, hdead⟩ : makeRoom (.onDemand realloc isPrime) s = evddGbc s ∧ _ :=
      makeRoom_of_swept h hfree hlive hheld
      have hpos' : (makeRoom (.onDemand realloc isPrime) s).evddfreepos ≠ 0 := by rwa [hroom]
      obtain ⟨hnew, hkey, -, hother⟩ := evddMakenodeRaw_made h hlevel hdiffer hmiss hpos' r hraw
      obtain ⟨hnode', hkept⟩ := (hadopts hnew).kept n hn
      by_cases hne : n = r.1.node
      · rw [hne] at hkept hlive
        exact hmiss _ hlive (hkept.symm.trans hkey)
      · have hdead' : r.2.live n = false := by
          rw [EvddState.live_congr (hother n hne), hroom, hdead]
        exact absurd (hnode'.resolve_left h0) (Bool.eq_false_iff.mp hdead')
    · rintro (hsame | hfound' | hpos | hall)
      · exact hdiffer hsame
      · exact hfound hfound'
      · exact hpos hfree
      · exact hheld hall

/-! ## `evdd_makenode` -/

/-- `evdd_makenode` gives its new node the children it was passed. -/
theorem evddMakenode_adopts (h : TableInv True s) (hlevel : level < 2 ^ 21)
    (hlow : s.IsNode low.node) (hhigh : s.IsNode high.node) {r : EVDD × EvddState P}
    (hr : evddMakenode T E s level low high = r) (hnew : MadeNew s r) : Adopts s low high r := by
  rw [evddMakenode_eq T E h.running.1 level low high _ rfl] at hr
  generalize evddValueNormalize T s.values low.w high.w = N at hr
  have h₁ : TableInv True (makenodeState s low high N.2) :=
    (h.restack (high.node :: low.node :: s.evddrefstack)).setValues N.2
  split at hr
  · rw [← hr] at hnew
    exact absurd hnew (lt_irrefl _)
  -- both children are on the stack
  have hheld : ∀ n, n = low.node ∨ n = high.node →
      n = 0 ∨ (makenodeState s low high N.2).Held n := by
    rintro n (rfl | rfl)
    · have hmem : low.node ∈ (makenodeState s low high N.2).evddrefstack :=
        List.mem_cons_of_mem _ List.mem_cons_self
      exact hlow.imp_right fun hl => ⟨low.node, Or.inr hmem, .refl hl⟩
    · have hmem : high.node ∈ (makenodeState s low high N.2).evddrefstack := List.mem_cons_self
      exact hhigh.imp_right fun hl => ⟨high.node, Or.inr hmem, .refl hl⟩
  generalize hraw : evddMakenodeRaw T E (makenodeState s low high N.2) level ⟨low.node, N.1.wLow⟩
    ⟨high.node, N.1.wHigh⟩ = r₁ at hr
  obtain ⟨e, t⟩ := r₁
  dsimp only at hr
  generalize evddValueMul T t.values N.1.incoming e.w = w at hr
  rw [← hr] at hnew ⊢
  have hnew₁ : MadeNew (makenodeState s low high N.2) (e, t) := hnew
  have hadopts : Adopts (makenodeState s low high N.2) ⟨low.node, N.1.wLow⟩ ⟨high.node, N.1.wHigh⟩
      (e, t) :=
    adopts_of_held h₁ hlevel hraw hnew₁ hheld
  exact ⟨hadopts.lowChild, hadopts.highChild, hadopts.kept⟩

/-! ## In a session -/

/-- In every state that calls lead to: `evdd_makenode` always gives its new node the live nodes
that it was passed, `evdd_makenode_raw` does exactly where it may rely on them. -/
theorem evddRun_adopts (hT : LawfulNormalize T) {ops : EvddApplyOps P}
    (hops : ∀ op, LawfulOp T (ops op)) {size maxsize cachesize : ℕ} (hsize : 2 ≤ size)
    (hcache : 0 < cachesize) {V : ValueTable P} (hV : ValueInv T V)
    (hrun : EvddRun T ops (fun _ c => c.level ≤ evddMaxlevel)
      (evddInit size maxsize cachesize V) s)
    (hlevel : level ≤ evddMaxlevel) (hlow : s.IsNode low.node) (hhigh : s.IsNode high.node)
    (realloc : EvddState P → Bool) (isPrime : EvddState P → ℕ → Bool) :
    -- the code collects when no slot is free
    let E := Policy.onDemand realloc isPrime
    (MadeNew s (evddMakenode T E s level low high) →
      Adopts s low high (evddMakenode T E s level low high)) ∧
    ((MadeNew s (evddMakenodeRaw T E s level low high) →
      Adopts s low high (evddMakenodeRaw T E s level low high)) ↔ RawSafe s level low high) := by
  have hinit := (evddInit_inv (q := True) hsize hcache maxsize V).1
  have h := (hrun.inv hT hops (fun _ _ _ hok => Nat.lt_succ_of_le hok) hinit hV).1
  have hlt : level < 2 ^ 21 := Nat.lt_succ_of_le hlevel
  exact ⟨evddMakenode_adopts h hlt hlow hhigh rfl, evddMakenodeRaw_adopts_iff h hlt hlow hhigh rfl⟩

/-- A session that fills its six slots with nodes that nobody holds. -/
def fullSession : List (EvddCall ℚ) :=
  .valueIntern (some 1) 0 :: (List.range 6).map fun i => .makenodeRaw (i + 1) ⟨0, 0⟩ ⟨0, 1⟩

theorem fullSession_ok : ∀ c ∈ fullSession, ∀ _ : EvddState ℚ, c.level ≤ evddMaxlevel := by
  simp only [fullSession, List.mem_cons, List.mem_map, List.mem_range]
  rintro c (rfl | ⟨i, hi, rfl⟩) _
  · exact Nat.zero_le _
  · show i + 1 ≤ 0x1FFFFF
    omega

theorem fullSession_adopts : ∃ s : EvddState ℚ, s.live 1 = true ∧ s.evddfreepos = 0 ∧
    (MadeNew s (evddMakenode (ratTypes .firstNonzero) ratPolicy s 0 ⟨1, 1⟩ ⟨0, 1⟩) →
      Adopts s ⟨1, 1⟩ ⟨0, 1⟩
        (evddMakenode (ratTypes .firstNonzero) ratPolicy s 0 ⟨1, 1⟩ ⟨0, 1⟩)) := by
  obtain ⟨s, hrun, hs⟩ : ∃ s, EvddRun (ratTypes .firstNonzero) (ratOps .firstNonzero)
      (fun _ c => c.level ≤ evddMaxlevel) ratSession s ∧
        (s.live 1 && decide (s.evddfreepos = 0)) = true :=
    evddCalls_exists ratPolicy fullSession _ fullSession_ok (by decide +kernel)
  simp only [Bool.and_eq_true, decide_eq_true_eq] at hs
  exact ⟨s, hs.1, hs.2, (evddRun_adopts ratTypes_lawfulNormalize (ratOps_lawful .firstNonzero)
    (by decide) (by decide) (ValueInv.empty (ratTypes .firstNonzero)) hrun (by decide) (Or.inr hs.1)
    (Or.inl rfl) (fun _ => true) fun _ _ => true).1⟩

/-- The slot of the child is swept, and the new node in it is its own child. -/
theorem fullSession_adopts_dead : ∃ s, EvddRun (ratTypes .firstNonzero) (ratOps .firstNonzero)
    (fun _ c => c.level ≤ evddMaxlevel) ratSession s ∧ s.live 1 = true ∧
    let r := evddMakenodeRaw (ratTypes .firstNonzero) ratPolicy s 0 ⟨1, 1⟩ ⟨0, 1⟩
    r.1.node = 1 ∧ (r.2.key 1).low = some 1 ∧ MadeNew s r ∧ ¬ Adopts s ⟨1, 1⟩ ⟨0, 1⟩ r := by
  obtain ⟨s, hrun, hs⟩ : ∃ s, EvddRun (ratTypes .firstNonzero) (ratOps .firstNonzero)
      (fun _ c => c.level ≤ evddMaxlevel) ratSession s ∧
        (let r := evddMakenodeRaw (ratTypes .firstNonzero) ratPolicy s 0 ⟨1, 1⟩ ⟨0, 1⟩
         s.live 1 && decide (r.1.node = 1 ∧ (r.2.key 1).low = some 1 ∧
           s.evddproduced < r.2.evddproduced ∧ r.2.key 1 ≠ s.key 1)) = true :=
    evddCalls_exists ratPolicy fullSession _ fullSession_ok (by decide +kernel)
  simp only [Bool.and_eq_true, decide_eq_true_eq] at hs
  obtain ⟨hlive, hnode, hlow, hnew, hkey⟩ := hs
  exact ⟨s, hrun, hlive, hnode, hlow, hnew, fun h => hkey (h.kept 1 (Or.inl rfl)).2⟩

end MoToBuddy.Evdd
