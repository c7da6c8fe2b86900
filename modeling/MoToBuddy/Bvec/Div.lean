import MoToBuddy.Bvec.Rules

/-!
# `bvec_div`

Division of a vector by a vector, in twice their width: the divisor starts above the dividend and
moves down one place a pass, and is subtracted where it is not larger than what is left. The vectors
that the caller gives for the result and the remainder are freed at the end.
-/

namespace MoToBuddy.Bvec

open Bdd BoolFun Exiting Package

variable {P : Type} {D : MtbddDomain P} {isPrime : ℕ → Bool}

section

variable (D isPrime)

/-- A pass of the loop of `bvec_div`: the new `res`, `rem` and `div`. -/
def divPass (bitnum : ℕ) (acc : List ℕ × List ℕ × List ℕ) (n : ℕ) :
    Prog (BddState P) (List ℕ × List ℕ × List ℕ) := do
  let (res, rem, div) := acc
  let divLteRem ← bddAddref (← bvecLte D isPrime div rem)
  let remSubDiv ← bvecSub D isPrime rem div
  let rem ← replaceLoop D isPrime divLteRem remSubDiv rem
  let res := if n > 0 then res.set (bitnum - n) divLteRem else res
  bddDelref (div.headD 0)
  bvecFree remSubDiv
  return (res, rem, div.tail ++ [0])

/-- `bvec_div`: what `result` and `remainder` are afterwards, from what they are before. -/
def bvecDiv (left right result remainder : List ℕ) : Prog (BddState P) (List ℕ × List ℕ) := do
  let bitnum := left.length + right.length
  if left.length = 0 ∨ right.length = 0 ∨ left.length ≠ right.length then bddError .bvecSize
  else
    let rem ← bvecCoerce bitnum left
    let divtmp ← bvecCoerce bitnum right
    let div ← bvecShlfixed divtmp left.length 0
    bvecFree divtmp
    let (res, rem, _) ← (List.range (right.length + 1)).foldlM (divPass D isPrime right.length)
      (bvecBuild right.length false, rem, div)
    bvecFree result
    bvecFree remainder
    let low ← bvecCoerce right.length rem
    bvecFree rem
    return (res, low)

end

section

variable {T : Theory P} {reset : BddState P → Prop} {w : Package P} {K : ℕ → ℕ}
  {B H A S : Heap} {s : BddState P}

/-- The bottom bit is given up, and a constant comes in at the top. -/
theorem shiftDown_then {β : Type} {k : Unit → Prog (BddState P) β} {Q : β → BddState P → Prop}
    (hK : Frame w K B) (pre : Heap) (hpos : 0 < S.length)
    (h : Holds T reset w K B (pre ++ (S ++ H)) s)
    (hk : ∀ S' s', nodes S' = (nodes S).tail ++ [0] → bits S' = Bits.half (bits S) →
      Holds T reset w K B (pre ++ (S' ++ H)) s' → Runs Spent (k ()) s' Q) :
    Runs Spent (bddDelref ((nodes S).headD 0) >>= k) s Q := by
  cases S with
  | nil => simp at hpos
  | cons p S =>
    refine delref_then hK pre h fun s' h' _ => ?_
    refine hk (S ++ [(0, Bits.zero)]) s' (by simp) (by simp [Bits.half]) ?_
    have hperm : ((0, Bits.zero) :: (pre ++ (S ++ H))).Perm
        (pre ++ (S ++ [(0, Bits.zero)] ++ H)) := by
      simpa using (@List.perm_middle _ (0, Bits.zero) (pre ++ S) H).symm
    exact (h'.const false).perm hperm

/-- A pass of the loop. -/
theorem divPass_runs (hT : T.Operates) (hK : Frame w K B) (hpos : 0 < S.length)
    (hlen : A.length = S.length) (h : Holds T reset w K B (S ++ (A ++ H)) s) (N n : ℕ)
    (res : List ℕ) :
    Runs Spent (divPass T.D T.isPrime N (res, nodes A, nodes S) n) s fun acc s' =>
      ∃ q A' S', acc = (if n > 0 then res.set (N - n) q else res, nodes A', nodes S') ∧
        bits A' = Bits.reduce (bits S) (bits A) ∧ bits S' = Bits.half (bits S) ∧
        Holds T reset w K B
          (S' ++ (A' ++ (q, Bits.less (bits S) (bits A) Bits.one) :: H)) s' := by
  unfold Bits.reduce
  have hS : ∀ p ∈ S, p ∈ S ++ (A ++ H) ++ B := fun p hp => by simp [hp]
  have hA : ∀ p ∈ A, p ∈ S ++ (A ++ H) ++ B := fun p hp => by simp [hp]
  refine (lte_runs hT hK hpos hlen.symm hS hA h).bind fun q s h => ?_
  generalize Bits.less (bits S) (bits A) Bits.one = F at h ⊢
  refine (addref_runs h.1 h.2).bind fun m s h => ?_
  obtain ⟨rfl, h⟩ := h
  refine (sub_runs hT hK (by omega) hlen (sub_cons hA _) (sub_cons hS _) h).bind
    fun remSubDiv s h => ?_
  obtain ⟨X, rfl, hX, h⟩ := h
  have hXlen : X.length = A.length := by
    have hsub := Bits.length_sub (l := bits A) (r := bits S) (by simpa using hlen) Bits.zero
    rw [← hX] at hsub
    simpa using hsub
  have hperm : (X ++ (m, F) :: (S ++ (A ++ H))).Perm (A ++ (X ++ (m, F) :: (S ++ H))) := by
    simpa using List.perm_append_comm_assoc (X ++ (m, F) :: S) A H
  have hq : (m, F) ∈ X ++ (m, F) :: (S ++ H) ++ B := by simp
  refine (replaceLoop_runs hT hK hXlen hq (fun p hp => by simp [hp]) (h.perm hperm)).bind
    fun rem s h => ?_
  obtain ⟨A', rfl, hA', h⟩ := h
  have hassoc : A' ++ (X ++ (m, F) :: (S ++ H)) = (A' ++ (X ++ [(m, F)])) ++ (S ++ H) := by simp
  rw [hassoc] at h
  refine shiftDown_then hK _ hpos h fun S' s hS₁ hS₂ h => ?_
  rw [List.append_assoc, List.append_assoc] at h
  refine delrefs_then hK A' h fun s h _ => .pure ⟨m, A', S', by rw [hS₁], ?_, hS₂, h.perm ?_⟩
  · rw [hA', hX]
  · simpa using List.perm_append_comm_assoc (A' ++ [(m, F)]) S' H

/-! ## The loop -/

/-- The next bit goes below those found so far. -/
theorem set_zeros (k : ℕ) (found : List ℕ) (q : ℕ) :
    (bvecBuild (k + 1) false ++ found).set k q = bvecBuild k false ++ q :: found := by
  unfold bvecBuild
  rw [List.replicate_succ', List.append_assoc, List.set_append_right _ _ (by simp)]
  simp

/-- What the loop has before pass `n`: the bits found so far, what is left, the moved divisor, and
references that are not given back. -/
structure Divided (T : Theory P) (reset : BddState P → Prop) (w : Package P) (K : ℕ → ℕ)
    (B H L R : Heap) (n : ℕ) (acc : List ℕ × List ℕ × List ℕ) (s : BddState P)
    (F A S Y : Heap) : Prop where
  acc : acc = (bvecBuild (R.length - (n - 1)) false ++ nodes F, nodes A, nodes S)
  found : F.length = n - 1
  rem : A.length = 2 * R.length
  div : S.length = 2 * R.length
  division : ∀ x, 0 < Bits.value (bits R) x → Bits.LongDivision R.length (Bits.value (bits R) x)
    (Bits.value (bits L) x) x n (bits F) (bits A) (bits S)
  holds : Holds T reset w K B (S ++ (A ++ (F ++ (Y ++ H)))) s

section

variable {L R F Y : Heap} {n : ℕ} {acc : List ℕ × List ℕ × List ℕ}

theorem Divided.pass (hT : T.Operates) (hK : Frame w K B) (hpos : 0 < R.length)
    (hlen : L.length = R.length) (hn : n ≤ R.length)
    (h : Divided T reset w K B H L R n acc s F A S Y) :
    Runs Spent (divPass T.D T.isPrime R.length acc n) s fun acc s' =>
      ∃ F A S Y, Divided T reset w K B H L R (n + 1) acc s' F A S Y := by
  obtain ⟨rfl, hF, hA, hS, hdiv, h⟩ := h
  refine (divPass_runs hT hK (by omega) (by omega) h _ n _).mono fun acc s h => ?_
  obtain ⟨q, A', S', rfl, hA', hS', h⟩ := h
  have hAlen : A'.length = 2 * R.length := by
    have := @Bits.length_reduce _ (bits A) (bits S) (by simp; omega)
    rw [← hA', bits_length, bits_length] at this
    omega
  have hSlen : S'.length = 2 * R.length := by
    have := Bits.length_half (e := bits S) (by simp; omega)
    rw [← hS', bits_length, bits_length] at this
    omega
  have hstep := fun x hx => (hdiv x hx).step (by simp; omega) (by simp; omega) hx hn
  rw [← hA', ← hS'] at hstep
  cases n with
  | zero =>
    -- the first comparison is not kept, and its reference is not given back
    have hnil : F = [] := List.length_eq_zero_iff.mp hF
    subst hnil
    refine ⟨[], A', S', (q, _) :: Y, rfl, rfl, hAlen, hSlen, fun x hx => ?_, h⟩
    have hv := Bits.value_lt (bits L) x
    rw [bits_length, hlen] at hv
    exact (hstep x hx).skip hv hx
  | succ n =>
    refine ⟨(q, _) :: F, A', S', Y, ?_, by simp [hF], hAlen, hSlen, hstep, h⟩
    rw [if_pos (Nat.succ_pos n), Nat.add_sub_cancel, Nat.add_sub_cancel,
      show R.length - n = R.length - (n + 1) + 1 by omega, set_zeros]
    rfl

/-- The passes from `n` on. -/
theorem Divided.passes (hT : T.Operates) (hK : Frame w K B) (hpos : 0 < R.length)
    (hlen : L.length = R.length) (k : ℕ) (hn : n + k = R.length + 1)
    (h : Divided T reset w K B H L R n acc s F A S Y) :
    Runs Spent ((List.range' n k).foldlM (divPass T.D T.isPrime R.length) acc) s fun acc s' =>
      ∃ F A S Y, Divided T reset w K B H L R (R.length + 1) acc s' F A S Y := by
  induction k generalizing n acc s F A S Y with
  | zero =>
    have hend : n = R.length + 1 := by omega
    subst hend
    exact .pure ⟨F, A, S, Y, h⟩
  | succ k ih =>
    rw [List.range'_succ, List.foldlM_cons]
    refine (h.pass hT hK hpos hlen (by omega)).bind fun acc s h => ?_
    obtain ⟨F, A, S, Y, h⟩ := h
    exact ih (by omega) h

end

/-! ## The division -/

theorem div_runs (hT : T.Operates) (hK : Frame w K B) {L R O₁ O₂ : Heap} (hpos : 0 < L.length)
    (hlen : L.length = R.length) (hL : L ⊆ O₁ ++ (O₂ ++ H) ++ B) (hR : R ⊆ O₁ ++ (O₂ ++ H) ++ B)
    (h : Holds T reset w K B (O₁ ++ (O₂ ++ H)) s) :
    Runs Spent (bvecDiv T.D T.isPrime (nodes L) (nodes R) (nodes O₁) (nodes O₂)) s fun out s' =>
      ∃ F A Y, out = (nodes F, nodes A) ∧ F.length = L.length ∧ A.length = L.length ∧
        (∀ x, Bits.value (bits R) x ≠ 0 →
          Bits.value (bits F) x = Bits.value (bits L) x / Bits.value (bits R) x ∧
          Bits.value (bits A) x = Bits.value (bits L) x % Bits.value (bits R) x) ∧
        Holds T reset w K B (F ++ (A ++ (Y ++ H))) s' := by
  unfold bvecDiv
  dsimp only
  rw [nodes_length, nodes_length, if_neg (by omega)]
  refine (coerce_runs hL h _).bind fun rem s h => ?_
  obtain ⟨A, rfl, hA, h⟩ := h
  refine (coerce_runs (sub_append hR A) h _).bind fun divtmp s h => ?_
  obtain ⟨X, rfl, hX, h⟩ := h
  have hXlen : X.length = L.length + R.length := by
    rw [← bits_length, hX, Bits.length_resize]
  have hAlen : A.length = L.length + R.length := by
    rw [← bits_length, hA, Bits.length_resize]
  have hzero := h.const false
  refine (shlfixed_runs (C := Bits.zero) (fun p hp => by simp [hp]) (.head _) (by omega) hzero
    _).bind
    fun div s h => ?_
  replace h := h.unconst
  obtain ⟨rfl, h⟩ := h
  generalize hS : List.replicate (min X.length L.length) (0, Bits.zero) ++
    X.take (X.length - min X.length L.length) = S at h
  replace hS : bits S = List.replicate (min X.length L.length) Bits.zero ++
      (bits X).take (X.length - min X.length L.length) := by
    rw [← hS, bits_append, bits_replicate, bits_take]
  refine delrefs_then hK S h fun s h _ => ?_
  have hstart : Divided T reset w K B (O₁ ++ (O₂ ++ H)) L R 0
      (bvecBuild R.length false, nodes A, nodes S) s [] A S [] := by
    have hSlen : S.length = X.length := by
      rw [← bits_length, hS]
      simp
    refine ⟨by simp, rfl, by omega, by omega, fun x hx => ?_, h⟩
    have hl := Bits.value_lt (bits L) x
    have hr := Bits.value_lt (bits R) x
    have hwide : 2 ^ (L.length + R.length) = 2 ^ R.length * 2 ^ R.length := by
      rw [hlen, pow_add]
    have hle : 2 ^ R.length ≤ 2 ^ R.length * 2 ^ R.length :=
      Nat.le_mul_of_pos_left _ (by positivity)
    rw [bits_length] at hl hr
    refine .start hx (hlen ▸ hl) ?_ ?_
    · rw [hS, ← bits_length X, Bits.value_shift, hX, Bits.value_resize, Bits.length_resize, hwide,
        hlen, Nat.mod_eq_of_lt (hr.trans_le hle),
        Nat.mod_eq_of_lt (Nat.mul_lt_mul_of_pos_right hr (by positivity))]
    · rw [hA, Bits.value_resize, hwide, Nat.mod_eq_of_lt]
      exact (hlen ▸ hl).trans_le hle
  rw [List.range_eq_range']
  refine (hstart.passes hT hK (by omega) hlen (R.length + 1) (Nat.zero_add _)).bind
    fun acc s h => ?_
  obtain ⟨F, A, S, Y, rfl, hF, hA, -, hdiv, h⟩ := h
  -- the old vectors are freed, and what is left is cut to the width of the divisor
  have hassoc : S ++ (A ++ (F ++ (Y ++ (O₁ ++ (O₂ ++ H))))) =
      (S ++ (A ++ (F ++ Y))) ++ (O₁ ++ (O₂ ++ H)) := by simp
  rw [hassoc] at h
  refine delrefs_then hK _ h fun s h _ => ?_
  refine delrefs_then hK _ h fun s h _ => ?_
  refine (coerce_runs (L := A) (fun p hp => by simp [hp]) h _).bind fun low s h => ?_
  obtain ⟨X, rfl, hX, h⟩ := h
  have hassoc : X ++ (S ++ (A ++ (F ++ Y)) ++ H) = (X ++ S) ++ (A ++ (F ++ (Y ++ H))) := by simp
  rw [hassoc] at h
  refine delrefs_then hK _ h fun s h _ => .pure ?_
  have hXlen : X.length = R.length := by rw [← bits_length, hX, Bits.length_resize]
  refine ⟨F, X, S ++ Y, by simp [bvecBuild], by omega, by omega, fun x hx => ?_, h.perm ?_⟩
  · obtain ⟨hquot, hrem⟩ := (hdiv x (Nat.pos_of_ne_zero hx)).final
    have hr := Bits.value_lt (bits R) x
    rw [bits_length] at hr
    refine ⟨hquot, ?_⟩
    rw [hX, Bits.value_resize, hrem, Nat.mod_eq_of_lt]
    exact (Nat.mod_lt _ (Nat.pos_of_ne_zero hx)).trans hr
  · simpa using List.perm_append_comm_assoc (X ++ S) F (Y ++ H)

end

section

variable {reset : BddState P → Prop} {w : Package P} {L R O₁ O₂ : Heap}

/-- `bvec_div` divides wherever the divisor is not zero. The caller has a reference to each bit of
the old vectors `O₁` and `O₂`, which may be those of the operands. -/
theorem bvecDiv_exact (hw : w.Reached D isPrime reset) (hL : Operand D w.bdd L)
    (hR : Operand D w.bdd R) (hpos : 0 < L.length) (hlen : L.length = R.length)
    (hO : ∀ p ∈ O₁ ++ O₂, w.bdd.Represents D p.1 p.2)
    (hcov : w.bdd.Covers (nodes (O₁ ++ O₂) ++ w.entries)) :
    Runs Spent (bvecDiv D isPrime (nodes L) (nodes R) (nodes O₁) (nodes O₂)) w.bdd fun out s =>
      Returned D isPrime reset w s ∧ ∃ F A, out = (nodes F, nodes A) ∧ Operand D s F ∧
        Operand D s A ∧ F.length = L.length ∧ A.length = L.length ∧
        ∀ x, Bits.value (bits R) x ≠ 0 →
          Bits.value (bits F) x = Bits.value (bits L) x / Bits.value (bits R) x ∧
          Bits.value (bits A) x = Bits.value (bits L) x % Bits.value (bits R) x := by
  have hoperand : Operand D w.bdd (L ++ R) := fun p hp =>
    (List.mem_append.mp hp).elim (hL p) (hR p)
  obtain ⟨σ, M, B, hK, hsub, h⟩ := exists_holds hw hO hcov hoperand
  have hO₂ : O₁ ++ O₂ = O₁ ++ (O₂ ++ []) := by simp
  rw [hO₂] at h hK hsub
  refine (div_runs (full_operates D isPrime σ M) hK hpos hlen
    (fun p hp => hsub (List.mem_append_left R hp)) (fun p hp => hsub (List.mem_append_right L hp))
    h).mono fun out s h => ?_
  obtain ⟨F, A, Y, rfl, hF, hA, hval, h⟩ := h
  refine ⟨h.returned, F, A, rfl, h.operand, ?_, hF, hA, hval⟩
  exact (h.perm (List.perm_append_comm_assoc F A (Y ++ []))).operand

end

/-- A quotient and a remainder that take the place of the operands. -/
theorem bvecDiv_two :
    Runs Spent (bvecDiv intDomain trialDivision (nodes twoBits) (nodes oddBits) (nodes twoBits)
      (nodes oddBits)) Package.twoVariables.bdd fun out s =>
        Returned intDomain trialDivision (fun _ => True) Package.twoVariables s ∧
        ∃ F A, out = (nodes F, nodes A) ∧ Operand intDomain s F ∧ Operand intDomain s A ∧
          F.length = 2 ∧ A.length = 2 ∧ ∀ x, Bits.value (bits oddBits) x ≠ 0 →
            Bits.value (bits F) x = Bits.value (bits twoBits) x / Bits.value (bits oddBits) x ∧
            Bits.value (bits A) x = Bits.value (bits twoBits) x % Bits.value (bits oddBits) x := by
  have hw := twoVariables_reached fun _ => True
  refine bvecDiv_exact hw twoBits_operand oddBits_operand (by decide) rfl
    (fun p hp => (List.mem_append.mp hp).elim (fun h => (twoBits_operand p h).1)
      fun h => (oddBits_operand p h).1)
    (twoVariables_covers ?_)
  decide

end MoToBuddy.Bvec
