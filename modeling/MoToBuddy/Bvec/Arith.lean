import MoToBuddy.Bvec.Rules

/-!
# Sums, comparisons and products of vectors

`bvec_mul` adds the left vector, moved up a place at a time in the sum of the widths, where the bit
of the right vector is set. `bvecCalls_exact` is about all of the arithmetic and the comparisons on
vectors whose bits are referenced, in any package that is reached: collections and growth of the
table in the middle of a call change nothing.
-/

namespace MoToBuddy.Bvec

open Bdd BoolFun Exiting Package

variable {P : Type} {D : MtbddDomain P} {isPrime : ℕ → Bool}

/-! ## `bvec_mul` -/

section

variable (D isPrime)

/-- The loop of `bvec_mul`, over the bits of `right`. -/
def mulLoop : List ℕ → List ℕ → List ℕ → Prog (BddState P) (List ℕ)
  | bit :: right, res, leftshift => do
    let added ← bvecAdd D isPrime res leftshift
    let res ← replaceLoop D isPrime bit added res
    bddDelref (leftshift.getLastD 0)
    bvecFree added
    mulLoop right res (0 :: leftshift.dropLast)
  | [], res, leftshift => do
    bvecFree leftshift
    return res

/-- `bvec_mul`. -/
def bvecMul (left right : List ℕ) : Prog (BddState P) (List ℕ) := do
  if left.length = 0 ∨ right.length = 0 then return []
  else
    let bitnum := left.length + right.length
    let leftshifttmp ← bvecCopy left
    let leftshift ← bvecCoerce bitnum leftshifttmp
    bvecFree leftshifttmp
    mulLoop D isPrime right (bvecBuild bitnum false) leftshift

end

section

variable {T : Theory P} {reset : BddState P → Prop} {w : Package P} {K : ℕ → ℕ}
  {B H L R S A : Heap} {s : BddState P}

/-- The top bit is given up, and a constant comes in at the bottom. -/
theorem shift_then {β : Type} {k : Unit → Prog (BddState P) β} {Q : β → BddState P → Prop}
    (hK : Frame w K B) (pre : Heap) (hpos : 0 < S.length)
    (h : Holds T reset w K B (pre ++ (S ++ H)) s)
    (hk : ∀ S' s', nodes S' = 0 :: (nodes S).dropLast → bits S' = Bits.double Bits.zero (bits S) →
      Holds T reset w K B (pre ++ (S' ++ H)) s' → Runs Spent (k ()) s' Q) :
    Runs Spent (bddDelref ((nodes S).getLastD 0) >>= k) s Q := by
  obtain rfl | ⟨S, top, rfl⟩ := List.eq_nil_or_concat' S
  · simp at hpos
  have hlast : (nodes (S ++ [top])).getLastD 0 = top.1 := by simp
  have hH : pre ++ (S ++ [top] ++ H) = (pre ++ S) ++ top :: H := by simp
  rw [hH] at h
  rw [hlast]
  refine delref_then hK (pre ++ S) h fun s' h' _ => ?_
  refine hk ((0, Bits.zero) :: S) s' (by simp) (by simp [Bits.double]) ?_
  refine (h'.const false).perm ?_
  rw [List.append_assoc]
  exact List.perm_middle.symm

theorem mulLoop_runs (hT : T.Operates) (hK : Frame w K B) (hpos : 0 < S.length)
    (hlen : A.length = S.length) (hR : R ⊆ H ++ B) (h : Holds T reset w K B (A ++ (S ++ H)) s) :
    Runs Spent (mulLoop T.D T.isPrime (nodes R) (nodes A) (nodes S)) s
      (Makes T reset w K B H (Bits.mulAdd (bits R) (bits A) (bits S))) := by
  induction R generalizing A S s with
  | nil => exact delrefs_then hK A h fun s' h' _ => .pure ⟨A, rfl, rfl, h'⟩
  | cons bit R ih =>
    have hA : A ⊆ A ++ (S ++ H) ++ B := fun p hp =>
      List.mem_append_left B (List.mem_append_left _ hp)
    have hS : S ⊆ A ++ (S ++ H) ++ B := fun p hp =>
      List.mem_append_left B (List.mem_append_right A (List.mem_append_left H hp))
    refine (add_runs hT hK (by omega) hlen hA hS h).bind fun added s h => ?_
    obtain ⟨X, rfl, hX, h⟩ := h
    have hXlen : X.length = A.length := by
      have := Bits.length_add (l := bits A) (r := bits S) (by simpa using hlen) Bits.zero
      rw [← hX] at this
      simpa using this
    -- the sum is below the vector that it replaces
    have hperm := List.perm_append_comm_assoc X A (S ++ H)
    have hbit : bit ∈ X ++ (S ++ H) ++ B := by
      have := sub_append (sub_append hR S) X (List.mem_cons_self ..)
      exact this
    refine (replaceLoop_runs hT hK hXlen hbit (fun p hp => List.mem_append_left B
      (List.mem_append_left _ hp)) (h.perm hperm)).bind fun res s h => ?_
    obtain ⟨A', rfl, hA', h⟩ := h
    have hAlen : A'.length = S.length := by
      have := Bits.length_mux (l := bits X) (r := bits A) (by simpa using hXlen) bit.2
      rw [← hA'] at this
      simpa [hlen] using this
    rw [← List.append_assoc] at h
    refine shift_then hK (A' ++ X) hpos h fun S' s hS₁ hS₂ h => ?_
    have hSlen : S'.length = S.length := by
      have := Bits.length_double (e := bits S) (by simpa using hpos) Bits.zero
      rw [← hS₂] at this
      simpa using this
    rw [List.append_assoc] at h
    refine delrefs_then hK A' h fun s h _ => ?_
    rw [← hS₁]
    refine (ih (by omega) (by omega) (List.subset_of_cons_subset hR) h).mono fun res s h => ?_
    rw [hA', hX, hS₂] at h
    exact h

theorem mul_runs (hT : T.Operates) (hK : Frame w K B) (hl : 0 < L.length) (hr : 0 < R.length)
    (hL : L ⊆ H ++ B) (hR : R ⊆ H ++ B) (h : Holds T reset w K B H s) :
    Runs Spent (bvecMul T.D T.isPrime (nodes L) (nodes R)) s
      (Makes T reset w K B H (Bits.mulAdd (bits R) (List.replicate (L.length + R.length) Bits.zero)
        (Bits.resize (L.length + R.length) (bits L)))) := by
  unfold bvecMul bvecCopy
  rw [nodes_length, nodes_length, if_neg (by omega)]
  dsimp only
  refine (addrefs_runs hL h).bind fun tmp s h => ?_
  obtain ⟨rfl, h⟩ := h
  refine (coerce_runs (fun p hp => List.mem_append_left B (List.mem_append_left H hp)) h _).bind
    fun leftshift s h => ?_
  obtain ⟨S, rfl, hS, h⟩ := h
  refine delrefs_then hK S h fun s h _ => ?_
  obtain ⟨A, hA, hV, h⟩ := h.build (L.length + R.length) false
  have hSlen : S.length = L.length + R.length := by
    rw [← bits_length, hS, Bits.length_resize]
  have hAlen : A.length = L.length + R.length := by
    rw [← bits_length, hV, List.length_replicate]
  rw [← hA]
  refine (mulLoop_runs hT hK (by omega) (by omega) hR h).mono fun res s h => ?_
  rw [hV, hS] at h
  exact h

end

/-! ## What the calls return -/

/-- The calls on two vectors of one width. -/
structure ExactCalls (D : MtbddDomain P) (isPrime : ℕ → Bool) (reset : BddState P → Prop)
    (w : Package P) (L R : Heap) : Prop where
  add : Runs Spent (bvecAdd D isPrime (nodes L) (nodes R)) w.bdd
    (Yields D isPrime reset w L.length fun x =>
      (Bits.value (bits L) x + Bits.value (bits R) x) % 2 ^ L.length)
  sub : Runs Spent (bvecSub D isPrime (nodes L) (nodes R)) w.bdd
    (Yields D isPrime reset w L.length fun x =>
      (Bits.value (bits L) x - Bits.value (bits R) x) % 2 ^ L.length)
  lth : Runs Spent (bvecLth D isPrime (nodes L) (nodes R)) w.bdd
    (Decides D isPrime reset w fun x => Bits.value (bits L) x < Bits.value (bits R) x)
  lte : Runs Spent (bvecLte D isPrime (nodes L) (nodes R)) w.bdd
    (Decides D isPrime reset w fun x => Bits.value (bits L) x ≤ Bits.value (bits R) x)
  gth : Runs Spent (bvecGth D isPrime (nodes L) (nodes R)) w.bdd
    (Decides D isPrime reset w fun x => Bits.value (bits L) x > Bits.value (bits R) x)
  gte : Runs Spent (bvecGte D isPrime (nodes L) (nodes R)) w.bdd
    (Decides D isPrime reset w fun x => Bits.value (bits L) x ≥ Bits.value (bits R) x)
  equ : Runs Spent (bvecEqu D isPrime (nodes L) (nodes R)) w.bdd
    (Decides D isPrime reset w fun x => Bits.value (bits L) x = Bits.value (bits R) x)
  neq : Runs Spent (bvecNeq D isPrime (nodes L) (nodes R)) w.bdd
    (Decides D isPrime reset w fun x => Bits.value (bits L) x ≠ Bits.value (bits R) x)

section

variable {reset : BddState P → Prop} {w : Package P} {L R : Heap}

theorem not_decides {F : (ℕ → Bool) → Bool} {p q : (ℕ → Bool) → Prop} (h : ∀ x, F x = true ↔ p x)
    (hpq : ∀ x, ¬ p x ↔ q x) (x : ℕ → Bool) : (!F x) = true ↔ q x := by
  rw [← hpq, ← h, Bool.not_eq_true', Bool.not_eq_true]

theorem exactCalls (hw : w.Reached D isPrime reset) (hL : Operand D w.bdd L)
    (hR : Operand D w.bdd R) (hpos : 0 < L.length) (hlen : L.length = R.length) :
    ExactCalls D isPrime reset w L R := by
  obtain ⟨σ, M, B, hK, hL', hR', h⟩ := exists_reads hw hL hR
  have hT := full_operates D isPrime σ M
  have hbits : (bits L).length = (bits R).length := by simpa using hlen
  constructor
  · refine (add_runs hT hK hpos hlen hL' hR' h).mono fun res s h => h.yields ?_ fun x => ?_
    · rw [Bits.length_add hbits, bits_length]
    · rw [Bits.value_add hbits, bits_length]
      push_cast
      rfl
  · refine (sub_runs hT hK hpos hlen hL' hR' h).mono fun res s h => h.yields ?_ fun x => ?_
    · rw [Bits.length_sub hbits, bits_length]
    · rw [Bits.value_sub_mod hbits, bits_length]
  · exact (lth_runs hT hK hpos hlen hL' hR' h).mono fun n s h => h.decides (Bits.lt_iff hbits)
  · exact (lte_runs hT hK hpos hlen hL' hR' h).mono fun n s h => h.decides (Bits.le_iff hbits)
  · exact (negated_runs hT hK (lte_runs hT hK hpos hlen hL' hR' h)).mono fun n s h =>
      h.decides (not_decides (Bits.le_iff hbits) fun x => Nat.not_le)
  · exact (negated_runs hT hK (lth_runs hT hK hpos hlen hL' hR' h)).mono fun n s h =>
      h.decides (not_decides (Bits.lt_iff hbits) fun x => Nat.not_lt)
  · exact (equ_runs hT hK hpos hlen hL' hR' h).mono fun n s h =>
      h.decides fun x => by rw [Bits.equal_iff hbits]; simp
  · exact (negated_runs hT hK (equ_runs hT hK hpos hlen hL' hR' h)).mono fun n s h =>
      h.decides (not_decides (fun x => by rw [Bits.equal_iff hbits]; simp) fun x => Iff.rfl)

/-- Sums, differences and comparisons of vectors of one width are those of their values, and so is
the product of vectors of any two widths. -/
theorem bvecCalls_exact (hw : w.Reached D isPrime reset) (hL : Operand D w.bdd L)
    (hR : Operand D w.bdd R) (hl : 0 < L.length) (hr : 0 < R.length) :
    (L.length = R.length → ExactCalls D isPrime reset w L R) ∧
      Runs Spent (bvecMul D isPrime (nodes L) (nodes R)) w.bdd
        (Yields D isPrime reset w (L.length + R.length) fun x =>
          Bits.value (bits L) x * Bits.value (bits R) x) := by
  refine ⟨exactCalls hw hL hR hl, ?_⟩
  obtain ⟨σ, M, B, hK, hL', hR', h⟩ := exists_reads hw hL hR
  refine (mul_runs (full_operates D isPrime σ M) hK hl hr hL' hR' h).mono
    fun res s h => h.yields ?_ fun x => ?_
  · rw [Bits.length_mulAdd (by simp; omega) (by simp), Bits.length_resize]
  · have hmul := Bits.value_mul (l := bits L) (r := bits R) (by simpa using hl) x
    rw [bits_length, bits_length] at hmul
    rw [hmul]
    push_cast
    rfl

end

theorem bvecCalls_two :
    ExactCalls intDomain trialDivision (fun _ => True) Package.twoVariables twoBits oddBits ∧
      Runs Spent (bvecMul intDomain trialDivision (nodes twoBits) (nodes oddBits))
        Package.twoVariables.bdd (Yields intDomain trialDivision (fun _ => True)
          Package.twoVariables 4 fun x =>
            Bits.value (bits twoBits) x * Bits.value (bits oddBits) x) := by
  have h := bvecCalls_exact (twoVariables_reached fun _ => True) twoBits_operand oddBits_operand
    (by decide) (by decide)
  exact ⟨h.1 rfl, h.2⟩

end MoToBuddy.Bvec
