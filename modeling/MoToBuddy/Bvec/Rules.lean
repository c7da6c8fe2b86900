import MoToBuddy.Bvec.Basic

/-!
# What the vector functions compute

Each function has a rule: from a state where its operands are held or read, what it returns
represents the arithmetic of `Bits` on the functions of the operands, with a reference to each bit
of a vector, and every other reference is as it was.
-/

namespace MoToBuddy.Bvec

open Bdd BoolFun Exiting Package

variable {P : Type} {T : Theory P} {reset : BddState P → Prop} {w : Package P} {K : ℕ → ℕ}
  {B H L R X : Heap} {s : BddState P} {a c n : ℕ} {C F : (ℕ → Bool) → Bool}
  {p : ℕ × ((ℕ → Bool) → Bool)}

/-- A vector with the functions `V` was made. -/
def Makes (T : Theory P) (reset : BddState P → Prop) (w : Package P) (K : ℕ → ℕ) (B H : Heap)
    (V : List ((ℕ → Bool) → Bool)) (v : List ℕ) (s : BddState P) : Prop :=
  ∃ X, nodes X = v ∧ bits X = V ∧ Holds T reset w K B (X ++ H) s

/-- A node with the function `F` was found. -/
def Finds (T : Theory P) (reset : BddState P → Prop) (w : Package P) (K : ℕ → ℕ) (B H : Heap)
    (F : (ℕ → Bool) → Bool) (n : ℕ) (s : BddState P) : Prop :=
  Holds T reset w K B H s ∧ s.Represents T.D n F

/-! ## References to vectors -/

/-- More is held. -/
theorem sub_cons (h : L ⊆ H ++ B) (p : ℕ × ((ℕ → Bool) → Bool)) : L ⊆ p :: H ++ B :=
  List.subset_cons_of_subset p h

/-- What is read may be below anything that is held. -/
theorem sub_append (h : L ⊆ H ++ B) (X : Heap) : L ⊆ X ++ H ++ B := fun p hp => by
  rw [List.append_assoc]
  exact List.mem_append_right X (h hp)

/-- References to nodes that are held or read. -/
theorem addrefs_runs (hX : X ⊆ H ++ B) (h : Holds T reset w K B H s) :
    Runs Spent (bvecAddref (nodes X)) s fun v s' =>
      v = nodes X ∧ Holds T reset w K B (X ++ H) s' := by
  induction X generalizing H s with
  | nil => exact .pure ⟨rfl, h⟩
  | cons p X ih =>
    refine (addref_runs h (h.represents p (hX (List.mem_cons_self ..)))).bind fun n s' h' => ?_
    obtain ⟨rfl, h'⟩ := h'
    have hX' : X ⊆ p :: H ++ B := sub_cons (List.subset_of_cons_subset hX) p
    refine (ih hX' h').bind fun v s'' h'' => .pure ⟨?_, h''.2.perm List.perm_middle⟩
    rw [h''.1]
    rfl

/-- The references to a vector are given back, wherever they are in the heap. -/
theorem delrefs_runs (hK : Frame w K B) {pre : Heap} (h : Holds T reset w K B (pre ++ (X ++ H)) s) :
    Runs Spent (bvecDelref (nodes X)) s fun _ s' =>
      Holds T reset w K B (pre ++ H) s' ∧ Survives T.D s s' := by
  induction X generalizing s with
  | nil => exact .pure ⟨h, .refl s⟩
  | cons p X ih =>
    refine (delref_runs hK h).bind fun _ s' h' => ?_
    exact (ih h'.1).mono fun _ s'' h'' => ⟨h''.1, h'.2.trans h''.2⟩

theorem delrefs_then {β : Type} {k : Unit → Prog (BddState P) β} {Q : β → BddState P → Prop}
    (hK : Frame w K B) (pre : Heap) (h : Holds T reset w K B (pre ++ (X ++ H)) s)
    (hk : ∀ s', Holds T reset w K B (pre ++ H) s' → Survives T.D s s' → Runs Spent (k ()) s' Q) :
    Runs Spent (bvecDelref (nodes X) >>= k) s Q :=
  (delrefs_runs hK h).bind fun _ s' h' => hk s' h'.1 h'.2

/-! ### Of others -/

theorem addrefs_tallied (hs : Good T s) (hok : s.Ok) (hX : ∀ p ∈ X, s.Represents T.D p.1 p.2) :
    Runs Spent (bvecAddref (nodes X)) s fun v s' => v = nodes X ∧ s'.Ok ∧ Tallied T s X [] s' := by
  induction X generalizing s with
  | nil => exact .pure ⟨rfl, hok, .refl hs⟩
  | cons p X ih =>
    have hstep := addref_tallied hs (hX p (List.mem_cons_self ..))
    have hok' : (Bdd.bddAddref s p.1).Ok := (bddAddref_ok s p.1).mpr hok
    have hrun : Runs Spent (bddAddref p.1) s fun n s' => n = p.1 ∧ s' = Bdd.bddAddref s p.1 :=
      reporting_runs (f := fun s => some (p.1, Bdd.bddAddref s p.1)) rfl (fun _ => hstep.told)
        fun _ => ⟨rfl, rfl⟩
    refine hrun.bind fun n s' h => ?_
    obtain ⟨rfl, rfl⟩ := h
    refine (ih hstep.good hok' fun q hq =>
      hstep.survives.represents (hX q (.tail _ hq))).bind fun v s'' h => .pure ?_
    exact ⟨by rw [h.1]; rfl, h.2.1, hstep.trans h.2.2⟩

theorem delref_alone (hs : Good T s) (hok : s.Ok) (hp : s.Represents T.D p.1 p.2)
    (hpos : 2 ≤ p.1 → 0 < (s.bddnodes p.1).refcou) :
    Runs Spent (bddDelref p.1) s fun _ s' => s'.Ok ∧ Tallied T s [] [p] s' := by
  have htally := delref_tallied hs hp hpos
  exact reporting_runs (f := fun s => some ((), Bdd.bddDelref s p.1)) rfl (fun _ => htally.told)
    fun hok' => ⟨hok', htally⟩

/-- References that are there are given back with no report. -/
theorem delrefs_tallied (hs : Good T s) (hok : s.Ok) (hX : ∀ p ∈ X, s.Represents T.D p.1 p.2)
    (hcov : s.Covers (nodes X)) :
    Runs Spent (bvecDelref (nodes X)) s fun _ s' => s'.Ok ∧ Tallied T s [] X s' := by
  induction X generalizing s with
  | nil => exact .pure ⟨hok, .refl hs⟩
  | cons p X ih =>
    have hcount : ∀ n, 2 ≤ n → maxref ≤ (s.bddnodes n).refcou ∨
        (if p.1 = n then 1 else 0) + refs X n ≤ (s.bddnodes n).refcou := fun n hn => by
      rw [← refs_cons]
      exact hcov n hn
    have hpos : 2 ≤ p.1 → 0 < (s.bddnodes p.1).refcou := fun h2 => by
      have hmax : 0 < maxref := by decide
      have := hcount p.1 h2
      rw [if_pos rfl] at this
      omega
    refine (delref_alone hs hok (hX p (List.mem_cons_self ..)) hpos).bind fun _ s' h => ?_
    obtain ⟨hok', hstep⟩ := h
    refine (ih hstep.good hok' (fun q hq => hstep.survives.represents (hX q (.tail _ hq)))
      fun n hn => ?_).mono fun _ s'' h => ⟨h.1, hstep.trans h.2⟩
    have := hcount n hn
    have hc := hstep.counts n hn
    have := hstep.saturated n hn
    rw [refs_cons, refs_nil] at hc
    change _ ∨ refs X n ≤ _
    omega

theorem covers_small {L : List ℕ} (hL : ∀ n ∈ L, n < 2) : s.Covers L := fun n hn => by
  have hcount : L.count n = 0 := List.count_eq_zero.mpr fun h => by
    have := hL n h
    omega
  omega

/-! ## Constants -/

theorem Holds.build (h : Holds T reset w K B H s) (n : ℕ) (b : Bool) :
    ∃ X, nodes X = bvecBuild n b ∧ bits X = List.replicate n (fun _ => b) ∧
      Holds T reset w K B (X ++ H) s := by
  refine ⟨List.replicate n (b.toNat, fun _ => b), by simp [bvecBuild], by simp, ?_⟩
  induction n with
  | zero => exact h
  | succ n ih => exact ih.const b

/-- A vector of constants. -/
def Constants (X : Heap) : Prop := ∀ p ∈ X, ∃ b : Bool, p = (b.toNat, fun _ => b)

theorem Constants.cons (h : Constants X) (b : Bool) : Constants ((b.toNat, fun _ => b) :: X) :=
  List.forall_mem_cons.mpr ⟨⟨b, rfl⟩, h⟩

theorem Holds.con (h : Holds T reset w K B H s) (n c : ℕ) :
    ∃ X, nodes X = bvecCon n c ∧ bits X = Bits.ofNat n c ∧ Constants X ∧
      Holds T reset w K B (X ++ H) s := by
  induction n generalizing c with
  | zero => exact ⟨[], rfl, rfl, fun _ hp => absurd hp List.not_mem_nil, h⟩
  | succ n ih =>
    obtain ⟨X, hX, hV, hconst, h'⟩ := ih (c / 2)
    have hshift : c >>> 1 = c / 2 := Nat.shiftRight_one c
    by_cases hc : c % 2 = 1
    · refine ⟨(1, Bits.one) :: X, ?_, ?_, hconst.cons true, h'.const true⟩
      · rw [bvecCon, if_pos hc, hshift, ← hX]
        rfl
      · rw [Bits.ofNat, if_pos hc, ← hV]
        rfl
    · refine ⟨(0, Bits.zero) :: X, ?_, ?_, hconst.cons false, h'.const false⟩
      · rw [bvecCon, if_neg hc, hshift, ← hX]
        rfl
      · rw [Bits.ofNat, if_neg hc, ← hV]
        rfl

/-! ## Widths and moves -/

theorem coerce_runs (hL : L ⊆ H ++ B) (h : Holds T reset w K B H s) (n : ℕ) :
    Runs Spent (bvecCoerce n (nodes L)) s
      (Makes T reset w K B H (Bits.resize n (bits L))) := by
  have hsub : L.take n ⊆ H ++ B := fun p hp => hL (List.mem_of_mem_take hp)
  unfold bvecCoerce
  rw [← nodes_take, nodes_length]
  refine (addrefs_runs hsub h).bind fun v s' h' => .pure ?_
  obtain ⟨X, hX, hV, h''⟩ := h'.2.build (n - L.length) false
  refine ⟨L.take n ++ X, ?_, ?_, ?_⟩
  · rw [nodes_append, hX, h'.1]
  · rw [bits_append, hV, bits_take, Bits.resize, bits_length]
    rfl
  · refine h''.perm ?_
    rw [← List.append_assoc]
    exact List.perm_append_comm.append_right H

/-- A vector was copied, with a reference to each bit. -/
def Copies (T : Theory P) (reset : BddState P → Prop) (w : Package P) (K : ℕ → ℕ) (B H X : Heap)
    (v : List ℕ) (s : BddState P) : Prop :=
  v = nodes X ∧ Holds T reset w K B (X ++ H) s

/-- A move up: `c` comes in at the bottom. -/
theorem shlfixed_runs (hL : L ⊆ H ++ B) (hc : (c, C) ∈ H ++ B) (hpos : 0 < L.length)
    (h : Holds T reset w K B H s) (pos : ℕ) :
    Runs Spent (bvecShlfixed (nodes L) pos c) s (Copies T reset w K B H
      (List.replicate (min L.length pos) (c, C) ++ L.take (L.length - min L.length pos))) := by
  have hlow : List.replicate (min L.length pos) (c, C) ⊆ H ++ B := fun p hp => by
    rw [(List.mem_replicate.mp hp).2]
    exact hc
  have hhigh : L.take (L.length - min L.length pos) ⊆
      List.replicate (min L.length pos) (c, C) ++ H ++ B := fun p hp => by
    rw [List.append_assoc]
    exact List.mem_append_right _ (hL (List.mem_of_mem_take hp))
  unfold bvecShlfixed
  rw [if_neg (by omega), nodes_length, if_neg (by omega), Int.toNat_natCast]
  dsimp only
  rw [← nodes_take, ← nodes_replicate _ (c, C)]
  refine (addrefs_runs hlow h).bind fun v s' h' => ?_
  refine (addrefs_runs hhigh h'.2).bind fun v' s'' h'' => .pure ⟨?_, h''.2.perm ?_⟩
  · rw [h'.1, h''.1, nodes_append]
  · rw [← List.append_assoc]
    exact List.perm_append_comm.append_right H

theorem shlfixed_one_runs (hL : L ⊆ H ++ B) (hc : (c, C) ∈ H ++ B) (hpos : 0 < L.length)
    (h : Holds T reset w K B H s) :
    Runs Spent (bvecShlfixed (nodes L) 1 c) s (Copies T reset w K B H ((c, C) :: L.dropLast)) := by
  have hone : (c, C) :: L.dropLast = List.replicate (min L.length 1) (c, C) ++
      L.take (L.length - min L.length 1) := by
    rw [Nat.min_eq_right hpos, List.dropLast_eq_take]
    rfl
  rw [hone]
  exact shlfixed_runs hL hc hpos h 1

/-- A constant that is moved in is not counted. -/
theorem Makes.unconst {b : Bool} {V : List ((ℕ → Bool) → Bool)} {v : List ℕ}
    (h : Makes T reset w K B ((b.toNat, F) :: H) V v s) : Makes T reset w K B H V v s := by
  obtain ⟨X, hX, hV, h⟩ := h
  refine ⟨X, hX, hV, Holds.unconst (F := F) (b := b) (h.perm ?_)⟩
  exact List.perm_middle

theorem Copies.unconst {b : Bool} {v : List ℕ}
    (h : Copies T reset w K B ((b.toNat, F) :: H) X v s) : Copies T reset w K B H X v s :=
  ⟨h.1, Holds.unconst (F := F) (b := b) (h.2.perm List.perm_middle)⟩

/-! ## Addition -/

/-- One place of the addition, and the places above it. -/
theorem addLoop_runs (hT : T.Operates) (hK : Frame w K B) (hlen : L.length = R.length)
    (hL : L ⊆ H ++ B) (hR : R ⊆ H ++ B) (h : Holds T reset w K B ((c, C) :: H) s) :
    Runs Spent (addLoop T.D T.isPrime (nodes L) (nodes R) c) s
      (Makes T reset w K B H (Bits.add (bits L) (bits R) C)) := by
  induction L generalizing R c C H s with
  | nil => exact delref_then hK [] h fun s' h' _ => .pure ⟨[], rfl, by simp [Bits.add], h'⟩
  | cons l L ih =>
    cases R with
    | nil => simp at hlen
    | cons r R =>
      have hl : l ∈ H ++ B := hL (List.mem_cons_self ..)
      have hr : r ∈ H ++ B := hR (List.mem_cons_self ..)
      refine apply_then hT hK h (.tail _ hl) (.tail _ hr) fun tmp1 s h => ?_
      refine apply_then hT hK h (.head _) (.tail _ (.head _)) fun bit s h => ?_
      refine delref_then hK [_] h fun s h _ => ?_
      refine apply_then hT hK h (.tail _ (.tail _ hl)) (.tail _ (.tail _ hr)) fun tmp1 s h => ?_
      refine apply_then hT hK h (.tail _ (.tail _ (.head _))) (.head _) fun tmp2 s h => ?_
      refine delref_then hK [_] h fun s h _ => ?_
      refine apply_then hT hK h (.tail _ (.tail _ (.tail _ hl))) (.tail _ (.tail _ (.tail _ hr)))
        fun tmp1 s h => ?_
      refine apply_then hT hK h (.head _) (.tail _ (.head _)) fun tmp3 s h => ?_
      refine delref_then hK [_] h fun s h _ => ?_
      refine delref_then hK [_] h fun s h _ => ?_
      refine delref_then hK [_, _] h fun s h _ => ?_
      refine (ih (Nat.succ.inj hlen) (sub_cons (List.subset_of_cons_subset hL) _)
        (sub_cons (List.subset_of_cons_subset hR) _) h).bind fun res s h => .pure ?_
      obtain ⟨X, rfl, hV, h⟩ := h
      exact ⟨(bit, _) :: X, rfl, congrArg _ hV, h.perm List.perm_middle⟩

theorem add_runs (hT : T.Operates) (hK : Frame w K B) (hpos : 0 < L.length)
    (hlen : L.length = R.length) (hL : L ⊆ H ++ B) (hR : R ⊆ H ++ B)
    (h : Holds T reset w K B H s) :
    Runs Spent (bvecAdd T.D T.isPrime (nodes L) (nodes R)) s
      (Makes T reset w K B H (Bits.add (bits L) (bits R) Bits.zero)) := by
  unfold bvecAdd
  rw [nodes_length, nodes_length, if_neg (by omega), if_neg fun h => h hlen]
  exact addLoop_runs hT hK hlen hL hR (h.const false)

/-! ## Subtraction -/

theorem subLoop_runs (hT : T.Operates) (hK : Frame w K B) (hlen : L.length = R.length)
    (hL : L ⊆ H ++ B) (hR : R ⊆ H ++ B) (h : Holds T reset w K B ((c, C) :: H) s) :
    Runs Spent (subLoop T.D T.isPrime (nodes L) (nodes R) c) s
      (Makes T reset w K B H (Bits.sub (bits L) (bits R) C)) := by
  induction L generalizing R c C H s with
  | nil => exact delref_then hK [] h fun s' h' _ => .pure ⟨[], rfl, by simp [Bits.sub], h'⟩
  | cons l L ih =>
    cases R with
    | nil => simp at hlen
    | cons r R =>
      have hl : l ∈ H ++ B := hL (List.mem_cons_self ..)
      have hr : r ∈ H ++ B := hR (List.mem_cons_self ..)
      refine apply_then hT hK h (.tail _ hl) (.tail _ hr) fun tmp1 s h => ?_
      refine apply_then hT hK h (.head _) (.tail _ (.head _)) fun bit s h => ?_
      refine delref_then hK [_] h fun s h _ => ?_
      refine apply_then hT hK h (.tail _ (.tail _ hr)) (.tail _ (.head _)) fun tmp1 s h => ?_
      refine apply_then hT hK h (.tail _ (.tail _ (.tail _ hl))) (.head _) fun tmp2 s h => ?_
      refine delref_then hK [_] h fun s h _ => ?_
      refine apply_then hT hK h (.tail _ (.tail _ (.tail _ hl))) (.tail _ (.tail _ (.tail _ hr)))
        fun tmp1 s h => ?_
      refine apply_then hT hK h (.head _) (.tail _ (.tail _ (.tail _ (.head _))))
        fun tmp3 s h => ?_
      refine delref_then hK [_] h fun s h _ => ?_
      refine apply_then hT hK h (.head _) (.tail _ (.head _)) fun tmp1 s h => ?_
      refine delref_then hK [_, _] h fun s h _ => ?_
      refine delref_then hK [_] h fun s h _ => ?_
      refine delref_then hK [_, _] h fun s h _ => ?_
      refine (ih (Nat.succ.inj hlen) (sub_cons (List.subset_of_cons_subset hL) _)
        (sub_cons (List.subset_of_cons_subset hR) _) h).bind fun res s h => .pure ?_
      obtain ⟨X, rfl, hV, h⟩ := h
      exact ⟨(bit, _) :: X, rfl, congrArg _ hV, h.perm List.perm_middle⟩

theorem sub_runs (hT : T.Operates) (hK : Frame w K B) (hpos : 0 < L.length)
    (hlen : L.length = R.length) (hL : L ⊆ H ++ B) (hR : R ⊆ H ++ B)
    (h : Holds T reset w K B H s) :
    Runs Spent (bvecSub T.D T.isPrime (nodes L) (nodes R)) s
      (Makes T reset w K B H (Bits.sub (bits L) (bits R) Bits.zero)) := by
  unfold bvecSub
  rw [nodes_length, nodes_length, if_neg (by omega), if_neg fun h => h hlen]
  exact subLoop_runs hT hK hlen hL hR (h.const false)

/-! ## Comparison -/

/-- The node that a loop ends with has lost its reference, but nothing is collected before the
function returns it. -/
theorem returned_runs (hK : Frame w K B) (h : Holds T reset w K B ((c, C) :: H) s) :
    Runs Spent (bddDelref c >>= fun _ => pure c) s (Finds T reset w K B H C) :=
  delref_then hK [] h fun _ h' hsurv =>
    .pure ⟨h', hsurv.represents (h.represents (c, C) (.head _))⟩

theorem lessLoop_runs (hT : T.Operates) (hK : Frame w K B) (hlen : L.length = R.length)
    (hL : L ⊆ H ++ B) (hR : R ⊆ H ++ B) (h : Holds T reset w K B ((c, C) :: H) s) :
    Runs Spent (lessLoop T.D T.isPrime (nodes L) (nodes R) c) s
      (Finds T reset w K B H (Bits.less (bits L) (bits R) C)) := by
  induction L generalizing R c C s with
  | nil =>
    have hend : Bits.less (bits []) (bits R) C = C := by simp [Bits.less]
    rw [hend]
    exact returned_runs hK h
  | cons l L ih =>
    cases R with
    | nil => simp at hlen
    | cons r R =>
      have hl : l ∈ H ++ B := hL (List.mem_cons_self ..)
      have hr : r ∈ H ++ B := hR (List.mem_cons_self ..)
      refine apply_then hT hK h (.tail _ hl) (.tail _ hr) fun tmp1 s h => ?_
      refine apply_then hT hK h (.tail _ (.tail _ hl)) (.tail _ (.tail _ hr)) fun tmp2 s h => ?_
      refine apply_then hT hK h (.head _) (.tail _ (.tail _ (.head _))) fun tmp3 s h => ?_
      refine apply_then hT hK h (.tail _ (.tail _ (.head _))) (.head _) fun tmp4 s h => ?_
      refine delref_then hK [_, _, _] h fun s h _ => ?_
      refine delref_then hK [_, _] h fun s h _ => ?_
      refine delref_then hK [_] h fun s h _ => ?_
      refine delref_then hK [_] h fun s h _ => ?_
      exact ih (Nat.succ.inj hlen) (List.subset_of_cons_subset hL) (List.subset_of_cons_subset hR) h

theorem equLoop_runs (hT : T.Operates) (hK : Frame w K B) (hlen : L.length = R.length)
    (hL : L ⊆ H ++ B) (hR : R ⊆ H ++ B) (h : Holds T reset w K B ((c, C) :: H) s) :
    Runs Spent (equLoop T.D T.isPrime (nodes L) (nodes R) c) s
      (Finds T reset w K B H (Bits.equal (bits L) (bits R) C)) := by
  induction L generalizing R c C s with
  | nil =>
    have hend : Bits.equal (bits []) (bits R) C = C := by simp [Bits.equal]
    rw [hend]
    exact returned_runs hK h
  | cons l L ih =>
    cases R with
    | nil => simp at hlen
    | cons r R =>
      have hl : l ∈ H ++ B := hL (List.mem_cons_self ..)
      have hr : r ∈ H ++ B := hR (List.mem_cons_self ..)
      refine apply_then hT hK h (.tail _ hl) (.tail _ hr) fun tmp1 s h => ?_
      refine apply_then hT hK h (.head _) (.tail _ (.head _)) fun tmp2 s h => ?_
      refine delref_then hK [_] h fun s h _ => ?_
      refine delref_then hK [_] h fun s h _ => ?_
      exact ih (Nat.succ.inj hlen) (List.subset_of_cons_subset hL) (List.subset_of_cons_subset hR) h

section

variable (hT : T.Operates) (hK : Frame w K B) (hpos : 0 < L.length) (hlen : L.length = R.length)
  (hL : L ⊆ H ++ B) (hR : R ⊆ H ++ B) (h : Holds T reset w K B H s)
include hT hK hpos hlen hL hR h

theorem lth_runs : Runs Spent (bvecLth T.D T.isPrime (nodes L) (nodes R)) s
    (Finds T reset w K B H (Bits.less (bits L) (bits R) Bits.zero)) := by
  unfold bvecLth
  rw [nodes_length, nodes_length, if_neg (by omega), if_neg fun h => h hlen]
  exact lessLoop_runs hT hK hlen hL hR (h.const false)

theorem lte_runs : Runs Spent (bvecLte T.D T.isPrime (nodes L) (nodes R)) s
    (Finds T reset w K B H (Bits.less (bits L) (bits R) Bits.one)) := by
  unfold bvecLte
  rw [nodes_length, nodes_length, if_neg (by omega), if_neg fun h => h hlen]
  exact lessLoop_runs hT hK hlen hL hR (h.const true)

theorem equ_runs : Runs Spent (bvecEqu T.D T.isPrime (nodes L) (nodes R)) s
    (Finds T reset w K B H (Bits.equal (bits L) (bits R) Bits.one)) := by
  unfold bvecEqu
  rw [nodes_length, nodes_length, if_neg (by omega), if_neg fun h => h hlen]
  exact equLoop_runs hT hK hlen hL hR (h.const true)

end

/-- The negation of a test. -/
theorem negated_runs (hT : T.Operates) (hK : Frame w K B) {test : Prog (BddState P) ℕ}
    (h : Runs Spent test s (Finds T reset w K B H F)) :
    Runs Spent (negated T.D T.isPrime test) s (Finds T reset w K B H fun x => !F x) := by
  refine h.bind fun n s h => ?_
  refine (addref_runs h.1 h.2).bind fun tmp s h => ?_
  obtain ⟨rfl, h⟩ := h
  refine (not_runs hT hK h (.head _)).bind fun p s h => ?_
  exact delref_then hK [] h.1 fun s' h' hsurv => .pure ⟨h', hsurv.represents h.2⟩

/-! ## Choice -/

/-- A vector that is held is replaced bit by bit. -/
theorem replaceLoop_runs (hT : T.Operates) (hK : Frame w K B) (hlen : L.length = R.length)
    (ha : (a, F) ∈ H ++ B) (hL : L ⊆ H ++ B) (h : Holds T reset w K B (R ++ H) s) :
    Runs Spent (replaceLoop T.D T.isPrime a (nodes L) (nodes R)) s
      (Makes T reset w K B H (Bits.mux F (bits L) (bits R))) := by
  induction L generalizing R H s with
  | nil =>
    have hR : R = [] := List.length_eq_zero_iff.mp hlen.symm
    subst hR
    exact .pure ⟨[], rfl, rfl, h⟩
  | cons l L ih =>
    cases R with
    | nil => simp at hlen
    | cons r R =>
      have hmem : ∀ p ∈ H ++ B, p ∈ r :: R ++ H ++ B := fun p hp => by
        rw [List.append_assoc]
        exact List.mem_append_right _ hp
      refine ite_then hT hK h (hmem _ ha) (hmem _ (hL (List.mem_cons_self ..))) (.head _)
        fun tmp s h => ?_
      refine delref_then hK [_] h fun s h _ => ?_
      have h' := Holds.perm (H := (tmp, _) :: (R ++ H)) h List.perm_middle.symm
      refine (ih (Nat.succ.inj hlen) (.tail _ ha) (sub_cons (List.subset_of_cons_subset hL) _)
        h').bind fun res s h => .pure ?_
      obtain ⟨X, rfl, hV, h⟩ := h
      exact ⟨(tmp, _) :: X, rfl, congrArg _ hV, h.perm List.perm_middle⟩

/-! ## Calls from outside

The operands are vectors whose bits have references; a call takes over the references to the vectors
that it is to free.
-/

section

variable {D : MtbddDomain P} {isPrime : ℕ → Bool}

/-- The bits of a vector with their functions: each is a constant or has a reference. -/
def Operand (D : MtbddDomain P) (s : BddState P) (L : Heap) : Prop :=
  ∀ p ∈ L, s.Represents D p.1 p.2 ∧ (p.1 < 2 ∨ 0 < (s.bddnodes p.1).refcou)

/-- Nodes have one function each. -/
theorem heap_unique {s : BddState P} {X Y : Heap} (hX : ∀ p ∈ X, s.Represents D p.1 p.2)
    (hY : ∀ p ∈ Y, s.Represents D p.1 p.2) (h : nodes X = nodes Y) : X = Y := by
  induction X generalizing Y with
  | nil => exact (List.map_eq_nil_iff.mp h.symm).symm
  | cons p X ih =>
    cases Y with
    | nil => exact absurd h (by simp)
    | cons q Y =>
      obtain ⟨hnode, htail⟩ := List.cons.inj h
      have hfun := (hX p (List.mem_cons_self ..)).unique (hnode ▸ hY q (List.mem_cons_self ..))
      rw [ih (fun p hp => hX p (.tail _ hp)) (fun p hp => hY p (.tail _ hp)) htail,
        Prod.ext hnode hfun]

/-- A call returned, with no report and a package that can be used on. -/
structure Returned (D : MtbddDomain P) (isPrime : ℕ → Bool) (reset : BddState P → Prop)
    (w : Package P) (s : BddState P) : Prop where
  ok : s.Ok
  told : s.told = w.bdd.told
  reached : Reached D isPrime reset { w with bdd := s }

/-- It returned a vector of `n` bits, each with a reference, that has the value `v`. -/
def Yields (D : MtbddDomain P) (isPrime : ℕ → Bool) (reset : BddState P → Prop) (w : Package P)
    (n : ℕ) (v : (ℕ → Bool) → ℤ) (res : List ℕ) (s : BddState P) : Prop :=
  Returned D isPrime reset w s ∧ ∃ X, nodes X = res ∧ Operand D s X ∧ X.length = n ∧
    ∀ x, (Bits.value (bits X) x : ℤ) = v x

/-- It returned a node that tells whether `p` holds. -/
def Decides (D : MtbddDomain P) (isPrime : ℕ → Bool) (reset : BddState P → Prop) (w : Package P)
    (p : (ℕ → Bool) → Prop) (n : ℕ) (s : BddState P) : Prop :=
  Returned D isPrime reset w s ∧ ∃ F, s.Represents D n F ∧ ∀ x, F x = true ↔ p x

/-- What is known when a call starts that takes over the references to `O`. -/
theorem exists_holds (hw : w.Reached D isPrime reset) {O L : Heap}
    (hO : ∀ p ∈ O, w.bdd.Represents D p.1 p.2) (hcov : w.bdd.Covers (nodes O ++ w.entries))
    (hL : Operand D w.bdd L) :
    ∃ σ M B, Frame w (fun n => (w.bdd.bddnodes n).refcou - refs O n) B ∧ L ⊆ O ++ B ∧
      Holds (full D isPrime σ M) reset w (fun n => (w.bdd.bddnodes n).refcou - refs O n) B O
        w.bdd := by
  obtain ⟨⟨σ, hc⟩, -⟩ := hw.healthy
  have hcount : ∀ n, 2 ≤ n → maxref ≤ (w.bdd.bddnodes n).refcou ∨
      refs O n + w.entries.count n ≤ (w.bdd.bddnodes n).refcou := fun n hn => by
    have h := hcov n hn
    rw [List.count_append] at h
    exact h
  -- what is referenced by others than `O` is read only
  refine ⟨σ, w.bdd.env.bddvarnum, L.filter fun p =>
    decide (p.1 < 2 ∨ 0 < (w.bdd.bddnodes p.1).refcou - refs O p.1), ⟨fun n hn => ?_,
    fun p hp => of_decide_eq_true (List.mem_filter.mp hp).2⟩, fun p hp => ?_, ?_⟩
  · have := hcount n hn
    omega
  · by_cases hout : p.1 < 2 ∨ 0 < (w.bdd.bddnodes p.1).refcou - refs O p.1
    · exact List.mem_append_right _ (List.mem_filter.mpr ⟨hp, decide_eq_true hout⟩)
    · have hpos : 0 < refs O p.1 := by
        have := (hL p hp).2
        omega
      obtain ⟨q, hq, heq⟩ := List.mem_map.mp (List.count_pos_iff.mp hpos)
      have hfun : q.2 = p.2 := (hO q hq).unique (heq ▸ (hL p hp).1)
      have hpq : p = q := Prod.ext heq.symm hfun.symm
      exact List.mem_append_left _ (hpq ▸ hq)
  · refine ⟨hc.good, hw.ok, rfl, fun n hn => ?_, fun _ _ h => h, fun p hp => ?_, rfl, hw⟩
    · have := hcount n hn
      omega
    · rcases List.mem_append.mp hp with hp | hp
      · exact hO p hp
      · exact (hL p (List.mem_of_mem_filter hp)).1

/-- A call that only reads its operands. -/
theorem exists_reads (hw : w.Reached D isPrime reset) (hL : Operand D w.bdd L)
    (hR : Operand D w.bdd R) :
    ∃ σ M B, Frame w (fun n => (w.bdd.bddnodes n).refcou) B ∧ L ⊆ [] ++ B ∧ R ⊆ [] ++ B ∧
      Holds (full D isPrime σ M) reset w (fun n => (w.bdd.bddnodes n).refcou) B [] w.bdd := by
  have hoperand : Operand D w.bdd (L ++ R) := fun p hp =>
    (List.mem_append.mp hp).elim (hL p) (hR p)
  obtain ⟨σ, M, B, hK, hsub, h⟩ := exists_holds hw (O := []) (fun _ hp => absurd hp
    List.not_mem_nil) hw.healthy.2 hoperand
  exact ⟨σ, M, B, hK, fun p hp => hsub (List.mem_append_left R hp),
    fun p hp => hsub (List.mem_append_right L hp), h⟩

end

theorem Holds.returned (h : Holds T reset w K B H s) : Returned T.D T.isPrime reset w s :=
  ⟨h.ok, h.told, h.reached⟩

theorem Holds.operand (h : Holds T reset w K B (X ++ H) s) :
    Operand T.D s X := fun p hp => by
  have hmem : p ∈ X ++ H := List.mem_append_left H hp
  refine ⟨h.represents p (List.mem_append_left B hmem), ?_⟩
  have hmax : 0 < maxref := by decide
  have := refs_pos hmem
  by_cases h2 : 2 ≤ p.1
  · have := h.counts p.1 h2
    omega
  · omega

theorem Makes.yields {V : List ((ℕ → Bool) → Bool)} {v : List ℕ} {f : (ℕ → Bool) → ℤ}
    (h : Makes T reset w K B H V v s) (hn : V.length = n)
    (hf : ∀ x, (Bits.value V x : ℤ) = f x) : Yields T.D T.isPrime reset w n f v s := by
  obtain ⟨X, hX, hV, h⟩ := h
  refine ⟨h.returned, X, hX, h.operand, ?_, ?_⟩
  · rw [← bits_length, hV, hn]
  · rw [hV]
    exact hf

theorem Finds.decides {f : (ℕ → Bool) → Prop} (h : Finds T reset w K B H F n s)
    (hf : ∀ x, F x = true ↔ f x) : Decides T.D T.isPrime reset w f n s :=
  ⟨h.1.returned, F, h.2, hf⟩

/-! ### Two variables -/

/-- Vectors of the constants and of the two variables. -/
theorem twoVariables_operand {L : Heap} (hL : ∀ p ∈ L, p = (0, Bits.zero) ∨ p = (1, Bits.one) ∨
    p = (2, fun a => a 0) ∨ p = (4, fun a => a 1)) :
    Operand intDomain Package.twoVariables.bdd L := by
  obtain ⟨h0, h1, -⟩ := twoVariables_usable
  intro p hp
  rcases hL p hp with rfl | rfl | rfl | rfl
  · exact ⟨⟨_, .const false, trivial, fun _ => rfl⟩, Or.inl (by decide)⟩
  · exact ⟨⟨_, .const true, trivial, fun _ => rfl⟩, Or.inl (by decide)⟩
  · exact ⟨h0.2, Or.inr (twoVariables_nodes 0 (by decide)).2⟩
  · exact ⟨h1.2, Or.inr (twoVariables_nodes 1 (by decide)).2⟩

theorem twoVariables_saturated :
    ∀ n ∈ [0, 1, 2, 4], (Bdd.twoVariables.bddnodes n).refcou = maxref := by
  decide +kernel

/-- The constants and the variables have references for any number of vectors. -/
theorem twoVariables_covers {L : List ℕ} (hL : ∀ n ∈ L, n ∈ [0, 1, 2, 4]) :
    Package.twoVariables.bdd.Covers (L ++ Package.twoVariables.entries) :=
  BddState.Covers.saturated (twoVariables_reached fun _ => True).healthy.2 L fun n hn =>
    twoVariables_saturated n (hL n hn)

/-- The bits are variable `0` and, above it, variable `1`. -/
def twoBits : Heap := [(2, fun a => a 0), (4, fun a => a 1)]

/-- The bits are variable `1` and, above it, a one. -/
def oddBits : Heap := [(4, fun a => a 1), (1, Bits.one)]

theorem twoBits_operand : Operand intDomain Package.twoVariables.bdd twoBits :=
  twoVariables_operand fun _ hp => by rcases List.mem_pair.mp hp with rfl | rfl <;> simp

theorem oddBits_operand : Operand intDomain Package.twoVariables.bdd oddBits :=
  twoVariables_operand fun _ hp => by rcases List.mem_pair.mp hp with rfl | rfl <;> simp

end MoToBuddy.Bvec
