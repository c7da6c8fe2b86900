import Mathlib.Algebra.Order.Ring.Nat
import Mathlib.Data.List.Basic
import Mathlib.Logic.Function.Iterate
import Mathlib.Tactic.Linarith
import Mathlib.Tactic.Ring
import MoToBuddy.Lib.Restoring

/-!
# Arithmetic on vectors of Boolean functions

A vector of Boolean functions over the points `A` is a number at every point (`value`), the least
significant bit first. The loops of binary arithmetic are folds along two vectors: addition with a
carry, subtraction with a borrow, and comparison. What they give is said at all points together.
-/

namespace Bits

variable {A : Type*} {l r e : List (A → Bool)} {x : A}

/-! ## The functions -/

/-- The number that the bits encode at `x`. -/
def value : List (A → Bool) → A → ℕ
  | [], _ => 0
  | b :: v, x => (b x).toNat + 2 * value v x

def zero : A → Bool := fun _ => false

def one : A → Bool := fun _ => true

/-- The low bits of a number. -/
def ofNat : ℕ → ℕ → List (A → Bool)
  | 0, _ => []
  | n + 1, c => (if c % 2 = 1 then one else zero) :: ofNat n (c / 2)

/-- Addition, from the carry `c`. -/
def add : List (A → Bool) → List (A → Bool) → (A → Bool) → List (A → Bool)
  | a :: l, b :: r, c => (fun x => (a x != b x) != c x) ::
      add l r fun x => a x && b x || c x && (a x || b x)
  | _, _, _ => []

/-- Subtraction, from the borrow `c`. -/
def sub : List (A → Bool) → List (A → Bool) → (A → Bool) → List (A → Bool)
  | a :: l, b :: r, c => (fun x => (a x != b x) != c x) ::
      sub l r fun x => a x && b x && c x || !a x && (b x || c x)
  | _, _, _ => []

/-- The comparison, where `p` decides between equal numbers. -/
def less : List (A → Bool) → List (A → Bool) → (A → Bool) → A → Bool
  | a :: l, b :: r, p => less l r fun x => !a x && b x || (a x == b x) && p x
  | _, _, p => p

/-- The test for equality, if `p` holds. -/
def equal : List (A → Bool) → List (A → Bool) → (A → Bool) → A → Bool
  | a :: l, b :: r, p => equal l r fun x => (a x == b x) && p x
  | _, _, p => p

/-- The choice between two vectors, bit by bit. -/
def mux (p : A → Bool) : List (A → Bool) → List (A → Bool) → List (A → Bool)
  | a :: l, b :: r => (fun x => if p x then a x else b x) :: mux p l r
  | _, _ => []

/-- The vector where `p` holds, else zero. -/
def mask (p : A → Bool) (v : List (A → Bool)) : List (A → Bool) := v.map fun b x => p x && b x

/-- The vector moved up by one place, without its top bit. -/
def double (c : A → Bool) (v : List (A → Bool)) : List (A → Bool) := c :: v.dropLast

/-- The vector moved down by one place. -/
def half (v : List (A → Bool)) : List (A → Bool) := v.tail ++ [zero]

/-- Shift and add: each bit of `r` adds `s`, moved up to its place, to `res`. -/
def mulAdd : List (A → Bool) → List (A → Bool) → List (A → Bool) → List (A → Bool)
  | [], res, _ => res
  | b :: r, res, s => mulAdd r (mux b (add res s zero) res) (double zero s)

/-- What is left of `rem` after the attempt to take `div` away. -/
def reduce (div rem : List (A → Bool)) : List (A → Bool) :=
  mux (less div rem one) (sub rem div zero) rem

/-- A pass of a division in two registers: what is left after the attempt to take `div` away moves
up and takes in the top bit of the quotient's register, which takes in the bit that is found. -/
def registerPass (div : List (A → Bool)) (r : List (A → Bool) × List (A → Bool)) :
    List (A → Bool) × List (A → Bool) :=
  (double (r.2.getLastD zero) (sub r.1 (mask (less div r.1 one) div) zero),
    double (less div r.1 one) r.2)

/-- The vector in another width: cut, or filled up with zeros. -/
def resize (n : ℕ) (v : List (A → Bool)) : List (A → Bool) :=
  v.take n ++ List.replicate (n - v.length) zero

@[simp] theorem zero_apply (x : A) : zero x = false := rfl
@[simp] theorem one_apply (x : A) : one x = true := rfl

/-! ## Values -/

@[simp] theorem value_nil (x : A) : value [] x = 0 := rfl

@[simp] theorem value_cons (b : A → Bool) (v : List (A → Bool)) (x : A) :
    value (b :: v) x = (b x).toNat + 2 * value v x := rfl

theorem value_lt (v : List (A → Bool)) (x : A) : value v x < 2 ^ v.length := by
  induction v with
  | nil => simp
  | cons b v ih =>
    have hb := Bool.toNat_le (b x)
    rw [value_cons, List.length_cons, pow_succ]
    omega

theorem value_append (v w : List (A → Bool)) (x : A) :
    value (v ++ w) x = value v x + 2 ^ v.length * value w x := by
  induction v with
  | nil => simp
  | cons b v ih =>
    simp only [List.cons_append, value_cons, ih, List.length_cons, pow_succ]
    ring

theorem value_zeros (n : ℕ) (x : A) : value (List.replicate n zero) x = 0 := by
  induction n with
  | zero => rfl
  | succ n ih => simpa [List.replicate_succ] using ih

@[simp] theorem length_ofNat (n c : ℕ) : (ofNat n c : List (A → Bool)).length = n := by
  induction n generalizing c with
  | zero => rfl
  | succ n ih => simp [ofNat, ih]

/-- A number keeps its low bits only. -/
theorem value_ofNat (n c : ℕ) (x : A) : value (ofNat n c) x = c % 2 ^ n := by
  induction n generalizing c with
  | zero => simp [ofNat, Nat.mod_one]
  | succ n ih =>
    have hbit : ((if c % 2 = 1 then one else zero : A → Bool) x).toNat = c % 2 := by
      split <;> simp <;> omega
    rw [ofNat, value_cons, hbit, ih, pow_succ, mul_comm (2 ^ n) 2, Nat.mod_mul]

theorem value_take (v : List (A → Bool)) (k : ℕ) (x : A) :
    value (v.take k) x = value v x % 2 ^ k := by
  have hlt := value_lt (v.take k) x
  rcases Nat.lt_or_ge v.length k with hk | hk
  · have hv := value_lt v x
    have hpow : 2 ^ v.length ≤ 2 ^ k := Nat.pow_le_pow_right (by omega) (by omega)
    rw [List.take_of_length_le (by omega), Nat.mod_eq_of_lt (by omega)]
  · have hsplit := value_append (v.take k) (v.drop k) x
    rw [List.length_take, Nat.min_eq_left hk] at hlt hsplit
    rw [List.take_append_drop] at hsplit
    rw [hsplit, Nat.add_mul_mod_self_left, Nat.mod_eq_of_lt hlt]

@[simp] theorem length_resize (n : ℕ) (v : List (A → Bool)) : (resize n v).length = n := by
  simp [resize]
  omega

theorem value_resize (n : ℕ) (v : List (A → Bool)) (x : A) :
    value (resize n v) x = value v x % 2 ^ n := by
  rw [resize, value_append, value_zeros, value_take, Nat.mul_zero, Nat.add_zero]

/-! ## Addition -/

theorem length_add (h : l.length = r.length) (c : A → Bool) : (add l r c).length = l.length := by
  induction l generalizing r c with
  | nil => rfl
  | cons a l ih =>
    cases r with
    | nil => simp at h
    | cons b r => simp [add, ih (Nat.succ.inj h)]

/-- One place of the addition. -/
theorem fullAdd_value (a b c : Bool) :
    ((a != b) != c).toNat + 2 * (a && b || c && (a || b)).toNat =
      a.toNat + b.toNat + c.toNat := by
  cases a <;> cases b <;> cases c <;> rfl

/-- Addition, with the carry that comes in and the one that goes out. -/
theorem value_add_carry (h : l.length = r.length) (c : A → Bool) (x : A) :
    ∃ carry : Bool, value (add l r c) x + 2 ^ l.length * carry.toNat =
      value l x + value r x + (c x).toNat := by
  induction l generalizing r c with
  | nil =>
    cases r with
    | nil => exact ⟨c x, by simp [add]⟩
    | cons b r => simp at h
  | cons a l ih =>
    cases r with
    | nil => simp at h
    | cons b r =>
      obtain ⟨carry, hc⟩ := ih (Nat.succ.inj h) fun x => a x && b x || c x && (a x || b x)
      have hplace := fullAdd_value (a x) (b x) (c x)
      refine ⟨carry, ?_⟩
      simp only [add, value_cons, List.length_cons, pow_succ]
      linarith

theorem value_add (h : l.length = r.length) (x : A) :
    value (add l r zero) x = (value l x + value r x) % 2 ^ l.length := by
  obtain ⟨carry, hc⟩ := value_add_carry h zero x
  have hlt := value_lt (add l r zero) x
  rw [length_add h] at hlt
  rw [zero_apply, Bool.toNat_false, Nat.add_zero] at hc
  rw [← hc, Nat.add_mul_mod_self_left, Nat.mod_eq_of_lt hlt]

/-! ## Subtraction -/

theorem length_sub (h : l.length = r.length) (c : A → Bool) : (sub l r c).length = l.length := by
  induction l generalizing r c with
  | nil => rfl
  | cons a l ih =>
    cases r with
    | nil => simp at h
    | cons b r => simp [sub, ih (Nat.succ.inj h)]

/-- One place of the subtraction. -/
theorem fullSub_value (a b c : Bool) :
    ((a != b) != c).toNat + b.toNat + c.toNat =
      a.toNat + 2 * (a && b && c || !a && (b || c)).toNat := by
  cases a <;> cases b <;> cases c <;> rfl

/-- Subtraction, with the borrow that comes in and the one that goes out. -/
theorem value_sub_borrow (h : l.length = r.length) (c : A → Bool) (x : A) :
    ∃ borrow : Bool, value (sub l r c) x + value r x + (c x).toNat =
      value l x + 2 ^ l.length * borrow.toNat := by
  induction l generalizing r c with
  | nil =>
    cases r with
    | nil => exact ⟨c x, by simp [sub]⟩
    | cons b r => simp at h
  | cons a l ih =>
    cases r with
    | nil => simp at h
    | cons b r =>
      obtain ⟨borrow, hb⟩ := ih (Nat.succ.inj h) fun x => a x && b x && c x || !a x && (b x || c x)
      have hplace := fullSub_value (a x) (b x) (c x)
      refine ⟨borrow, ?_⟩
      simp only [sub, value_cons, List.length_cons, pow_succ]
      linarith

/-- With no underflow the difference is that of the numbers. -/
theorem value_sub (h : l.length = r.length) (hle : value r x ≤ value l x) :
    value (sub l r zero) x = value l x - value r x := by
  obtain ⟨borrow, hb⟩ := value_sub_borrow h zero x
  have hlt := value_lt (sub l r zero) x
  rw [length_sub h] at hlt
  rw [zero_apply, Bool.toNat_false, Nat.add_zero] at hb
  cases borrow with
  | false => simp at hb; omega
  | true => simp at hb; omega

/-- A borrow is a full width too much. -/
theorem value_sub_mod (h : l.length = r.length) (x : A) :
    (value (sub l r zero) x : ℤ) = ((value l x : ℤ) - value r x) % 2 ^ l.length := by
  obtain ⟨borrow, hb⟩ := value_sub_borrow h zero x
  have hlt := value_lt (sub l r zero) x
  rw [length_sub h] at hlt
  rw [zero_apply, Bool.toNat_false, Nat.add_zero] at hb
  have hdiff : (value l x : ℤ) - value r x =
      value (sub l r zero) x + 2 ^ l.length * (-(borrow.toNat : ℤ)) := by
    have hcast : (value (sub l r zero) x : ℤ) + value r x =
        value l x + 2 ^ l.length * borrow.toNat := by exact_mod_cast hb
    linarith
  rw [hdiff, Int.add_mul_emod_self_left]
  exact (Int.emod_eq_of_lt (by positivity) (by exact_mod_cast hlt)).symm

/-! ## Comparison -/

theorem less_iff (h : l.length = r.length) (p : A → Bool) (x : A) :
    less l r p x = true ↔ value l x < value r x ∨ value l x = value r x ∧ p x = true := by
  induction l generalizing r p with
  | nil =>
    cases r with
    | nil => simp [less]
    | cons b r => simp at h
  | cons a l ih =>
    cases r with
    | nil => simp at h
    | cons b r =>
      -- a higher bit decides, whatever the lower ones gave
      rw [less, ih (Nat.succ.inj h), value_cons, value_cons]
      cases a x <;> cases b x <;> cases p x <;> simp <;> omega

theorem le_iff (h : l.length = r.length) (x : A) :
    less l r one x = true ↔ value l x ≤ value r x := by
  rw [less_iff h, one_apply]
  simp
  omega

theorem lt_iff (h : l.length = r.length) (x : A) :
    less l r zero x = true ↔ value l x < value r x := by
  rw [less_iff h, zero_apply]
  simp

theorem equal_iff (h : l.length = r.length) (p : A → Bool) (x : A) :
    equal l r p x = true ↔ value l x = value r x ∧ p x = true := by
  induction l generalizing r p with
  | nil =>
    cases r with
    | nil => simp [equal]
    | cons b r => simp at h
  | cons a l ih =>
    cases r with
    | nil => simp at h
    | cons b r =>
      rw [equal, ih (Nat.succ.inj h), value_cons, value_cons]
      cases a x <;> cases b x <;> cases p x <;> simp <;> omega

/-! ## Choice -/

theorem length_mux (h : l.length = r.length) (p : A → Bool) : (mux p l r).length = r.length := by
  induction l generalizing r with
  | nil =>
    cases r with
    | nil => rfl
    | cons b r => simp at h
  | cons a l ih =>
    cases r with
    | nil => simp at h
    | cons b r => simp [mux, ih (Nat.succ.inj h)]

theorem value_mux (h : l.length = r.length) (p : A → Bool) (x : A) :
    value (mux p l r) x = if p x = true then value l x else value r x := by
  induction l generalizing r with
  | nil =>
    cases r with
    | nil => simp [mux]
    | cons b r => simp at h
  | cons a l ih =>
    cases r with
    | nil => simp at h
    | cons b r =>
      rw [mux, value_cons, ih (Nat.succ.inj h)]
      cases hp : p x <;> simp

@[simp] theorem length_mask (p : A → Bool) (v : List (A → Bool)) :
    (mask p v).length = v.length := List.length_map ..

theorem value_mask (p : A → Bool) (v : List (A → Bool)) (x : A) :
    value (mask p v) x = if p x = true then value v x else 0 := by
  induction v with
  | nil => simp [mask]
  | cons b v ih =>
    rw [show mask p (b :: v) = (fun x => p x && b x) :: mask p v from rfl, value_cons, ih]
    cases hp : p x <;> simp

/-! ## Moves by one place -/

@[simp] theorem length_double (he : 0 < e.length) (c : A → Bool) :
    (double c e).length = e.length := by
  simp [double]
  omega

@[simp] theorem length_half (he : 0 < e.length) : (half e).length = e.length := by
  simp [half]
  omega

theorem value_double (he : 0 < e.length) (c : A → Bool) (x : A) :
    value (double c e) x = (2 * value e x + (c x).toNat) % 2 ^ e.length := by
  obtain ⟨n, hn⟩ : ∃ n, e.length = n + 1 := ⟨e.length - 1, by omega⟩
  have hne : e ≠ [] := List.length_pos_iff.mp he
  have hsplit := value_append e.dropLast [e.getLast hne] x
  rw [List.dropLast_append_getLast hne, List.length_dropLast, hn, Nat.add_sub_cancel] at hsplit
  have hlt := value_lt e.dropLast x
  rw [List.length_dropLast, hn, Nat.add_sub_cancel] at hlt
  have hc := Bool.toNat_le (c x)
  -- the top bit is lost
  have hsum : 2 * value e x + (c x).toNat =
      ((c x).toNat + 2 * value e.dropLast x) + 2 ^ (n + 1) * (e.getLast hne x).toNat := by
    rw [hsplit, pow_succ]
    simp
    ring
  rw [hsum, hn, Nat.add_mul_mod_self_left, Nat.mod_eq_of_lt (by rw [pow_succ]; omega), double,
    value_cons]

theorem value_half (he : 0 < e.length) (x : A) : value (half e) x = value e x / 2 := by
  cases e with
  | nil => simp at he
  | cons b v =>
    have hb := Bool.toNat_le (b x)
    rw [half, List.tail_cons, value_append, value_cons]
    simp
    omega

/-- The vector moved up by any number of places. -/
theorem value_shift (k : ℕ) (x : A) :
    value (List.replicate (min e.length k) zero ++ e.take (e.length - min e.length k)) x =
      value e x * 2 ^ k % 2 ^ e.length := by
  rw [value_append, value_zeros, value_take, List.length_replicate, Nat.zero_add]
  rcases Nat.le_total k e.length with hk | hk
  · have hpow : 2 ^ e.length = 2 ^ k * 2 ^ (e.length - k) := by
      rw [← pow_add, Nat.add_sub_cancel' hk]
    rw [Nat.min_eq_right hk, hpow, Nat.mul_comm (value e x), Nat.mul_mod_mul_left]
  · have hpow : 2 ^ k = 2 ^ e.length * 2 ^ (k - e.length) := by
      rw [← pow_add, Nat.add_sub_cancel' hk]
    rw [Nat.min_eq_left hk, Nat.sub_self, pow_zero, Nat.mod_one, Nat.mul_zero, hpow,
      Nat.mul_left_comm, Nat.mul_mod_right]

/-- The top bit as a number. -/
theorem toNat_top {c : A → Bool} (hc : e.getLast? = some c) (x : A) :
    (c x).toNat = value e x / 2 ^ (e.length - 1) := by
  obtain ⟨v, rfl⟩ := List.getLast?_eq_some_iff.mp hc
  have hlt := value_lt v x
  rw [value_append, List.length_append, List.length_singleton, Nat.add_sub_cancel,
    Nat.add_mul_div_left _ _ (by positivity), Nat.div_eq_of_lt hlt]
  simp

/-- The same, for the top bit as an entry. -/
theorem toNat_getLastD (he : 0 < e.length) (x : A) :
    (e.getLastD zero x).toNat = value e x / 2 ^ (e.length - 1) := by
  refine toNat_top ?_ x
  rw [List.getLastD_eq_getLast?, List.getLast?_eq_some_getLast (List.length_pos_iff.mp he)]
  rfl

/-! ## Products -/

theorem length_mulAdd {res s : List (A → Bool)} (hpos : 0 < s.length) (h : res.length = s.length)
    (r : List (A → Bool)) : (mulAdd r res s).length = s.length := by
  induction r generalizing res s with
  | nil => exact h
  | cons b r ih =>
    have hmux := length_mux (length_add h zero) b
    have hdouble := length_double hpos zero
    rw [mulAdd, ih (by omega) (by omega), hdouble]

theorem value_mulAdd {res s : List (A → Bool)} (hpos : 0 < s.length) (h : res.length = s.length)
    (r : List (A → Bool)) (x : A) :
    value (mulAdd r res s) x = (value res x + value s x * value r x) % 2 ^ s.length := by
  induction r generalizing res s with
  | nil =>
    have hlt := value_lt res x
    rw [h] at hlt
    rw [mulAdd, value_nil, Nat.mul_zero, Nat.add_zero, Nat.mod_eq_of_lt hlt]
  | cons b r ih =>
    have hadd := length_add h zero
    have hmux := length_mux hadd b
    have hdouble := length_double hpos zero
    have hlt := value_lt res x
    rw [h] at hlt
    -- the bit chooses between adding and not adding
    have hstep : value (mux b (add res s zero) res) x =
        (value res x + value s x * (b x).toNat) % 2 ^ s.length := by
      rw [value_mux hadd, value_add h, h]
      cases b x
      · simp [Nat.mod_eq_of_lt hlt]
      · simp
    rw [mulAdd, ih (by omega) (by omega), hstep, value_double hpos, hdouble, zero_apply,
      Bool.toNat_false, Nat.add_zero, value_cons, Nat.mod_add_mod, Nat.add_mod, Nat.mod_mul_mod,
      ← Nat.add_mod]
    congr 1
    ring

/-- In the sum of the widths the product is whole. -/
theorem value_mul (hl : 0 < l.length) (x : A) :
    value (mulAdd r (List.replicate (l.length + r.length) zero) (resize (l.length + r.length) l)) x =
      value l x * value r x := by
  have hleft := value_lt l x
  have hright := value_lt r x
  have hwide : value l x < 2 ^ (l.length + r.length) :=
    hleft.trans_le (Nat.pow_le_pow_right (by omega) (by omega))
  have hwidth : (resize (l.length + r.length) l).length = l.length + r.length := length_resize _ _
  rw [value_mulAdd (by omega) (by simp), value_zeros, value_resize, length_resize, Nat.zero_add,
    Nat.mod_eq_of_lt hwide, Nat.mod_eq_of_lt]
  rw [pow_add]
  exact Nat.mul_lt_mul'' hleft hright

/-! ## Division -/

/-- Before pass `n` of a division of `v` by `d`, at one point and for vectors of `N` bits: the
divisor is `N - n` places up, what is left of `v` is less than it was at the last place, and `found`
are the quotient's bits so far. -/
structure LongDivision (N d v : ℕ) (x : A) (n : ℕ) (found rem div : List (A → Bool)) : Prop where
  div : value div x = d * 2 ^ N / 2 ^ n
  rem : value rem x = v % (2 * d * 2 ^ N / 2 ^ n)
  found : value found x = v / (2 * d * 2 ^ N / 2 ^ n)

section

variable {N n d v : ℕ} {found rem div : List (A → Bool)}

theorem length_reduce (h : rem.length = div.length) : (reduce div rem).length = rem.length :=
  length_mux (length_sub h zero) _

theorem value_reduce (h : rem.length = div.length) (x : A) :
    value (reduce div rem) x = value rem x - (if value div x ≤ value rem x then value div x
      else 0) := by
  rw [reduce, value_mux (length_sub h zero)]
  by_cases hle : value div x ≤ value rem x
  · rw [if_pos ((le_iff h.symm x).mpr hle), if_pos hle, value_sub h hle]
  · rw [if_neg (mt (le_iff h.symm x).mp hle), if_neg hle, Nat.sub_zero]

/-- A pass compares, takes away and moves the divisor. -/
theorem LongDivision.step (hpos : 0 < div.length) (hlen : rem.length = div.length) (hd : 0 < d)
    (hn : n ≤ N) (h : LongDivision N d v x n found rem div) :
    LongDivision N d v x (n + 1) (less div rem one :: found) (reduce div rem) (half div) := by
  obtain ⟨hd₁, hd₂, hd₃⟩ := Restoring.place_eq hn d
  have hm : 0 < d * 2 ^ (N - n) := by positivity
  obtain ⟨hquot, hleft⟩ := Restoring.place_step hm v
  have hval := h.div
  have hvrem := h.rem
  have hfound := h.found
  rw [hd₁] at hval
  rw [hd₂] at hvrem hfound
  have hbit : (less div rem one x).toNat =
      if d * 2 ^ (N - n) ≤ v % (2 * (d * 2 ^ (N - n))) then 1 else 0 := by
    have hcmp := le_iff hlen.symm x
    rw [hval, hvrem] at hcmp
    split_ifs with hle
    · rw [hcmp.mpr hle, Bool.toNat_true]
    · rw [Bool.eq_false_iff.mpr (mt hcmp.mp hle), Bool.toNat_false]
  constructor
  · rw [value_half hpos, h.div, Nat.div_div_eq_div_mul, ← pow_succ]
  · rw [hd₃, hleft, value_reduce hlen, hval, hvrem]
  · rw [hd₃, hquot, value_cons, hfound, hbit, Nat.add_comm]

/-- Before the first pass: the divisor is above the dividend. -/
theorem LongDivision.start (hd : 0 < d) (hv : v < 2 ^ N) (hdiv : value div x = d * 2 ^ N)
    (hrem : value rem x = v) : LongDivision N d v x 0 [] rem div := by
  have hlarge : 2 ^ N ≤ d * 2 ^ N := Nat.le_mul_of_pos_left _ hd
  have hlt : v < 2 * d * 2 ^ N := by
    rw [Nat.mul_assoc]
    omega
  constructor
  · rw [hdiv, pow_zero, Nat.div_one]
  · rw [hrem, pow_zero, Nat.div_one, Nat.mod_eq_of_lt hlt]
  · rw [pow_zero, Nat.div_one, Nat.div_eq_of_lt hlt, value_nil]

/-- The first pass finds nothing, and its bit may be left out. -/
theorem LongDivision.skip (hv : v < 2 ^ N) (hd : 0 < d)
    (h : LongDivision N d v x 1 found rem div) : LongDivision N d v x 1 [] rem div := by
  obtain ⟨-, -, hplace⟩ := Restoring.place_eq (Nat.zero_le N) d
  rw [zero_add, Nat.sub_zero] at hplace
  have hlarge : 2 ^ N ≤ d * 2 ^ N := Nat.le_mul_of_pos_left _ hd
  refine ⟨h.div, h.rem, ?_⟩
  rw [hplace, Nat.div_eq_of_lt (by omega), value_nil]

/-- After the last pass. -/
theorem LongDivision.final (h : LongDivision N d v x (N + 1) found rem div) :
    value found x = v / d ∧ value rem x = v % d := by
  obtain ⟨-, -, hplace⟩ := Restoring.place_eq (Nat.le_refl N) d
  rw [Nat.sub_self, pow_zero, Nat.mul_one] at hplace
  exact ⟨by rw [h.found, hplace], by rw [h.rem, hplace]⟩

end

/-! ### In registers -/

/-- What a division of `v` by `d` in registers of `n` bits keeps at one point: the registers after
`k` passes if the divisor is not zero, and an odd quotient if it is. -/
structure RegisterDivision (n d v : ℕ) (x : A) (k : ℕ) (r : List (A → Bool) × List (A → Bool)) :
    Prop where
  rem_length : r.1.length = n
  quot_length : r.2.length = n
  registers : 0 < d → k ≤ n → Restoring.Registers n d v k (value r.1 x) (value r.2 x)
  odd : d = 0 → 0 < k → value r.2 x % 2 = 1

section

variable {n k d v : ℕ} {div : List (A → Bool)} {r : List (A → Bool) × List (A → Bool)}

theorem RegisterDivision.pass (hn : 0 < n) (hdiv : div.length = n) (hv : v < 2 ^ n)
    (h : RegisterDivision n (value div x) v x k r) :
    RegisterDivision n (value div x) v x (k + 1) (registerPass div r) := by
  obtain ⟨hrem, hquot, hreg, -⟩ := h
  have hmask : r.1.length = (mask (less div r.1 one) div).length := by
    rw [length_mask, hrem, hdiv]
  have hsub := length_sub hmask zero
  have hle := le_iff (hdiv.trans hrem.symm) x
  have hvalue : value (mask (less div r.1 one) div) x =
      if value div x ≤ value r.1 x then value div x else 0 := by
    rw [value_mask]
    simp only [hle]
  have hsmall : value (mask (less div r.1 one) div) x ≤ value r.1 x := by
    rw [hvalue]
    split <;> omega
  have hbit : (less div r.1 one x).toNat = if value div x ≤ value r.1 x then 1 else 0 := by
    split_ifs with hif
    · rw [hle.mpr hif, Bool.toNat_true]
    · rw [Bool.eq_false_iff.mpr (mt hle.mp hif), Bool.toNat_false]
  have hnewrem : value (registerPass div r).1 x = (2 * (value r.1 x -
      (if value div x ≤ value r.1 x then value div x else 0)) + value r.2 x / 2 ^ (n - 1)) %
        2 ^ n := by
    rw [registerPass, value_double (by omega), hsub, hrem, value_sub hmask hsmall, hvalue,
      toNat_getLastD (by omega), hquot]
  have hnewquot : value (registerPass div r).2 x =
      (2 * value r.2 x + (if value div x ≤ value r.1 x then 1 else 0)) % 2 ^ n := by
    rw [registerPass, value_double (by omega), hquot, hbit]
  refine ⟨?_, ?_, fun hd hk => ?_, fun hd _ => ?_⟩
  · rw [registerPass, length_double (by omega), hsub, hrem]
  · rw [registerPass, length_double (by omega), hquot]
  · rw [hnewrem, hnewquot]
    exact (hreg hd (by omega)).step hd hv (by omega)
  · have heven : 2 ∣ 2 ^ n := dvd_pow_self 2 (by omega)
    rw [hnewquot, hd, Nat.mod_mod_of_dvd _ heven]
    simp

/-- The registers at the start: the top bit of the dividend, and its other bits moved up. -/
theorem RegisterDivision.start (he : 0 < e.length) (d : ℕ) (x : A) :
    RegisterDivision e.length d (value e x) x 0
      (double (e.getLastD zero) (List.replicate e.length zero), double zero e) := by
  have hzeros : (List.replicate e.length (zero : A → Bool)).length = e.length :=
    List.length_replicate
  have hv := value_lt e x
  have hlt : value e x / 2 ^ (e.length - 1) < 2 ^ e.length := (Nat.div_le_self _ _).trans_lt hv
  refine ⟨by rw [length_double (by omega), hzeros], length_double he zero, fun _ _ => ?_,
    fun _ h => absurd h (lt_irrefl 0)⟩
  rw [value_double (by omega), value_double he, value_zeros, hzeros, toNat_getLastD he, zero_apply,
    Bool.toNat_false, Nat.mul_zero, Nat.zero_add, Nat.add_zero, Nat.mod_eq_of_lt hlt]
  exact Restoring.registers_zero he hv

theorem RegisterDivision.passes (hn : 0 < n) (hdiv : div.length = n) (hv : v < 2 ^ n) (m : ℕ)
    (h : RegisterDivision n (value div x) v x k r) :
    RegisterDivision n (value div x) v x (k + m) ((registerPass div)^[m] r) := by
  induction m generalizing k r with
  | zero => exact h
  | succ m ih =>
    rw [Function.iterate_succ_apply, ← Nat.succ_add_eq_add_succ]
    exact ih (h.pass hn hdiv hv)

end

end Bits
