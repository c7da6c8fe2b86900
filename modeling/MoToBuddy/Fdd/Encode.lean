import MoToBuddy.Fdd.Fresh
import MoToBuddy.Lib.Bits

/-!
# Values of the domains (`fdd.c`)

A value is encoded by the bits of its domain, the least significant first. `fdd_ithvar` and
`fdd_domain` walk along the variables of a domain, and `fdd_equals` along those of two.
-/

namespace MoToBuddy.Fdd

open Bdd BoolFun CountedLoop Decision

section

variable {P : Type*} (D : MtbddDomain P) (isPrime : ℕ → Bool)

/-- `bdd_nithvar`. -/
def bddNithvar (s : BddState P) (var : ℕ) : ℕ × BddState P :=
  if var ≥ s.env.bddvarnum then (0, s.error .var) else (s.env.bddvarset (2 * var + 1), s)

/-- The loop of `fdd_ithvar`. -/
def ithvarLoop : List ℤ → ℤ → ℕ → BddState P → Option (ℕ × BddState P)
  | [], _, v, s => some (v, s)
  | i :: ivar, val, v, s => do
    let s := bddAddref s v
    let (var, s) := if val % 2 = 1 then bddIthvar s (index s i) else bddNithvar s (index s i)
    let (tmp, s) ← bddApply D isPrime var v BddOp.and.code s
    ithvarLoop ivar (val / 2) tmp (bddDelref s v)

/-- The loop of `fdd_domain`. -/
def domainLoop : List ℤ → ℤ → ℕ → BddState P → Option (ℕ × BddState P)
  | [], _, d, s => some (d, s)
  | i :: ivar, val, d, s => do
    let (var, s) := bddNithvar s (index s i)
    let (tmp, s) ← bddApply D isPrime var d (if val % 2 = 1 then BddOp.or else .and).code s
    domainLoop ivar (val / 2) tmp (bddDelref (bddAddref s tmp) d)

/-- The loop of `fdd_equals`. -/
def equalsLoop : List ℤ → List ℤ → ℕ → BddState P → Option (ℕ × BddState P)
  | [], _, e, s => some (e, s)
  | _ :: _, [], _, _ => none
  | l :: left, r :: right, e, s => do
    let (x, s) := bddIthvar s (index s l)
    let (y, s) := bddIthvar s (index s r)
    let (tmp1, s) ← bddApply D isPrime x y BddOp.biimp.code s
    let s := bddAddref s tmp1
    let (tmp2, s) ← bddApply D isPrime e tmp1 BddOp.and.code s
    let s := bddAddref s tmp2
    equalsLoop left right tmp2 (bddDelref (bddDelref s tmp1) e)

/-- A step of the walk in `fdd_scanallvar`. -/
def scanallStep (s : BddState P) (x : ℕ × (ℕ → Bool)) : Option (ℕ × (ℕ → Bool)) :=
  let var := s.env.bddlevel2var (s.level x.1)
  if s.low x.1 ≠ 0 then some (s.low x.1, Function.update x.2 var false)
  else some (s.high x.1, Function.update x.2 var true)

/-- The walk of `fdd_scanallvar`, which fills `store`. -/
def scanallLoop (s : BddState P) (r : ℕ) : Option (ℕ → Bool) :=
  (whileDo (fun x => decide (2 ≤ x.1)) (scanallStep s) depth (r, fun _ => false)).map (·.2)

/-- What `fdd_scanallvar` reads from `store` for a domain, from the last bit to the first. -/
def decode (s : BddState P) (store : ℕ → Bool) : List ℤ → Option ℤ
  | [] => some 0
  | v :: ivar => do
    let val ← decode s store ivar
    if 0 ≤ v ∧ v < s.env.bddvarnum then
      some (if store v.toNat then val * 2 + 1 else val * 2)
    else none

namespace Domains

variable (w : Domains P)

/-- The domain with a number. -/
def entry (var : ℤ) : Option Domain := if var < 0 then none else w.domain[var.toNat]?

/-- `bdd_error`. -/
def error (e : BddError) : Domains P := { w with package := w.package.error e }

/-- The package after operations on diagrams. -/
def setBdd (s : BddState P) : Domains P := { w with package := { w.package with bdd := s } }

end Domains

/-- `fdd_ithvar`. -/
def fddIthvar (var val : ℤ) (w : Domains P) : Option (ℕ × Domains P) :=
  match w.entry var with
  | none => some (0, w.error .var)
  | some d =>
    if val < 0 ∨ val ≥ d.realsize then some (0, w.error .range)
    else (ithvarLoop D isPrime d.vars val 1 w.package.bdd).map fun r => (r.1, w.setBdd r.2)

/-- `fdd_scanallvar`; the array is missing when `NULL` is returned. -/
def fddScanallvar (r : ℕ) (w : Domains P) : Option (Option (List ℤ) × Domains P) :=
  let s := w.package.bdd
  if r ≥ s.bddnodesize then some (none, w.error .illbdd)
  else if 2 ≤ r ∧ s.isFree r then some (none, w.error .illbdd)
  else if r = 0 then some (none, w)
  else
    (scanallLoop s r).bind fun store =>
      (w.domain.mapM fun d => decode s store d.vars).map fun res => (some res, w)

/-- `fdd_scanvar`. -/
def fddScanvar (r : ℕ) (var : ℤ) (w : Domains P) : Option (ℤ × Domains P) :=
  let s := w.package.bdd
  if r ≥ s.bddnodesize then some (errorCode .illbdd, w.error .illbdd)
  else if 2 ≤ r ∧ s.isFree r then some (errorCode .illbdd, w.error .illbdd)
  else if r = 0 then some (-1, w)
  else if var < 0 ∨ var ≥ w.domain.length then some (errorCode .var, w.error .var)
  else
    (fddScanallvar r w).bind fun allvar =>
      (allvar.1.bind fun res => res[var.toNat]?).map fun res => (res, allvar.2)

/-- `fdd_domain`: the values up to `realsize - 1`. -/
def fddDomain (var : ℤ) (w : Domains P) : Option (ℕ × Domains P) :=
  match w.entry var with
  | none => some (0, w.error .var)
  | some d => (domainLoop D isPrime d.vars (d.realsize - 1) 1 w.package.bdd).map fun r =>
      (r.1, w.setBdd r.2)

/-- `fdd_equals`. -/
def fddEquals (left right : ℤ) (w : Domains P) : Option (ℕ × Domains P) :=
  match w.entry left, w.entry right with
  | some d, some e =>
    if d.realsize ≠ e.realsize then some (0, w.error .range)
    else (equalsLoop D isPrime d.vars e.vars 1 w.package.bdd).map fun r =>
      (r.1, w.setBdd (bddDelref r.2 r.1))
  | _, _ => some (0, w.error .var)

end

variable {P : Type*} {D : MtbddDomain P} {isPrime : ℕ → Bool} {T : Theory P} {s s' s'' : BddState P}
  {F G : (ℕ → Bool) → Bool} {L : List ℕ} {V : List ℤ} {n : ℕ}

/-! ## The value of a domain -/

/-- The number that the bits `V` encode. -/
def number (V : List ℤ) (a : ℕ → Bool) : ℕ := Bits.value (V.map fun v x => x v.toNat) a

@[simp] theorem number_nil (a : ℕ → Bool) : number [] a = 0 := rfl

@[simp] theorem number_cons (v : ℤ) (V : List ℤ) (a : ℕ → Bool) :
    number (v :: V) a = (a v.toNat).toNat + 2 * number V a := rfl

/-- What `fdd_ithvar` conjoins: the bits are those of `val`. -/
def isValue : List ℤ → ℤ → (ℕ → Bool) → Bool
  | [], _, _ => true
  | v :: V, val, a => (a v.toNat == decide (val % 2 = 1)) && isValue V (val / 2) a

theorem isValue_iff {val : ℤ} (hval : 0 ≤ val) (hlt : val < 2 ^ V.length) (a : ℕ → Bool) :
    isValue V val a = true ↔ (number V a : ℤ) = val := by
  induction V generalizing val with
  | nil =>
    have hlt : val < 1 := by simpa using hlt
    obtain rfl : val = 0 := by omega
    simp [isValue]
  | cons v V ih =>
    have hlt : val < 2 ^ V.length * 2 := by simpa [pow_succ] using hlt
    have hrest := @ih (val / 2) (by omega) (by omega)
    rw [isValue, Bool.and_eq_true, hrest, number_cons]
    cases a v.toNat <;> by_cases hbit : val % 2 = 1 <;> simp [hbit] <;> omega

/-- What `fdd_domain` builds from `F`. -/
def upTo : List ℤ → ℤ → ((ℕ → Bool) → Bool) → (ℕ → Bool) → Bool
  | [], _, F => F
  | v :: V, val, F => upTo V (val / 2) fun a =>
    if val % 2 = 1 then !a v.toNat || F a else !a v.toNat && F a

/-- A higher bit decides, whatever the lower ones gave. -/
theorem upTo_iff {val : ℤ} (hval : 0 ≤ val) (hlt : val < 2 ^ V.length) (a : ℕ → Bool) :
    upTo V val F a = true ↔ (number V a : ℤ) < val ∨ (number V a : ℤ) = val ∧ F a = true := by
  induction V generalizing val F with
  | nil =>
    have hlt : val < 1 := by simpa using hlt
    obtain rfl : val = 0 := by omega
    simp [upTo]
  | cons v V ih =>
    have hlt : val < 2 ^ V.length * 2 := by simpa [pow_succ] using hlt
    rw [upTo, @ih _ (val / 2) (by omega) (by omega), number_cons]
    by_cases hbit : val % 2 = 1 <;> cases a v.toNat <;> cases F a <;> simp [hbit] <;> omega

/-- What `fdd_equals` builds from `F`. -/
def sameBits : List ℤ → List ℤ → ((ℕ → Bool) → Bool) → (ℕ → Bool) → Bool
  | l :: left, r :: right, F => sameBits left right fun a => F a && (a l.toNat == a r.toNat)
  | _, _, F => F

theorem sameBits_iff {W : List ℤ} (h : V.length = W.length) (a : ℕ → Bool) :
    sameBits V W F a = true ↔ number V a = number W a ∧ F a = true := by
  induction V generalizing W F with
  | nil =>
    cases W with
    | nil => simp [sameBits]
    | cons r W => simp at h
  | cons l V ih =>
    cases W with
    | nil => simp at h
    | cons r W =>
      rw [sameBits, ih (Nat.succ.inj h), number_cons, number_cons]
      cases a l.toNat <;> cases a r.toNat <;> simp <;> omega

/-! ## The loops -/

/-- The variables are there. -/
def Exist (s : BddState P) (V : List ℤ) : Prop := ∀ v ∈ V, 0 ≤ v ∧ v < s.env.bddvarnum

theorem Exist.proceeds (h : Exist s V) (hs : Proceeds T s s') : Exist s' V := fun v hv => by
  rw [hs.varnum]
  exact h v hv

theorem Exist.tail {v : ℤ} (h : Exist s (v :: V)) : Exist s V := fun u hu =>
  h u (List.mem_cons_of_mem v hu)

theorem index_of_nonneg {v : ℤ} (hv : 0 ≤ v) : index s v = v.toNat := if_neg (by omega)

theorem ithvar_index (hs : Good T s) {v : ℤ} (hv : 0 ≤ v ∧ v < s.env.bddvarnum) :
    ∃ n, bddIthvar s (index s v) = (n, s) ∧ s.Usable T.D n fun a => a v.toNat := by
  have hlt : v.toNat < s.env.bddvarnum := by omega
  rw [index_of_nonneg hv.1]
  exact ⟨_, (hs.ithvar hlt).1, hs.ithvar_usable hlt⟩

theorem nithvar_index (hs : Good T s) {v : ℤ} (hv : 0 ≤ v ∧ v < s.env.bddvarnum) :
    ∃ n, bddNithvar s (index s v) = (n, s) ∧ s.Usable T.D n fun a => !a v.toNat := by
  have hlt : v.toNat < s.env.bddvarnum := by omega
  have hpin := hs.order.neg v.toNat hlt
  have hpin' : Pinned s.initref (s.env.bddvarset (2 * v.toNat + 1))
      (s.env.bddvar2level v.toNat) 1 0 := ⟨hpin.live, hpin.key, hpin.refcou⟩
  rw [index_of_nonneg hv.1]
  refine ⟨_, ?_, Or.inr hpin'.held, hs.nithvar_represents hlt⟩
  unfold bddNithvar
  rw [if_neg (Nat.not_le.mpr hlt)]

theorem ithvarLoop_built (hT : T.Operates) (hs : Good T s) (hV : Exist s V)
    (hn : Denotes T.D s n F) (hL : s.Covers L) (val : ℤ) :
    ∃ r, ithvarLoop T.D T.isPrime V val n s = some r ∧
      Built T s L (fun a => isValue V val a && F a) r := by
  induction V generalizing s n F val with
  | nil => exact ⟨_, rfl, .refl hs, hL, hn.congr fun a => (Bool.true_and _).symm⟩
  | cons v V ih =>
    have hp₁ := proceeds_addref hs n
    have hs₁ := hp₁.good
    have hv := hV.proceeds hp₁ v List.mem_cons_self
    -- the literal of this bit
    obtain ⟨l, hlit, hl⟩ : ∃ l, (if val % 2 = 1 then
        bddIthvar (bddAddref s n) (index (bddAddref s n) v)
        else bddNithvar (bddAddref s n) (index (bddAddref s n) v)) = (l, bddAddref s n) ∧
        (bddAddref s n).Usable T.D l fun a => a v.toNat == decide (val % 2 = 1) := by
      by_cases hbit : val % 2 = 1
      · obtain ⟨l, hith, hl⟩ := ithvar_index hs₁ hv
        exact ⟨l, by rw [if_pos hbit, hith], by simpa [hbit] using hl⟩
      · obtain ⟨l, hith, hl⟩ := nithvar_index hs₁ hv
        exact ⟨l, by rw [if_neg hbit, hith], by simpa [hbit] using hl⟩
    obtain ⟨res, happly, hbuilt⟩ := apply_held hT hs₁ .and hl (hn.addref n)
      (hL.addref hs hn.isNode)
    have hstep := Built.trans hp₁ hbuilt.delref
    obtain ⟨r, hloop, hr⟩ := ih hstep.proceeds.good
      ((hV.proceeds hstep.proceeds).tail) hstep.result hstep.covers (val / 2)
    refine ⟨r, ?_, hstep.proceeds.trans hr.proceeds, hr.covers, hr.result.congr fun a => ?_⟩
    · unfold ithvarLoop
      dsimp only
      rw [hlit]
      simp only [Option.bind_eq_bind, happly, Option.bind_some]
      exact hloop
    · show (isValue V (val / 2) a && ((a v.toNat == decide (val % 2 = 1)) && F a)) =
        (((a v.toNat == decide (val % 2 = 1)) && isValue V (val / 2) a) && F a)
      rw [← Bool.and_assoc, Bool.and_comm (isValue V (val / 2) a)]

theorem domainLoop_built (hT : T.Operates) (hs : Good T s) (hV : Exist s V)
    (hn : Denotes T.D s n F) (hL : s.Covers (n :: L)) (val : ℤ) :
    ∃ r, domainLoop T.D T.isPrime V val n s = some r ∧
      Built T s (r.1 :: L) (upTo V val F) r := by
  induction V generalizing s n F val with
  | nil => exact ⟨_, rfl, .refl hs, hL, hn⟩
  | cons v V ih =>
    obtain ⟨l, hlit, hl⟩ := nithvar_index hs (hV v List.mem_cons_self)
    obtain ⟨res, happly, hbuilt⟩ := apply_held hT hs (if val % 2 = 1 then .or else .and) hl hn hL
    -- the new diagram is held before the old one is given up
    have hheld := hbuilt.addref
    have hswap : Built T s (n :: res.1 :: L) _ (res.1, bddAddref res.2 res.1) :=
      ⟨hheld.proceeds, hheld.covers.perm (List.Perm.swap _ _ _), hheld.result⟩
    have hstep := hswap.delref
    obtain ⟨r, hloop, hr⟩ := ih hstep.proceeds.good ((hV.proceeds hstep.proceeds).tail)
      hstep.result hstep.covers (val / 2)
    refine ⟨r, ?_, hstep.proceeds.trans hr.proceeds, hr.covers, hr.result.congr fun a => ?_⟩
    · unfold domainLoop
      rw [hlit]
      simp only [Option.bind_eq_bind, happly, Option.bind_some]
      exact hloop
    · show upTo V (val / 2) _ a = upTo V (val / 2) _ a
      refine congrFun (congrArg (upTo V (val / 2)) (funext fun b => ?_)) a
      split <;> rfl

theorem equalsLoop_built (hT : T.Operates) {W : List ℤ} (h : V.length = W.length) (hs : Good T s)
    (hV : Exist s V) (hW : Exist s W) (hn : Denotes T.D s n F) (hL : s.Covers (n :: L)) :
    ∃ r, equalsLoop T.D T.isPrime V W n s = some r ∧
      Built T s (r.1 :: L) (sameBits V W F) r := by
  induction V generalizing s n F W with
  | nil =>
    obtain rfl : W = [] := List.length_eq_zero_iff.mp h.symm
    exact ⟨_, rfl, .refl hs, hL, hn⟩
  | cons v V ih =>
    cases W with
    | nil => simp at h
    | cons w W =>
      obtain ⟨x, hx, hxu⟩ := ithvar_index hs (hV v List.mem_cons_self)
      obtain ⟨y, hy, hyu⟩ := ithvar_index hs (hW w List.mem_cons_self)
      obtain ⟨tmp₁, happly₁, hbuilt₁, hk₁⟩ := apply_built hT hs .biimp
        ⟨_, hxu.2, fun _ => rfl⟩ hxu.1 ⟨_, hyu.2, fun _ => rfl⟩ hyu.1 hL
      have hheld₁ := hbuilt₁.addref
      have hn₁ := (hn.keeps hk₁ (hL.referenced List.mem_cons_self hn.isNode)).addref tmp₁.1
      obtain ⟨tmp₂, happly₂, hbuilt₂, -⟩ := apply_built hT hheld₁.proceeds.good .and hn₁
        (hheld₁.covers.referenced (by simp) hn₁.isNode) hheld₁.result
        (hheld₁.covers.referenced List.mem_cons_self hheld₁.result.isNode) hheld₁.covers
      -- both old diagrams are given up once the new one is held
      have hheld₂ := Built.trans hheld₁.proceeds hbuilt₂.addref
      have hswap : Built T s (tmp₁.1 :: n :: tmp₂.1 :: L) _
          (tmp₂.1, bddAddref tmp₂.2 tmp₂.1) :=
        ⟨hheld₂.proceeds, hheld₂.covers.perm ((List.Perm.swap _ _ _).trans
          ((List.Perm.swap _ _ _).cons _)), hheld₂.result⟩
      have hstep := hswap.delref.delref
      obtain ⟨r, hloop, hr⟩ := ih (Nat.succ.inj h) hstep.proceeds.good
        (hV.proceeds hstep.proceeds).tail (hW.proceeds hstep.proceeds).tail hstep.result
        hstep.covers
      refine ⟨r, ?_, hstep.proceeds.trans hr.proceeds, hr.covers, hr.result⟩
      unfold equalsLoop
      rw [hx]
      dsimp only
      rw [hy]
      simp only [Option.bind_eq_bind, happly₁, Option.bind_some, happly₂]
      exact hloop

end MoToBuddy.Fdd
