import Mathlib.Data.Int.Notation
import MoToBuddy.Bdd.Varset
import MoToBuddy.Lib.While

/-!
# Finite domain blocks (`fdd.c`)

`fdd_extdomain` adds domains to the table: it asks `Domain_allocate` for the number of bits of each,
asks `bdd_setvarnum` for variables, and deals these out to the domains in turn.

* The package is running, and `malloc` and `realloc` succeed.
* `fresh` is what the memory of the new entries of the table holds before anything is written to it.
  An entry whose size is rejected keeps it.
* A write through a pointer that `malloc` did not give is undefined, and so is the read of a bit that
  is not there: the call is `none`.
-/

namespace MoToBuddy.Fdd

open Bdd CountedLoop

/-- An entry of the domain table. The array is missing where the pointer is not from `malloc`. -/
structure Domain where
  realsize : ℤ
  binsize : ℤ
  ivar : Option (ℕ → ℤ)
  var : ℕ

/-- The variables of the bits, the least significant first. -/
def Domain.vars (d : Domain) : List ℤ :=
  (d.ivar.map fun ivar => (List.range d.binsize.toNat).map ivar).getD []

/-- The package with the domain table; `fdvarnum` is the number of its entries. -/
structure Domains (P : Type*) where
  package : Package P
  firstbddvar : ℤ
  domain : List Domain

/-- The sizes that `Domain_allocate` takes. -/
def Accepted (range : ℤ) : Prop := ¬ (range ≤ 0 ∨ range > intMax / 2)

instance (range : ℤ) : Decidable (Accepted range) := inferInstanceAs (Decidable (¬ _))

/-- The loop of `Domain_allocate`, on `binsize` and `calcsize`. -/
def binsizeLoop (range : ℤ) : ℤ × ℤ → Option (ℤ × ℤ) :=
  whileDo (fun p => p.2 < range) (fun p => some (p.1 + 1, p.2 * 2)) 32

section

variable {P : Type*}

/-- `Domain_allocate`, for an entry with the contents `d`. -/
def domainAllocate (d : Domain) (range : ℤ) (s : BddState P) : Option (Domain × BddState P) :=
  if range ≤ 0 ∨ range > intMax / 2 then some (d, s.error .range)
  else
    -- every entry of the array is written before it is read
    (binsizeLoop range (1, 2)).map fun p => (⟨range, p.1, some fun _ => 0, 1⟩, s)

/-- The entries for `dom`, from the `n`-th new one on. -/
def allocateLoop (fresh : ℕ → Domain) :
    ℕ → List ℤ → BddState P → Option (List Domain × BddState P)
  | _, [], s => some ([], s)
  | n, range :: dom, s => do
    let (d, s) ← domainAllocate (fresh n) range s
    let (ds, s) ← allocateLoop fresh (n + 1) dom s
    some (d :: ds, s)

end

/-- `extravars`. -/
def extravars (ds : List Domain) : ℤ := (ds.map Domain.binsize).sum

/-- One round of the interleaving: every domain that has a bit `bn` gets the next variable for it.
The flag is `more`. -/
def interleaveRound (bn : ℕ) : List Domain → ℤ → Option (Bool × List Domain × ℤ)
  | [], binoffset => some (false, [], binoffset)
  | d :: ds, binoffset =>
    if (bn : ℤ) < d.binsize then do
      let ivar ← d.ivar
      let (_, ds, binoffset') ← interleaveRound bn ds (binoffset + 1)
      some (true, { d with ivar := some (Function.update ivar bn binoffset) } :: ds, binoffset')
    else do
      let (more, ds, binoffset) ← interleaveRound bn ds binoffset
      some (more, d :: ds, binoffset)

/-- What the interleaving loop works on. -/
structure Interleaving where
  bn : ℕ
  more : Bool
  ds : List Domain
  binoffset : ℤ

/-- A round, and `bn++`. -/
def interleaveStep (l : Interleaving) : Option Interleaving := do
  let (more, ds, binoffset) ← interleaveRound l.bn l.ds l.binoffset
  some ⟨l.bn + 1, more, ds, binoffset⟩

/-- The most bits that a domain has. -/
def maxBits (ds : List Domain) : ℕ := (ds.map fun d => d.binsize.toNat).foldr max 0

/-- The interleaving loop. There is a round for each bit, and one that finds none left. -/
def interleave (ds : List Domain) (binoffset : ℤ) : Option (List Domain) :=
  (whileDo (·.more) interleaveStep (maxBits ds + 2) ⟨0, true, ds, binoffset⟩).map (·.ds)

section

variable {P : Type*} (D : MtbddDomain P) (isPrime : ℕ → Bool)

/-- What `bdd_ithvar` does for an `int`: it rejects a negative variable as it does one that is too
large. -/
def index (s : BddState P) (v : ℤ) : ℕ := if v < 0 then s.env.bddvarnum else v.toNat

/-- The loop that makes the variable sets. -/
def makesetLoop : List Domain → BddState P → Option (List Domain × BddState P)
  | [], s => some ([], s)
  | d :: ds, s => do
    let (var, s) ← bddMakeset D isPrime (d.vars.map (index s)) s
    let (ds, s) ← makesetLoop ds (bddAddref s var)
    some ({ d with var := var } :: ds, s)

/-- `fdd_extdomain`. What `bdd_setvarnum` returns is not looked at. -/
def fddExtdomain (fresh : ℕ → Domain) (dom : List ℤ) (w : Domains P) : Option (ℤ × Domains P) := do
  let offset := w.domain.length
  let (ds, s) ← allocateLoop fresh 0 dom w.package.bdd
  let extravars := extravars ds
  let binoffset := w.firstbddvar
  let package := { w.package with bdd := s }
  let package :=
    if w.firstbddvar + extravars > s.env.bddvarnum then
      package.setvarnum D isPrime (w.firstbddvar + extravars).toNat
    else package
  (interleave ds binoffset).bind fun ds => do
    let (ds, s) ← makesetLoop D isPrime ds package.bdd
    some (offset,
      { package := { package with bdd := s }
        firstbddvar := w.firstbddvar + extravars
        domain := w.domain ++ ds })

end

/-! ## Rejected sizes -/

section

variable {P : Type*} {D : MtbddDomain P} {isPrime : ℕ → Bool} {s s' : BddState P}
  {fresh : ℕ → Domain} {dom : List ℤ} {ds ds' : List Domain} {w w' : Domains P}

theorem length_allocateLoop {n : ℕ} (h : allocateLoop fresh n dom s = some (ds, s')) :
    ds.length = dom.length := by
  induction dom generalizing n ds s s' with
  | nil =>
    simp only [allocateLoop, Option.some.injEq, Prod.mk.injEq] at h
    simp [← h.1]
  | cons range dom ih =>
    simp only [allocateLoop, Option.bind_eq_bind, Option.bind_eq_some_iff, Option.some.injEq,
      Prod.mk.injEq] at h
    obtain ⟨⟨d, s₁⟩, -, ⟨ds₁, s₂⟩, hloop, rfl, -⟩ := h
    simp [ih hloop]

theorem length_interleaveRound {bn : ℕ} {more : Bool} {off off' : ℤ}
    (h : interleaveRound bn ds off = some (more, ds', off')) : ds'.length = ds.length := by
  induction ds generalizing more ds' off off' with
  | nil =>
    simp only [interleaveRound, Option.some.injEq, Prod.mk.injEq] at h
    simp [← h.2.1]
  | cons d ds ih =>
    unfold interleaveRound at h
    split at h
    · simp only [Option.bind_eq_bind, Option.bind_eq_some_iff, Option.some.injEq,
        Prod.mk.injEq] at h
      obtain ⟨ivar, -, ⟨m, ds₁, o⟩, hrest, -, rfl, -⟩ := h
      simp [ih hrest]
    · simp only [Option.bind_eq_bind, Option.bind_eq_some_iff, Option.some.injEq,
        Prod.mk.injEq] at h
      obtain ⟨⟨m, ds₁, o⟩, hrest, -, rfl, -⟩ := h
      simp [ih hrest]

theorem length_interleave {off : ℤ} (h : interleave ds off = some ds') :
    ds'.length = ds.length := by
  obtain ⟨l, hloop, rfl⟩ := Option.map_eq_some_iff.mp h
  refine whileDo_invariant (fun l : Interleaving => l.ds.length = ds.length) ?_ rfl hloop
  intro l l' hl _ hstep
  simp only [interleaveStep, Option.bind_eq_bind, Option.bind_eq_some_iff,
    Option.some.injEq] at hstep
  obtain ⟨⟨more, ds₁, o⟩, hround, rfl⟩ := hstep
  exact (length_interleaveRound hround).trans hl

/-- A domain without its set. -/
def Domain.bare (d : Domain) : Domain := { d with var := 0 }

/-- The loop that makes the sets only writes the sets. -/
theorem makesetLoop_bare (h : makesetLoop D isPrime ds s = some (ds', s')) :
    ds'.map Domain.bare = ds.map Domain.bare := by
  induction ds generalizing ds' s with
  | nil =>
    simp only [makesetLoop, Option.some.injEq, Prod.mk.injEq] at h
    rw [← h.1]
  | cons d ds ih =>
    simp only [makesetLoop, Option.bind_eq_bind, Option.bind_eq_some_iff, Option.some.injEq,
      Prod.mk.injEq] at h
    obtain ⟨⟨var, s₁⟩, -, ⟨ds₁, s₂⟩, hloop, rfl, rfl⟩ := h
    rw [List.map_cons, List.map_cons, ih hloop]
    rfl

/-- The package that the variables of the new domains are in. -/
def enlarged (D : MtbddDomain P) (isPrime : ℕ → Bool) (w : Domains P) (ds : List Domain)
    (s : BddState P) : Package P :=
  if w.firstbddvar + extravars ds > s.env.bddvarnum then
    { w.package with bdd := s }.setvarnum D isPrime (w.firstbddvar + extravars ds).toNat
  else { w.package with bdd := s }

/-- The steps of a call that returns. -/
theorem fddExtdomain_steps {offset : ℤ}
    (h : fddExtdomain D isPrime fresh dom w = some (offset, w')) :
    ∃ ds s ds₁ ds₂ s₂, allocateLoop fresh 0 dom w.package.bdd = some (ds, s) ∧
      interleave ds w.firstbddvar = some ds₁ ∧
      makesetLoop D isPrime ds₁ (enlarged D isPrime w ds s).bdd = some (ds₂, s₂) ∧
      offset = w.domain.length ∧ w' =
        { package := { enlarged D isPrime w ds s with bdd := s₂ }
          firstbddvar := w.firstbddvar + extravars ds
          domain := w.domain ++ ds₂ } := by
  simp only [fddExtdomain, Option.bind_eq_bind, Option.bind_eq_some_iff, Option.some.injEq,
    Prod.mk.injEq] at h
  obtain ⟨⟨ds, s⟩, halloc, ds₁, hinter, ⟨ds₂, s₂⟩, hmake, rfl, rfl⟩ := h
  exact ⟨ds, s, ds₁, ds₂, s₂, halloc, hinter, hmake, rfl, rfl⟩

/-- The index of the first new domain is returned, and there are `num` domains more. -/
theorem fddExtdomain_adds {offset : ℤ}
    (h : fddExtdomain D isPrime fresh dom w = some (offset, w')) :
    offset = w.domain.length ∧ w'.domain.length = w.domain.length + dom.length := by
  obtain ⟨ds, s, ds₁, ds₂, s₂, halloc, hinter, hmake, rfl, rfl⟩ := fddExtdomain_steps h
  have hlen := congrArg List.length (makesetLoop_bare hmake)
  rw [List.length_map, List.length_map, length_interleave hinter, length_allocateLoop halloc] at hlen
  exact ⟨rfl, by rw [List.length_append, hlen]⟩

/-- The call tells `BDD_RANGE` and changes neither the table nor the numbers of variables. -/
def Rejects (w : Domains P) (o : Option (ℤ × Domains P)) : Prop :=
  ∃ w', o = some (errorCode .range, w') ∧ w'.domain = w.domain ∧ w'.firstbddvar = w.firstbddvar ∧
    w'.package.bdd.env.bddvarnum = w.package.bdd.env.bddvarnum

/-- `Domain_allocate` only tells the error, and `fdd_extdomain` goes on with what is in the entry:
whenever it returns, the domains of all sizes have been added. -/
theorem fddExtdomain_not_rejects (hbad : ∃ range ∈ dom, ¬ Accepted range) :
    ¬ Rejects w (fddExtdomain D isPrime fresh dom w) ∧
      ∀ offset w', fddExtdomain D isPrime fresh dom w = some (offset, w') →
        offset = w.domain.length ∧ w.domain.length < w'.domain.length := by
  have hnum : 0 < dom.length := by
    obtain ⟨range, hmem, -⟩ := hbad
    exact List.length_pos_of_mem hmem
  have hadds : ∀ offset w', fddExtdomain D isPrime fresh dom w = some (offset, w') →
      offset = w.domain.length ∧ w.domain.length < w'.domain.length := fun offset w' h => by
    obtain ⟨hoffset, hlen⟩ := fddExtdomain_adds h
    exact ⟨hoffset, by omega⟩
  refine ⟨?_, hadds⟩
  rintro ⟨w', h, hdomain, -⟩
  have hlen := (hadds _ w' h).2
  rw [hdomain] at hlen
  omega

/-- The table of a session without domains. -/
def noDomains (package : Package P) : Domains P := ⟨package, 0, []⟩

/-- Memory that is all zero. -/
def zeroed : ℕ → Domain := fun _ => ⟨0, 0, none, 0⟩

theorem fddExtdomain_not_rejects_second : ¬ Rejects (noDomains Package.twoVariables)
      (fddExtdomain intDomain trialDivision zeroed [4, -1] (noDomains Package.twoVariables)) ∧
    ∀ offset w', fddExtdomain intDomain trialDivision zeroed [4, -1]
      (noDomains Package.twoVariables) = some (offset, w') →
      offset = (noDomains Package.twoVariables).domain.length ∧
        (noDomains Package.twoVariables).domain.length < w'.domain.length :=
  fddExtdomain_not_rejects ⟨-1, by decide, by decide⟩

/-- A domain of size `0` becomes domain `0`. -/
theorem fddExtdomain_zero : ¬ Accepted 0 ∧
    ((fddExtdomain intDomain trialDivision zeroed [0] (noDomains Package.twoVariables)).map
      fun r => (r.1, r.2.domain.length, r.2.package.bdd.errors)) = some (0, 1, [.range]) ∧
    ¬ Rejects (noDomains Package.twoVariables)
      (fddExtdomain intDomain trialDivision zeroed [0] (noDomains Package.twoVariables)) := by
  have hcall : ((fddExtdomain intDomain trialDivision zeroed [0]
      (noDomains Package.twoVariables)).map
      fun r => (r.1, r.2.domain.length, r.2.package.bdd.errors)) = some (0, 1, [.range]) := by
    decide +kernel
  refine ⟨by decide, hcall, ?_⟩
  rintro ⟨w', h, -⟩
  rw [h, Option.map_some, Option.some.injEq, Prod.mk.injEq] at hcall
  have hcode : errorCode .range ≠ 0 := by decide
  exact hcode hcall.1

end

end MoToBuddy.Fdd
