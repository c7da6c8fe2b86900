import MoToBuddy.Fdd.Domain

/-!
# The variables of the domains (`fdd.c`)

`fdd_extdomain` counts its variables on its own, from `firstbddvar` on. Whatever it is called with,
the new domains share the variables that follow (`interleave_spec`), so no variable belongs to two
domains. They are new to the package only if the package has no variables beyond those of the domains
(`fddExtdomain_fresh_iff`).
-/

namespace MoToBuddy.Fdd

open Bdd CountedLoop

variable {P : Type*} {D : MtbddDomain P} {isPrime : ℕ → Bool} {s s' : BddState P}
  {fresh : ℕ → Domain} {dom : List ℤ} {d : Domain} {ds ds' : List Domain} {w w' : Domains P}

/-! ## Counting up -/

/-- The `k` numbers from `off` on. -/
def upFrom (off : ℤ) (k : ℕ) : List ℤ := (List.range k).map fun i : ℕ => off + i

@[simp] theorem length_upFrom (off : ℤ) (k : ℕ) : (upFrom off k).length = k := by simp [upFrom]

theorem upFrom_succ (off : ℤ) (k : ℕ) : upFrom off (k + 1) = off :: upFrom (off + 1) k := by
  unfold upFrom
  rw [List.range_succ_eq_map, List.map_cons, List.map_map]
  refine congrArg₂ _ (by simp) (List.map_congr_left fun i _ => ?_)
  show off + ((i + 1 : ℕ) : ℤ) = off + 1 + i
  push_cast
  omega

theorem upFrom_append (off : ℤ) (j k : ℕ) :
    upFrom off (j + k) = upFrom off j ++ upFrom (off + j) k := by
  unfold upFrom
  rw [List.range_add, List.map_append, List.map_map]
  refine congrArg _ (List.map_congr_left fun i _ => ?_)
  show off + ((j + i : ℕ) : ℤ) = off + j + i
  push_cast
  omega

theorem mem_upFrom {off v : ℤ} {k : ℕ} : v ∈ upFrom off k ↔ off ≤ v ∧ v < off + k := by
  unfold upFrom
  rw [List.mem_map]
  constructor
  · rintro ⟨i, hi, rfl⟩
    have hi := List.mem_range.mp hi
    omega
  · intro h
    exact ⟨(v - off).toNat, List.mem_range.mpr (by omega), by omega⟩

theorem nodup_upFrom (off : ℤ) (k : ℕ) : (upFrom off k).Nodup :=
  List.nodup_range.map fun i j h => by
    have h : off + (i : ℤ) = off + j := h
    omega

/-! ## Interleaving -/

/-- The variables of the bits before `bn`. -/
def Domain.taken (bn : ℕ) (d : Domain) : List ℤ :=
  (d.ivar.map fun ivar => (List.range (min bn d.binsize.toNat)).map ivar).getD []

theorem Domain.taken_zero (d : Domain) : d.taken 0 = [] := by
  unfold Domain.taken
  cases d.ivar <;> simp

theorem Domain.taken_all {bn : ℕ} (h : d.binsize ≤ bn) : d.taken bn = d.vars := by
  unfold Domain.taken Domain.vars
  rw [min_eq_right (by omega)]

theorem Domain.length_vars (h : d.ivar.isSome) : d.vars.length = d.binsize.toNat := by
  obtain ⟨ivar, hivar⟩ := Option.isSome_iff_exists.mp h
  simp [Domain.vars, hivar]

/-- A domain without a bit `bn` gets no variable for it. -/
theorem Domain.taken_keep {bn : ℕ} (h : ¬ (bn : ℤ) < d.binsize) :
    d.taken (bn + 1) = d.taken bn := by
  rw [Domain.taken_all (by omega), Domain.taken_all (by omega)]

theorem Domain.taken_update {bn : ℕ} {off : ℤ} {ivar : ℕ → ℤ} (hivar : d.ivar = some ivar)
    (h : (bn : ℤ) < d.binsize) :
    Domain.taken (bn + 1) { d with ivar := some (Function.update ivar bn off) } =
      d.taken bn ++ [off] := by
  have hsucc : min (bn + 1) d.binsize.toNat = bn + 1 := by omega
  have hmin : min bn d.binsize.toNat = bn := by omega
  unfold Domain.taken
  rw [hivar]
  simp only [Option.map_some, Option.getD_some, hsucc, hmin, List.range_succ, List.map_append,
    List.map_cons, List.map_nil, Function.update_self]
  refine congrArg (· ++ _) (List.map_congr_left fun i hi => ?_)
  have hi := List.mem_range.mp hi
  exact Function.update_of_ne (by omega) _ _

/-- What is known of a domain before it has variables. -/
def Domain.sizes (d : Domain) : ℤ × ℤ := (d.realsize, d.binsize)

/-- What a round gives: one variable each to the domains that have a bit left. -/
theorem interleaveRound_spec {bn : ℕ} {off : ℤ} (hds : ∀ d ∈ ds, d.ivar.isSome) :
    ∃ more ds' k, interleaveRound bn ds off = some (more, ds', off + (k : ℕ)) ∧
      ds'.map Domain.sizes = ds.map Domain.sizes ∧ (∀ d ∈ ds', d.ivar.isSome) ∧
      (ds'.flatMap (Domain.taken (bn + 1))).Perm (ds.flatMap (Domain.taken bn) ++ upFrom off k) ∧
      (more = true ↔ ∃ d ∈ ds, (bn : ℤ) < d.binsize) := by
  induction ds generalizing off with
  | nil => exact ⟨false, [], 0, by simp [interleaveRound], rfl, by simp, by simp [upFrom], by simp⟩
  | cons d ds ih =>
    obtain ⟨ivar, hivar⟩ := Option.isSome_iff_exists.mp (hds d List.mem_cons_self)
    have hrest : ∀ d ∈ ds, d.ivar.isSome := fun e he => hds e (List.mem_cons_of_mem d he)
    by_cases hbn : (bn : ℤ) < d.binsize
    · obtain ⟨more, ds', k, hround, hsizes, hsome, hperm, -⟩ := @ih (off + 1) hrest
      refine ⟨true, { d with ivar := some (Function.update ivar bn off) } :: ds', k + 1, ?_, ?_, ?_,
        ?_, by simp [hbn]⟩
      · unfold interleaveRound
        rw [if_pos hbn, hivar]
        simp only [Option.bind_eq_bind, Option.bind_some, hround]
        push_cast
        rw [add_assoc off 1, add_comm 1 (k : ℤ)]
      · rw [List.map_cons, List.map_cons, hsizes]
        rfl
      · simpa using hsome
      · rw [List.flatMap_cons, List.flatMap_cons, Domain.taken_update hivar hbn, upFrom_succ]
        -- the variable of this domain comes before those of the others
        calc (d.taken bn ++ [off] ++ ds'.flatMap (Domain.taken (bn + 1))).Perm
              (d.taken bn ++ [off] ++ (ds.flatMap (Domain.taken bn) ++ upFrom (off + 1) k)) :=
            hperm.append_left _
          _ = d.taken bn ++ off :: (ds.flatMap (Domain.taken bn) ++ upFrom (off + 1) k) :=
            List.append_assoc ..
          List.Perm _ (d.taken bn ++ (ds.flatMap (Domain.taken bn) ++
              (off :: upFrom (off + 1) k))) :=
            (List.perm_middle.symm).append_left _
          _ = _ := (List.append_assoc ..).symm
    · obtain ⟨more, ds', k, hround, hsizes, hsome, hperm, hmore⟩ := @ih off hrest
      refine ⟨more, d :: ds', k, ?_, ?_, ?_, ?_, ?_⟩
      · unfold interleaveRound
        rw [if_neg hbn]
        simp only [Option.bind_eq_bind, Option.bind_some, hround]
      · rw [List.map_cons, List.map_cons, hsizes]
      · simpa [hivar] using hsome
      · rw [List.flatMap_cons, List.flatMap_cons, Domain.taken_keep hbn, List.append_assoc]
        exact hperm.append_left _
      · rw [hmore]
        simp [hbn]

theorem le_maxBits (hd : d ∈ ds) : d.binsize ≤ maxBits ds := by
  induction ds with
  | nil => simp at hd
  | cons e ds ih =>
    have hmax : maxBits (e :: ds) = max e.binsize.toNat (maxBits ds) := rfl
    rcases List.mem_cons.mp hd with rfl | hd
    · omega
    · have := ih hd
      omega

/-- Equal sizes are equal numbers of bits. -/
theorem binsize_of_sizes (h : ds'.map Domain.sizes = ds.map Domain.sizes) :
    ds'.map Domain.binsize = ds.map Domain.binsize := by
  have hmap := congrArg (List.map Prod.snd) h
  rwa [List.map_map, List.map_map] at hmap

/-- What holds before each test of `more`: the bits before `bn` have their variables. -/
structure Dealt (ds : List Domain) (off : ℤ) (left : ℕ) (l : Interleaving) : Prop where
  sizes : l.ds.map Domain.sizes = ds.map Domain.sizes
  ivar : ∀ d ∈ l.ds, d.ivar.isSome
  left : left = maxBits ds + 1 - l.bn
  more : if l.more then l.bn ≤ maxBits ds else ∀ d ∈ l.ds, d.binsize ≤ l.bn
  dealt : ∃ k : ℕ, l.binoffset = off + k ∧
    (l.ds.flatMap (Domain.taken l.bn)).Perm (upFrom off k)

theorem Dealt.step {off : ℤ} {left : ℕ} {l : Interleaving} (h : Dealt ds off left l)
    (hmore : l.more = true) : ∃ j l', j < left ∧ interleaveStep l = some l' ∧ Dealt ds off j l' := by
  obtain ⟨more, ds', k, hround, hsizes, hsome, hperm, hiff⟩ :=
    @interleaveRound_spec l.ds l.bn l.binoffset h.ivar
  obtain ⟨k₀, hoff, hdealt⟩ := h.dealt
  have hbn := h.more
  rw [if_pos hmore] at hbn
  have hleft := h.left
  refine ⟨maxBits ds + 1 - (l.bn + 1), ⟨l.bn + 1, more, ds', l.binoffset + k⟩, by omega, ?_,
    hsizes.trans h.sizes, hsome, rfl, ?_, k₀ + k, ?_, ?_⟩
  · unfold interleaveStep
    rw [hround]
    rfl
  · -- a round that gave a variable was for a bit that some domain has
    have hbits := binsize_of_sizes hsizes
    cases hm : more with
    | true =>
      obtain ⟨d, hd, hlt⟩ := hiff.mp hm
      have hmem : d.binsize ∈ ds.map Domain.binsize := by
        rw [← binsize_of_sizes h.sizes]
        exact List.mem_map_of_mem hd
      obtain ⟨e, he, heq⟩ := List.mem_map.mp hmem
      have := le_maxBits he
      show l.bn + 1 ≤ maxBits ds
      omega
    | false =>
      intro d hd
      have hmem : d.binsize ∈ l.ds.map Domain.binsize := hbits ▸ List.mem_map_of_mem hd
      obtain ⟨e, he, heq⟩ := List.mem_map.mp hmem
      have hno : ¬ (l.bn : ℤ) < e.binsize := fun hlt => by
        have := hiff.mpr ⟨e, he, hlt⟩
        rw [hm] at this
        exact absurd this Bool.false_ne_true
      show d.binsize ≤ ((l.bn + 1 : ℕ) : ℤ)
      push_cast
      omega
  · show l.binoffset + k = off + ((k₀ + k : ℕ) : ℤ)
    push_cast
    omega
  · rw [upFrom_append, ← hoff]
    exact hperm.trans (hdealt.append_right _)

/-- The domains share the variables from the offset on. -/
theorem interleave_spec (hds : ∀ d ∈ ds, d.ivar.isSome ∧ 0 ≤ d.binsize) (off : ℤ) :
    ∃ ds', interleave ds off = some ds' ∧ ds'.map Domain.sizes = ds.map Domain.sizes ∧
      (∀ d ∈ ds', d.ivar.isSome) ∧ ∃ k : ℕ, extravars ds = k ∧
        (ds'.flatMap Domain.vars).Perm (upFrom off k) := by
  have hstart : Dealt ds off (maxBits ds + 1) ⟨0, true, ds, off⟩ :=
    ⟨rfl, fun d hd => (hds d hd).1, by simp, by simp, 0, by simp, by
      simp [Domain.taken_zero, upFrom]⟩
  obtain ⟨j, l, hloop, hdone, hl⟩ := whileDo_total (c := fun l : Interleaving => l.more)
    (f := interleaveStep) (Dealt ds off) (fun k l h hc => h.step hc) hstart
    (show maxBits ds + 1 < maxBits ds + 2 by omega)
  have hbits := hl.more
  rw [if_neg (by rw [hdone]; exact Bool.false_ne_true)] at hbits
  obtain ⟨k, -, hperm⟩ := hl.dealt
  have hvars : l.ds.flatMap (Domain.taken l.bn) = l.ds.flatMap Domain.vars :=
    List.flatMap_congr fun d hd => Domain.taken_all (hbits d hd)
  rw [hvars] at hperm
  refine ⟨l.ds, by simp [interleave, hloop], hl.sizes, hl.ivar, k, ?_, hperm⟩
  -- as many variables as bits
  have hlen : ∀ d ∈ l.ds, ((d.vars.length : ℕ) : ℤ) = d.binsize := fun d hd => by
    have hmem : d.binsize ∈ ds.map Domain.binsize := by
      rw [← binsize_of_sizes hl.sizes]
      exact List.mem_map_of_mem hd
    obtain ⟨e, he, heq⟩ := List.mem_map.mp hmem
    have hpos := (hds e he).2
    rw [Domain.length_vars (hl.ivar d hd)]
    omega
  calc extravars ds = (l.ds.map Domain.binsize).sum := by
        unfold extravars
        rw [binsize_of_sizes hl.sizes]
    _ = (l.ds.map fun d => ((d.vars.length : ℕ) : ℤ)).sum :=
        congrArg List.sum (List.map_congr_left fun d hd => (hlen d hd).symm)
    _ = ((l.ds.flatMap Domain.vars).length : ℕ) := by
        rw [List.length_flatMap, Nat.cast_list_sum, List.map_map]
        rfl
    _ = k := by rw [hperm.length_eq, length_upFrom]

/-! ## Allocation -/

/-- A domain of an accepted size, with enough bits. -/
structure Domain.Sized (d : Domain) : Prop where
  realsize : 0 < d.realsize
  binsize : 0 < d.binsize
  enough : d.realsize ≤ 2 ^ d.binsize.toNat
  bits : (binsizeLoop d.realsize (1, 2)).map Prod.fst = some d.binsize
  ivar : d.ivar.isSome

/-- The loop of `Domain_allocate` doubles until the size is reached, without an overflow. -/
theorem binsizeLoop_spec {range : ℤ} (h : Accepted range) : ∃ b : ℕ,
    binsizeLoop range (1, 2) = some (((b + 1 : ℕ) : ℤ), 2 ^ (b + 1)) ∧ range ≤ 2 ^ (b + 1) ∧
      b + 1 ≤ 30 := by
  have hmax : range ≤ 2 ^ 30 - 1 := by
    have hle := (not_or.mp h).2
    have hval : intMax / 2 = 2 ^ 30 - 1 := by decide
    omega
  obtain ⟨j, p, hloop, hdone, b, hp, hj, hb⟩ := whileDo_total (c := fun p : ℤ × ℤ => p.2 < range)
    (f := fun p => some (p.1 + 1, p.2 * 2)) (s := (1, 2)) (k := 29)
    (fun k p => ∃ b : ℕ, p = (((b + 1 : ℕ) : ℤ), 2 ^ (b + 1)) ∧ k = 29 - b ∧ b ≤ 29)
    (fun k p => by
      rintro ⟨b, rfl, rfl, hb⟩ hlt
      have hlt : (2 : ℤ) ^ (b + 1) < range := by simpa using hlt
      have hb29 : b < 29 := by
        by_contra hge
        have hpow : (2 : ℤ) ^ 30 ≤ 2 ^ (b + 1) := pow_le_pow_right₀ (by decide) (by omega)
        omega
      exact ⟨29 - (b + 1), _, by omega, rfl, b + 1, by push_cast; ring_nf, rfl, hb29⟩)
    ⟨0, rfl, rfl, by decide⟩ (show 29 < 32 by decide)
  subst hp
  exact ⟨b, hloop, by simpa using hdone, by omega⟩

theorem domainAllocate_spec {range : ℤ} (h : Accepted range) (s : BddState P) :
    ∃ d', domainAllocate d range s = some (d', s) ∧ d'.Sized ∧ d'.realsize = range := by
  obtain ⟨b, hloop, henough, -⟩ := binsizeLoop_spec h
  unfold domainAllocate
  rw [if_neg h, hloop]
  refine ⟨_, rfl, ⟨?_, ?_, ?_, by rw [hloop]; rfl, rfl⟩, rfl⟩
  · exact not_le.mp (not_or.mp h).1
  · show (0 : ℤ) < ((b + 1 : ℕ) : ℤ)
    omega
  · show range ≤ 2 ^ (((b + 1 : ℕ) : ℤ)).toNat
    rw [Int.toNat_natCast]
    exact henough

theorem allocateLoop_spec (fresh : ℕ → Domain) (hdom : ∀ range ∈ dom, Accepted range) (n : ℕ) (s : BddState P) :
    ∃ ds, allocateLoop fresh n dom s = some (ds, s) ∧ (∀ d ∈ ds, d.Sized) ∧
      ds.map Domain.realsize = dom := by
  induction dom generalizing n with
  | nil => exact ⟨[], rfl, by simp, rfl⟩
  | cons range dom ih =>
    obtain ⟨d, halloc, hsized, hsize⟩ := domainAllocate_spec (d := fresh n)
      (hdom range List.mem_cons_self) s
    obtain ⟨ds, hloop, hds, hsizes⟩ := ih (fun r hr => hdom r (List.mem_cons_of_mem _ hr)) (n + 1)
    refine ⟨d :: ds, ?_, by simpa using ⟨hsized, hds⟩, by rw [List.map_cons, hsize, hsizes]⟩
    unfold allocateLoop
    simp only [Option.bind_eq_bind, halloc, Option.bind_some, hloop]

/-! ## The table -/

/-- The domains have variables of their own, all before `firstbddvar`. -/
structure Laid (w : Domains P) : Prop where
  first : 0 ≤ w.firstbddvar
  sized : ∀ d ∈ w.domain, d.Sized
  vars : ∀ v ∈ w.domain.flatMap Domain.vars, 0 ≤ v ∧ v < w.firstbddvar
  nodup : (w.domain.flatMap Domain.vars).Nodup

/-- What a call with accepted sizes does to the table. -/
structure Extended (dom : List ℤ) (w w' : Domains P) (ds : List Domain) : Prop where
  domain : w'.domain = w.domain ++ ds
  sized : ∀ d ∈ ds, d.Sized
  sizes : ds.map Domain.realsize = dom
  vars : ∃ k : ℕ, w'.firstbddvar = w.firstbddvar + k ∧
    (ds.flatMap Domain.vars).Perm (upFrom w.firstbddvar k)

/-- What only depends on the domains without their sets. -/
theorem map_of_bare {α : Type*} (f : Domain → α) (hf : ∀ d : Domain, f d.bare = f d)
    (h : ds'.map Domain.bare = ds.map Domain.bare) : ds'.map f = ds.map f := by
  have hmap := congrArg (List.map f) h
  rw [List.map_map, List.map_map] at hmap
  have hcomp : f ∘ Domain.bare = f := funext hf
  rwa [hcomp] at hmap

theorem Domain.Sized.of_sizes {e : Domain} (h : e.Sized) (hsizes : d.sizes = e.sizes)
    (hivar : d.ivar.isSome) : d.Sized := by
  obtain ⟨hreal, hbin⟩ := Prod.mk.inj hsizes
  exact ⟨hreal ▸ h.realsize, hbin ▸ h.binsize, by rw [hreal, hbin]; exact h.enough,
    by rw [hreal, hbin]; exact h.bits, hivar⟩

theorem fddExtdomain_extended (hdom : ∀ range ∈ dom, Accepted range) {offset : ℤ}
    (h : fddExtdomain D isPrime fresh dom w = some (offset, w')) :
    offset = w.domain.length ∧ ∃ ds, Extended dom w w' ds := by
  obtain ⟨ds, s, ds₁, ds₂, s₂, halloc, hinter, hmake, rfl, rfl⟩ := fddExtdomain_steps h
  obtain ⟨ds', halloc', hsized, hsizes⟩ := allocateLoop_spec fresh hdom 0 w.package.bdd
  obtain ⟨rfl, rfl⟩ := Prod.mk.inj (Option.some.inj (halloc'.symm.trans halloc))
  obtain ⟨ds₁', hinter', hsame, hivar, k, hextra, hperm⟩ :=
    interleave_spec (fun d hd => ⟨(hsized d hd).ivar, (hsized d hd).binsize.le⟩) w.firstbddvar
  obtain rfl := Option.some.inj (hinter'.symm.trans hinter)
  have hbare := makesetLoop_bare hmake
  have hsame₂ : ds₂.map Domain.sizes = ds'.map Domain.sizes :=
    (map_of_bare Domain.sizes (fun _ => rfl) hbare).trans hsame
  have hivar₂ : ∀ d ∈ ds₂, d.ivar.isSome := fun d hd => by
    have hmem : d.ivar ∈ ds₁'.map Domain.ivar := by
      rw [← map_of_bare Domain.ivar (fun _ => rfl) hbare]
      exact List.mem_map_of_mem hd
    obtain ⟨e, he, heq⟩ := List.mem_map.mp hmem
    exact heq ▸ hivar e he
  refine ⟨rfl, ds₂, rfl, fun d hd => ?_, ?_, k, ?_, ?_⟩
  · have hmem : d.sizes ∈ ds'.map Domain.sizes := hsame₂ ▸ List.mem_map_of_mem hd
    obtain ⟨e, he, heq⟩ := List.mem_map.mp hmem
    exact (hsized e he).of_sizes heq.symm (hivar₂ d hd)
  · have hmap := congrArg (List.map Prod.fst) hsame₂
    rw [List.map_map, List.map_map] at hmap
    exact hmap.trans hsizes
  · show w.firstbddvar + extravars ds' = _
    rw [hextra]
  · rw [List.flatMap_def, map_of_bare Domain.vars (fun _ => rfl) hbare, ← List.flatMap_def]
    exact hperm

/-- The new variables follow the ones before. -/
theorem Laid.extended (h : Laid w) (he : Extended dom w w' ds) : Laid w' := by
  obtain ⟨k, hfirst, hperm⟩ := he.vars
  have hold := h.vars
  have hnew : ∀ v ∈ ds.flatMap Domain.vars, w.firstbddvar ≤ v ∧ v < w.firstbddvar + k := fun v hv =>
    mem_upFrom.mp (hperm.mem_iff.mp hv)
  have hpos := h.first
  refine ⟨by omega, fun d hd => ?_, fun v hv => ?_, ?_⟩
  · rw [he.domain] at hd
    rcases List.mem_append.mp hd with hd | hd
    · exact h.sized d hd
    · exact he.sized d hd
  · rw [he.domain, List.flatMap_append, List.mem_append] at hv
    rcases hv with hv | hv
    · have := hold v hv
      omega
    · have := hnew v hv
      omega
  · rw [he.domain, List.flatMap_append]
    refine h.nodup.append (hperm.nodup_iff.mpr (nodup_upFrom _ _)) fun v hv hv' => ?_
    have := hold v hv
    have := hnew v hv'
    omega

theorem Laid.of_same (h : Laid w) (hdomain : w'.domain = w.domain)
    (hfirst : w'.firstbddvar = w.firstbddvar) : Laid w' :=
  ⟨by rw [hfirst]; exact h.first, by rw [hdomain]; exact h.sized,
    by rw [hdomain, hfirst]; exact h.vars, by rw [hdomain]; exact h.nodup⟩

/-! ## Allocating from one space -/

/-- `bdd_extvarnum`. -/
def extvarnum (D : MtbddDomain P) (isPrime : ℕ → Bool) (num : ℤ) (w : Package P) : ℤ × Package P :=
  let start := w.bdd.env.bddvarnum
  if num < 0 ∨ num > 0x3FFFFFFF then (errorCode .range, w.error .range)
  else (start, w.setvarnum D isPrime (start + num.toNat))

/-- The calls that ask for variables. A negative number is out of range for `bdd_setvarnum`, as zero
is. -/
inductive Allocation (D : MtbddDomain P) (isPrime : ℕ → Bool) (w : Domains P) : Domains P → Prop
  | setvarnum (num : ℤ) :
      Allocation D isPrime w { w with package := w.package.setvarnum D isPrime num.toNat }
  | extvarnum (num : ℤ) :
      Allocation D isPrime w { w with package := (extvarnum D isPrime num w.package).2 }
  | extdomain (fresh : ℕ → Domain) (dom : List ℤ) (hdom : ∀ range ∈ dom, Accepted range)
      (offset : ℤ) (w' : Domains P) (h : fddExtdomain D isPrime fresh dom w = some (offset, w')) :
      Allocation D isPrime w w'

/-- What such calls make of a package that was just started. -/
inductive Allocated (D : MtbddDomain P) (isPrime : ℕ → Bool) : Domains P → Prop
  | init (size cachesize : ℕ) :
      Allocated D isPrime (noDomains ⟨bddInit size cachesize, [], 0⟩)
  | step {w w' : Domains P} (before : Allocated D isPrime w) (h : Allocation D isPrime w w') :
      Allocated D isPrime w'

theorem laid_noDomains (package : Package P) : Laid (noDomains package) :=
  ⟨le_rfl, by simp [noDomains], by simp [noDomains], by simp [noDomains]⟩

theorem Allocation.laid (h : Allocation D isPrime w w') (hw : Laid w) : Laid w' := by
  cases h with
  | setvarnum num => exact hw.of_same rfl rfl
  | extvarnum num => exact hw.of_same rfl rfl
  | extdomain fresh dom hdom offset w' h =>
    obtain ⟨-, ds, he⟩ := fddExtdomain_extended hdom h
    exact hw.extended he

theorem Allocated.laid (h : Allocated D isPrime w) : Laid w := by
  induction h with
  | init size cachesize => exact laid_noDomains _
  | step _ h ih => exact h.laid ih

/-- The variables of the domains that a call added were no variables of the package, and they are in
no other domain. -/
def Fresh (w w' : Domains P) : Prop :=
  ∀ i d v, w.domain.length ≤ i → w'.domain[i]? = some d → v ∈ d.vars →
    (w.package.bdd.env.bddvarnum : ℤ) ≤ v ∧ ∀ j e, w'.domain[j]? = some e → v ∈ e.vars → j = i

/-- A variable is in one domain only. -/
theorem Laid.unique (h : Laid w) {i j : ℕ} {e : Domain} {v : ℤ} (hi : w.domain[i]? = some d)
    (hj : w.domain[j]? = some e) (hd : v ∈ d.vars) (he : v ∈ e.vars) : j = i := by
  obtain ⟨hilt, rfl⟩ := List.getElem?_eq_some_iff.mp hi
  obtain ⟨hjlt, rfl⟩ := List.getElem?_eq_some_iff.mp hj
  have hpair := (List.nodup_flatMap.mp h.nodup).2
  rw [List.pairwise_iff_getElem] at hpair
  rcases Nat.lt_trichotomy i j with hlt | heq | hlt
  · exact absurd he (hpair i j hilt hjlt hlt hd)
  · exact heq.symm
  · exact absurd hd (hpair j i hjlt hilt hlt he)

/-- Whatever calls came before: the variables of new domains are fresh exactly when the package has
no variables besides those of the domains. -/
theorem fddExtdomain_fresh_iff (hw : Allocated D isPrime w)
    (hdom : ∀ range ∈ dom, Accepted range) {offset : ℤ}
    (h : fddExtdomain D isPrime fresh dom w = some (offset, w')) :
    Fresh w w' ↔ dom = [] ∨ (w.package.bdd.env.bddvarnum : ℤ) ≤ w.firstbddvar := by
  obtain ⟨-, ds, he⟩ := fddExtdomain_extended hdom h
  have hlaid := hw.laid.extended he
  obtain ⟨k, -, hperm⟩ := he.vars
  have hnew : ∀ i, w.domain.length ≤ i → w'.domain[i]? = ds[i - w.domain.length]? := fun i hi => by
    rw [he.domain, List.getElem?_append_right hi]
  constructor
  · intro hfresh
    by_contra hnot
    obtain ⟨hne, hlt⟩ := not_or.mp hnot
    -- the first of the new variables was there before
    obtain ⟨d, ds', rfl⟩ : ∃ d ds', ds = d :: ds' := by
      cases ds with
      | nil => exact absurd he.sizes.symm hne
      | cons d ds' => exact ⟨d, ds', rfl⟩
    have hk : 0 < k := by
      have hsized := he.sized d List.mem_cons_self
      have hlen := hperm.length_eq
      have hbits := hsized.binsize
      rw [List.flatMap_cons, List.length_append, Domain.length_vars hsized.ivar,
        length_upFrom] at hlen
      omega
    have hmem : w.firstbddvar ∈ (d :: ds').flatMap Domain.vars :=
      hperm.mem_iff.mpr (mem_upFrom.mpr ⟨le_rfl, by omega⟩)
    obtain ⟨e, hmem, hv⟩ := List.mem_flatMap.mp hmem
    obtain ⟨i, hi⟩ := List.mem_iff_getElem?.mp hmem
    have hle := (hfresh (w.domain.length + i) e w.firstbddvar (Nat.le_add_right _ _) (by
      rw [hnew _ (Nat.le_add_right _ _), Nat.add_sub_cancel_left]
      exact hi) hv).1
    exact hlt hle
  · intro hcases i d v hi hd hv
    refine ⟨?_, fun j e hj hvj => hlaid.unique hd hj hv hvj⟩
    rw [hnew i hi] at hd
    have hmem : d ∈ ds := List.mem_iff_getElem?.mpr ⟨_, hd⟩
    rcases hcases with rfl | hle
    · rw [List.map_eq_nil_iff.mp he.sizes] at hmem
      exact absurd hmem List.not_mem_nil
    · have hrange := mem_upFrom.mp (hperm.mem_iff.mp (List.mem_flatMap.mpr ⟨d, hmem, hv⟩))
      omega

/-- Five variables, and the same domains. -/
def moreVariables (w : Domains UInt32) : Domains UInt32 :=
  { w with package := w.package.setvarnum intDomain trialDivision 5 }

/-- Two more domains, right after a domain of three values, and after more variables. -/
theorem fddExtdomain_fresh_iff_run : ∃ (w w₁ w₂ : Domains UInt32) (offset offset' : ℤ),
    Allocated intDomain trialDivision w ∧
    fddExtdomain intDomain trialDivision zeroed [2, 4] w = some (offset, w₁) ∧ Fresh w w₁ ∧
    fddExtdomain intDomain trialDivision zeroed [2, 4] (moreVariables w) = some (offset', w₂) ∧
    ¬ Fresh (moreVariables w) w₂ := by
  have hrun : ((fddExtdomain intDomain trialDivision zeroed [3]
      (noDomains ⟨bddInit 31 3, [], 0⟩)).bind fun first =>
      (fddExtdomain intDomain trialDivision zeroed [2, 4] first.2).bind fun _ =>
      (fddExtdomain intDomain trialDivision zeroed [2, 4] (moreVariables first.2)).map fun _ =>
        (first.2.package.bdd.env.bddvarnum, first.2.firstbddvar,
          (moreVariables first.2).package.bdd.env.bddvarnum)) = some (2, 2, 5) := by
    decide +kernel
  obtain ⟨first, hfirst, hrun⟩ := Option.bind_eq_some_iff.mp hrun
  obtain ⟨second, hsecond, hrun⟩ := Option.bind_eq_some_iff.mp hrun
  obtain ⟨third, hthird, hnums⟩ := Option.map_eq_some_iff.mp hrun
  obtain ⟨hnum, hnext, hmore⟩ := by simpa only [Prod.mk.injEq] using hnums
  have hw : Allocated intDomain trialDivision first.2 :=
    .step (.init 31 3) (.extdomain zeroed [3] (by decide) first.1 first.2 hfirst)
  have hw' : Allocated intDomain trialDivision (moreVariables first.2) := .step hw (.setvarnum 5)
  have hfresh := fddExtdomain_fresh_iff hw (by decide) hsecond
  have hnotFresh := fddExtdomain_fresh_iff hw' (by decide) hthird
  refine ⟨first.2, second.2, third.2, second.1, third.1, hw, hsecond, hfresh.mpr (.inr ?_), hthird,
    fun h => ?_⟩
  · rw [hnum, hnext]
    exact le_rfl
  · have hle := (hnotFresh.mp h).resolve_left (List.cons_ne_nil _ _)
    have hsame : (moreVariables first.2).firstbddvar = first.2.firstbddvar := rfl
    rw [hmore, hsame, hnext] at hle
    exact absurd hle (by decide)

/-- With two variables in the package, these become the variables of the first domain. -/
theorem fddExtdomain_notFresh : ∃ offset w',
    Allocated intDomain trialDivision (noDomains Package.twoVariables) ∧
    fddExtdomain intDomain trialDivision zeroed [4] (noDomains Package.twoVariables) =
      some (offset, w') ∧
    ¬ Fresh (noDomains Package.twoVariables) w' := by
  have hcall : ((fddExtdomain intDomain trialDivision zeroed [4]
      (noDomains Package.twoVariables)).map fun r => r.2.domain.map Domain.vars) =
      some [[0, 1]] := by
    decide +kernel
  have hnum : (noDomains Package.twoVariables).package.bdd.env.bddvarnum = 2 :=
    twoVariables_varnum
  obtain ⟨r, hr, hvars⟩ := Option.map_eq_some_iff.mp hcall
  refine ⟨r.1, r.2, .step (.init 11 3) (.setvarnum 2), hr, fun hfresh => ?_⟩
  obtain ⟨d, hd, hvd⟩ : ∃ d, r.2.domain[0]? = some d ∧ d.vars = [0, 1] := by
    cases hdomain : r.2.domain with
    | nil => simp [hdomain] at hvars
    | cons d ds =>
      rw [hdomain, List.map_cons, List.cons.injEq] at hvars
      exact ⟨d, rfl, hvars.1⟩
  have hle := (hfresh 0 d 0 (Nat.zero_le _) hd (by simp [hvd])).1
  rw [hnum] at hle
  omega

end MoToBuddy.Fdd
