import MoToBuddy.Fdd.Scan

/-!
# Sessions with finite domains (`fdd.c`)

In a session the domains are added by calls of `fdd_extdomain` that succeed, between any calls of the
package. Then the variables of all domains are there (`Domains.Reached.wellFormed`), and encoding,
the bound of a domain, equality and scanning agree (`Domains.Reached.encodes`).
-/

namespace MoToBuddy.Fdd

open Bdd BoolFun Decision

variable {P : Type*} {D : MtbddDomain P} {isPrime : ℕ → Bool} {T : Theory P} {s s' : BddState P}
  {fresh : ℕ → Domain} {dom : List ℤ} {d e : Domain} {ds ds' : List Domain} {w w' : Domains P}
  {V : List ℤ} {f : (ℕ → Bool) → Bool}

/-! ## The numbers that bits encode -/

theorem number_congr {a b : ℕ → Bool} (h : ∀ v ∈ V, a v.toNat = b v.toNat) :
    number V a = number V b := by
  induction V with
  | nil => rfl
  | cons v V ih =>
    rw [number_cons, number_cons, h v List.mem_cons_self,
      ih fun u hu => h u (List.mem_cons_of_mem v hu)]

/-- A number has one encoding. -/
theorem number_inj {a b : ℕ → Bool} (h : number V a = number V b) :
    ∀ v ∈ V, a v.toNat = b v.toNat := by
  induction V with
  | nil => simp
  | cons v V ih =>
    rw [number_cons, number_cons] at h
    have hbit : a v.toNat = b v.toNat := by
      cases hav : a v.toNat <;> cases hbv : b v.toNat <;> simp [hav, hbv] at h ⊢ <;> omega
    rw [hbit] at h
    intro u hu
    rcases List.mem_cons.mp hu with rfl | hu
    · exact hbit
    · exact ih (by omega) u hu

/-- Every number below the bound has an encoding, as the bits have variables of their own. -/
theorem exists_number (hV : V.Nodup) (hpos : ∀ v ∈ V, 0 ≤ v) {k : ℕ} (hk : k < 2 ^ V.length) :
    ∃ a, number V a = k := by
  induction V generalizing k with
  | nil =>
    have hk : k < 1 := by simpa using hk
    exact ⟨fun _ => false, by rw [number_nil]; omega⟩
  | cons v V ih =>
    obtain ⟨hv, hV⟩ := List.nodup_cons.mp hV
    have hk : k < 2 ^ V.length * 2 := by simpa [pow_succ] using hk
    obtain ⟨a, ha⟩ := ih hV (fun u hu => hpos u (List.mem_cons_of_mem v hu)) (k := k / 2) (by omega)
    refine ⟨Function.update a v.toNat (decide (k % 2 = 1)), ?_⟩
    have hrest : number V (Function.update a v.toNat (decide (k % 2 = 1))) = number V a :=
      number_congr fun u hu => Function.update_of_ne (fun heq => hv (by
        have h1 := hpos u (List.mem_cons_of_mem v hu)
        have h2 := hpos v List.mem_cons_self
        have huv : u = v := by omega
        exact huv ▸ hu)) _ _
    rw [number_cons, hrest, ha, Function.update_self]
    by_cases hbit : k % 2 = 1 <;> simp [hbit] <;> omega

/-! ## Sessions -/

/-- A call that succeeds: the sizes are accepted, `bdd_setvarnum` makes the variables, and nothing
is reported while the sets are made. -/
structure Succeeds (D : MtbddDomain P) (isPrime : ℕ → Bool) (fresh : ℕ → Domain) (dom : List ℤ)
    (w w' : Domains P) : Prop where
  call : ∃ offset, fddExtdomain D isPrime fresh dom w = some (offset, w')
  accepted : ∀ range ∈ dom, Accepted range
  room : ∀ ds s, allocateLoop fresh 0 dom w.package.bdd = some (ds, s) →
    (enlarged D isPrime w ds s).bdd.Ok ∧
      w.firstbddvar + extravars ds ≤ (enlarged D isPrime w ds s).bdd.env.bddvarnum
  ok : w'.package.bdd.Ok

/-- The states of a session in which all calls succeeded so far. -/
inductive Domains.Reached (D : MtbddDomain P) (isPrime : ℕ → Bool) (reset : BddState P → Prop) :
    Domains P → Prop
  | init (size cachesize : ℕ) (h : GoodSize isPrime size) :
      Reached D isPrime reset (noDomains ⟨bddInit size cachesize, [], 0⟩)
  | call {w : Domains P} {package : Package P} (before : Reached D isPrime reset w)
      (h : Package.Action D isPrime reset (fun _ => True) w.package package)
      (hok : package.bdd.Ok) : Reached D isPrime reset { w with package := package }
  | extdomain {w w' : Domains P} (before : Reached D isPrime reset w) (fresh : ℕ → Domain)
      (dom : List ℤ) (h : Succeeds D isPrime fresh dom w w') : Reached D isPrime reset w'

/-- The package is well formed, and the domains have variables of their own. -/
structure WellFormed (D : MtbddDomain P) (isPrime : ℕ → Bool) (w : Domains P) : Prop
    extends Laid w where
  healthy : w.package.Healthy D isPrime
  exist : w.firstbddvar ≤ w.package.bdd.env.bddvarnum

theorem WellFormed.vars_exist (h : WellFormed D isPrime w) (hd : d ∈ w.domain) :
    Exist w.package.bdd d.vars := fun v hv => by
  have hv := h.vars v (List.mem_flatMap.mpr ⟨d, hd, hv⟩)
  have := h.exist
  omega

theorem Exist.index_lt (h : Exist s V) : ∀ v ∈ V.map (index s), v < s.env.bddvarnum := by
  intro v hv
  obtain ⟨u, hu, rfl⟩ := List.mem_map.mp hv
  have hu := h u hu
  rw [index_of_nonneg hu.1]
  omega

/-- The sets are made, and the variables stay. -/
theorem makesetLoop_proceeds (hT : T.Operates) (hs : Good T s) (hds : ∀ d ∈ ds, Exist s d.vars) :
    ∃ r, makesetLoop T.D T.isPrime ds s = some r ∧ Proceeds T s r.2 := by
  induction ds generalizing s with
  | nil => exact ⟨_, rfl, .refl hs⟩
  | cons d ds ih =>
    obtain ⟨⟨var, s₁⟩, hmake, hbuilt⟩ := bddMakeset_built hT hs
      (hds d List.mem_cons_self).index_lt (L := []) fun n _ => Or.inr (Nat.zero_le _)
    have hp := hbuilt.addref.proceeds
    obtain ⟨⟨ds₁, s₂⟩, hloop, hp₂⟩ := ih hp.good fun e he =>
      (hds e (List.mem_cons_of_mem d he)).proceeds hp
    refine ⟨({ d with var := var } :: ds₁, s₂), ?_, hp.trans hp₂⟩
    unfold makesetLoop
    simp only [Option.bind_eq_bind, hmake, Option.bind_some, hloop]

theorem makesetLoop_healthy {package : Package P} (hw : package.Healthy D isPrime)
    (hds : ∀ d ∈ ds, Exist package.bdd d.vars)
    (h : makesetLoop D isPrime ds package.bdd = some (ds', s')) (hok : s'.Ok) :
    Package.Healthy D isPrime { package with bdd := s' } := by
  induction ds generalizing package ds' with
  | nil =>
    obtain ⟨-, rfl⟩ := Prod.mk.inj (Option.some.inj h)
    exact hw
  | cons d ds ih =>
    obtain ⟨⟨σ, hc⟩, ho⟩ := id hw
    have hT := full_operates D isPrime σ package.bdd.env.bddvarnum
    have hindex := (hds d List.mem_cons_self).index_lt
    obtain ⟨⟨var, s₁⟩, hmake, hbuilt⟩ := bddMakeset_built hT hc.good hindex (L := package.entries) ho
    have hp := hbuilt.addref.proceeds
    have hrest : ∀ e ∈ ds, Exist (bddAddref s₁ var) e.vars := fun e he =>
      (hds e (List.mem_cons_of_mem d he)).proceeds hp
    obtain ⟨⟨ds₁, s₂⟩, hloop, hp₂⟩ := makesetLoop_proceeds hT hp.good hrest
    have hmake : bddMakeset D isPrime (d.vars.map (index package.bdd)) package.bdd =
        some (var, s₁) := hmake
    have hloop : makesetLoop D isPrime ds (bddAddref s₁ var) = some (ds₁, s₂) := hloop
    unfold makesetLoop at h
    simp only [Option.bind_eq_bind, hmake, Option.bind_some, hloop, Option.some.injEq,
      Prod.mk.injEq] at h
    obtain ⟨-, rfl⟩ := h
    have hok₂ := hp₂.ok hok
    have h₁ := hw.makeset hindex hmake ((bddAddref_ok s₁ var).mp hok₂)
    have h₂ := h₁.act (.addref var hbuilt.result.isNode) hok₂
    exact @ih _ { package with bdd := bddAddref s₁ var } h₂ hrest hloop

theorem WellFormed.extdomain (h : WellFormed D isPrime w)
    (hs : Succeeds D isPrime fresh dom w w') : WellFormed D isPrime w' := by
  obtain ⟨offset, hcall⟩ := hs.call
  obtain ⟨-, new, he⟩ := fddExtdomain_extended hs.accepted hcall
  have hlaid := h.toLaid.extended he
  obtain ⟨ds, s, ds₁, ds₂, s₂, halloc, hinter, hmake, -, rfl⟩ := fddExtdomain_steps hcall
  obtain ⟨ds', halloc', -⟩ := allocateLoop_spec fresh hs.accepted 0 w.package.bdd
  obtain ⟨rfl, rfl⟩ := Prod.mk.inj (Option.some.inj (halloc'.symm.trans halloc))
  obtain ⟨hok, hroom⟩ := hs.room _ _ halloc
  -- `bdd_setvarnum` keeps the package well formed
  have hpackage : (enlarged D isPrime w ds' w.package.bdd).Healthy D isPrime := by
    unfold enlarged at hok ⊢
    split_ifs at hok ⊢
    · exact h.healthy.setvarnum _ hok
    · exact h.healthy
  -- the variables of the new domains are below the next free one
  have hbare := makesetLoop_bare hmake
  have hexist : ∀ d ∈ ds₁, Exist (enlarged D isPrime w ds' w.package.bdd).bdd d.vars := by
    intro d hd v hv
    have hmem : v ∈ (w.domain ++ ds₂).flatMap Domain.vars := by
      rw [List.flatMap_append, List.mem_append, List.flatMap_def (l := ds₂),
        map_of_bare Domain.vars (fun _ => rfl) hbare, ← List.flatMap_def]
      exact Or.inr (List.mem_flatMap.mpr ⟨d, hd, hv⟩)
    obtain ⟨hpos, hlt⟩ := hlaid.vars v hmem
    have hlt : v < w.firstbddvar + extravars ds' := hlt
    exact ⟨hpos, by omega⟩
  refine ⟨hlaid, makesetLoop_healthy hpackage hexist hmake hs.ok, ?_⟩
  obtain ⟨⟨σ, hc⟩, -⟩ := hpackage
  obtain ⟨r, hr, hp⟩ := makesetLoop_proceeds
    (full_operates D isPrime σ (enlarged D isPrime w ds' w.package.bdd).bdd.env.bddvarnum)
    hc.good hexist
  obtain rfl := Option.some.inj (hr.symm.trans hmake)
  show w.firstbddvar + extravars ds' ≤ s₂.env.bddvarnum
  rw [show s₂.env.bddvarnum = _ from hp.varnum]
  exact hroom

theorem Domains.Reached.wellFormed {reset : BddState P → Prop}
    (h : w.Reached D isPrime reset) : WellFormed D isPrime w := by
  induction h with
  | init size cachesize h =>
    exact ⟨laid_noDomains _, Package.bddInit_healthy cachesize h, Int.natCast_nonneg _⟩
  | @call w package _ h hok ih =>
    have hle := h.varnum ih.healthy hok
    have hexist := ih.exist
    exact ⟨ih.toLaid.of_same rfl rfl, h.healthy ih.healthy hok, by
      show w.firstbddvar ≤ package.bdd.env.bddvarnum
      omega⟩
  | extdomain _ fresh dom h ih => exact ih.extdomain h

/-! ## Main result -/

/-- The encoding, the bounds, equality and scanning of the domains agree. -/
structure Encodes (D : MtbddDomain P) (isPrime : ℕ → Bool) (w : Domains P) : Prop where
  apart : w.domain.Pairwise fun d e => d.vars.Disjoint e.vars
  enough : ∀ d ∈ w.domain, d.vars.length = d.binsize ∧ d.realsize ≤ 2 ^ d.vars.length
  scan : ∀ (i : ℕ) (d : Domain), w.domain[i]? = some d → ∀ k, 0 ≤ k → k < d.realsize →
    ∃ r w', fddIthvar D isPrime i k w = some (r, w') ∧
      (w'.package.bdd.Ok → fddScanvar r i w' = some (k, w'))
  domain : ∀ (i : ℕ) (d : Domain), w.domain[i]? = some d →
    ∃ r w', fddDomain D isPrime i w = some (r, w') ∧ (w'.package.bdd.Ok →
      w'.package.bdd.Represents D r fun a => decide ((number d.vars a : ℤ) < d.realsize))
  equals : ∀ (i j : ℕ) (d e : Domain), w.domain[i]? = some d → w.domain[j]? = some e →
    d.realsize = e.realsize →
    ∃ r w', fddEquals D isPrime i j w = some (r, w') ∧ (w'.package.bdd.Ok →
      w'.package.bdd.Represents D r fun a => decide (number d.vars a = number e.vars a))
  scanall : ∀ (r : ℕ) (f : (ℕ → Bool) → Bool), w.package.bdd.Represents D r f →
    (∃ a, f a = true) →
    (∀ a b : ℕ → Bool, (∀ d ∈ w.domain, ∀ v ∈ d.vars, a v.toNat = b v.toNat) → f a = f b) →
    ∃ res, fddScanallvar r w = some (some res, w) ∧ (∃ a, w.values a = res) ∧
      ∀ a, w.values a = res → f a = true

theorem represents_zero (h : s.Represents D 0 f) (a : ℕ → Bool) : f a = false := by
  obtain ⟨t, hr, -, hf⟩ := h
  rw [← hf, hr.unique (.const false)]
  rfl

theorem Domains.entry_natCast (w : Domains P) (i : ℕ) : w.entry i = w.domain[i]? :=
  if_neg (by omega)

theorem covers_one {L : List ℕ} (h : s.Covers L) : s.Covers (1 :: L) := fun n hn => by
  rw [List.count_cons_of_ne (by omega)]
  exact h n hn

section

variable {i j : ℕ}

theorem Laid.vars_pos (h : Laid w) (hd : d ∈ w.domain) : ∀ v ∈ d.vars, 0 ≤ v := fun v hv =>
  (h.vars v (List.mem_flatMap.mpr ⟨d, hd, hv⟩)).1

theorem Laid.vars_nodup (h : Laid w) (hd : d ∈ w.domain) : d.vars.Nodup :=
  (List.nodup_flatMap.mp h.nodup).1 d hd

theorem Domain.Sized.enough_vars (h : d.Sized) : d.realsize ≤ 2 ^ d.vars.length := by
  rw [Domain.length_vars h.ivar]
  exact h.enough

/-- The value that is encoded is the value that is scanned. -/
theorem WellFormed.scan (h : WellFormed D isPrime w) (hd : w.domain[i]? = some d) {k : ℤ}
    (hk : 0 ≤ k) (hlt : k < d.realsize) :
    ∃ r w', fddIthvar D isPrime i k w = some (r, w') ∧
      (w'.package.bdd.Ok → fddScanvar r i w' = some (k, w')) := by
  have hmem := List.mem_of_getElem? hd
  have henough := (h.sized d hmem).enough_vars
  obtain ⟨⟨σ, hc⟩, ho⟩ := h.healthy
  have hT := full_operates D isPrime σ w.package.bdd.env.bddvarnum
  obtain ⟨⟨r, s'⟩, hloop, hbuilt⟩ := ithvarLoop_built hT hc.good (h.vars_exist hmem)
    (denotes_one _) ho k
  have hloop : ithvarLoop D isPrime d.vars k 1 w.package.bdd = some (r, s') := hloop
  refine ⟨r, w.setBdd s', ?_, fun hok => ?_⟩
  · unfold fddIthvar
    rw [w.entry_natCast, hd]
    dsimp only
    rw [if_neg (by omega), hloop]
    rfl
  · obtain ⟨F, hF, hFV⟩ := hbuilt.result
    rw [hFV hok] at hF
    have hvalue := fun a => isValue_iff (V := d.vars) hk (by omega) a
    -- the value has an encoding, so that there is something to scan
    have hz : r ≠ 0 := by
      rintro rfl
      obtain ⟨a, ha⟩ := exists_number (h.vars_nodup hmem) (h.vars_pos hmem) (k := k.toNat) (by
        have hcast : ((2 ^ d.vars.length : ℕ) : ℤ) = 2 ^ d.vars.length := by push_cast; rfl
        omega)
      have hfalse := represents_zero hF a
      rw [(hvalue a).mpr (by omega)] at hfalse
      exact absurd hfalse (by decide)
    have hexist : ∀ d ∈ (w.setBdd s').domain, Exist (w.setBdd s').package.bdd d.vars := fun e he =>
      (h.vars_exist he).proceeds hbuilt.proceeds
    obtain ⟨store, hstore, hscan⟩ := fddScanvar_spec (w := w.setBdd s') hbuilt.proceeds.good
      hT.reduced hexist hF hz hd
    rw [hscan, (hvalue store).mp (by simpa using hstore)]

theorem WellFormed.domain_exact (h : WellFormed D isPrime w) (hd : w.domain[i]? = some d) :
    ∃ r w', fddDomain D isPrime i w = some (r, w') ∧ (w'.package.bdd.Ok →
      w'.package.bdd.Represents D r fun a => decide ((number d.vars a : ℤ) < d.realsize)) := by
  have hmem := List.mem_of_getElem? hd
  have hsized := h.sized d hmem
  have henough := hsized.enough_vars
  have hpos := hsized.realsize
  obtain ⟨⟨σ, hc⟩, ho⟩ := h.healthy
  have hT := full_operates D isPrime σ w.package.bdd.env.bddvarnum
  obtain ⟨⟨r, s'⟩, hloop, hbuilt⟩ := domainLoop_built hT hc.good (h.vars_exist hmem)
    (denotes_one _) (covers_one ho) (d.realsize - 1)
  have hloop : domainLoop D isPrime d.vars (d.realsize - 1) 1 w.package.bdd = some (r, s') := hloop
  refine ⟨r, w.setBdd s', ?_, fun hok => ?_⟩
  · unfold fddDomain
    rw [w.entry_natCast, hd]
    dsimp only
    rw [hloop]
    rfl
  · obtain ⟨F, hF, hFV⟩ := hbuilt.result
    rw [hFV hok] at hF
    refine cast (congrArg _ (funext fun a => ?_)) hF
    rw [Bool.eq_iff_iff, upTo_iff (by omega) (by omega), decide_eq_true_eq]
    simp only [and_true]
    omega

theorem WellFormed.equals_exact (h : WellFormed D isPrime w) (hd : w.domain[i]? = some d)
    (he : w.domain[j]? = some e) (hsize : d.realsize = e.realsize) :
    ∃ r w', fddEquals D isPrime i j w = some (r, w') ∧ (w'.package.bdd.Ok →
      w'.package.bdd.Represents D r fun a =>
        decide (number d.vars a = number e.vars a)) := by
  have hmemd := List.mem_of_getElem? hd
  have hmeme := List.mem_of_getElem? he
  have hsd := h.sized d hmemd
  have hse := h.sized e hmeme
  -- equal sizes have equally many bits
  have hbits : d.binsize = e.binsize := by
    have h1 := hsd.bits
    rw [hsize, hse.bits] at h1
    exact (Option.some.inj h1).symm
  have hlen : d.vars.length = e.vars.length := by
    rw [Domain.length_vars hsd.ivar, Domain.length_vars hse.ivar, hbits]
  obtain ⟨⟨σ, hc⟩, ho⟩ := h.healthy
  have hT := full_operates D isPrime σ w.package.bdd.env.bddvarnum
  obtain ⟨⟨r, s'⟩, hloop, hbuilt⟩ := equalsLoop_built hT hlen hc.good (h.vars_exist hmemd)
    (h.vars_exist hmeme) (denotes_one _) (covers_one ho)
  have hloop : equalsLoop D isPrime d.vars e.vars 1 w.package.bdd = some (r, s') := hloop
  refine ⟨r, w.setBdd (bddDelref s' r), ?_, fun hok => ?_⟩
  · unfold fddEquals
    rw [w.entry_natCast, w.entry_natCast, hd, he]
    dsimp only
    rw [if_neg (not_not.mpr hsize), hloop]
    rfl
  · obtain ⟨F, hF, hFV⟩ := hbuilt.delref.result
    rw [hFV hok] at hF
    refine cast (congrArg _ (funext fun a => ?_)) hF
    rw [Bool.eq_iff_iff, sameBits_iff hlen, decide_eq_true_eq]
    exact and_iff_left rfl

theorem WellFormed.scanall (h : WellFormed D isPrime w) {r : ℕ}
    (hr : w.package.bdd.Represents D r f) (hsat : ∃ a, f a = true)
    (hover : ∀ a b : ℕ → Bool, (∀ d ∈ w.domain, ∀ v ∈ d.vars, a v.toNat = b v.toNat) → f a = f b) :
    ∃ res, fddScanallvar r w = some (some res, w) ∧ (∃ a, w.values a = res) ∧
      ∀ a, w.values a = res → f a = true := by
  obtain ⟨⟨σ, hc⟩, -⟩ := h.healthy
  have hT := full_operates D isPrime σ w.package.bdd.env.bddvarnum
  have hz : r ≠ 0 := by
    rintro rfl
    obtain ⟨a, ha⟩ := hsat
    exact absurd ((represents_zero hr a).symm.trans ha) Bool.false_ne_true
  obtain ⟨store, hstore, hscan⟩ := fddScanallvar_spec hc.good hT.reduced
    (fun d hd => h.vars_exist hd) hr hz
  refine ⟨_, hscan, ⟨store, rfl⟩, fun a ha => ?_⟩
  -- equal values are equal bits
  rw [hover a store fun d hd => number_inj (Int.ofNat_inj.mp ?_), hstore]
  exact List.map_inj_left.mp ha d hd

end

theorem Domains.Reached.encodes {reset : BddState P → Prop} (hw : w.Reached D isPrime reset) :
    Encodes D isPrime w := by
  have h := hw.wellFormed
  refine ⟨(List.nodup_flatMap.mp h.nodup).2, fun d hd => ?_, fun i d hd k => h.scan hd,
    fun i d hd => h.domain_exact hd, fun i j d e hd he => h.equals_exact hd he,
    fun r f hr => h.scanall hr⟩
  have hsized := h.sized d hd
  refine ⟨?_, hsized.enough_vars⟩
  have hbin := hsized.binsize
  rw [Domain.length_vars hsized.ivar]
  omega

/-- A package that was just started. -/
def started : Package UInt32 := ⟨bddInit 29 5, [], 0⟩

theorem twoDomains_encodes : ∃ offset w',
    fddExtdomain intDomain trialDivision zeroed [3, 2] (noDomains started) = some (offset, w') ∧
      Encodes intDomain trialDivision w' := by
  have hsome : ((fddExtdomain intDomain trialDivision zeroed [3, 2] (noDomains started)).map
      fun r => r.2.package.bdd.bdderrorcond) = some false := by
    decide +kernel
  obtain ⟨⟨offset, w'⟩, hcall, hok⟩ := Option.map_eq_some_iff.mp hsome
  have hroom : ((allocateLoop zeroed 0 [3, 2] started.bdd).map fun r =>
      let package := enlarged intDomain trialDivision (noDomains started) r.1 r.2
      decide (package.bdd.bdderrorcond = false ∧
        0 + extravars r.1 ≤ package.bdd.env.bddvarnum)) = some true := by
    decide +kernel
  have hreached : w'.Reached intDomain trialDivision fun _ => True := by
    refine .extdomain (.init 29 5 ⟨by decide, by decide, by decide⟩) zeroed [3, 2]
      ⟨⟨offset, hcall⟩, by decide, fun ds s h => ?_, hok⟩
    have halloc : allocateLoop zeroed 0 [3, 2] started.bdd = some (ds, s) := h
    rw [halloc, Option.map_some, Option.some.injEq, decide_eq_true_eq] at hroom
    exact hroom
  exact ⟨offset, w', hcall, hreached.encodes⟩

end MoToBuddy.Fdd
