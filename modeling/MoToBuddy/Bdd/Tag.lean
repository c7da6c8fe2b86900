import Mathlib.Data.Nat.Bitwise
import MoToBuddy.Bdd.Cache

/-!
# Cache tags (`bddop.c`)

Operations that share a cache tag their entries: the node id of a variable set, a level or the
id of a pair is shifted, and a few low bits tell the operation apart. All of it is done in 32
bits, so the high bits of large ids are lost.

* `cacheTags`: for a request, the caches it uses with its tags.
* `clash_iff_congruent`: two requests have a tag of one cache in common if and only if they
  are the same operation on ids that agree in the bits that the shifts leave.
* `hit_of_run`: in a run, a hit returns the result of a request with that tag.
-/

namespace MoToBuddy.Bdd

/-- An `int` shifted left, with low bits put in. -/
def tagId (id : UInt32) (shift low : UInt32) : UInt32 := (id <<< shift) ||| low

/-- `CACHEID_*`. -/
abbrev cacheidConstrain : UInt32 := 0
abbrev cacheidRestrict : UInt32 := 1
abbrev cacheidSatcou : UInt32 := 2
abbrev cacheidSatcouln : UInt32 := 3
abbrev cacheidPathcou : UInt32 := 4
abbrev cacheidReplace : UInt32 := 0
abbrev cacheidCompose : UInt32 := 1
abbrev cacheidVeccompose : UInt32 := 2
abbrev cacheidExist : UInt32 := 0
abbrev cacheidForall : UInt32 := 1
abbrev cacheidUnique : UInt32 := 2
abbrev cacheidAppex : UInt32 := 3
abbrev cacheidAppal : UInt32 := 4
abbrev cacheidAppun : UInt32 := 5

/-- The quantifiers. -/
inductive Quantifier
  | exist
  | forall_
  | unique
  deriving DecidableEq, Repr

/-- The tag of `bdd_exist`, `bdd_forall` and `bdd_unique`. -/
def Quantifier.cacheid : Quantifier → UInt32
  | .exist => cacheidExist
  | .forall_ => cacheidForall
  | .unique => cacheidUnique

/-- The tag that `bdd_appex`, `bdd_appall` and `bdd_appuni` quantify with. -/
def Quantifier.appCacheid : Quantifier → UInt32
  | .exist => cacheidAppex
  | .forall_ => cacheidAppal
  | .unique => cacheidAppun

/-- The low bits of `appexid`. -/
def Quantifier.appKind : Quantifier → UInt32
  | .exist => 0
  | .forall_ => 1
  | .unique => 2

/-- `quantid` of `bdd_exist`, `bdd_forall` and `bdd_unique`. -/
def quantid (var : ℕ) (cacheid : UInt32) : UInt32 := tagId (.ofNat var) 3 cacheid

/-- `appexid`. -/
def appexid (var opr : ℕ) (kind : UInt32) : UInt32 :=
  (UInt32.ofNat var <<< 6) ||| (UInt32.ofNat opr <<< 2) ||| kind

/-- `quantid` of the fused operations. -/
def appexQuantid (var opr : ℕ) (kind cacheid : UInt32) : UInt32 :=
  tagId (appexid var opr kind) 3 cacheid

/-- `miscid` of `bdd_restrict`. -/
def restrictId (var : ℕ) : UInt32 := tagId (.ofNat var) 3 cacheidRestrict

/-- `replaceid`, for the id of a pair or a level. -/
def replaceid (id : ℕ) (cacheid : UInt32) : UInt32 := tagId (.ofNat id) 2 cacheid

/-- A request that results are cached for, with the operator, the node id of the set, the level
or the id of the pair. -/
inductive TagRequest
  | apply (opr : ℕ)
  | not
  | simplify
  | quant (q : Quantifier) (var : ℕ)
  | appquant (q : Quantifier) (opr var : ℕ)
  | restrict (var : ℕ)
  | constrain
  | satcount
  | satcountln
  | pathcount
  | replace (id : ℕ)
  | compose (level : ℕ)
  | veccompose (id : ℕ)
  deriving DecidableEq, Repr

/-- The caches a request uses, with its tags. -/
def cacheTags : TagRequest → List (CacheId × UInt32)
  | .apply opr => [(.apply, .ofNat opr)]
  | .not => [(.apply, 10)]
  | .simplify => [(.apply, 11)]
  | .quant q var => [(.quant, quantid var q.cacheid)]
  | .appquant q opr var =>
    [(.appex, appexid var opr q.appKind), (.quant, appexQuantid var opr q.appKind q.appCacheid)]
  | .restrict var => [(.misc, restrictId var)]
  | .constrain => [(.misc, cacheidConstrain)]
  | .satcount => [(.misc, cacheidSatcou)]
  | .satcountln => [(.misc, cacheidSatcouln)]
  | .pathcount => [(.misc, cacheidPathcou)]
  | .replace id => [(.replace, replaceid id cacheidReplace)]
  | .compose level => [(.replace, replaceid level cacheidCompose)]
  | .veccompose id => [(.replace, replaceid id cacheidVeccompose)]

/-- Arguments the library lets through: operators up to `bddop_invimp`, node ids of sets in the
range of `int`, levels below `MAXVAR`, ids of pairs below `INT_MAX >> 2`. -/
def TagRequest.Valid : TagRequest → Prop
  | .apply opr => opr ≤ 9
  | .quant _ var => var < 2 ^ 31
  | .appquant _ opr var => opr ≤ 9 ∧ var < 2 ^ 31
  | .restrict var => var < 2 ^ 31
  | .replace id => id < 2 ^ 29
  | .compose level => level < 2 ^ 21
  | .veccompose id => id < 2 ^ 29
  | .not | .simplify | .constrain | .satcount | .satcountln | .pathcount => True

/-- A request with the bits of its set's id that all its tags keep: 29 after the one shift of a
quantification, 23 after the two of a fused one. -/
def TagRequest.reduce : TagRequest → TagRequest
  | .quant q var => .quant q (var % 2 ^ 29)
  | .restrict var => .restrict (var % 2 ^ 29)
  | .appquant q opr var => .appquant q opr (var % 2 ^ 23)
  | p => p

/-- The same operation, with the same operator, on ids that agree in the bits that are kept. -/
def TagRequest.Congruent (p q : TagRequest) : Prop := p.reduce = q.reduce

instance (p q : TagRequest) : Decidable (p.Congruent q) :=
  inferInstanceAs (Decidable (p.reduce = q.reduce))

/-- Two requests have a tag of one cache in common. -/
def TagRequest.Clash (p q : TagRequest) : Prop := ∃ t ∈ cacheTags p, t ∈ cacheTags q

instance (p q : TagRequest) : Decidable (p.Clash q) :=
  inferInstanceAs (Decidable (∃ t ∈ cacheTags p, t ∈ cacheTags q))

/-! ## The values of the tags -/

/-- A shift drops the high bits. -/
theorem shiftLeft_toNat (v : UInt32) {s : ℕ} (hs : s < 32) :
    (v <<< UInt32.ofNat s).toNat = 2 ^ s * (v.toNat % 2 ^ (32 - s)) := by
  have hpow : 2 ^ s * 2 ^ (32 - s) = 2 ^ 32 := by
    rw [← Nat.pow_add]
    congr 1
    omega
  have hs32 : (UInt32.ofNat s).toNat % 32 = s := by
    rw [UInt32.toNat_ofNat']
    omega
  rw [UInt32.toNat_shiftLeft, hs32, Nat.shiftLeft_eq, ← hpow, Nat.mul_comm v.toNat,
    Nat.mul_mod_mul_left]

/-- A shifted word with low bits, as a number. -/
theorem tag_toNat (v : UInt32) {s k : ℕ} (hs : s < 32) (hk : k < 2 ^ s) :
    ((v <<< UInt32.ofNat s) ||| UInt32.ofNat k).toNat = 2 ^ s * (v.toNat % 2 ^ (32 - s)) + k := by
  have hk32 : k < 2 ^ 32 := lt_of_lt_of_le hk (Nat.pow_le_pow_right (by decide) (by omega))
  rw [UInt32.toNat_or, shiftLeft_toNat v hs, UInt32.toNat_ofNat', Nat.mod_eq_of_lt hk32]
  exact (Nat.two_pow_add_eq_or_of_lt hk _).symm

theorem ofNat_toNat_mod (v : ℕ) {s : ℕ} (hs : s ≤ 32) :
    (UInt32.ofNat v).toNat % 2 ^ s = v % 2 ^ s := by
  rw [UInt32.toNat_ofNat', Nat.mod_mod_of_dvd _ (Nat.pow_dvd_pow 2 hs)]

theorem quantid_toNat (var : ℕ) {k : ℕ} (hk : k < 8) :
    (quantid var (.ofNat k)).toNat = 8 * (var % 2 ^ 29) + k := by
  have h := tag_toNat (.ofNat var) (s := 3) (by decide) hk
  rw [ofNat_toNat_mod var (by decide)] at h
  exact h

theorem replaceid_toNat (id : ℕ) {k : ℕ} (hk : k < 4) :
    (replaceid id (.ofNat k)).toNat = 4 * (id % 2 ^ 30) + k := by
  have h := tag_toNat (.ofNat id) (s := 2) (by decide) hk
  rw [ofNat_toNat_mod id (by decide)] at h
  exact h

theorem appexid_toNat (var : ℕ) {opr k : ℕ} (hopr : opr ≤ 9) (hk : k < 4) :
    (appexid var opr (.ofNat k)).toNat = 64 * (var % 2 ^ 26) + (4 * opr + k) := by
  have hlow := tag_toNat (.ofNat opr) (s := 2) (k := k) (by decide) hk
  rw [ofNat_toNat_mod opr (by decide), Nat.mod_eq_of_lt (by omega)] at hlow
  have hnat : ((UInt32.ofNat opr <<< 2) ||| UInt32.ofNat k) = UInt32.ofNat (4 * opr + k) := by
    apply UInt32.toNat_inj.mp
    rw [UInt32.toNat_ofNat', Nat.mod_eq_of_lt (by omega)]
    exact hlow
  have h := tag_toNat (.ofNat var) (s := 6) (k := 4 * opr + k) (by decide) (by omega)
  rw [ofNat_toNat_mod var (by decide)] at h
  unfold appexid
  rw [UInt32.or_assoc, hnat]
  exact h

theorem appexQuantid_toNat (var : ℕ) {opr k c : ℕ} (hopr : opr ≤ 9) (hk : k < 4) (hc : c < 8) :
    (appexQuantid var opr (.ofNat k) (.ofNat c)).toNat =
      8 * (64 * (var % 2 ^ 23) + (4 * opr + k)) + c := by
  have h := tag_toNat (appexid var opr (.ofNat k)) (s := 3) (by decide) hc
  rw [appexid_toNat var hopr hk] at h
  have hmod : (64 * (var % 2 ^ 26) + (4 * opr + k)) % 2 ^ (32 - 3) =
      64 * (var % 2 ^ 23) + (4 * opr + k) := by omega
  rw [hmod] at h
  exact h

/-- The request that a tag of a cache stands for, with the bits of the id that are kept. -/
def decode : CacheId → ℕ → TagRequest
  | .apply, n => if n = 10 then .not else if n = 11 then .simplify else .apply n
  | .quant, n =>
    match n % 8 with
    | 0 => .quant .exist (n / 8)
    | 1 => .quant .forall_ (n / 8)
    | 2 => .quant .unique (n / 8)
    | 3 => .appquant .exist (n / 32 % 16) (n / 512)
    | 4 => .appquant .forall_ (n / 32 % 16) (n / 512)
    | _ => .appquant .unique (n / 32 % 16) (n / 512)
  | .appex, n =>
    match n % 4 with
    | 0 => .appquant .exist (n / 4 % 16) (n / 64 % 2 ^ 23)
    | 1 => .appquant .forall_ (n / 4 % 16) (n / 64 % 2 ^ 23)
    | _ => .appquant .unique (n / 4 % 16) (n / 64 % 2 ^ 23)
  | .replace, n =>
    match n % 4 with
    | 0 => .replace (n / 4)
    | 1 => .compose (n / 4)
    | _ => .veccompose (n / 4)
  | _, n =>
    match n % 8 with
    | 1 => .restrict (n / 8)
    | 2 => .satcount
    | 3 => .satcountln
    | 4 => .pathcount
    | _ => .constrain

/-- The tags of a quantification tell what was asked, up to the high bits of the set's id. -/
theorem decode_quantid (var : ℕ) {k : ℕ} (hk : k < 8) :
    (quantid var (.ofNat k)).toNat % 8 = k ∧
      (quantid var (.ofNat k)).toNat / 8 = var % 2 ^ 29 := by
  rw [quantid_toNat var hk]
  omega

theorem decode_replaceid (id : ℕ) {k : ℕ} (hk : k < 4) :
    (replaceid id (.ofNat k)).toNat % 4 = k ∧
      (replaceid id (.ofNat k)).toNat / 4 = id % 2 ^ 30 := by
  rw [replaceid_toNat id hk]
  omega

theorem decode_appexid (var : ℕ) {opr k : ℕ} (hopr : opr ≤ 9) (hk : k < 4) :
    (appexid var opr (.ofNat k)).toNat % 4 = k ∧
      (appexid var opr (.ofNat k)).toNat / 4 % 16 = opr ∧
      (appexid var opr (.ofNat k)).toNat / 64 % 2 ^ 23 = var % 2 ^ 23 := by
  rw [appexid_toNat var hopr hk]
  omega

theorem decode_appexQuantid (var : ℕ) {opr k c : ℕ} (hopr : opr ≤ 9) (hk : k < 4) (hc : c < 8) :
    (appexQuantid var opr (.ofNat k) (.ofNat c)).toNat % 8 = c ∧
      (appexQuantid var opr (.ofNat k) (.ofNat c)).toNat / 32 % 16 = opr ∧
      (appexQuantid var opr (.ofNat k) (.ofNat c)).toNat / 512 = var % 2 ^ 23 := by
  rw [appexQuantid_toNat var hopr hk hc]
  omega

/-- Every tag of a request decodes to it, up to the high bits of the set's id. -/
theorem decode_of_mem {p : TagRequest} (hp : p.Valid) {k : CacheId} {t : UInt32}
    (h : (k, t) ∈ cacheTags p) : decode k t.toNat = p.reduce := by
  cases p with
  | apply opr =>
    simp only [cacheTags, List.mem_singleton, Prod.mk.injEq] at h
    obtain ⟨rfl, rfl⟩ := h
    have hopr : opr ≤ 9 := hp
    have hn : (UInt32.ofNat opr).toNat = opr := by
      rw [UInt32.toNat_ofNat', Nat.mod_eq_of_lt (by omega)]
    unfold decode
    dsimp only
    rw [hn, if_neg (by omega), if_neg (by omega)]
    rfl
  | not | simplify | constrain | satcount | satcountln | pathcount =>
    simp only [cacheTags, List.mem_singleton, Prod.mk.injEq] at h
    obtain ⟨rfl, rfl⟩ := h
    decide
  | quant q var =>
    simp only [cacheTags, List.mem_singleton, Prod.mk.injEq] at h
    obtain ⟨rfl, rfl⟩ := h
    cases q with
    | exist =>
      have ht := decode_quantid var (k := 0) (by decide)
      simp only [decode]
      rw [show quantid var Quantifier.exist.cacheid = quantid var (.ofNat 0) from rfl, ht.1, ht.2]
      rfl
    | forall_ =>
      have ht := decode_quantid var (k := 1) (by decide)
      simp only [decode]
      rw [show quantid var Quantifier.forall_.cacheid = quantid var (.ofNat 1) from rfl, ht.1,
        ht.2]
      rfl
    | unique =>
      have ht := decode_quantid var (k := 2) (by decide)
      simp only [decode]
      rw [show quantid var Quantifier.unique.cacheid = quantid var (.ofNat 2) from rfl, ht.1, ht.2]
      rfl
  | appquant q opr var =>
    simp only [cacheTags, List.mem_cons, List.not_mem_nil, or_false, Prod.mk.injEq] at h
    rcases h with ⟨rfl, rfl⟩ | ⟨rfl, rfl⟩
    · obtain ⟨k, hk, hkind, hdecode⟩ : ∃ k < 4, q.appKind = .ofNat k ∧
          ∀ n, n % 4 = k →
            decode .appex n = .appquant q (n / 4 % 16) (n / 64 % 2 ^ 23) := by
        cases q with
        | exist => exact ⟨0, by decide, rfl, fun n hn => by simp only [decode, hn]⟩
        | forall_ => exact ⟨1, by decide, rfl, fun n hn => by simp only [decode, hn]⟩
        | unique => exact ⟨2, by decide, rfl, fun n hn => by simp only [decode, hn]⟩
      have ht := decode_appexid var hp.1 hk
      rw [← hkind] at ht
      rw [hdecode _ ht.1, ht.2.1, ht.2.2]
      rfl
    · obtain ⟨k, c, hk, hc, hkind, hcacheid, hdecode⟩ : ∃ k c, k < 4 ∧ c < 8 ∧
          q.appKind = .ofNat k ∧ q.appCacheid = .ofNat c ∧
          ∀ n, n % 8 = c → decode .quant n = .appquant q (n / 32 % 16) (n / 512) := by
        cases q with
        | exist =>
          exact ⟨0, 3, by decide, by decide, rfl, rfl, fun n hn => by simp only [decode, hn]⟩
        | forall_ =>
          exact ⟨1, 4, by decide, by decide, rfl, rfl, fun n hn => by simp only [decode, hn]⟩
        | unique =>
          exact ⟨2, 5, by decide, by decide, rfl, rfl, fun n hn => by simp only [decode, hn]⟩
      have ht := decode_appexQuantid var hp.1 hk hc
      rw [← hkind, ← hcacheid] at ht
      rw [hdecode _ ht.1, ht.2.1, ht.2.2]
      rfl
  | restrict var =>
    simp only [cacheTags, List.mem_singleton, Prod.mk.injEq] at h
    obtain ⟨rfl, rfl⟩ := h
    have ht := decode_quantid var (k := 1) (by decide)
    simp only [decode]
    rw [show restrictId var = quantid var (.ofNat 1) from rfl, ht.1, ht.2]
    rfl
  | replace id =>
    simp only [cacheTags, List.mem_singleton, Prod.mk.injEq] at h
    obtain ⟨rfl, rfl⟩ := h
    have ht := decode_replaceid id (k := 0) (by decide)
    have hid : id < 2 ^ 29 := hp
    simp only [decode]
    rw [show replaceid id cacheidReplace = replaceid id (.ofNat 0) from rfl, ht.1, ht.2,
      Nat.mod_eq_of_lt (by omega)]
    rfl
  | compose level =>
    simp only [cacheTags, List.mem_singleton, Prod.mk.injEq] at h
    obtain ⟨rfl, rfl⟩ := h
    have ht := decode_replaceid level (k := 1) (by decide)
    have hlevel : level < 2 ^ 21 := hp
    simp only [decode]
    rw [show replaceid level cacheidCompose = replaceid level (.ofNat 1) from rfl, ht.1, ht.2,
      Nat.mod_eq_of_lt (by omega)]
    rfl
  | veccompose id =>
    simp only [cacheTags, List.mem_singleton, Prod.mk.injEq] at h
    obtain ⟨rfl, rfl⟩ := h
    have ht := decode_replaceid id (k := 2) (by decide)
    have hid : id < 2 ^ 29 := hp
    simp only [decode]
    rw [show replaceid id cacheidVeccompose = replaceid id (.ofNat 2) from rfl, ht.1, ht.2,
      Nat.mod_eq_of_lt (by omega)]
    rfl

/-- Requests with a tag in common differ in lost bits of the set's id only. -/
theorem congruent_of_clash {p q : TagRequest} (hp : p.Valid) (hq : q.Valid) (h : p.Clash q) :
    p.Congruent q := by
  obtain ⟨⟨k, t⟩, hkp, hkq⟩ := h
  unfold TagRequest.Congruent
  rw [← decode_of_mem hp hkp, ← decode_of_mem hq hkq]

/-- A tag does not depend on the bits that its shift drops. -/
theorem tagId_congr {v w : UInt32} (h : v.toNat % 2 ^ 29 = w.toNat % 2 ^ 29) (low : UInt32) :
    tagId v 3 low = tagId w 3 low := by
  unfold tagId
  congr 1
  apply UInt32.toNat_inj.mp
  rw [show (3 : UInt32) = .ofNat 3 from rfl, shiftLeft_toNat v (by decide),
    shiftLeft_toNat w (by decide)]
  exact congrArg _ h

theorem quantid_congr {v w : ℕ} (h : v % 2 ^ 29 = w % 2 ^ 29) (cacheid : UInt32) :
    quantid v cacheid = quantid w cacheid := by
  apply tagId_congr
  rw [ofNat_toNat_mod v (by decide), ofNat_toNat_mod w (by decide), h]

theorem appexQuantid_congr {v w : ℕ} (h : v % 2 ^ 23 = w % 2 ^ 23) (opr : ℕ)
    (kind cacheid : UInt32) :
    appexQuantid v opr kind cacheid = appexQuantid w opr kind cacheid := by
  have hshift : (UInt32.ofNat v <<< 6).toNat % 2 ^ 29 = (UInt32.ofNat w <<< 6).toNat % 2 ^ 29 := by
    have hv := ofNat_toNat_mod v (s := 26) (by decide)
    have hw := ofNat_toNat_mod w (s := 26) (by decide)
    rw [show (6 : UInt32) = .ofNat 6 from rfl, shiftLeft_toNat _ (by decide),
      shiftLeft_toNat _ (by decide)]
    omega
  apply tagId_congr
  unfold appexid
  rw [UInt32.toNat_or, UInt32.toNat_or, UInt32.toNat_or, UInt32.toNat_or, Nat.or_mod_two_pow,
    Nat.or_mod_two_pow, hshift, ← Nat.or_mod_two_pow, ← Nat.or_mod_two_pow]

theorem clash_self (p : TagRequest) : p.Clash p := by
  unfold TagRequest.Clash
  cases p <;> exact ⟨_, List.mem_cons_self, List.mem_cons_self⟩

/-- Requests that agree in the bits that are kept have a tag in common. -/
theorem clash_of_congruent {p q : TagRequest} (h : p.Congruent q) : p.Clash q := by
  unfold TagRequest.Congruent at h
  cases p <;> cases q <;> simp only [TagRequest.reduce, TagRequest.quant.injEq,
    TagRequest.appquant.injEq, TagRequest.restrict.injEq, reduceCtorEq] at h
  case quant.quant q var q' var' =>
    obtain ⟨rfl, hvar⟩ := h
    refine ⟨(.quant, quantid var q.cacheid), List.mem_singleton_self _, ?_⟩
    rw [quantid_congr hvar]
    exact List.mem_singleton_self _
  case appquant.appquant q opr var q' opr' var' =>
    obtain ⟨rfl, rfl, hvar⟩ := h
    refine ⟨(.quant, appexQuantid var opr q.appKind q.appCacheid),
      List.mem_cons_of_mem _ (List.mem_singleton_self _), ?_⟩
    rw [appexQuantid_congr hvar]
    exact List.mem_cons_of_mem _ (List.mem_singleton_self _)
  case restrict.restrict var var' =>
    refine ⟨(.misc, restrictId var), List.mem_singleton_self _, ?_⟩
    rw [show restrictId var = restrictId var' from quantid_congr h _]
    exact List.mem_singleton_self _
  -- the other operations keep their argument whole
  all_goals first
    | exact clash_self _
    | rw [h]; exact clash_self _

/-- Two requests have a tag of one cache in common if and only if they are the same operation on
ids that agree in the bits that the shifts leave. -/
theorem clash_iff_congruent {p q : TagRequest} (hp : p.Valid) (hq : q.Valid) :
    p.Clash q ↔ p.Congruent q :=
  ⟨congruent_of_clash hp hq, clash_of_congruent⟩

/-! ## Runs -/

/-- The caches, with the request that last wrote each entry. -/
structure TagState where
  caches : Caches
  owner : CacheId → ℕ → Option TagRequest

/-- What happens to the caches: a request stores a result for its operands, all caches are
reset, a cache is resized. -/
inductive CacheEvent
  | store (p : TagRequest) (k : CacheId) (tag : UInt32) (a b res : ℕ)
  | reset
  | resize (k : CacheId) (size : ℕ)

section
-- the hash macros: the operands and the tag select the entry
variable (hash : CacheId → ℕ → ℕ → UInt32 → UInt32)

/-- The entry that a cache has for operands and a tag. -/
def TagState.index (s : TagState) (k : CacheId) (tag : UInt32) (a b : ℕ) : ℕ :=
  (s.caches k).lookup (hash k a b tag)

/-- One event. -/
def TagState.step (s : TagState) : CacheEvent → TagState
  | .store p k tag a b res =>
    let i := s.index hash k tag a b
    ⟨s.caches.write k i ⟨res, 0, a, b, tag.toNat, 0, 0⟩,
      Function.update s.owner k (Function.update (s.owner k) i (some p))⟩
  | .reset => { s with caches := s.caches.reset }
  | .resize k size => { s with caches := Function.update s.caches k ((s.caches k).resize size) }

/-- A run of events. -/
def TagState.run (s : TagState) (evs : List CacheEvent) : TagState :=
  evs.foldl (TagState.step hash) s

/-- Fresh caches. -/
def TagState.init (size : CacheId → ℕ) : TagState :=
  ⟨fun k => BddCache.init (size k), fun _ _ => none⟩

/-- A session's requests store results with their own tags. -/
def CacheEvent.Of (S : Set TagRequest) : CacheEvent → Prop
  | .store p k tag _ _ _ => p ∈ S ∧ (k, tag) ∈ cacheTags p
  | _ => True

/-- A request finds a result for its operands. -/
def TagState.Hit (s : TagState) (q : TagRequest) (k : CacheId) (tag : UInt32) (a b : ℕ) : Prop :=
  (k, tag) ∈ cacheTags q ∧
    let i := s.index hash k tag a b
    (s.caches k).isValid i = true ∧ ((s.caches k).table i).a = a ∧
      ((s.caches k).table i).b = b ∧ ((s.caches k).table i).c = tag.toNat

/-- Valid entries carry a tag of the request that wrote them. -/
structure TagState.Inv (S : Set TagRequest) (s : TagState) : Prop where
  caches : ∀ k, (s.caches k).Inv
  owner : ∀ k i, (s.caches k).isValid i = true →
    ∃ p ∈ S, ∃ tag, (k, tag) ∈ cacheTags p ∧ s.owner k i = some p ∧
      ((s.caches k).table i).c = tag.toNat

theorem TagState.inv_init (S : Set TagRequest) (size : CacheId → ℕ) :
    (TagState.init size).Inv S := by
  refine ⟨fun k => BddCache.inv_init (size k), fun k i h => ?_⟩
  unfold TagState.init at h
  rw [BddCache.init_isValid] at h
  exact absurd h Bool.false_ne_true

theorem TagState.Inv.step {S : Set TagRequest} {s : TagState} (h : s.Inv S) {ev : CacheEvent}
    (hev : ev.Of S) : (s.step hash ev).Inv S := by
  cases ev with
  | store p k tag a b res =>
    obtain ⟨hp, htag⟩ := hev
    refine ⟨Caches.write_inv h.caches k _ _, fun k' j hj => ?_⟩
    rcases Caches.write_valid hj with ⟨rfl, rfl, ht⟩ | ⟨hj', ht⟩
    · refine ⟨p, hp, tag, htag, ?_, ?_⟩
      · simp only [TagState.step, Function.update_self]
      · simp only [TagState.step, ht]
    · by_cases hki : k' = k ∧ j = s.index hash k tag a b
      · -- the entry just written
        obtain ⟨rfl, rfl⟩ := hki
        refine ⟨p, hp, tag, htag, ?_, ?_⟩
        · simp only [TagState.step, Function.update_self]
        · simp only [TagState.step, Caches.write, BddCache.write, Function.update_self]
      · obtain ⟨p', hp', tag', htag', howner, hc⟩ := h.owner k' j hj'
        refine ⟨p', hp', tag', htag', ?_, ?_⟩
        · rw [← howner]
          simp only [TagState.step, Function.update_apply]
          split
          · rename_i hk
            rw [hk, Function.update_of_ne (fun hi => hki ⟨hk, hi⟩)]
          · rfl
        · simp only [TagState.step, ht, hc]
  | reset =>
    refine ⟨fun k => (h.caches k).reset, fun k i hi => ?_⟩
    have hf := (h.caches k).reset_isValid i
    exact absurd (hf.symm.trans hi) Bool.false_ne_true
  | resize k size =>
    refine ⟨fun k' => ?_, fun k' i hi => ?_⟩
    · simp only [TagState.step, Function.update_apply]
      split
      · exact BddCache.inv_resize _ _
      · exact h.caches k'
    · by_cases hk : k' = k
      · subst hk
        simp only [TagState.step, Function.update_self, BddCache.resize_isValid] at hi
        exact absurd hi Bool.false_ne_true
      · simp only [TagState.step, Function.update_of_ne hk] at hi ⊢
        exact h.owner k' i hi

theorem TagState.Inv.run {S : Set TagRequest} {s : TagState} (h : s.Inv S)
    {evs : List CacheEvent} (hevs : ∀ ev ∈ evs, ev.Of S) : (s.run hash evs).Inv S := by
  induction evs generalizing s with
  | nil => exact h
  | cons ev evs ih =>
    have hev : ev.Of S := hevs ev List.mem_cons_self
    exact ih (h.step hash hev) fun ev' h' => hevs ev' (List.mem_cons_of_mem _ h')

/-- A hit was written by a request that the tag does not tell apart. -/
theorem TagState.Inv.hit {S : Set TagRequest} {s : TagState} (h : s.Inv S) {q : TagRequest}
    {k : CacheId} {tag : UInt32} {a b : ℕ} (hhit : s.Hit hash q k tag a b) :
    ∃ p ∈ S, p.Clash q ∧ s.owner k (s.index hash k tag a b) = some p := by
  obtain ⟨hq, hvalid, _, _, hc⟩ := hhit
  obtain ⟨p, hp, tag', htag', howner, hc'⟩ := h.owner k _ hvalid
  have htag : tag' = tag := UInt32.toNat_inj.mp (hc'.symm.trans hc)
  rw [htag] at htag'
  exact ⟨p, hp, ⟨(k, tag), htag', hq⟩, howner⟩

/-- After a store the request with the same tag and operands hits. -/
theorem TagState.hit_store (s : TagState) {p q : TagRequest} {k : CacheId} {tag : UInt32}
    (hq : (k, tag) ∈ cacheTags q) (a b res : ℕ) :
    (s.step hash (.store p k tag a b res)).Hit hash q k tag a b ∧
      (s.step hash (.store p k tag a b res)).owner k (s.index hash k tag a b) = some p := by
  have hindex : (s.step hash (.store p k tag a b res)).index hash k tag a b =
      s.index hash k tag a b := by
    simp only [TagState.step, TagState.index, Caches.write, Function.update_self, BddCache.write,
      BddCache.lookup]
  refine ⟨⟨hq, ?_⟩, ?_⟩
  · rw [hindex]
    simp only [TagState.step, Caches.write, BddCache.write, Function.update_self,
      BddCache.isValid, decide_true, and_self]
  · simp only [TagState.step, Function.update_self]

/-- The requests of a session never get each other's results if and only if no two of them are
the same operation on different sets whose ids agree in the bits that the shifts leave. -/
theorem hits_own_iff {S : Set TagRequest} (hS : ∀ p ∈ S, p.Valid) :
    ((∀ p ∈ S, ∀ q ∈ S, p.Clash q → p = q) ∧
      ∀ size evs, (∀ ev ∈ evs, CacheEvent.Of S ev) →
        ∀ q ∈ S, ∀ k tag a b, ((TagState.init size).run hash evs).Hit hash q k tag a b →
          ((TagState.init size).run hash evs).owner k
            (((TagState.init size).run hash evs).index hash k tag a b) = some q) ↔
      ∀ p ∈ S, ∀ q ∈ S, p.Congruent q → p = q := by
  constructor
  · intro h p hp q hq hcongr
    exact h.1 p hp q hq (clash_of_congruent hcongr)
  · intro h
    have hclash : ∀ p ∈ S, ∀ q ∈ S, p.Clash q → p = q := fun p hp q hq hpq =>
      h p hp q hq (congruent_of_clash (hS p hp) (hS q hq) hpq)
    refine ⟨hclash, fun size evs hevs q hq k tag a b hhit => ?_⟩
    have hinv := (TagState.inv_init S size).run hash hevs
    obtain ⟨p, hp, hpq, howner⟩ := hinv.hit hash hhit
    rw [howner, hclash p hp q hq hpq]

end

/-- The fused conjunction and quantification over a set. -/
def farRequest (var : ℕ) : TagRequest := .appquant .exist 0 var

/-- Sets whose ids are `2 ^ 23` apart share a tag, and the second one is answered with what was
stored for the first. -/
theorem not_hits_own_far :
    (¬ ∀ p q : TagRequest, p.Valid → q.Valid → p.Clash q → p = q) ∧
      ∃ tag, ((TagState.init fun _ => 1).step (fun _ a _ _ => hash1 (.ofNat a))
        (.store (farRequest 2) .quant tag 5 0 7)).Hit (fun _ a _ _ => hash1 (.ofNat a))
          (farRequest (2 + 2 ^ 23)) .quant tag 5 0 := by
  have hne : farRequest 2 ≠ farRequest (2 + 2 ^ 23) := by decide
  constructor
  · intro h
    apply hne
    apply h
    · exact ⟨by decide, by decide⟩
    · exact ⟨by decide, by decide⟩
    · exact clash_of_congruent (by decide)
  · refine ⟨appexQuantid (2 + 2 ^ 23) 0 0 cacheidAppex, ?_⟩
    apply (TagState.hit_store ..).1
    exact List.mem_cons_of_mem _ (List.mem_singleton_self _)

/-- Requests on one set are told apart. -/
theorem hits_own_near :
    ((∀ p ∈ ({.quant .exist 2, farRequest 2} : Set TagRequest),
        ∀ q ∈ ({.quant .exist 2, farRequest 2} : Set TagRequest), p.Clash q → p = q) ∧
      ∀ size evs, (∀ ev ∈ evs, CacheEvent.Of {.quant .exist 2, farRequest 2} ev) →
        ∀ q ∈ ({.quant .exist 2, farRequest 2} : Set TagRequest), ∀ k tag a b,
          ((TagState.init size).run (fun _ a _ _ => hash1 (.ofNat a)) evs).Hit
              (fun _ a _ _ => hash1 (.ofNat a)) q k tag a b →
            ((TagState.init size).run (fun _ a _ _ => hash1 (.ofNat a)) evs).owner k
              (((TagState.init size).run (fun _ a _ _ => hash1 (.ofNat a)) evs).index
                (fun _ a _ _ => hash1 (.ofNat a)) k tag a b) = some q) ↔
      ∀ p ∈ ({.quant .exist 2, farRequest 2} : Set TagRequest),
        ∀ q ∈ ({.quant .exist 2, farRequest 2} : Set TagRequest), p.Congruent q → p = q := by
  apply hits_own_iff
  rintro p (rfl | rfl)
  · exact (by decide : (2 : ℕ) < 2 ^ 31)
  · exact ⟨by decide, by decide⟩

end MoToBuddy.Bdd
