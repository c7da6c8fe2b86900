import Mathlib.Data.List.Nodup
import Mathlib.Data.List.Perm.Subperm
import Mathlib.Logic.Function.Basic
import Mathlib.Order.Basic
import Mathlib.Tactic.Common

/-!
# Bucket chains and a free list threaded through one array

A node table keeps, for each slot, the first node of the bucket with that number (`head`)
and the successor of the node in its chain (`next`). Nodes in use hang in the chain of
their bucket, the other ones hang in the free list; both lists use `next` and end with
`0`. `Threaded` says that this is so, and the rules below say that taking a slot from the
free list, putting a node into its bucket and rebuilding all chains keep it.
-/

namespace Chained

/-! ## Null-terminated lists -/

/-- Following `next` from `h` visits the elements of `l` in order and then reads `0`. -/
def IsChain (next : ℕ → ℕ) : ℕ → List ℕ → Prop
  | h, [] => h = 0
  | h, a :: l => h = a ∧ a ≠ 0 ∧ IsChain next (next a) l

@[simp] theorem isChain_nil {next : ℕ → ℕ} {h : ℕ} : IsChain next h [] ↔ h = 0 := Iff.rfl

@[simp] theorem isChain_cons {next : ℕ → ℕ} {h a : ℕ} {l : List ℕ} :
    IsChain next h (a :: l) ↔ h = a ∧ a ≠ 0 ∧ IsChain next (next a) l := Iff.rfl

/-- A chain only depends on the links of its members. -/
theorem IsChain.congr {next next' : ℕ → ℕ} {h : ℕ} {l : List ℕ} (hc : IsChain next h l)
    (heq : ∀ n ∈ l, next' n = next n) : IsChain next' h l := by
  induction l generalizing h with
  | nil => exact hc
  | cons a l ih =>
    obtain ⟨rfl, ha, hl⟩ := hc
    refine ⟨rfl, ha, ?_⟩
    rw [heq h (by simp)]
    exact ih hl fun n hn => heq n (by simp [hn])

/-- Writing the link of a node outside the chain leaves the chain as it is. -/
theorem IsChain.update {next : ℕ → ℕ} {h m v : ℕ} {l : List ℕ} (hc : IsChain next h l)
    (hm : m ∉ l) : IsChain (Function.update next m v) h l :=
  hc.congr fun _ hn => Function.update_of_ne (ne_of_mem_of_not_mem hn hm) _ _

theorem IsChain.unique {next : ℕ → ℕ} {h : ℕ} {l l' : List ℕ} (hc : IsChain next h l)
    (hc' : IsChain next h l') : l = l' := by
  induction l generalizing h l' with
  | nil =>
    cases l' with
    | nil => rfl
    | cons a l' =>
      obtain ⟨rfl, ha, -⟩ := hc'
      exact absurd hc ha
  | cons a l ih =>
    obtain ⟨rfl, ha, hl⟩ := hc
    cases l' with
    | nil => exact absurd hc' ha
    | cons b l' =>
      obtain ⟨rfl, -, hl'⟩ := hc'
      rw [ih hl hl']

theorem IsChain.ne_zero_of_mem {next : ℕ → ℕ} {h n : ℕ} {l : List ℕ} (hc : IsChain next h l)
    (hn : n ∈ l) : n ≠ 0 := by
  induction l generalizing h with
  | nil => simp at hn
  | cons a l ih =>
    obtain ⟨rfl, ha, hl⟩ := hc
    rcases List.mem_cons.mp hn with rfl | hn
    · exact ha
    · exact ih hl hn

theorem IsChain.eq_nil_iff {next : ℕ → ℕ} {h : ℕ} {l : List ℕ} (hc : IsChain next h l) :
    l = [] ↔ h = 0 := by
  cases l with
  | nil => simpa using hc
  | cons a l =>
    obtain ⟨rfl, ha, -⟩ := hc
    simpa using ha

/-! ## Walking a chain -/

/-- `while (r != 0) { if (p(r)) return r; r = next[r]; } return 0;` with at most `fuel`
rounds. -/
def search (p : ℕ → Bool) (next : ℕ → ℕ) : ℕ → ℕ → ℕ
  | 0, _ => 0
  | fuel + 1, r => if r = 0 then 0 else if p r then r else search p next fuel (next r)

/-- With enough rounds the walk returns the first hit of the chain. -/
theorem search_eq_find {p : ℕ → Bool} {next : ℕ → ℕ} {h fuel : ℕ} {l : List ℕ}
    (hc : IsChain next h l) (hf : l.length < fuel) :
    search p next fuel h = (l.find? p).getD 0 := by
  induction l generalizing h fuel with
  | nil =>
    obtain rfl : h = 0 := hc
    cases fuel <;> simp [search]
  | cons a l ih =>
    obtain ⟨rfl, ha, hl⟩ := hc
    obtain ⟨fuel, rfl⟩ : ∃ k, fuel = k + 1 := ⟨fuel - 1, by simp at hf; omega⟩
    rw [search, if_neg ha]
    by_cases hp : p h
    · simp [hp]
    · rw [if_neg hp, ih hl (by simpa using hf), List.find?_cons_of_neg hp]

/-! ## The links of a table -/

/-- The part of a node table that its chains and its free list are made of. -/
@[ext] structure Links where
  head : ℕ → ℕ
  next : ℕ → ℕ
  free : ℕ
  freenum : ℕ

namespace Links

/-- Put node `n` in front of the chain of bucket `b`. -/
def insert (L : Links) (b n : ℕ) : Links :=
  { L with next := Function.update L.next n (L.head b), head := Function.update L.head b n }

/-- Put slot `n` in front of the free list. -/
def release (L : Links) (n : ℕ) : Links :=
  { L with next := Function.update L.next n L.free, free := n, freenum := L.freenum + 1 }

/-- Take the first slot off the free list. -/
def take (L : Links) : Links :=
  { L with free := L.next L.free, freenum := L.freenum - 1 }

/-- One step of a rebuild: a kept node goes to its bucket, any other slot is freed. -/
def rebuildStep (keep : ℕ → Bool) (bucket : ℕ → ℕ) (n : ℕ) (L : Links) : Links :=
  if keep n then L.insert (bucket n) n else L.release n

end Links

/-- Below `size`, the chain of each bucket holds exactly the live slots from `lo` on that
belong there. -/
def Chains (lo size : ℕ) (live : ℕ → Prop) (bucket : ℕ → ℕ) (L : Links) : Prop :=
  ∀ b < size, ∃ l, IsChain L.next (L.head b) l ∧ l.Nodup ∧
    ∀ n, n ∈ l ↔ (lo ≤ n ∧ n < size) ∧ live n ∧ bucket n = b

/-- The free list holds exactly the slots from `lo` on, below `size`, that are not live. -/
def FreeList (lo size : ℕ) (live : ℕ → Prop) (L : Links) : Prop :=
  ∃ l, IsChain L.next L.free l ∧ l.Nodup ∧ l.length = L.freenum ∧
    ∀ n, n ∈ l ↔ (lo ≤ n ∧ n < size) ∧ ¬ live n

/-- The slots from `lo` on, below `size`, are threaded: a live one is in the chain of its
bucket and in no other list, any other one is on the free list. -/
structure Threaded (lo size : ℕ) (live : ℕ → Prop) (bucket : ℕ → ℕ) (L : Links) : Prop where
  chain : Chains lo size live bucket L
  free : FreeList lo size live L

variable {lo size : ℕ} {live : ℕ → Prop} {bucket : ℕ → ℕ} {L : Links}

/-! ## Chains -/

/-- A chain is never longer than the table. -/
theorem length_le {b : ℕ} {l : List ℕ} (hnd : l.Nodup)
    (hm : ∀ n ∈ l, n < b) : l.length ≤ b := by
  have hsub : l ⊆ List.range b := fun n hn => List.mem_range.mpr (hm n hn)
  simpa using (hnd.subperm hsub).length_le

namespace Chains

theorem congr {live' : ℕ → Prop} {bucket' : ℕ → ℕ} (h : Chains lo size live bucket L)
    (hl : ∀ n, lo ≤ n → n < size → (live' n ↔ live n))
    (hb : ∀ n, lo ≤ n → n < size → live n → bucket' n = bucket n) :
    Chains lo size live' bucket' L := by
  intro b hbs
  obtain ⟨l, hc, hnd, hm⟩ := h b hbs
  refine ⟨l, hc, hnd, fun n => (hm n).trans ?_⟩
  constructor
  · rintro ⟨hn, hv, hbk⟩
    exact ⟨hn, (hl n hn.1 hn.2).mpr hv, (hb n hn.1 hn.2 hv).trans hbk⟩
  · rintro ⟨hn, hv, hbk⟩
    have hv' := (hl n hn.1 hn.2).mp hv
    exact ⟨hn, hv', (hb n hn.1 hn.2 hv').symm.trans hbk⟩

/-- A slot that is not live may get any link. -/
theorem relink (h : Chains lo size live bucket L) {m v : ℕ} (hm : ¬ (lo ≤ m ∧ live m)) :
    Chains lo size live bucket { L with next := Function.update L.next m v } := by
  intro b hbs
  obtain ⟨l, hc, hnd, hmem⟩ := h b hbs
  refine ⟨l, hc.update fun hml => hm ?_, hnd, hmem⟩
  have := (hmem m).mp hml
  exact ⟨this.1.1, this.2.1⟩

/-- Putting a slot into its bucket adds it to the live slots. -/
theorem insert (h : Chains lo size live bucket L) {m : ℕ} (hm0 : m ≠ 0)
    (hml : ¬ (lo ≤ m ∧ live m)) {lo' : ℕ} {live' : ℕ → Prop} {bucket' : ℕ → ℕ}
    (hlive : ∀ n, n < size → (lo' ≤ n ∧ live' n ↔ n = m ∨ lo ≤ n ∧ live n))
    (hbucket : ∀ n, n ≠ m → lo ≤ n → live n → bucket' n = bucket n) (hms : m < size) :
    Chains lo' size live' bucket' (L.insert (bucket' m) m) := by
  intro c hcs
  obtain ⟨l, hc, hnd, hmem⟩ := h c hcs
  have hnotl : m ∉ l := fun hin => by
    have := (hmem m).mp hin
    exact hml ⟨this.1.1, this.2.1⟩
  have hrest : ∀ n, n ≠ m →
      (n ∈ l ↔ (lo' ≤ n ∧ n < size) ∧ live' n ∧ bucket' n = c) := by
    intro n hn
    rw [hmem n]
    constructor
    · rintro ⟨⟨h1, h2⟩, h3, h4⟩
      have hl' := (hlive n h2).mpr (Or.inr ⟨h1, h3⟩)
      exact ⟨⟨hl'.1, h2⟩, hl'.2, (hbucket n hn h1 h3).trans h4⟩
    · rintro ⟨⟨h1, h2⟩, h3, h4⟩
      obtain ⟨hlo, hl⟩ := ((hlive n h2).mp ⟨h1, h3⟩).resolve_left hn
      exact ⟨⟨hlo, h2⟩, hl, (hbucket n hn hlo hl).symm.trans h4⟩
  have hself := (hlive m hms).mpr (Or.inl rfl)
  by_cases hcb : c = bucket' m
  · refine ⟨m :: l, ?_, List.nodup_cons.mpr ⟨hnotl, hnd⟩, fun n => ?_⟩
    · simp only [Links.insert, hcb, isChain_cons, Function.update_self]
      exact ⟨trivial, hm0, hcb ▸ hc.update hnotl⟩
    · by_cases hn : n = m
      · subst hn
        simp [hself, hms, hcb]
      · simp [hn, hrest n hn]
  · refine ⟨l, ?_, hnd, fun n => ?_⟩
    · simp only [Links.insert]
      rw [Function.update_of_ne hcb]
      exact hc.update hnotl
    · by_cases hn : n = m
      · subst hn
        simp [hnotl, Ne.symm hcb]
      · exact hrest n hn

/-- The walk finds a live node of the bucket that passes the test, if there is one. -/
theorem search_spec (h : Chains lo size live bucket L) {b : ℕ} (hb : b < size)
    (p : ℕ → Bool) :
    let r := search p L.next (size + 1) (L.head b)
    (r = 0 ∧ ∀ n, lo ≤ n → n < size → live n → bucket n = b → p n = false) ∨
      (r ≠ 0 ∧ lo ≤ r ∧ r < size ∧ live r ∧ bucket r = b ∧ p r = true) := by
  obtain ⟨l, hc, hnd, hm⟩ := h b hb
  have hlen : l.length ≤ size := length_le hnd fun n hn => ((hm n).mp hn).1.2
  have heq := search_eq_find (p := p) hc (Nat.lt_succ_of_le hlen)
  intro r
  cases hfind : l.find? p with
  | none =>
    left
    refine ⟨by simp [r, heq, hfind], fun n hlo hs hv hbk => ?_⟩
    have := List.find?_eq_none.mp hfind n ((hm n).mpr ⟨⟨hlo, hs⟩, hv, hbk⟩)
    simpa using this
  | some m =>
    right
    have hr : r = m := by simp [r, heq, hfind]
    have hmem := List.mem_of_find?_eq_some hfind
    obtain ⟨⟨hlo, hs⟩, hv, hbk⟩ := (hm m).mp hmem
    rw [hr]
    exact ⟨hc.ne_zero_of_mem hmem, hlo, hs, hv, hbk, List.find?_some hfind⟩

end Chains

/-! ## The free list -/

namespace FreeList

theorem congr {live' : ℕ → Prop} (h : FreeList lo size live L)
    (hl : ∀ n, lo ≤ n → n < size → (live' n ↔ live n)) : FreeList lo size live' L := by
  obtain ⟨l, hc, hnd, hlen, hm⟩ := h
  refine ⟨l, hc, hnd, hlen, fun n => (hm n).trans ?_⟩
  constructor
  · rintro ⟨hn, hv⟩
    exact ⟨hn, fun hv' => hv ((hl n hn.1 hn.2).mp hv')⟩
  · rintro ⟨hn, hv⟩
    exact ⟨hn, fun hv' => hv ((hl n hn.1 hn.2).mpr hv')⟩

theorem eq_zero_iff (h : FreeList lo size live L) :
    L.free = 0 ↔ ∀ n, lo ≤ n → n < size → live n := by
  obtain ⟨l, hc, -, -, hm⟩ := h
  rw [← hc.eq_nil_iff]
  constructor
  · rintro rfl n hlo hn
    by_contra hv
    exact absurd ((hm n).mpr ⟨⟨hlo, hn⟩, hv⟩) (by simp)
  · intro hall
    refine List.eq_nil_iff_forall_not_mem.mpr fun n hn => ?_
    obtain ⟨⟨hlo, hs⟩, hv⟩ := (hm n).mp hn
    exact hv (hall n hlo hs)

/-- The head of a nonempty free list is a slot that is not in use. -/
theorem head (h : FreeList lo size live L) (hf : L.free ≠ 0) :
    lo ≤ L.free ∧ L.free < size ∧ ¬ live L.free := by
  obtain ⟨l, hc, -, -, hm⟩ := h
  cases l with
  | nil => exact absurd hc hf
  | cons a l =>
    obtain ⟨ha, -, -⟩ := hc
    obtain ⟨⟨hlo, hs⟩, hv⟩ := (hm L.free).mp (by simp [ha])
    exact ⟨hlo, hs, hv⟩

/-- Linking a live slot into a chain leaves the free list as it is. -/
theorem insert (h : FreeList lo size live L) {b m : ℕ} (hm : ¬ (lo ≤ m ∧ ¬ live m)) :
    FreeList lo size live (L.insert b m) := by
  obtain ⟨l, hc, hnd, hlen, hmem⟩ := h
  refine ⟨l, hc.update fun hml => hm ?_, hnd, hlen, hmem⟩
  have := (hmem m).mp hml
  exact ⟨this.1.1, this.2⟩

/-- Taking the first slot makes it live. -/
theorem take (h : FreeList lo size live L) (hf : L.free ≠ 0) {live' : ℕ → Prop}
    (hl : ∀ n, live' n ↔ live n ∨ n = L.free) : FreeList lo size live' L.take := by
  obtain ⟨lf, hcf, hndf, hlenf, hmf⟩ := h
  obtain ⟨rest, rfl⟩ : ∃ rest, lf = L.free :: rest := by
    cases lf with
    | nil => exact absurd hcf hf
    | cons a l => exact ⟨l, by rw [hcf.1]⟩
  obtain ⟨hnotrest, hndrest⟩ := List.nodup_cons.mp hndf
  refine ⟨rest, hcf.2.2, hndrest, ?_, fun n => ?_⟩
  · simp only [Links.take, List.length_cons] at hlenf ⊢
    omega
  · have hmn := hmf n
    rw [hl n]
    by_cases hn : n = L.free
    · subst hn
      simp [hnotrest]
    · simpa [hn] using hmn

/-- Releasing a slot below the listed ones. -/
theorem release (h : FreeList (lo + 1) size live L) (hlo : lo ≠ 0) (hls : lo < size)
    (hv : ¬ live lo) : FreeList lo size live (L.release lo) := by
  obtain ⟨lf, hcf, hndf, hlenf, hmf⟩ := h
  have hnotf : lo ∉ lf := fun hmem => absurd ((hmf lo).mp hmem).1.1 (by omega)
  refine ⟨lo :: lf, ?_, List.nodup_cons.mpr ⟨hnotf, hndf⟩, by simp [Links.release, hlenf],
    fun n => ?_⟩
  · simp only [Links.release, isChain_cons, Function.update_self]
    exact ⟨trivial, hlo, hcf.update hnotf⟩
  · rw [List.mem_cons, hmf n]
    by_cases hn : n = lo
    · simp [hn, hls, hv]
    · have : lo + 1 ≤ n ↔ lo ≤ n := by omega
      simp [hn, this]

end FreeList

/-! ## Operations on a threaded table -/

namespace Threaded

theorem congr {live' : ℕ → Prop} {bucket' : ℕ → ℕ} (h : Threaded lo size live bucket L)
    (hl : ∀ n, lo ≤ n → n < size → (live' n ↔ live n))
    (hb : ∀ n, lo ≤ n → n < size → live n → bucket' n = bucket n) :
    Threaded lo size live' bucket' L :=
  ⟨h.chain.congr hl hb, h.free.congr hl⟩

/-- The walk finds a live node of the bucket that passes the test, if there is one. -/
theorem search_spec (h : Threaded lo size live bucket L) {b : ℕ} (hb : b < size)
    (p : ℕ → Bool) :
    let r := search p L.next (size + 1) (L.head b)
    (r = 0 ∧ ∀ n, lo ≤ n → n < size → live n → bucket n = b → p n = false) ∨
      (r ≠ 0 ∧ lo ≤ r ∧ r < size ∧ live r ∧ bucket r = b ∧ p r = true) :=
  h.chain.search_spec hb p

/-- Taking the first free slot and putting it into bucket `b` makes it live there. -/
theorem alloc (h : Threaded lo size live bucket L) (hf : L.free ≠ 0) (b : ℕ) :
    Threaded lo size (fun n => live n ∨ n = L.free) (Function.update bucket L.free b)
      (L.take.insert b L.free) := by
  obtain ⟨hflo, hfs, hfv⟩ := h.free.head hf
  have hchain : Chains lo size live bucket L.take := h.chain
  constructor
  · have hins : Chains lo size (fun n => live n ∨ n = L.free) (Function.update bucket L.free b)
        (L.take.insert (Function.update bucket L.free b L.free) L.free) := by
      refine hchain.insert hf (fun h => hfv h.2) (fun n _ => ?_)
        (fun n hn _ _ => Function.update_of_ne hn _ _) hfs
      by_cases hn : n = L.free
      · subst hn
        simp [hflo]
      · simp [hn]
    rwa [Function.update_self] at hins
  · exact (h.free.take hf fun _ => Iff.rfl).insert (by simp)

/-- One step of a rebuild extends the threaded part of the table by one slot. -/
theorem rebuildStep {keep : ℕ → Bool} (h : Threaded (lo + 1) size (keep · = true) bucket L)
    (hlo : lo ≠ 0) (hls : lo < size) :
    Threaded lo size (keep · = true) bucket (L.rebuildStep keep bucket lo) := by
  have hrange : ∀ n, lo ≤ n ↔ n = lo ∨ lo + 1 ≤ n := by
    intro n
    omega
  by_cases hk : keep lo = true
  · rw [Links.rebuildStep, if_pos hk]
    constructor
    · refine h.chain.insert hlo (by omega) (fun n _ => ?_) (fun _ _ _ _ => rfl) hls
      rw [hrange n]
      constructor
      · rintro ⟨rfl | hn, hkn⟩
        · exact Or.inl rfl
        · exact Or.inr ⟨hn, hkn⟩
      · rintro (rfl | ⟨hn, hkn⟩)
        · exact ⟨Or.inl rfl, hk⟩
        · exact ⟨Or.inr hn, hkn⟩
    · obtain ⟨l, hc, hnd, hlen, hm⟩ := h.free.insert (b := bucket lo) (m := lo) (by omega)
      refine ⟨l, hc, hnd, hlen, fun n => (hm n).trans ?_⟩
      rw [hrange n]
      constructor
      · rintro ⟨hn, hkn⟩
        exact ⟨⟨Or.inr hn.1, hn.2⟩, hkn⟩
      · rintro ⟨⟨rfl | hn, hs⟩, hkn⟩
        · exact absurd hk hkn
        · exact ⟨⟨hn, hs⟩, hkn⟩
  · rw [Links.rebuildStep, if_neg hk]
    constructor
    · intro b hbs
      obtain ⟨l, hc, hnd, hm⟩ := h.chain.relink (m := lo) (v := L.free) (by omega) b hbs
      refine ⟨l, hc, hnd, fun n => (hm n).trans ?_⟩
      rw [hrange n]
      constructor
      · rintro ⟨hn, hkn, hbn⟩
        exact ⟨⟨Or.inr hn.1, hn.2⟩, hkn, hbn⟩
      · rintro ⟨⟨rfl | hn, hs⟩, hkn, hbn⟩
        · exact absurd hkn hk
        · exact ⟨⟨hn, hs⟩, hkn, hbn⟩
    · exact h.free.release hlo hls hk

/-- Before a rebuild: empty buckets and an empty free list. -/
theorem rebuild_start {keep : ℕ → Bool} (hhead : ∀ b < size, L.head b = 0) (hfree : L.free = 0)
    (hnum : L.freenum = 0) : Threaded size size (keep · = true) bucket L := by
  have hrange : ∀ n, ¬ (size ≤ n ∧ n < size) := by
    intro n
    omega
  constructor
  · intro b hbs
    exact ⟨[], hhead b hbs, List.nodup_nil, by simp [hrange]⟩
  · exact ⟨[], hfree, List.nodup_nil, by simp [hnum], by simp [hrange]⟩

end Threaded

/-- One step of a rehash that leaves the free list alone. -/
theorem Chains.rehashStep {keep : ℕ → Bool} (h : Chains (lo + 1) size (keep · = true) bucket L)
    (hlo : lo ≠ 0) (hls : lo < size) :
    Chains lo size (keep · = true) bucket
      (if keep lo then L.insert (bucket lo) lo else L) := by
  by_cases hk : keep lo = true
  · rw [if_pos hk]
    refine h.insert hlo (by omega) (fun n _ => ?_) (fun _ _ _ _ => rfl) hls
    constructor
    · rintro ⟨hn, hkn⟩
      by_cases hnlo : n = lo
      · exact Or.inl hnlo
      · exact Or.inr ⟨by omega, hkn⟩
    · rintro (rfl | ⟨hn, hkn⟩)
      · exact ⟨Nat.le_refl _, hk⟩
      · exact ⟨by omega, hkn⟩
  · rw [if_neg hk]
    intro b hbs
    obtain ⟨l, hc, hnd, hm⟩ := h b hbs
    refine ⟨l, hc, hnd, fun n => (hm n).trans ?_⟩
    constructor
    · rintro ⟨hn, hkn, hbn⟩
      exact ⟨⟨by omega, hn.2⟩, hkn, hbn⟩
    · rintro ⟨hn, hkn, hbn⟩
      have : n ≠ lo := fun he => hk (he ▸ hkn)
      exact ⟨⟨by omega, hn.2⟩, hkn, hbn⟩

/-- Slots appended to the table and linked one to the next extend the free list. -/
theorem FreeList.extend (h : FreeList lo size live L) {size' : ℕ} (hlo : lo ≤ size)
    (hsize : size < size') (hsize0 : size ≠ 0) {next' : ℕ → ℕ} {live' : ℕ → Prop}
    (hold : ∀ n, lo ≤ n → n < size → next' n = L.next n)
    (hnew : ∀ n, size ≤ n → n + 1 < size' → next' n = n + 1)
    (hlast : next' (size' - 1) = L.free)
    (hl : ∀ n, lo ≤ n → n < size → (live' n ↔ live n))
    (hl' : ∀ n, size ≤ n → n < size' → ¬ live' n) (head : ℕ → ℕ) :
    FreeList lo size' live'
      ⟨head, next', size, L.freenum + (size' - size)⟩ := by
  obtain ⟨l, hc, hnd, hlen, hm⟩ := h
  -- the new slots from `size' - k` on, followed by the old list
  have hstep : ∀ k, 0 < k → k ≤ size' - size →
      IsChain next' (size' - k) (List.range' (size' - k) k ++ l) := by
    intro k
    induction k with
    | zero => intro h; omega
    | succ k ih =>
      intro _ hk
      rw [List.range'_succ, List.cons_append]
      refine ⟨rfl, by omega, ?_⟩
      by_cases hk0 : k = 0
      · subst hk0
        simp only [Nat.zero_add, List.range'_zero, List.nil_append]
        rw [hlast]
        exact hc.congr fun n hn => by
          have := ((hm n).mp hn).1
          exact hold n this.1 this.2
      · have heq : size' - (k + 1) + 1 = size' - k := by omega
        rw [hnew _ (by omega) (by omega), heq]
        exact ih (by omega) (by omega)
  have hchain := hstep (size' - size) (by omega) (Nat.le_refl _)
  have heq : size' - (size' - size) = size := by omega
  rw [heq] at hchain
  refine ⟨_, hchain, ?_, ?_, fun n => ?_⟩
  · refine List.nodup_append'.mpr ⟨List.nodup_range', hnd, ?_⟩
    intro n h1 h2
    have := ((hm n).mp h2).1
    have := List.mem_range'_1.mp h1
    omega
  · simp [hlen]
    omega
  · rw [List.mem_append, hm n, List.mem_range'_1]
    constructor
    · rintro (hn | ⟨hn, hv⟩)
      · exact ⟨by omega, hl' n hn.1 (by omega)⟩
      · exact ⟨by omega, fun h => hv ((hl n hn.1 hn.2).mp h)⟩
    · rintro ⟨hn, hv⟩
      by_cases hns : n < size
      · exact Or.inr ⟨⟨hn.1, hns⟩, fun h => hv ((hl n hn.1 hns).mpr h)⟩
      · exact Or.inl (by omega)

/-! ## The lists that a rebuild makes -/

/-- The slots from `lo` on, below `size`, that pass a test. -/
def slots (lo size : ℕ) (p : ℕ → Bool) : List ℕ := (List.range' lo (size - lo)).filter p

theorem mem_slots {p : ℕ → Bool} {n : ℕ} : n ∈ slots lo size p ↔ (lo ≤ n ∧ n < size) ∧ p n = true := by
  unfold slots
  rw [List.mem_filter, List.mem_range'_1]
  have hrange : lo ≤ n ∧ n < lo + (size - lo) ↔ lo ≤ n ∧ n < size := by omega
  rw [hrange]

theorem slots_succ (h : lo < size) (p : ℕ → Bool) :
    slots lo size p = if p lo then lo :: slots (lo + 1) size p else slots (lo + 1) size p := by
  unfold slots
  have hsize : size - lo = (size - (lo + 1)) + 1 := by omega
  rw [hsize, List.range'_succ, List.filter_cons]

theorem slots_self (size : ℕ) (p : ℕ → Bool) : slots size size p = [] := by
  simp [slots]

theorem not_mem_slots (lo size : ℕ) (p : ℕ → Bool) : lo ∉ slots (lo + 1) size p := fun h => by
  have := (mem_slots.mp h).1
  omega

/-- From `lo` on, the slots of every chain and of the free list are in ascending order. -/
structure Ascending (lo size : ℕ) (keep : ℕ → Bool) (bucket : ℕ → ℕ) (L : Links) : Prop where
  chain : ∀ b < size, IsChain L.next (L.head b) (slots lo size fun n => keep n && bucket n == b)
  free : IsChain L.next L.free (slots lo size fun n => !keep n)
  freenum : L.freenum = (slots lo size fun n => !keep n).length

theorem IsChain.head_eq {next : ℕ → ℕ} {h : ℕ} {l : List ℕ} (hc : IsChain next h l) :
    h = l.headD 0 := by
  cases l with
  | nil => exact hc
  | cons a l => exact hc.1

/-- A list determines the links of its slots. -/
theorem IsChain.next_eq {next next' : ℕ → ℕ} {h h' : ℕ} {l : List ℕ} (hc : IsChain next h l)
    (hc' : IsChain next' h' l) {n : ℕ} (hn : n ∈ l) : next' n = next n := by
  induction l generalizing h h' with
  | nil => exact absurd hn List.not_mem_nil
  | cons a l ih =>
    obtain ⟨-, -, hl⟩ := hc
    obtain ⟨-, -, hl'⟩ := hc'
    rcases List.mem_cons.mp hn with rfl | hn
    · exact hl'.head_eq.trans hl.head_eq.symm
    · exact ih hl hl' hn

namespace Ascending

variable {keep : ℕ → Bool} {L' : Links}

theorem start (hhead : ∀ b < size, L.head b = 0) (hfree : L.free = 0) (hnum : L.freenum = 0) :
    Ascending size size keep bucket L := by
  refine ⟨fun b hb => ?_, ?_, ?_⟩
  · rw [slots_self]
    exact hhead b hb
  · rw [slots_self]
    exact hfree
  · rw [slots_self]
    exact hnum

theorem rebuildStep (h : Ascending (lo + 1) size keep bucket L) (hlo : lo ≠ 0) (hls : lo < size) :
    Ascending lo size keep bucket (L.rebuildStep keep bucket lo) := by
  have hnot := not_mem_slots lo size
  cases hk : keep lo with
  | true =>
    rw [Links.rebuildStep, if_pos hk]
    refine ⟨fun b hb => ?_, ?_, ?_⟩
    · have hchain := (h.chain b hb).update (v := L.head (bucket lo)) (hnot _)
      rw [slots_succ hls, hk, Bool.true_and]
      unfold Links.insert
      dsimp only
      by_cases heq : bucket lo = b
      · rw [if_pos (beq_iff_eq.mpr heq), heq, Function.update_self]
        rw [heq] at hchain
        refine ⟨rfl, hlo, ?_⟩
        rw [Function.update_self]
        exact hchain
      · rw [if_neg (mt beq_iff_eq.mp heq), Function.update_of_ne (Ne.symm heq)]
        exact hchain
    · rw [slots_succ hls, hk, if_neg (by simp)]
      exact h.free.update (hnot _)
    · rw [slots_succ hls, hk, if_neg (by simp)]
      exact h.freenum
  | false =>
    rw [Links.rebuildStep, if_neg (by simp [hk])]
    refine ⟨fun b hb => ?_, ?_, ?_⟩
    · rw [slots_succ hls, hk, if_neg (by simp)]
      exact (h.chain b hb).update (hnot _)
    · rw [slots_succ hls, hk, if_pos (by simp)]
      unfold Links.release
      refine ⟨rfl, hlo, ?_⟩
      dsimp only
      rw [Function.update_self]
      exact h.free.update (hnot _)
    · rw [slots_succ hls, hk, if_pos (by simp), List.length_cons]
      exact congrArg (· + 1) h.freenum

/-- The ascending lists are the only ones. -/
theorem unique (h : Ascending lo size keep bucket L) (h' : Ascending lo size keep bucket L')
    (hbucket : ∀ n, keep n = true → bucket n < size)
    (hnext : ∀ n, ¬ (lo ≤ n ∧ n < size) → L'.next n = L.next n)
    (hhead : ∀ b, size ≤ b → L'.head b = L.head b) : L' = L := by
  ext n
  · rcases Nat.lt_or_ge n size with hn | hn
    · exact (h'.chain n hn).head_eq.trans (h.chain n hn).head_eq.symm
    · exact hhead n hn
  · by_cases hn : lo ≤ n ∧ n < size
    · cases hk : keep n with
      | true =>
        have hb := hbucket n hk
        exact (h.chain _ hb).next_eq (h'.chain _ hb) (mem_slots.mpr ⟨hn, by simp [hk]⟩)
      | false => exact h.free.next_eq h'.free (mem_slots.mpr ⟨hn, by simp [hk]⟩)
    · exact hnext n hn
  · exact h'.free.head_eq.trans h.free.head_eq.symm
  · exact h'.freenum.trans h.freenum.symm

end Ascending

end Chained
