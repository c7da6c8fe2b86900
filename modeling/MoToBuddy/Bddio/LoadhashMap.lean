import MoToBuddy.Bddio.Loadhash

/-!
# The hash of the loader is a map (`bddio.c`)

* `Holds.realloc`: the table of twice the size has the same entries.
* `Holds.add`: `loadhash_add` adds an entry, whether the table grows or not.
* `Holds.maps`: what `loadhash_get` answers, and that all lists end.
* `loadhash_maps`: any number of calls of `loadhash_add`.
-/

namespace MoToBuddy.Bddio

open Chained CountedLoop

variable {s old : Loader} {adds : List (ℤ × ℤ)} {live live' : ℕ → Prop} {key data : ℤ}
  {malloc : ℕ → Bool} {fuel nodenum n : ℕ} {o : Option ℕ} {l : List ℕ}

/-! ## The empty table -/

/-- The free list of an empty table has its slots in order. -/
theorem freshLoader_free (hpos : 0 < nodenum) {k m : ℕ} (hm : m + k = nodenum) :
    IsChain (freshLoader nodenum).links.next (if k = 0 then 0 else m + 1) (List.range' (m + 1) k) := by
  induction k generalizing m with
  | zero => exact rfl
  | succ k ih =>
    rw [List.range'_succ, isChain_cons, if_neg (Nat.succ_ne_zero k)]
    refine ⟨rfl, Nat.succ_ne_zero m, ?_⟩
    have hnext : (freshLoader nodenum).links.next (m + 1) = if k = 0 then 0 else m + 1 + 1 := by
      simp only [Loader.links, freshLoader, Nat.add_one_ne_zero, if_false, Nat.add_sub_cancel]
      by_cases hk : k = 0
      · rw [if_pos (by omega), if_pos hk, link_none]
      · rw [if_neg (by omega), if_neg hk, link_some]
    rw [hnext]
    exact ih (by omega)

theorem freshLoader_holds (hpos : 0 < nodenum) :
    Holds (freshLoader nodenum) [] fun _ => False where
  pos := hpos
  threaded := by
    constructor
    · intro b _
      refine ⟨[], ?_, List.nodup_nil, by simp⟩
      cases b <;> simp [Loader.links, freshLoader]
    · have hchain := freshLoader_free hpos (Nat.zero_add nodenum)
      rw [if_neg (by omega)] at hchain
      refine ⟨_, hchain, List.nodup_range', by simp [Loader.links, freshLoader], fun n => ?_⟩
      rw [List.mem_range'_1]
      simp only [freshLoader, not_false_eq_true, and_true]
      omega
  count := rfl
  le := Nat.zero_le _
  mem a := by simp
  inj n m _ _ h := h.elim
  nonneg a ha := by simp at ha
  unused n _ := rfl

/-- A slot is free if there are fewer entries than slots. -/
theorem Holds.exists_free (h : Holds s adds live) (hlt : adds.length < s.nodenum) :
    ∃ pos, s.freepos = some pos := by
  obtain ⟨l, hc, -, hlen, -⟩ := h.threaded.free
  cases hpos : s.freepos with
  | some pos => exact ⟨pos, rfl⟩
  | none =>
    have hnil : l = [] := hc.eq_nil_iff.mpr (by simp [Loader.links, hpos])
    rw [hnil] at hlen
    simp only [List.length_nil, Loader.links, h.count] at hlen
    omega

theorem Holds.full (h : Holds s adds live) (hpos : s.freepos = none) :
    adds.length = s.nodenum := by
  have hle := h.le
  by_contra hne
  obtain ⟨pos, hsome⟩ := h.exists_free (by omega)
  rw [hpos] at hsome
  exact absurd hsome (by simp)

/-! ## Growth -/

/-- What is in the slot of a node. -/
def Loader.entry (s : Loader) (n : ℕ) : ℤ × ℤ := ((s.table (n - 1)).key, (s.table (n - 1)).data)

/-- The entries can be added. -/
def Addable (adds : List (ℤ × ℤ)) (nodenum : ℕ) : Prop :=
  (adds.map Prod.fst).Nodup ∧ (∀ a ∈ adds, 0 ≤ a.1) ∧ adds.length ≤ nodenum

theorem Addable.new {a : ℤ × ℤ} {rest : List (ℤ × ℤ)}
    (h : Addable (adds ++ a :: rest) nodenum) :
    0 ≤ a.1 ∧ (∀ b ∈ adds, b.1 ≠ a.1) ∧ adds.length < nodenum := by
  obtain ⟨hnodup, hnonneg, hlen⟩ := h
  refine ⟨hnonneg a (by simp), fun b hb heq => ?_, by simp at hlen; omega⟩
  rw [List.map_append, List.nodup_append] at hnodup
  exact hnodup.2.2 b.1 (List.mem_map_of_mem hb) a.1 (by simp) heq

/-- The walk along a chain adds its entries. -/
theorem rehashChain_spec (hc : IsChain old.links.next (link o) l) (hfuel : l.length < fuel)
    (h : Holds s adds live) (hadd : Addable (adds ++ l.map old.entry) s.nodenum) :
    ∃ s' live', rehashChain old.table fuel o s = some s' ∧ s'.nodenum = s.nodenum ∧
      Holds s' (adds ++ l.map old.entry) live' := by
  induction l generalizing o s adds live fuel with
  | nil =>
    obtain ⟨fuel, rfl⟩ : ∃ k, fuel = k + 1 := ⟨fuel - 1, by simp at hfuel; omega⟩
    obtain rfl : o = none := link_eq_zero.mp hc
    exact ⟨s, live, rfl, rfl, by simpa using h⟩
  | cons m l ih =>
    obtain ⟨fuel, rfl⟩ : ∃ k, fuel = k + 1 := ⟨fuel - 1, by simp at hfuel; omega⟩
    obtain ⟨hm, hne, hrest⟩ := hc
    cases o with
    | none => exact absurd hm.symm hne
    | some p =>
      obtain rfl : p + 1 = m := hm
      rw [List.map_cons] at hadd
      obtain ⟨hkey, hnew, hlt⟩ := hadd.new
      obtain ⟨pos, hpos⟩ := h.exists_free hlt
      obtain ⟨s₁, hrun₁, hnum₁, h₁⟩ := h.insert (old.table p).data hkey hnew hpos
      have hnext : IsChain old.links.next (link (old.table p).next) l := by
        simpa [Loader.links] using hrest
      rw [List.append_cons] at hadd
      obtain ⟨s', live', hrun, hnum, h'⟩ := ih hnext (by simpa using hfuel) h₁ (by rw [hnum₁]; exact hadd)
      refine ⟨s', live', ?_, hnum.trans hnum₁, ?_⟩
      · rw [rehashChain]
        simp only [Loader.entry, Nat.add_sub_cancel] at hrun₁
        rw [hrun₁]
        exact hrun
      · rw [List.map_cons, List.append_cons]
        exact h'

/-- The loop over the buckets adds the entries of all chains. -/
theorem rehash_spec {chains : ℕ → List ℕ} {bs : List ℕ}
    (hc : ∀ b ∈ bs, IsChain old.links.next (link (old.table b).first) (chains b))
    (hfuel : ∀ b ∈ bs, (chains b).length < fuel) (h : Holds s adds live)
    (hadd : Addable (adds ++ (bs.flatMap chains).map old.entry) s.nodenum) :
    ∃ s' live', bs.foldlM (fun new b => rehashChain old.table fuel (old.table b).first new) s =
        some s' ∧ s'.nodenum = s.nodenum ∧
      Holds s' (adds ++ (bs.flatMap chains).map old.entry) live' := by
  induction bs generalizing s adds live with
  | nil => exact ⟨s, live, rfl, rfl, by simpa using h⟩
  | cons b bs ih =>
    rw [List.flatMap_cons, List.map_append, ← List.append_assoc] at hadd ⊢
    have hfirst : Addable (adds ++ (chains b).map old.entry) s.nodenum := by
      obtain ⟨hnodup, hnonneg, hlen⟩ := hadd
      refine ⟨?_, fun a ha => hnonneg a (List.mem_append_left _ ha), ?_⟩
      · rw [List.map_append] at hnodup
        exact (List.nodup_append.mp hnodup).1
      · rw [List.length_append] at hlen
        omega
    obtain ⟨s₁, live₁, hrun₁, hnum₁, h₁⟩ := rehashChain_spec (hc b List.mem_cons_self)
      (hfuel b List.mem_cons_self) h hfirst
    obtain ⟨s', live', hrun, hnum, h'⟩ := ih (fun c hcb => hc c (List.mem_cons_of_mem _ hcb))
      (fun c hcb => hfuel c (List.mem_cons_of_mem _ hcb)) h₁ (by rw [hnum₁]; exact hadd)
    refine ⟨s', live', ?_, hnum.trans hnum₁, h'⟩
    rw [List.foldlM_cons, hrun₁]
    exact hrun

/-- The chains of all buckets, one after the other, have every entry once. -/
theorem Holds.chains (h : Holds s adds live) (hnodup : (adds.map Prod.fst).Nodup) :
    ∃ chains : ℕ → List ℕ, (∀ b < s.nodenum,
      IsChain s.links.next (link (s.table b).first) (chains b) ∧ (chains b).length ≤ s.nodenum + 1) ∧
      (((List.range s.nodenum).flatMap chains).map s.entry).Perm adds := by
  have hex : ∀ b, ∃ l, b < s.nodenum → IsChain s.links.next (link (s.table b).first) l ∧ l.Nodup ∧
      ∀ m, m ∈ l ↔ (1 ≤ m ∧ m < s.nodenum + 1) ∧ live m ∧ s.bucket m = b + 1 := by
    intro b
    by_cases hb : b < s.nodenum
    · obtain ⟨l, hl⟩ := h.threaded.chain (b + 1) (by omega)
      exact ⟨l, fun _ => hl⟩
    · exact ⟨[], fun hlt => absurd hlt hb⟩
  choose chains hchains using hex
  have hmem : ∀ m, m ∈ (List.range s.nodenum).flatMap chains ↔
      (1 ≤ m ∧ m < s.nodenum + 1) ∧ live m := by
    intro m
    rw [List.mem_flatMap]
    constructor
    · rintro ⟨b, hb, hm⟩
      have hm := ((hchains b (List.mem_range.mp hb)).2.2 m).mp hm
      exact ⟨hm.1, hm.2.1⟩
    · intro hm
      have hlt : (s.table (m - 1)).key.toNat % s.nodenum < s.nodenum := Nat.mod_lt _ h.pos
      exact ⟨_, List.mem_range.mpr hlt, ((hchains _ hlt).2.2 m).mpr ⟨hm.1, hm.2, rfl⟩⟩
  have hslots : ((List.range s.nodenum).flatMap chains).Nodup := by
    refine List.nodup_flatMap.mpr ⟨fun b hb => (hchains b (List.mem_range.mp hb)).2.1, ?_⟩
    refine List.nodup_range.imp_of_mem fun {b c} hb hc hne m hmb hmc => hne ?_
    have hmb := ((hchains b (List.mem_range.mp hb)).2.2 m).mp hmb
    have hmc := ((hchains c (List.mem_range.mp hc)).2.2 m).mp hmc
    omega
  refine ⟨chains, fun b hb => ⟨(hchains b hb).1, ?_⟩, ?_⟩
  · exact length_le (hchains b hb).2.1 fun m hm => (((hchains b hb).2.2 m).mp hm).1.2
  · refine (List.perm_ext_iff_of_nodup ?_ hnodup.of_map).mpr fun a => ?_
    · refine hslots.map_on fun m hm k hk heq => ?_
      have hm := (hmem m).mp hm
      have hk := (hmem k).mp hk
      have hinj := h.inj (m - 1) (k - 1) (by omega) (by omega)
        (by rw [Nat.sub_add_cancel hm.1.1]; exact hm.2) (by rw [Nat.sub_add_cancel hk.1.1]; exact hk.2)
        (congrArg Prod.fst heq)
      omega
    · rw [h.mem a, List.mem_map]
      constructor
      · rintro ⟨m, hm, rfl⟩
        have hm := (hmem m).mp hm
        exact ⟨m - 1, by omega, by rw [Nat.sub_add_cancel hm.1.1]; exact hm.2, rfl⟩
      · rintro ⟨n, hn, hlive, rfl⟩
        exact ⟨n + 1, (hmem _).mpr ⟨by omega, hlive⟩, rfl⟩

/-- The table of twice the size has the same entries. -/
theorem Holds.realloc (h : Holds s adds live) (hnodup : (adds.map Prod.fst).Nodup)
    (hmalloc : malloc (2 * s.nodenum) = true) (hsize : 2 * s.nodenum < 2 ^ 31)
    (hfuel : s.nodenum + 1 < fuel) : ∃ s' live', loadhashRealloc malloc fuel s = some (0, s') ∧
      s'.nodenum = 2 * s.nodenum ∧ Holds s' adds live' := by
  obtain ⟨chains, hchains, hperm⟩ := h.chains hnodup
  have hle := h.le
  have hpos := h.pos
  have hadd : Addable ([] ++ ((List.range s.nodenum).flatMap chains).map s.entry)
      (2 * s.nodenum) := by
    refine ⟨(hperm.map Prod.fst).nodup_iff.mpr hnodup, fun a ha => h.nonneg a (hperm.mem_iff.mp ha), ?_⟩
    rw [List.nil_append, hperm.length_eq]
    omega
  obtain ⟨s', live', hrun, hnum, h'⟩ := rehash_spec
    (fun b hb => (hchains b (List.mem_range.mp hb)).1)
    (fun b hb => lt_of_le_of_lt (hchains b (List.mem_range.mp hb)).2 hfuel)
    (freshLoader_holds (show 0 < 2 * s.nodenum by omega)) hadd
  refine ⟨s', live', ?_, hnum, h'.perm hperm⟩
  unfold loadhashRealloc
  rw [if_neg (by omega), if_pos hmalloc, hrun]
  rfl

/-- `loadhash_add` adds an entry, whether the table grows or not. -/
theorem Holds.add {a : ℤ × ℤ} (h : Holds s adds live) (hadd : ((adds ++ [a]).map Prod.fst).Nodup)
    (hkey : 0 ≤ a.1)
    (hgrow : adds.length = s.nodenum → malloc (2 * s.nodenum) = true ∧ 2 * s.nodenum < 2 ^ 31)
    (hfuel : s.nodenum + 1 < fuel) :
    ∃ s' live', loadhashAdd malloc fuel s a = some s' ∧ Holds s' (adds ++ [a]) live' ∧
      s'.nodenum = if adds.length = s.nodenum then 2 * s.nodenum else s.nodenum := by
  rw [List.map_append, List.nodup_append] at hadd
  have hnew : ∀ b ∈ adds, b.1 ≠ a.1 := fun b hb heq =>
    hadd.2.2 b.1 (List.mem_map_of_mem hb) a.1 (by simp) heq
  have hpos := h.pos
  cases hfree : s.freepos with
  | some pos =>
    obtain ⟨-, -, hlt⟩ := h.room hfree
    obtain ⟨s', hrun, hnum, h'⟩ := h.insert a.2 hkey hnew hfree
    refine ⟨s', _, ?_, h', ?_⟩
    · rw [loadhashAdd, hfree]
      exact hrun
    · rw [if_neg (by omega), hnum]
  | none =>
    have hfull := h.full hfree
    obtain ⟨hmalloc, hsize⟩ := hgrow hfull
    obtain ⟨s₁, live₁, hrun₁, hnum₁, h₁⟩ := h.realloc hadd.1 hmalloc hsize hfuel
    obtain ⟨pos, hpos₁⟩ := h₁.exists_free (by omega)
    obtain ⟨s', hrun, hnum, h'⟩ := h₁.insert a.2 hkey hnew hpos₁
    refine ⟨s', _, ?_, h', ?_⟩
    · rw [loadhashAdd, hfree]
      simp only [Option.bind_eq_bind, hrun₁, Option.bind_some, lt_irrefl, if_false]
      exact hrun
    · rw [if_pos hfull, hnum, hnum₁]

/-! ## Looking up -/

/-- The list that the links make. -/
def Loader.Follows (s : Loader) : Option ℕ → List ℕ → Prop
  | none, l => l = []
  | some _, [] => False
  | some n, m :: l => n = m ∧ s.Follows (s.table n).next l

theorem follows_iff : s.Follows o l ↔ IsChain s.links.next (link o) (l.map (· + 1)) := by
  induction l generalizing o with
  | nil => cases o <;> simp [Loader.Follows]
  | cons m l ih =>
    cases o with
    | none => simp [Loader.Follows]
    | some n =>
      rw [Loader.Follows, ih, List.map_cons, isChain_cons, link_some]
      simp only [Loader.links, Nat.add_one_ne_zero, if_false, Nat.add_sub_cancel, Nat.add_right_cancel_iff]
      constructor
      · rintro ⟨rfl, hl⟩
        exact ⟨rfl, Nat.succ_ne_zero n, hl⟩
      · rintro ⟨rfl, -, hl⟩
        exact ⟨rfl, hl⟩

/-- The slot is in the chain of a bucket. -/
def Loader.Used (s : Loader) (n : ℕ) : Prop :=
  ∃ b < s.nodenum, ∃ chain, s.Follows (s.table b).first chain ∧ n ∈ chain

/-- The table is a map: what `loadhash_get` answers, with enough steps for each walk, and where the
entries and the free slots are. -/
structure Maps (fuel : ℕ) (s : Loader) (adds : List (ℤ × ℤ)) : Prop where
  stored : ∀ a ∈ adds, loadhashGet fuel a.1 s = some a.2
  absent : ∀ key, 0 ≤ key → (∀ a ∈ adds, a.1 ≠ key) → loadhashGet fuel key s = some (-1)
  walks : ∀ b < s.nodenum, ∃ chain, s.Follows (s.table b).first chain
  used : ∀ a, a ∈ adds ↔ ∃ n < s.nodenum, s.Used n ∧ ((s.table n).key, (s.table n).data) = a
  free : ∃ free, s.Follows s.freepos free ∧ free.Nodup ∧
    ∀ n, n ∈ free ↔ n < s.nodenum ∧ ¬ s.Used n

/-- The loop of `loadhash_get` ends, at the key or at the end of the chain. -/
theorem loadhashGet_walk (key : ℤ) (hc : IsChain s.links.next (link o) l) (hfuel : l.length < fuel) :
    ∃ r, whileDo (fun hash => hash.any fun hash => (s.table hash).key ≠ key)
        (fun hash => hash.map fun hash => (s.table hash).next) fuel o = some r ∧
      ((r = none ∧ ∀ m ∈ l, (s.table (m - 1)).key ≠ key) ∨
        ∃ n, r = some n ∧ n + 1 ∈ l ∧ (s.table n).key = key) := by
  induction l generalizing o fuel with
  | nil =>
    obtain rfl : o = none := link_eq_zero.mp hc
    exact ⟨none, whileDo_done rfl (by omega), Or.inl ⟨rfl, by simp⟩⟩
  | cons m l ih =>
    obtain ⟨fuel, rfl⟩ : ∃ k, fuel = k + 1 := ⟨fuel - 1, by simp at hfuel; omega⟩
    obtain ⟨hm, hne, hrest⟩ := hc
    cases o with
    | none => exact absurd hm.symm hne
    | some p =>
      obtain rfl : p + 1 = m := hm
      by_cases hkey : (s.table p).key = key
      · exact ⟨some p, whileDo_done (by simp [hkey]) (by omega), Or.inr ⟨p, rfl, by simp, hkey⟩⟩
      · have hnext : IsChain s.links.next (link (s.table p).next) l := by
          simpa [Loader.links] using hrest
        obtain ⟨r, hrun, hres⟩ := ih hnext (by simpa using hfuel)
        refine ⟨r, ?_, ?_⟩
        · rw [whileDo, if_pos (by simp [hkey])]
          exact hrun
        · rcases hres with ⟨hr, hall⟩ | ⟨n, hr, hn, hk⟩
          · refine Or.inl ⟨hr, fun m hm => ?_⟩
            rcases List.mem_cons.mp hm with rfl | hm
            · exact hkey
            · exact hall m hm
          · exact Or.inr ⟨n, hr, List.mem_cons_of_mem _ hn, hk⟩

/-- The chain of a bucket, and what is in it. -/
theorem Holds.chain (h : Holds s adds live) {b : ℕ} (hb : b < s.nodenum) :
    ∃ l, IsChain s.links.next (link (s.table b).first) l ∧ l.length ≤ s.nodenum + 1 ∧
      ∀ m, m ∈ l ↔ (1 ≤ m ∧ m < s.nodenum + 1) ∧ live m ∧ s.bucket m = b + 1 := by
  obtain ⟨l, hc, hnd, hm⟩ := h.threaded.chain (b + 1) (by omega)
  exact ⟨l, hc, length_le hnd fun m hml => ((hm m).mp hml).1.2, hm⟩

theorem exists_follows (hc : IsChain s.links.next (link o) l) :
    ∃ chain, s.Follows o chain ∧ l = chain.map (· + 1) := by
  have hl : l = (l.map (· - 1)).map (· + 1) := by
    rw [List.map_map]
    refine (List.map_congr_left fun m hm => ?_).trans (List.map_id l) |>.symm
    have hne := hc.ne_zero_of_mem hm
    show m - 1 + 1 = id m
    simp only [id]
    omega
  exact ⟨l.map (· - 1), follows_iff.mpr (hl ▸ hc), hl⟩

theorem Holds.used_iff (h : Holds s adds live) (hn : n < s.nodenum) :
    s.Used n ↔ live (n + 1) := by
  constructor
  · rintro ⟨b, hb, chain, hfollows, hmem⟩
    obtain ⟨l, hc, -, hm⟩ := h.chain hb
    have hsame := (follows_iff.mp hfollows).unique hc
    have hin : n + 1 ∈ l := hsame ▸ List.mem_map_of_mem hmem
    exact ((hm _).mp hin).2.1
  · intro hlive
    have hb : (s.table n).key.toNat % s.nodenum < s.nodenum := Nat.mod_lt _ h.pos
    obtain ⟨l, hc, -, hm⟩ := h.chain hb
    obtain ⟨chain, hfollows, rfl⟩ := exists_follows hc
    have hin := (hm (n + 1)).mpr ⟨by omega, hlive, rfl⟩
    rw [List.mem_map] at hin
    obtain ⟨m, hmem, heq⟩ := hin
    obtain rfl : m = n := by omega
    exact ⟨_, hb, chain, hfollows, hmem⟩

/-- What `loadhash_get` finds. -/
theorem Holds.get (h : Holds s adds live) (hkey : 0 ≤ key) (hfuel : s.nodenum + 1 < fuel) :
    (∃ n < s.nodenum, live (n + 1) ∧ (s.table n).key = key ∧
      loadhashGet fuel key s = some (s.table n).data) ∨
    ((∀ n < s.nodenum, live (n + 1) → (s.table n).key ≠ key) ∧
      loadhashGet fuel key s = some (-1)) := by
  have hb : key.toNat % s.nodenum < s.nodenum := Nat.mod_lt _ h.pos
  obtain ⟨l, hc, hlen, hm⟩ := h.chain hb
  obtain ⟨r, hrun, hres⟩ := loadhashGet_walk key hc (lt_of_le_of_lt hlen hfuel)
  unfold loadhashGet
  rw [loadhashIndex_eq hkey, Option.bind_eq_bind, Option.bind_some, hrun]
  rcases hres with ⟨rfl, hall⟩ | ⟨n, rfl, hn, hk⟩
  · refine Or.inr ⟨fun n hn hlive heq => ?_, rfl⟩
    refine hall (n + 1) ((hm _).mpr ⟨by omega, hlive, ?_⟩) heq
    simp [Loader.bucket, heq]
  · obtain ⟨hrange, hlive, -⟩ := (hm _).mp hn
    exact Or.inl ⟨n, by omega, hlive, hk, rfl⟩

theorem Holds.maps (h : Holds s adds live) (hfuel : s.nodenum + 1 < fuel) : Maps fuel s adds where
  stored a ha := by
    obtain ⟨n, hn, hlive, rfl⟩ := (h.mem a).mp ha
    rcases h.get (h.nonneg _ ha) hfuel with ⟨m, hm, hlive', hk, hget⟩ | ⟨hnone, -⟩
    · obtain rfl := h.inj m n hm hn hlive' hlive hk
      exact hget
    · exact absurd rfl (hnone n hn hlive)
  absent key hkey hnew := by
    rcases h.get hkey hfuel with ⟨n, hn, hlive, hk, -⟩ | ⟨-, hget⟩
    · exact absurd hk (hnew _ ((h.mem _).mpr ⟨n, hn, hlive, rfl⟩))
    · exact hget
  walks b hb := by
    obtain ⟨l, hc, -, -⟩ := h.chain hb
    obtain ⟨chain, hfollows, -⟩ := exists_follows hc
    exact ⟨chain, hfollows⟩
  used a := by
    rw [h.mem a]
    exact exists_congr fun n => and_congr_right fun hn => and_congr_left fun _ => (h.used_iff hn).symm
  free := by
    obtain ⟨l, hc, hnd, -, hm⟩ := h.threaded.free
    obtain ⟨free, hfollows, rfl⟩ := exists_follows hc
    refine ⟨free, hfollows, hnd.of_map, fun n => ?_⟩
    have hmem := hm (n + 1)
    rw [List.mem_map_of_injective (add_left_injective 1)] at hmem
    rw [hmem]
    constructor
    · rintro ⟨hn, hlive⟩
      exact ⟨by omega, fun hused => hlive ((h.used_iff (by omega)).mp hused)⟩
    · rintro ⟨hn, hused⟩
      exact ⟨by omega, fun hlive => hused ((h.used_iff hn).mpr hlive)⟩

/-! ## Any number of calls -/

/-- No growth of a table from this size on needs more slots than an `int` can count. -/
def SizesFit (nodenum total : ℕ) : Prop :=
  ∀ k, nodenum * 2 ^ k < total → nodenum * 2 ^ (k + 1) < 2 ^ 31

theorem loadhashAdd_run {rest : List (ℤ × ℤ)} {k : ℕ} (h : Holds s adds live)
    (hnodup : ((adds ++ rest).map Prod.fst).Nodup) (hnonneg : ∀ a ∈ rest, 0 ≤ a.1)
    (hmalloc : ∀ size, malloc size = true) (hsizes : SizesFit nodenum (adds ++ rest).length)
    (hnum : s.nodenum = nodenum * 2 ^ k) (hbound : s.nodenum ≤ nodenum + 2 * adds.length)
    (hfuel : nodenum + 2 * (adds ++ rest).length + 1 < fuel) :
    ∃ s' live', rest.foldlM (loadhashAdd malloc fuel) s = some s' ∧
      Holds s' (adds ++ rest) live' ∧ s'.nodenum + 1 < fuel := by
  induction rest generalizing s adds live k with
  | nil =>
    refine ⟨s, live, rfl, by simpa using h, ?_⟩
    rw [List.append_nil] at hfuel
    omega
  | cons a rest ih =>
    rw [List.append_cons] at hnodup hsizes hfuel
    have hlen : (adds ++ [a] ++ rest).length = adds.length + 1 + rest.length := by
      simp only [List.length_append, List.length_singleton]
    have hfirst : ((adds ++ [a]).map Prod.fst).Nodup := by
      rw [List.map_append] at hnodup
      exact (List.nodup_append.mp hnodup).1
    obtain ⟨s₁, live₁, hrun₁, h₁, hnum₁⟩ := h.add hfirst (hnonneg a List.mem_cons_self)
      (fun hfull => by
        have hgrow := hsizes k (by rw [← hnum, hlen]; omega)
        rw [pow_succ, ← Nat.mul_assoc, ← hnum] at hgrow
        exact ⟨hmalloc _, by omega⟩)
      (show s.nodenum + 1 < fuel by omega)
    have hlen₁ : (adds ++ [a]).length = adds.length + 1 := by simp
    -- the size is still the first one, doubled some times
    obtain ⟨j, hj, hbound₁⟩ : ∃ j, s₁.nodenum = nodenum * 2 ^ j ∧
        s₁.nodenum ≤ nodenum + 2 * (adds ++ [a]).length := by
      by_cases hfull : adds.length = s.nodenum
      · rw [if_pos hfull] at hnum₁
        exact ⟨k + 1, by rw [hnum₁, hnum]; ring, by omega⟩
      · rw [if_neg hfull] at hnum₁
        exact ⟨k, by rw [hnum₁, hnum], by omega⟩
    obtain ⟨s', live', hrun, h', hlt⟩ := ih h₁ hnodup
      (fun b hb => hnonneg b (List.mem_cons_of_mem _ hb)) hsizes hj hbound₁ hfuel
    refine ⟨s', live', ?_, by rw [List.append_cons]; exact h', hlt⟩
    rw [List.foldlM_cons, hrun₁]
    exact hrun

/-- Any number of calls of `loadhash_add` with new keys makes a table that is a map. -/
theorem loadhash_maps (nodenum : ℕ) (hpos : 0 < nodenum) (adds : List (ℤ × ℤ))
    (hnodup : (adds.map Prod.fst).Nodup) (hnonneg : ∀ a ∈ adds, 0 ≤ a.1)
    (hsizes : SizesFit nodenum adds.length) (malloc : ℕ → Bool)
    (hmalloc : ∀ size, malloc size = true) :
    ∃ fuel₀, ∀ fuel ≥ fuel₀, ∃ s,
      adds.foldlM (loadhashAdd malloc fuel) (freshLoader nodenum) = some s ∧ Maps fuel s adds := by
  refine ⟨nodenum + 2 * adds.length + 2, fun fuel hfuel => ?_⟩
  obtain ⟨s, live, hrun, h, hlt⟩ := loadhashAdd_run (freshLoader_holds hpos) hnodup
    hnonneg hmalloc hsizes (show nodenum = nodenum * 2 ^ 0 by simp) (Nat.le_add_right _ _)
    (show nodenum + 2 * adds.length + 1 < fuel by omega)
  exact ⟨s, hrun, h.maps hlt⟩

/-- Three entries in a table of one slot, which grows twice. -/
theorem loadhash_maps_three : ∃ fuel₀, ∀ fuel ≥ fuel₀, ∃ s,
    [(5, 10), (2, 11), (9, 12)].foldlM (loadhashAdd (fun _ => true) fuel) (freshLoader 1) = some s ∧
      Maps fuel s [(5, 10), (2, 11), (9, 12)] :=
  loadhash_maps 1 (by decide) _ (by decide) (by decide)
    (fun k hk => by
      have hle : k < 2 := by
        by_contra hge
        have hpow : 2 ^ 2 ≤ 2 ^ k := Nat.pow_le_pow_right (by decide) (not_lt.mp hge)
        simp at hk
        omega
      have hpow : 2 ^ (k + 1) ≤ 2 ^ 2 := Nat.pow_le_pow_right (by decide) hle
      omega)
    (fun _ => true) fun _ => rfl

end MoToBuddy.Bddio
