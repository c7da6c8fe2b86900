import MoToBuddy.Bdd.Held
import MoToBuddy.Bddio.Load
import MoToBuddy.Bddio.LoadhashMap

/-!
# What the loader builds

`Describes` says that node lines form the diagram of a root, with the function of each node. From
such lines `bdd_loaddata` builds the function of the root, in whatever order they come
(`bddLoaddata_describes`): a line waits for those of its children, and the root is the one that is
built last, since it waits for all the others.
-/

namespace MoToBuddy.Bddio

open Bdd Scanning Deferred CountedLoop

variable {P : Type*} {T : Theory P} {malloc : ℕ → Bool} {s s₀ : BddState P} {L : List ℕ}
  {xs done rest : List NodeLine} {x y : NodeLine} {num nodenum : ℕ} {root : ℤ}
  {val : ℤ → (ℕ → Bool) → Bool} {node : ℤ → ℕ} {l : Loading P}

/-! ## Lines that form a diagram -/

/-- The ids of the lines. -/
abbrev keys (xs : List NodeLine) : List ℤ := xs.map NodeLine.key

/-- The children of the line have been built. -/
def Ready (done : List NodeLine) (x : NodeLine) : Prop :=
  ∀ c ∈ [x.low, x.high], 2 ≤ c → c ∈ keys done

/-- Lines of nodes over `num` variables that form the diagram of `root`, in any order: `val` are the
functions of the nodes. -/
structure Describes (num : ℕ) (xs : List NodeLine) (root : ℤ) (val : ℤ → (ℕ → Bool) → Bool) :
    Prop where
  nodup : (keys xs).Nodup
  key : ∀ x ∈ xs, 2 ≤ x.key
  var : ∀ x ∈ xs, 0 ≤ x.var ∧ x.var < num
  child : ∀ x ∈ xs, ∀ c ∈ [x.low, x.high], c = 0 ∨ c = 1 ∨ c ∈ keys xs
  acyclic : ∃ rank : ℤ → ℕ, ∀ x ∈ xs, ∀ c ∈ [x.low, x.high], 2 ≤ c → rank c < rank x.key
  zero : ∀ a, val 0 a = false
  one : ∀ a, val 1 a = true
  val : ∀ x ∈ xs, ∀ a, val x.key a = if a x.var.toNat then val x.high a else val x.low a
  mem_root : root ∈ keys xs
  whole : ∀ S : ℤ → Prop, S root → (∀ x ∈ xs, S x.key → ∀ c ∈ [x.low, x.high], 2 ≤ c → S c) →
    ∀ x ∈ xs, S x.key

theorem Describes.eq_of_key (h : Describes num xs root val) (hx : x ∈ xs) (hy : y ∈ xs)
    (heq : x.key = y.key) : x = y := List.inj_on_of_nodup_map h.nodup hx hy heq

theorem Describes.perm (h : Describes num xs root val) {ys : List NodeLine} (hp : ys.Perm xs) :
    Describes num ys root val where
  nodup := (hp.map _).nodup_iff.mpr h.nodup
  key x hx := h.key x (hp.mem_iff.mp hx)
  var x hx := h.var x (hp.mem_iff.mp hx)
  child x hx c hc := by
    rw [(hp.map NodeLine.key).mem_iff]
    exact h.child x (hp.mem_iff.mp hx) c hc
  acyclic := by
    obtain ⟨rank, hrank⟩ := h.acyclic
    exact ⟨rank, fun x hx => hrank x (hp.mem_iff.mp hx)⟩
  zero := h.zero
  one := h.one
  val x hx := h.val x (hp.mem_iff.mp hx)
  mem_root := (hp.map _).mem_iff.mpr h.mem_root
  whole S hroot hS x hx :=
    h.whole S hroot (fun y hy => hS y (hp.mem_iff.mpr hy)) x (hp.mem_iff.mp hx)

/-- A line waits for lines of a smaller rank. -/
theorem Describes.progress (h : Describes num xs root val) {l : List NodeLine}
    (hperm : (done ++ l).Perm xs) (hl : l ≠ []) : ∃ x ∈ l, Ready done x := by
  obtain ⟨rank, hrank⟩ := h.acyclic
  refine exists_ready (fun x => rank x.key) (fun done x hx hnot => ?_) hperm hl
  obtain ⟨c, hc, h2, hmem⟩ : ∃ c ∈ [x.low, x.high], 2 ≤ c ∧ c ∉ keys done := by
    by_contra hno
    exact hnot fun c hc h2 => by_contra fun hmem => hno ⟨c, hc, h2, hmem⟩
  rcases h.child x hx c hc with rfl | rfl | hcx
  · omega
  · omega
  · obtain ⟨y, hy, rfl⟩ := List.mem_map.mp hcx
    exact ⟨y, hy, fun hyd => hmem (List.mem_map_of_mem hyd), hrank x hx _ hc h2⟩

/-- If children come first, then the root comes last. -/
theorem Describes.root_last (h : Describes num xs root val) (hperm : done.Perm xs)
    (hready : ∀ before x after, done = before ++ x :: after → Ready before x) :
    ∃ x, done.getLast? = some x ∧ x.key = root := by
  obtain ⟨x, hx, hkey⟩ := List.mem_map.mp h.mem_root
  obtain ⟨before, after, rfl⟩ := List.append_of_mem (hperm.mem_iff.mpr hx)
  have hnodup := (hperm.map NodeLine.key).nodup_iff.mpr h.nodup
  -- the lines up to that of the root are closed under children
  have hall := h.whole (fun k => k ∈ keys (before ++ [x]))
    (List.mem_map.mpr ⟨x, by simp, hkey⟩) fun y hy hyk c hc h2 => by
      obtain ⟨z, hz, hzk⟩ := List.mem_map.mp hyk
      have hzx : z ∈ xs := hperm.mem_iff.mp (by
        rw [List.append_cons]
        exact List.mem_append_left _ hz)
      obtain rfl := h.eq_of_key hzx hy hzk
      obtain ⟨b, a, hab⟩ := List.append_of_mem hz
      have hsplit : before ++ x :: after = b ++ z :: (a ++ after) := by
        rw [List.append_cons, hab, List.append_assoc, List.cons_append]
      have hb := hready b z _ hsplit c hc h2
      rw [hab, keys, List.map_append]
      exact List.mem_append_left _ hb
  have hafter : after = [] := by
    by_contra hne
    obtain ⟨z, hz⟩ := List.exists_mem_of_ne_nil after hne
    have hzx : z ∈ xs := hperm.mem_iff.mp (by simp [hz])
    have hin := hall z hzx
    rw [List.append_cons, List.map_append] at hnodup
    exact (List.nodup_append.mp hnodup).2.2 _ hin _ (List.mem_map_of_mem hz) rfl
  subst hafter
  exact ⟨x, by simp, hkey⟩

/-! ## One node -/

/-- The hash of the size `nodenum` takes `total` nodes: it does not grow, or there is memory whenever
it does. -/
def Grows (malloc : ℕ → Bool) (nodenum total : ℕ) : Prop :=
  ∀ k, nodenum * 2 ^ k < total →
    malloc (nodenum * 2 ^ (k + 1)) = true ∧ nodenum * 2 ^ (k + 1) < 2 ^ 31

theorem Grows.of_le {total : ℕ} (h : total ≤ nodenum) : Grows malloc nodenum total := fun k hk => by
  have hpow : nodenum ≤ nodenum * 2 ^ k := Nat.le_mul_of_pos_right _ (Nat.two_pow_pos k)
  omega

/-- What the loader has built of the lines `done`, besides what was there in `s₀`: `node` has the
nodes, with a reference to each. The hash has the size `nodenum`, doubled some times. -/
structure Builds (T : Theory P) (s₀ : BddState P) (L : List ℕ) (nodenum : ℕ)
    (val : ℤ → (ℕ → Bool) → Bool) (node : ℤ → ℕ) (done : List NodeLine) (l : Loading P) :
    Prop where
  good : Good T l.bdd
  keeps : Keeps T.D s₀ l.bdd
  nodenum : ∃ k, l.table.nodenum = nodenum * 2 ^ k
  table : ∃ live, Holds l.table (done.map fun x => (x.key, (node x.key : ℤ))) live
  covers : l.bdd.Covers ((done.map fun x => node x.key) ++ L)
  denotes : ∀ x ∈ done, Denotes T.D l.bdd (node x.key) (val x.key)
  key : ∀ x ∈ done, 2 ≤ x.key
  root : ∀ x, done.getLast? = some x → l.root = node x.key
  ready : ∀ before x after, done = before ++ x :: after → Ready before x

theorem Builds.referenced (h : Builds T s₀ L nodenum val node done l) (hx : x ∈ done) :
    l.bdd.Referenced (node x.key) :=
  h.covers.referenced (List.mem_append_left _ (List.mem_map.mpr ⟨x, hx, rfl⟩))
    (h.denotes x hx).isNode

/-- The node of a child that has been built, or that is a constant. -/
theorem Builds.childNode (h : Builds T s₀ L nodenum val node done l) {c : ℤ} (h0 : 0 ≤ c) :
    childNode l.table c = some (if c < 2 then c else if c ∈ keys done then node c else -1) := by
  unfold Bddio.childNode
  by_cases hc : c < 2
  · rw [if_neg (by omega), if_pos hc]
  rw [if_pos (by omega), if_neg hc]
  obtain ⟨live, hholds⟩ := h.table
  have hmaps := hholds.maps (Nat.lt_succ_self (l.table.nodenum + 1))
  by_cases hmem : c ∈ keys done
  · rw [if_pos hmem]
    obtain ⟨x, hx, rfl⟩ := List.mem_map.mp hmem
    exact hmaps.stored (x.key, node x.key) (List.mem_map.mpr ⟨x, hx, rfl⟩)
  · rw [if_neg hmem]
    refine hmaps.absent c h0 fun a ha heq => hmem ?_
    obtain ⟨x, hx, rfl⟩ := List.mem_map.mp ha
    exact List.mem_map.mpr ⟨x, hx, heq⟩

/-- That node has the function of the child. -/
theorem Builds.child (hd : Describes num xs root val)
    (h : Builds T s₀ L nodenum val node done l) {c : ℤ} (hc : c = 0 ∨ c = 1 ∨ c ∈ keys done) :
    ∃ n : ℕ, Bddio.childNode l.table c = some (n : ℤ) ∧ Denotes T.D l.bdd n (val c) ∧
      l.bdd.Referenced n := by
  have h01 : ∀ k : ℕ, k < 2 → Bddio.childNode l.table k = some (k : ℤ) ∧ l.bdd.Referenced k :=
    fun k hk => ⟨by rw [h.childNode (Int.natCast_nonneg k), if_pos (by omega)], Or.inl hk⟩
  rcases hc with rfl | rfl | hmem
  · exact ⟨0, (h01 0 (by decide)).1, (denotes_zero _).congr fun a => (hd.zero a).symm,
      (h01 0 (by decide)).2⟩
  · exact ⟨1, (h01 1 (by decide)).1, (denotes_one _).congr fun a => (hd.one a).symm,
      (h01 1 (by decide)).2⟩
  · obtain ⟨x, hx, rfl⟩ := List.mem_map.mp hmem
    have h2 : 2 ≤ x.key := h.key x hx
    refine ⟨node x.key, ?_, h.denotes x hx, h.referenced hx⟩
    rw [h.childNode (by omega), if_neg (by omega), if_pos hmem]

theorem resolveNode_eq {D : MtbddDomain P} {isPrime : ℕ → Bool} {lowH highH : ℤ}
    (hlow : Bddio.childNode l.table x.low = some lowH)
    (hhigh : Bddio.childNode l.table x.high = some highH) :
    resolveNode D isPrime malloc x l =
      if highH < 0 ∨ lowH < 0 then some none
      else (buildNode D isPrime malloc x lowH highH l).map some := by
  unfold resolveNode childNodes
  rw [hlow, hhigh]
  rfl

/-- An entry more in the hash. -/
theorem Builds.insert (h : Builds T s₀ L nodenum val node done l) (hx : 0 ≤ x.key)
    (hnodup : (keys (done ++ [x])).Nodup) {total : ℕ} (hlt : done.length < total)
    (hgrows : Grows malloc nodenum total) (res : ℕ) :
    ∃ table, loadhashAdd malloc (l.table.nodenum + 2) l.table (x.key, (res : ℤ)) = some table ∧
      (∃ k, table.nodenum = nodenum * 2 ^ k) ∧ ∃ live, Holds table ((done ++ [x]).map fun y =>
        (y.key, (Function.update node x.key res y.key : ℤ))) live := by
  obtain ⟨live, hholds⟩ := h.table
  obtain ⟨k, hk⟩ := h.nodenum
  have hentries : ((done ++ [x]).map fun y => (y.key, (Function.update node x.key res y.key : ℤ))) =
      (done.map fun y => (y.key, (node y.key : ℤ))) ++ [(x.key, (res : ℤ))] := by
    rw [List.map_append, List.map_singleton, Function.update_self]
    refine congrArg (· ++ _) (List.map_congr_left fun y hy => ?_)
    rw [keys, List.map_append, List.nodup_append] at hnodup
    have hne : y.key ≠ x.key := hnodup.2.2 _ (List.mem_map_of_mem hy) _ List.mem_cons_self
    rw [Function.update_of_ne hne]
  rw [hentries]
  obtain ⟨table, live', hrun, hholds', hnum⟩ := hholds.add (a := (x.key, (res : ℤ)))
    (by rw [← hentries, List.map_map]; exact hnodup) hx
    (fun hfull => by
      rw [List.length_map] at hfull
      have hgrow := hgrows k (by omega)
      rwa [pow_succ', Nat.mul_left_comm, ← hk] at hgrow)
    (Nat.lt_succ_self (l.table.nodenum + 1))
  refine ⟨table, hrun, ?_, live', hholds'⟩
  split at hnum
  · exact ⟨k + 1, by rw [hnum, hk, pow_succ', Nat.mul_left_comm]⟩
  · exact ⟨k, hnum.trans hk⟩

/-- A node is built when its children have been, and only then. -/
theorem Builds.resolve (hT : T.Operates) (hd : Describes num xs root val)
    (hnum : s₀.env.bddvarnum = num) (hgrows : Grows malloc nodenum xs.length)
    (hperm : (done ++ x :: rest).Perm xs) (h : Builds T s₀ L nodenum val node done l) :
    (Ready done x ∧ ∃ l', resolveNode T.D T.isPrime malloc x l = some (some l') ∧
      ∃ node', Builds T s₀ L nodenum val node' (done ++ [x]) l') ∨
    (¬ Ready done x ∧ resolveNode T.D T.isPrime malloc x l = some none) := by
  have hx : x ∈ xs := hperm.mem_iff.mp (by simp)
  have hnodup : (keys (done ++ [x])).Nodup := by
    have hall := (hperm.map NodeLine.key).nodup_iff.mpr hd.nodup
    rw [List.append_cons, List.map_append] at hall
    exact (List.nodup_append.mp hall).1
  have hnot : x.key ∉ keys done := fun hmem => by
    rw [keys, List.map_append, List.nodup_append] at hnodup
    exact hnodup.2.2 _ hmem _ List.mem_cons_self rfl
  have hpos : ∀ c ∈ [x.low, x.high], 0 ≤ c := fun c hc => by
    rcases hd.child x hx c hc with rfl | rfl | hmem
    · omega
    · omega
    · obtain ⟨y, hy, rfl⟩ := List.mem_map.mp hmem
      have := hd.key y hy
      omega
  have hlow : x.low ∈ [x.low, x.high] := List.mem_cons_self
  have hhigh : x.high ∈ [x.low, x.high] := List.mem_cons_of_mem _ List.mem_cons_self
  by_cases hready : Ready done x
  · refine Or.inl ⟨hready, ?_⟩
    have hchild : ∀ c ∈ [x.low, x.high], c = 0 ∨ c = 1 ∨ c ∈ keys done := fun c hc => by
      rcases hd.child x hx c hc with h0 | h1 | hmem
      · exact Or.inl h0
      · exact Or.inr (Or.inl h1)
      · obtain ⟨y, hy, rfl⟩ := List.mem_map.mp hmem
        exact Or.inr (Or.inr (hready _ hc (hd.key y hy)))
    obtain ⟨nl, hnl, hdl, hrl⟩ := h.child hd (hchild _ hlow)
    obtain ⟨nh, hnh, hdh, hrh⟩ := h.child hd (hchild _ hhigh)
    have hvar : x.var.toNat < l.bdd.env.bddvarnum := by
      have := hd.var x hx
      rw [h.keeps.varnum, hnum]
      omega
    obtain ⟨res, hres, hgood, hkeep, hden⟩ := ite_built hT h.good hvar hdh hrh hdl hrl
    obtain ⟨hkeep', hreferenced, -⟩ := addref_keeps hgood hden.isNode
    obtain ⟨table, htable, hnodenum, live, hholds⟩ := h.insert
      (by have := hd.key x hx; omega) hnodup (by
        have := hperm.length_eq
        rw [List.length_append, List.length_cons] at this
        omega) hgrows res.1
    have hall := hkeep.trans hkeep'
    have hsame : ∀ y ∈ done, Function.update node x.key res.1 y.key = node y.key := fun y hy =>
      Function.update_of_ne (fun heq => hnot (List.mem_map.mpr ⟨y, hy, heq⟩)) _ _
    refine ⟨⟨bddAddref res.2 res.1, table, res.1⟩, ?_, Function.update node x.key res.1, ?_⟩
    · rw [resolveNode_eq hnl hnh, if_neg (by omega)]
      unfold buildNode
      simp only [(h.good.ithvar hvar).1, Int.toNat_natCast, hres, Option.bind_some, htable,
        Option.map_some]
    · refine {
        good := hgood.addref res.1
        keeps := h.keeps.trans hall
        nodenum := hnodenum
        table := ⟨live, hholds⟩
        covers := ?_
        denotes := fun y hy => ?_
        key := fun y hy => ?_
        root := fun y hy => ?_
        ready := fun before y after heq => ?_ }
      · have hcov := (h.covers.of_le fun n hn => Or.inr (hkeep.refcou n hn)).addref hgood hden.isNode
        refine hcov.perm ?_
        rw [List.map_append, List.map_singleton, Function.update_self, List.map_congr_left hsame,
          List.append_assoc]
        exact List.perm_middle.symm
      · rcases List.mem_append.mp hy with hy | hy
        · rw [hsame y hy]
          exact ((h.denotes y hy).keeps hkeep (h.referenced hy)).keeps hkeep'
            (hkeep.referenced _ (h.referenced hy))
        · obtain rfl := List.mem_singleton.mp hy
          rw [Function.update_self]
          exact (hden.addref res.1).congr fun a => (hd.val y hx a).symm
      · rcases List.mem_append.mp hy with hy | hy
        · exact h.key y hy
        · exact List.mem_singleton.mp hy ▸ hd.key x hx
      · rw [List.getLast?_concat, Option.some.injEq] at hy
        rw [← hy, Function.update_self]
      · rcases List.append_eq_append_iff.mp heq with ⟨b, rfl, hb⟩ | ⟨a, rfl, ha⟩
        · cases b with
          | nil =>
            obtain ⟨rfl, -⟩ := List.cons.inj hb
            rwa [List.append_nil]
          | cons z b => exact absurd hb (by simp)
        · cases a with
          | nil =>
            obtain ⟨rfl, -⟩ := List.cons.inj ha
            rwa [List.append_nil] at hready
          | cons z a =>
            obtain ⟨rfl, -⟩ := List.cons.inj ha
            exact h.ready before y a rfl
  · refine Or.inr ⟨hready, ?_⟩
    obtain ⟨c, hc, h2, hmem⟩ : ∃ c ∈ [x.low, x.high], 2 ≤ c ∧ c ∉ keys done := by
      by_contra hno
      exact hready fun c hc h2 => by_contra fun hmem => hno ⟨c, hc, h2, hmem⟩
    rw [resolveNode_eq (h.childNode (hpos _ hlow)) (h.childNode (hpos _ hhigh)), if_pos]
    simp only [List.mem_cons, List.not_mem_nil, or_false] at hc
    rcases hc with rfl | rfl
    · right
      rw [if_neg (by omega), if_neg hmem]
      decide
    · left
      rw [if_neg (by omega), if_neg hmem]
      decide

/-! ## The lines of the file -/

theorem NodeLine.text_head (x : NodeLine) {c : Char} (hc : c ≠ '-') (hd : c.isDigit = false) :
    x.text.head? ≠ some c := by
  intro h
  obtain ⟨d, word, hword⟩ := List.exists_cons_of_ne_nil (printInt_ne_nil x.key)
  have hdc : d = c := by simpa [NodeLine.text, hword] using h
  exact not_mem_printInt x.key hc hd (by rw [hword, hdc]; exact List.mem_cons_self)

/-- A line that was printed is read back. -/
theorem scanNodeLine_text (x : NodeLine) : scanNodeLine x.text = some x := by
  unfold scanNodeLine NodeLine.text
  simp only [scanInt_printInt x.key (stops_cons (c := '[') (by decide)), Option.bind_eq_bind,
    Option.bind_some, scanChar_self, scanInt_printInt x.var (stops_cons (c := ']') (by decide)),
    scanInt_space (c := ' ') (by decide), scanInt_printInt x.low (stops_cons (c := ' ') (by decide)),
    scanInt_printInt x.high (stops_cons (c := '\n') (by decide))]
  rfl

variable {D : MtbddDomain P} {isPrime : ℕ → Bool}

theorem loadLines_text (hvar : ∀ x ∈ xs, 0 ≤ x.var) (t : List NodeLine × Loading P) :
    loadLines D isPrime malloc (xs.map NodeLine.text) t =
      (xs.foldlM (feed (resolveNode D isPrime malloc)) t).map fun t => (true, t) := by
  induction xs generalizing t with
  | nil => rfl
  | cons x xs ih =>
    rw [List.map_cons, loadLines, if_neg (x.text_head (by decide) (by decide)),
      scanNodeLine_text, List.foldlM_cons]
    have hx : ¬ x.var < 0 := by
      have := hvar x List.mem_cons_self
      omega
    simp only [hx, if_false]
    cases hc : childNodes t.2.table x with
    | none =>
      have hfeed : feed (resolveNode D isPrime malloc) t x = none := by
        unfold feed resolveNode
        rw [hc]
        rfl
      rw [hfeed]
      rfl
    | some c =>
      rw [Option.bind_some]
      cases feed (resolveNode D isPrime malloc) t x with
      | none => rfl
      | some t => exact ih (fun y hy => hvar y (List.mem_cons_of_mem _ hy)) t

/-- From lines that form a diagram, in any order, the loader builds the diagram. -/
theorem bddLoaddata_describes (hT : T.Operates) (hs : Good T s₀) (hL : s₀.Covers L)
    (hd : Describes s₀.env.bddvarnum xs root val) (hpos : 0 < nodenum)
    (hgrows : Grows malloc nodenum xs.length) :
    ∃ l node done, bddLoaddata T.D T.isPrime malloc (xs.map NodeLine.text)
        ⟨s₀, freshLoader nodenum, 0⟩ = some ((l.root : ℤ), l) ∧
      Builds T s₀ L nodenum val node done l ∧ l.root = node root ∧ done.Perm xs := by
  have hstart : Builds T s₀ L nodenum val (fun _ => 0) [] ⟨s₀, freshLoader nodenum, 0⟩ := {
    good := hs
    keeps := .refl s₀
    nodenum := ⟨0, by simp [freshLoader]⟩
    table := ⟨_, freshLoader_holds hpos⟩
    covers := hL
    denotes := fun x hx => absurd hx List.not_mem_nil
    key := fun x hx => absurd hx List.not_mem_nil
    root := fun x hx => by simp at hx
    ready := fun before x after h => by simp at h }
  have hattempt : Attempts (resolveNode T.D T.isPrime malloc) xs
      (fun done l => ∃ node, Builds T s₀ L nodenum val node done l) Ready :=
    fun done x rest l hp hn => by
      obtain ⟨node, hn⟩ := hn
      rcases hn.resolve hT hd rfl hgrows hp with ⟨hready, l', hl', hn'⟩ | h
      · exact Or.inl ⟨hready, l', hl', hn'⟩
      · exact Or.inr h
  obtain ⟨l, done, hrun, hperm, node, hl⟩ := run_spec hattempt
    (fun done l hp hl => hd.progress hp hl) (List.Perm.refl xs) ⟨_, hstart⟩
  obtain ⟨x, hx, hkey⟩ := hd.root_last hperm hl.ready
  refine ⟨l, node, done, ?_, hl, by rw [hl.root x hx, hkey], hperm⟩
  unfold bddLoaddata
  rw [loadLines_text fun x hx => (hd.var x hx).1]
  unfold run at hrun
  obtain ⟨t, hfold, hsettle⟩ := Option.bind_eq_some_iff.mp hrun
  rw [hfold]
  simp only [Option.map_some, Option.bind_some, if_true, hsettle]
  rfl

end MoToBuddy.Bddio
