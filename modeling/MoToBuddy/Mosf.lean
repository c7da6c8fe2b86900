import Mathlib.Algebra.BigOperators.Group.List.Basic
import Mathlib.Algebra.Order.Group.Nat
import Mathlib.Algebra.Ring.Parity
import Mathlib.Algebra.Order.BigOperators.Group.List
import Mathlib.Data.List.Flatten
import Mathlib.Data.Nat.Cast.Basic
import Mathlib.Data.Nat.Prime.Basic
import Mathlib.Tactic.Common

/-!
# The MOSF cursor (`mosf_parser.h`)

A circuit is an array of entries, operations and groups of entries, each with a repeat count.
`MOSFFile` walks it with a stack of frames and hands out events in two ways: `next` announces
groups, `next_unrolled` folds the counts into the operations.

* Parsing is done before: an entry holds the `NodeOp` that `parse_node_op` makes of it.
* Counts are `std::size_t`, their products wrap.
* A loop of the source that may go through several frames takes a round counter.
-/

namespace MoToBuddy.Mosf

/-- An entry of an `ops` array. -/
inductive Entry (Op : Type*)
  | op (op : Op) (opRepeat : UInt64)
  | group (name : String) (repTotal : UInt64) (ops : List (Entry Op))

/-- `EventKind`. -/
inductive EventKind
  | op | groupBegin | groupEnd
  deriving DecidableEq

/-- `Event`. -/
structure Event (Op : Type*) where
  kind : EventKind
  op : Option Op
  groupName : String
  repTotal : UInt64
  opRepeat : UInt64

/-- `Frame`. -/
structure Frame (Op : Type*) where
  ops : List (Entry Op)
  groupName : String
  repTotal : UInt64
  cursor : ℕ
  repCur : UInt64
  began : Bool
  cachedOp : Option Op

/-- The cursor of a `MOSFFile`; both stacks have their top first. -/
structure MOSFFile (Op : Type*) where
  ops : List (Entry Op)
  stack : List (Frame Op)
  unrollMultipliers : List UInt64

variable {Op : Type*}

/-- `body_done`. -/
def Frame.bodyDone (f : Frame Op) : Bool := f.ops.length ≤ f.cursor

/-- A frame as `next` and `next_unrolled` push it. -/
def Frame.child (name : String) (repTotal : UInt64) (ops : List (Entry Op)) : Frame Op :=
  ⟨ops, name, repTotal, 0, 0, false, none⟩

/-- `_init`. -/
def init (ops : List (Entry Op)) : MOSFFile Op := ⟨ops, [.child "" 1 ops], [1]⟩

/-- The loop of `has_next`: frames that are done are popped. -/
def drain : List (Frame Op) → List UInt64 → List (Frame Op) × List UInt64
  | [], mults => ([], mults)
  | f :: rest, mults => if f.bodyDone then drain rest mults.tail else (f :: rest, mults)

/-- `has_next`. -/
def hasNext (m : MOSFFile Op) : Bool × MOSFFile Op :=
  let (stack, mults) := drain m.stack m.unrollMultipliers
  (!stack.isEmpty, { m with stack := stack, unrollMultipliers := mults })

/-- `next`. A group that is pushed is announced in the following round. -/
def next : ℕ → MOSFFile Op → Option (Event Op × MOSFFile Op)
  | 0, _ => none
  | fuel + 1, m =>
    match m.stack with
    | [] => none
    | f :: rest =>
      if rest ≠ [] ∧ f.began = false then
        some (⟨.groupBegin, none, f.groupName, f.repTotal, 0⟩,
          { m with stack := { f with began := true } :: rest })
      else if f.bodyDone then
        some (⟨.groupEnd, none, f.groupName, f.repTotal, 0⟩, { m with stack := rest })
      else match f.ops[f.cursor]? with
        | none => none
        | some (.group name repTotal ops) =>
          next fuel { m with
            stack := .child name repTotal ops :: { f with cursor := f.cursor + 1 } :: rest }
        | some (.op op opRepeat) =>
          some (⟨.op, some op, "", 0, opRepeat⟩,
            { m with stack := { f with cursor := f.cursor + 1 } :: rest })

/-- `next_unrolled`; past the end it throws. -/
def nextUnrolled : ℕ → MOSFFile Op → Option (Event Op × MOSFFile Op)
  | 0, _ => none
  | fuel + 1, m =>
    match m.stack, m.unrollMultipliers with
    | f :: rest, mult :: mults =>
      if f.bodyDone then
        nextUnrolled fuel { m with stack := rest, unrollMultipliers := mults }
      else match f.ops[f.cursor]? with
        | none => none
        | some (.group name repTotal ops) =>
          nextUnrolled fuel { m with
            stack := .child name repTotal ops :: { f with cursor := f.cursor + 1 } :: rest
            unrollMultipliers := mult * repTotal :: mult :: mults }
        | some (.op op opRepeat) =>
          let total := mult * opRepeat
          let op := f.cachedOp.getD op
          let f := { f with cachedOp := some op, repCur := f.repCur + 1 }
          let f := if f.repCur ≥ total then
              { f with repCur := 0, cachedOp := none, cursor := f.cursor + 1 }
            else f
          some (⟨.op, some op, "", 0, total⟩, { m with stack := f :: rest })
    | _, _ => none

/-! ## Executing a circuit -/

/-- The operations that the caller of `next_unrolled` performs for one event. -/
def Event.perform (ev : Event Op) : List Op :=
  match ev.op with
  | none => []
  | some op => List.replicate ev.opRepeat.toNat op

/-- The loop `while (has_next()) next_unrolled()`, every operation performed `op_repeat`
times. -/
inductive Unrolled : MOSFFile Op → List Op → Prop
  | done {m m' : MOSFFile Op} (stop : hasNext m = (false, m')) : Unrolled m []
  | step {m m₁ m₂ : MOSFFile Op} {ev : Event Op} {l : List Op} (fuel : ℕ)
      (more : hasNext m = (true, m₁)) (event : nextUnrolled fuel m₁ = some (ev, m₂))
      (rest : Unrolled m₂ l) : Unrolled m (ev.perform ++ l)

/-- The events of `next`, up to the end of the root frame. -/
inductive Events : MOSFFile Op → List (Event Op) → Prop
  | done {m : MOSFFile Op} (stop : m.stack = []) : Events m []
  | step {m m' : MOSFFile Op} {ev : Event Op} {evs : List (Event Op)} (fuel : ℕ)
      (event : next fuel m = some (ev, m')) (rest : Events m' evs) : Events m (ev :: evs)

/-- An executor of events: for each open group its count and the operations of its body so
far, the innermost group first. -/
def executeEvent (open_ : List (UInt64 × List Op)) (ev : Event Op) : List (UInt64 × List Op) :=
  match ev.kind, open_ with
  | .groupBegin, _ => (ev.repTotal, []) :: open_
  | .groupEnd, (n, body) :: (n', outer) :: rest =>
    (n', outer ++ (List.replicate n.toNat body).flatten) :: rest
  | .op, (n, body) :: rest => (n, body ++ ev.perform) :: rest
  | _, _ => open_

/-- The operations performed for a list of events, the body of each group as many times as
its event announces. -/
def execute (evs : List (Event Op)) : List Op :=
  match evs.foldl executeEvent [(1, []), (1, [])] with
  | (_, body) :: _ => body
  | [] => []

/-! ## The event traversal -/

mutual

/-- What `next` hands out for an entry. -/
def Entry.events : Entry Op → List (Event Op)
  | .op op opRepeat => [⟨.op, some op, "", 0, opRepeat⟩]
  | .group name n ops =>
    ⟨.groupBegin, none, name, n, 0⟩ :: (eventsOf ops ++ [⟨.groupEnd, none, name, n, 0⟩])

/-- What `next` hands out for an array of entries. -/
def eventsOf : List (Entry Op) → List (Event Op)
  | [] => []
  | e :: es => e.events ++ eventsOf es

end

mutual

/-- The operations of an entry, every body repeated. -/
def Entry.executed : Entry Op → List Op
  | .op op opRepeat => List.replicate opRepeat.toNat op
  | .group _ n ops => (List.replicate n.toNat (executedOf ops)).flatten

/-- The operations of an array of entries, every body repeated. -/
def executedOf : List (Entry Op) → List Op
  | [] => []
  | e :: es => e.executed ++ executedOf es

end

/-- The entries a frame has not reached yet. -/
def Frame.todo (f : Frame Op) : List (Entry Op) := f.ops.drop f.cursor

/-- What `next` still hands out. -/
def pendingEvents : List (Frame Op) → List (Event Op)
  | [] => []
  | f :: rest =>
    (if rest ≠ [] ∧ f.began = false then [⟨.groupBegin, none, f.groupName, f.repTotal, 0⟩]
      else []) ++
    eventsOf f.todo ++ ⟨.groupEnd, none, f.groupName, f.repTotal, 0⟩ :: pendingEvents rest

theorem Frame.todo_done {f : Frame Op} (h : f.bodyDone = true) : f.todo = [] :=
  List.drop_eq_nil_of_le (of_decide_eq_true h)

/-- A frame that is not done has an entry at its cursor. -/
theorem Frame.todo_cons {f : Frame Op} (h : f.bodyDone = false) :
    ∃ e, f.ops[f.cursor]? = some e ∧ f.todo = e :: f.ops.drop (f.cursor + 1) := by
  have hlt : f.cursor < f.ops.length := not_le.mp (of_decide_eq_false h)
  exact ⟨f.ops[f.cursor], List.getElem?_eq_getElem hlt, List.drop_eq_getElem_cons hlt⟩

/-- `next` takes the first pending event. -/
theorem next_spec {m : MOSFFile Op} (hm : m.stack ≠ []) :
    ∃ ev m', next 2 m = some (ev, m') ∧ pendingEvents m.stack = ev :: pendingEvents m'.stack := by
  obtain ⟨ops, stack, mults⟩ := m
  cases stack with
  | nil => exact absurd rfl hm
  | cons f rest =>
    unfold next
    dsimp only
    by_cases hbegin : rest ≠ [] ∧ f.began = false
    · rw [if_pos hbegin]
      refine ⟨_, _, rfl, ?_⟩
      show pendingEvents (f :: rest) = _
      simp only [pendingEvents, if_pos hbegin]
      simp [Frame.todo]
    rw [if_neg hbegin]
    cases hdone : f.bodyDone with
    | true =>
      refine ⟨_, _, rfl, ?_⟩
      show pendingEvents (f :: rest) = _
      simp only [pendingEvents, if_neg hbegin, f.todo_done hdone]
      rfl
    | false =>
      obtain ⟨e, he, htodo⟩ := f.todo_cons hdone
      have hnew : ∀ f' : Frame Op, f'.began = f.began → ¬ (rest ≠ [] ∧ f'.began = false) := by
        intro f' hf'
        rw [hf']
        exact hbegin
      cases e with
      | op op opRepeat =>
        simp only [he, Bool.false_eq_true, if_false]
        refine ⟨_, _, rfl, ?_⟩
        simp only [pendingEvents, if_neg hbegin, htodo]
        rfl
      | group name n body =>
        simp only [he, Bool.false_eq_true, if_false]
        unfold next
        dsimp only
        rw [if_pos ⟨List.cons_ne_nil _ _, rfl⟩]
        refine ⟨_, _, rfl, ?_⟩
        simp only [pendingEvents, if_neg hbegin, htodo, eventsOf, Entry.events]
        simp [Frame.todo, Frame.child]

theorem events_pending (m : MOSFFile Op) : Events m (pendingEvents m.stack) := by
  induction hn : (pendingEvents m.stack).length generalizing m with
  | zero =>
    cases hstack : m.stack with
    | nil => exact .done hstack
    | cons f rest =>
      rw [hstack] at hn
      simp [pendingEvents] at hn
  | succ n ih =>
    have hm : m.stack ≠ [] := by
      intro h0
      rw [h0] at hn
      exact absurd hn (Nat.succ_ne_zero n).symm
    obtain ⟨ev, m', hev, hp⟩ := next_spec hm
    rw [hp] at hn ⊢
    exact .step 2 hev (ih m' (Nat.succ.inj hn))

/-- More rounds do not change the event. -/
theorem next_mono {a : ℕ} {m : MOSFFile Op} {r : Event Op × MOSFFile Op}
    (h : next a m = some r) : next (a + 1) m = some r := by
  induction a generalizing m with
  | zero => exact absurd h (Option.some_ne_none r).symm
  | succ a ih =>
    unfold next at h ⊢
    cases hs : m.stack with
    | nil => simp [hs] at h
    | cons f rest =>
      simp only [hs] at h ⊢
      by_cases hbegin : rest ≠ [] ∧ f.began = false
      · rwa [if_pos hbegin] at h ⊢
      rw [if_neg hbegin] at h ⊢
      by_cases hdone : f.bodyDone = true
      · rwa [if_pos hdone] at h ⊢
      rw [if_neg hdone] at h ⊢
      cases he : f.ops[f.cursor]? with
      | none => simp [he] at h
      | some e =>
        cases e with
        | op op opRepeat =>
          simp only [he] at h ⊢
          exact h
        | group name n ops =>
          simp only [he] at h ⊢
          exact ih h

theorem next_unique {a b : ℕ} {m : MOSFFile Op} {r r' : Event Op × MOSFFile Op}
    (h : next a m = some r) (h' : next b m = some r') : r = r' := by
  have hmono : ∀ (a k : ℕ) (r : Event Op × MOSFFile Op), next a m = some r →
      next (a + k) m = some r := by
    intro a k r h
    induction k with
    | zero => exact h
    | succ k ih => exact next_mono ih
  have h₁ := hmono a b r h
  rw [Nat.add_comm, hmono b a r' h'] at h₁
  exact (Option.some.inj h₁).symm

/-- The events of a circuit are determined. -/
theorem Events.eq_pending {m : MOSFFile Op} {evs : List (Event Op)} (h : Events m evs) :
    evs = pendingEvents m.stack := by
  induction h with
  | done stop => rw [stop, pendingEvents]
  | @step m m' ev evs fuel event rest ih =>
    have hm : m.stack ≠ [] := by
      intro h0
      cases fuel with
      | zero => exact absurd event (Option.some_ne_none _).symm
      | succ fuel =>
        unfold next at event
        rw [h0] at event
        exact absurd event (Option.some_ne_none _).symm
    obtain ⟨ev', m'', hev, hp⟩ := next_spec hm
    obtain ⟨rfl, rfl⟩ := Prod.mk.inj (next_unique event hev)
    rw [hp, ih]

mutual

/-- Executing the events of an entry performs its operations. -/
theorem Entry.execute_events (e : Entry Op) (n : UInt64) (acc : List Op)
    (rest : List (UInt64 × List Op)) :
    e.events.foldl executeEvent ((n, acc) :: rest) = (n, acc ++ e.executed) :: rest := by
  cases e with
  | op op opRepeat => rfl
  | group name k ops =>
    rw [Entry.events, List.foldl_cons, List.foldl_append]
    show List.foldl executeEvent (List.foldl executeEvent ((k, []) :: (n, acc) :: rest)
      (eventsOf ops)) _ = _
    rw [execute_eventsOf ops]
    rfl

theorem execute_eventsOf (es : List (Entry Op)) (n : UInt64) (acc : List Op)
    (rest : List (UInt64 × List Op)) :
    (eventsOf es).foldl executeEvent ((n, acc) :: rest) = (n, acc ++ executedOf es) :: rest := by
  cases es with
  | nil =>
    rw [executedOf, List.append_nil]
    rfl
  | cons e es =>
    rw [eventsOf, List.foldl_append, Entry.execute_events e, execute_eventsOf es, executedOf,
      List.append_assoc]

end

/-- The event traversal performs every body as often as announced. -/
theorem Events.execute_eq {ops : List (Entry Op)} {evs : List (Event Op)}
    (h : Events (init ops) evs) : execute evs = executedOf ops := by
  rw [h.eq_pending]
  unfold execute
  have hp : pendingEvents (init ops).stack =
      eventsOf ops ++ [⟨.groupEnd, none, "", 1, 0⟩] := rfl
  rw [hp, List.foldl_append, execute_eventsOf]
  simp [executeEvent]

/-! ## The unrolled traversal -/

mutual

/-- What `next_unrolled` hands out for an entry, below groups whose counts have the product
`mult`: the operation with the total count, as many times as that count. -/
def Entry.dispensed : UInt64 → Entry Op → List (Op × UInt64)
  | mult, .op op opRepeat =>
    List.replicate (max 1 (mult * opRepeat).toNat) (op, mult * opRepeat)
  | mult, .group _ n ops => dispensedOf (mult * n) ops

/-- What `next_unrolled` hands out for an array of entries. -/
def dispensedOf : UInt64 → List (Entry Op) → List (Op × UInt64)
  | _, [] => []
  | mult, e :: es => e.dispensed mult ++ dispensedOf mult es

end

mutual

/-- The number of entries of an entry. -/
def Entry.size : Entry Op → ℕ
  | .op _ _ => 1
  | .group _ _ ops => opsSize ops + 1

/-- The number of entries of an array. -/
def opsSize : List (Entry Op) → ℕ
  | [] => 0
  | e :: es => e.size + opsSize es

end

mutual

/-- The last entry, at every depth, is an operation. -/
def Entry.endsInOp : Entry Op → Bool
  | .op _ _ => true
  | .group _ _ ops => endsInOp ops

/-- The array has a last entry which, at every depth, is an operation. -/
def endsInOp : List (Entry Op) → Bool
  | [] => false
  | e :: es => if es.isEmpty then e.endsInOp else endsInOp es

end

/-- The entries not reached yet, innermost frame first, with the counts above them. -/
def work : List (Frame Op) → List UInt64 → List (UInt64 × Entry Op)
  | f :: fs, mult :: mults => f.todo.map (mult, ·) ++ work fs mults
  | _, _ => []

/-- How often the entry at the cursor was handed out. -/
def topRep : List (Frame Op) → ℕ
  | [] => 0
  | f :: _ => f.repCur.toNat

/-- What `next_unrolled` still hands out. -/
def pendingOps (m : MOSFFile Op) : List (Op × UInt64) :=
  ((work m.stack m.unrollMultipliers).flatMap fun p => p.2.dispensed p.1).drop (topRep m.stack)

/-- A frame whose entry was not handed out yet. -/
def Frame.Idle (f : Frame Op) : Prop := f.repCur = 0 ∧ f.cachedOp = none

/-- A frame that is idle or inside the repeat window of an operation. -/
def Frame.Ready (mult : UInt64) (f : Frame Op) : Prop :=
  f.Idle ∨ ∃ op opRepeat, f.ops[f.cursor]? = some (.op op opRepeat) ∧ f.cachedOp = some op ∧
    f.repCur < mult * opRepeat

/-- Both stacks are in step, and only the top frame is inside a repeat window. -/
def Tidy : List (Frame Op) → List UInt64 → Prop
  | [], [] => True
  | f :: fs, mult :: mults => f.Ready mult ∧ fs.length = mults.length ∧ ∀ g ∈ fs, g.Idle
  | _, _ => False

/-- No entry is left, or an operation is the last one. -/
def Ends (l : List (Entry Op)) : Prop := l = [] ∨ endsInOp l = true

theorem Frame.Ready.idle {f : Frame Op} {mult : UInt64} (h : f.Ready mult)
    (hdone : f.bodyDone = true) : f.Idle := by
  rcases h with h | ⟨op, opRepeat, he, -⟩
  · exact h
  · have hle : f.ops.length ≤ f.cursor := of_decide_eq_true hdone
    rw [List.getElem?_eq_none hle] at he
    exact absurd he (Option.some_ne_none _).symm

/-- Popping a frame that is done keeps what is left to do. -/
theorem Tidy.pop {f : Frame Op} {fs : List (Frame Op)} {mult : UInt64} {mults : List UInt64}
    (h : Tidy (f :: fs) (mult :: mults)) (hdone : f.bodyDone = true) :
    Tidy fs mults ∧ work (f :: fs) (mult :: mults) = work fs mults ∧
      topRep (f :: fs) = topRep fs := by
  obtain ⟨hready, hlen, hidle⟩ := h
  have hf := hready.idle hdone
  refine ⟨?_, ?_, ?_⟩
  · cases fs with
    | nil =>
      cases mults with
      | nil => trivial
      | cons mult' mults => exact absurd hlen (Nat.succ_ne_zero _).symm
    | cons g fs =>
      cases mults with
      | nil => exact absurd hlen (Nat.succ_ne_zero _)
      | cons mult' mults =>
        exact ⟨Or.inl (hidle g (by simp)), Nat.succ.inj hlen, fun g' hg' => hidle g' (by simp [hg'])⟩
  · rw [work, f.todo_done hdone]
    rfl
  · rw [topRep, hf.1]
    cases fs with
    | nil => rfl
    | cons g fs =>
      rw [topRep, (hidle g (by simp)).1]

/-- `has_next` keeps what is left to do, and tells whether something is. -/
theorem drain_spec {stack : List (Frame Op)} {mults : List UInt64} (h : Tidy stack mults) :
    Tidy (drain stack mults).1 (drain stack mults).2 ∧
      work (drain stack mults).1 (drain stack mults).2 = work stack mults ∧
      topRep (drain stack mults).1 = topRep stack ∧
      ((drain stack mults).1 = [] ↔ work stack mults = []) := by
  induction stack generalizing mults with
  | nil =>
    unfold drain
    exact ⟨h, rfl, rfl, fun _ => by simp [work], fun _ => rfl⟩
  | cons f fs ih =>
    cases mults with
    | nil => exact False.elim h
    | cons mult mults =>
      unfold drain
      cases hdone : f.bodyDone with
      | true =>
        obtain ⟨ht, hw, hr⟩ := h.pop hdone
        rw [if_pos rfl, hw, hr]
        exact ih ht
      | false =>
        obtain ⟨e, -, htodo⟩ := f.todo_cons hdone
        rw [if_neg Bool.false_ne_true]
        refine ⟨h, rfl, rfl, fun h0 => absurd h0 (List.cons_ne_nil f fs), fun h0 => ?_⟩
        rw [work, htodo] at h0
        exact absurd h0 (by simp)

/-! ### The last entry -/

theorem endsInOp_append {l l' : List (Entry Op)} (h : l' ≠ []) :
    endsInOp (l ++ l') = endsInOp l' := by
  induction l with
  | nil => rfl
  | cons e es ih =>
    rw [List.cons_append, endsInOp, if_neg (by simp [h]), ih]

/-- Entering a group. -/
theorem endsInOp_group {name : String} {n : UInt64} {ops rest : List (Entry Op)} :
    endsInOp (.group name n ops :: rest) = endsInOp (ops ++ rest) := by
  rw [endsInOp]
  cases rest with
  | nil => simp [Entry.endsInOp]
  | cons e es =>
    rw [endsInOp_append (List.cons_ne_nil e es)]
    rfl

theorem ends_op {op : Op} {n : UInt64} {rest : List (Entry Op)} :
    Ends (.op op n :: rest) ↔ Ends rest := by
  unfold Ends
  cases rest with
  | nil => simp [endsInOp, Entry.endsInOp]
  | cons e es =>
    have h : endsInOp (.op op n :: e :: es) = endsInOp (e :: es) := rfl
    simp [h]

theorem opsSize_append (l l' : List (Entry Op)) : opsSize (l ++ l') = opsSize l + opsSize l' := by
  induction l with
  | nil => simp [opsSize]
  | cons e es ih => rw [List.cons_append, opsSize, ih, opsSize, Nat.add_assoc]

/-! ### One event -/

/-- The operations of the work list, without regard to the repeat window. -/
def workOps (l : List (UInt64 × Entry Op)) : List (Op × UInt64) :=
  l.flatMap fun p => p.2.dispensed p.1

theorem workOps_map (mult : UInt64) (es : List (Entry Op)) :
    workOps (es.map (mult, ·)) = dispensedOf mult es := by
  induction es with
  | nil => rfl
  | cons e es ih =>
    rw [List.map_cons, dispensedOf, ← ih]
    rfl

theorem workOps_append (l l' : List (UInt64 × Entry Op)) :
    workOps (l ++ l') = workOps l ++ workOps l' := List.flatMap_append

/-- Entering a group hands out what the group would. -/
theorem workOps_group (mult : UInt64) (name : String) (n : UInt64) (ops : List (Entry Op))
    (rest : List (UInt64 × Entry Op)) :
    workOps ((mult, .group name n ops) :: rest) =
      workOps (ops.map (mult * n, ·) ++ rest) := by
  rw [workOps_append, workOps_map]
  rfl

/-- One copy is taken off the repeat window. -/
theorem drop_window {α : Type*} {n k : ℕ} (a : α) (l : List α) (h : k < n) :
    (List.replicate n a ++ l).drop k = a :: (List.replicate n a ++ l).drop (k + 1) := by
  have hlt : k < (List.replicate n a ++ l).length := by
    rw [List.length_append, List.length_replicate]
    omega
  rw [List.drop_eq_getElem_cons hlt, List.getElem_append_left (by simpa using h),
    List.getElem_replicate]

/-- What one event of `next_unrolled` does. -/
structure UnrolledEvent (m : MOSFFile Op) (ev : Event Op) (m' : MOSFFile Op) : Prop where
  tidy : Tidy m'.stack m'.unrollMultipliers
  pending : ∃ op total, ev = ⟨.op, some op, "", 0, total⟩ ∧ pendingOps m = (op, total) :: pendingOps m'
  ends : Ends ((work m.stack m.unrollMultipliers).map Prod.snd) ↔
    Ends ((work m'.stack m'.unrollMultipliers).map Prod.snd)

/-- The counter of a frame that hands out an operation. -/
theorem Frame.Ready.window {f : Frame Op} {mult opRepeat : UInt64} {op : Op}
    (h : f.Ready mult) (he : f.ops[f.cursor]? = some (.op op opRepeat)) :
    f.cachedOp.getD op = op ∧ f.repCur.toNat < max 1 (mult * opRepeat).toNat ∧
      (f.repCur + 1).toNat = f.repCur.toNat + 1 := by
  rcases h with ⟨hrep, hcache⟩ | ⟨op', opRepeat', he', hcache, hlt⟩
  · rw [hrep, hcache]
    exact ⟨rfl, by simp, rfl⟩
  · rw [he] at he'
    obtain ⟨rfl, rfl⟩ := Entry.op.inj (Option.some.inj he')
    have hlt' : f.repCur.toNat < (mult * opRepeat).toNat := UInt64.lt_iff_toNat_lt.mp hlt
    have hmax := (mult * opRepeat).toNat_lt
    rw [hcache]
    refine ⟨rfl, by omega, ?_⟩
    rw [UInt64.toNat_add, UInt64.toNat_one, Nat.mod_eq_of_lt (by omega)]

/-- The frame after an operation was handed out once more. -/
def Frame.dispense (f : Frame Op) (op : Op) (total : UInt64) : Frame Op :=
  let f := { f with cachedOp := some op, repCur := f.repCur + 1 }
  if f.repCur ≥ total then { f with repCur := 0, cachedOp := none, cursor := f.cursor + 1 } else f

/-- Handing out an operation once more. -/
theorem Tidy.dispense {ops : List (Entry Op)} {f : Frame Op} {fs : List (Frame Op)}
    {mult opRepeat : UInt64} {mults : List UInt64} {op : Op}
    (h : Tidy (f :: fs) (mult :: mults)) (he : f.ops[f.cursor]? = some (.op op opRepeat))
    (htodo : f.todo = .op op opRepeat :: f.ops.drop (f.cursor + 1)) :
    UnrolledEvent ⟨ops, f :: fs, mult :: mults⟩ ⟨.op, some op, "", 0, mult * opRepeat⟩
      ⟨ops, f.dispense op (mult * opRepeat) :: fs, mult :: mults⟩ := by
  obtain ⟨hready, hlen, hidle⟩ := h
  obtain ⟨-, hlt, hsucc⟩ := hready.window he
  set total := mult * opRepeat with htotal
  set rest := (f.ops.drop (f.cursor + 1)).map (mult, ·) ++ work fs mults with hrest
  have hwork : work (f :: fs) (mult :: mults) = (mult, .op op opRepeat) :: rest := by
    rw [work, htodo]
    rfl
  have hops : workOps (work (f :: fs) (mult :: mults)) =
      List.replicate (max 1 total.toNat) (op, total) ++ workOps rest := by
    rw [hwork]
    rfl
  have hpending : pendingOps ⟨ops, f :: fs, mult :: mults⟩ = (op, total) ::
      (List.replicate (max 1 total.toNat) (op, total) ++ workOps rest).drop
        (f.repCur.toNat + 1) := by
    show (workOps (work (f :: fs) (mult :: mults))).drop f.repCur.toNat = _
    rw [hops, drop_window _ _ hlt]
  by_cases hge : f.repCur + 1 ≥ total
  · -- the window is closed, the cursor goes on
    have hf : f.dispense op total =
        { f with repCur := 0, cachedOp := none, cursor := f.cursor + 1 } := if_pos hge
    have hge' : total.toNat ≤ f.repCur.toNat + 1 := by
      rw [← hsucc]
      exact UInt64.le_iff_toNat_le.mp hge
    have hwork' : work (f.dispense op total :: fs) (mult :: mults) = rest := by
      rw [hf]
      rfl
    refine ⟨?_, ⟨op, total, rfl, ?_⟩, ?_⟩
    · rw [hf]
      exact ⟨Or.inl ⟨rfl, rfl⟩, hlen, hidle⟩
    · rw [hpending, show f.repCur.toNat + 1 = max 1 total.toNat by omega,
        List.drop_left' (List.length_replicate)]
      show _ = _ :: (workOps (work (f.dispense op total :: fs) (mult :: mults))).drop
        (f.dispense op total).repCur.toNat
      rw [hwork', hf]
      rfl
    · show Ends ((work (f :: fs) (mult :: mults)).map Prod.snd) ↔
        Ends ((work (f.dispense op total :: fs) (mult :: mults)).map Prod.snd)
      rw [hwork, hwork', List.map_cons]
      exact ends_op
  · have hf : f.dispense op total = { f with cachedOp := some op, repCur := f.repCur + 1 } :=
      if_neg hge
    have hwork' : work (f.dispense op total :: fs) (mult :: mults) =
        work (f :: fs) (mult :: mults) := by
      rw [hf]
      rfl
    refine ⟨?_, ⟨op, total, rfl, ?_⟩, ?_⟩
    · rw [hf]
      exact ⟨Or.inr ⟨op, opRepeat, he, rfl, UInt64.not_le.mp hge⟩, hlen, hidle⟩
    · rw [hpending]
      show _ = _ :: (workOps (work (f.dispense op total :: fs) (mult :: mults))).drop
        (f.dispense op total).repCur.toNat
      rw [hwork', hops, hf]
      show _ = _ :: List.drop (f.repCur + 1).toNat _
      rw [hsucc]
    · show Ends ((work (f :: fs) (mult :: mults)).map Prod.snd) ↔
        Ends ((work (f.dispense op total :: fs) (mult :: mults)).map Prod.snd)
      rw [hwork']

/-- Entering a group keeps the stacks in step. -/
theorem Tidy.push {f : Frame Op} {fs : List (Frame Op)} {mult n : UInt64} {mults : List UInt64}
    {name : String} {ops : List (Entry Op)} (h : Tidy (f :: fs) (mult :: mults))
    (he : f.ops[f.cursor]? = some (.group name n ops)) :
    Tidy (.child name n ops :: { f with cursor := f.cursor + 1 } :: fs)
      (mult * n :: mult :: mults) ∧ f.Idle := by
  obtain ⟨hready, hlen, hidle⟩ := h
  have hf : f.Idle := by
    rcases hready with hf | ⟨op, opRepeat, he', -⟩
    · exact hf
    · rw [he] at he'
      exact absurd (Option.some.inj he') (by simp)
  refine ⟨⟨Or.inl ⟨rfl, rfl⟩, congrArg (· + 1) hlen, fun g hg => ?_⟩, hf⟩
  rcases List.mem_cons.mp hg with rfl | hg
  · exact hf
  · exact hidle g hg

theorem work_push {f : Frame Op} {fs : List (Frame Op)} {mult n : UInt64} {mults : List UInt64}
    {name : String} {ops : List (Entry Op)}
    (htodo : f.todo = .group name n ops :: f.ops.drop (f.cursor + 1)) :
    ∃ rest, work (f :: fs) (mult :: mults) = (mult, .group name n ops) :: rest ∧
      work (.child name n ops :: { f with cursor := f.cursor + 1 } :: fs)
        (mult * n :: mult :: mults) = ops.map (mult * n, ·) ++ rest := by
  refine ⟨(f.ops.drop (f.cursor + 1)).map (mult, ·) ++ work fs mults, ?_, rfl⟩
  rw [work, htodo]
  rfl

theorem map_snd_group (mult : UInt64) (ops : List (Entry Op)) (rest : List (UInt64 × Entry Op)) :
    (ops.map (mult, ·) ++ rest).map Prod.snd = ops ++ rest.map Prod.snd := by
  rw [List.map_append, List.map_map]
  simp [Function.comp_def]

/-- An event of `next_unrolled` is the first pending operation. -/
theorem nextUnrolled_spec {fuel : ℕ} {m m' : MOSFFile Op} {ev : Event Op}
    (h : Tidy m.stack m.unrollMultipliers) (hev : nextUnrolled fuel m = some (ev, m')) :
    UnrolledEvent m ev m' := by
  induction fuel generalizing m with
  | zero => exact absurd hev (Option.some_ne_none _).symm
  | succ fuel ih =>
    obtain ⟨ops, stack, mults⟩ := m
    unfold nextUnrolled at hev
    cases stack with
    | nil => exact absurd hev (Option.some_ne_none _).symm
    | cons f fs =>
    cases mults with
    | nil => exact False.elim h
    | cons mult mults =>
    dsimp only at hev h
    cases hdone : f.bodyDone with
    | true =>
      rw [hdone, if_pos rfl] at hev
      obtain ⟨ht, hw, hr⟩ := h.pop hdone
      have hrec := ih ht hev
      refine ⟨hrec.tidy, ?_, ?_⟩
      · have hp : pendingOps ⟨ops, f :: fs, mult :: mults⟩ = pendingOps ⟨ops, fs, mults⟩ := by
          unfold pendingOps
          dsimp only
          rw [hw, hr]
        rw [hp]
        exact hrec.pending
      · dsimp only
        rw [hw]
        exact hrec.ends
    | false =>
      obtain ⟨e, he, htodo⟩ := f.todo_cons hdone
      rw [hdone, if_neg Bool.false_ne_true, he] at hev
      cases e with
      | op op opRepeat =>
        obtain ⟨rfl, rfl⟩ := Prod.mk.inj (Option.some.inj hev)
        rw [(h.1.window he).1]
        exact h.dispense he htodo
      | group name n body =>
        dsimp only at hev
        obtain ⟨ht, hidle⟩ := h.push he
        obtain ⟨rest, hw, hw'⟩ := @work_push Op f fs mult n mults name body htodo
        have hrec := ih ht hev
        have hends := hrec.ends
        dsimp only at hends
        rw [hw', map_snd_group] at hends
        refine ⟨hrec.tidy, ?_, ?_⟩
        · have hp : pendingOps ⟨ops, f :: fs, mult :: mults⟩ =
              pendingOps ⟨ops, .child name n body :: { f with cursor := f.cursor + 1 } :: fs,
                mult * n :: mult :: mults⟩ := by
            show (workOps (work (f :: fs) (mult :: mults))).drop f.repCur.toNat =
              (workOps (work (.child name n body :: { f with cursor := f.cursor + 1 } :: fs)
                (mult * n :: mult :: mults))).drop 0
            rw [hw, hw', workOps_group, hidle.1]
            rfl
          rw [hp]
          exact hrec.pending
        · dsimp only
          rw [← hends, hw, List.map_cons]
          -- the group may be the last entry and be empty, but then there was no event
          unfold Ends
          rw [endsInOp_group]
          constructor
          · rintro (h0 | h0)
            · exact absurd h0 (List.cons_ne_nil _ _)
            · exact Or.inr h0
          · rintro (h0 | h0)
            · obtain ⟨op, total, -, hp⟩ := hrec.pending
              have hempty : work (.child name n body :: { f with cursor := f.cursor + 1 } :: fs)
                  (mult * n :: mult :: mults) = [] := by
                rw [hw']
                apply List.map_eq_nil_iff.mp
                rw [map_snd_group]
                exact h0
              unfold pendingOps at hp
              dsimp only at hp
              rw [hempty] at hp
              exact absurd hp (by simp)
            · exact Or.inr h0

/-- There is an event if an operation is the last entry. -/
theorem nextUnrolled_exists {m : MOSFFile Op} (h : Tidy m.stack m.unrollMultipliers)
    (hend : endsInOp ((work m.stack m.unrollMultipliers).map Prod.snd) = true) :
    ∃ fuel r, nextUnrolled fuel m = some r := by
  -- entering a group makes the work smaller, leaving one makes the stack smaller
  induction hn : 2 * opsSize ((work m.stack m.unrollMultipliers).map Prod.snd) + m.stack.length
    using Nat.strong_induction_on generalizing m with
  | _ n ih =>
  subst hn
  obtain ⟨ops, stack, mults⟩ := m
  cases stack with
  | nil => exact absurd hend (by simp [work, endsInOp])
  | cons f fs =>
  cases mults with
  | nil => exact False.elim h
  | cons mult mults =>
  dsimp only at h hend
  cases hdone : f.bodyDone with
  | true =>
    obtain ⟨ht, hw, -⟩ := h.pop hdone
    rw [hw] at hend
    obtain ⟨fuel, r, hr⟩ : ∃ fuel r, nextUnrolled fuel ⟨ops, fs, mults⟩ = some r := by
      refine ih _ ?_ ht hend rfl
      dsimp only
      rw [hw, List.length_cons]
      omega
    refine ⟨fuel + 1, r, ?_⟩
    unfold nextUnrolled
    dsimp only
    rw [hdone, if_pos rfl]
    exact hr
  | false =>
    obtain ⟨e, he, htodo⟩ := f.todo_cons hdone
    cases e with
    | op op opRepeat =>
      refine ⟨1, (⟨.op, some (f.cachedOp.getD op), "", 0, mult * opRepeat⟩, ⟨ops,
        f.dispense (f.cachedOp.getD op) (mult * opRepeat) :: fs, mult :: mults⟩), ?_⟩
      unfold nextUnrolled
      dsimp only
      rw [hdone, if_neg Bool.false_ne_true, he]
      rfl
    | group name n body =>
      obtain ⟨ht, -⟩ := h.push he
      obtain ⟨rest, hw, hw'⟩ := @work_push Op f fs mult n mults name body htodo
      rw [hw, List.map_cons, endsInOp_group, ← map_snd_group (mult * n), ← hw'] at hend
      obtain ⟨fuel, r, hr⟩ : ∃ fuel r, nextUnrolled fuel ⟨ops, .child name n body ::
          { f with cursor := f.cursor + 1 } :: fs, mult * n :: mult :: mults⟩ = some r := by
        refine ih _ ?_ ht hend rfl
        dsimp only
        rw [hw, hw', map_snd_group, opsSize_append, List.map_cons, opsSize, Entry.size,
          List.length_cons, List.length_cons, List.length_cons]
        omega
      refine ⟨fuel + 1, r, ?_⟩
      unfold nextUnrolled
      dsimp only
      rw [hdone, if_neg Bool.false_ne_true, he]
      exact hr

/-- What is performed for operations handed out with their counts. -/
def performed (l : List (Op × UInt64)) : List Op :=
  l.flatMap fun p => List.replicate p.2.toNat p.1

/-- The unrolled traversal performs the pending operations, and it needs an operation as the
last entry. -/
theorem Unrolled.spec {m : MOSFFile Op} {l : List Op} (hrun : Unrolled m l)
    (h : Tidy m.stack m.unrollMultipliers) :
    Ends ((work m.stack m.unrollMultipliers).map Prod.snd) ∧ l = performed (pendingOps m) := by
  induction hrun with
  | @done m m' stop =>
    obtain ⟨hempty, -⟩ := Prod.mk.inj stop
    obtain ⟨-, -, -, hnil⟩ := drain_spec h
    have hwork := hnil.mp (by simpa using hempty)
    refine ⟨Or.inl (by rw [hwork]; rfl), ?_⟩
    unfold pendingOps
    rw [hwork]
    simp [performed]
  | @step m m₁ m₂ ev l fuel more event rest ih =>
    obtain ⟨-, rfl⟩ := Prod.mk.inj more
    obtain ⟨ht, hw, hr, -⟩ := drain_spec h
    have hev := nextUnrolled_spec ht event
    obtain ⟨hends, hl⟩ := ih hev.tidy
    obtain ⟨op, total, rfl, hp⟩ := hev.pending
    have hends' := hev.ends.mpr hends
    dsimp only at hends'
    rw [hw] at hends'
    have hsame : pendingOps m = (op, total) :: pendingOps m₂ := by
      rw [← hp]
      unfold pendingOps
      dsimp only
      rw [hw, hr]
    refine ⟨hends', ?_⟩
    rw [hsame, hl]
    rfl

theorem unrolled_pending {m : MOSFFile Op} (h : Tidy m.stack m.unrollMultipliers)
    (hend : Ends ((work m.stack m.unrollMultipliers).map Prod.snd)) :
    Unrolled m (performed (pendingOps m)) := by
  induction hn : (pendingOps m).length using Nat.strong_induction_on generalizing m with
  | _ n ih =>
  subst hn
  obtain ⟨ht, hw, hr, hnil⟩ := drain_spec h
  have hsame : pendingOps m = pendingOps (hasNext m).2 := by
    show _ = List.drop (topRep (drain m.stack m.unrollMultipliers).1) _
    unfold pendingOps
    rw [← hw, ← hr]
    rfl
  cases hwork : work m.stack m.unrollMultipliers with
  | nil =>
    have hp : pendingOps m = [] := by
      unfold pendingOps
      rw [hwork]
      simp
    rw [hp]
    refine @Unrolled.done Op m (hasNext m).2 (Prod.ext ?_ rfl)
    show (!(drain m.stack m.unrollMultipliers).1.isEmpty) = false
    rw [hnil.mpr hwork]
    rfl
  | cons p rest =>
    have hop := hend.resolve_left (by rw [hwork]; simp)
    rw [← hw] at hop
    obtain ⟨fuel, ⟨ev, m₂⟩, hev⟩ := nextUnrolled_exists (m := (hasNext m).2) ht hop
    have hspec := nextUnrolled_spec ht hev
    obtain ⟨op, total, rfl, hp⟩ := hspec.pending
    rw [hsame, hp]
    have hmore : hasNext m = (true, (hasNext m).2) := by
      refine Prod.ext ?_ rfl
      show (!(drain m.stack m.unrollMultipliers).1.isEmpty) = true
      have hne : (drain m.stack m.unrollMultipliers).1 ≠ [] := by
        intro h0
        have := hnil.mp h0
        rw [hwork] at this
        exact absurd this (List.cons_ne_nil _ _)
      simpa using hne
    refine .step fuel hmore hev (ih _ ?_ hspec.tidy (hspec.ends.mp (Or.inr hop)) rfl)
    rw [hsame, hp, List.length_cons]
    exact Nat.lt_succ_self _

/-- The whole unrolled traversal of a circuit. -/
theorem unrolled_iff {ops : List (Entry Op)} {l : List Op} :
    Unrolled (init ops) l ↔ Ends ops ∧ l = performed (dispensedOf 1 ops) := by
  have ht : Tidy (init ops).stack (init ops).unrollMultipliers :=
    ⟨Or.inl ⟨rfl, rfl⟩, rfl, fun g hg => absurd hg (List.not_mem_nil)⟩
  have hwork : work (init ops).stack (init ops).unrollMultipliers = ops.map (1, ·) :=
    List.append_nil _
  have hends : (work (init ops).stack (init ops).unrollMultipliers).map Prod.snd = ops := by
    rw [hwork, List.map_map]
    simp [Function.comp_def]
  have hp : pendingOps (init ops) = dispensedOf 1 ops := by
    unfold pendingOps
    rw [hwork]
    exact workOps_map 1 ops
  constructor
  · intro h
    have := h.spec ht
    rwa [hends, hp] at this
  · rintro ⟨hend, rfl⟩
    have := unrolled_pending ht (by rwa [hends])
    rwa [hp] at this

/-! ## Agreement of the two traversals -/

mutual

/-- The operations of an entry, each with the product of the counts around it. -/
def Entry.leaves : ℕ → Entry Op → List (Op × ℕ)
  | m, .op op opRepeat => [(op, m * opRepeat.toNat)]
  | m, .group _ n ops => leavesOf (m * n.toNat) ops

/-- The operations of an array of entries, each with the product of the counts around it. -/
def leavesOf : ℕ → List (Entry Op) → List (Op × ℕ)
  | _, [] => []
  | m, e :: es => e.leaves m ++ leavesOf m es

end

mutual

/-- All counts are positive. -/
def Entry.Positive : Entry Op → Prop
  | .op _ opRepeat => 0 < opRepeat
  | .group _ n ops => 0 < n ∧ PositiveOps ops

/-- All counts are positive. -/
def PositiveOps : List (Entry Op) → Prop
  | [] => True
  | e :: es => e.Positive ∧ PositiveOps es

end

/-- No operation is repeated, by itself or by a group. -/
def Once (ops : List (Entry Op)) : Prop := ∀ p ∈ leavesOf 1 ops, p.2 = 1

/-- Both traversals run to their end and perform the same sequence of operations. -/
def Agrees (ops : List (Entry Op)) : Prop :=
  ∃ evs l, Events (init ops) evs ∧ Unrolled (init ops) l ∧ l = execute evs

mutual

theorem Entry.dvd_leaves (e : Entry Op) (m : ℕ) : ∀ p ∈ e.leaves m, m ∣ p.2 := by
  cases e with
  | op op opRepeat =>
    intro p hp
    rw [Entry.leaves, List.mem_singleton] at hp
    rw [hp]
    exact Dvd.intro _ rfl
  | group name n ops => exact fun p hp => (Dvd.intro _ rfl).trans (dvd_leavesOf ops _ p hp)

theorem dvd_leavesOf (es : List (Entry Op)) (m : ℕ) : ∀ p ∈ leavesOf m es, m ∣ p.2 := by
  cases es with
  | nil => exact fun p hp => absurd hp List.not_mem_nil
  | cons e es =>
    intro p hp
    rw [leavesOf, List.mem_append] at hp
    rcases hp with hp | hp
    · exact e.dvd_leaves m p hp
    · exact dvd_leavesOf es m p hp

end

mutual

theorem Entry.leaves_pos (e : Entry Op) (h : e.Positive) {m : ℕ} (hm : 0 < m) :
    ∀ p ∈ e.leaves m, 0 < p.2 := by
  cases e with
  | op op opRepeat =>
    intro p hp
    rw [Entry.leaves, List.mem_singleton] at hp
    rw [hp]
    exact Nat.mul_pos hm (UInt64.lt_iff_toNat_lt.mp h)
  | group name n ops =>
    exact leavesOf_pos ops h.2 (Nat.mul_pos hm (UInt64.lt_iff_toNat_lt.mp h.1))

theorem leavesOf_pos (es : List (Entry Op)) (h : PositiveOps es) {m : ℕ} (hm : 0 < m) :
    ∀ p ∈ leavesOf m es, 0 < p.2 := by
  cases es with
  | nil => exact fun p hp => absurd hp List.not_mem_nil
  | cons e es =>
    intro p hp
    rw [leavesOf, List.mem_append] at hp
    rcases hp with hp | hp
    · exact e.leaves_pos h.1 hm p hp
    · exact leavesOf_pos es h.2 hm p hp

end

/-! ### Circuits without repetition -/

mutual

/-- Without repetition the operations are performed once and in order. -/
theorem Entry.executed_once (e : Entry Op) (m : ℕ) (h : ∀ p ∈ e.leaves m, p.2 = 1) :
    e.executed = (e.leaves m).map Prod.fst := by
  cases e with
  | op op opRepeat =>
    have h1 := Nat.eq_one_of_mul_eq_one_left (h _ (List.mem_singleton_self _))
    rw [Entry.executed, h1]
    rfl
  | group name n ops =>
    have ih := executedOf_once ops (m * n.toNat) h
    rw [Entry.executed, Entry.leaves, ih]
    cases hl : leavesOf (m * n.toNat) ops with
    | nil => simp
    | cons p l =>
      -- the count divides the one of the first operation
      have hp := dvd_leavesOf ops (m * n.toNat) p (by rw [hl]; exact List.mem_cons_self)
      have h1 := h p (by rw [Entry.leaves, hl]; exact List.mem_cons_self)
      rw [h1] at hp
      rw [Nat.eq_one_of_mul_eq_one_left (Nat.dvd_one.mp hp)]
      simp

theorem executedOf_once (es : List (Entry Op)) (m : ℕ) (h : ∀ p ∈ leavesOf m es, p.2 = 1) :
    executedOf es = (leavesOf m es).map Prod.fst := by
  cases es with
  | nil => rfl
  | cons e es =>
    rw [executedOf, leavesOf, List.map_append,
      e.executed_once m fun p hp => h p (by rw [leavesOf]; exact List.mem_append_left _ hp),
      executedOf_once es m fun p hp => h p (by rw [leavesOf]; exact List.mem_append_right _ hp)]

end

theorem performed_append (l l' : List (Op × UInt64)) :
    performed (l ++ l') = performed l ++ performed l' := List.flatMap_append

mutual

theorem Entry.performed_once (e : Entry Op) {mult : UInt64} {m : ℕ}
    (hm : mult.toNat = m % 2 ^ 64) (h : ∀ p ∈ e.leaves m, p.2 = 1) :
    performed (e.dispensed mult) = (e.leaves m).map Prod.fst := by
  cases e with
  | op op opRepeat =>
    have h1 : m * opRepeat.toNat = 1 := h _ (List.mem_singleton_self _)
    have htotal : (mult * opRepeat).toNat = 1 := by
      rw [UInt64.toNat_mul, hm, Nat.mod_mul_mod, h1]
      exact Nat.mod_eq_of_lt (by decide)
    rw [Entry.dispensed, htotal]
    show List.replicate (mult * opRepeat).toNat op ++ [] = _
    rw [htotal]
    rfl
  | group name n ops =>
    apply dispensedOf_once ops _ h
    rw [UInt64.toNat_mul, hm, Nat.mod_mul_mod]

theorem dispensedOf_once (es : List (Entry Op)) {mult : UInt64} {m : ℕ}
    (hm : mult.toNat = m % 2 ^ 64) (h : ∀ p ∈ leavesOf m es, p.2 = 1) :
    performed (dispensedOf mult es) = (leavesOf m es).map Prod.fst := by
  cases es with
  | nil => rfl
  | cons e es =>
    rw [dispensedOf, leavesOf, performed_append, List.map_append,
      e.performed_once hm fun p hp => h p (by rw [leavesOf]; exact List.mem_append_left _ hp),
      dispensedOf_once es hm fun p hp => h p (by rw [leavesOf]; exact List.mem_append_right _ hp)]

end

/-! ### Counting operations -/

variable (w : Op → ℕ)

/-- The weights of the operations performed. -/
def weigh (l : List Op) : ℕ := (l.map w).sum

/-- The weights of leaves, each counted as a function of its product tells. -/
def weighLeaves (f : ℕ → ℕ) (l : List (Op × ℕ)) : ℕ := (l.map fun p => f p.2 * w p.1).sum

theorem weigh_append (l l' : List Op) : weigh w (l ++ l') = weigh w l + weigh w l' := by
  unfold weigh
  rw [List.map_append, List.sum_append]

theorem weighLeaves_append (f : ℕ → ℕ) (l l' : List (Op × ℕ)) :
    weighLeaves w f (l ++ l') = weighLeaves w f l + weighLeaves w f l' := by
  unfold weighLeaves
  rw [List.map_append, List.sum_append]

theorem weigh_replicate (n : ℕ) (op : Op) : weigh w (List.replicate n op) = n * w op := by
  unfold weigh
  rw [List.map_replicate, List.sum_replicate, nsmul_eq_mul, Nat.cast_id]

theorem weigh_repeat (n : ℕ) (l : List Op) :
    weigh w (List.replicate n l).flatten = n * weigh w l := by
  induction n with
  | zero => simp [weigh]
  | succ n ih =>
    rw [List.replicate_succ, List.flatten_cons, weigh_append, ih, Nat.succ_mul, Nat.add_comm]

mutual

/-- The event traversal performs an operation as often as the product of its counts. -/
theorem Entry.weigh_executed (e : Entry Op) (m : ℕ) :
    m * weigh w e.executed = weighLeaves w id (e.leaves m) := by
  cases e with
  | op op opRepeat =>
    rw [Entry.executed, weigh_replicate, Entry.leaves]
    simp [weighLeaves, Nat.mul_assoc]
  | group name n ops =>
    rw [Entry.executed, weigh_repeat, Entry.leaves, ← weigh_executedOf ops, Nat.mul_assoc]

theorem weigh_executedOf (es : List (Entry Op)) (m : ℕ) :
    m * weigh w (executedOf es) = weighLeaves w id (leavesOf m es) := by
  cases es with
  | nil => simp [executedOf, leavesOf, weigh, weighLeaves]
  | cons e es =>
    rw [executedOf, weigh_append, Nat.mul_add, e.weigh_executed m, weigh_executedOf es m,
      leavesOf, weighLeaves_append]

end

theorem weigh_performed_replicate (n : ℕ) (op : Op) (total : UInt64) :
    weigh w (performed (List.replicate n (op, total))) = n * (total.toNat * w op) := by
  induction n with
  | zero => simp [performed, weigh]
  | succ n ih =>
    rw [List.replicate_succ]
    show weigh w (List.replicate total.toNat op ++ performed (List.replicate n (op, total))) = _
    rw [weigh_append, weigh_replicate, ih, Nat.succ_mul, Nat.add_comm]

/-- The square of a count as the machine sees it. -/
def wrapSquare (m : ℕ) : ℕ := (m % 2 ^ 64) * (m % 2 ^ 64)

mutual

/-- The unrolled traversal performs it as often as the square of the product. -/
theorem Entry.weigh_dispensed (e : Entry Op) {mult : UInt64} {m : ℕ}
    (hm : mult.toNat = m % 2 ^ 64) :
    weigh w (performed (e.dispensed mult)) = weighLeaves w wrapSquare (e.leaves m) := by
  cases e with
  | op op opRepeat =>
    have htotal : (mult * opRepeat).toNat = m * opRepeat.toNat % 2 ^ 64 := by
      rw [UInt64.toNat_mul, hm, Nat.mod_mul_mod]
    rw [Entry.dispensed, weigh_performed_replicate, htotal, Entry.leaves]
    unfold weighLeaves wrapSquare
    rw [List.map_singleton, List.sum_singleton]
    generalize m * opRepeat.toNat % 2 ^ 64 = r
    -- an operation with a count of zero is handed out once and performed not at all
    rcases Nat.eq_zero_or_pos r with rfl | hpos
    · simp
    · rw [Nat.max_eq_right hpos, Nat.mul_assoc]
  | group name n ops =>
    apply weigh_dispensedOf ops
    rw [UInt64.toNat_mul, hm, Nat.mod_mul_mod]

theorem weigh_dispensedOf (es : List (Entry Op)) {mult : UInt64} {m : ℕ}
    (hm : mult.toNat = m % 2 ^ 64) :
    weigh w (performed (dispensedOf mult es)) = weighLeaves w wrapSquare (leavesOf m es) := by
  cases es with
  | nil => rfl
  | cons e es =>
    rw [dispensedOf, performed_append, weigh_append, e.weigh_dispensed hm,
      weigh_dispensedOf es hm, leavesOf, weighLeaves_append]

end

/-- A count that is its own square on the machine is one. -/
theorem eq_one_of_wrapSquare {m : ℕ} (hpos : 0 < m) (h : m = wrapSquare m) : m = 1 := by
  unfold wrapSquare at h
  set r := m % 2 ^ 64 with hr
  have hmod : r * r % 2 ^ 64 = r := by
    rw [← h, hr]
  -- one of two consecutive numbers is odd, so the power of two divides the other
  have hdvd : 2 ^ 64 ∣ r * (r - 1) := by
    have h2 : 2 ^ 64 ∣ r * r - r := by
      have hle := Nat.div_add_mod (r * r) (2 ^ 64)
      rw [hmod] at hle
      exact ⟨r * r / 2 ^ 64, by omega⟩
    rwa [Nat.mul_sub_one]
  have hlt : r < 2 ^ 64 := Nat.mod_lt _ (by decide)
  have hr0 : 0 < r := by
    rcases Nat.eq_zero_or_pos r with h0 | h0
    · rw [h0] at h
      omega
    · exact h0
  have hr1 : r = 1 := by
    rcases Nat.even_or_odd r with heven | hodd
    · have hco : Nat.Coprime (2 ^ 64) (r - 1) := by
        apply Nat.Coprime.pow_left
        rw [Nat.coprime_two_left]
        exact Nat.Even.sub_odd hr0 heven odd_one
      have := Nat.le_of_dvd hr0 (hco.dvd_of_dvd_mul_right hdvd)
      omega
    · have hco : Nat.Coprime (2 ^ 64) r := by
        apply Nat.Coprime.pow_left
        rwa [Nat.coprime_two_left]
      have hd := hco.dvd_of_dvd_mul_left hdvd
      rcases Nat.eq_zero_or_pos (r - 1) with h0 | h0
      · omega
      · have := Nat.le_of_dvd h0 hd
        omega
  rw [h, hr1]

/-- Numbers that add up to their squares are at most one. -/
theorem eq_one_of_sum (l : List (Op × ℕ)) (hpos : ∀ p ∈ l, 0 < p.2)
    (h : weighLeaves (fun _ => 1) id l = weighLeaves (fun _ => 1) (fun m => m * m) l) :
    ∀ p ∈ l, p.2 = 1 := by
  have hle : ∀ l : List (Op × ℕ), (∀ p ∈ l, 0 < p.2) →
      weighLeaves (fun _ => 1) id l ≤ weighLeaves (fun _ => 1) (fun m => m * m) l := by
    intro l hl
    apply List.sum_le_sum
    intro p hp
    exact Nat.mul_le_mul_right 1 (Nat.le_mul_of_pos_right p.2 (hl p hp))
  induction l with
  | nil => exact fun p hp => absurd hp List.not_mem_nil
  | cons p l ih =>
    have hp : 0 < p.2 := hpos p List.mem_cons_self
    have hrest := hle l fun p hp => hpos p (List.mem_cons_of_mem _ hp)
    have hsq : p.2 ≤ p.2 * p.2 := Nat.le_mul_of_pos_right p.2 hp
    have h' : p.2 * 1 + weighLeaves (fun _ => 1) id l =
        p.2 * p.2 * 1 + weighLeaves (fun _ => 1) (fun m => m * m) l := h
    intro p' hp'
    rcases List.mem_cons.mp hp' with rfl | hmem
    · have : p'.2 * 1 = p'.2 * p'.2 := by omega
      exact (Nat.eq_of_mul_eq_mul_left hp this).symm
    · exact ih (fun p hp => hpos p (List.mem_cons_of_mem _ hp)) (by omega) p' hmem

/-- The weight of one operation among distinct ones. -/
theorem weighLeaves_single [DecidableEq Op] (f : ℕ → ℕ) {l : List (Op × ℕ)}
    (hnodup : (l.map Prod.fst).Nodup) {p : Op × ℕ} (hp : p ∈ l) :
    weighLeaves (fun op => if op = p.1 then 1 else 0) f l = f p.2 := by
  have hzero : ∀ l : List (Op × ℕ), p.1 ∉ l.map Prod.fst →
      weighLeaves (fun op => if op = p.1 then 1 else 0) f l = 0 := by
    intro l hl
    apply List.sum_eq_zero
    intro n hn
    obtain ⟨p', hp', rfl⟩ := List.mem_map.mp hn
    have hne : p'.1 ≠ p.1 := fun h0 => hl (List.mem_map.mpr ⟨p', hp', h0⟩)
    show f p'.2 * (if p'.1 = p.1 then 1 else 0) = 0
    rw [if_neg hne, Nat.mul_zero]
  induction l with
  | nil => exact absurd hp List.not_mem_nil
  | cons p' l ih =>
    obtain ⟨hnot, hnodup⟩ := List.nodup_cons.mp hnodup
    show f p'.2 * (if p'.1 = p.1 then 1 else 0) +
      weighLeaves (fun op => if op = p.1 then 1 else 0) f l = f p.2
    rcases List.mem_cons.mp hp with rfl | hmem
    · rw [if_pos rfl, Nat.mul_one, hzero l hnot, Nat.add_zero]
    · have hne : p'.1 ≠ p.1 := by
        intro h0
        rw [h0] at hnot
        exact hnot (List.mem_map.mpr ⟨p, hmem, rfl⟩)
      rw [if_neg hne, Nat.mul_zero, Nat.zero_add, ih hnodup hmem]

/-- Operations that both traversals perform equally often are not repeated, if the operations
are distinct or no product of counts wraps. -/
theorem once_of_performed {ops : List (Entry Op)} (hpos : PositiveOps ops)
    (hdist : ((leavesOf 1 ops).map Prod.fst).Nodup ∨ ∀ p ∈ leavesOf 1 ops, p.2 < 2 ^ 64)
    (h : performed (dispensedOf 1 ops) = executedOf ops) : Once ops := by
  have hleaf := leavesOf_pos ops hpos Nat.one_pos
  have hweigh : ∀ w : Op → ℕ,
      weighLeaves w id (leavesOf 1 ops) = weighLeaves w wrapSquare (leavesOf 1 ops) := by
    intro w
    rw [← weigh_executedOf, ← @weigh_dispensedOf Op w ops 1 1 rfl, h, Nat.one_mul]
  rcases hdist with hnodup | hlt
  · intro p hp
    classical
    have hw := hweigh fun op => if op = p.1 then 1 else 0
    rw [weighLeaves_single id hnodup hp, weighLeaves_single wrapSquare hnodup hp] at hw
    exact eq_one_of_wrapSquare (hleaf p hp) hw
  · apply eq_one_of_sum _ hleaf
    rw [hweigh]
    apply congrArg List.sum
    apply List.map_congr_left
    intro p hp
    rw [wrapSquare, Nat.mod_eq_of_lt (hlt p hp)]

/-- The two traversals of a circuit agree if an operation is its last entry and none is
repeated; apart from wrapped counts that cancel out, this is the only case. -/
theorem agrees_iff {ops : List (Entry Op)} (hpos : PositiveOps ops) :
    (Ends ops ∧ Once ops → Agrees ops) ∧
      (((leavesOf 1 ops).map Prod.fst).Nodup ∨ (∀ p ∈ leavesOf 1 ops, p.2 < 2 ^ 64) →
        Agrees ops → Ends ops ∧ Once ops) := by
  constructor
  · rintro ⟨hend, honce⟩
    have hev := events_pending (init ops)
    refine ⟨_, _, hev, unrolled_iff.mpr ⟨hend, rfl⟩, ?_⟩
    rw [hev.execute_eq, dispensedOf_once ops rfl honce, executedOf_once ops 1 honce]
  · rintro hdist ⟨evs, l, hev, hrun, heq⟩
    obtain ⟨hend, hl⟩ := unrolled_iff.mp hrun
    refine ⟨hend, once_of_performed hpos hdist ?_⟩
    rw [← hl, heq, hev.execute_eq]

/-- Nested groups that are done once. -/
def nestedOnce : List (Entry ℕ) :=
  [.op 0 1, .group "outer" 1 [.op 1 1, .group "inner" 1 [.op 2 1]], .op 3 1]

/-- A group that is done twice. -/
def pairTwice : List (Entry ℕ) := [.op 0 1, .group "pair" 2 [.op 1 1, .op 2 1]]

theorem agrees_iff_groups : Agrees nestedOnce ∧ ¬ Agrees pairTwice := by
  have hone : (0 : UInt64) < 1 := by decide
  have htwo : (0 : UInt64) < 2 := by decide
  have hnested : PositiveOps nestedOnce :=
    ⟨hone, ⟨hone, hone, ⟨hone, hone, trivial⟩, trivial⟩, hone, trivial⟩
  have hpair : PositiveOps pairTwice := ⟨hone, ⟨htwo, hone, hone, trivial⟩, trivial⟩
  have hdistinct : ((leavesOf 1 pairTwice).map Prod.fst).Nodup := by
    simp [pairTwice, leavesOf, Entry.leaves]
  constructor
  · apply (agrees_iff hnested).1
    refine ⟨.inr rfl, ?_⟩
    simp [Once, nestedOnce, leavesOf, Entry.leaves]
  · intro h
    obtain ⟨-, honce⟩ := (agrees_iff hpair).2 (.inl hdistinct) h
    simp [Once, pairTwice, leavesOf, Entry.leaves] at honce

/-- An operation with `"repeat": 2` is handed out twice with `op_repeat` 2. -/
theorem not_agrees_repeat : PositiveOps [Entry.op () 2] ∧ ¬ Agrees [Entry.op () 2] := by
  refine ⟨⟨show (0 : UInt64) < 2 by decide, trivial⟩, ?_⟩
  rintro ⟨evs, l, hev, hrun, heq⟩
  have hl := (unrolled_iff.mp hrun).2
  rw [hev.execute_eq, hl] at heq
  exact absurd (congrArg List.length heq) (by decide)

end MoToBuddy.Mosf
