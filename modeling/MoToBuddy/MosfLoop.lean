import MoToBuddy.Mosf

/-!
# The loop `while (has_next()) next()`

`has_next` pops the frames that are done, and with them the end events that `next` would hand out
for them. So the loop announces every group and ends none (`delivered_iff`), and its events are
well bracketed only if there is no group (`loop_bracketed_iff`).
-/

namespace MoToBuddy.Mosf

variable {Op : Type*}

/-- The events of the loop. -/
inductive Delivered : MOSFFile Op → List (Event Op) → Prop
  | done {m m' : MOSFFile Op} (stop : hasNext m = (false, m')) : Delivered m []
  | step {m m₁ m₂ : MOSFFile Op} {ev : Event Op} {l : List (Event Op)} (fuel : ℕ)
      (more : hasNext m = (true, m₁)) (event : next fuel m₁ = some (ev, m₂))
      (rest : Delivered m₂ l) : Delivered m (ev :: l)

/-- The events of entries, in the order of the document: every operation once, and every group as
one begin event, the events of its body, and one end event with the same name and count. -/
inductive Bracketed : List (Entry Op) → List (Event Op) → Prop
  | nil : Bracketed [] []
  | op {op : Op} {opRepeat : UInt64} {es : List (Entry Op)} {l : List (Event Op)}
      (rest : Bracketed es l) :
      Bracketed (.op op opRepeat :: es) (⟨.op, some op, "", 0, opRepeat⟩ :: l)
  | group {name : String} {n : UInt64} {ops es : List (Entry Op)} {body l : List (Event Op)}
      (inner : Bracketed ops body) (rest : Bracketed es l) :
      Bracketed (.group name n ops :: es) (⟨.groupBegin, none, name, n, 0⟩ ::
        (body ++ ⟨.groupEnd, none, name, n, 0⟩ :: l))

/-- An entry that is an operation. -/
def Entry.IsOp : Entry Op → Prop
  | .op _ _ => True
  | .group _ _ _ => False

/-! ## What the loop hands out -/

mutual

/-- What the loop hands out for an entry. -/
def Entry.opened : Entry Op → List (Event Op)
  | .op op opRepeat => [⟨.op, some op, "", 0, opRepeat⟩]
  | .group name n ops => ⟨.groupBegin, none, name, n, 0⟩ :: openedOf ops

/-- What the loop hands out for an array of entries. -/
def openedOf : List (Entry Op) → List (Event Op)
  | [] => []
  | e :: es => e.opened ++ openedOf es

end

/-- What the loop still hands out, once all groups on the stack are announced. -/
def pendingOpened : List (Frame Op) → List (Event Op)
  | [] => []
  | f :: rest => openedOf f.todo ++ pendingOpened rest

/-- All groups on the stack are announced. -/
def Announced : List (Frame Op) → Prop
  | [] => True
  | f :: rest => (rest ≠ [] → f.began = true) ∧ Announced rest

/-- `has_next` only pops frames that have nothing left. -/
theorem drain_opened {stack : List (Frame Op)} (h : Announced stack) (mults : List UInt64) :
    Announced (drain stack mults).1 ∧
      pendingOpened (drain stack mults).1 = pendingOpened stack ∧
      ∀ f rest, (drain stack mults).1 = f :: rest → f.bodyDone = false := by
  induction stack generalizing mults with
  | nil => exact ⟨trivial, rfl, fun f rest heq => absurd heq.symm (List.cons_ne_nil f rest)⟩
  | cons f fs ih =>
    unfold drain
    cases hdone : f.bodyDone with
    | true =>
      rw [if_pos rfl]
      obtain ⟨ha, hp, hd⟩ := ih h.2 mults.tail
      refine ⟨ha, ?_, hd⟩
      rw [hp, pendingOpened, f.todo_done hdone]
      rfl
    | false =>
      rw [if_neg Bool.false_ne_true]
      refine ⟨h, rfl, fun f' rest heq => ?_⟩
      rw [← (List.cons.inj heq).1]
      exact hdone

/-- After `has_next`, `next` takes the first event; a group is announced at once. -/
theorem next_opened {m : MOSFFile Op} {f : Frame Op} {rest : List (Frame Op)}
    (hstack : m.stack = f :: rest) (h : Announced m.stack) (hdone : f.bodyDone = false) :
    ∃ ev m', next 2 m = some (ev, m') ∧ Announced m'.stack ∧
      pendingOpened m.stack = ev :: pendingOpened m'.stack := by
  obtain ⟨ops, stack, mults⟩ := m
  dsimp only at hstack h ⊢
  subst hstack
  obtain ⟨hbegan, hrest⟩ := h
  have hbegin : ¬ (rest ≠ [] ∧ f.began = false) := by
    rintro ⟨hne, hno⟩
    rw [hbegan hne] at hno
    exact absurd hno.symm Bool.false_ne_true
  obtain ⟨e, he, htodo⟩ := f.todo_cons hdone
  unfold next
  dsimp only
  rw [if_neg hbegin, hdone, if_neg Bool.false_ne_true, he]
  have hmoved : Announced ({ f with cursor := f.cursor + 1 } :: rest) := ⟨hbegan, hrest⟩
  cases e with
  | op op opRepeat =>
    refine ⟨_, _, rfl, hmoved, ?_⟩
    rw [pendingOpened, htodo]
    rfl
  | group name n body =>
    dsimp only
    unfold next
    dsimp only
    rw [if_pos ⟨List.cons_ne_nil _ _, rfl⟩]
    refine ⟨_, _, rfl, ⟨fun _ => rfl, hmoved⟩, ?_⟩
    rw [pendingOpened, htodo, pendingOpened, pendingOpened, openedOf, Entry.opened]
    show _ = _ :: (openedOf body ++ (openedOf (f.ops.drop (f.cursor + 1)) ++ _))
    rw [List.append_assoc, List.cons_append]
    rfl

/-- One round of the loop. -/
theorem loop_round (m : MOSFFile Op) (h : Announced m.stack) :
    (∃ m', hasNext m = (false, m')) ∧ pendingOpened m.stack = [] ∨
      ∃ m₁ ev m₂, hasNext m = (true, m₁) ∧ next 2 m₁ = some (ev, m₂) ∧ Announced m₂.stack ∧
        pendingOpened m.stack = ev :: pendingOpened m₂.stack := by
  obtain ⟨ha, hp, hd⟩ := drain_opened h m.unrollMultipliers
  unfold hasNext
  generalize drain m.stack m.unrollMultipliers = d at ha hp hd ⊢
  obtain ⟨stack, mults⟩ := d
  dsimp only at ha hp hd ⊢
  cases stack with
  | nil => exact Or.inl ⟨⟨_, rfl⟩, hp.symm⟩
  | cons f rest =>
    obtain ⟨ev, m₂, hev, ha₂, hp₂⟩ := @next_opened Op
      { m with
        stack := f :: rest
        unrollMultipliers := mults } f rest rfl ha (hd f rest rfl)
    exact Or.inr ⟨_, ev, m₂, rfl, hev, ha₂, hp.symm.trans hp₂⟩

/-- The loop runs to its end, and hands out what is pending. -/
theorem delivered_pending (m : MOSFFile Op) (h : Announced m.stack) :
    Delivered m (pendingOpened m.stack) := by
  induction hn : (pendingOpened m.stack).length generalizing m with
  | zero =>
    rcases loop_round m h with ⟨⟨m', hstop⟩, hnil⟩ | ⟨m₁, ev, m₂, -, -, -, hp⟩
    · rw [hnil]
      exact .done hstop
    · rw [hp] at hn
      exact absurd hn (Nat.succ_ne_zero _)
  | succ n ih =>
    rcases loop_round m h with ⟨-, hnil⟩ | ⟨m₁, ev, m₂, hmore, hev, ha, hp⟩
    · rw [hnil] at hn
      exact absurd hn (Nat.succ_ne_zero n).symm
    · rw [hp] at hn ⊢
      exact .step 2 hmore hev (ih m₂ ha (Nat.succ.inj hn))

theorem Delivered.eq_pending {m : MOSFFile Op} {l : List (Event Op)} (hl : Delivered m l)
    (h : Announced m.stack) : l = pendingOpened m.stack := by
  induction hl with
  | @done m m' stop =>
    rcases loop_round m h with ⟨-, hnil⟩ | ⟨m₁, ev, m₂, hmore, -, -, -⟩
    · exact hnil.symm
    · rw [stop] at hmore
      exact absurd (congrArg Prod.fst hmore) Bool.false_ne_true
  | @step m m₁ m₂ ev l fuel more event rest ih =>
    rcases loop_round m h with ⟨⟨m', hstop⟩, -⟩ | ⟨m₁', ev', m₂', hmore, hev, ha, hp⟩
    · rw [hstop] at more
      exact absurd (congrArg Prod.fst more) Bool.false_ne_true
    · rw [more] at hmore
      obtain rfl := (Prod.mk.inj hmore).2
      obtain ⟨rfl, rfl⟩ := Prod.mk.inj (next_unique event hev)
      rw [hp, ih ha]

/-- The events of the loop are determined: operations and begin events. -/
theorem delivered_iff {ops : List (Entry Op)} {l : List (Event Op)} :
    Delivered (init ops) l ↔ l = openedOf ops := by
  have hinit : Announced (init ops).stack := ⟨fun h => absurd rfl h, trivial⟩
  have hpending : pendingOpened (init ops).stack = openedOf ops := List.append_nil _
  constructor
  · intro h
    rw [← hpending]
    exact h.eq_pending hinit
  · rintro rfl
    rw [← hpending]
    exact delivered_pending _ hinit

/-! ## When the events are well bracketed -/

mutual

theorem Entry.not_end_opened (e : Entry Op) : ∀ ev ∈ e.opened, ev.kind ≠ .groupEnd := by
  cases e with
  | op op opRepeat =>
    intro ev hev
    rw [List.mem_singleton.mp hev]
    exact EventKind.noConfusion
  | group name n ops =>
    intro ev hev
    rcases List.mem_cons.mp hev with rfl | hev
    · exact EventKind.noConfusion
    · exact not_end_openedOf ops ev hev

/-- The loop hands out no end event. -/
theorem not_end_openedOf (es : List (Entry Op)) : ∀ ev ∈ openedOf es, ev.kind ≠ .groupEnd := by
  cases es with
  | nil => exact fun ev hev => absurd hev List.not_mem_nil
  | cons e es =>
    intro ev hev
    rcases List.mem_append.mp hev with hev | hev
    · exact e.not_end_opened ev hev
    · exact not_end_openedOf es ev hev

end

/-- A group has an end event. -/
theorem Bracketed.isOp {ops : List (Entry Op)} {l : List (Event Op)} (h : Bracketed ops l)
    (hno : ∀ ev ∈ l, ev.kind ≠ .groupEnd) : ∀ e ∈ ops, e.IsOp := by
  induction h with
  | nil => exact fun e he => absurd he List.not_mem_nil
  | op rest ih =>
    intro e he
    rcases List.mem_cons.mp he with rfl | he
    · trivial
    · exact ih (fun ev hev => hno ev (List.mem_cons_of_mem _ hev)) e he
  | group inner rest =>
    have hend := hno _ (List.mem_cons_of_mem _ (List.mem_append_right _ List.mem_cons_self))
    exact absurd rfl hend

theorem bracketed_opened {ops : List (Entry Op)} (h : ∀ e ∈ ops, e.IsOp) :
    Bracketed ops (openedOf ops) := by
  induction ops with
  | nil => exact .nil
  | cons e es ih =>
    have hrest := ih fun e' he' => h e' (List.mem_cons_of_mem e he')
    cases e with
    | op op opRepeat => exact .op hrest
    | group name n ops => exact (h _ List.mem_cons_self).elim

mutual

theorem Entry.bracketed_events (e : Entry Op) {es : List (Entry Op)} {l : List (Event Op)}
    (h : Bracketed es l) : Bracketed (e :: es) (e.events ++ l) := by
  cases e with
  | op op opRepeat => exact .op h
  | group name n ops =>
    rw [Entry.events, List.cons_append, List.append_assoc]
    exact .group (bracketed_eventsOf ops) h

/-- What `next` hands out where `has_next` drains nothing is well bracketed. -/
theorem bracketed_eventsOf (ops : List (Entry Op)) : Bracketed ops (eventsOf ops) := by
  cases ops with
  | nil => exact .nil
  | cons e es => exact e.bracketed_events (bracketed_eventsOf es)

end

/-- The loop delivers the events of a document, well bracketed. -/
def LoopBracketed (ops : List (Entry Op)) : Prop :=
  (∃ l, Delivered (init ops) l) ∧ ∀ l, Delivered (init ops) l → Bracketed ops l

/-- The events of the loop are well bracketed if and only if the document has no group. -/
theorem loop_bracketed_iff (ops : List (Entry Op)) :
    LoopBracketed ops ↔ ∀ e ∈ ops, e.IsOp := by
  constructor
  · rintro ⟨-, hall⟩
    have hl := hall _ (delivered_iff.mpr rfl)
    exact hl.isOp (not_end_openedOf ops)
  · intro h
    refine ⟨⟨_, delivered_iff.mpr rfl⟩, fun l hl => ?_⟩
    rw [delivered_iff.mp hl]
    exact bracketed_opened h

/-- The end event of a group at the end of the document is lost. -/
theorem not_loopBracketed_group : ¬ LoopBracketed [Entry.group "g" 2 [.op () 1]] := by
  rintro ⟨-, hall⟩
  have hl := hall _ (delivered_iff.mpr rfl)
  exact hl.isOp (not_end_openedOf _) _ List.mem_cons_self

end MoToBuddy.Mosf
