import LeaseQueue.Proofs.Shared.Looks

/-
  What a cursor has passed.

  The invisibility cursor and the repair cursor go from bucket to bucket, and a
  task moves one off a bucket on the strength of what it last read there. So
  whatever should have held the cursor back, and lies behind it nevertheless, was
  inserted after that read (`Reachable.swept`). What should hold it back differs
  between the two and is a parameter here.
-/

namespace LeaseQueue

/-- The bucket that a position of the cursor stands for. -/
def Cursor.bucket (q : Queue) : Cursor → Int64 → UInt64
  | .invisibility, position => q.bucketOfCursor position
  | _, position => position.toUInt64

namespace Shared

variable {q : Queue} {cur : Cursor} {rule : Rule} {w : World} {t : Nat} {h past looked : History}
  {b : UInt64}

theorem Expects.position {position : Int64} {expected : Option Int64}
    (he : Expects cur position expected) : cur.position expected = position := by
  rcases he with rfl | ⟨rfl, rfl⟩ <;> rfl

def cursorAt (q : Queue) (cur : Cursor) (rows : Rows) : UInt64 :=
  cur.bucket q (cur.position (rows.cells.get cur.cell))

theorem cursorAt_set {rows : Rows} {cell : Cell} {value : Int64} :
    cursorAt q cur { rows with cells := rows.cells.set cell value } =
      if cell = cur.cell then cur.bucket q value else cursorAt q cur rows := by
  by_cases hcell : cell = cur.cell
  · simp [cursorAt, Cells.get_set, Cursor.position, hcell]
  · simp [cursorAt, Cells.get_set, hcell, Ne.symm hcell]

/-- The task moved the cursor off the bucket, after what was past by then. -/
def MovedOff (q : Queue) (cur : Cursor) (h : History) (t : Nat) (b : UInt64) (past : History) :
    Prop :=
  ∃ c rows expected target,
    .performed t c rows ⟨.call (.swapCell cur.cell expected target), .ok .swapped⟩ :: past <:+ h ∧
      cursorAt q cur rows = b ∧ b < cur.bucket q target

/-- When the task last looked at the row's bucket, the row was not inserted yet. -/
def Overlooks (past : History) (t : Nat) (r : Row) : Prop :=
  ∃ ms looked, lastLook t r.bucket past = some (ms, looked) ∧ ¬ Inserted r.message.index looked

/-- The cursor was moved off the row's bucket by a task that last looked there before the row was
inserted. -/
def Overtaken (q : Queue) (cur : Cursor) (h : History) (r : Row) : Prop :=
  ∃ t past, MovedOff q cur h t r.bucket past ∧ Overlooks past t r

theorem MovedOff.mono {before : History} (hm : MovedOff q cur past t b before) (hs : past <:+ h) :
    MovedOff q cur h t b before := by
  obtain ⟨c, rows, expected, target, hs', hrest⟩ := hm
  exact ⟨c, rows, expected, target, hs'.trans hs, hrest⟩

theorem Overtaken.mono {r : Row} (ho : Overtaken q cur past r) (hs : past <:+ h) :
    Overtaken q cur h r := by
  obtain ⟨t, before, hm, hl⟩ := ho
  exact ⟨t, before, hm.mono hs, hl⟩

theorem movedOff_performed {u : Nat} {c : Instant} {rows : Rows} {s : Seen}
    (hm : MovedOff q cur (.performed u c rows s :: h) t b past) :
    (∃ expected target, s = ⟨.call (.swapCell cur.cell expected target), .ok .swapped⟩ ∧
      cursorAt q cur rows = b ∧ b < cur.bucket q target) ∨ MovedOff q cur h t b past := by
  obtain ⟨c', rows', expected, target, hs, hrest⟩ := hm
  rcases List.suffix_cons_iff.mp hs with he | hs
  · cases he
    exact .inl ⟨expected, target, rfl, hrest⟩
  · exact .inr ⟨c', rows', expected, target, hs, hrest⟩

/-- The cursor has been moved off each bucket before the one that it is in and off no other, and off
the bucket of a row that should hold it back only by a task that overlooked the row. -/
structure Swept (q : Queue) (cur : Cursor) (holds : Message → Prop) (rows : Rows) (h : History) :
    Prop where
  covered : ∀ b, b < cursorAt q cur rows → ∃ t past ms looked, MovedOff q cur h t b past ∧
    lastLook t b past = some (ms, looked)
  ahead : ∀ t b past, MovedOff q cur h t b past → b < cursorAt q cur rows
  overtaken : ∀ r ∈ rows.messages, holds r.message → r.bucket < cursorAt q cur rows →
    Overtaken q cur h r

variable {holds : Message → Prop}

/-- An effect that leaves the cursor in its bucket, and after which the rows that should hold it
back are such as were there before. -/
theorem Swept.other {rows rows' : Rows} {c : Instant} {s : Seen} (hsw : Swept q cur holds rows h)
    (hcell : cursorAt q cur rows' = cursorAt q cur rows)
    (hmove : ∀ expected target, s = ⟨.call (.swapCell cur.cell expected target), .ok .swapped⟩ →
      cur.bucket q target = cursorAt q cur rows)
    (hr : ∀ r' ∈ rows'.messages, holds r'.message → ∃ r ∈ rows.messages,
      holds r.message ∧ r.bucket = r'.bucket ∧ r.message.index = r'.message.index) :
    Swept q cur holds rows' (.performed t c rows s :: h) := by
  have hs := List.suffix_cons (Event.performed t c rows s) h
  refine ⟨?_, ?_, ?_⟩
  · intro b hb
    obtain ⟨u, past, ms, looked, hm, hl⟩ := hsw.covered b (hcell ▸ hb)
    exact ⟨u, past, ms, looked, hm.mono hs, hl⟩
  · intro u b past hm
    rw [hcell]
    rcases movedOff_performed hm with ⟨expected, target, he, hfrom, hto⟩ | hm
    · rw [← hmove expected target he]
      exact hto
    · exact hsw.ahead u b past hm
  · intro r' hr' hh hb
    obtain ⟨r, hr, hh, hbucket, hindex⟩ := hr r' hr' hh
    obtain ⟨u, past, hm, ms, looked, hl, hi⟩ := hsw.overtaken r hr hh (by rwa [hbucket, ← hcell])
    exact ⟨u, past, hbucket ▸ hm.mono hs, ms, looked, hbucket ▸ hl, hindex ▸ hi⟩

theorem Swept.move {rows : Rows} {c : Instant} {target : Int64} {ms : List Message}
    (hsw : Swept q cur holds rows h)
    (hto : (cur.bucket q target).toNat = (cursorAt q cur rows).toNat + 1)
    (hlook : lastLook t (cursorAt q cur rows) h = some (ms, looked))
    (hover : ∀ r ∈ rows.messages, r.bucket = cursorAt q cur rows → holds r.message →
      ¬ Inserted r.message.index looked) :
    Swept q cur holds { rows with cells := rows.cells.set cur.cell target }
      (.performed t c rows
        ⟨.call (.swapCell cur.cell (rows.cells.get cur.cell) target), .ok .swapped⟩ :: h) := by
  have hs := List.suffix_cons (Event.performed t c rows
    ⟨.call (.swapCell cur.cell (rows.cells.get cur.cell) target), .ok .swapped⟩) h
  have hcell : cursorAt q cur { rows with cells := rows.cells.set cur.cell target } =
      cur.bucket q target := by
    rw [cursorAt_set, if_pos rfl]
  have hlt : cursorAt q cur rows < cur.bucket q target := by
    rw [UInt64.lt_iff_toNat_lt]
    omega
  have hmoved : MovedOff q cur (.performed t c rows
      ⟨.call (.swapCell cur.cell (rows.cells.get cur.cell) target), .ok .swapped⟩ :: h) t
      (cursorAt q cur rows) h := ⟨c, rows, _, target, List.suffix_refl _, rfl, hlt⟩
  -- The buckets behind the cursor now are those behind it before, and the one that it leaves.
  have hsplit : ∀ b, b < cur.bucket q target →
      b < cursorAt q cur rows ∨ b = cursorAt q cur rows := by
    intro b hb
    rw [UInt64.lt_iff_toNat_lt] at hb ⊢
    rw [← UInt64.toNat_inj]
    omega
  refine ⟨?_, ?_, ?_⟩
  · intro b hb
    rcases hsplit b (hcell ▸ hb) with hb | rfl
    · obtain ⟨u, past, ms', looked', hm, hl⟩ := hsw.covered b hb
      exact ⟨u, past, ms', looked', hm.mono hs, hl⟩
    · exact ⟨t, h, ms, looked, hmoved, hlook⟩
  · intro u b past hm
    rw [hcell]
    rcases movedOff_performed hm with ⟨_, _, _, rfl, _⟩ | hm
    · exact hlt
    · exact UInt64.lt_trans (hsw.ahead u b past hm) hlt
  · intro r hr hh hb
    rcases hsplit r.bucket (hcell ▸ hb) with hb | hb
    · exact (hsw.overtaken r hr hh hb).mono hs
    · exact ⟨t, h, hb ▸ hmoved, ms, looked, hb ▸ hlook, hover r hr hb hh⟩

/-- A message is inserted. All looks at its bucket came before. -/
theorem Swept.insert {rows : Rows} {c : Instant} {m : Message} (hsw : Swept q cur holds rows h)
    (first : ¬ Inserted m.index h) :
    Swept q cur holds (rows.insert (q.bucketOf m.index) m) (.performed t c rows
      ⟨.call (.insertMessage (q.bucketOf m.index) m), .ok true⟩ :: h) := by
  have hs := List.suffix_cons (Event.performed t c rows
    ⟨.call (.insertMessage (q.bucketOf m.index) m), .ok true⟩) h
  refine ⟨?_, ?_, ?_⟩
  · intro b hb
    obtain ⟨u, past, ms, looked, hm, hl⟩ := hsw.covered b hb
    exact ⟨u, past, ms, looked, hm.mono hs, hl⟩
  · intro u b past hm
    exact hsw.ahead u b past ((movedOff_performed hm).resolve_left nofun)
  · intro r hr hh hb
    rcases Rows.mem_insert.mp hr with rfl | hr
    · obtain ⟨u, past, ms, looked, hm, hl⟩ := hsw.covered _ hb
      refine ⟨u, past, hm.mono hs, ms, looked, hl, fun hi => first ?_⟩
      obtain ⟨_, _, _, _, hpast, _⟩ := hm
      obtain ⟨_, _, hlooked⟩ := lastLook_event hl
      have hle := (List.suffix_cons _ _).trans hlooked
      exact hi.mono (hle.trans ((List.suffix_cons _ _).trans hpast))
    · exact (hsw.overtaken r hr hh hb).mono hs

theorem Swept.skip {rows : Rows} {e : Event} (hsw : Swept q cur holds rows h)
    (he : ∀ t c rows s, e ≠ .performed t c rows s) : Swept q cur holds rows (e :: h) := by
  have hs := List.suffix_cons e h
  refine ⟨?_, ?_, ?_⟩
  · intro b hb
    obtain ⟨u, past, ms, looked, hm, hl⟩ := hsw.covered b hb
    exact ⟨u, past, ms, looked, hm.mono hs, hl⟩
  · intro t b past hm
    obtain ⟨c, rows', expected, target, hs', hrest⟩ := hm
    have hs' := (List.suffix_cons_iff.mp hs').resolve_left fun heq =>
      he _ _ _ _ (List.cons.inj heq).1.symm
    exact hsw.ahead t b past ⟨c, rows', expected, target, hs', hrest⟩
  · intro r hr hh hb
    exact (hsw.overtaken r hr hh hb).mono hs

/-- Each swap leaves the cursor in its bucket, or moves it to the next one by a task that overlooked
all rows there that should hold it back. -/
def Steps (q : Queue) (rule : Rule) (cur : Cursor) (holds : Message → Prop) : Prop :=
  ∀ v t r target, Reachable q rule v → .started t r ∈ v.history →
    Permitted q r (seenBy t v.history)
      (.call (.swapCell cur.cell (v.rows.cells.get cur.cell) target)) →
    cur.bucket q target = cursorAt q cur v.rows ∨
      ((cur.bucket q target).toNat = (cursorAt q cur v.rows).toNat + 1 ∧
        ∃ ms looked, lastLook t (cursorAt q cur v.rows) v.history = some (ms, looked) ∧
          ∀ row ∈ v.rows.messages, row.bucket = cursorAt q cur v.rows → holds row.message →
            ¬ Inserted row.message.index looked)

theorem Reachable.swept (h : Reachable q rule w) (hrule : ∀ w a, rule w a → Undropped w a)
    (hzero : cursorAt q cur {} = 0) (hsteps : Steps q rule cur holds)
    (hback : ∀ m n, Message.Became m n → holds n → holds m) :
    Swept q cur holds w.rows w.history := by
  refine h.course (P := Swept q cur holds) hrule ?_ ?_ ?_ ?_
  · refine ⟨?_, ?_, fun r hr => absurd hr List.not_mem_nil⟩
    · intro b hb
      rw [hzero] at hb
      exact absurd hb UInt64.not_lt_zero
    · rintro t b past ⟨_, _, _, _, hs, _⟩
      exact absurd (List.suffix_nil.mp hs) (List.cons_ne_nil _ _)
  · exact fun rows past t r hsw => hsw.skip fun _ _ _ _ he => nomatch he
  · exact fun rows past t result hsw => hsw.skip fun _ _ _ _ he => nomatch he
  · intro v t r s rows hv hstarted hp hturn hsw
    have same : ∀ r' ∈ v.rows.messages, holds r'.message → ∃ r ∈ v.rows.messages,
        holds r.message ∧ r.bucket = r'.bucket ∧ r.message.index = r'.message.index :=
      fun r' hr' hh => ⟨r', hr', hh, rfl, rfl⟩
    cases hturn with
    | leaves hs =>
      refine hsw.other rfl (fun expected target he => ?_) same
      rw [he] at hs
      cases hs
    | records _ => exact hsw.other rfl nofun same
    | deletes =>
      exact hsw.other rfl nofun fun r' hr' => same r' (Rows.mem_removeBucket.mp hr').1
    | @swaps cell target =>
      by_cases hcell : cell = cur.cell
      · subst hcell
        rcases hsteps v t r target hv hstarted hp with hstays | ⟨hto, ms, looked, hlook, hover⟩
        · refine hsw.other ?_ (fun expected target' he => ?_) same
          · rw [cursorAt_set, if_pos rfl, hstays]
          · cases he
            exact hstays
        · exact hsw.move hto hlook hover
      · refine hsw.other ?_ (fun expected target' he => ?_) same
        · rw [cursorAt_set, if_neg hcell]
        · cases he
          exact absurd rfl hcell
    | @replaces next old cond hrep =>
      -- What is written holds the cursor back only if what it replaces did.
      refine hsw.other rfl nofun fun r' hr' hh => ?_
      rcases Rows.mem_replace.mp hr' with ⟨_, _, _, rfl⟩ | ⟨hr', _⟩
      · exact ⟨_, hrep.stored, hback _ _ hrep.updates.became hh, rfl,
          hrep.updates.became.index.symm⟩
      · exact same r' hr' hh
    | inserts first => exact hsw.insert first

/-- A row that should hold the cursor back is behind it exactly if it was overtaken. -/
theorem Swept.behind_iff {rows : Rows} {r : Row} (hsw : Swept q cur holds rows h)
    (hr : r ∈ rows.messages) (hh : holds r.message) :
    r.bucket < cursorAt q cur rows ↔ Overtaken q cur h r := by
  refine ⟨hsw.overtaken r hr hh, ?_⟩
  rintro ⟨t, past, hm, _⟩
  exact hsw.ahead t _ past hm

end Shared

end LeaseQueue
