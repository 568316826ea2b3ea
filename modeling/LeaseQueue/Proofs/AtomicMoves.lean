import LeaseQueue.Cursor
import LeaseQueue.Proofs.Shared.Company

/-
  Moves of a cursor among other tasks.

  A cursor that was never moved stands at its initial position although there is no
  cell. So `moveIf` may make two swaps, one that expects the position and one that
  expects no cell, and between them others may create the cell, move it, and drop it.

    1. Whatever it is answered, a mover makes the second swap only if it was told that
       there is no cell and expects the initial position, and what it is told in the
       end is what its last swap was answered (`moveIf_callsOnly`).
    2. So of its calls only the last one may have changed the rows
       (`Moves.only_latest`), and that one is an exchange of where the cursor stands
       (`Moves.settled`).
    3. There is one exception, which is no change either: if somebody else creates the
       cell with the initial position between the two swaps, the mover is refused and
       told that the cursor stands where it expects it (`Recreated`).
-/

namespace LeaseQueue

open Shared

namespace Cursor

variable {c : Cursor} {expected desired value : Int64} {held : Option Int64} {rows : Rows}
  {tr : List Seen}

/-! ## A compare-and-swap in one step -/

def standsAt (c : Cursor) (rows : Rows) : Int64 := c.position (rows.cells.get c.cell)

def put (c : Cursor) (value : Int64) (rows : Rows) : Rows :=
  { rows with cells := rows.cells.set c.cell value }

/-- Moves the cursor if it stands at `expected`: the answer, and the rows that are left. -/
def exchange (c : Cursor) (expected desired : Int64) (rows : Rows) : Int64 × Rows :=
  if c.standsAt rows = expected then (desired, c.put desired rows) else (c.standsAt rows, rows)

theorem standsAt_put : c.standsAt (c.put value rows) = value := by
  simp [standsAt, put, Cells.get_set, position]

theorem standsAt_eq_iff : c.standsAt rows = value ↔
    rows.cells.get c.cell = some value ∨ rows.cells.get c.cell = none ∧ value = c.initial := by
  unfold standsAt
  cases rows.cells.get c.cell with
  | none => simp [position, eq_comm]
  | some found => simp [position]

theorem eq_standsAt_of_exchange (h : (value, rows) = c.exchange expected desired rows) :
    value = c.standsAt rows := by
  unfold exchange at h
  split at h
  · obtain ⟨rfl, hrows⟩ := Prod.mk.inj h
    rw [hrows, standsAt_put]
  · exact congrArg Prod.fst h

/-! ## What a mover does whatever it is answered -/

/-- What a mover compares the cell with next, after what it has seen. -/
inductive Tries (c : Cursor) (expected desired : Int64) : List Seen → Option Int64 → Prop where
  | position : Tries c expected desired [] (some expected)
  | absence (h : expected = c.initial) : Tries c expected desired
    [⟨.call (.swapCell c.cell (some expected) desired), .ok (.conflict none)⟩] none

/-- A mover makes the swaps that it has to try. -/
def trying (c : Cursor) (expected desired : Int64) : Guard := fun tr e =>
  ∃ held, Tries c expected desired tr held ∧ e = .call (.swapCell c.cell held desired)

/-- What a mover is told if this is the answer to its last swap. -/
def told (c : Cursor) (desired : Int64) : Except StorageError Swap → Except Fault Int64
  | .ok .swapped => .ok desired
  | .ok (.conflict found) => .ok (c.position found)
  | .error e => .error (.storage e)

/-- There is nothing left to try, and the mover is told what its last swap was answered. -/
def settled (c : Cursor) (expected desired : Int64) : Post (Except Fault Int64) := fun tr r =>
  (∀ held, ¬Tries c expected desired tr held) ∧ ∃ held answer past,
    tr = ⟨.call (.swapCell c.cell held desired), answer⟩ :: past ∧ r = c.told desired answer

theorem Tries.standsAt_eq (h : Tries c expected desired tr held)
    (hget : rows.cells.get c.cell = held) : c.standsAt rows = expected := by
  cases h with
  | position => exact standsAt_eq_iff.mpr (.inl hget)
  | absence he => exact standsAt_eq_iff.mpr (.inr ⟨hget, he⟩)

theorem moveIf_callsOnly : (c.moveIf expected desired).run.CallsOnly (c.trying expected desired)
    (c.settled expected desired) [] := by
  refine ⟨⟨_, .position, rfl⟩, fun answer => ?_⟩
  match answer with
  | .error e => exact ⟨nofun, _, _, _, rfl, rfl⟩
  | .ok .swapped => exact ⟨nofun, _, _, _, rfl, rfl⟩
  | .ok (.conflict (some found)) => exact ⟨nofun, _, _, _, rfl, rfl⟩
  | .ok (.conflict none) =>
    refine .ite (fun he => ⟨⟨none, .absence he, rfl⟩, fun answer => ?_⟩) fun hne => ?_
    · match answer with
      | .error e => exact ⟨nofun, _, _, _, rfl, rfl⟩
      | .ok .swapped => exact ⟨nofun, _, _, _, rfl, rfl⟩
      | .ok (.conflict found) => exact ⟨nofun, _, _, _, rfl, rfl⟩
    · refine ⟨?_, _, _, _, rfl, rfl⟩
      rintro _ ⟨⟩
      contradiction

end Cursor

namespace Shared

variable {c : Cursor} {expected desired v : Int64} {held : Option Int64}
  {r : Except Fault Int64} {w : Company (Except Fault Int64)} {s : Encounter}
  {earlier : List Encounter} {start : Rows}

/-! ## What the swaps of a mover come to -/

theorem Encounter.swap_cases (h : s.call = .swapCell c.cell held desired) :
    (s.before.cells.get c.cell = held ∧ s.after = c.put desired s.before ∧
        s.seen = ⟨.call (.swapCell c.cell held desired), .ok .swapped⟩) ∨
      (s.before.cells.get c.cell ≠ held ∧ s.after = s.before ∧ s.seen =
        ⟨.call (.swapCell c.cell held desired), .ok (.conflict (s.before.cells.get c.cell))⟩) ∨
      ∃ e, s.failure = some e ∧ s.after = s.before ∧
        s.seen = ⟨.call (.swapCell c.cell held desired), .error e⟩ := by
  obtain ⟨own, before, call, failure⟩ := s
  subst h
  cases failure with
  | some e => exact .inr (.inr ⟨e, rfl, rfl, rfl⟩)
  | none =>
    by_cases hheld : before.cells.get c.cell = held
    · refine .inl ⟨hheld, ?_⟩
      simp [Encounter.after, Encounter.seen, Encounter.answer, Rows.apply, hheld, Cursor.put]
    · refine .inr (.inl ⟨hheld, ?_⟩)
      simp [Encounter.after, Encounter.seen, Encounter.answer, Rows.apply, hheld]

theorem Encounter.call_of_seen {call : Call} {answer : Except StorageError call.Answer}
    (h : s.seen = ⟨.call call, answer⟩) : s.call = call :=
  Effect.call.inj (congrArg Seen.effect h)

/-- A mover that has something left to try has made no call yet, or one that met no cell. -/
theorem tries_after (h : c.Tries expected desired (earlier.map Encounter.seen) held) :
    (earlier = [] ∧ held = some expected) ∨ ∃ s, earlier = [s] ∧ s.after = s.before ∧
      s.before.cells.get c.cell = none ∧ expected = c.initial ∧ held = none := by
  generalize htr : earlier.map Encounter.seen = tr at h
  cases h with
  | position => exact .inl ⟨List.map_eq_nil_iff.mp htr, rfl⟩
  | absence he =>
    obtain ⟨s, rfl, hseen⟩ := List.map_eq_singleton_iff.mp htr
    refine .inr ⟨s, rfl, ?_⟩
    rcases Encounter.swap_cases (Encounter.call_of_seen hseen) with
      ⟨_, _, hs⟩ | ⟨_, hafter, hs⟩ | ⟨e, _, _, hs⟩
    · cases hs.symm.trans hseen
    · have hfound := hs.symm.trans hseen
      exact ⟨hafter, by simpa using hfound, he, rfl⟩
    · cases hs.symm.trans hseen

/-! ## A mover in company -/

/-- The program in the company is a mover. -/
abbrev Moves (c : Cursor) (expected desired : Int64) (w : Company (Except Fault Int64)) : Prop :=
  w.Abides (c.trying expected desired) (c.settled expected desired)

/-- Between the two calls of the mover somebody else put the initial position into the cursor's
cell, which did not hold it. -/
def Recreated (c : Cursor) (w : Company (Except Fault Int64)) : Prop :=
  ∃ later second between first past, w.calls = later ++ second :: (between ++ first :: past) ∧
    w.own = [second, first] ∧ ∃ s ∈ between, s.own = false ∧
      s.before.cells.get c.cell ≠ some c.initial ∧ s.after.cells.get c.cell = some c.initial

theorem Moves.latest (h : Moves c expected desired w) (hown : w.own = s :: earlier) :
    ∃ held, c.Tries expected desired (earlier.map Encounter.seen) held ∧
      s.call = .swapCell c.cell held desired := by
  obtain ⟨held, htries, hcall⟩ := h.asked s earlier (hown ▸ List.suffix_refl _)
  exact ⟨held, htries, Effect.call.inj hcall⟩

/-- There is at most one call before the latest one, and it has changed nothing. -/
theorem Moves.only_latest (h : Moves c expected desired w) (hown : w.own = s :: earlier) :
    earlier.length ≤ 1 ∧ ∀ o ∈ earlier, o.after = o.before := by
  obtain ⟨held, htries, _⟩ := h.latest hown
  rcases tries_after htries with ⟨rfl, _⟩ | ⟨o, rfl, hsame, _⟩
  · exact ⟨Nat.zero_le _, fun _ ho => absurd ho List.not_mem_nil⟩
  · exact ⟨Nat.le_refl _, fun _ ho => List.mem_singleton.mp ho ▸ hsame⟩

/-- The latest call of a mover that is done is an exchange, or it was refused by a cell that has
come to hold the initial position, or it failed. -/
theorem Moves.settled (h : Moves c expected desired w) (hr : w.rest = .done r) :
    ∃ s earlier, w.own = s :: earlier ∧
      ((∃ v, r = .ok v ∧ ((v, s.after) = c.exchange expected desired s.before ∨
          expected = c.initial ∧ v = expected ∧ s.after = s.before ∧
            s.before.cells.get c.cell = some c.initial ∧
            ∃ o, earlier = [o] ∧ o.after.cells.get c.cell = none)) ∨
        ∃ e, s.failure = some e ∧ r = .error (.storage e)) := by
  have hrest := h.rest
  rw [hr] at hrest
  obtain ⟨hnone, held', answer, past, hseen, rfl⟩ := hrest
  obtain ⟨s, earlier, hown, hs, rfl⟩ := List.map_eq_cons_iff.mp hseen
  refine ⟨s, earlier, hown, ?_⟩
  obtain ⟨held, htries, hcall⟩ := h.latest hown
  rcases Encounter.swap_cases hcall with
    ⟨hget, hafter, hs'⟩ | ⟨hget, hafter, hs'⟩ | ⟨e, he, hafter, hs'⟩ <;> cases hs.symm.trans hs'
  · have hat := htries.standsAt_eq hget
    exact .inl ⟨desired, rfl, .inl (by rw [Cursor.exchange, if_pos hat, hafter])⟩
  · refine .inl ⟨c.standsAt s.before, rfl, ?_⟩
    by_cases hat : c.standsAt s.before = expected
    · refine .inr ?_
      rcases tries_after htries, Cursor.standsAt_eq_iff.mp hat with
        ⟨⟨rfl, rfl⟩ | ⟨o, rfl, hsame, hgone, he, rfl⟩, hcell | ⟨hcell, hinitial⟩⟩
      · exact absurd hcell hget
      · -- A first swap that met no cell would have been followed by another one.
        rw [hseen, hcell] at hnone
        exact absurd (.absence hinitial) (hnone none)
      · exact ⟨he, hat, hafter, he ▸ hcell, o, rfl, hsame ▸ hgone⟩
      · exact absurd hcell hget
    · exact .inl (by rw [Cursor.exchange, if_neg hat, hafter])
  · exact .inr ⟨e, he, rfl⟩

theorem Moves.length_own_le (h : Moves c expected desired w) : w.own.length ≤ 2 := by
  cases hown : w.own with
  | nil => exact Nat.zero_le _
  | cons s earlier => exact Nat.succ_le_succ (h.only_latest hown).1

theorem Moves.changes_once (h : Moves c expected desired w) :
    (w.own.filter fun s => s.after ≠ s.before).length ≤ 1 := by
  cases hown : w.own with
  | nil => exact Nat.zero_le _
  | cons s earlier =>
    have hsame : earlier.filter (fun s => s.after ≠ s.before) = [] :=
      List.filter_eq_nil_iff.mpr fun o ho => by simp [(h.only_latest hown).2 o ho]
    rw [List.filter_cons, hsame]
    split <;> simp

theorem Moves.changed (h : Moves c expected desired w) (hs : s ∈ w.own)
    (hchanged : s.after ≠ s.before) :
    c.standsAt s.before = expected ∧ s.after = c.put desired s.before ∧
      w.rest = .done (.ok desired) := by
  obtain ⟨last, earlier, hown⟩ := List.exists_cons_of_ne_nil (List.ne_nil_of_mem hs)
  rw [hown] at hs
  rcases List.mem_cons.mp hs with rfl | hs
  · obtain ⟨held, htries, hcall⟩ := h.latest hown
    rcases Encounter.swap_cases hcall with
      ⟨hget, hafter, hseen⟩ | ⟨_, hafter, _⟩ | ⟨_, _, hafter, _⟩
    · refine ⟨htries.standsAt_eq hget, hafter, ?_⟩
      have hrest := h.rest
      rw [Company.seen, hown, List.map_cons, hseen] at hrest
      rcases hrest.done_or_asks with ⟨r, hr, _, held', answer, past, htr, rfl⟩ | ⟨_, _, _, _, ⟨⟩, _⟩
      cases htr
      exact hr
    · exact absurd hafter hchanged
    · exact absurd hafter hchanged
  · exact absurd ((h.only_latest hown).2 s hs) hchanged

/-- If the first call left no cell and the second one meets one with the initial position in it,
somebody else put it there. -/
theorem recreated {o : Encounter} (hlinked : Company.Linked start w.calls w.rows)
    (hown : w.own = [s, o]) (hgone : o.after.cells.get c.cell = none)
    (hat : s.before.cells.get c.cell = some c.initial) : Recreated c w := by
  obtain ⟨later, rest, hcalls, _, _, hrest⟩ := List.filter_eq_cons_iff.mp hown
  obtain ⟨between, past, rfl, hbetween, _⟩ := List.filter_eq_cons_iff.mp hrest
  have hmet := hcalls ▸ hlinked
  obtain ⟨other, hother, hbefore, hafter⟩ :=
    hmet.met.brought (P := fun rows => rows.cells.get c.cell = some c.initial)
      (by rw [hgone]; exact nofun) hat
  have hnot : other.own = false := Bool.eq_false_iff.mpr (hbetween other hother)
  exact ⟨later, s, between, o, past, hcalls, hown, other, hother, hnot, hbefore, hafter⟩

/-- What a mover is told, and what it leaves, are those of an exchange by its latest call, but for a
cell that was created anew. -/
theorem Moves.exchanged (h : Moves c expected desired w)
    (hlinked : Company.Linked start w.calls w.rows) (hr : w.rest = .done (.ok v)) :
    ∃ s earlier, w.own = s :: earlier ∧ (∀ o ∈ earlier, o.after = o.before) ∧
      ((v, s.after) = c.exchange expected desired s.before ∨
        expected = c.initial ∧ v = expected ∧ s.after = s.before ∧ Recreated c w) := by
  obtain ⟨s, earlier, hown, ⟨_, ⟨⟩, hv⟩ | ⟨_, _, ⟨⟩⟩⟩ := h.settled hr
  refine ⟨s, earlier, hown, (h.only_latest hown).2, ?_⟩
  rcases hv with hv | ⟨he, hv, hsame, hat, o, rfl, hgone⟩
  · exact .inl hv
  · exact .inr ⟨he, hv, hsame, recreated hlinked hown hgone hat⟩

theorem Moves.alone (h : Moves c expected desired w)
    (hlinked : Company.Linked start w.calls w.rows) (hall : ∀ s ∈ w.calls, s.own = true)
    (hr : w.rest = .done (.ok v)) : (v, w.rows) = c.exchange expected desired start := by
  obtain ⟨s, earlier, hown, hsame, hv⟩ := h.exchanged hlinked hr
  have hcalls : w.calls = s :: earlier := (List.filter_eq_self.mpr hall).symm.trans hown
  rcases hv with hv | ⟨_, _, _, _, _, between, _, _, hsplit, _, other, hother, hnot, _⟩
  · rw [hcalls] at hlinked
    obtain ⟨hbefore, hrows⟩ := Company.linked_cons.mp hlinked
    rw [hrows, hv, hbefore.eq_start hsame]
  · rw [hall other (by simp [hsplit, hother])] at hnot
    cases hnot

/-- A move of a cursor in any company. It makes at most two calls, and left to itself it comes to
an end. Its calls change the rows at most once, only while the cursor stands at `expected`, and so
that it stands at `desired`; with that the mover is done and told `desired`. If they change nothing,
it is told where the cursor stood at one of them, or that one failed. The latest call is an exchange
of where the cursor stands, except that it leaves a cell alone which somebody else created with the
initial position in it. With nobody else about, the move is an exchange on the rows that it starts
from. -/
theorem moveIf_atomic {actions : List Company.Action}
    (h : Company.run? actions ⟨start, (c.moveIf expected desired).run, []⟩ = some w) :
    (w.own.length ≤ 2 ∧ ∃ n w', w.run? (List.replicate n (.act none)) = some w' ∧
        ∃ r, w'.rest = .done r) ∧
      (w.own.filter fun s => s.after ≠ s.before).length ≤ 1 ∧
      (∀ s ∈ w.own, s.after ≠ s.before → c.standsAt s.before = expected ∧
        s.after = c.put desired s.before ∧ w.rest = .done (.ok desired)) ∧
      (∀ r, w.rest = .done r → (∀ s ∈ w.own, s.after = s.before) → ∃ s ∈ w.own,
        r = .ok (c.standsAt s.before) ∨ ∃ e, s.failure = some e ∧ r = .error (.storage e)) ∧
      (∀ v, w.rest = .done (.ok v) → ∃ s earlier, w.own = s :: earlier ∧
        (∀ o ∈ earlier, o.after = o.before) ∧ ((v, s.after) = c.exchange expected desired s.before ∨
          expected = c.initial ∧ v = expected ∧ s.after = s.before ∧ Recreated c w)) ∧
      ((∀ s ∈ w.calls, s.own = true) → ∀ v, w.rest = .done (.ok v) →
        (v, w.rows) = c.exchange expected desired start) := by
  have hmoves : Moves c expected desired w := Company.abides_run Cursor.moveIf_callsOnly h
  have hlinked := Company.linked_run h
  refine ⟨⟨hmoves.length_own_le, Company.ends_alone hmoves.rest w.rows w.calls⟩,
    hmoves.changes_once, fun s hs => hmoves.changed hs, fun r hr hsame => ?_,
    fun v hr => hmoves.exchanged hlinked hr, fun hall v hr => hmoves.alone hlinked hall hr⟩
  obtain ⟨s, earlier, hown, hend⟩ := hmoves.settled hr
  have hs : s ∈ w.own := hown ▸ List.mem_cons_self
  refine ⟨s, hs, ?_⟩
  rcases hend with ⟨v, rfl, hv | ⟨he, rfl, _, hat, _⟩⟩ | ⟨e, he, rfl⟩
  · rw [hsame s hs] at hv
    exact .inl (congrArg Except.ok (Cursor.eq_standsAt_of_exchange hv))
  · exact .inl (congrArg Except.ok (Cursor.standsAt_eq_iff.mpr (.inl (he ▸ hat))).symm)
  · exact .inr ⟨e, he, rfl⟩

/-- The cell is created, moved back and dropped between the two swaps of a mover. -/
def dropped : List Company.Action :=
  [.act none, .other (.swapCell .invisibility none 7),
    .other (.swapCell .invisibility (some 7) (-1)), .other .dropQueue, .act none]

/-- The second swap meets no cell again, and moves the cursor. -/
theorem moveIf_atomic_dropped :
    ∃ w s, Company.run? dropped ⟨{}, (Cursor.invisibility.moveIf (-1) 4).run, []⟩ = some w ∧
      s ∈ w.own ∧ s.after ≠ s.before ∧ Cursor.invisibility.standsAt s.before = -1 ∧
      s.after = Cursor.invisibility.put 4 s.before ∧ w.rest = .done (.ok 4) ∧
      (w.own.filter fun s => s.after ≠ s.before).length ≤ 1 := by
  obtain ⟨w, s, hw, hs, hchanged⟩ : ∃ w s,
      Company.run? dropped ⟨{}, (Cursor.invisibility.moveIf (-1) 4).run, []⟩ = some w ∧
      s ∈ w.own ∧ s.after ≠ s.before :=
    ⟨_, _, rfl, List.mem_cons_self, by decide⟩
  obtain ⟨_, honce, hmoved, _⟩ := moveIf_atomic hw
  obtain ⟨hat, hafter, hrest⟩ := hmoved s hs hchanged
  exact ⟨w, s, hw, hs, hchanged, hat, hafter, hrest, honce⟩

/-- The mover is told that the cursor stands where it expects it, and has not moved it. -/
example : ∃ w : Company (Except Fault Int64),
    Company.run? [.act none, .other (.swapCell .invisibility none (-1)), .act none]
      ⟨{}, (Cursor.invisibility.moveIf (-1) 4).run, []⟩ = some w ∧
    w.rest = .done (.ok (-1)) ∧ w.rows.cells.invisibility = some (-1) :=
  ⟨_, rfl, rfl, rfl⟩

end Shared

end LeaseQueue
