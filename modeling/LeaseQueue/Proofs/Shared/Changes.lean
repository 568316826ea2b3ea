import LeaseQueue.Proofs.Shared.Upkeep

/-
  How the rows change in the course of a run.

  `Touch` says what an effect does to the rows it meets. An invariant of the rows
  and the history is proved by `Reachable.changes`, with one case for each effect
  that was permitted.
-/

namespace LeaseQueue.Shared

variable {q : Queue} {rule : Rule} {w : World} {t : Nat} {h past : History}

/-- A write that was applied, other than the first seal of a bucket. -/
def Seen.applied : Seen → Bool
  | ⟨.call (.swapCell _ _ _), .ok .swapped⟩ => true
  | ⟨.call (.insertMessage _ _), .ok true⟩ => true
  | ⟨.call (.updateMessage _ _ _), .ok true⟩ => true
  | ⟨.call (.deleteBucket _), .ok _⟩ => true
  | ⟨.call .dropQueue, .ok _⟩ => true
  | _ => false

/-- What an effect does to the rows it meets. -/
inductive Touch (rows : Rows) : Seen → Rows → Prop where
  | leaves {s : Seen} (h : s.applied = false) : Touch rows s rows
  | swaps {cell : Cell} {desired : Int64} :
    Touch rows ⟨.call (.swapCell cell (rows.cells.get cell) desired), .ok .swapped⟩
      { rows with cells := rows.cells.set cell desired }
  | inserts {b : UInt64} {m : Message} (free : rows.find? b m.index = none) :
    Touch rows ⟨.call (.insertMessage b m), .ok true⟩ (rows.insert b m)
  | replaces {b : UInt64} {m stored : Message} {cond : Condition}
    (found : rows.find? b m.index = some stored) (holds : cond.holds stored = true) :
    Touch rows ⟨.call (.updateMessage b m cond), .ok true⟩ (rows.replace b m)
  | records {b : UInt64} {at_ : Instant} (free : rows.sealedAt? b = none) :
    Touch rows ⟨.call (.insertTombstone b at_), .ok at_⟩ (rows.addSeal b at_)
  | deletes {b : UInt64} : Touch rows ⟨.call (.deleteBucket b), .ok ()⟩ (rows.removeBucket b)
  | drops : Touch rows ⟨.call .dropQueue, .ok ()⟩ {}

theorem touch_of_answered {rows rows' : Rows} {clock : Instant} {s : Seen}
    (h : Answered rows clock s rows') : Touch rows s rows' := by
  match s, h with
  | ⟨.now, _⟩, h => exact h.2 ▸ .leaves rfl
  | ⟨.sleepUntil _, _⟩, h => exact h.2 ▸ .leaves rfl
  | ⟨.send _, _⟩, h => exact h ▸ .leaves rfl
  | ⟨.drawTag, _⟩, h => exact h ▸ .leaves rfl
  | ⟨.tally _, _⟩, h => exact h ▸ .leaves rfl
  | ⟨.call c, .error _⟩, h =>
    have hs : Seen.applied ⟨.call c, .error ‹_›⟩ = false := by cases c <;> rfl
    exact h ▸ .leaves hs
  | ⟨.call (.readCell _), .ok _⟩, h => cases h; exact .leaves rfl
  | ⟨.call (.readMessage _ _), .ok _⟩, h => cases h; exact .leaves rfl
  | ⟨.call (.readBucket _), .ok _⟩, h => cases h; exact .leaves rfl
  | ⟨.call (.readTombstone _), .ok _⟩, h => cases h; exact .leaves rfl
  | ⟨.call (.deleteBucket _), .ok _⟩, h => cases h; exact .deletes
  | ⟨.call .dropQueue, .ok _⟩, h => cases h; exact .drops
  | ⟨.call (.swapCell cell expected desired), .ok _⟩, h =>
    simp only [Answered, Rows.apply] at h
    split at h
    · rename_i he
      cases h
      exact he ▸ .swaps
    · cases h
      exact .leaves rfl
  | ⟨.call (.insertMessage b m), .ok _⟩, h =>
    simp only [Answered, Rows.apply] at h
    split at h
    · cases h
      exact .leaves rfl
    · rename_i hfree
      cases h
      exact .inserts hfree
  | ⟨.call (.updateMessage b m cond), .ok _⟩, h =>
    simp only [Answered, Rows.apply] at h
    split at h
    · cases h
      exact .leaves rfl
    · rename_i stored hfound
      split at h
      · rename_i hholds
        cases h
        exact .replaces hfound hholds
      · cases h
        exact .leaves rfl
  | ⟨.call (.insertTombstone b at_), .ok _⟩, h =>
    simp only [Answered, Rows.apply] at h
    split at h
    · cases h
      exact .leaves rfl
    · rename_i hfree
      cases h
      exact .records hfree

/-- An invariant of the rows and the history: it holds at first, only effects matter to it, and each
effect that was permitted keeps it. -/
theorem Reachable.changes {P : Rows → History → Prop} (h : Reachable q rule w) (fresh : P {} [])
    (started : ∀ rows past t r, P rows past → P rows (.started t r :: past))
    (ended : ∀ rows past t result, P rows past → P rows (.ended t result :: past))
    (performed : ∀ (v : World) (t : Nat) (r : Request) (s : Seen) (rows : Rows),
      Reachable q rule v → .started t r ∈ v.history →
      Permitted q r (seenBy t v.history) s.effect → Touch v.rows s rows →
      P v.rows v.history → P rows (.performed t v.clock v.rows s :: v.history)) :
    P w.rows w.history := by
  induction h with
  | fresh => exact fresh
  | @step w w' a hr ha hs ih =>
    cases move_of_step? hs with
    | starts request => exact started _ _ _ _ ih
    | passes d => exact ih
    | @performs _ t request s k rows ht hans =>
      have hob := hr.task_obeys (requests_keep rule) ht
      exact performed w t request s rows hr hob.1 hob.2.1 (touch_of_answered hans) ih
    | turns ht => exact ih
    | ends ht => exact ended _ _ _ _ ih

end LeaseQueue.Shared
