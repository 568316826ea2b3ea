import LeaseQueue.Proofs.Shared.Upkeep

/-
  How a tick waits, and what it writes again.

  A tick that has come to a sealed bucket goes through rounds: it has read the
  bucket, and is to wait until the latest of the end of the grace period and the
  instants at which the messages that it has read pending become visible. It
  sleeps and reads again as long as that instant has not come (`Round`). Once it
  has, the tick writes again what it has last read pending, one message after the
  other (`Ready`). This module says of a tick, whatever it is answered, that

  1. it sleeps only in a round whose instant has not come, and writes only the
     next of these messages again, when all of them are visible (`Waits`);
  2. when it answers, it has written all of them again, or nothing if it answers
     that it was idle (`Waited`);
  3. it fails only if a call has failed, if an insert was refused, or at the end
     of a range (`WaitFaults`).
-/

namespace LeaseQueue.Shared

open Repair (deadlineAfter)

variable {q : Queue} {rule : Rule} {cfg : Repair.Config} {tr tr' before : List Seen} {b : UInt64}
  {ms : List Message} {sealedAt deadline : Instant}

/-! ## What a tick has seen -/

def Seen.stored? : Seen → Option Message
  | ⟨.call (.insertMessage _ m), .ok true⟩ => some m
  | _ => none

def storedBy (tr : List Seen) : List Message := (tr.filterMap Seen.stored?).reverse

def Seen.slept : Seen → Bool
  | ⟨.sleepUntil _, _⟩ => true
  | _ => false

def sleeps (tr : List Seen) : Nat := (tr.filter Seen.slept).length

/-- The tick waits for the sealed bucket: it has last read it as `ms`, after it had seen `before`,
and it does not begin before `due`. -/
inductive Round (cfg : Repair.Config) (b : UInt64) (sealedAt : Instant) :
    List Seen → List Message → List Seen → Instant → Prop where
  | first {before : List Seen} {ms : List Message} (never : Sleepless before)
    (idle : storedBy before = []) :
    Round cfg b sealedAt before ms (⟨.call (.readTombstone b), .ok (some sealedAt)⟩ ::
      ⟨.call (.readBucket b), .ok ms⟩ :: before) (sealedAt + cfg.grace)
  | again {before tr : List Seen} {ms ms' : List Message} {due t : Instant}
    (round : Round cfg b sealedAt before ms tr due) (since : ∀ s ∈ tr, s.instant ≤ t)
    (early : t < deadlineAfter ms due) :
    Round cfg b sealedAt (⟨.sleepUntil (deadlineAfter ms due), ()⟩ :: ⟨.now, t⟩ :: tr) ms'
      (⟨.call (.readBucket b), .ok ms'⟩ :: ⟨.sleepUntil (deadlineAfter ms due), ()⟩ ::
        ⟨.now, t⟩ :: tr) (deadlineAfter ms due)

theorem Round.told (h : Round cfg b sealedAt before ms tr deadline) :
    Told tr (.readTombstone b) (some sealedAt) := by
  induction h with
  | first _ _ => exact List.mem_cons_self
  | again _ _ _ ih =>
    exact List.mem_cons_of_mem _ (List.mem_cons_of_mem _ (List.mem_cons_of_mem _ ih))

theorem Round.read (h : Round cfg b sealedAt before ms tr deadline) :
    lastRead b tr = some (ms, before) := by
  cases h with
  | first _ _ => exact if_pos rfl
  | again _ _ _ => exact if_pos rfl

theorem Round.idle (h : Round cfg b sealedAt before ms tr deadline) : storedBy tr = [] := by
  induction h with
  | first _ idle => exact idle
  | again _ _ _ ih => exact ih

/-- The tick has last read the sealed bucket as `ms`, and at an instant that it has seen since, the
grace period was over and all that is pending among them was visible. -/
structure Ready (cfg : Repair.Config) (b : UInt64) (sealedAt : Instant) (ms : List Message)
    (tr : List Seen) : Prop where
  told : Told tr (.readTombstone b) (some sealedAt)
  read : ∃ before, lastRead b tr = some (ms, before)
  due : ∃ u, Clocked tr u ∧ sealedAt + cfg.grace ≤ u ∧
    ∀ m ∈ ms, m.pending = true → m.visibleAt ≤ u

theorem Ready.steady (h : Ready cfg b sealedAt ms tr) (hs : Steady tr tr') :
    Ready cfg b sealedAt ms tr' := by
  obtain ⟨told, ⟨before, hread⟩, u, clocked, hu⟩ := h
  exact ⟨hs.suffix.subset told, ⟨before, (hs.reads b).trans hread⟩, u, hs.suffix.subset clocked, hu⟩

/-! ## What a tick may ask for -/

/-- What a tick does next, after what it has seen. -/
structure Waits (cfg : Repair.Config) (tr : List Seen) (e : Effect) : Prop where
  sleeps : ∀ wake, e = .sleepUntil wake → ∃ b sealedAt before ms tr' due u, tr = ⟨.now, u⟩ :: tr' ∧
    Round cfg b sealedAt before ms tr' due ∧ (∀ s ∈ tr', s.instant ≤ u) ∧ u < deadlineAfter ms due
  copies : ∀ b' m, e = .call (.insertMessage b' m) → ∃ b sealedAt ms done ghost rest,
    Ready cfg b sealedAt ms tr ∧ ms.filter (·.pending) = done ++ ghost :: rest ∧
    (storedBy tr).map (·.blob) = done.map (·.blob) ∧ m.blob = ghost.blob

/-- How a tick may fail: a call has failed, an insert was refused, or a range has come to its end,
be it that of the indices, of the versions of a message, or of the buckets. -/
def WaitFaults (q : Queue) (tr : List Seen) : Fault → Prop
  | .storage e => ∃ c, tr.head? = some ⟨.call c, .error e⟩
  | .indexCollision i => ∃ m, m.index = i ∧ Told tr (.insertMessage (q.bucketOf i) m) false
  | .overflow => (∃ seen, counterSeen tr = some seen ∧ cellSucc? (counterValue seen) = none) ∨
    (∃ m, Known tr m ∧ m.pending = true ∧ m.acknowledged? = none) ∨
    ∃ b, wordSucc? b = none ∧ ((∃ sealedAt, Told tr (.readTombstone b) (some sealedAt)) ∨
      ∃ ms, Told tr (.readBucket b) ms ∧ ms.length = q.bucketSize.toNat)

/-- What a tick is held to here. -/
def waiting (q : Queue) (cfg : Repair.Config) : Contract where
  asks := Waits cfg
  faults := WaitFaults q
  storage := fun _ c _ _ => ⟨c, rfl⟩

/-- From `tr` to `tr'`, no bucket was read, nobody slept, and nothing was stored. -/
def Still (tr tr' : List Seen) : Prop := Steady tr tr' ∧ storedBy tr' = storedBy tr

theorem Still.refl : Still tr tr := ⟨Steady.refl, rfl⟩

theorem Still.trans {tr'' : List Seen} (h : Still tr tr') (h' : Still tr' tr'') : Still tr tr'' :=
  ⟨h.1.trans h'.1, h'.2.trans h.2⟩

theorem Still.cons {s : Seen} (h : Still tr tr') (hs : Stirs s.effect = false)
    (hn : s.stored? = none) : Still tr (s :: tr') := by
  refine ⟨h.1.cons hs, ?_⟩
  rw [← h.2, storedBy, List.filterMap_cons_none hn]
  rfl

/-! ## The parts of a tick -/

/-- A tick that has not come to a sealed bucket yet. -/
structure Passing (tr : List Seen) : Prop where
  never : Sleepless tr
  idle : storedBy tr = []

theorem Passing.still (h : Passing tr) (hs : Still tr tr') : Passing tr' :=
  ⟨h.never.steady hs.1, hs.2.trans h.idle⟩

end LeaseQueue.Shared
