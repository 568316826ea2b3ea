import LeaseQueue.Proofs.Shared.Lineage

/-
  The course of a run that nobody drops.

  `Turn` lists what an effect does to the rows and on what grounds, with what the
  indices and the lineage of the rows add to it: an insert is the first at its
  index, and an update replaces the very message that its writer had read.
  Invariants of the messages are proved by `Reachable.course`, and a write in a
  history is looked up by `Reachable.inserts` and `Reachable.replaces`.
-/

namespace LeaseQueue.Shared

variable {q : Queue} {w : World} {t : Nat} {past : History}

/-- The update of a task replaced a message by the next one. -/
structure Replaces (q : Queue) (past : History) (rows : Rows) (t : Nat) (r : Request)
    (next : Message) (cond : Condition) (old : Message) : Prop where
  started : .started t r ∈ past
  permitted : Permitted q r (seenBy t past)
    (.call (.updateMessage (q.bucketOf next.index) next cond))
  stored : ⟨q.bucketOf next.index, old⟩ ∈ rows.messages
  found : rows.find? (q.bucketOf next.index) next.index = some old
  holds : cond.holds old = true
  updates : Updates (seenBy t past) old next cond
  /-- It is the message that the task had read at this version. -/
  only : ∀ m, Known (seenBy t past) m → m.index = next.index → m.version = cond.version → m = old

theorem Replaces.version {rows : Rows} {r : Request} {next old : Message} {cond : Condition}
    (h : Replaces q past rows t r next cond old) : old.version = cond.version := by
  have := h.holds
  simp only [Condition.holds, Bool.and_eq_true, decide_eq_true_eq] at this
  exact this.1

theorem Replaces.unacked {rows : Rows} {r : Request} {next old : Message} {cond : Condition}
    (h : Replaces q past rows t r next cond old) (hc : cond.unacked = true) :
    old.acked = false := by
  have := h.holds
  simp only [Condition.holds, hc, Bool.true_and, Bool.and_eq_true, Bool.not_eq_true'] at this
  exact this.2

/-! ## Who updates a message -/

theorem Permitted.hides {r : Request} {tr : List Seen} {b : UInt64} {next : Message}
    {cond : Condition} (h : Permitted q r tr (.call (.updateMessage b next cond)))
    (hc : cond.unacked = true) :
    (∃ limit hide m, r = .receive limit hide ∧ cond.version = m.version ∧ Claims q tr hide m next) ∨
      ∃ receipt blob hide m u, r = .update receipt blob hide ∧ cond.version = m.version ∧
        Authorized q tr receipt m ∧ Clocked tr u ∧ m.revised? blob u hide = some next := by
  cases h with
  | looks h => cases h
  | claims h => exact .inl ⟨_, _, _, rfl, rfl, h⟩
  | revises h ht hn => exact .inr ⟨_, _, _, _, _, rfl, rfl, h, ht, hn⟩
  | retires h => cases hc
  | acks h hn => cases hc
  | settles h => cases hc

theorem Permitted.ack {receipt : Receipt} {tr : List Seen} {b : UInt64} {next : Message}
    {cond : Condition} (h : Permitted q (.ack receipt) tr (.call (.updateMessage b next cond))) :
    ∃ m, cond = ⟨m.version, false⟩ ∧ Authorized q tr receipt m ∧ m.acknowledged? = some next := by
  cases h with
  | looks h => cases h
  | acks h hn => exact ⟨_, rfl, h, hn⟩

theorem Permitted.retire {limit : Nat} {hide : Duration} {tr : List Seen} {b : UInt64}
    {next : Message} {cond : Condition}
    (h : Permitted q (.receive limit hide) tr (.call (.updateMessage b next cond)))
    (hc : cond.unacked = false) : ∃ m, cond.version = m.version ∧ Retires q tr m next := by
  cases h with
  | looks h => cases h
  | claims _ => cases hc
  | retires h => exact ⟨_, rfl, h⟩

/-- What hides a message from the readers is a claim of a reader or an update of a consumer. -/
theorem Replaces.hides {rows : Rows} {r : Request} {next old : Message} {cond : Condition}
    (h : Replaces q past rows t r next cond old) (hc : cond.unacked = true) :
    (∃ limit hide, r = .receive limit hide ∧ Claims q (seenBy t past) hide old next) ∨
      ∃ receipt blob hide u, r = .update receipt blob hide ∧
        Authorized q (seenBy t past) receipt old ∧ Clocked (seenBy t past) u ∧
        old.revised? blob u hide = some next := by
  rcases h.permitted.hides hc with ⟨limit, hide, m, rfl, hv, hm⟩ |
    ⟨receipt, blob, hide, m, u, rfl, hv, hm, hu, hn⟩
  · obtain ⟨_, _, hn⟩ := hm.next
    cases h.only m hm.known (Message.became_of_claimed? hn).index.symm hv.symm
    exact .inl ⟨limit, hide, rfl, hm⟩
  · cases h.only m (.inr ⟨_, _, hm.told⟩) (Message.became_of_revised? hn).index.symm hv.symm
    exact .inr ⟨receipt, blob, hide, u, rfl, hm, hu, hn⟩

theorem Replaces.ack {rows : Rows} {receipt : Receipt} {next old : Message} {cond : Condition}
    (h : Replaces q past rows t (.ack receipt) next cond old) :
    Authorized q (seenBy t past) receipt old ∧ old.acknowledged? = some next ∧
      cond.unacked = false := by
  obtain ⟨m, rfl, hm, hn⟩ := h.permitted.ack
  cases h.only m (.inr ⟨_, _, hm.told⟩) (Message.became_of_acknowledged? hn).index.symm rfl
  exact ⟨hm, hn, rfl⟩

/-- What a reader acknowledges is a message that was handed out often enough. -/
theorem Replaces.retire {rows : Rows} {limit : Nat} {hide : Duration} {next old : Message}
    {cond : Condition} (h : Replaces q past rows t (.receive limit hide) next cond old)
    (hc : cond.unacked = false) : Retires q (seenBy t past) old next := by
  obtain ⟨m, hv, hm⟩ := h.permitted.retire hc
  cases h.only m hm.known (Message.became_of_acknowledged? hm.next).index.symm hv.symm
  exact hm

/-! ## One turn -/

/-- What an effect of a task does to the rows of a run. -/
inductive Turn (q : Queue) (past : History) (rows : Rows) (t : Nat) (r : Request) :
    Seen → Rows → Prop where
  | leaves {s : Seen} (h : s.applied = false) : Turn q past rows t r s rows
  | swaps {cell : Cell} {desired : Int64} :
    Turn q past rows t r ⟨.call (.swapCell cell (rows.cells.get cell) desired), .ok .swapped⟩
      { rows with cells := rows.cells.set cell desired }
  | inserts {m : Message} (first : ¬ Inserted m.index past) :
    Turn q past rows t r ⟨.call (.insertMessage (q.bucketOf m.index) m), .ok true⟩
      (rows.insert (q.bucketOf m.index) m)
  | replaces {next old : Message} {cond : Condition} (h : Replaces q past rows t r next cond old) :
    Turn q past rows t r ⟨.call (.updateMessage (q.bucketOf next.index) next cond), .ok true⟩
      (rows.replace (q.bucketOf next.index) next)
  | records {b : UInt64} {at_ : Instant} (free : rows.sealedAt? b = none) :
    Turn q past rows t r ⟨.call (.insertTombstone b at_), .ok at_⟩ (rows.addSeal b at_)
  | deletes {b : UInt64} :
    Turn q past rows t r ⟨.call (.deleteBucket b), .ok ()⟩ (rows.removeBucket b)

theorem Reachable.turn {r : Request} {s : Seen} {rows : Rows} (h : Reachable q Undropped w)
    (hstarted : .started t r ∈ w.history) (hp : Permitted q r (seenBy t w.history) s.effect)
    (ht : Touch w.rows s rows) : Turn q w.history w.rows t r s rows := by
  cases ht with
  | leaves hs => exact .leaves hs
  | swaps => exact .swaps
  | records free => exact .records free
  | deletes => exact .deletes
  | drops => exact absurd (hp.drop ▸ hstarted) h.undropped
  | @inserts b m free =>
    obtain ⟨rfl, _, _, hins⟩ := hp.insert
    exact .inserts (h.indexed.held t _ hins.hand).2
  | @replaces b next old cond found holds =>
    obtain ⟨m, hb, hu⟩ := hp.update
    rw [← hu.became.index] at hb
    subst hb
    obtain ⟨hstored, hi⟩ := Rows.find?_eq_some found
    have hv : old.version = cond.version := by
      simp only [Condition.holds, Bool.and_eq_true, decide_eq_true_eq] at holds
      exact holds.1
    have only : ∀ m, Known (seenBy t w.history) m → m.index = next.index →
        m.version = cond.version → m = old := fun m hm hmi hmv =>
      (h.eq_of_known h.traced hm hstored (hi.trans hmi.symm) (hv.trans hmv.symm)).symm
    cases only m hu.known hu.became.index.symm hu.version.symm
    exact .replaces ⟨hstarted, hp, hstored, found, holds, hu, only⟩

/-- An invariant of the rows and the history of a run that nobody drops. -/
theorem Reachable.course {rule : Rule} {P : Rows → History → Prop} (h : Reachable q rule w)
    (hrule : ∀ w a, rule w a → Undropped w a) (fresh : P {} [])
    (started : ∀ rows past t r, P rows past → P rows (.started t r :: past))
    (ended : ∀ rows past t result, P rows past → P rows (.ended t result :: past))
    (performed : ∀ (v : World) (t : Nat) (r : Request) (s : Seen) (rows : Rows),
      Reachable q rule v → .started t r ∈ v.history →
      Permitted q r (seenBy t v.history) s.effect → Turn q v.history v.rows t r s rows →
      P v.rows v.history → P rows (.performed t v.clock v.rows s :: v.history)) :
    P w.rows w.history :=
  h.changes fresh started ended fun v t r s rows hv hstarted hp htouch =>
    performed v t r s rows hv hstarted hp ((hv.mono hrule).turn hstarted hp htouch)

section
variable {rule : Rule} {c : Instant} {rows : Rows}

theorem Reachable.turn_at (h : Reachable q rule w) (hrule : ∀ w a, rule w a → Undropped w a)
    {s : Seen} (hs : .performed t c rows s :: past <:+ w.history) :
    ∃ v r rows', Reachable q rule v ∧ v.history = past ∧ v.rows = rows ∧ v.clock = c ∧
      .started t r ∈ past ∧ Permitted q r (seenBy t past) s.effect ∧
      Turn q past rows t r s rows' := by
  obtain ⟨v, r, k, rows', hv, rfl, rfl, rfl, ht, hans, _⟩ := h.at_effect hs
  obtain ⟨hstarted, hp, _⟩ := hv.task_obeys (requests_keep _) ht
  exact ⟨v, r, rows', hv, rfl, rfl, rfl, hstarted, hp,
    (hv.mono hrule).turn hstarted hp (touch_of_answered hans)⟩

theorem Reachable.inserts (h : Reachable q Undropped w) {b : UInt64} {m : Message}
    (hs : .performed t c rows ⟨.call (.insertMessage b m), .ok true⟩ :: past <:+ w.history) :
    b = q.bucketOf m.index ∧ ¬ Inserted m.index past := by
  obtain ⟨v, r, rows', _, rfl, rfl, rfl, _, _, hturn⟩ := h.turn_at (fun _ _ => id) hs
  cases hturn with
  | leaves h => cases h
  | inserts first => exact ⟨rfl, first⟩

/-- An applied update, and the world that it was applied to. -/
theorem Reachable.replaces (h : Reachable q rule w) (hrule : ∀ w a, rule w a → Undropped w a)
    {b : UInt64} {next : Message} {cond : Condition}
    (hs : .performed t c rows ⟨.call (.updateMessage b next cond), .ok true⟩ :: past <:+
      w.history) :
    ∃ v r old, Reachable q rule v ∧ v.history = past ∧ v.rows = rows ∧ v.clock = c ∧
      b = q.bucketOf next.index ∧ Replaces q past rows t r next cond old := by
  obtain ⟨v, r, rows', hv, rfl, rfl, rfl, _, _, hturn⟩ := h.turn_at hrule hs
  cases hturn with
  | leaves h => cases h
  | replaces hr => exact ⟨v, r, _, hv, rfl, rfl, rfl, rfl, hr⟩

end

end LeaseQueue.Shared
