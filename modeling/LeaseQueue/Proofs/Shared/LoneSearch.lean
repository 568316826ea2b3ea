import LeaseQueue.Proofs.Shared.Undisturbed

/-
  A search that is left alone, when all that is unacknowledged can be claimed.

  Each phase either claims a message, or it has gone through all the buckets that
  it may pass, or it has left nothing for itself to find. The first phase starts
  at the lowest bucket that holds an unacknowledged message or before it, so what
  it claims lies there (`resurrectFrom_solo`). The second phase overtakes nothing
  that is unacknowledged, so what it claims lies in the lowest bucket among those
  that the reader bucket has not left behind (`forward_solo`).
-/

namespace LeaseQueue

namespace Queue

variable {q : Queue} {b index : UInt64}

/-- The bucket after one that an index is past has a start that the index has reached. -/
theorem exists_start (h : b < q.bucketOf index) :
    ∃ next start, wordSucc? b = some next ∧ q.bucketStart? next = some start ∧
      next.toNat = b.toNat + 1 ∧ start ≤ index := by
  rw [UInt64.lt_iff_toNat_lt, bucketOf_toNat, Nat.lt_iff_add_one_le,
    Nat.le_div_iff_mul_le q.bucketSize_pos] at h
  have hmul : b.toNat + 1 ≤ (b.toNat + 1) * q.bucketSize.toNat :=
    Nat.le_mul_of_pos_right _ q.bucketSize_pos
  have hmax := index.toNat_lt
  have hnext : wordSucc? b = some (b + 1) := if_pos (by simp only [UInt64.size]; omega)
  have hnat := wordSucc?_eq_some hnext
  have hstart : q.bucketStart? (b + 1) = some ((b + 1) * q.bucketSize) :=
    if_pos (by rw [hnat]; simp only [UInt64.size]; omega)
  refine ⟨_, _, hnext, hstart, hnat, UInt64.le_iff_toNat_le.mpr ?_⟩
  rw [wordMul?_eq_some hstart, hnat]
  exact h

end Queue

namespace Shared

variable {q : Queue} {w : World} {rows₀ rows : Rows} {c₀ c : Instant} {row : Row}
  {limit passed : Nat}
  {hide : Duration} {position : Int64} {F : Row → Prop}

/-- The row is unacknowledged, and no lower bucket holds an unacknowledged one. -/
structure Foremost (rows : Rows) (row : Row) : Prop where
  stored : row ∈ rows.messages
  unacked : row.message.acked = false
  least : ∀ other ∈ rows.messages, other.message.acked = false → row.bucket ≤ other.bucket

/-- Rows in which all that is unacknowledged is visible at the instant and after it. Full buckets
are before the head. -/
structure Ripe (q : Queue) (rows : Rows) (c : Instant) : Prop extends Tidy q rows where
  full : ∀ b, (rows.inBucket b).length = q.bucketSize.toNat → b < headOf q rows
  visible : ∀ row ∈ rows.messages, row.message.acked = false → row.message.visibleAt ≤ c

theorem Ripe.fits {i : UInt64} (hr : Ripe q rows c) (hi : i ≤ (nextOf rows).toUInt64) :
    (i.toNat : Int) ≤ Int64.maxValue.toInt := by
  have hnext := toNat_toUInt64_of_nonneg hr.counted
  have hmax := (nextOf rows).toInt_le
  rw [UInt64.le_iff_toNat_le] at hi
  omega

/-- The same messages and the same counter: what a search leaves that has found nothing. -/
structure Alike (rows rows' : Rows) : Prop where
  messages : rows'.messages = rows.messages
  counter : rows'.cells.counter = rows.cells.counter

theorem Alike.inBucket (h : Alike rows₀ rows) (b : UInt64) :
    rows.inBucket b = rows₀.inBucket b := by
  rw [Rows.inBucket, h.messages, Rows.inBucket]

theorem Alike.find? (h : Alike rows₀ rows) (b i : UInt64) : rows.find? b i = rows₀.find? b i := by
  rw [Rows.find?, h.messages, Rows.find?]

theorem Alike.nextOf (h : Alike rows₀ rows) : nextOf rows = nextOf rows₀ := by
  rw [Shared.nextOf, h.counter, Shared.nextOf]

def Takes (F : Row → Prop) (c : Instant) (hide : Duration) (next : Message) : Prop :=
  ∃ row now, F row ∧ c ≤ now ∧ row.message.claimed? now hide = some next

/-- No call fails, and there is no fault unless a message that may be found has no next version. -/
def hunting (F : Row → Prop) : Setting :=
  ⟨false, fun f _ => f = .overflow ∧ ∃ row, F row ∧ wordSucc? row.message.version = none⟩

/-- What may be found among fewer may be found among more. -/
theorem hunting_mono {G : Row → Prop} {α : Type} {x : Op α} {P : Outcome α}
    (hG : ∀ row, F row → G row) (h : x.Solo (hunting F) P rows c) :
    x.Solo (hunting G) P rows c := by
  refine Op.Solo.widen (S := hunting F) rfl (fun f rows hf => ?_) h
  obtain ⟨hover, row, hrow, hv⟩ := hf
  exact ⟨hover, row, hG row hrow, hv⟩

theorem Takes.mono {G : Row → Prop} {next : Message} (hG : ∀ row, F row → G row)
    (h : Takes F c hide next) : Takes G c hide next := by
  obtain ⟨row, now, hrow, hnow, hn⟩ := h
  exact ⟨row, now, hG row hrow, hnow, hn⟩

theorem claimOrRetire_solo {P : Outcome (Option Message)} (hr : Ripe q rows₀ c₀)
    (hmax : q.maxDeliveries = none) (ha : Alike rows₀ rows) (hc : c₀ ≤ c) (hrow : F row)
    (hstored : row ∈ rows₀.messages) (hacked : row.message.acked = false)
    (h : ∀ next t, Takes F c₀ hide next →
      P (some next) (rows.replace (q.bucketOf row.message.index) next) t) :
    (q.claimOrRetire row.message hide).Solo (hunting F) P rows c := by
  have hfound : rows.find? (q.bucketOf row.message.index) row.message.index = some row.message := by
    rw [ha.find?, ← hr.orderly.2 row hstored]
    exact hr.orderly.1.find? hstored
  have hspent : q.exhausted row.message.deliveries = false := by rw [Queue.exhausted, hmax]
  refine .ite (fun he => absurd (hspent ▸ he) Bool.false_ne_true) fun _ => ?_
  refine .andThen (claim_solo (P := fun o rows t => ∃ next, o = some next ∧ P (some next) rows t)
    (.unfailing rfl) hfound hacked (fun next now t hnow hn => ⟨next, rfl, ?_⟩) fun hv => ?_) ?_
  · exact h next t ⟨row, now, hrow, Nat.le_trans hc hnow, hn⟩
  · exact ⟨rfl, row, hrow, hv⟩
  · rintro _ rows t ⟨next, rfl, hP⟩
    exact hP

/-! ## Looking for what was claimed before -/

/-- Nothing that is unacknowledged lies behind the reader bucket. -/
def Ahead (rows : Rows) : Prop :=
  ∀ row ∈ rows.messages, row.message.acked = false → (readerOf rows).toUInt64 ≤ row.bucket

/-- The first phase has found nothing yet, and all before the cursor's bucket is acknowledged. -/
structure Seeking (q : Queue) (rows₀ rows : Rows) (c₀ c : Instant) (position : Int64) : Prop where
  alike : Alike rows₀ rows
  reader : readerOf rows = readerOf rows₀
  later : c₀ ≤ c
  stands : invisibilityOf rows = position
  swept : ∀ row ∈ rows₀.messages, row.message.acked = false →
    q.bucketOfCursor position ≤ row.bucket

theorem Seeking.after {t : Instant} (hs : Seeking q rows₀ rows c₀ c position) (h : c ≤ t) :
    Seeking q rows₀ rows c₀ t position :=
  { hs with later := Nat.le_trans hs.later h }

theorem Seeking.foremost {m : Message} (hs : Seeking q rows₀ rows c₀ c position)
    (hm : ⟨q.bucketOfCursor position, m⟩ ∈ rows₀.messages) (hacked : m.acked = false) :
    Foremost rows₀ ⟨q.bucketOfCursor position, m⟩ :=
  ⟨hm, hacked, hs.swept⟩

/-- How the first phase ends without a message: it has left nothing behind the reader bucket. -/
structure Missed (rows₀ rows : Rows) (c₀ c : Instant) : Prop where
  alike : Alike rows₀ rows
  reader : readerOf rows = readerOf rows₀
  later : c₀ ≤ c
  ahead : Ahead rows₀

theorem Seeking.missed (hs : Seeking q rows₀ rows c₀ c position)
    (h : (readerOf rows₀).toUInt64 ≤ q.bucketOfCursor position) : Missed rows₀ rows c₀ c :=
  ⟨hs.alike, hs.reader, hs.later, fun row hrow hacked =>
    UInt64.le_trans h (hs.swept row hrow hacked)⟩

/-- Moving the cursor does not matter to the second phase. -/
theorem Missed.moved {value : Int64} (h : Missed rows₀ rows c₀ c) :
    Missed rows₀ { rows with cells := rows.cells.set .invisibility value } c₀ c :=
  ⟨⟨h.alike.messages, h.alike.counter⟩, h.reader, h.later, h.ahead⟩

/-- What a look at the message under the cursor comes to. -/
def Glimpsed (q : Queue) (rows₀ : Rows) (c₀ : Instant) (hide : Duration) (position : Int64) :
    Outcome Queue.Glance
  | .claimed m, _, _ => Takes (Foremost rows₀) c₀ hide m
  | .held, rows, c => Missed rows₀ rows c₀ c
  | .past, rows, c => Seeking q rows₀ rows c₀ c position

/-- The reader bucket is not past the head, and not past what was never handed out. -/
structure Awaits (q : Queue) (rows : Rows) : Prop where
  start : 0 ≤ (readerOf rows).toInt
  le_head : (readerOf rows).toUInt64 ≤ headOf q rows
  pending : ∀ row ∈ rows.messages, row.message.pending = true →
    (readerOf rows).toUInt64 ≤ row.bucket

theorem glance_solo (hr : Ripe q rows₀ c₀) (hw : Awaits q rows₀) (hmax : q.maxDeliveries = none)
    (hs : Seeking q rows₀ rows c₀ c position) :
    (q.glance position hide).Solo (hunting (Foremost rows₀)) (Glimpsed q rows₀ c₀ hide position)
      rows c := by
  refine .ite (fun _ => .pure hs) fun hneg => .bind (.call (.unfailing rfl) fun t ht => ?_)
  have hbucket : q.bucketOfCursor position = q.bucketOf position.toUInt64 := if_neg hneg
  rw [← hbucket]
  have hread : (rows.apply (.readMessage (q.bucketOfCursor position) position.toUInt64)).1 =
      rows₀.find? (q.bucketOfCursor position) position.toUInt64 := hs.alike.find? _ _
  rw [hread]
  cases hf : rows₀.find? (q.bucketOfCursor position) position.toUInt64 with
  | none => exact .pure (hs.after ht)
  | some m =>
    have hm := (Rows.find?_eq_some hf).1
    refine .ite (fun _ => .pure (hs.after ht)) fun hacked => ?_
    have unacked : m.acked = false := by simpa using hacked
    refine .ite (fun hdel => .pure ((hs.after ht).missed (hw.pending _ hm ?_))) fun _ => ?_
    · simpa [Message.pending, unacked] using hdel
    refine .bind (.now fun now hnow => .ite (fun hvis => ?_) fun _ => ?_)
    · have hle := hr.visible _ hm unacked
      exact absurd (Nat.le_trans hle (Nat.le_trans hs.later (Nat.le_trans ht hnow)))
        (by simpa [Message.visible] using hvis)
    · have hs' := hs.after (Nat.le_trans ht hnow)
      refine .bind (claimOrRetire_solo hr hmax hs.alike hs'.later (hs.foremost hm unacked)
        hm unacked ?_)
      exact fun next t hfound => .pure hfound

/-- What a scan of the cursor's bucket comes to. -/
def Scanned (q : Queue) (rows₀ : Rows) (c₀ : Instant) (hide : Duration) (position : Int64) :
    Outcome Queue.Scan
  | .claimed m, _, _ => Takes (Foremost rows₀) c₀ hide m
  | .parked, rows, c => Missed rows₀ rows c₀ c
  | .settled, rows, c => Seeking q rows₀ rows c₀ c position ∧
    q.bucketOfCursor position < headOf q rows₀ ∧
    ∀ row ∈ rows₀.messages, row.bucket = q.bucketOfCursor position → row.message.acked = true

theorem settle_solo (hw : Awaits q rows₀) (hs : Seeking q rows₀ rows c₀ c position)
    (hpending : ∀ m ∈ rows₀.inBucket (q.bucketOfCursor position), m.acked = false →
      m.pending = true) :
    (q.settle position (q.bucketOfCursor position)
      (rows₀.inBucket (q.bucketOfCursor position))).Solo (hunting (Foremost rows₀))
      (Scanned q rows₀ c₀ hide position) rows c := by
  unfold Queue.settle
  split
  · rename_i i hfirst
    obtain ⟨m, hm, _⟩ := Option.map_eq_some_iff.mp hfirst
    have hbehind := hw.pending _ (Rows.mem_inBucket.mp (List.mem_of_find?_eq_some hm))
      (List.find?_some hm)
    have hmissed : ∀ t, c ≤ t → Missed rows₀ rows c₀ t := fun t ht => (hs.after ht).missed hbehind
    exact .bind (park_solo (.unfailing rfl) hs.stands (fun t ht => .pure (hmissed t ht))
      fun value t ht => .pure (hmissed t ht).moved)
  · rename_i hfirst
    have hnone := List.find?_eq_none.mp (Option.map_eq_none_iff.mp hfirst)
    have hacked : ∀ m ∈ rows₀.inBucket (q.bucketOfCursor position), m.acked = true := by
      intro m hm
      by_contra hnot
      exact hnone m hm (hpending m hm (by simpa using hnot))
    refine .ite (fun hany => ?_) fun _ => .bind (nextIndex_solo (.unfailing rfl) fun t ht => ?_)
    · obtain ⟨m, hm, hnot⟩ := List.any_eq_true.mp hany
      simp [hacked m hm] at hnot
    · rw [hs.alike.nextOf]
      refine .pure ?_
      split
      · rename_i hle
        exact (hs.after ht).missed (UInt64.le_trans hw.le_head hle)
      · rename_i hlt
        refine ⟨hs.after ht, UInt64.not_le.mp hlt, fun row hrow hbucket => ?_⟩
        exact hacked _ (Rows.mem_inBucket.mpr (hbucket ▸ hrow))

theorem scan_solo (hr : Ripe q rows₀ c₀) (hw : Awaits q rows₀) (hmax : q.maxDeliveries = none)
    (hs : Seeking q rows₀ rows c₀ c position) :
    (q.scan position (q.bucketOfCursor position) hide).Solo (hunting (Foremost rows₀))
      (Scanned q rows₀ c₀ hide position) rows c := by
  refine .bind (.call (.unfailing rfl) fun t ht => .bind (.now fun now hnow => ?_))
  have hs' := hs.after (Nat.le_trans ht hnow)
  have hread : (rows.apply (.readBucket (q.bucketOfCursor position))).1 =
      rows₀.inBucket (q.bucketOfCursor position) := hs.alike.inBucket _
  rw [hread]
  have hvisible : ∀ m ∈ rows₀.inBucket (q.bucketOfCursor position), m.acked = false →
      m.visible now = true := by
    intro m hm hacked
    have hle := hr.visible _ (Rows.mem_inBucket.mp hm) hacked
    exact decide_eq_true (Nat.le_trans hle hs'.later)
  split
  · -- All that was handed out is visible again.
    rename_i i _ hwaiting
    obtain ⟨m, hm, _⟩ := Option.map_eq_some_iff.mp hwaiting
    have hflight := List.find?_some (p := (Message.inFlight · now)) hm
    simp only [Message.inFlight, Bool.and_eq_true, Bool.not_eq_true'] at hflight
    rw [hvisible m (List.mem_of_find?_eq_some hm) hflight.1.1] at hflight
    cases hflight.2
  · rename_i m _ hexpired
    have hm := Rows.mem_inBucket.mp (List.mem_of_find?_eq_some hexpired)
    have hexp := List.find?_some (p := (Message.expired · now)) hexpired
    simp only [Message.expired, Bool.and_eq_true, Bool.not_eq_true'] at hexp
    refine .bind (claimOrRetire_solo hr hmax hs.alike hs'.later (hs.foremost hm hexp.1.1)
      hm hexp.1.1 ?_)
    intro next t hfound
    have hcur : invisibilityOf (rows.replace (q.bucketOf m.index) next) = position := hs.stands
    exact .bind
      (park_solo (.unfailing rfl) hcur (fun _ _ => .pure hfound) fun _ _ _ => .pure hfound)
  · rename_i _ hexpired
    refine settle_solo hw hs' fun m hm hacked => ?_
    have hnot := List.find?_eq_none.mp hexpired m hm
    simpa [Message.expired, Message.pending, hacked, hvisible m hm hacked] using hnot

theorem Seeking.leave {next start : UInt64} {t : Instant} (hs : Seeking q rows₀ rows c₀ c position)
    (hcursor : q.bucketOfCursor start.toInt64 = next)
    (hnat : next.toNat = (q.bucketOfCursor position).toNat + 1)
    (hacked : ∀ row ∈ rows₀.messages, row.bucket = q.bucketOfCursor position →
      row.message.acked = true) (ht : c ≤ t) :
    Seeking q rows₀ { rows with cells := rows.cells.set .invisibility start.toInt64 } c₀ t
      start.toInt64 := by
  refine ⟨⟨hs.alike.messages, hs.alike.counter⟩, hs.reader, Nat.le_trans hs.later ht, rfl, ?_⟩
  intro row hrow hnot
  have hge := hs.swept row hrow hnot
  have hne : row.bucket ≠ q.bucketOfCursor position := fun hb => by
    rw [hacked row hrow hb] at hnot
    cases hnot
  rw [hcursor, UInt64.le_iff_toNat_le, hnat]
  exact UInt64.lt_iff_toNat_lt.mp (UInt64.lt_of_le_of_ne hge hne.symm)

/-- How the first phase ends: without a message it has left nothing behind the reader bucket, or it
has passed as many buckets as it may. -/
def Sought (q : Queue) (rows₀ : Rows) (c₀ : Instant) (hide : Duration) (position : Int64)
    (limit : Nat) : Outcome (Option Message)
  | some m, _, _ => Takes (Foremost rows₀) c₀ hide m
  | none, rows, c => Missed rows₀ rows c₀ c ∨ ∃ stop, Seeking q rows₀ rows c₀ c stop ∧
    (q.bucketOfCursor stop).toNat = (q.bucketOfCursor position).toNat + limit

theorem resurrectFrom_solo (hr : Ripe q rows₀ c₀) (hw : Awaits q rows₀)
    (hmax : q.maxDeliveries = none) (hs : Seeking q rows₀ rows c₀ c position) :
    (q.resurrectFrom hide limit position).Solo (hunting (Foremost rows₀))
      (Sought q rows₀ c₀ hide position limit) rows c := by
  induction limit generalizing rows c position with
  | zero => exact .pure (.inr ⟨position, hs, rfl⟩)
  | succ limit ih =>
    refine .andThen (glance_solo hr hw hmax hs) fun glance rows c hglance => ?_
    cases glance with
    | claimed m => exact .pure hglance
    | held => exact .pure (.inl hglance)
    | past =>
      refine .andThen (scan_solo hr hw hmax hglance) fun scan rows c hscan => ?_
      cases scan with
      | claimed m => exact .pure hscan
      | parked => exact .pure (.inl hscan)
      | settled =>
        obtain ⟨hs, hlt, hacked⟩ := hscan
        obtain ⟨next, start, hnext, hstart, hnat, hle⟩ := Queue.exists_start hlt
        refine .bind (.inRange_some hnext (.bind (.inRange_some hstart (.bind ?_))))
        refine Cursor.moveIf_solo (.unfailing rfl) hs.stands fun t ht => ?_
        have hcursor : q.bucketOfCursor start.toInt64 = next :=
          (Queue.bucketOfCursor_toInt64 (hr.fits hle)).trans (Queue.bucketOf_start hstart)
        refine (ih (hs.leave hcursor hnat hacked ht)).mono fun o rows t ho => ?_
        cases o with
        | some m => exact ho
        | none =>
          refine ho.imp_right fun ⟨stop, hstop, hpassed⟩ => ⟨stop, hstop, ?_⟩
          rw [hpassed, hcursor, hnat]
          omega

theorem resurrect_solo (hr : Ripe q rows c) (hw : Awaits q rows) (hmax : q.maxDeliveries = none)
    (hswept : ∀ row ∈ rows.messages, row.message.acked = false →
      q.bucketOfCursor (invisibilityOf rows) ≤ row.bucket) :
    (q.resurrect limit hide).Solo (hunting (Foremost rows))
      (Sought q rows c hide (invisibilityOf rows) limit) rows c :=
  .bind (Cursor.get_solo (.unfailing rfl) fun _ ht =>
    resurrectFrom_solo hr hw hmax ⟨⟨rfl, rfl⟩, rfl, ht, rfl, hswept⟩)

/-! ## Going forward from the reader bucket -/

/-- The row is unacknowledged and not behind the reader bucket, and of such rows it lies in the
lowest bucket. -/
structure NextUp (rows : Rows) (row : Row) : Prop where
  stored : row ∈ rows.messages
  unacked : row.message.acked = false
  ahead : (readerOf rows).toUInt64 ≤ row.bucket
  least : ∀ other ∈ rows.messages, other.message.acked = false →
    (readerOf rows).toUInt64 ≤ other.bucket → row.bucket ≤ other.bucket

/-- The second phase has found nothing yet: it has moved the reader bucket past the buckets that it
has sealed, and overtaken nothing that is unacknowledged. -/
structure Advancing (q : Queue) (rows₀ rows : Rows) (c₀ c : Instant) (position : Int64)
    (passed : Nat) : Prop where
  alike : Alike rows₀ rows
  later : c₀ ≤ c
  stands : invisibilityOf rows = position
  start : 0 ≤ (readerOf rows).toInt
  le_head : (readerOf rows).toUInt64 ≤ headOf q rows₀
  moved : (readerOf rows).toUInt64.toNat = (readerOf rows₀).toUInt64.toNat + passed
  ahead : ∀ row ∈ rows₀.messages, row.message.acked = false →
    (readerOf rows₀).toUInt64 ≤ row.bucket → (readerOf rows).toUInt64 ≤ row.bucket

theorem Awaits.advancing (hw : Awaits q rows₀) (ha : Alike rows₀ rows)
    (hreader : readerOf rows = readerOf rows₀) (hc : c₀ ≤ c) :
    Advancing q rows₀ rows c₀ c (invisibilityOf rows) 0 where
  alike := ha
  later := hc
  stands := rfl
  start := hreader ▸ hw.start
  le_head := hreader ▸ hw.le_head
  moved := by rw [hreader, Nat.add_zero]
  ahead := fun _ _ _ hle => hreader ▸ hle

theorem Advancing.after {t : Instant} (hs : Advancing q rows₀ rows c₀ c position passed)
    (h : c ≤ t) : Advancing q rows₀ rows c₀ t position passed :=
  { hs with later := Nat.le_trans hs.later h }

theorem Advancing.nextUp {m : Message} (hs : Advancing q rows₀ rows c₀ c position passed)
    (hm : ⟨(readerOf rows).toUInt64, m⟩ ∈ rows₀.messages) (hacked : m.acked = false) :
    NextUp rows₀ ⟨(readerOf rows).toUInt64, m⟩ := by
  refine ⟨hm, hacked, UInt64.le_iff_toNat_le.mpr ?_, hs.ahead⟩
  rw [hs.moved]
  exact Nat.le_add_right _ _

theorem Advancing.exists_next (hs : Advancing q rows₀ rows c₀ c position passed)
    (hr : Ripe q rows₀ c₀) (hlt : (readerOf rows).toUInt64 < headOf q rows₀) :
    ∃ next, cellSucc? (readerOf rows) = some next ∧ 0 ≤ next.toInt ∧
      next.toUInt64.toNat = (readerOf rows).toUInt64.toNat + 1 := by
  have hreader := toNat_toUInt64_of_nonneg hs.start
  have hcounter := toNat_toUInt64_of_nonneg hr.counted
  have hhead : (headOf q rows₀).toNat ≤ (nextOf rows₀).toUInt64.toNat := by
    rw [headOf, Queue.bucketOf_toNat]
    exact Nat.div_le_self _ _
  rw [UInt64.lt_iff_toNat_lt] at hlt
  have hne : readerOf rows ≠ Int64.maxValue := by
    intro hlast
    have hmax := (nextOf rows₀).toInt_le
    rw [hlast] at hreader hlt
    omega
  have hnext : cellSucc? (readerOf rows) = some (readerOf rows + 1) := if_neg hne
  exact ⟨_, hnext, cellSucc?_toNat hnext hs.start⟩

theorem Advancing.leave {next : Int64} {seals : List (UInt64 × Instant)} {t : Instant}
    (hs : Advancing q rows₀ rows c₀ c position passed) (hpos : 0 ≤ next.toInt)
    (hnat : next.toUInt64.toNat = (readerOf rows).toUInt64.toNat + 1)
    (hlt : (readerOf rows).toUInt64 < headOf q rows₀)
    (hbeyond : ∀ row ∈ rows₀.messages, row.message.acked = false →
      (readerOf rows₀).toUInt64 ≤ row.bucket → (readerOf rows).toUInt64 < row.bucket) (ht : c ≤ t) :
    Advancing q rows₀ { rows with cells := rows.cells.set .readerBucket next, seals } c₀ t position
      (passed + 1) := by
  have hstep : ∀ b, (readerOf rows).toUInt64 < b → next.toUInt64 ≤ b := by
    intro b hb
    rw [UInt64.lt_iff_toNat_lt, ← Nat.add_one_le_iff, ← hnat] at hb
    exact UInt64.le_iff_toNat_le.mpr hb
  refine ⟨⟨hs.alike.messages, hs.alike.counter⟩, Nat.le_trans hs.later ht, hs.stands, hpos,
    hstep _ hlt, ?_, fun row hrow hacked hle => hstep _ (hbeyond row hrow hacked hle)⟩
  calc next.toUInt64.toNat
    _ = (readerOf rows).toUInt64.toNat + 1 := hnat
    _ = (readerOf rows₀).toUInt64.toNat + (passed + 1) := by rw [hs.moved, Nat.add_assoc]

/-- How the second phase ends: without a message it has passed as many buckets as it may, or nothing
unacknowledged is left from the reader bucket on. -/
def Gone (q : Queue) (rows₀ : Rows) (c₀ : Instant) (hide : Duration) (position : Int64)
    (limit : Nat) : Outcome (Option Message)
  | some m, _, _ => Takes (NextUp rows₀) c₀ hide m
  | none, rows, c => ∃ passed, Advancing q rows₀ rows c₀ c position passed ∧ (passed = limit ∨
    ∀ row ∈ rows₀.messages, row.message.acked = false → row.bucket < (readerOf rows₀).toUInt64)

theorem forwardPass_solo (hr : Ripe q rows₀ c₀) (hmax : q.maxDeliveries = none)
    (hs : Advancing q rows₀ rows c₀ c position passed) :
    (q.forwardPass limit hide passed).Solo (hunting (NextUp rows₀))
      (soloPass (fun n passed rows c => Advancing q rows₀ rows c₀ c position passed ∧
          n = (headOf q rows₀).toNat - (readerOf rows).toUInt64.toNat)
        ((headOf q rows₀).toNat - (readerOf rows).toUInt64.toNat)
        (Gone q rows₀ c₀ hide position limit)) rows c := by
  refine .andThen (P := fun p rs t => p = readerOf rows ∧ rs = rows ∧ c ≤ t)
    (Cursor.get_solo (.unfailing rfl) fun t ht => ⟨rfl, rfl, ht⟩) ?_
  rintro _ rows t₁ ⟨rfl, rfl, ht₁⟩
  refine .bind (.call (.unfailing rfl) fun t₂ ht₂ => .bind (.now fun now hnow => ?_))
  have hs := hs.after (Nat.le_trans ht₁ (Nat.le_trans ht₂ hnow))
  have hread : (rows.apply (.readBucket (readerOf rows).toUInt64)).1 =
      rows₀.inBucket (readerOf rows).toUInt64 := hs.alike.inBucket _
  rw [hread]
  change Op.Solo _ _ _ rows now
  split
  · rename_i m hfirst
    have hm := Rows.mem_inBucket.mp (List.mem_of_find?_eq_some hfirst)
    have hfree := List.find?_some hfirst
    simp only [Bool.and_eq_true, Bool.not_eq_true'] at hfree
    exact .bind (claimOrRetire_solo hr hmax hs.alike hs.later (hs.nextUp hm hfree.1) hm hfree.1
      fun next t hfound => .pure hfound)
  · -- All that is unacknowledged is visible, so there is none in this bucket.
    rename_i hfirst
    have hnone := List.find?_eq_none.mp (Option.eq_none_iff_forall_ne_some.mpr hfirst)
    have hbeyond : ∀ row ∈ rows₀.messages, row.message.acked = false →
        (readerOf rows₀).toUInt64 ≤ row.bucket → (readerOf rows).toUInt64 < row.bucket := by
      intro row hrow hacked hle
      refine UInt64.lt_of_le_of_ne (hs.ahead row hrow hacked hle) fun hbucket => ?_
      refine hnone row.message (Rows.mem_inBucket.mpr (hbucket ▸ hrow)) ?_
      have hvisible := Nat.le_trans (hr.visible row hrow hacked) hs.later
      simp [hacked, Message.visible, hvisible]
    refine .bind (nextIndex_solo (.unfailing rfl) fun t₃ ht₃ => .ite (fun hopen => .pure ?_)
      fun hclosed => ?_)
    · refine ⟨passed, hs.after ht₃, .inr fun row hrow hacked => UInt64.not_le.mp fun hle => ?_⟩
      simp only [Bool.and_eq_true, decide_eq_true_eq] at hopen
      have hhead := UInt64.le_trans (hr.within row hrow) (hs.alike.nextOf ▸ hopen.2)
      exact absurd (UInt64.lt_of_lt_of_le (hbeyond row hrow hacked hle) hhead) (UInt64.lt_irrefl _)
    · have hlt : (readerOf rows).toUInt64 < headOf q rows₀ := by
        by_cases hfull : (rows₀.inBucket (readerOf rows).toUInt64).length = q.bucketSize.toNat
        · exact hr.full _ hfull
        · rw [hs.alike.nextOf] at hclosed
          exact UInt64.not_le.mp fun hle => hclosed
            (Bool.and_eq_true_iff.mpr ⟨by simpa using hfull, decide_eq_true hle⟩)
      refine .ite (fun hspent => .pure ⟨passed, hs.after ht₃, .inl hspent⟩) fun _ =>
        .bind (sealBucket_solo (.unfailing rfl) ?_)
      intro _ seals t₄ ht₄ _
      obtain ⟨next, hnext, hpos, hnat⟩ := hs.exists_next hr hlt
      have hleave : ∀ t, t₄ ≤ t → Advancing q rows₀
          { rows with cells := rows.cells.set .readerBucket next, seals }
          c₀ t position (passed + 1) :=
        fun t ht => hs.leave hpos hnat hlt hbeyond (Nat.le_trans ht₃ (Nat.le_trans ht₄ ht))
      have hless : (headOf q rows₀).toNat - next.toUInt64.toNat <
          (headOf q rows₀).toNat - (readerOf rows).toUInt64.toNat := by
        rw [UInt64.lt_iff_toNat_lt] at hlt
        omega
      refine .bind (.inRange_some hnext (.bind ?_))
      refine Cursor.moveIf_solo (.unfailing rfl) rfl fun t ht => ?_
      refine .ite (fun _ => .bind (.tally fun t' ht' => .pure ?_)) fun _ => .pure ?_
      · exact ⟨_, hless, hleave t' (Nat.le_trans ht ht'), rfl⟩
      · exact ⟨_, hless, hleave t ht, rfl⟩

theorem forward_solo (hr : Ripe q rows₀ c₀) (hmax : q.maxDeliveries = none)
    (hs : Advancing q rows₀ rows c₀ c position 0) :
    (q.forward limit hide).Solo (hunting (NextUp rows₀)) (Gone q rows₀ c₀ hide position limit)
      rows c := by
  refine .loop (fun n passed rows c => Advancing q rows₀ rows c₀ c position passed ∧
    n = (headOf q rows₀).toNat - (readerOf rows).toUInt64.toNat) ⟨hs, rfl⟩ ?_
  rintro _ passed rows c ⟨hs, rfl⟩
  exact forwardPass_solo hr hmax hs

/-! ## What a reader is told -/

/-- What a search comes to: a claim of what may be found, or nothing and rows of which `N` holds. -/
def Hunted (F : Row → Prop) (c : Instant) (hide : Duration) (N : Rows → Prop) :
    Option Message → Rows → Prop
  | some next, _ => Takes F c hide next
  | none, rows => N rows

/-- What a reader is told of the message that it is to be given: that it has claimed it, or a fault
if there is no version for that. -/
def Gives (row : Row) (c : Instant) (hide : Duration) (result : Result) : Prop :=
  (∃ now next, c ≤ now ∧ row.message.claimed? now hide = some next ∧
    result = .ok (.delivery (some (Delivery.of next)))) ∨
  wordSucc? row.message.version = none ∧ result = .error .overflow

/-- A call that ends as a search does is told that there is nothing, or is given what may be
found. -/
theorem told_of_ends {N : Rows → Prop} {result : Result}
    (hends : (hunting F).ends
      (fun reply rows _ => ∃ o, reply = .delivery (o.map Delivery.of) ∧ Hunted F c hide N o rows)
      result rows c₀) :
    result = .ok (.delivery none) ∧ N rows ∨
      result ≠ .ok (.delivery none) ∧ ∃ row, F row ∧ Gives row c hide result := by
  cases result with
  | error f =>
    obtain ⟨rfl, row, hrow, hv⟩ := hends
    exact .inr ⟨nofun, row, hrow, .inr ⟨hv, rfl⟩⟩
  | ok reply =>
    obtain ⟨o, rfl, ho⟩ := hends
    cases o with
    | none => exact .inl ⟨rfl, ho⟩
    | some next =>
      obtain ⟨row, now, hrow, hnow, hn⟩ := ho
      exact .inr ⟨nofun, row, hrow, .inl ⟨now, next, hnow, hn, rfl⟩⟩

theorem Reachable.ripe (h : Reachable q Undropped w)
    (hvisible : ∀ row ∈ w.rows.messages, row.message.acked = false →
      row.message.visible w.clock = true) : Ripe q w.rows w.clock where
  toTidy := h.tidy
  full := fun _ => h.full_lt_head
  visible := fun row hrow hacked => of_decide_eq_true (hvisible row hrow hacked)

end Shared

end LeaseQueue
