import LeaseQueue.Proofs.Invisibility
import LeaseQueue.Proofs.Shared.Lasting
import LeaseQueue.Proofs.Shared.LoneSearch

/-
  The scan limit delays a message, but it hides none.

  When all that is unacknowledged can be claimed and a call is told that there is
  nothing, one of its two phases has passed as many buckets as it may: the first
  one, or else the second one, which then had nothing behind it
  (`limited_solo`). No cursor goes back, and none passes the head. So calls that
  miss come to an end (`Delayed`), after at most twice as many as there are
  buckets up to the head.
-/

namespace LeaseQueue.Shared

variable {q : Queue} {w v v' : World} {rows rows' : Rows} {c : Instant} {row : Row} {limit n : Nat}
  {hide : Duration} {result : Result}

/-! ## One call -/

def Unacked (rows : Rows) (row : Row) : Prop := row ∈ rows.messages ∧ row.message.acked = false

/-- The bucket of the invisibility cursor or the reader bucket is by the limit further on. -/
def Moved (q : Queue) (limit : Nat) (rows rows' : Rows) : Prop :=
  ∃ cur, (cur = .invisibility ∨ cur = .readerBucket) ∧
    (cursorAt q cur rows').toNat = (cursorAt q cur rows).toNat + limit

/-- What a call leaves that has missed what is there: the messages as they are, none that was never
handed out behind the reader bucket, and one of the cursors further on. -/
structure Missing (q : Queue) (limit : Nat) (rows rows' : Rows) : Prop where
  alike : Alike rows rows'
  pending : ∀ row ∈ rows.messages, row.message.pending = true →
    (readerOf rows').toUInt64 ≤ row.bucket
  moved : Moved q limit rows rows'

theorem Awaits.advanced {c' : Instant} {position : Int64} {passed : Nat} (hw : Awaits q rows)
    (hs : Advancing q rows rows' c c' position passed) :
    ∀ row ∈ rows.messages, row.message.pending = true → (readerOf rows').toUInt64 ≤ row.bucket := by
  intro row hrow hp
  exact hs.ahead row hrow (Message.unacked_of_pending hp) (hw.pending row hrow hp)

theorem Foremost.is_unacked (h : Foremost rows row) : Unacked rows row := ⟨h.stored, h.unacked⟩

theorem NextUp.is_unacked (h : NextUp rows row) : Unacked rows row := ⟨h.stored, h.unacked⟩

theorem forward_limited {rows₁ : Rows} {t : Instant} {position : Int64} (hr : Ripe q rows c)
    (hw : Awaits q rows) (hmax : q.maxDeliveries = none)
    (hs : Advancing q rows rows₁ c t position 0)
    (hmoved : ∀ rows' t', Gone q rows c hide position limit none rows' t' →
      Moved q limit rows rows') :
    (q.forward limit hide).Solo (hunting (Unacked rows))
      (fun o rows' _ => Hunted (Unacked rows) c hide (Missing q limit rows) o rows') rows₁ t := by
  refine hunting_mono (fun _ => NextUp.is_unacked) ((forward_solo hr hmax hs).mono ?_)
  intro o rows' t' ho
  cases o with
  | some m => exact Takes.mono (fun _ => NextUp.is_unacked) ho
  | none =>
    have hend := hmoved rows' t' ho
    obtain ⟨passed, hs, _⟩ := ho
    exact ⟨hs.alike, hw.advanced hs, hend⟩

/-- Where something is unacknowledged, a call that is left alone claims such a message, or it has
passed as many buckets as it may. -/
theorem limited_solo (hr : Ripe q rows c) (hw : Awaits q rows) (hmax : q.maxDeliveries = none)
    (hswept : ∀ row ∈ rows.messages, row.message.acked = false →
      q.bucketOfCursor (invisibilityOf rows) ≤ row.bucket) (hrow : Unacked rows row) :
    ((Request.receive limit hide).op q).Solo (hunting (Unacked rows))
      (fun reply rows' _ => ∃ o, reply = .delivery (o.map Delivery.of) ∧
        Hunted (Unacked rows) c hide (Missing q limit rows) o rows') rows c := by
  have hfirst : (q.resurrect limit hide).Solo (hunting (Unacked rows))
      (Sought q rows c hide (invisibilityOf rows) limit) rows c :=
    hunting_mono (fun _ => Foremost.is_unacked) (resurrect_solo hr hw hmax hswept)
  refine receive_solo hfirst (fun m _ _ hm => Takes.mono (fun _ => Foremost.is_unacked) hm) ?_
  rintro rows₁ t (hmissed | ⟨stop, hs, hpassed⟩)
  · -- The second phase has all that is unacknowledged before it.
    have hbegin := hw.advancing hmissed.alike hmissed.reader hmissed.later
    refine forward_limited hr hw hmax hbegin ?_
    rintro rows' t' ⟨passed, hs, hend⟩
    rcases hend with rfl | hleft
    · exact ⟨.readerBucket, .inr rfl, hs.moved⟩
    · have hlt := hleft row hrow.1 hrow.2
      exact absurd (hmissed.ahead row hrow.1 hrow.2) (UInt64.not_le.mpr hlt)
  · -- The second phase leaves the invisibility cursor where the first one has left it.
    refine forward_limited hr hw hmax (hw.advancing hs.alike hs.reader hs.later) ?_
    rintro rows' t' ⟨passed, hs', _⟩
    refine ⟨.invisibility, .inl rfl, ?_⟩
    show (q.bucketOfCursor (invisibilityOf rows')).toNat = _
    rw [hs'.stands, hs.stands]
    exact hpassed

/-! ## Calls in a row -/

/-- So many calls in a row are served alone, and each of them is told that there is nothing. -/
inductive Misses (q : Queue) (limit : Nat) (w : World) : Nat → World → Prop where
  | start : Misses q limit w 0 w
  | more {n : Nat} {v v' : World} {hide : Duration} : Misses q limit w n v →
    ServedAlone q v (.receive limit hide) (.ok (.delivery none)) v' → Misses q limit w (n + 1) v'

/-- How far the two cursors of the readers have come. -/
def farOf (q : Queue) (rows : Rows) : Nat :=
  (cursorAt q .invisibility rows).toNat + (cursorAt q .readerBucket rows).toNat

theorem Moved.far (hm : Moved q limit rows rows')
    (hback : ∀ cur, cursorAt q cur rows ≤ cursorAt q cur rows') :
    farOf q rows + limit ≤ farOf q rows' := by
  have hinvisibility := UInt64.le_iff_toNat_le.mp (hback .invisibility)
  have hreader := UInt64.le_iff_toNat_le.mp (hback .readerBucket)
  unfold farOf
  obtain ⟨cur, rfl | rfl, hmoved⟩ := hm
  · omega
  · omega

/-- After some calls that missed, all is as it was, and the cursors are further on. -/
structure Delayed (q : Queue) (limit : Nat) (w : World) (n : Nat) (v : World) : Prop where
  reachable : Reachable q TakingTurns v
  idle : Idle v
  later : w.clock ≤ v.clock
  alike : Alike w.rows v.rows
  pending : ∀ row ∈ w.rows.messages, row.message.pending = true →
    (readerOf v.rows).toUInt64 ≤ row.bucket
  far : farOf q w.rows + n * limit ≤ farOf q v.rows

section
variable (hmax : q.maxDeliveries = none)
  (hvisible : ∀ row ∈ w.rows.messages, row.message.acked = false →
    row.message.visible w.clock = true) (hrow : Unacked w.rows row)
include hmax hvisible hrow

theorem Delayed.solo (hd : Delayed q limit w n v) :
    ((Request.receive limit hide).op q).Solo (hunting (Unacked v.rows))
      (fun reply rows' _ => ∃ o, reply = .delivery (o.map Delivery.of) ∧
        Hunted (Unacked v.rows) v.clock hide (Missing q limit v.rows) o rows') v.rows v.clock := by
  have hundropped := hd.reachable.mono fun _ _ => undropped_of_takingTurns
  have hready : ∀ row ∈ v.rows.messages, row.message.acked = false →
      row.message.visible v.clock = true := by
    intro row hrow hacked
    have hle := of_decide_eq_true (hvisible row (hd.alike.messages ▸ hrow) hacked)
    exact decide_eq_true (Nat.le_trans hle hd.later)
  have hwaits : Awaits q v.rows := ⟨hundropped.reader_le_head.1, hundropped.reader_le_head.2,
    fun row hrow => hd.pending row (hd.alike.messages ▸ hrow)⟩
  have hleft : Unacked v.rows row := ⟨hd.alike.messages.symm ▸ hrow.1, hrow.2⟩
  exact limited_solo (hundropped.ripe hready) hwaits hmax hd.reachable.settled.1.unacked hleft

theorem Delayed.served (hd : Delayed q limit w n v)
    (ha : ServedAlone q v (.receive limit hide) result v') :
    v'.tasks v.started = none ∧
      (result = .ok (.delivery none) ∧ Missing q limit v.rows v'.rows ∨
        result ≠ .ok (.delivery none) ∧ ∃ row, Unacked v.rows row ∧
          Gives row v.clock hide result) := by
  obtain ⟨actions, hown, hrun, hend⟩ := ha
  have htask := hd.reachable.served (hd.solo hmax hvisible hrow)
    (fun a hmem => .inl (hown a hmem)) hrun
  obtain ⟨hgone, c, hres⟩ := htask.ended _ hend
  exact ⟨hgone, told_of_ends hres⟩

theorem Delayed.more (hd : Delayed q limit w n v)
    (ha : ServedAlone q v (.receive limit hide) (.ok (.delivery none)) v') :
    Delayed q limit w (n + 1) v' := by
  obtain ⟨hgone, hres⟩ := hd.served hmax hvisible hrow ha
  obtain ⟨_, hmissing⟩ := hres.resolve_right fun hfound => hfound.1 rfl
  obtain ⟨actions, hown, hrun, _⟩ := ha
  obtain ⟨u, hu, hrest⟩ := Option.bind_eq_some_iff.mp hrun
  obtain ⟨hclock, hothers⟩ := own_run hown hrest
  have hturn : TakingTurns v (.start (.receive limit hide)) := by
    rintro _ ⟨⟩
    refine ⟨nofun, fun t r ⟨rest, ht⟩ => ?_⟩
    rw [hd.idle t] at ht
    cases ht
  -- One cursor was moved on by the limit, and the other one has not gone back meanwhile.
  have hback : ∀ cur, cursorAt q cur v.rows ≤ cursorAt q cur v'.rows := by
    intro cur
    have hdrop : Action.start .drop ∉ .start (.receive limit hide) :: actions := by
      rintro (_ | ⟨_, hmem⟩)
      exact (hown _ hmem).elim
    exact (lasting_cursor cur _).run hdrop (hd.reachable.mono fun _ _ => undropped_of_takingTurns)
      hrun (UInt64.le_refl _)
  have hfar := hd.far
  have hmoved := hmissing.moved.far hback
  cases hu
  refine ⟨?_, fun t => ?_, Nat.le_trans hd.later hclock, ?_, ?_, ?_⟩
  · exact .run (fun a hmem _ r hr => absurd hr ((hown a hmem).not_start r))
      (hd.reachable.step hturn rfl) hrest
  · by_cases ht : t = v.started
    · exact ht ▸ hgone
    · rw [hothers t ht]
      exact (Function.update_of_ne ht _ _).trans (hd.idle t)
  · exact ⟨hmissing.alike.messages.trans hd.alike.messages,
      hmissing.alike.counter.trans hd.alike.counter⟩
  · exact fun row hrow => hmissing.pending row (hd.alike.messages.symm ▸ hrow)
  · rw [Nat.succ_mul]
    omega

theorem Misses.delayed (hm : Misses q limit w n v) (h : Reachable q TakingTurns w) (hidle : Idle w)
    (hpending : ∀ row ∈ w.rows.messages, row.message.pending = true →
      (readerOf w.rows).toUInt64 ≤ row.bucket) : Delayed q limit w n v := by
  induction hm with
  | start =>
    refine ⟨h, hidle, Nat.le_refl _, ⟨rfl, rfl⟩, hpending, ?_⟩
    rw [Nat.zero_mul]
    exact Nat.le_refl _
  | more _ ha ih => exact ih.more hmax hvisible hrow ha

end

/-- No cursor passes the head, so calls in a row miss only so often. -/
theorem Delayed.bound (hd : Delayed q limit w n v) : n * limit ≤ 2 * (headOf q w.rows).toNat := by
  have hundropped := hd.reachable.mono fun _ _ => undropped_of_takingTurns
  have hhead : headOf q v.rows = headOf q w.rows := by rw [headOf, hd.alike.nextOf, headOf]
  have hinvisibility := hundropped.cursor_le_head .invisibility
  have hreader := hundropped.cursor_le_head .readerBucket
  rw [hhead, UInt64.le_iff_toNat_le] at hinvisibility hreader
  have hfar := hd.far
  unfold farOf at hfar
  omega

/-! ## Every row of calls -/

/-- A row of calls that miss goes on, or one of its calls is given a message. -/
theorem exists_misses (hnext : ∀ n v, Misses q limit w n v → ∃ result v',
      ServedAlone q v (.receive limit hide) result v' ∧ (result ≠ .ok (.delivery none) →
        ∃ row, Unacked w.rows row ∧ Gives row v.clock hide result)) (n : Nat) :
    (∃ v, Misses q limit w n v) ∨ ∃ m v result v' row, m < n ∧ Misses q limit w m v ∧
      ServedAlone q v (.receive limit hide) result v' ∧ Unacked w.rows row ∧
      Gives row v.clock hide result := by
  induction n with
  | zero => exact .inl ⟨w, .start⟩
  | succ n ih =>
    rcases ih with ⟨v, hm⟩ | ⟨m, v, result, v', row, hlt, hfound⟩
    · obtain ⟨result, v', ha, hgives⟩ := hnext n v hm
      by_cases hnone : result = .ok (.delivery none)
      · subst hnone
        exact .inl ⟨v', hm.more ha⟩
      · obtain ⟨row, hrow, hgives⟩ := hgives hnone
        exact .inr ⟨n, v, result, v', row, Nat.lt_succ_self n, hm, ha, hrow, hgives⟩
    · exact .inr ⟨m, v, result, v', row, Nat.lt_succ_of_lt hlt, hfound⟩

/-- The scan limit delays a message, but it hides none. Let all that is unacknowledged be visible,
nothing that was never handed out lie behind the reader bucket, and some message be unacknowledged.
After any calls in a row that are told that there is nothing, each further call that is told so has
moved the bucket of the invisibility cursor or the reader bucket on by the scan limit, and any other
call is given an unacknowledged message; a call can be run to its end, and does not end in a fault
as long as there are versions left. So there are at most twice as many such calls as there are
buckets up to the head, and then a message is given. -/
theorem scan_limit_delays (h : Reachable q TakingTurns w) (hidle : Idle w)
    (hmax : q.maxDeliveries = none) (hlimit : 0 < limit)
    (hvisible : ∀ row ∈ w.rows.messages, row.message.acked = false →
      row.message.visible w.clock = true)
    (hpending : ∀ row ∈ w.rows.messages, row.message.pending = true →
      (readerOf w.rows).toUInt64 ≤ row.bucket) (hrow : Unacked w.rows row) :
    (∀ n v, Misses q limit w n v →
      n * limit ≤ 2 * (headOf q w.rows).toNat ∧
      (∀ hide result v', ServedAlone q v (.receive limit hide) result v' →
        (result = .ok (.delivery none) → Moved q limit v.rows v'.rows) ∧
        (result ≠ .ok (.delivery none) →
          ∃ row, Unacked w.rows row ∧ Gives row v.clock hide result)) ∧
      (v.history.length + 1 < UInt64.size →
        ∀ row, Unacked w.rows row → (wordSucc? row.message.version).isSome) ∧
      ∀ hide, ∃ result v', ServedAlone q v (.receive limit hide) result v') ∧
    ∀ hide, ∃ n v result v' row, n ≤ 2 * ((headOf q w.rows).toNat + 1) ∧ Misses q limit w n v ∧
      ServedAlone q v (.receive limit hide) result v' ∧ Unacked w.rows row ∧
      Gives row v.clock hide result := by
  have hdelayed : ∀ {n v}, Misses q limit w n v → Delayed q limit w n v :=
    fun hm => hm.delayed hmax hvisible hrow h hidle hpending
  have hgives : ∀ {n v}, Misses q limit w n v → ∀ {hide result v'},
      ServedAlone q v (.receive limit hide) result v' → result ≠ .ok (.delivery none) →
      ∃ row, Unacked w.rows row ∧ Gives row v.clock hide result := by
    intro n v hm hide result v' ha hne
    have hd := hdelayed hm
    rcases (hd.served hmax hvisible hrow ha).2 with ⟨hnone, _⟩ | ⟨_, row, hstored, hgives⟩
    · exact absurd hnone hne
    · exact ⟨row, ⟨hd.alike.messages ▸ hstored.1, hstored.2⟩, hgives⟩
  have hends : ∀ {n v}, Misses q limit w n v → ∀ hide, ∃ result v',
      ServedAlone q v (.receive limit hide) result v' := by
    intro n v hm hide
    have hd := hdelayed hm
    have hsolo :
        ((Request.receive limit hide).op q).Solo (hunting (Unacked v.rows)) _ v.rows v.clock :=
      hd.solo hmax hvisible hrow
    obtain ⟨actions, v', result, hserved⟩ := hd.reachable.served_ends hsolo
    exact ⟨result, v', actions, hserved⟩
  refine ⟨fun n v hm =>
    ⟨(hdelayed hm).bound,
      fun hide result v' ha => ⟨fun hnone => ?_, hgives hm ha⟩,
      fun hlen row hstored => ?_,
      hends hm⟩,
    fun hide => ?_⟩
  · rcases ((hdelayed hm).served hmax hvisible hrow ha).2 with ⟨_, hmissing⟩ | ⟨hne, _⟩
    · exact hmissing.moved
    · exact absurd hnone hne
  · have hd := hdelayed hm
    exact (hd.reachable.mono fun _ _ => undropped_of_takingTurns).has_next hlen row
      (hd.alike.messages.symm ▸ hstored.1)
  · have hnext : ∀ n v, Misses q limit w n v → ∃ result v',
        ServedAlone q v (.receive limit hide) result v' ∧ (result ≠ .ok (.delivery none) →
          ∃ row, Unacked w.rows row ∧ Gives row v.clock hide result) := by
      intro n v hm
      obtain ⟨result, v', ha⟩ := hends hm hide
      exact ⟨result, v', ha, hgives hm ha⟩
    rcases exists_misses hnext (2 * ((headOf q w.rows).toNat + 1) + 1) with
      ⟨v, hm⟩ | ⟨m, v, result, v', row, hlt, hfound⟩
    · have hbound := (hdelayed hm).bound
      have hle := Nat.le_mul_of_pos_right (2 * ((headOf q w.rows).toNat + 1) + 1) hlimit
      omega
    · exact ⟨m, v, result, v', row, Nat.le_of_lt_succ hlt, hfound⟩

def threePut : List Action :=
  serve 0 (.put [1] 0) 6 ++ serve 1 (.put [2] 0) 6 ++ serve 2 (.put [3] 0) 6 ++
    serve 3 (.receive 3 10) 12 ++ serve 4 (.receive 3 10) 20

/-- The third one is handed out, and the reader bucket comes to the head. The first two are
acknowledged, and the claim of the third one runs out. -/
def lastOverdue : List Action :=
  serve 5 (.receive 3 10) 19 ++ serve 6 (.receive 3 10) 17 ++ serve 7 (.ack ⟨0, 1, ⟨7⟩⟩) 2 ++
    serve 8 (.ack ⟨1, 1, ⟨7⟩⟩) 2 ++ [.pass 20]

/-- The invisibility cursor is two buckets behind the message, so with a scan limit of 1 two calls
miss it, and the third one is given it. -/
theorem scan_limit_delays_last_overdue :
    ∃ w u v v' result row, Reachable singles OneByOne w ∧ Idle w ∧ Unacked w.rows row ∧
      ServedAlone singles w (.receive 1 10) (.ok (.delivery none)) u ∧
      Moved singles 1 w.rows u.rows ∧
      Misses singles 1 w 2 v ∧ ServedAlone singles v (.receive 1 10) result v' ∧
      result ≠ .ok (.delivery none) ∧ Gives row v.clock 10 result := by
  obtain ⟨w₀, w, u, v, v', d, last, hw₀, hw, hdone, hlast, hacked, hready, hw9, hu, hmiss, hu10, hv,
      hmiss', hv11, hv', hgiven⟩ : ∃ w₀ w u v v' d last,
      ({} : World).runIf? singles allDone threePut = some w₀ ∧
      w₀.runIf? singles allDone lastOverdue = some w ∧
      allDone w (.start (.receive 1 10)) = true ∧ w.rows.messages[2]? = some last ∧
      last.message.acked = false ∧
      w.rows.messages.all (fun row => row.message.acked || (row.message.visible w.clock &&
        row.message.delivered)) = true ∧
      w.started = 9 ∧ w.run? singles (serve 9 (.receive 1 10) 11) = some u ∧
      u.history[0]? = some (.ended 9 (.ok (.delivery none))) ∧
      u.started = 10 ∧ u.run? singles (serve 10 (.receive 1 10) 11) = some v ∧
      v.history[0]? = some (.ended 10 (.ok (.delivery none))) ∧
      v.started = 11 ∧ v.run? singles (serve 11 (.receive 1 10) 7) = some v' ∧
      v'.history[0]? = some (.ended 11 (.ok (.delivery (some d)))) :=
    ⟨_, _, _, _, _, _, _, rfl, rfl, rfl, rfl, rfl, rfl, rfl, rfl, rfl, rfl, rfl, rfl, rfl, rfl, rfl⟩
  have h : Reachable singles OneByOne w :=
    .runIf (fun _ _ hr => hr.allDone) (.runIf (fun _ _ hr => hr.allDone) .fresh hw₀) hw
  have hidle : Idle w := ((h.allDone hdone) _ rfl).2
  have hunacked : Unacked w.rows last := ⟨List.mem_of_getElem? hlast, hacked⟩
  have hready := List.all_eq_true.mp hready
  have hvisible : ∀ row ∈ w.rows.messages, row.message.acked = false →
      row.message.visible w.clock = true := by
    intro row hrow hacked
    have := hready row hrow
    simp only [hacked, Bool.false_or, Bool.and_eq_true] at this
    exact this.1
  have hpending : ∀ row ∈ w.rows.messages, row.message.pending = true →
      (readerOf w.rows).toUInt64 ≤ row.bucket := by
    intro row hrow hp
    have := hready row hrow
    simp only [Message.pending, Bool.and_eq_true, Bool.not_eq_true'] at hp
    simp [hp.1, hp.2] at this
  have first : ServedAlone singles w (.receive 1 10) (.ok (.delivery none)) u :=
    ⟨_, by simp [hw9, Own], hu, hw9 ▸ List.mem_of_getElem? hmiss⟩
  have second : ServedAlone singles u (.receive 1 10) (.ok (.delivery none)) v :=
    ⟨_, by simp [hu10, Own], hv, hu10 ▸ List.mem_of_getElem? hmiss'⟩
  have third : ServedAlone singles v (.receive 1 10) (.ok (.delivery (some d))) v' :=
    ⟨_, by simp [hv11, Own], hv', hv11 ▸ List.mem_of_getElem? hgiven⟩
  have hrow := (scan_limit_delays (h.mono fun _ _ => takingTurns_of_oneByOne) hidle rfl Nat.one_pos
    hvisible hpending hunacked).1
  have hmisses : Misses singles 1 w 2 v := .more (.more .start first) second
  have hmoved := ((hrow 0 w .start).2.1 10 _ u first).1 rfl
  have hnot : (.ok (.delivery (some d)) : Result) ≠ .ok (.delivery none) := by rintro ⟨⟩
  obtain ⟨row, hstored, hgives⟩ := ((hrow 2 v hmisses).2.1 10 _ v' third).2 hnot
  exact ⟨w, u, v, v', _, row, h, hidle, hstored, first, hmoved, hmisses, third, hnot, hgives⟩

end LeaseQueue.Shared
