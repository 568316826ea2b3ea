import LeaseQueue.Proofs.Invisibility
import LeaseQueue.Proofs.Shared.LoneSearch

/-
  What a reader that is served alone is given.

  When all that is unacknowledged can be claimed, it is given a message of the
  lowest bucket that holds an unacknowledged one, and nothing only if there is
  none. The invisibility cursor is not past that bucket, so the first phase finds
  the message if it was handed out before. It gives up only where that bucket is
  not behind the reader bucket, and then the second phase comes to it.
-/

namespace LeaseQueue

namespace Shared

variable {q : Queue} {w : World} {rows rows' : Rows} {c c' : Instant} {limit : Nat}
  {hide : Duration}

/-- If the first phase may pass all buckets up to the head, it misses nothing behind the reader
bucket. -/
theorem Missed.of_sought (hw : Awaits q rows) (hlimit : (headOf q rows).toNat < limit)
    (h : Sought q rows c hide (invisibilityOf rows) limit none rows' c') :
    Missed rows rows' c c' := by
  rcases h with hmissed | ⟨stop, hs, hpassed⟩
  · exact hmissed
  · have hhead := hw.le_head
    refine hs.missed ?_
    rw [UInt64.le_iff_toNat_le] at hhead ⊢
    omega

theorem foremost_solo (hr : Ripe q rows c) (hw : Awaits q rows) (hmax : q.maxDeliveries = none)
    (hlimit : (headOf q rows).toNat < limit)
    (hswept : ∀ row ∈ rows.messages, row.message.acked = false →
      q.bucketOfCursor (invisibilityOf rows) ≤ row.bucket) :
    ((Request.receive limit hide).op q).Solo (hunting (Foremost rows))
      (fun reply rows' _ => ∃ o, reply = .delivery (o.map Delivery.of) ∧
        Hunted (Foremost rows) c hide
          (fun _ => ∀ row ∈ rows.messages, row.message.acked = true) o rows') rows c := by
  refine receive_solo (resurrect_solo hr hw hmax hswept) (fun _ _ _ hm => hm) fun rows' t ho => ?_
  have hmissed := Missed.of_sought hw hlimit ho
  have hfound : ∀ row, NextUp rows row → Foremost rows row := fun row hnext =>
    ⟨hnext.stored, hnext.unacked, fun other hother hacked =>
      hnext.least other hother hacked (hmissed.ahead other hother hacked)⟩
  have hbegin := hw.advancing hmissed.alike hmissed.reader hmissed.later
  refine hunting_mono hfound ((forward_solo hr hmax hbegin).mono fun o rows' t ho => ?_)
  cases o with
  | some m => exact Takes.mono hfound ho
  | none =>
    obtain ⟨passed, hs, hend⟩ := ho
    rcases hend with rfl | hleft
    · -- No more buckets were passed than there are before the head.
      have hle := hs.le_head
      have hmoved := hs.moved
      rw [UInt64.le_iff_toNat_le] at hle
      omega
    · intro row hrow
      by_contra hnot
      have hacked : row.message.acked = false := by simpa using hnot
      exact absurd (hmissed.ahead row hrow hacked) (UInt64.not_le.mpr (hleft row hrow hacked))

/-- A call that ends as a search does is told of no message exactly if all is acknowledged. -/
theorem foremost_of_ends {result : Result}
    (hends : (hunting (Foremost rows)).ends
      (fun reply rows' _ => ∃ o, reply = .delivery (o.map Delivery.of) ∧
        Hunted (Foremost rows) c hide
          (fun _ => ∀ row ∈ rows.messages, row.message.acked = true) o rows') result rows' c') :
    (result = .ok (.delivery none) ↔ ∀ row ∈ rows.messages, row.message.acked = true) ∧
    (result ≠ .ok (.delivery none) → ∃ row, Foremost rows row ∧ Gives row c hide result) := by
  rcases told_of_ends hends with ⟨hnone, hall⟩ | ⟨hne, row, hrow, hgives⟩
  · exact ⟨⟨fun _ => hall, fun _ => hnone⟩, fun hne => absurd hnone hne⟩
  · refine ⟨⟨fun he => absurd he hne, fun hall => ?_⟩, fun _ => ⟨row, hrow, hgives⟩⟩
    exact absurd (hall row hrow.stored) (by simp [hrow.unacked])

/-- Nothing is overlooked, and lower buckets come first. When all that is unacknowledged is visible,
nothing that was never handed out lies behind the reader bucket and the scan limit is greater than
the head, a call that is served alone is told of no message exactly if all is acknowledged, and
otherwise is given a message of the lowest bucket that holds an unacknowledged one. It can be run to
its end, and as long as there are versions left it does not end in a fault. -/
theorem oldest_bucket_first (h : Reachable q TakingTurns w) (hmax : q.maxDeliveries = none)
    (hlimit : (headOf q w.rows).toNat < limit)
    (hvisible : ∀ row ∈ w.rows.messages, row.message.acked = false →
      row.message.visible w.clock = true)
    (hpending : ∀ row ∈ w.rows.messages, row.message.pending = true →
      (readerOf w.rows).toUInt64 ≤ row.bucket) :
    (∀ actions w' result, (∀ a ∈ actions, Own w.started a) →
      w.run? q (.start (.receive limit hide) :: actions) = some w' →
      .ended w.started result ∈ w'.history →
      (result = .ok (.delivery none) ↔ ∀ row ∈ w.rows.messages, row.message.acked = true) ∧
      (result ≠ .ok (.delivery none) →
        ∃ row, Foremost w.rows row ∧ Gives row w.clock hide result)) ∧
    (w.history.length + 1 < UInt64.size →
      ∀ row ∈ w.rows.messages, (wordSucc? row.message.version).isSome) ∧
    ∃ actions w' result, (∀ a ∈ actions, Own w.started a) ∧
      w.run? q (.start (.receive limit hide) :: actions) = some w' ∧
      .ended w.started result ∈ w'.history := by
  have hd := h.mono fun _ _ => undropped_of_takingTurns
  have hwaits : Awaits q w.rows := ⟨hd.reader_le_head.1, hd.reader_le_head.2, hpending⟩
  have hsolo :
      ((Request.receive limit hide).op q).Solo (hunting (Foremost w.rows)) _ w.rows w.clock :=
    foremost_solo (hd.ripe hvisible) hwaits hmax hlimit h.settled.1.unacked
  refine ⟨fun actions w' result hown hrun hend => ?_, hd.has_next, hd.served_ends hsolo⟩
  obtain ⟨c, hres⟩ := hd.served_ended hsolo hown hrun hend
  exact foremost_of_ends hres

/-- Two messages are put and handed out, and both claims run out. By then the reader bucket has left
the first message behind. -/
def leftBehind : List Action :=
  serve 0 (.put [1] 0) 6 ++ serve 1 (.put [2] 0) 6 ++ serve 2 (.receive 1 10) 12 ++
    serve 3 (.receive 1 10) 20 ++ [.pass 20]

theorem oldest_bucket_first_left_behind :
    ∃ w row actions w' result, Reachable singles OneByOne w ∧ Idle w ∧ readerOf w.rows = 1 ∧
      Foremost w.rows row ∧ row.bucket = 0 ∧ (∀ a ∈ actions, Own w.started a) ∧
      w.run? singles (.start (.receive 3 10) :: actions) = some w' ∧
      .ended w.started result ∈ w'.history ∧ Gives row w.clock 10 result := by
  obtain ⟨w, first, hw, hdone, hreader, hfirst, hunacked, hbucket, hhead, hready⟩ :
      ∃ w first, ({} : World).runIf? singles allDone leftBehind = some w ∧
        allDone w (.start (.receive 3 10)) = true ∧ readerOf w.rows = 1 ∧
        w.rows.messages.head? = some first ∧ first.message.acked = false ∧ first.bucket = 0 ∧
        (headOf singles w.rows).toNat = 2 ∧
        w.rows.messages.all (fun row => row.message.acked || (row.message.visible w.clock &&
          (!row.message.pending || (readerOf w.rows).toUInt64 ≤ row.bucket))) = true :=
    ⟨_, _, rfl, rfl, rfl, rfl, rfl, rfl, rfl, rfl⟩
  have h : Reachable singles OneByOne w := .runIf (fun _ _ hr => hr.allDone) .fresh hw
  have hready := List.all_eq_true.mp hready
  have hvisible : ∀ row ∈ w.rows.messages, row.message.acked = false →
      row.message.visible w.clock = true := by
    intro row hrow hacked
    have := hready row hrow
    simp only [hacked, Bool.false_or, Bool.and_eq_true] at this
    exact this.1
  have hpending : ∀ row ∈ w.rows.messages, row.message.pending = true →
      (readerOf w.rows).toUInt64 ≤ row.bucket := by
    intro row hrow hp
    have hacked : row.message.acked = false := by
      simpa using (Bool.and_eq_true_iff.mp hp).1
    have := hready row hrow
    simp only [hacked, hp, Bool.false_or, Bool.not_true, Bool.and_eq_true, decide_eq_true_eq]
      at this
    exact this.2
  obtain ⟨told, _, actions, w', result, hown, hrun, hend⟩ :=
    @oldest_bucket_first singles w 3 10 (h.mono fun _ _ => takingTurns_of_oneByOne) rfl (by omega)
      hvisible hpending
  obtain ⟨hnone, hsome⟩ := told actions w' result hown hrun hend
  have hstored : first ∈ w.rows.messages := List.mem_of_head? hfirst
  obtain ⟨row, hrow, hgives⟩ := hsome fun he => by
    have := hnone.mp he first hstored
    rw [hunacked] at this
    cases this
  have hle : row.bucket ≤ 0 := hbucket ▸ hrow.least first hstored hunacked
  exact ⟨w, row, actions, w', result, h, ((h.allDone hdone) _ rfl).2, hreader, hrow,
    UInt64.le_antisymm hle UInt64.zero_le, hown, hrun, hend, hgives⟩

end Shared

end LeaseQueue
