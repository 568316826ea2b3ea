import LeaseQueue.Proofs.Shared.Holders
import LeaseQueue.Proofs.Shared.Searches
import LeaseQueue.Proofs.Shared.Turns

/-
  Readers share out a log.

  Messages are put without delay, and then any number of readers take them, whose
  calls hide what they claim for longer than the run lasts. As a claimed message
  is not visible again, each message is claimed once. Whatever a reader has seen,
  it saw when everything had been inserted: so a bucket in which it found nothing
  to claim was claimed as a whole, and so was every bucket that a reader has
  sealed and left behind. A search that finds nothing ends in a bucket that no
  message within its limit lies beyond.
-/

namespace LeaseQueue

namespace Shared

variable {q : Queue} {w : World} {a : Action} {t u : Nat} {h past past' : History} {i b : UInt64}
  {m next next' : Message} {c c' : Instant} {rows rows' : Rows} {limit : Nat} {hide : Duration}

/-! ## Publishers first -/

def Reading (h : History) : Prop := ∃ t limit hide, .started t (.receive limit hide) ∈ h

theorem Reading.mono (hr : Reading past) (hs : past <:+ h) : Reading h := by
  obtain ⟨t, limit, hide, he⟩ := hr
  exact ⟨t, limit, hide, hs.subset he⟩

/-- Messages are put without delay, and nobody asks for one before all of them are. Consumers may
acknowledge what they were given, and there is no repair. -/
def SharingOut : Rule
  | w, .start (.put _ delay) => delay = 0 ∧ ¬ Reading w.history
  | w, .start (.receive _ _) => ∀ t blob delay, ¬ Serving w t (.put blob delay)
  | w, .start (.ack r) => Issued w.history r
  | _, .start _ => False
  | _, _ => True

theorem honest_of_sharingOut (ha : SharingOut w a) : Honest w a := by
  cases a with
  | start r =>
    cases r with
    | ack r => exact ha
    | update r blob hide => exact absurd ha id
    | drop => exact absurd ha id
    | put blob delay => trivial
    | receive limit hide => trivial
    | tick cfg => trivial
  | pass d => trivial
  | act t tag => trivial
  | fail t e => trivial
  | finish t => trivial

theorem undropped_of_sharingOut (ha : SharingOut w a) : Undropped w a :=
  undropped_of_honest (honest_of_sharingOut ha)

theorem Reachable.sharing_honest (h : Reachable q SharingOut w) : Reachable q Honest w :=
  h.mono fun _ _ => honest_of_sharingOut

theorem Reachable.sharing_undropped (h : Reachable q SharingOut w) : Reachable q Undropped w :=
  h.mono fun _ _ => undropped_of_sharingOut

theorem Reachable.asked (h : Reachable q SharingOut w) {r : Request}
    (hr : .started t r ∈ w.history) :
    (∃ blob, r = .put blob 0) ∨ (∃ limit hide, r = .receive limit hide) ∨
      ∃ receipt, r = .ack receipt := by
  obtain ⟨v, _, ha, _⟩ := h.ruled hr
  cases r with
  | put blob delay => exact .inl ⟨blob, by rw [ha.1]⟩
  | receive limit hide => exact .inr (.inl ⟨limit, hide, rfl⟩)
  | ack receipt => exact .inr (.inr ⟨receipt, rfl⟩)
  | update r blob hide => exact absurd ha id
  | tick cfg => exact absurd ha id
  | drop => exact absurd ha id

theorem Reachable.unread (h : Reachable q SharingOut w) {blob : Blob} {delay : Duration}
    (hs : Serving w t (.put blob delay)) : ¬ Reading w.history := by
  induction h with
  | fresh =>
    obtain ⟨_, ht⟩ := hs
    cases ht
  | @step w w' a hw ha hstep ih =>
    have hm := move_of_step? hstep
    rintro ⟨u, limit, hide, hr⟩
    rcases hm.serving hs with hbefore | ⟨rfl, rfl, hhist⟩
    · have hnone : .started u (.receive limit hide) ∉ w.history :=
        fun hr => ih hbefore ⟨u, limit, hide, hr⟩
      cases hm with
      | starts request =>
        refine hnone ((List.mem_cons.mp hr).resolve_left fun he => ?_)
        cases he
        exact ha t blob delay hbefore
      | passes d => exact hnone hr
      | performs _ _ => exact hnone (started_of_performed hr)
      | turns _ => exact hnone hr
      | ends _ => exact hnone (started_of_ended hr)
    · rw [hhist] at hr
      exact ha.2 ⟨u, limit, hide, (List.mem_cons.mp hr).resolve_left nofun⟩

theorem Reachable.put_of_insert (h : Reachable q SharingOut w)
    (hs : .performed t c rows ⟨.call (.insertMessage b m), .ok true⟩ :: past <:+ w.history) :
    ∃ v blob, Reachable q SharingOut v ∧ v.history = past ∧ v.clock = c ∧
      Serving v t (.put blob 0) ∧ Inserts (seenBy t past) blob 0 m := by
  obtain ⟨v, r, _, _, hv, rfl, _, rfl, ht, _⟩ := h.at_effect hs
  obtain ⟨hstarted, hp, _⟩ := hv.task_obeys (requests_keep _) ht
  rcases hv.asked hstarted with ⟨blob, rfl⟩ | ⟨limit, hide, rfl⟩ | ⟨receipt, rfl⟩
  · cases hp with
    | looks h => cases h
    | puts hins => exact ⟨v, blob, hv, rfl, rfl, ⟨_, ht⟩, hins⟩
  · cases hp with
    | looks h => cases h
  · cases hp with
    | looks h => cases h

/-- Once somebody asks for a message, all were inserted. -/
theorem Reachable.inserted_before (h : Reachable q SharingOut w) (hs : past <:+ w.history)
    (hr : Reading past) (hi : Inserted i w.history) : Inserted i past := by
  obtain ⟨t, c, rows, b, m, he, rfl⟩ := hi
  obtain ⟨before, hbefore⟩ := suffix_of_mem he
  obtain ⟨v, blob, hv, rfl, _, hserving, _⟩ := h.put_of_insert hbefore
  rcases mem_or_before hbefore hs with he | hle
  · exact ⟨t, c, rows, b, m, he, rfl⟩
  · exact absurd (hr.mono hle) (hv.unread hserving)

theorem Reachable.insertedAs_ready (h : Reachable q SharingOut w) (hm : InsertedAs m w.history) :
    m.acked = false ∧ m.deliveries = 0 ∧ m.visibleAt ≤ w.clock := by
  obtain ⟨t, c, rows, b, he⟩ := hm
  obtain ⟨past, hs⟩ := suffix_of_mem he
  obtain ⟨v, blob, hv, rfl, rfl, _, hins⟩ := h.put_of_insert hs
  obtain ⟨u, tag, hu, hfresh⟩ := hins.fresh
  rw [hfresh]
  exact ⟨rfl, rfl, Nat.le_trans (hv.seen_le_clock _ hu) (h.clock_le he)⟩

theorem Reachable.stays_stored (h : Reachable q SharingOut w) (i : UInt64) :
    Inserted i w.history → i ∈ w.rows.messages.map (·.message.index) := by
  refine h.course
    (P := fun rows h => Inserted i h → i ∈ rows.messages.map fun r : Row => r.message.index)
    (fun _ _ => undropped_of_sharingOut)
    (fun hi => absurd hi not_inserted_nil)
    (fun _ _ _ _ ih hi => ih (inserted_started.mp hi))
    (fun _ _ _ _ ih hi => ih (inserted_ended.mp hi)) ?_
  intro v t r s rows hv hstarted hp hturn ih hi
  have before (hs : ∀ b m, s ≠ ⟨.call (.insertMessage b m), .ok true⟩) :=
    ih ((inserted_of_not_applied hs).mp hi)
  cases hturn with
  | leaves hs =>
    refine before ?_
    rintro b m rfl
    cases hs
  | swaps => exact before nofun
  | records _ => exact before nofun
  | deletes =>
    obtain ⟨cfg, rfl, _⟩ := hp.clear
    exact absurd (hv.asked hstarted) (by simp)
  | replaces _ =>
    rw [Rows.indices_replace]
    exact before nofun
  | @inserts m _ =>
    rcases inserted_performed.mp hi with ⟨b, m', he, rfl⟩ | hi
    · cases he
      exact List.mem_map_of_mem (Rows.mem_insert.mpr (.inl rfl))
    · obtain ⟨r, hr, hri⟩ := List.mem_map.mp (ih hi)
      exact hri ▸ List.mem_map_of_mem (Rows.mem_insert.mpr (.inr hr))

/-! ## Claims -/

def Claimed (i : UInt64) (h : History) : Prop :=
  ∃ t c rows next past, ClaimAt h t c rows next past ∧ next.index = i

theorem ClaimAt.mono {part : History} (hc : ClaimAt part t c rows next past) (hs : part <:+ h) :
    ClaimAt h t c rows next past :=
  ⟨hc.1, hc.2.imp fun _ => Exists.imp fun _ hp => hp.trans hs⟩

theorem Claimed.mono (hc : Claimed i past) (hs : past <:+ h) : Claimed i h := by
  obtain ⟨t, c, rows, next, before, hc, hi⟩ := hc
  exact ⟨t, c, rows, next, before, hc.mono hs, hi⟩

/-- A claim of a reader has left the message as visible as it is. -/
def ClaimedAs (m : Message) (h : History) : Prop :=
  ∃ t c rows next past, ClaimAt h t c rows next past ∧ next.index = m.index ∧
    next.visibleAt = m.visibleAt

theorem ClaimedAs.mono (hc : ClaimedAs m past) (hs : past <:+ h) : ClaimedAs m h := by
  obtain ⟨t, c, rows, next, before, hc, hi⟩ := hc
  exact ⟨t, c, rows, next, before, hc.mono hs, hi⟩

theorem ClaimedAs.claimed (hc : ClaimedAs m h) : Claimed m.index h := by
  obtain ⟨t, c, rows, next, before, hc, hi, _⟩ := hc
  exact ⟨t, c, rows, next, before, hc, hi⟩

theorem Replaces.deliveries_ne_zero {r : Request} {old : Message} {cond : Condition}
    (hw : Reachable q SharingOut w) (hr : Replaces q w.history w.rows t r next cond old)
    (hc : cond.unacked = false) : old.deliveries ≠ 0 := by
  intro hzero
  rcases hw.asked hr.started with ⟨blob, rfl⟩ | ⟨limit, hide, rfl⟩ | ⟨receipt, rfl⟩
  · cases hr.permitted with
    | looks h => cases h
  · have hspent := (hr.retire hc).spent
    rw [hzero, q.not_exhausted_zero] at hspent
    cases hspent
  · have hissued := hw.sharing_honest.presented hr.started
    obtain ⟨m, he, hm⟩ := hw.issued_written hissued
    have hold : old = m := hr.issued_for hw.sharing_undropped hr.ack.1.fits hm.wrote he
    have hdelivered := hw.sharing_honest.hidden_delivered m hm
    rw [← hold, Message.delivered, hzero] at hdelivered
    cases hdelivered

/-- A stored message is as it was inserted, or a reader has claimed it. -/
theorem Reachable.inserted_or_claimed (h : Reachable q SharingOut w) :
    ∀ r ∈ w.rows.messages, InsertedAs r.message w.history ∨ ClaimedAs r.message w.history := by
  have later : ∀ {m : Message} {e : Event} {past : History}, InsertedAs m past ∨ ClaimedAs m past →
      InsertedAs m (e :: past) ∨ ClaimedAs m (e :: past) :=
    fun h => h.imp (·.mono (List.suffix_cons _ _)) (·.mono (List.suffix_cons _ _))
  refine h.course (P := fun rows h => ∀ r ∈ rows.messages,
    InsertedAs r.message h ∨ ClaimedAs r.message h)
    (fun _ _ => undropped_of_sharingOut) nofun
    (fun _ _ _ _ ih r hr => later (ih r hr)) (fun _ _ _ _ ih r hr => later (ih r hr)) ?_
  intro v t req s rows hv hstarted hp hturn ih r hr
  cases hturn with
  | leaves _ => exact later (ih r hr)
  | swaps => exact later (ih r hr)
  | records _ => exact later (ih r hr)
  | deletes => exact later (ih r (Rows.mem_removeBucket.mp hr).1)
  | @inserts m _ =>
    rcases Rows.mem_insert.mp hr with rfl | hr
    · exact .inl ⟨t, _, _, _, List.mem_cons_self⟩
    · exact later (ih r hr)
  | @replaces next old cond hrep =>
    rcases Rows.mem_replace.mp hr with ⟨_, _, _, rfl⟩ | ⟨hr, _⟩
    · cases hc : cond.unacked with
      | false =>
        rcases ih _ hrep.stored with hins | hclaimed
        · exact absurd (hv.insertedAs_ready hins).2.1 (hrep.deliveries_ne_zero hv hc)
        · -- An acknowledgement leaves the message as visible as the claim has left it.
          obtain ⟨t', c, rows', n, past, hclaim, hi, hvis⟩ := hclaimed.mono (List.suffix_cons _ _)
          exact .inr ⟨t', c, rows', n, past, hclaim, hi.trans hrep.updates.became.index.symm,
            hvis.trans (hrep.updates.acks hc).2.1.symm⟩
      | true =>
        rcases hrep.hides hc with ⟨limit, hide, rfl, _⟩ | ⟨receipt, blob, hide, u, rfl, _⟩
        · obtain ⟨version, _⟩ := cond
          cases hc
          exact .inr ⟨t, _, _, next, _, ⟨⟨limit, hide, hrep.started⟩, _, version,
            List.suffix_refl _⟩, rfl, rfl⟩
        · exact absurd (hv.asked hrep.started) (by simp)
    · exact later (ih r hr)

/-! ## Invisibility longer than the run -/

/-- What a call claims is hidden for longer than the run lasts. -/
def HidesThroughout (w : World) : Prop :=
  ∀ t limit hide c rows s, .started t (.receive limit hide) ∈ w.history →
    .performed t c rows s ∈ w.history → w.clock < c + hide

theorem Reachable.claim_hidden (h : Reachable q SharingOut w) (hlong : HidesThroughout w)
    (hc : ClaimAt w.history t c rows next past) : w.clock < next.visibleAt := by
  have hclaim := hc
  obtain ⟨v, limit, hide, version, old, hv, rfl, rfl, rfl, hr⟩ :=
    h.claim_at (fun _ _ => undropped_of_sharingOut) hc
  obtain ⟨_, b, version', hs⟩ := hclaim
  have hle : v.history <:+ w.history := (List.suffix_cons _ _).trans hs
  rcases hr.hides rfl with ⟨_, _, he, hclaims⟩ | ⟨_, _, _, _, he, _⟩
  · cases he
    obtain ⟨u, hu, hn⟩ := hclaims.next
    obtain ⟨v', _, _, _, hat, _, _, hans⟩ := hv.seen_at hu
    have hclock : u = v'.clock := hans.1
    rw [(Message.claimed?_eq_some hn).2, hclock]
    exact hlong t limit hide _ _ _ (hle.subset hr.started)
      ((hat.trans hle).subset List.mem_cons_self)
  · cases he

/-- A message is claimed once. -/
theorem Reachable.not_claimed_before (h : Reachable q SharingOut w) (hlong : HidesThroughout w)
    (hc : ClaimAt w.history t c rows next past) : ¬ Claimed next.index past := by
  have hclaim := hc
  obtain ⟨v, limit, hide, version, old, hv, rfl, rfl, rfl, hr⟩ :=
    h.claim_at (fun _ _ => undropped_of_sharingOut) hc
  obtain ⟨_, b, version', hs⟩ := hclaim
  have hle : v.history <:+ w.history := (List.suffix_cons _ _).trans hs
  rintro ⟨u, c', rows', next', before, hfirst, hi⟩
  rcases hv.inserted_or_claimed _ hr.stored with hins | ⟨_, _, _, last, _, hlast, _, hvis⟩
  · -- The message that was claimed before has been delivered, but was not when it was inserted.
    obtain ⟨_, b', version', hs'⟩ := hfirst
    have hhidden : Hidden next' v.history :=
      ⟨u, c', rows', b', version', hs'.subset List.mem_cons_self⟩
    have hbecame := hv.sharing_undropped.traced.wrote next' hhidden.wrote _ hr.stored
      (hr.updates.became.index.symm.trans hi.symm)
    have hdelivered := hbecame.delivered (hv.sharing_honest.hidden_delivered _ hhidden)
    rw [Message.delivered, (hv.insertedAs_ready hins).2.1] at hdelivered
    cases hdelivered
  · -- The last claim hides the message now.
    refine absurd ?_ (Nat.lt_irrefl w.clock)
    calc
      w.clock < last.visibleAt := h.claim_hidden hlong (hlast.mono hle)
      _ = old.visibleAt := hvis
      _ ≤ v.clock := hr.visible hv.sharing_undropped rfl
      _ ≤ w.clock := h.clock_le (hs.subset List.mem_cons_self)

theorem Reachable.claim_unique (h : Reachable q SharingOut w) (hlong : HidesThroughout w)
    (hc : ClaimAt w.history t c rows next past) (hc' : ClaimAt w.history u c' rows' next' past')
    (hi : next.index = next'.index) : t = u := by
  obtain ⟨hstarted, b, version, hs⟩ := id hc
  obtain ⟨hstarted', b', version', hs'⟩ := id hc'
  rcases same_or_before hs hs' with ⟨he, _⟩ | hle | hle
  · cases he
    rfl
  · exact absurd ⟨t, c, rows, next, past, ⟨hstarted, b, version, hle⟩, hi⟩
      (h.not_claimed_before hlong hc')
  · exact absurd ⟨u, c', rows', next', past', ⟨hstarted', b', version', hle⟩, hi.symm⟩
      (h.not_claimed_before hlong hc)

/-! ## What a reader has found -/

theorem Reachable.seen_late (h : Reachable q SharingOut w)
    (hr : .started t (.receive limit hide) ∈ w.history) {s : Seen} (hs : s ∈ seenBy t w.history) :
    ∃ v rows', Reachable q SharingOut v ∧
      .performed t v.clock v.rows s :: v.history <:+ w.history ∧ Answered v.rows v.clock s rows' ∧
      ∀ i, Inserted i w.history → Inserted i v.history := by
  obtain ⟨v, r, rows', hv, hat, hstarted, _, hans⟩ := h.seen_at hs
  have hle : v.history <:+ w.history := (List.suffix_cons _ _).trans hat
  cases h.started_unique (hle.subset hstarted) hr
  exact ⟨v, rows', hv, hat, hans, fun i => h.inserted_before hle ⟨t, limit, hide, hstarted⟩⟩

/-- If a reader has found nothing to claim in a bucket, all of it was claimed. -/
theorem Reachable.claimed_of_spent (h : Reachable q SharingOut w)
    (hr : .started t (.receive limit hide) ∈ w.history) (hs : Spent (seenBy t w.history) b)
    (hi : Inserted i w.history) (hb : q.bucketOf i = b) : Claimed i w.history := by
  obtain ⟨ms, u, told, clocked, hms⟩ := hs
  obtain ⟨v, _, hv, hat, hans, hbefore⟩ := h.seen_late hr told
  have hle : v.history <:+ w.history := (List.suffix_cons _ _).trans hat
  obtain ⟨row, hrow, rfl⟩ := List.mem_map.mp (hv.stays_stored i (hbefore i hi))
  have hmem : row.message ∈ ms := by
    cases hans
    exact Rows.mem_inBucket.mpr (hb ▸ hv.orderly.2 row hrow ▸ hrow)
  rcases hv.inserted_or_claimed row hrow with hins | hclaimed
  · -- It was visible by the clock that the reader went by.
    obtain ⟨v', _, hv', hat', hans', hbefore'⟩ := h.seen_late hr clocked
    have hu : u = v'.clock := hans'.1
    have hle' : v'.history <:+ w.history := (List.suffix_cons _ _).trans hat'
    have hins' : InsertedAs row.message v'.history :=
      h.sharing_undropped.insertedAs_of_inserted hle' (hbefore' _ hi) (hins.mono hle)
    obtain ⟨hunacked, _, hvisible⟩ := hv'.insertedAs_ready hins'
    rcases hms _ hmem with hacked | hhidden
    · rw [hunacked] at hacked
      cases hacked
    · rw [hu] at hhidden
      exact absurd hvisible (Nat.not_le.mpr hhidden)
  · exact hclaimed.claimed.mono hle

theorem Permitted.sealer {r : Request} {tr : List Seen} {at_ : Instant}
    (h : Permitted q r tr (.call (.insertTombstone b at_))) :
    ∃ limit hide, r = .receive limit hide := by
  cases h with
  | looks h => cases h
  | seals _ _ => exact ⟨_, _, rfl⟩

theorem Reachable.claimed_of_passed (h : Reachable q SharingOut w) (hi : Inserted i w.history)
    (hb : q.bucketOf i < cursorAt q .readerBucket w.rows) : Claimed i w.history := by
  obtain ⟨t, at_, sealedAt, told⟩ := h.sharing_undropped.passed_told _ hb
  obtain ⟨v, r, _, hv, hat, hstarted, hp, _⟩ := h.seen_at told
  have hle : v.history <:+ w.history := (List.suffix_cons _ _).trans hat
  obtain ⟨limit, hide, rfl⟩ := hp.sealer
  have hi' := h.inserted_before hle ⟨t, limit, hide, hstarted⟩ hi
  exact (hv.claimed_of_spent hstarted hp.seal.spent hi' rfl).mono hle

/-- If a reader has searched the queue, every message within its limit was claimed. -/
theorem Reachable.claimed_of_searched (h : Reachable q SharingOut w)
    (hr : .started t (.receive limit hide) ∈ w.history)
    (hs : Searched q limit (seenBy t w.history)) (hi : Inserted i w.history)
    (hlimit : (q.bucketOf i).toNat ≤ limit) : Claimed i w.history := by
  obtain ⟨cell, told, spent, hend⟩ := hs
  have hwithin : q.bucketOf i ≤ (Cursor.readerBucket.position cell).toUInt64 := by
    rcases hend with ⟨count, counted, hhead⟩ | hfar
    · obtain ⟨v, _, hv, _, hans, hbefore⟩ := h.seen_late hr counted
      have hlt := hv.sharing_undropped.inserted_lt (hbefore i hi)
      cases hans
      exact UInt64.le_trans (q.bucketOf_mono (UInt64.le_of_lt hlt)) hhead
    · exact UInt64.le_iff_toNat_le.mpr (Nat.le_trans hlimit (hfar h.sharing_undropped.upward))
  rcases UInt64.lt_or_eq_of_le hwithin with hlt | heq
  · obtain ⟨v, _, _, hat, hans, _⟩ := h.seen_late hr told
    refine h.claimed_of_passed hi (UInt64.lt_of_lt_of_le hlt ?_)
    refine (lasting_cursor .readerBucket _).since h.sharing_undropped
      (hat.subset List.mem_cons_self) ?_
    cases hans
    exact UInt64.le_refl _
  · exact h.claimed_of_spent hr spent hi heq

/-! ## What is handed out -/

def Event.deals : Event → Option UInt64
  | .ended _ (.ok (.delivery (some d))) => some d.index
  | _ => none

/-- The indices of the messages that were handed out, the latest first. -/
def dealt (h : History) : List UInt64 := h.filterMap Event.deals

theorem Event.deals_eq_some {e : Event} :
    e.deals = some i ↔ ∃ t d, e = .ended t (.ok (.delivery (some d))) ∧ d.index = i := by
  constructor
  · intro he
    unfold Event.deals at he
    split at he
    · exact ⟨_, _, rfl, Option.some.inj he⟩
    · cases he
  · rintro ⟨t, d, rfl, rfl⟩
    rfl

theorem mem_dealt :
    i ∈ dealt h ↔ ∃ t d, .ended t (.ok (.delivery (some d))) ∈ h ∧ d.index = i := by
  simp only [dealt, List.mem_filterMap, Event.deals_eq_some]
  constructor
  · rintro ⟨_, he, t, d, rfl, hd⟩
    exact ⟨t, d, he, hd⟩
  · rintro ⟨t, d, he, hd⟩
    exact ⟨_, he, t, d, rfl, hd⟩

theorem Reachable.dealt_nodup (h : Reachable q SharingOut w) (hlong : HidesThroughout w) :
    (dealt w.history).Nodup := by
  suffices hall : ∀ past, past <:+ w.history → (dealt past).Nodup from
    hall _ (List.suffix_refl _)
  intro past hs
  induction past with
  | nil => exact List.nodup_nil
  | cons e past ih =>
    have ih := ih ((List.suffix_cons _ _).trans hs)
    cases he : e.deals with
    | none => simpa [dealt, he] using ih
    | some i =>
      obtain ⟨t, d, rfl, hd⟩ := Event.deals_eq_some.mp he
      rw [dealt, List.filterMap_cons_some he, List.nodup_cons]
      refine ⟨fun hmem => ?_, ih⟩
      -- Both calls have claimed the message, so they are one, which ended twice.
      obtain ⟨u, d', hearlier, hd'⟩ := mem_dealt.mp hmem
      have hle := ((List.suffix_cons _ _).trans hs).subset hearlier
      obtain ⟨_, _, next, _, hc, rfl⟩ :=
        h.handed_out (fun _ _ => undropped_of_sharingOut) (hs.subset List.mem_cons_self)
      obtain ⟨_, _, next', _, hc', rfl⟩ := h.handed_out (fun _ _ => undropped_of_sharingOut) hle
      cases h.claim_unique hlong hc hc' (hd.trans hd'.symm)
      exact h.ended_once hs hearlier

/-- Every call for a message was answered. -/
def AllAnswered (h : History) : Prop :=
  ∀ t limit hide, .started t (.receive limit hide) ∈ h → ∃ d, .ended t (.ok (.delivery d)) ∈ h

/-- If the call that has claimed a message is answered, it hands the message out. -/
theorem Reachable.dealt_of_claimed (h : Reachable q SharingOut w) (hall : AllAnswered w.history)
    (hc : Claimed i w.history) : i ∈ dealt w.history := by
  obtain ⟨t, c, rows, next, past, ⟨⟨limit, hide, hstarted⟩, b, version, hs⟩, rfl⟩ := hc
  have hstarted := ((List.suffix_cons _ _).trans hs).subset hstarted
  obtain ⟨d, hended⟩ := hall t limit hide hstarted
  obtain ⟨before, hend⟩ := suffix_of_mem hended
  obtain ⟨r, hr, hending⟩ := h.end_permitted (readers_end SharingOut) hend
  cases h.started_unique (((List.suffix_cons _ _).trans hend).subset hr) hstarted
  obtain ⟨o, rfl, hhid, _⟩ := hending limit hide d rfl rfl
  have hmem : next ∈ hidBy (seenBy t before) :=
    mem_hidBy_of_told (mem_seenBy.mpr
      ⟨c, rows, (h.before_end hs hend).subset List.mem_cons_self⟩)
  rw [hhid, Option.mem_toList] at hmem
  cases hmem
  exact mem_dealt.mpr ⟨t, _, hended, rfl⟩

/-! ## Checks -/

/-- The calls for messages, each with how long it hides what it claims. -/
def calls (h : History) : List (Nat × Duration) :=
  h.filterMap fun
    | .started t (.receive _ hide) => some (t, hide)
    | _ => none

theorem mem_calls : (t, hide) ∈ calls h ↔ ∃ limit, .started t (.receive limit hide) ∈ h := by
  rw [calls, List.mem_filterMap]
  constructor
  · rintro ⟨e, he, hcall⟩
    split at hcall
    · cases hcall
      exact ⟨_, he⟩
    · cases hcall
  · rintro ⟨limit, he⟩
    exact ⟨_, he, rfl⟩

theorem reading_iff : Reading h ↔ calls h ≠ [] := by
  constructor
  · rintro ⟨t, limit, hide, he⟩
    exact List.ne_nil_of_mem (mem_calls.mpr ⟨limit, he⟩)
  · intro hne
    obtain ⟨⟨t, hide⟩, hcall⟩ := List.exists_mem_of_ne_nil _ hne
    obtain ⟨limit, he⟩ := mem_calls.mp hcall
    exact ⟨t, limit, hide, he⟩

instance : Decidable (Reading h) := decidable_of_iff _ reading_iff.symm

/-- The calls for messages that were answered. -/
def answered (h : History) : List Nat :=
  h.filterMap fun
    | .ended t (.ok (.delivery _)) => some t
    | _ => none

theorem mem_answered : t ∈ answered h ↔ ∃ d, .ended t (.ok (.delivery d)) ∈ h := by
  rw [answered, List.mem_filterMap]
  constructor
  · rintro ⟨e, he, hanswer⟩
    split at hanswer
    · cases hanswer
      exact ⟨_, he⟩
    · cases hanswer
  · rintro ⟨d, he⟩
    exact ⟨_, he, rfl⟩

instance : Decidable (AllAnswered h) :=
  decidable_of_iff (∀ call ∈ calls h, call.1 ∈ answered h) <| by
    simp only [AllAnswered, mem_answered, Prod.forall, mem_calls]
    exact ⟨fun hall t limit hide he => hall t hide ⟨limit, he⟩,
      fun hall t hide ⟨limit, he⟩ => hall t limit hide he⟩

theorem hidesThroughout_of_calls (hlong : ∀ call ∈ calls w.history, w.clock < call.2) :
    HidesThroughout w :=
  fun t limit hide c _ _ he _ =>
    Nat.lt_of_lt_of_le (hlong (t, hide) (mem_calls.mpr ⟨limit, he⟩)) (Nat.le_add_left hide c)

/-- Whether the action may be next where a log is shared out. -/
def sharesOut (w : World) : Action → Bool
  | .start (.put _ delay) => delay = 0 ∧ ¬ Reading w.history
  | .start (.receive limit hide) => turnFree w (.start (.receive limit hide))
  | .start (.ack r) => w.history.any fun
    | .ended _ (.ok (.delivery (some d))) => d.receipt = r
    | _ => false
  | .start _ => false
  | _ => true

theorem Reachable.sharesOut {rule : Rule} (h : Reachable q rule w) (ha : sharesOut w a = true) :
    SharingOut w a := by
  cases a with
  | start r =>
    cases r with
    | put blob delay =>
      simp only [Shared.sharesOut, decide_eq_true_eq] at ha
      exact ha
    | receive limit hide =>
      intro t blob delay hs
      have hclash := ((h.turnFree (a := .start (.receive limit hide)) ha) _ rfl).2 t _ hs
      cases hclash
    | ack r =>
      obtain ⟨e, he, hd⟩ := List.any_eq_true.mp ha
      split at hd
      · exact .inl ⟨_, _, he, of_decide_eq_true hd⟩
      · cases hd
    | update r blob hide => cases ha
    | tick cfg => cases ha
    | drop => cases ha
  | pass d => trivial
  | act t tag => trivial
  | fail t e => trivial
  | finish t => trivial

/-! ## The whole log -/

/-- No message is handed out twice. Once a reader is told that there is nothing, every message
within its limit was claimed, and if every call was answered, each of these was handed out exactly
once. -/
theorem log_shared_out (h : Reachable q SharingOut w) (hlong : HidesThroughout w) :
    (dealt w.history).Nodup ∧
    ∀ t limit hide past, .started t (.receive limit hide) ∈ past →
      .ended t (.ok (.delivery none)) :: past <:+ w.history →
      ∀ i, Inserted i w.history → (q.bucketOf i).toNat ≤ limit →
        Claimed i past ∧ (AllAnswered w.history → (dealt w.history).count i = 1) := by
  refine ⟨h.dealt_nodup hlong, fun t limit hide past hstarted hs i hi hlimit => ?_⟩
  have hle : past <:+ w.history := (List.suffix_cons _ _).trans hs
  obtain ⟨v, _, hv, rfl, _⟩ := h.at_end hs
  obtain ⟨r, hr, hending⟩ := h.end_permitted (readers_end SharingOut) hs
  cases hv.started_unique hr hstarted
  obtain ⟨o, ho, _, hsearched⟩ := hending limit hide none rfl rfl
  have hnone : o = none := Option.map_eq_none_iff.mp ho.symm
  have hclaimed : Claimed i v.history :=
    hv.claimed_of_searched hstarted (hsearched hnone)
      (h.inserted_before hle ⟨t, limit, hide, hstarted⟩ hi) hlimit
  refine ⟨hclaimed, fun hall => ?_⟩
  exact List.count_eq_one_of_mem (h.dealt_nodup hlong) (h.dealt_of_claimed hall (hclaimed.mono hle))

/-- The two tasks take their steps by turns. -/
def byTurns (t u n : Nat) : List Action :=
  (List.replicate n [.act t ⟨7⟩, .act u ⟨7⟩]).flatten

/-- Two readers see the same message. The one that loses the claim seals its bucket and takes the
next message. -/
def contested : List Action :=
  serve 0 (.put [1] 0) 6 ++ serve 1 (.put [2] 0) 6 ++
    [.start (.receive 3 1000), .start (.receive 3 1000)] ++ byTurns 2 3 12 ++ [.finish 2] ++
    List.replicate 17 (.act 3 ⟨7⟩) ++ [.finish 3]

/-- Two more find nothing, while the first message is acknowledged. -/
def exhaustedCalls : List Action :=
  [.pass 10, .start (.receive 3 1000), .start (.receive 3 1000)] ++ byTurns 4 5 8 ++
    serve 6 (.ack ⟨0, 1, ⟨7⟩⟩) 2 ++ byTurns 4 5 9 ++ [.finish 4, .finish 5]

/-- Each of the two messages is handed out exactly once. -/
theorem log_shared_out_contested :
    ∃ w past, Reachable singles SharingOut w ∧ HidesThroughout w ∧ AllAnswered w.history ∧
      (∃ c rows b m cond, .performed 3 c rows ⟨.call (.updateMessage b m cond), .ok false⟩ ∈ past) ∧
      .started 5 (.receive 3 1000) ∈ past ∧
      .ended 5 (.ok (.delivery none)) :: past <:+ w.history ∧ (dealt w.history).Nodup ∧
      ∀ i, i = 0 ∨ i = 1 →
        Inserted i w.history ∧ Claimed i past ∧ (dealt w.history).count i = 1 := by
  obtain ⟨v, w, past, c, rows, b, m, cond, hv, hw, hlong, hall, hpast, hlost, hstarted, hstored⟩ :
      ∃ v w past c rows b m cond, ({} : World).runIf? singles sharesOut contested = some v ∧
        v.runIf? singles sharesOut exhaustedCalls = some w ∧
        (∀ call ∈ calls w.history, w.clock < call.2) ∧ AllAnswered w.history ∧
        w.history = .ended 5 (.ok (.delivery none)) :: past ∧
        past[56]? = some (.performed 3 c rows ⟨.call (.updateMessage b m cond), .ok false⟩) ∧
        past[35]? = some (.started 5 (.receive 3 1000)) ∧
        w.rows.messages.map (fun r => r.message.index) = [0, 1] :=
    ⟨_, _, _, _, _, _, _, _, rfl, rfl, by decide +kernel, by decide +kernel, rfl, rfl, rfl, rfl⟩
  have h : Reachable singles SharingOut w :=
    .runIf (fun _ _ hr => hr.sharesOut) (.runIf (fun _ _ hr => hr.sharesOut) .fresh hv) hw
  have hlong := hidesThroughout_of_calls hlong
  have hs : .ended 5 (.ok (.delivery none)) :: past <:+ w.history := hpast ▸ List.suffix_refl _
  have hstarted := List.mem_of_getElem? hstarted
  obtain ⟨hnodup, hfound⟩ := log_shared_out h hlong
  refine ⟨w, past, h, hlong, hall, ⟨c, rows, b, m, cond, List.mem_of_getElem? hlost⟩, hstarted, hs,
    hnodup, fun i hi => ?_⟩
  have hmem : i ∈ w.rows.messages.map (fun r => r.message.index) := by
    rw [hstored]
    simpa using hi
  obtain ⟨row, hrow, rfl⟩ := List.mem_map.mp hmem
  have hins := h.stored_inserted row hrow
  have hwithin : (singles.bucketOf row.message.index).toNat ≤ 3 := by
    rcases hi with hi | hi <;> rw [hi] <;> decide
  obtain ⟨hclaimed, hcount⟩ := hfound 5 3 1000 past hstarted hs _ hins hwithin
  exact ⟨hins, hclaimed, hcount hall⟩

end Shared

end LeaseQueue
