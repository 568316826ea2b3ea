import LeaseQueue.Proofs.Shared.Course

/-
  Who holds a receipt.

  A receipt is handed out only after the write that left the message as the
  receipt names it (`Reachable.issued_written`). Where consumers present only
  such receipts, a message that was never delivered is as it was inserted, or it
  was acknowledged (`Reachable.untouched`).
-/

namespace LeaseQueue.Shared

variable {q : Queue} {rule : Rule} {w : World} {t : Nat} {h past : History} {m : Message}

/-- A claim or an update of a consumer that left the message so was applied. -/
def Hidden (m : Message) (h : History) : Prop :=
  ∃ t c rows b v, .performed t c rows ⟨.call (.updateMessage b m ⟨v, true⟩), .ok true⟩ ∈ h

theorem Hidden.mono (hm : Hidden m past) (hs : past <:+ h) : Hidden m h := by
  obtain ⟨t, c, rows, b, v, he⟩ := hm
  exact ⟨t, c, rows, b, v, hs.subset he⟩

theorem Hidden.wrote (hm : Hidden m h) : Wrote h m := by
  obtain ⟨t, c, rows, b, v, he⟩ := hm
  exact ⟨t, c, rows, _, he, rfl⟩

theorem hidden_performed {c : Instant} {rows : Rows} {s : Seen}
    (hm : Hidden m (.performed t c rows s :: h)) :
    (∃ b v, s = ⟨.call (.updateMessage b m ⟨v, true⟩), .ok true⟩) ∨ Hidden m h := by
  obtain ⟨t', c', rows', b, v, he⟩ := hm
  rcases List.mem_cons.mp he with he | he
  · cases he
    exact .inl ⟨b, v, rfl⟩
  · exact .inr ⟨t', c', rows', b, v, he⟩

theorem Reachable.issued_written (h : Reachable q rule w) {r : Receipt}
    (hr : Issued w.history r) : ∃ m, r = Receipt.of m ∧ Hidden m w.history := by
  have told : ∀ {t past v} {m : Message}, past <:+ w.history →
      Told (seenBy t past) (.updateMessage (q.bucketOf m.index) m ⟨v, true⟩) true →
      Hidden m w.history := by
    intro t past v m hs htold
    obtain ⟨c, rows, he⟩ := mem_seenBy.mp htold
    exact ⟨t, c, rows, _, v, hs.subset he⟩
  rcases hr with ⟨t, d, he, rfl⟩ | ⟨t, he⟩
  · obtain ⟨past, hs⟩ := suffix_of_mem he
    obtain ⟨req, _, hends⟩ := h.end_permitted (requests_keep rule) hs
    cases hends with
    | received htold => exact ⟨_, rfl, told ((List.suffix_cons _ _).trans hs) htold⟩
  · obtain ⟨past, hs⟩ := suffix_of_mem he
    obtain ⟨req, _, hends⟩ := h.end_permitted (requests_keep rule) hs
    cases hends with
    | updated htold => exact ⟨_, rfl, told ((List.suffix_cons _ _).trans hs) htold⟩

theorem Reachable.hidden_unacked (h : Reachable q Undropped w) (hm : Hidden m w.history) :
    m.acked = false := by
  obtain ⟨t, c, rows, b, v, he⟩ := hm
  obtain ⟨past, hs⟩ := suffix_of_mem he
  obtain ⟨_, req, old, _, rfl, rfl, _, rfl, hr⟩ := h.replaces (fun _ _ => id) hs
  rw [hr.updates.keeps rfl]
  exact hr.unacked rfl

/-- A stored message that an issued receipt fits is as a claim or an update of a consumer left
it. -/
theorem Reachable.hidden_of_issued (h : Reachable q Undropped w) {r : Receipt}
    (hr : Issued w.history r) {b : UInt64} (hm : ⟨b, m⟩ ∈ w.rows.messages)
    (hfits : r.fits m = true) :
    Hidden m w.history := by
  obtain ⟨n, hn, hhidden⟩ := h.issued_written hr
  have he : Receipt.of n = Receipt.of m := hn.symm.trans (Receipt.fits_iff.mp hfits)
  injection he with hi hv _
  have hb : n.Became m := h.traced.wrote n hhidden.wrote _ hm hi.symm
  rw [hb.eq_of_version hv.symm]
  exact hhidden

/-! ## What is handed out -/

/-- A claim of the task was applied to the rows at the clock, after what was past by then, and left
the message as `next`. -/
def ClaimAt (h : History) (t : Nat) (c : Instant) (rows : Rows) (next : Message) (past : History) :
    Prop :=
  (∃ limit hide, .started t (.receive limit hide) ∈ past) ∧
    ∃ b v, .performed t c rows ⟨.call (.updateMessage b next ⟨v, true⟩), .ok true⟩ :: past <:+ h

theorem Reachable.claim_at (h : Reachable q rule w) (hrule : ∀ w a, rule w a → Undropped w a)
    {c : Instant} {rows : Rows} {next : Message}
    (hc : ClaimAt w.history t c rows next past) :
    ∃ v limit hide version old, Reachable q rule v ∧ v.history = past ∧ v.rows = rows ∧
      v.clock = c ∧ Replaces q past rows t (.receive limit hide) next ⟨version, true⟩ old := by
  obtain ⟨⟨limit, hide, hstarted⟩, b, version, hs⟩ := hc
  obtain ⟨v, r, old, hv, rfl, rfl, rfl, rfl, hr⟩ := h.replaces hrule hs
  cases hv.started_unique hstarted hr.started
  exact ⟨v, limit, hide, version, old, hv, rfl, rfl, rfl, hr⟩

theorem Replaces.visible {limit : Nat} {hide : Duration} {next old : Message} {cond : Condition}
    (hw : Reachable q Undropped w)
    (hr : Replaces q w.history w.rows t (.receive limit hide) next cond old)
    (hc : cond.unacked = true) : old.visibleAt ≤ w.clock := by
  rcases hr.hides hc with ⟨_, _, _, hclaims⟩ | ⟨_, _, _, _, he, _⟩
  · obtain ⟨u, hu, hle⟩ := hclaims.visible
    exact Nat.le_trans hle (hw.seen_le_clock _ hu)
  · cases he

/-- Whatever is handed out was claimed by the call that hands it out. -/
theorem Reachable.handed_out (h : Reachable q rule w) (hrule : ∀ w a, rule w a → Undropped w a)
    {d : Delivery} (he : .ended t (.ok (.delivery (some d))) ∈ w.history) :
    ∃ c rows next past, ClaimAt w.history t c rows next past ∧ d = Delivery.of next := by
  obtain ⟨past, hs⟩ := suffix_of_mem he
  obtain ⟨r, hstarted, hends⟩ := h.end_permitted (requests_keep _) hs
  cases hends with
  | @received limit hide _ next version told =>
    obtain ⟨c, rows, hmem⟩ := mem_seenBy.mp told
    obtain ⟨past', hs'⟩ := suffix_of_mem hmem
    have hs' := hs'.trans ((List.suffix_cons _ _).trans hs)
    obtain ⟨v, r', old, hv, rfl, rfl, rfl, _, hr⟩ := h.replaces hrule hs'
    have hsame : r' = .receive limit hide :=
      h.started_unique (((List.suffix_cons _ _).trans hs').subset hr.started)
        (((List.suffix_cons _ _).trans hs).subset hstarted)
    exact ⟨_, _, next, _, ⟨⟨limit, hide, hsame ▸ hr.started⟩, _, _, hs'⟩, rfl⟩

/-! ## What was inserted -/

def InsertedAs (m : Message) (h : History) : Prop :=
  ∃ t c rows b, .performed t c rows ⟨.call (.insertMessage b m), .ok true⟩ ∈ h

theorem InsertedAs.mono (hm : InsertedAs m past) (hs : past <:+ h) : InsertedAs m h := by
  obtain ⟨t, c, rows, b, he⟩ := hm
  exact ⟨t, c, rows, b, hs.subset he⟩

theorem InsertedAs.inserted (hm : InsertedAs m h) : Inserted m.index h := by
  obtain ⟨t, c, rows, b, he⟩ := hm
  exact ⟨t, c, rows, b, m, he, rfl⟩

theorem insertedAs_performed {c : Instant} {rows : Rows} {s : Seen}
    (hm : InsertedAs m (.performed t c rows s :: h)) :
    (∃ b, s = ⟨.call (.insertMessage b m), .ok true⟩) ∨ InsertedAs m h := by
  obtain ⟨t', c', rows', b, he⟩ := hm
  rcases List.mem_cons.mp he with he | he
  · cases he
    exact .inl ⟨b, rfl⟩
  · exact .inr ⟨t', c', rows', b, he⟩

theorem Reachable.insertedAs_of_inserted (h : Reachable q Undropped w) (hs : past <:+ w.history)
    (hi : Inserted m.index past) (hm : InsertedAs m w.history) : InsertedAs m past := by
  obtain ⟨t, c, rows, b, he⟩ := hm
  obtain ⟨before, hbefore⟩ := suffix_of_mem he
  have hfirst := (h.inserts hbefore).2
  rcases mem_or_before hbefore hs with he | hle
  · exact ⟨t, c, rows, b, he⟩
  · exact absurd (hi.mono hle) hfirst

theorem Reachable.insertedAs_unique (h : Reachable q Undropped w) {n : Message}
    (hm : InsertedAs m w.history) (hn : InsertedAs n w.history) (hi : m.index = n.index) :
    m = n := by
  obtain ⟨t, c, rows, b, he⟩ := hm
  obtain ⟨past, hs⟩ := suffix_of_mem he
  have hins : Inserted n.index
      (.performed t c rows ⟨.call (.insertMessage b m), .ok true⟩ :: past) :=
    ⟨t, c, rows, b, m, List.mem_cons_self, hi⟩
  rcases insertedAs_performed (h.insertedAs_of_inserted hs hins hn) with ⟨b', he⟩ | hn
  · cases he
    rfl
  · exact absurd (hi ▸ hn.inserted) (h.inserts hs).2

/-- A pending message is as it was inserted, or somebody has revised it. -/
theorem Reachable.inserted_or_hidden (h : Reachable q Undropped w) :
    ∀ r ∈ w.rows.messages, r.message.pending = true →
      InsertedAs r.message w.history ∨ Hidden r.message w.history := by
  refine h.course (P := fun rows h => ∀ r ∈ rows.messages, r.message.pending = true →
    InsertedAs r.message h ∨ Hidden r.message h) (fun _ _ => id) nofun ?_ ?_ ?_
  · exact fun rows past t r ih s hs hp =>
      (ih s hs hp).imp (·.mono (List.suffix_cons _ _)) (·.mono (List.suffix_cons _ _))
  · exact fun rows past t r ih s hs hp =>
      (ih s hs hp).imp (·.mono (List.suffix_cons _ _)) (·.mono (List.suffix_cons _ _))
  · intro v t req s rows hv hstarted hp hturn ih r hr hpending
    have same : r ∈ v.rows.messages →
        InsertedAs r.message (.performed t v.clock v.rows s :: v.history) ∨
          Hidden r.message (.performed t v.clock v.rows s :: v.history) := fun hr =>
      (ih r hr hpending).imp (·.mono (List.suffix_cons _ _)) (·.mono (List.suffix_cons _ _))
    cases hturn with
    | leaves _ => exact same hr
    | swaps => exact same hr
    | records _ => exact same hr
    | deletes => exact same (Rows.mem_removeBucket.mp hr).1
    | @inserts m first =>
      rcases Rows.mem_insert.mp hr with rfl | hr
      · exact .inl ⟨t, _, _, _, List.mem_cons_self⟩
      · exact same hr
    | @replaces next old cond hrep =>
      rcases Rows.mem_replace.mp hr with ⟨_, _, _, rfl⟩ | ⟨hr, _⟩
      · -- The update did not acknowledge the message, so it hid it.
        obtain ⟨version, unacked⟩ := cond
        cases unacked with
        | true => exact .inr ⟨t, _, _, _, version, List.mem_cons_self⟩
        | false =>
          simp [Message.pending, (hrep.updates.acks rfl).1] at hpending
      · exact same hr

/-! ## Honest consumers -/

/-- Nobody drops the queue, and a message is given another payload only by a receipt that was handed
out. -/
def Candid : Rule
  | _, .start .drop => False
  | w, .start (.update r _ _) => Issued w.history r
  | _, _ => True

theorem candid_of_honest {a : Action} (h : Honest w a) : Candid w a := by
  unfold Candid
  split
  · exact h
  · exact h
  · trivial

theorem undropped_of_candid {a : Action} (h : Candid w a) : Undropped w a := by
  rintro rfl
  exact h

theorem Reachable.presented (h : Reachable q Honest w) {r : Receipt}
    (hr : .started t (.ack r) ∈ w.history) : Issued w.history r := by
  obtain ⟨v, _, hissued, hs⟩ := h.ruled hr
  exact Issued.mono hissued hs

theorem Reachable.revised_issued (h : Reachable q Candid w) {r : Receipt} {blob : Blob}
    {hide : Duration} (hr : .started t (.update r blob hide) ∈ w.history) : Issued w.history r := by
  obtain ⟨v, _, hissued, hs⟩ := h.ruled hr
  exact Issued.mono hissued hs

theorem Message.delivered_of_claimed? {next : Message} {u : Instant} {hide : Duration}
    (hn : m.claimed? u hide = some next) : next.delivered = true := by
  rw [(Message.claimed?_eq_some hn).2]
  simpa [Message.delivered] using countUp_pos m.deliveries

theorem Replaces.issued_for {req : Request} {next old : Message} {cond : Condition}
    {r : Receipt} (hw : Reachable q Undropped w)
    (hr : Replaces q w.history w.rows t req next cond old) (hfits : r.fits old = true)
    (hm : Wrote w.history m) (hrm : r = Receipt.of m) : old = m := by
  have he : Receipt.of m = Receipt.of old := hrm.symm.trans (Receipt.fits_iff.mp hfits)
  injection he with hi hv _
  exact (hw.traced.wrote m hm _ hr.stored hi.symm).eq_of_version hv.symm

theorem Replaces.delivered {req : Request} {next old : Message} {cond : Condition}
    (hw : Reachable q Candid w) (hr : Replaces q w.history w.rows t req next cond old)
    (hc : cond.unacked = true) (hd : ∀ m, Hidden m w.history → m.delivered = true) :
    next.delivered = true := by
  rcases hr.hides hc with ⟨limit, hide, rfl, hclaims⟩ | ⟨receipt, blob, hide, u, rfl, ha, _, hn⟩
  · obtain ⟨u, _, hn⟩ := hclaims.next
    exact Message.delivered_of_claimed? hn
  · obtain ⟨m, he, hm⟩ := hw.issued_written (hw.revised_issued hr.started)
    have hold := hr.issued_for (hw.mono fun _ _ => undropped_of_candid) ha.fits hm.wrote he
    rw [(Message.revised?_eq_some hn).2, hold]
    exact hd m hm

/-- What was hidden from the readers had been delivered. -/
theorem Reachable.delivered_of_hidden (h : Reachable q Candid w) :
    ∀ m, Hidden m w.history → m.delivered = true := by
  refine h.course (P := fun _ h => ∀ m, Hidden m h → m.delivered = true)
    (fun _ _ => undropped_of_candid) ?_ ?_ ?_ ?_
  · rintro m ⟨t, c, rows, b, v, he⟩
    exact absurd he List.not_mem_nil
  · exact fun rows past t r ih m hm => ih m (by simpa [Hidden] using hm)
  · exact fun rows past t r ih m hm => ih m (by simpa [Hidden] using hm)
  · intro v t r s _ hv hstarted hp hturn ih m hm
    rcases hidden_performed hm with ⟨b, version, rfl⟩ | hm
    · cases hturn with
      | leaves hs => cases hs
      | replaces hr => exact hr.delivered hv rfl ih
    · exact ih m hm

theorem Reachable.insertedAs_of_pending (h : Reachable q Candid w) :
    ∀ r ∈ w.rows.messages, r.message.pending = true → InsertedAs r.message w.history := by
  intro r hr hpending
  have hd := h.mono fun _ _ => undropped_of_candid
  refine (hd.inserted_or_hidden r hr hpending).resolve_right fun hm => ?_
  simp [Message.pending, h.delivered_of_hidden _ hm] at hpending

theorem Reachable.hidden_delivered (h : Reachable q Honest w) :
    ∀ m, Hidden m w.history → m.delivered = true :=
  (h.mono fun _ _ => candid_of_honest).delivered_of_hidden

theorem Reachable.untouched (h : Reachable q Honest w) :
    ∀ r ∈ w.rows.messages, r.message.pending = true → InsertedAs r.message w.history :=
  (h.mono fun _ _ => candid_of_honest).insertedAs_of_pending

end LeaseQueue.Shared
