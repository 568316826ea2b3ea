import LeaseQueue.Proofs.Shared.Course

/-
  The history of a row.

  A conditional write puts a whole message, worked out from an earlier read, in
  the place of the stored one, and compares nothing but the version and whether
  the stored message is acknowledged. A version stands for one content of a row
  in the whole run, so the stored message is the very one that was read, and the
  write changes of it what the request is about and nothing else.
-/

namespace LeaseQueue.Shared

variable {q : Queue} {w : World} {t : Nat} {past : History} {rows rows' : Rows} {c : Instant}
  {r : Request} {next old : Message} {cond : Condition}

def Claiming (r : Request) (cond : Condition) : Prop :=
  (∃ limit hide, r = .receive limit hide) ∧ cond.unacked = true

/-- What a write of the request may make of a message. -/
structure Revision (r : Request) (cond : Condition) (old next : Message) : Prop where
  index : next.index = old.index
  tag : next.tag = old.tag
  createdAt : next.createdAt = old.createdAt
  version : next.version.toNat = old.version.toNat + 1
  revised : ∀ receipt blob hide, r = .update receipt blob hide → next.blob = blob
  unrevised : (∀ receipt blob hide, r ≠ .update receipt blob hide) → next.blob = old.blob
  claimed : Claiming r cond → old.acked = false ∧
    next.deliveries.toNat = min (old.deliveries.toNat + 1) (UInt32.size - 1)
  unclaimed : ¬ Claiming r cond → next.deliveries = old.deliveries
  acked : old.acked = true → next.acked = true

/-! ## What each write makes of a message -/

/-- A write that takes an acknowledged message as well acknowledges a message that was read. -/
theorem Permitted.acknowledges {tr : List Seen} {b : UInt64}
    (h : Permitted q r tr (.call (.updateMessage b next cond))) (hc : cond.unacked = false) :
    ∃ m, Known tr m ∧ cond.version = m.version ∧ m.acknowledged? = some next ∧
      ∀ receipt blob hide, r ≠ .update receipt blob hide := by
  cases h with
  | looks h => cases h
  | claims _ => cases hc
  | revises _ _ _ => cases hc
  | retires h => exact ⟨_, h.known, rfl, h.next, nofun⟩
  | acks h hn => exact ⟨_, .inr ⟨_, _, h.told⟩, rfl, hn, nofun⟩
  | settles h => exact ⟨_, h.known, rfl, h.next, nofun⟩

theorem Revision.of_claimed? {limit : Nat} {hide : Duration} {u : Instant}
    (hn : old.claimed? u hide = some next) (hacked : old.acked = false) (hc : cond.unacked = true) :
    Revision (.receive limit hide) cond old next := by
  obtain ⟨hversion, hnext⟩ := Message.claimed?_eq_some hn
  have hclaiming : Claiming (.receive limit hide) cond := ⟨⟨limit, hide, rfl⟩, hc⟩
  have hcount : next.deliveries = countUp old.deliveries := by rw [hnext]
  refine ⟨by rw [hnext], by rw [hnext], by rw [hnext], hversion, nofun, fun _ => by rw [hnext],
    fun _ => ⟨hacked, ?_⟩, fun h => absurd hclaiming h, fun h => ?_⟩
  · rw [hcount, countUp_toNat]
  · rw [hacked] at h
    cases h

theorem Revision.of_revised? {receipt : Receipt} {blob : Blob} {hide : Duration} {u : Instant}
    (hn : old.revised? blob u hide = some next) :
    Revision (.update receipt blob hide) cond old next := by
  obtain ⟨hversion, hnext⟩ := Message.revised?_eq_some hn
  refine ⟨by rw [hnext], by rw [hnext], by rw [hnext], hversion, ?_, fun h => absurd rfl (h _ _ _),
    fun h => ?_, fun _ => by rw [hnext], fun h => by rw [hnext, h]⟩
  · rintro _ _ _ ⟨⟩
    rw [hnext]
  · obtain ⟨⟨_, _, he⟩, _⟩ := h
    cases he

theorem Revision.of_acknowledged? (hn : old.acknowledged? = some next)
    (hr : ∀ receipt blob hide, r ≠ .update receipt blob hide) (hc : cond.unacked = false) :
    Revision r cond old next := by
  obtain ⟨hversion, hnext⟩ := Message.acknowledged?_eq_some hn
  refine ⟨by rw [hnext], by rw [hnext], by rw [hnext], hversion,
    fun receipt blob hide h => absurd h (hr receipt blob hide), fun _ => by rw [hnext],
    fun h => absurd h.2 (Bool.eq_false_iff.mp hc), fun _ => by rw [hnext], fun _ => by rw [hnext]⟩

theorem Replaces.revision (h : Replaces q past rows t r next cond old) :
    Revision r cond old next := by
  cases hc : cond.unacked with
  | false =>
    obtain ⟨m, hknown, hversion, hn, hr⟩ := h.permitted.acknowledges hc
    cases h.only m hknown (Message.became_of_acknowledged? hn).index.symm hversion.symm
    exact .of_acknowledged? hn hr hc
  | true =>
    rcases h.hides hc with ⟨limit, hide, rfl, hclaims⟩ | ⟨receipt, blob, hide, u, rfl, _, _, hn⟩
    · obtain ⟨u, _, hn⟩ := hclaims.next
      exact .of_claimed? hn hclaims.unacked hc
    · exact .of_revised? hn

/-! ## What changes a row -/

/-- A stored row stays as it is unless it is replaced by an update. -/
theorem Turn.same_or_replaced {s : Seen} {row row' : Row} (hf : Filed q rows past)
    (h : Turn q past rows t r s rows') (hrow : row ∈ rows.messages) (hrow' : row' ∈ rows'.messages)
    (hi : row'.message.index = row.message.index) :
    row' = row ∨ ∃ cond, s = ⟨.call (.updateMessage row.bucket row'.message cond), .ok true⟩ := by
  have same : row' ∈ rows.messages → row' = row := fun hrow' => hf.distinct.eq hrow' hrow hi
  cases h with
  | leaves _ => exact .inl (same hrow')
  | swaps => exact .inl (same hrow')
  | records _ => exact .inl (same hrow')
  | deletes => exact .inl (same (Rows.mem_removeBucket.mp hrow').1)
  | inserts first =>
    rcases Rows.mem_insert.mp hrow' with rfl | hrow'
    · exact absurd (hi ▸ hf.inserted row hrow) first
    · exact .inl (same hrow')
  | @replaces next old cond hrep =>
    rcases Rows.mem_replace.mp hrow' with ⟨_, _, _, rfl⟩ | ⟨hrow', _⟩
    · have hbucket : q.bucketOf next.index = row.bucket := hi ▸ (hf.placed row hrow).symm
      exact .inr ⟨cond, by rw [hbucket]⟩
    · exact .inl (same hrow')

/-! ## The history of a row -/

/-- Every row is stored in the bucket of its index. An update that is applied replaces the very
message that its writer had read, and makes a revision of it; nothing else changes a row. -/
theorem row_history (h : Reachable q Undropped w) :
    (∀ row ∈ w.rows.messages, row.bucket = q.bucketOf row.message.index) ∧
    (∀ t c rows b next cond past,
      .performed t c rows ⟨.call (.updateMessage b next cond), .ok true⟩ :: past <:+ w.history →
      ∃ r old, .started t r ∈ past ∧ ⟨b, old⟩ ∈ rows.messages ∧
        Known (seenBy t past) old ∧
        (∀ m, Known (seenBy t past) m → m.index = next.index → m.version = cond.version → m = old) ∧
        Revision r cond old next) ∧
    ∀ t c rows s past rows', .performed t c rows s :: past <:+ w.history →
      Answered rows c s rows' → ∀ row ∈ rows.messages, ∀ row' ∈ rows'.messages,
        row'.message.index = row.message.index →
        row' = row ∨
          ∃ cond, s = ⟨.call (.updateMessage row.bucket row'.message cond), .ok true⟩ := by
  refine ⟨h.filed.placed, ?_, ?_⟩
  · intro t c rows b next cond past hs
    obtain ⟨v, r, old, _, rfl, rfl, rfl, rfl, hrep⟩ := h.replaces (fun _ _ => id) hs
    exact ⟨r, old, hrep.started, hrep.stored, hrep.updates.known, hrep.only, hrep.revision⟩
  · intro t c rows s past rows' hs hans row hrow row' hrow' hi
    obtain ⟨v, r, _, _, hv, rfl, rfl, rfl, ht, _, _⟩ := h.at_effect hs
    obtain ⟨hstarted, hp, _⟩ := hv.task_obeys (requests_keep _) ht
    exact (hv.turn hstarted hp (touch_of_answered hans)).same_or_replaced hv.filed hrow hrow' hi

/-- A message is put and handed out, given another payload, and handed out again. -/
def revisedBetween : List Action :=
  serve 0 (.put [1] 0) 6 ++ serve 1 (.receive 1 1000) 12 ++
    serve 2 (.update ⟨0, 1, ⟨7⟩⟩ [2] 500) 3 ++ [.pass 500] ++ serve 3 (.receive 1 1000) 7

/-- The second claim replaces the message that its reader had read after the update. -/
theorem row_history_revised_between :
    ∃ w t c rows b next cond past old, Reachable singles Undropped w ∧
      .performed t c rows ⟨.call (.updateMessage b next cond), .ok true⟩ :: past <:+ w.history ∧
      next.version = 3 ∧ next.deliveries = 2 ∧ next.blob = [2] ∧ ⟨b, old⟩ ∈ rows.messages ∧
      Known (seenBy t past) old ∧ Revision (.receive 1 1000) cond old next ∧
      ∀ row ∈ w.rows.messages, row.bucket = singles.bucketOf row.message.index := by
  obtain ⟨w, hw, c, rows, b, next, cond, past, hpast, hversion, hcount, hblob, hstarted⟩ :
      ∃ w, ({} : World).run? singles revisedBetween = some w ∧ ∃ c rows b next cond past,
        w.history.drop 3 =
          .performed 3 c rows ⟨.call (.updateMessage b next cond), .ok true⟩ :: past ∧
        next.version = 3 ∧ next.deliveries = 2 ∧ next.blob = [2] ∧
        past[4]? = some (.started 3 (.receive 1 1000)) :=
    ⟨_, rfl, _, _, _, _, _, _, rfl, rfl, rfl, rfl, rfl⟩
  have h : Reachable singles Undropped w :=
    .run (by simp [revisedBetween, serve, Undropped]) .fresh hw
  have hs : .performed 3 c rows ⟨.call (.updateMessage b next cond), .ok true⟩ :: past <:+
      w.history := hpast ▸ List.drop_suffix 3 w.history
  obtain ⟨placed, replaced, _⟩ := row_history h
  obtain ⟨r, old, hr, hold, hknown, _, hrev⟩ := replaced 3 c rows b next cond past hs
  have hle : past <:+ w.history := (List.suffix_cons _ _).trans hs
  cases h.started_unique (hle.subset hr) (hle.subset (List.mem_of_getElem? hstarted))
  exact ⟨w, 3, c, rows, b, next, cond, past, old, h, hs, hversion, hcount, hblob, hold, hknown,
    hrev, placed⟩

end LeaseQueue.Shared
