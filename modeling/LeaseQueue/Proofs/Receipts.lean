import LeaseQueue.Proofs.Shared.Holders
import LeaseQueue.Proofs.Shared.Undisturbed

/-
  A receipt is good for one call, and an acknowledgement is final.

  A call that presents a receipt reads the message, compares it with the receipt
  and writes on the condition that the version is still the one it has read. Each
  write raises the version, so at most one such write is applied, and it replaces
  the message that the receipt was issued for. Nothing that hides a message
  applies to an acknowledged one, so no receipt is issued for such a version.
-/

namespace LeaseQueue.Shared

variable {q : Queue} {w : World} {t u : Nat} {h past past' : History} {m : Message} {r : Receipt}
  {rows rows' : Rows} {next next' : Message}

def Shows (r : Receipt) (req : Request) : Prop :=
  req = .ack r ∨ ∃ blob hide, req = .update r blob hide

/-- The task presents the receipt. -/
def Presents (h : History) (t : Nat) (r : Receipt) : Prop :=
  ∃ req, Shows r req ∧ .started t req ∈ h

/-- The answer says that a receipt was accepted. -/
def Accepts (result : Result) : Prop :=
  result = .ok (.acked true) ∨ ∃ r, result = .ok (.updated (some r))

def Succeeds (h : History) (t : Nat) : Prop :=
  ∃ result, Accepts result ∧ .ended t result ∈ h

/-- A write of a task that presents the receipt was applied to the rows, after what was past by
then, and left the message as `next`. -/
def AcceptedAt (h : History) (r : Receipt) (t : Nat) (rows : Rows) (next : Message)
    (past : History) : Prop :=
  Presents past t r ∧
    ∃ c b cond, .performed t c rows ⟨.call (.updateMessage b next cond), .ok true⟩ :: past <:+ h

/-! ## What a receipt lets a task replace -/

theorem Permitted.shows {req : Request} {tr : List Seen} {b : UInt64} {cond : Condition}
    (h : Permitted q req tr (.call (.updateMessage b next cond))) (hreq : Shows r req) :
    ∃ m, cond.version = m.version ∧ m.Became next ∧ Authorized q tr r m := by
  cases h with
  | looks h => cases h
  | claims _ => exact absurd hreq (by simp [Shows])
  | retires _ => exact absurd hreq (by simp [Shows])
  | settles _ => exact absurd hreq (by simp [Shows])
  | acks ha hn =>
    obtain he | ⟨_, _, he⟩ := hreq
    · cases he
      exact ⟨_, rfl, Message.became_of_acknowledged? hn, ha⟩
    · cases he
  | revises ha _ hn =>
    obtain he | ⟨_, _, he⟩ := hreq
    · cases he
    · cases he
      exact ⟨_, rfl, Message.became_of_revised? hn, ha⟩

theorem Replaces.fits {req : Request} {cond : Condition} {old : Message}
    (hr : Replaces q past rows t req next cond old) (hreq : Shows r req) : r = Receipt.of old := by
  obtain ⟨m, hv, hbec, ha⟩ := hr.permitted.shows hreq
  cases hr.only m (.inr ⟨_, _, ha.told⟩) hbec.index.symm hv.symm
  exact Receipt.fits_iff.mp ha.fits

theorem Reachable.accepted_at (h : Reachable q Undropped w)
    (ha : AcceptedAt w.history r t rows next past) :
    ∃ v req cond old, Reachable q Undropped v ∧ v.history = past ∧ v.rows = rows ∧
      Shows r req ∧ Replaces q past rows t req next cond old ∧ r = Receipt.of old := by
  obtain ⟨⟨req, hreq, hstarted⟩, c, b, cond, hs⟩ := ha
  obtain ⟨v, req', old, hv, rfl, rfl, rfl, rfl, hr⟩ := h.replaces (fun _ _ => id) hs
  cases hv.started_unique hstarted hr.started
  exact ⟨v, req, cond, old, hv, rfl, rfl, hreq, hr, hr.fits hreq⟩

theorem Reachable.accepted_of_succeeds (h : Reachable q Undropped w)
    (hp : Presents w.history t r) (hsucc : Succeeds w.history t) :
    ∃ rows next past, AcceptedAt w.history r t rows next past := by
  obtain ⟨req, hreq, hstarted⟩ := hp
  obtain ⟨result, hacc, he⟩ := hsucc
  obtain ⟨past, hs⟩ := suffix_of_mem he
  obtain ⟨req', hstarted', hends⟩ := h.end_permitted (requests_keep _) hs
  have hpast : past <:+ w.history := (List.suffix_cons _ _).trans hs
  cases h.started_unique hstarted (hpast.subset hstarted')
  have applied : ∀ {b next cond}, Told (seenBy t past) (.updateMessage b next cond) true →
      ∃ rows next past, AcceptedAt w.history r t rows next past := by
    intro b next cond told
    obtain ⟨c, rows, hmem⟩ := mem_seenBy.mp told
    obtain ⟨past', hs'⟩ := suffix_of_mem hmem
    have hs' := hs'.trans hpast
    obtain ⟨v, req', old, _, rfl, rfl, _, rfl, hr⟩ := h.replaces (fun _ _ => id) hs'
    have hv : v.history <:+ w.history := (List.suffix_cons _ _).trans hs'
    cases h.started_unique hstarted (hv.subset hr.started)
    exact ⟨_, next, _, ⟨req, hreq, hr.started⟩, c, _, cond, hs'⟩
  rcases hacc with rfl | ⟨given, rfl⟩
  · cases hends with
    | acked told => exact applied told
  · cases hends with
    | updated told => exact applied told

/-! ## Versions only rise -/

theorem Reachable.version_lt (h : Reachable q Undropped w) {c : Instant} {s : Seen}
    (hs : .performed t c rows s :: past <:+ w.history) (hn : s.written = some next)
    (hm : Wrote past m) (hi : m.index = next.index) : m.version.toNat < next.version.toNat := by
  unfold Seen.written at hn
  split at hn
  · cases hn
    obtain ⟨v, _, _, hv, rfl, _⟩ := h.turn_at (fun _ _ => id) hs
    exact absurd (hi ▸ inserted_of_wrote hv hm) (h.inserts hs).2
  · cases hn
    obtain ⟨v, req, old, hv, rfl, rfl, _, _, hr⟩ := h.replaces (fun _ _ => id) hs
    have hle := (hv.traced.wrote m hm _ hr.stored
      (hr.updates.became.index.symm.trans hi.symm)).version_le
    rw [UInt64.le_iff_toNat_le] at hle
    rw [hr.updates.step]
    exact Nat.lt_succ_of_le hle
  · cases hn

/-- Since a stored message was written, nothing was written at its index. -/
theorem Reachable.latest (h : Reachable q Undropped w) {row : Row} (hrow : row ∈ w.rows.messages)
    {c : Instant} {s : Seen} (hs : .performed t c rows s :: past <:+ w.history)
    (hn : s.written = some next) (hi : next.index = row.message.index) :
    ¬ Wrote past row.message := by
  intro hm
  have hlt := h.version_lt hs hn hm hi.symm
  have hle := (h.traced.wrote next ⟨t, c, rows, s, hs.subset List.mem_cons_self, hn⟩ row hrow
    hi.symm).version_le
  rw [UInt64.le_iff_toNat_le] at hle
  omega

theorem Reachable.accepted_next (h : Reachable q Undropped w)
    (ha : AcceptedAt w.history r t rows next past) :
    next.index = r.index ∧ next.version.toNat = r.version.toNat + 1 := by
  obtain ⟨v, req, cond, old, _, _, _, _, hr, rfl⟩ := h.accepted_at ha
  exact ⟨hr.updates.became.index, hr.updates.step⟩

theorem Reachable.accepted_once (h : Reachable q Undropped w)
    (ha : AcceptedAt w.history r t rows next past)
    (hb : AcceptedAt w.history r u rows' next' past') : t = u := by
  obtain ⟨hi, hv⟩ := h.accepted_next ha
  obtain ⟨hi', hv'⟩ := h.accepted_next hb
  have hne : ¬ (Wrote past' next ∨ Wrote past next') := by
    obtain ⟨_, _, _, _, hs⟩ := ha
    obtain ⟨_, _, _, _, hs'⟩ := hb
    rintro (hw | hw)
    · have := h.version_lt hs' rfl hw (hi.trans hi'.symm)
      omega
    · have := h.version_lt hs rfl hw (hi'.trans hi.symm)
      omega
  obtain ⟨_, c, b, cond, hs⟩ := ha
  obtain ⟨_, c', b', cond', hs'⟩ := hb
  rcases same_or_before hs hs' with ⟨he, _⟩ | hle | hle
  · cases he
    rfl
  · exact absurd (.inl ⟨t, c, rows, _, hle.subset List.mem_cons_self, rfl⟩) hne
  · exact absurd (.inr ⟨u, c', rows', _, hle.subset List.mem_cons_self, rfl⟩) hne

/-! ## What a receipt was issued for -/

/-- A receipt that was issued is accepted for the unacknowledged message that it was issued for. -/
theorem Reachable.accepted_issued (h : Reachable q Undropped w) (hr : Issued w.history r)
    (ha : AcceptedAt w.history r t rows next past) :
    ∃ live, rows.find? (q.bucketOf r.index) r.index = some live ∧ r = Receipt.of live ∧
      Hidden live past ∧ live.acked = false := by
  obtain ⟨m, rfl, hm⟩ := h.issued_written hr
  obtain ⟨hi, hv⟩ := h.accepted_next ha
  obtain ⟨v, req, cond, old, hv', rfl, rfl, hreq, hrep, hold⟩ := h.accepted_at ha
  obtain ⟨_, c, b, cond', hs⟩ := ha
  have hunacked := h.hidden_unacked hm
  obtain ⟨t', c', rows', b', version, he⟩ := hm
  obtain ⟨past', hs'⟩ := suffix_of_mem he
  -- The write that the receipt was issued for came first, since versions only rise.
  have hbefore : Hidden m v.history := by
    rcases same_or_before hs hs' with ⟨he, _⟩ | hle | hle
    · cases he
      exact absurd hv (Nat.ne_of_lt (Nat.lt_succ_self _))
    · have hlt := h.version_lt hs' rfl ⟨t, c, v.rows, _, hle.subset List.mem_cons_self, rfl⟩ hi
      change _ = m.version.toNat + 1 at hv
      omega
    · exact ⟨t', c', rows', b', version, hle.subset List.mem_cons_self⟩
  have hsame : old = m := by
    injection hold with hi' hver _
    exact (hv'.traced.wrote m hbefore.wrote _ hrep.stored hi'.symm).eq_of_version hver.symm
  subst hsame
  refine ⟨old, ?_, rfl, hbefore, hunacked⟩
  have hfound := hrep.found
  rw [hrep.updates.became.index] at hfound
  exact hfound

/-! ## After an acknowledgement -/

theorem Reachable.acked_of_ack (h : Reachable q Undropped w) (hack : .started t (.ack r) ∈ past)
    (ha : AcceptedAt w.history r t rows next past) : next.acked = true := by
  obtain ⟨v, req, cond, old, hv, rfl, rfl, _, hr, _⟩ := h.accepted_at ha
  cases hv.started_unique hack hr.started
  rw [(Message.acknowledged?_eq_some hr.ack.2.1).2]

theorem Reachable.claim_unacked (h : Reachable q Undropped w) {c : Instant}
    (hc : ClaimAt w.history t c rows next past) (hm : Wrote past m) (hi : m.index = next.index) :
    m.acked = false := by
  obtain ⟨v, limit, hide, version, old, hv, rfl, rfl, _, hr⟩ := h.claim_at (fun _ _ => id) hc
  refine Bool.eq_false_iff.mpr fun hacked => ?_
  have hb := hv.traced.wrote m hm _ hr.stored (hr.updates.became.index.symm.trans hi.symm)
  exact absurd (hb.acked hacked) (Bool.eq_false_iff.mp (hr.unacked rfl))

theorem Reachable.at_start {rule : Rule} (h : Reachable q rule w) {req : Request}
    (hs : .started t req :: past <:+ w.history) : ∀ req', .started t req' ∉ past := by
  induction h with
  | fresh => exact absurd (List.suffix_nil.mp hs) (List.cons_ne_nil _ _)
  | step hr _ hstep ih =>
    cases move_of_step? hstep with
    | starts request =>
      rcases List.suffix_cons_iff.mp hs with he | hs
      · cases he
        exact (hr.untraced _ (Nat.le_refl _)).started
      · exact ih hs
    | passes d => exact ih hs
    | performs ht hans => exact ih ((List.suffix_cons_iff.mp hs).resolve_left nofun)
    | turns ht => exact ih hs
    | ends ht => exact ih ((List.suffix_cons_iff.mp hs).resolve_left nofun)

theorem Reachable.not_handed_out (h : Reachable q Undropped w) {req : Request} {d : Delivery}
    (hs : .started t req :: past <:+ w.history) (hm : Wrote past m) (hacked : m.acked = true)
    (hd : .ended t (.ok (.delivery (some d))) ∈ w.history) : d.index ≠ m.index := by
  rintro hi
  obtain ⟨c, rows, next, past', hc, rfl⟩ := h.handed_out (fun _ _ => id) hd
  obtain ⟨⟨limit, hide, hstarted⟩, b, v, hs'⟩ := hc
  -- The claim came after the start of the call.
  have hle : past <:+ past' := by
    rcases List.suffix_or_suffix_of_suffix ((List.suffix_cons _ _).trans hs)
      ((List.suffix_cons _ _).trans hs') with hle | hle
    · exact hle
    · exact absurd (hle.subset hstarted) (h.at_start hs _)
  have := h.claim_unacked ⟨⟨limit, hide, hstarted⟩, b, v, hs'⟩ (hm.mono hle) hi.symm
  rw [hacked] at this
  cases this

theorem Reachable.not_accepted_again (h : Reachable q Undropped w) (hr : Issued w.history r)
    (ha : AcceptedAt w.history r t rows next past) (hm : Wrote past m) (hacked : m.acked = true) :
    r.index ≠ m.index := by
  intro hi
  obtain ⟨live, hf, rfl, _, hlive⟩ := h.accepted_issued hr ha
  obtain ⟨v, req, cond, old, hv, rfl, rfl, _⟩ := h.accepted_at ha
  have hb := hv.traced.wrote m hm _ (Rows.find?_eq_some hf).1 hi
  rw [hb.acked hacked] at hlive
  cases hlive

/-! ## Without interference -/

/-- The stored message that the receipt fits, if it has a next version. -/
def Good (q : Queue) (rows : Rows) (r : Receipt) : Prop :=
  ∃ live, rows.find? (q.bucketOf r.index) r.index = some live ∧ r.fits live = true ∧
    (wordSucc? live.version).isSome

/-- No call fails, and there is no fault if the receipt is good. -/
def untroubled (q : Queue) (rows : Rows) (r : Receipt) : Setting :=
  ⟨false, fun _ _ => ¬ Good q rows r⟩

/-- Left alone, a call is told that its receipt was accepted exactly if it is good. -/
theorem shows_solo {req : Request} {c : Instant} (hreq : Shows r req)
    (hlive : ∀ m, rows.find? (q.bucketOf r.index) r.index = some m → r.fits m = true →
      m.acked = false) :
    (req.op q).Solo (untroubled q rows r)
      (fun reply _ _ => Accepts (.ok reply) ↔ Good q rows r) rows c := by
  have bears : ∀ rows', (untroubled q rows r).Bears rows' := fun _ => .unfailing rfl
  have refused : ∀ result, ¬ Accepts result →
      (∀ m, rows.find? (q.bucketOf r.index) r.index = some m → r.fits m = false) →
      (Accepts result ↔ Good q rows r) := by
    refine fun result hres hnone => ⟨fun hacc => absurd hacc hres, fun hgood => ?_⟩
    obtain ⟨m, hf, hfits, _⟩ := hgood
    exact absurd hfits (Bool.eq_false_iff.mp (hnone m hf))
  have overflow : ∀ m, rows.find? (q.bucketOf r.index) r.index = some m →
      wordSucc? m.version = none → ¬ Good q rows r := by
    rintro m hf hv ⟨n, hf', _, hn⟩
    cases hf.symm.trans hf'
    rw [hv] at hn
    cases hn
  have good : ∀ m, rows.find? (q.bucketOf r.index) r.index = some m → r.fits m = true →
      (wordSucc? m.version).isSome → Good q rows r := fun m hf hfits hv => ⟨m, hf, hfits, hv⟩
  have hindex : ∀ m, r.fits m = true → r.index = m.index := by
    intro m hfits
    rw [Receipt.fits_iff.mp hfits]
    rfl
  have raised : ∀ {m : Message} {f : UInt64 → Message} {next : Message},
      (wordSucc? m.version).map f = some next → (wordSucc? m.version).isSome := by
    intro m f next hn
    obtain ⟨v, hv, _⟩ := Option.map_eq_some_iff.mp hn
    exact hv ▸ rfl
  rcases hreq with rfl | ⟨blob, hide, rfl⟩
  · refine .map (.bind (authorize_solo (bears _) (fun t hnone => ?_) fun m t hm hfits => ?_))
    · exact .pure (refused _ (by simp [Accepts]) hnone)
    · refine acknowledge_solo (bears _) (hindex m hfits ▸ hm) (fun next _ _ hn => ?_)
        fun hv => overflow m hm hv
      exact ⟨fun _ => good m hm hfits (raised hn), fun _ => .inl rfl⟩
  · refine .map (.bind (authorize_solo (bears _) (fun t hnone => ?_) fun m t hm hfits => ?_))
    · exact .pure (refused _ (by simp [Accepts]) hnone)
    · refine .map (revise_solo (bears _) (hindex m hfits ▸ hm) (hlive m hm hfits)
        (fun next _ _ _ hn => ?_) fun hv => overflow m hm hv)
      exact ⟨fun _ => good m hm hfits (raised hn), fun _ => .inr ⟨_, rfl⟩⟩

/-- In a run that is not as long as there are versions, a receipt is good if it fits. -/
theorem Reachable.good_iff (h : Reachable q Undropped w)
    (hlen : w.history.length + 1 < UInt64.size) :
    Good q w.rows r ↔
      ∃ live, w.rows.find? (q.bucketOf r.index) r.index = some live ∧ r.fits live = true := by
  constructor
  · rintro ⟨live, hf, hfits, _⟩
    exact ⟨live, hf, hfits⟩
  · rintro ⟨live, hf, hfits⟩
    exact ⟨live, hf, hfits, h.has_next hlen _ (Rows.find?_eq_some hf).1⟩

/-- A call with a receipt that was issued, left alone from its start, is told that it was accepted
exactly if it is good at its start; and it can be run to its end. -/
theorem Reachable.alone (h : Reachable q Undropped w) (hr : Issued w.history r) {req : Request}
    (hreq : Shows r req) :
    (∀ actions w' result, (∀ a ∈ actions, Own w.started a) →
      w.run? q (.start req :: actions) = some w' → .ended w.started result ∈ w'.history →
      (Accepts result ↔ Good q w.rows r)) ∧
    ∃ actions w' result, (∀ a ∈ actions, Own w.started a) ∧
      w.run? q (.start req :: actions) = some w' ∧ .ended w.started result ∈ w'.history := by
  have hsolo : (req.op q).Solo (untroubled q w.rows r) _ w.rows w.clock :=
    shows_solo hreq fun m hf hfits =>
      h.hidden_unacked (h.hidden_of_issued hr (Rows.find?_eq_some hf).1 hfits)
  refine ⟨fun actions w' result hown hrun hend => ?_, h.served_ends hsolo⟩
  obtain ⟨c, hres⟩ := h.served_ended hsolo hown hrun hend
  cases result with
  | ok reply => exact hres
  | error f => exact ⟨fun hacc => by simp [Accepts] at hacc, fun hgood => absurd hgood hres⟩

/-! ## Every receipt -/

/-- Of the calls that present a receipt at most one succeeds, and it is applied to the very message
that the receipt was issued for, with no write in between. After an acknowledgement of a message no
claim of it is applied, no later call hands it out and no receipt for it is accepted. A call that is
left alone comes to an end and succeeds exactly if its receipt is good, which it is, as long as
there are versions left, if it fits. -/
theorem receipts_single_use (h : Reachable q Undropped w) :
    (∀ r t u, Presents w.history t r → Presents w.history u r →
      Succeeds w.history t → Succeeds w.history u → t = u) ∧
    (∀ r t, Issued w.history r → Presents w.history t r → Succeeds w.history t →
      ∃ rows next past live, AcceptedAt w.history r t rows next past ∧
        rows.find? (q.bucketOf r.index) r.index = some live ∧ r = Receipt.of live ∧
        Hidden live past ∧ ∀ u c rows' s past' m, .performed u c rows' s :: past' <:+ past →
          s.written = some m → m.index = r.index → ¬ Wrote past' live) ∧
    (∀ r t rows next past, .started t (.ack r) ∈ past →
      AcceptedAt w.history r t rows next past →
      (∀ u c rows' next' past', ClaimAt w.history u c rows' next' past' →
        Wrote past' next → next'.index ≠ r.index) ∧
      (∀ u req past' d, .started u req :: past' <:+ w.history → Wrote past' next →
        .ended u (.ok (.delivery (some d))) ∈ w.history → d.index ≠ r.index) ∧
      ∀ r' u rows' next' past', Issued w.history r' →
        AcceptedAt w.history r' u rows' next' past' → Wrote past' next → r'.index ≠ r.index) ∧
    ∀ r req, Issued w.history r → Shows r req →
      (∀ actions w' result, (∀ a ∈ actions, Own w.started a) →
        w.run? q (.start req :: actions) = some w' → .ended w.started result ∈ w'.history →
        (Accepts result ↔ Good q w.rows r)) ∧
      (w.history.length + 1 < UInt64.size → (Good q w.rows r ↔
        ∃ live, w.rows.find? (q.bucketOf r.index) r.index = some live ∧ r.fits live = true)) ∧
      ∃ actions w' result, (∀ a ∈ actions, Own w.started a) ∧
        w.run? q (.start req :: actions) = some w' ∧ .ended w.started result ∈ w'.history := by
  refine ⟨?_, ?_, fun r t rows next past hack ha => ⟨?_, ?_, ?_⟩, fun r req hr hreq => ?_⟩
  · intro r t u ht hu hst hsu
    obtain ⟨_, _, _, ha⟩ := h.accepted_of_succeeds ht hst
    obtain ⟨_, _, _, hb⟩ := h.accepted_of_succeeds hu hsu
    exact h.accepted_once ha hb
  · intro r t hr ht hst
    obtain ⟨rows, next, past, ha⟩ := h.accepted_of_succeeds ht hst
    obtain ⟨live, hf, hlive, hhidden, _⟩ := h.accepted_issued hr ha
    refine ⟨rows, next, past, live, ha, hf, hlive, hhidden, fun u c rows' s past' m hs hm hi => ?_⟩
    obtain ⟨v, req, cond, old, hv, rfl, rfl, _, hrep, _⟩ := h.accepted_at ha
    have hi' : m.index = live.index := by rw [hi, hlive]; rfl
    exact hv.latest (Rows.find?_eq_some hf).1 hs hm hi'
  · intro u c rows' next' past' hc hw hi
    have hnext := (h.accepted_next ha).1
    have := h.claim_unacked hc hw (hnext.trans hi.symm)
    rw [h.acked_of_ack hack ha] at this
    cases this
  · intro u req past' d hs hw hd
    rw [← (h.accepted_next ha).1]
    exact h.not_handed_out hs hw (h.acked_of_ack hack ha) hd
  · intro r' u rows' next' past' hr' ha' hw
    rw [← (h.accepted_next ha).1]
    exact h.not_accepted_again hr' ha' hw (h.acked_of_ack hack ha)
  · obtain ⟨ends, runs⟩ := h.alone hr hreq
    exact ⟨ends, h.good_iff, runs⟩

def firstReceipt : Receipt := ⟨0, 1, ⟨7⟩⟩

/-- A message is put and handed out, and its receipt is presented twice. -/
def ackedTwice : List Action :=
  serve 0 (.put [1] 0) 6 ++ serve 1 (.receive 1 1000) 12 ++ serve 2 (.ack firstReceipt) 2 ++
    serve 3 (.ack firstReceipt) 1

/-- The first of two acknowledgements is accepted for what was handed out, the second is refused. -/
theorem receipts_single_use_acked_twice :
    ∃ w, Reachable singles Undropped w ∧ Issued w.history firstReceipt ∧
      Presents w.history 2 firstReceipt ∧ Presents w.history 3 firstReceipt ∧
      ¬ Succeeds w.history 3 ∧ ∃ rows next past live,
        AcceptedAt w.history firstReceipt 2 rows next past ∧ Hidden live past ∧
        firstReceipt = Receipt.of live := by
  obtain ⟨w, hw, h3, h2, hs2, d, hd, hr⟩ : ∃ w, ({} : World).run? singles ackedTwice = some w ∧
      w.history[2]? = some (.started 3 (.ack firstReceipt)) ∧
      w.history[6]? = some (.started 2 (.ack firstReceipt)) ∧
      w.history[3]? = some (.ended 2 (.ok (.acked true))) ∧
      ∃ d, w.history[7]? = some (.ended 1 (.ok (.delivery (some d)))) ∧ d.receipt = firstReceipt :=
    ⟨_, rfl, rfl, rfl, rfl, _, rfl, rfl⟩
  have h : Reachable singles Undropped w :=
    .run (by simp [ackedTwice, serve, Undropped]) .fresh hw
  have issued : Issued w.history firstReceipt := .inl ⟨1, d, List.mem_of_getElem? hd, hr⟩
  have presents₂ : Presents w.history 2 firstReceipt := ⟨_, .inl rfl, List.mem_of_getElem? h2⟩
  have presents₃ : Presents w.history 3 firstReceipt := ⟨_, .inl rfl, List.mem_of_getElem? h3⟩
  have succeeds : Succeeds w.history 2 := ⟨_, .inl rfl, List.mem_of_getElem? hs2⟩
  obtain ⟨once, live, _, _⟩ := receipts_single_use h
  obtain ⟨rows, next, past, live, ha, _, hlive, hhidden, _⟩ :=
    live firstReceipt 2 issued presents₂ succeeds
  refine ⟨w, h, issued, presents₂, presents₃, fun hs => ?_, rows, next, past, live, ha, hhidden,
    hlive⟩
  exact absurd (once firstReceipt 2 3 presents₂ presents₃ succeeds hs) (by decide)

end LeaseQueue.Shared
