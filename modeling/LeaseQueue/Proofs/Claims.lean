import LeaseQueue.Proofs.Shared.Holders

/-
  Claims are timely, and two claims of a message are never in force together.

  A reader looks at a message some calls before it claims it. The claim is
  applied only if the version is still the one that it has read, so what it
  replaces is the message that it has read, unacknowledged; and what was visible
  when it looked at the clock is visible now, because the clock does not go back.

  The first delay of a message counts from when its put looked at the clock
  (`Reachable.visibleAt_of_put`). Until the first claim only a receipt that was
  never given to anybody can change when that delay is over; hence `Honest`.
-/

namespace LeaseQueue.Shared

variable {q : Queue} {w : World} {t : Nat} {h past : History} {m : Message} {i : UInt64}

/-- From when a message may be handed out, as the latest of its insert, its claims and the updates
of consumers has left it. -/
def leftVisibleAt (i : UInt64) : History → Option Instant
  | [] => none
  | .performed _ _ _ ⟨.call (.insertMessage _ m), .ok true⟩ :: past =>
    if m.index = i then some m.visibleAt else leftVisibleAt i past
  | .performed _ _ _ ⟨.call (.updateMessage _ m ⟨_, true⟩), .ok true⟩ :: past =>
    if m.index = i then some m.visibleAt else leftVisibleAt i past
  | _ :: past => leftVisibleAt i past

/-! ## What was left before it -/

theorem Reachable.leftVisibleAt_eq (h : Reachable q Undropped w) :
    ∀ r ∈ w.rows.messages, leftVisibleAt r.message.index w.history = some r.message.visibleAt := by
  refine h.course (P := fun rows h => ∀ r ∈ rows.messages,
    leftVisibleAt r.message.index h = some r.message.visibleAt) (fun _ _ => id) nofun ?_ ?_ ?_
  · exact fun rows past t r ih => ih
  · exact fun rows past t r ih => ih
  · intro v t req s rows hv _ _ hturn ih r hr
    cases hturn with
    | @leaves s hs =>
      rw [leftVisibleAt]
      · exact ih r hr
      · rintro _ _ _ b m he
        cases he
        cases hs
      · rintro _ _ _ b m version he
        cases he
        cases hs
    | swaps => exact ih r hr
    | records _ => exact ih r hr
    | deletes => exact ih r (Rows.mem_removeBucket.mp hr).1
    | @inserts m first =>
      rw [leftVisibleAt]
      rcases Rows.mem_insert.mp hr with rfl | hr
      · rw [if_pos rfl]
      · have hne : m.index ≠ r.message.index := fun he =>
          first (he ▸ hv.filed.inserted r hr)
        rw [if_neg hne]
        exact ih r hr
    | @replaces next old cond hrep =>
      obtain ⟨version, unacked⟩ := cond
      have hi : next.index = old.index := hrep.updates.became.index
      have hkeep : ∀ r ∈ v.rows.messages, r.sits (q.bucketOf next.index) next.index = false →
          next.index ≠ r.message.index := by
        intro r hr hsits he
        cases hv.filed.distinct.eq hr hrep.stored (he.symm.trans hi)
        simp [Row.sits, he] at hsits
      cases unacked with
      | true =>
        rw [leftVisibleAt]
        rcases Rows.mem_replace.mp hr with ⟨_, _, _, rfl⟩ | ⟨hr, hsits⟩
        · rw [if_pos rfl]
        · rw [if_neg (hkeep r hr hsits)]
          exact ih r hr
      | false =>
        -- An acknowledgement leaves the message as visible as it was.
        show leftVisibleAt r.message.index v.history = _
        rcases Rows.mem_replace.mp hr with ⟨_, _, _, rfl⟩ | ⟨hr, _⟩
        · show leftVisibleAt next.index v.history = some next.visibleAt
          rw [(hrep.updates.acks rfl).2.1, hi]
          exact ih _ hrep.stored
        · exact ih r hr

/-! ## The first delay -/

/-- Something happened at the instant or later. -/
def Reached (v : Instant) (h : History) : Prop :=
  ∃ t c rows s, .performed t c rows s ∈ h ∧ v ≤ c

theorem Reached.mono {v : Instant} (hv : Reached v past) (hs : past <:+ h) : Reached v h := by
  obtain ⟨t, c, rows, s, he, hle⟩ := hv
  exact ⟨t, c, rows, s, hs.subset he, hle⟩

/-- If the message it replaces was delivered only after its first delay, a write leaves the message
delivered only after that. -/
theorem Replaces.reached {req : Request} {next old : Message} {cond : Condition}
    (hw : Reachable q Honest w) (hr : Replaces q w.history w.rows t req next cond old)
    (hd : next.delivered = true) (hm : InsertedAs m w.history) (hi : m.index = old.index)
    (ih : old.delivered = true → Reached m.visibleAt w.history) :
    m.visibleAt ≤ w.clock ∨ Reached m.visibleAt w.history := by
  have hdropped := hw.mono fun _ _ => undropped_of_honest
  by_cases hold : old.delivered = true
  · exact .inr (ih hold)
  · cases hc : cond.unacked with
    | false =>
      have hdel := (hr.updates.acks hc).2.2
      rw [Message.delivered, hdel] at hd
      exact absurd hd hold
    | true =>
      rcases hr.hides hc with ⟨limit, hide, rfl, hclaims⟩ | ⟨receipt, blob, hide, u, rfl, _, _, hn⟩
      · -- A message that was never delivered is claimed as it was inserted.
        have hpending : old.pending = true := by
          simp [Message.pending, hr.unacked hc, Bool.eq_false_iff.mpr hold]
        have hsame := hdropped.insertedAs_unique hm (hw.untouched _ hr.stored hpending) hi
        rw [hsame]
        exact .inl (hr.visible hdropped hc)
      · rw [(Message.revised?_eq_some hn).2] at hd
        exact absurd hd hold

/-- A delivered message has had its first delay. -/
theorem Reachable.reached (h : Reachable q Honest w) : ∀ r ∈ w.rows.messages,
    r.message.delivered = true → ∀ m, InsertedAs m w.history → m.index = r.message.index →
      Reached m.visibleAt w.history := by
  have later : ∀ {rows : Rows} {past : History} {e : Event},
      (∀ m, InsertedAs m (e :: past) → InsertedAs m past) →
      (∀ r ∈ rows.messages, r.message.delivered = true → ∀ m, InsertedAs m past →
        m.index = r.message.index → Reached m.visibleAt past) →
      ∀ r ∈ rows.messages, r.message.delivered = true → ∀ m, InsertedAs m (e :: past) →
        m.index = r.message.index → Reached m.visibleAt (e :: past) :=
    fun hsame ih r hr hd m hm hi => (ih r hr hd m (hsame m hm) hi).mono (List.suffix_cons _ _)
  refine h.course (P := fun rows h => ∀ r ∈ rows.messages, r.message.delivered = true →
    ∀ m, InsertedAs m h → m.index = r.message.index → Reached m.visibleAt h)
    (fun _ _ => undropped_of_honest) nofun ?_ ?_ ?_
  · exact fun rows past t r ih => later (by simp [InsertedAs]) ih
  · exact fun rows past t r ih => later (by simp [InsertedAs]) ih
  · intro v t req s rows hv hstarted hp hturn ih
    have hdropped := hv.mono fun _ _ => undropped_of_honest
    cases hturn with
    | @leaves s hs =>
      refine later (fun m hm => (insertedAs_performed hm).resolve_left ?_) ih
      rintro ⟨b, rfl⟩
      cases hs
    | swaps => exact later (fun m hm => (insertedAs_performed hm).resolve_left nofun) ih
    | records _ => exact later (fun m hm => (insertedAs_performed hm).resolve_left nofun) ih
    | deletes =>
      exact later (fun m hm => (insertedAs_performed hm).resolve_left nofun)
        fun r hr => ih r (Rows.mem_removeBucket.mp hr).1
    | @inserts n first =>
      -- What is inserted was not delivered yet, and nothing else was inserted at its index.
      intro r hr hd m hm hi
      obtain ⟨_, blob, delay, hins⟩ := hp.insert
      obtain ⟨u, tag, _, hfresh⟩ := hins.fresh
      rcases Rows.mem_insert.mp hr with rfl | hr
      · rw [show n.delivered = false by rw [hfresh]; rfl] at hd
        cases hd
      · rcases insertedAs_performed hm with ⟨b, he⟩ | hm
        · cases he
          exact absurd (hi ▸ hdropped.filed.inserted r hr) first
        · exact (ih r hr hd m hm hi).mono (List.suffix_cons _ _)
    | @replaces next old cond hrep =>
      intro r hr hd m hm hi
      have hm' := (insertedAs_performed hm).resolve_left nofun
      rcases Rows.mem_replace.mp hr with ⟨_, _, _, rfl⟩ | ⟨hr, _⟩
      · have hold : m.index = old.index := hi.trans hrep.updates.became.index
        rcases hrep.reached hv hd hm' hold (fun hd => ih _ hrep.stored hd m hm' hold) with hle | hre
        · exact ⟨t, _, _, _, List.mem_cons_self, hle⟩
        · exact hre.mono (List.suffix_cons _ _)
      · exact (ih r hr hd m hm' hi).mono (List.suffix_cons _ _)

/-- A put of the task with that delay was applied, after what was past by then, and stored the
message. -/
def PutAt (h : History) (t : Nat) (delay : Duration) (m : Message) (past : History) : Prop :=
  (∃ blob, .started t (.put blob delay) ∈ past) ∧
    ∃ c rows b, .performed t c rows ⟨.call (.insertMessage b m), .ok true⟩ :: past <:+ h

theorem PutAt.insertedAs {delay : Duration} (hp : PutAt h t delay m past) : InsertedAs m h := by
  obtain ⟨_, c, rows, b, hs⟩ := hp
  exact ⟨t, c, rows, b, hs.subset List.mem_cons_self⟩

/-- The delay of a put counts from the put's own look at the clock. -/
theorem Reachable.visibleAt_of_put (h : Reachable q Undropped w) {delay : Duration}
    (hp : PutAt w.history t delay m past) :
    ∃ now, Clocked (seenBy t past) now ∧ m.visibleAt = now + delay := by
  obtain ⟨⟨blob, hput⟩, c, rows, b, hs⟩ := hp
  have hpast : past <:+ w.history := (List.suffix_cons _ _).trans hs
  obtain ⟨r, hr, hpermitted⟩ := h.effect_permitted (requests_keep _) hs
  -- A task serves one request, so what was stored was stored for the put.
  have hsame : r = .put blob delay := h.started_unique (hpast.subset hr) (hpast.subset hput)
  subst hsame
  cases hpermitted with
  | looks hlooks => cases hlooks
  | puts hins =>
    obtain ⟨now, tag, hnow, hfresh⟩ := hins.fresh
    refine ⟨now, hnow, ?_⟩
    rw [hfresh]
    rfl

/-- A claim is not applied before what was inserted there may first be handed out. -/
theorem Reachable.inserted_visible (h : Reachable q Honest w) {c : Instant} {rows : Rows}
    {next : Message} (hc : ClaimAt w.history t c rows next past) (hm : InsertedAs m w.history)
    (hi : m.index = next.index) : m.visibleAt ≤ c := by
  obtain ⟨v, limit, hide, version, old, hv, rfl, rfl, rfl, hr⟩ :=
    h.claim_at (fun _ _ => undropped_of_honest) hc
  obtain ⟨_, _, _, hs⟩ := hc
  have hdropped := hv.mono fun _ _ => undropped_of_honest
  have hold : m.index = old.index := hi.trans hr.updates.became.index
  have hbefore : InsertedAs m v.history :=
    (h.mono fun _ _ => undropped_of_honest).insertedAs_of_inserted
      ((List.suffix_cons _ _).trans hs) (hold ▸ hdropped.filed.inserted _ hr.stored) hm
  have hnext : next.delivered = true := by
    rcases hr.hides rfl with ⟨_, _, _, hclaims⟩ | ⟨_, _, _, _, he, _⟩
    · obtain ⟨u, _, hn⟩ := hclaims.next
      exact Message.delivered_of_claimed? hn
    · cases he
  rcases hr.reached hv hnext hbefore hold
    fun hd => hv.reached _ hr.stored hd m hbefore hold with hle | ⟨_, c', _, _, he, hle⟩
  · exact hle
  · exact Nat.le_trans hle (hv.clock_le he)

/-! ## Every claim -/

/-- Whatever is handed out was claimed by the call that hands it out. What a claim replaces is
unacknowledged and visible, and nothing written before it is acknowledged; it is not applied before
the instant that the last insert, claim or update before it has left, so two claims are never in
force together. Where consumers present only receipts that they were given, it is not applied before
the first delay has passed: not before the instant with which the message was inserted, which for a
put is its delay counted from its look at the clock. -/
theorem claims_timely_exclusive (h : Reachable q Undropped w) :
    (∀ t d, .ended t (.ok (.delivery (some d))) ∈ w.history →
      ∃ c rows next past, ClaimAt w.history t c rows next past ∧ d = Delivery.of next) ∧
    (∀ t c rows next past, ClaimAt w.history t c rows next past →
      ∃ old, rows.find? (q.bucketOf next.index) next.index = some old ∧
        old.acked = false ∧ old.visibleAt ≤ c ∧
        (∀ m, Wrote past m → m.index = next.index → m.acked = false) ∧
        leftVisibleAt next.index past = some old.visibleAt) ∧
    (Reachable q Honest w → ∀ t c rows next past, ClaimAt w.history t c rows next past →
      (∀ m, InsertedAs m w.history → m.index = next.index → m.visibleAt ≤ c) ∧
      ∀ u delay m past', PutAt w.history u delay m past' → m.index = next.index →
        ∃ now, Clocked (seenBy u past') now ∧ m.visibleAt = now + delay ∧ now + delay ≤ c) := by
  refine ⟨fun t d he => h.handed_out (fun _ _ => id) he, ?_, ?_⟩
  · intro t c rows next past hc
    obtain ⟨v, limit, hide, version, old, hv, rfl, rfl, rfl, hr⟩ :=
      h.claim_at (fun _ _ => id) hc
    have hi : next.index = old.index := hr.updates.became.index
    refine ⟨old, hr.found, hr.unacked rfl, hr.visible hv rfl, fun m hm hmi => ?_, ?_⟩
    · by_contra hacked
      have hb := hv.traced.wrote m hm _ hr.stored (hi.symm.trans hmi.symm)
      exact absurd (hb.acked (eq_true_of_ne_false hacked)) (Bool.eq_false_iff.mp (hr.unacked rfl))
    · rw [hi]
      exact hv.leftVisibleAt_eq _ hr.stored
  · intro hhon t c rows next past hc
    refine ⟨fun m hm hi => hhon.inserted_visible hc hm hi, ?_⟩
    intro u delay m past' hput hi
    obtain ⟨now, hnow, hvisible⟩ := h.visibleAt_of_put hput
    have hle : m.visibleAt ≤ c := hhon.inserted_visible hc hput.insertedAs hi
    rw [hvisible] at hle
    exact ⟨now, hnow, hvisible, hle⟩

/-- A message is put with a delay, handed out once that has passed, and handed out again once its
time has come. -/
def redelivery : List Action :=
  serve 0 (.put [1] 500) 6 ++ [.pass 500] ++ serve 1 (.receive 1 1000) 12 ++ [.pass 1000] ++
    serve 2 (.receive 1 1000) 7

/-- The first claim comes once the delay is over since the put looked at the clock; the second finds
the message as the first has left it. -/
theorem claims_timely_exclusive_redelivery :
    ∃ w m put now c₁ rows₁ first past₁ c rows next past old, Reachable singles Honest w ∧
      PutAt w.history 0 500 m put ∧ Clocked (seenBy 0 put) now ∧
      ClaimAt w.history 1 c₁ rows₁ first past₁ ∧ first.deliveries = 1 ∧ m.index = first.index ∧
      now + 500 ≤ c₁ ∧
      ClaimAt w.history 2 c rows next past ∧ next.deliveries = 2 ∧
      rows.find? (singles.bucketOf next.index) next.index = some old ∧ old.acked = false ∧
      old.visibleAt ≤ c ∧ leftVisibleAt next.index past = some old.visibleAt ∧
      ∀ m, InsertedAs m w.history → m.index = next.index → m.visibleAt ≤ c := by
  obtain ⟨w, hw, d₁, hd₁, hdel₁, hi₁, d, hd, hdel, c₀, rows₀, b, m, put, hinsert, hm, hput⟩ :
      ∃ w, ({} : World).run? singles redelivery = some w ∧
        ∃ d₁, w.history[9]? = some (.ended 1 (.ok (.delivery (some d₁)))) ∧ d₁.deliveries = 1 ∧
          d₁.index = 0 ∧
        ∃ d, w.history.head? = some (.ended 2 (.ok (.delivery (some d)))) ∧ d.deliveries = 2 ∧
        ∃ c₀ rows₀ b m put, w.history.drop 23 =
            .performed 0 c₀ rows₀ ⟨.call (.insertMessage b m), .ok true⟩ :: put ∧ m.index = 0 ∧
          put.getLast? = some (.started 0 (.put [1] 500)) :=
    ⟨_, rfl, _, rfl, rfl, rfl, _, rfl, rfl, _, _, _, _, _, rfl, rfl, rfl⟩
  have honest : Reachable singles Honest w :=
    .run (by simp [redelivery, serve, Honest]) .fresh hw
  have hputAt : PutAt w.history 0 500 m put :=
    ⟨⟨[1], List.mem_of_getLast? hput⟩, c₀, rows₀, b, hinsert ▸ List.drop_suffix 23 w.history⟩
  obtain ⟨handed, found, first⟩ :=
    claims_timely_exclusive (honest.mono fun _ _ => undropped_of_honest)
  obtain ⟨c₁, rows₁, next₁, past₁, hc₁, rfl⟩ := handed 1 d₁ (List.mem_of_getElem? hd₁)
  obtain ⟨c, rows, next, past, hc, rfl⟩ := handed 2 d (List.mem_of_mem_head? hd)
  have hi : m.index = next₁.index := hm.trans hi₁.symm
  obtain ⟨now, hnow, _, hle⟩ := (first honest 1 c₁ rows₁ next₁ past₁ hc₁).2 0 500 m put hputAt hi
  obtain ⟨old, hfound, hacked, hvisible, _, hleft⟩ := found 2 c rows next past hc
  exact ⟨w, m, put, now, c₁, rows₁, next₁, past₁, c, rows, next, past, old, honest, hputAt, hnow,
    hc₁, hdel₁, hi, hle, hc, hdel, hfound, hacked, hvisible, hleft,
    (first honest 2 c rows next past hc).1⟩

end LeaseQueue.Shared
