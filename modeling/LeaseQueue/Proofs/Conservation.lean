import LeaseQueue.Proofs.Shared.Payloads
import LeaseQueue.Proofs.Shared.Turns
import LeaseQueue.Proofs.Shared.Undisturbed

/-
  Repair loses nothing.

  A message that a tick moves is written again before it is acknowledged where it
  was, so at every moment the payloads that are not acknowledged are those of the
  start, or those and one copy. A copy goes to the head, and only a bucket before
  the head is repaired, so what the tick clears away afterwards has no copy in it.
-/

namespace LeaseQueue.Shared

variable {q : Queue} {w : World} {rows₀ rows : Rows} {c : Instant} {b i : UInt64} {m next : Message}
  {row : Row} {rest : List Message} {settled : Bool} {cfg : Repair.Config}

/-! ## What a tick may leave -/

/-- The same payloads are unacknowledged, and what was delivered and is not acknowledged is as it
was. -/
structure Kept (rows₀ rows : Rows) : Prop where
  same : (payloads rows).Perm (payloads rows₀)
  delivered : ∀ row ∈ rows₀.messages, row.message.acked = false → row.message.delivered = true →
    row ∈ rows.messages

/-- A message that was never delivered is stored as it was and once more, and all else is kept. -/
structure Doubled (rows₀ : Rows) (row : Row) (rows : Rows) : Prop where
  pending : row.message.pending = true
  stored : row ∈ rows₀.messages
  original : row ∈ rows.messages
  copied : ∃ copy ∈ rows.messages, copy ≠ row ∧ copy.message.pending = true ∧
    copy.message.blob = row.message.blob
  more : (payloads rows).Perm (row.message.blob :: payloads rows₀)
  delivered : ∀ row ∈ rows₀.messages, row.message.acked = false → row.message.delivered = true →
    row ∈ rows.messages

/-- Calls may fail, and whatever a tick fails at, it leaves at most one copy too many. -/
def faltering (rows₀ : Rows) : Setting :=
  ⟨true, fun _ rows => Kept rows₀ rows ∨ ∃ row, Doubled rows₀ row rows⟩

theorem Kept.bears (h : Kept rows₀ rows) : (faltering rows₀).Bears rows := fun _ _ => .inl h

theorem Doubled.bears (h : Doubled rows₀ row rows) : (faltering rows₀).Bears rows :=
  fun _ _ => .inr ⟨row, h⟩

theorem Kept.removeBucket (h : Kept rows₀ rows)
    (hacked : ∀ r ∈ rows.messages, r.bucket = b → r.message.acked = true) :
    Kept rows₀ (rows.removeBucket b) := by
  refine ⟨(payloads_removeBucket hacked) ▸ h.same, fun r hr hnot hdel => ?_⟩
  have hr := h.delivered r hr hnot hdel
  refine Rows.mem_removeBucket.mpr ⟨hr, fun hb => ?_⟩
  rw [hacked r hr hb] at hnot
  cases hnot

theorem Kept.insert (h : Kept rows₀ rows) (hrow : row ∈ rows.messages)
    (hrow₀ : row ∈ rows₀.messages)
    (hp : row.message.pending = true) (hm : m.pending = true) (hblob : m.blob = row.message.blob)
    (hi : m.index ≠ row.message.index) : Doubled rows₀ row (rows.insert b m) := by
  have hacked : m.acked = false := by simpa using (Bool.and_eq_true_iff.mp hm).1
  refine ⟨hp, hrow₀, Rows.mem_insert.mpr (.inr hrow), ?_, ?_, fun r hr hnot hdel => ?_⟩
  · refine ⟨⟨b, m⟩, Rows.mem_insert.mpr (.inl rfl), fun he => hi ?_, hm, hblob⟩
    exact congrArg (·.message.index) he
  · exact (payloads_insert hacked).trans (hblob ▸ h.same.cons _)
  · exact Rows.mem_insert.mpr (.inr (h.delivered r hr hnot hdel))

theorem Doubled.replace (h : Doubled rows₀ ⟨b, m⟩ rows) (hd : rows.Distinct)
    (hn : m.acknowledged? = some next) : Kept rows₀ (rows.replace b next) := by
  have hi := (Message.became_of_acknowledged? hn).index
  have hacked : next.acked = true := by rw [(Message.acknowledged?_eq_some hn).2]
  have hp := h.pending
  simp only [Message.pending, Bool.and_eq_true, Bool.not_eq_true'] at hp
  have hless := (payloads_replace hd h.original hp.1 hi hacked).symm.trans h.more
  refine ⟨List.Perm.cons_inv hless, fun r hr hnot hdel => ?_⟩
  have hr := h.delivered r hr hnot hdel
  refine Rows.mem_replace.mpr (.inr ⟨hr, Bool.eq_false_iff.mpr fun hsits => ?_⟩)
  simp only [Row.sits, Bool.and_eq_true, decide_eq_true_eq] at hsits
  cases hd.eq hr h.original (hsits.2.trans hi)
  rw [hp.2] at hdel
  cases hdel

/-! ## The parts of a tick -/

/-- A tick goes through a bucket before the head: `rest` is still stored as it was, and if
`settled`, all other messages there are acknowledged. -/
structure Copying (q : Queue) (rows₀ : Rows) (b : UInt64) (rest : List Message) (settled : Bool)
    (rows : Rows) : Prop where
  tidy : Tidy q rows
  kept : Kept rows₀ rows
  stands : repairOf rows = b.toInt64
  before : b < headOf q rows
  unread : ∀ m ∈ rest, ⟨b, m⟩ ∈ rows.messages ∧ ⟨b, m⟩ ∈ rows₀.messages
  distinct : (rest.map (·.index)).Nodup
  done : settled = true → ∀ r ∈ rows.messages, r.bucket = b → r.message ∉ rest →
    r.message.acked = true

/-- A message is passed that is acknowledged, or else the bucket will not be cleared. -/
theorem Copying.pass {settled' : Bool} (h : Copying q rows₀ b (m :: rest) settled rows)
    (hs : settled' = true → settled = true ∧ m.acked = true) :
    Copying q rows₀ b rest settled' rows := by
  refine ⟨h.tidy, h.kept, h.stands, h.before, fun n hn => h.unread n (List.mem_cons_of_mem m hn),
    (List.nodup_cons.mp h.distinct).2, fun hset r hr hb hrest => ?_⟩
  obtain ⟨hset, hacked⟩ := hs hset
  by_cases he : r.message = m
  · rw [he, hacked]
  · exact h.done hset r hr hb fun hmem => (List.mem_cons.mp hmem).elim he hrest

theorem Copying.copied {copy : Message} {value : Int64}
    (h : Copying q rows₀ b (m :: rest) settled rows) (hp : m.pending = true)
    (hi : copy.index = (nextOf rows).toUInt64) (hcopy : copy.pending = true)
    (hblob : copy.blob = m.blob) : Doubled rows₀ ⟨b, m⟩ (appended q rows value copy) := by
  obtain ⟨hm, hm₀⟩ := h.unread m List.mem_cons_self
  have hkept : Kept rows₀ { rows with cells := rows.cells.set .counter value } :=
    ⟨h.kept.same, h.kept.delivered⟩
  refine hkept.insert hm hm₀ hp hcopy hblob fun he => ?_
  exact absurd (hi ▸ he ▸ h.tidy.below _ hm) (UInt64.lt_irrefl _)

theorem Copying.acknowledged {copy : Message} {value : Int64}
    (h : Copying q rows₀ b (m :: rest) settled rows) (hn : cellSucc? (nextOf rows) = some value)
    (hi : copy.index = (nextOf rows).toUInt64)
    (hd : Doubled rows₀ ⟨b, m⟩ (appended q rows value copy)) (hack : m.acknowledged? = some next) :
    Copying q rows₀ b rest settled ((appended q rows value copy).replace b next) := by
  have htidy : Tidy q (appended q rows value copy) := h.tidy.append hn hi
  have hindex := (Message.became_of_acknowledged? hack).index
  obtain ⟨hfirst, hrest⟩ := List.nodup_cons.mp h.distinct
  refine ⟨htidy.replace, hd.replace htidy.orderly.1 hack, h.stands, ?_, fun n hn => ?_, hrest,
    fun hset r hr hb hnot => ?_⟩
  · exact UInt64.lt_of_lt_of_le h.before (q.bucketOf_mono (UInt64.le_of_lt (h.tidy.next_lt hn).2))
  · obtain ⟨hstored, hstored₀⟩ := h.unread n (List.mem_cons_of_mem m hn)
    refine ⟨Rows.mem_replace.mpr (.inr ⟨Rows.mem_insert.mpr (.inr hstored), ?_⟩), hstored₀⟩
    refine Bool.eq_false_iff.mpr fun hsits => hfirst (List.mem_map.mpr ⟨n, hn, ?_⟩)
    simp only [Row.sits, Bool.and_eq_true, decide_eq_true_eq] at hsits
    exact hsits.2.trans hindex
  · rcases Rows.mem_replace.mp hr with ⟨_, _, _, rfl⟩ | ⟨hr, hsits⟩
    · show next.acked = true
      rw [(Message.acknowledged?_eq_some hack).2]
    · rcases Rows.mem_insert.mp hr with rfl | hr
      · -- The copy is at the head, which is another bucket.
        have hhead : q.bucketOf copy.index = headOf q rows := congrArg q.bucketOf hi
        exact absurd (hb ▸ hhead ▸ h.before) (UInt64.lt_irrefl _)
      · refine h.done hset r hr hb fun hmem => (List.mem_cons.mp hmem).elim (fun he => ?_) hnot
        simp [Row.sits, hb, he, hindex] at hsits

theorem republish_solo (h : Copying q rows₀ b (m :: rest) settled rows) (hp : m.pending = true) :
    (Repair.republish q m).Solo (faltering rows₀) (fun unchanged rows _ => unchanged = true ∧
      Copying q rows₀ b rest settled rows) rows c := by
  have hd : ∀ value now tag, Doubled rows₀ ⟨b, m⟩
      (appended q rows value (Message.fresh (nextOf rows).toUInt64 m.blob tag now 0)) :=
    fun value now tag => h.copied hp rfl rfl rfl
  refine republish_parts h.tidy (h.unread m List.mem_cons_self).1 h.kept.bears
    (fun _ => .inl h.kept)
    (fun _ => Kept.bears ⟨h.kept.same, h.kept.delivered⟩) (fun value now tag _ => ?_) ?_
  · exact ⟨(hd value now tag).bears, fun _ => .inr ⟨_, hd value now tag⟩⟩
  · exact fun value now tag next _ hn hack => ⟨rfl, h.acknowledged hn rfl (hd value now tag) hack⟩

theorem repairMessage_solo {now : Instant} {ghosts : Nat}
    (h : Copying q rows₀ b (m :: rest) settled rows) :
    (Repair.repairMessage q now (settled, ghosts) m).Solo (faltering rows₀)
      (fun s rows _ => Copying q rows₀ b rest s.1 rows) rows c := by
  refine .ite (fun hacked => .pure (h.pass fun hset => ⟨hset, hacked⟩)) fun hacked => ?_
  refine .ite (fun _ => .pure (h.pass nofun)) fun hdue => ?_
  have hp : m.pending = true := by
    simp only [Bool.or_eq_true, not_or, Bool.not_eq_true] at hdue
    simp [Message.pending, hacked, hdue.1]
  refine .andThen (republish_solo h hp) fun unchanged rows _ hcopied => .pure ?_
  obtain ⟨rfl, hcopied⟩ := hcopied
  exact (Bool.and_true settled).symm ▸ hcopied

/-- A tick is at a bucket, and has moved nothing so far. -/
structure Underway (q : Queue) (rows₀ : Rows) (b : UInt64) (rows : Rows) : Prop where
  tidy : Tidy q rows
  kept : Kept rows₀ rows
  stands : repairOf rows = b.toInt64
  only : ∀ r ∈ rows.messages, r ∈ rows₀.messages

theorem Underway.copying (h : Underway q rows₀ b rows) (hb : b < headOf q rows) :
    Copying q rows₀ b (rows.inBucket b) true rows where
  tidy := h.tidy
  kept := h.kept
  stands := h.stands
  before := hb
  unread := fun _ hm => ⟨Rows.mem_inBucket.mp hm, h.only _ (Rows.mem_inBucket.mp hm)⟩
  distinct := h.tidy.orderly.1.inBucket
  done := fun _ _ hr hb hnot => absurd (Rows.mem_inBucket.mpr (hb ▸ hr)) hnot

theorem repairBucket_solo {sealedAt : Instant} (h : Underway q rows₀ b rows)
    (hb : b < headOf q rows) :
    (Repair.repairBucket q cfg b sealedAt (rows.inBucket b)).Solo (faltering rows₀)
      (fun _ rows _ => Kept rows₀ rows) rows c := by
  refine .bind (wait_solo h.kept.bears fun t _ => .bind (.now fun now _ => ?_))
  refine .andThen (.foldlM (fun rest s rows _ => Copying q rows₀ b rest s.1 rows) (h.copying hb)
    fun m rest s rows c hs => repairMessage_solo hs) ?_
  rintro ⟨settled, ghosts⟩ rows c hs
  -- The cursor may have moved on; in the bucket itself nothing has changed.
  refine .andThen (P := fun _ rows _ => Kept rows₀ rows ∧ (settled = true →
    ∀ r ∈ rows.messages, r.bucket = b → r.message.acked = true)) ?_ fun _ rows c hkept => ?_
  · have hacked : settled = true → ∀ r ∈ rows.messages, r.bucket = b → r.message.acked = true :=
      fun hset r hr hb => hs.done hset r hr hb List.not_mem_nil
    exact advance_solo hs.kept.bears hs.stands (fun _ => .inl hs.kept)
      (fun _ _ _ => ⟨hs.kept, hacked⟩)
      fun _ _ _ _ _ => ⟨⟨hs.kept.same, hs.kept.delivered⟩, hacked⟩
  · obtain ⟨hkept, hacked⟩ := hkept
    refine .ite (fun hset => .bind ?_) fun _ => .pure hkept
    exact clear_solo hkept.bears (fun _ _ _ => .pure hkept) fun _ _ _ =>
      .pure (hkept.removeBucket (hacked hset))

theorem tick_solo (ht : Tidy q rows) :
    (Repair.tick q cfg).Solo (faltering rows) (fun _ rows' _ => Kept rows rows') rows c := by
  refine tick_parts (J := fun b rs => Underway q rows b rs)
    (fun h => h.kept.bears) (fun h => h.kept)
    ?_ ?_ ?_ ⟨ht, ⟨.refl _, fun _ hr _ _ => hr⟩, rfl, fun _ hr => hr⟩
  · intro b rs h hacked
    exact ⟨h.tidy.removeBucket, h.kept.removeBucket hacked, h.stands,
      fun r hr => h.only r (Rows.mem_removeBucket.mp hr).1⟩
  · intro b rs c h
    refine advance_solo h.kept.bears h.stands (fun _ => .inl h.kept)
      (fun _ _ _ => ⟨h.kept, nofun⟩) ?_
    rintro next t _ _ _
    refine ⟨⟨h.kept.same, h.kept.delivered⟩, ?_⟩
    rintro _ ⟨⟩
    exact ⟨h.tidy.moved rfl, ⟨h.kept.same, h.kept.delivered⟩, rfl, h.only⟩
  · intro b rs c sealedAt h hsealed
    exact repairBucket_solo h (h.tidy.closed b sealedAt hsealed)

/-! ## Every tick -/

/-- Repair conserves messages. While a tick runs alone, whatever fails and wherever it is cut off,
the payloads that are not acknowledged are those of its start, or those and one copy of a message
that was never delivered and is still stored; what was delivered and is not acknowledged stays as it
was. When the tick is done there is no such copy. It can be run to its end. -/
theorem repair_conserves (h : Reachable q Undropped w) :
    (∀ actions w', (∀ a ∈ actions, Faltering w.started a) →
      w.run? q (.start (.tick cfg) :: actions) = some w' →
      (Kept w.rows w'.rows ∨ ∃ row, Doubled w.rows row w'.rows) ∧
      ∀ tick, .ended w.started (.ok (.ticked tick)) ∈ w'.history → Kept w.rows w'.rows) ∧
    ∃ actions w' result, (∀ a ∈ actions, Own w.started a) ∧
      w.run? q (.start (.tick cfg) :: actions) = some w' ∧
      .ended w.started result ∈ w'.history := by
  have hsolo : ((Request.tick cfg).op q).Solo (faltering w.rows)
      (fun _ rows _ => Kept w.rows rows) w.rows w.clock := .map (tick_solo h.tidy)
  refine ⟨fun actions w' hown hrun => ?_, h.served_ends hsolo⟩
  have hend := h.served hsolo (fun a ha => (hown a ha).imp_right fun hfail => ⟨rfl, hfail⟩) hrun
  refine ⟨?_, fun tick htick => ?_⟩
  · obtain ⟨result, c, hres⟩ := hend.outcome
    cases result with
    | ok reply => exact .inl hres
    | error f => exact hres
  · obtain ⟨_, c, hres⟩ := hend.ended _ htick
    exact hres

/-- A message is put with a delay. A reader finds it hidden, seals its bucket and takes the next
one. -/
def hiddenAway : List Action :=
  serve 0 (.put [1] 5) 6 ++ serve 1 (.put [2] 0) 6 ++ serve 2 (.receive 1 10) 22 ++ [.pass 30000]

/-- A tick that fails once it has written the message again. -/
def cutOff : List Action := List.replicate 13 (.act 3 ⟨7⟩) ++ [.fail 3 (.unavailable "down")]

/-- Cut off there, the tick leaves a copy too many, and carried through, it moves the message. -/
theorem repair_conserves_hidden_away :
    ∃ w v w' row, Reachable singles OneByOne w ∧
      w.run? singles (.start (.tick {}) :: cutOff) = some v ∧ Doubled w.rows row v.rows ∧
      w.run? singles (serve 3 (.tick {}) 20) = some w' ∧ payloads w.rows = [[1], [2]] ∧
      payloads w'.rows = [[2], [1]] ∧ Kept w.rows w'.rows := by
  obtain ⟨w, v, w', hw, hv, hw', hstarted, hstart, hcut, hdone, tick, htick⟩ : ∃ w v w',
      ({} : World).runIf? singles allDone hiddenAway = some w ∧
      w.run? singles (.start (.tick {}) :: cutOff) = some v ∧
      w.run? singles (serve 3 (.tick {}) 20) = some w' ∧ w.started = 3 ∧
      payloads w.rows = [[1], [2]] ∧ payloads v.rows = [[1], [2], [1]] ∧
      payloads w'.rows = [[2], [1]] ∧
      ∃ tick, w'.history[0]? = some (.ended 3 (.ok (.ticked tick))) :=
    ⟨_, _, _, rfl, rfl, rfl, rfl, rfl, rfl, rfl, _, rfl⟩
  have h : Reachable singles OneByOne w := .runIf (fun _ _ hr => hr.allDone) .fresh hw
  have hconserves := (@repair_conserves singles w {}
    (h.mono fun _ _ ha => undropped_of_takingTurns (takingTurns_of_oneByOne ha))).1
  rw [hstarted] at hconserves
  have hkept := (hconserves _ w' (by simp [Faltering, Own]) hw').2 tick (List.mem_of_getElem? htick)
  rcases (hconserves cutOff v (by simp [cutOff, Faltering, Own]) hv).1 with hsame | ⟨row, hdoubled⟩
  · have hlen := hsame.same.length_eq
    rw [hstart, hcut] at hlen
    cases hlen
  · exact ⟨w, v, w', row, h, hv, hdoubled, hw', hstart, hdone, hkept⟩

end LeaseQueue.Shared
