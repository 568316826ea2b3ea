import LeaseQueue.Proofs.Shared.Bids
import LeaseQueue.Proofs.Shared.Course
import LeaseQueue.Proofs.Shared.LoneReader

/-
  A call for the next message ends.

  A search goes on after a bid in vain, without a limit of its own. A bid is for a
  message as the reader has just read it, in the bucket where it is stored, so it
  is refused only if somebody else has changed a row since (`Interrupted.refused`).
  Hence

  1. left alone, a call takes finitely many steps and no bid of it is refused;
  2. among other tasks, each pass that its scan limit does not allow for goes back
     to a retirement of its own or to a change that another task has made since the
     call began (`Reachable.interrupted`), and no two to one.
-/

namespace LeaseQueue.Shared

variable {q : Queue} {rule : Rule} {w w' : World} {t u : Nat} {limit : Nat} {hide : Duration}
  {h past : History} {c : Instant} {rows rows' : Rows} {s : Seen} {r : Request}

/-! ## Changes of rows -/

/-- A row of a message was changed: an update was applied, or a bucket was deleted. -/
def Seen.alters : Seen → Bool
  | ⟨.call (.updateMessage _ _ _), .ok true⟩ => true
  | ⟨.call (.deleteBucket _), .ok _⟩ => true
  | _ => false

def Event.alters : Event → Bool
  | .performed _ _ _ s => s.alters
  | _ => false

/-- Somebody else than the task has changed a row of a message. -/
def Event.meddles (t : Nat) : Event → Bool
  | .performed u _ _ s => u ≠ t && s.alters
  | _ => false

/-- What has happened since the task was started, the latest first. -/
def since (t : Nat) : History → History
  | [] => []
  | .started u r :: past => if u = t then [] else .started u r :: since t past
  | .performed u c rows s :: past => .performed u c rows s :: since t past
  | .ended u result :: past => .ended u result :: since t past

def changes (h : History) : Nat := (h.filter Event.alters).length

/-- How often somebody else than the task has changed a row of a message. -/
def meddlings (t : Nat) (h : History) : Nat := (h.filter (Event.meddles t)).length

/-- How often somebody else has changed a row since the task last read messages or tried to change
one. -/
def stale (t : Nat) : History → Nat
  | [] => 0
  | .performed u _ _ s :: past =>
    if u = t && Handles s.effect then 0 else stale t past + (u ≠ t && s.alters).toNat
  | .started _ _ :: past => stale t past
  | .ended _ _ :: past => stale t past

theorem changes_performed : changes (.performed u c rows s :: h) = changes h + s.alters.toNat := by
  cases hs : s.alters <;> simp [changes, Event.alters, hs]

theorem meddlings_performed : meddlings t (.performed u c rows s :: h) =
    meddlings t h + (u ≠ t && s.alters).toNat := by
  cases hs : (decide (u ≠ t) && s.alters) <;> simp_all [meddlings, Event.meddles]

theorem alters_of_retires (hs : s.retires = true) : s.alters = true := by
  obtain ⟨m, hm⟩ := Option.isSome_iff_exists.mp hs
  unfold Seen.acked? at hm
  split at hm
  · rfl
  · cases hm

theorem handles_of_refused (hs : s.refused = true) : Handles s.effect = true := by
  unfold Seen.refused at hs
  split at hs
  · rfl
  · cases hs

theorem Turn.keeps (h : Turn q past rows t r s rows') (hs : s.alters = false) :
    ∀ row ∈ rows.messages, row ∈ rows'.messages := by
  intro row hrow
  cases h with
  | leaves _ => exact hrow
  | swaps => exact hrow
  | records _ => exact hrow
  | inserts _ => exact Rows.mem_insert.mpr (.inr hrow)
  | replaces _ => cases hs
  | deletes => cases hs

/-- A reader changes rows only by bids. -/
theorem Permitted.handles {tr : List Seen} (hp : Permitted q (.receive limit hide) tr s.effect)
    (hs : s.alters = true) : Handles s.effect = true := by
  unfold Seen.alters at hs
  split at hs
  · rfl
  · obtain ⟨_, he, _⟩ := hp.clear
    cases he
  · cases hs

/-! ## What others have done to a reader -/

/-- Each refusal of a reader goes back to a change by somebody else, and there is one more while the
reader does not know of the latest. What it has just read is stored if nothing was changed since. -/
structure Interrupted (q : Queue) (t : Nat) (rows : Rows) (h : History) : Prop where
  blamed : refusals (seenBy t h) + stale t (since t h) ≤ meddlings t (since t h)
  current : stale t (since t h) = 0 → ∀ m ∈ justRead (seenBy t h),
    ⟨q.bucketOf m.index, m⟩ ∈ rows.messages
  counted : retirals (seenBy t h) + meddlings t (since t h) ≤ changes (since t h)

theorem mem_justRead {before : List Seen} {m : Message} (hs : Handles s.effect = true)
    (hm : m ∈ justRead (s :: before)) :
    (∃ b ms, s = ⟨.call (.readBucket b), .ok ms⟩ ∧ m ∈ ms) ∨
      ∃ b i, s = ⟨.call (.readMessage b i), .ok (some m)⟩ := by
  unfold justRead at hm
  split at hm
  · cases hm
  · rename_i heq
    cases heq
    exact .inl ⟨_, _, rfl, hm⟩
  · rename_i found _ heq
    cases heq
    cases found with
    | none => cases hm
    | some m' =>
      cases List.mem_singleton.mp hm
      exact .inr ⟨_, _, rfl⟩
  · rename_i heq
    cases heq
    rw [if_pos hs] at hm
    cases hm

theorem justRead_of_not_handles {before : List Seen} (hs : Handles s.effect = false) :
    justRead (s :: before) = justRead before := by
  conv_lhs => unfold justRead
  split
  · rename_i heq
    cases heq
  · rename_i heq
    cases heq
    cases hs
  · rename_i heq
    cases heq
    cases hs
  · rename_i heq
    cases heq
    rw [if_neg (Bool.eq_false_iff.mp hs)]

theorem stored_of_justRead {before : List Seen} {m : Message} (ho : Orderly q rows)
    (hs : Handles s.effect = true) (ha : Answered rows c s rows')
    (hm : m ∈ justRead (s :: before)) : ⟨q.bucketOf m.index, m⟩ ∈ rows'.messages := by
  have placed : ∀ {b}, ⟨b, m⟩ ∈ rows.messages → ⟨q.bucketOf m.index, m⟩ ∈ rows.messages := by
    intro b hrow
    have hb : b = q.bucketOf m.index := ho.2 _ hrow
    exact hb ▸ hrow
  rcases mem_justRead hs hm with ⟨b, ms, rfl, hm⟩ | ⟨b, i, rfl⟩
  · obtain ⟨rfl, rfl⟩ := Prod.mk.inj ha
    exact placed (Rows.mem_inBucket.mp hm)
  · obtain ⟨hfound, rfl⟩ := Prod.mk.inj ha
    exact placed (Rows.find?_eq_some hfound.symm).1

/-- A bid for a message that is stored as it was read is not refused. -/
theorem Bid.not_refused {b : UInt64} {next m : Message} {cond : Condition}
    (hb : Bid q b next cond m)
    (hd : rows.Distinct) (hm : ⟨q.bucketOf m.index, m⟩ ∈ rows.messages) :
    (rows.apply (.updateMessage b next cond)).1 = true := by
  have hfound : rows.find? b next.index = some m := by
    rw [hb.bucket, hb.index]
    exact hd.find? hm
  have hholds : cond.holds m = true := by simp [Condition.holds, hb.version, hb.unacked]
  simp only [Rows.apply, hfound, hholds, if_true]

theorem Interrupted.other (h : Interrupted q t rows past) (hu : u ≠ t)
    (hturn : Turn q past rows u r s rows') :
    Interrupted q t rows' (.performed u c rows s :: past) := by
  have hseen : seenBy t (.performed u c rows s :: past) = seenBy t past := by
    rw [seenBy_performed, if_neg hu]
  have hstale : stale t (since t (.performed u c rows s :: past)) =
      stale t (since t past) + s.alters.toNat := by
    simp [since, stale, hu]
  have hmeddlings : meddlings t (since t (.performed u c rows s :: past)) =
      meddlings t (since t past) + s.alters.toNat := by
    simp [since, meddlings_performed, hu]
  refine ⟨?_, fun hzero => ?_, ?_⟩
  · rw [hseen, hstale, hmeddlings, ← Nat.add_assoc]
    exact Nat.add_le_add_right h.blamed _
  · rw [hstale] at hzero
    rw [hseen]
    have hnone : s.alters = false := by
      cases hs : s.alters with
      | false => rfl
      | true => simp [hs] at hzero
    exact fun m hm => hturn.keeps hnone _ (h.current (by omega) m hm)
  · rw [hseen, hmeddlings, since, changes_performed, ← Nat.add_assoc]
    exact Nat.add_le_add_right h.counted _

/-- A bid is refused only if somebody else has changed a row since the reader has read its
message. -/
theorem Interrupted.refused (h : Interrupted q t rows past) (ho : Orderly q rows)
    (hbid : Bidding q limit (seenBy t past) s.effect) (ha : Answered rows c s rows')
    (hs : s.refused = true) : stale t (since t past) ≠ 0 := by
  intro hzero
  unfold Seen.refused at hs
  split at hs
  · rename_i b next cond
    obtain ⟨m, hm, hbids⟩ := hbid.bids b next cond rfl
    have happlied := hbids.not_refused ho.1 (h.current hzero m hm)
    have hrefused : (rows.apply (.updateMessage b next cond)).1 = false :=
      (Prod.mk.inj ha).1.symm
    rw [happlied] at hrefused
    cases hrefused
  · cases hs

theorem Interrupted.own (h : Interrupted q t rows past) (ho : Orderly q rows)
    (hbid : Bidding q limit (seenBy t past) s.effect)
    (hp : Permitted q (.receive limit hide) (seenBy t past) s.effect)
    (ha : Answered rows c s rows')
    (hturn : Turn q past rows t (.receive limit hide) s rows') :
    Interrupted q t rows' (.performed t c rows s :: past) := by
  have hseen : seenBy t (.performed t c rows s :: past) = s :: seenBy t past := by
    rw [seenBy_performed, if_pos rfl]
  have hmeddlings : meddlings t (since t (.performed t c rows s :: past)) =
      meddlings t (since t past) := by
    simp [since, meddlings_performed]
  have hcounted : retirals (seenBy t (.performed t c rows s :: past)) +
      meddlings t (since t (.performed t c rows s :: past)) ≤
      changes (since t (.performed t c rows s :: past)) := by
    rw [hseen, hmeddlings, since, changes_performed, retirals_cons]
    have hle : s.retires.toNat ≤ s.alters.toNat := by
      cases hs : s.retires with
      | false => exact Nat.zero_le _
      | true => exact Nat.le_of_eq (congrArg Bool.toNat (alters_of_retires hs).symm)
    have := h.counted
    omega
  -- After a read or an attempt, the reader knows of all that was changed up to then.
  cases hs : Handles s.effect with
  | true =>
    have hstale : stale t (since t (.performed t c rows s :: past)) = 0 := by
      simp [since, stale, hs]
    refine ⟨?_, fun _ m hm => ?_, hcounted⟩
    · rw [hseen, hstale, hmeddlings, refusals_cons]
      have hblamed := h.blamed
      cases hrefused : s.refused with
      | false =>
        rw [Bool.toNat_false]
        omega
      | true =>
        have hne := h.refused ho hbid ha hrefused
        rw [Bool.toNat_true]
        omega
    · rw [hseen] at hm
      exact stored_of_justRead ho hs ha hm
  | false =>
    have hstale : stale t (since t (.performed t c rows s :: past)) = stale t (since t past) := by
      simp [since, stale, hs]
    have hnone : s.alters = false :=
      Bool.eq_false_iff.mpr fun halters => Bool.eq_false_iff.mp hs (hp.handles halters)
    have hrefused : s.refused = false :=
      Bool.eq_false_iff.mpr fun hr => Bool.eq_false_iff.mp hs (handles_of_refused hr)
    refine ⟨?_, fun hzero m hm => ?_, hcounted⟩
    · rw [hseen, hstale, hmeddlings, refusals_cons, hrefused, Bool.toNat_false, Nat.add_zero]
      exact h.blamed
    · rw [hseen, justRead_of_not_handles hs] at hm
      exact hturn.keeps hnone _ (h.current (hstale ▸ hzero) m hm)

/-- Refusals go back to others, in every run. -/
theorem Reachable.interrupted (h : Reachable q Undropped w)
    (hr : .started t (.receive limit hide) ∈ w.history) : Interrupted q t w.rows w.history := by
  induction h with
  | fresh => cases hr
  | @step w w' a hw ha hs ih =>
    cases move_of_step? hs with
    | starts request =>
      by_cases ht : w.started = t
      · -- The task has done nothing yet.
        have hseen : seenBy t w.history = [] := ht ▸ (hw.untraced _ (Nat.le_refl _)).seen
        have hsince : since t (.started w.started request :: w.history) = [] := if_pos ht
        refine ⟨?_, fun _ m hm => ?_, ?_⟩
        · rw [seenBy_started, hseen, hsince]
          exact Nat.le_refl 0
        · rw [seenBy_started, hseen] at hm
          cases hm
        · rw [seenBy_started, hseen, hsince]
          exact Nat.le_refl 0
      · have hstarted : .started t (.receive limit hide) ∈ w.history :=
          (List.mem_cons.mp hr).resolve_left fun he => by
            cases he
            exact ht rfl
        have hsince : since t (.started w.started request :: w.history) =
            .started w.started request :: since t w.history := if_neg ht
        have hih := ih hstarted
        exact ⟨by rw [hsince]; exact hih.blamed, by rw [hsince]; exact hih.current,
          by rw [hsince]; exact hih.counted⟩
    | passes d => exact ih hr
    | turns ht => exact ih hr
    | ends ht =>
      have hih := ih (started_of_ended hr)
      exact ⟨hih.blamed, hih.current, hih.counted⟩
    | @performs _ u request s k rows ht hans =>
      have hstarted := started_of_performed hr
      obtain ⟨hu, hp, _⟩ := hw.task_obeys (requests_keep _) ht
      have hturn := hw.turn hu hp (touch_of_answered hans)
      by_cases htu : u = t
      · subst htu
        cases hw.started_unique hu hstarted
        obtain ⟨_, hbid, _⟩ := hw.task_obeys (readers_bid _) ht
        exact (ih hstarted).own hw.orderly (hbid limit hide rfl) hp hans hturn
      · exact (ih hstarted).other htu hturn

/-! ## Left alone -/

theorem loneReader_orderly : LoneReader q c hide (Orderly q) fun _ _ => True where
  orderly := id
  parks := fun _ h => h
  retires := fun h _ _ _ _ => h.replace
  seals := fun _ h _ _ => h
  advances := fun h _ _ _ => h
  claims := fun _ _ _ _ _ => trivial
  parked := fun _ _ => trivial

theorem unmeddled_step {a : Action} (h : meddlings t (since t w.history) = 0) (ha : Own t a)
    (hs : w.step? q a = some w') : meddlings t (since t w'.history) = 0 := by
  cases a with
  | start request => exact ha.elim
  | fail u error => exact ha.elim
  | pass d =>
    cases hs
    exact h
  | act u tag =>
    cases ha
    simp only [World.step?] at hs
    split at hs
    · obtain ⟨a, _, rfl⟩ := Option.map_eq_some_iff.mp hs
      simp [World.performed, since, meddlings_performed, h]
    · cases hs
      exact h
    · cases hs
  | finish u =>
    cases ha
    simp only [World.step?] at hs
    split at hs
    · cases hs
      exact h
    · cases hs

theorem unmeddled_run {actions : List Action} (h : meddlings t (since t w.history) = 0)
    (ha : ∀ a ∈ actions, Own t a) (hs : w.run? q actions = some w') :
    meddlings t (since t w'.history) = 0 := by
  induction actions generalizing w with
  | nil =>
    cases hs
    exact h
  | cons a rest ih =>
    obtain ⟨v, hv, hrest⟩ := Option.bind_eq_some_iff.mp hs
    exact ih (unmeddled_step h (ha a List.mem_cons_self) hv)
      (fun b hb => ha b (List.mem_cons_of_mem a hb)) hrest

/-- A search begins at most one pass more than its limit, its retirements and the changes by others
allow. -/
theorem Reachable.passes_le (h : Reachable q Undropped w)
    (hr : .started t (.receive limit hide) ∈ w.history) :
    passes (seenBy t w.history) ≤
      limit + 1 + (retirals (seenBy t w.history) + meddlings t (since t w.history)) := by
  have hpasses := Shared.passes_le fun s before hs => h.bidding hr hs
  have hblamed := (h.interrupted hr).blamed
  omega

/-- A call for the next message ends. In every run that nobody drops: a call that is left alone
takes finitely many steps, can be continued to its end at any time, and looks at the reader bucket
at most as often as its scan limit says, once more, and once for each message that it retires. Among
other tasks, it looks there at most as often as its scan limit says, once more, and once for each
change of a message's row since it was started. -/
theorem next_message_ends (h : Reachable q Undropped w) (limit : Nat) (hide : Duration) :
    Acc (fun v' v => OwnStep q w.started v v') (World.starting q w (.receive limit hide)) ∧
    (∀ actions w', (∀ a ∈ actions, Own w.started a) →
      w.run? q (.start (.receive limit hide) :: actions) = some w' →
      passes (seenBy w.started w'.history) ≤ limit + 1 + retirals (seenBy w.started w'.history) ∧
      ∃ more w'' result, (∀ a ∈ more, Own w.started a) ∧ w'.run? q more = some w'' ∧
        .ended w.started result ∈ w''.history) ∧
    ∀ t past, past <:+ w.history → .started t (.receive limit hide) ∈ past →
      passes (seenBy t past) ≤ limit + 1 + changes (since t past) := by
  have hsolo : ((Request.receive limit hide).op q).Solo (lone (Orderly q)) _ w.rows w.clock :=
    receive_lone loneReader_orderly h.orderly (Nat.le_refl _)
  refine ⟨solo_acc (soloTask_start h hsolo), fun actions w' hown hrun => ⟨?_, ?_⟩,
    fun t past hpast hr => ?_⟩
  · have hstart : meddlings w.started (since w.started (World.starting q w
        (.receive limit hide)).history) = 0 := by simp [World.starting, since, meddlings]
    have hzero := unmeddled_run hstart hown hrun
    have hw' : Reachable q Undropped w' := by
      refine .run (fun a ha v => ?_) h hrun
      rcases List.mem_cons.mp ha with rfl | ha
      · rintro ⟨⟩
      · rintro rfl
        exact (hown _ ha).elim
    have hr : .started w.started (.receive limit hide) ∈ w'.history :=
      (suffix_of_run (w := World.starting q w (.receive limit hide)) hrun).subset List.mem_cons_self
    have hpasses := hw'.passes_le hr
    rwa [hzero, Nat.add_zero] at hpasses
  · exact h.served_on hsolo hown hrun
  · obtain ⟨v, hv, rfl⟩ := h.at_suffix hpast
    have hpasses := hv.passes_le hr
    have hcounted := (hv.interrupted hr).counted
    omega

/-- Two readers look at one message. The second one claims it before the first one does, which then
looks again and ends without a message. -/
def overtakenReader : List Action :=
  serve 0 (.put [1] 0) 6 ++ [.start (.receive 0 1000), .start (.receive 0 1000)] ++
    List.replicate 6 (.act 1 ⟨7⟩) ++ List.replicate 8 (.act 2 ⟨7⟩) ++ [.finish 2] ++
    List.replicate 7 (.act 1 ⟨7⟩) ++ [.finish 1]

/-- The first reader looks as often as the one change allows, and another call ends after them. -/
theorem next_message_ends_overtaken :
    ∃ w, Reachable singles Undropped w ∧ .ended 1 (.ok (.delivery none)) ∈ w.history ∧
      changes (since 1 w.history) = 1 ∧ passes (seenBy 1 w.history) = 2 ∧
      passes (seenBy 1 w.history) ≤ 0 + 1 + changes (since 1 w.history) ∧
      Acc (fun v' v => OwnStep singles w.started v v')
        (World.starting singles w (.receive 0 1000)) := by
  obtain ⟨w, hw, hended, hstarted, hchanges, hpasses⟩ :
      ∃ w, ({} : World).run? singles overtakenReader = some w ∧
        w.history[0]? = some (.ended 1 (.ok (.delivery none))) ∧
        w.history[21]? = some (.started 1 (.receive 0 1000)) ∧
        changes (since 1 w.history) = 1 ∧ passes (seenBy 1 w.history) = 2 :=
    ⟨_, rfl, rfl, rfl, rfl, rfl⟩
  have h : Reachable singles Undropped w :=
    .run (by simp [overtakenReader, serve, Undropped]) .fresh hw
  obtain ⟨hacc, _, hbound⟩ := next_message_ends h 0 1000
  exact ⟨w, h, List.mem_of_getElem? hended, hchanges, hpasses,
    hbound 1 w.history (List.suffix_refl _) (List.mem_of_getElem? hstarted), hacc⟩

end LeaseQueue.Shared
