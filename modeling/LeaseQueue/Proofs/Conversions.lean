import LeaseQueue.Proofs.Shared.Lasting
import LeaseQueue.Proofs.Shared.Ranges

/-
  No value is lost, and none runs past the end of its range.

  A run is followed by another one that takes the same actions and serves each
  request with conversions that keep the value (`World.runBy?`). While the counter
  is below the last cell value and every message has a version to come, whatever
  the store answers is in range: cells hold no more than the counter, and messages
  lie below it (`Reachable.in_range`). So the two runs stay together (`Twin`),
  step by step, and since a conversion that loses a value would be a fault of the
  second run, there is none.
-/

namespace LeaseQueue.Shared

variable {q : Queue} {w w' v : World} {a : Action}

/-! ## What the store answers -/

/-- Nobody drops the queue, the counter is below the last cell value, and every stored message is
below the last version. -/
def withinRange (w : World) (a : Action) : Bool :=
  a ≠ .start .drop && nextOf w.rows < Int64.maxValue &&
    w.rows.messages.all fun r => r.message.version.toNat + 1 < UInt64.size

/-- The counter and the versions are below the ends of their ranges. -/
structure Roomy (rows : Rows) : Prop where
  counter : nextOf rows < Int64.maxValue
  versions : ∀ r ∈ rows.messages, r.message.version.toNat + 1 < UInt64.size

theorem withinRange_iff : withinRange w a = true ↔ a ≠ .start .drop ∧ Roomy w.rows := by
  simp only [withinRange, Bool.and_eq_true, decide_eq_true_eq, List.all_eq_true]
  exact ⟨fun ⟨⟨ha, hc⟩, hv⟩ => ⟨ha, hc, hv⟩, fun ⟨ha, hc, hv⟩ => ⟨⟨ha, hc⟩, hv⟩⟩

theorem cellSmall_of_toUInt64 {position : Int64} (h : Small position.toUInt64) :
    CellSmall position := by
  have hcell := h.cellSmall
  rwa [Int64.toInt64_toUInt64] at hcell

theorem Reachable.cells_in_range (h : Reachable q Undropped w) (hroom : Roomy w.rows)
    (cell : Cell) : Cell.Found cell (w.rows.cells.get cell) := by
  have hnext : CellSmall (nextOf w.rows) := by
    have hlt := hroom.counter
    rw [Int64.lt_iff_toInt_lt, Int64.toInt_maxValue] at hlt
    exact ⟨h.indexed.start, by omega⟩
  have hhead : Small (headOf q w.rows) := hnext.toWord.bucketOf
  intro hcell
  cases cell with
  | counter => exact hnext
  | readerBucket =>
    exact cellSmall_of_toUInt64 (hhead.mono (h.cursor_le_head .readerBucket))
  | invisibility => exact absurd rfl hcell
  | repairBucket =>
    exact cellSmall_of_toUInt64 (hhead.mono (h.cursor_le_head .repairBucket))

theorem Reachable.messages_in_range (h : Reachable q Undropped w) (hroom : Roomy w.rows) :
    ∀ r ∈ w.rows.messages, Message.Ranged r.message := by
  intro r hr
  have hnext : CellSmall (nextOf w.rows) := h.cells_in_range hroom .counter nofun
  have hlt := h.inserted_lt (h.stored_inserted r hr)
  exact ⟨hnext.toWord.mono (UInt64.le_of_lt hlt), hroom.versions r hr⟩

/-- Whatever a task is answered is in range. -/
theorem Reachable.in_range (h : Reachable q Undropped w) (hroom : Roomy w.rows) {tag : Tag}
    {e : Effect} {a : e.Answer} {rows : Rows}
    (hans : answer? w.rows w.clock tag e = some (a, rows)) : Seen.InRange ⟨e, a⟩ := by
  have hcells := h.cells_in_range hroom
  have hmessages := h.messages_in_range hroom
  cases e with
  | call c =>
    cases hans
    cases c with
    | readCell cell => exact hcells cell
    | swapCell cell expected desired =>
      simp only [Rows.apply]
      split
      · trivial
      · exact hcells cell
    | readBucket b => exact fun m hm => hmessages ⟨b, m⟩ (Rows.mem_inBucket.mp hm)
    | readMessage b i => exact fun m hm => hmessages ⟨b, m⟩ (Rows.find?_eq_some hm).1
    | _ => trivial
  | _ => trivial

/-! ## Two runs -/

def World.stepBy? (k : Conversion) (q : Queue) (w : World) : Action → Option World
  | .start request =>
    some { w with
      tasks := Function.update w.tasks w.started (some ⟨request, (k.op q request).run⟩)
      started := w.started + 1
      history := .started w.started request :: w.history }
  | a => w.step? q a

def World.runBy? (k : Conversion) (q : Queue) : List Action → World → Option World
  | [], w => some w
  | a :: rest, w => (w.stepBy? k q a).bind (World.runBy? k q rest)

theorem runBy?_wrapping (actions : List Action) :
    w.runBy? .wrapping q actions = w.run? q actions := by
  have hstep (w : World) (a : Action) : w.stepBy? .wrapping q a = w.step? q a := by
    cases a with
    | start request =>
      rw [World.stepBy?, Conversion.wrapping_op]
      rfl
    | _ => rfl
  induction actions generalizing w with
  | nil => rfl
  | cons a rest ih =>
    rw [World.runBy?, World.run?, hstep]
    exact Option.bind_congr fun _ _ => ih

/-- A task was told that a value does not fit, or is about to be told so. -/
def Overflowed (w : World) : Prop :=
  ∃ t, .ended t (.error .overflow) ∈ w.history ∨ ∃ r, w.tasks t = some ⟨r, .done (.error .overflow)⟩

/-- What is left of the second task does as what is left of the first one, and neither runs past the
end of a range. -/
inductive InStep : Option Task → Option Task → Prop
  | idle : InStep none none
  | serves {r : Request} {p p' : Program Result} :
    p.Tracks Seen.InRange p' (Op.InRange fun _ => True) → InStep (some ⟨r, p⟩) (some ⟨r, p'⟩)

theorem InStep.of_first {o : Option Task} {r : Request} {p : Program Result}
    (h : InStep (some ⟨r, p⟩) o) :
    ∃ p', o = some ⟨r, p'⟩ ∧ p.Tracks Seen.InRange p' (Op.InRange fun _ => True) := by
  cases h with
  | serves hp => exact ⟨_, rfl, hp⟩

theorem InStep.of_second {o : Option Task} {r : Request} {p' : Program Result}
    (h : InStep o (some ⟨r, p'⟩)) :
    ∃ p, o = some ⟨r, p⟩ ∧ p.Tracks Seen.InRange p' (Op.InRange fun _ => True) := by
  cases h with
  | serves hp => exact ⟨_, rfl, hp⟩

theorem InStep.update {tasks tasks' : Nat → Option Task} {o o' : Option Task}
    (h : ∀ t, InStep (tasks t) (tasks' t)) (ho : InStep o o') (u : Nat) :
    ∀ t, InStep (Function.update tasks u o t) (Function.update tasks' u o' t) := by
  intro t
  by_cases htu : t = u
  · rw [htu, Function.update_self, Function.update_self]
    exact ho
  · rw [Function.update_of_ne htu, Function.update_of_ne htu]
    exact h t

/-- Two worlds that differ at most in the tasks, of which each is in step with its counterpart, and
no task was told that a value does not fit. -/
structure Twin (w w' : World) : Prop where
  same : { w with tasks := w'.tasks } = w'
  follows : ∀ t, InStep (w.tasks t) (w'.tasks t)
  fits : ∀ t, .ended t (.error .overflow) ∉ w.history

theorem Twin.fresh : Twin {} {} := ⟨rfl, fun _ => .idle, nofun⟩

theorem Twin.not_overflowed (h : Twin w w') : ¬ Overflowed w ∧ ¬ Overflowed w' := by
  have hhistory : w'.history = w.history := by rw [← h.same]
  constructor
  · rintro ⟨t, hended | ⟨r, ht⟩⟩
    · exact h.fits t hended
    · obtain ⟨_, _, hp⟩ := InStep.of_first (ht ▸ h.follows t)
      exact hp.2 rfl
  · rintro ⟨t, hended | ⟨r, ht⟩⟩
    · exact h.fits t (hhistory ▸ hended)
    · obtain ⟨_, _, hp⟩ := InStep.of_second (ht ▸ h.follows t)
      exact hp.of_done rfl

theorem Twin.step (hw : Reachable q Undropped w) (hroom : Roomy w.rows) (h : Twin w w')
    (hs : w.step? q a = some v) : ∃ v', w'.stepBy? .exact q a = some v' ∧ Twin v v' := by
  obtain ⟨tasks, rfl⟩ : ∃ tasks, w' = { w with tasks } := ⟨_, h.same.symm⟩
  have hfollows : ∀ t, InStep (w.tasks t) (tasks t) := h.follows
  have hother {e : Event} (he : ∀ t, e ≠ .ended t (.error .overflow)) (t : Nat) :
      .ended t (.error .overflow) ∉ e :: w.history :=
    List.not_mem_cons_of_ne_of_not_mem (he t).symm (h.fits t)
  cases a with
  | start request =>
    cases hs
    exact ⟨_, rfl, rfl, InStep.update hfollows (.serves op_stays) _, hother (by simp)⟩
  | pass d =>
    cases hs
    exact ⟨_, rfl, rfl, hfollows, h.fits⟩
  | act u tag =>
    simp only [World.step?] at hs
    split at hs
    · rename_i request e k ht
      obtain ⟨⟨answer, rows⟩, hans, rfl⟩ := Option.map_eq_some_iff.mp hs
      obtain ⟨_, ht', k', rfl, hk⟩ := InStep.of_first (ht ▸ hfollows u)
      -- The answer is in range, where both kinds of conversion come to the same.
      have hstays := hk answer (hw.in_range hroom hans)
      simp only [World.stepBy?, World.step?, ht', hans, Option.map_some]
      exact ⟨_, rfl, rfl, InStep.update hfollows (.serves hstays) u, hother (by simp)⟩
    · rename_i request _ _ body start k ht
      cases hs
      obtain ⟨_, ht', hp⟩ := InStep.of_first (ht ▸ hfollows u)
      obtain ⟨body', k', rfl, _⟩ := id hp
      simp only [World.stepBy?, World.step?, ht']
      exact ⟨_, rfl, rfl, InStep.update hfollows (.serves hp.unroll) u, h.fits⟩
    · cases hs
  | fail u error =>
    simp only [World.step?] at hs
    split at hs
    · rename_i request c k ht
      cases hs
      obtain ⟨_, ht', k', rfl, hk⟩ := InStep.of_first (ht ▸ hfollows u)
      have hfair : Seen.InRange ⟨.call c, .error error⟩ := by cases c <;> trivial
      simp only [World.stepBy?, World.step?, ht']
      exact ⟨_, rfl, rfl, InStep.update hfollows (.serves (hk _ hfair)) u, hother (by simp)⟩
    · cases hs
  | finish u =>
    simp only [World.step?] at hs
    split at hs
    · rename_i request result ht
      cases hs
      obtain ⟨_, ht', rfl, hresult⟩ := InStep.of_first (ht ▸ hfollows u)
      simp only [World.stepBy?, World.step?, ht']
      refine ⟨_, rfl, rfl, InStep.update hfollows .idle u, hother fun t he => ?_⟩
      cases he
      exact hresult rfl
    · cases hs

/-- Two worlds that go together do so after a run, while the values are in range. -/
theorem Twin.run {actions : List Action} (hw : Reachable q Undropped w) (h : Twin w w')
    (hr : w.runIf? q withinRange actions = some v) :
    w.run? q actions = some v ∧ ∃ v', w'.runBy? .exact q actions = some v' ∧ Twin v v' := by
  induction actions generalizing w w' with
  | nil =>
    cases hr
    exact ⟨rfl, w', rfl, h⟩
  | cons a rest ih =>
    simp only [World.runIf?] at hr
    split at hr
    · rename_i ha
      obtain ⟨hdrop, hroom⟩ := withinRange_iff.mp ha
      obtain ⟨u, hu, hrest⟩ := Option.bind_eq_some_iff.mp hr
      obtain ⟨u', hu', htwin⟩ := h.step hw hroom hu
      obtain ⟨hrun, v', hv', hv⟩ := ih (hw.step hdrop hu) htwin hrest
      exact ⟨by rw [World.run?, hu, Option.bind_some, hrun],
        v', by rw [World.runBy?, hu', Option.bind_some, hv'], hv⟩
    · cases hr

/-- While the counter is below the last cell value and every message is below the last version, no
value is lost in a conversion and none runs past the end of its range: a run is also one with
conversions that keep the value, where the same effects meet the same rows, and neither is ever told
that a value does not fit. -/
theorem conversions_exact {actions : List Action}
    (hw : ({} : World).runIf? q withinRange actions = some w) :
    World.runBy? .wrapping q actions {} = some w ∧
      ∃ w', World.runBy? .exact q actions {} = some w' ∧ w'.rows = w.rows ∧ w'.history = w.history ∧
        ¬ Overflowed w ∧ ¬ Overflowed w' := by
  obtain ⟨hrun, w', hw', htwin⟩ := Twin.fresh.run .fresh hw
  refine ⟨by rw [runBy?_wrapping, hrun], w', hw', ?_, ?_, htwin.not_overflowed⟩
  · rw [← htwin.same]
  · rw [← htwin.same]

/-- A message is consumed, and a reader leaves its bucket behind with both its cursors when it takes
the next message. Then a tick goes on to the bucket of that one. -/
def bucketLeft : List Action :=
  serve 0 (.put [1] 0) 6 ++ serve 1 (.receive 2 1000) 12 ++ serve 2 (.ack ⟨0, 1, ⟨7⟩⟩) 2 ++
    serve 3 (.put [2] 0) 6 ++ serve 4 (.receive 2 1000) 24 ++ serve 5 (.tick {}) 11

/-- All three cursors were moved to the next bucket, with each value converted exactly. -/
theorem conversions_exact_bucket_left :
    ∃ w, World.runBy? .wrapping singles bucketLeft {} = some w ∧ readerOf w.rows = 1 ∧
      invisibilityOf w.rows = 1 ∧ repairOf w.rows = 1 ∧
      ∃ w', World.runBy? .exact singles bucketLeft {} = some w' ∧ w'.rows = w.rows ∧
        w'.history = w.history ∧ ¬ Overflowed w ∧ ¬ Overflowed w' := by
  have hmoved : (World.runIf? singles withinRange bucketLeft {}).map
      (fun w => (readerOf w.rows, invisibilityOf w.rows, repairOf w.rows)) = some (1, 1, 1) := by
    decide +kernel
  obtain ⟨w, hw, hcursors⟩ := Option.map_eq_some_iff.mp hmoved
  simp only [Prod.mk.injEq] at hcursors
  obtain ⟨hreader, hinvisibility, hrepair⟩ := hcursors
  obtain ⟨hwrapping, hexact⟩ := conversions_exact hw
  exact ⟨w, hwrapping, hreader, hinvisibility, hrepair, hexact⟩

end LeaseQueue.Shared
