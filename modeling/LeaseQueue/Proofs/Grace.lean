import LeaseQueue.Proofs.Shared.Repairs

/-
  Which late writes repair loses.

  A publisher may write into a bucket long after the bucket was sealed. A tick
  reads a bucket, then its seal, and then looks at the clock whether the grace
  period is over. If it is not, the tick sleeps and reads the bucket again, and
  whatever is inserted within the grace period is in what it reads. If it is,
  the tick takes what it has read for all there is, and a message that was
  inserted since slips through, even within the grace period. Nothing else is
  lost.
-/

namespace LeaseQueue

namespace Shared

variable {q : Queue} {rule : Rule} {cfg : Repair.Config} {w : World} {t : Nat} {past : History}
  {r : Row} {m : Message} {b : UInt64}

/-! ## The grace period -/

def InsertedAt (i : UInt64) (c : Instant) (h : History) : Prop :=
  ∃ t rows b m, .performed t c rows ⟨.call (.insertMessage b m), .ok true⟩ ∈ h ∧ m.index = i

/-- The row was inserted before the grace period of its bucket was over. -/
def InGrace (cfg : Repair.Config) (w : World) (r : Row) : Prop :=
  ∃ c, InsertedAt r.message.index c w.history ∧
    ∀ sealedAt, w.rows.sealedAt? r.bucket = some sealedAt → c < sealedAt + cfg.grace

theorem inGrace_of_sealed {c sealedAt : Instant} (hc : InsertedAt r.message.index c w.history)
    (hs : w.rows.sealedAt? r.bucket = some sealedAt) (hlt : c < sealedAt + cfg.grace) :
    InGrace cfg w r := by
  refine ⟨c, hc, fun sealedAt' hs' => ?_⟩
  rw [hs] at hs'
  cases hs'
  exact hlt

/-- The task never slept, and when it last looked at the row's bucket, the row was not inserted
yet. -/
structure Slips (past : History) (t : Nat) (r : Row) : Prop where
  overlooks : Overlooks past t r
  sleepless : Sleepless (seenBy t past)

theorem Reachable.seen_le_insert (h : Reachable q rule w) (hs : past <:+ w.history)
    {ms : List Message} {looked : History} (hl : lastLook t b past = some (ms, looked))
    {i : UInt64} {c : Instant} (hi : ¬ Inserted i looked) (hc : InsertedAt i c w.history) :
    ∀ s ∈ seenBy t looked, s.instant ≤ c := by
  intro s hseen
  obtain ⟨c₀, rows₀, hlook⟩ := lastLook_event hl
  have hlook := hlook.trans hs
  obtain ⟨u, rows, b', m, he, hmi⟩ := hc
  obtain ⟨before, hins⟩ := suffix_of_mem he
  have hsuffix : .performed t c₀ rows₀ ⟨.call (.readBucket b), .ok ms⟩ :: looked <:+ before := by
    rcases same_or_before hlook hins with ⟨he, _⟩ | hle | hle
    · cases he
    · exact hle
    · exact absurd ⟨u, c, rows, b', m, hle.subset List.mem_cons_self, hmi⟩ hi
  obtain ⟨v₀, _, _, _, hv₀, rfl, _, rfl, _⟩ := h.at_effect hlook
  obtain ⟨v, _, _, _, hv, rfl, _, rfl, _⟩ := h.at_effect hins
  calc
    s.instant ≤ v₀.clock := hv₀.seen_le_clock s hseen
    _ ≤ v.clock := hv.clock_le (hsuffix.subset List.mem_cons_self)

/-- A tick that is done with its wait slept through the grace period and looked again, unless it
never slept. -/
theorem Reachable.slips {v : World} (h : Reachable q Undropped w) (hv : Reachable q Undropped v)
    (hs : v.history <:+ w.history) {ms : List Message} {before : List Seen}
    (hread : lastRead r.bucket (seenBy t v.history) = some (ms, before))
    (hw : Awaited q (seenBy t v.history) cfg r.bucket ms before)
    (hb : r.bucket = q.bucketOf r.message.index) (hg : InGrace cfg w r)
    (ho : Overlooks v.history t r) : Slips v.history t r := by
  obtain ⟨ms', looked, hlook, hi⟩ := ho
  obtain ⟨looked', hlook', hbefore⟩ := lastLook_of_lastRead hread
  obtain ⟨rfl, rfl⟩ : ms' = ms ∧ looked' = looked := by
    rw [hlook] at hlook'
    cases hlook'
    exact ⟨rfl, rfl⟩
  cases hw with
  | full size _ => exact absurd (hv.look_full (hb ▸ hlook) size) hi
  | @slept sealedAt wake told slept due =>
    obtain ⟨c, hc, hgrace⟩ := hg
    have hlt := hgrace _ (h.sealed_of_told hs told)
    have hle : sealedAt + cfg.grace ≤ c := calc
      _ ≤ wake := due
      _ ≤ c := h.seen_le_insert hs hlook hi hc ⟨.sleepUntil wake, ()⟩ (hbefore ▸ slept)
    exact absurd (Nat.lt_of_lt_of_le hlt hle) (Nat.lt_irrefl _)
  | atOnce _ _ _ never => exact ⟨⟨_, _, hlook, hi⟩, never⟩

/-- Nobody drops the queue, consumers present only receipts that were handed out, and all ticks are
configured alike. -/
def Tended (cfg : Repair.Config) : Rule
  | w, .start (.tick cfg') => cfg' = cfg ∧ Honest w (.start (.tick cfg'))
  | w, a => Honest w a

theorem honest_of_tended {a : Action} (h : Tended cfg w a) : Honest w a := by
  unfold Tended at h
  split at h
  · exact h.2
  · exact h

theorem undropped_of_tended {a : Action} (h : Tended cfg w a) : Undropped w a :=
  undropped_of_honest (honest_of_tended h)

theorem Reachable.tended_cfg (h : Reachable q (Tended cfg) w) {cfg' : Repair.Config}
    (hs : .started t (.tick cfg') ∈ w.history) : cfg' = cfg := by
  obtain ⟨v, _, htended, _⟩ := h.ruled hs
  exact htended.1

/-- What a tick overlooks when it moves the repair cursor, it lets slip. -/
theorem Reachable.slips_of_movedOff (h : Reachable q (Tended cfg) w)
    (hm : MovedOff q .repairBucket w.history t r.bucket past)
    (hb : r.bucket = q.bucketOf r.message.index) (hg : InGrace cfg w r)
    (ho : Overlooks past t r) : Slips past t r := by
  have hd := h.mono fun _ _ => undropped_of_tended
  obtain ⟨c, rows, expected, target, hs, hat, _⟩ := hm
  obtain ⟨v, req, _, rows', hv, rfl, rfl, rfl, htask, hans, _⟩ := h.at_effect hs
  obtain ⟨hstarted, hp, _⟩ := hv.task_obeys (requests_keep _) htask
  obtain ⟨cfg', b, next, rfl, hpos, rfl, hpasses⟩ := hp.swap_repair
  obtain rfl := hv.tended_cfg hstarted
  obtain ⟨ms, before, hread, hw, _⟩ := hpasses.handled
  have hfound : v.rows.cells.repairBucket = expected := by
    simp only [Answered, Rows.apply] at hans
    split at hans
    · assumption
    · cases hans
  subst hfound
  have hbucket : b = r.bucket := (cursorAt_repair hpos).symm.trans hat
  subst hbucket
  exact hd.slips (hv.mono fun _ _ => undropped_of_tended) ((List.suffix_cons _ _).trans hs) hread hw
    hb hg ho

/-! ## Late writes -/

/-- A message that is inserted within the grace period and neither delivered nor acknowledged is
behind the repair cursor exactly if the tick that passed its bucket let it slip, and a tick that
deletes an unacknowledged one has let it slip. -/
theorem late_writes_lost_iff (h : Reachable q (Tended cfg) w) :
    (∀ r ∈ w.rows.messages, InGrace cfg w r → r.message.pending = true →
      (r.bucket < cursorAt q .repairBucket w.rows ↔
        ∃ t past, MovedOff q .repairBucket w.history t r.bucket past ∧ Slips past t r)) ∧
    (∀ t c rows b past,
      .performed t c rows ⟨.call (.deleteBucket b), .ok ()⟩ :: past <:+ w.history →
      ∀ r ∈ rows.messages, r.bucket = b → InGrace cfg w r → r.message.acked = false →
        Slips past t r) := by
  have hh := h.mono fun _ _ => honest_of_tended
  have hd := hh.mono fun _ _ => undropped_of_honest
  constructor
  · intro r hr hg hp
    rw [hh.swept_repair.behind_iff hr hp]
    constructor
    · rintro ⟨t, past, hm, ho⟩
      exact ⟨t, past, hm, h.slips_of_movedOff hm (hd.filed.placed r hr) hg ho⟩
    · rintro ⟨t, past, hm, hslips⟩
      exact ⟨t, past, hm, hslips.overlooks⟩
  · intro t c rows b past hs r hr hb hg hacked
    subst hb
    obtain ⟨v, req, _, rows', hv, rfl, rfl, rfl, htask, _, _⟩ := h.at_effect hs
    obtain ⟨hstarted, hperm, _⟩ := hv.task_obeys (requests_keep _) htask
    obtain ⟨cfg', rfl, hclears⟩ := hperm.clear
    obtain rfl := hv.tended_cfg hstarted
    have hvd := hv.mono fun _ _ => undropped_of_tended
    obtain ⟨ms, before, hread, hw, _⟩ := hclears.settled
    exact hd.slips hvd ((List.suffix_cons _ _).trans hs) hread hw (hvd.filed.placed r hr) hg
      (hvd.overlooks_of_clears hclears hr hacked)

def brief : Repair.Config := { grace := 1000 }

/-- A publisher takes an index and pauses, and a reader seals the bucket. -/
def sealing : List Action :=
  [.start (.put [1] 0)] ++ List.replicate 3 (.act 0 ⟨7⟩) ++ serve 1 (.receive 1 1000) 21

/-- A tick reads the bucket, the publisher writes into it, the grace period passes, and the tick
moves the repair cursor. -/
def slipping : List Action :=
  List.replicate 3 (.act 2 ⟨7⟩) ++ List.replicate 3 (.act 0 ⟨7⟩) ++ [.finish 0, .pass 1000] ++
    List.replicate 7 (.act 2 ⟨7⟩)

theorem late_writes_lost_iff_slipping :
    ∃ w r, Reachable singles (Tended brief) w ∧ r ∈ w.rows.messages ∧
      InGrace brief w r ∧ r.message.pending = true ∧
      r.bucket < cursorAt singles .repairBucket w.rows ∧
      ∃ t past, MovedOff singles .repairBucket w.history t r.bucket past ∧ Slips past t r := by
  obtain ⟨w, r, t, rows, b, m, hw, hr, hins, hi, hseal, hp, hbehind⟩ : ∃ w r t rows b m,
      ({} : World).run? singles (sealing ++ .start (.tick brief) :: slipping) = some w ∧
      w.rows.messages = [r] ∧
      w.history[7]? = some (.performed t 0 rows ⟨.call (.insertMessage b m), .ok true⟩) ∧
      m.index = r.message.index ∧ w.rows.sealedAt? r.bucket = some 0 ∧
      r.message.pending = true ∧ r.bucket < cursorAt singles .repairBucket w.rows :=
    ⟨_, _, _, _, _, _, rfl, rfl, rfl, rfl, rfl, rfl, by decide +kernel⟩
  have h : Reachable singles (Tended brief) w :=
    .run (by simp [sealing, slipping, serve, Tended, Honest]) .fresh hw
  have hmem : r ∈ w.rows.messages := hr ▸ List.mem_singleton_self r
  have hg : InGrace brief w r :=
    inGrace_of_sealed ⟨t, rows, b, m, List.mem_of_getElem? hins, hi⟩ hseal (by decide)
  exact ⟨w, r, h, hmem, hg, hp, hbehind, ((late_writes_lost_iff h).1 r hmem hg hp).mp hbehind⟩

def ticksIn : History → Nat
  | [] => 0
  | .started _ (.tick _) :: past => ticksIn past + 1
  | _ :: past => ticksIn past

/-- Publishers, readers, honest consumers and a single tick, and no call fails. -/
def TickedOnce (cfg : Repair.Config) : Rule
  | w, .start (.tick cfg') => cfg' = cfg ∧ ticksIn w.history = 0
  | _, .fail _ _ => False
  | w, a => Honest w a

/-- A late write can be deleted within the grace period although nobody has acknowledged it. -/
theorem late_write_deleted_unacked :
    ¬ ∀ (q : Queue) (cfg : Repair.Config) (w : World), Reachable q (TickedOnce cfg) w →
      (∀ r ∈ w.rows.messages, InGrace cfg w r → r.bucket < cursorAt q .repairBucket w.rows →
        r.message.pending = false) ∧
      (∀ t c rows b past,
        .performed t c rows ⟨.call (.deleteBucket b), .ok ()⟩ :: past <:+ w.history →
        ∀ r ∈ rows.messages, r.bucket = b → InGrace cfg w r → r.message.acked = true) := by
  intro claimed
  obtain ⟨v, u, w, hv, hticks, hu, hw, t, b, rows, rows', r, m, hdeleted, hins, hr, hb, hi, hseal,
      hacked⟩ : ∃ v u w, ({} : World).run? singles sealing = some v ∧ ticksIn v.history = 0 ∧
      v.step? singles (.start (.tick brief)) = some u ∧
      u.run? singles (slipping ++ [.act 2 ⟨7⟩]) = some w ∧ ∃ t b rows rows' r m,
      w.history[0]? = some (.performed 2 1000 rows ⟨.call (.deleteBucket b), .ok ()⟩) ∧
      w.history[8]? = some (.performed t 0 rows' ⟨.call (.insertMessage b m), .ok true⟩) ∧
      rows.messages = [r] ∧ r.bucket = b ∧ m.index = r.message.index ∧
      w.rows.sealedAt? b = some 0 ∧ r.message.acked = false :=
    ⟨_, _, _, rfl, rfl, rfl, rfl, _, _, _, _, _, _, rfl, rfl, rfl, rfl, rfl, rfl, rfl⟩
  subst hb
  obtain ⟨past, hs⟩ := suffix_of_mem (List.mem_of_getElem? hdeleted)
  have hsealed : Reachable singles (TickedOnce brief) v :=
    .run (by simp [sealing, serve, TickedOnce, Honest]) .fresh hv
  have hstarted : Reachable singles (TickedOnce brief) u :=
    hsealed.step (show TickedOnce brief v (.start (.tick brief)) from ⟨rfl, hticks⟩) hu
  have h : Reachable singles (TickedOnce brief) w :=
    .run (by simp [slipping, TickedOnce, Honest]) hstarted hw
  have hg : InGrace brief w r :=
    inGrace_of_sealed ⟨t, rows', _, m, List.mem_of_getElem? hins, hi⟩ hseal (by decide)
  have hmem : r ∈ rows.messages := hr ▸ List.mem_singleton_self r
  have hack := (claimed singles _ w h).2 2 1000 rows r.bucket past hs r hmem rfl hg
  rw [hacked] at hack
  cases hack

end Shared

end LeaseQueue
