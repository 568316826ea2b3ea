import LeaseQueue.Proofs.RowHistory
import LeaseQueue.Proofs.Shared.Searches
import LeaseQueue.Proofs.Shared.Turns

/-
  What the delivery count of a message counts.

  A claim of a reader raises the count by one, and nothing else changes it. A
  call claims at most one message, and after that it makes no call but to move the
  invisibility cursor. So when nothing is being served, the call that made a claim
  has handed the message out, or the storage has failed it at that move. Such a
  claim is lost: the message is hidden and counted, and nobody has its receipt.
-/

namespace LeaseQueue.Shared

variable {q : Queue} {w : World} {t : Nat} {h past : History} {i : UInt64}

/-! ## Tasks that a history names -/

/-- The tasks named by the events of a history, each after what was past by then; the latest
first. -/
def named (name : Event → History → Option Nat) : History → List Nat
  | [] => []
  | e :: past => (name e past).toList ++ named name past

theorem mem_named {name : Event → History → Option Nat} :
    t ∈ named name h ↔ ∃ e past, e :: past <:+ h ∧ name e past = some t := by
  induction h with
  | nil => simp [named]
  | cons e h ih =>
    rw [named, List.mem_append, Option.mem_toList, ih]
    constructor
    · rintro (he | ⟨e', past, hs, he⟩)
      · exact ⟨e, h, List.suffix_refl _, he⟩
      · exact ⟨e', past, hs.trans (List.suffix_cons _ _), he⟩
    · rintro ⟨e', past, hs, he⟩
      rcases List.suffix_cons_iff.mp hs with heq | hs
      · cases heq
        exact .inl he
      · exact .inr ⟨e', past, hs, he⟩

theorem named_nodup {name : Event → History → Option Nat}
    (hnew : ∀ e past t, e :: past <:+ h → name e past = some t → t ∉ named name past) :
    (named name h).Nodup := by
  induction h with
  | nil => exact List.nodup_nil
  | cons e h ih =>
    have hrest := ih fun e' past t hs => hnew e' past t (hs.trans (List.suffix_cons _ _))
    rw [named]
    cases he : name e h with
    | none => exact hrest
    | some t => exact List.nodup_cons.mpr ⟨hnew e h t (List.suffix_refl _) he, hrest⟩

def isReader (t : Nat) (h : History) : Bool :=
  h.any fun
    | .started u r => u = t && r.reads
    | _ => false

theorem isReader_iff :
    isReader t h = true ↔ ∃ limit hide, .started t (.receive limit hide) ∈ h := by
  rw [isReader, List.any_eq_true]
  constructor
  · rintro ⟨e, he, hr⟩
    split at hr
    · rename_i u r
      simp only [Bool.and_eq_true, decide_eq_true_eq] at hr
      obtain ⟨rfl, hr⟩ := hr
      cases r with
      | receive limit hide => exact ⟨limit, hide, he⟩
      | _ => cases hr
    · cases hr
  · rintro ⟨limit, hide, he⟩
    exact ⟨_, he, by simp [Request.reads]⟩

/-- The reader whose claim of the message at the index was applied. -/
def claimer (i : UInt64) : Event → History → Option Nat
  | .performed t _ _ s, past => if isReader t past && s.hid?.any (·.index = i) then some t else none
  | _, _ => none

/-- The call that handed out the message at the index. -/
def receiver (i : UInt64) : Event → History → Option Nat
  | .ended t (.ok (.delivery (some d))), _ => if d.index = i then some t else none
  | _, _ => none

/-- The storage failed the task when it moved the invisibility cursor, after it had claimed the
message at the index. -/
def strandedAt (i : UInt64) : List Seen → Bool
  | ⟨.call (.swapCell .invisibility _ _), .error _⟩ :: before => (hidBy before).any (·.index = i)
  | _ => false

/-- The call that failed after it had claimed the message at the index. -/
def loser (i : UInt64) : Event → History → Option Nat
  | .ended t (.error _), past => if strandedAt i (seenBy t past) then some t else none
  | _, _ => none

def claimers (i : UInt64) : History → List Nat := named (claimer i)

def receivers (i : UInt64) : History → List Nat := named (receiver i)

def losers (i : UInt64) : History → List Nat := named (loser i)

theorem claimer_eq_some {e : Event} : claimer i e past = some t ↔
    ∃ c rows s, e = .performed t c rows s ∧
      (∃ limit hide, .started t (.receive limit hide) ∈ past) ∧
      ∃ m, s.hid? = some m ∧ m.index = i := by
  unfold claimer
  split
  · simp only [Option.ite_none_right_eq_some, Bool.and_eq_true, Option.any_eq_true,
      Option.some.injEq, decide_eq_true_eq]
    constructor
    · rintro ⟨⟨hr, hm⟩, rfl⟩
      exact ⟨_, _, _, rfl, isReader_iff.mp hr, hm⟩
    · rintro ⟨_, _, _, he, hr, hm⟩
      cases he
      exact ⟨⟨isReader_iff.mpr hr, hm⟩, rfl⟩
  · rename_i hne
    refine ⟨nofun, ?_⟩
    rintro ⟨c, rows, s, rfl, _⟩
    exact absurd rfl (hne t c rows s)

theorem receiver_eq_some {e : Event} : receiver i e past = some t ↔
    ∃ d, e = .ended t (.ok (.delivery (some d))) ∧ d.index = i := by
  unfold receiver
  split
  · simp only [Option.ite_none_right_eq_some, Option.some.injEq]
    constructor
    · rintro ⟨hi, rfl⟩
      exact ⟨_, rfl, hi⟩
    · rintro ⟨_, he, hi⟩
      cases he
      exact ⟨hi, rfl⟩
  · rename_i hne
    refine ⟨nofun, ?_⟩
    rintro ⟨d, rfl, _⟩
    exact absurd rfl (hne t d)

theorem strandedAt_iff {tr : List Seen} : strandedAt i tr = true ↔
    ∃ expected target e before,
      tr = ⟨.call (.swapCell .invisibility expected target), .error e⟩ :: before ∧
        ∃ m ∈ hidBy before, m.index = i := by
  unfold strandedAt
  split
  · simp
  · rename_i hne
    refine ⟨nofun, ?_⟩
    rintro ⟨expected, target, e, before, rfl, _⟩
    exact absurd rfl (hne expected target e before)

theorem loser_eq_some {e : Event} : loser i e past = some t ↔
    ∃ f, e = .ended t (.error f) ∧ strandedAt i (seenBy t past) = true := by
  unfold loser
  split
  · simp only [Option.ite_none_right_eq_some, Option.some.injEq]
    constructor
    · rintro ⟨hi, rfl⟩
      exact ⟨_, rfl, hi⟩
    · rintro ⟨_, he, hi⟩
      cases he
      exact ⟨hi, rfl⟩
  · rename_i hne
    refine ⟨nofun, ?_⟩
    rintro ⟨f, rfl, _⟩
    exact absurd rfl (hne t f)

/-! ## The count -/

theorem hid?_of_not_applied {s : Seen} (hs : s.applied = false) : s.hid? = none := by
  unfold Seen.hid?
  split
  · cases hs
  · rfl

section
variable {rule : Rule} {c : Instant} {rows : Rows} {s : Seen}

theorem claimers_silent (hs : s.hid? = none) :
    claimers i (.performed t c rows s :: past) = claimers i past := by
  simp [claimers, named, claimer, hs]

theorem Replaces.isReader_iff {r : Request} {next old : Message} {cond : Condition}
    (hw : Reachable q rule w) (hr : Replaces q w.history rows t r next cond old) :
    isReader t w.history = true ↔ ∃ limit hide, r = .receive limit hide := by
  rw [Shared.isReader_iff]
  constructor
  · rintro ⟨limit, hide, hstarted⟩
    exact ⟨limit, hide, hw.started_unique hr.started hstarted⟩
  · rintro ⟨limit, hide, rfl⟩
    exact ⟨limit, hide, hr.started⟩

theorem Replaces.claimers_of_claiming {r : Request} {next old : Message} {cond : Condition}
    {b : UInt64} (hw : Reachable q rule w) (hr : Replaces q w.history rows t r next cond old)
    (hc : Claiming r cond) :
    claimers next.index (.performed t c rows ⟨.call (.updateMessage b next cond), .ok true⟩ ::
      w.history) = t :: claimers next.index w.history := by
  obtain ⟨version, unacked⟩ := cond
  obtain ⟨hreceive, rfl⟩ := hc
  simp [claimers, named, claimer, Seen.hid?, (hr.isReader_iff hw).mpr hreceive]

theorem Replaces.claimers_of_not {r : Request} {next old : Message} {cond : Condition}
    {b : UInt64} (hw : Reachable q rule w) (hr : Replaces q w.history rows t r next cond old)
    (hc : ¬ (Claiming r cond ∧ next.index = i)) :
    claimers i (.performed t c rows ⟨.call (.updateMessage b next cond), .ok true⟩ ::
      w.history) = claimers i w.history := by
  obtain ⟨version, unacked⟩ := cond
  cases unacked with
  | false => exact claimers_silent rfl
  | true =>
    have hnot : ¬ (isReader t w.history = true ∧ next.index = i) := by
      rw [hr.isReader_iff hw]
      exact fun h => hc ⟨⟨h.1, rfl⟩, h.2⟩
    simp [claimers, named, claimer, Seen.hid?, hnot]

end

/-- The delivery count of a stored message is the number of its claims, as far as it can count. -/
theorem Reachable.deliveries_eq (h : Reachable q Undropped w) :
    (∀ row ∈ w.rows.messages, row.message.deliveries.toNat =
      min (claimers row.message.index w.history).length (UInt32.size - 1)) ∧
    ∀ i, claimers i w.history ≠ [] → Inserted i w.history := by
  refine h.course (P := fun rows h => (∀ row ∈ rows.messages, row.message.deliveries.toNat =
      min (claimers row.message.index h).length (UInt32.size - 1)) ∧
    ∀ i, claimers i h ≠ [] → Inserted i h) (fun _ _ => id) ?_ ?_ ?_ ?_
  · exact ⟨nofun, fun i hne => absurd rfl hne⟩
  · exact fun rows past t r ih => ⟨ih.1, fun i hne => inserted_started.mpr (ih.2 i hne)⟩
  · exact fun rows past t r ih => ⟨ih.1, fun i hne => inserted_ended.mpr (ih.2 i hne)⟩
  · intro v t r s rows hv _ hp hturn ih
    have kept : ∀ {i}, Inserted i v.history →
        Inserted i (.performed t v.clock v.rows s :: v.history) :=
      fun hi => hi.mono (List.suffix_cons _ _)
    -- An effect that claims nothing and changes no row.
    have silent : s.hid? = none → (∀ row ∈ rows.messages, row ∈ v.rows.messages) →
        (∀ row ∈ rows.messages, row.message.deliveries.toNat = min (claimers row.message.index
          (.performed t v.clock v.rows s :: v.history)).length (UInt32.size - 1)) ∧
        ∀ i, claimers i (.performed t v.clock v.rows s :: v.history) ≠ [] →
          Inserted i (.performed t v.clock v.rows s :: v.history) := by
      intro hs hsub
      simp only [claimers_silent hs]
      exact ⟨fun row hrow => ih.1 row (hsub row hrow), fun i hne => kept (ih.2 i hne)⟩
    cases hturn with
    | leaves hs => exact silent (hid?_of_not_applied hs) fun _ => id
    | swaps => exact silent rfl fun _ => id
    | records _ => exact silent rfl fun _ => id
    | deletes => exact silent rfl fun _ hrow => (Rows.mem_removeBucket.mp hrow).1
    | @inserts m first =>
      simp only [claimers_silent (s := ⟨.call (.insertMessage _ m), .ok true⟩) rfl]
      refine ⟨fun row hrow => ?_, fun i hne => kept (ih.2 i hne)⟩
      rcases Rows.mem_insert.mp hrow with rfl | hrow
      · -- Nobody has claimed at an index that nothing was inserted at.
        have hnone : claimers m.index v.history = [] := by
          by_contra hne
          exact first (ih.2 _ hne)
        obtain ⟨_, _, _, hins⟩ := hp.insert
        obtain ⟨_, _, _, hm⟩ := hins.fresh
        rw [hm]
        simp [Message.fresh, hnone]
      · exact ih.1 row hrow
    | @replaces next old cond hrep =>
      have hrev := hrep.revision
      refine ⟨fun row hrow => ?_, fun i hne => ?_⟩
      · rcases Rows.mem_replace.mp hrow with ⟨_, _, _, rfl⟩ | ⟨hrow, hsits⟩
        · have hold : old.deliveries.toNat =
              min (claimers next.index v.history).length (UInt32.size - 1) :=
            hrev.index ▸ ih.1 _ hrep.stored
          by_cases hc : Claiming r cond
          · obtain ⟨_, hnext⟩ := hrev.claimed hc
            rw [hrep.claimers_of_claiming hv hc, List.length_cons, hnext, hold]
            omega
          · rw [hrep.claimers_of_not hv fun h => hc h.1, hrev.unclaimed hc, hold]
        · have hne : next.index ≠ row.message.index := by
            intro he
            cases hv.filed.distinct.eq hrow hrep.stored (he.symm.trans hrev.index)
            simp [Row.sits, he] at hsits
          rw [hrep.claimers_of_not hv fun h => hne h.2]
          exact ih.1 row hrow
      · by_cases hc : Claiming r cond ∧ next.index = i
        · have hins := hv.filed.inserted _ hrep.stored
          exact kept (hc.2 ▸ hrev.index ▸ hins)
        · rw [hrep.claimers_of_not hv hc] at hne
          exact kept (ih.2 i hne)

/-! ## What became of a claim -/

section
variable {rule : Rule}

/-- The readers that claimed the message at an index are those that have claimed such a message by
what they have seen. -/
theorem Reachable.mem_claimers (h : Reachable q rule w) : t ∈ claimers i w.history ↔
    (∃ limit hide, .started t (.receive limit hide) ∈ w.history) ∧
      ∃ m ∈ hidBy (seenBy t w.history), m.index = i := by
  rw [claimers, mem_named]
  constructor
  · rintro ⟨e, past, hs, he⟩
    obtain ⟨c, rows, s, rfl, ⟨limit, hide, hstarted⟩, m, hm, hi⟩ := claimer_eq_some.mp he
    have hseen : s ∈ seenBy t w.history := mem_seenBy.mpr ⟨c, rows, hs.subset List.mem_cons_self⟩
    exact ⟨⟨limit, hide, hs.subset (List.mem_cons_of_mem _ hstarted)⟩, m,
      List.mem_filterMap.mpr ⟨s, hseen, hm⟩, hi⟩
  · rintro ⟨⟨limit, hide, hstarted⟩, m, hmem, hi⟩
    obtain ⟨s, hseen, hm⟩ := List.mem_filterMap.mp hmem
    obtain ⟨c, rows, he⟩ := mem_seenBy.mp hseen
    obtain ⟨past, hs⟩ := suffix_of_mem he
    obtain ⟨r, hr, _⟩ := h.effect_permitted (requests_keep rule) hs
    cases h.started_unique (hs.subset (List.mem_cons_of_mem _ hr)) hstarted
    exact ⟨_, past, hs, claimer_eq_some.mpr ⟨c, rows, s, rfl, ⟨limit, hide, hr⟩, m, hm, hi⟩⟩

theorem Seen.effect_of_hid? {s : Seen} {m : Message} (hm : s.hid? = some m) :
    ∃ b v, s.effect = .call (.updateMessage b m ⟨v, true⟩) := by
  unfold Seen.hid? at hm
  split at hm
  · cases hm
    exact ⟨_, _, rfl⟩
  · cases hm

theorem Reachable.claimers_nodup (h : Reachable q rule w) : (claimers i w.history).Nodup := by
  refine named_nodup fun e past t hs he hmem => ?_
  obtain ⟨c, rows, s, rfl, ⟨limit, hide, hstarted⟩, m, hm, _⟩ := claimer_eq_some.mp he
  obtain ⟨v, _, _, _, hv, rfl, _, _, _, _, _⟩ := h.at_effect hs
  obtain ⟨r, hr, hasks⟩ := h.effect_permitted (readers_watched rule) hs
  cases hv.started_unique hr hstarted
  obtain ⟨b, version, heffect⟩ := Seen.effect_of_hid? hm
  rcases hasks limit hide rfl _ heffect with hnone | ⟨_, _, _, hswap⟩
  · obtain ⟨_, m', hm', _⟩ := hv.mem_claimers.mp hmem
    rw [hnone] at hm'
    cases hm'
  · cases hswap

theorem Reachable.hidBy_at_end (h : Reachable q rule w) {result : Result} {m : Message}
    (hs : .ended t result :: past <:+ w.history) (hm : m ∈ hidBy (seenBy t w.history)) :
    m ∈ hidBy (seenBy t past) :=
  h.seenBy_at_end hs ▸ hm

/-- A call that fails has claimed nothing, or it was stranded. -/
theorem Reachable.failed_reader (h : Reachable q rule w) {limit : Nat} {hide : Duration} {f : Fault}
    (hs : .ended t (.error f) :: past <:+ w.history)
    (hstarted : .started t (.receive limit hide) ∈ past) :
    hidBy (seenBy t past) = [] ∨ ∃ m e, f = .storage e ∧ Stranded (seenBy t past) m e := by
  obtain ⟨v, _, hv, rfl, _⟩ := h.at_end hs
  obtain ⟨r, hr, _, hfailing⟩ := h.end_permitted (readers_watched rule) hs
  cases hv.started_unique hr hstarted
  exact hfailing limit hide f rfl rfl

theorem Reachable.answered_reader (h : Reachable q rule w) {reply : Reply} {limit : Nat}
    {hide : Duration} (hs : .ended t (.ok reply) :: past <:+ w.history)
    (hstarted : .started t (.receive limit hide) ∈ past) :
    ∃ o : Option Message,
      reply = .delivery (o.map Delivery.of) ∧ hidBy (seenBy t past) = o.toList := by
  obtain ⟨v, _, hv, rfl, _⟩ := h.at_end hs
  obtain ⟨r, hr, hends⟩ := h.end_permitted (requests_keep rule) hs
  obtain ⟨r', hr', hending, _⟩ := h.end_permitted (readers_watched rule) hs
  cases hv.started_unique hr hstarted
  cases hv.started_unique hr' hstarted
  have hdelivery : ∃ d, reply = .delivery d := by
    cases hends with
    | nothing => exact ⟨_, rfl⟩
    | received _ => exact ⟨_, rfl⟩
  obtain ⟨d, rfl⟩ := hdelivery
  obtain ⟨o, rfl, hhid, _⟩ := hending limit hide d rfl rfl
  exact ⟨o, rfl, hhid⟩

theorem Reachable.mem_receivers (h : Reachable q rule w) : t ∈ receivers i w.history ↔
    ∃ limit hide m past, .started t (.receive limit hide) ∈ past ∧
      .ended t (.ok (.delivery (some (Delivery.of m)))) :: past <:+ w.history ∧
      hidBy (seenBy t past) = [m] ∧ m.index = i := by
  rw [receivers, mem_named]
  constructor
  · rintro ⟨e, past, hs, he⟩
    obtain ⟨d, rfl, rfl⟩ := receiver_eq_some.mp he
    obtain ⟨r, hr, hends⟩ := h.end_permitted (requests_keep rule) hs
    obtain ⟨limit, hide, rfl⟩ : ∃ limit hide, r = .receive limit hide := by
      cases hends with
      | received _ => exact ⟨_, _, rfl⟩
    obtain ⟨o, ho, hhid⟩ := h.answered_reader hs hr
    cases o with
    | none => cases ho
    | some m =>
      cases ho
      exact ⟨limit, hide, m, past, hr, hs, hhid, rfl⟩
  · rintro ⟨_, _, m, past, _, hs, _, hi⟩
    exact ⟨_, past, hs, receiver_eq_some.mpr ⟨_, rfl, hi⟩⟩

theorem Reachable.mem_losers (h : Reachable q rule w) : t ∈ losers i w.history ↔
    ∃ limit hide m e past, .started t (.receive limit hide) ∈ past ∧
      .ended t (.error (.storage e)) :: past <:+ w.history ∧
      Stranded (seenBy t past) m e ∧ m.index = i := by
  rw [losers, mem_named]
  constructor
  · rintro ⟨ev, past, hs, he⟩
    obtain ⟨f, rfl, hstranded⟩ := loser_eq_some.mp he
    obtain ⟨expected, target, error, before, hseen, m, hm, hi⟩ := strandedAt_iff.mp hstranded
    -- Only a reader moves the invisibility cursor.
    have hswap : ⟨.call (.swapCell .invisibility expected target), .error error⟩ :: before <:+
        seenBy t past := hseen ▸ List.suffix_refl _
    obtain ⟨c, rows, past', hs', _⟩ := performed_of_seenBy hswap
    obtain ⟨r, hr, hp⟩ := h.effect_permitted (requests_keep rule)
      (hs'.trans ((List.suffix_cons _ _).trans hs))
    have hr : .started t r ∈ past := hs'.subset (List.mem_cons_of_mem _ hr)
    have hreads : r.reads = true := hp.reads
    cases r with
    | receive limit hide =>
      have hm : m ∈ hidBy (seenBy t past) := by
        rw [hseen, hidBy_silent rfl]
        exact hm
      rcases h.failed_reader hs hr with hnone | ⟨m', e, rfl, hst⟩
      · rw [hnone] at hm
        cases hm
      · rw [hst.hidBy_eq, List.mem_singleton] at hm
        exact ⟨limit, hide, m', e, past, hr, hs, hst, hm ▸ hi⟩
    | _ => cases hreads
  · rintro ⟨_, _, m, e, past, _, hs, ⟨expected, target, before, hseen, hhid⟩, hi⟩
    refine ⟨_, past, hs, loser_eq_some.mpr ⟨_, rfl, strandedAt_iff.mpr ?_⟩⟩
    exact ⟨expected, target, e, before, hseen, m, hhid ▸ List.mem_singleton_self m, hi⟩

theorem Reachable.nodup_of_ends (h : Reachable q rule w) {name : Event → History → Option Nat}
    (hends : ∀ e past t, name e past = some t → ∃ result, e = .ended t result) :
    (named name w.history).Nodup := by
  refine named_nodup fun e past t hs he hmem => ?_
  obtain ⟨result, rfl⟩ := hends e past t he
  obtain ⟨e', past', hs', he'⟩ := mem_named.mp hmem
  obtain ⟨result', rfl⟩ := hends e' past' t he'
  exact h.ended_once hs (hs'.subset List.mem_cons_self)

theorem Reachable.accounts_nodup (h : Reachable q rule w) :
    (receivers i w.history ++ losers i w.history).Nodup := by
  refine List.nodup_append.mpr ⟨h.nodup_of_ends ?_, h.nodup_of_ends ?_, ?_⟩
  · intro e past t he
    obtain ⟨d, rfl, _⟩ := receiver_eq_some.mp he
    exact ⟨_, rfl⟩
  · intro e past t he
    obtain ⟨f, rfl, _⟩ := loser_eq_some.mp he
    exact ⟨_, rfl⟩
  · rintro t hreceiver _ hloser rfl
    obtain ⟨_, _, _, past, _, hs, _⟩ := h.mem_receivers.mp hreceiver
    obtain ⟨_, _, _, _, past', _, hs', _⟩ := h.mem_losers.mp hloser
    rcases same_or_before hs hs' with ⟨he, _⟩ | hle | hle
    · cases he
    · exact h.ended_once hs' (hle.subset List.mem_cons_self)
    · exact h.ended_once hs (hle.subset List.mem_cons_self)

/-- When nothing is being served, each claim was handed out or lost. -/
theorem Reachable.claimers_perm (h : Reachable q rule w) (hidle : Idle w) :
    (claimers i w.history).Perm (receivers i w.history ++ losers i w.history) := by
  refine (List.perm_ext_iff_of_nodup h.claimers_nodup h.accounts_nodup).mpr fun t => ?_
  rw [List.mem_append, h.mem_claimers, h.mem_receivers, h.mem_losers]
  constructor
  · rintro ⟨⟨limit, hide, hstarted⟩, m, hm, hi⟩
    obtain ⟨result, past, hs⟩ := h.ended_of_gone hstarted (hidle t)
    obtain ⟨r, hr, _⟩ := h.end_permitted (requests_keep rule) hs
    cases h.started_unique (hs.subset (List.mem_cons_of_mem _ hr)) hstarted
    have hm := h.hidBy_at_end hs hm
    -- The call has ended: it has handed out what it claimed, or it was stranded.
    cases result with
    | ok reply =>
      obtain ⟨o, rfl, hhid⟩ := h.answered_reader hs hr
      rw [hhid, Option.mem_toList] at hm
      cases hm
      exact .inl ⟨limit, hide, m, past, hr, hs, hhid, hi⟩
    | error f =>
      rcases h.failed_reader hs hr with hnone | ⟨m', e, rfl, hst⟩
      · rw [hnone] at hm
        cases hm
      · rw [hst.hidBy_eq, List.mem_singleton] at hm
        exact .inr ⟨limit, hide, m', e, past, hr, hs, hst, hm ▸ hi⟩
  · have claimed : ∀ {limit hide m result past}, .started t (.receive limit hide) ∈ past →
        .ended t result :: past <:+ w.history → m ∈ hidBy (seenBy t past) → m.index = i →
        (∃ limit hide, .started t (.receive limit hide) ∈ w.history) ∧
          ∃ m ∈ hidBy (seenBy t w.history), m.index = i := by
      intro limit hide m result past hr hs hm hi
      have hle : past <:+ w.history := (List.suffix_cons _ _).trans hs
      exact ⟨⟨limit, hide, hle.subset hr⟩, m,
        (List.Sublist.filterMap _ (seenBy_suffix hle).sublist).subset hm, hi⟩
    rintro (⟨limit, hide, m, past, hr, hs, hhid, hi⟩ | ⟨limit, hide, m, e, past, hr, hs, hst, hi⟩)
    · exact claimed hr hs (hhid ▸ List.mem_singleton_self m) hi
    · exact claimed hr hs (hst.hidBy_eq ▸ List.mem_singleton_self m) hi

end

/-! ## The account -/

/-- When nothing is being served, the delivery count of a stored message is the number of calls that
handed it out and of calls that lost it, each call counted once. A call loses a message exactly if
it claims it and the storage fails it when it then moves the invisibility cursor; any other call
that fails has claimed nothing. -/
theorem deliveries_accounted (h : Reachable q Undropped w) (hidle : Idle w) :
    (∀ row ∈ w.rows.messages, row.message.deliveries.toNat =
      min ((receivers row.message.index w.history).length +
        (losers row.message.index w.history).length) (UInt32.size - 1)) ∧
    (∀ row ∈ w.rows.messages, row.message.deliveries.toNat < UInt32.size - 1 →
      (row.message.deliveries.toNat = (receivers row.message.index w.history).length ↔
        losers row.message.index w.history = [])) ∧
    (∀ i, (receivers i w.history ++ losers i w.history).Nodup) ∧
    (∀ i t, t ∈ losers i w.history ↔ ∃ limit hide m e past,
      .started t (.receive limit hide) ∈ past ∧
      .ended t (.error (.storage e)) :: past <:+ w.history ∧
      Stranded (seenBy t past) m e ∧ m.index = i) ∧
    ∀ t limit hide f past, .started t (.receive limit hide) ∈ past →
      .ended t (.error f) :: past <:+ w.history →
      hidBy (seenBy t past) = [] ∨ ∃ m e, f = .storage e ∧ Stranded (seenBy t past) m e := by
  have hcount : ∀ row ∈ w.rows.messages, row.message.deliveries.toNat =
      min ((receivers row.message.index w.history).length +
        (losers row.message.index w.history).length) (UInt32.size - 1) := by
    intro row hrow
    rw [h.deliveries_eq.1 row hrow, (h.claimers_perm hidle).length_eq, List.length_append]
  refine ⟨hcount, fun row hrow hlt => ?_, fun i => h.accounts_nodup, fun i t => h.mem_losers,
    fun t limit hide f past hstarted hs => h.failed_reader hs hstarted⟩
  rw [← List.length_eq_zero_iff]
  have := hcount row hrow
  omega

/-- Two messages of one bucket are handed out, and the first is acknowledged. When the claim of the
second has run out, a call claims it again and fails at its last call. -/
def failedAtLast : List Action :=
  serve 0 (.put [1] 0) 6 ++ serve 1 (.put [2] 0) 6 ++ serve 2 (.receive 1 1000) 12 ++
    serve 3 (.receive 1 1000) 10 ++ serve 4 (.ack ⟨0, 1, ⟨7⟩⟩) 2 ++
    [.pass 1000, .start (.receive 1 1000)] ++ List.replicate 6 (.act 5 ⟨7⟩) ++
    [.fail 5 (.unavailable "swap_cell"), .finish 5]

theorem deliveries_accounted_lost :
    ∃ w row past m e, Reachable pairs Undropped w ∧ Idle w ∧ row ∈ w.rows.messages ∧
      row.message.index = 1 ∧ row.message.deliveries = 2 ∧ receivers 1 w.history = [3] ∧
      losers 1 w.history = [5] ∧ .ended 5 (.error (.storage e)) :: past <:+ w.history ∧
      Stranded (seenBy 5 past) m e ∧ m.index = 1 ∧
      row.message.deliveries.toNat ≠ (receivers row.message.index w.history).length := by
  obtain ⟨w, row, hw, hdone, hrow, hindex, hcount, hreceivers, hlosers⟩ :
      ∃ w row, ({} : World).runIf? pairs allDone failedAtLast = some w ∧
        allDone w (.start (.receive 1 1000)) = true ∧ w.rows.messages[1]? = some row ∧
        row.message.index = 1 ∧ row.message.deliveries = 2 ∧ receivers 1 w.history = [3] ∧
        losers 1 w.history = [5] :=
    ⟨_, _, rfl, rfl, rfl, rfl, rfl, rfl, rfl⟩
  have hone : Reachable pairs OneByOne w := .runIf (fun _ _ hr => hr.allDone) .fresh hw
  have hidle : Idle w := ((hone.allDone hdone) _ rfl).2
  have h : Reachable pairs Undropped w :=
    hone.mono fun _ _ ha => undropped_of_takingTurns (takingTurns_of_oneByOne ha)
  have hrow : row ∈ w.rows.messages := List.mem_of_getElem? hrow
  obtain ⟨_, hexact, _, hlost, _⟩ := deliveries_accounted h hidle
  obtain ⟨_, _, m, e, past, _, hs, hst, hm⟩ := (hlost 1 5).mp (by rw [hlosers]; decide)
  refine ⟨w, row, past, m, e, h, hidle, hrow, hindex, hcount, hreceivers, hlosers, hs, hst, hm, ?_⟩
  intro he
  have := (hexact row hrow (by rw [hcount]; decide)).mp he
  rw [hindex, hlosers] at this
  cases this

/-- A count can be higher than the number of calls that handed the message out, in a run of requests
that are served one by one. -/
theorem handed_out_fewer_times :
    ∃ w row, Reachable pairs OneByOne w ∧ Idle w ∧ row ∈ w.rows.messages ∧
      row.message.deliveries.toNat < UInt32.size - 1 ∧
      (receivers row.message.index w.history).length < row.message.deliveries.toNat ∧
      ∃ t limit hide f past, .started t (.receive limit hide) ∈ past ∧
        .ended t (.error f) :: past <:+ w.history ∧ hidBy (seenBy t past) ≠ [] := by
  obtain ⟨w, row, f, past, hw, hdone, hrow, hlt, hfewer, hpast, hstarted, hclaimed⟩ :
      ∃ w row f past, ({} : World).runIf? pairs allDone failedAtLast = some w ∧
        allDone w (.start (.receive 1 1000)) = true ∧ w.rows.messages[1]? = some row ∧
        row.message.deliveries.toNat < UInt32.size - 1 ∧
        (receivers row.message.index w.history).length < row.message.deliveries.toNat ∧
        w.history = .ended 5 (.error f) :: past ∧ past[7]? = some (.started 5 (.receive 1 1000)) ∧
        (hidBy (seenBy 5 past)).length = 1 :=
    ⟨_, _, _, _, rfl, rfl, rfl, by decide, by decide +kernel, rfl, rfl, rfl⟩
  have h : Reachable pairs OneByOne w := .runIf (fun _ _ hr => hr.allDone) .fresh hw
  refine ⟨w, row, h, ((h.allDone hdone) _ rfl).2, List.mem_of_getElem? hrow, hlt, hfewer, 5, 1,
    1000, f, past, List.mem_of_getElem? hstarted, hpast ▸ List.suffix_refl _, fun hnone => ?_⟩
  rw [hnone] at hclaimed
  cases hclaimed

end LeaseQueue.Shared
