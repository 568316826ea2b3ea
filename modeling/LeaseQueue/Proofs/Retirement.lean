import LeaseQueue.Proofs.HandOuts
import LeaseQueue.Proofs.Shared.Bids

/-
  The limit on deliveries.

  A reader looks at the delivery count before it bids for a message, and its bid is
  applied only to the message as it was read. So the count it has looked at is the
  one that is stored when the bid is applied, and

  1. a claim is one of a message that was claimed less often than the limit
     (`Replaces.within`), hence no message is claimed more often
     (`Reachable.claimers_le`);
  2. a retirement is one of a message that was claimed as often as the limit
     (`Replaces.at_limit`), and it acknowledges the message, so that there is no
     second one (`Reachable.retired_once`);
  3. a reader counts each of its retirements before it goes on, and nobody else
     counts one (`counted_perm`).
-/

namespace LeaseQueue

theorem Queue.exhausted_iff {q : Queue} {most count : UInt32} (hmax : q.maxDeliveries = some most) :
    q.exhausted count = true ↔ most ≤ count := by
  rw [Queue.exhausted, hmax, decide_eq_true_iff]

namespace Shared

variable {q : Queue} {rule : Rule} {w : World} {t : Nat} {h past : History} {i : UInt64}
  {c : Instant} {rows : Rows} {s : Seen} {r : Request} {next old : Message} {cond : Condition}
  {most : UInt32}

/-! ## Claims -/

theorem Replaces.claims (hr : Replaces q past rows t r next cond old) (hc : Claiming r cond) :
    ∃ hide, Claims q (seenBy t past) hide old next := by
  obtain ⟨⟨limit, hide, rfl⟩, hunacked⟩ := hc
  rcases hr.hides hunacked with ⟨_, _, _, hclaims⟩ | ⟨_, _, _, _, he, _⟩
  · exact ⟨_, hclaims⟩
  · cases he

theorem Replaces.count (h : Reachable q Undropped w)
    (hr : Replaces q w.history w.rows t r next cond old) :
    old.deliveries.toNat = min (claimers next.index w.history).length (UInt32.size - 1) :=
  hr.revision.index ▸ h.deliveries_eq.1 _ hr.stored

theorem Replaces.within (h : Reachable q Undropped w) (hmax : q.maxDeliveries = some most)
    (hr : Replaces q w.history w.rows t r next cond old) (hc : Claiming r cond) :
    (claimers next.index w.history).length < most.toNat := by
  obtain ⟨hide, hclaims⟩ := hr.claims hc
  have hbelow : ¬ most ≤ old.deliveries := fun hle =>
    Bool.eq_false_iff.mp hclaims.within ((Queue.exhausted_iff hmax).mpr hle)
  have hcount := hr.count h
  have hlt : old.deliveries.toNat < most.toNat := Nat.lt_of_not_le hbelow
  have hword : most.toNat ≤ UInt32.size - 1 := Nat.le_pred_of_lt most.toNat_lt
  omega

theorem Reachable.claimers_le (h : Reachable q Undropped w) (hmax : q.maxDeliveries = some most) :
    ∀ i, (claimers i w.history).length ≤ most.toNat := by
  refine h.course (P := fun _ h => ∀ i, (claimers i h).length ≤ most.toNat) (fun _ _ => id)
    (fun i => Nat.zero_le _) (fun _ _ _ _ ih => ih) (fun _ _ _ _ ih => ih) ?_
  intro v t r s rows hv _ _ hturn ih i
  have silent : s.hid? = none →
      (claimers i (.performed t v.clock v.rows s :: v.history)).length ≤ most.toNat := by
    intro hs
    rw [claimers_silent hs]
    exact ih i
  cases hturn with
  | leaves hs => exact silent (hid?_of_not_applied hs)
  | swaps => exact silent rfl
  | records _ => exact silent rfl
  | deletes => exact silent rfl
  | inserts _ => exact silent rfl
  | @replaces next old cond hrep =>
    by_cases hc : Claiming r cond ∧ next.index = i
    · obtain ⟨hclaiming, rfl⟩ := hc
      rw [hrep.claimers_of_claiming hv hclaiming]
      exact hrep.within hv hmax hclaiming
    · rw [hrep.claimers_of_not hv hc]
      exact ih i

/-- What a reader has claimed is counted from one to the limit. -/
theorem Reachable.claim_count (h : Reachable q Undropped w) (hmax : q.maxDeliveries = some most)
    {limit : Nat} {hide : Duration} (hstarted : .started t (.receive limit hide) ∈ w.history)
    {m : Message} (hm : m ∈ hidBy (seenBy t w.history)) :
    1 ≤ m.deliveries ∧ m.deliveries ≤ most := by
  obtain ⟨s, hseen, hm⟩ := List.mem_filterMap.mp hm
  obtain ⟨c, rows, he⟩ := mem_seenBy.mp hseen
  obtain ⟨past, hs⟩ := suffix_of_mem he
  obtain ⟨effect, answer⟩ := s
  obtain ⟨b, v, rfl⟩ := Seen.effect_of_hid? hm
  have hdone : answer = .ok true := by
    unfold Seen.hid? at hm
    split at hm
    · rename_i heq
      cases heq
      rfl
    · cases hm
  subst hdone
  obtain ⟨u, r, old, hu, rfl, rfl, _, _, hrep⟩ := h.replaces (fun _ _ => id) hs
  cases h.started_unique (((List.suffix_cons _ _).trans hs).subset hrep.started) hstarted
  have hc : Claiming (.receive limit hide) ⟨v, true⟩ := ⟨⟨limit, hide, rfl⟩, rfl⟩
  have hwithin := hrep.within hu hmax hc
  have hold := hrep.count hu
  have hnext := (hrep.revision.claimed hc).2
  have hword : most.toNat ≤ UInt32.size - 1 := Nat.le_pred_of_lt most.toNat_lt
  constructor
  · refine UInt32.le_iff_toNat_le.mpr ?_
    change 1 ≤ _
    omega
  · refine UInt32.le_iff_toNat_le.mpr ?_
    omega

/-! ## Retirements -/

/-- The reader that has retired a message, and the index of the message. -/
def retirement : Event → History → Option (Nat × UInt64)
  | .performed t _ _ s, past => if isReader t past then s.acked?.map fun m => (t, m.index) else none
  | _, _ => none

def retirements : History → List (Nat × UInt64)
  | [] => []
  | e :: past => (retirement e past).toList ++ retirements past

/-- The tasks that have counted the event, once for each time, the latest first. -/
def counted (counter : Counter) : History → List Nat :=
  named fun
    | .performed t _ _ s, _ => if s.tallies counter then some t else none
    | _, _ => none

/-- The readers that have just retired a message and have not counted it yet. -/
def owers (w : World) : List Nat :=
  (List.range w.started).filter fun t => isReader t w.history && owing (seenBy t w.history)

theorem acked?_eq_some {s : Seen} {m : Message} (hs : s.acked? = some m) :
    ∃ b v, s = ⟨.call (.updateMessage b m ⟨v, false⟩), .ok true⟩ := by
  unfold Seen.acked? at hs
  split at hs
  · cases hs
    exact ⟨_, _, rfl⟩
  · cases hs

theorem retirement_eq_some {e : Event} : retirement e past = some (t, i) ↔
    ∃ c rows b m v, e = .performed t c rows ⟨.call (.updateMessage b m ⟨v, false⟩), .ok true⟩ ∧
      m.index = i ∧ ∃ limit hide, .started t (.receive limit hide) ∈ past := by
  constructor
  · intro he
    unfold retirement at he
    split at he
    · obtain ⟨hreader, he⟩ := Option.ite_none_right_eq_some.mp he
      obtain ⟨m, hm, heq⟩ := Option.map_eq_some_iff.mp he
      obtain ⟨b, v, rfl⟩ := acked?_eq_some hm
      cases heq
      exact ⟨_, _, b, m, v, rfl, rfl, isReader_iff.mp hreader⟩
    · cases he
  · rintro ⟨c, rows, b, m, v, rfl, rfl, hreader⟩
    simp [retirement, Seen.acked?, isReader_iff.mpr hreader]

theorem Replaces.at_limit (h : Reachable q Undropped w) (hmax : q.maxDeliveries = some most)
    {limit : Nat} {hide : Duration}
    (hr : Replaces q w.history w.rows t (.receive limit hide) next cond old)
    (hc : cond.unacked = false) : (claimers next.index w.history).length = most.toNat := by
  have hspent := UInt32.le_iff_toNat_le.mp ((Queue.exhausted_iff hmax).mp (hr.retire hc).spent)
  have hcount := hr.count h
  have hle := h.claimers_le hmax next.index
  omega

theorem Turn.acked {rows' : Rows} (h : Turn q past rows t r s rows') (hi : Inserted i past)
    (hacked : ∀ row ∈ rows.messages, row.message.index = i → row.message.acked = true) :
    ∀ row ∈ rows'.messages, row.message.index = i → row.message.acked = true := by
  intro row hrow heq
  cases h with
  | leaves _ => exact hacked row hrow heq
  | swaps => exact hacked row hrow heq
  | records _ => exact hacked row hrow heq
  | deletes => exact hacked row (Rows.mem_removeBucket.mp hrow).1 heq
  | inserts first =>
    rcases Rows.mem_insert.mp hrow with rfl | hrow
    · exact absurd (heq ▸ hi) first
    · exact hacked row hrow heq
  | replaces hrep =>
    rcases Rows.mem_replace.mp hrow with ⟨_, _, _, rfl⟩ | ⟨hrow, _⟩
    · exact hrep.revision.acked (hacked _ hrep.stored (hrep.revision.index ▸ heq))
    · exact hacked row hrow heq

/-- A message that a reader has retired is acknowledged, and it is retired once. -/
theorem Reachable.retired_once (h : Reachable q Undropped w) :
    ((retirements w.history).map Prod.snd).Nodup ∧
      ∀ i ∈ (retirements w.history).map Prod.snd, Inserted i w.history ∧
        ∀ row ∈ w.rows.messages, row.message.index = i → row.message.acked = true := by
  refine h.course (P := fun rows h => ((retirements h).map Prod.snd).Nodup ∧
    ∀ i ∈ (retirements h).map Prod.snd, Inserted i h ∧
      ∀ row ∈ rows.messages, row.message.index = i → row.message.acked = true)
    (fun _ _ => id) ⟨List.nodup_nil, nofun⟩ ?_ ?_ ?_
  · exact fun _ _ _ _ ih => ⟨ih.1, fun i hi => ⟨inserted_started.mpr (ih.2 i hi).1, (ih.2 i hi).2⟩⟩
  · exact fun _ _ _ _ ih => ⟨ih.1, fun i hi => ⟨inserted_ended.mpr (ih.2 i hi).1, (ih.2 i hi).2⟩⟩
  · intro v t r s rows hv _ _ hturn ih
    have kept : ∀ i ∈ (retirements v.history).map Prod.snd,
        Inserted i (.performed t v.clock v.rows s :: v.history) ∧
          ∀ row ∈ rows.messages, row.message.index = i → row.message.acked = true := fun i hi =>
      ⟨(ih.2 i hi).1.mono (List.suffix_cons _ _), hturn.acked (ih.2 i hi).1 (ih.2 i hi).2⟩
    cases he : retirement (.performed t v.clock v.rows s) v.history with
    | none =>
      rw [retirements, he]
      exact ⟨ih.1, kept⟩
    | some retired =>
      obtain ⟨u, i⟩ := retired
      obtain ⟨_, _, b, m, version, heq, rfl, limit, hide, hstarted⟩ := retirement_eq_some.mp he
      cases heq
      rw [retirements, he]
      cases hturn with
      | leaves hs => cases hs
      | replaces hrep =>
        cases hv.started_unique hrep.started hstarted
        have hretires := hrep.retire rfl
        have hindex := hrep.revision.index
        refine ⟨List.nodup_cons.mpr ⟨fun hmem => ?_, ih.1⟩, fun i hi => ?_⟩
        · -- It is unacknowledged until now, so nobody has retired it before.
          have hacked := (ih.2 _ hmem).2 _ hrep.stored hindex.symm
          rw [hretires.unacked] at hacked
          cases hacked
        · rcases List.mem_cons.mp hi with rfl | hi
          · refine ⟨?_, fun row hrow hi => ?_⟩
            · have hins := hv.filed.inserted _ hrep.stored
              rw [← hindex] at hins
              exact hins.mono (List.suffix_cons _ _)
            · rcases Rows.mem_replace.mp hrow with ⟨_, _, _, rfl⟩ | ⟨hrow, hsits⟩
              · exact (Message.acknowledged?_eq_some hretires.next).2 ▸ rfl
              · cases hv.filed.distinct.eq hrow hrep.stored (hi.trans hindex)
                simp [Row.sits, hindex] at hsits
          · exact kept i hi

/-! ## Counting them -/

/-- The tasks that have seen such an effect, once for each time, the latest first. -/
def seers (p : Seen → Bool) : History → List Nat :=
  named fun
    | .performed t _ _ s, _ => if p s then some t else none
    | _, _ => none

theorem count_seers {p : Seen → Bool} :
    (seers p h).count t = ((seenBy t h).filter p).length := by
  induction h with
  | nil => rfl
  | cons e past ih =>
    rw [seers, named, List.count_append]
    change _ + (seers p past).count t = _
    rw [ih]
    cases e with
    | started u r => exact Nat.zero_add _
    | ended u result => exact Nat.zero_add _
    | performed u c rows s =>
      rw [seenBy_performed, Nat.add_comm]
      by_cases hu : u = t
      · rw [if_pos hu, length_filter_cons]
        cases hs : p s <;> simp [hs, hu]
      · rw [if_neg hu]
        cases hs : p s <;> simp [hs, hu]

theorem count_counted {counter : Counter} :
    (counted counter h).count t = tallied counter (seenBy t h) :=
  count_seers (p := Seen.tallies counter)

theorem count_retirements {reader : Bool}
    (hreader : ∀ c rows s past, .performed t c rows s :: past <:+ h → isReader t past = reader) :
    ((retirements h).map Prod.fst).count t = if reader then retirals (seenBy t h) else 0 := by
  induction h with
  | nil => cases reader <;> rfl
  | cons e past ih =>
    have hrest := ih fun c rows s before hs =>
      hreader c rows s before (hs.trans (List.suffix_cons _ _))
    rw [retirements, List.map_append, List.count_append, hrest]
    cases e with
    | started u r => exact Nat.zero_add _
    | ended u result => exact Nat.zero_add _
    | performed u c rows s =>
      rw [seenBy_performed, Nat.add_comm]
      by_cases hu : u = t
      · subst hu
        have hsame := hreader c rows s past (List.suffix_refl _)
        rw [if_pos rfl, retirals_cons]
        cases reader <;> cases hs : s.acked? <;> simp [retirement, hsame, hs, Seen.retires]
      · rw [if_neg hu]
        cases hr : isReader u past <;> cases hs : s.acked? <;> simp [retirement, hr, hs, hu]

/-- What the readers count as retirements are theirs, but for those that they have just made. -/
theorem counted_perm (h : Reachable q rule w) :
    (counted .retired w.history ++ owers w).Perm ((retirements w.history).map Prod.fst) := by
  -- Task by task: a reader counts what it retires, but for the latest, and nobody else does.
  refine List.perm_iff_count.mpr fun t => ?_
  have hnodup : (owers w).Nodup := List.nodup_range.filter _
  have hreader : ∀ c rows s past, .performed t c rows s :: past <:+ w.history →
      isReader t past = isReader t w.history := by
    intro c rows s past hs
    obtain ⟨r, hr, _⟩ := h.effect_permitted (requests_keep rule) hs
    refine Bool.eq_iff_iff.mpr ⟨fun hp => ?_, fun hp => ?_⟩
    · obtain ⟨limit, hide, hstarted⟩ := isReader_iff.mp hp
      exact isReader_iff.mpr ⟨limit, hide, hs.subset (List.mem_cons_of_mem _ hstarted)⟩
    · obtain ⟨limit, hide, hstarted⟩ := isReader_iff.mp hp
      cases h.started_unique (hs.subset (List.mem_cons_of_mem _ hr)) hstarted
      exact isReader_iff.mpr ⟨limit, hide, hr⟩
  rw [List.count_append, count_counted, count_retirements hreader, hnodup.count]
  cases hr : isReader t w.history with
  | true =>
    obtain ⟨limit, hide, hstarted⟩ := isReader_iff.mp hr
    have hlt : t < w.started := Nat.lt_of_not_le fun hle => (h.untraced t hle).started _ hstarted
    have hmem : t ∈ owers w ↔ owing (seenBy t w.history) = true := by
      rw [owers, List.mem_filter, List.mem_range, hr, Bool.true_and]
      exact and_iff_right hlt
    rw [if_pos rfl, ← tallied_eq fun s before hs => h.bidding hstarted hs]
    simp only [hmem]
    cases owing (seenBy t w.history) <;> rfl
  | false =>
    have hmem : t ∉ owers w := by simp [owers, hr]
    rw [if_neg hmem, if_neg Bool.false_ne_true, Nat.add_zero]
    refine List.length_eq_zero_iff.mpr (List.filter_eq_nil_iff.mpr fun s hs => ?_)
    obtain ⟨c, rows, he⟩ := mem_seenBy.mp hs
    obtain ⟨past, hs⟩ := suffix_of_mem he
    obtain ⟨r, hstarted, hasks⟩ := h.effect_permitted (others_retire_none rule) hs
    refine fun htallies => hasks (fun limit hide hreceive => ?_) (tallies_iff.mp htallies)
    subst hreceive
    have hin := isReader_iff.mpr ⟨limit, hide, hs.subset (List.mem_cons_of_mem _ hstarted)⟩
    rw [hr] at hin
    cases hin

/-- A reader that has ended owes no count. -/
theorem Reachable.owers_idle (h : Reachable q rule w) (hidle : Idle w) : owers w = [] := by
  refine List.filter_eq_nil_iff.mpr fun t _ hboth => ?_
  obtain ⟨hreader, howing⟩ := Bool.and_eq_true_iff.mp hboth
  obtain ⟨limit, hide, hstarted⟩ := isReader_iff.mp hreader
  obtain ⟨result, past, hs⟩ := h.ended_of_gone hstarted (hidle t)
  obtain ⟨r, hr, hends⟩ := h.end_permitted (readers_bid rule) hs
  cases h.started_unique (hs.subset (List.mem_cons_of_mem _ hr)) hstarted
  have hnone := hends limit hide rfl
  rw [← h.seenBy_at_end hs, howing] at hnone
  cases hnone

/-! ## The limit -/

/-- Of a queue that hands out each message at most so many times, in every run that nobody drops: no
message is handed out more often, and no delivery and no stored message has a count beyond the
limit. A reader retires a message when it was claimed exactly so many times, and no message is
retired twice. Retirements are counted as often as messages were retired, but for the readers that
have just retired one and go on to count it; when nothing is being served, there is no such
reader. -/
theorem deliveries_limited (h : Reachable q Undropped w) (hmax : q.maxDeliveries = some most) :
    (∀ i, (receivers i w.history).length ≤ most.toNat) ∧
    (∀ t d, .ended t (.ok (.delivery (some d))) ∈ w.history →
      1 ≤ d.deliveries ∧ d.deliveries ≤ most) ∧
    (∀ row ∈ w.rows.messages, row.message.deliveries ≤ most) ∧
    (∀ e past t i, e :: past <:+ w.history → retirement e past = some (t, i) →
      (claimers i past).length = most.toNat) ∧
    ((retirements w.history).map Prod.snd).Nodup ∧
    (counted .retired w.history).length + (owers w).length = (retirements w.history).length ∧
    (Idle w → owers w = []) := by
  refine ⟨fun i => ?_, fun t d hd => ?_, fun row hrow => ?_, fun e past t i hs he => ?_,
    h.retired_once.1, ?_, h.owers_idle⟩
  · -- Whoever hands a message out has claimed it, and hands out once.
    have hsub : receivers i w.history ⊆ claimers i w.history := fun t ht => by
      obtain ⟨limit, hide, m, past, hstarted, hs, hhid, hi⟩ := h.mem_receivers.mp ht
      refine h.mem_claimers.mpr
        ⟨⟨limit, hide, hs.subset (List.mem_cons_of_mem _ hstarted)⟩, m, ?_, hi⟩
      rw [h.seenBy_at_end hs, hhid]
      exact List.mem_singleton_self m
    have hnodup : (receivers i w.history).Nodup :=
      (List.nodup_append.mp (h.accounts_nodup (i := i))).1
    exact Nat.le_trans (hnodup.subperm hsub).length_le (h.claimers_le hmax i)
  · obtain ⟨past, hs⟩ := suffix_of_mem hd
    obtain ⟨r, hr, hends⟩ := h.end_permitted (requests_keep _) hs
    have hstarted := hs.subset (List.mem_cons_of_mem _ hr)
    cases hends with
    | received told =>
      exact h.claim_count hmax hstarted (h.seenBy_at_end hs ▸ mem_hidBy_of_told told)
  · have hcount := h.deliveries_eq.1 row hrow
    have hle := h.claimers_le hmax row.message.index
    exact UInt32.le_iff_toNat_le.mpr (by omega)
  · obtain ⟨c, rows, b, m, v, rfl, rfl, limit, hide, hstarted⟩ := retirement_eq_some.mp he
    obtain ⟨u, r, old, hu, rfl, rfl, _, _, hrep⟩ := h.replaces (fun _ _ => id) hs
    cases hu.started_unique hrep.started hstarted
    exact hrep.at_limit hu hmax rfl
  · have hlen := (counted_perm h).length_eq
    rwa [List.length_append, List.length_map] at hlen

def onceOnly : Queue :=
  ⟨"account", "queue", 1, 1, some 1, singles.bucketSize_ne_zero, by decide⟩

/-- A message is handed out, and its claim runs out. The next call retires it. -/
def retiredOnce : List Action :=
  serve 0 (.put [1] 0) 6 ++ serve 1 (.receive 1 1000) 12 ++ [.pass 1000] ++
    serve 2 (.receive 1 1000) 24

/-- The message was claimed once before it was retired, and its retirement was counted. -/
theorem deliveries_limited_once_only :
    ∃ w e past, Reachable onceOnly Undropped w ∧ onceOnly.maxDeliveries = some 1 ∧ Idle w ∧
      receivers 0 w.history = [1] ∧ retirements w.history = [(2, 0)] ∧ e :: past <:+ w.history ∧
      retirement e past = some (2, 0) ∧ (claimers 0 past).length = (1 : UInt32).toNat ∧
      (counted .retired w.history).length = 1 ∧
      ∀ row ∈ w.rows.messages, row.message.deliveries ≤ 1 := by
  obtain ⟨w, hw, hdone, hreceivers, hretired, e, past, hpast, he⟩ :
      ∃ w, ({} : World).runIf? onceOnly allDone retiredOnce = some w ∧
        allDone w (.start (.receive 1 1000)) = true ∧ receivers 0 w.history = [1] ∧
        retirements w.history = [(2, 0)] ∧
        ∃ e past, w.history.drop 19 = e :: past ∧ retirement e past = some (2, 0) :=
    ⟨_, rfl, rfl, rfl, rfl, _, _, rfl, rfl⟩
  have hone : Reachable onceOnly OneByOne w := .runIf (fun _ _ hr => hr.allDone) .fresh hw
  have hidle : Idle w := ((hone.allDone hdone) _ rfl).2
  have h : Reachable onceOnly Undropped w :=
    hone.mono fun _ _ ha => undropped_of_takingTurns (takingTurns_of_oneByOne ha)
  have hs : e :: past <:+ w.history := hpast ▸ List.drop_suffix 19 w.history
  obtain ⟨_, _, hstored, hlimit, _, hcounted, howers⟩ := deliveries_limited h rfl
  rw [howers hidle, hretired] at hcounted
  exact ⟨w, e, past, h, rfl, hidle, hreceivers, hretired, hs, he, hlimit e past 2 0 hs he, hcounted,
    hstored⟩

end Shared

end LeaseQueue
