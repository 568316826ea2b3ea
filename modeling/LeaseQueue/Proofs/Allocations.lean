import LeaseQueue.Proofs.Shared.Progress

/-
  Every index is taken once.

  An allocation takes the index of the counter by a swap that raises the counter
  by one, so the counter is the number of swaps that were applied, and the index
  that a swap takes is the number of swaps before it (`Reachable.taken_before`).
  All that is said of indices follows from the order of these swaps. A swap is
  lost only if the counter is no longer what its task last saw of it, and then
  somebody else has taken an index since (`Reachable.counted`).
-/

namespace LeaseQueue.Shared

variable {q : Queue} {w : World} {t u : Nat} {h past before since : History} {i j : UInt64}
  {c : Instant} {rows rows' : Rows} {s : Seen}

/-! ## Swaps of the counter -/

def Seen.taken? : Seen → Option UInt64
  | ⟨.call (.swapCell .counter seen _), .ok .swapped⟩ => some (counterValue seen).toUInt64
  | _ => none

/-- The indices that were taken, the latest first. -/
def taken : History → List UInt64
  | [] => []
  | .performed _ _ _ s :: past => s.taken?.toList ++ taken past
  | .started _ _ :: past => taken past
  | .ended _ _ :: past => taken past

/-- The task took the index, after what was past by then. -/
def TakesAt (h : History) (t : Nat) (i : UInt64) (past : History) : Prop :=
  ∃ c rows s, .performed t c rows s :: past <:+ h ∧ s.taken? = some i

theorem taken?_eq_some (hs : s.taken? = some i) :
    ∃ seen next, s = ⟨.call (.swapCell .counter seen next), .ok .swapped⟩ ∧
      i = (counterValue seen).toUInt64 := by
  unfold Seen.taken? at hs
  split at hs
  · cases hs
    exact ⟨_, _, rfl, rfl⟩
  · cases hs

theorem TakesAt.mono (ht : TakesAt before t i past) (hs : before <:+ h) : TakesAt h t i past := by
  obtain ⟨c, rows, s, he, hi⟩ := ht
  exact ⟨c, rows, s, he.trans hs, hi⟩

theorem TakesAt.suffix (ht : TakesAt h t i past) : past <:+ h := by
  obtain ⟨c, rows, s, he, _⟩ := ht
  exact (List.suffix_cons _ _).trans he

/-! ## How many were taken -/

theorem taken_length_le (hs : past <:+ h) : (taken past).length ≤ (taken h).length := by
  induction h with
  | nil => exact Nat.le_of_eq (congrArg (taken · |>.length) (List.suffix_nil.mp hs))
  | cons e h ih =>
    rcases List.suffix_cons_iff.mp hs with rfl | hs
    · exact Nat.le_refl _
    · refine Nat.le_trans (ih hs) ?_
      cases e with
      | started u r => exact Nat.le_refl _
      | ended u r => exact Nat.le_refl _
      | performed u c rows s => simp [taken]

theorem TakesAt.taken_lt (ht : TakesAt h t i past) : (taken past).length < (taken h).length := by
  obtain ⟨c, rows, s, he, hi⟩ := ht
  refine Nat.lt_of_lt_of_le ?_ (taken_length_le he)
  simp [taken, hi]

theorem takesAt_of_lt {n : Nat} (hn : n < (taken h).length) :
    ∃ t i past, TakesAt h t i past ∧ (taken past).length = n := by
  induction h with
  | nil => cases hn
  | cons e h ih =>
    have earlier : n < (taken h).length →
        ∃ t i past, TakesAt (e :: h) t i past ∧ (taken past).length = n := by
      intro hn
      obtain ⟨t, i, past, ht, hlen⟩ := ih hn
      exact ⟨t, i, past, ht.mono (List.suffix_cons _ _), hlen⟩
    cases e with
    | started u r => exact earlier hn
    | ended u r => exact earlier hn
    | performed u c rows s =>
      cases hi : s.taken? with
      | none => exact earlier (by simpa [taken, hi] using hn)
      | some i =>
        rcases Nat.lt_succ_iff_lt_or_eq.mp (by simpa [taken, hi] using hn) with hn | rfl
        · exact earlier hn
        · exact ⟨u, i, h, ⟨c, rows, s, List.suffix_refl _, hi⟩, rfl⟩

theorem TakesAt.eq_of_length (ht : TakesAt h t i past) (hu : TakesAt h u j before)
    (hlen : (taken past).length = (taken before).length) : t = u ∧ past = before := by
  obtain ⟨c, rows, s, he, hi⟩ := ht
  obtain ⟨c', rows', s', he', hj⟩ := hu
  have apart : ∀ {t c rows s i} {past before : History}, s.taken? = some i →
      .performed t c rows s :: past <:+ before →
      (taken past).length < (taken before).length :=
    fun hi hle => TakesAt.taken_lt ⟨_, _, _, hle, hi⟩
  rcases same_or_before he he' with ⟨heq, hpast⟩ | hle | hle
  · cases heq
    exact ⟨rfl, hpast⟩
  · exact absurd hlen (Nat.ne_of_lt (apart hi hle))
  · exact absurd hlen.symm (Nat.ne_of_lt (apart hj hle))

theorem Turn.counter {r : Request} (hturn : Turn q past rows t r s rows') :
    (s.taken? = none ∧ rows'.cells.counter = rows.cells.counter) ∨
      ∃ next, s = ⟨.call (.swapCell .counter rows.cells.counter next), .ok .swapped⟩ ∧
        rows'.cells.counter = some next := by
  cases hturn with
  | leaves hs =>
    refine .inl ⟨Option.eq_none_iff_forall_ne_some.mpr fun i hi => ?_, rfl⟩
    obtain ⟨seen, next, rfl, _⟩ := taken?_eq_some hi
    cases hs
  | inserts _ => exact .inl ⟨rfl, rfl⟩
  | replaces _ => exact .inl ⟨rfl, rfl⟩
  | records _ => exact .inl ⟨rfl, rfl⟩
  | deletes => exact .inl ⟨rfl, rfl⟩
  | @swaps cell next =>
    cases cell with
    | counter => exact .inr ⟨next, rfl, rfl⟩
    | readerBucket => exact .inl ⟨rfl, rfl⟩
    | invisibility => exact .inl ⟨rfl, rfl⟩
    | repairBucket => exact .inl ⟨rfl, rfl⟩

/-- The counter is the number of indices that were taken. -/
theorem Reachable.next_eq_taken (h : Reachable q Undropped w) :
    (nextOf w.rows).toInt = (taken w.history).length := by
  refine h.course (P := fun rows h => (nextOf rows).toInt = (taken h).length) (fun _ _ => id) rfl
    (fun _ _ _ _ ih => ih) (fun _ _ _ _ ih => ih) ?_
  intro v t r s rows _ _ hp hturn ih
  rcases hturn.counter with ⟨hs, hcell⟩ | ⟨next, rfl, hcell⟩
  · simpa [taken, hs, nextOf, hcell] using ih
  · have hsucc : next.toInt = (nextOf v.rows).toInt + 1 := cellSucc?_eq_some hp.swap_counter.2
    have hnext : nextOf rows = next := by simp [nextOf, hcell, counterValue]
    rw [hnext, hsucc, ih]
    rfl

theorem Reachable.taken_before (h : Reachable q Undropped w) (ht : TakesAt w.history t i past) :
    i.toNat = (taken past).length := by
  obtain ⟨c, rows, s, hs, hi⟩ := ht
  obtain ⟨v, r, rows', hv, rfl, rfl, rfl, _, _, hturn⟩ := h.turn_at (fun _ _ => id) hs
  rcases hturn.counter with ⟨hnone, _⟩ | ⟨next, rfl, _⟩
  · rw [hnone] at hi
    cases hi
  · cases hi
    have hcount := hv.next_eq_taken
    have hnat : ((nextOf v.rows).toUInt64.toNat : Int) = (nextOf v.rows).toInt := hv.next_eq
    change ((nextOf v.rows).toUInt64.toNat : Nat) = _
    omega

theorem Reachable.takesAt_unique (h : Reachable q Undropped w) (ht : TakesAt w.history t i past)
    (hu : TakesAt w.history u i before) : t = u ∧ past = before :=
  ht.eq_of_length hu ((h.taken_before ht).symm.trans (h.taken_before hu))

theorem Reachable.takesAt_lt (h : Reachable q Undropped w) (ht : TakesAt w.history t i past)
    (hu : TakesAt past u j before) : j < i := by
  have hi := h.taken_before ht
  have hj := h.taken_before (hu.mono ht.suffix)
  have hlt := hu.taken_lt
  rw [UInt64.lt_iff_toNat_lt]
  omega

theorem Reachable.exists_takesAt (h : Reachable q Undropped w)
    (hi : i < (nextOf w.rows).toUInt64) : ∃ t past, TakesAt w.history t i past := by
  have hcount := h.next_eq_taken
  have hnext := h.next_eq
  rw [UInt64.lt_iff_toNat_lt] at hi
  obtain ⟨t, j, past, ht, hlen⟩ := takesAt_of_lt (h := w.history) (n := i.toNat) (by omega)
  have hij : j = i := UInt64.toNat_inj.mp ((h.taken_before ht).trans hlen)
  exact ⟨t, past, hij ▸ ht⟩

/-! ## Who writes where -/

theorem takesAt_of_inHand (hi : inHand (seenBy t h) = some i) : ∃ past, TakesAt h t i past := by
  induction h with
  | nil => cases hi
  | cons e h ih =>
    have earlier : inHand (seenBy t h) = some i → ∃ past, TakesAt (e :: h) t i past :=
      fun hi => (ih hi).imp fun _ ht => ht.mono (List.suffix_cons _ _)
    cases e with
    | started u r => exact earlier hi
    | ended u r => exact earlier hi
    | performed u c rows s =>
      rw [seenBy_performed] at hi
      split at hi
      · rename_i hu
        subst hu
        rcases inHand_cons hi with ⟨seen, next, rfl, rfl⟩ | ⟨hi, _⟩
        · exact ⟨h, c, rows, _, List.suffix_refl _, rfl⟩
        · exact earlier hi
      · exact earlier hi

/-- A task inserts only at an index that it took. -/
theorem Reachable.insert_takesAt {rule : Rule} (h : Reachable q rule w) {b : UInt64} {m : Message}
    {a : Except StorageError Bool}
    (hs : .performed t c rows ⟨.call (.insertMessage b m), a⟩ :: past <:+ w.history) :
    ∃ before, TakesAt past t m.index before := by
  obtain ⟨r, _, hp⟩ := h.effect_permitted (requests_keep rule) hs
  obtain ⟨_, blob, delay, hins⟩ := hp.insert
  exact takesAt_of_inHand hins.hand

theorem Reachable.put_takesAt {rule : Rule} (h : Reachable q rule w)
    (hs : .ended t (.ok (.index i)) :: past <:+ w.history) : ∃ before, TakesAt past t i before := by
  obtain ⟨r, _, hends⟩ := h.end_permitted (requests_keep rule) hs
  cases hends with
  | put told =>
    obtain ⟨c, rows, he⟩ := mem_seenBy.mp told
    obtain ⟨written, hwritten⟩ := suffix_of_mem he
    obtain ⟨before, ht⟩ := h.insert_takesAt (hwritten.trans ((List.suffix_cons _ _).trans hs))
    exact ⟨before, ht.mono ((List.suffix_cons _ _).trans hwritten)⟩

theorem Reachable.put_unique (h : Reachable q Undropped w)
    (ht : .ended t (.ok (.index i)) ∈ w.history) (hu : .ended u (.ok (.index i)) ∈ w.history) :
    t = u := by
  obtain ⟨past, hs⟩ := suffix_of_mem ht
  obtain ⟨past', hs'⟩ := suffix_of_mem hu
  obtain ⟨before, htakes⟩ := h.put_takesAt hs
  obtain ⟨before', htakes'⟩ := h.put_takesAt hs'
  exact (h.takesAt_unique (htakes.mono ((List.suffix_cons _ _).trans hs))
    (htakes'.mono ((List.suffix_cons _ _).trans hs'))).1

theorem Reachable.put_after (h : Reachable q Undropped w)
    (ht : .ended t (.ok (.index i)) :: past <:+ w.history) (hnew : ∀ r, .started u r ∉ past)
    (hu : .ended u (.ok (.index j)) ∈ w.history) : i < j := by
  obtain ⟨past', hs'⟩ := suffix_of_mem hu
  obtain ⟨before, htakes⟩ := h.put_takesAt ht
  obtain ⟨before', htakes'⟩ := h.put_takesAt hs'
  have hlater := htakes'.mono ((List.suffix_cons _ _).trans hs')
  have ⟨c, rows, s, hswap, _⟩ := hlater
  rcases same_or_before ht hswap with ⟨he, _⟩ | hle | hle
  · cases he
  · exact h.takesAt_lt hlater (htakes.mono ((List.suffix_cons _ _).trans hle))
  · obtain ⟨r, hstarted, _⟩ := h.effect_permitted (requests_keep _) hswap
    exact absurd (((List.suffix_cons _ _).trans hle).subset hstarted) (hnew r)

/-- Nobody finds an index that it took written to. -/
theorem Reachable.no_collision (h : Reachable q Undropped w) :
    .ended t (.error (.indexCollision i)) ∉ w.history := by
  intro he
  obtain ⟨past, hs⟩ := suffix_of_mem he
  obtain ⟨v, r, hv, rfl, ht⟩ := h.at_end hs
  obtain ⟨_, hends⟩ := hv.task_obeys (requests_keep _) ht
  cases hends with
  | faults hf =>
    obtain ⟨m, rfl, told⟩ := hf
    obtain ⟨v', _, _, hv', _, _, hp, hans⟩ := hv.seen_at told
    obtain ⟨_, _, _, hins⟩ := hp.insert
    simp only [Answered, Rows.apply] at hans
    split at hans
    · rename_i stored hfound
      obtain ⟨hstored, hi⟩ := Rows.find?_eq_some hfound
      exact (hv'.indexed.held t _ hins.hand).2 (hi ▸ hv'.stored_inserted _ hstored)
    · cases hans

/-! ## Lost swaps -/

/-- What the counter holds after the effect, as far as it tells. -/
def Seen.counter? : Seen → Option (Option Int64)
  | ⟨.call (.readCell .counter), .ok cell⟩ => some cell
  | ⟨.call (.swapCell .counter _ next), .ok .swapped⟩ => some (some next)
  | ⟨.call (.swapCell .counter _ _), .ok (.conflict found)⟩ => some found
  | _ => none

/-- What the task last saw of the counter, and what had happened up to then. -/
def lastCount (t : Nat) : History → Option (Option Int64 × History)
  | [] => none
  | .performed u c rows s :: past =>
    match s.counter? with
    | some cell => if u = t then some (cell, .performed u c rows s :: past) else lastCount t past
    | none => lastCount t past
  | .started _ _ :: past => lastCount t past
  | .ended _ _ :: past => lastCount t past

theorem lastCount_suffix {seen : Option Int64} (hl : lastCount t h = some (seen, since)) :
    since <:+ h := by
  induction h with
  | nil => cases hl
  | cons e h ih =>
    have earlier : lastCount t h = some (seen, since) → since <:+ e :: h :=
      fun hl => (ih hl).trans (List.suffix_cons _ _)
    cases e with
    | started u r => exact earlier hl
    | ended u r => exact earlier hl
    | performed u c rows s =>
      simp only [lastCount] at hl
      split at hl
      · split at hl
        · cases hl
          exact List.suffix_refl _
        · exact earlier hl
      · exact earlier hl

theorem counterSeen_cons {seen : Option Int64} {tr : List Seen}
    (hc : counterSeen (s :: tr) = some seen) :
    s.counter? = some seen ∨ (s.counter? = none ∧ counterSeen tr = some seen) := by
  unfold counterSeen at hc
  split at hc
  · cases ‹s :: tr = []›
  · rename_i he
    cases he
    exact .inl hc
  · rename_i he
    cases he
    exact .inl hc
  · cases hc
  · rename_i hread hconflict hswap he
    cases he
    refine .inr ⟨?_, hc⟩
    unfold Seen.counter?
    split
    · exact absurd rfl (hread _)
    · exact absurd rfl (hswap _ _)
    · exact absurd rfl (hconflict _ _ _)
    · rfl

theorem lastCount_of_counterSeen {seen : Option Int64}
    (hc : counterSeen (seenBy t h) = some seen) : ∃ since, lastCount t h = some (seen, since) := by
  induction h with
  | nil => cases hc
  | cons e h ih =>
    cases e with
    | started u r => exact ih hc
    | ended u r => exact ih hc
    | performed u c rows s =>
      rw [seenBy_performed] at hc
      simp only [lastCount]
      split at hc
      · rename_i hu
        rcases counterSeen_cons hc with hs | ⟨hs, hc⟩
        · rw [hs]
          exact ⟨_, if_pos hu⟩
        · simpa [hs] using ih hc
      · rename_i hu
        cases hs : s.counter? with
        | none => exact ih hc
        | some cell => simpa [hu] using ih hc

theorem counter_of_answered {cell : Option Int64} (hans : Answered rows c s rows')
    (hs : s.counter? = some cell) : rows'.cells.counter = cell := by
  unfold Seen.counter? at hs
  split at hs
  · cases hs
    cases hans
    rfl
  · cases hs
    simp only [Answered, Rows.apply] at hans
    split at hans
    · cases hans
      rfl
    · cases hans
  · cases hs
    simp only [Answered, Rows.apply] at hans
    split at hans
    · cases hans
    · cases hans
      rfl
  · cases hs

/-- The counter is still as a task last saw it, or somebody else has taken an index since. -/
theorem Reachable.counted (h : Reachable q Undropped w) : ∀ t seen since,
    lastCount t w.history = some (seen, since) → w.rows.cells.counter = seen ∨
      ∃ u i before, TakesAt w.history u i before ∧ u ≠ t ∧ since <:+ before := by
  induction h with
  | fresh => exact nofun
  | @step w w' a hw ha hstep ih =>
    have later : ∀ {e : Event} {t since},
        (∃ u i before, TakesAt w.history u i before ∧ u ≠ t ∧ since <:+ before) →
        ∃ u i before, TakesAt (e :: w.history) u i before ∧ u ≠ t ∧ since <:+ before :=
      fun ⟨u, i, before, ht, hrest⟩ => ⟨u, i, before, ht.mono (List.suffix_cons _ _), hrest⟩
    intro t seen since hl
    cases move_of_step? hstep with
    | starts request => exact (ih t seen since hl).imp_right later
    | passes d => exact ih t seen since hl
    | turns ht => exact ih t seen since hl
    | ends ht => exact (ih t seen since hl).imp_right later
    | @performs _ u request s k rows hu hans =>
      obtain ⟨hstarted, hp, _⟩ := hw.task_obeys (requests_keep _) hu
      have hturn := hw.turn hstarted hp (touch_of_answered hans)
      -- The task sees the counter as it is now, or what it last saw is what it saw before.
      by_cases hlooks : u = t ∧ ∃ cell, s.counter? = some cell
      · obtain ⟨rfl, cell, hs⟩ := hlooks
        simp only [World.performed, lastCount, hs, if_true] at hl
        cases hl
        exact .inl (counter_of_answered hans hs)
      · replace hl : lastCount t w.history = some (seen, since) := by
          simp only [World.performed, lastCount] at hl
          split at hl
          · rename_i cell hs
            rw [if_neg fun hut => hlooks ⟨hut, cell, hs⟩] at hl
            exact hl
          · exact hl
        rcases hturn.counter with ⟨_, hcell⟩ | ⟨next, rfl, _⟩
        · exact (ih t seen since hl).imp hcell.trans later
        · refine .inr ⟨u, _, w.history, ⟨_, _, _, List.suffix_refl _, rfl⟩, fun hut => ?_,
            lastCount_suffix hl⟩
          exact hlooks ⟨hut, _, rfl⟩

/-- A task loses the swap of the counter only to somebody who has taken an index since the task last
saw the counter. -/
theorem Reachable.lost_swap (h : Reachable q Undropped w) {expected found : Option Int64}
    {next : Int64} (hs : .performed t c rows
      ⟨.call (.swapCell .counter expected next), .ok (.conflict found)⟩ :: past <:+ w.history) :
    ∃ since, lastCount t past = some (expected, since) ∧
      ∃ u i before, TakesAt past u i before ∧ u ≠ t ∧ since <:+ before := by
  obtain ⟨v, r, k, _, hv, rfl, rfl, rfl, ht, hans, _⟩ := h.at_effect hs
  have hp := (hv.task_obeys (requests_keep _) ht).2.1
  obtain ⟨since, hl⟩ := lastCount_of_counterSeen hp.swap_counter.1
  refine ⟨since, hl, (hv.counted t expected since hl).resolve_left fun hcell => ?_⟩
  simp only [Answered, Rows.apply] at hans
  split at hans
  · cases hans
  · rename_i hne
    exact hne hcell

/-! ## Every allocation -/

/-- The counter is the number of swaps that took an index. Each index below it was taken by one of
them, and a later one takes a larger index. A swap is lost only if somebody else has taken an index
since the loser last saw the counter. Whoever writes a message, or is answered an index, took that
index itself; no two publishers are answered the same one, and one that starts after another was
answered gets a larger one. Nobody is told of a collision. -/
theorem allocations_exact (h : Reachable q Undropped w) :
    (nextOf w.rows).toInt = (taken w.history).length ∧
    (∀ i, i < (nextOf w.rows).toUInt64 → ∃ t past, TakesAt w.history t i past ∧
      ∀ u before, TakesAt w.history u i before → u = t ∧ before = past) ∧
    (∀ t i past u j before, TakesAt w.history t i past → TakesAt past u j before → j < i) ∧
    (∀ t c rows expected next found past, .performed t c rows
        ⟨.call (.swapCell .counter expected next), .ok (.conflict found)⟩ :: past <:+ w.history →
      ∃ since, lastCount t past = some (expected, since) ∧
        ∃ u i before, TakesAt past u i before ∧ u ≠ t ∧ since <:+ before) ∧
    (∀ t c rows b m a past,
      .performed t c rows ⟨.call (.insertMessage b m), a⟩ :: past <:+ w.history →
        ∃ before, TakesAt past t m.index before) ∧
    (∀ t i past, .ended t (.ok (.index i)) :: past <:+ w.history →
      (∃ before, TakesAt past t i before) ∧
      ∀ u j, .ended u (.ok (.index j)) ∈ w.history →
        (j = i → u = t) ∧ ((∀ r, .started u r ∉ past) → i < j)) ∧
    ∀ t i, .ended t (.error (.indexCollision i)) ∉ w.history := by
  refine ⟨h.next_eq_taken, ?_, fun t i past u j before => h.takesAt_lt,
    fun t c rows expected next found past => h.lost_swap,
    fun t c rows b m a past => h.insert_takesAt, ?_, fun t i => h.no_collision⟩
  · intro i hi
    obtain ⟨t, past, ht⟩ := h.exists_takesAt hi
    exact ⟨t, past, ht, fun u before hu => h.takesAt_unique hu ht⟩
  · intro t i past hs
    refine ⟨h.put_takesAt hs, fun u j hu => ⟨?_, fun hnew => h.put_after hs hnew hu⟩⟩
    rintro rfl
    exact h.put_unique hu (hs.subset List.mem_cons_self)

/-- Two publishers see the same counter. The first takes the index there, and the second loses its
swap and takes the next one. -/
def contending : List Action :=
  [.start (.put [1] 0), .start (.put [2] 0), .act 0 ⟨7⟩, .act 1 ⟨8⟩] ++
    List.replicate 2 (.act 0 ⟨7⟩) ++ List.replicate 2 (.act 1 ⟨8⟩) ++
    List.replicate 3 (.act 0 ⟨7⟩) ++ [.finish 0] ++ List.replicate 5 (.act 1 ⟨8⟩) ++ [.finish 1]

theorem allocations_exact_contending :
    ∃ w, Reachable singles Undropped w ∧ (nextOf w.rows).toInt = 2 ∧ (taken w.history).length = 2 ∧
      .ended 0 (.ok (.index 0)) ∈ w.history ∧ .ended 1 (.ok (.index 1)) ∈ w.history ∧
      ∃ c rows found past, .performed 1 c rows
          ⟨.call (.swapCell .counter none 1), .ok (.conflict found)⟩ :: past <:+ w.history ∧
        ∃ since, lastCount 1 past = some (none, since) ∧
          ∃ u i before, TakesAt past u i before ∧ u ≠ 1 ∧ since <:+ before := by
  obtain ⟨w, c, rows, found, hw, hnext, hfirst, hsecond, hlost⟩ : ∃ w c rows found,
      ({} : World).run? singles contending = some w ∧ (nextOf w.rows).toInt = 2 ∧
      w.history[5]? = some (.ended 0 (.ok (.index 0))) ∧
      w.history[0]? = some (.ended 1 (.ok (.index 1))) ∧
      w.history[9]? = some (.performed 1 c rows
        ⟨.call (.swapCell .counter none 1), .ok (.conflict found)⟩) :=
    ⟨_, _, _, _, rfl, rfl, rfl, rfl, rfl⟩
  have h : Reachable singles Undropped w :=
    .run (by simp [contending, Undropped]) .fresh hw
  obtain ⟨hcount, _, _, hpaid, _⟩ := allocations_exact h
  obtain ⟨past, hs⟩ := suffix_of_mem (List.mem_of_getElem? hlost)
  refine ⟨w, h, hnext, by omega, List.mem_of_getElem? hfirst, List.mem_of_getElem? hsecond,
    c, rows, found, past, hs, hpaid 1 c rows none 1 found past hs⟩

end LeaseQueue.Shared
