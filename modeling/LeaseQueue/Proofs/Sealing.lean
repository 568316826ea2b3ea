import LeaseQueue.Proofs.Retirement
import LeaseQueue.Proofs.Shared.Lasting

/-
  What readers count as seals.

  A reader that leaves a bucket asks for the reader bucket to be moved on by one,
  and counts a seal if the cursor stands there then. It may have got there by the
  swap of another reader, which counts a seal as well: the swap of the slower one
  is refused and echoes the position that it asked for. So the counter is at once

  1. the number of swaps that were applied, which is the bucket that the readers
     have come to (`Reachable.moves_eq`), and
  2. the number of echoes, but for the readers that go on to count one
     (`counted_seals_perm`).

  It equals the number of buckets that were passed exactly if there was no echo,
  and two readers at one bucket are enough for one.
-/

namespace LeaseQueue.Shared

variable {q : Queue} {rule : Rule} {w : World} {t : Nat} {tr : List Seen} {h : History}
  {limit : Nat} {hide : Duration} {position next : Int64}

/-! ## What a reader has seen -/

def Seen.moves : Seen → Bool
  | ⟨.call (.swapCell .readerBucket _ _), .ok .swapped⟩ => true
  | _ => false

/-- The reader bucket was not moved, for it stood where it was to be moved to. -/
def Seen.echoes : Seen → Bool
  | ⟨.call (.swapCell .readerBucket _ target), .ok (.conflict found)⟩ =>
    Cursor.readerBucket.position found = target
  | _ => false

/-- The reader bucket stood where it was to be moved to, one way or the other. -/
def Seen.arrives (s : Seen) : Bool := s.moves || s.echoes

/-- The reader goes on to count a seal. -/
def owesSeal : List Seen → Bool
  | [] => false
  | s :: _ => s.arrives

/-- A reader counts a seal after each arrival, and at no other time. -/
def counting : Contract where
  asks := fun tr e => owesSeal tr = true ↔ e = .tally .seals
  faults := fun tr _ => owesSeal tr = false
  storage := fun _ c _ _ => by
    cases c with
    | swapCell cell expected target => cases cell <;> rfl
    | _ => rfl

/-! ## The operations of a reader -/

theorem counting_asks {e : Effect} (hs : owesSeal tr = false) (he : Sealless e = true) :
    counting.asks tr e := by
  constructor
  · intro h
    rw [hs] at h
    cases h
  · rintro rfl
    cases he

theorem arrives_of_sealless {s : Seen} (hs : Sealless s.effect = true) : s.arrives = false := by
  obtain ⟨e, answer⟩ := s
  cases e with
  | call c =>
    cases c with
    | swapCell cell expected target =>
      cases cell with
      | readerBucket => cases hs
      | _ => rfl
    | _ => rfl
  | _ => rfl

theorem sealless_obeys {α : Type} {p : Program α} {Q : Post α}
    (h : p.Obeys (asking Sealless).asks Q tr) (hs : owesSeal tr = false) :
    p.Obeys counting.asks (fun tr a => Q tr a ∧ owesSeal tr = false) tr := by
  induction p generalizing tr with
  | done a => exact ⟨h, hs⟩
  | effect e k ih =>
    exact ⟨counting_asks hs h.1, fun a ha => ih a (h.2 a ha) (arrives_of_sealless h.1)⟩
  | loop body start k ihb ih =>
    obtain ⟨I, h0, hI⟩ := h
    refine ⟨fun s tr => I s tr ∧ owesSeal tr = false, ⟨h0, hs⟩, fun s tr hpass => ?_⟩
    refine (ihb s (hI s tr hpass.1) hpass.2).mono (fun _ _ h => h) fun tr p hp => ?_
    cases p with
    | again s => exact hp
    | leave b => exact ih b hp.1 hp.2

theorem counting_of_sealless {α : Type} {x : Op α} (hx : AsksOnly Sealless x)
    (hs : owesSeal tr = false) : x.Obeys counting (fun tr _ => owesSeal tr = false) tr :=
  (sealless_obeys (hx tr) hs).mono (fun _ _ h => h) fun _ r h => by cases r <;> exact h.2

/-- A swap of the reader bucket to the next one arrives exactly if the cursor is answered to stand
there. -/
theorem moveIf_counting (hnext : cellSucc? position = some next) (hs : owesSeal tr = false) :
    (Cursor.readerBucket.moveIf position next).Obeys counting
      (fun tr at_ => owesSeal tr = true ↔ at_ = next) tr := by
  have asks : ∀ {tr expected}, owesSeal tr = false →
      counting.asks tr (.call (.swapCell .readerBucket expected next)) := by
    intro tr expected hs
    refine ⟨fun h => ?_, nofun⟩
    rw [hs] at h
    cases h
  refine .bind (.call (asks hs) fun a => ?_)
  match a with
  | .swapped => exact .pure ⟨fun _ => rfl, fun _ => rfl⟩
  | .conflict (some found) => exact .pure decide_eq_true_iff
  | .conflict none =>
    refine .ite (fun hp => ?_) fun _ => .pure decide_eq_true_iff
    have hone : next = 1 := by
      rw [hp] at hnext
      exact (Option.some.inj hnext).symm
    subst hone
    refine .bind (.call (asks rfl) fun a => ?_)
    cases a with
    | swapped => exact .pure ⟨fun _ => rfl, fun _ => rfl⟩
    | conflict found => exact .pure decide_eq_true_iff

theorem forwardPass_counting {passed : Nat} (hs : owesSeal tr = false) :
    (q.forwardPass limit hide passed).Obeys counting
      (passEnd (fun _ tr => owesSeal tr = false) fun _ tr => owesSeal tr = false) tr := by
  refine .bind (.bind (.call (counting_asks hs rfl) fun cell => .pure ?_))
  refine .bind (.call (counting_asks rfl rfl) fun ms => ?_)
  refine .bind (.now (counting_asks rfl rfl) fun u _ => ?_)
  split
  · refine .bind ((counting_of_sealless claimOrRetire_sealless rfl).mono fun tr o ho => ?_)
    cases o with
    | some claimed => exact .pure ho
    | none => exact .pure ho
  · refine .bind ((counting_of_sealless nextIndex_common.sealless rfl).mono fun tr i hi => ?_)
    refine .ite (fun _ => .pure hi) fun _ => .ite (fun _ => .pure hi) fun _ => ?_
    refine .bind (.bind (.now (counting_asks hi rfl) fun v _ =>
      .call (counting_asks rfl rfl) fun sealedAt => ?_))
    refine .bind (.inRange (fun next hnext => ?_) fun _ => rfl)
    refine .bind ((moveIf_counting hnext rfl).mono fun tr at_ hat => ?_)
    refine .ite (fun he => .bind (.tally ?_ (.pure rfl))) fun hne => .pure ?_
    · exact ⟨fun _ => rfl, fun _ => hat.mpr he⟩
    · exact Bool.eq_false_iff.mpr fun hs => hne (hat.mp hs)

theorem nextMessage_counting :
    (q.nextMessage limit hide).Obeys counting (fun tr _ => owesSeal tr = false) [] := by
  refine .bind ?_
  have hresurrect : AsksOnly Sealless (q.resurrect limit hide) :=
    .andThen (.andThen (.call rfl) fun _ => .done) fun _ => resurrectFrom_sealless
  refine (counting_of_sealless hresurrect rfl).mono fun tr o ho => ?_
  cases o with
  | some m =>
    exact .bind (.tally (counting_asks ho rfl) (.bind (.tally (counting_asks rfl rfl) (.pure rfl))))
  | none =>
    refine .bind (.loop (fun _ tr => owesSeal tr = false) ho fun _ tr hs =>
      (forwardPass_counting hs).mono fun tr p hp => ?_)
    cases p with
    | again s => exact hp
    | leave found =>
      exact .ite (fun _ => .bind (.tally (counting_asks hp rfl) (.pure rfl))) fun _ => .pure hp

/-- Every request counts so, and has nothing to count when it ends. -/
theorem requests_count (rule : Rule) :
    Keeps q rule (fun _ => counting.asks) fun _ tr _ => owesSeal tr = false := by
  intro r w hr
  cases r with
  | receive limit hide =>
    have hreceive : (q.receive limit hide).Obeys counting (fun tr _ => owesSeal tr = false) [] :=
      .bind (nextMessage_counting.mono fun _ _ hs => .pure hs)
    refine Program.Obeys.mono (fun _ _ h => h) (fun tr result hend => ?_)
      (Op.Obeys.map (R := fun tr _ => owesSeal tr = false) hreceive)
    cases result <;> exact hend
  | _ =>
    have hcommon := (others_common (q := q) rule _ w hr).mono
      (fun _ _ h => sealless_of_common (h fun _ _ => nofun)) fun _ _ h => h
    exact (sealless_obeys hcommon rfl).mono (fun _ _ h => h) fun _ _ h => h.2

/-! ## In every run -/

/-- The readers that have just arrived and go on to count a seal. -/
def sealers (w : World) : List Nat :=
  (List.range w.started).filter fun t => owesSeal (seenBy t w.history)

/-- How often a reader bucket was asked for that another reader had come to. -/
def echoes (h : History) : Nat := (seers Seen.echoes h).length

theorem length_seers_performed {p : Seen → Bool} {c : Instant} {rows : Rows} {s : Seen} :
    (seers p (.performed t c rows s :: h)).length = (seers p h).length + (p s).toNat := by
  rw [seers, named, List.length_append]
  cases hs : p s <;> simp [hs, Nat.add_comm]

theorem length_arrivals (h : History) :
    (seers Seen.arrives h).length = (seers Seen.moves h).length + echoes h := by
  induction h with
  | nil => rfl
  | cons e past ih =>
    cases e with
    | started u r => exact ih
    | ended u result => exact ih
    | performed u c rows s =>
      have hone : s.arrives.toNat = s.moves.toNat + s.echoes.toNat := by
        unfold Seen.arrives
        cases hm : s.moves with
        | false => rw [Bool.false_or]; exact (Nat.zero_add _).symm
        | true =>
          unfold Seen.moves at hm
          split at hm
          · rfl
          · cases hm
      rw [echoes, length_seers_performed, length_seers_performed, length_seers_performed, ih, hone,
        echoes]
      omega

theorem Reachable.counting (h : Reachable q rule w) {s : Seen} {before : List Seen}
    (hs : s :: before <:+ seenBy t w.history) :
    owesSeal before = true ↔ s.effect = .tally .seals := by
  obtain ⟨c, rows, past, hpast, rfl⟩ := performed_of_seenBy hs
  obtain ⟨_, _, hasks⟩ := h.effect_permitted (requests_count rule) hpast
  exact hasks

theorem Reachable.reader_of_owesSeal (h : Reachable q rule w)
    (hs : owesSeal (seenBy t w.history) = true) :
    ∃ limit hide, .started t (.receive limit hide) ∈ w.history := by
  cases htr : seenBy t w.history with
  | nil =>
    rw [htr] at hs
    cases hs
  | cons s before =>
    have hseen : s :: before <:+ seenBy t w.history := htr ▸ List.suffix_refl _
    obtain ⟨c, rows, past, hpast, _⟩ := performed_of_seenBy hseen
    obtain ⟨r, hr, hasks⟩ := h.effect_permitted (others_common rule) hpast
    by_contra hnone
    have hsealless := sealless_of_common (hasks fun limit hide he =>
      hnone ⟨limit, hide, he ▸ hpast.subset (List.mem_cons_of_mem _ hr)⟩)
    rw [htr] at hs
    exact Bool.eq_false_iff.mp (arrives_of_sealless hsealless) hs

/-- What is counted as seals are the arrivals at the next bucket, but for those after which the
reader has not gone on yet. -/
theorem counted_seals_perm (h : Reachable q rule w) :
    (counted .seals w.history ++ sealers w).Perm (seers Seen.arrives w.history) := by
  refine List.perm_iff_count.mpr fun t => ?_
  have hnodup : (sealers w).Nodup := List.nodup_range.filter _
  have hmem : t ∈ sealers w ↔ owesSeal (seenBy t w.history) = true := by
    rw [sealers, List.mem_filter, List.mem_range]
    refine and_iff_right_of_imp fun hs => ?_
    obtain ⟨limit, hide, hstarted⟩ := h.reader_of_owesSeal hs
    exact Nat.lt_of_not_le fun hle => (h.untraced t hle).started _ hstarted
  have hadd : tallied .seals (seenBy t w.history) + (owesSeal (seenBy t w.history)).toNat =
      ((seenBy t w.history).filter Seen.arrives).length :=
    tallied_add rfl (fun _ _ => rfl) fun s before hs => h.counting hs
  rw [List.count_append, count_counted, count_seers, hnodup.count, ← hadd]
  simp only [hmem]
  cases owesSeal (seenBy t w.history) <;> rfl

/-- The readers have moved the reader bucket on once for each bucket they have passed. -/
theorem Reachable.moves_eq (h : Reachable q Undropped w) :
    (seers Seen.moves w.history).length = (cursorAt q .readerBucket w.rows).toNat := by
  refine h.course (P := fun rows h =>
    (seers Seen.moves h).length = (cursorAt q .readerBucket rows).toNat) (fun _ _ => id) rfl
    (fun _ _ _ _ ih => ih) (fun _ _ _ _ ih => ih) ?_
  intro v t r s rows hv _ hp hturn ih
  rw [length_seers_performed]
  cases hturn with
  | leaves hs =>
    have hstays : s.moves = false := by
      unfold Seen.moves
      split
      · cases hs
      · rfl
    rw [hstays]
    exact ih
  | inserts _ => exact ih
  | replaces _ => exact ih
  | deletes => exact ih
  | records _ => exact ih
  | @swaps cell target =>
    rw [cursorAt_set]
    cases cell with
    | readerBucket => exact (congrArg (· + 1) ih).trans (hv.swap_reader_next hp).1.symm
    | _ => exact ih

theorem Reachable.sealers_quiet (h : Reachable q rule w)
    (hquiet : ∀ t limit hide, ¬ Serving w t (.receive limit hide)) : sealers w = [] := by
  refine List.filter_eq_nil_iff.mpr fun t _ hs => ?_
  obtain ⟨limit, hide, hstarted⟩ := h.reader_of_owesSeal hs
  cases ht : w.tasks t with
  | none =>
    obtain ⟨result, past, hpast⟩ := h.ended_of_gone hstarted ht
    obtain ⟨r, _, hends⟩ := h.end_permitted (requests_count rule) hpast
    rw [h.seenBy_at_end hpast, hends] at hs
    cases hs
  | some task =>
    obtain ⟨r, rest⟩ := task
    obtain ⟨hr, _⟩ := h.task_obeys (requests_count rule) ht
    cases h.started_unique hr hstarted
    exact hquiet t limit hide ⟨rest, ht⟩

/-- In every run that nobody drops, the seals that are counted, with those that a reader goes on to
count, are one for each bucket that the readers have passed and one for each echo. So when no call
for a message is being served, the counter says how many buckets were passed exactly if there was
no echo. -/
theorem seals_counted (h : Reachable q Undropped w) :
    (counted .seals w.history).length + (sealers w).length =
        (cursorAt q .readerBucket w.rows).toNat + echoes w.history ∧
      ((∀ t limit hide, ¬ Serving w t (.receive limit hide)) →
        ((counted .seals w.history).length = (cursorAt q .readerBucket w.rows).toNat ↔
          echoes w.history = 0)) := by
  have hall : (counted .seals w.history).length + (sealers w).length =
      (cursorAt q .readerBucket w.rows).toNat + echoes w.history := by
    rw [← List.length_append, (counted_seals_perm h).length_eq, length_arrivals, h.moves_eq]
  refine ⟨hall, fun hquiet => ?_⟩
  rw [h.sealers_quiet hquiet, List.length_nil, Nat.add_zero] at hall
  omega

/-- Two readers are both about to leave a bucket; one of them leaves it, then the other goes on. -/
def leavingTwice : List Action :=
  serve 0 (.put [1] 0) 6 ++ serve 1 (.receive 1 1000) 12 ++
    (.start (.receive 1 1000) :: List.replicate 10 (.act 2 ⟨7⟩)) ++ serve 3 (.receive 1 1000) 18 ++
    (List.replicate 7 (.act 2 ⟨7⟩) ++ [.finish 2])

/-- One bucket was passed, the slower reader's swap was an echo, and two seals are counted. -/
theorem seals_counted_leaving_twice :
    ∃ w, Reachable singles Undropped w ∧ Idle w ∧ cursorAt singles .readerBucket w.rows = 1 ∧
      echoes w.history = 1 ∧ (counted .seals w.history).length + (sealers w).length = 1 + 1 ∧
      (counted .seals w.history).length ≠ (1 : UInt64).toNat := by
  obtain ⟨w, hw, hdone, hat, hecho⟩ : ∃ w,
      ({} : World).run? singles leavingTwice = some w ∧
      allDone w (.start (.receive 1 1000)) = true ∧ cursorAt singles .readerBucket w.rows = 1 ∧
      echoes w.history = 1 :=
    ⟨_, rfl, rfl, rfl, rfl⟩
  have h : Reachable singles Undropped w :=
    .run (by simp [leavingTwice, serve, Undropped]) .fresh hw
  have hidle : Idle w := ((h.allDone hdone) _ rfl).2
  obtain ⟨hall, hexact⟩ := seals_counted h
  rw [hat, hecho] at hall hexact
  have hquiet := hexact fun _ _ _ => hidle.not_serving
  exact ⟨w, h, hidle, hat, hecho, hall, fun he => absurd (hquiet.mp he) Nat.one_ne_zero⟩

def Unfailing : Rule := fun w a => Undropped w a ∧ ∀ t e, a ≠ .fail t e

/-- A bucket can be counted twice as sealed. -/
theorem seal_counted_twice :
    ¬ ∀ (q : Queue) (w : World), Reachable q Unfailing w →
      (∀ t limit hide, ¬ Serving w t (.receive limit hide)) →
      (counted .seals w.history).length = (cursorAt q .readerBucket w.rows).toNat := by
  intro claimed
  obtain ⟨w, hw, hdone, hat, hcounted⟩ : ∃ w,
      ({} : World).run? singles leavingTwice = some w ∧
      allDone w (.start (.receive 1 1000)) = true ∧ cursorAt singles .readerBucket w.rows = 1 ∧
      counted .seals w.history = [2, 3] :=
    ⟨_, rfl, rfl, rfl, rfl⟩
  have h : Reachable singles Unfailing w :=
    .run (by simp [leavingTwice, serve, Unfailing, Undropped]) .fresh hw
  have hidle : Idle w := ((h.allDone hdone) _ rfl).2
  have hone := claimed singles w h fun _ _ _ => hidle.not_serving
  rw [hat, hcounted] at hone
  cases hone

end LeaseQueue.Shared
