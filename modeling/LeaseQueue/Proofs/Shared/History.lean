import LeaseQueue.Proofs.Shared.Obeys

/-
  What a run and its history have to do with each other.

  `Move` lists what an action can do, once for all proofs. Each effect in a
  history was performed in a world of the same run (`Reachable.at_effect`), and
  what holds of a program whatever it is answered holds of every task that runs
  it (`Reachable.task_obeys`).
-/

namespace LeaseQueue.Shared

variable {q : Queue} {rule : Rule} {w w' : World} {a : Action} {t u : Nat}

/-! ## Steps -/

/-- The answer to an effect on the rows at the clock, and the rows it leaves. A call that failed
leaves them as they were. -/
def Answered (rows : Rows) (clock : Instant) : Seen → Rows → Prop
  | ⟨.call c, .ok a⟩, rows' => (a, rows') = rows.apply c
  | ⟨.now, t⟩, rows' => t = clock ∧ rows' = rows
  | ⟨.sleepUntil wake, _⟩, rows' => wake ≤ clock ∧ rows' = rows
  | _, rows' => rows' = rows

inductive Move (q : Queue) (w : World) : Action → World → Prop where
  | starts (request : Request) :
    Move q w (.start request) { w with
      tasks := Function.update w.tasks w.started (some ⟨request, (request.op q).run⟩)
      started := w.started + 1
      history := .started w.started request :: w.history }
  | passes (d : Duration) : Move q w (.pass d) { w with clock := w.clock + d }
  | performs {a : Action} {t : Nat} {request : Request} {s : Seen}
      {k : s.effect.Answer → Program Result} {rows : Rows}
      (ht : w.tasks t = some ⟨request, .effect s.effect k⟩)
      (ha : Answered w.rows w.clock s rows) :
    Move q w a (w.performed t request s rows (k s.answer))
  | turns {tag : Tag} {t : Nat} {request : Request} {σ β : Type} {body : σ → Program (Pass σ β)}
      {start : σ} {k : β → Program Result}
      (ht : w.tasks t = some ⟨request, .loop body start k⟩) :
    Move q w (.act t tag) { w with
      tasks := Function.update w.tasks t (some ⟨request, Program.unroll body start k⟩) }
  | ends {t : Nat} {request : Request} {result : Result}
      (ht : w.tasks t = some ⟨request, .done result⟩) :
    Move q w (.finish t) { w with
      tasks := Function.update w.tasks t none
      history := .ended t result :: w.history }

theorem answered_of_answer? {rows rows' : Rows} {clock : Instant} {tag : Tag} {e : Effect}
    {answer : e.Answer} (h : answer? rows clock tag e = some (answer, rows')) :
    Answered rows clock ⟨e, answer⟩ rows' := by
  cases e with
  | call c =>
    cases h
    rfl
  | send c =>
    cases h
    rfl
  | now =>
    cases h
    exact ⟨rfl, rfl⟩
  | sleepUntil wake =>
    simp only [answer?] at h
    split at h
    · rename_i hw
      cases h
      exact ⟨hw, rfl⟩
    · cases h
  | drawTag =>
    cases h
    rfl
  | tally c =>
    cases h
    rfl

theorem move_of_step? (h : w.step? q a = some w') : Move q w a w' := by
  cases a with
  | start request =>
    cases h
    exact .starts request
  | pass d =>
    cases h
    exact .passes d
  | act t tag =>
    simp only [World.step?] at h
    split at h
    · rename_i request e k ht
      obtain ⟨⟨answer, rows⟩, ha, rfl⟩ := Option.map_eq_some_iff.mp h
      exact .performs (s := ⟨e, answer⟩) ht (answered_of_answer? ha)
    · rename_i ht
      cases h
      exact .turns ht
    · cases h
  | fail t error =>
    simp only [World.step?] at h
    split at h
    · rename_i request c k ht
      cases h
      exact .performs (s := ⟨.call c, .error error⟩) ht rfl
    · cases h
  | finish t =>
    simp only [World.step?] at h
    split at h
    · rename_i ht
      cases h
      exact .ends ht
    · cases h

/-! ## Numbers of tasks -/

@[simp] theorem seenBy_performed (c : Instant) (rows : Rows) (s : Seen) (past : History) :
    seenBy t (.performed u c rows s :: past) =
      if u = t then s :: seenBy t past else seenBy t past := rfl

@[simp] theorem seenBy_started (r : Request) (past : History) :
    seenBy t (.started u r :: past) = seenBy t past := rfl

@[simp] theorem seenBy_ended (r : Result) (past : History) :
    seenBy t (.ended u r :: past) = seenBy t past := rfl

@[simp] theorem seenBy_nil : seenBy t [] = [] := rfl

theorem mem_seenBy {s : Seen} {h : History} :
    s ∈ seenBy t h ↔ ∃ c rows, .performed t c rows s ∈ h := by
  induction h with
  | nil => simp
  | cons e past ih =>
    cases e with
    | started u r => simp [ih]
    | ended u r => simp [ih]
    | performed u c rows s' =>
      rw [seenBy_performed]
      by_cases hu : u = t
      · subst hu
        rw [if_pos rfl, List.mem_cons, ih]
        constructor
        · rintro (rfl | ⟨c', rows', h⟩)
          · exact ⟨c, rows, List.mem_cons_self⟩
          · exact ⟨c', rows', List.mem_cons_of_mem _ h⟩
        · rintro ⟨c', rows', h⟩
          rcases List.mem_cons.mp h with h | h
          · cases h
            exact .inl rfl
          · exact .inr ⟨c', rows', h⟩
      · rw [if_neg hu, ih]
        refine exists_congr fun c' => exists_congr fun rows' => ?_
        rw [List.mem_cons]
        refine ⟨.inr, fun h => h.resolve_left fun he => ?_⟩
        cases he
        exact hu rfl

theorem seenBy_suffix {past h : History} (hs : past <:+ h) : seenBy t past <:+ seenBy t h := by
  induction h with
  | nil =>
    cases List.suffix_nil.mp hs
    exact List.suffix_refl _
  | cons e h ih =>
    rcases List.suffix_cons_iff.mp hs with rfl | hs
    · exact List.suffix_refl _
    · refine (ih hs).trans ?_
      cases e with
      | started u r => exact List.suffix_refl _
      | ended u r => exact List.suffix_refl _
      | performed u c rows s =>
        rw [seenBy_performed]
        split
        · exact List.suffix_cons _ _
        · exact List.suffix_refl _

/-- What a task has seen and what it had seen before it are in the history at the same place. -/
theorem performed_of_seenBy {s : Seen} {before : List Seen} {h : History}
    (hs : s :: before <:+ seenBy t h) :
    ∃ c rows past, .performed t c rows s :: past <:+ h ∧ seenBy t past = before := by
  induction h with
  | nil => exact absurd (List.suffix_nil.mp hs) (List.cons_ne_nil _ _)
  | cons e h ih =>
    have earlier : s :: before <:+ seenBy t h →
        ∃ c rows past, .performed t c rows s :: past <:+ e :: h ∧ seenBy t past = before := by
      intro hs
      obtain ⟨c, rows, past, hpast, hbefore⟩ := ih hs
      exact ⟨c, rows, past, hpast.trans (List.suffix_cons _ _), hbefore⟩
    cases e with
    | started u r => exact earlier hs
    | ended u r => exact earlier hs
    | performed u c rows s' =>
      rw [seenBy_performed] at hs
      split at hs
      · rename_i hu
        subst hu
        rcases List.suffix_cons_iff.mp hs with he | hs
        · cases he
          exact ⟨c, rows, h, List.suffix_refl _, rfl⟩
        · exact earlier hs
      · exact earlier hs

section
variable {c : Instant} {rows : Rows} {s : Seen} {r : Request} {result : Result} {past : History}

theorem started_of_performed (h : .started t r ∈ .performed u c rows s :: past) :
    .started t r ∈ past := (List.mem_cons.mp h).resolve_left nofun

theorem started_of_ended (h : .started t r ∈ .ended u result :: past) : .started t r ∈ past :=
  (List.mem_cons.mp h).resolve_left nofun

theorem ended_of_performed (h : .ended t result ∈ .performed u c rows s :: past) :
    .ended t result ∈ past := (List.mem_cons.mp h).resolve_left nofun

theorem ended_of_started (h : .ended t result ∈ .started u r :: past) : .ended t result ∈ past :=
  (List.mem_cons.mp h).resolve_left nofun

theorem performed_of_started (h : .performed t c rows s ∈ .started u r :: past) :
    .performed t c rows s ∈ past := (List.mem_cons.mp h).resolve_left nofun

theorem performed_of_ended (h : .performed t c rows s ∈ .ended u result :: past) :
    .performed t c rows s ∈ past := (List.mem_cons.mp h).resolve_left nofun

end

/-- A number that was not given to a task yet has left no trace. -/
structure Untraced (w : World) (t : Nat) : Prop where
  task : w.tasks t = none
  seen : seenBy t w.history = []
  started : ∀ r, .started t r ∉ w.history
  ended : ∀ result, .ended t result ∉ w.history

theorem Reachable.untraced (h : Reachable q rule w) : ∀ t, w.started ≤ t → Untraced w t := by
  induction h with
  | fresh => exact fun t _ => ⟨rfl, rfl, fun _ => List.not_mem_nil, fun _ => List.not_mem_nil⟩
  | @step w w' a _ _ hs ih =>
    intro t ht
    have other : ∀ {u task}, w.started ≤ t → w.tasks u = some task → t ≠ u := by
      rintro u task hle hu rfl
      rw [(ih t hle).task] at hu
      cases hu
    cases move_of_step? hs with
    | starts request =>
      have ih := ih t (Nat.le_of_succ_le ht)
      have hne : t ≠ w.started := Nat.ne_of_gt ht
      refine ⟨by simp [Function.update_of_ne hne, ih.task], ih.seen, fun r hr => ?_,
        fun result hr => ih.ended result (ended_of_started hr)⟩
      rcases List.mem_cons.mp hr with hr | hr
      · cases hr
        exact hne rfl
      · exact ih.started r hr
    | passes d => exact ⟨(ih t ht).task, (ih t ht).seen, (ih t ht).started, (ih t ht).ended⟩
    | @performs _ u request s k rows hu ha =>
      have hne := other ht hu
      have ih := ih t ht
      exact ⟨by simp [World.performed, Function.update_of_ne hne, ih.task],
        by simp [World.performed, hne.symm, ih.seen],
        fun r hr => ih.started r (started_of_performed hr),
        fun result hr => ih.ended result (ended_of_performed hr)⟩
    | @turns _ u _ _ _ _ _ _ hu =>
      have ih' := ih t ht
      exact ⟨by simp [Function.update_of_ne (other ht hu), ih'.task], ih'.seen, ih'.started,
        ih'.ended⟩
    | @ends u _ result hu =>
      have hne := other ht hu
      have ih := ih t ht
      refine ⟨by simp [Function.update_of_ne hne, ih.task], ih.seen,
        fun r hr => ih.started r (started_of_ended hr), fun result' hr => ?_⟩
      rcases List.mem_cons.mp hr with hr | hr
      · cases hr
        exact hne rfl
      · exact ih.ended result' hr

/-! ## The worlds of a run -/

theorem Reachable.ruled (h : Reachable q rule w) {r : Request} (hr : .started t r ∈ w.history) :
    ∃ v, Reachable q rule v ∧ rule v (.start r) ∧ v.history <:+ w.history := by
  have later : ∀ {e : Event} {past : History},
      (∃ v, Reachable q rule v ∧ rule v (.start r) ∧ v.history <:+ past) →
      ∃ v, Reachable q rule v ∧ rule v (.start r) ∧ v.history <:+ e :: past :=
    fun ⟨v, hv, hrule, hs⟩ => ⟨v, hv, hrule, hs.trans (List.suffix_cons _ _)⟩
  induction h with
  | fresh => exact absurd hr List.not_mem_nil
  | @step w w' a hw ha hs ih =>
    cases move_of_step? hs with
    | starts request =>
      rcases List.mem_cons.mp hr with he | hr
      · cases he
        exact ⟨w, hw, ha, List.suffix_cons _ _⟩
      · exact later (ih hr)
    | passes d => exact ih hr
    | performs ht hans => exact later (ih (started_of_performed hr))
    | turns ht => exact ih hr
    | ends ht => exact later (ih (started_of_ended hr))

theorem suffix_of_run {actions : List Action} (hs : w.run? q actions = some w') :
    w.history <:+ w'.history := by
  induction actions generalizing w with
  | nil =>
    cases hs
    exact List.suffix_refl _
  | cons a rest ih =>
    obtain ⟨v, hv, hrest⟩ := Option.bind_eq_some_iff.mp hs
    refine List.IsSuffix.trans ?_ (ih hrest)
    cases move_of_step? hv with
    | starts request => exact List.suffix_cons _ _
    | passes d => exact List.suffix_refl _
    | performs ht hans => exact List.suffix_cons _ _
    | turns ht => exact List.suffix_refl _
    | ends ht => exact List.suffix_cons _ _

/-- Each part of a history is the history of a world that the run has come through. -/
theorem Reachable.at_suffix (h : Reachable q rule w) {past : History} (hs : past <:+ w.history) :
    ∃ v, Reachable q rule v ∧ v.history = past := by
  have step : ∀ {w w' : World} {e : Event}, Reachable q rule w' → w'.history = e :: w.history →
      past <:+ w'.history → (past <:+ w.history → ∃ v, Reachable q rule v ∧ v.history = past) →
      ∃ v, Reachable q rule v ∧ v.history = past := by
    intro w w' e hw' he hs ih
    rw [he] at hs
    rcases List.suffix_cons_iff.mp hs with rfl | hs
    · exact ⟨w', hw', he⟩
    · exact ih hs
  induction h with
  | fresh => exact ⟨_, .fresh, (List.suffix_nil.mp hs).symm⟩
  | @step w w' a hw ha hstep ih =>
    have hw' := hw.step ha hstep
    cases move_of_step? hstep with
    | starts request => exact step hw' rfl hs ih
    | passes d => exact ih hs
    | performs ht hans => exact step hw' rfl hs ih
    | turns ht => exact ih hs
    | ends ht => exact step hw' rfl hs ih

/-- The clock has passed every instant that a task has seen. -/
theorem Reachable.seen_le_clock (h : Reachable q rule w) :
    ∀ s ∈ seenBy t w.history, s.instant ≤ w.clock := by
  induction h with
  | fresh => exact fun s hs => absurd hs List.not_mem_nil
  | @step w w' a _ _ hs ih =>
    intro s hsw
    cases move_of_step? hs with
    | starts request => exact ih s hsw
    | passes d => exact Nat.le_trans (ih s hsw) (Nat.le_add_right _ _)
    | @performs _ u request s' k rows hu ha =>
      simp only [World.performed, seenBy_performed] at hsw
      split at hsw
      · rcases List.mem_cons.mp hsw with rfl | hsw
        · match s, ha with
          | ⟨.now, _⟩, ha => exact Nat.le_of_eq ha.1
          | ⟨.sleepUntil _, _⟩, ha => exact ha.1
          | ⟨.call _, _⟩, _ => exact Nat.zero_le _
          | ⟨.send _, _⟩, _ => exact Nat.zero_le _
          | ⟨.drawTag, _⟩, _ => exact Nat.zero_le _
          | ⟨.tally _, _⟩, _ => exact Nat.zero_le _
        · exact ih s hsw
      · exact ih s hsw
    | turns hu => exact ih s hsw
    | ends hu => exact ih s hsw

theorem Reachable.clock_le (h : Reachable q rule w) {c : Instant} {rows : Rows}
    {s : Seen} (he : .performed t c rows s ∈ w.history) : c ≤ w.clock := by
  induction h with
  | fresh => exact absurd he List.not_mem_nil
  | step _ _ hs ih =>
    cases move_of_step? hs with
    | starts request => exact ih (performed_of_started he)
    | passes d => exact Nat.le_trans (ih he) (Nat.le_add_right _ _)
    | performs ht hans =>
      rcases List.mem_cons.mp he with he | he
      · cases he
        exact Nat.le_refl _
      · exact ih he
    | turns ht => exact ih he
    | ends ht => exact ih (performed_of_ended he)

theorem Reachable.credible (h : Reachable q rule w) {s : Seen} {rows : Rows}
    (ha : Answered w.rows w.clock s rows) : Credible (seenBy t w.history) s.effect s.answer := by
  match s, ha with
  | ⟨.now, _⟩, ha =>
    intro s hs
    calc
      s.instant ≤ w.clock := h.seen_le_clock s hs
      _ = _ := ha.1.symm
  | ⟨.sleepUntil _, _⟩, _ => trivial
  | ⟨.call _, _⟩, _ => trivial
  | ⟨.send _, _⟩, _ => trivial
  | ⟨.drawTag, _⟩, _ => trivial
  | ⟨.tally _, _⟩, _ => trivial

/-- The requests that a rule lets start keep to their guards, whatever they are answered. -/
def Keeps (q : Queue) (rule : Rule) (G : Request → Guard) (Q : Request → Post Result) : Prop :=
  ∀ r w, rule w (.start r) → (r.op q).run.Obeys (G r) (Q r) []

variable {G : Request → Guard} {Q : Request → Post Result}

/-- Each task goes on as its request has to after what it has seen. -/
theorem Reachable.task_obeys (hG : Keeps q rule G Q) (h : Reachable q rule w) {task : Task}
    (ht : w.tasks t = some task) :
    .started t task.request ∈ w.history ∧
      task.rest.Obeys (G task.request) (Q task.request) (seenBy t w.history) := by
  induction h generalizing task t with
  | fresh => cases ht
  | @step w w' a hr ha hs ih =>
    cases move_of_step? hs with
    | starts request =>
      by_cases htu : t = w.started
      · subst htu
        simp only [Function.update_self, Option.some.injEq] at ht
        subst ht
        refine ⟨List.mem_cons_self, ?_⟩
        rw [seenBy_started, (hr.untraced _ (Nat.le_refl _)).seen]
        exact hG request _ ha
      · simp only [Function.update_of_ne htu] at ht
        exact ⟨List.mem_cons_of_mem _ (ih ht).1, (ih ht).2⟩
    | passes d => exact ih ht
    | @performs _ u request s k rows hu hans =>
      simp only [World.performed] at ht ⊢
      by_cases htu : t = u
      · subst htu
        simp only [Function.update_self, Option.some.injEq] at ht
        subst ht
        refine ⟨List.mem_cons_of_mem _ (ih hu).1, ?_⟩
        rw [seenBy_performed, if_pos rfl]
        -- The program keeps to its guard whatever credible answer it gets.
        exact (ih hu).2.2 s.answer (hr.credible hans)
      · simp only [Function.update_of_ne htu] at ht
        refine ⟨List.mem_cons_of_mem _ (ih ht).1, ?_⟩
        rw [seenBy_performed, if_neg (Ne.symm htu)]
        exact (ih ht).2
    | @turns _ u request _ _ body start k hu =>
      by_cases htu : t = u
      · subst htu
        simp only [Function.update_self, Option.some.injEq] at ht
        subst ht
        exact ⟨(ih hu).1, (ih hu).2.unroll⟩
      · simp only [Function.update_of_ne htu] at ht
        exact ih ht
    | @ends u request result hu =>
      by_cases htu : t = u
      · subst htu
        simp at ht
      · simp only [Function.update_of_ne htu] at ht
        exact ⟨List.mem_cons_of_mem _ (ih ht).1, (ih ht).2⟩

/-- The world in which an effect was performed, and the one it led to. -/
theorem Reachable.at_effect (h : Reachable q rule w) {c : Instant} {rows : Rows} {s : Seen}
    {past : History} (hs : .performed t c rows s :: past <:+ w.history) :
    ∃ v request k rows', Reachable q rule v ∧ v.history = past ∧ v.rows = rows ∧ v.clock = c ∧
      v.tasks t = some ⟨request, .effect s.effect k⟩ ∧ Answered rows c s rows' ∧
      Reachable q rule (v.performed t request s rows' (k s.answer)) := by
  induction h with
  | fresh => exact absurd (List.suffix_nil.mp hs) (List.cons_ne_nil _ _)
  | @step w w' a hr ha hstep ih =>
    have hnext := hr.step ha hstep
    cases move_of_step? hstep with
    | starts request =>
      rcases List.suffix_cons_iff.mp hs with he | hs
      · cases he
      · exact ih hs
    | passes d => exact ih hs
    | @performs _ u request s' k rows' hu hans =>
      rcases List.suffix_cons_iff.mp hs with he | hs
      · cases he
        exact ⟨w, request, k, rows', hr, rfl, rfl, rfl, hu, hans, hnext⟩
      · exact ih hs
    | turns hu => exact ih hs
    | ends hu =>
      rcases List.suffix_cons_iff.mp hs with he | hs
      · cases he
      · exact ih hs

theorem Reachable.at_end (h : Reachable q rule w) {result : Result} {past : History}
    (hs : .ended t result :: past <:+ w.history) :
    ∃ v request, Reachable q rule v ∧ v.history = past ∧
      v.tasks t = some ⟨request, .done result⟩ := by
  induction h with
  | fresh => exact absurd (List.suffix_nil.mp hs) (List.cons_ne_nil _ _)
  | @step w w' a hr ha hstep ih =>
    cases move_of_step? hstep with
    | starts request =>
      rcases List.suffix_cons_iff.mp hs with he | hs
      · cases he
      · exact ih hs
    | passes d => exact ih hs
    | performs hu hans =>
      rcases List.suffix_cons_iff.mp hs with he | hs
      · cases he
      · exact ih hs
    | turns hu => exact ih hs
    | @ends u request result' hu =>
      rcases List.suffix_cons_iff.mp hs with he | hs
      · cases he
        exact ⟨w, request, hr, rfl, hu⟩
      · exact ih hs

/-- Every effect in a history was permitted to its request. -/
theorem Reachable.effect_permitted (hG : Keeps q rule G Q) (h : Reachable q rule w) {c : Instant}
    {rows : Rows} {s : Seen} {past : History}
    (hs : .performed t c rows s :: past <:+ w.history) :
    ∃ r, .started t r ∈ past ∧ G r (seenBy t past) s.effect := by
  obtain ⟨v, request, k, _, hv, rfl, _, _, ht, _, _⟩ := h.at_effect hs
  have hob := hv.task_obeys hG ht
  exact ⟨request, hob.1, hob.2.1⟩

theorem Reachable.end_permitted (hG : Keeps q rule G Q) (h : Reachable q rule w)
    {result : Result} {past : History} (hs : .ended t result :: past <:+ w.history) :
    ∃ r, .started t r ∈ past ∧ Q r (seenBy t past) result := by
  obtain ⟨v, request, hv, rfl, ht⟩ := h.at_end hs
  exact ⟨request, hv.task_obeys hG ht⟩

theorem Reachable.started_unique (h : Reachable q rule w) {r r' : Request}
    (hr : .started t r ∈ w.history) (hr' : .started t r' ∈ w.history) : r = r' := by
  induction h with
  | fresh => exact absurd hr List.not_mem_nil
  | @step w w' a hw _ hs ih =>
    cases move_of_step? hs with
    | starts request =>
      have hnot := (hw.untraced w.started (Nat.le_refl _)).started
      rcases List.mem_cons.mp hr with he | hp <;> rcases List.mem_cons.mp hr' with he' | hp'
      · cases he
        cases he'
        rfl
      · cases he
        exact absurd hp' (hnot r')
      · cases he'
        exact absurd hp (hnot r)
      · exact ih hp hp'
    | passes d => exact ih hr hr'
    | performs hu hans => exact ih (started_of_performed hr) (started_of_performed hr')
    | turns hu => exact ih hr hr'
    | ends hu => exact ih (started_of_ended hr) (started_of_ended hr')

theorem suffix_of_mem {α : Type*} {e : α} {h : List α} (he : e ∈ h) : ∃ past, e :: past <:+ h := by
  obtain ⟨later, past, rfl⟩ := List.append_of_mem he
  exact ⟨past, List.suffix_append _ _⟩

theorem mem_or_before {e : Event} {before past h : History} (he : e :: before <:+ h)
    (hs : past <:+ h) : e ∈ past ∨ past <:+ before := by
  rcases List.suffix_or_suffix_of_suffix he hs with hle | hle
  · exact .inl (hle.subset List.mem_cons_self)
  · rcases List.suffix_cons_iff.mp hle with rfl | hle
    · exact .inl List.mem_cons_self
    · exact .inr hle

theorem same_or_before {α : Type*} {e e' : α} {past past' h : List α} (hs : e :: past <:+ h)
    (hs' : e' :: past' <:+ h) :
    (e = e' ∧ past = past') ∨ e :: past <:+ past' ∨ e' :: past' <:+ past := by
  rcases List.suffix_or_suffix_of_suffix hs hs' with hle | hle
  · rcases List.suffix_cons_iff.mp hle with he | hle
    · exact .inl (List.cons.inj he)
    · exact .inr (.inl hle)
  · rcases List.suffix_cons_iff.mp hle with he | hle
    · exact .inl ((List.cons.inj he).imp Eq.symm Eq.symm)
    · exact .inr (.inr hle)

/-- A task that has ended is not served any more. -/
theorem Reachable.gone (h : Reachable q rule w) {result : Result}
    (he : .ended t result ∈ w.history) : w.tasks t = none := by
  induction h with
  | fresh => exact absurd he List.not_mem_nil
  | @step w w' a hw _ hs ih =>
    have other : ∀ {u task}, .ended t result ∈ w.history → w.tasks u = some task → t ≠ u := by
      rintro u task he hu rfl
      rw [ih he] at hu
      cases hu
    cases move_of_step? hs with
    | starts request =>
      have he := ended_of_started he
      have hne : t ≠ w.started := by
        rintro rfl
        exact (hw.untraced _ (Nat.le_refl _)).ended _ he
      simp [Function.update_of_ne hne, ih he]
    | passes d => exact ih he
    | performs hu _ =>
      have he := ended_of_performed he
      simp [World.performed, Function.update_of_ne (other he hu), ih he]
    | turns hu => simp [Function.update_of_ne (other he hu), ih he]
    | @ends u _ _ hu =>
      by_cases htu : t = u
      · simp [htu]
      · have he : .ended t result ∈ w.history := (List.mem_cons.mp he).resolve_left fun he => by
          cases he
          exact htu rfl
        simp [Function.update_of_ne htu, ih he]

theorem Reachable.ended_of_gone (h : Reachable q rule w) {r : Request}
    (hr : .started t r ∈ w.history) (ht : w.tasks t = none) :
    ∃ result past, .ended t result :: past <:+ w.history := by
  have later : ∀ {e : Event} {past : History},
      (∃ result before, .ended t result :: before <:+ past) →
      ∃ result before, .ended t result :: before <:+ e :: past :=
    fun ⟨result, before, hs⟩ => ⟨result, before, hs.trans (List.suffix_cons _ _)⟩
  induction h with
  | fresh => exact absurd hr List.not_mem_nil
  | @step w w' a _ _ hs ih =>
    cases move_of_step? hs with
    | starts request =>
      by_cases htu : t = w.started
      · simp [htu] at ht
      · simp only [Function.update_of_ne htu] at ht
        refine later (ih ((List.mem_cons.mp hr).resolve_left fun he => ?_) ht)
        cases he
        exact htu rfl
    | passes d => exact ih hr ht
    | @performs _ u request s k rows hu _ =>
      by_cases htu : t = u
      · simp [World.performed, htu] at ht
      · simp only [World.performed, Function.update_of_ne htu] at ht
        exact later (ih (started_of_performed hr) ht)
    | @turns _ u _ _ _ _ _ _ hu =>
      by_cases htu : t = u
      · simp [htu] at ht
      · simp only [Function.update_of_ne htu] at ht
        exact ih hr ht
    | @ends u _ result hu =>
      by_cases htu : t = u
      · subst htu
        exact ⟨result, w.history, List.suffix_refl _⟩
      · simp only [Function.update_of_ne htu] at ht
        exact later (ih (started_of_ended hr) ht)

theorem Reachable.ended_once (h : Reachable q rule w) {result result' : Result} {past : History}
    (hs : .ended t result :: past <:+ w.history) : .ended t result' ∉ past := by
  obtain ⟨v, _, hv, rfl, ht⟩ := h.at_end hs
  intro he
  rw [hv.gone he] at ht
  cases ht

/-- What a task has done it did before it ended. -/
theorem Reachable.before_end (h : Reachable q rule w) {result : Result} {c : Instant}
    {rows : Rows} {s : Seen} {before past : History}
    (hp : .performed t c rows s :: before <:+ w.history)
    (hs : .ended t result :: past <:+ w.history) : .performed t c rows s :: before <:+ past := by
  rcases same_or_before hp hs with ⟨he, _⟩ | hle | hle
  · cases he
  · exact hle
  · obtain ⟨v, _, _, _, hv, rfl, _, _, ht, _⟩ := h.at_effect hp
    rw [hv.gone (hle.subset List.mem_cons_self)] at ht
    cases ht

theorem Reachable.seenBy_at_end (h : Reachable q rule w) {result : Result} {past : History}
    (hs : .ended t result :: past <:+ w.history) : seenBy t w.history = seenBy t past := by
  obtain ⟨later, hlater⟩ := seenBy_suffix (t := t) ((List.suffix_cons _ _).trans hs)
  cases later with
  | nil => exact hlater.symm
  | cons s later =>
    have hseen : s :: (later ++ seenBy t past) <:+ seenBy t w.history := ⟨[], hlater⟩
    obtain ⟨c, rows, before, hp, hbefore⟩ := performed_of_seenBy hseen
    have hlen := (seenBy_suffix (t := t) (h.before_end hp hs)).length_le
    simp only [seenBy_performed, if_true, hbefore, List.length_cons, List.length_append] at hlen
    omega

end LeaseQueue.Shared
