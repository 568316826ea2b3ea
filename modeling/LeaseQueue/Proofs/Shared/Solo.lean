import LeaseQueue.Proofs.Shared.History

/-
  Tasks that are left alone.

  `p.Solo fails Q rows c` says that the program comes to an end, and to one that
  `Q` permits, when it runs from the rows and the clock on while nobody else
  acts. Time may pass at any moment, and calls may fail if `fails` says so. A
  loop has an invariant whose index goes down with each pass. A request whose
  operation is so ends so when it is served alone (`Reachable.served_ended`), and
  it can be served to its end (`Reachable.served_ends`). Where calls may fail,
  the rows are at every moment such as an end may leave (`SoloTask.outcome`).
-/

namespace LeaseQueue

open Shared

namespace Shared

def Seen.failed : Seen → Bool
  | ⟨.call _, .error _⟩ => true
  | _ => false

/-- What holds of a result, of the rows it leaves and of the clock then. -/
abbrev Outcome (α : Type) := α → Rows → Instant → Prop

/-- After a pass of a loop with index `n`: the invariant with a lesser one, or what comes after the
loop. -/
def soloPass {σ β : Type} (I : Nat → σ → Rows → Instant → Prop) (n : Nat) (K : Outcome β) :
    Outcome (Pass σ β)
  | .again s, rows, c => ∃ m < n, I m s rows c
  | .leave b, rows, c => K b rows c

end Shared

namespace Program

variable {fails : Bool} {α β : Type} {rows : Rows} {c : Instant}

/-- Left alone from the rows and the clock on, the program ends as `Q` says. -/
def Solo (fails : Bool) : {α : Type} → Program α → Outcome α → Rows → Instant → Prop
  | _, .done a, Q, rows, c => Q a rows c
  | _, .effect e k, Q, rows, c => ∀ c' a rows', c ≤ c' →
    (Seen.failed ⟨e, a⟩ = true → fails = true) → Answered rows c' ⟨e, a⟩ rows' →
    (k a).Solo fails Q rows' c'
  | _, @loop _ σ _ body start k, Q, rows, c =>
    ∃ I : Nat → σ → Rows → Instant → Prop, (∃ n, I n start rows c) ∧ ∀ n s rows c, I n s rows c →
      (body s).Solo fails (soloPass I n fun b rows c => (k b).Solo fails Q rows c) rows c

theorem solo_bind (p : Program α) (f : α → Program β) (Q : Outcome β) :
    (p.bind f).Solo fails Q rows c ↔
      p.Solo fails (fun a rows c => (f a).Solo fails Q rows c) rows c := by
  induction p generalizing rows c with
  | done a => rfl
  | effect e k ih =>
    simp only [bind, Solo]
    exact forall_congr' fun c' => forall_congr' fun a => forall_congr' fun rows' =>
      forall_congr' fun _ => forall_congr' fun _ => forall_congr' fun _ => ih a f
  | loop body start k _ ih =>
    simp only [bind, Solo]
    have hk : (fun b rows c => ((k b).bind f).Solo fails Q rows c) =
        fun b rows c => (k b).Solo fails (fun a rows c => (f a).Solo fails Q rows c) rows c :=
      funext fun b => funext fun _ => funext fun _ => propext (ih b f)
    rw [hk]

theorem Solo.mono {p : Program α} {Q Q' : Outcome α} (hQ : ∀ a rows c, Q a rows c → Q' a rows c)
    (h : p.Solo fails Q rows c) : p.Solo fails Q' rows c := by
  induction p generalizing rows c with
  | done a => exact hQ a rows c h
  | effect e k ih => exact fun c' a rows' hc hf ha => ih a hQ (h c' a rows' hc hf ha)
  | loop body start k ihb ih =>
    obtain ⟨I, hstart, hI⟩ := h
    refine ⟨I, hstart, fun n s rows c hs => ihb s (fun p rows c hp => ?_) (hI n s rows c hs)⟩
    cases p with
    | again s => exact hp
    | leave b => exact ih b hQ hp

theorem Solo.unroll {σ : Type} {body : σ → Program (Pass σ β)} {start : σ} {k : β → Program α}
    {Q : Outcome α} (h : (Program.loop body start k).Solo fails Q rows c) :
    (Program.unroll body start k).Solo fails Q rows c := by
  obtain ⟨I, ⟨n, hn⟩, hI⟩ := h
  refine (solo_bind _ _ _).mpr (Solo.mono (fun p rows c hp => ?_) (hI n start rows c hn))
  cases p with
  | again s =>
    obtain ⟨m, _, hm⟩ := hp
    exact ⟨I, ⟨m, hm⟩, hI⟩
  | leave b => exact hp

theorem Solo.later {p : Program α} {Q : Outcome α} (h : p.Solo fails Q rows c) :
    p.Solo fails (fun a rows t => c ≤ t ∧ Q a rows t) rows c := by
  induction p generalizing rows c with
  | done a => exact ⟨Nat.le_refl c, h⟩
  | effect e k ih =>
    intro c' a rows' hc hf ha
    exact (ih a (h c' a rows' hc hf ha)).mono fun _ _ _ hb => ⟨Nat.le_trans hc hb.1, hb.2⟩
  | loop body start k ihb ih =>
    obtain ⟨I, ⟨n, hn⟩, hI⟩ := h
    refine ⟨fun n s rows t => c ≤ t ∧ I n s rows t, ⟨n, Nat.le_refl c, hn⟩, fun n s rows t hs => ?_⟩
    refine (ihb s (hI n s rows t hs.2)).mono fun p rows t' hp => ?_
    have hc := Nat.le_trans hs.1 hp.1
    cases p with
    | again s =>
      obtain ⟨m, hlt, hm⟩ := hp.2
      exact ⟨m, hlt, hc, hm⟩
    | leave b => exact (ih b hp.2).mono fun _ _ _ hb => ⟨Nat.le_trans hc hb.1, hb.2⟩

/-- The program can end without a change of the rows, if calls may fail. -/
theorem Solo.unchanged {p : Program α} {Q : Outcome α} (h : p.Solo true Q rows c) :
    ∃ a c', Q a rows c' := by
  induction p generalizing c with
  | done a => exact ⟨a, c, h⟩
  | effect e k ih =>
    have step : ∀ c' a, c ≤ c' → Answered rows c' ⟨e, a⟩ rows → ∃ a c', Q a rows c' :=
      fun c' a hc ha => ih a (h c' a rows hc (fun _ => rfl) ha)
    cases e with
    | call cl => exact step c (.error (.unavailable "")) (Nat.le_refl c) rfl
    | send cl => exact step c () (Nat.le_refl c) rfl
    | now => exact step c c (Nat.le_refl c) ⟨rfl, rfl⟩
    | sleepUntil wake =>
      exact step (max c wake) () (Nat.le_max_left _ _) ⟨Nat.le_max_right _ _, rfl⟩
    | drawTag => exact step c ⟨0⟩ (Nat.le_refl c) rfl
    | tally counter => exact step c () (Nat.le_refl c) rfl
  | loop body start k ihb ih =>
    obtain ⟨I, ⟨n, hn⟩, hI⟩ := h
    induction n using Nat.strongRecOn generalizing start c with
    | _ n ihn =>
      obtain ⟨p, c', hp⟩ := ihb start (hI n start rows c hn)
      cases p with
      | again s =>
        obtain ⟨m, hlt, hm⟩ := hp
        exact ihn m hlt s hm
      | leave b => exact ih b hp

end Program

namespace Shared

/-- How an operation is left alone: whether its calls may fail, and which faults it may then end
in. -/
structure Setting where
  fails : Bool
  faults : Fault → Rows → Prop

/-- An answer that `P` permits or a fault that the setting permits. -/
def Setting.ends (S : Setting) {α : Type} (P : Outcome α) : Outcome (Except Fault α)
  | .ok a, rows, c => P a rows c
  | .error f, rows, _ => S.faults f rows

/-- No harm is done if a call fails now. -/
def Setting.Bears (S : Setting) (rows : Rows) : Prop :=
  S.fails = true → ∀ e, S.faults (.storage e) rows

theorem Setting.Bears.unfailing {S : Setting} {rows : Rows} (h : S.fails = false) : S.Bears rows :=
  fun hfails => absurd (h ▸ hfails) Bool.false_ne_true

end Shared

namespace Op

variable {S : Setting} {α β σ : Type} {P P' : Outcome α} {R : Outcome β} {rows : Rows}
  {c : Instant}

/-- Left alone from the rows and the clock on, the operation ends, and an answer is as `P` says. -/
def Solo (S : Setting) (x : Op α) (P : Outcome α) (rows : Rows) (c : Instant) : Prop :=
  Program.Solo S.fails x.run (S.ends P) rows c

namespace Solo

theorem pure {a : α} (h : P a rows c) : (Pure.pure a : Op α).Solo S P rows c := h

theorem mono {x : Op α} (hP : ∀ a rows c, P a rows c → P' a rows c) (h : x.Solo S P rows c) :
    x.Solo S P' rows c := by
  refine Program.Solo.mono (fun r rows c hr => ?_) h
  cases r with
  | ok a => exact hP a rows c hr
  | error f => exact hr

/-- Left alone in one setting, the operation does the same in one that permits more faults. -/
theorem widen {S' : Setting} {x : Op α} (hfails : S.fails = S'.fails)
    (hfaults : ∀ f rows, S.faults f rows → S'.faults f rows) (h : x.Solo S P rows c) :
    x.Solo S' P rows c := by
  unfold Solo at h ⊢
  rw [← hfails]
  refine Program.Solo.mono (fun r rows c hr => ?_) h
  cases r with
  | ok a => exact hr
  | error f => exact hfaults f rows hr

theorem later {x : Op α} (h : x.Solo S P rows c) :
    x.Solo S (fun a rows t => c ≤ t ∧ P a rows t) rows c := by
  refine Program.Solo.mono (fun r rows t hr => ?_) (Program.Solo.later h)
  cases r with
  | ok a => exact hr
  | error f => exact hr.2

theorem bind {x : Op α} {f : α → Op β}
    (h : x.Solo S (fun a rows c => (f a).Solo S R rows c) rows c) : (x >>= f).Solo S R rows c := by
  refine (Program.solo_bind _ _ _).mpr (Program.Solo.mono (fun r rows c hr => ?_) h)
  cases r with
  | ok a => exact hr
  | error f => exact hr

/-- An operation with a lemma of its own, and what comes after it. -/
theorem andThen {x : Op α} {f : α → Op β} (h : x.Solo S P rows c)
    (hf : ∀ a rows c, P a rows c → (f a).Solo S R rows c) : (x >>= f).Solo S R rows c :=
  bind (h.mono hf)

theorem map {x : Op α} {f : α → β} (h : x.Solo S (fun a rows c => R (f a) rows c) rows c) :
    (f <$> x).Solo S R rows c := by
  rw [← bind_pure_comp]
  exact bind h

theorem now {R : Outcome Instant} (h : ∀ t, c ≤ t → R t rows t) : Op.now.Solo S R rows c := by
  rintro c' a rows' hc _ ⟨rfl, rfl⟩
  exact h _ hc

theorem sleepUntil {wake : Instant} {R : Outcome Unit} (h : ∀ t, c ≤ t → wake ≤ t → R () rows t) :
    (Op.sleepUntil wake).Solo S R rows c := by
  rintro c' a rows' hc _ ⟨hw, rfl⟩
  exact h c' hc hw

theorem drawTag {R : Outcome Tag} (h : ∀ tag t, c ≤ t → R tag rows t) :
    Op.drawTag.Solo S R rows c := by
  rintro c' a rows' hc _ rfl
  exact h a c' hc

theorem tally {counter : Counter} {R : Outcome Unit} (h : ∀ t, c ≤ t → R () rows t) :
    (Op.tally counter).Solo S R rows c := by
  rintro c' a rows' hc _ rfl
  exact h c' hc

theorem call {cl : Call} {R : Outcome cl.Answer} (hf : S.Bears rows)
    (h : ∀ t, c ≤ t → R (rows.apply cl).1 (rows.apply cl).2 t) : (Op.call cl).Solo S R rows c := by
  intro c' a rows' hc hfails ha
  cases a with
  | ok a =>
    obtain ⟨rfl, rfl⟩ := Prod.mk.inj ha
    exact h c' hc
  | error e =>
    cases ha
    exact hf (hfails rfl) e

theorem inRange {o : Option α} (h : ∀ a, o = some a → P a rows c)
    (hn : o = none → S.faults .overflow rows) : (Op.inRange o).Solo S P rows c := by
  cases o with
  | none => exact hn rfl
  | some a => exact h a rfl

theorem inRange_some {o : Option α} {a : α} (ho : o = some a) (h : P a rows c) :
    (Op.inRange o).Solo S P rows c := by
  subst ho
  exact h

theorem ite {p : Prop} [Decidable p] {x y : Op α} (hx : p → x.Solo S P rows c)
    (hy : ¬ p → y.Solo S P rows c) : (if p then x else y).Solo S P rows c := by
  split
  · exact hx ‹_›
  · exact hy ‹_›

/-- A loop, by an invariant of its passes whose index goes down. -/
theorem loop {body : σ → Op (Pass σ β)} {start : σ} (I : Nat → σ → Rows → Instant → Prop) {n : Nat}
    (hstart : I n start rows c)
    (hI : ∀ n s rows c, I n s rows c →
      (body s).Solo S (soloPass I n fun b rows c => R b rows c) rows c) :
    (Op.loop body start).Solo S R rows c := by
  refine ⟨I, ⟨n, hstart⟩, fun n s rows c hs => (Program.solo_bind _ _ _).mpr ?_⟩
  refine Program.Solo.mono (fun r rows c hr => ?_) (hI n s rows c hs)
  match r with
  | .ok (.again s) => exact hr
  | .ok (.leave b) => exact hr
  | .error f => exact hr

/-- A fold, by an invariant of the elements still to be taken. -/
theorem foldlM {f : σ → α → Op σ} {l : List α} {s : σ} (I : List α → σ → Rows → Instant → Prop)
    (hstart : I l s rows c)
    (hI : ∀ a rest s rows c, I (a :: rest) s rows c → (f s a).Solo S (I rest) rows c) :
    (l.foldlM f s).Solo S (I []) rows c := by
  induction l generalizing s rows c with
  | nil => exact .pure hstart
  | cons a rest ih => exact .bind ((hI a rest s rows c hstart).mono fun s rows c hs => ih hs)

end Solo

end Op

namespace Shared

variable {q : Queue} {fails : Bool} {w w' : World} {t : Nat}

/-- Nobody but the task acts, and none of its calls fails. -/
def Own (t : Nat) : Action → Prop
  | .act u _ => u = t
  | .finish u => u = t
  | .pass _ => True
  | _ => False

/-- Nobody but the task acts, and its calls may fail. -/
def Faltering (t : Nat) (a : Action) : Prop := Own t a ∨ ∃ error, a = .fail t error

theorem Own.not_start {a : Action} (h : Own t a) (r : Request) : a ≠ .start r := by
  rintro rfl
  exact h

theorem Own.step {a : Action} (h : Own t a) (hs : w.step? q a = some w') :
    w.clock ≤ w'.clock ∧ ∀ u, u ≠ t → w'.tasks u = w.tasks u := by
  have others : ∀ {u : Nat} {o : Option Task}, u = t → ∀ v, v ≠ t →
      Function.update w.tasks u o v = w.tasks v :=
    fun hu _ hv => Function.update_of_ne (hu ▸ hv) _ _
  cases a with
  | start r => exact h.elim
  | fail u e => exact h.elim
  | pass d =>
    cases hs
    exact ⟨Nat.le_add_right _ _, fun _ _ => rfl⟩
  | act u tag =>
    simp only [World.step?] at hs
    split at hs
    · obtain ⟨_, _, rfl⟩ := Option.map_eq_some_iff.mp hs
      exact ⟨Nat.le_refl _, others h⟩
    · cases hs
      exact ⟨Nat.le_refl _, others h⟩
    · cases hs
  | finish u =>
    simp only [World.step?] at hs
    split at hs
    · cases hs
      exact ⟨Nat.le_refl _, others h⟩
    · cases hs

theorem own_run {actions : List Action} (ha : ∀ a ∈ actions, Own t a)
    (hs : w.run? q actions = some w') :
    w.clock ≤ w'.clock ∧ ∀ u, u ≠ t → w'.tasks u = w.tasks u := by
  induction actions generalizing w with
  | nil =>
    cases hs
    exact ⟨Nat.le_refl _, fun _ _ => rfl⟩
  | cons a rest ih =>
    obtain ⟨v, hv, hrest⟩ := Option.bind_eq_some_iff.mp hs
    obtain ⟨hclock, hothers⟩ := (ha a List.mem_cons_self).step hv
    obtain ⟨hclock', hothers'⟩ := ih (fun b hb => ha b (List.mem_cons_of_mem a hb)) hrest
    exact ⟨Nat.le_trans hclock hclock', fun u hu => (hothers' u hu).trans (hothers u hu)⟩

theorem not_failed_of_answer? {rows rows' : Rows} {clock : Instant} {tag : Tag} {e : Effect}
    {a : e.Answer} (h : answer? rows clock tag e = some (a, rows')) :
    Seen.failed ⟨e, a⟩ = false := by
  cases e with
  | call c =>
    cases h
    rfl
  | send c => rfl
  | now => rfl
  | sleepUntil wake => rfl
  | drawTag => rfl
  | tally c => rfl

/-- The task, if it goes on, will end as `Q` says, and if it ended, it ended so and left the rows as
they are. -/
structure SoloTask (fails : Bool) (t : Nat) (Q : Outcome Result) (w : World) : Prop where
  rest : ∀ task, w.tasks t = some task →
    ∃ c ≤ w.clock, task.rest.Solo fails Q w.rows c
  ended : ∀ result, .ended t result ∈ w.history → w.tasks t = none ∧ ∃ c, Q result w.rows c
  gone : w.tasks t = none → ∃ result, .ended t result ∈ w.history

theorem SoloTask.performed {Q : Outcome Result} (h : SoloTask fails t Q w) {request : Request}
    {s : Seen} {k : s.effect.Answer → Program Result} {rows : Rows}
    (ht : w.tasks t = some ⟨request, .effect s.effect k⟩) (hf : s.failed = true → fails = true)
    (ha : Answered w.rows w.clock s rows) :
    SoloTask fails t Q (w.performed t request s rows (k s.answer)) := by
  obtain ⟨c, hc, hsolo⟩ := h.rest _ ht
  refine ⟨fun task htask => ?_, fun result hr => ?_, fun hgone => ?_⟩
  · simp only [World.performed, Function.update_self, Option.some.injEq] at htask
    subst htask
    exact ⟨w.clock, Nat.le_refl _, hsolo w.clock s.answer rows hc hf ha⟩
  · rw [(h.ended result (ended_of_performed hr)).1] at ht
    cases ht
  · simp [World.performed] at hgone

theorem SoloTask.step {Q : Outcome Result} {a : Action} (h : SoloTask fails t Q w)
    (ha : Own t a ∨ fails = true ∧ ∃ error, a = .fail t error) (hs : w.step? q a = some w') :
    SoloTask fails t Q w' := by
  rcases ha with ha | ⟨hfails, error, rfl⟩
  · cases a with
    | start request => exact ha.elim
    | fail u error => exact ha.elim
    | pass d =>
      cases hs
      refine ⟨fun task ht => ?_, h.ended, h.gone⟩
      obtain ⟨c, hc, hsolo⟩ := h.rest task ht
      exact ⟨c, Nat.le_trans hc (Nat.le_add_right _ _), hsolo⟩
    | act u tag =>
      cases ha
      simp only [World.step?] at hs
      split at hs
      · rename_i request e k ht
        obtain ⟨⟨answer, rows⟩, hans, rfl⟩ := Option.map_eq_some_iff.mp hs
        refine h.performed (s := ⟨e, answer⟩) ht (fun hf => ?_) (answered_of_answer? hans)
        rw [not_failed_of_answer? hans] at hf
        cases hf
      · rename_i ht
        cases hs
        obtain ⟨c, hc, hsolo⟩ := h.rest _ ht
        refine ⟨fun task htask => ?_, fun result hr => ?_, fun hgone => ?_⟩
        · simp only [Function.update_self, Option.some.injEq] at htask
          subst htask
          exact ⟨c, hc, hsolo.unroll⟩
        · rw [(h.ended result hr).1] at ht
          cases ht
        · simp at hgone
      · cases hs
    | finish u =>
      cases ha
      simp only [World.step?] at hs
      split at hs
      · rename_i result ht
        cases hs
        obtain ⟨c, _, hsolo⟩ := h.rest _ ht
        refine ⟨fun task htask => by simp at htask, fun result' hr => ⟨by simp, ?_⟩,
          fun _ => ⟨result, List.mem_cons_self⟩⟩
        rcases List.mem_cons.mp hr with he | hr
        · cases he
          exact ⟨c, hsolo⟩
        · exact (h.ended result' hr).2
      · cases hs
  · simp only [World.step?] at hs
    split at hs
    · rename_i request cl k ht
      cases hs
      exact h.performed (s := ⟨.call cl, .error error⟩) ht (fun _ => hfails) rfl
    · cases hs

theorem solo_run {Q : Outcome Result} {actions : List Action}
    (ha : ∀ a ∈ actions, Own t a ∨ fails = true ∧ ∃ error, a = .fail t error)
    (h : SoloTask fails t Q w) (hs : w.run? q actions = some w') : SoloTask fails t Q w' := by
  induction actions generalizing w with
  | nil =>
    cases hs
    exact h
  | cons a rest ih =>
    obtain ⟨v, hv, hrest⟩ := Option.bind_eq_some_iff.mp hs
    exact ih (fun b hb => ha b (List.mem_cons_of_mem a hb))
      (h.step (ha a List.mem_cons_self) hv) hrest

/-- Where calls may fail, the rows are at any moment such as the task may leave in the end. -/
theorem SoloTask.outcome {Q : Outcome Result} (h : SoloTask true t Q w) :
    ∃ result c, Q result w.rows c := by
  cases ht : w.tasks t with
  | none =>
    obtain ⟨result, hr⟩ := h.gone ht
    exact ⟨result, (h.ended result hr).2⟩
  | some task =>
    obtain ⟨c, _, hsolo⟩ := h.rest task ht
    exact hsolo.unchanged

theorem answered_in_time (rows : Rows) (clock : Instant) (tag : Tag) (e : Effect) :
    ∃ d a rows', answer? rows (clock + d) tag e = some (a, rows') := by
  cases e with
  | call c => exact ⟨0, _, _, rfl⟩
  | send c => exact ⟨0, _, _, rfl⟩
  | now => exact ⟨0, _, _, rfl⟩
  | sleepUntil wake => exact ⟨wake, (), rows, if_pos (Nat.le_add_left _ _)⟩
  | drawTag => exact ⟨0, _, _, rfl⟩
  | tally c => exact ⟨0, _, _, rfl⟩

theorem run?_append {actions rest : List Action} {v : World} (h : w.run? q actions = some v) :
    w.run? q (actions ++ rest) = v.run? q rest := by
  induction actions generalizing w with
  | nil =>
    cases h
    rfl
  | cons a more ih =>
    obtain ⟨u, hu, hmore⟩ := Option.bind_eq_some_iff.mp h
    show ((w.step? q a).bind _) = _
    rw [hu]
    exact ih hmore

/-- What a pass of a loop leads to. -/
def afterPass {σ β α : Type} (body : σ → Program (Pass σ β)) (k : β → Program α) :
    Pass σ β → Program α
  | .again s => .loop body s k
  | .leave b => k b

theorem solo_part {α : Type} (p : Program α) {Q : Outcome α} {request : Request}
    (f : α → Program Result) {c : Instant} (hc : c ≤ w.clock)
    (ht : w.tasks t = some ⟨request, p.bind f⟩) (h : p.Solo fails Q w.rows c) :
    ∃ actions w' a c', (∀ b ∈ actions, Own t b) ∧ w.run? q actions = some w' ∧
      w'.tasks t = some ⟨request, f a⟩ ∧ c' ≤ w'.clock ∧ Q a w'.rows c' := by
  induction p generalizing w c with
  | done a => exact ⟨[], w, a, c, nofun, rfl, ht, hc, h⟩
  | effect e k ih =>
    obtain ⟨d, a, rows, hans⟩ := answered_in_time w.rows w.clock ⟨0⟩ e
    have hact : ({ w with clock := w.clock + d } : World).step? q (.act t ⟨0⟩) =
        some (({ w with clock := w.clock + d } : World).performed t request ⟨e, a⟩ rows
          ((k a).bind f)) := by
      simp only [World.step?, ht, Program.bind, hans]
      rfl
    have hsolo := h (w.clock + d) a rows (Nat.le_trans hc (Nat.le_add_right _ _))
      (fun hf => absurd hf (Bool.eq_false_iff.mp (not_failed_of_answer? hans)))
      (answered_of_answer? hans)
    obtain ⟨actions, w', b, c', hown, hrun, hrest⟩ := ih a f
      (w := ({ w with clock := w.clock + d } : World).performed t request ⟨e, a⟩ rows
        ((k a).bind f)) (Nat.le_refl _) (by simp [World.performed]) hsolo
    refine ⟨.pass d :: .act t ⟨0⟩ :: actions, w', b, c', by simpa [Own] using hown, ?_, hrest⟩
    show ((({ w with clock := w.clock + d } : World).step? q (.act t ⟨0⟩)).bind _) = some w'
    rw [hact]
    exact hrun
  | loop body start k ihb ih =>
    obtain ⟨I, ⟨n, hn⟩, hI⟩ := h
    induction n using Nat.strongRecOn generalizing w start c with
    | _ n ihn =>
      -- The pass is run first, and then what it leads to.
      let next := afterPass body fun b => (k b).bind f
      have hturn : w.step? q (.act t ⟨0⟩) = some { w with
          tasks := Function.update w.tasks t (some ⟨request, (body start).bind next⟩) } := by
        simp only [World.step?, ht, Program.bind]
        rfl
      obtain ⟨first, v, pass, c₁, hown₁, hrun₁, htask, hc₁, hpass⟩ := ihb start next
        (w := { w with
          tasks := Function.update w.tasks t (some ⟨request, (body start).bind next⟩) })
        hc (by simp) (hI n start w.rows c hn)
      have hfirst : w.run? q (.act t ⟨0⟩ :: first) = some v := by
        show ((w.step? q (.act t ⟨0⟩)).bind _) = some v
        rw [hturn]
        exact hrun₁
      have hown : ∀ b ∈ Action.act t ⟨0⟩ :: first, Own t b := by simpa [Own] using hown₁
      have hlast : ∃ actions w' a c', (∀ b ∈ actions, Own t b) ∧ v.run? q actions = some w' ∧
          w'.tasks t = some ⟨request, f a⟩ ∧ c' ≤ w'.clock ∧ Q a w'.rows c' := by
        cases pass with
        | again s =>
          obtain ⟨m, hlt, hm⟩ := hpass
          exact ihn m hlt s hc₁ htask hm
        | leave b => exact ih b f hc₁ htask hpass
      obtain ⟨last, w', a, c', hown₂, hrun₂, hrest⟩ := hlast
      refine ⟨(.act t ⟨0⟩ :: first) ++ last, w', a, c', fun b hb => ?_, ?_, hrest⟩
      · exact (List.mem_append.mp hb).elim (hown b) (hown₂ b)
      · rw [run?_append hfirst, hrun₂]

/-- A task that is left alone can be run to its end. -/
theorem solo_ends {Q : Outcome Result} (h : SoloTask fails t Q w) {task : Task}
    (ht : w.tasks t = some task) :
    ∃ actions w' result, (∀ a ∈ actions, Own t a) ∧ w.run? q actions = some w' ∧
      .ended t result ∈ w'.history := by
  obtain ⟨request, p⟩ := task
  obtain ⟨c, hc, hsolo⟩ := h.rest _ ht
  obtain ⟨actions, w', result, _, hown, hrun, htask, _⟩ :=
    solo_part (q := q) p .done hc (by rw [Program.bind_done]; exact ht) hsolo
  refine ⟨actions ++ [.finish t], { w' with
    tasks := Function.update w'.tasks t none
    history := .ended t result :: w'.history }, result, fun a ha => ?_, ?_, List.mem_cons_self⟩
  · rcases List.mem_append.mp ha with ha | ha
    · exact hown a ha
    · rw [List.mem_singleton.mp ha]
      rfl
  · rw [run?_append hrun]
    simp only [World.run?, World.step?, htask]
    rfl

/-- The task takes a step, if need be after a while. -/
def OwnStep (q : Queue) (t : Nat) (v v' : World) : Prop :=
  ∃ d tag, ({ v with clock := v.clock + d } : World).step? q (.act t tag) = some v'

theorem solo_part_acc {α : Type} (p : Program α) {Q : Outcome α} {request : Request}
    (f : α → Program Result) {c : Instant} (hc : c ≤ w.clock)
    (ht : w.tasks t = some ⟨request, p.bind f⟩) (h : p.Solo fails Q w.rows c)
    (hf : ∀ a v c, v.tasks t = some ⟨request, f a⟩ → c ≤ v.clock → Q a v.rows c →
      Acc (fun v' v => OwnStep q t v v') v) : Acc (fun v' v => OwnStep q t v v') w := by
  induction p generalizing w c with
  | done a => exact hf a w c ht hc h
  | effect e k ih =>
    refine Acc.intro w fun w' ⟨d, tag, hs⟩ => ?_
    simp only [World.step?, ht, Program.bind] at hs
    obtain ⟨⟨a, rows⟩, hans, rfl⟩ := Option.map_eq_some_iff.mp hs
    have hsolo := h (w.clock + d) a rows (Nat.le_trans hc (Nat.le_add_right _ _))
      (fun hfail => absurd hfail (Bool.eq_false_iff.mp (not_failed_of_answer? hans)))
      (answered_of_answer? hans)
    exact ih a f (w := ({ w with clock := w.clock + d } : World).performed t request ⟨e, a⟩ rows
      ((k a).bind f)) (Nat.le_refl _) (by simp [World.performed]) hsolo hf
  | loop body start k ihb ih =>
    obtain ⟨I, ⟨n, hn⟩, hI⟩ := h
    induction n using Nat.strongRecOn generalizing w start c with
    | _ n ihn =>
      refine Acc.intro w fun w' ⟨d, tag, hs⟩ => ?_
      simp only [World.step?, ht, Program.bind] at hs
      cases hs
      refine ihb start (afterPass body fun b => (k b).bind f)
        (Nat.le_trans hc (Nat.le_add_right _ _)) (Function.update_self _ _ _)
        (hI n start w.rows c hn) fun pass v c hv hc hpass => ?_
      cases pass with
      | again s =>
        obtain ⟨m, hlt, hm⟩ := hpass
        exact ihn m hlt s hc hv hm
      | leave b => exact ih b f hc hv hpass hf

/-- A task that is left alone takes finitely many steps. -/
theorem solo_acc {Q : Outcome Result} (h : SoloTask fails t Q w) :
    Acc (fun v' v => OwnStep q t v v') w := by
  have stuck : ∀ v : World, (∀ task, v.tasks t = some task → ∃ result, task.rest = .done result) →
      Acc (fun v' v => OwnStep q t v v') v := by
    refine fun v hv => Acc.intro v fun v' ⟨d, tag, hs⟩ => ?_
    simp only [World.step?] at hs
    split at hs
    · rename_i ht
      obtain ⟨_, he⟩ := hv _ ht
      cases he
    · rename_i ht
      obtain ⟨_, he⟩ := hv _ ht
      cases he
    · cases hs
  cases ht : w.tasks t with
  | none => exact stuck w fun task htask => by rw [ht] at htask; cases htask
  | some task =>
    obtain ⟨request, p⟩ := task
    obtain ⟨c, hc, hsolo⟩ := h.rest _ ht
    refine solo_part_acc p .done hc (by rw [Program.bind_done]; exact ht) hsolo
      fun a v _ hv _ _ => ?_
    refine stuck v fun task htask => ?_
    rw [hv] at htask
    cases htask
    exact ⟨a, rfl⟩

/-! ## A request that is served alone -/

def World.starting (q : Queue) (w : World) (r : Request) : World :=
  { w with
    tasks := Function.update w.tasks w.started (some ⟨r, (r.op q).run⟩)
    started := w.started + 1
    history := .started w.started r :: w.history }

/-- The request is served alone from the world to its end, and is told the result. -/
def ServedAlone (q : Queue) (w : World) (r : Request) (result : Result) (w' : World) : Prop :=
  ∃ actions, (∀ a ∈ actions, Own w.started a) ∧ w.run? q (.start r :: actions) = some w' ∧
    .ended w.started result ∈ w'.history

theorem soloTask_start {rule : Rule} (h : Reachable q rule w) {S : Setting} {r : Request}
    {P : Outcome Reply} (hsolo : (r.op q).Solo S P w.rows w.clock) :
    SoloTask S.fails w.started (S.ends P) (World.starting q w r) := by
  refine ⟨fun task htask => ?_, fun result hr => ?_, fun hgone => ?_⟩
  · simp only [World.starting, Function.update_self, Option.some.injEq] at htask
    subst htask
    exact ⟨w.clock, Nat.le_refl _, hsolo⟩
  · exact absurd (ended_of_started hr) ((h.untraced _ (Nat.le_refl _)).ended result)
  · simp [World.starting] at hgone

section
variable {rule : Rule} {S : Setting} {r : Request} {P : Outcome Reply}

/-- A request that is served alone. -/
theorem Reachable.served (h : Reachable q rule w) (hsolo : (r.op q).Solo S P w.rows w.clock)
    {actions : List Action}
    (ha : ∀ a ∈ actions, Own w.started a ∨ S.fails = true ∧ ∃ error, a = .fail w.started error)
    (hs : w.run? q (.start r :: actions) = some w') : SoloTask S.fails w.started (S.ends P) w' :=
  solo_run ha (soloTask_start h hsolo) hs

theorem Reachable.served_ended (h : Reachable q rule w)
    (hsolo : (r.op q).Solo S P w.rows w.clock) {actions : List Action}
    (ha : ∀ a ∈ actions, Own w.started a) (hs : w.run? q (.start r :: actions) = some w')
    {result : Result} (he : .ended w.started result ∈ w'.history) :
    ∃ c, S.ends P result w'.rows c :=
  ((h.served hsolo (fun a hmem => .inl (ha a hmem)) hs).ended result he).2

theorem Reachable.served_ends (h : Reachable q rule w)
    (hsolo : (r.op q).Solo S P w.rows w.clock) :
    ∃ actions w' result, (∀ a ∈ actions, Own w.started a) ∧
      w.run? q (.start r :: actions) = some w' ∧ .ended w.started result ∈ w'.history :=
  solo_ends (soloTask_start h hsolo) (Function.update_self _ _ _)

/-- Wherever a request that is served alone has come to, it can be served on to its end. -/
theorem Reachable.served_on (h : Reachable q rule w) (hsolo : (r.op q).Solo S P w.rows w.clock)
    {actions : List Action} (ha : ∀ a ∈ actions, Own w.started a)
    (hs : w.run? q (.start r :: actions) = some w') :
    ∃ more w'' result, (∀ a ∈ more, Own w.started a) ∧ w'.run? q more = some w'' ∧
      .ended w.started result ∈ w''.history := by
  have htask := h.served hsolo (fun a hmem => .inl (ha a hmem)) hs
  cases ht : w'.tasks w.started with
  | some task => exact solo_ends htask ht
  | none =>
    obtain ⟨result, hended⟩ := htask.gone ht
    exact ⟨[], w', result, nofun, rfl, hended⟩

end

end Shared

end LeaseQueue
