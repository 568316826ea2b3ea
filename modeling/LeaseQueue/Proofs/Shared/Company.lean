import LeaseQueue.Proofs.Shared.Obeys

/-
  A program in the company of other tasks.

  The program makes storage calls on the rows of a queue. Before, between and after
  its calls others make calls of their own, whichever they like, so the lists of
  actions are all the interleavings there are. An encounter is a call with the rows
  that it met; what it was answered and what it left follow from these.

  `p.CallsOnly G Q tr` says what the program does whatever its calls are answered, as
  `Obeys` does, and also that it makes calls and nothing else. So it comes to
  an end when it is left to itself (`Company.ends_alone`). What others do leaves such a
  program as it is, and what it does itself keeps to it, so it holds of the program in
  any company (`Company.abides_run`).
-/

namespace LeaseQueue

open Shared

namespace Shared

/-- A storage call that was made. -/
structure Encounter where
  /-- The program made it, and nobody else. -/
  own : Bool
  /-- The rows that the call met. -/
  before : Rows
  call : Call
  /-- Why the call failed, if it did. -/
  failure : Option StorageError

namespace Encounter

def answer (s : Encounter) : Except StorageError s.call.Answer :=
  match s.failure with
  | none => .ok (s.before.apply s.call).1
  | some e => .error e

def after (s : Encounter) : Rows :=
  match s.failure with
  | none => (s.before.apply s.call).2
  | some _ => s.before

def seen (s : Encounter) : Seen := ⟨.call s.call, s.answer⟩

end Encounter

/-- A program among other tasks, and the rows of the queue that they all use. -/
structure Company (α : Type) where
  rows : Rows
  /-- What is left for the program to do. -/
  rest : Program α
  /-- The calls that were made, the latest first. -/
  calls : List Encounter

namespace Company

variable {α : Type}

inductive Action where
  /-- Lets the program make its next call, which fails if a reason is given. -/
  | act (failure : Option StorageError)
  /-- Lets somebody else make a call. -/
  | other (c : Call)
  deriving DecidableEq, Repr

/-- The company after an action; `none` where the action cannot happen. -/
def step? (w : Company α) : Action → Option (Company α)
  | .act failure =>
    match w.rest with
    | .effect (.call c) k =>
      let s : Encounter := ⟨true, w.rows, c, failure⟩
      some ⟨s.after, k s.answer, s :: w.calls⟩
    | _ => none
  | .other c =>
    let s : Encounter := ⟨false, w.rows, c, none⟩
    some ⟨s.after, w.rest, s :: w.calls⟩

def run? : List Action → Company α → Option (Company α)
  | [], w => some w
  | a :: rest, w => (w.step? a).bind (run? rest)

def own (w : Company α) : List Encounter := w.calls.filter Encounter.own

def seen (w : Company α) : List Seen := w.own.map Encounter.seen

end Company

end Shared

/-! ## Programs that make calls and nothing else -/

namespace Program

variable {G : Guard} {α : Type} {Q : Post α} {tr : List Seen}

/-- Whatever it is answered, the program makes only calls that the guard permits, and ends as `Q`
says. -/
def CallsOnly (G : Guard) : {α : Type} → Program α → Post α → List Seen → Prop
  | _, .done a, Q, tr => Q tr a
  | _, .effect (.call c) k, Q, tr =>
    G tr (.call c) ∧ ∀ a, (k a).CallsOnly G Q (⟨.call c, a⟩ :: tr)
  | _, _, _, _ => False

theorem CallsOnly.done_or_asks {p : Program α} (h : p.CallsOnly G Q tr) :
    (∃ a, p = .done a ∧ Q tr a) ∨ ∃ c k, p = .effect (.call c) k ∧ G tr (.call c) := by
  cases p with
  | done a => exact .inl ⟨a, rfl, h⟩
  | effect e k =>
    cases e with
    | call c => exact .inr ⟨c, k, rfl, h.1⟩
    | _ => exact h.elim
  | loop body start k => exact h.elim

theorem CallsOnly.ite {b : Prop} [Decidable b] {p p' : Program α} (hp : b → p.CallsOnly G Q tr)
    (hp' : ¬b → p'.CallsOnly G Q tr) : (if b then p else p').CallsOnly G Q tr := by
  split
  · exact hp ‹_›
  · exact hp' ‹_›

end Program

/-! ## Runs -/

namespace Shared.Company

variable {G : Guard} {α : Type} {Q : Post α} {w w' : Company α} {a : Action}
  {actions : List Action} {start rows : Rows} {s : Encounter} {calls : List Encounter}

inductive Step (w : Company α) : Company α → Prop where
  | own (s : Encounter) (k : Except StorageError s.call.Answer → Program α) (hown : s.own = true)
    (hs : s.before = w.rows) (hrest : w.rest = .effect (.call s.call) k) :
    Step w ⟨s.after, k s.answer, s :: w.calls⟩
  | other (s : Encounter) (hother : s.own = false) (hs : s.before = w.rows) :
    Step w ⟨s.after, w.rest, s :: w.calls⟩

theorem step_of_step? (hs : w.step? a = some w') : Step w w' := by
  cases a with
  | other c =>
    cases hs
    exact .other ⟨false, w.rows, c, none⟩ rfl rfl
  | act failure =>
    simp only [step?] at hs
    split at hs
    · rename_i c k hrest
      cases hs
      exact .own ⟨true, w.rows, c, failure⟩ k rfl rfl hrest
    · cases hs

theorem run_keeps {P : Company α → Prop} (hstep : ∀ {v v'}, P v → Step v v' → P v') (h : P w)
    (hr : w.run? actions = some w') : P w' := by
  induction actions generalizing w with
  | nil =>
    cases hr
    exact h
  | cons a rest ih =>
    obtain ⟨v, hv, hrest⟩ := Option.bind_eq_some_iff.mp hr
    exact ih (hstep h (step_of_step? hv)) hrest

/-! ## A program and what others do -/

/-- After what the program has seen, the rest of it makes only calls that are permitted, and each
call that it made was permitted after what it had seen by then. -/
structure Abides (G : Guard) (Q : Post α) (w : Company α) : Prop where
  rest : w.rest.CallsOnly G Q w.seen
  asked : ∀ s past, s :: past <:+ w.own → G (past.map Encounter.seen) (.call s.call)

theorem Abides.step (h : Abides G Q w) (hs : Step w w') : Abides G Q w' := by
  cases hs with
  | other s hother _ =>
    have hown : own ⟨s.after, w.rest, s :: w.calls⟩ = w.own :=
      List.filter_cons_of_neg (by simp [hother])
    exact ⟨by rw [seen, hown]; exact h.rest, hown ▸ h.asked⟩
  | own s k hown _ hrest =>
    have hcalls := h.rest
    rw [hrest] at hcalls
    have hown : own ⟨s.after, k s.answer, s :: w.calls⟩ = s :: w.own :=
      List.filter_cons_of_pos hown
    refine ⟨by rw [seen, hown]; exact hcalls.2 s.answer, fun o past hpast => ?_⟩
    rw [hown] at hpast
    rcases List.suffix_cons_iff.mp hpast with he | hpast
    · cases he
      exact hcalls.1
    · exact h.asked o past hpast

/-- What a program does whatever it is answered, it does in any company. -/
theorem abides_run {p : Program α} (h : p.CallsOnly G Q [])
    (hr : run? actions ⟨start, p, []⟩ = some w) : Abides G Q w := by
  refine run_keeps Abides.step ⟨h, fun s past hs => ?_⟩ hr
  exact absurd (List.suffix_nil.mp hs) (List.cons_ne_nil s past)

/-- Left to itself, a program that makes only calls comes to an end. -/
theorem ends_alone {p : Program α} {tr : List Seen} (h : p.CallsOnly G Q tr) (rows : Rows)
    (calls : List Encounter) :
    ∃ n w, run? (List.replicate n (.act none)) ⟨rows, p, calls⟩ = some w ∧
      ∃ a, w.rest = .done a := by
  induction p generalizing tr rows calls with
  | done a => exact ⟨0, _, rfl, a, rfl⟩
  | effect e k ih =>
    cases e with
    | call c =>
      let s : Encounter := ⟨true, rows, c, none⟩
      obtain ⟨n, w, hr, hend⟩ := ih s.answer (h.2 s.answer) s.after (s :: calls)
      exact ⟨n + 1, w, hr, hend⟩
    | _ => exact h.elim
  | loop body start k => exact h.elim

/-! ## One call after the other -/

/-- From the rows at the start on, each call met what the call before it had left. -/
inductive Linked (start : Rows) : List Encounter → Rows → Prop where
  | nil : Linked start [] start
  | cons {s : Encounter} {calls : List Encounter} :
    Linked start calls s.before → Linked start (s :: calls) s.after

theorem Linked.step (h : Linked start w.calls w.rows) (hs : Step w w') :
    Linked start w'.calls w'.rows := by
  cases hs with
  | other s _ hs => exact .cons (hs ▸ h)
  | own s k _ hs _ => exact .cons (hs ▸ h)

theorem linked_run {p : Program α} (hr : run? actions ⟨start, p, []⟩ = some w) :
    Linked start w.calls w.rows :=
  run_keeps (P := fun w => Linked start w.calls w.rows) Linked.step .nil hr

theorem linked_cons :
    Linked start (s :: calls) rows ↔ Linked start calls s.before ∧ rows = s.after := by
  constructor
  · rintro ⟨⟩
    exact ⟨‹_›, rfl⟩
  · rintro ⟨h, rfl⟩
    exact .cons h

theorem Linked.met {later : List Encounter} (h : Linked start (later ++ s :: calls) rows) :
    Linked start calls s.before := by
  induction later generalizing rows with
  | nil => exact (linked_cons.mp h).1
  | cons o later ih => exact ih (linked_cons.mp h).1

theorem Linked.eq_start (h : Linked start calls rows) (hsame : ∀ s ∈ calls, s.after = s.before) :
    rows = start := by
  induction h with
  | nil => rfl
  | @cons s calls _ ih =>
    rw [hsame s List.mem_cons_self, ih fun o ho => hsame o (List.mem_cons_of_mem s ho)]

/-- If something does not hold of what a call left and does hold later on, a call in between brought
it about. -/
theorem Linked.brought {P : Rows → Prop} {between : List Encounter}
    (h : Linked start (between ++ s :: calls) rows) (hs : ¬P s.after) (hrows : P rows) :
    ∃ o ∈ between, ¬P o.before ∧ P o.after := by
  induction between generalizing rows with
  | nil =>
    rw [(linked_cons.mp h).2] at hrows
    exact absurd hrows hs
  | cons o between ih =>
    obtain ⟨hbefore, rfl⟩ := linked_cons.mp h
    by_cases ho : P o.before
    · obtain ⟨o', ho', hbrought⟩ := ih hbefore ho
      exact ⟨o', List.mem_cons_of_mem o ho', hbrought⟩
    · exact ⟨o, List.mem_cons_self, ho, hrows⟩

end Shared.Company

end LeaseQueue
