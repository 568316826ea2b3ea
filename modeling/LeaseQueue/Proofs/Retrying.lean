import Mathlib.Algebra.Ring.Nat
import Mathlib.Order.Bounds.Basic
import Mathlib.Data.Nat.Find
import LeaseQueue.Settings.Basic
import LeaseQueue.Simulation.Machine

/-
  What becomes of a call that is tried again.

  A host performs the effects of a program: it answers the calls, fails some of
  them, and lets time pass. It may fail them by its own state, by the time or by
  their number, and each call may take its time. `H.Runs p s a s' log` says what
  the program `p` comes to on the host, and what it asked for on the way.

  The pauses between the attempts at a call are `d 0 = initialBackoff` and
  `d (i + 1) = min (2 * d i) maxBackoff`. The retries that both budgets allow are
  the most that are no more than `maxRetries` and whose pauses add up to no more
  than `maxWait`. A call that is tried again is then one call: it comes to what
  the first answer that is no passing failure says, if that comes within these
  retries, and else to the last failure, with nothing applied. The cap on the
  pauses holds from the second one on; the first may exceed it.
-/

namespace LeaseQueue

/-! ## The schedule -/

namespace RetryConfig

variable (cfg : RetryConfig)

/-- The pause after one more failure than the given number. -/
def pause : Nat → Duration
  | 0 => cfg.initialBackoff
  | i + 1 => min (2 * pause i) cfg.maxBackoff

def waited (n : Nat) : Duration := ((List.range n).map cfg.pause).sum

/-- How many retries both budgets allow. -/
def retries : Nat := Nat.findGreatest (fun n => cfg.waited n ≤ cfg.maxWait) cfg.maxRetries

theorem waited_succ (n : Nat) : cfg.waited (n + 1) = cfg.waited n + cfg.pause n := by
  simp [waited, List.range_succ]

theorem waited_mono : Monotone cfg.waited :=
  monotone_nat_of_le_succ fun n => by
    rw [waited_succ]
    exact Nat.le_add_right ..

theorem waited_retries : cfg.waited cfg.retries ≤ cfg.maxWait :=
  Nat.findGreatest_spec (P := fun n => cfg.waited n ≤ cfg.maxWait) (Nat.zero_le _) (Nat.zero_le _)

theorem retries_greatest :
    IsGreatest {n | n ≤ cfg.maxRetries ∧ cfg.waited n ≤ cfg.maxWait} cfg.retries :=
  ⟨⟨Nat.findGreatest_le _, cfg.waited_retries⟩, fun _ hn => Nat.le_findGreatest hn.1 hn.2⟩

/-- One more retry is refused exactly once the budgets are spent. -/
theorem lt_retries_iff (i : Nat) :
    i < cfg.retries ↔ i + 1 ≤ cfg.maxRetries ∧ cfg.waited (i + 1) ≤ cfg.maxWait := by
  constructor
  · intro h
    exact ⟨h.trans_le (Nat.findGreatest_le _), (cfg.waited_mono h).trans cfg.waited_retries⟩
  · exact fun h => cfg.retries_greatest.2 h

/-- Where the attempts stand after the given number of failures. -/
def standing (i : Nat) : Attempts := ⟨i, cfg.waited i, cfg.pause i⟩

@[simp] theorem failed_standing (i : Nat) : (cfg.standing i).failed = i := rfl

@[simp] theorem backoff_standing (i : Nat) : (cfg.standing i).backoff = cfg.pause i := rfl

theorem next_standing (i : Nat) : cfg.next (cfg.standing i) = cfg.standing (i + 1) := by
  rw [standing, standing, next, waited_succ, pause]

theorem givesUp_iff (i : Nat) : cfg.givesUp (cfg.standing i) = true ↔ cfg.retries ≤ i := by
  rw [← not_lt, lt_retries_iff, waited_succ, not_and_or, not_le, not_le]
  show (decide (cfg.maxRetries < i + 1) || decide (cfg.maxWait < cfg.waited i + cfg.pause i)) = true
    ↔ _
  rw [Bool.or_eq_true, decide_eq_true_iff, decide_eq_true_iff]

theorem pause_succ_le (i : Nat) : cfg.pause (i + 1) ≤ cfg.maxBackoff := Nat.min_le_right ..

end RetryConfig

/-! ## Hosts -/

/-- Performs the effects of a program from one state to the next. -/
structure Host (σ : Type) where
  perform : σ → (e : Effect) → e.Answer × σ
  /-- To read the clock changes nothing. -/
  perform_now : ∀ s, (perform s .now).2 = s

/-- What a program asked of its host. -/
inductive Deed where
  | call (c : Call)
  /-- It waited for the time. -/
  | pause (d : Duration)
  deriving DecidableEq, Repr

def Deed.call? : Deed → Option Call
  | .call c => some c
  | .pause _ => none

def Deed.pause? : Deed → Option Duration
  | .call _ => none
  | .pause d => some d

def callsOf (log : List Deed) : List Call := log.filterMap Deed.call?

def pausesOf (log : List Deed) : List Duration := log.filterMap Deed.pause?

namespace Host

variable {σ τ : Type} (H : Host σ)

def clock (s : σ) : Instant := (H.perform s .now).1

def deeds (s : σ) : Effect → List Deed
  | .call c => [.call c]
  | .sleepUntil wake => [.pause (wake - H.clock s)]
  | _ => []

/-- From the state `s` on, the program comes to the result and leaves the state `s'`. -/
inductive Runs : {α : Type} → Program α → σ → α → σ → List Deed → Prop where
  | done {α : Type} (a : α) (s : σ) : Runs (.done a) s a s []
  | effect {α : Type} {e : Effect} {k : e.Answer → Program α} {s s' : σ} {a : α}
    {log : List Deed} : Runs (k (H.perform s e).1) (H.perform s e).2 a s' log →
    Runs (.effect e k) s a s' (H.deeds s e ++ log)
  | loop {α ρ β : Type} {body : ρ → Program (Pass ρ β)} {start : ρ} {k : β → Program α}
    {s s' : σ} {a : α} {log : List Deed} : Runs (Program.unroll body start k) s a s' log →
    Runs (.loop body start k) s a s' log

variable {H} {α : Type} {s s' : σ} {a : α} {log : List Deed}

theorem runs_done {v : α} : H.Runs (.done v) s a s' log ↔ a = v ∧ s' = s ∧ log = [] := by
  constructor
  · rintro ⟨⟩
    exact ⟨rfl, rfl, rfl⟩
  · rintro ⟨rfl, rfl, rfl⟩
    exact .done a s'

theorem runs_effect {e : Effect} {k : e.Answer → Program α} :
    H.Runs (.effect e k) s a s' log ↔
      ∃ rest, H.Runs (k (H.perform s e).1) (H.perform s e).2 a s' rest ∧
        log = H.deeds s e ++ rest := by
  constructor
  · rintro ⟨⟩
    exact ⟨_, ‹_›, rfl⟩
  · rintro ⟨rest, h, rfl⟩
    exact .effect h

theorem runs_loop {ρ β : Type} {body : ρ → Program (Pass ρ β)} {start : ρ} {k : β → Program α} :
    H.Runs (.loop body start k) s a s' log ↔ H.Runs (Program.unroll body start k) s a s' log := by
  constructor
  · rintro ⟨⟩
    assumption
  · exact .loop

variable (H) (c : Call)

def answer (s : σ) : Except StorageError c.Answer := (H.perform s (.call c)).1

def after (s : σ) : σ := (H.perform s (.call c)).2

def rest (d : Duration) (s : σ) : σ := (H.perform s (.sleepUntil (H.clock s + d))).2

/-- The state in which the attempt sets out that comes after the given number of failures. -/
def setsOut (cfg : RetryConfig) (s : σ) : Nat → σ
  | 0 => s
  | i + 1 => H.rest (cfg.pause i) (H.after c (setsOut cfg s i))

/-- The host fails the call for now. -/
def Falters (s : σ) : Prop := ∃ e, H.answer c s = .error e ∧ e.transient = true

/-- The attempts at a call from some point on. -/
def trying (cfg : RetryConfig) (c : Call) (st : Attempts) :
    Program (Except StorageError c.Answer) := .loop (cfg.attempt c) st .done

theorem unroll_trying (cfg : RetryConfig) (st : Attempts) :
    Program.unroll (cfg.attempt c) st .done = .effect (.call c) fun
      | .ok a => .done (.ok a)
      | .error e =>
        if e.transient = false then .done (.error e)
        else if cfg.givesUp st then .done (.error (.exhausted (st.failed + 1) e))
        else .effect .now fun t => .effect (.sleepUntil (t + st.backoff)) fun _ =>
          trying cfg c (cfg.next st) := by
  refine congrArg (Program.effect (.call c)) (funext fun r => ?_)
  cases r with
  | ok a => rfl
  | error e =>
    simp only [Program.bind, Bool.not_eq_true']
    split
    · rfl
    · split <;> rfl

variable {H c} {cfg : RetryConfig} {r : Except StorageError c.Answer} {st : Attempts}

theorem runs_trying {a : Except StorageError c.Answer} (ha : H.answer c s = a) :
    H.Runs (trying cfg c st) s r s' log ↔ ∃ rest, log = .call c :: rest ∧
      H.Runs (match a with
        | .ok a => .done (.ok a)
        | .error e =>
          if e.transient = false then .done (.error e)
          else if cfg.givesUp st then .done (.error (.exhausted (st.failed + 1) e))
          else .effect .now fun t => .effect (.sleepUntil (t + st.backoff)) fun _ =>
            trying cfg c (cfg.next st)) (H.after c s) r s' rest := by
  subst ha
  rw [trying, runs_loop, unroll_trying, runs_effect]
  exact exists_congr fun rest => and_comm

theorem runs_answered (h : ¬H.Falters c s) : H.Runs (trying cfg c st) s r s' log ↔
    r = H.answer c s ∧ s' = H.after c s ∧ log = [.call c] := by
  rw [runs_trying rfl]
  cases ha : H.answer c s with
  | ok a => simp [runs_done, and_comm, and_assoc]
  | error e =>
    have ht : e.transient = false := Bool.eq_false_iff.mpr fun ht => h ⟨e, ha, ht⟩
    simp [ht, runs_done, and_comm, and_assoc]

theorem runs_exhausted {e : StorageError} (he : H.answer c s = .error e) (ht : e.transient = true)
    (hg : cfg.givesUp st = true) : H.Runs (trying cfg c st) s r s' log ↔
      r = .error (.exhausted (st.failed + 1) e) ∧ s' = H.after c s ∧ log = [.call c] := by
  simp [runs_trying he, ht, hg, runs_done, and_comm, and_assoc]

theorem runs_again {e : StorageError} (he : H.answer c s = .error e) (ht : e.transient = true)
    (hg : cfg.givesUp st = false) : H.Runs (trying cfg c st) s r s' log ↔
      ∃ rest, log = .call c :: .pause st.backoff :: rest ∧
        H.Runs (trying cfg c (cfg.next st)) (H.rest st.backoff (H.after c s)) r s' rest := by
  simp [runs_trying he, ht, hg, runs_effect, deeds, H.perform_now, clock, rest]

/-- The attempts that fail, each with the pause after it. -/
def failures (cfg : RetryConfig) (c : Call) (k : Nat) : List Deed :=
  (List.range k).flatMap fun i => [.call c, .pause (cfg.pause i)]

theorem failures_succ (k : Nat) :
    failures cfg c (k + 1) = failures cfg c k ++ [.call c, .pause (cfg.pause k)] := by
  simp [failures, List.range_succ]

theorem runs_failures {k : Nat} (hk : k ≤ cfg.retries)
    (h : ∀ i < k, H.Falters c (H.setsOut c cfg s i)) :
    H.Runs ((Program.call c).retrying cfg) s r s' log ↔ ∃ rest, log = failures cfg c k ++ rest ∧
      H.Runs (trying cfg c (cfg.standing k)) (H.setsOut c cfg s k) r s' rest := by
  induction k generalizing log with
  | zero =>
    have hp : (Program.call c).retrying cfg = trying cfg c (cfg.standing 0) := Program.bind_done _
    simp [hp, failures, setsOut]
  | succ k ih =>
    obtain ⟨e, he, ht⟩ := h k k.lt_succ_self
    have hg : cfg.givesUp (cfg.standing k) = false := by
      rw [← Bool.not_eq_true, cfg.givesUp_iff]
      omega
    rw [ih (by omega) fun i hi => h i (by omega)]
    simp only [runs_again he ht hg, failures_succ, cfg.next_standing]
    constructor
    · rintro ⟨_, rfl, rest, rfl, hrest⟩
      exact ⟨rest, by simp, hrest⟩
    · rintro ⟨rest, rfl, hrest⟩
      exact ⟨_, by simp, rest, rfl, hrest⟩

theorem callsOf_failures (k : Nat) : callsOf (failures cfg c k) = List.replicate k c := by
  induction k with
  | zero => rfl
  | succ k ih =>
    rw [failures_succ, callsOf, List.filterMap_append, ← callsOf, ih, List.replicate_succ']
    rfl

theorem pausesOf_failures (k : Nat) :
    pausesOf (failures cfg c k) = (List.range k).map cfg.pause := by
  induction k with
  | zero => rfl
  | succ k ih =>
    rw [failures_succ, pausesOf, List.filterMap_append, ← pausesOf, ih, List.range_succ,
      List.map_append]
    rfl

/-- The attempts that fail for now and the one that comes after them. -/
def course (cfg : RetryConfig) (c : Call) (k : Nat) : List Deed := failures cfg c k ++ [.call c]

theorem callsOf_course (k : Nat) : callsOf (course cfg c k) = List.replicate (k + 1) c := by
  rw [course, callsOf, List.filterMap_append, ← callsOf, callsOf_failures, List.replicate_succ']
  rfl

theorem pausesOf_course (k : Nat) : pausesOf (course cfg c k) = (List.range k).map cfg.pause := by
  rw [course, pausesOf, List.filterMap_append, ← pausesOf, pausesOf_failures]
  exact List.append_nil _

/-- What the attempt comes to that follows the failures and makes no pause is what the call comes
to. -/
theorem runs_course {k : Nat} (hk : k ≤ cfg.retries)
    (h : ∀ i < k, H.Falters c (H.setsOut c cfg s i)) {a : Except StorageError c.Answer}
    (hlast : ∀ rest, H.Runs (trying cfg c (cfg.standing k)) (H.setsOut c cfg s k) r s' rest ↔
      r = a ∧ s' = H.after c (H.setsOut c cfg s k) ∧ rest = [.call c]) :
    H.Runs ((Program.call c).retrying cfg) s r s' log ↔
      r = a ∧ s' = H.after c (H.setsOut c cfg s k) ∧ log = course cfg c k := by
  rw [runs_failures hk h]
  simp only [hlast]
  constructor
  · rintro ⟨_, rfl, rfl, rfl, rfl⟩
    exact ⟨rfl, rfl, rfl⟩
  · rintro ⟨rfl, rfl, rfl⟩
    exact ⟨_, rfl, rfl, rfl, rfl⟩

theorem runs_retrying_answered {k : Nat} (hk : k ≤ cfg.retries)
    (h : ∀ i < k, H.Falters c (H.setsOut c cfg s i)) (hs : ¬H.Falters c (H.setsOut c cfg s k)) :
    H.Runs ((Program.call c).retrying cfg) s r s' log ↔
      r = H.answer c (H.setsOut c cfg s k) ∧ s' = H.after c (H.setsOut c cfg s k) ∧
        log = course cfg c k :=
  runs_course hk h fun _ => runs_answered hs

theorem runs_retrying_exhausted (h : ∀ i < cfg.retries, H.Falters c (H.setsOut c cfg s i))
    {e : StorageError} (he : H.answer c (H.setsOut c cfg s cfg.retries) = .error e)
    (ht : e.transient = true) :
    H.Runs ((Program.call c).retrying cfg) s r s' log ↔
      r = .error (.exhausted (cfg.retries + 1) e) ∧
        s' = H.after c (H.setsOut c cfg s cfg.retries) ∧ log = course cfg c cfg.retries :=
  runs_course le_rfl h fun _ => runs_exhausted he ht ((cfg.givesUp_iff _).mpr le_rfl)

/-- Every run makes some of the pauses, the first ones. -/
theorem Runs.log_eq (h : H.Runs ((Program.call c).retrying cfg) s r s' log) :
    ∃ k ≤ cfg.retries, log = course cfg c k := by
  by_cases hall : ∀ i ≤ cfg.retries, H.Falters c (H.setsOut c cfg s i)
  · obtain ⟨e, he, ht⟩ := hall cfg.retries le_rfl
    exact ⟨_, le_rfl, ((runs_retrying_exhausted (fun i hi => hall i hi.le) he ht).mp h).2.2⟩
  · push Not at hall
    -- The first attempt that is answered ends the call.
    classical
    have hfirst := Nat.find_spec hall
    have hbefore : ∀ i < Nat.find hall, H.Falters c (H.setsOut c cfg s i) := fun i hi => by
      have := Nat.find_min hall hi
      push Not at this
      exact this (hi.le.trans hfirst.1)
    exact ⟨_, hfirst.1, ((runs_retrying_answered hfirst.1 hbefore hfirst.2).mp h).2.2⟩

/-! ## One call -/

/-- What of a host's state is its store: neither a call that fails for now nor a wait changes it. -/
structure StoreView (H : Host σ) (τ : Type) where
  store : σ → τ
  unapplied : ∀ c s, H.Falters c s → store (H.after c s) = store s
  at_rest : ∀ d s, store (H.rest d s) = store s

theorem StoreView.store_setsOut (v : H.StoreView τ) {k : Nat}
    (h : ∀ i < k, H.Falters c (H.setsOut c cfg s i)) :
    v.store (H.setsOut c cfg s k) = v.store s := by
  induction k with
  | zero => rfl
  | succ k ih =>
    calc v.store (H.setsOut c cfg s (k + 1))
        = v.store (H.after c (H.setsOut c cfg s k)) := v.at_rest ..
      _ = v.store (H.setsOut c cfg s k) := v.unapplied c _ (h k k.lt_succ_self)
      _ = v.store s := ih fun i hi => h i (hi.trans k.lt_succ_self)

/-- A call that is tried again is one call. After `k` passing failures that the budgets allow it
comes to the next answer and to what that call leaves, from the store that was there before; after
more of them to the last failure, with the store unchanged. It makes one call more than it makes
retries, and before each retry the pause that is due. -/
theorem retrying_refines (cfg : RetryConfig) (H : Host σ) (v : H.StoreView τ) (c : Call) (s : σ)
    (k : Nat) (hk : ∀ i < k, H.Falters c (H.setsOut c cfg s i)) :
    IsGreatest {n | n ≤ cfg.maxRetries ∧ cfg.waited n ≤ cfg.maxWait} cfg.retries ∧
    (k ≤ cfg.retries → ¬H.Falters c (H.setsOut c cfg s k) →
      v.store (H.setsOut c cfg s k) = v.store s ∧
      ∃ log, callsOf log = List.replicate (k + 1) c ∧
        pausesOf log = (List.range k).map cfg.pause ∧
        ∀ r s' log', H.Runs ((Program.call c).retrying cfg) s r s' log' ↔
          r = H.answer c (H.setsOut c cfg s k) ∧ s' = H.after c (H.setsOut c cfg s k) ∧
            log' = log) ∧
    (cfg.retries < k → ∃ e, H.answer c (H.setsOut c cfg s cfg.retries) = .error e ∧
      e.transient = true ∧ ∃ t, v.store t = v.store s ∧
      ∃ log, callsOf log = List.replicate (cfg.retries + 1) c ∧
        pausesOf log = (List.range cfg.retries).map cfg.pause ∧
        (pausesOf log).sum ≤ cfg.maxWait ∧
        ∀ r s' log', H.Runs ((Program.call c).retrying cfg) s r s' log' ↔
          r = .error (.exhausted (cfg.retries + 1) e) ∧ s' = t ∧ log' = log) := by
  refine ⟨cfg.retries_greatest, fun hle hs => ?_, fun hlt => ?_⟩
  · exact ⟨v.store_setsOut hk, course cfg c k, callsOf_course k, pausesOf_course k,
      fun _ _ _ => runs_retrying_answered hle hk hs⟩
  · have hbefore : ∀ i < cfg.retries, H.Falters c (H.setsOut c cfg s i) :=
      fun i hi => hk i (hi.trans hlt)
    obtain ⟨e, he, ht⟩ := hk cfg.retries hlt
    refine ⟨e, he, ht, H.after c (H.setsOut c cfg s cfg.retries), ?_, course cfg c cfg.retries,
      callsOf_course _, pausesOf_course _, ?_, fun _ _ _ => runs_retrying_exhausted hbefore he ht⟩
    · rw [v.unapplied c _ ⟨e, he, ht⟩, v.store_setsOut hbefore]
    · rw [pausesOf_course]
      exact cfg.waited_retries

end Host

/-- The machine as a host of programs on the rows under the key. -/
def Simulation.Machine.host (key : String) : Host Machine :=
  ⟨fun m e => m.perform key e, fun _ => rfl⟩

namespace Simulation.Machine

variable {key : String} {c : Call} {m : Machine} {cfg : RetryConfig}

theorem host_falters : (host key).Falters c m ↔ 0 < m.outages.toNat := by
  show (∃ e, (m.serve key c).1 = .error e ∧ e.transient = true) ↔ _
  unfold serve
  split
  · simp [*]
  · exact ⟨fun _ => Nat.pos_of_ne_zero fun h0 => ‹m.outages ≠ 0› (UInt64.toNat_inj.mp h0),
      fun _ => ⟨_, rfl, rfl⟩⟩

theorem outages_after : ((host key).after c m).outages.toNat = m.outages.toNat - 1 := by
  show (m.serve key c).2.outages.toNat = _
  unfold serve
  split
  · simp [*]
  · have hpos : 0 < m.outages.toNat :=
      Nat.pos_of_ne_zero fun h0 => ‹m.outages ≠ 0› (UInt64.toNat_inj.mp h0)
    exact UInt64.toNat_sub_of_le _ _ (UInt64.le_iff_toNat_le.mpr hpos)

theorem host_falters_at (i : Nat) :
    (host key).Falters c ((host key).setsOut c cfg m i) ↔ i < m.outages.toNat := by
  have houtages : ((host key).setsOut c cfg m i).outages.toNat = m.outages.toNat - i := by
    induction i with
    | zero => rfl
    | succ i ih => exact outages_after.trans (congrArg (· - 1) ih)
  rw [host_falters, houtages]
  omega

/-- The store of the machine, which a failure leaves as it was. -/
def view (key : String) : (host key).StoreView Store where
  store := store
  unapplied c m h := by
    have hne : m.outages ≠ 0 := by
      rintro h0
      rw [host_falters, h0] at h
      exact h.false
    show (m.serve key c).2.store = _
    rw [serve, if_neg hne]
  at_rest _ _ := rfl

end Simulation.Machine

open Simulation in
/-- Two failures are passed over by the usual settings, and one is too many where the wait may take
no more than the first pause. -/
theorem retrying_refines_outage :
    (∃ log, pausesOf log = [50, 100] ∧ ∀ r m log',
      (Machine.host "q").Runs ((Program.call (.swapCell .counter none 1)).retrying {})
        { outages := 2 } r m log' ↔
      r = .ok .swapped ∧ m = { store := [("q", ⟨{ counter := some 1 }, [], []⟩)], clock := 150 } ∧
        log' = log) ∧
    ∃ log, pausesOf log = [50] ∧ ∀ r m log',
      (Machine.host "q").Runs
        ((Program.call (.swapCell .counter none 1)).retrying { maxWait := 149 })
        { outages := 2 } r m log' →
      r = .error (.exhausted 2 (.unavailable "injected failure: swap_cell")) ∧ m.store = [] := by
  have hfail (cfg : RetryConfig) (i : Nat) :
      (Machine.host "q").Falters (.swapCell .counter none 1)
        ((Machine.host "q").setsOut (.swapCell .counter none 1) cfg { outages := 2 } i) ↔ i < 2 :=
    Machine.host_falters_at i
  constructor
  · obtain ⟨-, hle, -⟩ := Host.retrying_refines {} (Machine.host "q") (Machine.view "q")
      (.swapCell .counter none 1) { outages := 2 } 2 fun i hi => (hfail {} i).mpr hi
    obtain ⟨-, log, -, hpauses, hruns⟩ := hle (by decide) ((hfail {} 2).not.mpr (by decide))
    exact ⟨log, hpauses, hruns⟩
  · obtain ⟨-, -, hlt⟩ := Host.retrying_refines { maxWait := 149 } (Machine.host "q")
      (Machine.view "q") (.swapCell .counter none 1) { outages := 2 } 2
      fun i hi => (hfail { maxWait := 149 } i).mpr hi
    obtain ⟨e, he, -, m, hm, log, -, hpauses, -, hruns⟩ := hlt (by decide)
    cases he
    refine ⟨log, hpauses, fun r m' log' h => ?_⟩
    obtain ⟨rfl, rfl, -⟩ := (hruns ..).mp h
    exact ⟨rfl, hm⟩

/-! ## The cap on the pauses -/

namespace Host

variable {σ : Type} {H : Host σ} {c : Call} {cfg : RetryConfig} {s s' : σ} {log : List Deed}
  {r : Except StorageError c.Answer}

/-- Only the first pause escapes the cap. -/
theorem Runs.pauses (h : H.Runs ((Program.call c).retrying cfg) s r s' log) :
    pausesOf log = [] ∨ 0 < cfg.retries ∧ ∃ rest,
      pausesOf log = cfg.initialBackoff :: rest ∧ ∀ d ∈ rest, d ≤ cfg.maxBackoff := by
  obtain ⟨k, hk, rfl⟩ := h.log_eq
  rw [pausesOf_course]
  cases k with
  | zero => exact .inl rfl
  | succ k =>
    refine .inr ⟨by omega, (List.range k).map fun i => cfg.pause (i + 1), ?_, ?_⟩
    · simp [List.range_succ_eq_map, RetryConfig.pause, Function.comp_def]
    · simp only [List.mem_map]
      rintro _ ⟨i, -, rfl⟩
      exact cfg.pause_succ_le i

end Host

open Simulation in
theorem outage_pauses (cfg : RetryConfig) (c : Call) (h : 0 < cfg.retries) :
    ∃ r m log, (Machine.host "q").Runs ((Program.call c).retrying cfg) { outages := 1 } r m log ∧
      pausesOf log = [cfg.initialBackoff] := by
  have hfail (i : Nat) : (Machine.host "q").Falters c
      ((Machine.host "q").setsOut c cfg { outages := 1 } i) ↔ i < 1 := Machine.host_falters_at i
  refine ⟨_, _, _, (Host.runs_retrying_answered h (fun i => (hfail i).mpr) ?_).mpr ⟨rfl, rfl, rfl⟩,
    Host.pausesOf_course 1⟩
  exact (hfail 1).not.mpr (Nat.lt_irrefl 1)

/-- Settings with a first pause above the cap, in milliseconds. -/
def eager : StorageSettings := ⟨none, 1, 5000, 1000, 10000⟩

/-- The cap does not bound every pause: nothing keeps the first one below it. -/
theorem first_pause_exceeds_cap :
    ¬ ∀ (cfg : RetryConfig) (c : Call) (σ : Type) (H : Host σ) (s s' : σ)
      (r : Except StorageError c.Answer) (log : List Deed),
      H.Runs ((Program.call c).retrying cfg) s r s' log →
        ∀ d ∈ pausesOf log, d ≤ cfg.maxBackoff := by
  intro claimed
  obtain ⟨r, m, log, hruns, hpauses⟩ := outage_pauses eager.retry (.readCell .counter) (by decide)
  have hle : 5000 ≤ 1000 := claimed _ _ _ _ _ _ _ _ hruns 5000 (by rw [hpauses]; decide)
  omega

/-- The cap bounds every pause after the first one. It bounds every pause exactly if the first one
is within it, or no retry is allowed. -/
theorem pauses_capped_iff (cfg : RetryConfig) (c : Call) :
    (∀ (σ : Type) (H : Host σ) (s s' : σ) (r : Except StorageError c.Answer) (log : List Deed),
      H.Runs ((Program.call c).retrying cfg) s r s' log →
        ∀ d ∈ (pausesOf log).tail, d ≤ cfg.maxBackoff) ∧
    ((∀ (σ : Type) (H : Host σ) (s s' : σ) (r : Except StorageError c.Answer) (log : List Deed),
      H.Runs ((Program.call c).retrying cfg) s r s' log →
        ∀ d ∈ pausesOf log, d ≤ cfg.maxBackoff) ↔
      cfg.retries = 0 ∨ cfg.initialBackoff ≤ cfg.maxBackoff) := by
  refine ⟨fun σ H s s' r log h => ?_, fun hall => ?_, fun hcfg σ H s s' r log h d hd => ?_⟩
  · obtain hnil | ⟨-, rest, hlog, hrest⟩ := h.pauses
    · simp [hnil]
    · rwa [hlog]
  · refine or_iff_not_imp_left.mpr fun hne => ?_
    obtain ⟨r, m, log, hruns, hpauses⟩ := outage_pauses cfg c (Nat.pos_of_ne_zero hne)
    exact hall _ _ _ _ _ _ hruns _ (hpauses ▸ List.mem_singleton_self _)
  · obtain hnil | ⟨hpos, rest, hlog, hrest⟩ := h.pauses
    · simp [hnil] at hd
    · rw [hlog] at hd
      obtain rfl | hd := List.mem_cons.mp hd
      · exact hcfg.resolve_left (by omega)
      · exact hrest d hd

end LeaseQueue
