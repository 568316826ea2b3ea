import LeaseQueue.Proofs.Managed.Charge
import LeaseQueue.Proofs.Shared.History

/-
  One worker for each queue that was started.

  The answers of the manager are determined by what it has answered before: a key
  has a worker from when a start was granted until a stop was. Between the two, the
  worker is in the charge of the manager, and a stop is answered only when its worker
  has ended, so nothing is left of it when the key can be started again.
-/

namespace LeaseQueue.Managed

open Manager (Request Reply judge)
open Shared (Seen same_or_before)

variable {s : Setup} {w w' : World} {past : History} {n : Nat} {key : String}

/-! ## What was started -/

/-- The last request about the key that was granted is a start. -/
def started (key : String) : History → Bool
  | [] => false
  | .answered (.start q) (.flag true) _ :: past => q.id = key || started key past
  | .answered (.stop k) (.flag true) _ :: past => k ≠ key && started key past
  | _ :: past => started key past

/-- The keys that are started, in order and without repetition. -/
def Lists (h : History) (keys : List String) : Prop :=
  keys.Pairwise (· < ·) ∧ ∀ key, key ∈ keys ↔ started key h = true

/-- What a request should be told after what was answered before. -/
def Fitting (past : History) : Request → Reply → Prop
  | .start q, reply => reply = .flag (!started q.id past)
  | .stop key, reply => reply = .flag (started key past)
  | .running, reply => ∃ keys, Lists past keys ∧ reply = .keys keys

def Event.answers? : Event → Option Request
  | .answered r _ _ => some r
  | _ => none

theorem started_quiet {e : Event} (he : e.answers? = none) :
    started key (e :: past) = started key past := by
  cases e with
  | answered r reply gauge => cases he
  | _ => rfl

theorem started_told {r : Request} {reply : Reply} {gauge : Nat} {register : Register Nat}
    (judged : judge register r = .tells reply) :
    started key (.answered r reply gauge :: past) = started key past := by
  cases r with
  | start q =>
    simp only [judge] at judged
    split at judged
    · cases judged
      rfl
    · cases judged
  | stop k =>
    simp only [judge] at judged
    split at judged
    · cases judged
      rfl
    · cases judged
  | running =>
    cases judged
    rfl

/-- The answers so far, and what they say of the register and the gauge. -/
structure Accounted (w : World) : Prop where
  agree : (w.phase = .ready ∨ ∃ key n, w.phase = .stopping key n) →
    ∀ key, (w.charge.lookup key).isSome = started key w.history
  counted : w.phase = .ready → w.gauge = w.register.length
  fits : ∀ r reply gauge past, .answered r reply gauge :: past <:+ w.history →
    Fitting past r reply ∧
      ∃ keys, Lists (.answered r reply gauge :: past) keys ∧ gauge = keys.length

theorem Accounted.quiet (h : Accounted w) (hphase : w'.phase = w.phase)
    (hregister : w'.register = w.register) (hgauge : w'.gauge = w.gauge)
    (hhistory : w'.history = w.history ∨
      ∃ e : Event, e.answers? = none ∧ w'.history = e :: w.history) : Accounted w' := by
  have hcharge : w'.charge = w.charge := by simp only [World.charge, hphase, hregister]
  have hstarted : ∀ key, started key w'.history = started key w.history := by
    intro key
    rcases hhistory with he | ⟨e, he, hcons⟩
    · rw [he]
    · rw [hcons, started_quiet he]
  refine ⟨?_, ?_, fun r reply gauge past hs => ?_⟩
  · simp only [hphase, hcharge, hstarted]
    exact h.agree
  · rw [hphase, hregister, hgauge]
    exact h.counted
  · rcases hhistory with he | ⟨e, he, hcons⟩
    · exact h.fits r reply gauge past (he ▸ hs)
    · rw [hcons] at hs
      rcases List.suffix_cons_iff.mp hs with heq | hs
      · cases heq
        cases he
      · exact h.fits r reply gauge past hs

theorem Accounted.answer {r : Request} {reply : Reply}
    (hold : ∀ r reply gauge past, .answered r reply gauge :: past <:+ w.history →
      Fitting past r reply ∧
        ∃ keys, Lists (.answered r reply gauge :: past) keys ∧ gauge = keys.length)
    (ready : w.phase = .ready) (hsorted : w.register.Sorted)
    (hgauge : w.gauge = w.register.length) (hfitting : Fitting w.history r reply)
    (hstarted : ∀ key, (w.register.lookup key).isSome =
      started key (.answered r reply w.gauge :: w.history)) : Accounted (w.answered r reply) := by
  refine ⟨fun _ key => ?_, fun _ => hgauge, fun r' reply' gauge past hs => ?_⟩
  · have hcharge : (w.answered r reply).charge = w.register := charge_of_ready ready
    rw [hcharge]
    exact hstarted key
  · rcases List.suffix_cons_iff.mp hs with heq | hs
    · cases heq
      refine ⟨hfitting, w.register.keys, ⟨hsorted.keys, fun key => ?_⟩, ?_⟩
      · rw [Register.mem_keys, hstarted]
      · rw [hgauge, Register.keys, List.length_map]
    · exact hold r' reply' gauge past hs

theorem Accounted.shutDown (h : Accounted w) {left : Register Nat} :
    Accounted (w.shutDown left) := by
  cases left with
  | nil =>
    refine ⟨nofun, nofun, fun r reply gauge past hs => ?_⟩
    exact h.fits r reply gauge past ((List.suffix_cons_iff.mp hs).resolve_left nofun)
  | cons e rest => exact ⟨nofun, nofun, h.fits⟩

theorem Accounted.move (h : Accounted w) (hc : Charged w) (hm : Move s w w') : Accounted w' := by
  have agree : w.phase = .ready →
      ∀ key, (w.register.lookup key).isSome = started key w.history := by
    intro ready key
    rw [← charge_of_ready ready]
    exact h.agree (.inl ready) key
  cases hm with
  | sends r _ => exact h.quiet rfl rfl rfl (.inr ⟨_, rfl, rfl⟩)
  | closes => exact h.quiet rfl rfl rfl (.inl rfl)
  | @tells r rest reply ready _ judged =>
    refine .answer h.fits ready hc.register_sorted (h.counted ready) ?_ fun key => ?_
    · cases r with
      | start q =>
        simp only [judge] at judged
        split at judged
        · rename_i found
          cases judged
          simp [Fitting, ← agree ready, found]
        · cases judged
      | stop key =>
        simp only [judge] at judged
        split at judged
        · rename_i free
          cases judged
          simp [Fitting, ← agree ready, free]
        · cases judged
      | running =>
        cases judged
        refine ⟨w.register.keys, ⟨hc.register_sorted.keys, fun key => ?_⟩, rfl⟩
        rw [Register.mem_keys, agree ready]
    · rw [started_told judged]
      exact agree ready key
  | @spawns q rest ready _ free =>
    refine .answer ?_ ready hc.register_sorted.enter rfl ?_ fun key => ?_
    · intro r reply gauge past hs
      rcases List.suffix_cons_iff.mp hs with heq | hs
      · cases heq
      · exact h.fits r reply gauge past hs
    · simp [Fitting, World.spawn, started, ← agree ready, free]
    · simp only [World.spawn, Register.lookup_enter, started, ← agree ready]
      by_cases hkey : key = q.id
      · simp [hkey]
      · simp [hkey, Ne.symm hkey]
  | stops ready _ found =>
    -- The worker is struck off the register, but the manager has charge of it until it ends.
    refine ⟨fun _ key => ?_, fun hready => (by cases hready), h.fits⟩
    show _ = started key w.history
    rw [← agree ready]
    simp only [World.charge, Register.lookup_enter, Register.lookup_strike]
    split
    · rename_i hkey
      rw [hkey, found]
    · rfl
  | @stopped key n waits gone =>
    have agree : ∀ k, ((w.register.enter key n).lookup k).isSome = started k w.history := by
      intro k
      rw [← charge_of_stopping waits]
      exact h.agree (.inr ⟨key, n, waits⟩) k
    simp only [Register.lookup_enter] at agree
    refine .answer h.fits rfl hc.register_sorted rfl ?_ fun k => ?_
    · simp [Fitting, ← agree]
    · simp only [started, ← agree]
      by_cases hkey : k = key
      · simp [hkey, hc.struck key n waits]
      · simp [hkey, Ne.symm hkey]
  | shuts _ _ _ => exact h.shutDown
  | shutsNext _ _ => exact h.shutDown
  | works running => exact h.quiet rfl rfl rfl (.inr ⟨_, rfl, rfl⟩)
  | turns running => exact h.quiet rfl rfl rfl (.inl rfl)
  | ends running => exact h.quiet rfl rfl rfl (.inr ⟨_, rfl, rfl⟩)
  | calls store => exact h.quiet rfl rfl rfl (.inl rfl)
  | passes clock => exact h.quiet rfl rfl rfl (.inl rfl)

theorem Reachable.accounted (h : Reachable s w) : Accounted w := by
  induction h with
  | fresh =>
    refine ⟨fun _ _ => rfl, fun _ => rfl, fun r reply gauge past hs => ?_⟩
    exact absurd (List.suffix_nil.mp hs) (List.cons_ne_nil _ _)
  | step hw hs ih => exact ih.move hw.charged (move_of_step? hs)

/-! ## After a stop -/

theorem Reachable.at_work (h : Reachable s w) {seen : Seen} {before : History}
    (hs : .worked n seen :: before <:+ w.history) :
    ∃ v, Reachable s v ∧ v.history = before ∧ v.workers n ≠ none := by
  induction h with
  | fresh => exact absurd (List.suffix_nil.mp hs) (List.cons_ne_nil _ _)
  | @step v _ _ hv hstep ih =>
    rcases (move_of_step? hstep).adds hs with hs | hadds
    · exact ih hs
    · cases hadds with
      | worked running => exact ⟨v, hv, rfl, by rw [running]; nofun⟩

theorem Adds.granted_stop {gauge : Nat}
    (h : Adds w w' (.answered (.stop key) (.flag true) gauge) past) :
    past = w.history ∧ ∃ m, w.phase = .stopping key m ∧ w.workers m = none := by
  cases h with
  | told judged =>
    simp only [judge] at judged
    split at judged <;> cases judged
  | stopped waits gone => exact ⟨rfl, _, waits, gone⟩

/-- When a stop is granted, no worker that was spawned for the key before runs any more, then or
later. -/
theorem Reachable.stopped_for_good (h : Reachable s w) {gauge : Nat} {q : Queue}
    (hs : .answered (.stop key) (.flag true) gauge :: past <:+ w.history)
    (hn : .spawned n q ∈ past) (hkey : q.id = key) : w.workers n = none := by
  induction h with
  | fresh => exact absurd (List.suffix_nil.mp hs) (List.cons_ne_nil _ _)
  | @step v v' _ hv hstep ih =>
    have hm := move_of_step? hstep
    rcases hm.adds hs with hs | hadds
    · exact hm.stays_ended (hv.lt_spawned (hs.subset (List.mem_cons_of_mem _ hn))) (ih hs)
    · obtain ⟨rfl, m, waits, gone⟩ := hadds.granted_stop
      refine hm.stays_ended (hv.lt_spawned hn)
        (Option.eq_none_iff_forall_ne_some.mpr fun x hx => ?_)
      -- Whoever runs for the key is the worker that the manager has waited for.
      have hqueue := hv.spawned_for.2 n _ _ (hv.spawned_for.1 n x hx) hn
      have hheld := hv.charged.held n x hx
      rw [hqueue, hkey, charge_of_stopping waits, Register.lookup_enter, if_pos rfl] at hheld
      cases hheld
      rw [gone] at hx
      cases hx

theorem Move.stays_finished (hm : Move s w w') (hfinished : w.phase = .finished) :
    w'.phase = .finished ∧ w'.gauge = w.gauge := by
  cases hm with
  | sends r _ => exact ⟨hfinished, rfl⟩
  | closes => exact ⟨hfinished, rfl⟩
  | tells ready _ _ => exact absurd (ready.symm.trans hfinished) nofun
  | spawns ready _ _ => exact absurd (ready.symm.trans hfinished) nofun
  | stops ready _ _ => exact absurd (ready.symm.trans hfinished) nofun
  | stopped waits _ => exact absurd (waits.symm.trans hfinished) nofun
  | shuts ready _ _ => exact absurd (ready.symm.trans hfinished) nofun
  | shutsNext waits _ => exact absurd (waits.symm.trans hfinished) nofun
  | works _ => exact ⟨hfinished, rfl⟩
  | turns _ => exact ⟨hfinished, rfl⟩
  | ends _ => exact ⟨hfinished, rfl⟩
  | calls _ => exact ⟨hfinished, rfl⟩
  | passes _ => exact ⟨hfinished, rfl⟩

theorem Reachable.gauge_of_finished (h : Reachable s w) {gauge : Nat}
    (hs : .finished gauge :: past <:+ w.history) :
    w.phase = .finished ∧ w.gauge = 0 ∧ gauge = 0 := by
  induction h with
  | fresh => exact absurd (List.suffix_nil.mp hs) (List.cons_ne_nil _ _)
  | @step v v' _ hv hstep ih =>
    have hm := move_of_step? hstep
    rcases hm.adds hs with hs | hadds
    · obtain ⟨hfinished, hgauge, hzero⟩ := ih hs
      obtain ⟨hfinished', hsame⟩ := hm.stays_finished hfinished
      exact ⟨hfinished', hsame.trans hgauge, hzero⟩
    · cases hadds with
      | finished hfinished hgauge => exact ⟨hfinished, hgauge, rfl⟩

/-- When the manager is over, no worker runs. -/
theorem Reachable.none_left (h : Reachable s w) (hfinished : w.phase = .finished) :
    w.workers n = none := by
  refine Option.eq_none_iff_forall_ne_some.mpr fun x hx => ?_
  have hheld := h.charged.held n x hx
  rw [World.charge, hfinished] at hheld
  cases hheld

/-! ## Requests are answered in turn -/

def Event.asks? : Event → Option Request
  | .asked r => some r
  | _ => none

def asks (h : History) : List Request := h.filterMap Event.asks?

def answers (h : History) : List Request := h.filterMap Event.answers?

@[simp] theorem asks_cons {e : Event} {h : History} :
    asks (e :: h) = e.asks?.toList ++ asks h := by
  cases he : e.asks? <;> simp [asks, he]

@[simp] theorem answers_cons {e : Event} {h : History} :
    answers (e :: h) = e.answers?.toList ++ answers h := by
  cases he : e.answers? <;> simp [answers, he]

/-- What was not answered yet, the latest first. -/
def World.waiting (w : World) : List Request :=
  w.mailbox.reverse ++
    match w.phase with
    | .stopping key _ => [.stop key]
    | _ => []

theorem Move.in_turn (hm : Move s w w') (h : asks w.history = w.waiting ++ answers w.history) :
    asks w'.history = w'.waiting ++ answers w'.history := by
  have shut : ∀ left : Register Nat, (∀ key n, w.phase ≠ .stopping key n) →
      asks (w.shutDown left).history =
        (w.shutDown left).waiting ++ answers (w.shutDown left).history := by
    intro left hphase
    have hwaiting : w.waiting = w.mailbox.reverse := by
      unfold World.waiting
      split
      · rename_i hstopping
        exact absurd hstopping (hphase _ _)
      · simp
    rw [hwaiting] at h
    cases left with
    | nil => simpa [World.shutDown, World.waiting, Event.asks?, Event.answers?] using h
    | cons e rest => simpa [World.shutDown, World.tell, World.waiting] using h
  cases hm with
  | sends r _ => simpa [World.waiting, Event.asks?, Event.answers?] using h
  | closes => exact h
  | tells ready next _ =>
    simpa [World.waiting, World.answered, ready, next, Event.asks?, Event.answers?] using h
  | spawns ready next _ =>
    simpa [World.waiting, World.answered, World.spawn, ready, next, Event.asks?, Event.answers?]
      using h
  | stops ready next _ => simpa [World.waiting, World.tell, ready, next] using h
  | stopped waits _ =>
    simpa [World.waiting, World.answered, waits, Event.asks?, Event.answers?] using h
  | shuts ready _ _ => exact shut _ (by simp [ready])
  | shutsNext waits _ => exact shut _ (by simp [waits])
  | works _ => simpa [World.waiting, World.worked, Event.asks?, Event.answers?] using h
  | turns _ => exact h
  | ends _ => simpa [World.waiting, World.ended, Event.asks?, Event.answers?] using h
  | calls _ => exact h
  | passes _ => exact h

theorem Reachable.in_turn (h : Reachable s w) :
    asks w.history = w.waiting ++ answers w.history := by
  induction h with
  | fresh => rfl
  | step _ hs ih => exact (move_of_step? hs).in_turn ih

/-! ## Every request is answered -/

def World.awaited (w : World) : Option Nat :=
  match w.phase with
  | .stopping _ n => some n
  | .closing ((_, n) :: _) => some n
  | _ => none

/-- The manager can go on as soon as the worker that it waits for ends, which that worker may. -/
structure Poised (w : World) : Prop where
  told : ∀ n x, w.awaited = some n → w.workers n = some x → x.told = true
  some_left : w.phase ≠ .closing []
  shut : (∃ left, w.phase = .closing left) ∨ w.phase = .finished → w.mailbox = [] ∧ w.closed = true

theorem Poised.onward (h : Poised w) (hworkers : Onward w.workers w'.workers)
    (hphase : w'.phase = w.phase)
    (hshut : w.mailbox = [] ∧ w.closed = true → w'.mailbox = [] ∧ w'.closed = true) :
    Poised w' := by
  have hawaited : w'.awaited = w.awaited := by simp only [World.awaited, hphase]
  refine ⟨fun n x hn hx => ?_, hphase ▸ h.some_left, fun hp => hshut (h.shut (hphase ▸ hp))⟩
  obtain ⟨x', hx', _, htold⟩ := hworkers n x hx
  exact htold (h.told n x' (hawaited ▸ hn) hx')

theorem poised_of_ready (ready : w.phase = .ready) : Poised w := by
  refine ⟨fun n x hn => ?_, by rw [ready]; nofun, ?_⟩
  · rw [World.awaited, ready] at hn
    cases hn
  · rintro (⟨left, hp⟩ | hp)
    · exact absurd (ready.symm.trans hp) nofun
    · exact absurd (ready.symm.trans hp) nofun

theorem poised_shutDown {left : Register Nat} (h : w.mailbox = [] ∧ w.closed = true) :
    Poised (w.shutDown left) := by
  cases left with
  | nil => exact ⟨nofun, nofun, fun _ => h⟩
  | cons e rest =>
    refine ⟨fun n x hn hx => ?_, nofun, fun _ => h⟩
    cases hn
    exact told_tell hx

theorem Poised.move (h : Poised w) (hm : Move s w w') : Poised w' := by
  cases hm with
  | sends r isOpen =>
    refine h.onward .refl rfl fun hshut => ?_
    rw [isOpen] at hshut
    exact absurd hshut.2 nofun
  | closes => exact h.onward .refl rfl fun hshut => ⟨hshut.1, rfl⟩
  | tells ready _ _ => exact poised_of_ready ready
  | spawns ready _ _ => exact poised_of_ready ready
  | stops _ _ _ =>
    refine ⟨fun n x hn hx => ?_, nofun, ?_⟩
    · cases hn
      exact told_tell hx
    · rintro (⟨_, hp⟩ | hp) <;> cases hp
  | stopped _ _ => exact poised_of_ready rfl
  | shuts _ empty closed => exact poised_shutDown ⟨empty, closed⟩
  | shutsNext waits _ => exact poised_shutDown (h.shut (.inl ⟨_, waits⟩))
  | works running => exact h.onward (onward_rest running) rfl id
  | turns running => exact h.onward (onward_rest running) rfl id
  | ends _ => exact h.onward onward_ended rfl id
  | calls _ => exact h.onward .refl rfl id
  | passes _ => exact h.onward .refl rfl id

theorem Reachable.poised (h : Reachable s w) : Poised w := by
  induction h with
  | fresh => exact poised_of_ready rfl
  | step _ hs ih => exact ih.move (move_of_step? hs)

/-- A step of the manager, or the end of a worker. -/
def Own (a : Action) : Prop := a = .manage ∨ ∃ n, a = .finish n

/-- The manager comes from one world to the other, without any more of its workers than that some
end. -/
def Reaches (s : Setup) (w w' : World) : Prop :=
  ∃ actions, (∀ a ∈ actions, Own a) ∧ w.run? s actions = some w'

theorem Reaches.refl : Reaches s w w := ⟨[], nofun, rfl⟩

theorem Reaches.step {a : Action} {v : World} (ha : Own a) (hs : w.step? s a = some v)
    (h : Reaches s v w') : Reaches s w w' := by
  obtain ⟨actions, hown, hrun⟩ := h
  refine ⟨a :: actions, fun b hb => ?_, ?_⟩
  · rcases List.mem_cons.mp hb with rfl | hb
    · exact ha
    · exact hown b hb
  · rw [World.run?, hs]
    exact hrun

theorem Reaches.trans {v : World} (h : Reaches s w v) (h' : Reaches s v w') : Reaches s w w' := by
  obtain ⟨actions, hown, hrun⟩ := h
  induction actions generalizing w with
  | nil =>
    cases hrun
    exact h'
  | cons a rest ih =>
    obtain ⟨u, hs, hrest⟩ := Option.bind_eq_some_iff.mp hrun
    exact .step (hown a List.mem_cons_self) hs
      (ih (fun b hb => hown b (List.mem_cons_of_mem a hb)) hrest)

theorem Reachable.reaches (h : Reachable s w) (hr : Reaches s w w') : Reachable s w' := by
  obtain ⟨actions, _, hrun⟩ := hr
  exact h.run hrun

theorem Reaches.manage {v : World} (hs : w.manage? s = some v) : Reaches s w v :=
  .step (a := .manage) (.inl rfl) hs .refl

theorem Reachable.awaited_ends (h : Reachable s w) (hn : w.awaited = some n) :
    ∃ v, Reaches s w v ∧ v.workers n = none ∧ v.phase = w.phase ∧ v.mailbox = w.mailbox ∧
      v.closed = w.closed := by
  cases hx : w.workers n with
  | none => exact ⟨w, .refl, hx, rfl, rfl, rfl⟩
  | some x =>
    obtain ⟨q, told, rest⟩ := x
    have htold : told = true := h.poised.told n _ hn hx
    subst htold
    have hs : w.step? s (.finish n) = some (w.ended n) := by simp only [World.step?, hx]
    exact ⟨w.ended n, .step (.inr ⟨n, rfl⟩) hs .refl, Function.update_self _ _ _, rfl, rfl, rfl⟩

/-- A manager that closes comes to its end. -/
theorem Reachable.shuts_down (h : Reachable s w) {left : Register Nat}
    (waits : w.phase = .closing left) : ∃ w', Reaches s w w' ∧ w'.phase = .finished := by
  induction left generalizing w with
  | nil => exact absurd waits h.poised.some_left
  | cons e rest ih =>
    obtain ⟨key, n⟩ := e
    obtain ⟨v, hv, gone, hphase, _, _⟩ := h.awaited_ends (n := n) (by simp [World.awaited, waits])
    have hs : v.manage? s = some (v.shutDown rest) := by
      simp only [World.manage?, hphase, waits, gone]
    have hnext : Reaches s w (v.shutDown rest) := hv.trans (.manage hs)
    cases rest with
    | nil => exact ⟨_, hnext, rfl⟩
    | cons e' rest =>
      obtain ⟨w', hw', hfinished⟩ := ih (h.reaches hnext) rfl
      exact ⟨w', hnext.trans hw', hfinished⟩

/-- A stop comes to its end. -/
theorem Reachable.stop_ends (h : Reachable s w) (waits : w.phase = .stopping key n) :
    ∃ w', Reaches s w w' ∧ w'.phase = .ready ∧ w'.mailbox = w.mailbox ∧ w'.closed = w.closed := by
  obtain ⟨v, hv, gone, hphase, hmailbox, hclosed⟩ :=
    h.awaited_ends (n := n) (by simp [World.awaited, waits])
  have hs : v.manage? s = some
      ({ v with phase := .ready, gauge := v.register.length }.answered (.stop key)
        (.flag true)) := by
    simp only [World.manage?, hphase, waits, gone]
  exact ⟨_, hv.trans (.manage hs), rfl, hmailbox, hclosed⟩

theorem Reachable.empties (h : Reachable s w) (ready : w.phase = .ready) :
    ∃ w', Reaches s w w' ∧ w'.phase = .ready ∧ w'.mailbox = [] ∧ w'.closed = w.closed := by
  generalize hmailbox : w.mailbox = mailbox
  induction mailbox generalizing w with
  | nil => exact ⟨w, .refl, ready, hmailbox, rfl⟩
  | cons r rest ih =>
    have hs : w.manage? s = some ({ w with mailbox := rest }.carryOut s r) := by
      simp only [World.manage?, ready, hmailbox]
    have hnext := Reaches.manage hs
    -- Whatever the request comes to, the manager is ready for the next one then.
    have hready : ∃ v, Reaches s w v ∧ v.phase = .ready ∧ v.mailbox = rest ∧
        v.closed = w.closed := by
      unfold World.carryOut at hnext
      split at hnext
      · exact ⟨_, hnext, ready, rfl, rfl⟩
      · exact ⟨_, hnext, ready, rfl, rfl⟩
      · obtain ⟨v, hv, hphase, hrest, hclosed⟩ := (h.reaches hnext).stop_ends rfl
        exact ⟨v, hnext.trans hv, hphase, hrest, hclosed⟩
    obtain ⟨v, hv, hphase, hrest, hclosed⟩ := hready
    obtain ⟨w', hw', hphase', hempty, hclosed'⟩ := ih (h.reaches hv) hphase hrest
    exact ⟨w', hv.trans hw', hphase', hempty, hclosed'.trans hclosed⟩

theorem waiting_eq_nil (hphase : w.phase = .ready ∨ w.phase = .finished)
    (hmailbox : w.mailbox = []) :
    w.waiting = [] := by
  rcases hphase with hphase | hphase <;> simp [World.waiting, hphase, hmailbox]

/-- Whatever waits can be answered, and a manager whose mailbox is closed can come to its end. -/
theorem Reachable.settles (h : Reachable s w) :
    ∃ w', Reaches s w w' ∧ w'.waiting = [] ∧ (w.closed = true → w'.phase = .finished) := by
  have answered : ∀ {v}, Reachable s v → v.phase = .finished → v.waiting = [] := fun hv hfinished =>
    waiting_eq_nil (.inr hfinished) (hv.poised.shut (.inr hfinished)).1
  have ready : ∀ {v}, Reachable s v → v.phase = .ready →
      ∃ w', Reaches s v w' ∧ w'.waiting = [] ∧ (v.closed = true → w'.phase = .finished) := by
    intro v hv hready
    obtain ⟨u, hu, hphase, hempty, hclosed⟩ := hv.empties hready
    cases hc : v.closed with
    | false => exact ⟨u, hu, waiting_eq_nil (.inl hphase) hempty, nofun⟩
    | true =>
      have hs : u.manage? s = some (u.shutDown u.register) := by
        simp only [World.manage?, hphase, hempty, hclosed, hc, if_true]
      have hnext : Reaches s v (u.shutDown u.register) := hu.trans (.manage hs)
      cases hleft : u.register with
      | nil =>
        rw [hleft] at hnext
        exact ⟨_, hnext, answered (hv.reaches hnext) rfl, fun _ => rfl⟩
      | cons e rest =>
        rw [hleft] at hnext
        obtain ⟨w', hw', hfinished⟩ := (hv.reaches hnext).shuts_down rfl
        have hend := hnext.trans hw'
        exact ⟨w', hend, answered (hv.reaches hend) hfinished, fun _ => hfinished⟩
  cases hphase : w.phase with
  | ready => exact ready h hphase
  | stopping key n =>
    obtain ⟨v, hv, hready, _, hclosed⟩ := h.stop_ends hphase
    obtain ⟨w', hw', hwaiting, hfinished⟩ := ready (h.reaches hv) hready
    exact ⟨w', hv.trans hw', hwaiting, fun hc => hfinished (hclosed.trans hc)⟩
  | closing left =>
    obtain ⟨w', hw', hfinished⟩ := h.shuts_down hphase
    exact ⟨w', hw', answered (h.reaches hw') hfinished, fun _ => hfinished⟩
  | finished => exact ⟨w, .refl, answered h hphase, fun _ => hphase⟩

/-! ## One worker for each queue -/

/-- Every answer fits what was answered before, and the gauge then stands at the number of keys that
are started; it is at 0 when the manager is over. No two workers for one key run. Once a stop was
answered, or the manager is over, no worker from before makes a step. Requests are answered in turn,
and the manager can always come to the end of them. -/
theorem one_worker_each (h : Reachable s w) :
    (∀ r reply gauge past, .answered r reply gauge :: past <:+ w.history →
      Fitting past r reply ∧
        ∃ keys, Lists (.answered r reply gauge :: past) keys ∧ gauge = keys.length) ∧
    (∀ gauge past, .finished gauge :: past <:+ w.history → gauge = 0 ∧ w.gauge = 0) ∧
    (∀ m n x y, w.workers m = some x → w.workers n = some y → x.queue.id = y.queue.id → m = n) ∧
    (∀ key gauge past n q seen before,
      .answered (.stop key) (.flag true) gauge :: past <:+ w.history → .spawned n q ∈ past →
      q.id = key → .worked n seen :: before <:+ w.history → .worked n seen :: before <:+ past) ∧
    (∀ gauge past n seen before, .finished gauge :: past <:+ w.history →
      .worked n seen :: before <:+ w.history → .worked n seen :: before <:+ past) ∧
    asks w.history = w.waiting ++ answers w.history ∧
    ∃ actions w', (∀ a ∈ actions, a = .manage ∨ ∃ n, a = .finish n) ∧
      w.run? s actions = some w' ∧ w'.waiting = [] ∧ (w.closed = true → w'.phase = .finished) := by
  refine ⟨h.accounted.fits, ?_, fun m n x y hx hy hkey => h.held hx hy hkey, ?_, ?_, h.in_turn, ?_⟩
  · intro gauge past hs
    exact (h.gauge_of_finished hs).2.symm
  · intro key gauge past n q seen before hs hn hkey hworked
    obtain ⟨v, hv, rfl, hruns⟩ := h.at_work hworked
    rcases same_or_before hs hworked with ⟨he, _⟩ | hle | hle
    · cases he
    · exact absurd (hv.stopped_for_good hle hn hkey) hruns
    · exact hle
  · intro gauge past n seen before hs hworked
    obtain ⟨v, hv, rfl, hruns⟩ := h.at_work hworked
    rcases same_or_before hs hworked with ⟨he, _⟩ | hle | hle
    · cases he
    · exact absurd (hv.none_left (hv.gauge_of_finished hle).1) hruns
    · exact hle
  · obtain ⟨w', ⟨actions, hown, hrun⟩, hwaiting, hfinished⟩ := h.settles
    exact ⟨actions, w', hown, hrun, hwaiting, hfinished⟩

/-- A worker is started, asked for again, and told to stop while it is at a tick, in which it goes
on for a while. Then another one is started, and the mailbox is closed. -/
def startedTwice : List Action :=
  [.send (.start Shared.singles), .send (.start Shared.singles), .manage, .work 0 ⟨7⟩, .work 0 ⟨7⟩,
    .manage, .send .running, .manage, .send (.stop Shared.singles.id),
    .send (.start Shared.singles), .manage, .work 0 ⟨7⟩, .finish 0, .manage, .manage, .work 1 ⟨7⟩,
    .work 1 ⟨7⟩, .close, .manage, .work 1 ⟨7⟩, .finish 1, .manage]

/-- The first worker made its last step before the stop was answered. -/
theorem one_worker_each_started_twice :
    ∃ w past seen before, Reachable {} w ∧ w.spawned = 2 ∧ w.phase = .finished ∧ w.gauge = 0 ∧
      .answered (.stop Shared.singles.id) (.flag true) 0 :: past <:+ w.history ∧
      Fitting past (.stop Shared.singles.id) (.flag true) ∧ .spawned 0 Shared.singles ∈ past ∧
      .worked 0 seen :: before <:+ past ∧ asks w.history = answers w.history := by
  obtain ⟨w, past, seen, before, hw, hspawned, hfinished, hwaiting, hstop, hspawn, hworked⟩ :
      ∃ w past seen before, ({} : World).run? {} startedTwice = some w ∧ w.spawned = 2 ∧
        w.history[0]? = some (.finished 0) ∧ w.waiting = [] ∧
        w.history.drop 6 = .answered (.stop Shared.singles.id) (.flag true) 0 :: past ∧
        past[9]? = some (.spawned 0 Shared.singles) ∧
        w.history.drop 8 = .worked 0 seen :: before :=
    ⟨_, _, _, _, rfl, rfl, rfl, rfl, rfl, rfl, rfl⟩
  have h : Reachable {} w := .run .fresh hw
  have hstop : .answered (.stop Shared.singles.id) (.flag true) 0 :: past <:+ w.history :=
    hstop ▸ List.drop_suffix 6 w.history
  have hworked : .worked 0 seen :: before <:+ w.history := hworked ▸ List.drop_suffix 8 w.history
  obtain ⟨rest, hfinished⟩ : ∃ rest, .finished 0 :: rest <:+ w.history :=
    Shared.suffix_of_mem (List.mem_of_getElem? hfinished)
  obtain ⟨hfits, hzero, _, hafter, _, hturns, _⟩ := one_worker_each h
  have hspawn := List.mem_of_getElem? hspawn
  refine ⟨w, past, seen, before, h, hspawned, (h.gauge_of_finished hfinished).1,
    (hzero 0 rest hfinished).2, hstop, (hfits _ _ _ _ hstop).1, hspawn, ?_, ?_⟩
  · exact hafter _ _ _ _ _ _ _ hstop hspawn rfl hworked
  · rw [hturns, hwaiting]
    rfl

end LeaseQueue.Managed
