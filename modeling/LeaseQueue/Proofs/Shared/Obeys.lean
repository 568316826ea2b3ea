import LeaseQueue.Proofs.Shared.World

/-
  What a program does, whatever it is answered.

  `p.Obeys G Q tr` says that the program `p`, begun after what was seen in `tr`,
  asks only for effects that the guard `G` permits after what was seen by then,
  and ends only in results that `Q` permits. The answers are arbitrary, but for
  the clock, which never goes back. So the statement is about one program on its
  own, and holds of it among any other tasks.
-/

namespace LeaseQueue

open Shared

namespace Shared

/-- An instant that had come when this was seen. -/
def Seen.instant : Seen → Instant
  | ⟨.now, t⟩ => t
  | ⟨.sleepUntil wake, _⟩ => wake
  | _ => 0

/-- The answer is not one of a clock that went back. -/
def Credible (tr : List Seen) : (e : Effect) → e.Answer → Prop
  | .now, t => ∀ s ∈ tr, s.instant ≤ t
  | _, _ => True

abbrev Guard := List Seen → Effect → Prop

abbrev Post (α : Type) := List Seen → α → Prop

/-- After a pass of a loop: the invariant, or what comes after the loop. -/
def passEnd {σ β : Type} (I : σ → List Seen → Prop) (K : β → List Seen → Prop) : Post (Pass σ β)
  | tr, .again s => I s tr
  | tr, .leave b => K b tr

end Shared

namespace Program

variable {G G' : Guard} {α β : Type} {tr : List Seen}

/-- Whatever it is answered, the program keeps to the guard and ends as `Q` says. -/
def Obeys (G : Guard) : {α : Type} → Program α → Post α → List Seen → Prop
  | _, .done a, Q, tr => Q tr a
  | _, .effect e k, Q, tr =>
    G tr e ∧ ∀ a, Credible tr e a → (k a).Obeys G Q (⟨e, a⟩ :: tr)
  | _, @loop _ σ _ body start k, Q, tr =>
    ∃ I : σ → List Seen → Prop, I start tr ∧ ∀ s tr, I s tr →
      (body s).Obeys G (passEnd I fun b tr => (k b).Obeys G Q tr) tr

theorem obeys_bind (p : Program α) (f : α → Program β) (Q : Post β) :
    (p.bind f).Obeys G Q tr ↔ p.Obeys G (fun tr a => (f a).Obeys G Q tr) tr := by
  induction p generalizing tr with
  | done a => rfl
  | effect e k ih =>
    simp only [bind, Obeys]
    exact and_congr_right fun _ => forall_congr' fun a => imp_congr_right fun _ => ih a f
  | loop body start k _ ih =>
    simp only [bind, Obeys]
    have hk : (fun b tr => ((k b).bind f).Obeys G Q tr) =
        fun b tr => (k b).Obeys G (fun tr a => (f a).Obeys G Q tr) tr :=
      funext fun b => funext fun _ => propext (ih b f)
    rw [hk]

theorem Obeys.mono {p : Program α} {Q Q' : Post α} (hG : ∀ tr e, G tr e → G' tr e)
    (hQ : ∀ tr a, Q tr a → Q' tr a) (h : p.Obeys G Q tr) : p.Obeys G' Q' tr := by
  induction p generalizing tr with
  | done a => exact hQ tr a h
  | effect e k ih => exact ⟨hG tr e h.1, fun a ha => ih a hQ (h.2 a ha)⟩
  | loop body start k ihb ih =>
    obtain ⟨I, h0, hI⟩ := h
    refine ⟨I, h0, fun s tr hs => ihb s (fun tr p hp => ?_) (hI s tr hs)⟩
    cases p with
    | again s => exact hp
    | leave b => exact ih b hQ hp

theorem Obeys.unroll {σ : Type} {body : σ → Program (Pass σ β)} {start : σ} {k : β → Program α}
    {Q : Post α} (h : (Program.loop body start k).Obeys G Q tr) :
    (Program.unroll body start k).Obeys G Q tr := by
  obtain ⟨I, h0, hI⟩ := h
  refine (obeys_bind _ _ _).mpr (Obeys.mono (fun _ _ h => h) (fun tr p hp => ?_) (hI start tr h0))
  cases p with
  | again s => exact ⟨I, hp, hI⟩
  | leave b => exact hp

theorem Obeys.extended {p : Program α} {Q : Post α} (h : p.Obeys G Q tr) :
    p.Obeys G (fun tr' a => tr <:+ tr' ∧ Q tr' a) tr := by
  induction p generalizing tr with
  | done a => exact ⟨List.suffix_refl tr, h⟩
  | effect e k ih =>
    refine ⟨h.1, fun a ha => ?_⟩
    refine Obeys.mono (fun _ _ h => h) (fun tr' b hb => ?_) (ih a (h.2 a ha))
    exact ⟨(List.suffix_cons _ tr).trans hb.1, hb.2⟩
  | loop body start k ihb ih =>
    obtain ⟨I, h0, hI⟩ := h
    refine ⟨fun s tr' => tr <:+ tr' ∧ I s tr', ⟨List.suffix_refl tr, h0⟩, fun s tr' hs => ?_⟩
    refine Obeys.mono (fun _ _ h => h) (fun tr'' p hp => ?_) (ihb s (hI s tr' hs.2))
    have hext := hs.1.trans hp.1
    cases p with
    | again s => exact ⟨hext, hp.2⟩
    | leave b =>
      refine Obeys.mono (fun _ _ h => h) (fun _ _ hb => ?_) (ih b hp.2)
      exact ⟨hext.trans hb.1, hb.2⟩

end Program

namespace Shared

/-- What an operation is held to: which effects it may ask for, and which faults it may end in. The
store may fail any call that it may make. -/
structure Contract where
  asks : Guard
  faults : Post Fault
  storage : ∀ tr c e, asks tr (.call c) → faults (⟨.call c, .error e⟩ :: tr) (.storage e)

/-- An answer that `P` permits or a fault that the contract permits. -/
def Contract.ends (K : Contract) {α : Type} (P : Post α) : Post (Except Fault α)
  | tr, .ok a => P tr a
  | tr, .error f => K.faults tr f

end Shared

namespace Op

variable {K : Contract} {α β σ : Type} {P P' : Post α} {R : Post β} {tr : List Seen}

/-- Whatever it is answered, the operation keeps to the contract, and an answer is as `P` says. -/
def Obeys (K : Contract) (x : Op α) (P : Post α) (tr : List Seen) : Prop :=
  Program.Obeys K.asks x.run (K.ends P) tr

namespace Obeys

theorem pure {a : α} (h : P tr a) : (Pure.pure a : Op α).Obeys K P tr := h

theorem throw {f : Fault} (h : K.faults tr f) : (MonadExcept.throw f : Op α).Obeys K P tr := h

theorem mono {x : Op α} (hP : ∀ tr a, P tr a → P' tr a) (h : x.Obeys K P tr) :
    x.Obeys K P' tr := by
  refine Program.Obeys.mono (fun _ _ h => h) (fun tr r hr => ?_) h
  cases r with
  | ok a => exact hP tr a hr
  | error f => exact hr

theorem extended {x : Op α} (h : x.Obeys K P tr) :
    x.Obeys K (fun tr' a => tr <:+ tr' ∧ P tr' a) tr := by
  refine Program.Obeys.mono (fun _ _ h => h) (fun tr r hr => ?_) (Program.Obeys.extended h)
  cases r with
  | ok a => exact hr
  | error f => exact hr.2

theorem bind {x : Op α} {f : α → Op β} (h : x.Obeys K (fun tr a => (f a).Obeys K R tr) tr) :
    (x >>= f).Obeys K R tr := by
  refine (Program.obeys_bind _ _ _).mpr (Program.Obeys.mono (fun _ _ h => h) (fun tr r hr => ?_) h)
  cases r with
  | ok a => exact hr
  | error f => exact hr

/-- An operation with a lemma of its own, and what comes after it. -/
theorem andThen {x : Op α} {f : α → Op β} (h : x.Obeys K P tr)
    (hf : ∀ tr' a, tr <:+ tr' → P tr' a → (f a).Obeys K R tr') : (x >>= f).Obeys K R tr :=
  bind (h.extended.mono fun tr' a ha => hf tr' a ha.1 ha.2)

theorem map {x : Op α} {f : α → β} (h : x.Obeys K (fun tr a => R tr (f a)) tr) :
    (f <$> x).Obeys K R tr := by
  rw [← bind_pure_comp]
  exact bind h

theorem perform {e : Effect} {R : Post e.Answer} (h : K.asks tr e)
    (ha : ∀ a, Credible tr e a → R (⟨e, a⟩ :: tr) a) : (Op.perform e).Obeys K R tr := ⟨h, ha⟩

theorem now {R : Post Instant} (h : K.asks tr .now)
    (ht : ∀ t, (∀ s ∈ tr, s.instant ≤ t) → R (⟨.now, t⟩ :: tr) t) : Op.now.Obeys K R tr :=
  perform h ht

theorem sleepUntil {wake : Instant} {R : Post Unit} (h : K.asks tr (.sleepUntil wake))
    (hw : R (⟨.sleepUntil wake, ()⟩ :: tr) ()) : (Op.sleepUntil wake).Obeys K R tr :=
  perform h fun _ _ => hw

theorem drawTag {R : Post Tag} (h : K.asks tr .drawTag) (ht : ∀ t, R (⟨.drawTag, t⟩ :: tr) t) :
    Op.drawTag.Obeys K R tr :=
  perform h fun t _ => ht t

theorem tally {c : Counter} {R : Post Unit} (h : K.asks tr (.tally c))
    (hc : R (⟨.tally c, ()⟩ :: tr) ()) : (Op.tally c).Obeys K R tr :=
  perform h fun _ _ => hc

theorem call {c : Call} {R : Post c.Answer} (h : K.asks tr (.call c))
    (ha : ∀ a, R (⟨.call c, .ok a⟩ :: tr) a) : (Op.call c).Obeys K R tr := by
  refine ⟨h, fun r _ => ?_⟩
  cases r with
  | ok a => exact ha a
  | error e => exact K.storage _ _ e h

theorem inRange {o : Option α} (h : ∀ a, o = some a → P tr a)
    (hn : o = none → K.faults tr .overflow) :
    (Op.inRange o).Obeys K P tr := by
  cases o with
  | none => exact hn rfl
  | some a => exact h a rfl

theorem ite {c : Prop} [Decidable c] {x y : Op α} (hx : c → x.Obeys K P tr)
    (hy : ¬ c → y.Obeys K P tr) : (if c then x else y).Obeys K P tr := by
  split
  · exact hx ‹_›
  · exact hy ‹_›

/-- A loop, by an invariant of its passes. -/
theorem loop {body : σ → Op (Pass σ β)} {start : σ} (I : σ → List Seen → Prop) (h0 : I start tr)
    (hI : ∀ s tr, I s tr → (body s).Obeys K (passEnd I fun b tr => R tr b) tr) :
    (Op.loop body start).Obeys K R tr := by
  refine ⟨I, h0, fun s tr hs => (Program.obeys_bind _ _ _).mpr ?_⟩
  refine Program.Obeys.mono (fun _ _ h => h) (fun tr r hr => ?_) (hI s tr hs)
  match r with
  | .ok (.again s) => exact hr
  | .ok (.leave b) => exact hr
  | .error f => exact hr

/-- A fold, by an invariant of the elements already taken. -/
theorem foldlM_split {f : σ → α → Op σ} {l : List α} {s : σ} (I : List α → σ → List Seen → Prop)
    (h0 : I [] s tr)
    (hI : ∀ taken a rest s tr, l = taken ++ a :: rest → I taken s tr →
      (f s a).Obeys K (fun tr' s' => I (taken ++ [a]) s' tr') tr) :
    (l.foldlM f s).Obeys K (fun tr' s' => I l s' tr') tr := by
  suffices h : ∀ (rest taken : List α) s tr, l = taken ++ rest → I taken s tr →
      (rest.foldlM f s).Obeys K (fun tr' s' => I (taken ++ rest) s' tr') tr from
    h l [] s tr rfl h0
  intro rest
  induction rest with
  | nil =>
    intro taken s tr _ h
    rw [List.append_nil]
    exact .pure h
  | cons a rest ih =>
    intro taken s tr hl h
    refine .bind ((hI taken a rest s tr hl h).mono fun tr' s' h' => ?_)
    simpa using ih (taken ++ [a]) s' tr' (by simp [hl]) h'

/-- A fold, by an invariant of the elements already taken, the latest first. -/
theorem foldlM {f : σ → α → Op σ} {l : List α} {s : σ} (I : List α → σ → List Seen → Prop)
    (h0 : I [] s tr)
    (hI : ∀ taken a s tr, a ∈ l → I taken s tr →
      (f s a).Obeys K (fun tr' s' => I (a :: taken) s' tr') tr) :
    (l.foldlM f s).Obeys K (fun tr' s' => I l.reverse s' tr') tr := by
  refine foldlM_split (fun taken => I taken.reverse) h0 fun taken a rest s tr hl h => ?_
  rw [List.reverse_append]
  exact hI _ a s tr (hl ▸ List.mem_append_right _ List.mem_cons_self) h

end Obeys

end Op

end LeaseQueue
