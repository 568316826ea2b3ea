import LeaseQueue.Proofs.Shared.World

/-
  Two programs that do the same as long as they are answered as usual.

  `p.Tracks fair p' Q` says that `p'` asks for the same effects as `p`, one by
  one, while each answer is such as `fair` says, and that both end in the same
  result, which is as `Q` says. The answers are otherwise arbitrary, so that it
  is a statement about the two programs alone. An operation tracks another one
  if besides neither runs past the end of a range.
-/

namespace LeaseQueue

open Shared

variable {fair : Seen → Prop} {α β σ : Type}

/-- After a pass of a loop: the invariant, or what comes after the loop. -/
def Pass.Ends (I : σ → Prop) (K : β → Prop) : Pass σ β → Prop
  | .again s => I s
  | .leave b => K b

namespace Program

/-- The second program does as the first one while it is answered as `fair` says, and both end in a
result that `Q` permits. -/
def Tracks (fair : Seen → Prop) : {α : Type} → Program α → Program α → (α → Prop) → Prop
  | _, .done a, p', Q => p' = .done a ∧ Q a
  | _, .effect e k, p', Q =>
    ∃ k', p' = .effect e k' ∧ ∀ a, fair ⟨e, a⟩ → (k a).Tracks fair (k' a) Q
  | _, @loop _ σ β body start k, p', Q =>
    ∃ (body' : σ → Program (Pass σ β)) (k' : β → Program _), p' = .loop body' start k' ∧
      ∃ I : σ → Prop, I start ∧ ∀ s, I s →
        (body s).Tracks fair (body' s) (Pass.Ends I fun b => (k b).Tracks fair (k' b) Q)

theorem Tracks.mono {p p' : Program α} {P Q : α → Prop} (hQ : ∀ a, P a → Q a)
    (h : p.Tracks fair p' P) : p.Tracks fair p' Q := by
  induction p with
  | done a => exact ⟨h.1, hQ a h.2⟩
  | effect e k ih =>
    obtain ⟨k', rfl, hk⟩ := h
    exact ⟨k', rfl, fun a ha => ih a hQ (hk a ha)⟩
  | loop body start k ihb ih =>
    obtain ⟨body', k', rfl, I, h0, hI⟩ := h
    refine ⟨body', k', rfl, I, h0, fun s hs => ihb s (fun p hp => ?_) (hI s hs)⟩
    cases p with
    | again s => exact hp
    | leave b => exact ih b hQ hp

theorem Tracks.bind {p p' : Program α} {f f' : α → Program β} {P : α → Prop} {Q : β → Prop}
    (h : p.Tracks fair p' P) (hf : ∀ a, P a → (f a).Tracks fair (f' a) Q) :
    (p.bind f).Tracks fair (p'.bind f') Q := by
  induction p with
  | done a =>
    obtain ⟨rfl, ha⟩ := h
    exact hf a ha
  | effect e k ih =>
    obtain ⟨k', rfl, hk⟩ := h
    exact ⟨_, rfl, fun a ha => ih a (hk a ha) hf⟩
  | loop body start k _ ih =>
    obtain ⟨body', k', rfl, I, h0, hI⟩ := h
    refine ⟨body', _, rfl, I, h0, fun s hs => (hI s hs).mono fun p hp => ?_⟩
    cases p with
    | again s => exact hp
    | leave b => exact ih b hp hf

theorem Tracks.of_done {p : Program α} {a : α} {Q : α → Prop} (h : p.Tracks fair (.done a) Q) :
    Q a := by
  cases p with
  | done b =>
    obtain ⟨heq, hb⟩ := h
    cases heq
    exact hb
  | effect e k => exact nomatch h.choose_spec.1
  | loop body start k => exact nomatch h.choose_spec.choose_spec.1

/-- Two loops with their first passes in front. -/
theorem Tracks.unroll {body body' : σ → Program (Pass σ β)} {start : σ} {k k' : β → Program α}
    {Q : α → Prop} (h : (Program.loop body start k).Tracks fair (.loop body' start k') Q) :
    (Program.unroll body start k).Tracks fair (Program.unroll body' start k') Q := by
  obtain ⟨_, _, heq, I, h0, hI⟩ := h
  cases heq
  refine (hI start h0).bind fun p hp => ?_
  cases p with
  | again s => exact ⟨body', k', rfl, I, hp, hI⟩
  | leave b => exact hp

end Program

namespace Op

variable {P : α → Prop} {R : β → Prop}

/-- An answer is as `P` says, and no value ran past the end of its range. -/
def InRange (P : α → Prop) : Except Fault α → Prop
  | .ok a => P a
  | .error f => f ≠ .overflow

/-- The second operation does as the first one while it is answered as `fair` says, and neither runs
past the end of a range. -/
def Tracks (fair : Seen → Prop) (x x' : Op α) (P : α → Prop) : Prop :=
  Program.Tracks fair x.run x'.run (InRange P)

namespace Tracks

theorem pure {a : α} (h : P a) : (Pure.pure a : Op α).Tracks fair (Pure.pure a) P := ⟨rfl, h⟩

theorem throw {f : Fault} (h : f ≠ .overflow) :
    (MonadExcept.throw f : Op α).Tracks fair (MonadExcept.throw f) P := ⟨rfl, h⟩

theorem mono {x x' : Op α} {P' : α → Prop} (hP : ∀ a, P a → P' a) (h : x.Tracks fair x' P) :
    x.Tracks fair x' P' :=
  Program.Tracks.mono (fun r hr => by cases r with
    | ok a => exact hP a hr
    | error f => exact hr) h

theorem bind {x x' : Op α} {f f' : α → Op β} (h : x.Tracks fair x' P)
    (hf : ∀ a, P a → (f a).Tracks fair (f' a) R) : (x >>= f).Tracks fair (x' >>= f') R :=
  Program.Tracks.bind h fun r hr => by
    cases r with
    | ok a => exact hf a hr
    | error f => exact ⟨rfl, hr⟩

theorem map {x x' : Op α} {f : α → β} (h : x.Tracks fair x' fun a => R (f a)) :
    (f <$> x).Tracks fair (f <$> x') R := by
  rw [← bind_pure_comp, ← bind_pure_comp]
  exact bind h fun a ha => pure ha

theorem perform {e : Effect} {P : e.Answer → Prop} (h : ∀ a, fair ⟨e, a⟩ → P a) :
    (Op.perform e).Tracks fair (Op.perform e) P := ⟨_, rfl, fun a ha => ⟨rfl, h a ha⟩⟩

theorem call {c : Call} {P : c.Answer → Prop} (h : ∀ a, fair ⟨.call c, .ok a⟩ → P a) :
    (Op.call c).Tracks fair (Op.call c) P :=
  ⟨_, rfl, fun r hr => by
    cases r with
    | ok a => exact ⟨rfl, h a hr⟩
    | error e => exact ⟨rfl, nofun⟩⟩

theorem inRange {o : Option α} (h : ∃ a, o = some a ∧ P a) :
    (Op.inRange o).Tracks fair (Op.inRange o) P := by
  obtain ⟨a, rfl, ha⟩ := h
  exact pure ha

theorem ite {c : Prop} [Decidable c] {x x' y y' : Op α} (hx : c → x.Tracks fair x' P)
    (hy : ¬ c → y.Tracks fair y' P) :
    (if c then x else y).Tracks fair (if c then x' else y') P := by
  split
  · exact hx ‹_›
  · exact hy ‹_›

theorem loop {body body' : σ → Op (Pass σ β)} {start : σ} (I : σ → Prop) (h0 : I start)
    (hI : ∀ s, I s → (body s).Tracks fair (body' s) (Pass.Ends I R)) :
    (Op.loop body start).Tracks fair (Op.loop body' start) R := by
  refine ⟨_, _, rfl, I, h0, fun s hs => Program.Tracks.bind (hI s hs) fun r hr => ?_⟩
  match r with
  | .ok (.again s) => exact ⟨rfl, hr⟩
  | .ok (.leave b) => exact ⟨rfl, rfl, hr⟩
  | .error f => exact ⟨rfl, rfl, hr⟩

theorem foldlM {f f' : σ → α → Op σ} {l : List α} {s : σ}
    (h : ∀ s a, a ∈ l → (f s a).Tracks fair (f' s a) fun _ => True) :
    (l.foldlM f s).Tracks fair (l.foldlM f' s) fun _ => True := by
  induction l generalizing s with
  | nil => exact pure trivial
  | cons a rest ih =>
    refine bind (h s a List.mem_cons_self) fun s _ => ih fun s b hb => ?_
    exact h s b (List.mem_cons_of_mem a hb)

end Tracks

end Op

end LeaseQueue
