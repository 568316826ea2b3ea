import LeaseQueue.Queue

/-
  The manager of repair workers: which queues have one.

  The manager keeps its workers under the keys of their queues and takes requests
  one after the other. `judge` says what a request comes to. How a worker is
  started, and how its end is waited for, is up to the place where they run.
-/

namespace LeaseQueue

universe u

/-- Entries under keys, in the order of the keys. -/
abbrev Register (α : Type u) := List (String × α)

namespace Register

variable {α : Type u}

def keys (r : Register α) : List String := r.map Prod.fst

/-- The register with an entry under the key, in the place of one that is there. -/
def enter (key : String) (a : α) : Register α → Register α
  | [] => [(key, a)]
  | (k, b) :: rest =>
    if key < k then (key, a) :: (k, b) :: rest
    else if key = k then (key, a) :: rest
    else (k, b) :: enter key a rest

/-- The register without an entry under the key. -/
def strike (key : String) (r : Register α) : Register α := r.filter (·.1 ≠ key)

/-- The keys are in order, none of them twice. -/
def Sorted (r : Register α) : Prop := r.Pairwise (·.1 < ·.1)

theorem lookup_cons (key k : String) (a : α) (rest : Register α) :
    List.lookup key ((k, a) :: rest) = if key = k then some a else List.lookup key rest := by
  by_cases h : key = k
  · subst h
    simp
  · have h' : (key == k) = false := by simpa using h
    simp [List.lookup_cons, h, h']

theorem lookup_enter (key other : String) (a : α) (r : Register α) :
    (r.enter key a).lookup other = if other = key then some a else r.lookup other := by
  induction r with
  | nil => exact lookup_cons other key a []
  | cons e rest ih =>
    obtain ⟨k, b⟩ := e
    unfold enter
    split
    · exact lookup_cons other key a _
    · split
      · rename_i heq
        subst heq
        rw [lookup_cons, lookup_cons]
        split <;> rfl
      · rename_i hne
        rw [lookup_cons, lookup_cons, ih]
        by_cases h : other = k
        · subst h
          simp [Ne.symm hne]
        · simp [h]

theorem lookup_strike (key other : String) (r : Register α) :
    (r.strike key).lookup other = if other = key then none else r.lookup other := by
  induction r with
  | nil => simp [strike]
  | cons e rest ih =>
    obtain ⟨k, b⟩ := e
    by_cases hk : k = key
    · subst hk
      have hstrike : strike k ((k, b) :: rest) = strike k rest := by simp [strike]
      rw [hstrike, ih, lookup_cons]
      split <;> rfl
    · have hstrike : strike key ((k, b) :: rest) = (k, b) :: strike key rest := by simp [strike, hk]
      rw [hstrike, lookup_cons, lookup_cons, ih]
      by_cases h : other = k
      · subst h
        simp [hk]
      · simp [h]

theorem mem_enter {key : String} {a : α} {r : Register α} {e : String × α}
    (h : e ∈ r.enter key a) : e = (key, a) ∨ e ∈ r := by
  induction r with
  | nil => simpa [enter] using h
  | cons f rest ih =>
    unfold enter at h
    split at h
    · simpa using h
    · split at h
      · exact (List.mem_cons.mp h).imp id (List.mem_cons_of_mem _)
      · rcases List.mem_cons.mp h with rfl | h
        · exact .inr List.mem_cons_self
        · exact (ih h).imp id (List.mem_cons_of_mem _)

theorem Sorted.enter {key : String} {a : α} {r : Register α} (h : r.Sorted) :
    (r.enter key a).Sorted := by
  induction r with
  | nil => exact List.pairwise_singleton _ _
  | cons e rest ih =>
    obtain ⟨k, b⟩ := e
    obtain ⟨hfirst, hrest⟩ := List.pairwise_cons.mp h
    unfold Register.enter
    split
    · rename_i hlt
      refine List.pairwise_cons.mpr ⟨fun f hf => ?_, h⟩
      rcases List.mem_cons.mp hf with rfl | hf
      · exact hlt
      · exact String.lt_trans hlt (hfirst f hf)
    · rename_i hle
      split
      · rename_i heq
        subst heq
        exact List.pairwise_cons.mpr ⟨hfirst, hrest⟩
      · rename_i hne
        refine List.pairwise_cons.mpr ⟨fun f hf => ?_, ih hrest⟩
        rcases mem_enter hf with rfl | hf
        · exact Std.lt_of_le_of_ne (String.not_lt.mp hle) (Ne.symm hne)
        · exact hfirst f hf

theorem Sorted.strike {key : String} {r : Register α} (h : r.Sorted) : (r.strike key).Sorted :=
  List.Pairwise.filter _ h

theorem Sorted.keys {r : Register α} (h : r.Sorted) : r.keys.Pairwise (· < ·) :=
  List.pairwise_map.mpr h

theorem mem_keys {key : String} {r : Register α} :
    key ∈ r.keys ↔ (r.lookup key).isSome = true := by
  rw [List.lookup_isSome_iff, keys, List.mem_map]
  constructor
  · rintro ⟨e, he, rfl⟩
    exact ⟨e, he, beq_self_eq_true _⟩
  · rintro ⟨e, he, hk⟩
    exact ⟨e, he, (eq_of_beq hk).symm⟩

theorem mem_of_lookup {key : String} {a : α} {r : Register α} (h : r.lookup key = some a) :
    (key, a) ∈ r := by
  obtain ⟨before, after, rfl, _⟩ := List.lookup_eq_some_iff.mp h
  simp

end Register

namespace Manager

inductive Request where
  /-- A worker for the queue. -/
  | start (q : Queue)
  /-- An end of the worker under the key. -/
  | stop (key : String)
  /-- The keys with a worker. -/
  | running
  deriving DecidableEq, Repr

inductive Reply where
  | flag (done : Bool)
  | keys (keys : List String)
  deriving DecidableEq, Repr

/-- What a request comes to, given the workers there are. -/
inductive Verdict (α : Type u) where
  /-- It is answered, and nothing changes. -/
  | tells (reply : Reply)
  /-- A worker for the queue is started and registered; the answer is yes. -/
  | spawns (q : Queue)
  /-- The worker is struck off the register and told to stop; when it has come to its end, the
  answer is yes. -/
  | stops (key : String) (worker : α)

def judge {α : Type u} (workers : Register α) : Request → Verdict α
  | .start q =>
    match workers.lookup q.id with
    | some _ => .tells (.flag false)
    | none => .spawns q
  | .stop key =>
    match workers.lookup key with
    | none => .tells (.flag false)
    | some worker => .stops key worker
  | .running => .tells (.keys workers.keys)

end Manager

end LeaseQueue
