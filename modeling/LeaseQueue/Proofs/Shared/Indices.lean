import LeaseQueue.Proofs.Shared.Changes

/-
  Indices.

  Whoever wins the swap of the counter has an index that nobody else has, has
  not been written to and will not be handed out again. So at most one insert is
  applied at an index, which is why an index stands for one message as long as
  nobody drops the queue.
-/

namespace LeaseQueue

theorem cellSucc?_eq_some {n m : Int64} (h : cellSucc? n = some m) : m.toInt = n.toInt + 1 := by
  unfold cellSucc? at h
  split at h
  · cases h
  · rename_i hne
    cases h
    have hlt : n.toInt < 2 ^ 63 - 1 := by
      rw [← Int64.toInt_maxValue]
      exact Int.lt_iff_le_and_ne.mpr ⟨n.toInt_le, fun he => hne (Int64.toInt_inj.mp he)⟩
    have hge := n.le_toInt
    rw [Int64.toInt_add, Int64.toInt_one]
    exact Int.bmod_eq_of_le (by omega) (by omega)

theorem toNat_toUInt64_of_nonneg {n : Int64} (h : 0 ≤ n.toInt) :
    (n.toUInt64.toNat : Int) = n.toInt := by
  rw [Int64.toNat_toUInt64_of_le (Int64.le_iff_toInt_le.mpr h)]
  exact Int.toNat_of_nonneg h

/-- The value after one that is not negative is so, too, and as a word it is one more. -/
theorem cellSucc?_toNat {n m : Int64} (h : cellSucc? n = some m) (hn : 0 ≤ n.toInt) :
    0 ≤ m.toInt ∧ m.toUInt64.toNat = n.toUInt64.toNat + 1 := by
  have hstep := cellSucc?_eq_some h
  have hpos : 0 ≤ m.toInt := by omega
  have hbefore := toNat_toUInt64_of_nonneg hn
  have hafter := toNat_toUInt64_of_nonneg hpos
  exact ⟨hpos, by omega⟩

namespace Shared

variable {q : Queue} {w : World} {t u : Nat} {h past : History} {i : UInt64}

/-! ## What was inserted -/

def Inserted (i : UInt64) (h : History) : Prop :=
  ∃ t c rows b m, .performed t c rows ⟨.call (.insertMessage b m), .ok true⟩ ∈ h ∧ m.index = i

theorem not_inserted_nil : ¬ Inserted i [] := by
  rintro ⟨t, c, rows, b, m, h, _⟩
  exact List.not_mem_nil h

@[simp] theorem inserted_started {r : Request} : Inserted i (.started t r :: h) ↔ Inserted i h := by
  simp [Inserted]

@[simp] theorem inserted_ended {r : Result} : Inserted i (.ended t r :: h) ↔ Inserted i h := by
  simp [Inserted]

theorem inserted_performed {c : Instant} {rows : Rows} {s : Seen} :
    Inserted i (.performed t c rows s :: h) ↔
      (∃ b m, s = ⟨.call (.insertMessage b m), .ok true⟩ ∧ m.index = i) ∨ Inserted i h := by
  constructor
  · rintro ⟨t', c', rows', b, m, hm, hi⟩
    rcases List.mem_cons.mp hm with he | hm
    · cases he
      exact .inl ⟨b, m, rfl, hi⟩
    · exact .inr ⟨t', c', rows', b, m, hm, hi⟩
  · rintro (⟨b, m, rfl, hi⟩ | ⟨t', c', rows', b, m, hm, hi⟩)
    · exact ⟨t, c, rows, b, m, List.mem_cons_self, hi⟩
    · exact ⟨t', c', rows', b, m, List.mem_cons_of_mem _ hm, hi⟩

theorem Inserted.mono (hi : Inserted i past) (hs : past <:+ h) : Inserted i h := by
  obtain ⟨t, c, rows, b, m, hm, hi⟩ := hi
  exact ⟨t, c, rows, b, m, hs.subset hm, hi⟩

theorem inserted_of_not_applied {c : Instant} {rows : Rows} {s : Seen}
    (hs : ∀ b m, s ≠ ⟨.call (.insertMessage b m), .ok true⟩) :
    Inserted i (.performed t c rows s :: h) ↔ Inserted i h := by
  rw [inserted_performed]
  exact ⟨fun hi => hi.resolve_left fun ⟨b, m, he, _⟩ => hs b m he, .inr⟩

/-! ## Who has an index -/

theorem inHand_cons {s : Seen} {tr : List Seen} (h : inHand (s :: tr) = some i) :
    (∃ seen next, s = ⟨.call (.swapCell .counter seen next), .ok .swapped⟩ ∧
      i = (counterValue seen).toUInt64) ∨
    (inHand tr = some i ∧ ∀ b m a, s ≠ ⟨.call (.insertMessage b m), a⟩) := by
  unfold inHand at h
  split at h
  · cases ‹s :: tr = []›
  · rename_i seen next before he
    cases he
    cases h
    exact .inl ⟨seen, next, rfl, rfl⟩
  · cases h
  · rename_i hne hnswap hnins he
    cases he
    exact .inr ⟨h, fun b m a hs => hnins b m a hs⟩

/-- The counter is ahead of every index that was written to or that a task has; an index that a task
has was not written to, and no other task has it. -/
structure Indexed (rows : Rows) (h : History) : Prop where
  start : 0 ≤ (counterValue rows.cells.counter).toInt
  below : ∀ i, Inserted i h → (i.toNat : Int) < (counterValue rows.cells.counter).toInt
  held : ∀ t i, inHand (seenBy t h) = some i →
    (i.toNat : Int) < (counterValue rows.cells.counter).toInt ∧ ¬ Inserted i h
  apart : ∀ t u i, inHand (seenBy t h) = some i → inHand (seenBy u h) = some i → t = u

theorem Indexed.other {rows rows' : Rows} {c : Instant} {s : Seen} (hi : Indexed rows h)
    (hcell : rows'.cells.counter = rows.cells.counter)
    (hswap : ∀ seen next, s ≠ ⟨.call (.swapCell .counter seen next), .ok .swapped⟩)
    (hins : ∀ b m, s ≠ ⟨.call (.insertMessage b m), .ok true⟩) :
    Indexed rows' (.performed t c rows s :: h) := by
  have hand : ∀ u i, inHand (seenBy u (.performed t c rows s :: h)) = some i →
      inHand (seenBy u h) = some i := by
    intro u i hu
    rw [seenBy_performed] at hu
    split at hu
    · rcases inHand_cons hu with ⟨seen, next, he, _⟩ | ⟨hu, _⟩
      · exact absurd he (hswap seen next)
      · exact hu
    · exact hu
  refine ⟨hcell ▸ hi.start, fun i h => ?_, fun u i hu => ?_, fun u v i hu hv => ?_⟩
  · rw [hcell]
    exact hi.below i ((inserted_of_not_applied hins).mp h)
  · rw [hcell, inserted_of_not_applied hins]
    exact hi.held u i (hand u i hu)
  · exact hi.apart u v i (hand u i hu) (hand v i hv)

theorem Indexed.take {rows : Rows} {c : Instant} {next : Int64} (hi : Indexed rows h)
    (hn : cellSucc? (counterValue rows.cells.counter) = some next) :
    Indexed { rows with cells := rows.cells.set .counter next }
      (.performed t c rows ⟨.call (.swapCell .counter rows.cells.counter next), .ok .swapped⟩ ::
        h) := by
  have hnext := cellSucc?_eq_some hn
  have htaken := toNat_toUInt64_of_nonneg hi.start
  have hins : ∀ i, Inserted i (.performed t c rows
      ⟨.call (.swapCell .counter rows.cells.counter next), .ok .swapped⟩ :: h) ↔ Inserted i h :=
    fun i => inserted_of_not_applied nofun
  have hand : ∀ u i, inHand (seenBy u (.performed t c rows
      ⟨.call (.swapCell .counter rows.cells.counter next), .ok .swapped⟩ :: h)) = some i →
      (u = t ∧ i = (counterValue rows.cells.counter).toUInt64) ∨ inHand (seenBy u h) = some i := by
    intro u i hu
    rw [seenBy_performed] at hu
    split at hu
    · rename_i htu
      cases hu
      exact .inl ⟨htu.symm, rfl⟩
    · exact .inr hu
  refine ⟨?_, fun i h => ?_, fun u i hu => ?_, fun u v i hu hv => ?_⟩
  · show 0 ≤ next.toInt
    have := hi.start
    omega
  · show _ < next.toInt
    have := hi.below i ((hins i).mp h)
    omega
  · show _ < next.toInt ∧ _
    rw [hins]
    rcases hand u i hu with ⟨_, rfl⟩ | hu
    · refine ⟨by omega, fun h => ?_⟩
      have := hi.below _ h
      omega
    · have := (hi.held u i hu).1
      exact ⟨by omega, (hi.held u i hu).2⟩
  · -- What the others have is below the index that is taken.
    rcases hand u i hu with ⟨hut, he⟩ | hu' <;> rcases hand v i hv with ⟨hvt, he'⟩ | hv'
    · exact hut.trans hvt.symm
    · have := (hi.held v i hv').1
      subst he
      omega
    · have := (hi.held u i hu').1
      subst he'
      omega
    · exact hi.apart u v i hu' hv'

theorem Indexed.insert {rows : Rows} {c : Instant} {b : UInt64} {m : Message} (hi : Indexed rows h)
    (hm : inHand (seenBy t h) = some m.index) :
    Indexed (rows.insert b m)
      (.performed t c rows ⟨.call (.insertMessage b m), .ok true⟩ :: h) := by
  have hins : ∀ i, Inserted i (.performed t c rows ⟨.call (.insertMessage b m), .ok true⟩ :: h) ↔
      m.index = i ∨ Inserted i h := by
    intro i
    rw [inserted_performed]
    refine or_congr_left ⟨?_, fun hi => ⟨b, m, rfl, hi⟩⟩
    rintro ⟨b', m', he, hi⟩
    cases he
    exact hi
  have hand : ∀ u i, inHand (seenBy u (.performed t c rows
      ⟨.call (.insertMessage b m), .ok true⟩ :: h)) = some i →
      u ≠ t ∧ inHand (seenBy u h) = some i := by
    intro u i hu
    rw [seenBy_performed] at hu
    split at hu
    · cases hu
    · rename_i htu
      exact ⟨Ne.symm htu, hu⟩
  refine ⟨hi.start, fun i h => ?_, fun u i hu => ?_, fun u v i hu hv => ?_⟩
  · rcases (hins i).mp h with rfl | h
    · exact (hi.held t _ hm).1
    · exact hi.below i h
  · obtain ⟨hne, hu⟩ := hand u i hu
    rw [hins]
    refine ⟨(hi.held u i hu).1, fun h => ?_⟩
    rcases h with rfl | h
    · exact hne (hi.apart u t _ hu hm)
    · exact (hi.held u i hu).2 h
  · exact hi.apart u v i (hand u i hu).2 (hand v i hv).2

/-! ## In every run -/

theorem Permitted.swap_counter {r : Request} {tr : List Seen} {seen : Option Int64} {next : Int64}
    (h : Permitted q r tr (.call (.swapCell .counter seen next))) :
    counterSeen tr = some seen ∧ cellSucc? (counterValue seen) = some next := by
  cases h with
  | looks h => cases h
  | takes saw h => exact ⟨saw, h⟩

theorem Permitted.insert {r : Request} {tr : List Seen} {b : UInt64} {m : Message}
    (h : Permitted q r tr (.call (.insertMessage b m))) :
    b = q.bucketOf m.index ∧ ∃ blob delay, Inserts tr blob delay m := by
  cases h with
  | looks h => cases h
  | puts h => exact ⟨rfl, _, _, h⟩
  | copies _ _ h => exact ⟨rfl, _, _, h⟩

theorem Permitted.drop {r : Request} {tr : List Seen} (h : Permitted q r tr (.call .dropQueue)) :
    r = .drop := by
  cases h with
  | looks h => cases h
  | drops => rfl

theorem Permitted.clear {r : Request} {tr : List Seen} {b : UInt64}
    (h : Permitted q r tr (.call (.deleteBucket b))) :
    ∃ cfg, r = .tick cfg ∧ Clears q tr cfg b := by
  cases h with
  | looks h => cases h
  | clears _ h => exact ⟨_, rfl, h⟩

theorem Reachable.undropped (h : Reachable q Undropped w) : .started t .drop ∉ w.history := by
  induction h with
  | fresh => exact List.not_mem_nil
  | step _ ha hs ih =>
    cases move_of_step? hs with
    | starts request =>
      refine fun hd => (List.mem_cons.mp hd).elim (fun he => ?_) ih
      cases he
      exact ha rfl
    | passes d => exact ih
    | performs ht hans => exact fun hd => (List.mem_cons.mp hd).elim nofun ih
    | turns ht => exact ih
    | ends ht => exact fun hd => (List.mem_cons.mp hd).elim nofun ih

theorem Reachable.indexed (h : Reachable q Undropped w) : Indexed w.rows w.history := by
  refine h.changes (P := Indexed) ?_ ?_ ?_ ?_
  · exact ⟨Int.le_refl 0, fun i h => absurd h not_inserted_nil, nofun, nofun⟩
  · exact fun rows past t r h => ⟨h.start, by simpa using h.below, by simpa using h.held,
      by simpa using h.apart⟩
  · exact fun rows past t r h => ⟨h.start, by simpa using h.below, by simpa using h.held,
      by simpa using h.apart⟩
  · intro v t r s rows hv hstarted hp htouch hi
    cases htouch with
    | leaves hs =>
      refine hi.other rfl (fun seen next he => ?_) fun b m he => ?_
      · rw [he] at hs
        cases hs
      · rw [he] at hs
        cases hs
    | @swaps cell desired =>
      by_cases hc : cell = .counter
      · subst hc
        exact hi.take hp.swap_counter.2
      · refine hi.other ?_ (fun seen next he => ?_) nofun
        · cases cell with
          | counter => exact absurd rfl hc
          | readerBucket => rfl
          | invisibility => rfl
          | repairBucket => rfl
        · cases he
          exact hc rfl
    | inserts free =>
      obtain ⟨_, blob, delay, hins⟩ := hp.insert
      exact hi.insert hins.hand
    | replaces found holds => exact hi.other rfl nofun nofun
    | records free => exact hi.other rfl nofun nofun
    | deletes => exact hi.other rfl nofun nofun
    | drops => exact absurd (hp.drop ▸ hstarted) hv.undropped

end Shared

end LeaseQueue
