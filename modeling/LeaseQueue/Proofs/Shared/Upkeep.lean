import LeaseQueue.Proofs.Shared.Operations
import LeaseQueue.Proofs.Shared.History

/-
  Repair keeps to what it is permitted, and so does every request.

  What a tick knows when it passes or deletes a bucket is what it last read
  there, and how it came to be done with its wait (`Awaited`). The lemmas follow
  a tick from its wait to the messages that it takes one by one.
-/

namespace LeaseQueue.Shared

variable {q : Queue} {tr tr' : List Seen} {cfg : Repair.Config} {b : UInt64}

theorem Sleepless.call {c : Call} {a : c.Answer} (h : Sleepless tr) :
    Sleepless (⟨.call c, .ok a⟩ :: tr) :=
  fun wake hw => h wake ((List.mem_cons.mp hw).resolve_left nofun)

theorem Sleepless.now {t : Instant} (h : Sleepless tr) : Sleepless (⟨.now, t⟩ :: tr) :=
  fun wake hw => h wake ((List.mem_cons.mp hw).resolve_left nofun)

theorem Sleepless.steady (h : Sleepless tr) (hs : Steady tr tr') : Sleepless tr' :=
  fun wake hw => h wake (hs.sleeps wake hw)

theorem Tried.mono {m : Message} {done : Bool} (hs : tr <:+ tr') (h : Tried q tr m done) :
    Tried q tr' m done :=
  h.imp fun _ hn => ⟨hn.1, hs.subset hn.2⟩

theorem Awaited.steady {ms : List Message} {before : List Seen} (h : Awaited q tr cfg b ms before)
    (hs : Steady tr tr') : Awaited q tr' cfg b ms before := by
  cases h with
  | full size acked => exact .full size acked
  | slept told slept due => exact .slept (hs.suffix.subset told) slept due
  | atOnce told clocked due never =>
    exact .atOnce (hs.suffix.subset told) (hs.suffix.subset clocked) due (never.steady hs)

theorem Repaired.steady (h : Repaired q tr cfg b) (hs : Steady tr tr') : Repaired q tr' cfg b := by
  obtain ⟨ms, before, hb, hw, hms⟩ := h.handled
  refine ⟨ms, before, (hs.reads b).trans hb, hw.steady hs, fun m hm => ?_⟩
  exact (hms m hm).imp_right (.imp_right fun ⟨done, hd⟩ => ⟨done, hd.mono hs.suffix⟩)

theorem Clears.steady (h : Clears q tr cfg b) (hs : Steady tr tr') : Clears q tr' cfg b := by
  obtain ⟨ms, before, hb, hw, hms⟩ := h.settled
  exact ⟨ms, before, (hs.reads b).trans hb, hw.steady hs, fun m hm =>
    (hms m hm).imp_right (.mono hs.suffix)⟩

/-! ## The end of a bucket -/

theorem clear_obeys (h : Clears q tr cfg b) :
    (Repair.clear cfg b).Obeys (contract q (.tick cfg)) (fun tr' _ => Steady tr tr') tr := by
  refine .ite (fun hw => ?_) fun _ => .pure Steady.refl
  refine .bind (.call (.clears hw h) fun _ => ?_)
  exact .tally (contract_looks rfl) ((Steady.refl.cons rfl).cons rfl)

theorem advance_obeys (h : Repaired q tr cfg b) :
    (Repair.advance q b).Obeys (contract q (.tick cfg)) (fun tr' _ => Steady tr tr') tr := by
  refine .andThen nextIndex_obeys fun tr₁ i _ hi => ?_
  obtain ⟨hs, cell, told, rfl⟩ := hi
  refine .bind (.inRange (fun succ hsucc => ?_) fun _ => contract_overflow)
  refine .ite (fun _ => .pure hs) fun hlt => ?_
  have hstep := wordSucc?_eq_some hsucc
  have hmin : min succ (q.bucketOf (counterValue cell).toUInt64) = succ := by
    refine (Std.MinEqOr.min_eq_or _ _).elim id fun hc => ?_
    have hle : q.bucketOf (counterValue cell).toUInt64 ≤ succ := hc ▸ Std.min_le_left
    rw [hc] at hlt ⊢
    rw [UInt64.not_le, UInt64.lt_iff_toNat_lt] at hlt
    rw [UInt64.le_iff_toNat_le] at hle
    exact UInt64.toNat_inj.mp (by omega)
  have hp : ∀ tr' expected, Steady tr₁ tr' → Expects .repairBucket b.toInt64 expected →
      Permitted q (.tick cfg) tr' (.call (.swapCell .repairBucket expected
        (min succ (q.bucketOf (counterValue cell).toUInt64)).toInt64)) := by
    intro tr' expected hs' he
    refine .passes he ⟨h.steady (hs.trans hs'), ?_, cell, hs'.suffix.subset told, Std.min_le_right⟩
    rw [hmin, hstep]
  exact .andThen (moveIf_obeys hp) fun tr₂ _ _ hs' => .pure (hs.trans hs')

/-! ## The wait -/

theorem le_deadlineAfter (ms : List Message) (deadline : Instant) :
    deadline ≤ Repair.deadlineAfter ms deadline ∧
      ∀ m ∈ ms, m.pending = true → m.visibleAt ≤ Repair.deadlineAfter ms deadline := by
  suffices h : ∀ (l : List Message) (d : Instant), d ≤ l.foldl (fun t m => max t m.visibleAt) d ∧
      ∀ m ∈ l, m.visibleAt ≤ l.foldl (fun t m => max t m.visibleAt) d by
    refine ⟨(h _ deadline).1, fun m hm hp => (h _ deadline).2 m ?_⟩
    exact List.mem_filter.mpr ⟨hm, hp⟩
  intro l
  induction l with
  | nil => exact fun d => ⟨Nat.le_refl d, nofun⟩
  | cons a l ih =>
    intro d
    obtain ⟨h1, h2⟩ := ih (max d a.visibleAt)
    refine ⟨Nat.le_trans (Nat.le_max_left _ _) h1, fun m hm => ?_⟩
    rcases List.mem_cons.mp hm with rfl | hm
    · exact Nat.le_trans (Nat.le_max_right _ _) h1
    · exact h2 m hm

theorem deadlineAfter_le {ms : List Message} {deadline wake : Instant} (hd : deadline ≤ wake)
    (hm : ∀ m ∈ ms, m.pending = true → m.visibleAt ≤ wake) :
    Repair.deadlineAfter ms deadline ≤ wake := by
  have hle : ∀ m ∈ ms.filter (·.pending), m.visibleAt ≤ wake := fun m h =>
    hm m (List.mem_filter.mp h).1 (List.mem_filter.mp h).2
  unfold Repair.deadlineAfter
  generalize ms.filter (·.pending) = l at hle
  induction l generalizing deadline with
  | nil => exact hd
  | cons a l ih =>
    exact ih (Nat.max_le.mpr ⟨hd, hle a List.mem_cons_self⟩)
      fun m hm => hle m (List.mem_cons_of_mem a hm)

/-- What a tick has seen while it waits for a bucket: it has just read the bucket, for the first
time or after a sleep until the grace period was over. -/
structure Waiting (cfg : Repair.Config) (b : UInt64) (sealedAt : Instant)
    (s : Instant × List Message) (tr : List Seen) : Prop where
  read : ∃ before, lastRead b tr = some (s.2, before) ∧
    (Sleepless tr ∨ ∃ wake, ⟨.sleepUntil wake, ()⟩ ∈ before ∧ sealedAt + cfg.grace ≤ wake)
  told : Told tr (.readTombstone b) (some sealedAt)
  due : sealedAt + cfg.grace ≤ s.1

/-- What a tick has seen when its wait for a bucket is over. -/
def WaitEnd (q : Queue) (cfg : Repair.Config) (b : UInt64) (ms : List Message) (tr : List Seen) :
    Prop :=
  (∃ before, lastRead b tr = some (ms, before) ∧ Awaited q tr cfg b ms before) ∧
    ∃ t, Clocked tr t ∧ ∀ m ∈ ms, m.pending = true → m.visibleAt ≤ t

theorem waitPass_obeys {sealedAt : Instant} {s : Instant × List Message}
    (h : Waiting cfg b sealedAt s tr) :
    (Repair.waitPass b s).Obeys (contract q (.tick cfg))
      (passEnd (Waiting cfg b sealedAt) fun ms tr => WaitEnd q cfg b ms tr) tr := by
  obtain ⟨⟨before, hread, hslept⟩, told, due⟩ := h
  obtain ⟨hle, hpending⟩ := le_deadlineAfter s.2 s.1
  refine .bind (.now (contract_looks rfl) fun t _ => ?_)
  refine .ite (fun ht => .pure ⟨⟨before, hread, ?_⟩, t, List.mem_cons_self, ?_⟩) fun _ => ?_
  · rcases hslept with never | ⟨wake, hw, hwake⟩
    · have hdue : sealedAt + cfg.grace ≤ t := calc
        _ ≤ s.1 := due
        _ ≤ Repair.deadlineAfter s.2 s.1 := hle
        _ ≤ t := ht
      exact .atOnce (List.mem_cons_of_mem _ told) List.mem_cons_self hdue never.now
    · exact .slept (List.mem_cons_of_mem _ told) hw hwake
  · exact fun m hm hp => Nat.le_trans (hpending m hm hp) ht
  · refine .bind
      (.sleepUntil (contract_looks rfl) (.bind (.call (contract_looks rfl) fun ms => ?_)))
    refine .pure ⟨⟨_, by rw [lastRead, if_pos rfl], .inr ⟨_, List.mem_cons_self, ?_⟩⟩, ?_, ?_⟩
    · exact Nat.le_trans due hle
    · exact List.mem_cons_of_mem _ (List.mem_cons_of_mem _ (List.mem_cons_of_mem _ told))
    · exact Nat.le_trans due hle

/-! ## The messages of a bucket -/

theorem republish_obeys {m : Message} (known : Known tr m) (pending : m.pending = true) :
    (Repair.republish q m).Obeys (contract q (.tick cfg))
      (fun tr' done => Steady tr tr' ∧ Tried q tr' m done) tr := by
  refine .andThen allocate_obeys fun tr₁ i hs₁ hi => ?_
  have hcopy : ∀ tr' n, tr₁ <:+ tr' → Inserts tr' m.blob 0 n →
      Permitted q (.tick cfg) tr' (.call (.insertMessage (q.bucketOf n.index) n)) :=
    fun tr' n hs h => .copies (known.mono (hs₁.trans hs)) pending h
  refine .andThen (write_obeys hi.1 hcopy) fun tr₂ n hs₂ hn => ?_
  have hack : ∀ next, m.acknowledged? = some next → Permitted q (.tick cfg) tr₂
      (.call (.updateMessage (q.bucketOf m.index) next ⟨m.version, false⟩)) :=
    fun next hnext => .settles ⟨known.mono (hs₁.trans hs₂), pending, hnext⟩
  refine .andThen (acknowledge_obeys hack) fun tr₃ done _ hd => ?_
  refine .bind (.tally (contract_looks rfl) (.pure ⟨?_, ?_⟩))
  · exact ((hi.2.trans hn.1).trans hd.1).cons rfl
  · exact hd.2.mono (List.suffix_cons _ _)

/-- What is known of a message that a tick has taken; `settled` says that it is acknowledged now. -/
def Taken (q : Queue) (tr : List Seen) (m : Message) (settled : Bool) : Prop :=
  (m.acked = true ∨ m.delivered = true ∨ ∃ done, Tried q tr m done) ∧
    (settled = true → m.acked = true ∨ Tried q tr m true)

theorem Taken.mono {m : Message} {settled settled' : Bool} (h : Taken q tr m settled)
    (hs : tr <:+ tr') (hle : settled' = true → settled = true) : Taken q tr' m settled' :=
  ⟨h.1.imp_right (.imp_right fun ⟨done, hd⟩ => ⟨done, hd.mono hs⟩),
    fun ht => (h.2 (hle ht)).imp_right (.mono hs)⟩

theorem repairMessage_obeys {now : Instant} {s : Bool × Nat} {m : Message} (known : Known tr m)
    (visible : m.pending = true → m.visibleAt ≤ now) :
    (Repair.repairMessage q now s m).Obeys (contract q (.tick cfg))
      (fun tr' s' => Steady tr tr' ∧ Taken q tr' m s'.1 ∧ (s'.1 = true → s.1 = true)) tr := by
  obtain ⟨settled, ghosts⟩ := s
  refine .ite (fun hack => .pure ⟨Steady.refl, ⟨.inl hack, fun _ => .inl hack⟩, id⟩) fun hack => ?_
  refine .ite (fun hskip => .pure ⟨Steady.refl, ⟨?_, nofun⟩, nofun⟩) fun hskip => ?_
  · refine .inr (.inl ?_)
    by_contra hdel
    have hdel' : m.delivered = false := Bool.eq_false_iff.mpr hdel
    have hp : m.pending = true := by simp [Message.pending, hack, hdel']
    simp [Message.visible, hdel', visible hp] at hskip
  · have hp : m.pending = true := by
      simp only [Bool.or_eq_true, Bool.not_eq_true', not_or] at hskip
      simp [Message.pending, hack, hskip.1]
    refine .andThen (republish_obeys known hp) fun tr₁ done _ hd => .pure ⟨hd.1, ⟨?_, ?_⟩, ?_⟩
    · exact .inr (.inr ⟨done, hd.2⟩)
    · intro hset
      simp only [Bool.and_eq_true] at hset
      exact .inr (hset.2 ▸ hd.2)
    · intro hset
      simp only [Bool.and_eq_true] at hset
      exact hset.1

theorem repairBucket_obeys {sealedAt : Instant} {ms : List Message}
    (h : Waiting cfg b sealedAt (sealedAt + cfg.grace, ms) tr) :
    (Repair.repairBucket q cfg b sealedAt ms).Obeys (contract q (.tick cfg))
      (fun _ _ => True) tr := by
  have hwait : (Op.loop (Repair.waitPass b) (sealedAt + cfg.grace, ms)).Obeys
      (contract q (.tick cfg))
      (fun tr' ms' => WaitEnd q cfg b ms' tr') tr := .loop _ h fun _ _ hs => waitPass_obeys hs
  refine .andThen hwait fun tr₁ ms' _ hw => ?_
  obtain ⟨⟨before, hread, hawait⟩, t, clocked, hvis⟩ := hw
  refine .bind (.now (contract_looks rfl) fun now hnow => ?_)
  -- The clock has not gone back since the wait ended, so nothing is left out as still hidden.
  have hle : t ≤ now := hnow _ clocked
  have hs : Steady tr₁ (⟨.now, now⟩ :: tr₁) := Steady.refl.cons rfl
  refine .andThen (.foldlM (fun taken s tr' => Steady tr₁ tr' ∧ ∀ m ∈ taken, Taken q tr' m s.1)
    ⟨hs, nofun⟩ fun taken m s tr' hm hI => ?_) fun tr₂ s _ hI => ?_
  · have known : Known tr' m := (known_of_told (lastRead_told hread) hm).mono hI.1.suffix
    refine (repairMessage_obeys known fun hp => Nat.le_trans (hvis m hm hp) hle).mono ?_
    intro tr'' s' hs'
    refine ⟨hI.1.trans hs'.1, fun n hn => ?_⟩
    rcases List.mem_cons.mp hn with rfl | hn
    · exact hs'.2.1
    · exact (hI.2 n hn).mono hs'.1.suffix hs'.2.2
  · have htaken : ∀ m ∈ ms', Taken q tr₂ m s.1 := fun m hm => hI.2 m (List.mem_reverse.mpr hm)
    have hdone : Repaired q tr₂ cfg b :=
      ⟨ms', before, (hI.1.reads b).trans hread, hawait.steady hI.1, fun m hm => (htaken m hm).1⟩
    refine .andThen (advance_obeys hdone) fun tr₃ _ _ hs₃ => ?_
    refine .ite (fun hset => ?_) fun _ => .pure trivial
    have hclear : Clears q tr₂ cfg b :=
      ⟨ms', before, (hI.1.reads b).trans hread, hawait.steady hI.1,
        fun m hm => (htaken m hm).2 hset⟩
    exact .andThen (clear_obeys (hclear.steady hs₃)) fun _ _ _ _ => .pure trivial

theorem tickPass_obeys (h : Sleepless tr) :
    (Repair.tickPass q cfg b).Obeys (contract q (.tick cfg))
      (passEnd (fun _ => Sleepless) fun _ _ => True) tr := by
  refine .bind (.call (contract_looks rfl) fun ms => ?_)
  have hread : lastRead b (⟨.call (.readBucket b), .ok ms⟩ :: tr) = some (ms, tr) := by
    rw [lastRead, if_pos rfl]
  have never : Sleepless (⟨.call (.readBucket b), .ok ms⟩ :: tr) := h.call
  refine .ite (fun hfull => ?_) fun _ => ?_
  · simp only [Bool.and_eq_true, decide_eq_true_eq, List.all_eq_true] at hfull
    have hclear : Clears q (⟨.call (.readBucket b), .ok ms⟩ :: tr) cfg b :=
      ⟨ms, tr, hread, .full hfull.1 hfull.2, fun m hm => .inl (hfull.2 m hm)⟩
    have hdone : Repaired q (⟨.call (.readBucket b), .ok ms⟩ :: tr) cfg b :=
      ⟨ms, tr, hread, .full hfull.1 hfull.2, fun m hm => .inl (hfull.2 m hm)⟩
    refine .andThen (clear_obeys hclear) fun tr₁ _ _ hs₁ => ?_
    refine .andThen (advance_obeys (hdone.steady hs₁)) fun tr₂ o _ hs₂ => ?_
    have hslept : Sleepless tr₂ := (never.steady hs₁).steady hs₂
    cases o with
    | none => exact .pure trivial
    | some next =>
      refine .pure ?_
      split
      · exact hslept
      · exact trivial
  · refine .bind (.call (contract_looks rfl) fun found => ?_)
    cases found with
    | none => exact .pure trivial
    | some sealedAt =>
      have hwait : Waiting cfg b sealedAt (sealedAt + cfg.grace, ms)
          (⟨.call (.readTombstone b), .ok (some sealedAt)⟩ ::
            ⟨.call (.readBucket b), .ok ms⟩ :: tr) :=
        ⟨⟨tr, hread, .inl never.call⟩, List.mem_cons_self, Nat.le_refl _⟩
      exact .andThen (repairBucket_obeys hwait) fun _ _ _ _ => .pure trivial

theorem tick_obeys : (Repair.tick q cfg).Obeys (contract q (.tick cfg)) (fun _ _ => True) [] := by
  refine .andThen (P := fun tr _ => Sleepless tr) ?_ fun tr₁ position _ hs => ?_
  · exact cursorGet_obeys.mono fun tr _ h wake hw => List.not_mem_nil (h.sleeps wake hw)
  · exact .loop (fun _ => Sleepless) hs fun _ _ h => tickPass_obeys h

/-! ## Every request -/

theorem requests_keep (rule : Rule) : Keeps q rule (Permitted q) (Ends q) := by
  intro r w _
  have ends : ∀ {P : Post Reply} {x : Op Reply}, x.Obeys (contract q r) P [] →
      (∀ tr a, P tr a → Ends q r tr (.ok a)) → x.run.Obeys (Permitted q r) (Ends q r) [] := by
    intro P x h hP
    refine Program.Obeys.mono (fun _ _ h => h) (fun tr result hr => ?_) h
    cases result with
    | ok a => exact hP tr a hr
    | error f => exact .faults hr
  cases r with
  | put blob delay =>
    refine ends (.map (put_obeys.mono fun tr i hi => ?_)) fun tr a ha => ha
    obtain ⟨m, rfl, told⟩ := hi
    exact .put told
  | receive limit hide =>
    refine ends (.map (.bind (nextMessage_obeys.mono fun tr o ho => .pure ?_))) fun tr a ha => ha
    cases o with
    | none => exact .nothing
    | some m =>
      obtain ⟨v, hv⟩ := ho m rfl
      exact .received hv
  | ack receipt =>
    refine ends (.map (ack_obeys.mono fun tr done hd => ?_)) fun tr a ha => ha
    cases done with
    | false => exact .unacked
    | true =>
      obtain ⟨m, told⟩ := hd rfl
      exact .acked told
  | update receipt blob hide =>
    refine ends (.map (update_obeys.mono fun tr o ho => ?_)) fun tr a ha => ha
    cases o with
    | none => exact .stale
    | some given =>
      obtain ⟨m, rfl, told⟩ := ho given rfl
      exact .updated told
  | tick cfg => exact ends (.map (tick_obeys.mono fun tr tick _ => .ticked)) fun tr a ha => ha
  | drop => exact ends (.map (.call .drops fun _ => .dropped)) fun tr a ha => ha

end LeaseQueue.Shared
