import LeaseQueue.Proofs.Shared.Upkeep

/-
  What operations ask for at all.

  `AsksOnly ok x` says that the operation `x` asks only for effects that pass the
  test `ok`, whatever it has seen and is answered. Most operations ask for
  nothing but `Common` effects: they count neither a retirement nor a seal, and
  leave the reader bucket where it is. A reader's way through one bucket counts
  retirements besides (`Sealless`), and only the pass that leaves a bucket asks
  for anything else.
-/

namespace LeaseQueue.Shared

variable {q : Queue} {rule : Rule} {ok ok' : Effect → Bool} {α β σ : Type} {m : Message}
  {position next : Int64} {b : UInt64} {hide : Duration}

/-- Counts no seal, and leaves the reader bucket where it is. -/
def Sealless : Effect → Bool
  | .tally .seals => false
  | .call (.swapCell .readerBucket _ _) => false
  | _ => true

/-- Counts no retirement either. -/
def Common : Effect → Bool
  | .tally .retired => false
  | e => Sealless e

theorem sealless_of_common {e : Effect} (h : Common e = true) : Sealless e = true := by
  unfold Common at h
  split at h
  · cases h
  · exact h

theorem ne_retired_of_common {e : Effect} (h : Common e = true) : e ≠ .tally .retired := by
  rintro rfl
  cases h

/-- Any effect that passes the test, and any fault. -/
def asking (ok : Effect → Bool) : Contract where
  asks := fun _ e => ok e = true
  faults := fun _ _ => True
  storage := fun _ _ _ _ => trivial

/-- The operation asks only for effects that pass the test. -/
abbrev AsksOnly (ok : Effect → Bool) {α : Type} (x : Op α) : Prop :=
  ∀ tr, x.Obeys (asking ok) (fun _ _ => True) tr

namespace AsksOnly

theorem mono {x : Op α} (hok : ∀ e, ok e = true → ok' e = true) (h : AsksOnly ok x) :
    AsksOnly ok' x :=
  fun tr => Program.Obeys.mono (fun _ e he => hok e he) (fun _ r _ => by cases r <;> trivial) (h tr)

theorem andThen {x : Op α} {f : α → Op β} (hx : AsksOnly ok x) (hf : ∀ a, AsksOnly ok (f a)) :
    AsksOnly ok (x >>= f) :=
  fun tr => .andThen (hx tr) fun tr' a _ _ => hf a tr'

theorem done {a : α} : AsksOnly ok (Pure.pure a) := fun _ => .pure trivial

theorem throw {f : Fault} : AsksOnly ok (MonadExcept.throw f : Op α) := fun _ => .throw trivial

theorem call {c : Call} (h : ok (.call c) = true) : AsksOnly ok (Op.call c) :=
  fun _ => .call h fun _ => trivial

theorem now (h : ok .now = true) : AsksOnly ok Op.now := fun _ => .now h fun _ _ => trivial

theorem tally {c : Counter} (h : ok (.tally c) = true) : AsksOnly ok (Op.tally c) :=
  fun _ => .tally h trivial

theorem inRange {o : Option α} : AsksOnly ok (Op.inRange o) :=
  fun _ => .inRange (fun _ _ => trivial) fun _ => trivial

theorem ite {c : Prop} [Decidable c] {x y : Op α} (hx : AsksOnly ok x) (hy : AsksOnly ok y) :
    AsksOnly ok (if c then x else y) :=
  fun tr => .ite (fun _ => hx tr) fun _ => hy tr

theorem loop {body : σ → Op (Pass σ β)} {start : σ} (h : ∀ s, AsksOnly ok (body s)) :
    AsksOnly ok (Op.loop body start) := fun _ =>
  .loop (fun _ _ => True) trivial fun s tr _ =>
    (h s tr).mono fun _ p _ => by cases p <;> trivial

theorem foldlM {f : σ → α → Op σ} {l : List α} {s : σ} (h : ∀ s a, AsksOnly ok (f s a)) :
    AsksOnly ok (l.foldlM f s) := fun _ =>
  .foldlM (fun _ _ _ => True) trivial fun _ a s tr _ _ => h s a tr

end AsksOnly

theorem AsksOnly.sealless {x : Op α} (h : AsksOnly Common x) : AsksOnly Sealless x :=
  h.mono fun _ => sealless_of_common

/-! ## Common operations -/

theorem nextIndex_common : AsksOnly Common nextIndex := .andThen (.call rfl) fun _ => .done

theorem moveIf_common {c : Cursor} (hc : c ≠ .readerBucket) :
    AsksOnly Common (c.moveIf position next) := by
  have hswap (expected : Option Int64) :
      Common (.call (.swapCell c.cell expected next)) = true := by
    cases c with
    | readerBucket => exact absurd rfl hc
    | _ => rfl
  refine .andThen (.call (hswap _)) fun a => ?_
  split
  · exact .done
  · refine .ite (.andThen (.call (hswap _)) fun a => ?_) .done
    cases a <;> exact .done
  · exact .done

theorem allocate_common : AsksOnly Common allocate := by
  refine .andThen (.call rfl) fun cell => .loop fun seen => .andThen .inRange fun next =>
    .andThen (.call rfl) fun a => ?_
  cases a <;> exact .done

theorem write_common {i : UInt64} {blob : Blob} {delay : Duration} :
    AsksOnly Common (q.write i blob delay) := by
  refine .andThen (.now rfl) fun u => .andThen (fun _ => .drawTag rfl fun _ => trivial) fun tag =>
    .andThen (.call rfl) fun done => ?_
  cases done
  · exact .throw
  · exact .done

theorem replace_common {cond : Condition} : AsksOnly Common (q.replace m cond) :=
  .andThen (.call rfl) fun _ => .done

theorem acknowledge_common : AsksOnly Common (q.acknowledge m) :=
  .andThen .inRange fun _ => .andThen replace_common fun _ => .done

theorem claim_common : AsksOnly Common (q.claim m hide) :=
  .andThen (.now rfl) fun _ => .andThen .inRange fun _ => replace_common

theorem revise_common {blob : Blob} : AsksOnly Common (q.revise m blob hide) :=
  .andThen (.now rfl) fun _ => .andThen .inRange fun _ => replace_common

theorem authorize_common {receipt : Receipt} : AsksOnly Common (q.authorize receipt) :=
  .andThen (.call rfl) fun _ => .done

theorem advance_common : AsksOnly Common (Repair.advance q b) :=
  .andThen nextIndex_common fun _ => .andThen .inRange fun _ =>
    .ite .done (.andThen (moveIf_common nofun) fun _ => .done)

theorem clear_common {cfg : Repair.Config} : AsksOnly Common (Repair.clear cfg b) :=
  .ite (.andThen (.call rfl) fun _ => .tally rfl) .done

theorem republish_common : AsksOnly Common (Repair.republish q m) :=
  .andThen allocate_common fun _ => .andThen write_common fun _ =>
    .andThen acknowledge_common fun _ => .andThen (.tally rfl) fun _ => .done

theorem waitPass_common {seen : Instant × List Message} :
    AsksOnly Common (Repair.waitPass b seen) := by
  refine .andThen (.now rfl) fun now => .ite .done ?_
  exact .andThen (fun _ => .sleepUntil rfl trivial) fun _ => .andThen (.call rfl) fun _ => .done

theorem repairMessage_common {now : Instant} {seen : Bool × Nat} :
    AsksOnly Common (Repair.repairMessage q now seen m) :=
  .ite .done (.ite .done (.andThen republish_common fun _ => .done))

theorem repairBucket_common {cfg : Repair.Config} {sealedAt : Instant} {ms : List Message} :
    AsksOnly Common (Repair.repairBucket q cfg b sealedAt ms) :=
  .andThen (.loop fun _ => waitPass_common) fun _ => .andThen (.now rfl) fun _ =>
    .andThen (.foldlM fun _ _ => repairMessage_common) fun _ => .andThen advance_common fun _ =>
      .ite (.andThen clear_common fun _ => .done) .done

theorem tick_common {cfg : Repair.Config} : AsksOnly Common (Repair.tick q cfg) := by
  refine .andThen (.andThen (.call rfl) fun _ => .done) fun position => .loop fun b =>
    .andThen (.call rfl) fun ms => .ite ?_ ?_
  · refine .andThen clear_common fun _ => .andThen advance_common fun o => ?_
    cases o with
    | none => exact .done
    | some next => exact .done
  · refine .andThen (.call rfl) fun o => ?_
    cases o with
    | none => exact .done
    | some sealedAt => exact .andThen repairBucket_common fun _ => .done

theorem others_common (rule : Rule) :
    Keeps q rule (fun r _ e => (∀ limit hide, r ≠ .receive limit hide) → Common e = true)
      fun _ _ _ => True := by
  intro r w hr
  have kept : ∀ {α : Type} {x : Op α} {f : α → Reply}, AsksOnly Common x →
      (f <$> x).run.Obeys (fun _ e => (∀ limit hide, r ≠ .receive limit hide) → Common e = true)
        (fun _ _ => True) [] := fun hx =>
    Program.Obeys.mono (fun _ _ h _ => h) (fun _ _ _ => trivial)
      (Op.Obeys.map (R := fun _ _ => True) (hx []))
  cases r with
  | put blob delay =>
    exact kept (.andThen allocate_common fun _ => .andThen write_common fun _ => .done)
  | receive limit hide =>
    exact (requests_keep rule _ w hr).mono (fun _ _ _ h => absurd rfl (h limit hide))
      fun _ _ _ => trivial
  | ack receipt =>
    refine kept (.andThen authorize_common fun o => ?_)
    cases o with
    | none => exact .done
    | some m => exact acknowledge_common
  | update receipt blob hide =>
    refine kept (.andThen authorize_common fun o => ?_)
    cases o with
    | none => exact .done
    | some m => exact .andThen revise_common fun _ => .done
  | tick cfg => exact kept tick_common
  | drop => exact kept (.call rfl)

/-! ## A reader in one bucket -/

theorem claimOrRetire_sealless : AsksOnly Sealless (q.claimOrRetire m hide) := by
  refine .ite (.andThen acknowledge_common.sealless fun done => ?_) ?_
  · exact .ite (.andThen (.tally rfl) fun _ => .done) .done
  · refine .andThen claim_common.sealless fun o => ?_
    cases o with
    | none => exact .andThen (.tally rfl) fun _ => .done
    | some claimed => exact .done

theorem park_common {i : UInt64} : AsksOnly Common (Queue.park position i) :=
  .ite (.andThen (moveIf_common nofun) fun _ => .done) .done

theorem settle_common {ms : List Message} : AsksOnly Common (q.settle position b ms) := by
  unfold Queue.settle
  split
  · exact .andThen park_common fun _ => .done
  · exact .ite .done (.andThen nextIndex_common fun _ => .done)

theorem scan_sealless : AsksOnly Sealless (q.scan position b hide) := by
  refine .andThen (.call rfl) fun ms => .andThen (.now rfl) fun now => ?_
  split
  · exact .andThen park_common.sealless fun _ => .done
  · refine .andThen claimOrRetire_sealless fun o => ?_
    cases o with
    | none => exact settle_common.sealless
    | some m => exact .andThen park_common.sealless fun _ => .done
  · exact settle_common.sealless

theorem glance_sealless : AsksOnly Sealless (q.glance position hide) := by
  refine .ite .done (.andThen (.call rfl) fun found => ?_)
  cases found with
  | none => exact .done
  | some m =>
    refine .ite .done (.ite .done (.andThen (.now rfl) fun now => .ite .done ?_))
    refine .andThen claimOrRetire_sealless fun o => ?_
    cases o <;> exact .done

theorem resurrectFrom_sealless {n : Nat} : AsksOnly Sealless (q.resurrectFrom hide n position) := by
  induction n generalizing position with
  | zero => exact .done
  | succ n ih =>
    refine .andThen glance_sealless fun g => ?_
    cases g with
    | claimed m => exact .done
    | held => exact .done
    | past =>
      refine .andThen scan_sealless fun s => ?_
      cases s with
      | claimed m => exact .done
      | parked => exact .done
      | settled =>
        refine .andThen .inRange fun _ => .andThen .inRange fun _ => ?_
        exact .andThen (moveIf_common (c := .invisibility) nofun).sealless fun _ => ih

end LeaseQueue.Shared
