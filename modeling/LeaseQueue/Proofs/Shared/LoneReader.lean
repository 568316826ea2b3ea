import LeaseQueue.Proofs.Shared.Payloads
import LeaseQueue.Proofs.Shared.Undisturbed

/-
  A reader that is left alone.

  `LoneReader q c₀ hide J K` lists all that a call for the next message does to the
  rows when nobody else acts from the instant `c₀` on: as long as it has claimed
  nothing, what it does keeps `J`, and then its claim makes `K` hold. Such a call
  ends from any rows (`receive_lone`): a search that begins another pass has
  retired a message, or has passed one of the buckets that it may pass.
-/

namespace LeaseQueue.Shared

variable {q : Queue} {rows : Rows} {c₀ c : Instant} {m : Message} {limit passed : Nat}
  {hide : Duration} {position : Int64} {b : UInt64} {J : Rows → Prop} {K : Message → Rows → Prop}

def atReader (rows : Rows) : List Message := rows.inBucket (readerOf rows).toUInt64

/-- At the instant, the message can be claimed. -/
def Message.free (t : Instant) (m : Message) : Bool := !m.acked && m.visible t

/-- What a reader does that is left alone: it keeps `J` while it has claimed nothing, and `K` holds
of what it claims. -/
structure LoneReader (q : Queue) (c₀ : Instant) (hide : Duration) (J : Rows → Prop)
    (K : Message → Rows → Prop) : Prop where
  orderly : ∀ {rows}, J rows → Orderly q rows
  parks : ∀ {rows} value, J rows → J { rows with cells := rows.cells.set .invisibility value }
  retires : ∀ {rows m next}, J rows → ⟨q.bucketOf m.index, m⟩ ∈ rows.messages → m.acked = false →
    q.exhausted m.deliveries = true → m.acknowledged? = some next →
    J (rows.replace (q.bucketOf m.index) next)
  seals : ∀ {rows t} now, J rows → c₀ ≤ t → (atReader rows).find? (Message.free t) = none →
    J { rows with seals := ((readerOf rows).toUInt64, now) :: rows.seals }
  advances : ∀ {rows t next}, J rows → c₀ ≤ t → (atReader rows).find? (Message.free t) = none →
    cellSucc? (readerOf rows) = some next →
    J { rows with cells := rows.cells.set .readerBucket next }
  /-- What it claims was handed out before, or is the first one that is free in the reader
  bucket. -/
  claims : ∀ {rows m now next}, J rows → ⟨q.bucketOf m.index, m⟩ ∈ rows.messages → m.acked = false →
    (m.delivered = true ∨ ∃ t, c₀ ≤ t ∧ (atReader rows).find? (Message.free t) = some m) →
    m.claimed? now hide = some next → K next (rows.replace (q.bucketOf m.index) next)
  parked : ∀ {rows m} value, K m rows →
    K m { rows with cells := rows.cells.set .invisibility value }

/-- No call fails, and a fault leaves the rows in order. -/
def lone (J : Rows → Prop) : Setting := ⟨false, fun _ rows => J rows⟩

/-- What a search comes to that has claimed a message or nothing. -/
def Comes (J : Rows → Prop) (K : Message → Rows → Prop) : Option Message → Rows → Prop
  | some m, rows => K m rows
  | none, rows => J rows

section
variable (hl : LoneReader q c₀ hide J K)

theorem park_lone {P : Rows → Prop} {i : UInt64} (hJ : P rows)
    (hP : ∀ value, P { rows with cells := rows.cells.set .invisibility value }) :
    (Queue.park position i).Solo (lone J) (fun _ rows _ => P rows) rows c :=
  .ite (fun _ => .bind (Cursor.moveIf_stays_or_moves (.unfailing rfl) (fun _ _ _ => .pure hJ)
    fun _ _ => .pure (hP _))) fun _ => .pure hJ

include hl

/-- A bid that leads to no claim is a retirement. -/
theorem claimOrRetire_lone (hJ : J rows) (hm : ⟨q.bucketOf m.index, m⟩ ∈ rows.messages)
    (hacked : m.acked = false)
    (hfree : m.delivered = true ∨ ∃ t, c₀ ≤ t ∧ (atReader rows).find? (Message.free t) = some m) :
    (q.claimOrRetire m hide).Solo (lone J) (fun o rows' _ => Comes J K o rows' ∧
      (o = none → (payloads rows').length < (payloads rows).length)) rows c := by
  have hd := (hl.orderly hJ).1
  have hfound := hd.find? hm
  refine .ite (fun hspent => ?_) fun _ => ?_
  · refine .bind (acknowledge_solo (.unfailing rfl) hfound (fun next t _ hn => ?_) fun _ => hJ)
    have hindex := (Message.became_of_acknowledged? hn).index
    have hdone : next.acked = true := by rw [(Message.acknowledged?_eq_some hn).2]
    have hless := (payloads_replace hd hm hacked hindex hdone).length_eq
    refine .bind (.tally fun _ _ => .pure ⟨hl.retires hJ hm hacked hspent hn, fun _ => ?_⟩)
    rw [hless]
    exact Nat.lt_succ_self _
  · refine .andThen (claim_solo (P := fun o rows _ => ∃ next, o = some next ∧ K next rows)
      (.unfailing rfl) hfound hacked
      (fun next now t _ hn => ⟨next, rfl, hl.claims hJ hm hacked hfree hn⟩) fun _ => hJ) ?_
    rintro _ rows t ⟨next, rfl, hK⟩
    exact .pure ⟨hK, nofun⟩

/-! ## Looking for what was claimed before -/

/-- What a look at the message under the cursor comes to. -/
def GlanceComes (J : Rows → Prop) (K : Message → Rows → Prop) : Outcome Queue.Glance
  | .claimed m, rows, _ => K m rows
  | .held, rows, _ => J rows
  | .past, rows, _ => J rows

/-- What a scan of the cursor's bucket comes to. -/
def ScanComes (J : Rows → Prop) (K : Message → Rows → Prop) : Outcome Queue.Scan
  | .claimed m, rows, _ => K m rows
  | .parked, rows, _ => J rows
  | .settled, rows, _ => J rows

theorem glance_lone (hJ : J rows) :
    (q.glance position hide).Solo (lone J) (GlanceComes J K) rows c := by
  refine .ite (fun _ => .pure hJ) fun _ => .bind (.call (.unfailing rfl) fun t _ => ?_)
  have hread : (rows.apply (.readMessage (q.bucketOf position.toUInt64) position.toUInt64)).1 =
      rows.find? (q.bucketOf position.toUInt64) position.toUInt64 := rfl
  rw [hread]
  cases hf : rows.find? (q.bucketOf position.toUInt64) position.toUInt64 with
  | none => exact .pure hJ
  | some m =>
    obtain ⟨hm, hi⟩ := Rows.find?_eq_some hf
    rw [← hi] at hm
    refine .ite (fun _ => .pure hJ) fun hacked => .ite (fun _ => .pure hJ) fun hdel => ?_
    refine .bind (.now fun now _ => .ite (fun _ => .pure hJ) fun _ => ?_)
    refine .andThen
      (claimOrRetire_lone hl hJ hm (by simpa using hacked) (.inl (by simpa using hdel)))
      fun o rows t ho => ?_
    cases o with
    | none => exact .pure ho.1
    | some m => exact .pure ho.1

theorem settle_lone {ms : List Message} (hJ : J rows) :
    (q.settle position b ms).Solo (lone J) (ScanComes J K) rows c := by
  unfold Queue.settle
  split
  · exact .andThen (park_lone hJ fun _ => hl.parks _ hJ) fun _ _ _ hJ => .pure hJ
  · refine .ite (fun _ => .pure hJ)
      fun _ => .bind (nextIndex_solo (.unfailing rfl) fun t _ => .pure ?_)
    split <;> exact hJ

theorem scan_lone (hJ : J rows) :
    (q.scan position b hide).Solo (lone J) (ScanComes J K) rows c := by
  refine .bind (.call (.unfailing rfl) fun t _ => .bind (.now fun now _ => ?_))
  have hread : (rows.apply (.readBucket b)).1 = rows.inBucket b := rfl
  rw [hread]
  split
  · exact .andThen (park_lone hJ fun _ => hl.parks _ hJ) fun _ _ _ hJ => .pure hJ
  · rename_i m _ hexpired
    have hm := Rows.mem_inBucket.mp (List.mem_of_find?_eq_some hexpired)
    have hexp := List.find?_some (p := (Message.expired · now)) hexpired
    simp only [Message.expired, Bool.and_eq_true, Bool.not_eq_true'] at hexp
    have hbucket : b = q.bucketOf m.index := (hl.orderly hJ).2 _ hm
    refine .andThen (claimOrRetire_lone hl hJ (hbucket ▸ hm) hexp.1.1 (.inl hexp.1.2))
      fun o rows t ho => ?_
    cases o with
    | none => exact settle_lone hl ho.1
    | some m =>
      have hK : K m rows := ho.1
      exact .andThen (park_lone hK fun _ => hl.parked _ hK) fun _ _ _ hK => .pure hK
  · exact settle_lone hl hJ

theorem resurrectFrom_lone (hJ : J rows) :
    (q.resurrectFrom hide limit position).Solo (lone J) (fun o rows _ => Comes J K o rows)
      rows c := by
  induction limit generalizing rows c position with
  | zero => exact .pure hJ
  | succ limit ih =>
    refine .andThen (glance_lone hl hJ) fun glance rows c hglance => ?_
    cases glance with
    | claimed m => exact .pure hglance
    | held => exact .pure hglance
    | past =>
      refine .andThen (scan_lone hl hglance) fun scan rows c hscan => ?_
      cases scan with
      | claimed m => exact .pure hscan
      | parked => exact .pure hscan
      | settled =>
        have hJ : J rows := hscan
        refine .bind (.inRange (fun next _ => .bind (.inRange (fun start _ => .bind ?_)
          fun _ => hJ)) fun _ => hJ)
        exact Cursor.moveIf_stays_or_moves (.unfailing rfl) (fun _ _ _ => ih hJ)
          fun _ _ => ih (hl.parks _ hJ)

/-! ## Going forward from the reader bucket -/

/-- A search that has passed some buckets; `n` is more than the number of passes that it has
left. -/
def Remains (J : Rows → Prop) (limit n passed : Nat) (rows : Rows) : Prop :=
  J rows ∧ passed ≤ limit ∧ n = limit - passed + (payloads rows).length

theorem forwardPass_lone (hJ : J rows) (hc : c₀ ≤ c) (hpassed : passed ≤ limit) :
    (q.forwardPass limit hide passed).Solo (lone J)
      (soloPass (fun n passed rows _ => Remains J limit n passed rows)
        (limit - passed + (payloads rows).length) fun o rows _ => Comes J K o rows) rows c := by
  refine .andThen (P := fun p rs t => p = readerOf rows ∧ rs = rows ∧ c ≤ t)
    (Cursor.get_solo (.unfailing rfl) fun t ht => ⟨rfl, rfl, ht⟩) ?_
  rintro _ rows t₁ ⟨rfl, rfl, ht₁⟩
  refine .bind (.call (.unfailing rfl) fun t₂ ht₂ => .bind (.now fun now hnow => ?_))
  have hnow : c₀ ≤ now := Nat.le_trans hc (Nat.le_trans ht₁ (Nat.le_trans ht₂ hnow))
  have hread : (rows.apply (.readBucket (readerOf rows).toUInt64)).1 = atReader rows := rfl
  rw [hread]
  change Op.Solo _ _ _ rows now
  split
  · rename_i m hfirst
    have hm := Rows.mem_inBucket.mp (List.mem_of_find?_eq_some hfirst)
    have hfree := List.find?_some hfirst
    simp only [Bool.and_eq_true, Bool.not_eq_true'] at hfree
    have hbucket : (readerOf rows).toUInt64 = q.bucketOf m.index := (hl.orderly hJ).2 _ hm
    refine .andThen (claimOrRetire_lone hl hJ (hbucket ▸ hm) hfree.1 (.inr ⟨now, hnow, hfirst⟩))
      fun o rows' t ho => ?_
    cases o with
    | some m => exact .pure ho.1
    | none => exact .pure ⟨_, Nat.add_lt_add_left (ho.2 rfl) _, ho.1, hpassed, rfl⟩
  · rename_i hfirst
    have hnone : (atReader rows).find? (Message.free now) = none :=
      Option.eq_none_iff_forall_ne_some.mpr hfirst
    refine .bind (nextIndex_solo (.unfailing rfl) fun t₃ _ => .ite (fun _ => .pure hJ) fun _ => ?_)
    refine .ite (fun _ => .pure hJ) fun hmore => .bind (sealBucket_solo (.unfailing rfl) ?_)
    intro _ seals t₄ _ hseals
    have hsealed : J { rows with seals } := by
      rcases hseals with rfl | ⟨at_, rfl⟩
      · exact hJ
      · exact hl.seals at_ hJ hnow hnone
    refine .bind (.inRange (fun next hnext => .bind ?_) fun _ => hsealed)
    have hmoved : J { rows with cells := rows.cells.set .readerBucket next, seals } :=
      hl.advances hsealed hnow hnone hnext
    refine Cursor.moveIf_solo (.unfailing rfl) rfl fun t _ => ?_
    -- Each further pass uses up a bucket of the limit, as a retirement uses up a payload.
    have hless : limit - (passed + 1) + (payloads rows).length <
        limit - passed + (payloads rows).length := by omega
    have hleft : passed + 1 ≤ limit := by omega
    refine .ite (fun _ => .bind (.tally fun _ _ => .pure ?_)) fun _ => .pure ?_
    · exact ⟨_, hless, hmoved, hleft, rfl⟩
    · exact ⟨_, hless, hmoved, hleft, rfl⟩

theorem forward_lone (hJ : J rows) (hc : c₀ ≤ c) :
    (q.forward limit hide).Solo (lone J) (fun o rows _ => Comes J K o rows) rows c := by
  refine .loop (fun n passed rows c => Remains J limit n passed rows ∧ c₀ ≤ c)
    ⟨⟨hJ, Nat.zero_le _, rfl⟩, hc⟩ ?_
  rintro _ passed rows c ⟨⟨hJ, hpassed, rfl⟩, hc⟩
  refine (forwardPass_lone hl hJ hc hpassed).later.mono fun pass rows t hpass => ?_
  cases pass with
  | again passed =>
    obtain ⟨ht, n, hlt, hn⟩ := hpass
    exact ⟨n, hlt, hn, Nat.le_trans hc ht⟩
  | leave o => exact hpass.2

/-! ## The whole call -/

/-- A reader that is left alone ends: it has claimed a message, or it has found none. -/
theorem receive_lone (hJ : J rows) (hc : c₀ ≤ c) :
    ((Request.receive limit hide).op q).Solo (lone J) (fun reply rows _ =>
      ∃ o, reply = .delivery (o.map Delivery.of) ∧ Comes J K o rows) rows c := by
  have hfirst : (q.resurrect limit hide).Solo (lone J) (fun o rows _ => Comes J K o rows) rows c :=
    .bind (Cursor.get_solo (.unfailing rfl) fun _ _ => resurrectFrom_lone hl hJ)
  refine receive_solo hfirst.later (fun _ _ _ ho => ho.2) fun rows t ho => ?_
  exact forward_lone hl ho.2 (Nat.le_trans hc ho.1)

end

end LeaseQueue.Shared
