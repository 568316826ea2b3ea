import LeaseQueue.Proofs.Shared.Complete
import LeaseQueue.Proofs.Shared.Holders
import LeaseQueue.Proofs.Shared.LoneReader

/-
  First in, first out, for first deliveries.

  In a run of complete operations whose puts have no delay, the messages that were
  never handed out are at all times those from some index on (`Fifo`). None of them
  is hidden, none lies behind the reader bucket, and none is in a sealed bucket: so
  neither phase of a reader can come to one of them before the first, repair does
  not touch them, and the receipts of others do not fit them.
-/

namespace LeaseQueue.Shared

variable {q : Queue} {w : World} {k : Nat} {rows rows' : Rows} {c t : Instant} {m next : Message}
  {hide : Duration} {row : Row} {b : UInt64} {cfg : Repair.Config}

/-- The messages that were never handed out are those from the index on. They are visible, and
neither the reader bucket nor a seal has come past one of them. -/
structure Fifo (q : Queue) (k : Nat) (rows : Rows) (c : Instant) : Prop where
  orderly : Orderly q rows
  sorted : Rows.Sorted rows.messages
  below : ∀ row ∈ rows.messages, row.message.index < (nextOf rows).toUInt64
  reader : 0 ≤ (readerOf rows).toInt
  counted : k ≤ (nextOf rows).toUInt64.toNat
  stored : ∀ i : UInt64, k ≤ i.toNat → i < (nextOf rows).toUInt64 →
    ∃ row ∈ rows.messages, row.message.index = i ∧ row.message.pending = true
  least : ∀ row ∈ rows.messages, row.message.pending = true → k ≤ row.message.index.toNat
  visible : ∀ row ∈ rows.messages, row.message.pending = true → row.message.visibleAt ≤ c
  ahead : ∀ row ∈ rows.messages, row.message.pending = true →
    (readerOf rows).toUInt64 ≤ row.bucket
  unsealed : ∀ row ∈ rows.messages, row.message.pending = true → rows.sealedAt? row.bucket = none

/-! ## What keeps the order -/

theorem Fifo.fresh : Fifo q 0 {} c where
  orderly := ⟨List.nodup_nil, nofun⟩
  sorted := .nil
  below := nofun
  reader := by decide
  counted := Nat.zero_le _
  stored := fun _ _ hi => absurd hi (Nat.not_lt_zero _)
  least := nofun
  visible := nofun
  ahead := nofun
  unsealed := nofun

theorem Fifo.later (h : Fifo q k rows c) (hc : c ≤ t) : Fifo q k rows t :=
  { h with visible := fun row hrow hp => Nat.le_trans (h.visible row hrow hp) hc }

theorem Fifo.congr (h : Fifo q k rows c) (ho : Orderly q rows') (hs : Rows.Sorted rows'.messages)
    (hbelow : ∀ row ∈ rows'.messages, row.message.index < (nextOf rows).toUInt64)
    (hsame : ∀ row, row.message.pending = true → (row ∈ rows'.messages ↔ row ∈ rows.messages))
    (hcounter : nextOf rows' = nextOf rows) (hreader : readerOf rows' = readerOf rows)
    (hseals : rows'.seals = rows.seals) : Fifo q k rows' c where
  orderly := ho
  sorted := hs
  below := hcounter ▸ hbelow
  reader := hreader ▸ h.reader
  counted := hcounter ▸ h.counted
  stored := by
    rw [hcounter]
    intro i hk hi
    obtain ⟨row, hrow, hindex, hp⟩ := h.stored i hk hi
    exact ⟨row, (hsame row hp).mpr hrow, hindex, hp⟩
  least := fun row hrow hp => h.least row ((hsame row hp).mp hrow) hp
  visible := fun row hrow hp => h.visible row ((hsame row hp).mp hrow) hp
  ahead := fun row hrow hp => hreader ▸ h.ahead row ((hsame row hp).mp hrow) hp
  unsealed := fun row hrow hp => by
    rw [Rows.sealedAt?, hseals]
    exact h.unsealed row ((hsame row hp).mp hrow) hp

theorem Fifo.cells {cells : Cells} (h : Fifo q k rows c)
    (hcounter : cells.counter = rows.cells.counter)
    (hreader : cells.readerBucket = rows.cells.readerBucket) : Fifo q k { rows with cells } c :=
  h.congr h.orderly h.sorted h.below (fun _ _ => .rfl) (congrArg counterValue hcounter)
    (congrArg Cursor.readerBucket.position hreader) rfl

theorem Orderly.mem_replace (ho : Orderly q rows) (hm : ⟨q.bucketOf m.index, m⟩ ∈ rows.messages)
    (hi : next.index = m.index) :
    row ∈ (rows.replace (q.bucketOf m.index) next).messages ↔
      row = ⟨q.bucketOf m.index, next⟩ ∨ row ∈ rows.messages ∧ row.message.index ≠ m.index := by
  rw [Rows.mem_replace]
  have hsits : ∀ row ∈ rows.messages,
      (row.sits (q.bucketOf m.index) next.index = true ↔ row.message.index = m.index) := by
    intro row hrow
    simp only [Row.sits, Bool.and_eq_true, decide_eq_true_eq, hi]
    exact and_iff_right_of_imp fun he => he ▸ ho.2 row hrow
  constructor
  · rintro (⟨s, hs, hsit, rfl⟩ | ⟨hrow, hsit⟩)
    · exact .inl rfl
    · exact .inr ⟨hrow, fun he => Bool.eq_false_iff.mp hsit ((hsits row hrow).mpr he)⟩
  · rintro (rfl | ⟨hrow, hne⟩)
    · exact .inl ⟨_, hm, (hsits _ hm).mpr rfl, rfl⟩
    · exact .inr ⟨hrow, Bool.eq_false_iff.mpr fun hsit => hne ((hsits row hrow).mp hsit)⟩

theorem Fifo.below_replace (h : Fifo q k rows c) (hm : ⟨q.bucketOf m.index, m⟩ ∈ rows.messages)
    (hi : next.index = m.index) : ∀ row ∈ (rows.replace (q.bucketOf m.index) next).messages,
      row.message.index < (nextOf rows).toUInt64 := by
  intro row hrow
  rcases (h.orderly.mem_replace hm hi).mp hrow with rfl | ⟨hrow, _⟩
  · show next.index < _
    exact hi ▸ h.below _ hm
  · exact h.below row hrow

theorem Fifo.replace (h : Fifo q k rows c) (hm : ⟨q.bucketOf m.index, m⟩ ∈ rows.messages)
    (hi : next.index = m.index) (hp : m.pending = false) (hn : next.pending = false) :
    Fifo q k (rows.replace (q.bucketOf m.index) next) c := by
  refine h.congr h.orderly.replace h.sorted.replace (h.below_replace hm hi) (fun row hrow => ?_) rfl
    rfl rfl
  rw [h.orderly.mem_replace hm hi]
  constructor
  · rintro (rfl | ⟨hstored, _⟩)
    · exact absurd hrow (Bool.eq_false_iff.mp hn)
    · exact hstored
  · intro hstored
    refine .inr ⟨hstored, fun he => ?_⟩
    cases h.orderly.1.eq hstored hm he
    rw [hp] at hrow
    cases hrow

theorem Fifo.take (h : Fifo q k rows c) (hm : ⟨q.bucketOf m.index, m⟩ ∈ rows.messages)
    (hk : m.index.toNat = k) (hi : next.index = m.index) (hn : next.pending = false) :
    Fifo q (k + 1) (rows.replace (q.bucketOf m.index) next) c := by
  have hbelow := UInt64.lt_iff_toNat_lt.mp (h.below _ hm)
  have old : ∀ row ∈ (rows.replace (q.bucketOf m.index) next).messages,
      row.message.pending = true → row ∈ rows.messages ∧ row.message.index ≠ m.index := by
    intro row hrow hp
    rcases (h.orderly.mem_replace hm hi).mp hrow with rfl | hrow
    · exact absurd hp (Bool.eq_false_iff.mp hn)
    · exact hrow
  refine ⟨h.orderly.replace, h.sorted.replace, h.below_replace hm hi, h.reader,
    by rw [← hk]; exact hbelow, fun i hge hlt => ?_, fun row hrow hp => ?_,
    fun row hrow hp => h.visible row (old row hrow hp).1 hp,
    fun row hrow hp => h.ahead row (old row hrow hp).1 hp,
    fun row hrow hp => h.unsealed row (old row hrow hp).1 hp⟩
  · obtain ⟨row, hrow, hindex, hp⟩ := h.stored i (by omega) hlt
    refine ⟨row, (h.orderly.mem_replace hm hi).mpr (.inr ⟨hrow, fun he => ?_⟩), hindex, hp⟩
    rw [← hindex, he] at hge
    omega
  · obtain ⟨hstored, hne⟩ := old row hrow hp
    have hge := h.least row hstored hp
    have hne' : row.message.index.toNat ≠ m.index.toNat := fun he => hne (UInt64.toNat_inj.mp he)
    omega

theorem Fifo.removeBucket (h : Fifo q k rows c)
    (hb : ∀ row ∈ rows.messages, row.bucket = b → row.message.pending = false) :
    Fifo q k (rows.removeBucket b) c := by
  refine h.congr
    ⟨h.orderly.1.removeBucket, fun r hr => h.orderly.2 r (Rows.mem_removeBucket.mp hr).1⟩
    (h.sorted.filter _) (fun row hrow => h.below row (Rows.mem_removeBucket.mp hrow).1)
    (fun row hp => ?_) rfl rfl rfl
  rw [Rows.mem_removeBucket]
  refine and_iff_left_of_imp fun hrow he => ?_
  rw [hb row hrow he] at hp
  cases hp

theorem Fifo.append {value : Int64} (h : Fifo q k rows c) (ht : Tidy q rows)
    (hhead : (readerOf rows).toUInt64 ≤ headOf q rows)
    (hn : cellSucc? (nextOf rows) = some value) (hi : m.index = (nextOf rows).toUInt64)
    (hp : m.pending = true) (hv : m.visibleAt ≤ t) (hc : c ≤ t) :
    Fifo q k (appended q rows value m) t := by
  have htidy := ht.append hn hi
  have hvalue : (nextOf (appended q rows value m)).toUInt64.toNat =
      (nextOf rows).toUInt64.toNat + 1 := (cellSucc?_toNat hn ht.counted).2
  have hbucket : q.bucketOf m.index = headOf q rows := congrArg q.bucketOf hi
  have mem : ∀ {row}, row ∈ (appended q rows value m).messages ↔
      row = ⟨q.bucketOf m.index, m⟩ ∨ row ∈ rows.messages := Rows.mem_insert
  refine ⟨htidy.orderly, h.sorted.insertRow ?_, htidy.below, h.reader, ?_, fun i hge hlt => ?_,
    ?_, ?_, ?_, ?_⟩
  · intro r hr
    refine Bool.eq_false_iff.mpr fun hsits => ?_
    simp only [Row.sits, Bool.and_eq_true, decide_eq_true_eq] at hsits
    exact absurd (hi ▸ hsits.2 ▸ h.below r hr) (UInt64.lt_irrefl _)
  · rw [hvalue]
    exact Nat.le_succ_of_le h.counted
  · by_cases he : i = (nextOf rows).toUInt64
    · exact ⟨_, mem.mpr (.inl rfl), hi.trans he.symm, hp⟩
    · have hne : i.toNat ≠ (nextOf rows).toUInt64.toNat := fun h => he (UInt64.toNat_inj.mp h)
      rw [UInt64.lt_iff_toNat_lt, hvalue] at hlt
      obtain ⟨row, hrow, hindex, hp⟩ := h.stored i hge (UInt64.lt_iff_toNat_lt.mpr (by omega))
      exact ⟨row, mem.mpr (.inr hrow), hindex, hp⟩
  · intro row hrow hp
    rcases mem.mp hrow with rfl | hrow
    · show k ≤ m.index.toNat
      exact hi ▸ h.counted
    · exact h.least row hrow hp
  · intro row hrow hp
    rcases mem.mp hrow with rfl | hrow
    · exact hv
    · exact Nat.le_trans (h.visible row hrow hp) hc
  · intro row hrow hp
    rcases mem.mp hrow with rfl | hrow
    · show (readerOf rows).toUInt64 ≤ q.bucketOf m.index
      exact hbucket ▸ hhead
    · exact h.ahead row hrow hp
  · intro row hrow hp
    rcases mem.mp hrow with rfl | hrow
    · show rows.sealedAt? (q.bucketOf m.index) = none
      rw [hbucket]
      refine Option.eq_none_iff_forall_ne_some.mpr fun sealedAt hs => ?_
      exact absurd (ht.closed _ _ hs) (UInt64.lt_irrefl _)
    · exact h.unsealed row hrow hp

/-! ## Readers -/

theorem Fifo.none_at_reader (h : Fifo q k rows c) (hc : c ≤ t)
    (hnone : (atReader rows).find? (Message.free t) = none) :
    ∀ row ∈ rows.messages, row.message.pending = true → row.bucket ≠ (readerOf rows).toUInt64 := by
  intro row hrow hp hb
  have hvisible := Nat.le_trans (h.visible row hrow hp) hc
  refine List.find?_eq_none.mp hnone row.message (Rows.mem_inBucket.mpr (hb ▸ hrow)) ?_
  simp [Message.free, Message.visible, Message.unacked_of_pending hp, hvisible]

/-- If what is found first at the reader bucket was never handed out, it is the first such message
of the queue. -/
theorem Fifo.first_free (h : Fifo q k rows c) (hc : c ≤ t)
    (hfirst : (atReader rows).find? (Message.free t) = some m) (hp : m.pending = true) :
    m.index.toNat = k := by
  obtain ⟨_, before, after, hsplit, hbefore⟩ := List.find?_eq_some_iff_append.mp hfirst
  have hm := Rows.mem_inBucket.mp (List.mem_of_find?_eq_some hfirst)
  have hleast : k ≤ m.index.toNat := h.least _ hm hp
  -- The first index that was never handed out is a word, and its message is stored.
  have hnat : (UInt64.ofNat k).toNat = k :=
    UInt64.toNat_ofNat_of_lt' (Nat.lt_of_le_of_lt hleast m.index.toNat_lt)
  have hle : UInt64.ofNat k ≤ m.index := UInt64.le_iff_toNat_le.mpr (hnat.symm ▸ hleast)
  obtain ⟨row, hrow, hindex, hpending⟩ := h.stored (UInt64.ofNat k) (Nat.le_of_eq hnat.symm)
    (UInt64.lt_of_le_of_lt hle (h.below _ hm))
  -- It lies no further than what was found and not before the reader bucket, so it is there, too.
  have hbucket : row.bucket = (readerOf rows).toUInt64 := by
    refine UInt64.le_antisymm ?_ (h.ahead row hrow hpending)
    have hplace : (readerOf rows).toUInt64 = q.bucketOf m.index := h.orderly.2 _ hm
    rw [h.orderly.2 row hrow, hindex, hplace]
    exact q.bucketOf_mono hle
  have hthere : row.message ∈ before ++ m :: after :=
    hsplit ▸ Rows.mem_inBucket.mpr (hbucket ▸ hrow)
  have hsorted := h.sorted.inBucket (b := (readerOf rows).toUInt64)
  rw [show rows.inBucket _ = _ from hsplit, List.pairwise_append, List.pairwise_cons] at hsorted
  have hvisible := Nat.le_trans (h.visible row hrow hpending) hc
  rcases List.mem_append.mp hthere with hin | hin
  · have hnot := hbefore row.message hin
    simp [Message.free, Message.visible, Message.unacked_of_pending hpending, hvisible] at hnot
  · rcases List.mem_cons.mp hin with he | hin
    · rw [← he, hindex, hnat]
    · have hlt := hsorted.2.1.1 row.message hin
      rw [hindex] at hlt
      exact absurd (UInt64.lt_of_lt_of_le hlt hle) (UInt64.lt_irrefl _)

theorem Fifo.seal {now : Instant} (h : Fifo q k rows c)
    (hb : ∀ row ∈ rows.messages, row.message.pending = true → row.bucket ≠ b) :
    Fifo q k { rows with seals := (b, now) :: rows.seals } c := by
  refine { h with unsealed := fun row hrow hp => ?_ }
  have hne := hb row hrow hp
  simp only [Rows.sealedAt?, List.lookup_cons, beq_eq_false_iff_ne.mpr hne]
  exact h.unsealed row hrow hp

theorem Fifo.advance {value : Int64} (h : Fifo q k rows c)
    (hb : ∀ row ∈ rows.messages, row.message.pending = true →
      row.bucket ≠ (readerOf rows).toUInt64) (hn : cellSucc? (readerOf rows) = some value) :
    Fifo q k { rows with cells := rows.cells.set .readerBucket value } c := by
  obtain ⟨hpos, hnat⟩ := cellSucc?_toNat hn h.reader
  refine { h with reader := hpos, ahead := fun row hrow hp => ?_ }
  have hlt := UInt64.lt_iff_toNat_lt.mp
    (UInt64.lt_of_le_of_ne (h.ahead row hrow hp) (hb row hrow hp).symm)
  show value.toUInt64 ≤ row.bucket
  rw [UInt64.le_iff_toNat_le, hnat]
  exact hlt

theorem Message.not_pending_of_exhausted (hs : q.exhausted m.deliveries = true) :
    m.pending = false := by
  refine Message.not_pending_of_delivered
    (decide_eq_true (UInt32.pos_iff_ne_zero.mpr fun hzero => ?_))
  rw [hzero, q.not_exhausted_zero] at hs
  cases hs

/-- A message that is claimed for the first time has one delivery, and otherwise it has more. -/
theorem Message.first_claim {now : Instant} (hn : m.claimed? now hide = some next) :
    next.deliveries = 1 ↔ m.delivered = false := by
  have hcount : next.deliveries = countUp m.deliveries := by
    rw [(Message.claimed?_eq_some hn).2]
  have hnat : next.deliveries.toNat = min (m.deliveries.toNat + 1) (UInt32.size - 1) :=
    hcount ▸ countUp_toNat m.deliveries
  have hone : next.deliveries = 1 ↔ next.deliveries.toNat = 1 := UInt32.toNat_inj.symm
  have hzero : m.delivered = false ↔ m.deliveries.toNat = 0 := by
    simp [Message.delivered, UInt32.lt_iff_toNat_lt]
  rw [hone, hzero, hnat, UInt32.size]
  omega

/-- The index of a message that is handed out for the first time. -/
def firstOf? (d : Delivery) : Option UInt64 := if d.deliveries = 1 then some d.index else none

/-- The order after a message was handed out for the first time, or none was. -/
def Onward (q : Queue) (k : Nat) (rows : Rows) (c : Instant) : Option UInt64 → Prop
  | some i => i.toNat = k ∧ Fifo q (k + 1) rows c
  | none => Fifo q k rows c

theorem Onward.park {o : Option UInt64} {value : Int64} (h : Onward q k rows c o) :
    Onward q k { rows with cells := rows.cells.set .invisibility value } c o := by
  cases o with
  | none => exact Fifo.cells h rfl rfl
  | some i => exact ⟨h.1, h.2.cells rfl rfl⟩

theorem Fifo.claim {now : Instant} (h : Fifo q k rows c)
    (hm : ⟨q.bucketOf m.index, m⟩ ∈ rows.messages) (hacked : m.acked = false)
    (hfree : m.delivered = true ∨ ∃ t, c ≤ t ∧ (atReader rows).find? (Message.free t) = some m)
    (hn : m.claimed? now hide = some next) :
    Onward q k (rows.replace (q.bucketOf m.index) next) c (firstOf? (Delivery.of next)) := by
  have hi := (Message.became_of_claimed? hn).index
  have hdone := Message.not_pending_of_delivered (Message.delivered_of_claimed? hn)
  have hone := Message.first_claim hn
  cases hnew : m.delivered with
  | true =>
    have hmore : ¬ next.deliveries = 1 := fun he => Bool.eq_false_iff.mp (hone.mp he) hnew
    have hnone : firstOf? (Delivery.of next) = none := if_neg hmore
    rw [hnone]
    exact h.replace hm hi (Message.not_pending_of_delivered hnew) hdone
  | false =>
    obtain ⟨t, ht, hfirst⟩ := hfree.resolve_left (Bool.eq_false_iff.mp hnew)
    have hk := h.first_free ht hfirst (Message.pending_of_undelivered hacked hnew)
    have hsome : firstOf? (Delivery.of next) = some next.index := if_pos (hone.mpr hnew)
    rw [hsome]
    exact ⟨hi ▸ hk, h.take hm hk hi hdone⟩

/-- A reader that is left alone keeps the order. -/
theorem Fifo.loneReader : LoneReader q c hide (fun rows => Onward q k rows c none)
    fun next rows => Onward q k rows c (firstOf? (Delivery.of next)) where
  orderly h := h.orderly
  parks _ h := h.park
  retires h hm _ hspent hn := by
    have hdone := (Message.acknowledged?_eq_some hn).2
    refine h.replace hm (Message.became_of_acknowledged? hn).index
      (Message.not_pending_of_exhausted hspent) (Message.not_pending_of_acked ?_)
    rw [hdone]
  seals now h hc hnone := h.seal (h.none_at_reader hc hnone)
  advances h hc hnone hn := h.advance (h.none_at_reader hc hnone) hn
  claims h hm hacked hfree hn := h.claim hm hacked hfree hn
  parked _ h := h.park

/-! ## The other operations -/

def firstDelivery? : Result → Option UInt64
  | .ok (.delivery d) => d.bind firstOf?
  | _ => none

/-- No call fails, and a fault leaves the order as it is. -/
def ordered (q : Queue) (k : Nat) (c : Instant) : Setting := lone fun rows => Fifo q k rows c

theorem put_fifo {blob : Blob} (h : Fifo q k rows c) (ht : Tidy q rows)
    (hhead : (readerOf rows).toUInt64 ≤ headOf q rows) :
    ((Request.put blob 0).op q).Solo (ordered q k c)
      (fun reply rows t => Onward q k rows t (firstDelivery? (.ok reply))) rows c := by
  refine .map (.bind (allocate_solo (.unfailing rfl) (fun value t hc hn => ?_) fun _ => h))
  refine .bind (write_solo (.unfailing rfl) ht.free fun now tag t' hnow ht' => .pure ?_)
  have hfresh : (Message.fresh (nextOf rows).toUInt64 blob tag now 0).visibleAt ≤ t' := ht'
  exact h.append ht hhead hn rfl rfl hfresh (Nat.le_trans hc (Nat.le_trans hnow ht'))

theorem shows_fifo {r : Receipt} {request : Request} (h : Fifo q k rows c)
    (hreq : request = .ack r ∨ ∃ blob hide, request = .update r blob hide)
    (hfits : ∀ m, rows.find? (q.bucketOf r.index) r.index = some m → r.fits m = true →
      m.acked = false ∧ m.delivered = true) :
    (request.op q).Solo (ordered q k c)
    (fun reply rows _ => Onward q k rows c (firstDelivery? (.ok reply))) rows c := by
  have stored : ∀ m, rows.find? (q.bucketOf r.index) r.index = some m → r.fits m = true →
      rows.find? (q.bucketOf m.index) m.index = some m ∧
        ⟨q.bucketOf m.index, m⟩ ∈ rows.messages := by
    intro m hm hf
    obtain ⟨hmem, hi⟩ := Rows.find?_eq_some hm
    rw [← hi] at hm hmem
    exact ⟨hm, hmem⟩
  rcases hreq with rfl | ⟨blob, hide, rfl⟩
  · refine .map (.bind (authorize_solo (.unfailing rfl) (fun _ _ => .pure h) fun m t hm hf => ?_))
    obtain ⟨hfound, hmem⟩ := stored m hm hf
    refine acknowledge_solo (.unfailing rfl) hfound (fun next _ _ hn => ?_) fun _ => h
    refine h.replace hmem (Message.became_of_acknowledged? hn).index
      (Message.not_pending_of_delivered (hfits m hm hf).2) (Message.not_pending_of_acked ?_)
    rw [(Message.acknowledged?_eq_some hn).2]
  · refine .map (.bind (authorize_solo (.unfailing rfl) (fun _ _ => .pure h) fun m t hm hf => ?_))
    obtain ⟨hfound, hmem⟩ := stored m hm hf
    refine .map (revise_solo (.unfailing rfl) hfound (hfits m hm hf).1 (fun next _ _ _ hn => ?_)
      fun _ => h)
    refine h.replace hmem (Message.became_of_revised? hn).index
      (Message.not_pending_of_delivered (hfits m hm hf).2) (Message.not_pending_of_delivered ?_)
    rw [(Message.revised?_eq_some hn).2]
    exact (hfits m hm hf).2

theorem receive_fifo {limit : Nat} (h : Fifo q k rows c) :
    ((Request.receive limit hide).op q).Solo (ordered q k c)
      (fun reply rows _ => Onward q k rows c (firstDelivery? (.ok reply))) rows c := by
  refine (receive_lone Fifo.loneReader h (Nat.le_refl c)).mono fun reply rows t ho => ?_
  obtain ⟨o, rfl, ho⟩ := ho
  cases o with
  | none => exact ho
  | some m => exact ho

/-! ## Repair -/

theorem advance_fifo (h : Fifo q k rows c) :
    (Repair.advance q b).Solo (ordered q k c) (fun _ rows' _ => Fifo q k rows' c ∧
      rows'.messages = rows.messages) rows t := by
  refine .bind
    (nextIndex_solo (.unfailing rfl) fun _ _ => .bind (.inRange (fun next _ => ?_) fun _ => h))
  refine .ite (fun _ => .pure ⟨h, rfl⟩) fun _ => .bind ?_
  refine Cursor.moveIf_stays_or_moves (.unfailing rfl) (fun _ _ _ => .pure ⟨h, rfl⟩) fun _ _ => ?_
  exact .pure ⟨h.cells rfl rfl, rfl⟩

/-- Nothing in a sealed bucket is left to hand out first, so nothing there is written again. -/
theorem repairBucket_fifo {sealedAt : Instant} (h : Fifo q k rows c)
    (hsealed : rows.sealedAt? b = some sealedAt) :
    (Repair.repairBucket q cfg b sealedAt (rows.inBucket b)).Solo (ordered q k c)
      (fun _ rows _ => Fifo q k rows c) rows t := by
  have hdone : ∀ row ∈ rows.messages, row.bucket = b → row.message.pending = false := by
    rintro row hrow rfl
    refine Bool.eq_false_iff.mpr fun hp => ?_
    rw [h.unsealed row hrow hp] at hsealed
    cases hsealed
  refine .bind (wait_solo (.unfailing rfl) fun t _ => .bind (.now fun now _ => ?_))
  refine .andThen (.foldlM (fun rest _ rs _ => rs = rows ∧ ∀ m ∈ rest, m.pending = false)
    ⟨rfl, fun m hm => hdone _ (Rows.mem_inBucket.mp hm) rfl⟩ ?_) ?_
  · rintro m rest ⟨settled, ghosts⟩ _ c ⟨rfl, hrest⟩
    have hnot := hrest m List.mem_cons_self
    have hrest := fun n hn => hrest n (List.mem_cons_of_mem m hn)
    refine .ite (fun _ => .pure ⟨rfl, hrest⟩) fun hacked => .ite (fun _ => .pure ⟨rfl, hrest⟩) ?_
    intro hdue
    simp only [Bool.or_eq_true, not_or, Bool.not_eq_true] at hdue
    rw [Message.pending_of_undelivered (by simpa using hacked) hdue.1] at hnot
    cases hnot
  · rintro ⟨settled, ghosts⟩ _ t ⟨rfl, _⟩
    refine .andThen (advance_fifo h) fun _ rows' t ⟨h', hsame⟩ => ?_
    refine .ite (fun _ => .bind ?_) fun _ => .pure h'
    exact clear_solo (.unfailing rfl) (fun _ _ _ => .pure h')
      fun _ _ _ => .pure (h'.removeBucket (hsame ▸ hdone))

theorem tick_fifo (h : Fifo q k rows c) :
    ((Request.tick cfg).op q).Solo (ordered q k c)
      (fun reply rows _ => Onward q k rows c (firstDelivery? (.ok reply))) rows c := by
  have htick : (Repair.tick q cfg).Solo (ordered q k c)
      (fun _ rows _ => Fifo q k rows c) rows c := by
    refine tick_parts (J := fun _ rows => Fifo q k rows c)
      (fun _ => .unfailing rfl) (fun h => h) ?_ ?_
      repairBucket_fifo h
    · intro b rows h hacked
      exact h.removeBucket fun row hrow hb => Message.not_pending_of_acked (hacked row hrow hb)
    · intro b rows c h
      exact (advance_fifo h).mono fun _ _ _ hfifo => ⟨hfifo.1, fun _ _ => hfifo.1⟩
  exact .map htick

/-! ## Every run -/

/-- Whole operations of honest consumers, and puts without a delay. -/
def Prompt : Rule := fun w a => (Whole w a ∧ Honest w a) ∧
  ∀ blob delay, a = .start (.put blob delay) → delay = 0

def firsts (rs : List Result) : List UInt64 := rs.filterMap firstDelivery?

/-- So far the first deliveries came in order, and the order goes on. -/
def InOrder (q : Queue) (rs : List Result) (rows : Rows) (c : Instant) : Prop :=
  (firsts rs).reverse.map UInt64.toNat = List.range (firsts rs).length ∧
    Fifo q (firsts rs).length rows c

theorem InOrder.later {rs : List Result} (h : InOrder q rs rows c) (hc : c ≤ t) :
    InOrder q rs rows t := ⟨h.1, h.2.later hc⟩

theorem Onward.later {o : Option UInt64} (h : Onward q k rows c o) (hc : c ≤ t) :
    Onward q k rows t o := by
  cases o with
  | none => exact Fifo.later h hc
  | some i => exact ⟨h.1, h.2.later hc⟩

theorem InOrder.cons {rs : List Result} {result : Result}
    (h : (firsts rs).reverse.map UInt64.toNat = List.range (firsts rs).length)
    (ho : Onward q (firsts rs).length rows c (firstDelivery? result)) :
    InOrder q (result :: rs) rows c := by
  unfold InOrder firsts
  cases hfirst : firstDelivery? result with
  | none =>
    rw [hfirst] at ho
    rw [List.filterMap_cons_none hfirst]
    exact ⟨h, ho⟩
  | some i =>
    rw [hfirst] at ho
    obtain ⟨hi, hfifo⟩ := ho
    rw [List.filterMap_cons_some hfirst]
    refine ⟨?_, hfifo⟩
    show (i :: firsts rs).reverse.map UInt64.toNat = List.range ((firsts rs).length + 1)
    rw [List.reverse_cons, List.map_append, h, List.range_succ, ← hi]
    rfl

/-- An operation that is left alone keeps the order. -/
theorem Reachable.serves_onward (h : Reachable q Prompt w) {r : Request} (hr : Prompt w (.start r))
    (hfifo : Fifo q k w.rows w.clock) : (r.op q).Solo (ordered q k w.clock)
      (fun reply rows t => Onward q k rows t (firstDelivery? (.ok reply))) w.rows w.clock := by
  have honest : Reachable q Honest w := h.mono fun _ _ ha => ha.1.2
  have undropped := honest.mono fun _ _ => undropped_of_honest
  have still : ∀ {r : Request}, (r.op q).Solo (ordered q k w.clock)
      (fun reply rows _ => Onward q k rows w.clock (firstDelivery? (.ok reply))) w.rows w.clock →
      (r.op q).Solo (ordered q k w.clock)
        (fun reply rows t => Onward q k rows t (firstDelivery? (.ok reply))) w.rows w.clock :=
    fun hsolo => hsolo.later.mono fun _ _ _ ho => ho.2.later ho.1
  have fits : ∀ {receipt : Receipt}, Issued w.history receipt → ∀ m,
      w.rows.find? (q.bucketOf receipt.index) receipt.index = some m → receipt.fits m = true →
      m.acked = false ∧ m.delivered = true := by
    intro receipt hissued m hm hf
    have hhidden := undropped.hidden_of_issued hissued (Rows.find?_eq_some hm).1 hf
    exact ⟨undropped.hidden_unacked hhidden, honest.hidden_delivered m hhidden⟩
  cases r with
  | put blob delay =>
    obtain rfl := hr.2 blob delay rfl
    exact put_fifo hfifo undropped.tidy undropped.reader_le_head.2
  | receive limit hide => exact still (receive_fifo hfifo)
  | ack receipt => exact still (shows_fifo hfifo (.inl rfl) (fits hr.1.2))
  | update receipt blob hide => exact still (shows_fifo hfifo (.inr ⟨_, _, rfl⟩) (fits hr.1.2))
  | tick cfg => exact still (tick_fifo hfifo)
  | drop => exact hr.1.2.elim

theorem Reachable.in_order (h : Reachable q Prompt w) : Between (InOrder q) w := by
  refine h.between (fun _ _ ha => ha.1.1) ⟨rfl, Fifo.fresh⟩ (fun hc hI => hI.later hc) ?_
  intro w r hw hr hI
  have hsolo := hw.serves_onward hr hI.2
  refine (Program.Solo.later hsolo).mono fun result rows t ⟨hc, hend⟩ => InOrder.cons hI.1 ?_
  cases result with
  | ok reply => exact hend
  | error f => exact Fifo.later hend hc

/-- First in, first out. In a run of whole operations on a fresh queue whose puts have no delay, the
messages that are returned with one delivery are those at the indices 0, 1, 2 and so on, in this
order. -/
theorem first_in_first_out (h : Reachable q Prompt w) :
    (firsts (results w.history)).reverse.map UInt64.toNat =
      List.range (firsts (results w.history)).length := by
  obtain ⟨rows, c, hI, _⟩ := h.in_order.at_any_time
  exact hI

/-- Whether the receipt came with a delivery. -/
def deliveredWith (h : History) (r : Receipt) : Bool :=
  h.any fun
    | .ended _ (.ok (.delivery (some d))) => d.receipt = r
    | _ => false

/-- Whether the action may be next in a run of whole operations without delays or updates. -/
def promptly (w : World) (a : Action) : Bool :=
  allDone w a && match a with
    | .start (.put _ delay) => delay = 0
    | .start (.ack r) => deliveredWith w.history r
    | .start (.update _ _ _) => false
    | .fail _ _ => false
    | _ => true

theorem Reachable.promptly {rule : Rule} {a : Action} (h : Reachable q rule w)
    (ha : promptly w a = true) : Prompt w a := by
  obtain ⟨hdone, ha⟩ := Bool.and_eq_true_iff.mp ha
  have hone := h.allDone hdone
  cases a with
  | start r =>
    cases r with
    | put blob delay =>
      exact ⟨⟨⟨hone, nofun⟩, trivial⟩, by rintro _ _ ⟨⟩; exact of_decide_eq_true ha⟩
    | receive limit hide => exact ⟨⟨⟨hone, nofun⟩, trivial⟩, nofun⟩
    | ack r =>
      obtain ⟨e, he, hd⟩ := List.any_eq_true.mp ha
      refine ⟨⟨⟨hone, nofun⟩, ?_⟩, nofun⟩
      split at hd
      · exact .inl ⟨_, _, he, of_decide_eq_true hd⟩
      · cases hd
    | update r blob hide => cases ha
    | tick cfg => exact ⟨⟨⟨hone, nofun⟩, trivial⟩, nofun⟩
    | drop => exact absurd rfl (hone _ rfl).1
  | pass d => exact ⟨⟨⟨hone, nofun⟩, trivial⟩, nofun⟩
  | act t tag => exact ⟨⟨⟨hone, nofun⟩, trivial⟩, nofun⟩
  | fail t e => cases ha
  | finish t => exact ⟨⟨⟨hone, nofun⟩, trivial⟩, nofun⟩

/-- The first message is handed out, its claim runs out, and it is handed out again. -/
def redelivered : List Action :=
  serve 0 (.put [1] 0) 6 ++ serve 1 (.put [2] 0) 6 ++ serve 2 (.receive 1 5) 12 ++ [.pass 10] ++
    serve 3 (.receive 1 5) 7

/-- It is acknowledged, the second message is handed out, and repair deletes the first bucket. Then
a third message is put and handed out. -/
def movedOn : List Action :=
  serve 4 (.ack ⟨0, 2, ⟨7⟩⟩) 2 ++ serve 5 (.receive 1 5) 23 ++ serve 6 (.tick {}) 11 ++
    serve 7 (.put [3] 0) 6 ++ serve 8 (.receive 1 5) 19

/-- There are four deliveries, and those that are the first of their messages come in order. -/
theorem first_in_first_out_redelivered :
    ∃ w d, Reachable singles Prompt w ∧ .ended 3 (.ok (.delivery (some d))) ∈ w.history ∧
      d.index = 0 ∧ d.deliveries = 2 ∧ (∀ row ∈ w.rows.messages, row.bucket ≠ 0) ∧
      (firsts (results w.history)).reverse.map UInt64.toNat = List.range 3 := by
  obtain ⟨v, w, d, hv, hw, hd, hindex, hcount, hrows, hlen⟩ : ∃ v w d,
      ({} : World).runIf? singles promptly redelivered = some v ∧
      v.runIf? singles promptly movedOn = some w ∧
      w.history[64]? = some (.ended 3 (.ok (.delivery (some d)))) ∧ d.index = 0 ∧
      d.deliveries = 2 ∧ w.rows.messages.map (·.bucket) = [1, 2] ∧
      (firsts (results w.history)).length = 3 :=
    ⟨_, _, _, rfl, rfl, rfl, rfl, rfl, rfl, rfl⟩
  have h : Reachable singles Prompt w :=
    .runIf (fun _ _ hr => hr.promptly) (.runIf (fun _ _ hr => hr.promptly) .fresh hv) hw
  refine ⟨w, d, h, List.mem_of_getElem? hd, hindex, hcount, fun row hrow hzero => ?_,
    hlen ▸ first_in_first_out h⟩
  have hmem : row.bucket ∈ [1, 2] := hrows ▸ List.mem_map.mpr ⟨row, hrow, rfl⟩
  rw [hzero] at hmem
  exact absurd hmem (by decide)

end LeaseQueue.Shared
