import LeaseQueue.Proofs.Shared.Indices
import Mathlib.Data.List.Nodup

/-
  What became of each row.

  In every run the stored rows have different indices, lie in the buckets of
  these and are in their order (`Reachable.orderly`, `Reachable.sorted`). As long
  as nobody drops the queue, a row that an effect met has become the row that is
  stored at its index later, if one is, and a row that is stored now was stored
  at every moment since its insert (`Reachable.traced`). Hence a write that
  compares versions replaces the very message that its writer had read
  (`Reachable.eq_of_known`).
-/

namespace LeaseQueue

namespace Rows

variable {rows : Rows} {b i : UInt64} {m : Message}

def Distinct (rows : Rows) : Prop := (rows.messages.map (·.message.index)).Nodup

theorem Distinct.eq (h : rows.Distinct) {r s : Row} (hr : r ∈ rows.messages)
    (hs : s ∈ rows.messages) (he : r.message.index = s.message.index) : r = s :=
  List.inj_on_of_nodup_map h hr hs he

theorem insertRow_perm (row : Row) (l : List Row) : (insertRow row l).Perm (row :: l) := by
  induction l with
  | nil => exact .refl _
  | cons r rest ih =>
    unfold insertRow
    split
    · exact .refl _
    · exact (ih.cons r).trans (.swap row r rest)

theorem Distinct.insert (h : rows.Distinct) (hm : ∀ r ∈ rows.messages, r.message.index ≠ m.index) :
    (rows.insert b m).Distinct := by
  refine ((insertRow_perm ⟨b, m⟩ rows.messages).map _).nodup_iff.mpr ?_
  rw [List.map_cons, List.nodup_cons]
  refine ⟨fun hmem => ?_, h⟩
  obtain ⟨r, hr, he⟩ := List.mem_map.mp hmem
  exact hm r hr he

theorem indices_replace : (rows.replace b m).messages.map (·.message.index) =
    rows.messages.map (·.message.index) := by
  rw [Rows.replace, List.map_map]
  refine List.map_congr_left fun r _ => ?_
  by_cases hr : r.sits b m.index = true
  · simp only [Row.sits, Bool.and_eq_true, decide_eq_true_eq] at hr
    simp [Row.sits, hr.1, hr.2]
  · simp [hr]

theorem Distinct.replace (h : rows.Distinct) : (rows.replace b m).Distinct := by
  rw [Distinct, indices_replace]
  exact h

theorem Distinct.removeBucket (h : rows.Distinct) : (rows.removeBucket b).Distinct :=
  List.Nodup.sublist (List.Sublist.map _ List.filter_sublist) h

theorem Distinct.inBucket (h : rows.Distinct) : ((rows.inBucket b).map (·.index)).Nodup := by
  rw [Rows.inBucket, List.map_map]
  exact List.Nodup.sublist (List.Sublist.map _ List.filter_sublist) h

theorem find?_eq_some (h : rows.find? b i = some m) : ⟨b, m⟩ ∈ rows.messages ∧ m.index = i := by
  obtain ⟨⟨b', m'⟩, hr, rfl⟩ := Option.map_eq_some_iff.mp h
  have hsits := List.find?_some hr
  simp only [Row.sits, Bool.and_eq_true, decide_eq_true_eq] at hsits
  exact ⟨hsits.1 ▸ List.mem_of_find?_eq_some hr, hsits.2⟩

theorem find?_eq_none (h : rows.find? b i = none) : ∀ m, ⟨b, m⟩ ∈ rows.messages → m.index ≠ i := by
  intro m hm hi
  have hnone := List.find?_eq_none.mp (Option.map_eq_none_iff.mp h) _ hm
  simp [Row.sits, hi] at hnone

theorem Distinct.find? (h : rows.Distinct) (hm : ⟨b, m⟩ ∈ rows.messages) :
    rows.find? b m.index = some m := by
  cases hf : rows.find? b m.index with
  | none => exact absurd rfl (find?_eq_none hf m hm)
  | some n =>
    obtain ⟨hn, hi⟩ := find?_eq_some hf
    have he := h.eq hn hm hi
    cases he
    rfl

/-! ## The order of rows -/

/-- The rows are in the order of bucket and index, each at a place of its own. -/
def Sorted (rows : List Row) : Prop := rows.Pairwise fun r s => r.before s = true

theorem before_iff {r s : Row} : r.before s = true ↔
    r.bucket < s.bucket ∨ r.bucket = s.bucket ∧ r.message.index < s.message.index := by
  simp [Row.before]

theorem before_trans {r s t : Row} (h : r.before s = true) (h' : s.before t = true) :
    r.before t = true := by
  rw [before_iff, UInt64.lt_iff_toNat_lt, UInt64.lt_iff_toNat_lt, ← UInt64.toNat_inj] at *
  omega

theorem before_total {r s : Row} (h : r.sits s.bucket s.message.index = false)
    (h' : s.before r = false) : r.before s = true := by
  rw [← Bool.not_eq_true, before_iff] at h'
  simp only [Row.sits, Bool.and_eq_false_iff, decide_eq_false_iff_not] at h
  rw [before_iff]
  rw [UInt64.lt_iff_toNat_lt, UInt64.lt_iff_toNat_lt, ← UInt64.toNat_inj] at *
  rw [← UInt64.toNat_inj] at h
  omega

theorem Sorted.insertRow {row : Row} {l : List Row} (h : Sorted l)
    (hfree : ∀ r ∈ l, r.sits row.bucket row.message.index = false) : Sorted (insertRow row l) := by
  induction l with
  | nil => exact List.pairwise_singleton _ _
  | cons r rest ih =>
    obtain ⟨hr, hrest⟩ := List.pairwise_cons.mp h
    unfold Rows.insertRow
    split
    · rename_i hlt
      refine List.pairwise_cons.mpr ⟨fun s hs => ?_, h⟩
      rcases List.mem_cons.mp hs with rfl | hs
      · exact hlt
      · exact before_trans hlt (hr s hs)
    · rename_i hlt
      refine List.pairwise_cons.mpr
        ⟨fun s hs => ?_, ih hrest fun s hs => hfree s (List.mem_cons_of_mem _ hs)⟩
      rcases mem_insertRow.mp hs with rfl | hs
      · exact before_total (hfree r List.mem_cons_self) (Bool.eq_false_iff.mpr hlt)
      · exact hr s hs

/-- A row that comes before no other one is inserted last. -/
theorem insertRow_last {row : Row} {l : List Row} (h : ∀ r ∈ l, row.before r = false) :
    insertRow row l = l ++ [row] := by
  induction l with
  | nil => rfl
  | cons r rest ih =>
    rw [insertRow, if_neg (Bool.eq_false_iff.mp (h r List.mem_cons_self)),
      ih fun s hs => h s (List.mem_cons_of_mem r hs)]
    rfl

theorem Sorted.replace (h : Sorted rows.messages) : Sorted (rows.replace b m).messages := by
  refine List.pairwise_map.mpr (h.imp fun {r s} hlt => ?_)
  have same : ∀ r : Row, (if r.sits b m.index then ⟨b, m⟩ else r : Row).bucket = r.bucket ∧
      (if r.sits b m.index then ⟨b, m⟩ else r : Row).message.index = r.message.index := by
    intro r
    split
    · rename_i hsits
      simp only [Row.sits, Bool.and_eq_true, decide_eq_true_eq] at hsits
      exact ⟨hsits.1.symm, hsits.2.symm⟩
    · exact ⟨rfl, rfl⟩
  rw [before_iff] at hlt ⊢
  rw [(same r).1, (same r).2, (same s).1, (same s).2]
  exact hlt

theorem Sorted.inBucket (h : Sorted rows.messages) :
    (rows.inBucket b).Pairwise fun m n => m.index < n.index := by
  refine List.pairwise_map.mpr (List.Pairwise.imp_of_mem (fun {r s} hr hs hlt => ?_) (h.filter _))
  have hr : r.bucket = b := by simpa using (List.mem_filter.mp hr).2
  have hs : s.bucket = b := by simpa using (List.mem_filter.mp hs).2
  rw [before_iff, hr, hs] at hlt
  exact (hlt.resolve_left (UInt64.lt_irrefl b)).2

end Rows

namespace Shared

variable {q : Queue} {w : World} {t : Nat} {h past : History}

/-! ## Where rows lie -/

/-- The stored rows have different indices and lie in the buckets of these. -/
def Orderly (q : Queue) (rows : Rows) : Prop :=
  rows.Distinct ∧ ∀ r ∈ rows.messages, r.bucket = q.bucketOf r.message.index

theorem Orderly.replace {rows : Rows} {b : UInt64} {m : Message} (ho : Orderly q rows) :
    Orderly q (rows.replace b m) := by
  refine ⟨ho.1.replace, fun r hr => ?_⟩
  rcases Rows.mem_replace.mp hr with ⟨s, hs, hsits, rfl⟩ | ⟨hr, _⟩
  · simp only [Row.sits, Bool.and_eq_true, decide_eq_true_eq] at hsits
    show b = q.bucketOf m.index
    rw [← hsits.1, ← hsits.2, ho.2 s hs]
  · exact ho.2 r hr

theorem Orderly.insert {rows : Rows} {m : Message} (ho : Orderly q rows)
    (free : rows.find? (q.bucketOf m.index) m.index = none) :
    Orderly q (rows.insert (q.bucketOf m.index) m) := by
  refine ⟨ho.1.insert fun r hr hi => ?_, fun r hr => ?_⟩
  · have hb : r.bucket = q.bucketOf m.index := hi ▸ ho.2 r hr
    exact Rows.find?_eq_none free r.message (hb ▸ hr) hi
  · rcases Rows.mem_insert.mp hr with rfl | hr
    · rfl
    · exact ho.2 r hr

/-- What the queue is asked for and who drops it is of no matter to where rows lie. -/
theorem Reachable.orderly {rule : Rule} (h : Reachable q rule w) : Orderly q w.rows := by
  refine h.changes (P := fun rows _ => Orderly q rows) ⟨List.nodup_nil, nofun⟩
    (fun _ _ _ _ ho => ho) (fun _ _ _ _ ho => ho) ?_
  intro v t r s rows _ _ hp htouch ho
  cases htouch with
  | leaves _ => exact ho
  | swaps => exact ho
  | records _ => exact ho
  | replaces _ _ => exact ho.replace
  | deletes => exact ⟨ho.1.removeBucket, fun r hr => ho.2 r (Rows.mem_removeBucket.mp hr).1⟩
  | inserts free =>
    obtain ⟨rfl, _⟩ := hp.insert
    exact ho.insert free
  | drops => exact ⟨List.nodup_nil, nofun⟩

theorem Reachable.sorted {rule : Rule} (h : Reachable q rule w) : Rows.Sorted w.rows.messages := by
  refine h.changes (P := fun rows _ => Rows.Sorted rows.messages) List.Pairwise.nil
    (fun _ _ _ _ hs => hs) (fun _ _ _ _ hs => hs) ?_
  intro v t r s rows _ _ _ htouch hs
  cases htouch with
  | leaves _ => exact hs
  | swaps => exact hs
  | records _ => exact hs
  | replaces _ _ => exact hs.replace
  | deletes => exact hs.filter _
  | inserts free =>
    refine hs.insertRow fun r hr => ?_
    exact Bool.eq_false_iff.mpr (List.find?_eq_none.mp (Option.map_eq_none_iff.mp free) r hr)
  | drops => exact List.Pairwise.nil

/-- The stored rows have different indices, lie in the buckets of these and were all inserted. -/
structure Filed (q : Queue) (rows : Rows) (h : History) : Prop where
  distinct : rows.Distinct
  placed : ∀ r ∈ rows.messages, r.bucket = q.bucketOf r.message.index
  inserted : ∀ r ∈ rows.messages, Inserted r.message.index h

theorem Reachable.stored_inserted {rule : Rule} (h : Reachable q rule w) :
    ∀ r ∈ w.rows.messages, Inserted r.message.index w.history := by
  refine h.changes (P := fun rows h => ∀ r ∈ rows.messages, Inserted r.message.index h) nofun
    (fun _ _ _ _ ih r hr => inserted_started.mpr (ih r hr))
    (fun _ _ _ _ ih r hr => inserted_ended.mpr (ih r hr)) ?_
  intro v t _ s rows _ _ _ htouch ih r hr
  have later : ∀ r ∈ v.rows.messages,
      Inserted r.message.index (.performed t v.clock v.rows s :: v.history) :=
    fun r hr => (ih r hr).mono (List.suffix_cons _ _)
  cases htouch with
  | leaves _ => exact later r hr
  | swaps => exact later r hr
  | records _ => exact later r hr
  | deletes => exact later r (Rows.mem_removeBucket.mp hr).1
  | replaces _ _ =>
    rcases Rows.mem_replace.mp hr with ⟨s, hs, hsits, rfl⟩ | ⟨hr, _⟩
    · simp only [Row.sits, Bool.and_eq_true, decide_eq_true_eq] at hsits
      exact hsits.2 ▸ later s hs
    · exact later r hr
  | inserts _ =>
    rcases Rows.mem_insert.mp hr with rfl | hr
    · exact inserted_performed.mpr (.inl ⟨_, _, rfl, rfl⟩)
    · exact later r hr
  | drops => cases hr

theorem Reachable.filed (h : Reachable q Undropped w) : Filed q w.rows w.history :=
  ⟨h.orderly.1, h.orderly.2, h.stored_inserted⟩

/-! ## What an effect met -/

def Met (h : History) (r : Row) : Prop :=
  ∃ t c rows s, .performed t c rows s ∈ h ∧ r ∈ rows.messages

theorem not_met_nil {r : Row} : ¬ Met [] r := by
  rintro ⟨t, c, rows, s, he, _⟩
  exact List.not_mem_nil he

/-- The world in which a task has seen something. -/
theorem Reachable.seen_at {rule : Rule} (h : Reachable q rule w) {s : Seen}
    (hs : s ∈ seenBy t w.history) :
    ∃ v r rows', Reachable q rule v ∧ .performed t v.clock v.rows s :: v.history <:+ w.history ∧
      .started t r ∈ v.history ∧ Permitted q r (seenBy t v.history) s.effect ∧
      Answered v.rows v.clock s rows' := by
  obtain ⟨c, rows, he⟩ := mem_seenBy.mp hs
  obtain ⟨past, hs⟩ := suffix_of_mem he
  obtain ⟨v, r, _, rows', hv, rfl, rfl, rfl, ht, hans, _⟩ := h.at_effect hs
  obtain ⟨hstarted, hp, _⟩ := hv.task_obeys (requests_keep rule) ht
  exact ⟨v, r, rows', hv, hs, hstarted, hp, hans⟩

theorem met_performed {c : Instant} {rows : Rows} {s : Seen} {r : Row} :
    Met (.performed t c rows s :: h) r ↔ r ∈ rows.messages ∨ Met h r := by
  constructor
  · rintro ⟨t', c', rows', s', hmem, hr⟩
    rcases List.mem_cons.mp hmem with he | hmem
    · cases he
      exact .inl hr
    · exact .inr ⟨t', c', rows', s', hmem, hr⟩
  · rintro (hr | ⟨t', c', rows', s', hmem, hr⟩)
    · exact ⟨t, c, rows, s, List.mem_cons_self, hr⟩
    · exact ⟨t', c', rows', s', List.mem_cons_of_mem _ hmem, hr⟩

@[simp] theorem met_started {req : Request} {r : Row} : Met (.started t req :: h) r ↔ Met h r := by
  simp [Met]

@[simp] theorem met_ended {result : Result} {r : Row} : Met (.ended t result :: h) r ↔ Met h r := by
  simp [Met]

theorem Reachable.met_filed (h : Reachable q Undropped w) {r : Row} (hr : Met w.history r) :
    r.bucket = q.bucketOf r.message.index ∧ Inserted r.message.index w.history := by
  obtain ⟨t, c, rows, s, he, hr⟩ := hr
  obtain ⟨past, hs⟩ := suffix_of_mem he
  obtain ⟨v, _, _, _, hv, rfl, rfl, _⟩ := h.at_effect hs
  exact ⟨hv.filed.placed r hr, (hv.filed.inserted r hr).mono ((List.suffix_cons _ _).trans hs)⟩

theorem Reachable.met_of_known_in {rule : Rule} (h : Reachable q rule w) {part : History}
    (hpart : part ⊆ w.history) {m : Message} (hm : Known (seenBy t part) m) :
    ∃ b, Met part ⟨b, m⟩ := by
  have told : ∀ {c a}, Told (seenBy t part) c a → ∃ clock rows,
      .performed t clock rows ⟨.call c, .ok a⟩ ∈ part ∧ (rows.apply c).1 = a := by
    intro c a hseen
    obtain ⟨clock, rows, he⟩ := mem_seenBy.mp hseen
    obtain ⟨past, hs⟩ := suffix_of_mem (hpart he)
    obtain ⟨_, _, _, _, _, _, _, _, _, hans, _⟩ := h.at_effect hs
    exact ⟨clock, rows, he, (congrArg Prod.fst hans).symm⟩
  rcases hm with ⟨b, ms, hseen, hm⟩ | ⟨b, i, hseen⟩
  · obtain ⟨c, rows, he, rfl⟩ := told hseen
    exact ⟨b, t, c, rows, _, he, Rows.mem_inBucket.mp hm⟩
  · obtain ⟨c, rows, he, hfind⟩ := told hseen
    exact ⟨b, t, c, rows, _, he, (Rows.find?_eq_some hfind).1⟩

/-- A message that a task has read was stored then. -/
theorem Reachable.met_of_known {rule : Rule} (h : Reachable q rule w) {m : Message}
    (hm : Known (seenBy t w.history) m) : ∃ b, Met w.history ⟨b, m⟩ :=
  h.met_of_known_in (List.Subset.refl _) hm

/-! ## What was written -/

/-- The message that an applied insert or update left. -/
def Seen.written : Seen → Option Message
  | ⟨.call (.insertMessage _ m), .ok true⟩ => some m
  | ⟨.call (.updateMessage _ m _), .ok true⟩ => some m
  | _ => none

def Wrote (h : History) (m : Message) : Prop :=
  ∃ t c rows s, .performed t c rows s ∈ h ∧ s.written = some m

theorem not_wrote_nil {m : Message} : ¬ Wrote [] m := by
  rintro ⟨t, c, rows, s, he, _⟩
  exact List.not_mem_nil he

theorem wrote_performed {c : Instant} {rows : Rows} {s : Seen} {m : Message} :
    Wrote (.performed t c rows s :: h) m ↔ s.written = some m ∨ Wrote h m := by
  constructor
  · rintro ⟨t', c', rows', s', hmem, hm⟩
    rcases List.mem_cons.mp hmem with he | hmem
    · cases he
      exact .inl hm
    · exact .inr ⟨t', c', rows', s', hmem, hm⟩
  · rintro (hm | ⟨t', c', rows', s', hmem, hm⟩)
    · exact ⟨t, c, rows, s, List.mem_cons_self, hm⟩
    · exact ⟨t', c', rows', s', List.mem_cons_of_mem _ hmem, hm⟩

@[simp] theorem wrote_started {req : Request} {m : Message} :
    Wrote (.started t req :: h) m ↔ Wrote h m := by
  simp [Wrote]

@[simp] theorem wrote_ended {result : Result} {m : Message} :
    Wrote (.ended t result :: h) m ↔ Wrote h m := by
  simp [Wrote]

theorem Wrote.mono {m : Message} (hm : Wrote past m) (hs : past <:+ h) : Wrote h m := by
  obtain ⟨t, c, rows, s, he, hm⟩ := hm
  exact ⟨t, c, rows, s, hs.subset he, hm⟩

/-- What is known of an update: it comes of a message that the task has read, at the version that
the task has read, and it acknowledges the message unless it asks for an unacknowledged one. -/
structure Updates (tr : List Seen) (m next : Message) (cond : Condition) : Prop where
  known : Known tr m
  version : cond.version = m.version
  step : next.version.toNat = m.version.toNat + 1
  became : m.Became next
  acks : cond.unacked = false →
    next.acked = true ∧ next.visibleAt = m.visibleAt ∧ next.deliveries = m.deliveries
  keeps : cond.unacked = true → next.acked = m.acked

theorem updates_of_acknowledged? {tr : List Seen} {m next : Message} (hk : Known tr m)
    (hn : m.acknowledged? = some next) : Updates tr m next ⟨m.version, false⟩ := by
  obtain ⟨hv, he⟩ := Message.acknowledged?_eq_some hn
  refine ⟨hk, rfl, hv, Message.became_of_acknowledged? hn, fun _ => ?_, nofun⟩
  rw [he]
  exact ⟨rfl, rfl, rfl⟩

theorem Permitted.update {r : Request} {tr : List Seen} {b : UInt64} {next : Message}
    {cond : Condition} (h : Permitted q r tr (.call (.updateMessage b next cond))) :
    ∃ m, b = q.bucketOf m.index ∧ Updates tr m next cond := by
  cases h with
  | looks h => cases h
  | @claims _ _ _ m _ h =>
    obtain ⟨t, _, hn⟩ := h.next
    obtain ⟨hv, he⟩ := Message.claimed?_eq_some hn
    exact ⟨m, rfl, h.known, rfl, hv, Message.became_of_claimed? hn, nofun, fun _ => by rw [he]⟩
  | @retires _ _ _ m _ h => exact ⟨m, rfl, updates_of_acknowledged? h.known h.next⟩
  | @acks _ _ m _ h hn => exact ⟨m, rfl, updates_of_acknowledged? (.inr ⟨_, _, h.told⟩) hn⟩
  | @revises _ _ _ _ m _ _ h _ hn =>
    obtain ⟨hv, he⟩ := Message.revised?_eq_some hn
    exact ⟨m, rfl, .inr ⟨_, _, h.told⟩, rfl, hv, Message.became_of_revised? hn, nofun,
      fun _ => by rw [he]⟩
  | @settles _ _ m _ h => exact ⟨m, rfl, updates_of_acknowledged? h.known h.next⟩

/-! ## What became of it -/

/-- The stored rows are what became of the rows that effects met and of the messages that were
written at their indices, and were there ever since they were inserted. -/
structure Traced (rows : Rows) (h : History) : Prop where
  met : ∀ r, Met h r → ∀ r' ∈ rows.messages, r'.message.index = r.message.index →
    r.message.Became r'.message
  wrote : ∀ m, Wrote h m → ∀ r' ∈ rows.messages, r'.message.index = m.index →
    m.Became r'.message
  since : ∀ t c rs s past, .performed t c rs s :: past <:+ h → ∀ r' ∈ rows.messages,
    Inserted r'.message.index past → ∃ r ∈ rs.messages, r.message.index = r'.message.index

/-- Each row comes of one that was there before or is at an index that was not written to. -/
def Follows (rows rows' : Rows) (h : History) : Prop :=
  ∀ r' ∈ rows'.messages, (∃ r ∈ rows.messages, r'.message.index = r.message.index ∧
    r.message.Became r'.message) ∨ ¬ Inserted r'.message.index h

theorem Follows.of_subset {rows rows' : Rows} (hsub : ∀ r ∈ rows'.messages, r ∈ rows.messages) :
    Follows rows rows' h :=
  fun r hr => .inl ⟨r, hsub r hr, rfl, .refl _⟩

theorem inserted_of_wrote {m : Message} (h : Reachable q Undropped w) (hm : Wrote w.history m) :
    Inserted m.index w.history := by
  obtain ⟨t, c, rows, s, he, hm⟩ := hm
  obtain ⟨past, hs⟩ := suffix_of_mem he
  obtain ⟨v, r, k, rows', hv, rfl, rfl, rfl, ht, hans, hv'⟩ := h.at_effect hs
  have hp := (hv.task_obeys (requests_keep _) ht).2.1
  unfold Seen.written at hm
  split at hm
  · cases hm
    exact ⟨t, _, _, _, m, he, rfl⟩
  · cases hm
    obtain ⟨m₀, _, hu⟩ := hp.update
    obtain ⟨b, hb⟩ := hv.met_of_known hu.known
    rw [hu.became.index]
    exact (hv.met_filed hb).2.mono ((List.suffix_cons _ _).trans hs)
  · cases hm

theorem Traced.step {rows rows' : Rows} {c : Instant} {s : Seen} (ht : Traced rows h)
    (hf : Filed q rows h) (hmet : ∀ r, Met h r → Inserted r.message.index h)
    (hwrote : ∀ m, Wrote h m → Inserted m.index h) (hr : Follows rows rows' h)
    (hw : ∀ m, s.written = some m → ∀ r' ∈ rows'.messages, r'.message.index = m.index →
      r'.message = m) :
    Traced rows' (.performed t c rows s :: h) := by
  -- A row comes of the one at its index, or nothing was met or written at its index before.
  refine ⟨?_, ?_, ?_⟩
  · intro r hm r' hr' hi
    rw [met_performed] at hm
    rcases hr r' hr' with ⟨r₀, hr₀, hi₀, hbec⟩ | hnew
    · rcases hm with hm | hm
      · rw [hf.distinct.eq hm hr₀ (hi.symm.trans hi₀)]
        exact hbec
      · exact (ht.met r hm r₀ hr₀ (hi₀.symm.trans hi)).trans hbec
    · rw [hi] at hnew
      exact absurd (hm.elim (hf.inserted r) (hmet r)) hnew
  · intro m hm r' hr' hi
    rcases wrote_performed.mp hm with hm | hm
    · rw [hw m hm r' hr' hi]
      exact .refl m
    · rcases hr r' hr' with ⟨r₀, hr₀, hi₀, hbec⟩ | hnew
      · exact (ht.wrote m hm r₀ hr₀ (hi₀.symm.trans hi)).trans hbec
      · rw [hi] at hnew
        exact absurd (hwrote m hm) hnew
  · intro u c' rs s' past hs r' hr' hins
    rcases List.suffix_cons_iff.mp hs with he | hs
    · cases he
      rcases hr r' hr' with ⟨r₀, hr₀, hi₀, _⟩ | hnew
      · exact ⟨r₀, hr₀, hi₀.symm⟩
      · exact absurd hins hnew
    · rcases hr r' hr' with ⟨r₀, hr₀, hi₀, _⟩ | hnew
      · rw [hi₀] at hins ⊢
        exact ht.since u c' rs s' past hs r₀ hr₀ hins
      · exact absurd (hins.mono ((List.suffix_cons _ _).trans hs)) hnew

/-- A stored message with the index and the version of one that a task has read is that one. -/
theorem Reachable.eq_of_known (h : Reachable q Undropped w) (ht : Traced w.rows w.history)
    {m : Message} {r : Row} (hm : Known (seenBy t w.history) m) (hr : r ∈ w.rows.messages)
    (hi : r.message.index = m.index) (hv : r.message.version = m.version) : r.message = m := by
  obtain ⟨b, hb⟩ := h.met_of_known hm
  exact (ht.met ⟨b, m⟩ hb r hr hi).eq_of_version hv

theorem Reachable.traced (h : Reachable q Undropped w) : Traced w.rows w.history := by
  refine h.changes (P := Traced) ?_ ?_ ?_ ?_
  · refine ⟨fun r hr => absurd hr not_met_nil, fun m hm => absurd hm not_wrote_nil,
      fun t c rs s past hs => ?_⟩
    exact absurd (List.suffix_nil.mp hs) (List.cons_ne_nil _ _)
  · exact fun rows past t r h => ⟨by simpa using h.met, by simpa using h.wrote,
      fun u c rs s past' hs => h.since u c rs s past'
        ((List.suffix_cons_iff.mp hs).resolve_left nofun)⟩
  · exact fun rows past t r h => ⟨by simpa using h.met, by simpa using h.wrote,
      fun u c rs s past' hs => h.since u c rs s past'
        ((List.suffix_cons_iff.mp hs).resolve_left nofun)⟩
  · intro v t r s rows hv hstarted hp htouch ht
    have hf := hv.filed
    have step : ∀ {rows'}, Follows v.rows rows' v.history → (∀ m, s.written = some m →
        ∀ r' ∈ rows'.messages, r'.message.index = m.index → r'.message = m) →
        Traced rows' (.performed t v.clock v.rows s :: v.history) :=
      fun hr hw =>
        ht.step hf (fun r hr => (hv.met_filed hr).2) (fun m => inserted_of_wrote hv) hr hw
    cases htouch with
    | leaves hs =>
      refine step (.of_subset fun r hr => hr) fun m hm => ?_
      unfold Seen.written at hm
      split at hm <;> cases hm <;> cases hs
    | swaps => exact step (.of_subset fun r hr => hr) nofun
    | records _ => exact step (.of_subset fun r hr => hr) nofun
    | deletes => exact step (.of_subset fun r hr => (Rows.mem_removeBucket.mp hr).1) nofun
    | @replaces b next stored cond found holds =>
      obtain ⟨m, rfl, hu⟩ := hp.update
      obtain ⟨hstored, hi⟩ := Rows.find?_eq_some found
      simp only [Condition.holds, Bool.and_eq_true, decide_eq_true_eq] at holds
      -- The version is still the one that was read, so the message is.
      have he : stored = m := hv.eq_of_known ht hu.known hstored (hi.trans hu.became.index)
        (holds.1.trans hu.version)
      refine step (fun r hr => .inl ?_) fun n hn r hr hri => ?_
      · rcases Rows.mem_replace.mp hr with ⟨_, _, _, rfl⟩ | ⟨hr, _⟩
        · exact ⟨_, hstored, hi.symm, he ▸ hu.became⟩
        · exact ⟨r, hr, rfl, .refl _⟩
      · cases hn
        rcases Rows.mem_replace.mp hr with ⟨_, _, _, rfl⟩ | ⟨hr, hsits⟩
        · rfl
        · cases hf.distinct.eq hr hstored (hri.trans hi.symm)
          simp [Row.sits, hi] at hsits
    | @inserts b m free =>
      obtain ⟨rfl, _, _, hins⟩ := hp.insert
      have hnew := (hv.indexed.held t _ hins.hand).2
      refine step (fun r hr => ?_) fun n hn r hr hri => ?_
      · rcases Rows.mem_insert.mp hr with rfl | hr
        · exact .inr hnew
        · exact .inl ⟨r, hr, rfl, .refl _⟩
      · cases hn
        rcases Rows.mem_insert.mp hr with rfl | hr
        · rfl
        · exact absurd (hri ▸ hf.inserted r hr) hnew
    | drops => exact absurd (hp.drop ▸ hstarted) hv.undropped

end Shared

end LeaseQueue
