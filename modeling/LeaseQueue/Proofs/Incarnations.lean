import LeaseQueue.Proofs.Receipts

/-
  Which receipts touch a message that they were not issued for.

  When the queue is dropped, indices and versions start again, and only the tag
  tells an old message from the new one at its index. A consumer compares the tag
  of its receipt with the message that it reads, but its write is conditional on
  the version alone. So it takes a message that was written after a drop for the
  one it has read before, if the two are at the same version; a call that has
  read the message since the last drop does not (`Reachable.accepted_live`).

  As long as tags are distinct and no write has mixed two messages up, the call
  that reads before a drop and writes after it is the only one to blame. It does
  occur.
-/

namespace LeaseQueue.Shared

variable {q : Queue} {rule : Rule} {w : World} {t u : Nat} {h past part : History} {m : Message}
  {r : Receipt} {rows rows' : Rows} {c : Instant} {s : Seen} {next : Message} {tag : Tag}
  {i : UInt64}

/-- The queue may be dropped, but is not repaired. -/
def Unrepaired : Rule := fun _ a => ∀ cfg, a ≠ .start (.tick cfg)

/-! ## Since the last drop -/

def Event.drops : Event → Bool
  | .performed _ _ _ ⟨.call .dropQueue, .ok _⟩ => true
  | _ => false

/-- What happened since the queue was last dropped. -/
def sinceDrop (h : History) : History := h.takeWhile fun e => !e.drops

/-- What had happened when the queue was last dropped, and that it was. -/
def untilDrop (h : History) : History := h.dropWhile fun e => !e.drops

theorem sinceDrop_append (h : History) : sinceDrop h ++ untilDrop h = h :=
  List.takeWhile_append_dropWhile

theorem sinceDrop_cons {e : Event} (he : e.drops = false) :
    sinceDrop (e :: h) = e :: sinceDrop h := by
  simp [sinceDrop, he]

theorem sinceDrop_dropped {a : Unit} :
    sinceDrop (.performed t c rows ⟨.call .dropQueue, .ok a⟩ :: h) = [] := by
  simp [sinceDrop, Event.drops]

theorem sinceDrop_subset : sinceDrop h ⊆ h := (List.takeWhile_prefix _).subset

theorem untilDrop_suffix : untilDrop h <:+ h := List.dropWhile_suffix _

theorem mem_since_or_until {e : Event} (he : e ∈ h) : e ∈ sinceDrop h ∨ e ∈ untilDrop h := by
  rw [← sinceDrop_append h] at he
  exact List.mem_append.mp he

/-- Every row that was met since the last drop is stored, as it was or at a higher version. -/
def Outlasts (rows : Rows) (h : History) : Prop :=
  ∀ r, Met (sinceDrop h) r → ∃ r' ∈ rows.messages, r'.message.index = r.message.index ∧
    (r' = r ∨ r.message.version < r'.message.version)

theorem Outlasts.step (ho : Outlasts rows h) (hs : (Event.performed t c rows s).drops = false)
    (hr : ∀ r ∈ rows.messages, ∃ r' ∈ rows'.messages, r'.message.index = r.message.index ∧
      (r' = r ∨ r.message.version < r'.message.version)) :
    Outlasts rows' (.performed t c rows s :: h) := by
  intro r hm
  rw [sinceDrop_cons hs, met_performed] at hm
  rcases hm with hm | hm
  · exact hr r hm
  · obtain ⟨r', hr', hi, hv⟩ := ho r hm
    obtain ⟨r'', hr'', hi', hv'⟩ := hr r' hr'
    refine ⟨r'', hr'', hi'.trans hi, ?_⟩
    rcases hv' with rfl | hlt'
    · exact hv
    · rcases hv with rfl | hlt
      · exact .inr hlt'
      · exact .inr (UInt64.lt_trans hlt hlt')

theorem Reachable.outlasts (h : Reachable q Unrepaired w) : Outlasts w.rows w.history := by
  refine h.changes (P := Outlasts) (fun r hm => absurd hm not_met_nil) ?_ ?_ ?_
  · intro rows past t req ho r hm
    rw [sinceDrop_cons rfl, met_started] at hm
    exact ho r hm
  · intro rows past t result ho r hm
    rw [sinceDrop_cons rfl, met_ended] at hm
    exact ho r hm
  · intro v t req s rows hv hstarted hp htouch ho
    cases htouch with
    | @leaves s hs =>
      refine ho.step ?_ fun r hr => ⟨r, hr, rfl, .inl rfl⟩
      unfold Event.drops
      split
      · rename_i he
        cases he
        cases hs
      · rfl
    | swaps => exact ho.step rfl fun r hr => ⟨r, hr, rfl, .inl rfl⟩
    | records _ => exact ho.step rfl fun r hr => ⟨r, hr, rfl, .inl rfl⟩
    | inserts _ => exact ho.step rfl fun r hr => ⟨r, Rows.mem_insert.mpr (.inr hr), rfl, .inl rfl⟩
    | @replaces b next stored cond found holds =>
      refine ho.step rfl fun r hr => ?_
      cases hsits : r.sits b next.index with
      | false => exact ⟨r, Rows.mem_replace.mpr (.inr ⟨hr, hsits⟩), rfl, .inl rfl⟩
      | true =>
        refine ⟨_, Rows.mem_replace.mpr (.inl ⟨r, hr, hsits, rfl⟩), ?_⟩
        simp only [Row.sits, Bool.and_eq_true, decide_eq_true_eq] at hsits
        obtain ⟨hstored, hi⟩ := Rows.find?_eq_some found
        cases hv.orderly.1.eq hr hstored (hsits.2.trans hi.symm)
        obtain ⟨m, _, hu⟩ := hp.update
        -- The stored message has the version that the writer has read, and one more is written.
        simp only [Condition.holds, Bool.and_eq_true, decide_eq_true_eq] at holds
        refine ⟨hsits.2.symm, .inr ?_⟩
        rw [UInt64.lt_iff_toNat_lt, hu.step, ← hu.version, ← holds.1]
        exact Nat.lt_succ_self _
    | deletes =>
      obtain ⟨cfg, rfl, _⟩ := hp.clear
      obtain ⟨_, _, hno, _⟩ := hv.ruled hstarted
      exact absurd rfl (hno cfg)
    | drops =>
      intro r hm
      rw [sinceDrop_dropped] at hm
      exact absurd hm not_met_nil

/-! ## Who has a tag -/

def drawnTags : History → List Tag
  | [] => []
  | .performed _ _ _ ⟨.drawTag, tag⟩ :: past => tag :: drawnTags past
  | _ :: past => drawnTags past

def Stamped (tag : Tag) (h : History) : Prop :=
  ∃ t c rows b m, .performed t c rows ⟨.call (.insertMessage b m), .ok true⟩ ∈ h ∧ m.tag = tag

theorem Stamped.mono (ht : Stamped tag part) (hs : part ⊆ h) : Stamped tag h := by
  obtain ⟨t, c, rows, b, m, he, hm⟩ := ht
  exact ⟨t, c, rows, b, m, hs he, hm⟩

theorem stamped_performed :
    Stamped tag (.performed t c rows s :: h) ↔
      (∃ b m, s = ⟨.call (.insertMessage b m), .ok true⟩ ∧ m.tag = tag) ∨ Stamped tag h := by
  constructor
  · rintro ⟨t', c', rows', b, m, hmem, hm⟩
    rcases List.mem_cons.mp hmem with he | hmem
    · cases he
      exact .inl ⟨b, m, rfl, hm⟩
    · exact .inr ⟨t', c', rows', b, m, hmem, hm⟩
  · rintro (⟨b, m, rfl, hm⟩ | ht)
    · exact ⟨t, c, rows, b, m, List.mem_cons_self, hm⟩
    · exact ht.mono (List.subset_cons_self _ _)

@[simp] theorem drawnTags_started {req : Request} :
    drawnTags (.started t req :: h) = drawnTags h := rfl

@[simp] theorem drawnTags_ended {result : Result} :
    drawnTags (.ended t result :: h) = drawnTags h := rfl

theorem drawnTags_performed (hs : ∀ tag, s ≠ ⟨.drawTag, tag⟩) :
    drawnTags (.performed t c rows s :: h) = drawnTags h := by
  rw [drawnTags]
  rintro _ _ _ tag he
  cases he
  exact hs tag rfl

theorem drawnTags_suffix (hs : past <:+ h) : drawnTags past <:+ drawnTags h := by
  induction h with
  | nil => exact List.suffix_nil.mp hs ▸ List.suffix_refl _
  | cons e h ih =>
    rcases List.suffix_cons_iff.mp hs with rfl | hs
    · exact List.suffix_refl _
    · refine (ih hs).trans ?_
      match e with
      | .started _ _ => exact List.suffix_refl _
      | .ended _ _ => exact List.suffix_refl _
      | .performed _ _ _ s =>
        by_cases hdraw : ∃ tag, s = ⟨.drawTag, tag⟩
        · obtain ⟨tag, rfl⟩ := hdraw
          exact List.suffix_cons _ _
        · exact (drawnTags_performed fun tag he => hdraw ⟨tag, he⟩).symm ▸ List.suffix_refl _

theorem tagInHand_cons {tr : List Seen} (ht : tagInHand (s :: tr) = some tag) :
    s = ⟨.drawTag, tag⟩ ∨ tagInHand tr = some tag ∧ (∀ b m a, s ≠ ⟨.call (.insertMessage b m), a⟩) ∧
      ∀ tag', s ≠ ⟨.drawTag, tag'⟩ := by
  unfold tagInHand at ht
  split at ht
  · cases ‹s :: tr = []›
  · rename_i he
    cases he
    cases ht
    exact .inl rfl
  · cases ht
  · rename_i hdraw hins he
    cases he
    exact .inr ⟨ht, fun b m a hs => hins b m a hs, fun tag' hs => hdraw tag' hs⟩

/-- A tag that a task has was drawn and not written, and no other task has it. -/
structure Tagged (h : History) : Prop where
  drawn : ∀ tag, Stamped tag h → tag ∈ drawnTags h
  held : ∀ t tag, tagInHand (seenBy t h) = some tag → tag ∈ drawnTags h ∧ ¬ Stamped tag h
  apart : ∀ t u tag, tagInHand (seenBy t h) = some tag → tagInHand (seenBy u h) = some tag → t = u

theorem Tagged.other (ht : Tagged h) (hdraw : ∀ tag, s ≠ ⟨.drawTag, tag⟩)
    (hins : ∀ b m, s ≠ ⟨.call (.insertMessage b m), .ok true⟩) :
    Tagged (.performed t c rows s :: h) := by
  have hdrawn : drawnTags (.performed t c rows s :: h) = drawnTags h := drawnTags_performed hdraw
  have hstamped : ∀ tag, Stamped tag (.performed t c rows s :: h) ↔ Stamped tag h := fun tag => by
    rw [stamped_performed]
    exact ⟨fun h => h.resolve_left fun ⟨b, m, he, _⟩ => hins b m he, .inr⟩
  have hand : ∀ u tag, tagInHand (seenBy u (.performed t c rows s :: h)) = some tag →
      tagInHand (seenBy u h) = some tag := by
    intro u tag hu
    rw [seenBy_performed] at hu
    split at hu
    · exact ((tagInHand_cons hu).resolve_left (hdraw tag)).1
    · exact hu
  refine ⟨fun tag hm => ?_, fun u tag hu => ?_, fun u v tag hu hv => ?_⟩
  · rw [hdrawn]
    exact ht.drawn tag ((hstamped tag).mp hm)
  · rw [hdrawn, hstamped]
    exact ht.held u tag (hand u tag hu)
  · exact ht.apart u v tag (hand u tag hu) (hand v tag hv)

theorem Tagged.draw (ht : Tagged h) (hnew : tag ∉ drawnTags h) :
    Tagged (.performed t c rows ⟨.drawTag, tag⟩ :: h) := by
  have hstamped : ∀ tag', Stamped tag' (.performed t c rows ⟨.drawTag, tag⟩ :: h) ↔
      Stamped tag' h := fun tag' => by
    rw [stamped_performed]
    exact ⟨fun h => h.resolve_left nofun, .inr⟩
  have hand : ∀ u tag',
      tagInHand (seenBy u (.performed t c rows ⟨.drawTag, tag⟩ :: h)) = some tag' →
      (u = t ∧ tag' = tag) ∨ tagInHand (seenBy u h) = some tag' := by
    intro u tag' hu
    rw [seenBy_performed] at hu
    split at hu
    · rename_i htu
      rcases tagInHand_cons hu with he | ⟨_, _, hno⟩
      · cases he
        exact .inl ⟨htu.symm, rfl⟩
      · exact absurd rfl (hno tag)
    · exact .inr hu
  refine ⟨fun tag' hm => ?_, fun u tag' hu => ?_, fun u v tag' hu hv => ?_⟩
  · exact List.mem_cons_of_mem _ (ht.drawn tag' ((hstamped tag').mp hm))
  · rw [hstamped]
    rcases hand u tag' hu with ⟨_, rfl⟩ | hu
    · exact ⟨List.mem_cons_self, fun hm => hnew (ht.drawn _ hm)⟩
    · exact ⟨List.mem_cons_of_mem _ (ht.held u tag' hu).1, (ht.held u tag' hu).2⟩
  · rcases hand u tag' hu with ⟨hut, rfl⟩ | hu' <;> rcases hand v tag' hv with ⟨hvt, he⟩ | hv'
    · exact hut.trans hvt.symm
    · exact absurd (ht.held v _ hv').1 hnew
    · exact absurd (ht.held u _ hu').1 (he ▸ hnew)
    · exact ht.apart u v tag' hu' hv'

theorem Tagged.insert {b : UInt64} (ht : Tagged h) (hm : tagInHand (seenBy t h) = some m.tag) :
    Tagged (.performed t c rows ⟨.call (.insertMessage b m), .ok true⟩ :: h) := by
  have hstamped : ∀ tag, Stamped tag (.performed t c rows
      ⟨.call (.insertMessage b m), .ok true⟩ :: h) ↔ m.tag = tag ∨ Stamped tag h := fun tag => by
    rw [stamped_performed]
    refine or_congr_left ⟨?_, fun hi => ⟨b, m, rfl, hi⟩⟩
    rintro ⟨_, _, he, hi⟩
    cases he
    exact hi
  have hand : ∀ u tag, tagInHand (seenBy u (.performed t c rows
      ⟨.call (.insertMessage b m), .ok true⟩ :: h)) = some tag →
      u ≠ t ∧ tagInHand (seenBy u h) = some tag := by
    intro u tag hu
    rw [seenBy_performed] at hu
    split at hu
    · cases hu
    · rename_i htu
      exact ⟨Ne.symm htu, hu⟩
  refine ⟨fun tag hs => ?_, fun u tag hu => ?_, fun u v tag hu hv => ?_⟩
  · rcases (hstamped tag).mp hs with rfl | hs
    · exact (ht.held t _ hm).1
    · exact ht.drawn tag hs
  · obtain ⟨hne, hu⟩ := hand u tag hu
    rw [hstamped]
    refine ⟨(ht.held u tag hu).1, fun hs => ?_⟩
    rcases hs with rfl | hs
    · exact hne (ht.apart u t _ hu hm)
    · exact (ht.held u tag hu).2 hs
  · exact ht.apart u v tag (hand u tag hu).2 (hand v tag hv).2

theorem Reachable.tagged (h : Reachable q rule w) (hn : (drawnTags w.history).Nodup) :
    Tagged w.history := by
  refine h.changes (P := fun _ h => (drawnTags h).Nodup → Tagged h) ?_ ?_ ?_ ?_ hn
  · exact fun _ => ⟨by simp [Stamped], nofun, nofun⟩
  · exact fun rows past t r ih hn =>
      ⟨by simpa [Stamped] using (ih hn).drawn, by simpa [Stamped] using (ih hn).held,
        by simpa using (ih hn).apart⟩
  · exact fun rows past t r ih hn =>
      ⟨by simpa [Stamped] using (ih hn).drawn, by simpa [Stamped] using (ih hn).held,
        by simpa using (ih hn).apart⟩
  · intro v t r s rows hv hstarted hp htouch ih hn
    have ht := ih (hn.sublist (drawnTags_suffix (List.suffix_cons _ _)).sublist)
    cases htouch with
    | @leaves s hs =>
      by_cases hdraw : ∃ tag, s = ⟨.drawTag, tag⟩
      · obtain ⟨tag, rfl⟩ := hdraw
        exact ht.draw (List.nodup_cons.mp hn).1
      · refine ht.other (fun tag he => hdraw ⟨tag, he⟩) fun b m he => ?_
        rw [he] at hs
        cases hs
    | inserts free =>
      obtain ⟨_, _, _, hins⟩ := hp.insert
      exact ht.insert hins.tagged
    | swaps => exact ht.other nofun nofun
    | records _ => exact ht.other nofun nofun
    | replaces _ _ => exact ht.other nofun nofun
    | deletes => exact ht.other nofun nofun
    | drops => exact ht.other nofun nofun

/-- A message is the first with its tag. -/
theorem Reachable.stamped_once (h : Reachable q rule w) (hn : (drawnTags w.history).Nodup)
    {b : UInt64} (hs : .performed t c rows ⟨.call (.insertMessage b m), .ok true⟩ :: past <:+
      w.history) : ¬ Stamped m.tag past := by
  obtain ⟨v, _, _, _, hv, rfl, _, _, htask, _, _⟩ := h.at_effect hs
  obtain ⟨_, _, _, hins⟩ := (hv.task_obeys (requests_keep rule) htask).2.1.insert
  have hle := drawnTags_suffix ((List.suffix_cons _ _).trans hs)
  exact ((hv.tagged (hn.sublist hle.sublist)).held t _ hins.tagged).2

/-- No tag was written both before and after the last drop. -/
theorem Reachable.stamped_apart (h : Reachable q rule w) (hn : (drawnTags w.history).Nodup)
    (hs : Stamped tag (sinceDrop w.history)) : ¬ Stamped tag (untilDrop w.history) := by
  obtain ⟨t, c, rows, b, m, he, rfl⟩ := hs
  obtain ⟨later, earlier, hsplit⟩ := List.append_of_mem he
  have hall : w.history = later ++ .performed t c rows ⟨.call (.insertMessage b m), .ok true⟩ ::
      (earlier ++ untilDrop w.history) := by
    conv_lhs => rw [← sinceDrop_append w.history, hsplit]
    simp
  have hsuffix : .performed t c rows ⟨.call (.insertMessage b m), .ok true⟩ ::
      (earlier ++ untilDrop w.history) <:+ w.history := ⟨later, hall.symm⟩
  exact fun hs' => h.stamped_once hn hsuffix (hs'.mono (List.subset_append_right _ _))

theorem Reachable.row_stamped (h : Reachable q rule w) :
    (∀ r ∈ w.rows.messages, Stamped r.message.tag w.history) ∧
      ∀ r, Met w.history r → Stamped r.message.tag w.history := by
  refine h.changes (P := fun rows h => (∀ r ∈ rows.messages, Stamped r.message.tag h) ∧
    ∀ r, Met h r → Stamped r.message.tag h) ⟨nofun, fun r hm => absurd hm not_met_nil⟩ ?_ ?_ ?_
  · exact fun rows past t req ih => ⟨fun r hr => (ih.1 r hr).mono (List.subset_cons_self _ _),
      fun r hm => (ih.2 r (met_started.mp hm)).mono (List.subset_cons_self _ _)⟩
  · exact fun rows past t result ih => ⟨fun r hr => (ih.1 r hr).mono (List.subset_cons_self _ _),
      fun r hm => (ih.2 r (met_ended.mp hm)).mono (List.subset_cons_self _ _)⟩
  · intro v t req s rows hv hstarted hp htouch ih
    have later : ∀ r ∈ v.rows.messages, Stamped r.message.tag (.performed t v.clock v.rows s ::
        v.history) := fun r hr => (ih.1 r hr).mono (List.subset_cons_self _ _)
    refine ⟨fun r hr => ?_, fun r hm => ?_⟩
    · cases htouch with
      | leaves _ => exact later r hr
      | swaps => exact later r hr
      | records _ => exact later r hr
      | deletes => exact later r (Rows.mem_removeBucket.mp hr).1
      | drops => cases hr
      | inserts _ =>
        rcases Rows.mem_insert.mp hr with rfl | hr
        · exact stamped_performed.mpr (.inl ⟨_, _, rfl, rfl⟩)
        · exact later r hr
      | replaces _ _ =>
        rcases Rows.mem_replace.mp hr with ⟨_, _, _, rfl⟩ | ⟨hr, _⟩
        · -- What is written has the tag of what the task has read.
          obtain ⟨m, _, hu⟩ := hp.update
          obtain ⟨b, hm⟩ := hv.met_of_known hu.known
          show Stamped _ _
          rw [hu.became.tag]
          exact (ih.2 _ hm).mono (List.subset_cons_self _ _)
        · exact later r hr
    · rcases met_performed.mp hm with hr | hm
      · exact later r hr
      · exact (ih.2 r hm).mono (List.subset_cons_self _ _)

/-! ## Across a drop -/

/-- Since the last drop, no update at the index has replaced a message by one with another tag. -/
def Unmixed (i : UInt64) (h : History) : Prop :=
  ∀ t c rows b next cond old,
    .performed t c rows ⟨.call (.updateMessage b next cond), .ok true⟩ ∈ sinceDrop h →
    next.index = i → rows.find? b i = some old → old.tag = next.tag

theorem Unmixed.before {e : Event} (he : e.drops = false) (hu : Unmixed i (e :: h)) :
    Unmixed i h := by
  intro t c rows b next cond old hmem
  refine hu t c rows b next cond old ?_
  rw [sinceDrop_cons he]
  exact List.mem_cons_of_mem _ hmem

theorem Reachable.stamped_since (h : Reachable q rule w) : ∀ r ∈ w.rows.messages,
    Unmixed r.message.index w.history → Stamped r.message.tag (sinceDrop w.history) := by
  have later : ∀ {rows : Rows} {e : Event} {past : History}, e.drops = false →
      (∀ r ∈ rows.messages, Unmixed r.message.index past →
        Stamped r.message.tag (sinceDrop past)) →
      ∀ r ∈ rows.messages, Unmixed r.message.index (e :: past) →
        Stamped r.message.tag (sinceDrop (e :: past)) := by
    intro rows e past he ih r hr hu
    rw [sinceDrop_cons he]
    exact (ih r hr (hu.before he)).mono (List.subset_cons_self _ _)
  refine h.changes (P := fun rows h => ∀ r ∈ rows.messages, Unmixed r.message.index h →
    Stamped r.message.tag (sinceDrop h)) nofun (fun _ _ _ _ => later rfl)
    (fun _ _ _ _ => later rfl) ?_
  intro v t req s rows hv _ hp htouch ih
  cases htouch with
  | @leaves s hs =>
    refine later ?_ ih
    unfold Event.drops
    split
    · rename_i he
      cases he
      cases hs
    · rfl
  | swaps => exact later rfl ih
  | records _ => exact later rfl ih
  | deletes => exact fun r hr => later rfl ih r (Rows.mem_removeBucket.mp hr).1
  | drops => nofun
  | inserts _ =>
    intro r hr hu
    rcases Rows.mem_insert.mp hr with rfl | hr
    · rw [sinceDrop_cons rfl]
      exact stamped_performed.mpr (.inl ⟨_, _, rfl, rfl⟩)
    · exact later rfl ih r hr hu
  | @replaces b next stored cond found holds =>
    intro r hr hu
    rcases Rows.mem_replace.mp hr with ⟨_, _, _, rfl⟩ | ⟨hr, _⟩
    · obtain ⟨hstored, hi⟩ := Rows.find?_eq_some found
      -- Nothing was mixed up at the index, so this update has kept the tag.
      have htag : stored.tag = next.tag := by
        refine hu t v.clock v.rows b next cond stored ?_ rfl found
        rw [sinceDrop_cons rfl]
        exact List.mem_cons_self
      show Stamped next.tag _
      rw [← htag]
      exact later rfl ih _ hstored (hi ▸ hu)
    · exact later rfl ih r hr hu

/-- The task has read the message that the receipt names since the last drop. -/
def Current (past : History) (t : Nat) (r : Receipt) : Prop :=
  ∃ m, Known (seenBy t (sinceDrop past)) m ∧ r = Receipt.of m

theorem Reachable.accepted_version (h : Reachable q rule w)
    (ha : AcceptedAt w.history r t rows next past) :
    ∃ v m old, Reachable q rule v ∧ v.history = past ∧ v.rows = rows ∧
      Authorized q (seenBy t past) r m ∧ next.tag = r.tag ∧
      rows.find? (q.bucketOf r.index) r.index = some old ∧ old.version = r.version := by
  obtain ⟨⟨req, hreq, hstarted⟩, c, b, cond, hs⟩ := ha
  obtain ⟨v, req', _, rows', hv, rfl, rfl, rfl, htask, hans, _⟩ := h.at_effect hs
  obtain ⟨hstarted', hp, _⟩ := hv.task_obeys (requests_keep rule) htask
  cases hv.started_unique hstarted hstarted'
  obtain ⟨m, hver, hbec, hauth⟩ := hp.shows hreq
  obtain ⟨m', rfl, hu⟩ := hp.update
  have hr : r = Receipt.of m := Receipt.fits_iff.mp hauth.fits
  have hi : next.index = r.index := by rw [hbec.index, hr]; rfl
  rw [← hu.became.index, hi] at hans
  refine ⟨v, m, ?_⟩
  cases htouch : touch_of_answered hans with
  | leaves h => cases h
  | replaces found holds =>
    simp only [Condition.holds, Bool.and_eq_true, decide_eq_true_eq] at holds
    rw [hi] at found
    exact ⟨_, hv, rfl, rfl, hauth, by rw [hbec.tag, hr]; rfl, found, by rw [holds.1, hver, hr]; rfl⟩

/-- A call that has read the message since the last drop replaces what its receipt names. -/
theorem Reachable.accepted_live (h : Reachable q Unrepaired w) {old : Message}
    (hf : w.rows.find? (q.bucketOf r.index) r.index = some old) (hv : old.version = r.version)
    (hc : Current w.history t r) : r = Receipt.of old := by
  obtain ⟨m, hm, rfl⟩ := hc
  obtain ⟨b, hmet⟩ := h.met_of_known_in sinceDrop_subset hm
  obtain ⟨r', hr', hi, hlater⟩ := h.outlasts _ hmet
  obtain ⟨hold, hio⟩ := Rows.find?_eq_some hf
  cases h.orderly.1.eq hr' hold (hi.trans hio.symm)
  rcases hlater with he | hlt
  · cases he
    rfl
  · -- At a higher version it would not have been replaced.
    exact absurd (hv ▸ hlt) (UInt64.lt_irrefl _)

/-- A call that has read the message before the last drop only has a tag that is not written
since. -/
theorem Reachable.current_of_tag (h : Reachable q rule w) (hn : (drawnTags w.history).Nodup)
    (hu : Unmixed r.index w.history) {old : Message} (ha : Authorized q (seenBy t w.history) r m)
    (hf : w.rows.find? (q.bucketOf r.index) r.index = some old) (htag : old.tag = r.tag) :
    Current w.history t r := by
  have hr : r = Receipt.of m := Receipt.fits_iff.mp ha.fits
  obtain ⟨c, rows, he⟩ := mem_seenBy.mp ha.told
  rcases mem_since_or_until he with he | he
  · exact ⟨m, .inr ⟨_, _, mem_seenBy.mpr ⟨c, rows, he⟩⟩, hr⟩
  · obtain ⟨hold, hi⟩ := Rows.find?_eq_some hf
    have hsince : Stamped old.tag (sinceDrop w.history) :=
      h.stamped_since _ hold (show Unmixed old.index _ from hi ▸ hu)
    obtain ⟨past, hs⟩ := suffix_of_mem he
    obtain ⟨v, _, _, _, hv, rfl, rfl, _, _, hans, _⟩ := h.at_effect (hs.trans untilDrop_suffix)
    have hfind : some m = v.rows.find? (q.bucketOf r.index) r.index := congrArg Prod.fst hans
    have huntil : Stamped m.tag v.history := hv.row_stamped.1 _ (Rows.find?_eq_some hfind.symm).1
    refine absurd (huntil.mono ((List.suffix_cons _ _).trans hs).subset) ?_
    rw [show m.tag = old.tag by rw [htag, hr]; rfl]
    exact h.stamped_apart hn hsince

/-- What an accepted receipt lets a call replace is at the version that the receipt names and is
left with the tag that the receipt names. If the call has read the message since the last drop, it
is the very message that the receipt names. And as long as tags are distinct and no messages were
mixed up at the index before, it has the tag that the receipt names only then. -/
theorem accepted_across_drops (h : Reachable q Unrepaired w)
    (ha : AcceptedAt w.history r t rows next past) :
    ∃ old, rows.find? (q.bucketOf r.index) r.index = some old ∧ old.version = r.version ∧
      next.tag = r.tag ∧ (Current past t r → r = Receipt.of old) ∧
      ((drawnTags past).Nodup → Unmixed r.index past → (old.tag = r.tag ↔ Current past t r)) := by
  obtain ⟨v, m, old, hv, rfl, rfl, hauth, htag, hf, hver⟩ := h.accepted_version ha
  have live : Current v.history t r → r = Receipt.of old := hv.accepted_live hf hver
  refine ⟨old, hf, hver, htag, live, fun hn hu => ⟨hv.current_of_tag hn hu hauth hf, fun hc => ?_⟩⟩
  rw [live hc]
  rfl

def handedOut : List Action := serve 0 (.put [1] 0) 6 ++ serve 1 (.receive 1 1000) 12

/-- An acknowledgement reads the message; the queue is dropped, and another message is put and
handed out at the same index; the acknowledgement writes. -/
def crossing : List Action :=
  [.act 2 ⟨7⟩] ++ serve 3 .drop 1 ++ .start (.put [2] 0) :: List.replicate 6 (.act 4 ⟨8⟩) ++
    [.finish 4] ++ serve 5 (.receive 1 1000) 12 ++ [.act 2 ⟨7⟩]

theorem accepted_across_drops_crossing :
    ∃ w rows next past old, Reachable singles Unrepaired w ∧
      AcceptedAt w.history firstReceipt 2 rows next past ∧ drawnTags past = [⟨8⟩, ⟨7⟩] ∧
      rows.find? 0 0 = some old ∧ old.version = firstReceipt.version ∧ old.acked = false ∧
      old.tag = ⟨8⟩ ∧ next.tag = ⟨7⟩ ∧ next.acked = true ∧ ¬ Current past 2 firstReceipt := by
  obtain ⟨w, rows, next, past, cond, live, hw, hh, hstarted, hdrawn, hf, hacked, htag, hnext⟩ :
      ∃ w rows next past cond live,
        ({} : World).run? singles (handedOut ++ .start (.ack firstReceipt) :: crossing) = some w ∧
        w.history = .performed 2 0 rows ⟨.call (.updateMessage 0 next cond), .ok true⟩ :: past ∧
        past[24]? = some (.started 2 (.ack firstReceipt)) ∧ drawnTags past = [⟨8⟩, ⟨7⟩] ∧
        rows.find? 0 0 = some live ∧ live.acked = false ∧ live.tag = ⟨8⟩ ∧ next.acked = true :=
    ⟨_, _, _, _, _, _, rfl, rfl, rfl, rfl, rfl, rfl, rfl, rfl⟩
  have h : Reachable singles Unrepaired w :=
    .run (by simp [handedOut, crossing, serve, Unrepaired]) .fresh hw
  have ha : AcceptedAt w.history firstReceipt 2 rows next past :=
    ⟨⟨_, .inl rfl, List.mem_of_getElem? hstarted⟩, 0, 0, cond, hh ▸ List.suffix_refl _⟩
  obtain ⟨old, hfound, hversion, hkept, current, _⟩ := accepted_across_drops h ha
  have hsame : live = old := Option.some.inj (hf.symm.trans hfound)
  subst hsame
  refine ⟨w, rows, next, past, live, h, ha, hdrawn, hf, hversion, hacked, htag, hkept, hnext,
    fun hc => ?_⟩
  have : firstReceipt.tag = live.tag := congrArg Receipt.tag (current hc)
  rw [htag] at this
  exact absurd this (by decide)

/-- Publishers, readers, honest consumers and owners who drop the queue. There is no repair, and no
call fails. -/
def Owned : Rule
  | _, .start (.tick _) => False
  | _, .fail _ _ => False
  | _, .start .drop => True
  | w, a => Honest w a

/-- An acknowledgement can be applied to a message that it is not for. -/
theorem receipt_crosses_drop :
    ¬ ∀ (q : Queue) (w : World), Reachable q Owned w → (drawnTags w.history).Nodup →
      ∀ r t rows next past, AcceptedAt w.history r t rows next past →
        ∃ old, rows.find? (q.bucketOf r.index) r.index = some old ∧ old.tag = r.tag := by
  intro claimed
  obtain ⟨v, u, w, d, rows, next, past, cond, old, hv, hd, hr, hu, hw, hh, hstarted, hdrawn, hf,
      htag⟩ : ∃ v u w d rows next past cond old, ({} : World).run? singles handedOut = some v ∧
        v.history.head? = some (.ended 1 (.ok (.delivery (some d)))) ∧ d.receipt = firstReceipt ∧
        v.step? singles (.start (.ack firstReceipt)) = some u ∧
        u.run? singles crossing = some w ∧
        w.history = .performed 2 0 rows ⟨.call (.updateMessage 0 next cond), .ok true⟩ :: past ∧
        past[24]? = some (.started 2 (.ack firstReceipt)) ∧
        drawnTags w.history = [⟨8⟩, ⟨7⟩] ∧ rows.find? 0 0 = some old ∧ old.tag = ⟨8⟩ :=
    ⟨_, _, _, _, _, _, _, _, _, rfl, rfl, rfl, rfl, rfl, rfl, rfl, rfl, rfl, rfl⟩
  have issued : Issued v.history firstReceipt := .inl ⟨1, d, List.mem_of_mem_head? hd, hr⟩
  have handed : Reachable singles Owned v :=
    .run (by simp [handedOut, serve, Owned, Honest]) .fresh hv
  have started : Reachable singles Owned u :=
    handed.step (show Owned v (.start (.ack firstReceipt)) from issued) hu
  have h : Reachable singles Owned w :=
    .run (by simp [crossing, serve, Owned, Honest]) started hw
  have ha : AcceptedAt w.history firstReceipt 2 rows next past :=
    ⟨⟨_, .inl rfl, List.mem_of_getElem? hstarted⟩, 0, 0, cond, hh ▸ List.suffix_refl _⟩
  obtain ⟨old', hf', htag'⟩ := claimed singles w h (by rw [hdrawn]; decide) _ _ _ _ _ ha
  have hsame : old = old' := Option.some.inj (hf.symm.trans hf')
  rw [← hsame, htag] at htag'
  exact absurd htag' (by decide)

end LeaseQueue.Shared
