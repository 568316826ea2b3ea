import LeaseQueue.Proofs.Shared.Estate
import LeaseQueue.Proofs.Managed.Keys

/-
  What keeps the tenants of one store apart.

  The key of a queue is its account, its name and its version, with slashes between
  them. The numeral of a version has no slash, but an account and a name may have
  some: the keys of two queues are the same if a part of the account of one is found
  at the front of the name of the other (`Queue.id_eq_iff`). Queues that are not alike
  in this way have nothing to do with each other:

    1. what is done on the one leaves no trace for the other (`Shared.Estate`);
    2. the manager answers a request by what it has granted for its key before, and
       tells a worker to stop only on a request for its key, or when it closes.
-/

namespace LeaseQueue

/-! ## Keys -/

/-- What stands before and after a slash, where a text can be cut at two of them. -/
theorem cut_at_slash {x y u v : String} : x ++ "/" ++ u = y ++ "/" ++ v ↔
    (x = y ∧ u = v) ∨ (∃ part, y = x ++ "/" ++ part ∧ u = part ++ "/" ++ v) ∨
      ∃ part, x = y ++ "/" ++ part ∧ v = part ++ "/" ++ u := by
  -- The slash that comes first in the one text is found in what follows it in the other.
  have cut : ∀ {x y u v : String} {more : List Char}, y.toList = x.toList ++ more →
      '/' :: u.toList = more ++ '/' :: v.toList →
      (x = y ∧ u = v) ∨ ∃ part, y = x ++ "/" ++ part ∧ u = part ++ "/" ++ v := by
    intro x y u v more hy hu
    rcases List.cons_eq_append_iff.mp hu with ⟨rfl, hv⟩ | ⟨rest, rfl, hrest⟩
    · refine .inl ⟨?_, ?_⟩
      · rw [← String.toList_inj, hy, List.append_nil]
      · rw [← String.toList_inj]
        exact (List.cons.inj hv).2.symm
    · refine .inr ⟨String.ofList rest, ?_, ?_⟩
      · simp [← String.toList_inj, hy]
      · simp [← String.toList_inj, hrest]
  constructor
  · intro h
    have h : x.toList ++ '/' :: u.toList = y.toList ++ '/' :: v.toList := by
      simpa [← String.toList_inj] using h
    rcases List.append_eq_append_iff.mp h with ⟨more, hy, hu⟩ | ⟨more, hx, hv⟩
    · exact (cut hy hu).imp id .inl
    · rcases cut hx hv with ⟨rfl, rfl⟩ | hpart
      · exact .inl ⟨rfl, rfl⟩
      · exact .inr (.inr hpart)
  · rintro (⟨rfl, rfl⟩ | ⟨part, rfl, rfl⟩ | ⟨part, rfl, rfl⟩) <;> simp [String.append_assoc]

theorem slash_notMem_numeral (n : Nat) : '/' ∉ (toString n).toList := by
  intro h
  rw [Nat.toString_eq_repr, Nat.toList_repr] at h
  exact absurd (Nat.isDigit_of_mem_toDigits (by decide) (by decide) h) (by decide)

theorem numeral_inj {m n : Nat} (h : toString m = toString n) : m = n := by
  rw [Nat.toString_eq_repr, Nat.toString_eq_repr, ← String.toList_inj, Nat.toList_repr,
    Nat.toList_repr] at h
  rw [← Nat.ofDigitChars_ten_toDigits (n := m), h, Nat.ofDigitChars_ten_toDigits]

namespace Queue

/-- The account of the second queue goes on after that of the first, with what the name of the first
begins with. -/
def Extends (q q' : Queue) : Prop :=
  ∃ part, q'.account = q.account ++ "/" ++ part ∧ q.name = part ++ "/" ++ q'.name

/-- The queues have the same account, name and version, or cannot be told apart by their keys. -/
def Alike (q q' : Queue) : Prop :=
  q.version = q'.version ∧
    ((q.account = q'.account ∧ q.name = q'.name) ∨ q.Extends q' ∨ q'.Extends q)

theorem id_eq_iff {q q' : Queue} : q.id = q'.id ↔ Alike q q' := by
  have version : toString q.version.toNat = toString q'.version.toNat ↔ q.version = q'.version :=
    ⟨fun h => UInt32.toNat_inj.mp (numeral_inj h), fun h => by rw [h]⟩
  have slash : ∀ {v part u : String}, '/' ∉ v.toList → v ≠ part ++ "/" ++ u := by
    rintro _ part u hv rfl
    simp at hv
  unfold id Alike Extends
  rw [cut_at_slash, cut_at_slash, version]
  constructor
  · rintro (⟨hnames, hversion⟩ | ⟨part, _, hv⟩ | ⟨part, _, hv⟩)
    · exact ⟨hversion, hnames⟩
    · exact absurd hv (slash (slash_notMem_numeral _))
    · exact absurd hv (slash (slash_notMem_numeral _))
  · rintro ⟨hversion, hnames⟩
    exact .inl ⟨hnames, hversion⟩

/-- Where accounts have no slash, queues with one key have the same account, name and version. -/
theorem names_of_id_eq {q q' : Queue} (hq : '/' ∉ q.account.toList) (hq' : '/' ∉ q'.account.toList)
    (h : q.id = q'.id) : q.account = q'.account ∧ q.name = q'.name ∧ q.version = q'.version := by
  obtain ⟨hversion, ⟨haccount, hname⟩ | ⟨part, haccount, _⟩ | ⟨part, haccount, _⟩⟩ := id_eq_iff.mp h
  · exact ⟨haccount, hname, hversion⟩
  · simp [haccount] at hq'
  · simp [haccount] at hq

end Queue

/-! ## Tenants -/

open Shared (Estate Deed)
open Shared.Estate (actionsFor)
open Managed (Event Fitting started)

/-- The key of a queue is that of the queues that are alike to it, and of no others; where accounts
have no slash, these have the same account, name and version. What is done on the others can be left
out of any run, and these queues are found as before; a queue that has its key to itself is used as
in a world of its own. The manager tells a request about the key what fits its answers about this
key, lists the key if these say so, tells a worker to stop only on a request for the key of its
queue or when it closes, and the rows under the key are changed only by a worker for it or from
outside. -/
theorem tenants_apart (q : Queue) :
    (∀ q' : Queue, (q'.id = q.id ↔ q'.Alike q) ∧
      ('/' ∉ q'.account.toList → '/' ∉ q.account.toList → q'.id = q.id →
        q'.account = q.account ∧ q'.name = q.name ∧ q'.version = q.version)) ∧
    (∀ deeds e, ({} : Estate).run? deeds = some e →
      (∃ f, ({} : Estate).run? (deeds.filter (Deed.concerns q.id)) = some f ∧
        ∀ q' : Queue, q'.Alike q → f.view q' = e.view q') ∧
      ((∀ d ∈ deeds, d.queue.Alike q → d.queue = q) →
        ({} : Shared.World).run? q (actionsFor q.id deeds) = some (e.view q))) ∧
    ∀ s w, Managed.Reachable s w →
      (∀ r reply gauge past, r.key? = some q.id → .answered r reply gauge :: past <:+ w.history →
        Fitting (past.filter (Event.about q.id)) r reply) ∧
      (∀ reply gauge past, .answered .running reply gauge :: past <:+ w.history →
        ∃ keys, reply = .keys keys ∧
          (q.id ∈ keys ↔ started q.id (past.filter (Event.about q.id)) = true)) ∧
      (∀ n x, w.workers n = some x → x.queue.id = q.id → x.told = true →
        w.closed = true ∨ .asked (.stop q.id) ∈ w.history) ∧
      ∀ a w', w.step? s a = some w' → w'.store.rows q.id ≠ w.store.rows q.id →
        (∃ n tag x, a = .work n tag ∧ w.workers n = some x ∧ x.queue.id = q.id) ∨
          ∃ c, a = .client q.id c := by
  refine ⟨fun q' => ⟨Queue.id_eq_iff, Queue.names_of_id_eq⟩,
    fun deeds e hr => ⟨?_, fun hown => ?_⟩,
    fun s w h => ⟨?_, ?_, ?_, fun a w' => Managed.rows_of_step?⟩⟩
  · obtain ⟨f, hf, hsame⟩ := Estate.Same.run .refl hr
    exact ⟨f, hf, fun q' hq' => (hsame.view (Queue.id_eq_iff.mpr hq')).symm⟩
  · exact Estate.view_run (fun d hd hkey => hown d hd (Queue.id_eq_iff.mp hkey)) hr
  · intro r reply gauge past hkey hs
    exact Managed.fitting_about hkey (h.accounted.fits r reply gauge past hs).1
  · intro reply gauge past hs
    obtain ⟨keys, ⟨_, hkeys⟩, hreply⟩ := (h.accounted.fits .running reply gauge past hs).1
    exact ⟨keys, hreply, by rw [Managed.started_about, hkeys]⟩
  · intro n x hx hkey htold
    exact hkey ▸ h.told_for hx htold

/-- A queue whose account and name make up the key of `singles`. -/
def neighbour : Queue :=
  ⟨"account/queue", "1", 1, 1, none, Shared.singles.bucketSize_ne_zero,
    Shared.singles.maxDeliveries_ne_zero⟩

def sideBySide : List Deed :=
  [⟨Shared.singles, .start (.put [1] 0)⟩, ⟨neighbour, .start (.put [2] 0)⟩] ++
    (List.replicate 6 [⟨neighbour, .act 0 ⟨8⟩⟩, ⟨Shared.singles, .act 0 ⟨7⟩⟩]).flatten ++
    (Shared.serve 1 (.receive 1 1000) 12).map (⟨Shared.singles, ·⟩)

/-- Requests for workers for both queues. The one for `neighbour` is stopped, and one for `singles`
asked for again. -/
def startedBoth : List Managed.Action :=
  [.send (.start Shared.singles), .send (.start neighbour), .send (.stop neighbour.id),
    .send (.start Shared.singles), .manage, .manage, .manage, .finish 1, .manage, .manage]

/-- Both queues get on as if the other were not there, though the key of the one begins with that of
the other. -/
theorem tenants_apart_side_by_side :
    ∃ e d w past, ({} : Estate).run? sideBySide = some e ∧
      ({} : Shared.World).run? Shared.singles (actionsFor Shared.singles.id sideBySide) =
        some (e.view Shared.singles) ∧
      (e.desks Shared.singles).history.head? = some (.ended 1 (.ok (.delivery (some d)))) ∧
      d.blob = [1] ∧ (e.store.rows neighbour.id).messages.map (·.message.blob) = [[2]] ∧
      Managed.Reachable {} w ∧
      .answered (.start Shared.singles) (.flag false) 1 :: past <:+ w.history ∧
      Fitting (past.filter (Event.about Shared.singles.id)) (.start Shared.singles)
        (.flag false) := by
  obtain ⟨e, d, hr, hd, hblob, hrest⟩ :
      ∃ e d, ({} : Estate).run? sideBySide = some e ∧
        (e.desks Shared.singles).history.head? = some (.ended 1 (.ok (.delivery (some d)))) ∧
        d.blob = [1] ∧ (e.store.rows neighbour.id).messages.map (·.message.blob) = [[2]] :=
    ⟨_, _, rfl, rfl, rfl, rfl⟩
  obtain ⟨w, past, hw, hpast⟩ :
      ∃ w past, ({} : Managed.World).run? {} startedBoth = some w ∧
        w.history = .answered (.start Shared.singles) (.flag false) 1 :: past :=
    ⟨_, _, rfl, rfl⟩
  have h : Managed.Reachable {} w := .run .fresh hw
  have hs : .answered (.start Shared.singles) (.flag false) 1 :: past <:+ w.history :=
    hpast ▸ List.suffix_refl _
  obtain ⟨halike, hruns, hmanaged⟩ := tenants_apart Shared.singles
  have hown : ∀ d ∈ sideBySide, d.queue.id = Shared.singles.id → d.queue = Shared.singles := by
    decide +kernel
  refine ⟨e, d, w, past, hr, (hruns _ e hr).2 fun d hd hq => hown d hd ((halike _).1.mpr hq), hd,
    hblob, hrest, h, hs, (hmanaged {} w h).1 _ _ _ _ rfl hs⟩

def slashedAccount : Queue :=
  ⟨"a/b", "c", 1, 1, none, Shared.singles.bucketSize_ne_zero,
    Shared.singles.maxDeliveries_ne_zero⟩

/-- A queue of another account, and with a slash in its name. -/
def slashedName : Queue :=
  ⟨"a", "b/c", 1, 1, none, Shared.singles.bucketSize_ne_zero,
    Shared.singles.maxDeliveries_ne_zero⟩

/-- The two queues have one key: what is put into the one is handed out from the other, which has
nothing put into it, and the manager holds the worker for the one to be a worker for the other. -/
theorem two_tenants_with_one_key :
    slashedAccount.account ≠ slashedName.account ∧ slashedAccount.name ≠ slashedName.name ∧
      slashedAccount.id = slashedName.id ∧
      (∃ e d, ({} : Estate).run? ((Shared.serve 0 (.put [1] 0) 6).map (⟨slashedAccount, ·⟩) ++
          (Shared.serve 0 (.receive 1 1000) 12).map (⟨slashedName, ·⟩)) = some e ∧
        (e.desks slashedName).history.head? = some (.ended 0 (.ok (.delivery (some d)))) ∧
        d.blob = [1]) ∧
      ∃ w, ({} : Managed.World).run? {} [.send (.start slashedAccount), .send (.start slashedName),
          .manage, .manage] = some w ∧
        w.history.head? = some (.answered (.start slashedName) (.flag false) 1) := by
  refine ⟨by decide, by decide, by decide, ⟨_, _, rfl, rfl, rfl⟩, _, rfl, rfl⟩

end LeaseQueue
