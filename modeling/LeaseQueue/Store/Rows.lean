import LeaseQueue.Store.Call

/-
  The rows of one queue, and what each storage call does to them.

  Messages are kept in the order of bucket and index, so a bucket is read in
  the order of its indices. The lemmas say which messages an operation leaves
  in the table.
-/

namespace LeaseQueue

/-- The four integer rows; `none` where nothing was written. -/
structure Cells where
  counter : Option Int64 := none
  readerBucket : Option Int64 := none
  invisibility : Option Int64 := none
  repairBucket : Option Int64 := none
  deriving DecidableEq, Repr

namespace Cells

def get (cs : Cells) : Cell → Option Int64
  | .counter => cs.counter
  | .readerBucket => cs.readerBucket
  | .invisibility => cs.invisibility
  | .repairBucket => cs.repairBucket

def set (cs : Cells) (c : Cell) (value : Int64) : Cells :=
  match c with
  | .counter => { cs with counter := some value }
  | .readerBucket => { cs with readerBucket := some value }
  | .invisibility => { cs with invisibility := some value }
  | .repairBucket => { cs with repairBucket := some value }

theorem get_set (cs : Cells) (c d : Cell) (value : Int64) :
    (cs.set c value).get d = if d = c then some value else cs.get d := by
  cases c <;> cases d <;> rfl

end Cells

structure Row where
  bucket : UInt64
  message : Message
  deriving DecidableEq, Repr

namespace Row

/-- The row's place in the table is the given one. -/
def sits (r : Row) (bucket index : UInt64) : Bool := r.bucket = bucket && r.message.index = index

/-- The row comes before the other one in the table. -/
def before (r s : Row) : Bool :=
  r.bucket < s.bucket || (r.bucket = s.bucket && r.message.index < s.message.index)

end Row

structure Rows where
  cells : Cells := {}
  messages : List Row := []
  /-- When each sealed bucket was sealed. -/
  seals : List (UInt64 × Instant) := []
  deriving DecidableEq, Repr

namespace Rows

/-- Puts a row in front of the first one that it comes before. -/
def insertRow (row : Row) : List Row → List Row
  | [] => [row]
  | r :: rest => if row.before r then row :: r :: rest else r :: insertRow row rest

def find? (rows : Rows) (bucket index : UInt64) : Option Message :=
  (rows.messages.find? (·.sits bucket index)).map Row.message

def inBucket (rows : Rows) (bucket : UInt64) : List Message :=
  (rows.messages.filter (·.bucket = bucket)).map Row.message

def insert (rows : Rows) (bucket : UInt64) (m : Message) : Rows :=
  { rows with messages := insertRow ⟨bucket, m⟩ rows.messages }

/-- Puts the message where one with its index is stored. -/
def replace (rows : Rows) (bucket : UInt64) (m : Message) : Rows :=
  { rows with
    messages := rows.messages.map fun r => if r.sits bucket m.index then ⟨bucket, m⟩ else r }

def removeBucket (rows : Rows) (bucket : UInt64) : Rows :=
  { rows with messages := rows.messages.filter (·.bucket ≠ bucket) }

def sealedAt? (rows : Rows) (bucket : UInt64) : Option Instant := rows.seals.lookup bucket

def addSeal (rows : Rows) (bucket : UInt64) (instant : Instant) : Rows :=
  { rows with seals := (bucket, instant) :: rows.seals }

/-- What a call answers, and the rows it leaves. -/
def apply (rows : Rows) : (c : Call) → c.Answer × Rows
  | .readCell cell => (rows.cells.get cell, rows)
  | .swapCell cell expected desired =>
    if rows.cells.get cell = expected then
      (.swapped, { rows with cells := rows.cells.set cell desired })
    else (.conflict (rows.cells.get cell), rows)
  | .insertMessage bucket m =>
    match rows.find? bucket m.index with
    | some _ => (false, rows)
    | none => (true, rows.insert bucket m)
  | .readMessage bucket index => (rows.find? bucket index, rows)
  | .readBucket bucket => (rows.inBucket bucket, rows)
  | .updateMessage bucket m condition =>
    match rows.find? bucket m.index with
    | none => (false, rows)
    | some stored => if condition.holds stored then (true, rows.replace bucket m) else (false, rows)
  | .insertTombstone bucket sealedAt =>
    match rows.sealedAt? bucket with
    | some earlier => (earlier, rows)
    | none => (sealedAt, rows.addSeal bucket sealedAt)
  | .readTombstone bucket => (rows.sealedAt? bucket, rows)
  | .deleteBucket bucket => ((), rows.removeBucket bucket)
  | .dropQueue => ((), {})

theorem mem_insertRow {row r : Row} {rows : List Row} :
    r ∈ insertRow row rows ↔ r = row ∨ r ∈ rows := by
  induction rows with
  | nil => simp [insertRow]
  | cons s rest ih =>
    unfold insertRow
    split
    · simp
    · simp only [List.mem_cons, ih]
      constructor
      · rintro (h | h | h)
        · exact .inr (.inl h)
        · exact .inl h
        · exact .inr (.inr h)
      · rintro (h | h | h)
        · exact .inr (.inl h)
        · exact .inl h
        · exact .inr (.inr h)

theorem mem_insert {rows : Rows} {bucket : UInt64} {m : Message} {r : Row} :
    r ∈ (rows.insert bucket m).messages ↔ r = ⟨bucket, m⟩ ∨ r ∈ rows.messages := mem_insertRow

theorem mem_replace {rows : Rows} {bucket : UInt64} {m : Message} {r : Row} :
    r ∈ (rows.replace bucket m).messages ↔
      (∃ s ∈ rows.messages, s.sits bucket m.index = true ∧ r = ⟨bucket, m⟩) ∨
        (r ∈ rows.messages ∧ r.sits bucket m.index = false) := by
  simp only [replace, List.mem_map]
  constructor
  · rintro ⟨s, hs, rfl⟩
    cases h : s.sits bucket m.index
    · exact .inr ⟨by simpa [h] using hs, by simp [h]⟩
    · exact .inl ⟨s, hs, h, by simp⟩
  · rintro (⟨s, hs, h, rfl⟩ | ⟨hr, h⟩)
    · exact ⟨s, hs, by simp [h]⟩
    · exact ⟨r, hr, by simp [h]⟩

theorem mem_removeBucket {rows : Rows} {bucket : UInt64} {r : Row} :
    r ∈ (rows.removeBucket bucket).messages ↔ r ∈ rows.messages ∧ r.bucket ≠ bucket := by
  simp [removeBucket]

theorem mem_inBucket {rows : Rows} {bucket : UInt64} {m : Message} :
    m ∈ rows.inBucket bucket ↔ ⟨bucket, m⟩ ∈ rows.messages := by
  simp only [inBucket, List.mem_map, List.mem_filter, decide_eq_true_eq]
  constructor
  · rintro ⟨⟨b, n⟩, ⟨h, rfl⟩, rfl⟩
    exact h
  · intro h
    exact ⟨_, ⟨h, rfl⟩, rfl⟩

end Rows

/-- The rows of every queue, by its key. A key not listed has no rows. -/
abbrev Store := List (String × Rows)

namespace Store

def rows (s : Store) (key : String) : Rows := (s.lookup key).getD {}

def setRows (key : String) (rows : Rows) : Store → Store
  | [] => [(key, rows)]
  | (k, r) :: rest => if k = key then (key, rows) :: rest else (k, r) :: setRows key rows rest

theorem rows_setRows (s : Store) (key other : String) (r : Rows) :
    rows (setRows key r s) other = if other = key then r else rows s other := by
  induction s with
  | nil =>
    by_cases h : other = key
    · subst h
      simp [setRows, rows]
    · have h' : (other == key) = false := by simpa using h
      simp [setRows, rows, List.lookup_cons, h, h']
  | cons e rest ih =>
    obtain ⟨k, v⟩ := e
    unfold setRows
    by_cases hk : k = key
    · subst hk
      by_cases h : other = k
      · subst h
        simp [rows]
      · have h' : (other == k) = false := by simpa using h
        simp [rows, List.lookup_cons, h, h']
    · by_cases h : other = k
      · subst h
        simp [rows, hk]
      · have h' : (other == k) = false := by simpa using h
        simp only [if_neg hk]
        simpa [rows, List.lookup_cons, h'] using ih

end Store

end LeaseQueue
