import DagMempool.Types.Certificate

/-!
# The ack tracker

The batches a worker created and the validators that acknowledged each. A batch
leaves the tracker only by timing out, and with it goes the record of its acks.
-/

namespace DagMempool

/-- `PendingBatch`; the set of validators that acked is a map to `Unit`. -/
structure PendingBatch where
  batch : Batch
  acks : GoMap UInt16 Unit
  createdAt : Int

structure AckTracker where
  pending : GoMap Hash PendingBatch
  quorum : Nat
  timeout : Int
  closed : Bool

namespace AckTracker

def new (quorum : Nat) (timeout : Int) : AckTracker :=
  { pending := ∅, quorum, timeout, closed := false }

def trackBatch (tracker : AckTracker) (batch : Batch) (now : Int) : AckTracker :=
  if tracker.closed then tracker
  else if tracker.pending.has batch.digest then tracker
  else
    let entry : PendingBatch := { batch, acks := ∅, createdAt := now }
    { tracker with pending := tracker.pending.set batch.digest entry }

/-- Whether the batch has its quorum after this ack. -/
def recordAck (tracker : AckTracker) (batchDigest : Hash) (validator : UInt16) :
    Bool × AckTracker :=
  if tracker.closed then (false, tracker)
  else match tracker.pending.get batchDigest with
    | none => (false, tracker)
    | some entry =>
      if entry.acks.has validator then
        (decide (tracker.quorum ≤ entry.acks.len), tracker)
      else
        let entry := { entry with acks := entry.acks.set validator () }
        (decide (tracker.quorum ≤ entry.acks.len),
          { tracker with pending := tracker.pending.set batchDigest entry })

/-- What `RecordAck` calls the quorum callback with, where there is one: the ack that lifts
the count of a batch from below the quorum to it reports the batch, and the time since it was
tracked. -/
def quorumCallback (tracker : AckTracker) (batchDigest : Hash) (validator : UInt16) (now : Int) :
    Option (Hash × Int) :=
  if tracker.closed then none
  else match tracker.pending.get batchDigest with
    | none => none
    | some entry =>
      if entry.acks.has validator then none
      else
        let wasBelow := decide (entry.acks.len < tracker.quorum)
        let atQuorum := decide (tracker.quorum ≤ (entry.acks.set validator ()).len)
        if wasBelow && atQuorum then some (batchDigest, now - entry.createdAt) else none

def hasQuorum (tracker : AckTracker) (batchDigest : Hash) : Bool :=
  match tracker.pending.get batchDigest with
  | none => false
  | some entry => decide (tracker.quorum ≤ entry.acks.len)

def pendingBelowQuorum (tracker : AckTracker) (minAge now : Int) : List Batch :=
  if tracker.closed then []
  else (tracker.pending.values.filter fun entry =>
    decide (entry.acks.len < tracker.quorum) && decide (entry.createdAt < now - minAge)).map
      (·.batch)

def removeTimedOut (tracker : AckTracker) (now : Int) : AckTracker :=
  let pending := tracker.pending.filter fun _ entry =>
    !decide (entry.createdAt < now - tracker.timeout)
  { tracker with pending }

def updateQuorum (tracker : AckTracker) (quorum : Nat) : AckTracker := { tracker with quorum }

def close (tracker : AckTracker) : AckTracker := { tracker with closed := true, pending := ∅ }

/-! ## What a call can do

The two calls that write leave the tracker as it is or set one entry: a new one without acks, or
the one there was with one ack more. -/

theorem trackBatch_cases (tracker : AckTracker) (batch : Batch) (now : Int) :
    tracker.trackBatch batch now = tracker ∨
      tracker.pending.has batch.digest = false ∧ tracker.trackBatch batch now = { tracker with
        pending := tracker.pending.set batch.digest { batch, acks := ∅, createdAt := now } } := by
  unfold trackBatch
  split
  · exact .inl rfl
  · split
    · exact .inl rfl
    · next hnew => exact .inr ⟨eq_false_of_ne_true hnew, rfl⟩

theorem recordAck_cases (tracker : AckTracker) (d : Hash) (v : UInt16) :
    (tracker.recordAck d v).2 = tracker ∨
      ∃ entry, tracker.pending.get d = some entry ∧ (tracker.recordAck d v).2 = { tracker with
        pending := tracker.pending.set d { entry with acks := entry.acks.set v () } } := by
  unfold recordAck
  split
  · exact .inl rfl
  · split
    · exact .inl rfl
    · next entry hget =>
        split
        · exact .inl rfl
        · exact .inr ⟨entry, hget, rfl⟩

theorem trackBatch_fields (tracker : AckTracker) (batch : Batch) (now : Int) :
    (tracker.trackBatch batch now).closed = tracker.closed ∧
      (tracker.trackBatch batch now).quorum = tracker.quorum := by
  rcases tracker.trackBatch_cases batch now with heq | ⟨-, heq⟩ <;> simp [heq]

theorem recordAck_fields (tracker : AckTracker) (d : Hash) (v : UInt16) :
    (tracker.recordAck d v).2.closed = tracker.closed ∧
      (tracker.recordAck d v).2.quorum = tracker.quorum := by
  rcases tracker.recordAck_cases d v with heq | ⟨entry, -, heq⟩ <;> simp [heq]

/-- The batch is tracked and has at least so many acknowledgments. -/
def Holds (tracker : AckTracker) (d : Hash) (n : Nat) : Prop :=
  ∃ entry, tracker.pending.get d = some entry ∧ n ≤ entry.acks.len

variable {tracker : AckTracker} {d : Hash} {n : Nat}

theorem holds_zero : tracker.Holds d 0 ↔ tracker.pending.has d = true := by
  rw [GoMap.has_iff]
  exact ⟨fun ⟨entry, hget, _⟩ => ⟨entry, hget⟩, fun ⟨entry, hget⟩ => ⟨entry, hget, Nat.zero_le _⟩⟩

theorem hasQuorum_iff : tracker.hasQuorum d = true ↔ tracker.Holds d tracker.quorum := by
  unfold hasQuorum Holds
  cases tracker.pending.get d with
  | none => simp
  | some entry => simp

theorem Holds.trackBatch (h : tracker.Holds d n) (batch : Batch) (now : Int) :
    (tracker.trackBatch batch now).Holds d n := by
  rcases tracker.trackBatch_cases batch now with heq | ⟨hnew, heq⟩
  · rwa [heq]
  · obtain ⟨entry, hget, hn⟩ := h
    rw [heq]
    refine ⟨entry, (GoMap.get_set_ne ?_).trans hget, hn⟩
    rintro rfl
    rw [GoMap.has, hget] at hnew
    cases hnew

theorem Holds.recordAck (h : tracker.Holds d n) (d' : Hash) (v : UInt16) :
    (tracker.recordAck d' v).2.Holds d n := by
  rcases tracker.recordAck_cases d' v with heq | ⟨entry', hget', heq⟩
  · rwa [heq]
  · obtain ⟨entry, hget, hn⟩ := h
    rw [heq]
    by_cases hd : d = d'
    · subst hd
      obtain rfl : entry = entry' := Option.some.inj (hget.symm.trans hget')
      exact ⟨_, GoMap.get_set_self _ _ _, Nat.le_trans hn (GoMap.len_le_set _ _ _)⟩
    · exact ⟨entry, (GoMap.get_set_ne hd).trans hget, hn⟩

end AckTracker

end DagMempool
