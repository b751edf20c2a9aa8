import DagMempool.Lib.GoSlice
import DagMempool.Primary.Primary

/-!
# The queue of digests while a header is created

`tryCreateHeader` takes a snapshot of the queue and empties it, gives up the lock, asks the
checker about one digest after the other, and puts what is not ready back in front of what
was added in the meantime. Here this is done on slices, as in the source, and other
goroutines are let in: digests may be added before each question and after the last, and the
checker may answer each time as it likes.
-/

namespace DagMempool

/-- What goes on while the digests of a snapshot are looked at in turn: what is added before
each of them, what the checker answers, and what is added after the last. -/
structure Meanwhile where
  added : Nat → List BatchDigest
  acked : Nat → Bool
  late : List BatchDigest

inductive QueueSlice where
  | queue
  | snapshot
  | remaining
  | ready
  deriving DecidableEq

abbrev QueueSlices := GoSlice.Locals QueueSlice BatchDigest

namespace QueueSlices

variable (grow : Nat → Nat)

/-- `AddBatchDigest`, as often as there are digests. -/
def addBatchDigests (s : QueueSlices) (digests : List BatchDigest) : QueueSlices :=
  digests.foldl (fun s d => s.append grow .queue [d]) s

/-- One turn of the loop over the snapshot. -/
def classify (maxBatches : Nat) (during : Meanwhile) (s : QueueSlices) (i : Nat) : QueueSlices :=
  let s := addBatchDigests grow s (during.added i)
  match (s.read .snapshot)[i]? with
  | none => s
  | some d =>
    if maxBatches ≤ (s.slice .ready).len then s.append grow .remaining [d]
    else if during.acked i then s.append grow .ready [d]
    else s.append grow .remaining [d]

/-- What is not ready, in front of what came in the meantime. -/
def merge (s : QueueSlices) : GoSlice.Memory BatchDigest × GoSlice.Slice :=
  if 0 < (s.slice .remaining).len then
    GoSlice.append grow s.memory (s.slice .remaining) (s.read .queue)
  else (s.memory, s.slice .queue)

/-- The snapshot, the emptied queue, and two slices to sort the snapshot into. -/
def start (maxBatches : Nat) (m : GoSlice.Memory BatchDigest) (q : GoSlice.Slice) : QueueSlices :=
  let snapshot := GoSlice.clone m q
  let remaining := GoSlice.make snapshot.1 snapshot.2.len
  let ready := GoSlice.make remaining.1 maxBatches
  { memory := ready.1
    slice := fun
      | .queue => q.truncate
      | .snapshot => snapshot.2
      | .remaining => remaining.2
      | .ready => ready.2 }

/-- The loop over the snapshot. -/
def sort (maxBatches : Nat) (during : Meanwhile) (m : GoSlice.Memory BatchDigest)
    (q : GoSlice.Slice) : QueueSlices :=
  let s := start maxBatches m q
  addBatchDigests grow
    ((List.range (s.slice .snapshot).len).foldl (classify grow maxBatches during) s) during.late

end QueueSlices

namespace Primary

variable [Crypto] [SliceSort] {CS : Type} [CertificateStore CS] {κ : Type}

/-- `tryCreateHeader` once the queue is settled. -/
def completeHeader (p : Primary) (certStore : CS) (sink : CertSink κ CS) (k : κ)
    (digests : List BatchDigest) (order : IterOrder Vote) (now : Int) :
    Option Header × Primary × CS × κ :=
  match p.buildHeader certStore digests now with
  | none => (none, p, certStore, k)
  | some header =>
    let p := { p with voteTracker := p.voteTracker.trackHeader header now }
    let voted := p.selfVote certStore sink k header order now
    (some header, voted.1.processPendingVotes voted.2.1 sink voted.2.2 header.digest order now)

/-- `tryCreateHeader` on the slice of the queue, with what goes on in the meantime. -/
def tryCreateHeaderDuring (p : Primary) (certStore : CS) (sink : CertSink κ CS) (k : κ)
    (grow : Nat → Nat) (during : Meanwhile) (m : GoSlice.Memory BatchDigest) (q : GoSlice.Slice)
    (order : IterOrder Vote) (now : Int) : Option Header × Primary × CS × κ :=
  if !p.running then (none, p, certStore, k)
  else if q.len = 0 && !p.cfg.allowEmptyHeaders then (none, p, certStore, k)
  else
    -- The source leaves out the loop and the merge if the snapshot is empty; the loop then
    -- has no turns, and nothing remains to be merged.
    let s := QueueSlices.sort grow p.cfg.maxBatchesPerHeader during m q
    let merged := QueueSlices.merge grow s
    { p with batchDigests := GoSlice.contents merged.1 merged.2 }.completeHeader certStore sink k
      (s.read .ready) order now

end Primary

end DagMempool
