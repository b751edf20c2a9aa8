import DagMempool.Lib.Prefix
import DagMempool.Primary.HeaderQueue
import DagMempool.Primary.Ideal
import DagMempool.Proofs.PrimaryRule

/-!
# Which digests go into a header

The four slices keep arrays of their own, so that each turn of the loop can be followed on
lists. What the loop does to these is `Prefix.pick` on the digests of the snapshot with their
positions, since the checker may answer differently about two equal digests: the first ones
it has a quorum for are ready, the others remain as they stood.
-/

namespace DagMempool

namespace QueueSlices

/-- What the four slices hold. -/
def held (queue snapshot remaining ready : List BatchDigest) : QueueSlice → List BatchDigest
  | .queue => queue
  | .snapshot => snapshot
  | .remaining => remaining
  | .ready => ready

variable (grow : Nat → Nat) (maxBatches : Nat) (during : Meanwhile) {s : QueueSlices}
variable {queue snapshot remaining ready : List BatchDigest}

theorem holds_queue (h : s.Holds (held queue snapshot remaining ready))
    (digests : List BatchDigest) :
    (s.append grow .queue digests).Holds (held (queue ++ digests) snapshot remaining ready) := by
  have happend := GoSlice.Locals.Holds.append h grow .queue digests
  convert happend using 1
  funext i
  cases i <;> rfl

theorem holds_remaining (h : s.Holds (held queue snapshot remaining ready))
    (digests : List BatchDigest) :
    (s.append grow .remaining digests).Holds
      (held queue snapshot (remaining ++ digests) ready) := by
  have happend := GoSlice.Locals.Holds.append h grow .remaining digests
  convert happend using 1
  funext i
  cases i <;> rfl

theorem holds_ready (h : s.Holds (held queue snapshot remaining ready))
    (digests : List BatchDigest) :
    (s.append grow .ready digests).Holds (held queue snapshot remaining (ready ++ digests)) := by
  have happend := GoSlice.Locals.Holds.append h grow .ready digests
  convert happend using 1
  funext i
  cases i <;> rfl

theorem holds_addBatchDigests (h : s.Holds (held queue snapshot remaining ready))
    (digests : List BatchDigest) :
    (addBatchDigests grow s digests).Holds
      (held (queue ++ digests) snapshot remaining ready) := by
  induction digests generalizing s queue with
  | nil => simpa [addBatchDigests] using h
  | cons d digests ih => simpa [addBatchDigests] using ih (holds_queue grow h [d])

theorem holds_classify (h : s.Holds (held queue snapshot remaining ready)) {i : Nat}
    {d : BatchDigest} (hd : snapshot[i]? = some d) :
    (classify grow maxBatches during s i).Holds
      (if ready.length < maxBatches && during.acked i then
        held (queue ++ during.added i) snapshot remaining (ready ++ [d])
      else held (queue ++ during.added i) snapshot (remaining ++ [d]) ready) := by
  have hadded := holds_addBatchDigests grow h (during.added i)
  have hread : ((addBatchDigests grow s (during.added i)).read .snapshot)[i]? = some d := by
    rw [hadded.read]
    exact hd
  have hlen : ready.length = ((addBatchDigests grow s (during.added i)).slice .ready).len :=
    (hadded.holds .ready).length
  simp only [classify, hread, ← hlen]
  by_cases hfull : maxBatches ≤ ready.length
  · rw [if_pos hfull, if_neg (by simp [hfull])]
    exact holds_remaining grow hadded [d]
  · rw [if_neg hfull]
    cases hacked : during.acked i with
    | false => simpa using holds_remaining grow hadded [d]
    | true => simpa [Nat.lt_of_not_le hfull] using holds_ready grow hadded [d]

/-- The loop over digests of the snapshot, each with its position. -/
theorem holds_classify_all {entries : List (BatchDigest × Nat)}
    (h : s.Holds (held queue snapshot remaining ready))
    (hat : ∀ e ∈ entries, snapshot[e.2]? = some e.1) :
    let picked := Prefix.pick (fun e => during.acked e.2) entries (maxBatches - ready.length)
    ((entries.map Prod.snd).foldl (classify grow maxBatches during) s).Holds
      (held (queue ++ (entries.map Prod.snd).flatMap during.added) snapshot
        (remaining ++ picked.2.map Prod.fst) (ready ++ picked.1.map Prod.fst)) := by
  induction entries generalizing s queue remaining ready with
  | nil => simpa [Prefix.pick] using h
  | cons e entries ih =>
    have hturn := holds_classify grow maxBatches during h (hat e List.mem_cons_self)
    have hrest : ∀ e' ∈ entries, snapshot[e'.2]? = some e'.1 := fun e' he' =>
      hat e' (List.mem_cons_of_mem _ he')
    have hroom : decide (0 < maxBatches - ready.length) = decide (ready.length < maxBatches) :=
      decide_eq_decide.mpr (by omega)
    simp only [Prefix.pick_cons, hroom]
    split at hturn
    · next hready =>
        rw [if_pos hready]
        have hall := ih hturn hrest
        have hcount : maxBatches - (ready ++ [e.1]).length = maxBatches - ready.length - 1 := by
          rw [List.length_append, List.length_singleton]
          omega
        rw [hcount] at hall
        simpa using hall
    · next hwaits =>
        rw [if_neg hwaits]
        simpa using ih hturn hrest

theorem holds_start {m : GoSlice.Memory BatchDigest} {q : GoSlice.Slice}
    (h : GoSlice.Holds m q snapshot) : (start maxBatches m q).Holds (held [] snapshot [] []) := by
  have hclone := h.clone
  have hremaining := GoSlice.Holds.make (GoSlice.clone m q).1 (GoSlice.clone m q).2.len
  have halloc := h.allocated
  refine ⟨fun i => ?_, fun i j hij => ?_⟩
  · cases i with
    | queue => exact ((h.truncate.extend _).extend _).extend _
    | snapshot => exact (hclone.extend _).extend _
    | remaining => exact hremaining.extend _
    | ready => exact GoSlice.Holds.make _ _
  · -- The queue keeps its array, the others have the next three.
    cases i <;> cases j <;>
      simp_all [start, GoSlice.make, GoSlice.clone, GoSlice.Slice.truncate] <;> omega

/-- The digests of the snapshot, with their positions: those that become ready, and the
others. -/
def picked (maxBatches : Nat) (during : Meanwhile) (snapshot : List BatchDigest) :
    List (BatchDigest × Nat) × List (BatchDigest × Nat) :=
  Prefix.pick (fun e => during.acked e.2) snapshot.zipIdx maxBatches

theorem holds_sort {m : GoSlice.Memory BatchDigest} {q : GoSlice.Slice}
    (h : GoSlice.Holds m q snapshot) :
    (sort grow maxBatches during m q).Holds
      (held ((List.range snapshot.length).flatMap during.added ++ during.late) snapshot
        ((picked maxBatches during snapshot).2.map Prod.fst)
        ((picked maxBatches during snapshot).1.map Prod.fst)) := by
  have hstart := holds_start maxBatches h
  have hat : ∀ e ∈ snapshot.zipIdx, snapshot[e.2]? = some e.1 := fun e he =>
    List.mem_zipIdx_iff_getElem?.mp he
  have hall := holds_classify_all grow maxBatches during hstart hat
  have hlen : ((start maxBatches m q).slice .snapshot).len = snapshot.length :=
    (hstart.holds .snapshot).length.symm
  have hpos : snapshot.zipIdx.map Prod.snd = List.range snapshot.length := by
    rw [List.zipIdx_map_snd, List.range_eq_range']
  rw [hpos] at hall
  rw [sort, hlen]
  simpa [picked] using holds_addBatchDigests grow hall during.late

theorem contents_merge (h : s.Holds (held queue snapshot remaining ready)) :
    GoSlice.contents (merge grow s).1 (merge grow s).2 = remaining ++ queue := by
  have hremaining : GoSlice.Holds s.memory (s.slice .remaining) remaining := h.holds .remaining
  rw [merge, ← hremaining.length, h.read .queue]
  split
  · exact (hremaining.append grow queue).contents
  · next hnone =>
      rw [List.length_pos_iff, not_not] at hnone
      rw [hnone]
      exact (h.holds .queue).contents

end QueueSlices

namespace Primary

variable [Crypto] [SliceSort] {CS : Type} [CertificateStore CS] {κ : Type}
variable {p : Primary} {certStore : CS} {sink : CertSink κ CS} {k : κ} {grow : Nat → Nat}
variable {during : Meanwhile} {m : GoSlice.Memory BatchDigest} {q : GoSlice.Slice}
variable {order : IterOrder Vote} {now : Int}

theorem completeHeader_eq_some {digests : List BatchDigest} {header : Header}
    (h : (p.completeHeader certStore sink k digests order now).1 = some header) :
    header.batchRefs = digests ∧
      (p.completeHeader certStore sink k digests order now).2.1.batchDigests =
        p.batchDigests := by
  unfold completeHeader at h ⊢
  cases hbuild : p.buildHeader certStore digests now with
  | none => simp [hbuild] at h
  | some built =>
    simp only [hbuild, Option.some.injEq] at h ⊢
    subst h
    obtain ⟨sig, -, hheader⟩ := buildHeader_eq_some hbuild
    have hkeeps := (p.keeps_voted sink order now built.digest).survives
    have hvoted : p.Voted (Primary.selfVote
        { p with voteTracker := p.voteTracker.trackHeader built now } certStore sink k built
        order now).1 :=
      hkeeps.selfVote ⟨_, _, _, rfl⟩ fun _ _ => trivial
    obtain ⟨_, _, _, hdone⟩ := hkeeps.processPendingVotes hvoted
    refine ⟨by rw [hheader]; rfl, ?_⟩
    rw [hdone]

theorem tryCreateHeaderDuring_eq (hq : GoSlice.Holds m q p.batchDigests) :
    p.tryCreateHeaderDuring certStore sink k grow during m q order now =
      if !p.running then (none, p, certStore, k)
      else if p.batchDigests.isEmpty && !p.cfg.allowEmptyHeaders then (none, p, certStore, k)
      else
        let picked := QueueSlices.picked p.cfg.maxBatchesPerHeader during p.batchDigests
        { p with
          batchDigests := picked.2.map Prod.fst ++
            ((List.range p.batchDigests.length).flatMap during.added ++ during.late)
        }.completeHeader certStore sink k (picked.1.map Prod.fst) order now := by
  have hsort := QueueSlices.holds_sort grow p.cfg.maxBatchesPerHeader during hq
  have hempty : decide (q.len = 0) = p.batchDigests.isEmpty := by
    rw [← hq.length]
    exact Bool.eq_iff_iff.mpr (by simp)
  simp only [tryCreateHeaderDuring, hempty, QueueSlices.contents_merge grow hsort,
    hsort.read .ready]
  rfl

/-- A call that makes a header takes the first digests with a quorum, as many as a header
may have, and leaves the others in their order, with what was added behind them. -/
theorem header_takes_first_ready {header : Header} (hq : GoSlice.Holds m q p.batchDigests)
    (h : (p.tryCreateHeaderDuring certStore sink k grow during m q order now).1 = some header) :
    let queue :=
      (p.tryCreateHeaderDuring certStore sink k grow during m q order now).2.1.batchDigests
    let chosen := (p.batchDigests.zipIdx.filter fun e => during.acked e.2).take
      p.cfg.maxBatchesPerHeader
    let arrived := (List.range p.batchDigests.length).flatMap during.added ++ during.late
    header.batchRefs = chosen.map Prod.fst ∧
      queue = (p.batchDigests.zipIdx.filter fun e => decide (e ∉ chosen)).map Prod.fst ++ arrived ∧
      (header.batchRefs ++ queue).Perm (p.batchDigests ++ arrived) := by
  rw [tryCreateHeaderDuring_eq hq] at h ⊢
  split at h
  · simp at h
  split at h
  · simp at h
  next hrunning hallowed =>
    simp only [if_neg hrunning, if_neg hallowed]
    obtain ⟨hrefs, hqueue⟩ := completeHeader_eq_some h
    have hnodup : p.batchDigests.zipIdx.Nodup := by
      apply List.Nodup.of_map Prod.snd
      rw [List.zipIdx_map_snd]
      exact List.nodup_range'
    have hperm := (Prefix.pick_perm (fun e => during.acked e.2) p.batchDigests.zipIdx
      p.cfg.maxBatchesPerHeader).map Prod.fst
    rw [List.map_append, List.zipIdx_map_fst] at hperm
    refine ⟨?_, ?_, ?_⟩
    · rw [hrefs, QueueSlices.picked, Prefix.pick_fst]
    · rw [hqueue, QueueSlices.picked, Prefix.pick_snd _ hnodup]
      congr!
    · rw [hrefs, hqueue, ← List.append_assoc]
      exact hperm.append_right _

end Primary

section

open IdealScheme

def numberedDigest (n : Nat) : BatchDigest := { digest := n, workerID := 0, validatorID := 0 }

/-- A primary with three digests in its queue, and room for one in a header. -/
def queuedPrimary : Primary :=
  { PrimarySystem.startPrimary 0 (idealSigner 0)
      { idealPrimaryConfig with maxBatchesPerHeader := 1 }
      (idealValidators 4 0) with
    batchDigests := [numberedDigest 1, numberedDigest 2, numberedDigest 3] }

/-- The second and the third have a quorum. A digest comes in before the second is looked at,
one more after the third. -/
def busyMeanwhile : Meanwhile :=
  { added := fun i => if i = 1 then [numberedDigest 4] else []
    acked := fun i => decide (0 < i)
    late := [numberedDigest 5] }

/-- The array of the queue has room for one more. -/
def queueMemory : GoSlice.Memory BatchDigest :=
  [⟨queuedPrimary.batchDigests, 4, by decide⟩]

theorem header_takes_first_ready_one :
    let created := queuedPrimary.tryCreateHeaderDuring MemoryCertificateStore.new
      (fun (_ : Unit) certStore _ => ((), certStore)) () id busyMeanwhile queueMemory ⟨0, 3⟩
      .listed 0
    ∃ header, created.1 = some header ∧ header.batchRefs = [numberedDigest 2] ∧
      created.2.1.batchDigests =
        [numberedDigest 1, numberedDigest 3, numberedDigest 4, numberedDigest 5] := by
  intro created
  have hq : GoSlice.Holds queueMemory ⟨0, 3⟩ queuedPrimary.batchDigests :=
    ⟨_, rfl, by decide, rfl⟩
  have hcreated : created.1.isSome := by decide +kernel
  obtain ⟨header, hheader⟩ := Option.isSome_iff_exists.mp hcreated
  obtain ⟨hrefs, hqueue, -⟩ := Primary.header_takes_first_ready hq hheader
  refine ⟨header, hheader, ?_, ?_⟩
  · rw [hrefs]
    decide +kernel
  · rw [hqueue]
    decide +kernel

end

namespace Primary

theorem splitReady_eq_pick {hasAckQuorum : Hash → Bool} {acked : Nat → Bool} (maxBatches : Nat)
    (ready : List BatchDigest) {queue : List (BatchDigest × Nat)}
    (h : ∀ e ∈ queue, hasAckQuorum e.1.digest = acked e.2) :
    let picked := Prefix.pick (fun e => acked e.2) queue (maxBatches - ready.length)
    splitReady hasAckQuorum maxBatches ready (queue.map Prod.fst) =
      (ready ++ picked.1.map Prod.fst, picked.2.map Prod.fst) := by
  induction queue generalizing ready with
  | nil => simp [splitReady, Prefix.pick]
  | cons e queue ih =>
    have hroom : decide (0 < maxBatches - ready.length) = decide (ready.length < maxBatches) :=
      decide_eq_decide.mpr (by omega)
    have hqueue := fun ready => ih ready fun e' he' => h e' (List.mem_cons_of_mem e he')
    simp only [List.map_cons, splitReady, Prefix.pick_cons, hroom, h e List.mem_cons_self]
    split
    · have hcount : maxBatches - (ready ++ [e.1]).length = maxBatches - ready.length - 1 := by
        rw [List.length_append, List.length_singleton]
        omega
      rw [hqueue, hcount]
      simp
    · rw [hqueue]
      rfl

variable [Crypto] [SliceSort] {CS : Type} [CertificateStore CS] {κ : Type}
variable {p : Primary} {certStore : CS} {sink : CertSink κ CS} {k : κ} {grow : Nat → Nat}
variable {m : GoSlice.Memory BatchDigest} {q : GoSlice.Slice}
variable {order : IterOrder Vote} {now : Int}

/-- No digest comes in, and the checker keeps to its answers. -/
def undisturbed (p : Primary) (hasAckQuorum : Hash → Bool) : Meanwhile :=
  { added := fun _ => []
    acked := fun i => p.batchDigests[i]?.any fun d => hasAckQuorum d.digest
    late := [] }

/-- The call in one piece is the one on slices if nobody else is at work. -/
theorem tryCreateHeader_eq_during (hq : GoSlice.Holds m q p.batchDigests)
    (hasAckQuorum : Hash → Bool) :
    p.tryCreateHeader certStore sink k hasAckQuorum order now =
      p.tryCreateHeaderDuring certStore sink k grow (p.undisturbed hasAckQuorum) m q order now := by
  have hacked : ∀ e ∈ p.batchDigests.zipIdx,
      hasAckQuorum e.1.digest = (p.undisturbed hasAckQuorum).acked e.2 := by
    intro e he
    have hat : p.batchDigests[e.2]? = some e.1 := List.mem_zipIdx_iff_getElem?.mp he
    simp [undisturbed, hat]
  have hsplit := splitReady_eq_pick p.cfg.maxBatchesPerHeader [] hacked
  have hnone : (List.range p.batchDigests.length).flatMap (p.undisturbed hasAckQuorum).added ++
      (p.undisturbed hasAckQuorum).late = [] := by
    simp [undisturbed]
  rw [List.zipIdx_map_fst] at hsplit
  rw [tryCreateHeaderDuring_eq hq, hnone, tryCreateHeader, hsplit]
  simp only [List.append_nil]
  rfl

end Primary

section

open IdealScheme

theorem tryCreateHeader_eq_during_queued :
    GoSlice.Holds queueMemory ⟨0, 3⟩ queuedPrimary.batchDigests ∧
      (queuedPrimary.tryCreateHeaderDuring MemoryCertificateStore.new
        (fun (_ : Unit) certStore _ => ((), certStore)) () id
        (queuedPrimary.undisturbed fun d => decide (1 < d)) queueMemory ⟨0, 3⟩ .listed 0).1.map
          (·.batchRefs) = some [numberedDigest 2] := by
  have hq : GoSlice.Holds queueMemory ⟨0, 3⟩ queuedPrimary.batchDigests :=
    ⟨_, rfl, by decide, rfl⟩
  refine ⟨hq, ?_⟩
  rw [← Primary.tryCreateHeader_eq_during hq]
  decide +kernel

end

end DagMempool
